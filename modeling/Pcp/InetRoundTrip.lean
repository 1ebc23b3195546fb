/-
`inet_pton` reads back what `inet_ntop` writes: `inetPton6 (inetNtop6 a)
= some a` for every address `a`, which is why `pcp_mapping_find` returns
the addresses `pcp_mapping_add` stored. `inet_ntop6` writes the words in
hex separated by `:`, its run of zero words (if any) as `::`, and for an
IPv4-compatible or IPv4-mapped address the last two words as a dotted
quad. Each piece is read by a lemma that consumes it and leaves the rest
of the text, as `inet_pton6`'s loop reads it; the lemmas on
`bestZeroRun` say that the words written as `::` are zeros.
-/
import Pcp.Inet

namespace Pcp

theorem hexDigitValue_digitChar : ∀ d < 16, hexDigitValue (Nat.digitChar d) = some d := by decide

theorem isDigit_digitChar : ∀ d < 10, (Nat.digitChar d).isDigit = true ∧ (Nat.digitChar d).toNat - 48 = d := by
  decide

theorem toDigits_length_le {b : Nat} (hb : 2 ≤ b) : ∀ {k n : Nat}, n < b ^ (k + 1) → (Nat.toDigits b n).length ≤ k + 1
  | 0, n, h => by rw [toDigits_eq hb]; simp [show n < b by simpa using h]
  | k + 1, n, h => by
    rw [toDigits_eq hb]
    split
    · simp
    · have : n / b < b ^ (k + 1) := Nat.div_lt_of_lt_mul (by rw [← Nat.pow_succ']; exact h)
      simpa using toDigits_length_le hb this

/-! ## `inet_pton4` -/

/-- `inet_pton4` reads an octet's decimal digits. -/
theorem inetPton4Go_decimal (done : List Nat) {octets : Nat} (ho : octets < 4) :
    ∀ {x : Nat}, x ≤ 255 → ∀ r, inetPton4Go (decimal x ++ r) done 0 false octets = inetPton4Go r done x true (octets + 1)
  | x, hx, r => by
    have hd := isDigit_digitChar (x % 10) (Nat.mod_lt _ (by decide))
    rw [decimal, toDigits_eq (by decide)]
    split
    · rename_i hx10
      rw [Nat.mod_eq_of_lt hx10] at hd
      simp [inetPton4Go, hd, Nat.mod_eq_of_lt hx10, show ¬ 255 < x by omega, show ¬ 4 < octets + 1 by omega]
    · rename_i hx10
      have ih := inetPton4Go_decimal done ho (x := x / 10) (by omega) ([Nat.digitChar (x % 10)] ++ r)
      rw [decimal] at ih
      rw [List.append_assoc, ih]
      simp only [List.singleton_append, inetPton4Go, hd, if_true]
      rw [if_neg (by omega), if_neg (by omega), if_neg (by simp), Nat.div_add_mod']
      rfl

theorem inetPton4Go_dot (r : List Char) (done : List Nat) (cur : Nat) {octets : Nat} (ho : octets ≠ 4) :
    inetPton4Go ('.' :: r) done cur true octets = inetPton4Go r (done ++ [cur]) 0 false octets := by
  simp [inetPton4Go, ho, show ('.').isDigit = false by decide]

/-- `inet_pton4` reads back the dotted quad `inet_ntop4` writes. -/
theorem inetPton4_inetNtop4 (l : List UInt8) (hl : l.length = 4) : inetPton4 (inetNtop4 l) = some l := by
  obtain ⟨b0, b1, b2, b3, rfl⟩ : ∃ b0 b1 b2 b3, l = [b0, b1, b2, b3] := by
    match l, hl with
    | [b0, b1, b2, b3], _ => exact ⟨b0, b1, b2, b3, rfl⟩
  have hb : ∀ b : UInt8, b.toNat ≤ 255 := fun b => Nat.lt_succ_iff.mp b.toBitVec.isLt
  have text : inetNtop4 [b0, b1, b2, b3] = decimal b0.toNat ++ '.' :: (decimal b1.toNat ++ '.' ::
      (decimal b2.toNat ++ '.' :: (decimal b3.toNat ++ []))) := by
    simp [inetNtop4, List.intercalate]
  rw [text, inetPton4, inetPton4Go_decimal [] (by decide) (hb b0), inetPton4Go_dot _ _ _ (by decide),
    inetPton4Go_decimal _ (by decide) (hb b1), inetPton4Go_dot _ _ _ (by decide),
    inetPton4Go_decimal _ (by decide) (hb b2), inetPton4Go_dot _ _ _ (by decide),
    inetPton4Go_decimal _ (by decide) (hb b3)]
  simp [inetPton4Go, u8_ofNat_toNat]

/-! ## `inet_pton6`, piece by piece -/

section Pton6

variable (c : List Char) (tp : List UInt8) (cp : Option Nat)

/-- The loop reads a word's hex digits. -/
theorem inetPton6Go_hex : ∀ {w : Nat}, w < 0x10000 → ∀ r,
    inetPton6Go c tp cp 0 0 (Nat.toDigits 16 w ++ r) = inetPton6Go c tp cp (Nat.toDigits 16 w).length w r
  | w, hw, r => by
    have hd := hexDigitValue_digitChar (w % 16) (Nat.mod_lt _ (by decide))
    rw [toDigits_eq (by decide)]
    split
    · rename_i h16
      rw [Nat.mod_eq_of_lt h16] at hd ⊢
      simp [inetPton6Go, hd, show ¬ w > 0xffff by omega]
    · rename_i h16
      have hlen : (Nat.toDigits 16 (w / 16)).length ≤ 2 + 1 := toDigits_length_le (by decide) (by omega)
      have ih := inetPton6Go_hex (w := w / 16) (by omega) ([Nat.digitChar (w % 16)] ++ r)
      rw [List.append_assoc, ih]
      simp only [List.singleton_append, inetPton6Go, hd]
      rw [if_neg (by omega), Nat.div_add_mod', if_neg (by omega), List.length_append, List.length_singleton]
      rfl

/-- Decimal digits, which are hex digits too, read after `n` digits worth `v`. -/
theorem inetPton6Go_digits : ∀ (ds : List Char) {n v : Nat}, (∀ ch ∈ ds, ∃ d < 10, ch = Nat.digitChar d) →
    n + ds.length ≤ 4 → v < 16 ^ n →
    ∃ v', ∀ r, inetPton6Go c tp cp n v (ds ++ r) = inetPton6Go c tp cp (n + ds.length) v' r
  | [], n, v, _, _, _ => ⟨v, fun _ => rfl⟩
  | ch :: ds, n, v, hds, hlen, hv => by
    obtain ⟨d, hd, rfl⟩ := hds ch (List.mem_cons_self _ _)
    have hpow : 16 ^ (n + 1) ≤ 16 ^ 4 := Nat.pow_le_pow_right (by decide) (by simp at hlen; omega)
    have hv' : v * 16 + d < 16 ^ (n + 1) := by rw [Nat.pow_succ]; omega
    obtain ⟨v', hv''⟩ := inetPton6Go_digits ds (n := n + 1) (fun ch h => hds ch (List.mem_cons_of_mem _ h))
      (by simp at hlen; omega) hv'
    refine ⟨v', fun r => ?_⟩
    rw [List.cons_append, inetPton6Go, hexDigitValue_digitChar d (by omega)]
    simp only
    rw [if_neg (by simp at hlen; omega), if_neg (by simp at hpow ⊢; omega), hv'', List.length_cons]
    congr 1; omega

/-- A `:` after a group writes the group's word. -/
theorem inetPton6Go_colon {n w : Nat} (hn : n ≠ 0) {r : List Char} (hr : r ≠ []) (htp : tp.length + 2 ≤ 16) :
    inetPton6Go c tp cp n w (':' :: r) = inetPton6Go r (tp ++ wordBytes w) cp 0 0 r := by
  simp [inetPton6Go, show hexDigitValue ':' = none by decide, hn, hr, show ¬ tp.length + 2 > 16 by omega]

/-- A `:` after a `:` marks where the `::` stands. -/
theorem inetPton6Go_double_colon (v : Nat) (r : List Char) :
    inetPton6Go c tp none 0 v (':' :: r) = inetPton6Go r tp (some tp.length) 0 v r := by
  simp [inetPton6Go, show hexDigitValue ':' = none by decide]

/-- The dotted quad after the last `:` goes through `inet_pton4`. -/
theorem inetPton6Go_dotted {bytes : List UInt8} (hb : bytes.length = 4) (htp : tp.length + 4 ≤ 16) :
    ∃ v, inetPton6Go (inetNtop4 bytes) tp cp 0 0 (inetNtop4 bytes) = some (tp ++ bytes, cp, 0, v) := by
  obtain ⟨b0, rest, rfl⟩ : ∃ b0 rest, bytes = b0 :: rest := List.exists_cons_of_length_eq_add_one hb
  have hrest : rest ≠ [] := by rintro rfl; simp at hb
  have htext : inetNtop4 (b0 :: rest) = decimal b0.toNat ++ '.' :: inetNtop4 rest := by
    obtain ⟨b1, rest', rfl⟩ := List.exists_cons_of_ne_nil hrest
    simp [inetNtop4, List.intercalate]
  have hlen : (decimal b0.toNat).length ≤ 2 + 1 :=
    toDigits_length_le (by decide) (by have : b0.toNat < 2 ^ 8 := b0.toBitVec.isLt; norm_num at this ⊢; omega)
  obtain ⟨v, hv⟩ := inetPton6Go_digits (inetNtop4 (b0 :: rest)) tp cp (decimal b0.toNat) (n := 0) (v := 0)
    (fun ch h => mem_toDigits (by decide) h) (by omega) (by decide)
  refine ⟨v, ?_⟩
  conv_lhs => arg 6; rw [htext]
  rw [hv, inetPton6Go, show hexDigitValue '.' = none by decide]
  simp [htp, inetPton4_inetNtop4 _ hb]

/-- The words `ws` in hex, separated by `:`. -/
def hexGroups : List Nat → List Char
  | [] => []
  | w :: ws => Nat.toDigits 16 w ++ ws.flatMap fun w => ':' :: Nat.toDigits 16 w

theorem hexGroups_cons_cons (w x : Nat) (ws : List Nat) :
    hexGroups (w :: x :: ws) = Nat.toDigits 16 w ++ ':' :: hexGroups (x :: ws) := by
  simp [hexGroups]

/-- The loop reads groups separated by `:`: each but the last is written,
and the last is pending. -/
theorem inetPton6Go_hexGroups (w : Nat) (hw : w < 0x10000) : ∀ (init : List Nat) (c : List Char) (tp : List UInt8),
    (∀ x ∈ init, x < 0x10000) → tp.length + 2 * init.length ≤ 16 → ∀ r, ∃ c',
      inetPton6Go c tp cp 0 0 (hexGroups (init ++ [w]) ++ r) =
        inetPton6Go c' (tp ++ init.flatMap wordBytes) cp (Nat.toDigits 16 w).length w r
  | [], c, tp, _, _, r => ⟨c, by simpa [hexGroups] using inetPton6Go_hex c tp cp hw r⟩
  | x :: init, c, tp, hinit, htp, r => by
    obtain ⟨y, l, hyl⟩ := List.exists_cons_of_ne_nil (List.append_ne_nil_of_right_ne_nil init (List.cons_ne_nil w []))
    have hx := hinit x (List.mem_cons_self _ _)
    obtain ⟨c', hc'⟩ := inetPton6Go_hexGroups w hw init (hexGroups (init ++ [w]) ++ r) (tp ++ wordBytes x)
      (fun x h => hinit x (List.mem_cons_of_mem _ h)) (by simp [wordBytes] at htp ⊢; omega) r
    refine ⟨c', ?_⟩
    have hne : hexGroups (init ++ [w]) ++ r ≠ [] := by
      rw [hyl]; simp [hexGroups, toDigits_ne_nil 16 y (by decide)]
    rw [List.cons_append, hyl, hexGroups_cons_cons, ← hyl, List.append_assoc, List.cons_append,
      inetPton6Go_hex c tp cp hx, inetPton6Go_colon _ _ _ (List.length_pos.mpr (toDigits_ne_nil 16 x (by decide))).ne'
        hne (by simp at htp; omega), hc', List.flatMap_cons, List.append_assoc]

end Pton6

/-! ## The end of `inet_pton6` -/

theorem inetPton6Finish_pending {tp : List UInt8} (cp : Option Nat) {n w : Nat} (hn : 0 < n) (htp : tp.length + 2 ≤ 16) :
    inetPton6Finish (tp, cp, n, w) = inetPton6Finish (tp ++ wordBytes w, cp, 0, 0) := by
  simp [inetPton6Finish, hn, show ¬ tp.length + 2 > 16 by omega]

theorem inetPton6Finish_full {tp : List UInt8} (h : tp.length = 16) (v : Nat) :
    inetPton6Finish (tp, none, 0, v) = some tp := by
  simp [inetPton6Finish, h]

theorem inetPton6Finish_widen {tp : List UInt8} (h : tp.length < 16) (c v : Nat) :
    inetPton6Finish (tp, some c, 0, v) = some (tp.take c ++ List.replicate (16 - tp.length) 0 ++ tp.drop c) := by
  simp [inetPton6Finish, h.ne]

/-! ## Words and bytes -/

theorem wordBytes_word (hi lo : UInt8) : wordBytes (hi.toNat * 256 + lo.toNat) = [hi, lo] := by
  have hh : hi.toNat < 2 ^ 8 := hi.toBitVec.isLt
  have hl : lo.toNat < 2 ^ 8 := lo.toBitVec.isLt
  simp only [wordBytes]
  rw [show (hi.toNat * 256 + lo.toNat) / 256 % 256 = hi.toNat by omega,
    show (hi.toNat * 256 + lo.toNat) % 256 = lo.toNat by omega, u8_ofNat_toNat, u8_ofNat_toNat]

theorem wordBytes_zero : wordBytes 0 = [0, 0] := rfl

theorem words_length : ∀ l : List UInt8, (words l).length = l.length / 2
  | [] => rfl
  | [_] => by simp [words]
  | _ :: _ :: r => by simp [words, words_length r]; omega

theorem words_lt : ∀ (l : List UInt8), ∀ w ∈ words l, w < 0x10000
  | [] => by simp [words]
  | [_] => by simp [words]
  | hi :: lo :: r => by
    have hh : hi.toNat < 2 ^ 8 := hi.toBitVec.isLt
    have hl : lo.toNat < 2 ^ 8 := lo.toBitVec.isLt
    simp only [words, List.mem_cons]
    rintro w (rfl | hw)
    · omega
    · exact words_lt r w hw

/-- The words of an even number of bytes give the bytes back. -/
theorem flatMap_wordBytes_words : ∀ l : List UInt8, l.length % 2 = 0 → (words l).flatMap wordBytes = l
  | [] => fun _ => rfl
  | [_] => fun h => by simp at h
  | hi :: lo :: r => fun h => by
    simp only [words, List.flatMap_cons, wordBytes_word, flatMap_wordBytes_words r (by simp at h; omega)]
    rfl

/-! ## The run written as `::` -/

/-- The `len` words from `base` on lie in `ws` and are zeros. -/
def ZeroRun.Zeros (r : ZeroRun) (ws : List Nat) : Prop :=
  0 ≤ r.base ∧ r.base + r.len ≤ ws.length ∧ ∀ i : Nat, r.base ≤ i → i < r.base + r.len → ws.getD i 0 = 0

/-- What the scan of `inet_ntop6` knows after `k` words: the best run is
none or zeros that end by `k`, and the current run is none or zeros that
end at `k`. -/
def ScanInv (ws : List Nat) (k : Nat) (st : ZeroRun × ZeroRun) : Prop :=
  (st.1.base = -1 ∨ st.1.Zeros ws ∧ st.1.base + st.1.len ≤ k) ∧
    (st.2.base = -1 ∨ st.2.Zeros ws ∧ st.2.base + st.2.len = k)

/-- A run of zeros that ends at `k` grows by a zero word at `k`. -/
theorem ZeroRun.Zeros.extend {ws : List Nat} {r : ZeroRun} {k : Nat} (hz : r.Zeros ws) (hend : r.base + r.len = k)
    (hk : k < ws.length) (hw : ws.getD k 0 = 0) : (⟨r.base, r.len + 1⟩ : ZeroRun).Zeros ws := by
  obtain ⟨h0, -, hz⟩ := hz
  refine ⟨h0, by push_cast; omega, fun i h1 h2 => ?_⟩
  by_cases hik : i = k
  · subst hik; exact hw
  · exact hz i h1 (by push_cast at h2; omega)

theorem scanInv_step {ws : List Nat} {k : Nat} {best cur : ZeroRun} (h : ScanInv ws k (best, cur))
    (hk : k < ws.length) : ScanInv ws (k + 1) (zeroRunStep (best, cur) (k, ws.getD k 0)) := by
  obtain ⟨hb, hc⟩ := h
  dsimp only at hb hc
  have hb' : best.base = -1 ∨ best.Zeros ws ∧ best.base + best.len ≤ (k + 1 : Nat) :=
    hb.imp_right fun h => ⟨h.1, by push_cast; omega⟩
  simp only [zeroRunStep]
  by_cases hw : ws.getD k 0 = 0
  · rw [if_pos hw]
    by_cases hcur : cur.base = -1
    · rw [if_pos hcur]
      refine ⟨hb', .inr ⟨⟨by simp only; omega, by simp; omega, fun i h1 h2 => ?_⟩, by simp⟩⟩
      obtain rfl : i = k := by simp at h1 h2; omega
      exact hw
    · obtain ⟨hz, hend⟩ := hc.resolve_left hcur
      rw [if_neg hcur]
      exact ⟨hb', .inr ⟨hz.extend hend hk hw, by simp; omega⟩⟩
  · rw [if_neg hw]
    by_cases hcur : cur.base = -1
    · rw [if_neg (not_not.mpr hcur)]
      exact ⟨hb', .inl hcur⟩
    · obtain ⟨hz, hend⟩ := hc.resolve_left hcur
      rw [if_pos hcur]
      refine ⟨?_, .inl rfl⟩
      split
      · exact .inr ⟨hz, by push_cast; omega⟩
      · exact hb'

theorem scanInv_foldl {ws : List Nat} : ∀ (l : List Nat) (k : Nat) (st : ZeroRun × ZeroRun), ws.drop k = l →
    ScanInv ws k st → ScanInv ws (k + l.length) ((l.enumFrom k).foldl zeroRunStep st)
  | [], k, st, _, h => h
  | w :: l, k, (best, cur), hl, h => by
    have hk : k < ws.length := by
      have := congrArg List.length hl; simp at this; omega
    have hw : ws.getD k 0 = w := by
      have := congrArg (·[0]?) hl; simp [List.getElem?_drop] at this; simp [this]
    have hl' : ws.drop (k + 1) = l := by rw [← List.drop_drop, hl]; rfl
    rw [List.enumFrom_cons, List.foldl_cons, List.length_cons, Nat.add_comm l.length, ← Nat.add_assoc]
    exact scanInv_foldl l (k + 1) _ hl' (hw ▸ scanInv_step h hk)

/-- The run `inet_ntop6` writes as `::` is none, or two or more zero words. -/
theorem bestZeroRun_zeros (ws : List Nat) :
    (bestZeroRun ws).base = -1 ∨ (bestZeroRun ws).Zeros ws ∧ 2 ≤ (bestZeroRun ws).len := by
  have h := scanInv_foldl ws 0 (⟨-1, 0⟩, ⟨-1, 0⟩) rfl ⟨.inl rfl, .inl rfl⟩
  rw [Nat.zero_add, ← List.enum_eq_enumFrom] at h
  unfold bestZeroRun
  generalize ws.enum.foldl zeroRunStep (⟨-1, 0⟩, ⟨-1, 0⟩) = st at h ⊢
  obtain ⟨best, cur⟩ := st
  obtain ⟨hb, hc⟩ := h
  dsimp only at hb hc ⊢
  generalize hlast : (if cur.base ≠ -1 ∧ (best.base = -1 ∨ cur.len > best.len) then cur else best) = r
  have hr : r.base = -1 ∨ r.Zeros ws := by
    subst hlast
    split
    · rename_i hcur; exact .inr (hc.resolve_left hcur.1).1
    · exact hb.imp_right (·.1)
  split
  · exact .inl rfl
  · rename_i hlen
    exact hr.imp_right fun hz => ⟨hz, by have := hz.1; omega⟩

/-! ## The text `inet_ntop6` writes -/

section Ntop

variable (ws : List Nat) (best : ZeroRun) (v4 : List Char)

/-- What the loop of `inet_ntop6` writes for word `i` when it does not end there. -/
def ntopChunk (i : Nat) : List Char :=
  if best.base ≠ -1 ∧ best.base ≤ i ∧ i < best.base + best.len then (if i = best.base then [':'] else [])
  else (if i ≠ 0 then [':'] else []) ++ Nat.toDigits 16 (ws.getD i 0)

/-- The words from `s` on, `k` of them. -/
def wordsFrom (s k : Nat) : List Nat := (List.range' s k).map (ws.getD · 0)

theorem wordsFrom_append (s k₁ k₂ : Nat) : wordsFrom ws s (k₁ + k₂) = wordsFrom ws s k₁ ++ wordsFrom ws (s + k₁) k₂ := by
  rw [wordsFrom, wordsFrom, wordsFrom, ← List.map_append, List.range'_append_1, Nat.add_comm]

theorem wordsFrom_succ (s k : Nat) : wordsFrom ws s (k + 1) = ws.getD s 0 :: wordsFrom ws (s + 1) k := by
  simp [wordsFrom, List.range'_succ]

/-- The loop writes chunk after chunk until it reaches the dotted quad. -/
theorem ntopWords_append : ∀ (is rest : List Nat),
    (∀ i ∈ is, i = 6 → ¬ (best.base = 0 ∧ (best.len = 6 ∨ (best.len = 5 ∧ ws.getD 5 0 = 0xffff)))) →
    ntopWords ws best v4 (is ++ rest) = is.flatMap (ntopChunk ws best) ++ ntopWords ws best v4 rest
  | [], _, _ => rfl
  | i :: is, rest, h => by
    have ih := ntopWords_append is rest (fun j hj => h j (List.mem_cons_of_mem _ hj))
    have hi : ¬ (i = 6 ∧ best.base = 0 ∧ (best.len = 6 ∨ (best.len = 5 ∧ ws.getD 5 0 = 0xffff))) :=
      fun hc => h i (List.mem_cons_self _ _) hc.1 hc.2
    rw [List.cons_append, ntopWords.eq_2, List.flatMap_cons, ntopChunk]
    split
    · rw [ih, List.append_assoc]
    · simp only [if_neg hi, ih, List.append_assoc]

/-- Words outside the run, after the first, are each written after a `:`. -/
theorem flatMap_ntopChunk_words : ∀ (s k : Nat), 0 < s →
    (∀ i, s ≤ i → i < s + k → ¬ (best.base ≠ -1 ∧ best.base ≤ i ∧ i < best.base + best.len)) →
    (List.range' s k).flatMap (ntopChunk ws best) = (wordsFrom ws s k).flatMap fun w => ':' :: Nat.toDigits 16 w
  | _, 0, _, _ => rfl
  | s, k + 1, hs, h => by
    rw [List.range'_succ, List.flatMap_cons, wordsFrom_succ, List.flatMap_cons,
      flatMap_ntopChunk_words (s + 1) k (by omega) (fun i h1 h2 => h i (by omega) (by omega))]
    simp [ntopChunk, h s le_rfl (by omega), hs.ne']

/-- The run is written as one `:`. -/
theorem flatMap_ntopChunk_run (b len : Nat) (hb : best.base = b) (hlen : best.len = len) (hpos : 0 < len) :
    (List.range' b len).flatMap (ntopChunk ws best) = [':'] := by
  obtain ⟨len, rfl⟩ : ∃ l, len = l + 1 := ⟨len - 1, by omega⟩
  have hrest : (List.range' (b + 1) len).flatMap (ntopChunk ws best) = [] :=
    List.flatMap_eq_nil_iff.mpr fun j hj => by
      rw [List.mem_range'_1] at hj
      rw [ntopChunk, if_pos ⟨by omega, by omega, by omega⟩, if_neg (by omega)]
  rw [List.range'_succ, List.flatMap_cons, hrest, ntopChunk, if_pos ⟨by omega, by omega, by omega⟩, if_pos hb.symm]
  rfl

/-- The first word and the ones after it, none in the run, are the groups. -/
theorem flatMap_ntopChunk_first (k : Nat)
    (h : ∀ i, i < k + 1 → ¬ (best.base ≠ -1 ∧ best.base ≤ i ∧ i < best.base + best.len)) :
    (List.range' 0 (k + 1)).flatMap (ntopChunk ws best) = hexGroups (wordsFrom ws 0 (k + 1)) := by
  rw [List.range'_succ, List.flatMap_cons, wordsFrom_succ, hexGroups,
    flatMap_ntopChunk_words ws best 1 k (by omega) (fun i _ h2 => h i (by omega)), ntopChunk,
    if_neg (h 0 (by omega))]
  rfl

end Ntop

/-! ## Reading the whole text -/

theorem inetPton6Go_nil (c : List Char) (tp : List UInt8) (cp : Option Nat) (n v : Nat) :
    inetPton6Go c tp cp n v [] = some (tp, cp, n, v) := rfl

theorem length_flatMap_wordBytes (l : List Nat) : (l.flatMap wordBytes).length = 2 * l.length := by
  induction l with
  | nil => rfl
  | cons w l ih => simp [wordBytes, ih]; omega

theorem bind_toAddr (a : In6Addr) :
    ((some a.s6Addr).bind fun b => if h : b.length = 16 then some ⟨b, h⟩ else none) = some a := by
  cases a; simp [*]

theorem inetPton6_of_run {src : List Char} (hsrc : src ≠ []) (hhead : src.head? ≠ some ':') {a : In6Addr}
    (h : inetPton6Run src = some a.s6Addr) : inetPton6 src = some a := by
  obtain ⟨ch, r, rfl⟩ := List.exists_cons_of_ne_nil hsrc
  have hch : ch ≠ ':' := fun e => hhead (by simp [e])
  unfold inetPton6
  split
  · rename_i h; cases h
  · rename_i h; cases h; exact absurd rfl hch
  · rw [h]; exact bind_toAddr a

theorem inetPton6_of_double_colon {r : List Char} {a : In6Addr} (h : inetPton6Run (':' :: r) = some a.s6Addr) :
    inetPton6 (':' :: ':' :: r) = some a := by
  show (inetPton6Run (':' :: r)).bind (fun b => if h : b.length = 16 then some ⟨b, h⟩ else none) = some a
  rw [h]; exact bind_toAddr a

theorem hexGroups_head (w : Nat) (ws : List Nat) (r : List Char) :
    hexGroups (w :: ws) ++ r ≠ [] ∧ (hexGroups (w :: ws) ++ r).head? ≠ some ':' := by
  obtain ⟨d, cs, hd, -, hdb⟩ : ∃ d cs, Nat.toDigits 16 w = Nat.digitChar d :: cs ∧ True ∧ d < 16 := by
    obtain ⟨c, cs, h⟩ := List.exists_cons_of_ne_nil (toDigits_ne_nil 16 w (by decide))
    obtain ⟨d, hd, rfl⟩ := mem_toDigits (b := 16) (by decide) (h ▸ List.mem_cons_self c cs)
    exact ⟨d, cs, h, trivial, hd⟩
  have hcolon : ∀ d < 16, Nat.digitChar d ≠ ':' := by decide
  simp [hexGroups, hd, hcolon d hdb]

/-- Eight groups with no `::` read back as their sixteen bytes. -/
theorem inetPton6Run_hexGroups {ws : List Nat} (hlt : ∀ w ∈ ws, w < 0x10000) (hlen : ws.length = 8) :
    inetPton6Run (hexGroups ws) = some (ws.flatMap wordBytes) := by
  obtain ⟨init, w, h⟩ := (List.eq_nil_or_concat ws).resolve_left (by rintro rfl; simp at hlen)
  rw [List.concat_eq_append] at h; subst h
  simp only [List.length_append, List.length_singleton] at hlen
  obtain ⟨c', hc'⟩ := inetPton6Go_hexGroups none w (hlt w (by simp)) init (hexGroups (init ++ [w])) []
    (fun x h => hlt x (by simp [h])) (by simp; omega) []
  have hflat := length_flatMap_wordBytes init
  rw [List.append_nil] at hc'
  rw [inetPton6Run, hc', List.nil_append, inetPton6Go_nil]
  simp only [Option.some_bind]
  rw [inetPton6Finish_pending _ (List.length_pos.mpr (toDigits_ne_nil 16 w (by decide))) (by omega),
    inetPton6Finish_full (by simp [hflat, wordBytes]; omega), List.flatMap_append]
  simp [wordBytes]

/-- After the `::`, the loop reads the groups that follow the run, and the
end widens the `::` with zero bytes. -/
theorem inetPton6Go_after_run (c : List Char) (tp : List UInt8) {tail : List Nat} (hlt : ∀ w ∈ tail, w < 0x10000)
    (hlen : tp.length + 2 * tail.length < 16) :
    (inetPton6Go c tp (some tp.length) 0 0 (hexGroups tail)).bind inetPton6Finish =
      some (tp ++ List.replicate (16 - tp.length - 2 * tail.length) 0 ++ tail.flatMap wordBytes) := by
  rcases List.eq_nil_or_concat tail with rfl | ⟨init, w, h⟩
  · rw [hexGroups, inetPton6Go_nil, Option.some_bind, inetPton6Finish_widen (by simpa using hlen)]
    simp
  · rw [List.concat_eq_append] at h; subst h
    simp only [List.length_append, List.length_singleton] at hlen
    obtain ⟨c', hc'⟩ := inetPton6Go_hexGroups (some tp.length) w (hlt w (by simp)) init c tp
      (fun x h => hlt x (by simp [h])) (by omega) []
    have hflat := length_flatMap_wordBytes init
    rw [List.append_nil] at hc'
    rw [hc', inetPton6Go_nil]
    simp only [Option.some_bind]
    rw [inetPton6Finish_pending _ (List.length_pos.mpr (toDigits_ne_nil 16 w (by decide)))
        (by rw [List.length_append, hflat]; omega),
      inetPton6Finish_widen (by simp [hflat, wordBytes]; omega)]
    simp [hflat, wordBytes, List.flatMap_append]
    omega

/-! ## The three shapes of the text -/

section Shapes

variable {ws : List Nat} {best : ZeroRun} (v4 : List Char)

theorem range_eq_three (b len : Nat) (h : b + len ≤ 8) :
    List.range 8 = List.range' 0 b ++ (List.range' b len ++ List.range' (b + len) (8 - (b + len))) := by
  have h2 := List.range'_append_1 0 b (8 - (b + len) + len)
  rw [Nat.zero_add] at h2
  rw [List.range'_append_1, h2, List.range_eq_range']
  congr 1; omega

theorem wordsFrom_zeros {b len : Nat} (hz : ∀ i : Nat, b ≤ i → i < b + len → ws.getD i 0 = 0) :
    wordsFrom ws b len = List.replicate len 0 := by
  rw [List.eq_replicate_iff]
  refine ⟨by simp [wordsFrom], fun x hx => ?_⟩
  obtain ⟨i, hi, rfl⟩ := List.mem_map.mp hx
  rw [List.mem_range'_1] at hi
  exact hz i hi.1 hi.2

theorem flatMap_wordBytes_zeros (n : Nat) : (List.replicate n 0).flatMap wordBytes = List.replicate (2 * n) 0 := by
  induction n with
  | zero => rfl
  | succ n ih =>
    rw [List.replicate_succ, List.flatMap_cons, ih, wordBytes_zero, show 2 * (n + 1) = 2 + 2 * n by omega,
      List.replicate_add]
    rfl

/-- With a run and no dotted quad, the text is the groups before the run, `::`,
and the groups after it. -/
theorem ntop_text_run (hz : best.Zeros ws) (hlen : ws.length = 8) (hpos : 0 < best.len)
    (hv4 : ¬ (best.base = 0 ∧ (best.len = 6 ∨ (best.len = 5 ∧ ws.getD 5 0 = 0xffff)))) {b : Nat} (hb : best.base = b) :
    ntopWords ws best v4 (List.range 8) ++ (if best.base ≠ -1 ∧ best.base + best.len = 8 then [':'] else []) =
      hexGroups (wordsFrom ws 0 b) ++ ':' :: ':' :: hexGroups (wordsFrom ws (b + best.len) (8 - (b + best.len))) := by
  obtain ⟨-, hend, -⟩ := hz
  rw [hb, hlen] at hend
  have hin : ∀ i : Nat, (best.base ≠ -1 ∧ best.base ≤ i ∧ i < best.base + best.len) ↔ b ≤ i ∧ i < b + best.len := by
    intro i; rw [hb]; omega
  have hfirst : (List.range' 0 b).flatMap (ntopChunk ws best) = hexGroups (wordsFrom ws 0 b) := by
    rcases Nat.eq_zero_or_pos b with rfl | hb0
    · rfl
    · obtain ⟨k, rfl⟩ : ∃ k, b = k + 1 := ⟨b - 1, by omega⟩
      exact flatMap_ntopChunk_first ws best k fun i hi h => by rw [hin] at h; omega
  have hlast : (List.range' (b + best.len) (8 - (b + best.len))).flatMap (ntopChunk ws best) ++
      (if best.base ≠ -1 ∧ best.base + best.len = 8 then [':'] else []) =
      ':' :: hexGroups (wordsFrom ws (b + best.len) (8 - (b + best.len))) := by
    rw [flatMap_ntopChunk_words ws best _ _ (by omega) fun i h1 _ h => by rw [hin] at h; omega]
    by_cases he : b + best.len = 8
    · rw [he, if_pos ⟨by omega, by omega⟩]; rfl
    · obtain ⟨k, hk⟩ : ∃ k, 8 - (b + best.len) = k + 1 := ⟨8 - (b + best.len) - 1, by omega⟩
      rw [if_neg (by omega), hk, wordsFrom_succ]
      simp [hexGroups]
  have happ := ntopWords_append ws best v4
    (List.range' 0 b ++ (List.range' b best.len ++ List.range' (b + best.len) (8 - (b + best.len)))) []
    (fun _ _ _ hc => hv4 hc)
  rw [List.append_nil] at happ
  rw [range_eq_three b best.len (by omega), happ,
    List.flatMap_append, List.flatMap_append, hfirst, flatMap_ntopChunk_run ws best b best.len hb rfl hpos]
  simp only [ntopWords, List.append_nil, List.append_assoc, hlast]
  rfl

/-- An IPv4-compatible address is written `::` and the dotted quad. -/
theorem ntop_text_v4 (hb : best.base = 0) (h6 : best.len = 6) :
    ntopWords ws best v4 (List.range 8) ++ (if best.base ≠ -1 ∧ best.base + best.len = 8 then [':'] else []) =
      ':' :: ':' :: v4 := by
  have hr : List.range 8 = List.range' 0 6 ++ [6, 7] := rfl
  rw [hr, ntopWords_append ws best v4 _ _ (fun i hi h => by simp at hi; omega),
    flatMap_ntopChunk_run ws best 0 6 hb h6 (by decide), if_neg (by rw [hb, h6]; decide)]
  simp [ntopWords, hb, h6]

/-- An IPv4-mapped address is written `::ffff:` and the dotted quad. -/
theorem ntop_text_v4_mapped (hb : best.base = 0) (h5 : best.len = 5) (hff : ws.getD 5 0 = 0xffff) :
    ntopWords ws best v4 (List.range 8) ++ (if best.base ≠ -1 ∧ best.base + best.len = 8 then [':'] else []) =
      ':' :: ':' :: (Nat.toDigits 16 0xffff ++ ':' :: v4) := by
  have hr : List.range 8 = List.range' 0 5 ++ [5] ++ [6, 7] := rfl
  rw [hr, ntopWords_append ws best v4 _ _ (fun i hi h => by simp at hi; omega), List.flatMap_append,
    flatMap_ntopChunk_run ws best 0 5 hb h5 (by decide), if_neg (by rw [hb, h5]; decide)]
  have hff' : ws[5]?.getD 0 = 0xffff := by simpa using hff
  simp [ntopWords, ntopChunk, hb, h5, hff']

end Shapes

/-! ## The round trip -/

section RoundTrip

variable (a : In6Addr)

theorem words_s6Addr_length : (words a.s6Addr).length = 8 := by rw [words_length, a.length_eq]

theorem flatMap_words_s6Addr : (words a.s6Addr).flatMap wordBytes = a.s6Addr :=
  flatMap_wordBytes_words _ (by rw [a.length_eq])

theorem wordsFrom_lt {ws : List Nat} (h : ∀ w ∈ ws, w < 0x10000) (s k : Nat) : ∀ w ∈ wordsFrom ws s k, w < 0x10000 := by
  intro w hw
  obtain ⟨i, -, rfl⟩ := List.mem_map.mp hw
  rw [List.getD_eq_getElem?_getD]
  cases hi : ws[i]? with
  | none => decide
  | some x => exact h x (List.mem_iff_getElem?.mpr ⟨i, hi⟩)

theorem length_wordsFrom (ws : List Nat) (s k : Nat) : (wordsFrom ws s k).length = k := by simp [wordsFrom]

theorem wordsFrom_zero (ws : List Nat) (s : Nat) : wordsFrom ws s 0 = [] := rfl

theorem wordsFrom_concat (ws : List Nat) (s k : Nat) : wordsFrom ws s (k + 1) = wordsFrom ws s k ++ [ws.getD (s + k) 0] := by
  rw [wordsFrom_append, wordsFrom_succ]; rfl

/-- The bytes of `a` are the bytes of its words from `0` to `8`, in any split. -/
theorem s6Addr_eq_wordsFrom : a.s6Addr = (wordsFrom (words a.s6Addr) 0 8).flatMap wordBytes := by
  have hw : wordsFrom (words a.s6Addr) 0 8 = words a.s6Addr := by
    apply List.ext_getElem
    · rw [length_wordsFrom, words_s6Addr_length]
    · intro i _ h2; simp [wordsFrom, List.getElem?_eq_getElem h2]
  rw [hw, flatMap_words_s6Addr]

/-- No run of zeros: eight groups. -/
theorem inetPton6_no_run (h : (bestZeroRun (words a.s6Addr)).base = -1) : inetPton6 (inetNtop6 a) = some a := by
  have htext : inetNtop6 a = hexGroups (wordsFrom (words a.s6Addr) 0 8) := by
    have happ := ntopWords_append (words a.s6Addr) (bestZeroRun (words a.s6Addr)) (inetNtop4 (a.s6Addr.drop 12))
      (List.range 8) [] (fun _ _ _ hc => by rw [h] at hc; exact absurd hc.1 (by decide))
    rw [List.append_nil] at happ
    dsimp only [inetNtop6]
    rw [happ, if_neg (by rw [h]; simp), List.append_nil, ntopWords, List.append_nil, List.range_eq_range',
      flatMap_ntopChunk_first _ _ 7 fun i _ hi => hi.1 h]
  have hlt := wordsFrom_lt (words_lt a.s6Addr) 0 8
  obtain ⟨w, l, hwl⟩ := List.exists_cons_of_length_eq_add_one (length_wordsFrom (words a.s6Addr) 0 8)
  rw [htext, ← List.append_nil (hexGroups _), hwl]
  refine inetPton6_of_run (hexGroups_head w l []).1 (hexGroups_head w l []).2 ?_
  rw [List.append_nil, ← hwl]
  rw [inetPton6Run_hexGroups hlt (length_wordsFrom _ _ _), ← s6Addr_eq_wordsFrom]

/-- The bytes of a run of zeros from `b` to `e`, split around it. -/
theorem s6Addr_eq_split {b len : Nat} (he : b + len ≤ 8)
    (hz : ∀ i : Nat, b ≤ i → i < b + len → (words a.s6Addr).getD i 0 = 0) :
    a.s6Addr = (wordsFrom (words a.s6Addr) 0 b).flatMap wordBytes ++ List.replicate (2 * len) 0 ++
      (wordsFrom (words a.s6Addr) (b + len) (8 - (b + len))).flatMap wordBytes := by
  conv_lhs => rw [s6Addr_eq_wordsFrom a, show 8 = b + (len + (8 - (b + len))) by omega, wordsFrom_append,
    wordsFrom_append, Nat.zero_add, wordsFrom_zeros hz, List.flatMap_append, List.flatMap_append,
    flatMap_wordBytes_zeros, ← List.append_assoc]

/-- A run of zeros with no dotted quad: the groups, `::`, the groups. -/
theorem inetPton6_run (hz : (bestZeroRun (words a.s6Addr)).Zeros (words a.s6Addr))
    (h2 : 2 ≤ (bestZeroRun (words a.s6Addr)).len)
    (hv4 : ¬ ((bestZeroRun (words a.s6Addr)).base = 0 ∧ ((bestZeroRun (words a.s6Addr)).len = 6 ∨
      ((bestZeroRun (words a.s6Addr)).len = 5 ∧ (words a.s6Addr).getD 5 0 = 0xffff)))) :
    inetPton6 (inetNtop6 a) = some a := by
  obtain ⟨b, hb⟩ : ∃ b : Nat, (bestZeroRun (words a.s6Addr)).base = b :=
    ⟨(bestZeroRun (words a.s6Addr)).base.toNat, by have := hz.1; omega⟩
  obtain ⟨len, hlen⟩ : ∃ len, (bestZeroRun (words a.s6Addr)).len = len := ⟨_, rfl⟩
  have he : b + len ≤ 8 := by have := hz.2.1; rw [hb, hlen, words_s6Addr_length] at this; omega
  have hzeros : ∀ i : Nat, b ≤ i → i < b + len → (words a.s6Addr).getD i 0 = 0 := fun i h1 h2 =>
    hz.2.2 i (by rw [hb]; omega) (by rw [hb, hlen]; omega)
  have htext := ntop_text_run (inetNtop4 (a.s6Addr.drop 12)) hz (words_s6Addr_length a) (by omega) hv4 hb
  have hlt := wordsFrom_lt (words_lt a.s6Addr)
  have htail := length_wordsFrom (words a.s6Addr) (b + len) (8 - (b + len))
  have hbytes := s6Addr_eq_split a he hzeros
  dsimp only [inetNtop6]
  rw [htext, hlen]
  rcases Nat.eq_zero_or_pos b with rfl | hb0
  · refine inetPton6_of_double_colon ?_
    rw [inetPton6Run, inetPton6Go_double_colon,
      inetPton6Go_after_run _ [] (hlt _ _) (by rw [List.length_nil, htail]; omega)]
    conv_rhs => rw [hbytes]
    rw [List.length_nil, htail, wordsFrom_zero, List.flatMap_nil, List.nil_append, List.nil_append]
    congr 3; omega
  · obtain ⟨k, rfl⟩ : ∃ k, b = k + 1 := ⟨b - 1, by omega⟩
    rw [wordsFrom_concat] at hbytes ⊢
    have hk : (wordsFrom (words a.s6Addr) 0 k).length = k := length_wordsFrom _ _ _
    obtain ⟨w, l, hwl⟩ : ∃ w l, wordsFrom (words a.s6Addr) 0 k ++ [(words a.s6Addr).getD (0 + k) 0] = w :: l :=
      List.exists_cons_of_ne_nil (by simp)
    refine inetPton6_of_run (hwl ▸ (hexGroups_head w l _).1) (hwl ▸ (hexGroups_head w l _).2) ?_
    obtain ⟨c', hc'⟩ := inetPton6Go_hexGroups none _
      (hlt 0 (k + 1) ((words a.s6Addr).getD (0 + k) 0) (by rw [wordsFrom_concat]; simp))
      (wordsFrom (words a.s6Addr) 0 k) _ [] (hlt 0 k) (by simp [hk]; omega)
      (':' :: ':' :: hexGroups (wordsFrom (words a.s6Addr) (k + 1 + len) (8 - (k + 1 + len))))
    have hpre : ([] ++ (wordsFrom (words a.s6Addr) 0 k).flatMap wordBytes ++
        wordBytes ((words a.s6Addr).getD (0 + k) 0)).length = 2 * (k + 1) := by
      simp only [List.nil_append, List.length_append, length_flatMap_wordBytes, hk, wordBytes, List.length_cons,
        List.length_nil]
      omega
    rw [inetPton6Run, hc', inetPton6Go_colon _ _ _ (List.length_pos.mpr (toDigits_ne_nil 16 _ (by decide))).ne'
        (by simp) (by simp only [List.nil_append, length_flatMap_wordBytes, hk]; omega),
      inetPton6Go_double_colon, inetPton6Go_after_run _ _ (hlt _ _) (by rw [hpre, htail]; omega)]
    conv_rhs => rw [hbytes]
    rw [hpre, htail, List.flatMap_append, List.nil_append, List.flatMap_singleton]
    congr 4; omega

/-- An IPv4-compatible address: `::` and the dotted quad. -/
theorem inetPton6_v4 (hz : (bestZeroRun (words a.s6Addr)).Zeros (words a.s6Addr))
    (hb : (bestZeroRun (words a.s6Addr)).base = 0) (h6 : (bestZeroRun (words a.s6Addr)).len = 6) :
    inetPton6 (inetNtop6 a) = some a := by
  have hzeros : ∀ i : Nat, 0 ≤ i → i < 0 + 6 → (words a.s6Addr).getD i 0 = 0 := fun i _ h2 =>
    hz.2.2 i (by rw [hb]; omega) (by rw [hb, h6]; omega)
  have hbytes := s6Addr_eq_split a (by decide) hzeros
  have hdrop : a.s6Addr.drop 12 = (wordsFrom (words a.s6Addr) (0 + 6) (8 - (0 + 6))).flatMap wordBytes := by
    conv_lhs => rw [hbytes]
    exact List.drop_left' rfl
  have h4 : (a.s6Addr.drop 12).length = 4 := by simp [a.length_eq]
  obtain ⟨v, hv⟩ := inetPton6Go_dotted [] (some 0) h4 (by decide)
  dsimp only [inetNtop6]
  rw [ntop_text_v4 _ hb h6]
  refine inetPton6_of_double_colon ?_
  rw [inetPton6Run, inetPton6Go_double_colon, List.length_nil, hv, Option.some_bind,
    inetPton6Finish_widen (by rw [List.nil_append, h4]; decide), List.nil_append, h4, hdrop]
  conv_rhs => rw [hbytes]
  rfl

/-- An IPv4-mapped address: `::ffff:` and the dotted quad. -/
theorem inetPton6_v4_mapped (hz : (bestZeroRun (words a.s6Addr)).Zeros (words a.s6Addr))
    (hb : (bestZeroRun (words a.s6Addr)).base = 0) (h5 : (bestZeroRun (words a.s6Addr)).len = 5)
    (hff : (words a.s6Addr).getD 5 0 = 0xffff) :
    inetPton6 (inetNtop6 a) = some a := by
  have hzeros : ∀ i : Nat, 0 ≤ i → i < 0 + 5 → (words a.s6Addr).getD i 0 = 0 := fun i _ h2 =>
    hz.2.2 i (by rw [hb]; omega) (by rw [hb, h5]; omega)
  have hbytes := s6Addr_eq_split a (by decide) hzeros
  rw [show 8 - (0 + 5) = 2 + 1 from rfl, wordsFrom_succ, hff, List.flatMap_cons] at hbytes
  have hdrop : a.s6Addr.drop 12 = (wordsFrom (words a.s6Addr) (0 + 5 + 1) 2).flatMap wordBytes := by
    conv_lhs => rw [hbytes]
    rw [← List.append_assoc]
    exact List.drop_left' rfl
  have h4 : (a.s6Addr.drop 12).length = 4 := by simp [a.length_eq]
  have hne : inetNtop4 (a.s6Addr.drop 12) ≠ [] := by
    obtain ⟨b0, rest, h⟩ := List.exists_cons_of_length_eq_add_one h4
    rw [h]
    cases rest <;> simp [inetNtop4, List.intercalate, decimal, toDigits_ne_nil _ _ (show 2 ≤ 10 by decide)]
  obtain ⟨v, hv⟩ := inetPton6Go_dotted ([] ++ wordBytes 0xffff) (some 0) h4 (by decide)
  dsimp only [inetNtop6]
  rw [ntop_text_v4_mapped _ hb h5 hff]
  refine inetPton6_of_double_colon ?_
  rw [inetPton6Run, inetPton6Go_double_colon, List.length_nil, inetPton6Go_hex _ _ _ (by decide),
    inetPton6Go_colon _ _ _ (by decide) hne (by decide), hv, Option.some_bind,
    inetPton6Finish_widen (by rw [List.length_append, h4]; decide), hdrop]
  conv_rhs => rw [hbytes]
  rfl

/-- **`inet_pton` reads back what `inet_ntop` writes**, for every address:
`apteryx_get_ipv6_addr` returns the address `apteryx_set_ipv6_addr` stored. -/
theorem inetPton6_inetNtop6 : inetPton6 (inetNtop6 a) = some a := by
  rcases bestZeroRun_zeros (words a.s6Addr) with hnone | ⟨hz, h2⟩
  · exact inetPton6_no_run a hnone
  · by_cases hv4 : (bestZeroRun (words a.s6Addr)).base = 0 ∧ ((bestZeroRun (words a.s6Addr)).len = 6 ∨
        ((bestZeroRun (words a.s6Addr)).len = 5 ∧ (words a.s6Addr).getD 5 0 = 0xffff))
    · obtain ⟨hb, h6 | ⟨h5, hff⟩⟩ := hv4
      · exact inetPton6_v4 a hz hb h6
      · exact inetPton6_v4_mapped a hz hb h5 hff
    · exact inetPton6_run a hz h2 hv4

end RoundTrip

end Pcp
