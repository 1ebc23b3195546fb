/-
C's integers and the C library's number texts, as `pcp.c` and the
Apteryx calls it makes use them.

An `int` is 32 bits. A conversion into `int`, and `int` arithmetic that
overflows, wrap as the compiled code does (`Int.bmod`); `%` truncates
toward zero (`Int.tmod`). The unsigned types are Lean's `UInt32`,
`UInt16` and `UInt8`, and converting an `int` into one of them reduces
it modulo the type's size.

Apteryx stores numbers as text: `apteryx_set_int` writes
`printf ("%d", v)` and `apteryx_get_int` reads it back with `strtol` in
base 0. The mapping code reads ids out of paths with `atoi` and
`sscanf ("%d")`. What the store proofs need of these are round trips:
`strtol`, `atoi` and `sscanf` read a `%d` text back to its value.
-/
import Mathlib.Tactic.Ring
import Mathlib.Data.List.Basic
import Mathlib.Data.Nat.Digits

namespace Pcp

/-! ## Integers -/

/-- `INT_MAX`. -/
def intMax : Int := 2147483647

/-- `x` is a value of type `int`. -/
def IsCInt (x : Int) : Prop := -2 ^ 31 ≤ x ∧ x < 2 ^ 31

instance (x : Int) : Decidable (IsCInt x) := inferInstanceAs (Decidable (_ ∧ _))

/-- A value converted to `int`, or `int` arithmetic that overflows: the
32-bit two's-complement wrap of the compiled code. -/
def toInt (x : Int) : Int := x.bmod (2 ^ 32)

/-- An `int` converted to `u_int32_t`. -/
def toU32 (x : Int) : UInt32 := UInt32.ofNat (x % 2 ^ 32).toNat

/-- An `int` converted to `u_int16_t`. -/
def toU16 (x : Int) : UInt16 := UInt16.ofNat (x % 2 ^ 16).toNat

/-- An `int` converted to `u_int8_t`. -/
def toU8 (x : Int) : UInt8 := UInt8.ofNat (x % 2 ^ 8).toNat

theorem toInt_of_range {x : Int} (h1 : -2 ^ 31 ≤ x) (h2 : x < 2 ^ 31) : toInt x = x := by
  rw [toInt, Int.bmod_def]
  split <;> omega

theorem toInt_of_isCInt {x : Int} (h : IsCInt x) : toInt x = x := toInt_of_range h.1 h.2

theorem toInt_range (x : Int) : -2 ^ 31 ≤ toInt x ∧ toInt x < 2 ^ 31 :=
  ⟨by simpa using Int.le_bmod (x := x) (m := 2 ^ 32) (by decide),
    by simpa using Int.bmod_lt (x := x) (m := 2 ^ 32) (by decide)⟩

@[simp] theorem toInt_toInt (x : Int) : toInt (toInt x) = toInt x :=
  toInt_of_range (toInt_range x).1 (toInt_range x).2

theorem toInt_emod (x : Int) : toInt x % 2 ^ 32 = x % 2 ^ 32 := by
  rw [toInt]; exact_mod_cast Int.bmod_emod (x := x) (m := 2 ^ 32)

theorem u32_ofNat_toNat (u : UInt32) : UInt32.ofNat u.toNat = u :=
  UInt32.toNat.inj (show u.toNat % 2 ^ 32 = u.toNat from Nat.mod_eq_of_lt u.toBitVec.isLt)

theorem u16_ofNat_toNat (u : UInt16) : UInt16.ofNat u.toNat = u :=
  UInt16.toNat.inj (show u.toNat % 2 ^ 16 = u.toNat from Nat.mod_eq_of_lt u.toBitVec.isLt)

theorem u8_ofNat_toNat (u : UInt8) : UInt8.ofNat u.toNat = u :=
  UInt8.toNat.inj (show u.toNat % 2 ^ 8 = u.toNat from Nat.mod_eq_of_lt u.toBitVec.isLt)

/-- A `u_int32_t` passed as an `int` and read back is itself. -/
@[simp] theorem toU32_toInt (u : UInt32) : toU32 (toInt u.toNat) = u := by
  have hu : u.toNat < 2 ^ 32 := u.toBitVec.isLt
  have h : toInt u.toNat % 2 ^ 32 = u.toNat := by rw [toInt_emod]; omega
  rw [toU32, h, Int.toNat_ofNat, u32_ofNat_toNat]

@[simp] theorem toU16_toInt (u : UInt16) : toU16 (toInt u.toNat) = u := by
  have hu : u.toNat < 2 ^ 16 := u.toBitVec.isLt
  rw [toU16, toInt_of_range (by omega) (by omega), Int.emod_eq_of_lt (by omega) (by omega),
    Int.toNat_ofNat, u16_ofNat_toNat]

@[simp] theorem toU8_toInt (u : UInt8) : toU8 (toInt u.toNat) = u := by
  have hu : u.toNat < 2 ^ 8 := u.toBitVec.isLt
  rw [toU8, toInt_of_range (by omega) (by omega), Int.emod_eq_of_lt (by omega) (by omega),
    Int.toNat_ofNat, u8_ofNat_toNat]

/-! ## Digits -/

theorem toDigitsCore_acc (b : Nat) : ∀ (f n : Nat) (ds : List Char),
    Nat.toDigitsCore b f n ds = Nat.toDigitsCore b f n [] ++ ds
  | 0, _, _ => rfl
  | f + 1, n, ds => by
    simp only [Nat.toDigitsCore]
    split
    · rfl
    · rw [toDigitsCore_acc b f _ (_ :: ds), toDigitsCore_acc b f _ [_]]; simp

theorem toDigitsCore_fuel {b : Nat} (hb : 2 ≤ b) : ∀ (f g n : Nat) (ds : List Char), n < f → n < g →
    Nat.toDigitsCore b f n ds = Nat.toDigitsCore b g n ds
  | 0, _, _, _, h, _ => absurd h (Nat.not_lt_zero _)
  | _, 0, _, _, _, h => absurd h (Nat.not_lt_zero _)
  | f + 1, g + 1, n, ds, hf, hg => by
    simp only [Nat.toDigitsCore]
    split
    · rfl
    · rename_i h
      have : n / b < n := Nat.div_lt_self (Nat.pos_of_ne_zero fun h0 => by simp [h0] at h) (by omega)
      exact toDigitsCore_fuel hb f g (n / b) _ (by omega) (by omega)

/-- The last digit comes off the end. -/
theorem toDigits_eq {b : Nat} (hb : 2 ≤ b) (n : Nat) :
    Nat.toDigits b n = (if n < b then [] else Nat.toDigits b (n / b)) ++ [Nat.digitChar (n % b)] := by
  unfold Nat.toDigits
  conv_lhs => simp only [Nat.toDigitsCore]
  by_cases hn : n < b
  · simp [hn, Nat.div_eq_of_lt hn]
  · have h0 : n / b ≠ 0 := by rw [Nat.div_ne_zero_iff (by omega)]; omega
    have : n / b < n := Nat.div_lt_self (by omega) (by omega)
    rw [if_neg h0, if_neg hn, toDigitsCore_acc, toDigitsCore_fuel hb n (n / b + 1) _ _ this (by omega)]

/-- Every character `Nat.toDigits b` writes is the digit of some `d < b`. -/
theorem mem_toDigits {b : Nat} (hb : 2 ≤ b) {n : Nat} {c : Char} (hc : c ∈ Nat.toDigits b n) :
    ∃ d < b, c = Nat.digitChar d := by
  induction n using Nat.strong_induction_on with
  | _ n ih =>
    rw [toDigits_eq hb] at hc
    simp only [List.mem_append, List.mem_singleton] at hc
    rcases hc with hc | rfl
    · split at hc
      · simp at hc
      · exact ih (n / b) (Nat.div_lt_self (by omega) (by omega)) hc
    · exact ⟨n % b, Nat.mod_lt _ (by omega), rfl⟩

/-- A positive number's first digit is not `0`. -/
theorem toDigits_head {b : Nat} (hb : 2 ≤ b) {n : Nat} (hn : 0 < n) :
    ∃ d cs, Nat.toDigits b n = Nat.digitChar d :: cs ∧ 0 < d ∧ d < b := by
  induction n using Nat.strong_induction_on with
  | _ n ih =>
    rw [toDigits_eq hb]
    by_cases hnb : n < b
    · exact ⟨n, [], by simp [hnb, Nat.mod_eq_of_lt hnb], hn, hnb⟩
    · obtain ⟨d, cs, h, hd⟩ := ih (n / b) (Nat.div_lt_self hn (by omega))
        (Nat.div_pos (by omega) (by omega))
      exact ⟨d, cs ++ [Nat.digitChar (n % b)], by simp [hnb, h], hd⟩

theorem toDigits_ne_nil (b n : Nat) (hb : 2 ≤ b) : Nat.toDigits b n ≠ [] := by
  rw [toDigits_eq hb]; simp

/-! ## Reading numbers -/

/-- `isspace` in the C locale. -/
def isSpace (c : Char) : Bool := c.toNat = 32 || (9 ≤ c.toNat && c.toNat ≤ 13)

/-- The value of `c` as a digit, as `strtol` reads it: letters count from ten. -/
def digitValue (c : Char) : Option Nat :=
  if c.isDigit then some (c.toNat - 48)
  else if c.isLower then some (c.toNat - 87)
  else if c.isUpper then some (c.toNat - 55)
  else none

/-- The digits of `base` at the front of the text, read into `acc`: the
value and the text after them. -/
def readDigits (base : Nat) : List Char → Nat → Nat × List Char
  | [], acc => (acc, [])
  | c :: s, acc =>
    match digitValue c with
    | some d => if d < base then readDigits base s (acc * base + d) else (acc, c :: s)
    | none => (acc, c :: s)

/-- The sign `strtol` reads: whether it is `-`, and the text after it. -/
def readSign : List Char → Bool × List Char
  | '-' :: s => (true, s)
  | '+' :: s => (false, s)
  | s => (false, s)

/-- The base `strtol` settles on and the text of its digits: in base 16 and
base 0 a `0x` prefix is skipped, and otherwise base 0 reads a leading `0`
as octal and anything else as decimal. -/
def readBase (base : Nat) (s : List Char) : Nat × List Char :=
  match s with
  | '0' :: x :: r =>
    if (base = 0 ∨ base = 16) ∧ (x = 'x' ∨ x = 'X') then (16, r) else (if base = 0 then 8 else base, s)
  | ['0'] => (if base = 0 then 8 else base, s)
  | _ => (if base = 0 then 10 else base, s)

/-- `LONG_MAX`. -/
def longMax : Int := 2 ^ 63 - 1

/-- A value saturated at the range of `long`, as `strtol` returns it on overflow. -/
def clampLong (x : Int) : Int := max (-longMax - 1) (min longMax x)

/-- glibc's `strtol (nptr, &endptr, base)`: the value and the text from
`endptr` on. With no digits it converts nothing and `endptr` is `nptr`
(or the `x` of a bare `0x`). -/
def strtol (nptr : List Char) (base : Nat) : Int × List Char :=
  let (neg, s) := readSign (nptr.dropWhile isSpace)
  let (b, digits) := readBase base s
  let (v, rest) := readDigits b digits 0
  if rest.length = digits.length then
    (0, if digits.length < s.length then s.drop 1 else nptr)
  else (clampLong (if neg then -v else v), rest)

/-- `atoi (nptr)`, which is `(int) strtol (nptr, NULL, 10)`. -/
def atoi (nptr : List Char) : Int := toInt (strtol nptr 10).1

/-- `sscanf (s, "%d", &v)`: the `int` it stores when it returns 1 (after
blanks, a sign and at least one decimal digit), and none when it
converts nothing. -/
def sscanfD (s : List Char) : Option Int :=
  let (neg, s) := readSign (s.dropWhile isSpace)
  let (v, rest) := readDigits 10 s 0
  if rest.length = s.length then none else some (toInt (clampLong (if neg then -v else v)))

/-! ## Writing numbers -/

/-- The decimal digits of `n`. -/
def decimal (n : Nat) : List Char := Nat.toDigits 10 n

/-- `printf ("%d", i)`. -/
def printfD (i : Int) : String :=
  if i < 0 then String.mk ('-' :: decimal i.natAbs) else String.mk (decimal i.natAbs)

theorem digitValue_digitChar : ∀ d < 16, digitValue (Nat.digitChar d) = some d := by decide

theorem digitChar_facts : ∀ d < 16, isSpace (Nat.digitChar d) = false ∧ Nat.digitChar d ≠ '-' ∧
    Nat.digitChar d ≠ '+' ∧ Nat.digitChar d ≠ '/' ∧ (Nat.digitChar d = '0' ↔ d = 0) := by decide

/-- Reading the digits `Nat.toDigits b` writes gives the number back. -/
theorem readDigits_toDigits {b : Nat} (hb : 2 ≤ b) (hb16 : b ≤ 16) (n : Nat) (rest : List Char) :
    readDigits b (Nat.toDigits b n ++ rest) 0 = readDigits b rest n := by
  induction n using Nat.strong_induction_on generalizing rest with
  | _ n ih =>
    have hlast : ∀ acc, readDigits b (Nat.digitChar (n % b) :: rest) acc = readDigits b rest (acc * b + n % b) := by
      intro acc
      have hd : n % b < b := Nat.mod_lt _ (by omega)
      simp only [readDigits, digitValue_digitChar (n % b) (by omega), if_pos hd]
    rw [toDigits_eq hb]
    by_cases hnb : n < b
    · simpa [hnb, Nat.mod_eq_of_lt hnb] using hlast 0
    · rw [if_neg hnb, List.append_assoc, List.singleton_append,
        ih (n / b) (Nat.div_lt_self (by omega) (by omega)), hlast, Nat.div_add_mod']

theorem readSign_digit {d : Nat} (hd : d < 16) (s : List Char) :
    readSign (Nat.digitChar d :: s) = (false, Nat.digitChar d :: s) := by
  obtain ⟨-, h1, h2, -⟩ := digitChar_facts d hd
  simp [readSign, h1, h2]

/-- After blanks, `strtol` and `sscanf` read an optional sign. -/
theorem readSign_signed (neg : Bool) {d : Nat} (hd : d < 16) (s : List Char) :
    readSign (((if neg then ['-'] else []) ++ Nat.digitChar d :: s).dropWhile isSpace) =
      (neg, Nat.digitChar d :: s) := by
  cases neg
  · simp [List.dropWhile, (digitChar_facts d hd).1, readSign_digit hd]
  · simp [List.dropWhile, isSpace, readSign]

theorem readBase_digit {d : Nat} (hd : d < 16) (h0 : 0 < d) (base : Nat) (s : List Char) :
    readBase base (Nat.digitChar d :: s) = (if base = 0 then 10 else base, Nat.digitChar d :: s) := by
  have h : Nat.digitChar d ≠ '0' := fun h => by have := ((digitChar_facts d hd).2.2.2.2.1 h); omega
  simp [readBase, h]

theorem readDigits_decimal (n : Nat) {rest : List Char} (hr : rest.head?.bind digitValue = none) :
    readDigits 10 (decimal n ++ rest) 0 = (n, rest) := by
  rw [decimal, readDigits_toDigits (by decide) (by decide)]
  cases rest with
  | nil => rfl
  | cons c s =>
    change digitValue c = none at hr
    simp only [readDigits, hr]

theorem readDigits_decimal_nil (n : Nat) : readDigits 10 (decimal n) 0 = (n, []) := by
  simpa using readDigits_decimal n (show ([] : List Char).head?.bind digitValue = none from rfl)

theorem strtol_signed (neg : Bool) {n : Nat} (hn : 0 < n) {base : Nat} (hb : base = 0 ∨ base = 10) :
    strtol ((if neg then ['-'] else []) ++ decimal n) base = (clampLong (if neg then -(n : Int) else n), []) := by
  obtain ⟨d, cs, h, hd0, hd⟩ := toDigits_head (b := 10) (by decide) hn
  have hread : readDigits 10 (Nat.digitChar d :: cs) 0 = (n, []) := by
    have := readDigits_decimal_nil n
    rwa [decimal, h] at this
  have hb10 : (if base = 0 then 10 else base) = 10 := by rcases hb with rfl | rfl <;> rfl
  rw [decimal, h]
  simp only [strtol, readSign_signed neg (show d < 16 by omega), readBase_digit (show d < 16 by omega) hd0, hb10, hread]
  simp


theorem decimal_cons (n : Nat) : ∃ d cs, d < 10 ∧ decimal n = Nat.digitChar d :: cs := by
  obtain ⟨c, cs, h⟩ := List.exists_cons_of_ne_nil (toDigits_ne_nil 10 n (by decide))
  obtain ⟨d, hd, rfl⟩ := mem_toDigits (b := 10) (by decide) (h ▸ List.mem_cons_self c cs)
  exact ⟨d, cs, hd, h⟩

theorem printfD_data (i : Int) :
    (printfD i).data = (if decide (i < 0) then ['-'] else []) ++ decimal i.natAbs := by
  unfold printfD; split <;> simp [*]

theorem clampLong_natAbs {i : Int} (hi : i.natAbs < 2 ^ 63) :
    clampLong (if i < 0 then -|i| else |i|) = i := by
  have : (i.natAbs : Int) = |i| := Int.natCast_natAbs i
  simp only [clampLong, longMax]; split <;> omega

/-- `strtol` in base 0 or 10 reads `printf ("%d", i)` back to `i`, with
nothing left over. -/
theorem strtol_printfD (i : Int) (hi : i.natAbs < 2 ^ 63) {base : Nat} (hb : base = 0 ∨ base = 10) :
    strtol (printfD i).data base = (i, []) := by
  by_cases h0 : i = 0
  · subst h0; rcases hb with rfl | rfl <;> decide
  rw [printfD_data, strtol_signed _ (Int.natAbs_pos.mpr h0) hb]
  simpa using clampLong_natAbs hi

/-- `atoi` reads `printf ("%d", i)` back to `i` as an `int`. -/
theorem atoi_printfD (i : Int) (hi : i.natAbs < 2 ^ 63) : atoi (printfD i).data = toInt i := by
  rw [atoi, strtol_printfD i hi (.inr rfl)]

/-- On an `int`, `atoi` reads `printf ("%d", i)` back to `i`. -/
theorem atoi_printfD_of_isCInt {i : Int} (hi : IsCInt i) : atoi (printfD i).data = i :=
  (atoi_printfD i (by unfold IsCInt at hi; omega)).trans (toInt_of_isCInt hi)

/-- `sscanf ("%d")` reads `printf ("%d", i)`, followed by text that starts
with no digit, back to `i` as an `int`. -/
theorem sscanfD_printfD (i : Int) (hi : i.natAbs < 2 ^ 63) {rest : List Char}
    (hr : rest.head?.bind digitValue = none) :
    sscanfD ((printfD i).data ++ rest) = some (toInt i) := by
  obtain ⟨d, cs, hd, hdec⟩ := decimal_cons i.natAbs
  have hread := readDigits_decimal i.natAbs hr
  rw [hdec] at hread
  rw [printfD_data, hdec, List.append_assoc, List.cons_append]
  unfold sscanfD
  rw [readSign_signed _ (show d < 16 by omega)]
  dsimp only
  rw [← List.cons_append, hread]
  simp only [List.length_cons, List.length_append]
  simp [clampLong_natAbs hi]

/-- `printf ("%d")` writes no `/`. -/
theorem slash_not_mem_printfD (i : Int) : '/' ∉ (printfD i).data := by
  rw [printfD_data]
  intro h
  simp only [List.mem_append] at h
  rcases h with h | h
  · split at h <;> simp at h
  · obtain ⟨d, hd, hc⟩ := mem_toDigits (b := 10) (by decide) h
    exact (digitChar_facts d (by omega)).2.2.2.1 hc.symm

end Pcp
