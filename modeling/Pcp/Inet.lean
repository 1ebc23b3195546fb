/-
IPv6 addresses as text, as `apteryx_set_ipv6_addr` and
`apteryx_get_ipv6_addr` store them: `inet_ntop (AF_INET6, ...)` writes
the text and `inet_pton (AF_INET6, ...)` reads it back. Both follow the C
library's `inet_ntop6` and `inet_pton6` step by step. `inet_ntop6`
writes the longest run of two or more zero words as `::`, and writes an
IPv4-compatible or IPv4-mapped address with a dotted-quad tail.
`inet_pton6` is a character loop that also reads a dotted quad through
`inet_pton4`.
-/
import Pcp.CLib

namespace Pcp

/-- `struct in6_addr`: sixteen bytes in network order. -/
structure In6Addr where
  s6Addr : List UInt8
  length_eq : s6Addr.length = 16
deriving DecidableEq

/-! ## `inet_ntop` -/

/-- The 16-bit words of a byte string, high byte first:
`words[i / 2] = (src[i] << 8) | src[i + 1]`. -/
def words : List UInt8 → List Nat
  | hi :: lo :: r => (hi.toNat * 256 + lo.toNat) :: words r
  | _ => []

/-- A run of zero words in `inet_ntop6`: `base` is `-1` for no run. -/
structure ZeroRun where
  base : Int
  len : Nat
deriving DecidableEq

/-- One word of `inet_ntop6`'s search for the longest run of zero words:
`(best, cur)` after word `i`. -/
def zeroRunStep (st : ZeroRun × ZeroRun) (iw : Nat × Nat) : ZeroRun × ZeroRun :=
  let (best, cur) := st
  let (i, w) := iw
  if w = 0 then
    if cur.base = -1 then (best, ⟨i, 1⟩) else (best, ⟨cur.base, cur.len + 1⟩)
  else if cur.base ≠ -1 then
    (if best.base = -1 ∨ cur.len > best.len then cur else best, ⟨-1, cur.len⟩)
  else (best, cur)

/-- The run `inet_ntop6` writes as `::`: the first longest run of zero
words, kept only when it is two words or longer. -/
def bestZeroRun (ws : List Nat) : ZeroRun :=
  let (best, cur) := ws.enum.foldl zeroRunStep (⟨-1, 0⟩, ⟨-1, 0⟩)
  let best := if cur.base ≠ -1 ∧ (best.base = -1 ∨ cur.len > best.len) then cur else best
  if best.base ≠ -1 ∧ best.len < 2 then ⟨-1, best.len⟩ else best

/-- `inet_ntop4`: `printf ("%u.%u.%u.%u")` of four bytes. -/
def inetNtop4 (src : List UInt8) : List Char :=
  ['.'].intercalate (src.map fun b => decimal b.toNat)

/-- The loop of `inet_ntop6` from word `i` on: inside the best run only its
first word writes a `:`; a word after the first writes `:` before itself;
word 6 of an IPv4-compatible or IPv4-mapped address writes the dotted
tail `v4` and ends the loop; any other word writes `printf ("%x")`. -/
def ntopWords (ws : List Nat) (best : ZeroRun) (v4 : List Char) : List Nat → List Char
  | [] => []
  | i :: is =>
    if best.base ≠ -1 ∧ best.base ≤ i ∧ i < best.base + best.len then
      (if i = best.base then [':'] else []) ++ ntopWords ws best v4 is
    else
      (if i ≠ 0 then [':'] else []) ++
        if i = 6 ∧ best.base = 0 ∧ (best.len = 6 ∨ (best.len = 5 ∧ ws.getD 5 0 = 0xffff)) then v4
        else Nat.toDigits 16 (ws.getD i 0) ++ ntopWords ws best v4 is

/-- `inet_ntop (AF_INET6, &a, ...)`; a trailing best run writes one more `:`. -/
def inetNtop6 (a : In6Addr) : List Char :=
  let ws := words a.s6Addr
  let best := bestZeroRun ws
  ntopWords ws best (inetNtop4 (a.s6Addr.drop 12)) (List.range 8) ++
    if best.base ≠ -1 ∧ best.base + best.len = 8 then [':'] else []

/-! ## `inet_pton` -/

/-- `hex_digit_value`. -/
def hexDigitValue (c : Char) : Option Nat :=
  if c.isDigit then some (c.toNat - 48)
  else if 'a' ≤ c ∧ c ≤ 'f' then some (c.toNat - 87)
  else if 'A' ≤ c ∧ c ≤ 'F' then some (c.toNat - 55)
  else none

/-- The loop of `inet_pton4 (src, end, dst)`: `done` holds the finished
octets, `cur` the one being read. An octet has no leading zero and is at
most 255, and there are exactly four. -/
def inetPton4Go : List Char → List Nat → Nat → Bool → Nat → Option (List UInt8)
  | [], done, cur, _, octets =>
    if octets < 4 then none else some ((done ++ [cur]).map UInt8.ofNat)
  | ch :: src, done, cur, sawDigit, octets =>
    if ch.isDigit then
      let new := cur * 10 + (ch.toNat - 48)
      if sawDigit ∧ cur = 0 then none
      else if new > 255 then none
      else if !sawDigit then
        if octets + 1 > 4 then none else inetPton4Go src done new true (octets + 1)
      else inetPton4Go src done new true octets
    else if ch = '.' ∧ sawDigit then
      if octets = 4 then none else inetPton4Go src (done ++ [cur]) 0 false octets
    else none

/-- `inet_pton4`: the four bytes of a dotted quad. -/
def inetPton4 (src : List Char) : Option (List UInt8) := inetPton4Go src [] 0 false 0

/-- The two bytes of a 16-bit word, high byte first. -/
def wordBytes (val : Nat) : List UInt8 := [UInt8.ofNat (val / 256 % 256), UInt8.ofNat (val % 256)]

/-- The character loop of `inet_pton6`, from `ch :: src` on: `curtok` is
where the current group began, `tp` the bytes written, `colonp` where a
`::` stands in them, and `val` the group read so far in `xdigitsSeen`
hex digits. It returns the state the loop ends in, or none where
`inet_pton6` returns 0. -/
def inetPton6Go (curtok : List Char) (tp : List UInt8) (colonp : Option Nat) (xdigitsSeen val : Nat) :
    List Char → Option (List UInt8 × Option Nat × Nat × Nat)
  | [] => some (tp, colonp, xdigitsSeen, val)
  | ch :: src =>
    match hexDigitValue ch with
    | some digit =>
      if xdigitsSeen = 4 then none
      else if val * 16 + digit > 0xffff then none
      else inetPton6Go curtok tp colonp (xdigitsSeen + 1) (val * 16 + digit) src
    | none =>
      if ch = ':' then
        if xdigitsSeen = 0 then
          if colonp.isSome then none else inetPton6Go src tp (some tp.length) 0 val src
        else if src = [] then none
        else if tp.length + 2 > 16 then none
        else inetPton6Go src (tp ++ wordBytes val) colonp 0 0 src
      else if ch = '.' ∧ tp.length + 4 ≤ 16 then
        (inetPton4 curtok).map fun b => (tp ++ b, colonp, 0, val)
      else none

/-- The end of `inet_pton6`: the last group is written, and a `::` is
widened with zero bytes to fill sixteen. -/
def inetPton6Finish : List UInt8 × Option Nat × Nat × Nat → Option (List UInt8)
  | (tp, colonp, xdigitsSeen, val) =>
    let tp := if xdigitsSeen > 0 then (if tp.length + 2 > 16 then none else some (tp ++ wordBytes val))
      else some tp
    tp.bind fun tp =>
      match colonp with
      | some c =>
        if tp.length = 16 then none
        else some (tp.take c ++ List.replicate (16 - tp.length) 0 ++ tp.drop c)
      | none => if tp.length = 16 then some tp else none

/-- `inet_pton6` on the text after its leading-`::` check. -/
def inetPton6Run (src : List Char) : Option (List UInt8) :=
  (inetPton6Go src [] none 0 0 src).bind inetPton6Finish

/-- `inet_pton (AF_INET6, src, &a)`: the address, or none where it
returns 0 and leaves `a` as it was. A leading `:` must be part of `::`. -/
def inetPton6 (src : List Char) : Option In6Addr :=
  let bytes := match src with
    | [] => none
    | ':' :: rest => match rest with
      | ':' :: _ => inetPton6Run rest
      | _ => none
    | _ => inetPton6Run src
  bytes.bind fun b => if h : b.length = 16 then some ⟨b, h⟩ else none

end Pcp
