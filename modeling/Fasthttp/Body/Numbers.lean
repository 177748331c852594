import Fasthttp.Body.Codec
import Fasthttp.Header.Wire

/-!
# Numbers

`AppendUint`, `AppendUintInto` and `writeHexInt` fill a buffer from its end. `ParseUint` and `readHexInt` read the digits back.
-/

namespace Fasthttp

open Bufio List

namespace Bytesconv

/-- The loop of the writers. `none` is an index below the buffer. -/
def fillDigits (base : Nat) (digit : Nat → Byte) : Bytes → Nat → Nat → Option (Bytes × Nat)
  | _, 0, _ => none
  | buf, i + 1, n =>
    let buf := buf.set i (digit (n % base))
    if n < base then some (buf, i) else fillDigits base digit buf i (n / base)

def fill (base : Nat) (digit : Nat → Byte) (buf : Bytes) (n : Int) : Option (Bytes × Bytes) :=
  if n < 0 then none else (fillDigits base digit buf buf.length n.toNat).map fun (buf, i) => (buf.drop i, buf)

def decimalDigit (k : Nat) : Byte := ch '0' + UInt8.ofNat k

def lowerhex (k : Nat) : Byte := (ascii "0123456789abcdef").getD k 0

def appendUint (dst : Bytes) (n : Int) : Option Bytes := (fill 10 decimalDigit (replicate 20 0) n).map (dst ++ ·.1)

def appendUintInto (dst : Bytes) (n : Int) : Option (Bytes × Bytes) := fill 10 decimalDigit dst n

def writeHexInt (n : Int) : Option Bytes := (fill 16 lowerhex (replicate 16 0) n).map (·.1)

section Fill

variable {base j n : Nat} {digit : Nat → Byte} {buf : Bytes} (hbase : 1 < base) (hdigit : ∀ k < base, digit k = ch k.digitChar)
include hbase hdigit

theorem fillDigits_eq (hbuf : j + (Nat.toDigits base n).length ≤ buf.length) :
    fillDigits base digit buf (j + (Nat.toDigits base n).length) n =
      some (buf.take j ++ (Nat.toDigits base n).map ch ++ buf.drop (j + (Nat.toDigits base n).length), j) := by
  -- the last digit is written first, the others in front of it
  induction n using Nat.strong_induction_on generalizing buf with
  | _ n ih =>
    have hlast := hdigit (n % base) (Nat.mod_lt n (by omega))
    by_cases hn : n < base
    · rw [Nat.toDigits_of_lt_base hn, length_singleton] at hbuf ⊢
      rw [fillDigits, if_pos hn, hlast, Nat.mod_eq_of_lt hn, set_eq_take_append_cons_drop, if_pos (by omega)]
      simp
    · have hless : n / base < n := Nat.div_lt_self (by omega) hbase
      rw [Nat.toDigits_of_base_le hbase (Nat.le_of_not_lt hn), length_append, length_singleton, ← Nat.add_assoc] at hbuf ⊢
      rw [fillDigits, if_neg hn, ih _ hless (by rw [length_set]; omega), hlast, take_set_of_le (by omega),
        set_eq_take_append_cons_drop, if_pos (by omega), drop_left' (by rw [length_take]; omega)]
      simp

theorem fill_eq (hlen : (Nat.toDigits base n).length ≤ buf.length) : fill base digit buf n =
    some ((Nat.toDigits base n).map ch, buf.take (buf.length - (Nat.toDigits base n).length) ++ (Nat.toDigits base n).map ch) := by
  have hfill := fillDigits_eq hbase hdigit (Nat.le_of_eq (Nat.sub_add_cancel hlen))
  rw [Nat.sub_add_cancel hlen, drop_length, append_nil] at hfill
  rw [fill, if_neg (by omega), Int.toNat_natCast, hfill]
  exact congrArg some (Prod.ext (drop_left' (by rw [length_take]; omega)) rfl)

end Fill

theorem readHexInt_writeHexInt {m : Nat} (hm : m < 16 ^ 15) {rest : Bytes} (hrest : ∀ c ∈ rest.head?, hex2intTable c = 16)
    {r : Reader Byte Err} (hr : r.unread = Fasthttp.writeHexInt m ++ rest) (hend : rest = [] → r.src.last = .eof) :
    ∃ r', readHexInt r = (.ok m, r') ∧ r'.unread = rest := by
  have hlen := writeHexInt_length_le_iff.mpr hm
  have hpos := length_pos_iff.mpr (writeHexInt_ne_nil m)
  have hvalue := (writeHexInt_spec m).2
  have hd : r.unread.takeWhile isHex = Fasthttp.writeHexInt m := by
    rw [hr, takeWhile_writeHexInt m hrest]
  rcases readHexIntLoop_spec (maxHexIntChars + 1) 0 0 r _ hd rfl (by omega) with
    ⟨hlong, -⟩ | ⟨-, hall, r', hl, hread⟩ | ⟨-, -, hread⟩
  · omega
  · obtain rfl : rest = [] := by simpa [hall] using hr
    rw [if_pos ⟨hend rfl, by omega⟩, hvalue] at hread
    exact ⟨r', hread, hl.unread⟩
  · rw [if_neg (by omega), hvalue] at hread
    obtain ⟨r', hread, ht⟩ := hread
    exact ⟨r', hread, by rw [ht.unread, hr, drop_left]⟩

/-- The readers take the numbers that the writers write, and the bytes behind them stay. -/
theorem numbers_read_back {n : Nat} (hn : n < 2 ^ 63) (dst : Bytes) {buf : Bytes} (hbuf : 20 ≤ buf.length) {m : Nat} (hm : m < 16 ^ 15)
    {rest : Bytes} (hrest : ∀ c ∈ rest.head?, hex2intTable c = 16) :
    (∃ ds, appendUint dst n = some (dst ++ ds) ∧ parseUint ds = ((n : Int), none) ∧
      appendUintInto buf n = some (ds, buf.take (buf.length - ds.length) ++ ds)) ∧
    ∃ ds, writeHexInt m = some ds ∧ ∀ r : Reader Byte Err, r.unread = ds ++ rest → (rest = [] → r.src.last = .eof) →
      ∃ r', readHexInt r = (.ok m, r') ∧ r'.unread = rest := by
  have hdecimal : ∀ k < 10, decimalDigit k = ch k.digitChar := by decide
  have hlower : ∀ k < 16, lowerhex k = ch k.digitChar := by decide
  have hshort : (Nat.toDigits 10 n).length ≤ 20 := (Nat.length_toDigits_le_iff (by omega) (by decide)).mpr (by omega)
  have hhex := writeHexInt_length_le_iff.mpr hm
  rw [Fasthttp.writeHexInt, length_map] at hhex
  refine ⟨⟨(Nat.toDigits 10 n).map ch, ?_, ?_, ?_⟩, Fasthttp.writeHexInt m, ?_, fun r => readHexInt_writeHexInt hm hrest⟩
  · rw [appendUint, fill_eq (by decide) hdecimal hshort]
    rfl
  · have hparse := parseUintBuf_toDigits hn (t := []) (by simp)
    rw [append_nil] at hparse
    simp [parseUint, hparse]
  · rw [appendUintInto, fill_eq (by decide) hdecimal (by omega), length_map]
  · rw [writeHexInt, fill_eq (by decide) hlower (hhex.trans (by decide))]
    rfl

theorem numbers_read_back_ten :
    (∃ ds, appendUint [] 10 = some ([] ++ ds) ∧ parseUint ds = (10, none) ∧
      appendUintInto (replicate 20 0) 10 = some (ds, (replicate 20 0).take ((replicate 20 0).length - ds.length) ++ ds)) ∧
    ∃ ds, writeHexInt 10 = some ds ∧
      ∀ r : Reader Byte Err, r.unread = ds ++ strCRLF → (strCRLF = [] → r.src.last = .eof) →
        ∃ r', readHexInt r = (.ok 10, r') ∧ r'.unread = strCRLF :=
  numbers_read_back (by decide) [] (by decide) (by decide) (by decide +kernel)

end Bytesconv

end Fasthttp
