import Fasthttp.Lib.FirstIndex
import Fasthttp.Body.Wire

/-!
# Chunk size lines

`parseChunkSize` skips the bytes behind the digits up to the first `\r`, whatever they are.
-/

namespace Fasthttp

open Bufio Reader List

def hexNumber (d : Bytes) : Nat := d.foldl (fun n c => 16 * n + hex2intTable c) 0

theorem hex2intTable_lt {c : Byte} (hc : isHex c = true) : hex2intTable c < 16 := by
  revert hc
  apply forall_byte (p := fun c => isHex c = true → hex2intTable c < 16)
  decide +kernel

theorem hexValue_digit {c : Byte} (hc : isHex c = true) (n : Nat) : n <<< 4 ||| hex2intTable c = 16 * n + hex2intTable c := by
  have hlt : hex2intTable c < 2 ^ 4 := hex2intTable_lt hc
  rw [← Nat.shiftLeft_add_eq_or_of_lt hlt]
  omega

theorem hexValue_eq {d : Bytes} (hd : ∀ c ∈ d, isHex c = true) : hexValue 0 d = hexNumber d := by
  apply foldl_ext
  intro n c hc
  exact hexValue_digit (hd c hc) n

/-- At most 15 digits of the value `n`, and an extension without a line end in it -/
structure SizeText (d x : Bytes) (n : Nat) : Prop where
  ne_nil : d ≠ []
  length_le : d.length ≤ 15
  digits : ∀ c ∈ d, isHex c = true
  value : hexNumber d = n
  no_cr : rChar ∉ x
  no_lf : nChar ∉ x

def StrictSize (r : Reader Byte Err) : Prop :=
  ∀ n r', parseChunkSize r = (.ok n, r') → ∃ d x, SizeText d x n ∧ r.unread = d ++ (x ++ (strCRLF ++ r'.unread))

def sizeDigits (t : Bytes) : Bytes := t.takeWhile isHex

def sizeExtension (t : Bytes) : Bytes := (t.drop (sizeDigits t).length).takeWhile (· ≠ rChar)

def FeedInside (t : Bytes) : Prop :=
  sizeDigits t ≠ [] ∧ (sizeDigits t).length ≤ 15 ∧ nChar ∈ sizeExtension t ∧
    strCRLF <+: t.drop ((sizeDigits t).length + (sizeExtension t).length)

instance (t : Bytes) : Decidable (FeedInside t) := inferInstanceAs (Decidable (_ ∧ _))

theorem size_append (t : Bytes) :
    t = sizeDigits t ++ (sizeExtension t ++ t.drop ((sizeDigits t).length + (sizeExtension t).length)) := by
  have hdigits : sizeDigits t ++ t.drop (sizeDigits t).length = t := prefix_iff_eq_append.mp <| takeWhile_prefix isHex
  have hext : sizeExtension t ++ (t.drop (sizeDigits t).length).drop (sizeExtension t).length = t.drop (sizeDigits t).length :=
    prefix_iff_eq_append.mp <| takeWhile_prefix (· ≠ rChar)
  rw [← drop_drop, hext, hdigits]

theorem isHex_of_mem_sizeDigits {t : Bytes} {c : Byte} (hc : c ∈ sizeDigits t) : isHex c = true := mem_takeWhile_imp hc

theorem no_cr_of_digits {d : Bytes} (hd : ∀ c ∈ d, isHex c = true) : rChar ∉ d := fun hmem => absurd (hd _ hmem) (by decide)

theorem no_cr_sizeExtension (t : Bytes) : rChar ∉ sizeExtension t := by
  intro hmem
  simpa using mem_takeWhile_imp hmem

theorem crLf_ok_iff (t : Bytes) : crLf t = .ok ↔ strCRLF <+: t := by
  constructor
  · intro h
    obtain ⟨u, rfl⟩ := crLf_ok h
    exact ⟨u, rfl⟩
  · rintro ⟨u, rfl⟩
    rfl

theorem sizeLine_eq_size_iff (t : Bytes) (n len : Nat) :
    sizeLine t = .size n len ↔ sizeDigits t ≠ [] ∧ (sizeDigits t).length ≤ 15 ∧
      strCRLF <+: t.drop ((sizeDigits t).length + (sizeExtension t).length) ∧ hexNumber (sizeDigits t) = n ∧
      (sizeDigits t).length + (sizeExtension t).length + 2 = len := by
  rw [← crLf_ok_iff, ← hexValue_eq fun c => isHex_of_mem_sizeDigits]
  simp only [sizeLine, ← sizeDigits.eq_1, ← sizeExtension.eq_1]
  by_cases hnil : sizeDigits t = []
  · split_ifs <;> simp [hnil]
  by_cases hlong : maxHexIntChars < (sizeDigits t).length
  · have h15 : ¬ (sizeDigits t).length ≤ 15 := not_le.mpr hlong
    simp [hnil, hlong, h15]
  · have h15 : (sizeDigits t).length ≤ 15 := not_lt.mp hlong
    simp only [hnil, hlong, h15, ne_eq]
    rcases crLf (t.drop ((sizeDigits t).length + (sizeExtension t).length)) with _ | _ | ⟨e, m⟩ <;> simp

theorem parseChunkSize_ok_iff (r : Reader Byte Err) :
    (∃ n r', parseChunkSize r = (.ok n, r')) ↔ ∃ n len, sizeLine r.unread = .size n len := by
  have hspec := parseChunkSize_spec r
  rcases hsize : sizeLine r.unread with ⟨m, len⟩ | _ | ⟨e, len⟩ <;> simp only [hsize] at hspec <;>
    obtain ⟨r₁, hr, -⟩ := hspec <;> simp [hr]

theorem parseChunkSize_ok {r r' : Reader Byte Err} {n : Nat} (h : parseChunkSize r = (.ok n, r')) :
    sizeDigits r.unread ≠ [] ∧ (sizeDigits r.unread).length ≤ 15 ∧ hexNumber (sizeDigits r.unread) = n ∧
      r.unread = sizeDigits r.unread ++ (sizeExtension r.unread ++ (strCRLF ++ r'.unread)) := by
  have hspec := parseChunkSize_spec r
  obtain ⟨m, len, hsize⟩ := (parseChunkSize_ok_iff r).mp ⟨n, r', h⟩
  simp only [hsize, h] at hspec
  obtain ⟨r₁, hr, ht⟩ := hspec
  obtain ⟨rfl, rfl⟩ : n = m ∧ r' = r₁ := by simpa using hr
  obtain ⟨hne, hle, ⟨u, hu⟩, hvalue, hlen⟩ := (sizeLine_eq_size_iff _ _ _).mp hsize
  refine ⟨hne, hle, hvalue, ?_⟩
  have hrest : r'.unread = u := by
    rw [ht.unread, ← hlen, ← drop_drop, ← hu]
    rfl
  rw [hrest, hu]
  exact size_append r.unread

theorem FeedInside.not_strict {r : Reader Byte Err} (h : FeedInside r.unread) : ¬ StrictSize r := by
  obtain ⟨hne, hle, hfeed, hend⟩ := h
  intro hstrict
  obtain ⟨n, r', hparse⟩ := (parseChunkSize_ok_iff r).mpr ⟨_, _, (sizeLine_eq_size_iff _ _ _).mpr ⟨hne, hle, hend, rfl, rfl⟩⟩
  obtain ⟨d, x, htext, hsplit⟩ := hstrict n r' hparse
  obtain ⟨-, -, -, hfound⟩ := parseChunkSize_ok hparse
  -- both readings of the line end at the first `\r`
  have hfront : sizeDigits r.unread ++ sizeExtension r.unread = d ++ x := by
    have hboth := hfound.symm.trans hsplit
    rw [← append_assoc, ← append_assoc d] at hboth
    refine (FirstIndex.append_cons_inj ?_ ?_ hboth).1
    · exact not_mem_append (no_cr_of_digits fun _ => isHex_of_mem_sizeDigits) (no_cr_sizeExtension _)
    · exact not_mem_append (no_cr_of_digits htext.digits) htext.no_cr
  have hmem : nChar ∈ d ++ x := hfront ▸ mem_append_right _ hfeed
  rcases mem_append.mp hmem with hmem | hmem
  · exact absurd (htext.digits _ hmem) (by decide)
  · exact htext.no_lf hmem

/-- A size is read strictly exactly if there is no line feed inside its line. -/
theorem parseChunkSize_strict_iff (r : Reader Byte Err) : StrictSize r ↔ ¬ FeedInside r.unread := by
  constructor
  · intro hstrict hfeed
    exact hfeed.not_strict hstrict
  · intro hno n r' hparse
    obtain ⟨hne, hle, hvalue, hsplit⟩ := parseChunkSize_ok hparse
    refine ⟨_, _, ⟨hne, hle, fun _ => isHex_of_mem_sizeDigits, hvalue, no_cr_sizeExtension _, fun hfeed => ?_⟩, hsplit⟩
    apply hno
    obtain ⟨_, _, hsize⟩ := (parseChunkSize_ok_iff r).mp ⟨n, r', hparse⟩
    obtain ⟨-, -, hend, -⟩ := (sizeLine_eq_size_iff _ _ _).mp hsize
    exact ⟨hne, hle, hfeed, hend⟩

/-- The line feed and what stands behind it are taken for an extension. -/
theorem parseChunkSize_skips_feed :
    let r : Reader Byte Err := .new 4096 (.of [ascii "3\nabc\r\nxyz"] .eof) (by decide)
    (∃ r', parseChunkSize r = (.ok 3, r') ∧ r'.unread = ascii "xyz") ∧ ¬ StrictSize r := by
  intro r
  have hsize : sizeLine r.unread = .size 3 7 := by decide +kernel
  have hspec := parseChunkSize_spec r
  simp only [hsize] at hspec
  obtain ⟨r', hparse, ht⟩ := hspec
  refine ⟨⟨r', hparse, ?_⟩, FeedInside.not_strict (by decide +kernel)⟩
  rw [ht.unread]
  decide +kernel

end Fasthttp
