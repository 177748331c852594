import Fasthttp.Header.Wire
import Fasthttp.Request.Sound

/-!
# Decimal numbers

`ParseUint` computes in `int64`. The sum wraps around, and the test for an overflow looks for a number that got
smaller.
-/

namespace Fasthttp

open List

variable {b : Bytes} {v : Int}

theorem int64_step (n k : Nat) : int64 (10 * int64 n + k) = int64 ((10 * n + k : Nat) : Int) := by
  have hmul : (10 * int64 n).bmod (2 ^ 64) = (10 * (n : Int)).bmod (2 ^ 64) := by
    rw [int64, Int.mul_bmod_bmod]
  rw [int64, ← Int.bmod_add_bmod, hmul, Int.bmod_add_bmod]
  rfl

/-- At one of the digits behind the number `n` the residue of the value gets smaller. -/
def DropsAfter (n : Nat) (ds : Bytes) : Prop :=
  ∃ i < ds.length, int64 (digitsValue n (ds.take (i + 1))) < int64 (digitsValue n (ds.take i))

theorem dropsAfter_cons (n : Nat) (c : Byte) (ds : Bytes) :
    DropsAfter n (c :: ds) ↔
      int64 ((10 * n + (c - ch '0').toNat : Nat) : Int) < int64 n ∨ DropsAfter (10 * n + (c - ch '0').toNat) ds := by
  constructor
  · rintro ⟨i, hi, hdrop⟩
    cases i with
    | zero => exact .inl hdrop
    | succ i => exact .inr ⟨i, by simpa using hi, hdrop⟩
  · rintro (hdrop | ⟨i, hi, hdrop⟩)
    · exact ⟨0, by simp, hdrop⟩
    · exact ⟨i + 1, by simpa using hi, hdrop⟩

theorem parseUintLoop_digits_eq {ds : Bytes} (hds : ∀ c ∈ ds, isDigit c = true) (i n : Nat) :
    (DropsAfter n ds ∧ (parseUintLoop i (int64 n) ds).2.2 = some .tooLongInt) ∨
      (¬ DropsAfter n ds ∧ parseUintLoop i (int64 n) ds = (int64 (digitsValue n ds), i + ds.length, none)) := by
  induction ds generalizing i n with
  | nil => exact .inr ⟨fun ⟨_, hi, _⟩ => (nomatch hi), rfl⟩
  | cons c ds ih =>
    have hc := digit_le c (hds c (by simp))
    simp only [dropsAfter_cons, parseUintLoop, hc, if_false, int64_step]
    by_cases hdrop : int64 ((10 * n + (c - ch '0').toNat : Nat) : Int) < int64 n
    · rw [if_pos hdrop]
      exact .inl ⟨.inl hdrop, rfl⟩
    · rw [if_neg hdrop]
      rcases ih (fun c' h => hds c' (by simp [h])) (i + 1) (10 * n + (c - ch '0').toNat) with ⟨hlater, herr⟩ | ⟨hnot, heq⟩
      · exact .inl ⟨.inr hlater, herr⟩
      · refine .inr ⟨fun h => h.elim hdrop hnot, ?_⟩
        rw [heq, length_cons, Nat.add_right_comm, Nat.add_assoc]
        rfl

theorem digitsValue_take_le (n : Nat) (ds : Bytes) {i j : Nat} (h : i ≤ j) :
    digitsValue n (ds.take i) ≤ digitsValue n (ds.take j) := by
  obtain ⟨es, hes⟩ := take_prefix_take_left h (l := ds)
  rw [← hes, digitsValue, digitsValue, foldl_append]
  exact le_digitsValue _ es

theorem not_dropsAfter {n : Nat} {ds : Bytes} (h : digitsValue n ds < 2 ^ 63) : ¬ DropsAfter n ds := by
  rintro ⟨i, hi, hdrop⟩
  have hstep := digitsValue_take_le n ds (Nat.le_add_right i 1)
  have hall := digitsValue_take_le n ds (show i + 1 ≤ ds.length from hi)
  rw [take_length] at hall
  rw [int64_of_lt (by omega), int64_of_lt (by omega)] at hdrop
  omega

theorem decimal_eq_some {n : Nat} (h : decimal b = some n) :
    b ≠ [] ∧ (∀ c ∈ b, isDigit c = true) ∧ n = digitsValue 0 b := by
  unfold decimal at h
  split at h
  · rename_i hb
    exact ⟨hb.1, all_eq_true.mp hb.2, (Option.some.inj h).symm⟩
  · cases h

theorem parseUint_eq_iff : parseUint b = (v, none) ↔ parseUintBuf b = (v, b.length, none) := by
  unfold parseUint
  rcases parseUintBuf b with ⟨w, n, err⟩
  by_cases hn : n = b.length
  · simp [hn]
  · simp [hn]

theorem parseContentLength_eq_iff : parseContentLength b = (v, none) ↔ parseUintBuf b = (v, b.length, none) := by
  unfold parseContentLength
  rcases parseUintBuf b with ⟨w, n, _ | e⟩
  · by_cases hn : n = b.length
    · simp [hn]
    · simp [hn]
  · simp

theorem parseUintBuf_digits (h : parseUintBuf b = (v, b.length, none)) : b ≠ [] ∧ ∀ c ∈ b, isDigit c = true :=
  parseContentLength_digits (congrArg Prod.snd (parseContentLength_eq_iff.mpr h))

theorem parseUintBuf_eq_iff :
    parseUintBuf b = (v, b.length, none) ↔ ∃ n, decimal b = some n ∧ ¬ DropsAfter 0 b ∧ v = int64 n := by
  have hzero : int64 (0 : Nat) = 0 := int64_of_lt (by omega)
  constructor
  · intro h
    obtain ⟨hne, hdigits⟩ := parseUintBuf_digits h
    rw [parseUintBuf, if_neg (by simpa using hne), ← hzero] at h
    refine ⟨_, if_pos ⟨hne, all_eq_true.mpr hdigits⟩, ?_⟩
    rcases parseUintLoop_digits_eq hdigits 0 0 with ⟨-, herr⟩ | ⟨hnot, heq⟩
    · rw [h] at herr
      cases herr
    · rw [heq, Prod.mk.injEq] at h
      exact ⟨hnot, h.1.symm⟩
  · rintro ⟨n, hn, hnot, hv⟩
    obtain ⟨hne, hdigits, hvalue⟩ := decimal_eq_some hn
    rw [parseUintBuf, if_neg (by simpa using hne), hv, hvalue, ← hzero]
    rcases parseUintLoop_digits_eq hdigits 0 0 with ⟨hdrop, -⟩ | ⟨-, heq⟩
    · exact absurd hdrop hnot
    · rw [heq, Nat.zero_add]

/-- The parser succeeds on the decimal numbers of 63 bits and returns their values. -/
def ReadsExactly (parse : Bytes → Int × Option Err) (b : Bytes) : Prop :=
  ∀ v, parse b = (v, none) ↔ ∃ n, decimal b = some n ∧ n ≤ 2 ^ 63 - 1 ∧ v = n

theorem readsExactly_iff {parse : Bytes → Int × Option Err}
    (hparse : ∀ v, parse b = (v, none) ↔ parseUintBuf b = (v, b.length, none)) :
    ReadsExactly parse b ↔ ∀ n, decimal b = some n → n ≤ 2 ^ 63 - 1 ∨ DropsAfter 0 b := by
  simp only [ReadsExactly, hparse, parseUintBuf_eq_iff]
  constructor
  · intro h n hn
    by_cases hdrop : DropsAfter 0 b
    · exact .inr hdrop
    · obtain ⟨m, hm, hle, -⟩ := (h (int64 n)).mp ⟨n, hn, hdrop, rfl⟩
      obtain rfl := Option.some.inj (hn.symm.trans hm)
      exact .inl hle
  · intro h v
    constructor
    · rintro ⟨n, hn, hnot, hv⟩
      have hle := (h n hn).resolve_right hnot
      exact ⟨n, hn, hle, hv.trans (int64_of_lt (by omega))⟩
    · rintro ⟨n, hn, hle, rfl⟩
      have hvalue := (decimal_eq_some hn).2.2
      exact ⟨n, hn, not_dropsAfter (by omega), (int64_of_lt (by omega)).symm⟩

/-- `ParseUint`, and the parser of a `Content-Length` with it, is exact on a text unless this is a number beyond `2^63 - 1` whose
residues never drop. -/
theorem parseUint_exact_iff (b : Bytes) :
    ReadsExactly parseUint b ∧ ReadsExactly parseContentLength b ↔ ∀ n, decimal b = some n → n ≤ 2 ^ 63 - 1 ∨ DropsAfter 0 b := by
  rw [readsExactly_iff fun _ => parseUint_eq_iff, readsExactly_iff fun _ => parseContentLength_eq_iff, and_self]

/-- The last digit makes a number of 65 bits, whose residue is larger than what was read before. -/
theorem parseUint_wraps :
    decimal (ascii "21000000000000000000") = some 21000000000000000000 ∧
    parseUint (ascii "21000000000000000000") = (2553255926290448384, none) ∧
    parseContentLength (ascii "21000000000000000000") = (2553255926290448384, none) := by
  decide +kernel

end Fasthttp
