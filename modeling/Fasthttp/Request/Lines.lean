import Fasthttp.Header.Run
import Fasthttp.Body.Wire

/-!
# The lines of a message

What a receiver finds in a header block: its lines, the lengths and the codings that they declare, and the bodies that
go with them.
-/

namespace Fasthttp

open Scanner List

variable {p : Bytes}

/-! ## Lines -/

def textLines : Bytes → List Bytes
  | [] => []
  | c :: b =>
    if c = nChar then [] :: textLines b
    else match textLines b with
      | [] => [[c]]
      | l :: ls => (c :: l) :: ls

def EndsLine (p : Bytes) : Prop := ∃ q, p = q ++ [nChar]

theorem textLines_ne_nil {b : Bytes} (h : b ≠ []) : textLines b ≠ [] := by
  cases b with
  | nil => exact absurd rfl h
  | cons c b =>
    unfold textLines
    split
    · simp
    · split <;> simp

theorem textLines_append (hp : EndsLine p) (z : Bytes) : textLines (p ++ z) = textLines p ++ textLines z := by
  obtain ⟨q, rfl⟩ := hp
  induction q with
  | nil => simp [textLines]
  | cons c q ih =>
    simp only [cons_append, textLines]
    rw [ih]
    split
    · rfl
    · rcases hl : textLines (q ++ [nChar]) with _ | ⟨l, ls⟩
      · exact absurd hl (textLines_ne_nil (by simp))
      · rfl

theorem textLines_line {l : Bytes} (h : nChar ∉ l) : textLines (l ++ [nChar]) = [l] := by
  induction l with
  | nil => simp [textLines]
  | cons c l ih =>
    simp only [mem_cons, not_or] at h
    simp [textLines, ih h.2, Ne.symm h.1]

/-! ## Fields -/

def fieldName (l : Bytes) : Bytes := l.takeWhile (· ≠ colonChar)

def fieldValue (l : Bytes) : Bytes :=
  let v := (l.drop ((fieldName l).length + 1)).dropWhile isBlank
  if v.getLast? = some rChar then v.dropLast else v

def named (name l : Bytes) : Bool := (fieldName l).map toLowerTable = name.map toLowerTable

def lengths (b : Bytes) : List Bytes := ((textLines b).filter (named strContentLength)).map fieldValue

def codings (b : Bytes) : List Bytes := (textLines b).filter (named strTransferEncoding)

def decimal (v : Bytes) : Option Nat :=
  if v ≠ [] ∧ v.all isDigit then some (v.foldl (fun n c => 10 * n + (c - ch '0').toNat) 0) else none

theorem lengths_append (hp : EndsLine p) (z : Bytes) : lengths (p ++ z) = lengths p ++ lengths z := by
  simp [lengths, textLines_append hp]

theorem codings_append (hp : EndsLine p) (z : Bytes) : codings (p ++ z) = codings p ++ codings z := by
  simp [codings, textLines_append hp]

theorem fieldName_append {k : Bytes} (hk : colonChar ∉ k) (t : Bytes) : fieldName (k ++ colonChar :: t) = k := by
  have hpos : ∀ c ∈ k, decide (c ≠ colonChar) = true := by
    intro c hc
    simp only [decide_eq_true_eq]
    rintro rfl
    exact hk hc
  rw [fieldName, takeWhile_append_of_pos hpos, takeWhile_cons_of_neg (by simp), append_nil]

/-! ## Digits -/

theorem digit_isDigit {n : Nat} (h : n < 10) : isDigit (ch n.digitChar) = true := by
  revert n; decide

theorem digit_value {n : Nat} (h : n < 10) : (ch n.digitChar - ch '0').toNat = n := by
  revert n; decide

theorem decimal_toDigits (n : Nat) : decimal ((Nat.toDigits 10 n).map ch) = some n := by
  have hall : ((Nat.toDigits 10 n).map ch).all isDigit = true ∧
      ((Nat.toDigits 10 n).map ch).foldl (fun n c => 10 * n + (c - ch '0').toNat) 0 = n := by
    induction n using Nat.strong_induction_on with
    | _ n ih =>
      by_cases hn : n < 10
      · simp [Nat.toDigits_of_lt_base hn, digit_isDigit hn, digit_value hn]
      · have hd := ih (n / 10) (by omega)
        have hm : n % 10 < 10 := Nat.mod_lt _ (by omega)
        simp only [Nat.toDigits_of_base_le (b := 10) (by omega) (Nat.le_of_not_lt hn), map_append, map_cons, map_nil,
          all_append, foldl_append, all_cons, foldl_cons, foldl_nil, hd,
          digit_isDigit hm, digit_value hm]
        exact ⟨rfl, by omega⟩
  rw [decimal, if_pos ⟨by simp, hall.1⟩, hall.2]

theorem isDigit_toDigits (n : Nat) : ∀ c ∈ (Nat.toDigits 10 n).map ch, isDigit c = true := by
  have h := decimal_toDigits n
  unfold decimal at h
  split at h
  · rename_i hall
    simpa using hall.2
  · simp at h

/-! ## Blocks -/

theorem endsLine_crlf (p : Bytes) : EndsLine (p ++ strCRLF) := ⟨p ++ [rChar], by simp [strCRLF]⟩

theorem wholeLines_of_blockEnd (hp : p = [] ∨ EndsLine p) (h : blockEnd p = none) : WholeLines p := by
  induction p using line_induction with
  | noLine p hb =>
    rcases hp with rfl | ⟨q, rfl⟩
    · intro z
      rw [nil_append]
      cases blockEnd z <;> simp
    · simp at hb
  | crlf t => simp at h
  | lf t => simp at h
  | line l t hl ih =>
    rw [blockEnd_line hl, Option.map_eq_none_iff] at h
    have ht : t = [] ∨ EndsLine t := by
      rcases hp with hp | ⟨q, hq⟩
      · simp at hp
      · rcases eq_nil_or_concat t with rfl | ⟨u, c, rfl⟩
        · exact .inl rfl
        · refine .inr ⟨u, ?_⟩
          have : (l ++ nChar :: u) ++ [c] = q ++ [nChar] := by simpa using hq
          rw [concat_eq_append, (append_inj_right' this rfl)]
    have hsplit : l ++ nChar :: t = (l ++ [nChar]) ++ t := by simp
    rw [hsplit]
    exact (wholeLines_line hl).append (ih ht h)

theorem blockEnd_pieces {ps : List Bytes} (hps : ∀ p ∈ ps, EndsLine p) :
    blockEnd (ps.flatten ++ strCRLF) = some (ps.flatten ++ strCRLF).length ↔ ∀ p ∈ ps, blockEnd p = none := by
  induction ps with
  | nil => simp [strCRLF]
  | cons p ps ih =>
    have ih := ih fun q hq => hps q (by simp [hq])
    rw [flatten_cons, append_assoc]
    rcases hp : blockEnd p with _ | k
    · rw [wholeLines_of_blockEnd (.inr (hps p (by simp))) hp, Option.map_eq_some_iff]
      simp only [mem_cons, forall_eq_or_imp, hp, true_and, ← ih]
      constructor
      · rintro ⟨k, hk, hlen⟩
        rw [hk, Option.some.injEq]
        rw [length_append] at hlen
        omega
      · intro hk
        exact ⟨_, hk, by simp⟩
    · have hle := blockEnd_le hp
      rw [blockEnd_append hp]
      simp only [Option.some.injEq, length_append, mem_cons, forall_eq_or_imp, hp, reduceCtorEq, false_and, iff_false]
      simp only [strCRLF, length_cons]
      omega

section Pieces

variable {ps : List Bytes} (hps : ∀ p ∈ ps, EndsLine p)
include hps

theorem lengths_pieces : lengths (ps.flatten ++ strCRLF) = ps.flatMap lengths := by
  induction ps with
  | nil => decide
  | cons p ps ih =>
    rw [flatten_cons, append_assoc, lengths_append (hps p (by simp)), ih fun q hq => hps q (by simp [hq])]
    rfl

theorem codings_pieces : codings (ps.flatten ++ strCRLF) = ps.flatMap codings := by
  induction ps with
  | nil => decide
  | cons p ps ih =>
    rw [flatten_cons, append_assoc, codings_append (hps p (by simp)), ih fun q hq => hps q (by simp [hq])]
    rfl

end Pieces

/-! ## Framing -/

def IsChunked (b : Bytes) : Prop :=
  (chunks 0 b).stop = .done ∧ blockEnd (b.drop (chunks 0 b).len) = some (b.length - (chunks 0 b).len)

structure Framed (block body : Bytes) : Prop where
  whole : blockEnd block = some block.length
  once : (lengths block).length ≤ 1
  apart : lengths block = [] ∨ codings block = []
  sized : ∀ v ∈ lengths block, decimal v = some body.length
  chunked : codings block ≠ [] → IsChunked body
  none : lengths block = [] → codings block = [] → body = []

theorem not_isChunked_nil : ¬ IsChunked [] := fun h => absurd h.1 (by decide)

end Fasthttp
