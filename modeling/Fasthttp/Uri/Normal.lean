import Fasthttp.Uri.Path

/-!
# What a normalised path is

The passes of `normalizePath` against a specification: the text is decoded once and its segments are cleaned.
-/

namespace Fasthttp

open Segments List

variable {ss : List Bytes}

def hexOf (c : Byte) : Option Nat := (ascii "0123456789abcdef").idxOf? (toLowerTable c)

/-- A `%` that is not followed by two digits stands for itself. -/
def percentDecode : Bytes → Bytes
  | c :: a :: b :: rest =>
    match hexOf a, hexOf b with
    | some x, some y => if c = ch '%' then UInt8.ofNat (16 * x + y) :: percentDecode rest else c :: percentDecode (a :: b :: rest)
    | _, _ => c :: percentDecode (a :: b :: rest)
  | short => short

theorem hexOf_eq (c : Byte) : hexOf c = if hex2intTable c = 16 then none else some (hex2intTable c) := by
  revert c
  apply forall_byte
  decide +kernel

theorem percentDecode_cons {c : Byte} (hc : c ≠ ch '%') (rest : Bytes) : percentDecode (c :: rest) = c :: percentDecode rest := by
  match rest with
  | [] | [_] => rfl
  | a :: b :: rest =>
    rw [percentDecode]
    split
    · rw [if_neg hc]
    · rfl

theorem percentDecode_append {u : Bytes} (hu : ch '%' ∉ u) (v : Bytes) : percentDecode (u ++ v) = u ++ percentDecode v := by
  induction u with
  | nil => rfl
  | cons c u ih =>
    simp only [mem_cons, not_or] at hu
    rw [cons_append, percentDecode_cons (Ne.symm hu.1), ih hu.2, cons_append]

theorem decodeSlow_eq (src : Bytes) : decodeSlow src = percentDecode src := by
  fun_induction decodeSlow src with
  | case1 a b rest hnot ih =>
    rw [percentDecode, hexOf_eq, hexOf_eq, ih]
    rcases hnot with h | h
    · rw [if_pos h]
    · rw [if_pos h]
      split
      · contradiction
      · rfl
  | case2 a b rest hnot ih =>
    simp only [not_or] at hnot
    rw [percentDecode, hexOf_eq, hexOf_eq, if_neg hnot.1, if_neg hnot.2, ih]
    simp [Nat.mul_comm]
  | case3 c a b rest hc ih => rw [percentDecode_cons hc, ih]
  | case4 short hshort => rw [percentDecode.eq_2 short hshort]

theorem decodeArgAppendNoPlus_eq (src : Bytes) : decodeArgAppendNoPlus src = percentDecode src := by
  unfold decodeArgAppendNoPlus
  rcases h : indexByte src (ch '%') with _ | idx
  · have hnot : ch '%' ∉ src := by simpa [indexByte] using h
    simpa [percentDecode] using (percentDecode_append hnot []).symm
  · obtain ⟨u, v, rfl, hu, rfl⟩ := FirstIndex.idxOf?_cut h
    simp only [take_left, drop_left]
    rw [decodeSlow_eq, percentDecode_append hu]

/-! ## The specification -/

def rooted (p : Bytes) : Bytes := if p.head? = some slash then p else slash :: p

def cleanPath (p : Bytes) : Bytes := join slash (cleaned ((rooted p).tail.splitOn slash))

theorem cleaned_nil_cons (hss : ss ≠ []) : cleaned ([] :: ss) = cleaned ss := by
  have hlast : ([] :: ss).getLast? = ss.getLast? := by
    rw [getLast?_cons_of_ne_nil hss]
  unfold cleaned
  rw [hlast, dropLast_cons_of_ne_nil hss, filter_cons_of_neg (by simp)]

theorem normalizePath_clean (src : Bytes) : normalizePath src = cleanPath (percentDecode src) := by
  rw [normalizePath_eq, segments, decodeArgAppendNoPlus_eq, cleanPath, rooted, addLeadingSlash]
  split_ifs with hsrc hd hd
  · rfl
  · -- a slash in front is no escape
    cases src with
    | nil => simp at hsrc
    | cons c src =>
      obtain rfl : c = slash := by simpa using hsrc
      exact absurd (by rw [percentDecode_cons (by decide)]; rfl) hd
  · -- the slash in front was an escape, so there are two of them
    rcases hp : percentDecode src with _ | ⟨c, d⟩
    · simp [hp] at hd
    · obtain rfl : c = slash := by simpa [hp] using hd
      rw [singleton_append, tail_cons, splitOn_cons, if_pos rfl, cleaned_nil_cons (splitOn_ne_nil slash d), tail_cons]
  · rfl

def Clean (ss : List Bytes) : Prop :=
  ∃ init last, ss = init ++ [last] ∧ (∀ s ∈ init, s ≠ [] ∧ s ≠ dot ∧ s ≠ dotDot) ∧ last ≠ dotDot

theorem resolve_clean {st : List Bytes} (hst : ∀ s ∈ st, s ≠ [] ∧ s ≠ dot ∧ s ≠ dotDot) (hss : ∀ s ∈ ss, s ≠ [] ∧ s ≠ dot) :
    ∀ s ∈ resolve st ss, s ≠ [] ∧ s ≠ dot ∧ s ≠ dotDot := by
  intro s hs
  have hnot : dotDot ∉ resolve st ss := dotDot_not_mem_resolve (fun h => (hst _ h).2.2 rfl) ss
  rcases mem_append.mp (resolve_subset st ss hs) with h | h
  · exact hst s h
  · exact ⟨(hss s h).1, (hss s h).2, fun he => hnot (he ▸ hs)⟩

theorem cleaned_clean (hss : ss ≠ []) : Clean (cleaned ss) := by
  have hdirs : ∀ s ∈ resolve [] (ss.dropLast.filter fun s => s ≠ [] ∧ s ≠ dot), s ≠ [] ∧ s ≠ dot ∧ s ≠ dotDot :=
    resolve_clean (by simp) (by simp)
  obtain ⟨last, hlast⟩ : ∃ last, ss.getLast? = some last := ⟨_, getLast?_eq_some_getLast hss⟩
  unfold cleaned
  rw [hlast]
  split_ifs with h
  · exact ⟨_, _, rfl, fun s hs => hdirs s (dropLast_subset _ hs), by decide⟩
  · exact ⟨_, _, rfl, hdirs, fun he => h (congrArg some he)⟩

theorem cleaned_of_clean (h : Clean ss) : cleaned ss = ss := by
  obtain ⟨init, last, rfl, hinit, hlast⟩ := h
  have hkept : init.filter (fun s => s ≠ [] ∧ s ≠ dot) = init := by
    rw [filter_eq_self]
    intro s hs
    simpa using ⟨(hinit s hs).1, (hinit s hs).2.1⟩
  unfold cleaned
  rw [dropLast_concat, getLast?_concat, hkept, resolve_of_not_mem fun h => (hinit _ h).2.2 rfl, if_neg (by simpa using hlast)]
  rfl

theorem cleanPath_of_clean (h : Clean ss) (hfree : Free slash ss) : cleanPath (join slash ss) = join slash ss := by
  cases ss with
  | nil =>
    obtain ⟨init, last, he, -⟩ := h
    simp at he
  | cons s ss =>
    have hstart : (join slash (s :: ss)).head? = some slash := rfl
    rw [cleanPath, rooted, if_pos hstart, splitOn_join hfree, cleaned_of_clean h]

theorem cleanPath_segments (p : Bytes) : ∃ ss, cleanPath p = join slash ss ∧ Clean ss ∧ Free slash ss :=
  ⟨_, rfl, cleaned_clean (splitOn_ne_nil slash _), cleaned_free (splitOn_free slash _)⟩

theorem cleanPath_cleanPath (p : Bytes) : cleanPath (cleanPath p) = cleanPath p := by
  obtain ⟨ss, hss, hclean, hfree⟩ := cleanPath_segments p
  rw [hss, cleanPath_of_clean hclean hfree]

structure Normal (p : Bytes) : Prop where
  starts : p.head? = some slash
  no_dup : ¬ strSlashSlash <:+: p
  no_dot : ¬ strSlashDotSlash <:+: p
  no_parent : ¬ strSlashDotDotSlash <:+: p
  no_last_parent : ¬ strSlashDotDot <:+ p

theorem normal_of_clean (h : Clean ss) (hfree : Free slash ss) : Normal (join slash ss) := by
  obtain ⟨init, last, rfl, hinit, hlast⟩ := h
  have hbetween {w : Bytes} (hw : slash ∉ w) (hnot : w ∉ init) : ¬ slash :: (w ++ [slash]) <:+: join slash (init ++ [last]) :=
    fun h => hnot (mem_of_between hw hfree h)
  constructor
  · cases init with
    | nil => rfl
    | cons s init => rfl
  · exact hbetween (w := []) (by simp) fun h => (hinit _ h).1 rfl
  · exact hbetween slash_not_mem_dot fun h => (hinit _ h).2.1 rfl
  · exact hbetween slash_not_mem_dotDot fun h => (hinit _ h).2.2 rfl
  · exact fun h => hlast ((suffix_join_iff slash_not_mem_dotDot (hfree last (by simp))).mp h)

theorem cleanPath_normal (p : Bytes) : Normal (cleanPath p) := by
  obtain ⟨ss, hss, hclean, hfree⟩ := cleanPath_segments p
  rw [hss]
  exact normal_of_clean hclean hfree

/-- `normalizePath` decodes once, puts a slash in front and cleans the segments, and nothing is left to be cleaned. -/
theorem normalizePath_spec (src : Bytes) : normalizePath src = cleanPath (percentDecode src) ∧ Normal (normalizePath src) := by
  rw [normalizePath_clean]
  exact ⟨rfl, cleanPath_normal _⟩

-- a final `..` leaves a slash, a final `.` stays, and the root is a floor
example : normalizePath (ascii "a%2f.//b/../..") = ascii "/" := by decide +kernel
example : normalizePath (ascii "/../a/./b/.") = ascii "/a/b/." := by decide +kernel

end Fasthttp
