import Fasthttp.Bytes
import Fasthttp.Lib.FirstIndex
import Fasthttp.Lib.Segments

/-!
# Paths

`normalizePath` of `uri.go` decodes a path and then rewrites it in place in four passes.
-/

namespace Fasthttp

open Segments List

variable {fuel : Nat} {init pre ss st : List Bytes} {last w : Bytes}

def slash : Byte := ch '/'
def strSlashSlash : Bytes := ascii "//"
def strSlashDotSlash : Bytes := ascii "/./"
def strSlashDotDot : Bytes := ascii "/.."
def strSlashDotDotSlash : Bytes := ascii "/../"
def dot : Bytes := ascii "."
def dotDot : Bytes := ascii ".."

def decodeSlow : Bytes → Bytes
  | c :: a :: b :: rest =>
    if c = ch '%' then
      if hex2intTable a = 16 ∨ hex2intTable b = 16 then c :: decodeSlow (a :: b :: rest)
      else UInt8.ofNat (hex2intTable a * 16 + hex2intTable b) :: decodeSlow rest
    else c :: decodeSlow (a :: b :: rest)
  | short => short

variable (src : Bytes)

def decodeArgAppendNoPlus : Bytes :=
  match indexByte src (ch '%') with
  | none => src
  | some idx => src.take idx ++ decodeSlow (src.drop idx)

def addLeadingSlash : Bytes := if src.head? = some slash then [] else [slash]

def removeDupSlashes : Nat → Bytes → Bytes
  | 0, b => b
  | fuel + 1, b =>
    match find strSlashSlash b with
    | none => b
    | some n => b.take n ++ removeDupSlashes fuel (b.drop (n + 1))

def removeDots : Nat → Bytes → Bytes
  | 0, b => b
  | fuel + 1, b =>
    match find strSlashDotSlash b with
    | none => b
    | some n => removeDots fuel (b.take n ++ b.drop (n + 2))

def removeParents : Nat → Bytes → Bytes
  | 0, b => b
  | fuel + 1, b =>
    match find strSlashDotDotSlash b with
    | none => b
    | some n => removeParents fuel (b.take ((lastIndexByte (b.take n) slash).getD 0) ++ b.drop (n + 3))

def removeLastParent (b : Bytes) : Bytes :=
  match findLast strSlashDotDot b with
  | none => b
  | some n =>
    if n + 3 = b.length then
      match lastIndexByte (b.take n) slash with
      | none => strSlash
      | some nn => b.take (nn + 1)
    else b

def normalizePath : Bytes :=
  let b := addLeadingSlash src ++ decodeArgAppendNoPlus src
  let b := removeDupSlashes b.length b
  let b := removeDots b.length b
  let b := removeParents b.length b
  removeLastParent b

def resolve : List Bytes → List Bytes → List Bytes
  | st, [] => st
  | st, s :: ss => if s = dotDot then resolve st.dropLast ss else resolve (st ++ [s]) ss

def cleaned (ss : List Bytes) : List Bytes :=
  let st := resolve [] (ss.dropLast.filter fun s => s ≠ [] ∧ s ≠ dot)
  if ss.getLast? = some dotDot then st.dropLast ++ [[]] else st ++ ss.getLast?.toList

def segments : List Bytes := (addLeadingSlash src ++ decodeArgAppendNoPlus src).tail.splitOn slash

theorem slash_not_mem_dot : slash ∉ dot := by decide
theorem slash_not_mem_dotDot : slash ∉ dotDot := by decide

theorem decode_slash : ∃ l, decodeArgAppendNoPlus (slash :: src) = slash :: l := by
  unfold decodeArgAppendNoPlus
  cases h : indexByte (slash :: src) (ch '%') with
  | none => exact ⟨src, rfl⟩
  | some idx =>
    cases idx with
    | zero =>
      obtain ⟨u, v, he, -, hu⟩ := FirstIndex.idxOf?_cut h
      rw [length_eq_zero_iff.mp hu] at he
      exact absurd (List.cons.inj he).1 (by decide)
    | succ k => exact ⟨_, rfl⟩

theorem decoded_eq :
    addLeadingSlash src ++ decodeArgAppendNoPlus src = join slash (segments src) := by
  have hstart : ∃ l, addLeadingSlash src ++ decodeArgAppendNoPlus src = slash :: l := by
    unfold addLeadingSlash
    split
    · rename_i h
      obtain ⟨l, rfl⟩ : ∃ l, src = slash :: l := by
        cases src with
        | nil => simp at h
        | cons c l => exact ⟨l, by simpa using h⟩
      exact decode_slash l
    · exact ⟨_, rfl⟩
  obtain ⟨l, hl⟩ := hstart
  rw [segments, hl, tail_cons, join_splitOn]

theorem segments_free : Free slash (segments src) := splitOn_free slash _

theorem segments_ne_nil : segments src ≠ [] := splitOn_ne_nil slash _

theorem find_first {post : List Bytes} (hw : slash ∉ w)
    (hfree : Free slash (pre ++ w :: post ++ [last])) (hnot : w ∉ pre) :
    find (slash :: (w ++ [slash])) (join slash (pre ++ w :: post ++ [last])) = some (join slash pre).length := by
  rw [append_assoc]
  exact find_between hw (fun s hs => hfree s (by simp [hs])) hnot (by simp)

theorem filter_ne_of_not_mem (h : w ∉ pre) : pre.filter (fun s => s ≠ w) = pre := by
  rw [filter_eq_self]
  intro s hs
  simpa using fun he : s = w => h (he ▸ hs)

theorem filter_ne_first {post : List Bytes} (h : w ∉ pre) :
    (pre ++ w :: post).filter (fun s => s ≠ w) = pre ++ post.filter (fun s => s ≠ w) := by
  rw [filter_append, filter_ne_of_not_mem h, filter_cons_of_neg (by simp)]

theorem removeDupSlashes_join (hfuel : init.length ≤ fuel)
    (hfree : Free slash (init ++ [last])) :
    removeDupSlashes fuel (join slash (init ++ [last])) = join slash (init.filter (fun s => s ≠ []) ++ [last]) := by
  induction fuel generalizing init with
  | zero =>
    rw [length_eq_zero_iff.mp (Nat.le_zero.mp hfuel)]
    rfl
  | succ fuel ih =>
    by_cases hmem : [] ∈ init
    · obtain ⟨pre, post, rfl, hnot⟩ := eq_append_cons_of_mem hmem
      have hfind : find strSlashSlash (join slash (pre ++ [] :: post ++ [last])) = some (join slash pre).length :=
        find_first (by simp) hfree hnot
      have hlen : post.length ≤ fuel := by
        simp only [length_append, length_cons] at hfuel
        omega
      have hpost : Free slash (post ++ [last]) := fun s hs => hfree s (by simp at hs ⊢; tauto)
      rw [removeDupSlashes, hfind, append_assoc, cons_append]
      simp only [take_join]
      rw [drop_join (n := 1) (s := []) rfl pre (post ++ [last]), ih hlen hpost, filter_ne_first hnot, ← join_append, append_assoc]
    · have hfind : find strSlashSlash (join slash (init ++ [last])) = none :=
        find_between_none last (by simp) hfree hmem
      rw [removeDupSlashes, hfind, filter_ne_of_not_mem hmem]

theorem removeDots_join (hfuel : init.length ≤ fuel)
    (hfree : Free slash (init ++ [last])) :
    removeDots fuel (join slash (init ++ [last])) = join slash (init.filter (fun s => s ≠ dot) ++ [last]) := by
  induction fuel generalizing init with
  | zero =>
    rw [length_eq_zero_iff.mp (Nat.le_zero.mp hfuel)]
    rfl
  | succ fuel ih =>
    by_cases hmem : dot ∈ init
    · obtain ⟨pre, post, rfl, hnot⟩ := eq_append_cons_of_mem hmem
      have hfind : find strSlashDotSlash (join slash (pre ++ dot :: post ++ [last])) = some (join slash pre).length :=
        find_first slash_not_mem_dot hfree hnot
      have hlen : (pre ++ post).length ≤ fuel := by
        simp only [length_append, length_cons] at hfuel ⊢
        omega
      have hless : Free slash (pre ++ post ++ [last]) := fun s hs => hfree s (by simp at hs ⊢; tauto)
      rw [removeDots, hfind, append_assoc, cons_append]
      simp only [take_join]
      rw [drop_join (n := 2) (s := dot) rfl pre (post ++ [last]), ← join_append, ← append_assoc, ih hlen hless, filter_ne_first hnot,
        filter_append, filter_ne_of_not_mem hnot]
    · have hfind : find strSlashDotSlash (join slash (init ++ [last])) = none :=
        find_between_none last slash_not_mem_dot hfree hmem
      rw [removeDots, hfind, filter_ne_of_not_mem hmem]

theorem resolve_append (st ss ts : List Bytes) : resolve st (ss ++ ts) = resolve (resolve st ss) ts := by
  induction ss generalizing st with
  | nil => rfl
  | cons s ss ih =>
    simp only [cons_append, resolve]
    split
    · exact ih _
    · exact ih _

theorem resolve_of_not_mem (h : dotDot ∉ ss) : resolve st ss = st ++ ss := by
  induction ss generalizing st with
  | nil => simp [resolve]
  | cons s ss ih =>
    simp only [mem_cons, not_or] at h
    rw [resolve, if_neg (Ne.symm h.1), ih h.2]
    simp

theorem lastIndexByte_join {s : Bytes} (hs : slash ∉ s) :
    lastIndexByte (join slash (ss ++ [s])) slash = some (join slash ss).length := by
  have hrev : (join slash (ss ++ [s])).reverse = s.reverse ++ slash :: (join slash ss).reverse := by simp
  rw [lastIndexByte, hrev, FirstIndex.idxOf?_append_cons slash _ _ (by simpa using hs)]
  simp only [join_append, join_cons, join_nil, length_append, length_cons, length_reverse, append_nil,
    Option.map_some, Option.some.injEq]
  omega

theorem take_lastIndexByte_join {ts : List Bytes} (hfree : Free slash ss) :
    (join slash (ss ++ ts)).take ((lastIndexByte (join slash ss) slash).getD 0) = join slash ss.dropLast := by
  rcases eq_nil_or_concat' ss with rfl | ⟨ss, s, rfl⟩
  · simp [lastIndexByte]
  · rw [lastIndexByte_join (hfree s (by simp)), dropLast_concat, Option.getD_some, append_assoc, take_join]

theorem removeParents_join (hfuel : init.length ≤ fuel)
    (hfree : Free slash (init ++ [last])) :
    removeParents fuel (join slash (init ++ [last])) = join slash (resolve [] init ++ [last]) := by
  induction fuel generalizing init with
  | zero =>
    rw [length_eq_zero_iff.mp (Nat.le_zero.mp hfuel)]
    rfl
  | succ fuel ih =>
    by_cases hmem : dotDot ∈ init
    · obtain ⟨pre, post, rfl, hnot⟩ := eq_append_cons_of_mem hmem
      have hfind : find strSlashDotDotSlash (join slash (pre ++ dotDot :: post ++ [last])) = some (join slash pre).length :=
        find_first slash_not_mem_dotDot hfree hnot
      have hup : dotDot ∉ pre.dropLast := fun h => hnot (dropLast_subset _ h)
      have hlen : (pre.dropLast ++ post).length ≤ fuel := by
        simp only [length_append, length_cons, length_dropLast] at hfuel ⊢
        omega
      have hless : Free slash (pre.dropLast ++ post ++ [last]) := by
        intro s hs
        refine hfree s ?_
        simp only [mem_append, mem_cons] at hs ⊢
        rcases hs with (hs | hs) | hs
        · exact .inl (.inl (dropLast_subset _ hs))
        · exact .inl (.inr (.inr hs))
        · exact .inr hs
      have hresolve : resolve [] (pre ++ dotDot :: post) = resolve [] (pre.dropLast ++ post) := by
        rw [resolve_append, resolve_append, resolve_of_not_mem hnot, resolve_of_not_mem hup]
        rfl
      rw [removeParents, hfind, append_assoc, cons_append]
      simp only [take_join]
      rw [take_lastIndexByte_join (fun s hs => hfree s (by simp [hs])),
        drop_join (n := 3) (s := dotDot) rfl pre (post ++ [last]), ← join_append,
        ← append_assoc, ih hlen hless, hresolve]
    · have hfind : find strSlashDotDotSlash (join slash (init ++ [last])) = none :=
        find_between_none last slash_not_mem_dotDot hfree hmem
      rw [removeParents, hfind, resolve_of_not_mem hmem]
      rfl

theorem removeLastParent_join (hfree : Free slash (st ++ [last])) :
    removeLastParent (join slash (st ++ [last])) =
      join slash (if last = dotDot then st.dropLast ++ [[]] else st ++ [last]) := by
  have hsuffix : strSlashDotDot <:+ join slash (st ++ [last]) ↔ last = dotDot :=
    suffix_join_iff slash_not_mem_dotDot (hfree last (by simp))
  have hend := (findLast_end (by decide)).trans hsuffix
  unfold removeLastParent
  split_ifs with hlast
  · obtain ⟨n, hn, hlen⟩ := hend.mpr hlast
    subst hlast
    have hn' : n = (join slash st).length := by
      simp only [join_append, length_append] at hlen
      exact Nat.add_right_cancel (show n + 3 = (join slash st).length + 3 from hlen)
    have hlen' : n + 3 = (join slash (st ++ [dotDot])).length := hlen
    rw [hn]
    simp only [hlen']
    rw [hn', take_join]
    rcases eq_nil_or_concat' st with rfl | ⟨st, s, rfl⟩
    · rfl
    · rw [lastIndexByte_join (hfree s (by simp))]
      simp [take_append, take_of_length_le]
  · rcases hn : findLast strSlashDotDot (join slash (st ++ [last])) with _ | n
    · rfl
    · exact if_neg fun hlen => hlast (hend.mp ⟨n, hn, hlen⟩)

theorem resolve_subset (st ss : List Bytes) : resolve st ss ⊆ st ++ ss := by
  induction ss generalizing st with
  | nil => simp [resolve]
  | cons s ss ih =>
    rw [resolve]
    split
    · intro t ht
      rcases mem_append.mp (ih _ ht) with ht | ht
      · exact mem_append_left _ (dropLast_subset _ ht)
      · simp [ht]
    · intro t ht
      simpa using ih _ ht

theorem normalizePath_eq : normalizePath src = join slash (cleaned (segments src)) := by
  obtain ⟨init, last, hss⟩ : ∃ init last, segments src = init ++ [last] :=
    ⟨_, _, (dropLast_append_getLast (segments_ne_nil src)).symm⟩
  have hfree : Free slash (init ++ [last]) := hss ▸ segments_free src
  have hlen (ss : List Bytes) : ss.length ≤ (join slash (ss ++ [last])).length := Nat.le_of_lt (length_lt_join_concat ss last)
  have hless {ss ts : List Bytes} (h : Free slash (ts ++ [last])) (hsub : ss ⊆ ts) : Free slash (ss ++ [last]) := by
    refine h.of_subset ?_
    simp only [append_subset, subset_append_right, and_true]
    exact List.Subset.trans hsub (subset_append_left _ _)
  have hmerged := hless hfree (filter_sublist (p := fun s => s ≠ []) (l := init)).subset
  have hdots := hless hmerged (filter_sublist (p := fun s => s ≠ dot)).subset
  have hresolved := hless hdots (resolve_subset [] _)
  unfold normalizePath
  rw [decoded_eq, hss]
  simp only [removeDupSlashes_join (hlen _) hfree, removeDots_join (hlen _) hmerged, removeParents_join (hlen _) hdots,
    removeLastParent_join hresolved]
  simp [cleaned, and_comm]

theorem dotDot_not_mem_resolve (hst : dotDot ∉ st) (ss : List Bytes) : dotDot ∉ resolve st ss := by
  induction ss generalizing st with
  | nil => exact hst
  | cons s ss ih =>
    rw [resolve]
    split
    · exact ih fun h => hst (dropLast_subset _ h)
    · rename_i hne
      exact ih (by simp [hst, Ne.symm hne])

theorem dotDot_not_mem_cleaned (ss : List Bytes) : dotDot ∉ cleaned ss := by
  have hresolve := dotDot_not_mem_resolve (not_mem_nil : dotDot ∉ []) (ss.dropLast.filter fun s => s ≠ [] ∧ s ≠ dot)
  unfold cleaned
  split
  · have hup := fun h => hresolve (dropLast_subset _ h)
    simp only [mem_append, not_or]
    exact ⟨hup, by decide⟩
  · rename_i hlast
    simp only [mem_append, Option.mem_toList, not_or]
    exact ⟨hresolve, hlast⟩

theorem cleaned_free (hfree : Free slash ss) : Free slash (cleaned ss) := by
  have hresolve : Free slash (resolve [] (ss.dropLast.filter fun s => s ≠ [] ∧ s ≠ dot)) :=
    hfree.of_subset (List.Subset.trans (resolve_subset [] _)
      (List.Subset.trans filter_sublist.subset (dropLast_subset ss)))
  unfold cleaned
  intro s hs
  split at hs
  · rcases mem_append.mp hs with hs | hs
    · exact hresolve s (dropLast_subset _ hs)
    · simp [mem_singleton.mp hs]
  · rcases mem_append.mp hs with hs | hs
    · exact hresolve s hs
    · exact hfree s (mem_of_getLast? (Option.mem_toList.mp hs))

end Fasthttp
