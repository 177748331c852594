import Mathlib

/-!
# Lists of segments

A list that starts with a separator is a list of segments, each behind its separator.
-/

namespace Segments

open List

variable {α : Type}

/-! ## Search -/

variable {s : List α}

section Search

variable [DecidableEq α]

def find (p : List α) : List α → Option Nat
  | [] => if p = [] then some 0 else none
  | a :: l => if p.isPrefixOf (a :: l) then some 0 else (find p l).map (· + 1)

def findLast (p l : List α) : Option Nat := (find p.reverse l.reverse).map fun n => l.length - p.length - n

variable {x : α}

theorem find_skip (hs : x ∉ s) (p t : List α) :
    find (x :: p) (s ++ t) = (find (x :: p) t).map (· + s.length) := by
  induction s with
  | nil => simp
  | cons a s ih =>
    simp only [mem_cons, not_or] at hs
    have hne : (x :: p).isPrefixOf (a :: (s ++ t)) = false := by simp [isPrefixOf, hs.1]
    rw [cons_append, find, hne, ih hs.2]
    simp only [Option.map_map]
    rfl

variable {p : List α}

theorem find_start {t : List α} (h : p <+: t) (hp : p ≠ []) : find p t = some 0 := by
  cases t with
  | nil => exact absurd (prefix_nil.mp h) hp
  | cons a t => simp [find, h]

variable {p l : List α}

theorem find_cut {n : Nat} (h : find p l = some n) : ∃ u v, l = u ++ (p ++ v) ∧ u.length = n := by
  induction l generalizing n with
  | nil =>
    obtain ⟨rfl, rfl⟩ : p = [] ∧ 0 = n := by simpa [find] using h
    exact ⟨[], [], rfl, rfl⟩
  | cons a l ih =>
    simp only [find] at h
    split at h
    · rename_i hp
      obtain ⟨v, hv⟩ := isPrefixOf_iff_prefix.mp hp
      exact ⟨[], v, hv.symm, Option.some.inj h⟩
    · obtain ⟨m, hm, rfl⟩ := Option.map_eq_some_iff.mp h
      obtain ⟨u, v, rfl, rfl⟩ := ih hm
      exact ⟨a :: u, v, rfl, rfl⟩

theorem prefix_of_find {n : Nat} (h : find p l = some n) : p <+: l.drop n := by
  obtain ⟨u, v, rfl, rfl⟩ := find_cut h
  exact ⟨v, drop_left.symm⟩

theorem findLast_end (hp : p ≠ []) :
    (∃ n, findLast p l = some n ∧ n + p.length = l.length) ↔ p <:+ l := by
  constructor
  · rintro ⟨n, hn, hlen⟩
    obtain ⟨m, hm, rfl⟩ := Option.map_eq_some_iff.mp hn
    have hpre := prefix_of_find hm
    have hle : p.length ≤ l.length - m := by simpa using hpre.length_le
    have hpos : 0 < p.length := length_pos_iff.mpr hp
    obtain rfl : m = 0 := by omega
    exact reverse_prefix.mp (by simpa using hpre)
  · intro h
    have hfind : find p.reverse l.reverse = some 0 := find_start (by simpa using h) (by simpa using hp)
    have hle := h.length_le
    exact ⟨l.length - p.length, by simp [findLast, hfind], by omega⟩

theorem find_isSome : (find p l).isSome = true ↔ p <:+: l := by
  induction l with
  | nil =>
    rw [find]
    split <;> simp_all
  | cons a l ih =>
    rw [find, infix_cons_iff]
    split
    · simp_all
    · simp_all

omit [DecidableEq α] in
theorem prefix_append_sep (hx : x ∉ p) (s t : List α) : p <+: s ++ x :: t ↔ p <+: s := by
  constructor
  · intro h
    rcases Nat.lt_or_ge s.length p.length with hlt | hle
    · have hsep : s ++ [x] <+: s ++ x :: t := ⟨t, by simp⟩
      have hmem := (prefix_of_prefix_length_le hsep h (by simpa [Nat.succ_le_iff] using hlt)).subset
          (mem_append_right s (mem_singleton_self x))
      exact absurd hmem hx
    · exact prefix_of_prefix_length_le h (prefix_append s _) hle
  · intro h
    exact h.trans (prefix_append s _)

theorem find_append_sep (hx : x ∉ p) (hp : p ≠ []) (s t : List α) :
    find p (s ++ x :: t) = (find p s).or ((find p t).map (· + (s.length + 1))) := by
  induction s with
  | nil =>
    have hpre : ¬ p <+: x :: t := by simpa [hp] using prefix_append_sep hx [] t
    simp [find, hp, hpre]
  | cons a s ih =>
    have hpre := prefix_append_sep hx (a :: s) t
    simp only [cons_append] at hpre
    simp only [cons_append, find, isPrefixOf_iff_prefix, hpre]
    split
    · rfl
    · rw [ih]
      rcases find p s with _ | n
      · simp [Function.comp_def, Nat.add_assoc]
      · rfl

theorem infix_append_sep (hx : x ∉ p) (hp : p ≠ []) (s t : List α) : p <:+: s ++ x :: t ↔ p <:+: s ∨ p <:+: t := by
  simp [← find_isSome, find_append_sep hx hp]

theorem find_of_not_mem (hs : x ∉ s) (p : List α) : find (x :: p) s = none := by
  rw [← append_nil s, find_skip hs]
  simp [find]

/-! ## The first separator -/

def before (x : α) (l : List α) : List α := l.takeWhile (· ≠ x)

def behind (x : α) (l : List α) : List α := (l.dropWhile (· ≠ x)).tail

variable {u : List α}

theorem ne_of_not_mem (hu : x ∉ u) : ∀ a ∈ u, decide (a ≠ x) = true :=
  fun _ ha => decide_eq_true fun he => hu (he ▸ ha)

theorem before_append (hu : x ∉ u) (v : List α) : before x (u ++ v) = u ++ before x v :=
  takeWhile_append_of_pos (ne_of_not_mem hu)

theorem behind_append (hu : x ∉ u) (v : List α) : behind x (u ++ v) = behind x v := by
  rw [behind, dropWhile_append_of_pos (ne_of_not_mem hu), behind]

theorem before_cons {x c : α} (h : x ≠ c) (l : List α) : before x (c :: l) = c :: before x l :=
  before_append (u := [c]) (by simpa using h) l

theorem before_append_cons (hu : x ∉ u) (v : List α) : before x (u ++ x :: v) = u := by
  rw [before_append hu, before, takeWhile_cons_of_neg (by simp), append_nil]

theorem behind_append_cons (hu : x ∉ u) (v : List α) : behind x (u ++ x :: v) = v := by
  rw [behind_append hu, behind, dropWhile_cons_of_neg (by simp), tail_cons]

theorem behind_append_of_mem (hu : x ∈ u) (v : List α) : behind x (u ++ v) = behind x u ++ v := by
  obtain ⟨u₁, u₂, rfl, hnot⟩ := eq_append_cons_of_mem hu
  rw [append_assoc, cons_append, behind_append_cons hnot, behind_append_cons hnot]

theorem length_behind_le (x : α) (l : List α) : (behind x l).length ≤ l.length := by
  rw [behind, length_tail]
  exact Nat.le_trans (Nat.sub_le _ _) (dropWhile_sublist _).length_le

theorem before_of_not_mem {l : List α} (h : x ∉ l) : before x l = l := by
  simpa [before] using before_append h []

theorem behind_of_not_mem {l : List α} (h : x ∉ l) : behind x l = [] := by
  simpa [behind] using behind_append h []

end Search

/-! ## Segments -/

def join (x : α) (ss : List (List α)) : List α := ss.flatMap (x :: ·)

variable {x : α}

@[simp] theorem join_nil : join x [] = [] := rfl
@[simp] theorem join_cons (s : List α) (ss : List (List α)) : join x (s :: ss) = x :: (s ++ join x ss) := rfl
@[simp] theorem join_append (ss ts : List (List α)) : join x (ss ++ ts) = join x ss ++ join x ts := by simp [join]

def Free (x : α) (ss : List (List α)) : Prop := ∀ s ∈ ss, x ∉ s

theorem Free.of_subset {ss ts : List (List α)} (h : Free x ts) (hsub : ss ⊆ ts) : Free x ss := fun s hs => h s (hsub hs)

section Split

variable [DecidableEq α]

theorem splitOn_cons (a : α) (l : List α) :
    (a :: l).splitOn x = if a = x then [] :: l.splitOn x else (l.splitOn x).modifyHead (cons a) := by
  simp [splitOn, splitOnP_cons_eq_if_modifyHead]

theorem splitOn_free (x : α) (l : List α) : Free x (l.splitOn x) := by
  induction l with
  | nil => simp [Free]
  | cons a l ih =>
    rw [splitOn_cons]
    split
    · simpa [Free] using ih
    · rename_i hne
      rcases hs : l.splitOn x with _ | ⟨s, ss⟩
      · exact absurd hs (splitOn_ne_nil x l)
      · rw [hs] at ih
        obtain ⟨hs, hss⟩ := forall_mem_cons.mp ih
        refine forall_mem_cons.mpr ⟨?_, hss⟩
        simp only [mem_cons, not_or]
        exact ⟨fun h => hne h.symm, hs⟩

theorem join_splitOn (x : α) (l : List α) : join x (l.splitOn x) = x :: l := by
  induction l with
  | nil => simp
  | cons a l ih =>
    rw [splitOn_cons]
    split
    · rename_i h
      rw [join_cons, ih, h]
      rfl
    · rcases hs : l.splitOn x with _ | ⟨s, ss⟩
      · exact absurd hs (splitOn_ne_nil x l)
      · rw [hs] at ih
        simp only [join_cons, cons.injEq, true_and, modifyHead_cons, cons_append] at ih ⊢
        rw [ih]

theorem splitOn_append_cons (s t : List α) : (s ++ x :: t).splitOn x = s.splitOn x ++ t.splitOn x := by
  induction s with
  | nil => simp [splitOn_cons]
  | cons a s ih =>
    rw [cons_append, splitOn_cons, splitOn_cons, ih]
    rcases hs : s.splitOn x with _ | ⟨u, us⟩
    · exact absurd hs (splitOn_ne_nil x s)
    · split <;> simp

theorem splitOn_of_not_mem (hs : x ∉ s) : s.splitOn x = [s] := by
  induction s with
  | nil => simp
  | cons a s ih =>
    obtain ⟨hne, hs⟩ := not_or.mp (fun h => hs (mem_cons.mpr h))
    rw [splitOn_cons, if_neg fun h => hne h.symm, ih hs, modifyHead_cons]

theorem splitOn_append_free (s : List α) :
    ∃ init last, s.splitOn x = init ++ [last] ∧ ∀ t, x ∉ t → (s ++ t).splitOn x = init ++ [last ++ t] := by
  induction s with
  | nil => exact ⟨[], [], by simp, fun t ht => by simp [splitOn_of_not_mem ht]⟩
  | cons a s ih =>
    obtain ⟨init, last, hs, happend⟩ := ih
    by_cases ha : a = x
    · refine ⟨[] :: init, last, by simp [splitOn_cons, ha, hs], ?_⟩
      intro t ht
      rw [cons_append, splitOn_cons, if_pos ha, happend t ht, cons_append]
    · cases init with
      | nil =>
        refine ⟨[], a :: last, by simp [splitOn_cons, ha, hs], ?_⟩
        intro t ht
        simp [splitOn_cons, ha, happend t ht]
      | cons u init =>
        refine ⟨(a :: u) :: init, last, by simp [splitOn_cons, ha, hs], ?_⟩
        intro t ht
        simp [splitOn_cons, ha, happend t ht]

end Split

theorem append_inj {s t u v : List α} (hs : x ∉ s) (ht : x ∉ t) (hu : u = [] ∨ ∃ u', u = x :: u') (hv : v = [] ∨ ∃ v', v = x :: v')
    (h : s ++ u = t ++ v) : s = t ∧ u = v := by
  induction s generalizing t with
  | nil =>
    cases t with
    | nil => exact ⟨rfl, h⟩
    | cons b t =>
      rcases hu with rfl | ⟨u', rfl⟩
      · simp at h
      · obtain rfl : x = b := by simpa using congrArg head? h
        simp at ht
  | cons a s ih =>
    cases t with
    | nil =>
      rcases hv with rfl | ⟨v', rfl⟩
      · simp at h
      · obtain rfl : a = x := by simpa using congrArg head? h
        simp at hs
    | cons b t =>
      simp only [cons_append, cons.injEq] at h
      simp only [mem_cons, not_or] at hs ht
      obtain ⟨rfl, rfl⟩ := ih hs.2 ht.2 h.2
      exact ⟨by rw [h.1], rfl⟩

theorem join_start (ss : List (List α)) : join x ss = [] ∨ ∃ u, join x ss = x :: u := by
  cases ss with
  | nil => exact .inl rfl
  | cons s ss => exact .inr ⟨_, rfl⟩

theorem join_inj {ss ts : List (List α)} (hs : Free x ss) (ht : Free x ts) (h : join x ss = join x ts) : ss = ts := by
  induction ss generalizing ts with
  | nil =>
    cases ts with
    | nil => rfl
    | cons t ts => simp at h
  | cons s ss ih =>
    cases ts with
    | nil => simp at h
    | cons t ts =>
      simp only [Free, forall_mem_cons] at hs ht
      simp only [join_cons, cons.injEq, true_and] at h
      obtain ⟨rfl, hrest⟩ := append_inj hs.1 ht.1 (join_start ss) (join_start ts) h
      rw [ih hs.2 ht.2 hrest]

variable {ss : List (List α)}

theorem join_of_suffix (hfree : Free x ss) {t l : List α} (h : t ++ x :: l = join x ss) :
    ∃ pre post, ss = pre ++ post ∧ x :: l = join x post := by
  induction ss generalizing t with
  | nil => simp at h
  | cons s ss ih =>
    obtain ⟨hs, hss⟩ := forall_mem_cons.mp hfree
    cases t with
    | nil => exact ⟨[], s :: ss, rfl, h⟩
    | cons a t =>
      have htail := (cons.inj h).2
      rcases append_eq_append_iff.mp htail with ⟨u, hu, hrest⟩ | ⟨u, -, hrest⟩
      · cases u with
        | nil => exact ⟨[s], ss, rfl, hrest⟩
        | cons b u =>
          obtain rfl : x = b := (cons.inj hrest).1
          exact absurd (by simp [hu]) hs
      · obtain ⟨pre, post, rfl, hpost⟩ := ih hss hrest.symm
        exact ⟨s :: pre, post, rfl, hpost⟩

theorem take_join (ss ts : List (List α)) : (join x (ss ++ ts)).take (join x ss).length = join x ss := by simp

theorem drop_join {n : Nat} (hn : n = s.length + 1) (ss ts : List (List α)) :
    (join x (ss ++ s :: ts)).drop ((join x ss).length + n) = join x ts := by
  rw [hn, join_append, ← drop_drop, drop_left, join_cons, drop_succ_cons, drop_left]

theorem length_lt_join_concat (ss : List (List α)) (s : List α) : ss.length < (join x (ss ++ [s])).length := by
  induction ss with
  | nil => simp
  | cons t ss ih =>
    simp only [cons_append, join_cons, length_cons, length_append] at ih ⊢
    omega

/-! ## A segment between two separators -/

theorem prefix_iff_between {s w : List α} (hs : x ∉ s) (hw : x ∉ w) :
    x :: (w ++ [x]) <+: join x (s :: ss) ↔ s = w ∧ ss ≠ [] := by
  rw [join_cons, prefix_cons_inj]
  constructor
  · rintro ⟨t, ht⟩
    rw [append_assoc] at ht
    obtain ⟨rfl, hrest⟩ := append_inj hw hs (.inr ⟨t, rfl⟩) (join_start ss) ht
    exact ⟨rfl, fun h => by simp [h] at hrest⟩
  · rintro ⟨rfl, hne⟩
    cases ss with
    | nil => exact absurd rfl hne
    | cons t ss => exact ⟨t ++ join x ss, by simp⟩

variable {init : List (List α)}

theorem mem_of_between {w last : List α} (hw : x ∉ w) (hfree : Free x (init ++ [last]))
    (h : x :: (w ++ [x]) <:+: join x (init ++ [last])) : w ∈ init := by
  obtain ⟨t, v, ht⟩ := h
  have hcut : t ++ x :: (w ++ [x] ++ v) = join x (init ++ [last]) := by simpa using ht
  obtain ⟨pre, post, hss, hpost⟩ := join_of_suffix hfree hcut
  cases post with
  | nil => simp at hpost
  | cons s post =>
    have hs : x ∉ s := hfree s (by simp [hss])
    obtain ⟨rfl, hne⟩ := (prefix_iff_between hs hw).mp ⟨v, by simpa using hpost⟩
    rcases eq_nil_or_concat' post with rfl | ⟨post, s', rfl⟩
    · exact absurd rfl hne
    · rw [← cons_append, ← append_assoc] at hss
      rw [(append_inj' hss rfl).1]
      simp

theorem splitOn_join [DecidableEq α] (hfree : Free x (s :: ss)) : (join x (s :: ss)).tail.splitOn x = s :: ss := by
  apply join_inj (splitOn_free x _) hfree
  rw [join_splitOn]
  rfl

section Find

variable [DecidableEq α]

theorem find_between_cons {s w : List α} (hs : x ∉ s) (hw : x ∉ w) (h : ¬ (s = w ∧ ss ≠ [])) :
    find (x :: (w ++ [x])) (join x (s :: ss)) = (find (x :: (w ++ [x])) (join x ss)).map (· + (s.length + 1)) := by
  have hnot : (x :: (w ++ [x])).isPrefixOf (x :: (s ++ join x ss)) = false := by
    rw [Bool.eq_false_iff, ne_eq, isPrefixOf_iff_prefix]
    exact fun hp => h ((prefix_iff_between hs hw).mp hp)
  rw [join_cons, find, hnot, find_skip hs]
  simp only [Option.map_map]
  rfl

theorem find_between {w : List α} {pre post : List (List α)} (hw : x ∉ w) (hpre : Free x pre) (hnot : w ∉ pre) (hpost : post ≠ []) :
    find (x :: (w ++ [x])) (join x (pre ++ w :: post)) = some (join x pre).length := by
  induction pre with
  | nil => exact find_start ((prefix_iff_between hw hw).mpr ⟨rfl, hpost⟩) (by simp)
  | cons s pre ih =>
    simp only [Free, forall_mem_cons] at hpre
    simp only [mem_cons, not_or] at hnot
    rw [cons_append, find_between_cons hpre.1 hw (fun h => hnot.1 h.1.symm), ih hpre.2 hnot.2]
    simp
    omega

theorem find_between_none {w : List α} (last : List α) (hw : x ∉ w) (hfree : Free x (init ++ [last])) (hnot : w ∉ init) :
    find (x :: (w ++ [x])) (join x (init ++ [last])) = none := by
  induction init with
  | nil =>
    rw [nil_append, find_between_cons (hfree last (by simp)) hw (by simp)]
    simp [find]
  | cons s init ih =>
    simp only [mem_cons, not_or] at hnot
    rw [cons_append, find_between_cons (hfree s (by simp)) hw (fun h => hnot.1 h.1.symm),
      ih (fun s' h => hfree s' (by simp [h])) hnot.2]
    rfl

end Find

theorem suffix_join_iff {w last : List α} (hw : x ∉ w) (hlast : x ∉ last) :
    x :: w <:+ join x (init ++ [last]) ↔ last = w := by
  constructor
  · rintro ⟨t, ht⟩
    simp only [join_append, join_cons, join_nil, append_nil] at ht
    rcases append_eq_append_iff.mp ht with ⟨u, -, hu⟩ | ⟨u, -, hu⟩
    · cases u with
      | nil => simpa using hu.symm
      | cons a u =>
        have hin : x ∈ w := by
          rw [(cons.inj hu).2]
          simp
        exact absurd hin hw
    · cases u with
      | nil => simpa using hu
      | cons a u =>
        have hin : x ∈ last := by
          rw [(cons.inj hu).2]
          simp
        exact absurd hin hlast
  · rintro rfl
    exact ⟨join x init, by simp⟩

end Segments
