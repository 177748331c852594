import Mathlib

/-!
# The first index of an item

`idxOf?` cuts a list at the first occurrence of an item.
-/

namespace FirstIndex

open List

variable {n : Nat}

variable {α : Type} [DecidableEq α]

theorem idxOf?_append_cons (a : α) (u v : List α) (h : a ∉ u) :
    (u ++ a :: v).idxOf? a = some u.length := by
  induction u with
  | nil => simp [idxOf?_cons]
  | cons x xs ih =>
    have hx : x ≠ a := fun he => h (by simp [he])
    have hxs : a ∉ xs := fun hm => h (by simp [hm])
    simp [idxOf?_cons, hx, ih hxs]

variable {a : α} {l : List α}

theorem idxOf?_cut (h : l.idxOf? a = some n) :
    ∃ u v, l = u ++ a :: v ∧ a ∉ u ∧ u.length = n := by
  have hm : a ∈ l := isSome_idxOf?.mp (by simp [h])
  obtain ⟨u, v, rfl, hu⟩ := eq_append_cons_of_mem hm
  rw [idxOf?_append_cons a u v hu, Option.some.injEq] at h
  exact ⟨u, v, rfl, hu, h⟩

theorem append_cons_inj {u u' v v' : List α} (hu : a ∉ u) (hu' : a ∉ u') (h : u ++ a :: v = u' ++ a :: v') : u = u' ∧ v = v' := by
  have hlen := congrArg (idxOf? a) h
  rw [idxOf?_append_cons a u v hu, idxOf?_append_cons a u' v' hu'] at hlen
  obtain ⟨heq, hrest⟩ := append_inj h (Option.some.inj hlen)
  exact ⟨heq, (cons.inj hrest).2⟩

theorem getElem?_of_idxOf? (h : l.idxOf? a = some n) : l[n]? = some a := by
  obtain ⟨u, v, rfl, -, rfl⟩ := idxOf?_cut h
  simp

theorem idxOf?_lt (h : l.idxOf? a = some n) : n < l.length := by
  obtain ⟨u, v, rfl, -, rfl⟩ := idxOf?_cut h
  simp

theorem idxOf?_append (h : l.idxOf? a = some n) (t : List α) :
    (l ++ t).idxOf? a = some n := by
  obtain ⟨u, v, rfl, hu, rfl⟩ := idxOf?_cut h
  rw [append_assoc, cons_append, idxOf?_append_cons a u _ hu]

theorem take_of_idxOf? (h : l.idxOf? a = some n) :
    a ∉ l.take n := by
  obtain ⟨u, v, rfl, hu, rfl⟩ := idxOf?_cut h
  simpa using hu

end FirstIndex
