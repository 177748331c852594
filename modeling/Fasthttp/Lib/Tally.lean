import Mathlib

/-!
# Tallies

Sums over a list of which one element changes, and counts of a list that gains or loses one item.
-/

namespace Tally

open List

section Count

variable {α : Type} [DecidableEq α]

def one (a b : α) : Nat := if a = b then 1 else 0

def below (n i : Nat) : Nat := if i < n then 1 else 0

@[simp] theorem one_self (a : α) : one a a = 1 := if_pos rfl

theorem one_eq_zero {a b : α} : one a b = 0 ↔ a ≠ b := by simp [one]

theorem eq_of_one_pos {a b : α} (h : 0 < one a b) : a = b := by
  by_contra hne
  rw [one_eq_zero.mpr hne] at h
  omega

theorem below_le_one (n i : Nat) : below n i ≤ 1 := by
  unfold below
  split_ifs <;> omega

theorem below_self (n : Nat) : below n n = 0 := by simp [below]

theorem below_succ (n i : Nat) : below (n + 1) i = below n i + one n i := by
  simp only [below, one]
  split_ifs <;> omega

theorem count_cons (l : List α) (a b : α) : (a :: l).count b = l.count b + one a b := by
  simp [List.count_cons, one]

theorem count_concat (l : List α) (a b : α) : (l ++ [a]).count b = l.count b + one a b := by
  rw [count_append, count_cons, count_nil, Nat.zero_add]

theorem count_erase {l : List α} {a : α} (h : a ∈ l) (b : α) : (l.erase a).count b + one a b = l.count b := by
  have hperm := (perm_cons_erase h).count_eq b
  rw [count_cons] at hperm
  exact hperm.symm

end Count

variable {α : Type} (f : α → Nat) {l : List α} {i : Nat} {a : α}

theorem sum_set (h : l[i]? = some a) (b : α) : ((l.set i b).map f).sum + f a = (l.map f).sum + f b := by
  obtain ⟨hlt, rfl⟩ := List.getElem?_eq_some_iff.mp h
  have hset := ((set_perm_cons_eraseIdx hlt b).map f).sum_nat
  have hget := ((getElem_cons_eraseIdx_perm hlt).map f).sum_nat
  simp only [map_cons, List.sum_cons] at hset hget
  omega

theorem sum_eraseIdx (h : l[i]? = some a) : ((l.eraseIdx i).map f).sum + f a = (l.map f).sum := by
  obtain ⟨hlt, rfl⟩ := List.getElem?_eq_some_iff.mp h
  have hget := ((getElem_cons_eraseIdx_perm hlt).map f).sum_nat
  simp only [map_cons, List.sum_cons] at hget
  omega

theorem le_sum (h : a ∈ l) : f a ≤ (l.map f).sum := le_sum_of_mem (List.mem_map_of_mem h)

theorem add_le_sum {j : Nat} {b : α} (hi : l[i]? = some a) (hj : l[j]? = some b) (hne : j ≠ i) : f a + f b ≤ (l.map f).sum := by
  have herase := sum_eraseIdx f hi
  have hle := le_sum f (mem_eraseIdx_iff_getElem?.mpr ⟨j, hne, hj⟩)
  omega

theorem sum_le_of_unique {n : Nat} (hle : ∀ (i : Nat) a, l[i]? = some a → f a ≤ n)
    (hone : ∀ (i j : Nat) a b, l[i]? = some a → l[j]? = some b → 0 < f a → 0 < f b → i = j) : (l.map f).sum ≤ n := by
  by_cases hzero : ∃ (i : Nat) (a : α), l[i]? = some a ∧ 0 < f a
  · obtain ⟨i, a, hi, hpos⟩ := hzero
    have herase := sum_eraseIdx f hi
    have hrest : ((l.eraseIdx i).map f).sum = 0 := by
      refine List.sum_eq_zero fun m hm => ?_
      obtain ⟨b, hb, rfl⟩ := List.mem_map.mp hm
      obtain ⟨j, hne, hj⟩ := mem_eraseIdx_iff_getElem?.mp hb
      by_contra hb
      exact hne (hone j i b a hj hi (Nat.pos_of_ne_zero hb) hpos)
    have := hle i a hi
    omega
  · rw [List.sum_eq_zero]
    · exact Nat.zero_le _
    · intro m hm
      obtain ⟨a, ha, rfl⟩ := List.mem_map.mp hm
      obtain ⟨i, hi⟩ := mem_iff_getElem?.mp ha
      by_contra hpos
      exact hzero ⟨i, a, hi, Nat.pos_of_ne_zero hpos⟩

theorem exists_of_sum_pos (h : 0 < (l.map f).sum) : ∃ (i : Nat) (a : α), l[i]? = some a ∧ 0 < f a := by
  by_contra hnone
  have hzero : ∀ n ∈ l.map f, n = 0 := by
    intro n hn
    obtain ⟨a, ha, rfl⟩ := List.mem_map.mp hn
    obtain ⟨i, hi⟩ := mem_iff_getElem?.mp ha
    by_contra hpos
    exact hnone ⟨i, a, hi, Nat.pos_of_ne_zero hpos⟩
  rw [List.sum_eq_zero hzero] at h
  exact absurd h (by simp)

end Tally
