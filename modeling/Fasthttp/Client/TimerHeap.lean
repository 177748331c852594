import Fasthttp.Lib.Heap

/-!
# The timer heap of the cleaner

`siftUp` and `siftDown`, over the handles of the items. A value that moves is held aside until its place is found.
-/

namespace Fasthttp

open List

inductive CleanerFault
  | badHeap
  | neverHappened
  | indexOutOfRange
  | nilClient
  | unfinished
  deriving DecidableEq, Repr

def siftUpLoop (key : Nat → Int) (when : Int) (items : List Nat) (i : Nat) : Except CleanerFault (List Nat × Nat) :=
  if 0 < i then
    match items[(i - 1) / 4]? with
    | none => .error .indexOutOfRange
    | some p => if key p ≤ when then .ok (items, i) else siftUpLoop key when (items.set i p) ((i - 1) / 4)
  else .ok (items, i)
termination_by i

def siftUp (key : Nat → Int) (items : List Nat) (i : Nat) : Except CleanerFault (List Nat × Nat) :=
  match items[i]? with
  | none => .error .badHeap
  | some tmp =>
    if key tmp ≤ 0 then .error .badHeap
    else (siftUpLoop key (key tmp) items i).map fun r => (r.1.set r.2 tmp, r.2)

def earlier (key : Nat → Int) (items : List Nat) (c : Nat) : Option (Nat × Nat) :=
  match items[c]?, items[c + 1]? with
  | some x, some y => if key y < key x then some (c + 1, y) else some (c, x)
  | some x, none => some (c, x)
  | none, _ => none

def earliestChild (key : Nat → Int) (items : List Nat) (i : Nat) : Option (Nat × Nat) :=
  match earlier key items (i * 4 + 1), earlier key items (i * 4 + 3) with
  | some (c, x), some (c3, y) => if key y < key x then some (c3, y) else some (c, x)
  | some (c, x), none => some (c, x)
  | none, _ => none

section Child

variable {key : Nat → Int} {items : List Nat} {i c x : Nat}

theorem earlier_some (h : earlier key items i = some (c, x)) : items[c]? = some x ∧ (c = i ∨ c = i + 1) ∧
    (key x : WithTop Int) ≤ Heap.keys key items i ∧ (key x : WithTop Int) ≤ Heap.keys key items (i + 1) := by
  unfold earlier at h
  split at h
  · rename_i y z hy hz
    rw [Heap.keys_eq hy, Heap.keys_eq hz]
    split_ifs at h with hlt
    · obtain ⟨rfl, rfl⟩ : i + 1 = c ∧ z = x := by simpa using h
      exact ⟨hz, Or.inr rfl, WithTop.coe_le_coe.mpr hlt.le, le_rfl⟩
    · obtain ⟨rfl, rfl⟩ : i = c ∧ y = x := by simpa using h
      exact ⟨hy, Or.inl rfl, le_rfl, WithTop.coe_le_coe.mpr (not_lt.mp hlt)⟩
  · rename_i y hy hz
    rw [Heap.keys_eq hy, Heap.keys_eq_top (getElem?_eq_none_iff.mp hz)]
    obtain ⟨rfl, rfl⟩ : i = c ∧ y = x := by simpa using h
    exact ⟨hy, Or.inl rfl, le_rfl, le_top⟩
  · cases h

theorem earlier_none (h : earlier key items i = none) : items.length ≤ i := by
  unfold earlier at h
  split at h
  · split_ifs at h
  · cases h
  · exact getElem?_eq_none_iff.mp (by assumption)

theorem earliestChild_some (h : earliestChild key items i = some (c, x)) : items[c]? = some x ∧ 0 < c ∧ Heap.parent 4 c = i ∧
    ∀ j, 0 < j → Heap.parent 4 j = i → (key x : WithTop Int) ≤ Heap.keys key items j := by
  have hchild : ∀ j, 0 < j → Heap.parent 4 j = i → j = i * 4 + 1 ∨ j = i * 4 + 1 + 1 ∨ j = i * 4 + 3 ∨ j = i * 4 + 3 + 1 := by
    unfold Heap.parent
    omega
  unfold earliestChild at h
  split at h
  · rename_i c₁ y c₃ z h₁ h₃
    obtain ⟨hy, hc₁, hy₁, hy₂⟩ := earlier_some h₁
    obtain ⟨hz, hc₃, hz₁, hz₂⟩ := earlier_some h₃
    split_ifs at h with hlt
    · obtain ⟨rfl, rfl⟩ : c₃ = c ∧ z = x := by simpa using h
      have hle : (key z : WithTop Int) ≤ key y := WithTop.coe_le_coe.mpr hlt.le
      refine ⟨hz, by omega, by unfold Heap.parent; omega, fun j hj hparent => ?_⟩
      rcases hchild j hj hparent with rfl | rfl | rfl | rfl
      · exact hle.trans hy₁
      · exact hle.trans hy₂
      · exact hz₁
      · exact hz₂
    · obtain ⟨rfl, rfl⟩ : c₁ = c ∧ y = x := by simpa using h
      have hle : (key y : WithTop Int) ≤ key z := WithTop.coe_le_coe.mpr (not_lt.mp hlt)
      refine ⟨hy, by omega, by unfold Heap.parent; omega, fun j hj hparent => ?_⟩
      rcases hchild j hj hparent with rfl | rfl | rfl | rfl
      · exact hy₁
      · exact hy₂
      · exact hle.trans hz₁
      · exact hle.trans hz₂
  · rename_i c₁ y h₁ h₃
    obtain ⟨rfl, rfl⟩ : c₁ = c ∧ y = x := by simpa using h
    obtain ⟨hy, hc₁, hy₁, hy₂⟩ := earlier_some h₁
    have hend := earlier_none h₃
    refine ⟨hy, by omega, by unfold Heap.parent; omega, fun j hj hparent => ?_⟩
    rcases hchild j hj hparent with rfl | rfl | rfl | rfl
    · exact hy₁
    · exact hy₂
    · exact (Heap.keys_eq_top hend).symm ▸ le_top
    · exact (Heap.keys_eq_top (hend.trans (Nat.le_succ _))).symm ▸ le_top
  · cases h

theorem earliestChild_none (h : earliestChild key items i = none) {j : Nat} (hj : 0 < j) (hparent : Heap.parent 4 j = i) :
    Heap.keys key items j = ⊤ := by
  have hend : items.length ≤ i * 4 + 1 := by
    unfold earliestChild at h
    split at h
    · split_ifs at h
    · cases h
    · exact earlier_none (by assumption)
  apply Heap.keys_eq_top
  unfold Heap.parent at hparent
  omega

end Child

def siftDownLoop (key : Nat → Int) (when : Int) (items : List Nat) (i : Nat) : List Nat × Nat :=
  match _hchild : earliestChild key items i with
  | none => (items, i)
  | some (c, x) => if when ≤ key x then (items, i) else siftDownLoop key when (items.set i x) c
termination_by items.length - i
decreasing_by
  obtain ⟨hx, hc, hparent, -⟩ := earliestChild_some _hchild
  have hlt := (List.getElem?_eq_some_iff.mp hx).1
  have hgt : Heap.parent 4 c < c := Heap.parent_lt hc
  rw [length_set]
  omega

def siftDown (key : Nat → Int) (items : List Nat) (i : Nat) : Except CleanerFault (List Nat) :=
  match items[i]? with
  | none => .error .badHeap
  | some tmp =>
    if key tmp ≤ 0 then .error .badHeap
    else
      let r := siftDownLoop key (key tmp) items i
      .ok (r.1.set r.2 tmp)

variable {key : Nat → Int} {items : List Nat} {i tmp : Nat}

theorem siftUpLoop_spec (hi : i < items.length) (h : Heap.OrderedAbove 4 (Heap.keys key (items.set i tmp)) i) :
    ∃ r, siftUpLoop key (key tmp) items i = .ok r ∧ Heap.Ordered 4 (Heap.keys key (r.1.set r.2 tmp)) ∧
      (r.1.set r.2 tmp).Perm (items.set i tmp) := by
  -- the held item is taken to be where the loop has come to
  induction i using Nat.strong_induction_on generalizing items with
  | h i ih =>
    unfold siftUpLoop
    rcases Nat.eq_zero_or_pos i with rfl | hpos
    · exact ⟨_, rfl, h.ordered fun h0 => absurd h0 (lt_irrefl 0), List.Perm.refl _⟩
    · have hlt : Heap.parent 4 i < i := Heap.parent_lt hpos
      have hp := getElem?_eq_getElem (hlt.trans hi)
      generalize items[Heap.parent 4 i] = p at hp
      have hkeys : Heap.keys key (items.set i tmp) (Heap.parent 4 i) = key p := by rw [Heap.keys_set_ne hlt.ne, Heap.keys_eq hp]
      rw [if_pos hpos]
      simp only [show items[(i - 1) / 4]? = some p from hp]
      split_ifs with hle
      · refine ⟨_, rfl, h.ordered fun _ => ?_, List.Perm.refl _⟩
        rw [hkeys, Heap.keys_set_self hi]
        exact WithTop.coe_le_coe.mpr hle
      · have hswap := h.swap hpos (by
          rw [hkeys, Heap.keys_set_self hi]
          exact WithTop.coe_lt_coe.mpr (not_le.mp hle))
        rw [← Heap.keys_swap hi hlt.ne' hp] at hswap
        obtain ⟨r, hr, hordered, hperm⟩ := ih (Heap.parent 4 i) hlt (by rw [length_set]; exact hlt.trans hi) hswap
        exact ⟨r, hr, hordered, hperm.trans (Heap.perm_swap hi hlt.ne' hp)⟩

theorem siftUp_spec {x : Nat} (h : Heap.Ordered 4 (Heap.keys key items)) (hx : 0 < key x) :
    ∃ items' i, siftUp key (items ++ [x]) items.length = .ok (items', i) ∧ Heap.Ordered 4 (Heap.keys key items') ∧
      items'.Perm (items ++ [x]) := by
  have hlast : (items ++ [x])[items.length]? = some x := by simp
  have hself : (items ++ [x]).set items.length x = items ++ [x] := by simp
  have habove := h.concat x
  rw [← hself] at habove
  obtain ⟨r, hr, hordered, hperm⟩ := siftUpLoop_spec (by simp) habove
  rw [hself] at hperm
  refine ⟨_, r.2, ?_, hordered, hperm⟩
  unfold siftUp
  simp only [hlast, if_neg (not_le.mpr hx), hr]
  rfl

theorem siftDownLoop_spec (hi : i < items.length) (h : Heap.OrderedBelow 4 (Heap.keys key (items.set i tmp)) i) :
    Heap.Ordered 4 (Heap.keys key ((siftDownLoop key (key tmp) items i).1.set (siftDownLoop key (key tmp) items i).2 tmp)) ∧
      ((siftDownLoop key (key tmp) items i).1.set (siftDownLoop key (key tmp) items i).2 tmp).Perm (items.set i tmp) := by
  fun_induction siftDownLoop key (key tmp) items i with
  | case1 items i hchild =>
    refine ⟨h.ordered fun j hj hparent => ?_, List.Perm.refl _⟩
    have hji : j ≠ i := (hparent ▸ Heap.parent_lt hj).ne'
    rw [Heap.keys_set_ne hji, earliestChild_none hchild hj hparent]
    exact le_top
  | case2 items i c x hchild hle =>
    obtain ⟨hx, hc, hparent, hmin⟩ := earliestChild_some hchild
    refine ⟨h.ordered fun j hj hparent => ?_, List.Perm.refl _⟩
    have hji : j ≠ i := (hparent ▸ Heap.parent_lt hj).ne'
    rw [Heap.keys_set_ne hji, Heap.keys_set_self hi]
    exact (WithTop.coe_le_coe.mpr hle).trans (hmin j hj hparent)
  | case3 items i c x hchild hle ih =>
    obtain ⟨hx, hc, hparent, hmin⟩ := earliestChild_some hchild
    have hic : i < c := hparent ▸ Heap.parent_lt hc
    have hkeys : Heap.keys key (items.set i tmp) c = key x := by rw [Heap.keys_set_ne hic.ne', Heap.keys_eq hx]
    have hswap := h.swap hc hparent
      (by
        intro j hj hj'
        have hji : j ≠ i := (hj' ▸ Heap.parent_lt hj).ne'
        rw [hkeys, Heap.keys_set_ne hji]
        exact hmin j hj hj')
      (by
        rw [hkeys, Heap.keys_set_self hi]
        exact WithTop.coe_lt_coe.mpr (not_le.mp hle))
    rw [← Heap.keys_swap hi hic.ne hx] at hswap
    have hlen : c < (items.set i x).length := by
      rw [length_set]
      exact (List.getElem?_eq_some_iff.mp hx).1
    obtain ⟨hordered, hperm⟩ := ih hlen hswap
    exact ⟨hordered, hperm.trans (Heap.perm_swap hi hic.ne hx)⟩

theorem siftDown_spec {x : Nat} (hx : items[0]? = some x) (h : Heap.OrderedBelow 4 (Heap.keys key items) 0) (hpos : 0 < key x) :
    ∃ items', siftDown key items 0 = .ok items' ∧ Heap.Ordered 4 (Heap.keys key items') ∧ items'.Perm items := by
  have hlt := (List.getElem?_eq_some_iff.mp hx).1
  have hself : items.set 0 x = items := by
    obtain ⟨_, rfl⟩ := List.getElem?_eq_some_iff.mp hx
    exact set_getElem_self hlt
  rw [← hself] at h
  obtain ⟨hordered, hperm⟩ := siftDownLoop_spec hlt h
  rw [hself] at hperm
  refine ⟨_, ?_, hordered, hperm⟩
  unfold siftDown
  simp [hx, if_neg (not_le.mpr hpos)]

end Fasthttp
