import Mathlib

/-!
# Heaps of any arity

A heap is a function on positions, in which no value is below the one at the parent.
-/

namespace Heap

open List

variable {T : Type} [LinearOrder T] {d i c : ℕ} {f g : ℕ → T}

def parent (d i : ℕ) : ℕ := (i - 1) / d

theorem parent_lt (hi : 0 < i) : parent d i < i := by
  unfold parent
  have hle := Nat.div_le_self (i - 1) d
  omega

def Ordered (d : ℕ) (f : ℕ → T) : Prop := ∀ i, 0 < i → f (parent d i) ≤ f i

theorem Ordered.root_le (h : Ordered d f) (i : ℕ) : f 0 ≤ f i := by
  induction i using Nat.strong_induction_on with
  | h i ih =>
    rcases Nat.eq_zero_or_pos i with rfl | hi
    · exact le_rfl
    · exact (ih _ (parent_lt hi)).trans (h i hi)

structure OrderedAbove (d : ℕ) (f : ℕ → T) (i : ℕ) : Prop where
  edge : ∀ j, 0 < j → j ≠ i → f (parent d j) ≤ f j
  grand : ∀ j, 0 < j → 0 < i → parent d j = i → f (parent d i) ≤ f j

theorem OrderedAbove.ordered (h : OrderedAbove d f i) (hi : 0 < i → f (parent d i) ≤ f i) : Ordered d f := by
  intro j hj
  by_cases hji : j = i
  · subst hji
    exact hi hj
  · exact h.edge j hj hji

theorem OrderedAbove.swap (h : OrderedAbove d f i) (hi : 0 < i) (hlt : f i < f (parent d i)) :
    OrderedAbove d (f ∘ Equiv.swap i (parent d i)) (parent d i) := by
  have hp : parent d i < i := parent_lt hi
  constructor
  · intro j hj hjp
    by_cases hji : j = i
    · subst hji
      simpa using hlt.le
    · have hgo : (f ∘ Equiv.swap i (parent d i)) j = f j := congrArg f (Equiv.swap_apply_of_ne_of_ne hji hjp)
      rw [hgo]
      by_cases h₁ : parent d j = i
      · rw [h₁]
        simpa using h.grand j hj hi h₁
      · have hedge := h.edge j hj hji
        by_cases h₂ : parent d j = parent d i
        · rw [h₂] at hedge ⊢
          simpa using hlt.le.trans hedge
        · simpa [Equiv.swap_apply_of_ne_of_ne h₁ h₂] using hedge
  · intro j hj hpos hparent
    have hpp : parent d (parent d i) < parent d i := parent_lt hpos
    have hup := h.edge (parent d i) hpos (by omega)
    have hgo : (f ∘ Equiv.swap i (parent d i)) (parent d (parent d i)) = f (parent d (parent d i)) :=
      congrArg f (Equiv.swap_apply_of_ne_of_ne (by omega) (by omega))
    rw [hgo]
    by_cases hji : j = i
    · subst hji
      simpa using hup
    · have hjp : j ≠ parent d i := by
        have := parent_lt (d := d) hj
        omega
      have hedge := h.edge j hj hji
      rw [hparent] at hedge
      simpa [Equiv.swap_apply_of_ne_of_ne hji hjp] using hup.trans hedge

structure OrderedBelow (d : ℕ) (f : ℕ → T) (i : ℕ) : Prop where
  edge : ∀ j, 0 < j → parent d j ≠ i → f (parent d j) ≤ f j
  grand : ∀ j, 0 < j → 0 < i → parent d j = i → f (parent d i) ≤ f j

theorem OrderedBelow.ordered (h : OrderedBelow d f i) (hi : ∀ j, 0 < j → parent d j = i → f i ≤ f j) : Ordered d f := by
  intro j hj
  by_cases hji : parent d j = i
  · rw [hji]
    exact hi j hj hji
  · exact h.edge j hj hji

theorem OrderedBelow.swap (h : OrderedBelow d f i) (hc : 0 < c) (hparent : parent d c = i)
    (hmin : ∀ j, 0 < j → parent d j = i → f c ≤ f j) (hlt : f c < f i) : OrderedBelow d (f ∘ Equiv.swap i c) c := by
  have hic : i < c := hparent ▸ parent_lt hc
  constructor
  · intro j hj hjc
    by_cases hji : j = i
    · subst hji
      have hp : parent d j < j := parent_lt hj
      simpa [Equiv.swap_apply_of_ne_of_ne hp.ne (hp.trans hic).ne] using h.grand c hc hj hparent
    · by_cases h₁ : j = c
      · subst h₁
        rw [hparent]
        simpa using hlt.le
      · have hgo : (f ∘ Equiv.swap i c) j = f j := congrArg f (Equiv.swap_apply_of_ne_of_ne hji h₁)
        rw [hgo]
        by_cases h₂ : parent d j = i
        · rw [h₂]
          simpa using hmin j hj h₂
        · simpa [Equiv.swap_apply_of_ne_of_ne h₂ hjc] using h.edge j hj h₂
  · intro j hj _ hjc
    have hlow : c < j := hjc ▸ parent_lt hj
    have hedge := h.edge j hj (by omega)
    rw [hjc] at hedge
    rw [hparent]
    simpa [Equiv.swap_apply_of_ne_of_ne (hic.trans hlow).ne' hlow.ne'] using hedge

theorem Ordered.below_root (h : Ordered d f) (hfg : ∀ j, 0 < j → g j = f j) : OrderedBelow d g 0 := by
  constructor
  · intro j hj hroot
    rw [hfg j hj, hfg _ (Nat.pos_of_ne_zero hroot)]
    exact h j hj
  · intro j _ hpos
    exact absurd hpos (lt_irrefl 0)

section Lists

variable {α κ : Type} (key : α → κ) {l : List α} {x y : α}

def keys (l : List α) (i : ℕ) : WithTop κ := l[i]?.elim ⊤ fun x => (key x : WithTop κ)

variable {key}

theorem keys_eq (h : l[i]? = some x) : keys key l i = key x := by
  rw [keys, h]
  rfl

theorem keys_eq_top (h : l.length ≤ i) : keys key l i = ⊤ := by
  rw [keys, getElem?_eq_none h]
  rfl

theorem keys_cons (x : α) (l : List α) (i : ℕ) : keys key (x :: l) (i + 1) = keys key l i := rfl

theorem keys_congr {key' : α → κ} (h : ∀ x ∈ l, key' x = key x) (i : ℕ) : keys key' l i = keys key l i := by
  rcases hx : l[i]? with _ | x
  · rw [keys, keys, hx]
    rfl
  · rw [keys_eq hx, keys_eq hx, h x (mem_of_getElem? hx)]

theorem keys_set_self (h : i < l.length) : keys key (l.set i x) i = key x := keys_eq (getElem?_set_self h)

theorem keys_set_ne {j : ℕ} (h : j ≠ i) : keys key (l.set i x) j = keys key l j := by
  rw [keys, getElem?_set_ne h.symm, keys]

theorem keys_swap (hi : i < l.length) (hic : i ≠ c) (hy : l[c]? = some y) :
    keys key ((l.set i y).set c x) = keys key (l.set i x) ∘ Equiv.swap i c := by
  have hc := (List.getElem?_eq_some_iff.mp hy).1
  funext j
  by_cases hjc : j = c
  · subst hjc
    rw [keys_set_self (by rw [length_set]; exact hc), Function.comp_apply, Equiv.swap_apply_right, keys_set_self hi]
  · rw [keys_set_ne hjc, Function.comp_apply]
    by_cases hji : j = i
    · subst hji
      rw [keys_set_self hi, Equiv.swap_apply_left, keys_set_ne hic.symm, keys_eq hy]
    · rw [keys_set_ne hji, Equiv.swap_apply_of_ne_of_ne hji hjc, keys_set_ne hji]

theorem perm_swap (hi : i < l.length) (hic : i ≠ c) (hy : l[c]? = some y) : ((l.set i y).set c x).Perm (l.set i x) := by
  obtain ⟨hc, rfl⟩ := List.getElem?_eq_some_iff.mp hy
  have hi' : i < (l.set i x).length := by rwa [length_set]
  have hc' : c < (l.set i x).length := by rwa [length_set]
  have hperm := set_set_perm hi' hc'
  rw [getElem_set_self, getElem_set_ne hic, set_set] at hperm
  exact hperm

variable [LinearOrder κ]

theorem ordered_keys_iff :
    Ordered d (keys key l) ↔ ∀ i x y, 0 < i → l[i]? = some x → l[parent d i]? = some y → key y ≤ key x := by
  constructor
  · intro h i x y hi hx hy
    have hle := h i hi
    rw [keys_eq hx, keys_eq hy] at hle
    exact WithTop.coe_le_coe.mp hle
  · intro h i hi
    rcases hx : l[i]? with _ | x
    · rw [keys_eq_top (getElem?_eq_none_iff.mp hx)]
      exact le_top
    · have hlt := (List.getElem?_eq_some_iff.mp hx).1
      have hy := getElem?_eq_getElem ((parent_lt (d := d) hi).trans hlt)
      rw [keys_eq hx, keys_eq hy]
      exact WithTop.coe_le_coe.mpr (h i x _ hi hx hy)

theorem ordered_nil : Ordered d (keys key []) := fun _ _ => le_top

theorem Ordered.head_le (h : Ordered d (keys key l)) (hx : l[0]? = some x) (hy : y ∈ l) : key x ≤ key y := by
  obtain ⟨i, hi⟩ := mem_iff_getElem?.mp hy
  have hle := h.root_le i
  rw [keys_eq hx, keys_eq hi] at hle
  exact WithTop.coe_le_coe.mp hle

theorem Ordered.concat (h : Ordered d (keys key l)) (x : α) : OrderedAbove d (keys key (l ++ [x])) l.length := by
  have hsame : ∀ j < l.length, keys key (l ++ [x]) j = keys key l j := by
    intro j hj
    rw [keys, getElem?_append_left hj, keys]
  have htop : ∀ j, l.length < j → keys key (l ++ [x]) j = ⊤ := by
    intro j hj
    apply keys_eq_top
    rw [length_append, List.length_singleton]
    omega
  constructor
  · intro j hj hne
    rcases Nat.lt_or_gt_of_ne hne with hlt | hgt
    · rw [hsame j hlt, hsame _ ((parent_lt hj).trans hlt)]
      exact h j hj
    · rw [htop j hgt]
      exact le_top
  · intro j hj _ hparent
    rw [htop j (hparent ▸ parent_lt hj)]
    exact le_top

theorem Ordered.take (h : Ordered d (keys key l)) (n : ℕ) : Ordered d (keys key (l.take n)) := by
  intro j hj
  rcases Nat.lt_or_ge j n with hlt | hge
  · have hsame : ∀ k < n, keys key (l.take n) k = keys key l k := by
      intro k hk
      rw [keys, getElem?_take_of_lt hk, keys]
    rw [hsame j hlt, hsame _ ((parent_lt hj).trans hlt)]
    exact h j hj
  · rw [keys_eq_top (i := j) (by rw [length_take]; omega)]
    exact le_top

end Lists

end Heap
