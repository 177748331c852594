import Mathlib

/-!
# Goroutines that wait for each other

Who holds which lock and who waits for which, at one moment.
-/

structure Waits (γ κ : Type) where
  holds : γ → κ → Prop
  wants : γ → κ → Prop

namespace Waits

variable {γ κ : Type} (W : Waits γ κ)

/-- A set of goroutines in which each waits for a lock that another one of the set holds. -/
def Deadlock : Prop := ∃ S : γ → Prop, (∃ g, S g) ∧ ∀ g, S g → ∃ g' l, S g' ∧ g' ≠ g ∧ W.wants g l ∧ W.holds g' l

variable {W}

/-- When all who hold a lock and wait wait for one lock, apart from a hub that alone waits while holding it, a
deadlock is between the hub and one other. -/
theorem deadlock_iff_pair (hub : γ) (μ : κ) (hothers : ∀ g l l', g ≠ hub → W.holds g l → W.wants g l' → l' = μ)
    (hhub : ∀ g l, W.holds g μ → W.wants g l → g = hub) :
    W.Deadlock ↔ ∃ g l, g ≠ hub ∧ W.holds hub μ ∧ W.wants hub l ∧ W.holds g l ∧ W.wants g μ := by
  constructor
  · rintro ⟨S, ⟨g, hg⟩, hS⟩
    have hin : S hub := by
      obtain ⟨g₁, l, hg₁, -, -, hholds⟩ := hS g hg
      by_cases heq : g₁ = hub
      · exact heq ▸ hg₁
      · obtain ⟨g₂, l₁, hg₂, -, hwants, hμ⟩ := hS g₁ hg₁
        obtain rfl := hothers g₁ l l₁ heq hholds hwants
        obtain ⟨-, l₂, -, -, hwants₂, -⟩ := hS g₂ hg₂
        exact hhub g₂ l₂ hμ hwants₂ ▸ hg₂
    obtain ⟨g₁, l, hg₁, hne, hwants, hholds⟩ := hS hub hin
    obtain ⟨g₂, l₁, hg₂, -, hwants₁, hμ⟩ := hS g₁ hg₁
    obtain rfl := hothers g₁ l l₁ hne hholds hwants₁
    obtain ⟨-, l₂, -, -, hwants₂, -⟩ := hS g₂ hg₂
    obtain rfl := hhub g₂ l₂ hμ hwants₂
    exact ⟨g₁, l, hne, hμ, hwants, hholds, hwants₁⟩
  · rintro ⟨g, l, hne, hμ, hwants, hholds, hwants'⟩
    refine ⟨fun x => x = hub ∨ x = g, ⟨hub, .inl rfl⟩, ?_⟩
    rintro x (rfl | rfl)
    · exact ⟨g, l, .inr rfl, hne, hwants, hholds⟩
    · exact ⟨hub, μ, .inl rfl, hne.symm, hwants', hμ⟩

end Waits
