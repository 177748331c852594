import Mathlib

/-!
# Machines that take one step after the other

The steps of any number of actors are interleaved by the list of actions that a machine is given: an action says who
acts and how an open choice falls.
-/

structure Machine (σ α : Type) where
  step : σ → α → Option σ

namespace Machine

variable {σ α : Type} (M : Machine σ α)

def next (s : σ) (a : α) : σ := (M.step s a).getD s

def exec : σ → List α → σ
  | s, [] => s
  | s, a :: as => exec (M.next s a) as

/-- Every action that is taken meets `good`, in the state before it. -/
def Along (good : σ → α → Prop) : σ → List α → Prop
  | _, [] => True
  | s, a :: as => ((M.step s a).isSome → good s a) ∧ Along good (M.next s a) as

instance decidableAlong (good : σ → α → Prop) [∀ s a, Decidable (good s a)] : ∀ s as, Decidable (M.Along good s as)
  | _, [] => isTrue trivial
  | s, a :: as =>
    have := decidableAlong good (M.next s a) as
    inferInstanceAs (Decidable (_ ∧ _))

def Always (P : σ → Prop) : σ → List α → Prop
  | s, [] => P s
  | s, a :: as => P s ∧ Always P (M.next s a) as

variable {M}

theorem next_of_step {s s' : σ} {a : α} (h : M.step s a = some s') : M.next s a = s' := by
  rw [next, h]
  rfl

variable {P : σ → Prop} {s : σ}

theorem next_invariant {a : α} (hstep : ∀ s', M.step s a = some s' → P s') (h : P s) :
    P (M.next s a) := by
  unfold next
  rcases hs : M.step s a with _ | s'
  · exact h
  · exact hstep s' hs

variable {I P : σ → Prop} {good : σ → α → Prop}

theorem always_along (hstep : ∀ s a s', I s → good s a → M.step s a = some s' → I s')
    (hP : ∀ s, I s → P s) (as : List α) (h : I s) (ha : M.Along good s as) : M.Always P s as := by
  induction as generalizing s with
  | nil => exact hP s h
  | cons a as ih =>
    obtain ⟨hgood, hrest⟩ := ha
    exact ⟨hP s h, ih (next_invariant (fun s' hs => hstep s a s' h (hgood (by simp [hs])) hs) h) hrest⟩

theorem always_exec {as : List α} (h : M.Always P s as) : P (M.exec s as) := by
  induction as generalizing s with
  | nil => exact h
  | cons a as ih => exact ih h.2

theorem exec_along (hstep : ∀ s a s', P s → good s a → M.step s a = some s' → P s')
    (as : List α) (h : P s) (ha : M.Along good s as) : P (M.exec s as) :=
  always_exec (always_along hstep (fun _ => id) as h ha)

theorem along_true (as : List α) (s : σ) : M.Along (fun _ _ => True) s as := by
  induction as generalizing s with
  | nil => trivial
  | cons a as ih => exact ⟨fun _ => trivial, ih _⟩

theorem always_invariant (hstep : ∀ s a s', I s → M.step s a = some s' → I s') (hP : ∀ s, I s → P s) (as : List α)
    (h : I s) : M.Always P s as := always_along (fun s a s' h _ => hstep s a s' h) hP as h (along_true as s)

theorem exec_invariant (hstep : ∀ s a s', P s → M.step s a = some s' → P s') (as : List α) (h : P s) :
    P (M.exec s as) := always_exec (always_invariant hstep (fun _ => id) as h)

theorem along_of_along {I : σ → Prop} {good P : σ → α → Prop} (hstep : ∀ s a s', I s → good s a → M.step s a = some s' → I s')
    (hP : ∀ s a, I s → (M.step s a).isSome → P s a) (as : List α) (h : I s) (ha : M.Along good s as) : M.Along P s as := by
  induction as generalizing s with
  | nil => trivial
  | cons a as ih =>
    obtain ⟨hgood, hrest⟩ := ha
    exact ⟨hP s a h, ih (next_invariant (fun s' hs => hstep s a s' h (hgood (by simp [hs])) hs) h) hrest⟩

theorem along_of_always (hI : ∀ s a s', I s → M.step s a = some s' → I s')
    (hP : ∀ s a s', I s → M.step s a = some s' → P s' → good s a) (as : List α) (h : I s) (ha : M.Always P s as) :
    M.Along good s as := by
  induction as generalizing s with
  | nil => trivial
  | cons a as ih =>
    refine ⟨fun hsome => ?_, ih (next_invariant (fun s' hs => hI s a s' h hs) h) ha.2⟩
    obtain ⟨s', hs⟩ := Option.isSome_iff_exists.mp hsome
    have hnext : P (M.next s a) := by
      cases as with
      | nil => exact ha.2
      | cons => exact ha.2.1
    rw [next_of_step hs] at hnext
    exact hP s a s' h hs hnext

theorem exec_append (s : σ) (as bs : List α) : M.exec s (as ++ bs) = M.exec (M.exec s as) bs := by
  induction as generalizing s with
  | nil => rfl
  | cons a as ih => exact ih (M.next s a)

theorem along_cons_of_step {s s' : σ} {a : α} (h : M.step s a = some s') (as : List α) :
    M.Along good s (a :: as) ↔ good s a ∧ M.Along good s' as := by
  simp [Along, next_of_step h, h]

theorem along_append (s : σ) (as bs : List α) :
    M.Along good s (as ++ bs) ↔ M.Along good s as ∧ M.Along good (M.exec s as) bs := by
  induction as generalizing s with
  | nil => simp [Along, exec]
  | cons a as ih =>
    rw [List.cons_append, Along, ih, ← and_assoc]
    rfl

theorem Along.mono {P Q : σ → α → Prop} (hPQ : ∀ s a, P s a → Q s a) {as : List α} (h : M.Along P s as) :
    M.Along Q s as := by
  induction as generalizing s with
  | nil => exact h
  | cons a as ih => exact ⟨fun hs => hPQ s a (h.1 hs), ih h.2⟩

theorem along_congr {I : σ → Prop} {good P Q : σ → α → Prop} (hI : ∀ s a s', I s → good s a → M.step s a = some s' → I s')
    (hPQ : ∀ s a s', I s → M.step s a = some s' → (P s a ↔ Q s a)) (as : List α) (h : I s) (ha : M.Along good s as) :
    M.Along P s as ↔ M.Along Q s as := by
  induction as generalizing s with
  | nil => exact Iff.rfl
  | cons a as ih =>
    obtain ⟨hgood, hrest⟩ := ha
    have hnext := next_invariant (fun s' hs => hI s a s' h (hgood (by simp [hs])) hs) h
    rw [Along, Along, ih hnext hrest]
    refine and_congr_left' (forall_congr' fun hsome => ?_)
    obtain ⟨s', hs⟩ := Option.isSome_iff_exists.mp hsome
    exact hPQ s a s' h hs

section Measure

variable {I : σ → Prop} (good : σ → α → Prop) (μ : σ → Int)

theorem along_iff_measure (hI : ∀ s a s', I s → M.step s a = some s' → I s')
    (hgood : ∀ s a s', I s → M.step s a = some s' → good s a → μ s' = μ s)
    (hbad : ∀ s a s', I s → M.step s a = some s' → ¬ good s a → μ s < μ s') (as : List α) (h : I s) :
    μ s ≤ μ (M.exec s as) ∧ (M.Along good s as ↔ μ (M.exec s as) = μ s) := by
  induction as generalizing s with
  | nil => exact ⟨Int.le_refl _, by simp [Along, exec]⟩
  | cons a as ih =>
    obtain ⟨hle, hiff⟩ := ih (next_invariant (fun s' hs => hI s a s' h hs) h)
    simp only [exec, Along]
    rcases hs : M.step s a with _ | s'
    · have hnext : M.next s a = s := by rw [next, hs]; rfl
      rw [hnext] at hle hiff ⊢
      exact ⟨hle, by simpa using hiff⟩
    · rw [next_of_step hs] at hle hiff ⊢
      by_cases hg : good s a
      · have hμ := hgood s a s' h hs hg
        refine ⟨by omega, ?_⟩
        rw [hiff, hμ]
        simp [hg]
      · have hμ := hbad s a s' h hs hg
        simp only [Option.isSome_some, true_imp_iff, hg, false_and, false_iff]
        omega

end Measure

/-- When exactly the good steps keep `P`, it holds all along the runs of good steps and along no others. -/
theorem always_iff_along (hI : ∀ s a s', I s → M.step s a = some s' → I s')
    (hP : ∀ s a s', I s → P s → M.step s a = some s' → (P s' ↔ good s a)) (as : List α) (h : I s) (hs : P s) :
    M.Always P s as ↔ M.Along good s as := by
  induction as generalizing s with
  | nil => simp [Always, Along, hs]
  | cons a as ih =>
    simp only [Always, Along, hs, true_and]
    have hI' := next_invariant (fun s' hs => hI s a s' h hs) h
    rcases hstep : M.step s a with _ | s'
    · have hnext : M.next s a = s := by rw [next, hstep]; rfl
      rw [hnext] at hI' ⊢
      simpa using ih hI' hs
    · rw [next_of_step hstep] at hI' ⊢
      have hiff := hP s a s' h hs hstep
      simp only [Option.isSome_some, true_imp_iff, ← hiff]
      constructor
      · intro halways
        have hs' : P s' := by cases as with
          | nil => exact halways
          | cons => exact halways.1
        exact ⟨hs', (ih hI' hs').mp halways⟩
      · rintro ⟨hs', halong⟩
        exact (ih hI' hs').mpr halong

end Machine

/-! ## Calls with answers -/

section Answers

variable {σ τ α β : Type}

def answers (step : σ → α → β × σ) : σ → List α → List β × σ
  | s, [] => ([], s)
  | s, a :: as => ((step s a).1 :: (answers step (step s a).2 as).1, (answers step (step s a).2 as).2)

theorem answers_simulates {step : σ → α → β × σ} {step' : τ → α → β × τ} (abs : σ → τ)
    (h : ∀ s a, step' (abs s) a = ((step s a).1, abs (step s a).2)) (as : List α) (s : σ) :
    answers step' (abs s) as = ((answers step s as).1, abs (answers step s as).2) := by
  induction as generalizing s with
  | nil => rfl
  | cons a as ih => simp only [answers, h, ih]

end Answers
