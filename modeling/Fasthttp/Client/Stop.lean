import Fasthttp.Lib.Machine

/-!
# Stopping the cleaner

`Stop` sends to the loop of the cleaner while it holds the lock of the cleaner.
-/

namespace Fasthttp

inductive CleanLoop
  | off
  | selects
  | locks
  | cleans
  | returned
  deriving DecidableEq, Repr

inductive StopPc
  | checks
  | locks
  | sends
  | unlocks
  | returned
  deriving DecidableEq, Repr

inductive MuHolder
  | register
  | loop
  | stop (i : Nat)
  deriving DecidableEq, Repr

/-- Each number is a call of `Stop`, which begins when it takes its first step. -/
structure Stopping where
  mu : Option MuHolder
  loop : CleanLoop
  stop : Bool
  calls : Nat → StopPc

inductive StopAction
  | register
  | registered
  | tick
  | lock
  | unlock
  | stop (i : Nat)
  deriving DecidableEq, Repr

namespace Stopping

def new : Stopping := ⟨none, .off, false, fun _ => .checks⟩

def go (s : Stopping) (i : Nat) (pc : StopPc) : Stopping := { s with calls := Function.update s.calls i pc }

def stepStop (s : Stopping) (i : Nat) : Option Stopping :=
  match s.calls i with
  | .checks => some (s.go i (if s.stop then .returned else .locks))
  | .locks => if s.mu = none then some { s.go i .sends with mu := some (.stop i), stop := true } else none
  -- the send meets the receive of the loop
  | .sends => if s.loop = .selects then some { s.go i .unlocks with loop := .returned } else none
  | .unlocks => some { s.go i .returned with mu := none }
  | .returned => none

def step (s : Stopping) : StopAction → Option Stopping
  | .register =>
    if s.mu = none then some { s with mu := some .register, loop := if s.loop = .off then .selects else s.loop } else none
  | .registered => if s.mu = some .register then some { s with mu := none } else none
  | .tick => if s.loop = .selects then some { s with loop := .locks } else none
  | .lock => if s.loop = .locks ∧ s.mu = none then some { s with mu := some .loop, loop := .cleans } else none
  | .unlock => if s.loop = .cleans then some { s with mu := none, loop := .selects } else none
  | .stop i => s.stepStop i

def machine : Machine Stopping StopAction := ⟨step⟩

variable {s s' : Stopping} {a : StopAction} {i : Nat}

@[simp] theorem exec_nil (s : Stopping) : machine.exec s [] = s := rfl
@[simp] theorem exec_cons (s : Stopping) (a : StopAction) (as : List StopAction) :
    machine.exec s (a :: as) = machine.exec ((s.step a).getD s) as := rfl

@[simp] theorem go_calls (s : Stopping) (i : Nat) (pc : StopPc) : (s.go i pc).calls = Function.update s.calls i pc := rfl
@[simp] theorem go_mu (s : Stopping) (i : Nat) (pc : StopPc) : (s.go i pc).mu = s.mu := rfl
@[simp] theorem go_loop (s : Stopping) (i : Nat) (pc : StopPc) : (s.go i pc).loop = s.loop := rfl

structure Inv (s : Stopping) : Prop where
  loop : s.mu = some .loop ↔ s.loop = .cleans
  calls : ∀ i, s.mu = some (.stop i) ↔ s.calls i = .sends ∨ s.calls i = .unlocks

theorem inv_new : new.Inv := ⟨by simp [new], by simp [new]⟩

theorem Inv.step (hi : s.Inv) (hstep : s.step a = some s') : s'.Inv := by
  have hcalls := hi.calls
  have hloop := hi.loop
  cases a with
  | register | registered | tick | lock | unlock =>
    simp only [Stopping.step, Option.ite_none_right_eq_some, Option.some.injEq] at hstep
    obtain ⟨hmu, rfl⟩ := hstep
    constructor <;> grind
  | stop i =>
    simp only [Stopping.step, stepStop] at hstep
    split at hstep <;> (try split at hstep) <;> cases hstep
    all_goals
      refine ⟨by grind [go_mu, go_loop], fun j => ?_⟩
      have hi := hcalls i
      have hj := hcalls j
      simp only [go_calls, go_mu, Function.update_apply]
      split <;> grind

/-- The call cannot take its next step, whatever the others do. -/
def BlockedForever (s : Stopping) (i : Nat) : Prop :=
  (s.calls i = .locks ∨ s.calls i = .sends) ∧ ∀ as, (machine.exec s as).calls i = s.calls i

/-! ## A send that nobody receives -/

def Stuck (s : Stopping) : Prop := ∃ i, s.calls i = .sends ∧ s.loop ≠ .selects

theorem Inv.stuck_step (hi : s.Inv) (hsends : s.calls i = .sends) (hloop : s.loop ≠ .selects) (hstep : s.step a = some s') :
    s'.calls i = .sends ∧ s'.loop ≠ .selects := by
  have hmu := (hi.calls i).mpr (.inl hsends)
  cases a with
  | register | registered | lock => simp [Stopping.step, hmu] at hstep
  | tick => simp [Stopping.step, hloop] at hstep
  | unlock =>
    have hnot : s.loop ≠ .cleans := fun h => by simp [hi.loop.mpr h] at hmu
    simp [Stopping.step, hnot] at hstep
  | stop j =>
    have hother := hi.calls j
    simp only [hmu, Option.some.injEq, MuHolder.stop.injEq] at hother
    simp only [Stopping.step, stepStop] at hstep
    split at hstep
    · rename_i hj
      have hne : i ≠ j := fun h => by simp [h, hj] at hsends
      cases hstep
      exact ⟨(Function.update_of_ne hne _ _).trans hsends, hloop⟩
    · simp [hmu] at hstep
    · simp [hloop] at hstep
    · rename_i hj
      obtain rfl := hother.mpr (.inr hj)
      simp [hsends] at hj
    · cases hstep

theorem Inv.forever (hi : s.Inv) (hsends : s.calls i = .sends) (hloop : s.loop ≠ .selects) : s.BlockedForever i := by
  refine ⟨.inr hsends, fun as => ?_⟩
  have hend := machine.exec_invariant (P := fun s => s.Inv ∧ s.calls i = .sends ∧ s.loop ≠ .selects)
    (fun _ _ _ h hstep => ⟨h.1.step hstep, h.1.stuck_step h.2.1 h.2.2 hstep⟩) as ⟨hi, hsends, hloop⟩
  exact hend.2.1.trans hsends.symm

/-! ## A lock that comes free -/

theorem Inv.frees (hi : s.Inv) (h : ¬ s.Stuck) (hlocks : s.calls i = .locks) :
    ∃ as, (machine.exec s as).mu = none ∧ (machine.exec s as).calls i = .locks := by
  rcases hmu : s.mu with _ | _ | _ | j
  · exact ⟨[], hmu, hlocks⟩
  · exact ⟨[.registered], by simp [Stopping.step, hmu, hlocks]⟩
  · exact ⟨[.unlock], by simp [Stopping.step, hi.loop.mp hmu, hlocks]⟩
  · rcases (hi.calls j).mp hmu with hj | hj
    · have hne : i ≠ j := fun h => by simp [← h, hlocks] at hj
      have hloop : s.loop = .selects := by
        by_contra hloop
        exact h ⟨j, hj, hloop⟩
      exact ⟨[.stop j, .stop j], by simp [Stopping.step, stepStop, hj, hloop, hne, hlocks]⟩
    · have hne : i ≠ j := fun h => by simp [← h, hlocks] at hj
      exact ⟨[.stop j], by simp [Stopping.step, stepStop, hj, hne, hlocks]⟩

theorem Inv.blocked_iff (hi : s.Inv) : (∀ i, ¬ s.BlockedForever i) ↔ ¬ s.Stuck := by
  constructor
  · rintro h ⟨i, hsends, hloop⟩
    exact h i (hi.forever hsends hloop)
  · rintro h i ⟨hlocks | hsends, hforever⟩
    · obtain ⟨as, hmu, hcall⟩ := hi.frees h hlocks
      have hnext := hforever (as ++ [.stop i])
      rw [Machine.exec_append, hlocks] at hnext
      generalize machine.exec s as = s' at hmu hcall hnext
      simp [Stopping.step, stepStop, hmu, hcall] at hnext
    · have hloop : s.loop = .selects := by
        by_contra hloop
        exact h ⟨i, hsends, hloop⟩
      have hnext := hforever [.stop i]
      simp [Stopping.step, stepStop, hsends, hloop] at hnext

/-- `Stop` takes the lock while the loop selects, and no tick is received while `Stop` sends. -/
def Timely (s : Stopping) : StopAction → Prop
  | .tick => ∀ i, s.calls i ≠ .sends
  | .stop i => s.calls i = .locks → s.loop = .selects
  | _ => True

theorem Inv.stuck_iff (hi : s.Inv) (h : ¬ s.Stuck) (hstep : s.step a = some s') : ¬ s'.Stuck ↔ s.Timely a := by
  have hquiet : (∀ i, s.mu ≠ some (.stop i)) → ∀ i, s.calls i ≠ .sends := fun hmu i hsends => hmu i ((hi.calls i).mpr (.inl hsends))
  -- without a send nobody is stuck
  have hnone : (∀ i, s'.calls i ≠ .sends) → ¬ s'.Stuck := fun h ⟨i, hsends, _⟩ => h i hsends
  cases a with
  | register | registered | lock | unlock =>
    have hmu : ∀ i, s.mu ≠ some (.stop i) := by grind [Stopping.step, hi.loop]
    refine iff_of_true (hnone ?_) trivial
    simp only [Stopping.step, Option.ite_none_right_eq_some, Option.some.injEq] at hstep
    obtain ⟨-, rfl⟩ := hstep
    exact hquiet hmu
  | tick =>
    simp only [Stopping.step, Option.ite_none_right_eq_some, Option.some.injEq] at hstep
    obtain ⟨-, rfl⟩ := hstep
    simp [Stuck, Timely]
  | stop i =>
    have halone : s.mu = some (.stop i) → ∀ pc ≠ .sends, ∀ j, Function.update s.calls i pc j ≠ .sends := by
      intro hmu pc hpc j hj
      rw [Function.update_apply] at hj
      split at hj
      · exact hpc hj
      · have hother := (hi.calls j).mpr (.inl hj)
        simp_all
    simp only [Stopping.step, stepStop] at hstep
    simp only [Timely]
    rcases hpc : s.calls i <;> simp only [hpc] at hstep
    · cases hstep
      refine iff_of_true ?_ (fun h => nomatch h)
      rintro ⟨j, hsends, hloop⟩
      rw [go_calls, Function.update_apply] at hsends
      split at hsends
      · split at hsends <;> cases hsends
      · exact h ⟨j, hsends, hloop⟩
    · rw [Option.ite_none_right_eq_some] at hstep
      obtain ⟨hmu, hstep⟩ := hstep
      cases hstep
      constructor
      · intro hs _
        by_contra hloop
        exact hs ⟨i, by simp, hloop⟩
      · rintro hloop ⟨j, -, hne⟩
        exact hne (hloop rfl)
    · rw [Option.ite_none_right_eq_some] at hstep
      obtain ⟨-, hstep⟩ := hstep
      cases hstep
      exact iff_of_true (hnone (halone ((hi.calls i).mpr (.inl hpc)) _ nofun)) nofun
    · cases hstep
      exact iff_of_true (hnone (halone ((hi.calls i).mpr (.inr hpc)) _ nofun)) nofun
    · cases hstep

theorem stop_returns_iff (as : List StopAction) :
    machine.Always (fun s => (∀ i, ¬ s.BlockedForever i) ∧ ∀ i, s.calls i = .returned → s.mu ≠ some (.stop i)) new as ↔
      machine.Along Timely new as := by
  have hiff : ∀ s : Stopping, s.Inv →
      (((∀ i, ¬ s.BlockedForever i) ∧ ∀ i, s.calls i = .returned → s.mu ≠ some (.stop i)) ↔ ¬ s.Stuck) := by
    intro s hi
    rw [hi.blocked_iff, and_iff_left]
    intro i hreturned hmu
    simpa [hreturned] using (hi.calls i).mp hmu
  refine machine.always_iff_along (fun _ _ _ hi => hi.step) (fun s a s' hi hs hstep => ?_) as inv_new ?_
  · rw [hiff s' (hi.step hstep)]
    exact hi.stuck_iff ((hiff s hi).mp hs) hstep
  · rw [hiff new inv_new]
    rintro ⟨i, hsends, -⟩
    cases hsends

/-- `Stop` is called before anything was registered. -/
theorem stop_hangs : (machine.exec new [.stop 0, .stop 0]).BlockedForever 0 :=
  (machine.exec_invariant (fun _ _ _ hi => hi.step) [.stop 0, .stop 0] inv_new).forever (by decide) (by decide)

end Stopping

end Fasthttp
