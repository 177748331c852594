import Fasthttp.Lib.Machine

/-!
# Hijacked connections

`HijackConn` and `Hijack` in `serveConn`, and `hijackConnHandler`.
-/

namespace Fasthttp

open List

inductive HijackPhase
  | serving
  /-- `HijackConn` was called: the connection is the user's. -/
  | taken
  | handling
  | returned (closed : Bool)
  | closed
  deriving DecidableEq, Repr

structure HijackServer where
  keepHijackedConns : Bool
  conns : List HijackPhase
  deriving DecidableEq, Repr

inductive HijackStep
  | accept
  /-- A request without hijacking; `stop` ends the loop. -/
  | answer (i : Nat) (stop : Bool)
  | hijackConn (i : Nat)
  /-- `ok` is false when the deadlines cannot be cleared. -/
  | hijack (i : Nat) (ok : Bool)
  | handlerReturns (i : Nat)
  deriving DecidableEq, Repr

namespace HijackServer

variable {s s' : HijackServer} {a : HijackStep} {l : List HijackPhase} {i : Nat} {p q r : HijackPhase}

def move (s : HijackServer) (i : Nat) (p q : HijackPhase) : Option HijackServer :=
  if s.conns[i]? = some p then some { s with conns := s.conns.set i q } else none

def step (s : HijackServer) : HijackStep → Option HijackServer
  | .accept => some { s with conns := s.conns ++ [.serving] }
  | .answer i stop => s.move i .serving (if stop then .closed else .serving)
  | .hijackConn i => move { s with keepHijackedConns := true } i .serving .taken
  | .hijack i ok => s.move i .serving (if ok then .handling else .closed)
  | .handlerReturns i => s.move i .handling (.returned !s.keepHijackedConns)

def machine : Machine HijackServer HijackStep := ⟨step⟩

/-- A connection is closed behind its hijack handler as configured. -/
def Local (keep : Bool) (s : HijackServer) : Prop := ∀ closed, .returned closed ∈ s.conns → closed = !keep

/-- A hijack handler returns on a server that keeps the connections, or on which `HijackConn` has not been used. -/
def Undisturbed (keep : Bool) (s : HijackServer) : HijackStep → Prop
  | .handlerReturns _ => keep = true ∨ .taken ∉ s.conns
  | _ => True

def Inv (keep : Bool) (s : HijackServer) : Prop := s.keepHijackedConns = true ↔ keep = true ∨ .taken ∈ s.conns

theorem mem_set_iff (hp : l[i]? = some p) (hr : r ≠ p) : r ∈ l.set i q ↔ r = q ∨ r ∈ l := by
  constructor
  · intro h
    exact (mem_or_eq_of_mem_set h).symm
  · rintro (rfl | h)
    · exact mem_set (List.getElem?_eq_some_iff.mp hp).1 r
    · obtain ⟨j, hj⟩ := mem_iff_getElem?.mp h
      have hne : i ≠ j := by
        rintro rfl
        exact hr (Option.some.inj (hj.symm.trans hp))
      exact mem_iff_getElem?.mpr ⟨j, by rwa [getElem?_set_ne hne]⟩

def target (s : HijackServer) : HijackStep → HijackPhase
  | .accept => .serving
  | .answer _ stop => if stop then .closed else .serving
  | .hijackConn _ => .taken
  | .hijack _ ok => if ok then .handling else .closed
  | .handlerReturns _ => .returned !s.keepHijackedConns

theorem step_cases (hstep : s.step a = some s') : (s'.keepHijackedConns = true ↔ s.keepHijackedConns = true ∨ s.target a = .taken) ∧
    ∀ r, r ≠ .serving → r ≠ .handling → (r ∈ s'.conns ↔ r = s.target a ∨ r ∈ s.conns) := by
  have hmove {s : HijackServer} {i : Nat} {p q : HijackPhase} (h : s.move i p q = some s') :
      s'.keepHijackedConns = s.keepHijackedConns ∧ ∀ r, r ≠ p → (r ∈ s'.conns ↔ r = q ∨ r ∈ s.conns) := by
    unfold move at h
    split at h <;> cases h
    exact ⟨rfl, fun r => mem_set_iff ‹_›⟩
  cases a with
  | accept =>
    cases hstep
    exact ⟨by simp [target], fun r _ _ => by simp [target, or_comm]⟩
  | hijackConn i => exact ⟨by simp [(hmove hstep).1, target], fun r hr _ => (hmove hstep).2 r hr⟩
  | handlerReturns i => exact ⟨by simp [(hmove hstep).1, target], fun r _ hr => (hmove hstep).2 r hr⟩
  | answer i stop => exact ⟨by cases stop <;> simp [(hmove hstep).1, target], fun r hr _ => (hmove hstep).2 r hr⟩
  | hijack i ok => exact ⟨by cases ok <;> simp [(hmove hstep).1, target], fun r hr _ => (hmove hstep).2 r hr⟩

theorem inv_step {keep : Bool} (h : s.Inv keep) (hstep : s.step a = some s') : s'.Inv keep := by
  obtain ⟨hkeep, hmem⟩ := step_cases hstep
  unfold Inv at *
  rw [hkeep, h, hmem .taken (by simp) (by simp), or_assoc, or_comm (a := .taken ∈ s.conns), eq_comm (a := s.target a)]

theorem local_step {keep : Bool} (h : s.Inv keep) (hlocal : s.Local keep) (hstep : s.step a = some s') :
    s'.Local keep ↔ s.Undisturbed keep a := by
  have hmem := fun c => (step_cases hstep).2 (.returned c) (by simp) (by simp)
  have hnew : s'.Local keep ↔ ∀ c, .returned c = s.target a → c = !keep := by
    simp only [Local, hmem]
    exact ⟨fun hc c heq => hc c (.inl heq), fun hc c hor => hor.elim (hc c) (hlocal c)⟩
  rw [hnew]
  unfold Inv at h
  cases a with
  | accept => simp [target, Undisturbed]
  | answer i stop => cases stop <;> simp [target, Undisturbed]
  | hijackConn i => simp [target, Undisturbed]
  | hijack i ok => cases ok <;> simp [target, Undisturbed]
  | handlerReturns i =>
    -- The flag has its configured value unless a connection was taken.
    by_cases hflag : s.keepHijackedConns = true
    · cases keep <;> simp_all [target, Undisturbed]
    · cases keep <;> simp_all [target, Undisturbed]

/-- Every connection is closed behind its hijack handler as configured exactly when no handler returns after a `HijackConn` on a
server that does not keep its connections. -/
theorem hijack_local_iff (keep : Bool) (as : List HijackStep) :
    machine.Always (Local keep) ⟨keep, []⟩ as ↔ machine.Along (Undisturbed keep) ⟨keep, []⟩ as :=
  Machine.always_iff_along (I := Inv keep) (fun _ _ _ => inv_step) (fun _ _ _ => local_step) as (by simp [Inv]) (by simp [Local])

/-- Another connection was hijacked by `HijackConn`. -/
theorem hijack_leaks :
    ¬ (machine.exec ⟨false, []⟩ [.accept, .accept, .hijack 0 true, .hijackConn 1, .handlerReturns 0]).Local false := by
  intro h
  have := h false (by decide)
  cases this

end HijackServer

end Fasthttp
