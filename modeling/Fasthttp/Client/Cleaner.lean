import Fasthttp.Lib.Machine
import Fasthttp.Lib.Waits

/-!
# The cleaner of the clients and its locks

`acquireConn` and `createHostClient` register with the cleaner under a lock of their own, and the cleaner takes those
locks under its own.
-/

namespace Fasthttp

open List

inductive Lock
  /-- `DurationCleaner.mu` -/
  | cleaner
  /-- `Client.mLock` -/
  | client (c : Nat)
  /-- `HostClient.connsLock` -/
  | conns (h : Nat)
  deriving DecidableEq, Repr

inductive CleanableItem
  | client (c : Nat)
  | host (h : Nat)
  deriving DecidableEq, Repr

inductive Once
  | fresh
  | running
  | done
  deriving DecidableEq, Repr

/-- `idle` is whether `MaxIdleConnDuration` lets the client be cleaned. -/
structure ClientState where
  mOnce : Once
  m : List (Nat × Nat)
  cleanStart : Bool
  idle : Bool
  deriving DecidableEq, Repr

structure HostState where
  connsCleanerRun : Bool
  idle : Bool
  deriving DecidableEq, Repr

inductive Caller
  | acquires (h : Nat) (connectionClose : Bool)
  | acquired (h : Nat) (connectionClose : Bool)
  | enrols (h : Nat)
  | enrolled (h : Nat)
  | leaves (h : Nat)
  | starts (c : Nat) (name : Nat)
  | makes (c : Nat) (name : Nat)
  | made (c : Nat) (name : Nat)
  | looks (c : Nat) (name : Nat)
  | looked (c : Nat) (name : Nat)
  | creates (c : Nat) (name : Nat)
  | created (c : Nat) (name : Nat)
  | subscribes (c : Nat) (name : Nat)
  | subscribed (c : Nat) (name : Nat)
  | adds (c : Nat) (name : Nat)
  | unlocks (c : Nat)
  | done
  deriving DecidableEq, Repr

namespace Caller

def holds : Caller → List Lock
  | .acquired h _ | .enrols h | .leaves h => [.conns h]
  | .enrolled h => [.conns h, .cleaner]
  | .made c _ | .looked c _ | .created c _ | .subscribes c _ | .adds c _ | .unlocks c => [.client c]
  | .subscribed c _ => [.client c, .cleaner]
  | _ => []

def wants : Caller → Option Lock
  | .acquires h _ => some (.conns h)
  | .enrols _ | .subscribes _ _ => some .cleaner
  | .makes c _ | .looks c _ | .creates c _ => some (.client c)
  | _ => none

def writes : Caller → List Lock
  | .looked _ _ => []
  | t => t.holds

/-- A writer that waits keeps new readers out. -/
def wantsToWrite : Caller → Option Lock
  | .looks _ _ => none
  | t => t.wants

end Caller

inductive Cleaner
  | off
  | sleeps
  | wakes
  | checks
  | cleansHost (i h : Nat)
  | inHost (i h : Nat)
  | closes (i h : Nat) (more : Nat)
  | inClose (i h : Nat) (more : Nat)
  | ends (i h : Nat)
  | inEnd (i h : Nat)
  | cleansClient (i c : Nat)
  | inClient (i c : Nat) (rest : List (Nat × Nat))
  | visits (i c name h : Nat) (rest : List (Nat × Nat))
  | inVisit (i c name h : Nat) (rest : List (Nat × Nat))
  deriving DecidableEq, Repr

namespace Cleaner

def holds : Cleaner → List Lock
  | .off | .sleeps | .wakes => []
  | .checks | .cleansHost _ _ | .closes _ _ _ | .ends _ _ | .cleansClient _ _ => [.cleaner]
  | .inHost _ h | .inClose _ h _ | .inEnd _ h => [.cleaner, .conns h]
  | .inClient _ c _ | .visits _ c _ _ _ => [.cleaner, .client c]
  | .inVisit _ c _ h _ => [.cleaner, .client c, .conns h]

def wants : Cleaner → Option Lock
  | .wakes => some .cleaner
  | .cleansHost _ h | .closes _ h _ | .ends _ h => some (.conns h)
  | .cleansClient _ c => some (.client c)
  | .visits _ _ _ h _ => some (.conns h)
  | _ => none

end Cleaner

structure Cleaning where
  clients : List ClientState
  hosts : List HostState
  items : List CleanableItem
  callers : List Caller
  cleaner : Cleaner
  deriving DecidableEq, Repr

namespace Cleaning

variable {k : Cleaner} {l : Lock}

def new (clients hosts : List Bool) : Cleaning :=
  ⟨clients.map (⟨.fresh, [], false, ·⟩), hosts.map (⟨false, ·⟩), [], [], .off⟩

def free (s : Cleaning) (l : Lock) : Bool := s.callers.all (fun t => !(t.holds.contains l)) && !(s.cleaner.holds.contains l)

def freeToRead (s : Cleaning) (l : Lock) : Bool :=
  s.callers.all (fun t => !(t.writes.contains l) && t.wantsToWrite != some l) && !(s.cleaner.holds.contains l) &&
    s.cleaner.wants != some l

def setCaller (s : Cleaning) (i : Nat) (t : Caller) : Cleaning := { s with callers := s.callers.set i t }

def setClient (s : Cleaning) (c : Nat) (v : ClientState) : Cleaning := { s with clients := s.clients.set c v }

def setHost (s : Cleaning) (h : Nat) (v : HostState) : Cleaning := { s with hosts := s.hosts.set h v }

def register (s : Cleaning) (item : CleanableItem) : Cleaning :=
  { s with
    items := s.items ++ [item]
    cleaner := if s.cleaner = .off then .sleeps else s.cleaner }

def registers (s : Cleaning) (pick : Bool) : Caller → Option Lock
  | .acquired h connectionClose =>
    match s.hosts[h]? with
    | some v => if pick && !v.connsCleanerRun && !connectionClose && v.idle then some (.conns h) else none
    | none => none
  | .created c name =>
    match s.clients[c]? with
    | some v => if pick && (v.m.lookup name).isNone && !v.cleanStart && v.idle then some (.client c) else none
    | none => none
  | _ => none

def callerStep (s : Cleaning) (i : Nat) (pick : Bool) : Caller → Option Cleaning
  | .acquires h connectionClose => if s.free (.conns h) then some (s.setCaller i (.acquired h connectionClose)) else none
  | .acquired h connectionClose =>
    if (s.registers pick (.acquired h connectionClose)).isSome then some (s.setCaller i (.enrols h))
    else some (s.setCaller i .done)
  | .enrols h => if s.free .cleaner then some (s.setCaller i (.enrolled h)) else none
  | .enrolled h => some ((s.register (.host h)).setCaller i (.leaves h))
  | .leaves h =>
    match s.hosts[h]? with
    | some v => some ((s.setHost h { v with connsCleanerRun := true }).setCaller i .done)
    | none => none
  | .starts c name =>
    match s.clients[c]? with
    | some v =>
      match v.mOnce with
      | .fresh => some ((s.setClient c { v with mOnce := .running }).setCaller i (.makes c name))
      | .running => none
      | .done => some (s.setCaller i (.looks c name))
    | none => none
  | .makes c name => if s.free (.client c) then some (s.setCaller i (.made c name)) else none
  | .made c name =>
    match s.clients[c]? with
    | some v => some ((s.setClient c { v with mOnce := .done, m := [] }).setCaller i (.looks c name))
    | none => none
  | .looks c name => if s.freeToRead (.client c) then some (s.setCaller i (.looked c name)) else none
  | .looked c name =>
    match s.clients[c]? with
    | some v => some (s.setCaller i (if (v.m.lookup name).isSome then .done else .creates c name))
    | none => none
  | .creates c name => if s.free (.client c) then some (s.setCaller i (.created c name)) else none
  | .created c name =>
    match s.clients[c]? with
    | some v =>
      if (s.registers pick (.created c name)).isSome then some (s.setCaller i (.subscribes c name))
      else if pick && (v.m.lookup name).isNone then some (s.setCaller i (.adds c name))
      else some (s.setCaller i .done)
    | none => none
  | .subscribes c name => if s.free .cleaner then some (s.setCaller i (.subscribed c name)) else none
  | .subscribed c name =>
    match s.clients[c]? with
    | some v =>
      some (((s.register (.client c)).setClient c { v with cleanStart := true }).setCaller i (.adds c name))
    | none => none
  | .adds c name =>
    if pick then
      match s.clients[c]? with
      | some v =>
        some ({ s.setClient c { v with m := v.m ++ [(name, s.hosts.length)] } with
          hosts := s.hosts ++ [HostState.mk false v.idle] }.setCaller i (.unlocks c))
      | none => none
    else some (s.setCaller i (.unlocks c))
  | .unlocks _ => some (s.setCaller i .done)
  | .done => none

def finish (s : Cleaning) (i : Nat) (stop : Bool) : Cleaning :=
  { s with items := if stop then s.items.eraseIdx i else s.items, cleaner := .checks }

def cleanerStep (s : Cleaning) (n : Nat) (pick : Bool) : Cleaner → Option Cleaning
  | .off | .sleeps => none
  | .wakes => if s.free .cleaner then some { s with cleaner := .checks } else none
  | .checks =>
    if pick then
      match s.items[n]? with
      | some (.client c) => some { s with cleaner := .cleansClient n c }
      | some (.host h) => some { s with cleaner := .cleansHost n h }
      | none => none
    else some { s with cleaner := .sleeps }
  | .cleansHost i h => if s.free (.conns h) then some { s with cleaner := .inHost i h } else none
  | .inHost i h =>
    match n with
    | 0 => some (s.finish i false)
    | more + 1 => some { s with cleaner := .closes i h more }
  | .closes i h more => if s.free (.conns h) then some { s with cleaner := .inClose i h more } else none
  | .inClose i h more =>
    match more with
    | 0 => some { s with cleaner := .ends i h }
    | more + 1 => some { s with cleaner := .closes i h more }
  | .ends i h => if s.free (.conns h) then some { s with cleaner := .inEnd i h } else none
  | .inEnd i h =>
    match s.hosts[h]? with
    | some v => some ((if pick then s.setHost h { v with connsCleanerRun := false } else s).finish i pick)
    | none => none
  | .cleansClient i c =>
    match s.clients[c]? with
    | some v => if s.free (.client c) then some { s with cleaner := .inClient i c v.m } else none
    | none => none
  | .inClient i c [] =>
    match s.clients[c]? with
    | some v => some ((s.setClient c { v with cleanStart := false }).finish i v.m.isEmpty)
    | none => none
  | .inClient i c ((name, h) :: rest) => some { s with cleaner := .visits i c name h rest }
  | .visits i c name h rest => if s.free (.conns h) then some { s with cleaner := .inVisit i c name h rest } else none
  | .inVisit i c name _ rest =>
    match s.clients[c]? with
    | some v =>
      some { (if pick then s.setClient c { v with m := v.m.filter (·.1 != name) } else s) with cleaner := .inClient i c rest }
    | none => none

inductive Action
  | acquireConn (h : Nat) (connectionClose : Bool)
  | createHostClient (c : Nat) (name : Nat)
  | tick
  | caller (i : Nat) (pick : Bool)
  | cleaner (n : Nat) (pick : Bool)
  deriving DecidableEq, Repr

def step (s : Cleaning) : Action → Option Cleaning
  | .acquireConn h connectionClose => some { s with callers := s.callers ++ [.acquires h connectionClose] }
  | .createHostClient c name => some { s with callers := s.callers ++ [.starts c name] }
  | .tick => if s.cleaner = .sleeps then some { s with cleaner := .wakes } else none
  | .caller i pick =>
    match s.callers[i]? with
    | some t => s.callerStep i pick t
    | none => none
  | .cleaner n pick => s.cleanerStep n pick s.cleaner

def machine : Machine Cleaning Action := ⟨step⟩

def waits (s : Cleaning) : Waits (Option Nat) Lock where
  holds
    | none, l => l ∈ s.cleaner.holds
    | some i, l => ∃ t, s.callers[i]? = some t ∧ l ∈ t.holds
  wants
    | none, l => s.cleaner.wants = some l
    | some i, l => ∃ t, s.callers[i]? = some t ∧ t.wants = some l

def Crossed (s : Cleaning) : Prop :=
  ∃ l, s.cleaner.wants = some l ∧ Lock.cleaner ∈ s.cleaner.holds ∧
    ∃ t ∈ s.callers, l ∈ t.holds ∧ t.wants = some .cleaner

theorem deadlock_iff (s : Cleaning) : s.waits.Deadlock ↔ s.Crossed := by
  rw [Waits.deadlock_iff_pair none Lock.cleaner]
  · constructor
    · rintro ⟨_ | i, l, hne, hμ, hwants, hholds, hwants'⟩
      · exact absurd rfl hne
      · obtain ⟨t, ht, hl⟩ := hholds
        obtain ⟨t', ht', hw⟩ := hwants'
        rw [ht, Option.some.injEq] at ht'
        subst ht'
        exact ⟨l, hwants, hμ, t, mem_of_getElem? ht, hl, hw⟩
    · rintro ⟨l, hwants, hμ, t, ht, hl, hw⟩
      obtain ⟨i, hi⟩ := getElem?_of_mem ht
      exact ⟨some i, l, by simp, hμ, hwants, ⟨t, hi, hl⟩, t, hi, hw⟩
  · rintro (_ | i) l l' hne hholds hwants
    · exact absurd rfl hne
    · obtain ⟨t, ht, hl⟩ := hholds
      obtain ⟨t', ht', hw⟩ := hwants
      rw [ht, Option.some.injEq] at ht'
      subst ht'
      cases t <;> simp_all [Caller.holds, Caller.wants]
  · rintro (_ | i) l hholds hwants
    · rfl
    · obtain ⟨t, ht, hl⟩ := hholds
      obtain ⟨t', ht', hw⟩ := hwants
      rw [ht, Option.some.injEq] at ht'
      subst ht'
      cases t <;> simp_all [Caller.holds, Caller.wants]

def goesFor (s : Cleaning) (n : Nat) (pick : Bool) : Cleaner → Option Lock
  | .checks =>
    if pick then
      match s.items[n]? with
      | some (.client c) => some (.client c)
      | some (.host h) => some (.conns h)
      | none => none
    else none
  | .inHost _ h => if n = 0 then none else some (.conns h)
  | .inClose _ h _ => some (.conns h)
  | .inClient _ _ ((_, h) :: _) => some (.conns h)
  | _ => none

/-- No caller registers under a lock for which the cleaner waits, and the cleaner goes for no lock of a
caller that registers. -/
def Apart (s : Cleaning) : Action → Prop
  | .caller i pick => ∀ t l, s.callers[i]? = some t → s.registers pick t = some l → s.cleaner.wants ≠ some l
  | .cleaner n pick => ∀ l, s.goesFor n pick s.cleaner = some l → ∀ t ∈ s.callers, l ∈ t.holds → t.wants ≠ some .cleaner
  | _ => True

variable {s s' : Cleaning}

structure Moves (s : Cleaning) (i : Nat) (pick : Bool) (t : Caller) (s' : Cleaning) : Prop where
  caller : ∃ t', s'.callers = s.callers.set i t' ∧ ∀ l, l ∈ t'.holds ∧ t'.wants = some .cleaner ↔ s.registers pick t = some l
  cleaner : s'.cleaner = s.cleaner ∨ s.cleaner = .off ∧ s'.cleaner = .sleeps

variable {i : Nat} {pick : Bool} {t t' : Caller}

theorem Moves.quiet {s₁ : Cleaning} (hcallers : s₁.callers = s.callers)
    (hcleaner : s₁.cleaner = s.cleaner ∨ s.cleaner = .off ∧ s₁.cleaner = .sleeps) (hreg : s.registers pick t = none)
    (hwants : t'.wants ≠ some .cleaner) : s.Moves i pick t (s₁.setCaller i t') where
  caller := ⟨t', by rw [setCaller, hcallers], fun l => by simp [hreg, hwants]⟩
  cleaner := hcleaner

theorem register_cleaner (s : Cleaning) (item : CleanableItem) :
    (s.register item).cleaner = s.cleaner ∨ s.cleaner = .off ∧ (s.register item).cleaner = .sleeps := by
  by_cases hoff : s.cleaner = .off
  · exact .inr ⟨hoff, if_pos hoff⟩
  · exact .inl (if_neg hoff)

theorem registers_held (h : s.registers pick t = some l) : t.holds = [l] := by
  cases t with
  | acquired h' connectionClose =>
    simp only [registers] at h
    split at h
    · split at h
      · rw [Caller.holds, Option.some.inj h]
      · cases h
    · cases h
  | created c name =>
    simp only [registers] at h
    split at h
    · split at h
      · rw [Caller.holds, Option.some.inj h]
      · cases h
    · cases h
  | _ => cases h

theorem callerStep_moves (h : s.callerStep i pick t = some s') : s.Moves i pick t s' := by
  cases t with
  | acquired h' connectionClose =>
    simp only [callerStep] at h
    rcases hreg : s.registers pick (.acquired h' connectionClose) with _ | l
    · simp only [hreg, Option.isSome_none, Bool.false_eq_true, if_false, Option.some.injEq] at h
      subst h
      exact .quiet rfl (.inl rfl) hreg (by simp [Caller.wants])
    · simp only [hreg, Option.isSome_some, if_true, Option.some.injEq] at h
      subst h
      have hl : Lock.conns h' = l := (List.cons.inj (registers_held hreg)).1
      exact ⟨⟨_, rfl, fun l' => by simp [Caller.holds, Caller.wants, hreg, hl, eq_comm]⟩, .inl rfl⟩
  | created c name =>
    simp only [callerStep] at h
    split at h
    · rcases hreg : s.registers pick (.created c name) with _ | l
      · simp only [hreg, Option.isSome_none, Bool.false_eq_true, if_false] at h
        split at h <;> cases h
        all_goals exact .quiet rfl (.inl rfl) hreg (by simp [Caller.wants])
      · simp only [hreg, Option.isSome_some, if_true, Option.some.injEq] at h
        subst h
        have hl : Lock.client c = l := (List.cons.inj (registers_held hreg)).1
        exact ⟨⟨_, rfl, fun l' => by simp [Caller.holds, Caller.wants, hreg, hl, eq_comm]⟩, .inl rfl⟩
    · cases h
  | enrolled h' =>
    cases h
    exact .quiet rfl (register_cleaner s _) rfl (by simp [Caller.wants])
  | subscribed c name =>
    simp only [callerStep] at h
    split at h <;> cases h
    exact .quiet rfl (register_cleaner s (.client c)) rfl (by simp [Caller.wants])
  | looked c name =>
    simp only [callerStep] at h
    split at h <;> cases h
    refine .quiet rfl (.inl rfl) rfl ?_
    split <;> simp [Caller.wants]
  | _ =>
    -- a lock is taken, or the state is changed and a lock given back
    simp only [callerStep] at h
    (repeat' split at h) <;> cases h
    all_goals exact .quiet rfl (.inl rfl) rfl (by simp [Caller.wants])

theorem Cleaner.holds_of_wants (h : k.wants = some l) (hl : l ≠ .cleaner) : Lock.cleaner ∈ k.holds := by
  cases k <;> simp_all [Cleaner.holds, Cleaner.wants]

theorem Caller.holds_ne {t : Caller} (hl : l ∈ t.holds) (hw : t.wants = some .cleaner) : l ≠ .cleaner := by
  cases t <;> simp_all [Caller.holds, Caller.wants]

theorem callerStep_crossed (hs : ¬ s.Crossed) (ht : s.callers[i]? = some t) (h : s.callerStep i pick t = some s') :
    ¬ s'.Crossed ↔ ∀ l, s.registers pick t = some l → s.cleaner.wants ≠ some l := by
  obtain ⟨⟨t', hcallers, hreg⟩, hcleaner⟩ := callerStep_moves h
  obtain ⟨hlt, -⟩ := List.getElem?_eq_some_iff.mp ht
  have hin : t' ∈ s'.callers := by
    rw [hcallers]
    exact mem_iff_getElem?.mpr ⟨i, getElem?_set_self hlt⟩
  constructor
  · intro hs' l hl hwants
    obtain ⟨hholds, hwants'⟩ := (hreg l).mpr hl
    have hsame : s'.cleaner = s.cleaner := hcleaner.resolve_right fun hoff => by simp [hoff.1, Cleaner.wants] at hwants
    refine hs' ⟨l, hsame ▸ hwants, ?_, t', hin, hholds, hwants'⟩
    exact Cleaner.holds_of_wants (hsame ▸ hwants) (Caller.holds_ne hholds hwants')
  · rintro hgood ⟨l, hwants, hμ, u, hu, hholds, hwants'⟩
    have hsame : s'.cleaner = s.cleaner := hcleaner.resolve_right fun hoff => by simp [hoff.2, Cleaner.wants] at hwants
    rw [hsame] at hwants hμ
    rw [hcallers] at hu
    rcases mem_or_eq_of_mem_set hu with hu | rfl
    · exact hs ⟨l, hwants, hμ, u, hu, hholds, hwants'⟩
    · exact hgood l ((hreg l).mp ⟨hholds, hwants'⟩) hwants

theorem cleanerStep_spec {n : Nat} (h : s.cleanerStep n pick k = some s') :
    s'.callers = s.callers ∧ s'.cleaner.wants = s.goesFor n pick k := by
  cases k with
  | checks =>
    simp only [cleanerStep] at h
    split at h
    · rename_i hpick
      split at h <;> cases h
      all_goals
        rename_i hitem
        exact ⟨rfl, by simp [goesFor, hpick, hitem, Cleaner.wants]⟩
    · rename_i hpick
      cases h
      exact ⟨rfl, by simp [goesFor, hpick, Cleaner.wants]⟩
  | inEnd i h' | inVisit i c name h' rest =>
    simp only [cleanerStep] at h
    split at h <;> cases h
    refine ⟨?_, rfl⟩
    cases pick <;> rfl
  | inClient i c rest =>
    cases rest <;> simp only [cleanerStep] at h <;> (repeat' split at h) <;> cases h
    all_goals exact ⟨rfl, rfl⟩
  | inHost i h' =>
    cases n <;> cases h
    all_goals exact ⟨rfl, rfl⟩
  | inClose i h' more =>
    cases more <;> cases h
    all_goals exact ⟨rfl, rfl⟩
  | _ =>
    simp only [cleanerStep] at h
    (repeat' split at h) <;> cases h
    all_goals exact ⟨rfl, rfl⟩

theorem cleanerStep_crossed {n : Nat} (h : s.cleanerStep n pick k = some s') :
    ¬ s'.Crossed ↔ ∀ l, s.goesFor n pick k = some l → ∀ t ∈ s.callers, l ∈ t.holds → t.wants ≠ some .cleaner := by
  obtain ⟨hcallers, hwants⟩ := cleanerStep_spec h
  constructor
  · intro hs' l hl t ht hholds hw
    refine hs' ⟨l, hwants.trans hl, ?_, t, hcallers ▸ ht, hholds, hw⟩
    exact Cleaner.holds_of_wants (hwants.trans hl) (Caller.holds_ne hholds hw)
  · rintro hgood ⟨l, hl, -, t, ht, hholds, hw⟩
    exact hgood l (hwants.symm.trans hl) t (hcallers ▸ ht) hholds hw

theorem step_crossed {a : Action} (hs : ¬ s.Crossed) (h : s.step a = some s') : ¬ s'.Crossed ↔ s.Apart a := by
  -- a caller that starts and a cleaner that wakes up hold no lock
  cases a with
  | acquireConn h' connectionClose =>
    cases h
    refine iff_of_true ?_ trivial
    rintro ⟨l, hwants, hμ, t, ht, hholds, hw⟩
    rcases mem_append.mp ht with ht | ht
    · exact hs ⟨l, hwants, hμ, t, ht, hholds, hw⟩
    · rw [mem_singleton.mp ht] at hw
      cases hw
  | createHostClient c name =>
    cases h
    refine iff_of_true ?_ trivial
    rintro ⟨l, hwants, hμ, t, ht, hholds, hw⟩
    rcases mem_append.mp ht with ht | ht
    · exact hs ⟨l, hwants, hμ, t, ht, hholds, hw⟩
    · rw [mem_singleton.mp ht] at hw
      cases hw
  | tick =>
    simp only [step] at h
    split at h <;> cases h
    refine iff_of_true ?_ trivial
    rintro ⟨l, -, hμ, -⟩
    cases hμ
  | caller i pick =>
    simp only [step] at h
    rcases ht : s.callers[i]? with _ | t
    · simp [ht] at h
    · simp only [ht] at h
      rw [callerStep_crossed hs ht h]
      constructor
      · rintro hgood t' l ht' hreg
        rw [ht, Option.some.injEq] at ht'
        exact hgood l (ht' ▸ hreg)
      · exact fun hgood l hreg => hgood t l ht hreg
  | cleaner n pick => exact cleanerStep_crossed h

/-- No deadlock comes up exactly in the runs in which the registrations and the cleaner keep apart. -/
theorem deadlock_free_iff (clients hosts : List Bool) (as : List Action) :
    machine.Always (fun s => ¬ s.waits.Deadlock) (new clients hosts) as ↔ machine.Along Apart (new clients hosts) as := by
  simp only [deadlock_iff]
  refine Machine.always_iff_along (I := fun _ => True) (fun _ _ _ _ _ => trivial) (fun _ _ _ _ hs h => step_crossed hs h) as
    trivial ?_
  rintro ⟨l, hwants, -⟩
  cases hwants

def firstRequest : List Action :=
  .createHostClient 0 0 :: List.replicate 11 (.caller 0 true) ++ [.acquireConn 0 false, .caller 1 true, .tick] ++
    List.replicate 4 (.cleaner 0 true) ++ [.caller 1 true]

theorem cleaner_deadlocks : (machine.exec (new [true] []) firstRequest).waits.Deadlock := by
  rw [deadlock_iff]
  obtain ⟨hcleaner, hcallers⟩ : (machine.exec (new [true] []) firstRequest).cleaner = .visits 0 0 0 0 [] ∧
      (machine.exec (new [true] []) firstRequest).callers = [.done, .enrols 0] := by decide +kernel
  rw [Crossed, hcleaner, hcallers]
  exact ⟨.conns 0, rfl, by decide, .enrols 0, by decide, by decide, rfl⟩

end Cleaning

end Fasthttp
