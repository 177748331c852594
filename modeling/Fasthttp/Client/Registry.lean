import Fasthttp.Client.Cleaner
import Fasthttp.Lib.Tally

/-!
# Who is registered with the cleaner

The flags by which a client and its host clients know that the cleaner has them.
-/

namespace Fasthttp

open List

structure HostConns where
  maxConns : Int
  connsCount : Int
  conns : Nat
  pendingClientRequests : Int
  deriving DecidableEq, Repr

def HostConns.unused (v : HostConns) : Bool := v.connsCount = 0 ∧ v.pendingClientRequests = 0

def HostConns.none (v : HostConns) : Prop := v.connsCount = 0 ∧ v.conns = 0

/-- `flag` is `cleanStart` of a client and `connsCleanerRun` of a host client; `closing` is the host client in `Clean`
with its expired connections. -/
structure Registry where
  items : List CleanableItem
  flag : CleanableItem → Bool
  m : Nat → List (Nat × Nat)
  hosts : Nat → HostConns
  closing : Option (Nat × Nat)

/-- `createHostClient` takes the host client of `NewHostClient`, or none. A closed connection may give its place to a
waiter. -/
inductive RegistryAction
  | createHostClient (c key : Nat) (made : Option Nat) (configured : Bool)
  | addHostClient (c key h : Nat)
  | acquireConn (h : Nat) (connectionClose : Bool)
  | releaseConn (h : Nat)
  | closeConn (h : Nat) (dialed : Bool)
  | pending (h : Nat) (n : Int)
  | cleanClient (c : Nat)
  | cleanHost (h expired : Nat)
  | cleanClose (dialed : Bool)
  | cleanEnd

namespace Registry

def new (hosts : Nat → HostConns) : Registry := ⟨[], fun _ => false, fun _ => [], hosts, none⟩

def modifyHost (s : Registry) (h : Nat) (f : HostConns → HostConns) : Registry :=
  { s with hosts := Function.update s.hosts h (f (s.hosts h)) }

def register (cleaned : Bool) (s : Registry) (x : CleanableItem) : Option Registry :=
  if s.flag x || !cleaned then some s
  else if s.closing = none then some { s with items := s.items ++ [x], flag := Function.update s.flag x true } else none

def decConnsCount (s : Registry) (h : Nat) (dialed : Bool) : Registry :=
  if dialed then s else s.modifyHost h fun v => { v with connsCount := v.connsCount - 1 }

def unregister (s : Registry) (x : CleanableItem) (stop : Bool) : Registry := if stop then { s with items := s.items.erase x } else s

variable (cleaned : CleanableItem → Bool)

def step (s : Registry) : RegistryAction → Option Registry
  | .createHostClient c key made configured =>
    if ((s.m c).lookup key).isSome then some s
    else match made with
      | none => some s
      | some h => (s.register (cleaned (.client c)) (.client c)).map fun s =>
          if configured then { s with m := Function.update s.m c ((key, h) :: s.m c) } else s
  | .addHostClient c key h => (s.register (cleaned (.client c)) (.client c)).map fun s =>
      { s with m := Function.update s.m c ((key, h) :: (s.m c).filter (·.1 ≠ key)) }
  | .acquireConn h connectionClose =>
    if (s.hosts h).conns = 0 then
      if (s.hosts h).connsCount < (s.hosts h).maxConns ∨ (s.hosts h).maxConns < 0 then
        (s.register (!connectionClose && cleaned (.host h)) (.host h)).map
          (·.modifyHost h fun v => { v with connsCount := v.connsCount + 1 })
      else some s
    else some (s.modifyHost h fun v => { v with conns := v.conns - 1 })
  | .releaseConn h => some (s.modifyHost h fun v => { v with conns := v.conns + 1 })
  | .closeConn h dialed => some (s.decConnsCount h dialed)
  | .pending h n => some (s.modifyHost h fun v => { v with pendingClientRequests := n })
  | .cleanClient c =>
    if .client c ∈ s.items ∧ s.closing = none then
      let m := (s.m c).filter fun e => !(s.hosts e.2).unused
      some ({ s with m := Function.update s.m c m, flag := Function.update s.flag (.client c) false }.unregister (.client c) m.isEmpty)
    else none
  | .cleanHost h expired =>
    if .host h ∈ s.items ∧ s.closing = none ∧ expired ≤ (s.hosts h).conns then
      if expired = 0 then some s
      else some { s.modifyHost h fun v => { v with conns := v.conns - expired } with closing := some (h, expired) }
    else none
  | .cleanClose dialed =>
    match s.closing with
    | some (h, n + 1) => some { s.decConnsCount h dialed with closing := some (h, n) }
    | _ => none
  | .cleanEnd =>
    match s.closing with
    | some (h, 0) =>
      if (s.hosts h).connsCount = 0 then
        some ({ s with flag := Function.update s.flag (.host h) false, closing := none }.unregister (.host h) true)
      else some { s with closing := none }
    | _ => none

def machine : Machine Registry RegistryAction := ⟨step cleaned⟩

/-! ## Registration -/

/-- At most once in the cleaner, and with the flag exactly then -/
def Exact (s : Registry) : Prop := ∀ x, s.items.count x = if s.flag x then 1 else 0

/-- What this call of `Clean` is for: a host client without connections, or a client without host clients -/
def Spent (s : Registry) : RegistryAction → CleanableItem → Prop
  | .cleanHost h _, x => x = .host h ∧ (s.hosts h).none
  | .cleanClient c, x => x = .client c ∧ s.m c = []
  | _, _ => False

def Right (s : Registry) (a : RegistryAction) : Prop :=
  ((machine cleaned).next s a).Exact ∧ ∀ x, s.Spent a x → x ∉ ((machine cleaned).next s a).items

/-- `Clean` finds no host client of the client in use, and a connection of the host client. -/
def Timely (s : Registry) : RegistryAction → Prop
  | .cleanClient c => ∀ e ∈ s.m c, (s.hosts e.2).unused
  | .cleanHost h _ => ¬ (s.hosts h).none
  | _ => True

variable {s s' : Registry} {x : CleanableItem} {cleaned : CleanableItem → Bool} {a : RegistryAction}

theorem Exact.not_mem (h : s.Exact) (hx : s.flag x = false) : x ∉ s.items := by
  have hcount := h x
  rwa [hx, if_neg (by simp), count_eq_zero] at hcount

theorem Exact.register (h : s.Exact) {b : Bool} {f : Registry → Registry} (hs : (s.register b x).map f = some s')
    (hf : ∀ t : Registry, t.Exact → (f t).Exact) : s'.Exact := by
  obtain ⟨t, ht, rfl⟩ := Option.map_eq_some_iff.mp hs
  refine hf t ?_
  unfold Registry.register at ht
  split_ifs at ht with hflag hidle <;> cases ht
  · exact h
  · intro y
    simp only [Tally.count_concat, h y, Tally.one, Function.update_apply]
    by_cases hxy : x = y
    · subst hxy
      simp_all
    · simp [hxy, Ne.symm hxy]

theorem Exact.unregister {t : Registry} (h : s.Exact) (hitems : t.items = s.items) (hflag : t.flag = Function.update s.flag x false) :
    (t.unregister x true).Exact := by
  intro y
  simp only [Registry.unregister, if_true, hitems, hflag, count_erase, h y, Function.update_apply, beq_iff_eq]
  by_cases hxy : x = y
  · subst hxy
    split <;> simp
  · simp [hxy, Ne.symm hxy]

theorem Exact.decConnsCount (h : s.Exact) (n : Nat) (dialed : Bool) : (s.decConnsCount n dialed).Exact := by
  unfold Registry.decConnsCount
  split <;> exact h

theorem Exact.cleanClient_iff (h : s.Exact) {c : Nat} (hs : s.step cleaned (.cleanClient c) = some s') :
    (s'.Exact ∧ ∀ x, s.Spent (.cleanClient c) x → x ∉ s'.items) ↔ ∀ e ∈ s.m c, (s.hosts e.2).unused := by
  simp only [step, Option.ite_none_right_eq_some, Option.some.injEq] at hs
  obtain ⟨⟨hmem, -⟩, rfl⟩ := hs
  generalize hm : (s.m c).filter (fun e => !(s.hosts e.2).unused) = m
  rcases m with _ | ⟨e, m⟩
  · have hexact := h.unregister (t := { s with
      m := Function.update s.m c [], flag := Function.update s.flag (.client c) false }) rfl rfl
    refine iff_of_true ⟨hexact, ?_⟩ (by simpa using hm)
    rintro x ⟨rfl, -⟩
    exact hexact.not_mem (Function.update_self _ _ _)
  · refine iff_of_false (fun hright => hright.1.not_mem (Function.update_self _ _ _) hmem) fun hunused => ?_
    have he : e ∈ (s.m c).filter fun e => !(s.hosts e.2).unused := by simp [hm]
    simp [hunused e (mem_of_mem_filter he)] at he

theorem Exact.cleanHost_iff (h : s.Exact) {n expired : Nat} (hs : s.step cleaned (.cleanHost n expired) = some s') :
    (s'.Exact ∧ ∀ x, s.Spent (.cleanHost n expired) x → x ∉ s'.items) ↔ ¬ (s.hosts n).none := by
  simp only [step] at hs
  split_ifs at hs with hcan hnone
  all_goals
    cases hs
    refine (and_iff_right ?_).trans ⟨fun hgone hnone => hgone _ ⟨rfl, hnone⟩ hcan.1, fun hconns x hx => absurd hx.2 hconns⟩
    exact h

theorem Exact.right_iff (h : s.Exact) (hs : s.step cleaned a = some s') : s.Right cleaned a ↔ s.Timely a := by
  rw [Right, Machine.next_of_step (M := machine cleaned) hs]
  cases a
  case cleanClient c => exact h.cleanClient_iff hs
  case cleanHost n expired => exact h.cleanHost_iff hs
  all_goals
    refine (and_iff_left (by simp [Spent])).trans (iff_of_true ?_ trivial)
    simp only [step] at hs
    (repeat' split at hs) <;> try cases hs
  all_goals first
    | exact h
    | exact h.register hs fun _ ht => ht
    | exact h.decConnsCount _ _
    | exact h.unregister rfl rfl

/-- Along the runs whose calls of `Clean` are timely, and along no others, every client and host client is in the cleaner
once while its flag is set and not otherwise, and leaves it with the call that finds nothing left of it. -/
theorem registration_exact_iff (cleaned : CleanableItem → Bool) (hosts : Nat → HostConns) (as : List RegistryAction) :
    (machine cleaned).Along (Right cleaned) (new hosts) as ↔ (machine cleaned).Along Timely (new hosts) as := by
  have hnew : (new hosts).Exact := fun x => rfl
  have hiff : ∀ s a s', Exact s → (machine cleaned).step s a = some s' → (Right cleaned s a ↔ Timely s a) := fun _ _ _ h => h.right_iff
  have hkeep : ∀ s a s', Exact s → Right cleaned s a → (machine cleaned).step s a = some s' → Exact s' :=
    fun s a s' _ hright hs => Machine.next_of_step hs ▸ hright.1
  constructor
  · exact fun h => (Machine.along_congr hkeep hiff as hnew h).mp h
  · exact fun h => (Machine.along_congr (fun s a s' hs ht hstep => hkeep s a s' hs ((hiff s a s' hs hstep).mpr ht) hstep)
      hiff as hnew h).mpr h

/-- A client that is cleaned while its host client has a connection is registered again with the next host, and a host
client whose connection was closed stays registered. -/
theorem registered_twice :
    ((machine fun _ => true).exec (new fun _ => ⟨1, 0, 0, 0⟩)
      [.createHostClient 0 0 (some 0) true, .acquireConn 0 false, .cleanClient 0, .createHostClient 0 1 (some 1) true]).items =
      [.client 0, .host 0, .client 0] ∧
    ((machine fun _ => true).exec (new fun _ => ⟨1, 0, 0, 0⟩)
      [.acquireConn 0 false, .closeConn 0 false, .cleanHost 0 0]).items = [.host 0] := by
  decide +kernel

end Registry

end Fasthttp
