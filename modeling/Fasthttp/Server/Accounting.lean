import Fasthttp.Server.PerIP
import Fasthttp.Server.Sweep

/-!
# Who closes the wrapper of a connection

The goroutines that call `Close`: the one that accepts, the worker, the handler of a hijacked connection and the sweep
of `Shutdown`.
-/

namespace Fasthttp

inductive ConnKey
  | raw (k : Nat)
  | wrapped (h : Nat)
  deriving DecidableEq, Repr

inductive ServePc
  | queued
  | loads
  | serves
  | closes
  | closing (i : Nat)
  | leaves
  | ended
  deriving DecidableEq, Repr

/-- The goroutine of a connection. `cs` says whose status it has loaded. -/
structure ServedConn where
  pc : ServePc
  cs : Option Nat
  hijacked : Bool
  deriving DecidableEq, Repr

inductive ConnStep
  | refuse
  | track
  | load
  | stamp
  | status (st : ConnState)
  | finish
  | hijack
  | close
  | closeHijacked
  | delete
  deriving DecidableEq, Repr

/-- `tracked` is the map of the server, `sweep` and `copied` are where `closeIdleConns` stands. -/
structure Serving where
  clock : Int
  books : Books
  loops : List ServedConn
  tracked : ConnKey → Option Nat
  stats : List ConnStatus
  sweep : SweepPc ConnKey
  copied : List (ConnKey × Nat)

inductive ServingAction
  | tick (d : Nat)
  | accept (addr : Option Bytes) (tls : Bool)
  | wrap (k : Nat) (a : WrapAction)
  | serve (k : Nat) (a : ConnStep)
  | sweep (m : SweepMove ConnKey)
  | sweepClose
  | sweepDelete
  deriving DecidableEq, Repr

def Books.key (s : Books) (k : Nat) : Option ConnKey :=
  match s.conns[k]?.map IPConn.pc with
  | some (.passed none) => some (.raw k)
  | some (.passed (some h)) => some (.wrapped h)
  | _ => none

def Books.nextCall (s : Books) (k : Nat) : Nat := (s.conns[k]?.map fun c => c.calls.length).getD 0

def Books.returned (s : Books) (k i : Nat) : Bool := s.conns[k]?.any fun c => c.calls.getD i .returned = .returned

namespace Serving

def new : Serving := ⟨0, .new, [], fun _ => none, [], .rests, []⟩

def setLoop (s : Serving) (k : Nat) (l : ServedConn) : Serving := { s with loops := s.loops.set k l }

def store (s : Serving) (l : ServedConn) (f : ConnStatus → ConnStatus) : Option Serving :=
  if l.pc = .serves then l.cs.map fun m => { s with stats := s.stats.modify m f } else none

def serve (max : Nat) (s : Serving) (k : Nat) (l : ServedConn) : ConnStep → Option Serving
  | .refuse =>
    if l.pc = .queued then (s.books.step max (.conn k .close)).map fun b =>
      { s.setLoop k { l with pc := .ended } with books := b } else none
  | .track =>
    if l.pc = .queued then
      (s.books.key k).map fun key => { s.setLoop k { l with pc := .loads } with
        stats := s.stats.set k ⟨.idle, s.clock + 5000000000⟩, tracked := Function.update s.tracked key (some k) }
    else none
  | .load => if l.pc = .loads then some (s.setLoop k { l with pc := .serves, cs := (s.books.key k).bind s.tracked }) else none
  | .stamp => s.store l fun c => { c with lastActive := s.clock }
  | .status st => s.store l fun c => { c with status := st }
  | .finish => if l.pc = .serves then some (s.setLoop k { l with pc := .closes }) else none
  | .hijack => if l.pc = .serves then some (s.setLoop k { l with pc := .leaves, hijacked := true }) else none
  | .close =>
    if l.pc = .closes then
      (s.books.step max (.conn k .close)).map fun b => { s.setLoop k { l with pc := .closing (s.books.nextCall k) } with books := b }
    else none
  | .closeHijacked => if l.hijacked then (s.books.step max (.conn k .close)).map fun b => { s with books := b } else none
  | .delete =>
    let done := match l.pc with
      | .closing i => s.books.returned k i
      | .leaves => true
      | _ => false
    if done then
      (s.books.key k).map fun key => { s.setLoop k { l with pc := .ended } with tracked := Function.update s.tracked key none }
    else none

def sweepStep (s : Serving) (m : SweepMove ConnKey) : Option Serving :=
  (closeIdleConns s.clock s.tracked s.stats s.sweep s.copied m).map fun (pc, copied) => { s with sweep := pc, copied := copied }

def run (max : Nat) (s : Serving) : ServingAction → Option Serving
  | .tick d => some { s with clock := s.clock + d }
  | .accept addr tls => (s.books.step max (.accept addr tls)).map fun b =>
      { s with books := b, loops := s.loops ++ [⟨.queued, none, false⟩], stats := s.stats ++ [⟨.idle, 0⟩] }
  | .wrap k a => if a = .close then none else (s.books.step max (.conn k a)).map fun b => { s with books := b }
  | .serve k a => s.loops[k]?.bind fun l => s.serve max k l a
  | .sweep m => s.sweepStep m
  | .sweepClose =>
    match s.sweep with
    | .expired now key k =>
      (s.books.step max (.conn k .close)).map fun b => { s with books := b, sweep := .deletes now key k (s.books.nextCall k) }
    | _ => none
  | .sweepDelete =>
    match s.sweep with
    | .deletes now key k i =>
      if s.books.returned k i then some { s with sweep := .ranges now, tracked := Function.update s.tracked key none } else none
    | _ => none

def step (max : Nat) (s : Serving) (a : ServingAction) : Option Serving := if s.books.panicked then none else s.run max a

def machine (max : Nat) : Machine Serving ServingAction := ⟨step max⟩

def book (s : Serving) : ServingAction → Option BookAction
  | .accept addr tls => some (.accept addr tls)
  | .wrap k a => some (.conn k a)
  | .serve k .refuse | .serve k .close | .serve k .closeHijacked => some (.conn k .close)
  | .sweepClose =>
    match s.sweep with
    | .expired _ _ k => some (.conn k .close)
    | _ => none
  | _ => none

/-- No goroutine calls `Close` of a wrapped connection that was called before. -/
def Once (s : Serving) (a : ServingAction) : Prop := ∀ b ∈ s.book a, s.books.First b

instance (s : Serving) (a : ServingAction) : Decidable (s.Once a) := inferInstanceAs (Decidable (∀ b ∈ s.book a, _))

/-- A second call of `Close` changes no counter. -/
def Quiet (max : Nat) (s : Serving) (a : ServingAction) : Prop :=
  ∀ k i, a = .wrap k (.call i) → i ≠ 0 → ∀ s', s.step max a = some s' → ∀ ip, s'.books.count ip = s.books.count ip

variable {max : Nat} {s s' : Serving} {a : ServingAction}

theorem store_books {l : ServedConn} {f : ConnStatus → ConnStatus} (h : s.store l f = some s') : s'.books = s.books := by
  simp only [store, Option.ite_none_right_eq_some, Option.map_eq_some_iff] at h
  obtain ⟨-, m, -, rfl⟩ := h
  rfl

theorem serve_books {k : Nat} {l : ServedConn} {a : ConnStep} (h : s.serve max k l a = some s') :
    match s.book (.serve k a) with
    | none => s'.books = s.books
    | some b => s.books.step max b = some s'.books := by
  cases a with
  | refuse | close | closeHijacked =>
    simp only [serve, Option.ite_none_right_eq_some, Option.map_eq_some_iff] at h
    obtain ⟨-, b, hb, rfl⟩ := h
    exact hb
  | track =>
    simp only [serve, Option.ite_none_right_eq_some, Option.map_eq_some_iff] at h
    obtain ⟨-, key, -, rfl⟩ := h
    rfl
  | load | finish | hijack =>
    simp only [serve, Option.ite_none_right_eq_some, Option.some.injEq] at h
    obtain ⟨-, rfl⟩ := h
    rfl
  | stamp | status => exact store_books h
  | delete =>
    simp only [serve, Option.ite_none_right_eq_some, Option.map_eq_some_iff] at h
    obtain ⟨-, key, -, rfl⟩ := h
    rfl

theorem sweepStep_books {m : SweepMove ConnKey} (h : s.sweepStep m = some s') : s'.books = s.books := by
  obtain ⟨o, -, rfl⟩ := Option.map_eq_some_iff.mp h
  rfl

theorem step_books (h : s.step max a = some s') :
    match s.book a with
    | none => s'.books = s.books
    | some b => s.books.step max b = some s'.books := by
  rw [step, Option.ite_none_left_eq_some] at h
  obtain ⟨-, h⟩ := h
  cases a with
  | tick d =>
    cases h
    rfl
  | accept addr tls =>
    rw [run, Option.map_eq_some_iff] at h
    obtain ⟨b, hb, rfl⟩ := h
    exact hb
  | wrap k a =>
    simp only [run, Option.ite_none_left_eq_some, Option.map_eq_some_iff] at h
    obtain ⟨-, b, hb, rfl⟩ := h
    exact hb
  | serve k a =>
    obtain ⟨l, -, hserve⟩ := Option.bind_eq_some_iff.mp h
    exact serve_books hserve
  | sweepClose =>
    simp only [run] at h
    split at h
    · rename_i hs
      obtain ⟨b, hb, rfl⟩ := Option.map_eq_some_iff.mp h
      simpa only [book, hs] using hb
    · cases h
  | sweep m => exact sweepStep_books h
  | sweepDelete =>
    simp only [run] at h
    split at h
    · rw [Option.ite_none_right_eq_some, Option.some.injEq] at h
      obtain ⟨-, rfl⟩ := h
      rfl
    · cases h

theorem inv_step (hi : s.books.Inv max) (honce : s.Once a) (h : s.step max a = some s') : s'.books.Inv max := by
  have hbooks := step_books h
  rcases hb : s.book a with _ | b
  · rw [hb] at hbooks
    exact hbooks ▸ hi
  · rw [hb] at hbooks
    exact hi.step (honce b hb) hbooks

theorem quiet_of_inv (hi : s.books.Inv max) (a : ServingAction) : s.Quiet max a := by
  rintro k i rfl hne s' hstep
  obtain ⟨c, hk, hcall⟩ := Option.bind_eq_some_iff.mp (step_books hstep : s.books.step max (.conn k (.call i)) = some s'.books)
  have hlen : c.calls.length ≤ 1 := by
    cases hi.sound k c hk <;> simp_all
  simp only [Books.stepConn] at hcall
  split at hcall
  · obtain ⟨p, hp, -⟩ := Option.bind_eq_some_iff.mp hcall
    have hlt := (List.getElem?_eq_some_iff.mp hp).1
    omega
  · cases hcall

theorem step_wrap {k : Nat} {a : WrapAction} {b : Books} (hquiet : s.books.panicked = false) (ha : a ≠ .close)
    (hb : s.books.step max (.conn k a) = some b) : s.step max (.wrap k a) = some { s with books := b } := by
  rw [step, hquiet, run, if_neg ha, hb]
  rfl

theorem close_of_not_once (honce : ¬s.Once a) (h : s.step max a = some s') :
    ∃ k c j, s.books.conns[k]? = some c ∧ c.pc = .passed (some j) ∧ c.calls ≠ [] ∧ s'.books = s.books.closeWrapper k c j := by
  simp only [Once, not_forall] at honce
  obtain ⟨b, hb, hfirst⟩ := honce
  have hbooks := step_books h
  rw [Option.mem_def.mp hb] at hbooks
  match b, hfirst, hbooks with
  | .conn k .close, hfirst, hbooks =>
    simp only [Books.First, not_forall] at hfirst
    obtain ⟨c, hk, hwrapped, hcalls⟩ := hfirst
    obtain ⟨j, hpc⟩ : ∃ j, c.pc = .passed (some j) := by
      unfold IPConn.wrapped at hwrapped
      split at hwrapped
      · exact ⟨_, ‹_›⟩
      · cases hwrapped
    refine ⟨k, c, j, hk, hpc, hcalls, ?_⟩
    simp only [Books.step, Option.mem_def.mp hk, Option.bind_some, Books.stepConn, hpc, Option.some.injEq] at hbooks
    exact hbooks.symm
  | .accept _ _, hfirst, _ => exact absurd trivial hfirst
  | .conn _ .register, hfirst, _ => exact absurd trivial hfirst
  | .conn _ .reject, hfirst, _ => exact absurd trivial hfirst
  | .conn _ (.acquire _), hfirst, _ => exact absurd trivial hfirst
  | .conn _ (.call _), hfirst, _ => exact absurd trivial hfirst

theorem second_call (hi : s.books.Inv max) (honce : ¬s.Once a) (h : s.step max a = some s') :
    s'.books.panicked = true ∨ ∃ bs, ¬(machine max).Along (Quiet max) s' bs := by
  obtain ⟨k, c, j, hk, hpc, hcalls, hbooks⟩ := close_of_not_once honce h
  rcases hquiet : s'.books.panicked with _ | _
  · right
    rw [hbooks] at hquiet
    obtain ⟨addr, b₁, b₂, b₃, h₁, hq₁, h₂, hq₂, h₃, ip, hne⟩ := hi.second_close hk hpc hcalls hquiet
    rw [← hbooks] at hquiet h₁
    obtain ⟨s₁, hs₁, rfl⟩ : ∃ s₁, s'.step max (.accept addr false) = some s₁ ∧ s₁.books = b₁ := by
      rw [step, hquiet, run, h₁]
      exact ⟨_, rfl, rfl⟩
    have hs₂ := step_wrap hq₁ (by decide) h₂
    have hs₃ := step_wrap (s := { s₁ with books := b₂ }) hq₂ (by simp) h₃
    refine ⟨[.accept addr false, .wrap s.books.conns.length .register, .wrap k (.call 1)], fun hall => hne ?_⟩
    have hall := ((Machine.along_cons_of_step (M := machine max) hs₁ _).mp hall).2
    have hall := ((Machine.along_cons_of_step (M := machine max) hs₂ _).mp hall).2
    have hquiet := ((Machine.along_cons_of_step (M := machine max) hs₃ _).mp hall).1
    exact hquiet k 1 rfl (by decide) _ hs₃ ip
  · exact .inl rfl

/-- In every run in which `Close` of each wrapped connection is called once, the accounts are right. -/
theorem perIP_accounted (max : Nat) (as : List ServingAction) (h : (machine max).Along Once new as) :
    ((machine max).Always (fun s => s.books.Accounted max) new as ∧ (machine max).Along (Quiet max) new as) ∧
    ∀ a, ((machine max).step ((machine max).exec new as) a).isSome → ¬((machine max).exec new as).Once a →
      ∃ bs, ¬((machine max).Always (fun s => s.books.Accounted max) new (as ++ a :: bs) ∧
        (machine max).Along (Quiet max) new (as ++ a :: bs)) := by
  have hstep : ∀ (s : Serving) (a : ServingAction) (s' : Serving), s.books.Inv max → s.Once a →
      (machine max).step s a = some s' → s'.books.Inv max :=
    fun _ _ _ => inv_step
  have hnew : new.books.Inv max := Books.inv_new max
  refine ⟨⟨Machine.always_along hstep (fun _ hi => hi.accounted) as hnew h,
    Machine.along_of_along hstep (fun _ a hi _ => quiet_of_inv hi a) as hnew h⟩,
    fun a hsome hbad => ?_⟩
  have hi := Machine.exec_along (P := fun s => s.books.Inv max) hstep as hnew h
  obtain ⟨s', hs'⟩ := Option.isSome_iff_exists.mp hsome
  rcases second_call hi hbad hs' with hpanic | ⟨bs, hbs⟩
  · refine ⟨[], fun hall => ?_⟩
    have hend := (Machine.always_exec hall.1).quiet
    rw [Machine.exec_append, Machine.exec, Machine.exec, Machine.next_of_step hs', hpanic] at hend
    cases hend
  · refine ⟨bs, fun hall => hbs ?_⟩
    exact ((Machine.along_cons_of_step hs' bs).mp ((Machine.along_append new as (a :: bs)).mp hall.2).2).2

def accepts (k : Nat) (addr : Bytes) (recycled : Option Nat) : List ServingAction :=
  [.accept (some addr) false, .wrap k .register, .wrap k (.acquire recycled)]

def serves (k : Nat) : List ServingAction := [.serve k .track, .serve k .load, .serve k .stamp, .serve k (.status .idle)]

def closes (k i : Nat) : List ServingAction := List.replicate 3 (.wrap k (.call i))

def sweeps (h : Nat) : List ServingAction := [.sweep .start, .sweep (.copy (.wrapped h)), .sweep .visit, .sweep .status, .sweep .time]

def threeConns : List ServingAction :=
  accepts 0 [10, 0, 0, 1] none ++ serves 0 ++ [.accept (some [10, 0, 0, 1]) false, .wrap 1 .register, .wrap 1 .reject,
    .serve 1 .refuse] ++
    [.serve 0 .finish, .serve 0 .close] ++ closes 0 0 ++ [.serve 0 .delete] ++ accepts 2 [10, 0, 0, 1] (some 0)

theorem perIP_accounted_three :
    (machine 1).Along Once new threeConns ∧ ((machine 1).exec new threeConns).books.count (ip2uint32 [10, 0, 0, 1]) = 1 ∧
      (machine 1).Always (fun s => s.books.Accounted 1) new threeConns := by
  have h : (machine 1).Along Once new threeConns := by decide +kernel
  exact ⟨h, by decide +kernel, (perIP_accounted 1 threeConns h).1.1⟩

/-- The sweep closes an idle connection, and so does its worker: the second call panics. -/
theorem perIP_second_close :
    let as := accepts 0 [10, 0, 0, 1] none ++ serves 0 ++ sweeps 0
    let bs := as ++ [.sweepClose] ++ closes 0 0 ++ [.sweepDelete, .serve 0 .finish, .serve 0 .close]
    let cs := as ++ [.sweepClose] ++ closes 0 0 ++ accepts 1 [10, 0, 0, 2] (some 0) ++ [.serve 0 .finish, .serve 0 .close]
    ((machine 1).exec new bs).books.panicked = true ∧
      ¬(machine 1).Always (fun s => s.books.Accounted 1) new bs ∧
    ((machine 1).exec new cs).books.count (ip2uint32 [10, 0, 0, 2]) = 1 ∧
      ((machine 1).exec new (cs ++ [.wrap 0 (.call 1)])).books.count (ip2uint32 [10, 0, 0, 2]) = 0 := by
  refine ⟨by decide +kernel, fun h => ?_, by decide +kernel, by decide +kernel⟩
  have hquiet := (Machine.always_exec h).quiet
  exact absurd hquiet (by decide +kernel)

end Serving

end Fasthttp
