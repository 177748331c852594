import Fasthttp.Lib.Machine

/-!
# The idle sweep of `Shutdown`

`closeIdleConns` beside any number of `serveConn` loops.
-/

namespace Fasthttp

open List

inductive ConnState
  | activeR
  | activeW
  | idle
  deriving DecidableEq, Repr

structure ConnStatus where
  status : ConnState
  lastActive : Int
  deriving DecidableEq, Repr

inductive LoopPc
  | starts
  | loads
  | waits
  | stamps
  | activates
  | reads
  | stampsW
  | activatesW
  | writes
  | idles
  | refuses
  | closes
  | deletes
  | ended
  deriving DecidableEq, Repr

def LoopPc.inLoop : LoopPc → Bool
  | starts | loads | refuses | closes | deletes | ended => false
  | _ => true

structure ConnLoop where
  handle : Nat
  pc : LoopPc
  cs : Option Nat
  got : Nat
  answered : Nat
  hijacked : Bool
  deriving DecidableEq, Repr

/-- The first byte of a request was received and its response is not written. -/
def ConnLoop.inRequest (l : ConnLoop) : Bool := l.answered < l.got

inductive LoopAction
  | receive
  | peek
  | stamp
  | activate
  | handle
  | stampW
  | activateW
  | respond (keep : Bool)
  | idle
  | refuse
  | respondErr
  | fail
  | hijack
  deriving DecidableEq, Repr

def ConnLoop.answer (l : ConnLoop) : Nat := min (l.answered + 1) l.got

def ConnLoop.next (l : ConnLoop) : LoopAction → Option ConnLoop
  | .receive => if l.pc = .waits ∨ l.pc = .reads then some { l with got := l.got + 1 } else none
  | .peek => if l.pc = .waits ∧ l.inRequest then some { l with pc := .stamps } else none
  | .stamp => if l.pc = .stamps then some { l with pc := .activates } else none
  | .activate => if l.pc = .activates then some { l with pc := .reads } else none
  | .handle => if l.pc = .reads ∧ l.inRequest then some { l with pc := .stampsW } else none
  | .stampW => if l.pc = .stampsW then some { l with pc := .activatesW } else none
  | .activateW => if l.pc = .activatesW then some { l with pc := .writes } else none
  | .respond keep => if l.pc = .writes then some { l with pc := if keep then .idles else .closes, answered := l.answer } else none
  | .idle => if l.pc = .idles then some { l with pc := .waits } else none
  | .refuse => if l.pc = .reads then some { l with pc := .refuses } else none
  | .respondErr => if l.pc = .refuses then some { l with pc := .closes, answered := l.answer } else none
  | .fail => if l.pc.inLoop ∨ l.pc = .refuses then some { l with pc := .closes } else none
  -- after the handler, without a response, and after the response
  | .hijack =>
    if l.pc = .stampsW ∨ l.pc = .writes ∨ l.pc = .idles then some { l with pc := .deletes, hijacked := true } else none

def LoopAction.stores (clock : Int) : LoopAction → Option (ConnStatus → ConnStatus)
  | stamp | stampW => some fun c => { c with lastActive := clock }
  | activate => some fun c => { c with status := .activeR }
  | activateW => some fun c => { c with status := .activeW }
  | idle => some fun c => { c with status := .idle }
  | _ => none

/-- `K` are the keys of the map that is swept. -/
inductive SweepPc (K : Type)
  | rests
  | ranges (now : Int)
  | visits (now : Int) (key : K) (n : Nat)
  | sawIdle (now : Int) (key : K) (n : Nat)
  /-- the time was not after `now` -/
  | expired (now : Int) (key : K) (n : Nat)
  /-- behind the call of `Close` with this number -/
  | deletes (now : Int) (key : K) (n call : Nat)
  deriving DecidableEq, Repr

inductive SweepMove (K : Type)
  | start
  | copy (key : K)
  | visit
  | status
  | time
  | leave
  deriving DecidableEq, Repr

/-- `closeIdleConns` up to the `Close` of a connection. `copied` are the entries that `Range` has copied and not visited. -/
def closeIdleConns {K : Type} [DecidableEq K] (clock : Int) (conns : K → Option Nat) (stats : List ConnStatus) (pc : SweepPc K)
    (copied : List (K × Nat)) : SweepMove K → Option (SweepPc K × List (K × Nat))
  | .start => if pc = .rests then some (.ranges clock, copied) else none
  | .copy key =>
    match pc, conns key with
    | .ranges _, some n => if key ∈ copied.map Prod.fst then none else some (pc, copied ++ [(key, n)])
    | _, _ => none
  | .visit =>
    match pc, copied with
    | .ranges now, (key, n) :: rest => some (.visits now key n, rest)
    | _, _ => none
  | .status =>
    match pc with
    | .visits now key n =>
      if stats[n]?.any (·.status = .idle) then some (.sawIdle now key n, copied) else some (.ranges now, copied)
    | _ => none
  | .time =>
    match pc with
    | .sawIdle now key n =>
      if stats[n]?.any (0 ≤ now - ·.lastActive) then some (.expired now key n, copied) else some (.ranges now, copied)
    | _ => none
  | .leave =>
    match pc, copied with
    | .ranges _, [] => some (.rests, [])
    | _, _ => none

structure SweepConfig where
  perIP : Bool
  reduceMemoryUsage : Bool
  deriving DecidableEq, Repr

/-- A handle stands for a connection, or it is closed and in its pool. -/
structure Sweeping where
  clock : Int
  handles : List (Option Nat)
  conns : Nat → Option Nat
  stats : List ConnStatus
  loops : List ConnLoop
  sweep : SweepPc Nat
  copied : List (Nat × Nat)
  closed : List Nat

inductive ServeAction
  | track
  | load
  | loop (a : LoopAction)
  | close
  | closeHijacked
  | delete
  deriving DecidableEq, Repr

inductive SweepAction
  | tick (d : Nat)
  | accept (recycled : Option Nat)
  | serve (n : Nat) (a : ServeAction)
  | sweep (m : SweepMove Nat)
  | sweepClose
  | sweepDelete
  deriving DecidableEq, Repr

namespace Sweeping

def new : Sweeping := ⟨0, [], fun _ => none, [], [], .rests, [], []⟩

def conn (s : Sweeping) (h : Nat) : Option Nat := s.handles[h]?.join

def setLoop (s : Sweeping) (n : Nat) (l : ConnLoop) : Sweeping := { s with loops := s.loops.set n l }

def addLoop (s : Sweeping) (h : Nat) : Sweeping :=
  { s with loops := s.loops ++ [⟨h, .starts, none, 0, 0, false⟩], stats := s.stats ++ [⟨.idle, 0⟩] }

def store (s : Sweeping) (cs : Option Nat) (f : Option (ConnStatus → ConnStatus)) : Option Sweeping :=
  match f, cs with
  | none, _ => some s
  | some f, some m => some { s with stats := s.stats.modify m f }
  | some _, none => none

def closeHandle (cfg : SweepConfig) (s : Sweeping) (h : Nat) : Option Sweeping :=
  match s.conn h with
  | some _ => some (if cfg.perIP then { s with handles := s.handles.set h none } else s)
  | none => none

def serve (cfg : SweepConfig) (s : Sweeping) (n : Nat) (l : ConnLoop) : ServeAction → Option Sweeping
  | .track =>
    if l.pc = .starts then
      some { s.setLoop n { l with pc := .loads } with
        stats := s.stats.set n ⟨.idle, s.clock + 5000000000⟩, conns := Function.update s.conns l.handle (some n) }
    else none
  | .load =>
    if l.pc = .loads then
      some (s.setLoop n { l with pc := if cfg.reduceMemoryUsage then .waits else .stamps, cs := s.conns l.handle })
    else none
  | .loop a => (l.next a).bind fun l' => (s.setLoop n l').store l.cs (a.stores s.clock)
  | .close =>
    -- a connection that no worker takes is closed by the goroutine that accepts
    if l.pc = .starts ∨ l.pc = .closes then
      (s.closeHandle cfg l.handle).map fun s' => s'.setLoop n { l with pc := if l.pc = .starts then .ended else .deletes }
    else none
  | .closeHijacked => if l.hijacked then s.closeHandle cfg l.handle else none
  | .delete =>
    if l.pc = .deletes then some { s.setLoop n { l with pc := .ended } with conns := Function.update s.conns l.handle none } else none

def sweepStep (s : Sweeping) (m : SweepMove Nat) : Option Sweeping :=
  (closeIdleConns s.clock s.conns s.stats s.sweep s.copied m).map fun (pc, copied) => { s with sweep := pc, copied := copied }

def step (cfg : SweepConfig) (s : Sweeping) : SweepAction → Option Sweeping
  | .tick d => some { s with clock := s.clock + d }
  | .accept none => some { s.addLoop s.handles.length with handles := s.handles ++ [some s.loops.length] }
  | .accept (some h) =>
    if s.handles[h]? = some none then some { s.addLoop h with handles := s.handles.set h (some s.loops.length) } else none
  | .serve n a => s.loops[n]?.bind fun l => s.serve cfg n l a
  | .sweep m => s.sweepStep m
  | .sweepClose =>
    match s.sweep with
    | .expired now h n =>
      (s.closeHandle cfg h).map fun s' => { s' with
        sweep := .deletes now h n s.closed.length, closed := s.closed ++ (s.conn h).toList }
    | _ => none
  | .sweepDelete =>
    match s.sweep with
    | .deletes now h _ _ => some { s with sweep := .ranges now, conns := Function.update s.conns h none }
    | _ => none

def machine (cfg : SweepConfig) : Machine Sweeping SweepAction := ⟨step cfg⟩

end Sweeping

/-! ## What the sweep may close, and when -/

def SweepPc.doomed {K : Type} : SweepPc K → Option (K × Nat)
  | expired _ h n => some (h, n)
  | _ => none

def ServeAction.closes : ServeAction → Bool
  | close | closeHijacked => true
  | _ => false

namespace Sweeping

variable {a : ServeAction} {h k m n : Nat} {l : ConnLoop}

def inRequest (s : Sweeping) (n : Nat) : Bool := s.loops[n]?.any ConnLoop.inRequest

/-- The sweep closes no connection but the one it has found idle, and that outside its requests. -/
def Harmless (s : Sweeping) (a : SweepAction) : Prop :=
  a = .sweepClose → ∀ e ∈ s.sweep.doomed, ∀ m ∈ s.conn e.1, m = e.2 ∧ s.inRequest m = false

def Spare (s : Sweeping) (e : Nat × Nat) : Prop := s.conn e.1 = some e.2 ∧ s.inRequest e.2 = false

def expiring (s : Sweeping) : Option (Nat × Nat) :=
  match s.sweep with
  | .sawIdle now h n => if s.stats[n]?.any (0 ≤ now - ·.lastActive) then some (h, n) else none
  | _ => none

/-- The last check of the sweep is up to date: the handle is still the connection's,
and no first byte has come since it was stored as idle. -/
def Undisturbed (cfg : SweepConfig) (s : Sweeping) : SweepAction → Prop
  | .sweep .time => ∀ e ∈ s.expiring, s.Spare e
  | .serve n a =>
    ∀ e ∈ s.sweep.doomed, (a = .loop .receive → n ≠ e.2) ∧
      (cfg.perIP = true → a.closes = true → ∀ l ∈ s.loops[n]?, l.handle ≠ e.1)
  | _ => True

instance (s : Sweeping) (e : Nat × Nat) : Decidable (s.Spare e) := inferInstanceAs (Decidable (_ ∧ _))

instance (s : Sweeping) (a : SweepAction) : Decidable (s.Harmless a) :=
  inferInstanceAs (Decidable (_ → ∀ e ∈ s.sweep.doomed, ∀ m ∈ s.conn e.1, _))

instance (cfg : SweepConfig) (s : Sweeping) : (a : SweepAction) → Decidable (s.Undisturbed cfg a)
  | .sweep .time => inferInstanceAs (Decidable (∀ e ∈ s.expiring, _))
  | .serve n _ => inferInstanceAs (Decidable (∀ e ∈ s.sweep.doomed, _ ∧ (_ → _ → ∀ l ∈ s.loops[n]?, _)))
  | .tick _ | .accept _ | .sweep .start | .sweep (.copy _) | .sweep .visit | .sweep .status | .sweep .leave | .sweepClose |
      .sweepDelete =>
      .isTrue trivial

variable {cfg : SweepConfig} {s s' : Sweeping}

/-! ## The steps of the goroutines -/

structure Follows (l l' : ConnLoop) (a : ServeAction) : Prop where
  handle : l'.handle = l.handle
  answered : l.answered ≤ l.got → l'.answered ≤ l'.got
  idle : a ≠ .loop .receive → l.inRequest = false → l'.inRequest = false

theorem follows_next {l' : ConnLoop} {a : LoopAction} (h : l.next a = some l') : Follows l l' (.loop a) := by
  cases a with
  | receive =>
    simp only [ConnLoop.next, Option.ite_none_right_eq_some, Option.some.injEq] at h
    obtain ⟨-, rfl⟩ := h
    exact ⟨rfl, fun hle => Nat.le_succ_of_le hle, fun ha => absurd rfl ha⟩
  | respond keep | respondErr =>
    simp only [ConnLoop.next, Option.ite_none_right_eq_some, Option.some.injEq] at h
    obtain ⟨-, rfl⟩ := h
    refine ⟨rfl, fun _ => Nat.min_le_right _ _, fun _ hl => ?_⟩
    have hle : ¬ l.answered < l.got := of_decide_eq_false hl
    exact decide_eq_false (by simp only [ConnLoop.answer]; omega)
  | _ =>
    simp only [ConnLoop.next, Option.ite_none_right_eq_some, Option.some.injEq] at h
    obtain ⟨-, rfl⟩ := h
    exact ⟨rfl, id, fun _ => id⟩

structure Serves (cfg : SweepConfig) (s : Sweeping) (n : Nat) (l : ConnLoop) (a : ServeAction) (s' : Sweeping) : Prop where
  sweep : s'.sweep = s.sweep
  copied : s'.copied = s.copied
  unwraps : cfg.perIP = true → a.closes = true → s'.handles = s.handles.set l.handle none
  handles : ¬ (cfg.perIP = true ∧ a.closes = true) → s'.handles = s.handles
  conns : ∀ h m, s'.conns h = some m → s.conns h = some m ∨ h = l.handle ∧ m = n
  loops : ∃ l', s'.loops = s.loops.set n l' ∧ Follows l l' a

theorem store_frame {cs : Option Nat} {f : Option (ConnStatus → ConnStatus)} (h : s.store cs f = some s') :
    s' = { s with stats := s'.stats } := by
  unfold store at h
  split at h
  all_goals cases h
  all_goals rfl

theorem closeHandle_eq (hc : s.closeHandle cfg h = some s') :
    cfg.perIP = true ∧ s' = { s with handles := s.handles.set h none } ∨ ¬ cfg.perIP = true ∧ s' = s := by
  unfold closeHandle at hc
  split at hc <;> cases hc
  by_cases hp : cfg.perIP = true
  · exact .inl ⟨hp, if_pos hp⟩
  · exact .inr ⟨hp, if_neg hp⟩

theorem eq_some_of_update {conns : Nat → Option Nat} {o : Option Nat} (hk : Function.update conns k o h = some m) :
    conns h = some m ∨ h = k ∧ o = some m := by
  rw [Function.update_apply] at hk
  split at hk
  · exact .inr ⟨‹_›, hk⟩
  · exact .inl hk

theorem eq_some_of_update_none {conns : Nat → Option Nat} (hk : Function.update conns k none h = some m) :
    conns h = some m :=
  (eq_some_of_update hk).resolve_right fun ⟨_, hm⟩ => nomatch hm

theorem serve_serves (hl : s.loops[n]? = some l) (h : s.serve cfg n l a = some s') :
    Serves cfg s n l a s' := by
  have hself : s.loops = s.loops.set n l := by
    obtain ⟨hlt, rfl⟩ := List.getElem?_eq_some_iff.mp hl
    exact (set_getElem_self hlt).symm
  cases a with
  | track =>
    simp only [serve, Option.ite_none_right_eq_some, Option.some.injEq] at h
    obtain ⟨-, rfl⟩ := h
    refine ⟨rfl, rfl, fun _ ha => (nomatch ha), fun _ => rfl, fun k m hk => ?_, _, rfl, rfl, id, fun _ => id⟩
    exact (eq_some_of_update hk).imp_right fun ⟨hkey, hm⟩ => ⟨hkey, (Option.some.inj hm).symm⟩
  | load =>
    simp only [serve, Option.ite_none_right_eq_some, Option.some.injEq] at h
    obtain ⟨-, rfl⟩ := h
    exact ⟨rfl, rfl, fun _ ha => (nomatch ha), fun _ => rfl, fun _ _ => .inl, _, rfl, rfl, id, fun _ => id⟩
  | loop a =>
    simp only [serve, Option.bind_eq_some_iff] at h
    obtain ⟨l', hnext, hstore⟩ := h
    rw [store_frame hstore]
    exact ⟨rfl, rfl, fun _ ha => (nomatch ha), fun _ => rfl, fun _ _ => .inl, l', rfl, follows_next hnext⟩
  | close =>
    simp only [serve, Option.ite_none_right_eq_some, Option.map_eq_some_iff] at h
    obtain ⟨-, s₁, hclose, rfl⟩ := h
    rcases closeHandle_eq hclose with ⟨hp, rfl⟩ | ⟨hp, rfl⟩
    · exact ⟨rfl, rfl, fun _ _ => rfl, fun hn => absurd ⟨hp, rfl⟩ hn, fun _ _ => .inl, _, rfl, rfl, id, fun _ => id⟩
    · exact ⟨rfl, rfl, fun hip => absurd hip hp, fun _ => rfl, fun _ _ => .inl, _, rfl, rfl, id, fun _ => id⟩
  | closeHijacked =>
    simp only [serve, Option.ite_none_right_eq_some] at h
    rcases closeHandle_eq h.2 with ⟨hp, rfl⟩ | ⟨hp, rfl⟩
    · exact ⟨rfl, rfl, fun _ _ => rfl, fun hn => absurd ⟨hp, rfl⟩ hn, fun _ _ => .inl, l, hself, rfl, id, fun _ => id⟩
    · exact ⟨rfl, rfl, fun hip => absurd hip hp, fun _ => rfl, fun _ _ => .inl, l, hself, rfl, id, fun _ => id⟩
  | delete =>
    simp only [serve, Option.ite_none_right_eq_some, Option.some.injEq] at h
    obtain ⟨-, rfl⟩ := h
    exact ⟨rfl, rfl, fun _ ha => (nomatch ha), fun _ => rfl, fun k m hk => .inl (eq_some_of_update_none hk), _, rfl, rfl,
      id, fun _ => id⟩

theorem Serves.length_handles (h : Serves cfg s n l a s') :
    s'.handles.length = s.handles.length := by
  by_cases hc : cfg.perIP = true ∧ a.closes = true
  · rw [h.unwraps hc.1 hc.2, length_set]
  · rw [h.handles hc]

theorem Serves.length_loops (h : Serves cfg s n l a s') : s'.loops.length = s.loops.length := by
  obtain ⟨l', heq, -⟩ := h.loops
  rw [heq, length_set]

theorem inRequest_set {l' : ConnLoop} (hl : s.loops[n]? = some l) (hloops : s'.loops = s.loops.set n l')
    (hkeep : n = m → l.inRequest = false → l'.inRequest = false) (h : s.inRequest m = false) : s'.inRequest m = false := by
  unfold inRequest at h ⊢
  rw [hloops, getElem?_set]
  by_cases hn : n = m
  · subst hn
    have hlt : n < s.loops.length := (List.getElem?_eq_some_iff.mp hl).1
    rw [hl] at h
    simpa [hlt] using hkeep rfl h
  · rwa [if_neg hn]

theorem conn_set {o : Option Nat} (hk : h ≠ k) (hh : s'.handles = s.handles.set h o) : s'.conn k = s.conn k := by
  rw [conn, conn, hh, getElem?_set_ne hk]

theorem inRequest_addLoop (hm : s.inRequest m = false) : (s.addLoop h).inRequest m = false := by
  unfold inRequest addLoop at *
  rw [getElem?_append]
  split
  · exact hm
  · rw [getElem?_singleton]
    split <;> rfl

def Known (s : Sweeping) (e : Nat × Nat) : Prop := e.1 < s.handles.length ∧ e.2 < s.loops.length

def holds (s : Sweeping) : List (Nat × Nat) :=
  match s.sweep with
  | .visits _ h n | .sawIdle _ h n | .expired _ h n => (h, n) :: s.copied
  | _ => s.copied

structure Inv (s : Sweeping) : Prop where
  loops : ∀ l ∈ s.loops, l.handle < s.handles.length ∧ l.answered ≤ l.got
  conns : ∀ h n, s.conns h = some n → s.Known (h, n)
  holds : ∀ e ∈ s.holds, s.Known e
  doomed : ∀ e ∈ s.sweep.doomed, s.Spare e

variable {e : Nat × Nat}

namespace Inv

theorem serve {n : Nat} {l : ConnLoop} {a : ServeAction} (hi : Inv s) (hl : s.loops[n]? = some l)
    (hgood : s.Undisturbed cfg (.serve n a)) (h : Serves cfg s n l a s') : Inv s' := by
  have hmem : l ∈ s.loops := mem_of_getElem? hl
  have hknown : ∀ e, s.Known e → s'.Known e := fun e he => by rwa [Known, h.length_handles, h.length_loops]
  obtain ⟨l', hloops, hfollows⟩ := h.loops
  refine ⟨fun x hx => ?_, fun k m hk => hknown _ ?_, fun e he => hknown e (hi.holds e ?_), fun e he => ?_⟩
  · rw [h.length_handles]
    rw [hloops] at hx
    rcases mem_or_eq_of_mem_set hx with hx | rfl
    · exact hi.loops x hx
    · exact ⟨hfollows.handle ▸ (hi.loops l hmem).1, hfollows.answered (hi.loops l hmem).2⟩
  · rcases h.conns k m hk with hk | ⟨rfl, rfl⟩
    · exact hi.conns k m hk
    · exact ⟨(hi.loops l hmem).1, (List.getElem?_eq_some_iff.mp hl).1⟩
  · rwa [Sweeping.holds, h.sweep, h.copied] at he
  · rw [h.sweep] at he
    obtain ⟨hreceive, hclose⟩ := hgood e he
    obtain ⟨hconn, hspare⟩ := hi.doomed e he
    constructor
    · by_cases hc : cfg.perIP = true ∧ a.closes = true
      · rwa [conn_set (hclose hc.1 hc.2 l hl) (h.unwraps hc.1 hc.2)]
      · rwa [conn, h.handles hc]
    · exact inRequest_set hl hloops (fun hn => hfollows.idle fun ha => hreceive ha hn) hspare

theorem move (hi : Inv s) (hhandles : s.handles.length ≤ s'.handles.length) (hlen : s.loops.length ≤ s'.loops.length)
    (hloops : ∀ l ∈ s'.loops, l ∈ s.loops ∨ l.handle < s'.handles.length ∧ l.answered ≤ l.got)
    (hconns : ∀ h n, s'.conns h = some n → s.conns h = some n) (hholds : ∀ e ∈ s'.holds, s.Known e)
    (hdoomed : ∀ e ∈ s'.sweep.doomed, s'.Spare e) : Inv s' := by
  have hknown : ∀ e, s.Known e → s'.Known e := fun e he => ⟨Nat.lt_of_lt_of_le he.1 hhandles, Nat.lt_of_lt_of_le he.2 hlen⟩
  refine ⟨fun l hl => ?_, fun h n hk => hknown _ (hi.conns h n (hconns h n hk)), fun e he => hknown e (hholds e he), hdoomed⟩
  rcases hloops l hl with hold | hnew
  · exact ⟨Nat.lt_of_lt_of_le (hi.loops l hold).1 hhandles, (hi.loops l hold).2⟩
  · exact hnew

theorem accept {r : Option Nat} (hi : Inv s) (h : s.step cfg (.accept r) = some s') : Inv s' := by
  cases r with
  | none =>
    cases h
    refine hi.move (by simp) (by simp [addLoop]) (forall_mem_append.mpr ⟨fun _ => .inl, by simp⟩)
      (fun _ _ => id) hi.holds fun e he => ?_
    obtain ⟨hconn, hspare⟩ := hi.doomed e he
    refine ⟨?_, inRequest_addLoop hspare⟩
    have hget := Option.join_eq_some_iff.mp hconn
    have hlt := (List.getElem?_eq_some_iff.mp hget).1
    change (s.handles ++ _)[e.1]?.join = some e.2
    rw [getElem?_append_left hlt, hget, Option.join_some]
  | some k =>
    simp only [step, Option.ite_none_right_eq_some, Option.some.injEq] at h
    obtain ⟨hnone, rfl⟩ := h
    have hlt := (List.getElem?_eq_some_iff.mp hnone).1
    refine hi.move (by simp) (by simp [addLoop]) (forall_mem_append.mpr ⟨fun _ => .inl, by simp [hlt]⟩) (fun _ _ => id) hi.holds
      fun e he => ?_
    obtain ⟨hconn, hspare⟩ := hi.doomed e he
    have hne : k ≠ e.1 := by
      rintro rfl
      rw [conn, hnone] at hconn
      cases hconn
    exact ⟨(conn_set hne rfl).trans hconn, inRequest_addLoop hspare⟩

theorem known_of_copied (hi : Inv s) (he : e ∈ s.copied) : s.Known e := by
  refine hi.holds e ?_
  unfold Sweeping.holds
  split
  · exact mem_cons_of_mem _ he
  · exact mem_cons_of_mem _ he
  · exact mem_cons_of_mem _ he
  · exact he

theorem sweep (hi : Inv s) (hhandles : s'.handles.length = s.handles.length) (hloops : s'.loops = s.loops)
    (hconns : ∀ h n, s'.conns h = some n → s.conns h = some n) (hholds : ∀ e ∈ s'.holds, s.Known e)
    (hdoomed : s'.sweep.doomed = none) :
    Inv s' :=
  hi.move (Nat.le_of_eq hhandles.symm) (Nat.le_of_eq (congrArg List.length hloops.symm)) (fun l hl => .inl (hloops ▸ hl)) hconns hholds
    fun e he => by rw [hdoomed] at he; cases he

theorem step (s : Sweeping) (a : SweepAction) (s' : Sweeping) (hi : Inv s) (hgood : s.Undisturbed cfg a)
    (h : (machine cfg).step s a = some s') : Inv s' := by
  have hholds := hi.holds
  cases a
  case tick d =>
    cases h
    exact { hi with }
  case accept r => exact hi.accept h
  case serve n a =>
    obtain ⟨l, hl, h⟩ := Option.bind_eq_some_iff.mp h
    exact hi.serve hl hgood (serve_serves hl h)
  case' sweep m => cases m
  all_goals
    simp only [machine, Sweeping.step, sweepStep, closeIdleConns] at h
    (repeat' split at h) <;> try cases h
  · exact hi.sweep rfl rfl (fun _ _ => id) (fun e he => hi.known_of_copied he) rfl
  · rename_i hs hconns _
    refine hi.sweep rfl rfl (fun _ _ => id) (fun e he => ?_) (by rw [hs]; rfl)
    simp only [Sweeping.holds, hs, mem_append, mem_singleton] at he
    rcases he with hold | rfl
    · exact hi.known_of_copied hold
    · exact hi.conns _ _ hconns
  · rename_i hcopied
    exact hi.sweep rfl rfl (fun _ _ => id) (fun e he => hi.known_of_copied (hcopied ▸ he)) rfl
  · rename_i hs _
    simp only [Sweeping.holds, hs] at hholds
    exact hi.sweep rfl rfl (fun _ _ => id) hholds rfl
  · exact hi.sweep rfl rfl (fun _ _ => id) (fun e he => hi.known_of_copied he) rfl
  · rename_i hs hexpired
    simp only [Sweeping.holds, hs] at hholds
    refine hi.move (Nat.le_refl _) (Nat.le_refl _) (fun _ => .inl) (fun _ _ => id) hholds ?_
    rintro e ⟨⟩
    exact hgood _ (by simp only [expiring, hs]; exact if_pos hexpired)
  · exact hi.sweep rfl rfl (fun _ _ => id) (fun e he => hi.known_of_copied he) rfl
  · exact hi.sweep rfl rfl (fun _ _ => id) (fun e he => absurd he not_mem_nil) rfl
  · obtain ⟨s₁, hclose, rfl⟩ := Option.map_eq_some_iff.mp h
    rcases closeHandle_eq hclose with ⟨-, rfl⟩ | ⟨-, rfl⟩
    · exact hi.sweep length_set rfl (fun _ _ => id) (fun e he => hi.known_of_copied he) rfl
    · exact hi.sweep rfl rfl (fun _ _ => id) (fun e he => hi.known_of_copied he) rfl
  · exact hi.sweep rfl rfl (fun _ _ => eq_some_of_update_none) (fun e he => hi.known_of_copied he) rfl

theorem harmless (hi : Inv s) (a : SweepAction) : s.Harmless a := by
  rintro - e he m hm
  obtain ⟨hconn, hspare⟩ := hi.doomed e he
  obtain rfl : m = e.2 := Option.some.inj (hm.symm.trans hconn)
  exact ⟨rfl, hspare⟩

end Inv

theorem inv_new : Inv new := ⟨fun _ hl => (nomatch hl), fun _ _ hk => (nomatch hk), fun _ he => (nomatch he), fun _ he => (nomatch he)⟩

theorem expired_of_doomed {p : SweepPc Nat} (h : p.doomed = some e) : ∃ now, p = .expired now e.1 e.2 := by
  cases p with
  | expired now k n =>
    cases h
    exact ⟨now, rfl⟩
  | _ => cases h

theorem close_harms (hs : s.sweep.doomed = some e) (hm : s.conn e.1 = some m) (hspare : ¬ s.Spare e) :
    ¬ (machine cfg).Along Harmless s [.sweepClose] := by
  intro h
  have hsome : ((machine cfg).step s .sweepClose).isSome := by
    obtain ⟨now, hexpired⟩ := expired_of_doomed hs
    simp [machine, step, hexpired, closeHandle, hm]
  obtain ⟨rfl, hrequest⟩ := h.1 hsome rfl e hs m hm
  exact hspare ⟨hm, hrequest⟩

theorem accept_harms (hs : s.sweep.doomed = some e) (hpool : s.handles[e.1]? = some none) (hn : e.2 < s.loops.length) :
    ¬ (machine cfg).Along Harmless s [.accept (some e.1), .sweepClose] := by
  have hlt := (List.getElem?_eq_some_iff.mp hpool).1
  obtain ⟨s₁, hstep, hsweep, hconn⟩ : ∃ s₁, (machine cfg).step s (.accept (some e.1)) = some s₁ ∧ s₁.sweep = s.sweep ∧
      s₁.conn e.1 = some s.loops.length :=
    ⟨_, if_pos hpool, rfl, by simp [conn, hlt]⟩
  rw [Machine.along_cons_of_step hstep]
  intro h
  refine close_harms (hsweep ▸ hs) hconn (fun hspare => ?_) h.2
  have heq : s.loops.length = e.2 := Option.some.inj (hconn.symm.trans hspare.1)
  omega

theorem pooled_of_conn (hk : k < s.handles.length) (h : s.conn k = none) : s.handles[k]? = some none := by
  rw [conn, getElem?_eq_getElem hk, Option.join_some] at h
  rw [getElem?_eq_getElem hk, h]

theorem doomed_harms (hs : s.sweep.doomed = some e) (hknown : s.Known e) (hspare : ¬ s.Spare e) :
    ∃ bs, ¬ (machine cfg).Along Harmless s bs := by
  rcases hm : s.conn e.1 with _ | m
  · exact ⟨_, accept_harms hs (pooled_of_conn hknown.1 hm) hknown.2⟩
  · exact ⟨_, close_harms hs hm hspare⟩

theorem inRequest_receive (hl : s.loops[n]? = some l) (hle : l.answered ≤ l.got)
    (h : s.serve cfg n l (.loop .receive) = some s') : s'.inRequest n = true := by
  simp only [serve, Option.bind_eq_some_iff, ConnLoop.next, Option.ite_none_right_eq_some, Option.some.injEq] at h
  obtain ⟨-, ⟨-, rfl⟩, hstore⟩ := h
  have hlt := (List.getElem?_eq_some_iff.mp hl).1
  rw [store_frame hstore]
  simp only [inRequest, setLoop, getElem?_set_self hlt]
  exact decide_eq_true (Nat.lt_succ_of_le hle)

theorem doomed_of_disturbed {a : SweepAction} (hi : Inv s) (hstep : (machine cfg).step s a = some s') (hbad : ¬ s.Undisturbed cfg a) :
    ∃ e, s'.sweep.doomed = some e ∧ s'.Known e ∧ ¬ s'.Spare e := by
  cases a with
  | sweep m =>
    obtain rfl : m = .time := by cases m <;> first | rfl | exact absurd trivial hbad
    simp only [Undisturbed, not_forall] at hbad
    obtain ⟨e, he, hspare⟩ := hbad
    simp only [machine, step, sweepStep, closeIdleConns] at hstep
    split at hstep
    · rename_i now k n hs
      simp only [expiring, hs, Option.mem_def, Option.ite_none_right_eq_some, Option.some.injEq] at he
      obtain ⟨hexpired, rfl⟩ := he
      rw [if_pos hexpired] at hstep
      cases hstep
      exact ⟨(k, n), rfl, hi.holds (k, n) (by simp [holds, hs]), hspare⟩
    · cases hstep
  | serve n a =>
    simp only [Undisturbed, not_forall] at hbad
    obtain ⟨e, he, hbad⟩ := hbad
    obtain ⟨l, hl, hserve⟩ := Option.bind_eq_some_iff.mp hstep
    have hserves := serve_serves hl hserve
    have hknown : s.Known e := by
      obtain ⟨now, hexpired⟩ := expired_of_doomed he
      exact hi.holds e (by simp [holds, hexpired])
    refine ⟨e, hserves.sweep ▸ he, by rwa [Known, hserves.length_handles, hserves.length_loops], ?_⟩
    rintro ⟨hconn, hrequest⟩
    refine hbad ⟨?_, fun hp ha l' hl' heq => ?_⟩
    · rintro rfl rfl
      rw [inRequest_receive hl (hi.loops l (mem_of_getElem? hl)).2 hserve] at hrequest
      cases hrequest
    · obtain rfl : l = l' := Option.some.inj (hl.symm.trans hl')
      rw [conn, hserves.unwraps hp ha, heq, getElem?_set_self hknown.1] at hconn
      cases hconn
  | _ => exact absurd trivial hbad

/-- In every run in which the last check of the sweep is up to date and nothing comes between it and the close,
the sweep closes no connection but the one it found idle, and that outside its requests. -/
theorem sweep_harmless (cfg : SweepConfig) (as : List SweepAction) (h : (machine cfg).Along (Undisturbed cfg) new as) :
    (machine cfg).Along Harmless new as ∧
    ∀ a, ((machine cfg).step ((machine cfg).exec new as) a).isSome → ¬ ((machine cfg).exec new as).Undisturbed cfg a →
      ∃ bs, ¬ (machine cfg).Along Harmless new (as ++ a :: bs) := by
  refine ⟨Machine.along_of_along Inv.step (fun s a hi _ => hi.harmless a) as inv_new h, fun a hsome hbad => ?_⟩
  have hi : Inv ((machine cfg).exec new as) := Machine.exec_along Inv.step as inv_new h
  obtain ⟨s', hstep⟩ := Option.isSome_iff_exists.mp hsome
  obtain ⟨e, hdoomed, hknown, hspare⟩ := doomed_of_disturbed hi hstep hbad
  obtain ⟨bs, hbs⟩ := doomed_harms hdoomed hknown hspare
  refine ⟨bs, fun hall => hbs ?_⟩
  exact ((Machine.along_cons_of_step hstep bs).mp ((Machine.along_append new as (a :: bs)).mp hall).2).2

def firstRequest (n : Nat) : List SweepAction :=
  [.serve n .track, .serve n .load, .serve n (.loop .stamp), .serve n (.loop .activate), .serve n (.loop .receive),
    .serve n (.loop .handle), .serve n (.loop .stampW), .serve n (.loop .activateW), .serve n (.loop (.respond true)),
    .serve n (.loop .idle)]

def checks (h : Nat) : List SweepAction := [.sweep .start, .sweep (.copy h), .sweep .visit, .sweep .status, .sweep .time]

def sweepTwo : List SweepAction :=
  [.accept none, .accept none] ++ firstRequest 0 ++ firstRequest 1 ++
    [.serve 1 (.loop .receive), .serve 1 (.loop .peek), .serve 1 (.loop .stamp), .serve 1 (.loop .activate)] ++
    checks 0 ++ [.sweepClose, .sweepDelete, .sweep (.copy 1), .sweep .visit, .sweep .status, .sweep .leave]

theorem sweep_harmless_two :
    (machine ⟨true, false⟩).Along (Undisturbed ⟨true, false⟩) new sweepTwo ∧
      ((machine ⟨true, false⟩).exec new sweepTwo).closed = [0] ∧ (machine ⟨true, false⟩).Along Harmless new sweepTwo := by
  have h : (machine ⟨true, false⟩).Along (Undisturbed ⟨true, false⟩) new sweepTwo := by decide +kernel
  exact ⟨h, by decide +kernel, (sweep_harmless _ _ h).1⟩

/-- The second request begins between the checks and the close. -/
theorem sweep_closes_active :
    let as := [.accept none] ++ firstRequest 0 ++ checks 0 ++ [.serve 0 (.loop .receive)]
    let bs := [.accept none] ++ firstRequest 0 ++ checks 0 ++ [.serve 0 (.loop .fail), .serve 0 .close, .accept (some 0)]
    (((machine ⟨false, false⟩).exec new as).inRequest 0 = true ∧
      ((machine ⟨false, false⟩).exec new (as ++ [.sweepClose])).closed = [0] ∧
      ¬ (machine ⟨false, false⟩).Along Harmless new (as ++ [.sweepClose])) ∧
    ((machine ⟨true, false⟩).exec new bs).sweep.doomed = some (0, 0) ∧
      ((machine ⟨true, false⟩).exec new (bs ++ [.sweepClose])).closed = [1] ∧
      ¬ (machine ⟨true, false⟩).Along Harmless new (bs ++ [.sweepClose]) := by
  decide +kernel

end Sweeping

end Fasthttp
