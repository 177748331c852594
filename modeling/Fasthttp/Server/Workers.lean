import Fasthttp.Lib.FirstIndex
import Fasthttp.Lib.Machine
import Fasthttp.Lib.Tally

/-!
# The worker pool

`workerPool` with any number of calls of `Serve`, its workers, the cleaner and `Stop`.
-/

namespace Fasthttp

open Tally

inductive Signal
  | conn (c : Nat)
  | stop
  deriving DecidableEq, Repr

inductive Worker
  | starting
  | waits (ch : Nat)
  | serves (ch c : Nat)
  | releases (ch : Nat)
  | exits (ch : Nat)
  | returns (ch : Nat)
  | finished
  deriving DecidableEq, Repr

inductive ServeCall
  | creates (w : Nat)
  | hands (ch : Nat)
  | accepted
  | rejected
  deriving DecidableEq, Repr

structure WorkerPoolConfig where
  maxWorkersCount : Nat
  workerChanCap : Nat

/-- `locked` says that `Stop` has the lock, and `ready` loses a channel when `Stop` has sent to it. -/
structure WorkerPool where
  workersCount : Int
  mustStop : Bool
  locked : Bool
  ready : List Nat
  cleaning : List Nat
  idle : List Nat
  chans : List (List Signal)
  workers : List Worker
  calls : List ServeCall
  handled : List (Nat × Nat)

inductive PoolAction
  | serve
  | create (call : Nat) (recycled : Option Nat)
  | hand (call : Nat)
  | receive (w : Nat)
  | finish (w : Nat)
  | release (w : Nat)
  | exit (w : Nat)
  | put (w : Nat)
  | clean (n : Nat)
  | cleanSend
  | stop
  | stopSend
  | stopDone
  deriving DecidableEq, Repr

def Worker.takes (ch : Nat) : Signal → Worker
  | .conn c => serves ch c
  | .stop => exits ch

namespace WorkerPool

def new : WorkerPool := ⟨0, false, false, [], [], [], [], [], [], []⟩

def setWorker (p : WorkerPool) (w : Nat) (v : Worker) : WorkerPool := { p with workers := p.workers.set w v }

def setCall (p : WorkerPool) (i : Nat) (v : ServeCall) : WorkerPool := { p with calls := p.calls.set i v }

/-- A send that does not block: there is room, or the channel has none and its worker receives. -/
def send (cfg : WorkerPoolConfig) (p : WorkerPool) (ch : Nat) (s : Signal) : Option WorkerPool :=
  match p.chans[ch]? with
  | none => none
  | some q =>
    if q.length < cfg.workerChanCap then some { p with chans := p.chans.set ch (q ++ [s]) }
    else if cfg.workerChanCap = 0 then
      match p.workers.idxOf? (.waits ch) with
      | some w => some (p.setWorker w (.takes ch s))
      | none => none
    else none

/-- `getCh` up to the end of its section. The last ready channel is taken. -/
def getCh (cfg : WorkerPoolConfig) (p : WorkerPool) : WorkerPool :=
  match p.ready.getLast? with
  | some ch => { p with ready := p.ready.dropLast, calls := p.calls ++ [.hands ch] }
  | none =>
    if p.workersCount < cfg.maxWorkersCount then
      { p with
        workersCount := p.workersCount + 1, workers := p.workers ++ [.starting], calls := p.calls ++ [.creates p.workers.length] }
    else { p with calls := p.calls ++ [.rejected] }

def getChan (p : WorkerPool) : Option Nat → Option (WorkerPool × Nat)
  | some ch => if ch ∈ p.idle then some ({ p with idle := p.idle.erase ch }, ch) else none
  | none => some ({ p with chans := p.chans ++ [[]] }, p.chans.length)

def step (cfg : WorkerPoolConfig) (p : WorkerPool) : PoolAction → Option WorkerPool
  | .serve => if p.locked then none else some (p.getCh cfg)
  | .create i recycled =>
    match p.calls[i]? with
    | some (.creates w) =>
      match p.workers[w]? with
      | some .starting => (p.getChan recycled).map fun (p', ch) => (p'.setWorker w (.waits ch)).setCall i (.hands ch)
      | _ => none
    | _ => none
  | .hand i =>
    match p.calls[i]? with
    | some (.hands ch) => (p.send cfg ch (.conn i)).map fun p' => p'.setCall i .accepted
    | _ => none
  | .receive w =>
    match p.workers[w]? with
    | some (.waits ch) =>
      match p.chans[ch]? with
      | some (s :: q) => some ({ p with chans := p.chans.set ch q }.setWorker w (.takes ch s))
      | _ => none
    | _ => none
  | .finish w =>
    match p.workers[w]? with
    | some (.serves ch c) => some { p.setWorker w (.releases ch) with handled := (c, w) :: p.handled }
    | _ => none
  | .release w =>
    match p.workers[w]? with
    | some (.releases ch) =>
      if p.locked then none
      else if p.mustStop then some (p.setWorker w (.exits ch))
      else some { p.setWorker w (.waits ch) with ready := p.ready ++ [ch] }
    | _ => none
  | .exit w =>
    match p.workers[w]? with
    | some (.exits ch) => if p.locked then none else some { p.setWorker w (.returns ch) with workersCount := p.workersCount - 1 }
    | _ => none
  | .put w =>
    match p.workers[w]? with
    | some (.returns ch) => some { p.setWorker w .finished with idle := ch :: p.idle }
    | _ => none
  | .clean n =>
    if p.locked || p.cleaning ≠ [] || p.ready.length < n then none
    else some { p with cleaning := p.ready.take n, ready := p.ready.drop n }
  | .cleanSend =>
    match p.cleaning with
    | ch :: chs => { p with cleaning := chs }.send cfg ch .stop
    | [] => none
  | .stop => if p.locked || p.mustStop then none else some { p with locked := true }
  | .stopSend =>
    match p.ready with
    | ch :: chs => if p.locked then { p with ready := chs }.send cfg ch .stop else none
    | [] => none
  | .stopDone => if p.locked ∧ p.ready = [] then some { p with locked := false, mustStop := true } else none

def machine (cfg : WorkerPoolConfig) : Machine WorkerPool PoolAction := ⟨step cfg⟩

end WorkerPool

/-! ## Who has a channel, and who has a connection -/

namespace Worker

def waitsFor (ch : Nat) : Worker → Nat
  | waits ch' => one ch' ch
  | _ => 0

def busyWith (ch : Nat) : Worker → Nat
  | serves ch' _ => one ch' ch
  | releases ch' => one ch' ch
  | exits ch' => one ch' ch
  | returns ch' => one ch' ch
  | _ => 0

def handles (c : Nat) : Worker → Nat
  | serves _ c' => one c' c
  | _ => 0

def live : Worker → Nat
  | returns _ => 0
  | finished => 0
  | _ => 1

end Worker

def ServeCall.handsTo (ch : Nat) : ServeCall → Nat
  | hands ch' => one ch' ch
  | _ => 0

def Signal.brings (c : Nat) : Signal → Nat
  | conn c' => one c' c
  | stop => 0

namespace WorkerPool

variable {u : ServeCall}

variable (p : WorkerPool)

def content (ch : Nat) : List Signal := (p.chans[ch]?).getD []

def waiting (ch : Nat) : Nat := (p.workers.map (Worker.waitsFor ch)).sum
def busy (ch : Nat) : Nat := (p.workers.map (Worker.busyWith ch)).sum
def served (c : Nat) : Nat := (p.workers.map (Worker.handles c)).sum
def liveWorkers : Nat := (p.workers.map Worker.live).sum
def handing (ch : Nat) : Nat := (p.calls.map (ServeCall.handsTo ch)).sum
def lying (c : Nat) : Nat := (p.chans.map fun q => (q.map (Signal.brings c)).sum).sum
def handledTimes (c : Nat) : Nat := (p.handled.map Prod.fst).count c
def acceptedOnce (c : Nat) : Nat := if p.calls[c]? = some .accepted then 1 else 0

structure Inv (cfg : WorkerPoolConfig) (p : WorkerPool) : Prop where
  count : p.workersCount = p.liveWorkers
  bound : p.workersCount ≤ cfg.maxWorkersCount
  places : ∀ ch, p.ready.count ch + p.cleaning.count ch + p.handing ch + (p.content ch).length + p.busy ch + p.idle.count ch =
    below p.chans.length ch
  owner : ∀ ch, p.waiting ch + p.busy ch + p.idle.count ch = below p.chans.length ch
  conns : ∀ c, p.lying c + p.served c + p.handledTimes c = p.acceptedOnce c

/-! ## One element changes -/

variable {cfg : WorkerPoolConfig} {p p' : WorkerPool} {w i ch x c : Nat} {v v' : Worker} {s : Signal}

theorem waiting_set (h : p.workers[w]? = some v) (v' : Worker) (x : Nat) :
    (p.setWorker w v').waiting x + v.waitsFor x = p.waiting x + v'.waitsFor x :=
  sum_set _ h v'

theorem busy_set (h : p.workers[w]? = some v) (v' : Worker) (x : Nat) :
    (p.setWorker w v').busy x + v.busyWith x = p.busy x + v'.busyWith x := sum_set _ h v'

theorem served_set (h : p.workers[w]? = some v) (v' : Worker) (c : Nat) :
    (p.setWorker w v').served c + v.handles c = p.served c + v'.handles c :=
  sum_set _ h v'

theorem liveWorkers_set (h : p.workers[w]? = some v) (v' : Worker) :
    (p.setWorker w v').liveWorkers + v.live = p.liveWorkers + v'.live :=
  sum_set _ h v'

theorem handing_set (h : p.calls[i]? = some u) (u' : ServeCall) (x : Nat) :
    (p.setCall i u').handing x + u.handsTo x = p.handing x + u'.handsTo x := sum_set _ h u'

theorem content_set {q : List Signal} (h : p.chans[ch]? = some q) (q' : List Signal) (x : Nat) :
    (content { p with chans := p.chans.set ch q' } x).length + q.length * one ch x = (p.content x).length + q'.length * one ch x := by
  obtain ⟨hlt, hget⟩ := List.getElem?_eq_some_iff.mp h
  by_cases hx : ch = x
  · subst hx
    simp [content, hget, hlt]
    omega
  · simp [content, List.getElem?_set_ne hx, one_eq_zero.mpr hx]

theorem lying_set {q : List Signal} (h : p.chans[ch]? = some q) (q' : List Signal) (c : Nat) :
    lying { p with chans := p.chans.set ch q' } c + (q.map (Signal.brings c)).sum = p.lying c + (q'.map (Signal.brings c)).sum :=
  sum_set (fun q => (q.map (Signal.brings c)).sum) h q'

theorem acceptedOnce_set (h : p.calls[i]? = some u) (hu : u ≠ .accepted) :
    (p.setCall i .accepted).acceptedOnce c = p.acceptedOnce c + one i c := by
  obtain ⟨hlt, hget⟩ := List.getElem?_eq_some_iff.mp h
  by_cases hc : i = c
  · subst hc
    simp [acceptedOnce, setCall, hget, hu, hlt]
  · simp [acceptedOnce, setCall, List.getElem?_set_ne hc, one_eq_zero.mpr hc]

theorem acceptedOnce_set_ne {u' : ServeCall} (h : p.calls[i]? = some u) (hu : u ≠ .accepted) (hu' : u' ≠ .accepted) (c : Nat) :
    (p.setCall i u').acceptedOnce c = p.acceptedOnce c := by
  obtain ⟨hlt, hget⟩ := List.getElem?_eq_some_iff.mp h
  by_cases hc : i = c
  · subst hc
    simp [acceptedOnce, setCall, hget, hu, hu', hlt]
  · simp [acceptedOnce, setCall, List.getElem?_set_ne hc]

structure Sends (p : WorkerPool) (ch : Nat) (s : Signal) (p' : WorkerPool) : Prop where
  same : p' = { p with chans := p'.chans, workers := p'.workers }
  length : p'.chans.length = p.chans.length
  live : p'.liveWorkers = p.liveWorkers
  filled : ∀ x, (p'.content x).length + p'.busy x = (p.content x).length + p.busy x + one ch x
  owner : ∀ x, p'.waiting x + p'.busy x = p.waiting x + p.busy x
  conns : ∀ c, p'.lying c + p'.served c = p.lying c + p.served c + s.brings c

theorem takes_eq (ch : Nat) (s : Signal) (x c : Nat) : (Worker.takes ch s).waitsFor x = 0 ∧ (Worker.takes ch s).busyWith x = one ch x ∧
    (Worker.takes ch s).handles c = s.brings c ∧ (Worker.takes ch s).live = 1 := by
  cases s <;> exact ⟨rfl, rfl, rfl, rfl⟩

theorem send_sends (h : p.send cfg ch s = some p') : Sends p ch s p' := by
  unfold send at h
  split at h
  · simp at h
  · rename_i q hq
    split_ifs at h with hroom hcap
    · cases h
      refine ⟨rfl, by simp, rfl, fun x => ?_, fun x => rfl, fun c => ?_⟩
      · have hx := content_set hq (q ++ [s]) x
        rw [List.length_append, List.length_singleton, Nat.add_mul] at hx
        change (content { p with chans := p.chans.set ch (q ++ [s]) } x).length + p.busy x = _
        omega
      · have hc := lying_set hq (q ++ [s]) c
        rw [List.map_append, List.sum_append] at hc
        simp only [List.map_cons, List.map_nil, List.sum_cons, List.sum_nil] at hc
        change lying { p with chans := p.chans.set ch (q ++ [s]) } c + p.served c = _
        omega
    · split at h
      · rename_i w hw
        cases h
        have hwait : p.workers[w]? = some (.waits ch) := FirstIndex.getElem?_of_idxOf? hw
        refine ⟨rfl, rfl, ?_, fun x => ?_, fun x => ?_, fun c => ?_⟩
        · have hl := liveWorkers_set hwait (.takes ch s)
          rw [(takes_eq ch s 0 0).2.2.2] at hl
          exact Nat.add_right_cancel hl
        · have hx := busy_set hwait (.takes ch s) x
          rw [(takes_eq ch s x 0).2.1] at hx
          change (p.content x).length + (p.setWorker w (.takes ch s)).busy x = _
          simp only [Worker.busyWith] at hx
          omega
        · have hx := busy_set hwait (.takes ch s) x
          have hy := waiting_set hwait (.takes ch s) x
          rw [(takes_eq ch s x 0).2.1] at hx
          rw [(takes_eq ch s x 0).1] at hy
          simp only [Worker.busyWith, Worker.waitsFor] at hx hy
          omega
        · have hc := served_set hwait (.takes ch s) c
          rw [(takes_eq ch s 0 c).2.2.1] at hc
          change p.lying c + (p.setWorker w (.takes ch s)).served c = _
          simp only [Worker.handles] at hc
          omega
      · simp at h

theorem acceptedOnce_concat (p : WorkerPool) (hu : u ≠ .accepted) (c : Nat) :
    acceptedOnce { p with calls := p.calls ++ [u] } c = p.acceptedOnce c := by
  unfold acceptedOnce
  rcases Nat.lt_trichotomy c p.calls.length with hlt | rfl | hgt
  · simp [List.getElem?_append_left hlt]
  · simp [hu]
  · rw [List.getElem?_eq_none (by simp; omega), List.getElem?_eq_none (by omega)]

theorem content_concat (p : WorkerPool) (x : Nat) : content { p with chans := p.chans ++ [[]] } x = p.content x := by
  unfold content
  rcases Nat.lt_trichotomy x p.chans.length with hlt | rfl | hgt
  · simp [List.getElem?_append_left hlt]
  · simp
  · rw [List.getElem?_eq_none (by simp; omega), List.getElem?_eq_none (by omega)]

namespace Inv

variable {ready : List Nat}

section

variable (h : p.Inv cfg)
include h

theorem sends (ready cleaning : List Nat) {calls : List ServeCall}
    (hsend : Sends { p with ready := ready, cleaning := cleaning } ch s p')
    (hplaces : ∀ x, ready.count x + cleaning.count x + (calls.map (ServeCall.handsTo x)).sum + one ch x =
      p.ready.count x + p.cleaning.count x + p.handing x)
    (hconns : ∀ c, acceptedOnce { p with calls := calls } c = p.acceptedOnce c + s.brings c) : Inv cfg { p' with calls := calls } := by
  obtain ⟨hsame, hlen, hlive, hfilled, howner, hcs⟩ := hsend
  rw [hsame]
  refine ⟨h.count.trans (congrArg Nat.cast hlive.symm), h.bound, fun x => ?_, fun x => ?_, fun c => ?_⟩
  · have hp : _ = below p.chans.length x := h.places x
    have hx := hplaces x
    have hf : _ = (p.content x).length + p.busy x + one ch x := hfilled x
    have hl : p'.chans.length = p.chans.length := hlen
    change ready.count x + cleaning.count x + (calls.map (ServeCall.handsTo x)).sum + (p'.content x).length + p'.busy x +
      p.idle.count x =
      below p'.chans.length x
    rw [hl]
    omega
  · have ho := h.owner x
    have hx : _ = p.waiting x + p.busy x := howner x
    have hl : p'.chans.length = p.chans.length := hlen
    change p'.waiting x + p'.busy x + p.idle.count x = below p'.chans.length x
    rw [hl]
    omega
  · have hc := h.conns c
    have hx : _ = p.lying c + p.served c + s.brings c := hcs c
    have ha := hconns c
    change p'.lying c + p'.served c + p.handledTimes c = acceptedOnce { p with calls := calls } c
    omega

theorem worker {workersCount : Int} {idle : List Nat} {handled : List (Nat × Nat)}
    (hw : p.workers[w]? = some v) (hcount : workersCount + v.live = p.workersCount + v'.live)
    (hbound : workersCount ≤ cfg.maxWorkersCount)
    (hplaces : ∀ x, ready.count x + v'.busyWith x + idle.count x = p.ready.count x + v.busyWith x + p.idle.count x)
    (howner : ∀ x, v'.waitsFor x + v'.busyWith x + idle.count x = v.waitsFor x + v.busyWith x + p.idle.count x)
    (hconns : ∀ c, v'.handles c + (handled.map Prod.fst).count c = v.handles c + p.handledTimes c) :
    Inv cfg { p.setWorker w v' with workersCount := workersCount, ready := ready, idle := idle, handled := handled } := by
  refine ⟨?_, hbound, fun x => ?_, fun x => ?_, fun c => ?_⟩
  · have hl := liveWorkers_set hw v'
    have hc := h.count
    change workersCount = ((p.setWorker w v').liveWorkers : Int)
    omega
  · have hp := h.places x
    have hb := busy_set hw v' x
    have hx := hplaces x
    change ready.count x + p.cleaning.count x + p.handing x + (p.content x).length + (p.setWorker w v').busy x + idle.count x =
      below p.chans.length x
    omega
  · have ho := h.owner x
    have hb := busy_set hw v' x
    have hwt := waiting_set hw v' x
    have hx := howner x
    change (p.setWorker w v').waiting x + (p.setWorker w v').busy x + idle.count x = below p.chans.length x
    omega
  · have hc := h.conns c
    have hs := served_set hw v' c
    have hx := hconns c
    change p.lying c + (p.setWorker w v').served c + (handled.map Prod.fst).count c = p.acceptedOnce c
    omega

theorem call {u : ServeCall} (hu : u ≠ .accepted)
    (hplaces : ∀ x, ready.count x + u.handsTo x = p.ready.count x) : Inv cfg { p with ready := ready, calls := p.calls ++ [u] } := by
  refine ⟨h.count, h.bound, fun x => ?_, h.owner, fun c => (h.conns c).trans (acceptedOnce_concat p hu c).symm⟩
  have hp := h.places x
  have hx := hplaces x
  have hhand : ((p.calls ++ [u]).map (ServeCall.handsTo x)).sum = p.handing x + u.handsTo x := by simp [handing]
  change ready.count x + p.cleaning.count x + ((p.calls ++ [u]).map (ServeCall.handsTo x)).sum + (p.content x).length + p.busy x +
    p.idle.count x = below p.chans.length x
  omega

theorem started (hlt : p.workersCount < cfg.maxWorkersCount) :
    Inv cfg { p with workersCount := p.workersCount + 1, workers := p.workers ++ [.starting] } := by
  have hsum (f : Worker → Nat) : ((p.workers ++ [Worker.starting]).map f).sum = (p.workers.map f).sum + f .starting := by simp
  refine ⟨?_, Int.add_one_le_of_lt hlt, fun x => ?_, fun x => ?_, fun c => ?_⟩
  · have hc := h.count
    have hl := hsum Worker.live
    change p.workersCount + 1 = (((p.workers ++ [Worker.starting]).map Worker.live).sum : Nat)
    simp only [Worker.live, liveWorkers] at hl hc
    omega
  · exact (congrArg (_ + _ + _ + _ + · + _) (hsum (Worker.busyWith x))).trans (h.places x)
  · have hb := hsum (Worker.busyWith x)
    have hw := hsum (Worker.waitsFor x)
    have ho := h.owner x
    change ((p.workers ++ [Worker.starting]).map (Worker.waitsFor x)).sum +
      ((p.workers ++ [Worker.starting]).map (Worker.busyWith x)).sum + p.idle.count x = below p.chans.length x
    rw [hb, hw]
    exact ho
  · exact (congrArg (_ + · + _) (hsum (Worker.handles c))).trans (h.conns c)

theorem getCh : Inv cfg (p.getCh cfg) := by
  unfold WorkerPool.getCh
  split
  · rename_i ch hlast
    have hready : p.ready.dropLast ++ [ch] = p.ready := List.dropLast_append_getLast? ch hlast
    refine h.call (by simp) fun x => ?_
    conv_rhs => rw [← hready, count_concat]
    rfl
  · split_ifs with hlt
    · exact (h.started hlt).call (by simp) fun x => rfl
    · exact h.call (by simp) fun x => rfl

theorem createAt (idle : List Nat) {chans : List (List Signal)} (hi : p.calls[i]? = some (.creates w))
    (hw : p.workers[w]? = some .starting) (hcontent : ∀ x, ((chans[x]?).getD []).length = (p.content x).length)
    (hlying : ∀ c, (chans.map fun q => (q.map (Signal.brings c)).sum).sum = p.lying c)
    (hplaces : ∀ x, idle.count x + one ch x + below p.chans.length x = p.idle.count x + below chans.length x) :
    Inv cfg (({ p with idle := idle, chans := chans }.setWorker w (.waits ch)).setCall i (.hands ch)) := by
  refine ⟨?_, h.bound, fun x => ?_, fun x => ?_, fun c => ?_⟩
  · have hl := liveWorkers_set hw (.waits ch)
    exact h.count.trans (congrArg Nat.cast (Nat.add_right_cancel hl).symm)
  · have hp := h.places x
    have hb := busy_set hw (.waits ch) x
    have hh := handing_set hi (.hands ch) x
    have hc := hcontent x
    have hx := hplaces x
    simp only [Worker.busyWith, ServeCall.handsTo] at hb hh
    change p.ready.count x + p.cleaning.count x + (p.setCall i (.hands ch)).handing x + ((chans[x]?).getD []).length +
      (p.setWorker w (.waits ch)).busy x + idle.count x = below chans.length x
    omega
  · have ho := h.owner x
    have hb := busy_set hw (.waits ch) x
    have hwt := waiting_set hw (.waits ch) x
    have hx := hplaces x
    simp only [Worker.busyWith, Worker.waitsFor] at hb hwt
    change (p.setWorker w (.waits ch)).waiting x + (p.setWorker w (.waits ch)).busy x + idle.count x = below chans.length x
    omega
  · have hc := h.conns c
    have hs := served_set hw (.waits ch) c
    have ha := acceptedOnce_set_ne hi (by simp) (ServeCall.noConfusion : ServeCall.hands ch ≠ .accepted) c
    have hl := hlying c
    simp only [Worker.handles] at hs
    change (chans.map fun q => (q.map (Signal.brings c)).sum).sum + (p.setWorker w (.waits ch)).served c + p.handledTimes c =
      (p.setCall i (.hands ch)).acceptedOnce c
    omega

theorem create {recycled : Option Nat} (hi : p.calls[i]? = some (.creates w)) (hw : p.workers[w]? = some .starting)
    (hget : p.getChan recycled = some (p', ch)) : Inv cfg ((p'.setWorker w (.waits ch)).setCall i (.hands ch)) := by
  cases recycled with
  | some ch' =>
    simp only [getChan] at hget
    split_ifs at hget with hmem
    obtain ⟨rfl, rfl⟩ := Prod.mk.inj (Option.some.inj hget)
    refine h.createAt _ hi hw (fun x => rfl) (fun c => rfl) fun x => ?_
    have hcount := count_erase hmem x
    omega
  | none =>
    obtain ⟨rfl, rfl⟩ := Prod.mk.inj (Option.some.inj hget)
    refine h.createAt p.idle hi hw (fun x => congrArg List.length (content_concat p x)) (fun c => ?_) fun x => ?_
    · simp [lying]
    · rw [List.length_append, List.length_singleton, below_succ]
      omega

theorem hand (hi : p.calls[i]? = some (.hands ch)) (hsend : p.send cfg ch (.conn i) = some p') :
    Inv cfg (p'.setCall i .accepted) := by
  have hs := send_sends hsend
  have hcalls : p'.setCall i .accepted = { p' with calls := p.calls.set i .accepted } := by
    rw [setCall, hs.same]
  rw [hcalls]
  refine h.sends p.ready p.cleaning hs (fun x => ?_) (fun c => acceptedOnce_set hi (by simp))
  have hh := handing_set hi .accepted x
  simp only [ServeCall.handsTo] at hh
  change _ + (p.setCall i .accepted).handing x + one ch x = _
  omega

theorem receive {q : List Signal} (hw : p.workers[w]? = some (.waits ch)) (hq : p.chans[ch]? = some (s :: q)) :
    Inv cfg ({ p with chans := p.chans.set ch q }.setWorker w (.takes ch s)) := by
  have hlen : (p.chans.set ch q).length = p.chans.length := List.length_set
  refine ⟨?_, h.bound, fun x => ?_, fun x => ?_, fun c => ?_⟩
  · have hl := liveWorkers_set hw (.takes ch s)
    rw [(takes_eq ch s 0 0).2.2.2] at hl
    exact h.count.trans (congrArg Nat.cast (Nat.add_right_cancel hl).symm)
  · have hp := h.places x
    have hb := busy_set hw (.takes ch s) x
    have hc := content_set hq q x
    rw [(takes_eq ch s x 0).2.1] at hb
    rw [List.length_cons, Nat.add_mul] at hc
    simp only [Worker.busyWith] at hb
    change p.ready.count x + p.cleaning.count x + p.handing x + (content { p with chans := p.chans.set ch q } x).length +
      (p.setWorker w (.takes ch s)).busy x + p.idle.count x = below (p.chans.set ch q).length x
    rw [hlen]
    omega
  · have ho := h.owner x
    have hb := busy_set hw (.takes ch s) x
    have hwt := waiting_set hw (.takes ch s) x
    rw [(takes_eq ch s x 0).2.1] at hb
    rw [(takes_eq ch s x 0).1] at hwt
    simp only [Worker.busyWith, Worker.waitsFor] at hb hwt
    change (p.setWorker w (.takes ch s)).waiting x + (p.setWorker w (.takes ch s)).busy x + p.idle.count x =
      below (p.chans.set ch q).length x
    rw [hlen]
    omega
  · have hc := h.conns c
    have hs := served_set hw (.takes ch s) c
    have hl := lying_set hq q c
    rw [(takes_eq ch s 0 c).2.2.1] at hs
    rw [List.map_cons, List.sum_cons] at hl
    simp only [Worker.handles] at hs
    change lying { p with chans := p.chans.set ch q } c + (p.setWorker w (.takes ch s)).served c + p.handledTimes c = p.acceptedOnce c
    omega

theorem finish (hw : p.workers[w]? = some (.serves ch c)) :
    Inv cfg { p.setWorker w (.releases ch) with handled := (c, w) :: p.handled } := by
  refine h.worker hw rfl h.bound (fun x => rfl) (fun x => rfl) fun c' => ?_
  rw [List.map_cons, count_cons]
  simp only [Worker.handles, handledTimes]
  omega

theorem release (hw : p.workers[w]? = some (.releases ch)) :
    Inv cfg (p.setWorker w (.exits ch)) ∧ Inv cfg { p.setWorker w (.waits ch) with ready := p.ready ++ [ch] } := by
  constructor
  · exact h.worker hw rfl h.bound (fun x => rfl) (fun x => rfl) fun c => rfl
  · refine h.worker hw rfl h.bound (fun x => ?_) (fun x => ?_) fun c => rfl
    · rw [count_concat]
      rfl
    · simp only [Worker.waitsFor, Worker.busyWith, setWorker]
      omega

theorem exit (hw : p.workers[w]? = some (.exits ch)) :
    Inv cfg { p.setWorker w (.returns ch) with workersCount := p.workersCount - 1 } := by
  have hbound := h.bound
  refine h.worker hw ?_ (by omega) (fun x => rfl) (fun x => rfl) fun c => rfl
  simp [Worker.live]

theorem put (hw : p.workers[w]? = some (.returns ch)) :
    Inv cfg { p.setWorker w .finished with idle := ch :: p.idle } := by
  refine h.worker hw rfl h.bound (fun x => ?_) (fun x => ?_) fun c => rfl
  · rw [count_cons]
    simp only [Worker.busyWith, setWorker]
    omega
  · rw [count_cons]
    simp only [Worker.waitsFor, Worker.busyWith]
    omega

theorem clean {n : Nat} (hnil : p.cleaning = []) :
    Inv cfg { p with cleaning := p.ready.take n, ready := p.ready.drop n } := by
  refine ⟨h.count, h.bound, fun x => ?_, h.owner, h.conns⟩
  have hp := h.places x
  have hr : (p.ready.take n).count x + (p.ready.drop n).count x = p.ready.count x := by
    rw [← List.count_append, List.take_append_drop]
  rw [hnil, List.count_nil] at hp
  change (p.ready.drop n).count x + (p.ready.take n).count x + p.handing x + (p.content x).length + p.busy x + p.idle.count x =
    below p.chans.length x
  omega

theorem stopped {cleaning : List Nat}
    (hsend : send cfg { p with ready := ready, cleaning := cleaning } ch .stop = some p')
    (hplaces : ∀ x, ready.count x + cleaning.count x + one ch x = p.ready.count x + p.cleaning.count x) : Inv cfg p' := by
  have hs := send_sends hsend
  have hcalls : p' = { p' with calls := p.calls } := by
    conv_lhs => rw [hs.same]
    conv_rhs => rw [hs.same]
  rw [hcalls]
  refine h.sends _ _ hs (fun x => ?_) (fun c => rfl)
  have hx := hplaces x
  change _ + p.handing x + one ch x = _
  omega

theorem step {a : PoolAction} (hstep : p.step cfg a = some p') : p'.Inv cfg := by
  -- one goal for each action, in their order; `release` has two
  cases a <;> simp only [WorkerPool.step] at hstep <;> (repeat' split at hstep) <;> try cases hstep
  · exact h.getCh
  · obtain ⟨⟨p₁, ch⟩, hget, rfl⟩ := Option.map_eq_some_iff.mp hstep
    exact h.create ‹_› ‹_› hget
  · obtain ⟨p₁, hsend, rfl⟩ := Option.map_eq_some_iff.mp hstep
    exact h.hand ‹_› hsend
  · exact h.receive ‹_› ‹_›
  · exact h.finish ‹_›
  · exact (h.release ‹_›).1
  · exact (h.release ‹_›).2
  · exact h.exit ‹_›
  · exact h.put ‹_›
  · rename_i hno
    have hnil : p.cleaning = [] := by
      by_contra hne
      exact hno (by simp [hne])
    exact h.clean hnil
  · rename_i ch chs hcleaning
    refine h.stopped hstep fun x => ?_
    rw [hcleaning, count_cons]
    omega
  · exact { h with }
  · rename_i ch chs hready _
    refine h.stopped hstep fun x => ?_
    rw [hready, count_cons]
    omega
  · exact { h with }

end

end Inv

theorem inv_new (cfg : WorkerPoolConfig) : new.Inv cfg := by
  refine ⟨rfl, ?_, fun ch => ?_, fun ch => ?_, fun c => ?_⟩
  · simp [new]
  · simp [new, handing, content, busy, below]
  · simp [new, waiting, busy, below]
  · simp [new, lying, served, handledTimes, acceptedOnce]

/-! ## What the places say -/

structure Kept (p : WorkerPool) (ch : Nat) : Prop where
  ready : ch ∉ p.ready
  cleaning : ch ∉ p.cleaning
  worker : ∃ w : Nat, p.workers[w]? = some (.waits ch)

/-- `once` says that a connection is in a channel, with a worker or handled, and this once, exactly if it was accepted. -/
structure Safe (cfg : WorkerPoolConfig) (p : WorkerPool) : Prop where
  count : p.workersCount = p.liveWorkers
  bound : p.workersCount ≤ cfg.maxWorkersCount
  nodup : p.ready.Nodup
  ready : ∀ ch ∈ p.ready, p.chans[ch]? = some [] ∧ ∃ w : Nat, p.workers[w]? = some (.waits ch)
  once : ∀ c, p.lying c + p.served c + p.handledTimes c = p.acceptedOnce c
  handing : ∀ i ch : Nat, p.calls[i]? = some (.hands ch) → p.chans[ch]? = some [] ∧ p.Kept ch
  alone : ∀ ch c, .conn c ∈ p.content ch → p.content ch = [.conn c] ∧ p.Kept ch

theorem waits_of_waiting (h : 0 < p.waiting ch) : ∃ w : Nat, p.workers[w]? = some (.waits ch) := by
  obtain ⟨w, v, hw, hv⟩ := exists_of_sum_pos _ h
  cases v with
  | waits ch' => exact ⟨w, eq_of_one_pos hv ▸ hw⟩
  | _ => simp [Worker.waitsFor] at hv

namespace Inv

theorem at_one_place (h : p.Inv cfg) (ch : Nat)
    (hpos : 0 < p.ready.count ch + p.cleaning.count ch + p.handing ch + (p.content ch).length) :
    p.ready.count ch + p.cleaning.count ch + p.handing ch + (p.content ch).length = 1 ∧ ch < p.chans.length ∧
      ∃ w : Nat, p.workers[w]? = some (.waits ch) := by
  have hp := h.places ch
  have ho := h.owner ch
  have hle := below_le_one p.chans.length ch
  have hlt : ch < p.chans.length := by
    by_contra hge
    have hzero : below p.chans.length ch = 0 := if_neg hge
    omega
  exact ⟨by omega, hlt, waits_of_waiting (by omega)⟩

theorem chan_empty (hlt : ch < p.chans.length) (hlen : (p.content ch).length = 0) : p.chans[ch]? = some [] := by
  rw [content, List.getElem?_eq_getElem hlt] at hlen
  rw [List.getElem?_eq_getElem hlt]
  exact congrArg some (List.length_eq_zero_iff.mp hlen)

theorem safe (h : p.Inv cfg) : p.Safe cfg := by
  refine ⟨h.count, h.bound, ?_, fun ch hmem => ?_, h.conns, fun i ch hi => ?_, fun ch c hmem => ?_⟩
  · refine List.nodup_iff_count_le_one.mpr fun ch => ?_
    have hp := h.places ch
    have hle := below_le_one p.chans.length ch
    omega
  · have hpos : 0 < p.ready.count ch := List.count_pos_iff.mpr hmem
    obtain ⟨hone, hlt, hw⟩ := h.at_one_place ch (by omega)
    exact ⟨chan_empty hlt (by omega), hw⟩
  · have hpos : 1 ≤ p.handing ch := by
      have hle : (ServeCall.hands ch).handsTo ch ≤ p.handing ch := le_sum _ (List.mem_of_getElem? hi)
      simpa [ServeCall.handsTo] using hle
    obtain ⟨hone, hlt, hw⟩ := h.at_one_place ch (by omega)
    exact ⟨chan_empty hlt (by omega), List.count_eq_zero.mp (by omega), List.count_eq_zero.mp (by omega), hw⟩
  · have hpos : 0 < (p.content ch).length := List.length_pos_of_mem hmem
    obtain ⟨hone, -, hw⟩ := h.at_one_place ch (by omega)
    obtain ⟨s, hs⟩ := List.length_eq_one_iff.mp (show (p.content ch).length = 1 by omega)
    rw [hs, List.mem_singleton] at hmem
    exact ⟨by rw [hs, ← hmem], List.count_eq_zero.mp (by omega), List.count_eq_zero.mp (by omega), hw⟩

/-! ## Every accepted connection can be handled -/

theorem finish_handles (h : p.Inv cfg) (hacc : p.acceptedOnce c = 1) (hw : p.workers[w]? = some (.serves ch c)) :
    ((machine cfg).exec p [.finish w]).handledTimes c = 1 := by
  have hstep : (machine cfg).step p (.finish w) = some { p.setWorker w (.releases ch) with handled := (c, w) :: p.handled } := by
    simp [machine, WorkerPool.step, hw]
  have hpos : 1 ≤ p.served c := by
    have hle : (Worker.serves ch c).handles c ≤ p.served c := le_sum _ (List.mem_of_getElem? hw)
    simpa [Worker.handles] using hle
  have hc := h.conns c
  have hzero : p.handledTimes c = 0 := by omega
  rw [Machine.exec, Machine.next_of_step hstep]
  change (((c, w) :: p.handled).map Prod.fst).count c = 1
  rw [List.map_cons, count_cons, one_self]
  exact congrArg (· + 1) hzero

theorem handled_soon (h : p.Inv cfg) (hacc : p.calls[c]? = some .accepted) :
    ∃ as, ((machine cfg).exec p as).handledTimes c = 1 := by
  have hone : p.acceptedOnce c = 1 := if_pos hacc
  have hc := h.conns c
  by_cases hserved : 0 < p.served c
  · obtain ⟨w, v, hw, hv⟩ := exists_of_sum_pos _ hserved
    cases v with
    | serves ch c' =>
      obtain rfl := eq_of_one_pos hv
      exact ⟨[.finish w], h.finish_handles hone hw⟩
    | _ => simp [Worker.handles] at hv
  · by_cases hlying : 0 < p.lying c
    · obtain ⟨ch, q, hq, hpos⟩ := exists_of_sum_pos _ hlying
      obtain ⟨j, s, hs, hv⟩ := exists_of_sum_pos _ hpos
      have hmem : .conn c ∈ p.content ch := by
        cases s with
        | conn c' =>
          obtain rfl := eq_of_one_pos hv
          rw [content, hq]
          exact List.mem_of_getElem? hs
        | stop => simp [Signal.brings] at hv
      obtain ⟨hcontent, -, -, w, hw⟩ := h.safe.alone ch c hmem
      have hchan : p.chans[ch]? = some [.conn c] := by
        rw [hq]
        rw [content, hq] at hcontent
        exact congrArg some hcontent
      have hstep : (machine cfg).step p (.receive w) =
          some ({ p with chans := p.chans.set ch [] }.setWorker w (.serves ch c)) := by
        simp [machine, WorkerPool.step, hw, hchan, Worker.takes]
      have hlt : w < p.workers.length := (List.getElem?_eq_some_iff.mp hw).1
      refine ⟨[.receive w, .finish w], ?_⟩
      rw [Machine.exec, Machine.next_of_step hstep]
      exact finish_handles (h.step (a := .receive w) hstep) hone (List.getElem?_set_self hlt)
    · exact ⟨[], by rw [Machine.exec]; omega⟩

end Inv

/-- In every run of the pool the workers are counted and bounded, the ready channels are empty ones of workers that wait,
each accepted connection is at one place, and no stop comes before it. -/
theorem workers_safe (cfg : WorkerPoolConfig) (as : List PoolAction) :
    (machine cfg).Always (Safe cfg) new as ∧
    ∀ c : Nat, ((machine cfg).exec new as).calls[c]? = some .accepted →
      ∃ bs, ((machine cfg).exec new (as ++ bs)).handledTimes c = 1 := by
  have hstep : ∀ p a p', Inv cfg p → (machine cfg).step p a = some p' → Inv cfg p' := fun p a p' h hs => h.step hs
  refine ⟨Machine.always_invariant hstep (fun p h => h.safe) as (inv_new cfg), fun c hacc => ?_⟩
  obtain ⟨bs, hbs⟩ := (Machine.exec_invariant hstep as (inv_new cfg)).handled_soon hacc
  exact ⟨bs, by rwa [Machine.exec_append]⟩

-- A worker that serves two connections with one place for both
example : ((machine ⟨1, 1⟩).exec new [.serve, .create 0 none, .hand 0, .receive 0, .finish 0, .release 0, .serve, .hand 1, .receive 0,
    .serve]).calls = [.accepted, .accepted, .rejected] := by decide

end WorkerPool

end Fasthttp
