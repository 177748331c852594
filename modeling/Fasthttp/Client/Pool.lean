import Fasthttp.Client.Queue

/-!
# The connection pool of a `HostClient`

Any number of goroutines acquire, release and close connections.
-/

namespace Fasthttp

/-! ## A waiter -/

structure WantConn where
  conn : Option Nat
  err : Bool
  ready : Bool
  taken : Bool
  late : Bool
  answered : ready = (conn.isSome || err)
  handed : taken = true → conn.isSome = true
  deriving DecidableEq, Repr

namespace WantConn

def new : WantConn := ⟨none, false, false, false, false, rfl, by simp⟩

def waiting (w : WantConn) : Bool := !w.ready

def tryDeliver (w : WantConn) (conn : Option Nat) : Option WantConn :=
  if w.conn.isSome || w.err then none
  else some ⟨conn, conn.isNone, true, false, w.late, by cases conn <;> rfl, by simp⟩

def cancel (w : WantConn) : WantConn × Option Nat := (⟨none, true, true, false, w.late, rfl, by simp⟩, w.conn)

def take (w : WantConn) : WantConn := { w with taken := w.conn.isSome, handed := by simp }

def timeout (w : WantConn) : WantConn := { w with late := true }

def pending (w : WantConn) : List Nat := if w.taken then [] else w.conn.toList

end WantConn

/-! ## The goroutines -/

inductive ConnPoolStrategy
  | FIFO
  | LIFO
  deriving DecidableEq, Repr

inductive Task
  /-- the first section of `acquireConn` -/
  | acquire
  | enqueue
  /-- the `select` over the waiter and the timer -/
  | waits (w : Nat)
  | timedOut (w : Nat)
  | failed (w : Nat)
  /-- `dialHostHard` of `acquireConn` -/
  | dials
  | gives
  | holds (c : Nat)
  | releases (c : Nat)
  | closes (cs : List Nat)
  /-- in `closeConn`, between `decConnsCount` and the end of `Close` -/
  | shuts (c : Nat) (cs : List Nat)
  /-- `dialHostHard` of `dialConnFor` -/
  | dialsFor (w : Nat)
  /-- `tryDeliver` of `dialConnFor`, with an error -/
  | failsFor (w : Nat)
  /-- `tryDeliver` of `dialConnFor`, with a connection -/
  | delivers (w : Nat) (c : Nat)
  deriving DecidableEq, Repr

/-! ## The pool -/

structure PoolConfig where
  maxConns : Int
  connPoolStrategy : ConnPoolStrategy
  waitFreeConnTimeout : Int
  deriving DecidableEq, Repr

/-- The `nil` queue is the empty one. -/
structure Pool where
  conns : List Nat
  connsCount : Int
  connsWait : WantConnQueue
  waiters : List WantConn
  tasks : List Task
  nextConn : Nat
  live : List Nat
  emptyPop : Bool
  deriving DecidableEq, Repr

namespace Pool

def new : Pool := ⟨[], 0, .empty, [], [], 0, [], false⟩

def add (p : Pool) (t : Task) : Pool := { p with tasks := t :: p.tasks }

def waiting (p : Pool) (w : Nat) : Bool := (p.waiters[w]?.map WantConn.waiting).getD false

def setWaiter (p : Pool) (w : Nat) (v : WantConn) : Pool := { p with waiters := p.waiters.set w v }

variable (cfg : PoolConfig)

def decConnsCount (p : Pool) : Pool :=
  if cfg.waitFreeConnTimeout = 0 then { p with connsCount := p.connsCount - 1 }
  else
    match p.connsWait.popWaiting p.waiting with
    | (some w, q, popped) => { p with connsWait := q, emptyPop := p.emptyPop || popped }.add (.dialsFor w)
    | (none, q, popped) =>
      { p with connsWait := q, emptyPop := p.emptyPop || popped, connsCount := p.connsCount - 1 }

def accepts (p : Pool) (c w : Nat) : Bool :=
  p.waiting w && (p.waiters[w]?.bind fun v => v.tryDeliver (some c)).isSome

def tryDeliver (p : Pool) (w : Nat) (conn : Option Nat) : Pool × Bool :=
  match p.waiters[w]?.bind fun v => v.tryDeliver conn with
  | some v => (p.setWaiter w v, true)
  | none => (p, false)

def releaseConn (c : Nat) (p : Pool) : Pool :=
  if cfg.waitFreeConnTimeout = 0 then { p with conns := p.conns ++ [c] }
  else
    match p.connsWait.popWaiting (p.accepts c) with
    | (some w, q, popped) => ({ p with connsWait := q, emptyPop := p.emptyPop || popped }.tryDeliver w (some c)).1
    | (none, q, popped) =>
      { p with connsWait := q, emptyPop := p.emptyPop || popped, conns := p.conns ++ [c] }

def queueForIdle (p : Pool) : Pool :=
  { p with
    connsWait := (p.connsWait.clearFront p.waiting).pushBack p.waiters.length
    waiters := p.waiters ++ [WantConn.new] }.add (.waits p.waiters.length)

def acquireConn (p : Pool) : Pool :=
  match p.conns with
  | [] =>
    if p.connsCount < cfg.maxConns ∨ cfg.maxConns < 0 then { p with connsCount := p.connsCount + 1 }.add .dials
    else if cfg.waitFreeConnTimeout = 0 then p
    else p.add .enqueue
  | c :: cs =>
    match cfg.connPoolStrategy with
    | .LIFO => { p with conns := (c :: cs).dropLast }.add (.holds ((c :: cs).getLast (by simp)))
    | .FIFO => { p with conns := cs }.add (.holds c)

def cancel (w : Nat) (p : Pool) : Pool :=
  match p.waiters[w]? with
  | none => p
  | some v =>
    match v.cancel with
    | (v, none) => p.setWaiter w v
    | (v, some c) => (p.setWaiter w v).add (.releases c)

def dialed (p : Pool) : Pool := { p with nextConn := p.nextConn + 1, live := p.live ++ [p.nextConn] }

def searchExpired (expired : Nat → Bool) (conns : List Nat) : Nat → Nat → Nat → Nat
  | 0, _, r => r
  | fuel + 1, l, r =>
    -- `r` is one more than in the source
    if l < r then
      if (conns[(l + r - 1) / 2]?.map expired).getD false then searchExpired expired conns fuel ((l + r - 1) / 2 + 1) r
      else searchExpired expired conns fuel l ((l + r - 1) / 2)
    else r

def clean (expired : Nat → Bool) (p : Pool) : Pool :=
  let i := searchExpired expired p.conns p.conns.length 0 p.conns.length
  if i = 0 then p
  else { p with conns := p.conns.drop i }.add (.closes (p.conns.take i))

def closeIdleConnections (p : Pool) : Pool := { p with conns := [] }.add (.closes p.conns)

def act (pick : Bool) (p : Pool) : Task → Option Pool
  | .acquire => some (p.acquireConn cfg)
  | .enqueue => some p.queueForIdle
  | .waits w =>
    match p.waiters[w]? with
    | none => none
    | some v =>
      if pick then
        if v.waiting then none
        else
          match v.conn with
          | some c => some ((p.setWaiter w v.take).add (.holds c))
          | none => some (p.add (.failed w))
      else if 0 < cfg.waitFreeConnTimeout then
        some ({ p.setWaiter w v.timeout with connsWait := p.connsWait.addFailed 1 }.add (.timedOut w))
      else none
  | .timedOut w => some (p.cancel w)
  | .failed w => some (p.cancel w)
  | .dials => if pick then some (p.dialed.add (.holds p.nextConn)) else some (p.add .gives)
  | .gives => some (p.decConnsCount cfg)
  | .holds c => if pick then some (p.releaseConn cfg c) else some (p.add (.closes [c]))
  | .releases c => some (p.releaseConn cfg c)
  | .closes [] => some p
  | .closes (c :: cs) => some ((p.decConnsCount cfg).add (.shuts c cs))
  | .shuts c cs => some ({ p with live := p.live.erase c }.add (.closes cs))
  | .dialsFor w => if pick then some (p.dialed.add (.delivers w p.nextConn)) else some (p.add (.failsFor w))
  | .failsFor w => some ((p.tryDeliver w none).1.add .gives)
  | .delivers w c =>
    match p.tryDeliver w (some c) with
    | (p, true) => some p
    | (p, false) => some (p.add (.releases c))

inductive Action
  | call
  | closeIdle
  | clean (expired : Nat → Bool)
  | run (i : Nat) (pick : Bool)

def step (p : Pool) : Action → Option Pool
  | .call => some (p.add .acquire)
  | .closeIdle => some p.closeIdleConnections
  | .clean expired => some (p.clean expired)
  | .run i pick =>
    match p.tasks[i]? with
    | none => none
    | some t => { p with tasks := p.tasks.eraseIdx i }.act cfg pick t

def machine : Machine Pool Action := ⟨step cfg⟩

def run (as : List Action) : Pool := (machine cfg).exec new as

end Pool

end Fasthttp
