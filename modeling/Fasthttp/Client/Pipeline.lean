import Fasthttp.Lib.Machine

/-!
# The pipelined client

`pipelineConnClient` of `client.go`: callers put work items into `chW`, a writer sends their requests over a
connection and passes the items on to `chR`, and a reader stores the responses.
-/

namespace Fasthttp

/-- A call of `Do` or, with a deadline, of `DoDeadline`: whether the method is HEAD, and the flags of the response -/
structure PipelineCall where
  deadline : Bool := false
  head : Bool := false
  skipBody : Bool := false
  streamBody : Bool := false
  deriving DecidableEq, Repr

/-- `Response.Read` takes the body that a header announces, or the stream over it does. The response that `DoDeadline`
reads into is its own and has no flags. -/
def PipelineCall.takes (c : PipelineCall) (streamed : Bool) : Bool :=
  if !c.deadline && c.skipBody then false else if !c.deadline && c.streamBody then streamed else true

/-- A body is taken that is not there, as behind the answer to HEAD, or one is left that is. -/
def PipelineCall.misreads (c : PipelineCall) : Option Bool → Bool
  | none => false
  | some streamed => c.takes streamed == c.head

structure PipelineWork where
  call : PipelineCall
  done : Nat
  signals : Nat
  wrote : Option (Nat × Nat)
  deriving DecidableEq, Repr

inductive PipelineEvent
  | recv
  | send
  | timeout
  | idle
  | stop
  | flush (ok : Bool)
  | ok
  /-- a response whose header announces a body, and whether a stream takes it before the next response is read -/
  | body (streamed : Bool)
  | fail
  | expired
  deriving DecidableEq, Repr

inductive PipelineCaller
  | inits (call : PipelineCall)
  | acquires (call : PipelineCall)
  /-- the first `select` over `chW` -/
  | sends (deadline : Bool) (w : Nat)
  /-- `Do`: takes the oldest item from `chW` -/
  | replaces (w : Nat)
  /-- `Do`: signals to the item it took -/
  | tells (w old : Nat)
  /-- `Do`: the last `select` over `chW` -/
  | resends (w : Nat)
  /-- `DoDeadline`: comes to the slow path -/
  | slows (w : Nat)
  /-- `DoDeadline`: waits for room in the channel or for the timer -/
  | blocks (w : Nat) (ch : Option Nat)
  | waits (deadline : Bool) (w : Nat)
  deriving DecidableEq, Repr

structure WriterVars where
  chR : Option Nat
  chW : Option Nat
  flush : Bool
  deriving DecidableEq, Repr

inductive PipelineWriter
  /-- reads `c.chR` -/
  | opens
  /-- reads `c.chW` -/
  | opensW (chR : Option Nat)
  | picks (l : WriterVars)
  | sleeps (l : WriterVars)
  | has (l : WriterVars) (w : Nat)
  | skips (l : WriterVars) (w : Nat)
  | pushes (l : WriterVars) (w : Nat)
  | stalls (l : WriterVars) (w : Nat)
  | fails (w : Nat) (err : Bool)
  | ended (err : Bool)
  deriving DecidableEq, Repr

inductive PipelineReader
  | opens
  | picks (chR : Option Nat)
  | sleeps (chR : Option Nat)
  | has (chR : Option Nat) (w : Nat)
  | tells (chR : Option Nat) (w : Nat)
  | fails (w : Nat)
  | ended (err : Bool)
  deriving DecidableEq, Repr

inductive PipelineMaster
  | dials
  | waits
  | waitsR (err : Bool)
  | waitsW (err : Bool)
  /-- looks at the length of `c.chR` -/
  | drains (err : Bool)
  | takes (err : Bool)
  | tells (err : Bool) (w : Nat)
  /-- the section after a worker without an error -/
  | checks
  deriving DecidableEq, Repr

structure PipelineWorker where
  master : PipelineMaster
  conn : Nat
  writer : PipelineWriter
  reader : PipelineReader
  stopW : Bool
  stopR : Bool
  /-- the TLS handshake failed (`expired`), which `worker` does not check: `conn` is nil -/
  broken : Bool
  deriving DecidableEq, Repr

structure PipelineConn where
  written : Nat
  received : Nat
  deriving DecidableEq, Repr

/-- The last four fields are ghosts: a response was stored for another request, a signal found its channel full, the
connections on which the reader has lost the start of the next response, and one of them was read from. -/
structure Pipeline where
  works : List PipelineWork
  workPool : List Nat
  chans : List (List Nat)
  chR : Option Nat
  chW : Option Nat
  callers : List PipelineCaller
  workers : List PipelineWorker
  conns : List PipelineConn
  mixed : Bool
  jammed : Bool
  lost : List Nat
  garbled : Bool
  deriving DecidableEq, Repr

namespace Pipeline

def new : Pipeline := ⟨[], [], [], none, none, [], [], [], false, false, [], false⟩

def defaultMaxPendingRequests : Nat := 1024

def capacity (maxPendingRequests : Int) : Nat :=
  if maxPendingRequests ≤ 0 then defaultMaxPendingRequests else maxPendingRequests.toNat

/-! ## Channels and items -/

variable (p : Pipeline)

/-- A `nil` channel is never ready. -/
def buf : Option Nat → List Nat
  | some x => p.chans[x]?.getD []
  | none => []

def room (n : Int) (p : Pipeline) : Option Nat → Bool
  | some x => (p.chans[x]?.map fun b => decide (b.length < capacity n)).getD false
  | none => false

def push (ch : Option Nat) (w : Nat) : Pipeline :=
  match ch with
  | some x => { p with chans := p.chans.set x (p.buf ch ++ [w]) }
  | none => p

def pop (ch : Option Nat) : Pipeline :=
  match ch with
  | some x => { p with chans := p.chans.set x (p.buf ch).tail }
  | none => p

def addCaller (c : PipelineCaller) : Pipeline := { p with callers := c :: p.callers }

def addWorker (k : PipelineWorker) : Pipeline := { p with workers := k :: p.workers }

def tell (w : Nat) : Pipeline :=
  match p.works[w]? with
  | some v =>
    { p with
      works := p.works.set w { v with done := 1, signals := v.signals + 1 }
      jammed := p.jammed || v.done != 0 }
  | none => p

def releasePipelineWork (w : Nat) : Pipeline := { p with workPool := w :: p.workPool }

def acquirePipelineWork (n : Nat) (call : PipelineCall) : Nat × Pipeline :=
  match p.workPool[n]? with
  | some w =>
    match p.works[w]? with
    | some v =>
      (w, { p with workPool := p.workPool.eraseIdx n, works := p.works.set w ⟨call, v.done, 0, none⟩ })
    | none => (w, { p with workPool := p.workPool.eraseIdx n })
  | none => (p.works.length, { p with works := p.works ++ [PipelineWork.mk call 0 0 none] })

def worker : PipelineWorker := ⟨.dials, 0, .ended false, .ended false, false, false, false⟩

def init : Pipeline :=
  match p.chR with
  | some _ => p
  | none =>
    let q := { p with chR := some p.chans.length, chans := p.chans ++ [[]] }
    match p.chW with
    | some _ => q.addWorker worker
    | none => { q with chW := some q.chans.length, chans := q.chans ++ [[]] }.addWorker worker

/-! ## The callers -/

def callerStep (n : Int) (p : Pipeline) (i : Nat) (e : PipelineEvent) : PipelineCaller → Option Pipeline
  | .inits call =>
    match e with
    -- the deadline has passed already
    | .timeout => if call.deadline then some p.init else none
    | _ => some (p.init.addCaller (.acquires call))
  | .acquires call =>
    let (w, p) := p.acquirePipelineWork i call
    some (p.addCaller (.sends call.deadline w))
  | .sends deadline w =>
    if p.room n p.chW then some ((p.push p.chW w).addCaller (.waits deadline w))
    else some (p.addCaller (if deadline then .slows w else .replaces w))
  | .replaces w =>
    match p.buf p.chW with
    | old :: _ => some ((p.pop p.chW).addCaller (.tells w old))
    | [] => some (p.addCaller (.resends w))
  | .tells w old => some ((p.tell old).addCaller (.resends w))
  | .resends w =>
    if p.room n p.chW then some ((p.push p.chW w).addCaller (.waits false w))
    else some (p.releasePipelineWork w)
  | .slows w => some (p.addCaller (.blocks w p.chW))
  | .blocks w ch =>
    match e with
    | .send => if p.room n ch then some ((p.push ch w).addCaller (.waits true w)) else none
    | .timeout => some (p.releasePipelineWork w)
    | _ => none
  | .waits deadline w =>
    match e with
    | .recv =>
      match p.works[w]? with
      | some v =>
        if v.done = 0 then none
        else some ({ p with works := p.works.set w { v with done := 0 } }.releasePipelineWork w)
      | none => none
    | .timeout => if deadline then some p else none
    | _ => none

/-! ## The writer -/

def write (conn w : Nat) : Pipeline :=
  match p.conns[conn]?, p.works[w]? with
  | some c, some v =>
    { p with
      conns := p.conns.set conn { c with written := c.written + 1 }
      works := p.works.set w { v with wrote := some (conn, c.written) } }
  | _, _ => p

def writerStep (n : Int) (p : Pipeline) (k : PipelineWorker) (e : PipelineEvent) : PipelineWriter → Option (Pipeline × PipelineWriter)
  | .opens => some (p, .opensW p.chR)
  | .opensW chR => some (p, .picks ⟨chR, p.chW, false⟩)
  | .picks l =>
    match p.buf l.chW with
    | w :: _ => some (p.pop l.chW, .has l w)
    | [] => some (p, .sleeps l)
  | .sleeps l =>
    match e with
    | .recv =>
      match p.buf l.chW with
      | w :: _ => some (p.pop l.chW, .has l w)
      | [] => none
    | .idle => some (p, .ended false)
    | .stop => if k.stopW then some (p, .ended false) else none
    | .flush ok => if l.flush then some (p, if ok then .picks { l with flush := false } else .ended true) else none
    | _ => none
  | .has l w =>
    match e with
    | .expired => if (p.works[w]?.map (·.call.deadline)).getD false then some (p, .skips l w) else none
    | .fail => some (p, .fails w true)
    | .ok =>
      -- the timer to flush is set when it is not set and there is no more to write or no room to read
      some (p.write k.conn w,
        .pushes { l with flush := l.flush || (p.buf l.chW).isEmpty || !p.room n l.chR } w)
    | _ => none
  | .skips l w => some (p.tell w, .picks l)
  | .pushes l w => if p.room n l.chR then some (p.push l.chR w, .picks l) else some (p, .stalls l w)
  | .stalls l w =>
    match e with
    | .send => if p.room n l.chR then some (p.push l.chR w, .picks l) else none
    | .stop => if k.stopW then some (p, .fails w false) else none
    | .flush ok => if l.flush then some (p, if ok then .pushes { l with flush := false } w else .fails w true) else none
    | _ => none
  | .fails w err => some (p.tell w, .ended err)
  | .ended _ => none

/-! ## The reader -/

def read (conn w : Nat) (body : Option Bool) : Option Pipeline :=
  match p.conns[conn]?, p.works[w]? with
  | some c, some v =>
    if c.received < c.written then
      some { p with
        conns := p.conns.set conn { c with received := c.received + 1 }
        mixed := p.mixed || v.wrote != some (conn, c.received)
        lost := if v.call.misreads body then conn :: p.lost else p.lost
        garbled := p.garbled || p.lost.contains conn }
    else none
  | _, _ => none

def readerStep (k : PipelineWorker) (e : PipelineEvent) : PipelineReader → Option (Pipeline × PipelineReader)
  | .opens => some (p, .picks p.chR)
  | .picks chR =>
    match p.buf chR with
    | w :: _ => some (p.pop chR, .has chR w)
    | [] => some (p, .sleeps chR)
  | .sleeps chR =>
    match e with
    | .recv =>
      match p.buf chR with
      | w :: _ => some (p.pop chR, .has chR w)
      | [] => none
    | .stop => if k.stopR then some (p, .ended false) else none
    | _ => none
  | .has chR w =>
    match e with
    | .ok => (p.read k.conn w none).map fun p => (p, .tells chR w)
    | .body streamed => (p.read k.conn w (some streamed)).map fun p => (p, .tells chR w)
    | .fail => some (p, .fails w)
    | _ => none
  | .tells chR w => some (p.tell w, .picks chR)
  | .fails w => some (p.tell w, .ended true)
  | .ended _ => none

def masterStep (k : PipelineWorker) (e : PipelineEvent) : Option Pipeline :=
  match k.master with
  | .dials =>
    match e with
    | .fail => some (p.addWorker k)
    | _ =>
      if e = .ok ∨ e = .expired then
        some ({ p with conns := p.conns ++ [PipelineConn.mk 0 0] }.addWorker
          ⟨.waits, p.conns.length, .opens, .opens, false, false, e = PipelineEvent.expired⟩)
      else none
  | .waits =>
    match e with
    -- from the writer
    | .recv =>
      match k.writer with
      | .ended err => some (p.addWorker { k with master := .waitsR err, stopR := true })
      | _ => none
    -- from the reader
    | .stop =>
      match k.reader with
      | .ended err => some (p.addWorker { k with master := .waitsW err, stopW := true })
      | _ => none
    | _ => none
  | .waitsR err =>
    match k.reader with
    | .ended _ => some (p.addWorker { k with master := .drains err })
    | _ => none
  | .waitsW err =>
    match k.writer with
    | .ended _ => some (p.addWorker { k with master := .drains err })
    | _ => none
  | .drains err =>
    match p.buf p.chR with
    | [] => some (p.addWorker { k with master := if err then .dials else .checks })
    | _ :: _ => some (p.addWorker { k with master := .takes err })
  | .takes err =>
    match p.buf p.chR with
    | [] => none
    | w :: _ => some ((p.pop p.chR).addWorker { k with master := .tells err w })
  | .tells err w => some ((p.tell w).addWorker { k with master := .drains err })
  | .checks =>
    if (p.buf p.chR).isEmpty && (p.buf p.chW).isEmpty then some p
    else some ({ p with chR := none, chW := none }.addWorker { k with master := .dials })

inductive Part
  | master
  | writer
  | reader
  deriving DecidableEq, Repr

/-- A method of a nil connection is called, which ends the process. -/
def panics (k : PipelineWorker) (e : PipelineEvent) : Part → Bool
  | .master => k.broken && k.master = .waits
  | .writer =>
    k.broken && match k.writer with
    | .has _ _ => e ≠ .expired
    | _ => false
  | .reader =>
    k.broken && match k.reader with
    | .has _ _ => true
    | _ => false

def partStep (n : Int) (p : Pipeline) (k : PipelineWorker) (e : PipelineEvent) : Part → Option Pipeline
  | .master => p.masterStep k e
  | .writer => (p.writerStep n k e k.writer).map fun (p, w) => p.addWorker { k with writer := w }
  | .reader => (p.readerStep k e k.reader).map fun (p, r) => p.addWorker { k with reader := r }

def workerStep (n : Int) (p : Pipeline) (k : PipelineWorker) (e : PipelineEvent) (part : Part) : Option Pipeline :=
  if panics k e part then none else p.partStep n k e part

/-- The number of a caller's step says which item the pool hands out. -/
inductive Action
  | call (call : PipelineCall)
  | caller (c i : Nat) (e : PipelineEvent)
  | worker (g : Nat) (part : Part) (e : PipelineEvent)
  deriving DecidableEq, Repr

def step (n : Int) (p : Pipeline) : Action → Option Pipeline
  | .call call => some (p.addCaller (.inits call))
  | .caller c i e =>
    match p.callers[c]? with
    | some t => { p with callers := p.callers.eraseIdx c }.callerStep n i e t
    | none => none
  | .worker g part e =>
    match p.workers[g]? with
    | some k => { p with workers := p.workers.eraseIdx g }.workerStep n k e part
    | none => none

def machine (n : Int) : Machine Pipeline Action := ⟨step n⟩

def run (n : Int) (as : List Action) : Pipeline := (machine n).exec new as

end Pipeline

end Fasthttp
