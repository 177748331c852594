import Fasthttp.Response.Write

/-!
# One connection of a server

`Server.serveConn` of `server.go`.
-/

namespace Fasthttp

open Bufio Reader

def strResponseContinue : Bytes := ascii "HTTP/1.1 100 Continue\r\n\r\n"

def strResponseContinueFail : Bytes :=
  ["HTTP/1.1 417 Expectation Failed\r\n", "Connection: close\r\n", "Content-Length: 0\r\n\r\n"].flatMap ascii

def errHTTPResponseStr (statusCode : String) (statusText : String) : Bytes :=
  ["HTTP/1.1 ", statusCode, " ", statusText, "\r\n", "Content-Type: text/plain; charset=utf-8\r\n",
    "Connection: close\r\n\r\n"].flatMap ascii

namespace RequestHeader

def methodValue (h : RequestHeader) : Bytes := if h.method = [] then strGet else h.method

def isGet (h : RequestHeader) : Bool := h.methodValue = strGet
def isHead (h : RequestHeader) : Bool := h.methodValue = strHead
def isPost (h : RequestHeader) : Bool := h.methodValue = strPost

def mayContinue (h : RequestHeader) : Bool := peekArgBytes h.h strExpect = str100Continue

end RequestHeader

structure Server where
  reduceMemoryUsage : Bool
  getOnly : Bool
  disableKeepalive : Bool
  disableHeaderNamesNormalizing : Bool
  streamRequestBody : Bool
  discardUnReadRequestBodyStream : Bool
  disablePreParseMultipartForm : Bool
  closeOnShutdown : Bool
  maxRequestBodySize : Int
  readBufferSize : Nat
  name : Bytes
  headerReceived : Option (RequestHeader → Int)
  continueHandler : Option (RequestHeader → Bool)
  multipart : MultipartParser

inductive Input
  | reader (br : Reader Byte Err)
  /-- the reader was given back, nothing was buffered -/
  | conn (src : Source Byte Err)

def Input.unread : Input → Bytes
  | reader br => br.unread
  | conn src => src.items

structure ServerConn where
  input : Input
  fresh : Bool
  prevMethodIsPost : Bool

/-- What the bytes do not decide of a round: how often the handler reads a streamed body, the slices into which the
rest is discarded, the response, the clock, the flag of a shutdown and the calls that fail. -/
structure Turn where
  sizes : Nat → Nat
  reads : Nat
  discardSizes : Nat → Nat
  discardSizes_pos : ∀ i, 0 < discardSizes i
  cap : Nat
  /-- a deadline, or the response to an expectation, before the handler is called -/
  fails : Bool
  hijacked : Bool
  hijackHandler : Bool
  hijackNoResponse : Bool
  reply : OutResponse
  date : Bytes
  stop : Bool
  /-- a deadline behind the handler, or the writer -/
  writeFails : Bool

structure Received where
  header : RequestHeader
  input : Input

structure Round where
  sent : List Bytes
  next : Option ServerConn

namespace Server

/-! ## The first byte -/

variable (s : Server)

def readerSize : Nat := max 16 (if s.readBufferSize = 0 then 4096 else s.readBufferSize)

theorem readerSize_least : 16 ≤ s.readerSize := Nat.le_max_left _ _

def acquireReader (src : Source Byte Err) : Reader Byte Err := .new s.readerSize src s.readerSize_least

/-- The first byte is read alone and delivered again in front of the next bytes. -/
def acquireByteReader (src : Source Byte Err) : Option (Reader Byte Err) :=
  match src.chunk 1 with
  | [] => none
  | b :: _ => some (s.acquireReader ((src.rest 1).push b))

def accept (src : Source Byte Err) : ServerConn :=
  ⟨if s.reduceMemoryUsage then .conn src else .reader (s.acquireReader src), true, false⟩

def await (c : ServerConn) : Option (Reader Byte Err) :=
  match c.input with
  | .conn src => s.acquireByteReader src
  | .reader br =>
    if c.fresh then some br
    else match br.peek 1 with
      | (.all _, br) => some br
      | _ => none

/-! ## The request -/

def headerErrStr (e : Err) : Bytes :=
  match e with
  | .headerBufferSmall => errHTTPResponseStr "431" "Request Header Fields Too Large"
  | .unsupportedTE _ _ => errHTTPResponseStr "501" "Not Implemented"
  | .headerParse what val =>
    if ascii "unsupported HTTP version" <:+: ascii what ++ [colonChar] ++ val then
      errHTTPResponseStr "505" "HTTP Version Not Supported"
    else errHTTPResponseStr "400" "Bad Request"
  | _ => errHTTPResponseStr "400" "Bad Request"

def bodyErrStr (e : Err) : Bytes :=
  if e = .bodyTooLarge then errHTTPResponseStr "413" "Request Entity Too Large" else errHTTPResponseStr "400" "Bad Request"

def freshHeader : RequestHeader := { RequestHeader.zero with disableNormalizing := s.disableHeaderNamesNormalizing }

def parseStart (c : ServerConn) : Option (Reader Byte Err) :=
  (s.await c).map fun br => if c.prevMethodIsPost then RequestHeader.skipLineEnds br else br

def readHeader (c : ServerConn) : Except (List Bytes) (RequestHeader × Reader Byte Err) :=
  match s.await c with
  | none => .error []
  | some br =>
    match s.freshHeader.readLoop br c.prevMethodIsPost true with
    | (some e, _, _) => .error [headerErrStr e]
    | (none, h, br) =>
      if s.getOnly && !h.isGet && !h.isHead then .error [errHTTPResponseStr "405" "Method Not Allowed"] else .ok (h, br)

def maxBodySize (h : RequestHeader) : Int :=
  let own := if 0 < s.maxRequestBodySize then s.maxRequestBodySize else 4 * 1024 * 1024
  match s.headerReceived with
  | some f => if 0 < f h then f h else own
  | none => own

def continues (h : RequestHeader) : Bool × List Bytes :=
  if h.mayContinue then
    let ok := match s.continueHandler with
      | some f => f h
      | none => true
    (ok, [if ok then strResponseContinue else strResponseContinueFail])
  else (true, [])

def request (h : RequestHeader) : Request := ⟨h, [], none, s.discardUnReadRequestBodyStream⟩

def readBody (s : Server) (x : Turn) (h : RequestHeader) (br : Reader Byte Err) : Option Err × Request × Reader Byte Err :=
  if s.streamRequestBody then (s.request h).readBodyStream s.multipart br (s.maxBodySize h) (!s.disablePreParseMultipartForm)
  else (s.request h).readBody s.multipart br (s.maxBodySize h) (!s.disablePreParseMultipartForm) x.cap

def release (br : Reader Byte Err) : Input :=
  if s.reduceMemoryUsage && !s.streamRequestBody && br.buffered = 0 then .conn br.src else .reader br

def handle (x : Turn) (req : Request) (br : Reader Byte Err) : Option Err × Input :=
  match req.bodyStream with
  | none => (none, s.release br)
  | some stream =>
    let q := stream.drain x.sizes x.reads br
    let p := Request.closeBodyStream { req with bodyStream := some q.2.2.1 } x.discardSizes q.2.2.2
    (p.1, .reader p.2.2)

def receive (c : ServerConn) (x : Turn) : List Bytes × Option Received :=
  match s.readHeader c with
  | .error str => (str, none)
  | .ok (h, br) =>
    let w := s.continues h
    if x.fails then ([], none)
    else if !w.1 then (w.2, none)
    else match s.readBody x h br with
      | (some e, _, _) => (w.2 ++ [bodyErrStr e], none)
      | (none, req, br) =>
        match s.handle x req br with
        | (some _, _) => (w.2, none)
        | (none, input) => (w.2, some ⟨req.header, input⟩)

/-! ## The response -/

def closing (h : RequestHeader) (x : Turn) : Bool :=
  s.disableKeepalive || h.connectionClose || x.reply.header.connectionClose || s.closeOnShutdown && x.stop

def replyHeader (h : RequestHeader) (x : Turn) : ResponseHeader :=
  let r := x.reply.header
  { r with
    headMethod := r.headMethod || h.isHead
    connectionClose := s.closing h x
    h := if !s.closing h x && h.noHTTP11 then setArg r.h strConnection strKeepAlive false else r.h
    server := if r.server = [] then s.name else r.server }

def reply (s : Server) (h : RequestHeader) (x : Turn) : OutResponse :=
  { x.reply with header := s.replyHeader h x, skipBody := x.reply.skipBody || h.isHead }

/-- Up to four line ends behind a POST are skipped, as far as they are buffered. -/
def dropLineEnds (input : Input) : Input :=
  match input with
  | .reader br => .reader (br.discard (numLeadingCRorLF (br.buf.take 4)))
  | .conn src => .conn src

def respond (x : Turn) (r : Received) : Round :=
  let h := r.header
  let next (input : Input) : Option ServerConn := if x.hijackHandler || x.stop then none else some ⟨input, false, h.isPost⟩
  if x.hijacked then ⟨[], none⟩
  else if x.hijackNoResponse && x.hijackHandler then ⟨[], none⟩
  else
    let w := (s.reply h x).write x.date
    match w.body with
    | .error _ => ⟨[w.block], none⟩
    | .ok _ =>
      if x.writeFails || s.closing h x then ⟨[w.block], none⟩
      else ⟨[w.block], next (if h.isPost then dropLineEnds r.input else r.input)⟩

def round (c : ServerConn) (x : Turn) : Round :=
  match s.receive c x with
  | (sent, none) => ⟨sent, none⟩
  | (sent, some r) => ⟨sent ++ (s.respond x r).sent, (s.respond x r).next⟩

def machine : Machine (Option ServerConn) Turn where
  step
    | some c, x => some (s.round c x).next
    | none, _ => none

/-! ## What a round can do -/

variable {s : Server} {c : ServerConn} {x : Turn}

theorem receive_some {r : Received} (h : (s.receive c x).2 = some r) :
    ∃ hd br req br', s.readHeader c = .ok (hd, br) ∧ (s.continues hd).1 = true ∧ (s.receive c x).1 = (s.continues hd).2 ∧
      s.readBody x hd br = (none, req, br') ∧ s.handle x req br' = (none, r.input) ∧ r.header = req.header := by
  unfold receive at h ⊢
  rcases hread : s.readHeader c with str | ⟨hd, br⟩ <;> simp only [hread] at h ⊢
  · cases h
  by_cases hfail : x.fails = true
  · simp [hfail] at h
  by_cases hcont : (s.continues hd).1 = true
  swap
  · simp [hfail, hcont] at h
  simp only [hfail, hcont] at h ⊢
  rcases hbody : s.readBody x hd br with ⟨_ | e, req, br'⟩ <;> simp only [hbody] at h ⊢
  swap
  · cases h
  rcases hhandle : s.handle x req br' with ⟨_ | e, input⟩ <;> simp only [hhandle] at h ⊢
  swap
  · cases h
  cases h
  exact ⟨hd, br, req, br', rfl, hcont, rfl, hbody, hhandle, rfl⟩

/-- The connection is not read any more, for a reason that does not depend on the header block. -/
def Ends (h : RequestHeader) (x : Turn) : Prop :=
  s.closing h x = true ∨ x.hijacked = true ∨ x.hijackHandler = true ∨ x.stop = true ∨ x.writeFails = true ∨
    ((s.reply h x).write x.date).body.isOk = false

instance (s : Server) (h : RequestHeader) (x : Turn) : Decidable (s.Ends h x) := inferInstanceAs (Decidable (_ ∨ _))

theorem respond_ends {r : Received} (h : s.Ends r.header x) : (s.respond x r).next = none := by
  unfold respond
  by_cases hhij : x.hijacked = true
  · simp [hhij]
  by_cases hno : (x.hijackNoResponse && x.hijackHandler) = true
  · simp [hno]
  simp only [hhij, hno]
  rcases hb : ((s.reply r.header x).write x.date).body with e | b
  · rfl
  by_cases hclose : (x.writeFails || s.closing r.header x) = true
  · simp [hclose]
  simp only [Ends, hb, hhij] at h
  simp only [Bool.or_eq_true, not_or] at hclose
  have hnext : (x.hijackHandler || x.stop) = true := by
    rcases h with h | h | h | h | h | h
    exacts [absurd h hclose.2, by simp at h, by simp [h], by simp [h], absurd h hclose.1, by cases h]
  simp [hnext]

theorem respond_stays {r : Received} (h : ¬ s.Ends r.header x) :
    s.respond x r = ⟨[((s.reply r.header x).write x.date).block],
      some ⟨if r.header.isPost then dropLineEnds r.input else r.input, false, r.header.isPost⟩⟩ := by
  simp only [Ends, not_or, Bool.not_eq_false] at h
  obtain ⟨hclose, hhij, hhandler, hstop, hfail, hok⟩ := h
  unfold respond
  rcases hb : ((s.reply r.header x).write x.date).body with e | b
  · rw [hb] at hok
    cases hok
  · simp [hclose, hhij, hhandler, hstop, hfail, hb]

/-! ## A plain server -/

def plain : Server where
  reduceMemoryUsage := false
  getOnly := false
  disableKeepalive := false
  disableHeaderNamesNormalizing := false
  streamRequestBody := false
  discardUnReadRequestBodyStream := false
  disablePreParseMultipartForm := false
  closeOnShutdown := false
  maxRequestBodySize := 0
  readBufferSize := 0
  name := []
  headerReceived := none
  continueHandler := none
  multipart := ⟨fun _ b => (b.length, none), fun _ _ => Nat.le_refl _⟩

def answers (header : ResponseHeader) (body : Bytes) : Turn where
  sizes := fun _ => 1
  reads := 0
  discardSizes := fun _ => 1
  discardSizes_pos := fun _ => Nat.one_pos
  cap := 0
  fails := false
  hijacked := false
  hijackHandler := false
  hijackNoResponse := false
  reply := ⟨header, none, none, body, none, none, false⟩
  date := []
  stop := false
  writeFails := false

end Server

end Fasthttp
