import Fasthttp.Body.Taken
import Fasthttp.Header.Consumed
import Fasthttp.Server.Conn

/-!
# Where the next request starts

The requests of a connection follow each other without a gap.
-/

namespace Fasthttp

open Bufio Reader List

/-! ## Requests as they are on the wire -/

def bodyEnd (h : RequestHeader) (t : Bytes) : Option Nat :=
  if h.contentLength = -1 then
    if (chunks 0 t).stop = .done then (blockEnd (t.drop (chunks 0 t).len)).map ((chunks 0 t).len + ·) else none
  else if h.contentLength ≤ t.length then some h.contentLength.toNat else none

def requestEnd (h : RequestHeader) (t : Bytes) : Option Nat :=
  (headerEnd t).bind fun e => (bodyEnd h (t.drop e)).map (e + ·)

variable {h : RequestHeader}

namespace Request

variable {h : RequestHeader} {d : Bool} {m : MultipartParser} {r r' : Reader Byte Err} {req : Request} {maxBodySize : Int}
  {preParseMultipartForm : Bool} {cap : Nat}

def takesForm (req : Request) (preParseMultipartForm : Bool) : Bool :=
  0 < req.header.contentLength && req.preParse preParseMultipartForm

def NotChunks (h : RequestHeader) (t : Bytes) : Prop := ∀ n ∈ bodyEnd h t, (chunks 0 (t.drop n)).stop ≠ .done

instance (h : RequestHeader) (t : Bytes) : Decidable (NotChunks h t) := inferInstanceAs (Decidable (∀ n ∈ bodyEnd h t, _))

/-- What the handler must have read of a streamed body at the start of `t`, and how its reads must have ended. -/
def Finishes (discard : Bool) (h : RequestHeader) (maxBodySize : Int) (size : Nat) (t : Bytes) (q : Bytes × Option Err) : Prop :=
  if h.contentLength = -1 then
    if discard then q.2 = none ∨ q.2 = some .eof ∧ NotChunks h t else q.2 = some .eof
  else discard = true ∨ h.contentLength ≤ readAhead h.contentLength maxBodySize + size ∨ (q.1.length : Int) = h.contentLength

instance (discard : Bool) (h : RequestHeader) (maxBodySize : Int) (size : Nat) (t : Bytes) (q : Bytes × Option Err) :
    Decidable (Finishes discard h maxBodySize size t q) :=
  inferInstanceAs (Decidable (if h.contentLength = -1 then if discard then _ ∨ _ else _ = _ else _ ∨ _))

open RequestStream BodyStream

variable {discardSizes : Nat → Nat} {s' : BodyStream}

end Request

/-! ## Line ends behind a POST -/

namespace Server

variable {br : Reader Byte Err} {input : Input} {t : Bytes}

variable {s : Server} {c : ServerConn} {x : Turn}

def takesForm (s : Server) (h : RequestHeader) : Bool := (s.request h).takesForm (!s.disablePreParseMultipartForm)

def handlerReads (s : Server) (x : Turn) (h : RequestHeader) (br : Reader Byte Err) : Bytes × Option Err :=
  match (s.readBody x h br).2.1.bodyStream with
  | some stream =>
    let q := stream.drain x.sizes x.reads (s.readBody x h br).2.2
    (q.1, q.2.1)
  | none => ([], none)

/-- The conditions on a request with the header `h` that starts with `t` and is read from `br` behind it. -/
structure Delimited (s : Server) (x : Turn) (t : Bytes) (h : RequestHeader) (br : Reader Byte Err) : Prop where
  line : lineEnd t < 2 ^ 31
  header : NoFold (t.drop (lineEnd t))
  trailer : h.contentLength = -1 → (chunks 0 br.unread).stop = .done → NoFold (br.unread.drop (chunks 0 br.unread).len)
  /-- the parser of forms takes the whole body -/
  form : s.takesForm h = true →
    ((s.multipart.run h.multipartFormBoundary (br.unread.take h.contentLength.toNat)).1 : Int) = h.contentLength
  stream : s.streamRequestBody = true → s.takesForm h = false → h.contentLength ≠ 0 →
    Request.Finishes s.discardUnReadRequestBodyStream h (s.maxBodySize h) br.size br.unread (s.handlerReads x h br)
  /-- the error with which the connection ends is not one of those that set up a stream -/
  error : br.src.last ≠ .bodyTooLarge ∧ br.src.last ≠ .chunkedStream
  post : h.isPost = true → (requestEnd h t).all (fun n => numLeadingCRorLF (t.drop n) = 0) = true

instance (s : Server) (x : Turn) (t : Bytes) (h : RequestHeader) (br : Reader Byte Err) : Decidable (s.Delimited x t h br) :=
  decidable_of_iff (lineEnd t < 2 ^ 31 ∧ NoFold (t.drop (lineEnd t)) ∧
      (h.contentLength = -1 → (chunks 0 br.unread).stop = .done → NoFold (br.unread.drop (chunks 0 br.unread).len)) ∧
      (s.takesForm h = true →
        ((s.multipart.run h.multipartFormBoundary (br.unread.take h.contentLength.toNat)).1 : Int) = h.contentLength) ∧
      (s.streamRequestBody = true → s.takesForm h = false → h.contentLength ≠ 0 →
        Request.Finishes s.discardUnReadRequestBodyStream h (s.maxBodySize h) br.size br.unread (s.handlerReads x h br)) ∧
      (br.src.last ≠ .bodyTooLarge ∧ br.src.last ≠ .chunkedStream) ∧
      (h.isPost = true → (requestEnd h t).all (fun n => numLeadingCRorLF (t.drop n) = 0) = true))
    ⟨fun ⟨line, header, trailer, form, stream, error, post⟩ => ⟨line, header, trailer, form, stream, error, post⟩,
      fun ⟨line, header, trailer, form, stream, error, post⟩ => ⟨line, header, trailer, form, stream, error, post⟩⟩

structure Begun where
  bytes : Bytes
  header : RequestHeader
  reader : Reader Byte Err

def begun (s : Server) (c : ServerConn) : Option Begun :=
  match s.parseStart c, s.readHeader c with
  | some r, .ok (h, br) => some ⟨r.unread, h, br⟩
  | _, _ => none

def restart (s : Server) (c : ServerConn) (x : Turn) : Option Bytes :=
  ((s.round c x).next.bind s.parseStart).map Reader.unread

def Exact (s : Server) (o : Option ServerConn) (x : Turn) : Prop :=
  ∀ c ∈ o, ∀ t ∈ s.restart c x, ∃ q ∈ s.begun c, (requestEnd q.header q.bytes).map q.bytes.drop = some t

def Fair (s : Server) (o : Option ServerConn) (x : Turn) : Prop :=
  ∀ c ∈ o, ∀ q ∈ s.begun c, s.Delimited x q.bytes q.header q.reader

instance (s : Server) (o : Option ServerConn) (x : Turn) : Decidable (s.Exact o x) :=
  inferInstanceAs (Decidable (∀ c ∈ o, ∀ t ∈ s.restart c x, ∃ q ∈ s.begun c, _ = some t))

instance (s : Server) (o : Option ServerConn) (x : Turn) : Decidable (s.Fair o x) :=
  inferInstanceAs (Decidable (∀ c ∈ o, ∀ q ∈ s.begun c, _))

end Server

end Fasthttp
