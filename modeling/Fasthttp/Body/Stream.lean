import Fasthttp.Body.Read
import Fasthttp.Header.Trailer

/-!
# Body streams

`requestStream` of `streaming.go`, and the other streams that `ReadBodyStream` of `http.go` sets up.
-/

namespace Fasthttp

open Bufio

/-! ## Streams over bytes -/

structure BytesReader where
  s : Bytes
  i : Nat
  deriving DecidableEq, Repr

namespace BytesReader

def new (b : Bytes) : BytesReader := ⟨b, 0⟩

def read (b : BytesReader) (k : Nat) : Bytes × Option Err × BytesReader :=
  if b.s.length ≤ b.i then ([], some .eof, b)
  else
    let bs := (b.s.drop b.i).take k
    (bs, none, { b with i := b.i + bs.length })

end BytesReader

structure TwoBytesReader where
  first : Bytes
  second : Bytes
  i : Nat
  current : Nat
  deriving DecidableEq, Repr

namespace TwoBytesReader

def new (first second : Bytes) : TwoBytesReader := ⟨first, second, 0, 0⟩

def readSecond (t : TwoBytesReader) (k : Nat) : Bytes × Option Err × TwoBytesReader :=
  if t.second.length ≤ t.i then ([], some .eof, t)
  else
    let bs := (t.second.drop t.i).take k
    (bs, none, { t with i := t.i + bs.length })

def read (t : TwoBytesReader) (k : Nat) : Bytes × Option Err × TwoBytesReader :=
  if t.current = 1 then t.readSecond k
  else
    let bs := (t.first.drop t.i).take k
    let t := { t with i := t.i + bs.length }
    if t.i = t.first.length then
      let t := { t with current := 1, i := 0 }
      if bs.isEmpty then t.readSecond k else (bs, none, t)
    else (bs, none, t)

end TwoBytesReader

/-! ## The stream of a request or a response -/

/-- `headerInterface`: the header whose body is streamed. -/
inductive StreamHeader
  | request (h : RequestHeader)
  | response (h : ResponseHeader)
  deriving DecidableEq, Repr

namespace StreamHeader

def contentLength : StreamHeader → Int
  | request h => h.contentLength
  | response h => h.contentLength

def readTrailer (h : StreamHeader) (r : Reader Byte Err) : Option Err × StreamHeader × Reader Byte Err :=
  match h with
  | request h => let t := h.readTrailer r; (t.1, request t.2.1, t.2.2)
  | response h => let t := h.readTrailer r; (t.1, response t.2.1, t.2.2)

end StreamHeader

structure RequestStream where
  header : StreamHeader
  prefetchedBytes : BytesReader
  totalBytesRead : Nat
  chunkLeft : Nat
  deriving DecidableEq, Repr

namespace RequestStream

def new (b : Bytes) (h : StreamHeader) : RequestStream := ⟨h, .new b, 0, 0⟩

def readData (rs : RequestStream) (r : Reader Byte Err) (k : Nat) :
    Bytes × Option Err × RequestStream × Reader Byte Err :=
  match r.read (if rs.chunkLeft < k then rs.chunkLeft else k) with
  | (bs, err, r) =>
    let rs := { rs with totalBytesRead := rs.totalBytesRead + bs.length, chunkLeft := rs.chunkLeft - bs.length }
    if err = some .eof then (bs, some .unexpectedReqBodyEOF, rs, r)
    else if err.isNone && rs.chunkLeft = 0 then
      let c := readCrLf r
      (bs, c.1, rs, c.2)
    else (bs, err, rs, r)

def readChunked (rs : RequestStream) (r : Reader Byte Err) (k : Nat) :
    Bytes × Option Err × RequestStream × Reader Byte Err :=
  if rs.chunkLeft = 0 then
    match parseChunkSize r with
    | (.error e, r) => ([], some e, rs, r)
    | (.ok chunkSize, r) =>
      if chunkSize = 0 then
        let t := rs.header.readTrailer r
        ([], some (t.1.getD .eof), { rs with header := t.2.1 }, t.2.2)
      else readData { rs with chunkLeft := chunkSize } r k
  else readData rs r k

def readFixed (rs : RequestStream) (r : Reader Byte Err) (k : Nat) :
    Bytes × Option Err × RequestStream × Reader Byte Err :=
  if rs.totalBytesRead = rs.header.contentLength then ([], some .eof, rs, r)
  else if rs.totalBytesRead < rs.prefetchedBytes.s.length then
    let left := rs.prefetchedBytes.s.length - rs.totalBytesRead
    let p := rs.prefetchedBytes.read (if left < k then left else k)
    (p.1, p.2.1, { rs with prefetchedBytes := p.2.2, totalBytesRead := rs.totalBytesRead + p.1.length }, r)
  else
    let left := rs.header.contentLength - rs.totalBytesRead
    if left < 0 then ([], some .sliceBounds, rs, r)
    else
      let p := r.read (if left < k then left.toNat else k)
      (p.1, p.2.1, { rs with totalBytesRead := rs.totalBytesRead + p.1.length }, p.2.2)

def read (rs : RequestStream) (r : Reader Byte Err) (k : Nat) :
    Bytes × Option Err × RequestStream × Reader Byte Err :=
  if rs.header.contentLength = -1 then rs.readChunked r k else rs.readFixed r k

end RequestStream

/-! ## Body streams -/

inductive BodyStream
  | empty
  | bytes (b : BytesReader)
  | two (t : TwoBytesReader)
  | request (rs : RequestStream)
  | conn
  deriving DecidableEq, Repr

def BodyStream.read (s : BodyStream) (r : Reader Byte Err) (k : Nat) :
    Bytes × Option Err × BodyStream × Reader Byte Err :=
  match s with
  | empty => ([], some .eof, empty, r)
  | bytes b => let p := b.read k; (p.1, p.2.1, bytes p.2.2, r)
  | two t => let p := t.read k; (p.1, p.2.1, two p.2.2, r)
  | request rs => let p := rs.read r k; (p.1, p.2.1, request p.2.2.1, p.2.2.2)
  | conn => let p := r.read k; (p.1, p.2.1, conn, p.2.2)

def readBodyWithStreaming (r : Reader Byte Err) (contentLength maxBodySize : Int) :
    Bytes × Bool × Option Err × Reader Byte Err :=
  if contentLength = -1 then ([], false, some .chunkedStream, r)
  else
    let readN := maxBodySize
    let readN := if contentLength < readN then contentLength else readN
    let readN := if 8 * 1024 < readN then 8 * 1024 else readN
    if contentLength ≤ readN + r.size then
      if contentLength ≤ r.size then
        if contentLength < 0 then ([], true, some .negativeCount, r)
        else
          match r.peek contentLength.toNat with
          | (.all b, r) => (b, true, none, r.discard contentLength.toNat)
          | (.short b e, r) => (b, true, some e, r)
          | (.full b, r) => (b, true, some .bufferFull, r)
      else
        match appendBodyFixedSize r [] (contentLength - r.size) with
        | (b, some e, r) => (b, false, some e, r)
        | (b, none, r) =>
          match r.peek r.size with
          | (.all _, r) => (b, false, none, r)
          | (.short _ e, r) => (b, false, some e, r)
          | (.full _, r) => (b, false, some .bufferFull, r)
    else
      match appendBodyFixedSize r [] readN with
      | (b, some e, r) => (b, false, some e, r)
      | (b, none, r) => (b, false, some .bodyTooLarge, r)

def setUpStream (header : StreamHeader) (unexpectedEOF : Err) (r : Reader Byte Err) (contentLength maxBodySize : Int) :
    Except Err BodyStream × Reader Byte Err :=
  match readBodyWithStreaming r contentLength maxBodySize with
  | (b, _, some e, r) =>
    if e = .bodyTooLarge || e = .chunkedStream then (.ok (.request (.new b header)), r)
    else (.error (if e = .eof then unexpectedEOF else e), r)
  | (b, allInBuf, none, r) =>
    if allInBuf then (.ok (.bytes (.new b)), r)
    else
      match r.peek r.size with
      | (.all b2, r) => (.ok (.two (.new b b2)), r.discard r.size)
      | (.short b2 _, r) => (.ok (.two (.new b b2)), r.discard r.size)
      | (.full b2, r) => (.ok (.two (.new b b2)), r.discard r.size)

end Fasthttp
