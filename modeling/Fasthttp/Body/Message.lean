import Fasthttp.Body.Stream

/-!
# Requests and responses with their bodies

`ReadBody`, `ReadBodyStream` and `closeBodyStream` of `http.go`.
-/

namespace Fasthttp

open Bufio

/-! ## Multipart forms -/

structure MultipartParser where
  run : Bytes → Bytes → Nat × Option String
  le : ∀ boundary b, (run boundary b).1 ≤ b.length

def readMultipartForm (m : MultipartParser) (r : Reader Byte Err) (boundary : Bytes) (size : Int) :
    Option Err × Reader Byte Err :=
  if size ≤ 0 then (some (.multipartForm "form size must be greater than 0"), r)
  else
    let p := m.run boundary (r.unread.take size.toNat)
    (p.2.map fun e => .multipartForm ("cannot read multipart/form-data body: " ++ e), (appendBodyFixedSize r [] p.1).2.2)

def boundaryLoop : Nat → Nat → Bytes → Bytes
  | 0, _, _ => []
  | fuel + 1, n, b =>
    if b.isEmpty then []
    else
      let n := n + 1
      let b := b.drop (n + ((b.drop n).takeWhile (· = spChar)).length)
      if !strBoundary.isPrefixOf b then
        match indexByte b (ch ';') with
        | none => []
        | some n => boundaryLoop fuel n b
      else
        match b.drop strBoundary.length with
        | [] => []
        | c :: b =>
          if c ≠ ch '=' then []
          else
            let b := b.take ((indexByte b (ch ';')).getD b.length)
            if 1 < b.length && b.head? = some (ch '"') && b.getLast? = some (ch '"') then (b.drop 1).dropLast else b

namespace RequestHeader

def contentTypeValue (h : RequestHeader) : Bytes :=
  if h.disableSpecialHeader then peekArgBytes h.h strContentType else h.contentType

def multipartFormBoundary (h : RequestHeader) : Bytes :=
  let b := h.contentTypeValue
  if !strMultipartFormData.isPrefixOf b then []
  else
    let b := b.drop strMultipartFormData.length
    if b.head? ≠ some (ch ';') then [] else boundaryLoop (b.length + 1) 0 b

/-- `SetContentLength` -/
def withContentLength (h : RequestHeader) (contentLength : Int) : RequestHeader :=
  if 0 ≤ contentLength then
    { h with
      contentLength
      contentLengthBytes := (Nat.toDigits 10 contentLength.toNat).map ch
      h := delAllArgs h.h strTransferEncoding }
  else
    { h with
      contentLength
      contentLengthBytes := []
      h := setArg h.h strTransferEncoding strChunked false }

end RequestHeader

/-! ## Draining a stream -/

namespace BodyStream

def drain (sizes : Nat → Nat) : Nat → BodyStream → Reader Byte Err → Bytes × Option Err × BodyStream × Reader Byte Err
  | 0, s, r => ([], none, s, r)
  | fuel + 1, s, r =>
    match s.read r (sizes fuel) with
    | (bs, some e, s, r) => (bs, some e, s, r)
    | (bs, none, s, r) =>
      let q := drain sizes fuel s r
      (bs ++ q.1, q.2)

end BodyStream

/-! ## Requests -/

structure Request where
  header : RequestHeader
  body : Bytes
  bodyStream : Option BodyStream
  discardUnReadBodyStream : Bool

namespace Request

def preParse (req : Request) (preParseMultipartForm : Bool) : Bool :=
  preParseMultipartForm && req.header.multipartFormBoundary ≠ [] && peekArgBytes req.header.h strContentEncoding = []

/-- The method `readBody`. `cap` is the capacity of the buffer of the body. -/
def readBodyBytes (req : Request) (r : Reader Byte Err) (contentLength maxBodySize : Int) (cap : Nat) :
    Option Err × Request × Reader Byte Err :=
  let unexpected (e : Option Err) := e.map fun e => if e = .eof then .unexpectedReqBodyEOF else e
  if contentLength = 0 then (none, req, r)
  else if 0 < contentLength then
    let p := Fasthttp.readBody r contentLength maxBodySize []
    (unexpected p.2.1, { req with body := p.1 }, p.2.2)
  else if contentLength = -1 then
    let p := readBodyChunked r maxBodySize
    let header := if p.2.1.isNone && p.1.isEmpty then req.header.withContentLength 0 else req.header
    (unexpected p.2.1, { req with body := p.1, header }, p.2.2)
  else
    let p := readBodyIdentity r maxBodySize cap
    (unexpected p.2.1, { req with body := p.1, header := req.header.withContentLength p.1.length }, p.2.2)

def readBody (req : Request) (m : MultipartParser) (r : Reader Byte Err) (maxBodySize : Int)
    (preParseMultipartForm : Bool) (cap : Nat) : Option Err × Request × Reader Byte Err :=
  let contentLength := req.header.contentLength
  if contentLength = 0 then (none, req, r)
  else if 0 < contentLength && 0 < maxBodySize && maxBodySize < contentLength then (some .bodyTooLarge, req, r)
  else if 0 < contentLength && req.preParse preParseMultipartForm then
    let p := readMultipartForm m r req.header.multipartFormBoundary contentLength
    (p.1, req, p.2)
  else
    match req.readBodyBytes r contentLength maxBodySize cap with
    | (some e, req, r) => (some e, req, r)
    | (none, req, r) =>
      if contentLength = -1 then
        let t := req.header.readTrailer r
        (t.1, { req with header := t.2.1 }, t.2.2)
      else (none, req, r)

def readBodyStream (req : Request) (m : MultipartParser) (r : Reader Byte Err) (maxBodySize : Int)
    (preParseMultipartForm : Bool) : Option Err × Request × Reader Byte Err :=
  let contentLength := req.header.contentLength
  if contentLength = 0 then (none, { req with bodyStream := some .empty }, r)
  else if 0 < contentLength && req.preParse preParseMultipartForm then
    let p := readMultipartForm m r req.header.multipartFormBoundary contentLength
    (p.1, req, p.2)
  else
    match setUpStream (.request req.header) .unexpectedReqBodyEOF r contentLength maxBodySize with
    | (.ok s, r) => (none, { req with bodyStream := some s }, r)
    | (.error e, r) => (some e, req, r)

def closeBodyStream (req : Request) (sizes : Nat → Nat) (r : Reader Byte Err) : Option Err × Request × Reader Byte Err :=
  match req.bodyStream with
  | some (.request rs) =>
    if req.discardUnReadBodyStream then
      let q := (BodyStream.request rs).drain sizes (rs.prefetchedBytes.s.length + r.unread.length + 1) r
      (if q.2.1 = some .eof then none else q.2.1, { req with bodyStream := none }, q.2.2.2)
    else (none, { req with bodyStream := none }, r)
  | _ => (none, { req with bodyStream := none }, r)

end Request

/-! ## Responses -/

namespace ResponseHeader

/-- 1xx, 204 and 304 come without a body. -/
def mustSkipContentLength (h : ResponseHeader) : Bool :=
  if h.statusCode < 100 || h.statusCode = 200 then false
  else h.statusCode = 304 || h.statusCode = 204 || h.statusCode < 200

def readBehindContinue (h : ResponseHeader) (r : Reader Byte Err) : Option Err × ResponseHeader × Reader Byte Err :=
  match h.read r with
  | (some e, h, r) => (some e, h, r)
  | (none, h, r) => if h.statusCode = 100 then h.read r else (none, h, r)

end ResponseHeader

structure Response where
  header : ResponseHeader
  bodyStream : Option BodyStream

def Response.readBodyStream (resp : Response) (r : Reader Byte Err) (maxBodySize : Int) :
    Option Err × Response × Reader Byte Err :=
  let contentLength := resp.header.contentLength
  if contentLength = 0 then (none, { resp with bodyStream := some .empty }, r)
  else if contentLength = -2 then (none, { resp with bodyStream := some .conn }, r)
  else
    match setUpStream (.response resp.header) .unexpectedRespBodyEOF r contentLength maxBodySize with
    | (.ok s, r) => (none, { resp with bodyStream := some s }, r)
    | (.error e, r) => (some e, resp, r)

namespace Response

/-- `ReadBody`, with the body. `cap` is the capacity of the buffer of the body. -/
def readBody (resp : Response) (r : Reader Byte Err) (maxBodySize : Int) (cap : Nat) :
    Option Err × Bytes × Response × Reader Byte Err :=
  let contentLength := resp.header.contentLength
  if contentLength = 0 then (none, [], resp, r)
  else
    let p :=
      if 0 ≤ contentLength then Fasthttp.readBody r contentLength maxBodySize []
      else if contentLength = -1 then readBodyChunked r maxBodySize
      else readBodyIdentity r maxBodySize cap
    let header := if contentLength < -1 then { resp.header with contentLength := p.1.length } else resp.header
    match p with
    | (body, some e, r) => (some (if e = .eof then .unexpectedRespBodyEOF else e), body, { resp with header }, r)
    | (body, none, r) =>
      if contentLength = -1 then
        let t := header.readTrailer r
        (t.1, body, { resp with header := t.2.1 }, t.2.2)
      else (none, body, { resp with header }, r)

/-- `ReadLimitIfClose` of a response that was reset. -/
def readLimitIfClose (header : ResponseHeader) (skipBody streamBody : Bool) (r : Reader Byte Err) (maxBodySize : Int) (cap : Nat) :
    Bool × Option Err × Response × Reader Byte Err :=
  match header.readBehindContinue r with
  | (some e, header, r) => (false, some e, ⟨header, none⟩, r)
  | (none, header, r) =>
    if skipBody || header.mustSkipContentLength || header.headMethod then (false, none, ⟨header, none⟩, r)
    else
      let closeConn := decide (header.contentLength = -2)
      if streamBody then
        let p := Response.readBodyStream ⟨header, none⟩ r maxBodySize
        (closeConn, p.1, p.2.1, p.2.2)
      else
        let p := readBody ⟨header, none⟩ r maxBodySize cap
        (closeConn, p.1, p.2.2.1, p.2.2.2)

end Response

end Fasthttp
