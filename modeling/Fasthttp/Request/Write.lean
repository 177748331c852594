import Fasthttp.Request.Build

/-!
# Writing requests

`Request.Write` of `http.go`, for a writer that takes every byte. The header block and the body are kept apart.
-/

namespace Fasthttp

open Bufio

/-! ## The header block -/

def appendHeaderLine (key value : Bytes) : Bytes := key ++ strColonSpace ++ value ++ strCRLF

def lineIf (p : Prop) [Decidable p] (key value : Bytes) : List (Bytes × Bytes) := if p then [(key, value)] else []

namespace OutHeader

variable (h : OutHeader)

def methodValue : Bytes := if h.method = [] then strGet else h.method
def requestURIValue : Bytes := if h.requestURI = [] then strSlash else h.requestURI
def protocolValue : Bytes := if h.proto = [] then strHTTP11 else h.proto

def hostValue : Bytes := if h.disableSpecialHeader then peekArgBytes h.h strHost else h.host
def userAgentValue : Bytes := if h.disableSpecialHeader then peekArgBytes h.h strUserAgent else h.userAgent

def ignoreBody : Bool := h.methodValue = strGet || h.methodValue = strHead

def sentContentType : Bytes :=
  if !h.noDefaultContentType && h.contentTypeValue = [] && !h.ignoreBody then strDefaultContentType else h.contentTypeValue

def requestLine : Bytes :=
  h.methodValue ++ [spChar] ++ h.requestURIValue ++ [spChar] ++ h.protocolValue ++ strCRLF

def frontLines : List (Bytes × Bytes) :=
  lineIf (h.userAgentValue ≠ [] ∧ h.disableSpecialHeader = false) strUserAgent h.userAgentValue ++
  lineIf (h.hostValue ≠ [] ∧ h.disableSpecialHeader = false) strHost h.hostValue ++
  lineIf (h.sentContentType ≠ [] ∧ h.disableSpecialHeader = false) strContentType h.sentContentType

def lengthLine : List (Bytes × Bytes) :=
  lineIf (h.contentLengthBytes ≠ [] ∧ h.disableSpecialHeader = false) strContentLength h.contentLengthBytes

def genericLines : List (Bytes × Bytes) :=
  (h.h.filter fun kv => !h.trailer.any fun t => kv.key = t.key).map fun kv => (kv.key, kv.value)

def backLines : List (Bytes × Bytes) :=
  lineIf (h.trailer ≠ []) strTrailer (strCommaSpace.intercalate (h.trailer.map ArgsKV.key)) ++
  lineIf (h.cookies ≠ [] ∧ h.disableSpecialHeader = false) strCookie (appendRequestCookieBytes h.cookies) ++
  lineIf (h.connectionClose = true ∧ h.disableSpecialHeader = false) strConnection strClose

def fields : List (Bytes × Bytes) := h.frontLines ++ h.lengthLine ++ h.genericLines ++ h.backLines

def appendBytes : Bytes :=
  h.requestLine ++ (h.fields.flatMap fun f => appendHeaderLine f.1 f.2) ++ strCRLF

/-! ## The trailer -/

def peekSpecial (key : Bytes) : Option Bytes :=
  if key = strHost then some h.hostValue
  else if key = strUserAgent then some h.userAgentValue
  else if key = strContentType then some h.contentTypeValue
  else if key = strCookie then if h.cookiesCollected then some (appendRequestCookieBytes h.cookies) else none
  else if key = strConnection then if h.connectionClose then some strClose else none
  else if key = strContentLength then some h.contentLengthBytes
  else if key = strTrailer then some (strCommaSpace.intercalate (h.trailer.map ArgsKV.key))
  else none

def peek (key : Bytes) : Bytes := (h.peekSpecial key).getD (peekArgBytes h.h key)

def trailerHeader : Bytes := (h.trailer.flatMap fun t => appendHeaderLine t.key (h.peek t.key)) ++ strCRLF

end OutHeader

/-! ## Bodies -/

def writeHexInt (n : Nat) : Bytes := (Nat.toDigits 16 n).map ch

def writeChunk (b : Bytes) : Bytes := writeHexInt b.length ++ strCRLF ++ b ++ strCRLF

def chunkedEnd : Bytes := ascii "0\r\n"

def chunkBufSize : Nat := 4096

inductive WriteErr
  | hostRequired
  | form (cause : String)
  | sendSize (sent want : Int)
  | stream (e : Err)
  | close (e : Err)
  deriving DecidableEq, Repr

def writeChunks : Nat → Source Byte Err → Except WriteErr Bytes
  | 0, _ => .ok []
  | fuel + 1, s =>
    match s.chunk chunkBufSize with
    | [] => if s.last = .eof then .ok chunkedEnd else .error (.stream s.last)
    | c :: b => (writeChunks fuel (s.rest chunkBufSize)).map (writeChunk (c :: b) ++ ·)

def writeBodyChunked (s : Source Byte Err) : Except WriteErr Bytes := writeChunks (s.items.length + 1) s

def writeBodyFixedSize (s : Source Byte Err) (size : Int) : Except WriteErr Bytes :=
  if s.last ≠ .eof then .error (.stream s.last)
  else if s.items.length ≠ size then .error (.sendSize s.items.length size)
  else .ok s.items

/-! ## Requests -/

namespace OutRequest

/-- The size of a limited reader stands in for a length that is not declared. -/
def streamHeader (header : OutHeader) (s : OutStream) : OutHeader :=
  if 0 ≤ header.contentLength then header
  else match s.limit with
    | some n => if 0 ≤ n then header.setContentLength n else header.setContentLength (-1)
    | none => header.setContentLength (-1)

def writeStreamBody (header : OutHeader) (s : OutStream) : Except WriteErr Bytes :=
  if 0 < header.contentLength then writeBodyFixedSize s.src header.contentLength
  else if header.contentLength = 0 then .ok []
  else (writeBodyChunked s.src).map (· ++ { header with h := header.h ++ s.adds }.trailerHeader)

def writeBodyStream (header : OutHeader) (s : OutStream) : Except WriteErr (Bytes × Bytes) :=
  let header := streamHeader header s
  match writeStreamBody header s, s.closeErr with
  | .error e, _ => .error e
  | .ok _, some e => .error (.close e)
  | .ok body, none => .ok (header.appendBytes, body)

def targetURI (parseURI : Bytes → Bytes → URI) (req : OutRequest) : URI :=
  if req.parsedURI then req.uri else parseURI req.header.hostValue req.header.requestURIValue

def addressTo (req : OutRequest) (uri : URI) : OutHeader :=
  let h := req.header
  let host := if !req.useHostHeader || h.hostValue = [] then uri.host else h.host
  let h := { h with host, requestURI := uri.requestURI }
  match uri.authorization with
  | some value => h.set strAuthorization value
  | none => h

def address (parseURI : Bytes → Bytes → URI) (req : OutRequest) : Except WriteErr OutHeader :=
  if req.header.hostValue = [] || req.parsedURI then
    let uri := req.targetURI parseURI
    if uri.host = [] && req.header.hostValue = [] then .error .hostRequired else .ok (req.addressTo uri)
  else .ok req.header

def bodyBytes (req : OutRequest) : Bytes := req.bodyRaw.getD req.body

def formContent (req : OutRequest) (h : OutHeader) : Except WriteErr (Bytes × OutHeader) :=
  match req.multipartForm with
  | none => .ok (req.bodyBytes, h)
  | some form =>
    if req.body ≠ [] then .ok (req.bodyBytes, h)
    else match form with
      | .error e => .error (.form e)
      | .ok body => .ok (body, h.setMultipartFormBoundary req.multipartFormBoundary)

def argsContent (req : OutRequest) (body : Bytes) (h : OutHeader) : Bytes × OutHeader :=
  if body ≠ [] then (body, h)
  else (req.postArgs, if req.postArgs ≠ [] then { h with contentType := strPostArgsContentType } else h)

def content (req : OutRequest) (h : OutHeader) : Except WriteErr (Bytes × OutHeader) :=
  match req.formContent h with
  | .error e => .error e
  | .ok (body, h) => .ok (req.argsContent body h)

/-- The length of a body is declared, unless there is none and the method does not ask for one. -/
def contentHeader (h : OutHeader) (body : Bytes) : OutHeader :=
  if body ≠ [] || !h.ignoreBody then h.setContentLength body.length else h

def write (parseURI : Bytes → Bytes → URI) (req : OutRequest) : Except WriteErr (Bytes × Bytes) :=
  match req.address parseURI with
  | .error e => .error e
  | .ok h =>
    match req.bodyStream with
    | some s => writeBodyStream h s
    | none =>
      match req.content h with
      | .error e => .error e
      | .ok (body, h) => .ok ((contentHeader h body).appendBytes, body)

end OutRequest

end Fasthttp
