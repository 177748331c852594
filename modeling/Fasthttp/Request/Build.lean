import Fasthttp.Body.Message
import Fasthttp.Lib.Machine

/-!
# Requests as they are built

The setters of `RequestHeader` and `Request` and `Request.Read`: everything that leaves its mark on what
`Request.Write` writes.
-/

namespace Fasthttp

open Bufio

/-! ## Cookies -/

def decodeCookieArg (src : Bytes) (skipQuotes : Bool) : Bytes :=
  let src := stripSpace src
  if skipQuotes && 1 < src.length && src.head? = some (ch '"') && src.getLast? = some (ch '"') then (src.drop 1).dropLast
  else src

def cookieArg (b : Bytes) : ArgsKV :=
  match indexByte b (ch '=') with
  | none => ⟨[], decodeCookieArg b true, false⟩
  | some n => ⟨decodeCookieArg (b.take n) false, decodeCookieArg (b.drop (n + 1)) true, false⟩

def cookieArgs : Nat → Bytes → List ArgsKV
  | 0, _ => []
  | fuel + 1, b =>
    if b.isEmpty then []
    else match indexByte b (ch ';') with
      | none => [cookieArg b]
      | some n => cookieArg (b.take n) :: cookieArgs fuel (b.drop (n + 1))

def parseRequestCookies (cookies : List ArgsKV) (src : Bytes) : List ArgsKV :=
  cookies ++ (cookieArgs (src.length + 1) src).filter fun kv => kv.key ≠ [] || kv.value ≠ []

def appendRequestCookieBytes (cookies : List ArgsKV) : Bytes :=
  (ascii "; ").intercalate (cookies.map fun kv => (if kv.key ≠ [] then kv.key ++ [ch '='] else []) ++ kv.value)

/-! ## Headers -/

structure OutHeader extends RequestHeader where
  cookies : List ArgsKV
  cookiesCollected : Bool
  noDefaultContentType : Bool

def blankBreaks (start : Nat) (raw : Bytes) : Bytes :=
  raw.take start ++ (raw.drop start).map fun c => if c = rChar || c = nChar then spChar else c

def initHeaderV (raw : Bytes) : Bytes :=
  match indexByte raw nChar, indexByte raw rChar with
  | some foundN, some foundR => blankBreaks (if foundN < foundR then foundN else foundR) raw
  | some _, none => blankBreaks 0 raw
  | none, some foundR => blankBreaks foundR raw
  | none, none => raw

theorem forall_mem_ite {α : Type} {c : Prop} [Decidable c] {x y : Option α} {P : α → Prop} (hx : c → ∀ g ∈ x, P g)
    (hy : ∀ g ∈ y, P g) :
    ∀ g ∈ (if c then x else y), P g := by
  split
  · exact hx ‹_›
  · exact hy

theorem forall_mem_some {α : Type} {a : α} {P : α → Prop} (h : P a) : ∀ g ∈ some a, P g := by
  rintro g ⟨⟩
  exact h

theorem forall_mem_none {α : Type} {P : α → Prop} : ∀ g ∈ (none : Option α), P g := by
  rintro g ⟨⟩

namespace OutHeader

variable (h : OutHeader)

def setNonSpecial (key value : Bytes) : OutHeader := { h with h := setArg h.h key value false }

def resetConnectionClose : OutHeader :=
  if h.connectionClose then { h with connectionClose := false, h := delAllArgs h.h strConnection } else h

def collectCookies : OutHeader :=
  if h.cookiesCollected then h
  else
    let isCookie (kv : ArgsKV) := caseInsensitiveCompare kv.key strCookie
    { h with
      cookies := (h.h.filter isCookie).foldl (fun cookies kv => parseRequestCookies cookies kv.value) h.cookies
      h := h.h.filter fun kv => !isCookie kv
      cookiesCollected := true }

def setTrailer (names : Bytes) : OutHeader :=
  { h with trailer := (addRequestTrailer h.disableNormalizing [] names).1 }

def addTrailer (names : Bytes) : OutHeader :=
  { h with trailer := (addRequestTrailer h.disableNormalizing h.trailer names).1 }

def setContentLength (contentLength : Int) : OutHeader :=
  { h with toRequestHeader := h.toRequestHeader.withContentLength contentLength }

def setSpecialHeader (key value : Bytes) (set : Bool) : Option OutHeader :=
  if key.isEmpty || h.disableSpecialHeader then none
  else if key = strContentType then some { h with contentType := value }
  else if key = strContentLength then
    let v := parseContentLength value
    -- a coding that was set before stays
    some (if v.2.isNone then { h with contentLength := v.1, contentLengthBytes := value } else h)
  else if key = strConnection then
    some (if value = strClose then { h with connectionClose := true } else h.resetConnectionClose.setNonSpecial key value)
  else if key = strCookie then
    let h := h.collectCookies
    some { h with cookies := parseRequestCookies (if set then [] else h.cookies) value }
  else if key = strTransferEncoding then some h
  else if key = strTrailer then some (h.setTrailer value)
  else if key = strHost then some { h with host := value }
  else if key = strUserAgent then some { h with userAgent := value }
  else none

theorem setSpecialHeader_rule (P : OutHeader → Prop) {h g : OutHeader} {key value : Bytes} {set : Bool}
    (hg : h.setSpecialHeader key value set = some g) (same : P h)
    (contentType : P { h with contentType := value })
    (contentLength : (parseContentLength value).2.isNone = true →
      P { h with contentLength := (parseContentLength value).1, contentLengthBytes := value })
    (close : P { h with connectionClose := true })
    (connection : key = strConnection → P (h.resetConnectionClose.setNonSpecial key value))
    (cookie : P { h.collectCookies with cookies := parseRequestCookies (if set then [] else h.collectCookies.cookies) value })
    (trailer : key = strTrailer → P (h.setTrailer value)) (host : P { h with host := value })
    (userAgent : P { h with userAgent := value }) : P g := by
  suffices hall : ∀ g ∈ h.setSpecialHeader key value set, P g from hall g hg
  refine forall_mem_ite (fun _ => forall_mem_none) (forall_mem_ite (fun _ => forall_mem_some contentType)
    (forall_mem_ite (fun _ => forall_mem_some ?_) (forall_mem_ite (fun hkey => forall_mem_some ?_)
      (forall_mem_ite (fun _ => forall_mem_some cookie) (forall_mem_ite (fun _ => forall_mem_some same)
        (forall_mem_ite (fun hkey => forall_mem_some (trailer hkey)) (forall_mem_ite (fun _ => forall_mem_some host)
          (forall_mem_ite (fun _ => forall_mem_some userAgent) forall_mem_none))))))))
  · split
    · exact contentLength ‹_›
    · exact same
  · split
    · exact close
    · exact connection hkey

def setCanonical (key value : Bytes) : OutHeader :=
  (h.setSpecialHeader key value true).getD (h.setNonSpecial key value)

def addCanonical (key value : Bytes) : OutHeader :=
  (h.setSpecialHeader key value false).getD { h with h := appendArg h.h key value false }

def set (key value : Bytes) : OutHeader :=
  h.setCanonical (initHeaderK key h.disableNormalizing) (initHeaderV value)

def add (key value : Bytes) : OutHeader :=
  h.addCanonical (initHeaderK key h.disableNormalizing) (initHeaderV value)

def delSpecial (key : Bytes) : OutHeader :=
  if key = strHost then { h with host := [] }
  else if key = strContentType then { h with contentType := [] }
  else if key = strUserAgent then { h with userAgent := [] }
  else if key = strCookie then { h with cookies := [] }
  else if key = strContentLength then { h with contentLength := 0, contentLengthBytes := [] }
  else if key = strConnection then { h with connectionClose := false }
  else if key = strTrailer then { h with trailer := [] }
  else h

def del (key : Bytes) : OutHeader :=
  let key := initHeaderK key h.disableNormalizing
  let h := h.delSpecial key
  { h with h := delAllArgs h.h key }

def setMultipartFormBoundary (boundary : Bytes) : OutHeader :=
  { h with contentType := strMultipartFormData ++ ascii "; " ++ strBoundary ++ ascii "=" ++ boundary }

end OutHeader

/-! ## Bodies -/

structure OutStream where
  src : Source Byte Err
  limit : Option Int
  adds : List ArgsKV
  closeErr : Option Err

/-- `authorization` is made of the user name and the password, when there is a user name. -/
structure URI where
  host : Bytes
  requestURI : Bytes
  authorization : Option Bytes
  deriving DecidableEq

/-- A form is given by the bytes that it is marshalled to, the arguments by their query string. -/
structure OutRequest where
  header : OutHeader
  uri : URI
  parsedURI : Bool
  useHostHeader : Bool
  streamBody : Bool
  discardUnReadBodyStream : Bool
  bodyStream : Option OutStream
  bodyRaw : Option Bytes
  body : Bytes
  multipartForm : Option (Except String Bytes)
  multipartFormBoundary : Bytes
  postArgs : Bytes

structure RequestOptions where
  useHostHeader : Bool
  streamBody : Bool
  discardUnReadBodyStream : Bool
  noDefaultContentType : Bool
  disableNormalizing : Bool

structure Incoming where
  r : Reader Byte Err
  maxBodySize : Int
  cap : Nat
  parser : MultipartParser
  form : Except String Bytes
  stream : OutStream

namespace OutRequest

def new (o : RequestOptions) : OutRequest where
  header := ⟨{ RequestHeader.zero with disableNormalizing := o.disableNormalizing }, [], false, o.noDefaultContentType⟩
  uri := ⟨[], [], none⟩
  parsedURI := false
  useHostHeader := o.useHostHeader
  streamBody := o.streamBody
  discardUnReadBodyStream := o.discardUnReadBodyStream
  bodyStream := none
  bodyRaw := none
  body := []
  multipartForm := none
  multipartFormBoundary := []
  postArgs := []

variable (req : OutRequest)

def closeBodyStream : OutRequest :=
  match req.bodyStream with
  | none => req
  | some s =>
    let header := if req.discardUnReadBodyStream then { req.header with h := req.header.h ++ s.adds } else req.header
    { req with header, bodyStream := none }

def removeMultipartFormFiles : OutRequest := { req with multipartForm := none, multipartFormBoundary := [] }

def resetBody : OutRequest :=
  { req.removeMultipartFormFiles.closeBodyStream with bodyRaw := none, postArgs := [], body := [] }

def dropOtherBodies : OutRequest :=
  let req := if req.multipartForm.isSome then req.removeMultipartFormFiles else req
  { req.closeBodyStream with bodyRaw := none }

def setBody (body : Bytes) : OutRequest := { req.dropOtherBodies with body }

def appendBody (p : Bytes) : OutRequest :=
  let req := req.dropOtherBodies
  { req with body := req.body ++ p }

def setBodyRaw (body : Bytes) : OutRequest := { req.resetBody with bodyRaw := some body }

def setBodyStream (bodyStream : OutStream) (bodySize : Int) : OutRequest :=
  let req := req.resetBody
  { req with bodyStream := some bodyStream, header := req.header.setContentLength bodySize }

/-! ## Reading -/

def mayContinue : Bool := peekArgBytes req.header.h strExpect = str100Continue

def readBody (req : OutRequest) (i : Incoming) (r : Reader Byte Err) : OutRequest :=
  let q : Request := ⟨req.header.toRequestHeader, req.body, none, req.discardUnReadBodyStream⟩
  let formed := 0 < req.header.contentLength && q.preParse true
  let p := if req.streamBody then q.readBodyStream i.parser r i.maxBodySize true
    else q.readBody i.parser r i.maxBodySize true i.cap
  { req with
    header := { req.header with toRequestHeader := p.2.1.header }
    body := p.2.1.body
    bodyStream := p.2.1.bodyStream.map fun _ => i.stream
    multipartForm := if formed && p.1.isNone then some i.form else none
    multipartFormBoundary := if 0 < req.header.contentLength then req.header.multipartFormBoundary else [] }

def read (req : OutRequest) (i : Incoming) : OutRequest :=
  let p := req.header.toRequestHeader.read i.r
  let req := { req with header := ⟨p.2.1, [], false, req.header.noDefaultContentType⟩, parsedURI := false }
  if p.1.isSome then req
  else
    let req := req.resetBody
    if req.mayContinue then req else req.readBody i p.2.2

inductive Op
  | set (key value : Bytes)
  | add (key value : Bytes)
  | del (key : Bytes)
  | setContentLength (n : Int)
  | setTrailer (names : Bytes)
  | addTrailer (names : Bytes)
  | setMethod (method : Bytes)
  | setRequestURI (requestURI : Bytes)
  | setProtocol (proto : Bytes)
  | setURI (uri : URI)
  | setPostArgs (query : Bytes)
  | setBody (body : Bytes)
  | appendBody (p : Bytes)
  | setBodyRaw (body : Bytes)
  | resetBody
  | setBodyStream (bodyStream : OutStream) (bodySize : Int)
  | read (i : Incoming)

def apply : Op → OutRequest
  | .set key value => { req with header := req.header.set key value }
  | .add key value => { req with header := req.header.add key value }
  | .del key => { req with header := req.header.del key }
  | .setContentLength n => { req with header := req.header.setContentLength n }
  | .setTrailer names => { req with header := req.header.setTrailer names }
  | .addTrailer names => { req with header := req.header.addTrailer names }
  | .setMethod method => { req with header := { req.header with method } }
  | .setRequestURI requestURI => { req with header := { req.header with requestURI } }
  | .setProtocol proto => { req with header := { req.header with proto, noHTTP11 := proto ≠ strHTTP11 } }
  | .setURI uri => { req with uri, parsedURI := true }
  | .setPostArgs query => { req with postArgs := query }
  | .setBody body => req.setBody body
  | .appendBody p => req.appendBody p
  | .setBodyRaw body => req.setBodyRaw body
  | .resetBody => req.resetBody
  | .setBodyStream bodyStream bodySize => req.setBodyStream bodyStream bodySize
  | .read i => req.read i

def machine : Machine OutRequest Op := ⟨fun req op => some (req.apply op)⟩

def built (o : RequestOptions) (ops : List Op) : OutRequest := machine.exec (new o) ops

end OutRequest

end Fasthttp
