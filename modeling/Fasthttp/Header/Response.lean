import Fasthttp.Header.Request

/-! # Response headers: `ResponseHeader.Read` of `header.go` -/

namespace Fasthttp

structure ResponseHeader where
  statusMessage : Bytes
  contentLengthBytes : Bytes
  contentType : Bytes
  contentEncoding : Bytes
  server : Bytes
  h : List ArgsKV
  trailer : List ArgsKV
  cookies : List ArgsKV
  statusCode : Int
  contentLength : Int
  noHTTP11 : Bool
  connectionClose : Bool
  disableNormalizing : Bool
  noDefaultContentType : Bool
  noDefaultDate : Bool
  headMethod : Bool
  protocol : Bytes
  deriving DecidableEq, Repr

def getCookieKey (src : Bytes) : Bytes :=
  stripSpace (match indexByte src (ch '=') with | some n => src.take n | none => src)

namespace ResponseHeader

def zero : ResponseHeader where
  statusMessage := []
  protocol := []
  contentLengthBytes := []
  contentType := []
  contentEncoding := []
  server := []
  h := []
  trailer := []
  cookies := []
  statusCode := 0
  contentLength := 0
  noHTTP11 := false
  connectionClose := false
  disableNormalizing := false
  noDefaultContentType := false
  noDefaultDate := false
  headMethod := false

variable (h : ResponseHeader)

def resetSkipNormalize : ResponseHeader :=
  { zero with
    disableNormalizing := h.disableNormalizing
    noDefaultContentType := h.noDefaultContentType
    noDefaultDate := h.noDefaultDate
    headMethod := h.headMethod }

def setTrailerBytes (trailer : Bytes) : ResponseHeader × Option Err :=
  let t := addResponseTrailer h.disableNormalizing [] trailer
  ({ h with trailer := t.1 }, t.2)

/-! ## The status line -/

def parseFirstLine (buf : Bytes) : ResponseHeader × Except Err Nat :=
  match nextLine buf with
  | none => (h, .error .needMore)
  | some (line, bNext) =>
    let n1 := (indexByte line spChar).getD 0
    if n1 = 0 then (h, .error .malformedResponse)
    else
      let h := { h with noHTTP11 := line.take n1 ≠ strHTTP11 }
      let b := line.drop (n1 + 1)
      let code := parseUintBuf b
      let h := { h with statusCode := code.1 }
      let n2 := code.2.1
      if code.2.2.isSome then (h, .error .malformedResponse)
      else if n2 < b.length && b.getD n2 0 ≠ spChar then (h, .error .malformedResponse)
      else
        let h := if n2 + 1 < b.length then { h with statusMessage := b.drop (n2 + 1) } else h
        (h, .ok (buf.length - bNext.length))

/-! ## The header fields -/

def setContentLength (value : Bytes) : ResponseHeader × Option Err :=
  if h.contentLength = -1 then (h, none)
  else
    let v := parseContentLength value
    if v.2.isSome then ({ h with contentLength := v.1 }, some .contentLengthNotInt)
    else ({ h with contentLength := v.1, contentLengthBytes := value }, none)

def setConnection (key value : Bytes) : ResponseHeader :=
  if value = strClose then { h with connectionClose := true }
  else { h with connectionClose := false, h := appendArg h.h key value false }

def setTransferEncoding (value : Bytes) : ResponseHeader × Option Err :=
  if value = strChunked then ({ h with contentLength := -1 }, none)
  else (h, some (.unsupportedTE "unsupported transfer encoding: " value))

def setTrailer (value : Bytes) : ResponseHeader × Option Err :=
  let t := h.setTrailerBytes value
  (t.1, if t.2.isSome then some .badTrailerInHeader else none)

def specialField (key value : Bytes) : ResponseHeader × Option Err :=
  let k := key.headD 0 ||| 32
  let eq name := headNameCompare key name h.disableNormalizing
  if k = ch 'c' && eq strContentType then ({ h with contentType := value }, none)
  else if k = ch 'c' && eq strContentEncoding then ({ h with contentEncoding := value }, none)
  else if k = ch 'c' && eq strContentLength then h.setContentLength value
  else if k = ch 'c' && eq strConnection then (h.setConnection key value, none)
  else if k = ch 's' && eq strServer then ({ h with server := value }, none)
  else if k = ch 's' && eq strSetCookie then
    ({ h with cookies := appendArg h.cookies (getCookieKey value) value false }, none)
  else if k = ch 't' && eq strTransferEncoding then h.setTransferEncoding value
  else if k = ch 't' && eq strTrailer then h.setTrailer value
  else ({ h with h := appendArg h.h key value false }, none)

def parseField (key value : Bytes) : ResponseHeader × Option Err :=
  if key.isEmpty then (h, some .emptyHeaderKey)
  else if !key.all validHeaderFieldByte then (h, some (.headerParse "invalid header key" key))
  else if !value.all validHeaderValueByte then (h, some (.headerParse "invalid header value" value))
  else h.specialField key value

def finish : ResponseHeader :=
  { h with
    contentLengthBytes := if h.contentLength < 0 then [] else h.contentLengthBytes
    connectionClose :=
      if h.noHTTP11 && !h.connectionClose then
        !hasHeaderValue (peekArgBytes h.h strConnection) strKeepAlive
      else h.connectionClose }

def start : ResponseHeader :=
  { h with contentLength := if h.headMethod then 0 else -2 }

def parseHeaders (buf : Bytes) : ResponseHeader × Bytes × Except Err Nat :=
  match Scanner.scanAll parseField (Scanner.new buf h.disableNormalizing) h.start with
  | (h, s, some e) => (h, s.mem, .error e)
  | (h, s, none) => (h.finish, s.mem, .ok (buf.length - s.b.length))

def parse (buf : Bytes) : ResponseHeader × Bytes × Except Err Nat :=
  match h.parseFirstLine buf with
  | (h, .error e) => (h, buf, .error e)
  | (h, .ok m) =>
    let p := h.parseHeaders (buf.drop m)
    (p.1, buf.take m ++ p.2.1, p.2.2.map (m + ·))

/-! ## Reading -/

def readErr (e : Err) : Err := if e = .eof then .unexpectedHeaderEOF else e

def loop : Retry.Loop ResponseHeader Byte Err where
  parse := parse
  more := .needMore
  ended := readErr
  full := .bufferFull

def read (h : ResponseHeader) (r : Bufio.Reader Byte Err) :
    Option Err × ResponseHeader × Bufio.Reader Byte Err :=
  loop.read h.resetSkipNormalize r

end ResponseHeader

end Fasthttp
