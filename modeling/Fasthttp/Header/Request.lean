import Fasthttp.Lib.Retry
import Fasthttp.Header.Scanner

/-!
# Request headers

`RequestHeader.Read` of `header.go`. Every function that may edit the peeked buffer returns the buffer as it leaves
it.
-/

namespace Fasthttp

structure RequestHeader where
  contentLengthBytes : Bytes
  method : Bytes
  requestURI : Bytes
  proto : Bytes
  host : Bytes
  contentType : Bytes
  userAgent : Bytes
  h : List ArgsKV
  trailer : List ArgsKV
  rawHeaders : Bytes
  contentLength : Int
  noHTTP11 : Bool
  connectionClose : Bool
  contentLengthSeen : Bool
  disableSpecialHeader : Bool
  disableNormalizing : Bool
  firstLineLen : Int
  deriving DecidableEq, Repr

/-! ## Lines -/

def nextLine (b : Bytes) : Option (Bytes × Bytes) :=
  (indexByte b nChar).map fun n =>
    let line := b.take n
    (if line.getLast? = some rChar then line.dropLast else line, b.drop (n + 1))

def blankLineEnd : Nat → Bytes → Option Nat
  | 0, _ => none
  | fuel + 1, b =>
    match indexByte b nChar with
    | none => none
    | some n =>
      if (n = 1 && b.take 1 = [rChar]) || n = 0 then some (n + 1)
      else (blankLineEnd fuel (b.drop (n + 1))).map (n + 1 + ·)

/-- The header block and its length. A block that is only its blank line is not copied. -/
def readRawHeaders (buf : Bytes) : Bytes × Option Nat :=
  match blankLineEnd (buf.length + 1) buf with
  | none => ([], none)
  | some n => (if indexByte buf nChar = some (n - 1) then [] else buf.take n, some n)

def numLeadingCRorLF (v : Bytes) : Nat := (v.takeWhile fun b => b = rChar || b = nChar).length

def isValidMethod (method : Bytes) : Bool := method.all validMethodValueByte

def int32 (v : Int) : Int := v.bmod (2 ^ 32)

namespace RequestHeader

def zero : RequestHeader where
  contentLengthBytes := []
  method := []
  requestURI := []
  proto := []
  host := []
  contentType := []
  userAgent := []
  h := []
  trailer := []
  rawHeaders := []
  contentLength := 0
  noHTTP11 := false
  connectionClose := false
  contentLengthSeen := false
  disableSpecialHeader := false
  disableNormalizing := false
  firstLineLen := 0

variable (h : RequestHeader)

def resetSkipNormalize : RequestHeader :=
  { zero with
    disableSpecialHeader := h.disableSpecialHeader, disableNormalizing := h.disableNormalizing }

def setTrailerBytes (trailer : Bytes) : RequestHeader × Option Err :=
  let t := addRequestTrailer h.disableNormalizing [] trailer
  ({ h with trailer := t.1 }, t.2)

/-! ## The request line -/

def parseFirstLine (buf : Bytes) : RequestHeader × Except Err Int :=
  match nextLine buf with
  | none => (h, .error .needMore)
  | some (firstLine, bNext) =>
    let n1 := (indexByte firstLine spChar).getD 0
    if n1 = 0 then (h, .error (.headerParse "request method not found" firstLine))
    -- the check is made on the method of the header, which is still the one before
    else if !isValidMethod h.method then
      (h, .error (.headerParse "invalid method" (firstLine.take n1)))
    else
      let b := firstLine.drop (n1 + 1)
      let n2 := (lastIndexByte b spChar).getD 0
      if n2 = 0 then (h, .error (.headerParse "request uri not found" firstLine))
      else
        let protoStr := b.drop (n2 + 1)
        if protoStr.length ≠ strHTTP11.length || protoStr.take 5 ≠ strHTTP11.take 5 ||
            !isDigit (protoStr.getD 5 0) || !isDigit (protoStr.getD 7 0) then
          (h, .error (.headerParse "unsupported HTTP version" protoStr))
        else
          let n := int32 (buf.length - bNext.length)
          ({ h with
            method := firstLine.take n1
            noHTTP11 := protoStr ≠ strHTTP11
            proto := protoStr
            requestURI := b.take n2
            firstLineLen := n }, .ok n)

/-! ## The header fields -/

def setContentLength (value : Bytes) : RequestHeader × Option Err :=
  if h.contentLengthSeen then (h, some .multipleContentLength)
  else
    let h := { h with contentLengthSeen := true }
    if h.contentLength = -1 then (h, none)
    else
      let v := parseContentLength value
      if v.2.isSome then ({ h with contentLength := v.1 }, some .contentLengthNotInt)
      else ({ h with contentLength := v.1, contentLengthBytes := value }, none)

def setConnection (key value : Bytes) : RequestHeader :=
  if value = strClose then { h with connectionClose := true }
  else { h with connectionClose := false, h := appendArg h.h key value false }

def setTransferEncoding (value : Bytes) : RequestHeader × Option Err :=
  -- the flag of the special headers is passed where a flag of the comparison is meant
  if headNameCompare value strChunked h.disableSpecialHeader then
    ({ h with contentLength := -1, h := setArg h.h strTransferEncoding strChunked false }, none)
  else (h, some (.unsupportedTE "unsupported Transfer-Encoding: " value))

def specialField (key value : Bytes) : RequestHeader × Option Err :=
  let k := key.headD 0 ||| 32
  let eq name := headNameCompare key name h.disableNormalizing
  if k = ch 'h' && eq strHost then ({ h with host := value }, none)
  else if k = ch 'u' && eq strUserAgent then ({ h with userAgent := value }, none)
  else if k = ch 'c' && eq strContentType then ({ h with contentType := value }, none)
  else if k = ch 'c' && eq strContentLength then h.setContentLength value
  else if k = ch 'c' && eq strConnection then (h.setConnection key value, none)
  else if k = ch 't' && eq strTransferEncoding then h.setTransferEncoding value
  else if k = ch 't' && eq strTrailer then h.setTrailerBytes value
  else ({ h with h := appendArg h.h key value false }, none)

def parseField (key value : Bytes) : RequestHeader × Option Err :=
  if key.isEmpty then (h, some .emptyHeaderKey)
  else if !key.all validHeaderFieldByte then (h, some (.headerParse "invalid header key" key))
  else if !value.all validHeaderValueByte then (h, some (.headerParse "invalid header value" value))
  else if h.disableSpecialHeader then ({ h with h := appendArg h.h key value false }, none)
  else h.specialField key value

def finish : RequestHeader :=
  { h with
    contentLengthBytes := if h.contentLength < 0 then [] else h.contentLengthBytes
    connectionClose :=
      if h.noHTTP11 && !h.connectionClose then
        !hasHeaderValue (peekArgBytes h.h strConnection) strKeepAlive
      else h.connectionClose }

def start : RequestHeader := { h with contentLength := 0, contentLengthSeen := false }

def parseHeaders (buf : Bytes) : RequestHeader × Bytes × Except Err Nat :=
  match Scanner.scanAll parseField (Scanner.new buf h.disableNormalizing) h.start with
  | (h, s, some e) => (h, s.mem, .error e)
  | (h, s, none) => (h.finish, s.mem, .ok s.hLen)

def requestLine (buf : Bytes) : RequestHeader × Except Err Int :=
  if h.firstLineLen = 0 then h.parseFirstLine buf else (h, .ok h.firstLineLen)

def keepRaw (b : Bytes) : RequestHeader := { h with rawHeaders := (readRawHeaders b).1 }

def parse (buf : Bytes) : RequestHeader × Bytes × Except Err Nat :=
  match h.requestLine buf with
  | (h, .error e) => (h, buf, .error e)
  | (h, .ok m) =>
    if m < 0 || buf.length < m then (h, buf, .error .sliceBounds)
    else
      let b := buf.drop m.toNat
      let h := h.keepRaw b
      match (readRawHeaders b).2 with
      | none => (h, buf, .error .needMore)
      | some _ =>
        let p := h.parseHeaders b
        (p.1, buf.take m.toNat ++ p.2.1, p.2.2.map (m.toNat + ·))

/-! ## Reading -/

def readErr (e : Err) : Err :=
  if e = .eof then .unexpectedHeaderEOF else if e = .bufferFull then .headerBufferSmall else e

def loop : Retry.Loop RequestHeader Byte Err where
  parse := parse
  more := .needMore
  ended := readErr
  full := .headerBufferSmall

/-- `Peek(4)` and `Discard`: line ends in front of a request that follows a POST. -/
def skipLineEnds (r : Bufio.Reader Byte Err) : Bufio.Reader Byte Err :=
  match r.peek 4 with
  | (.all b, r) => r.discard (numLeadingCRorLF b)
  | (.short b _, r) => r.discard (numLeadingCRorLF b)
  | (.full b, r) => r.discard (numLeadingCRorLF b)

def readLoop (r : Bufio.Reader Byte Err) (prevMethodIsPost dontReset : Bool) :
    Option Err × RequestHeader × Bufio.Reader Byte Err :=
  let r := if prevMethodIsPost then skipLineEnds r else r
  loop.read (if dontReset then h else h.resetSkipNormalize) r

def read (r : Bufio.Reader Byte Err) :
    Option Err × RequestHeader × Bufio.Reader Byte Err :=
  h.readLoop r false false

end RequestHeader

end Fasthttp
