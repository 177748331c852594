import Fasthttp.Request.Write

/-!
# Writing responses

`Response.Write` of `http.go` with its helpers, for a writer that takes every byte.
-/

namespace Fasthttp

open Bufio

/-! ## The status line -/

def statusMessages : List (Int × String) :=
  [(100, "Continue"), (101, "Switching Protocols"), (102, "Processing"), (103, "Early Hints"),
   (200, "OK"), (201, "Created"), (202, "Accepted"), (203, "Non-Authoritative Information"), (204, "No Content"),
   (205, "Reset Content"), (206, "Partial Content"), (207, "Multi-Status"), (208, "Already Reported"), (226, "IM Used"),
   (300, "Multiple Choices"), (301, "Moved Permanently"), (302, "Found"), (303, "See Other"), (304, "Not Modified"),
   (305, "Use Proxy"), (307, "Temporary Redirect"), (308, "Permanent Redirect"),
   (400, "Bad Request"), (401, "Unauthorized"), (402, "Payment Required"), (403, "Forbidden"), (404, "Not Found"),
   (405, "Method Not Allowed"), (406, "Not Acceptable"), (407, "Proxy Authentication Required"), (408, "Request Timeout"),
   (409, "Conflict"), (410, "Gone"), (411, "Length Required"), (412, "Precondition Failed"), (413, "Request Entity Too Large"),
   (414, "Request URI Too Long"), (415, "Unsupported Media Type"), (416, "Requested Range Not Satisfiable"),
   (417, "Expectation Failed"), (418, "I'm a teapot"), (421, "Misdirected Request"), (422, "Unprocessable Entity"),
   (423, "Locked"), (424, "Failed Dependency"), (426, "Upgrade Required"), (428, "Precondition Required"),
   (429, "Too Many Requests"), (431, "Request Header Fields Too Large"), (451, "Unavailable For Legal Reasons"),
   (500, "Internal Server Error"), (501, "Not Implemented"), (502, "Bad Gateway"), (503, "Service Unavailable"),
   (504, "Gateway Timeout"), (505, "HTTP Version Not Supported"), (506, "Variant Also Negotiates"),
   (507, "Insufficient Storage"), (508, "Loop Detected"), (510, "Not Extended"), (511, "Network Authentication Required")]

def statusMessage (statusCode : Int) : Bytes :=
  match statusMessages.find? (·.1 = statusCode) with
  | some m => ascii m.2
  | none => ascii "Unknown Status Code"

def formatStatusLine (protocol : Bytes) (statusCode : Nat) (statusText : Bytes) : Bytes :=
  protocol ++ [spChar] ++ (Nat.toDigits 10 statusCode).map ch ++ [spChar] ++
    (if statusText = [] then statusMessage statusCode else statusText) ++ strCRLF

/-! ## The date -/

structure UTCTime where
  weekday : Fin 7
  day : Nat
  month : Fin 12
  year : Nat
  hour : Nat
  minute : Nat
  second : Nat

def padded (width n : Nat) : Bytes :=
  let digits := (Nat.toDigits 10 n).map ch
  List.replicate (width - digits.length) (ch '0') ++ digits

def weekdayName (d : Fin 7) : Bytes := ascii (["Sun", "Mon", "Tue", "Wed", "Thu", "Fri", "Sat"].getD d "")

def monthName (m : Fin 12) : Bytes :=
  ascii (["Jan", "Feb", "Mar", "Apr", "May", "Jun", "Jul", "Aug", "Sep", "Oct", "Nov", "Dec"].getD m "")

def appendHTTPDate (t : UTCTime) : Bytes :=
  weekdayName t.weekday ++ ascii ", " ++ padded 2 t.day ++ [spChar] ++ monthName t.month ++ [spChar] ++ padded 4 t.year ++
    [spChar] ++ padded 2 t.hour ++ [ch ':'] ++ padded 2 t.minute ++ [ch ':'] ++ padded 2 t.second ++ ascii " GMT"

namespace ResponseHeader

/-! ## The header block -/

variable (h : ResponseHeader)

def protocolValue : Bytes := if h.protocol = [] then strHTTP11 else h.protocol

def contentTypeValue : Bytes :=
  if !h.noDefaultContentType && h.contentType = [] then strDefaultRespContentType else h.contentType

def statusLine : Bytes :=
  formatStatusLine h.protocolValue (if h.statusCode ≤ 0 then 200 else h.statusCode.toNat) h.statusMessage

/-- The body ends with the connection: there is no other way to say how long it is. -/
def endsWithConn : Bool := !h.mustSkipContentLength && h.contentLength < -1 && !h.headMethod

/-- Only a chunked body has a trailer. -/
def sentTrailer : List ArgsKV :=
  if !h.mustSkipContentLength && h.contentLength = -1 && !h.headMethod then h.trailer else []

def contentLines (compressed : Bool) : List (Bytes × Bytes) :=
  lineIf (h.contentTypeValue ≠ [] ∧ (h.contentType ≠ [] ∨ h.contentLength ≠ 0)) strContentType h.contentTypeValue ++
  lineIf (h.contentEncoding ≠ []) strContentEncoding h.contentEncoding ++
  lineIf (0 < h.contentLength ∧ compressed = false) strContentLength ((Nat.toDigits 10 h.contentLength.toNat).map ch) ++
  lineIf (h.contentLength = 0 ∧ h.headMethod = false) strContentLength (ascii "0") ++
  lineIf (h.contentLength = -1 ∧ h.headMethod = false) strTransferEncoding strChunked

def genericLines : List (Bytes × Bytes) :=
  ((delAllArgs h.h strTransferEncoding).filter fun kv => !h.sentTrailer.any fun t => kv.key = t.key).map fun kv => (kv.key, kv.value)

def plainFields (date : Bytes) (compressed : Bool) : List (Bytes × Bytes) :=
  lineIf (h.server ≠ []) strServer h.server ++
  lineIf (h.noDefaultDate = false) strDate date ++
  (if h.mustSkipContentLength then [] else h.contentLines compressed) ++
  h.genericLines ++
  lineIf (h.sentTrailer ≠ []) strTrailer (strCommaSpace.intercalate (h.sentTrailer.map ArgsKV.key)) ++
  h.cookies.map fun kv => (strSetCookie, kv.value)

def appended : ResponseHeader :=
  { h with h := delAllArgs h.h strTransferEncoding, connectionClose := h.connectionClose || h.endsWithConn }

def appendBytes (date : Bytes) (compressed : Bool) : Bytes :=
  h.statusLine ++
  ((h.plainFields date compressed ++ lineIf (h.appended.connectionClose = true) strConnection strClose).flatMap fun f =>
    appendHeaderLine f.1 f.2) ++
  if compressed then [] else strCRLF

/-! ## The trailer -/

def peekSpecial (key : Bytes) : Option Bytes :=
  if key = strContentType then some h.contentTypeValue
  else if key = strContentEncoding then some h.contentEncoding
  else if key = strConnection then if h.connectionClose then some strClose else none
  else if key = strContentLength then some (if 0 < h.contentLength then (Nat.toDigits 10 h.contentLength.toNat).map ch else [])
  else if key = strServer then some h.server
  else if key = strSetCookie then some ((ascii "; ").intercalate (h.cookies.map ArgsKV.value))
  else if key = strTrailer then some (strCommaSpace.intercalate (h.trailer.map ArgsKV.key))
  else if key = strTransferEncoding then some (if h.contentLength = -1 then strChunked else [])
  else none

def peek (key : Bytes) : Bytes := (h.peekSpecial key).getD (peekArgBytes h.h key)

/-- `adds` are the fields that came into the header while the body was written. -/
def trailerHeader (adds : List ArgsKV) : Bytes :=
  let h := { h.appended with h := h.appended.h ++ adds }
  (h.trailer.flatMap fun t => appendHeaderLine t.key (h.peek t.key)) ++ strCRLF

end ResponseHeader

/-! ## Bodies -/

/-- A body that is compressed at once, and the pieces in which a stream comes to the writer of the chunks -/
structure Compressor where
  whole : Bytes → Except Err Bytes
  pieces : Bytes → Except Err (List Bytes)

structure ChunkedWriter where
  pieces : List Bytes
  adds : List ArgsKV
  err : Option Err

structure OutResponse where
  header : ResponseHeader
  bodyStream : Option OutStream
  bodyRaw : Option Bytes
  body : Bytes
  chunkedW : Option ChunkedWriter
  compressPool : Option Compressor
  skipBody : Bool

structure Written where
  block : Bytes
  body : Except WriteErr Bytes

/-- `ChunkWriter` writes nothing for a piece without bytes. -/
def writePieces (pieces : List Bytes) : Bytes := (pieces.filter (· ≠ [])).flatMap writeChunk ++ chunkedEnd

def copyStream (s : Source Byte Err) : Except WriteErr Bytes := if s.last = .eof then .ok s.items else .error (.stream s.last)

namespace OutResponse

variable (resp : OutResponse)

def mustSkipBody : Bool := resp.skipBody || resp.header.mustSkipContentLength

def bodyBytes : Bytes := resp.bodyRaw.getD resp.body

def closing (s : OutStream) (body : Except WriteErr Bytes) : Except WriteErr Bytes :=
  match body, s.closeErr with
  | .ok _, some e => .error (.close e)
  | body, _ => body

def writeChunkedStream (date : Bytes) (w : ChunkedWriter) : Written :=
  let header := { resp.header with contentLength := -1 }
  let pieces := match resp.compressPool with
    | some c => c.pieces w.pieces.flatten
    | none => .ok w.pieces
  { block := header.appendBytes date false
    body :=
      if resp.mustSkipBody then .ok []
      else match w.err, pieces with
        | some e, _ => .error (.stream e)
        | none, .error e => .error (.stream e)
        | none, .ok ps => .ok (writePieces ps ++ header.trailerHeader w.adds) }

def streamHeader (header : ResponseHeader) (s : OutStream) : ResponseHeader :=
  match s.limit with
  | some n =>
    if header.contentLength < 0 ∧ 0 ≤ n then
      { header with contentLength := n, connectionClose := header.connectionClose || header.contentLength = -2 }
    else header
  | none => header

def writeStream (header : ResponseHeader) (s : OutStream) : Except WriteErr Bytes :=
  if 0 < header.contentLength then writeBodyFixedSize s.src header.contentLength
  else if header.contentLength = 0 then .ok []
  else if header.contentLength = -1 then (writeBodyChunked s.src).map (· ++ header.trailerHeader s.adds)
  else copyStream s.src

def writeBodyStream (date : Bytes) (s : OutStream) : Written :=
  let header := streamHeader resp.header s
  { block := header.appendBytes date false
    body := closing s (if resp.mustSkipBody then .ok [] else writeStream header s) }

def streamLength (header : ResponseHeader) (s : OutStream) : Int :=
  if header.contentLength < 0 then match s.limit with
    | some n => if 0 ≤ n then n else header.contentLength
    | none => header.contentLength
  else header.contentLength

def compressedHeader (header : ResponseHeader) : ResponseHeader :=
  { header with contentLength := -1, connectionClose := header.connectionClose || header.contentLength = -2 }

def writeCompressBodyStream (date : Bytes) (c : Compressor) (s : OutStream) : Written :=
  let header := compressedHeader resp.header
  let length := streamLength resp.header s
  { block := header.appendBytes date false
    body := closing s <|
      if resp.mustSkipBody then .ok []
      else match copyStream s.src, c.pieces s.src.items with
        | .error e, _ => .error e
        | .ok _, .error e => .error (.stream e)
        | .ok b, .ok ps =>
          if 0 ≤ length ∧ length ≠ b.length then .error (.sendSize b.length length)
          else .ok (writePieces ps ++ header.trailerHeader s.adds) }

def compressedLength (n : Nat) : Bytes :=
  (strContentLength ++ strColonSpace ++ (Nat.toDigits 10 n).map ch ++ strCRLF ++ strCRLF).take 32

def skippedHeader : ResponseHeader :=
  { resp.header with
    contentEncoding := []
    h := delAllArgs resp.header.h strContentEncoding
    contentLength := if resp.bodyBytes = [] then resp.header.contentLength else resp.bodyBytes.length }

def writeCompress (date : Bytes) (c : Compressor) : Written :=
  match resp.bodyStream with
  | some s => resp.writeCompressBodyStream date c s
  | none =>
    if resp.mustSkipBody then ⟨resp.skippedHeader.appendBytes date false, .ok []⟩
    else match c.whole resp.bodyBytes with
      | .error e => ⟨resp.header.appendBytes date true, .error (.stream e)⟩
      | .ok b => ⟨resp.header.appendBytes date true ++ compressedLength b.length, .ok b⟩

def bytesHeader : ResponseHeader :=
  if (resp.mustSkipBody = false ∨ resp.bodyBytes ≠ []) ∧ resp.header.contentLength ≠ -2 then
    { resp.header with contentLength := resp.bodyBytes.length }
  else resp.header

def write (date : Bytes) : Written :=
  match resp.chunkedW, resp.compressPool, resp.bodyStream with
  | some w, _, _ => resp.writeChunkedStream date w
  | none, some c, _ => resp.writeCompress date c
  | none, none, some s => resp.writeBodyStream date s
  | none, none, none => ⟨resp.bytesHeader.appendBytes date false, .ok (if resp.mustSkipBody then [] else resp.bodyBytes)⟩

end OutResponse

end Fasthttp
