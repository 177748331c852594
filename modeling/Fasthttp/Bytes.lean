import Mathlib

/-!
# Bytes, byte tables and errors

The constants of `strings.go` and `headers.go`, the tables of `bytesconv_table_gen.go` and the errors of the readers.
-/

namespace Fasthttp

abbrev Byte := UInt8

abbrev Bytes := List Byte

/-- A question about the bytes of a text is decided over the text, not over all bytes. -/
instance (priority := 1100) (l : Bytes) (p : Byte → Prop) [DecidablePred p] : Decidable (∀ c ∈ l, p c) := List.decidableBAll p l

def ch (c : Char) : Byte := UInt8.ofNat c.toNat

def ascii (s : String) : Bytes := s.toList.map ch

def rChar : Byte := 13
def nChar : Byte := 10
def spChar : Byte := 32
def tabChar : Byte := 9
def colonChar : Byte := 58

def strCRLF : Bytes := [rChar, nChar]
def strColonSpace : Bytes := ascii ": "
def strCommaSpace : Bytes := ascii ", "
def strSlash : Bytes := ascii "/"
def strHTTP11 : Bytes := ascii "HTTP/1.1"
def strGet : Bytes := ascii "GET"
def strHead : Bytes := ascii "HEAD"
def strPost : Bytes := ascii "POST"

def strConnection : Bytes := ascii "Connection"
def strContentLength : Bytes := ascii "Content-Length"
def strContentType : Bytes := ascii "Content-Type"
def strContentEncoding : Bytes := ascii "Content-Encoding"
def strContentRange : Bytes := ascii "Content-Range"
def strTransferEncoding : Bytes := ascii "Transfer-Encoding"
def strDate : Bytes := ascii "Date"
def strHost : Bytes := ascii "Host"
def strServer : Bytes := ascii "Server"
def strUserAgent : Bytes := ascii "User-Agent"
def strCookie : Bytes := ascii "Cookie"
def strSetCookie : Bytes := ascii "Set-Cookie"
def strExpect : Bytes := ascii "Expect"
def strAuthorization : Bytes := ascii "Authorization"
def strRange : Bytes := ascii "Range"
def strTE : Bytes := ascii "TE"
def strTrailer : Bytes := ascii "Trailer"
def strMaxForwards : Bytes := ascii "Max-Forwards"
def strProxyConnection : Bytes := ascii "Proxy-Connection"
def strProxyAuthenticate : Bytes := ascii "Proxy-Authenticate"
def strProxyAuthorization : Bytes := ascii "Proxy-Authorization"
def strWWWAuthenticate : Bytes := ascii "WWW-Authenticate"

def strDefaultContentType : Bytes := ascii "application/octet-stream"
def strDefaultRespContentType : Bytes := ascii "text/plain; charset=utf-8"
def strPostArgsContentType : Bytes := ascii "application/x-www-form-urlencoded"
def strMultipartFormData : Bytes := ascii "multipart/form-data"
def strBoundary : Bytes := ascii "boundary"

def strClose : Bytes := ascii "close"
def strKeepAlive : Bytes := ascii "keep-alive"
def strChunked : Bytes := ascii "chunked"
def str100Continue : Bytes := ascii "100-continue"

/-! ## Tables -/

def isDigit (c : Byte) : Bool := ch '0' ≤ c && c ≤ ch '9'
def isLower (c : Byte) : Bool := ch 'a' ≤ c && c ≤ ch 'z'
def isUpper (c : Byte) : Bool := ch 'A' ≤ c && c ≤ ch 'Z'

def toLowerTable (c : Byte) : Byte := if isUpper c then c + 32 else c
def toUpperTable (c : Byte) : Byte := if isLower c then c - 32 else c

def hex2intTable (c : Byte) : Nat :=
  if isDigit c then (c - ch '0').toNat
  else if ch 'a' ≤ c && c ≤ ch 'f' then (c - ch 'a').toNat + 10
  else if ch 'A' ≤ c && c ≤ ch 'F' then (c - ch 'A').toNat + 10
  else 16

def validHeaderFieldByte (c : Byte) : Bool :=
  isDigit c || isLower c || isUpper c || (ascii "!#$%&'*+-.^_`|~").contains c

def validHeaderValueByte (c : Byte) : Bool := (32 ≤ c && c ≤ 126) || c == 9 || 128 ≤ c

def validMethodValueByte (c : Byte) : Bool := validHeaderFieldByte c

theorem forall_byte {p : Byte → Prop} (h : ∀ n : Fin 256, p (UInt8.ofNat n)) (c : Byte) : p c := by
  have hc := h ⟨c.toNat, c.toNat_lt⟩
  simpa using hc

/-! ## Errors -/

inductive Err
  | eof
  | bufferFull
  | needMore
  | invalidName
  | unexpectedHeaderEOF
  | unexpectedTrailerEOF
  | unexpectedReqBodyEOF
  | unexpectedRespBodyEOF
  | headerBufferSmall
  | trailerHeaderBufferSmall
  | malformedResponse
  /-- `newHeaderParseErr(what, val)`: the text is `what:val`. -/
  | headerParse (what : String) (val : Bytes)
  | unsupportedTE (what : String) (val : Bytes)
  | trailerKey (what : String) (val : Bytes)
  | badTrailer
  | emptyInt
  | unexpectedFirstChar
  | unexpectedTrailingChar
  | tooLongInt
  | nonNumericChars
  | emptyHexNum
  | tooLargeHexNum
  /-- `ErrBrokenChunk`: the byte that was found and the one that was expected -/
  | brokenChunk (found expected : Byte)
  /-- `ErrBrokenChunk`: no line end behind a chunk that was read at once -/
  | brokenChunkEnd
  | emptyRead
  | bodyTooLarge
  | chunkedStream
  | negativeCount
  | sliceBounds
  | multipartForm (cause : String)
  /-- an error of the connection other than the end of its bytes -/
  | net (code : Nat)
  deriving DecidableEq, Repr

def Err.emptyHeaderKey : Err := .headerParse "empty header key" []
def Err.contentLengthNotInt : Err := .headerParse "Content-Length not int string" []
def Err.badTrailerInHeader : Err := .headerParse "header contain forbidden trailer" []
def Err.multipleContentLength : Err := .headerParse "multiple Content-Length headers" []

def indexByte (b : Bytes) (c : Byte) : Option Nat := b.idxOf? c

def lastIndexByte (b : Bytes) (c : Byte) : Option Nat :=
  (b.reverse.idxOf? c).map fun i => b.length - 1 - i

end Fasthttp
