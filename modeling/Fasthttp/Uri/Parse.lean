import Fasthttp.Args
import Fasthttp.Uri.Host

/-!
# URIs

`URI` of `uri.go`: how a text is parsed, printed and updated.
-/

namespace Fasthttp.Uri

open Segments

def strHTTP : Bytes := ascii "http"
def strHTTPS : Bytes := ascii "https"
def strColonSlashSlash : Bytes := ascii "://"

def lowercaseBytes (b : Bytes) : Bytes := b.map toLowerTable

structure URI where
  pathOriginal : Bytes
  scheme : Bytes
  path : Bytes
  queryString : Bytes
  hash : Bytes
  host : Bytes
  queryArgs : List ArgsKV
  parsedQueryArgs : Bool
  disablePathNormalizing : Bool
  username : Bytes
  password : Bytes
  deriving DecidableEq, Repr

def URI.zero : URI := ⟨[], [], [], [], [], [], [], false, false, [], []⟩

inductive Error
  | invalidURI
  | host (err : HostErr)
  deriving DecidableEq, Repr

/-! ## Parsing -/

def stringContainsCTLByte (s : Bytes) : Bool := s.any fun b => b < 32 || b == 0x7f

def splitHostURI (host uri : Bytes) : Bytes × Bytes × Bytes :=
  match find strSlashSlash uri with
  | none => (strHTTP, host, uri)
  | some n =>
    let scheme := uri.take n
    if (indexByte scheme slash).isSome then (strHTTP, host, uri)
    else
      let scheme := if scheme.getLast? = some (ch ':') then scheme.dropLast else scheme
      let uri := uri.drop (n + 2)
      match indexByte uri slash, indexByte uri (ch '?') with
      | some n, some nq => if nq < n then (scheme, uri.take nq, uri.drop nq) else (scheme, uri.take n, uri.drop n)
      | some n, none => (scheme, uri.take n, uri.drop n)
      | none, some nq => (scheme, uri.take nq, uri.drop nq)
      | none, none => (scheme, uri, strSlash)

def splitUser (host : Bytes) : Bytes × Bytes × Bytes :=
  match indexByte host (ch '@') with
  | none => ([], [], host)
  | some n =>
    let auth := host.take n
    let host := host.drop (n + 1)
    match indexByte auth (ch ':') with
    | some n => (auth.take n, auth.drop (n + 1), host)
    | none => (auth, [], host)

def splitQuery (b : Bytes) : Bytes × Bytes × Bytes :=
  match indexByte b (ch '?'), indexByte b (ch '#') with
  | none, none => (b, [], [])
  | some q, none => (b.take q, b.drop (q + 1), [])
  | none, some f => (b.take f, [], b.drop (f + 1))
  | some q, some f =>
    -- a query in the fragment is none
    if f < q then (b.take f, [], b.drop (f + 1)) else (b.take q, (b.take f).drop (q + 1), b.drop (f + 1))

def pieceLeft (s : Bytes) (mode : Encoding) : Bytes :=
  match unescape s mode with
  | .ok t => t ++ s.drop t.length
  | .error _ => s

/-- What a failed `parseHost` leaves of the host: with a zone, the pieces before the bad one are unescaped. -/
def hostLeft (host : Bytes) : Bytes :=
  if host.head? = some (ch '[') then
    match lastIndexByte host (ch ']') with
    | none => host
    | some i =>
      if !validOptionalPort (host.drop (i + 1)) then host
      else
        match find strPercent25 (host.take i) with
        | some zone =>
          if (unescape (host.take zone) .host).toOption.isNone then host
          else pieceLeft (host.take zone) .host ++ pieceLeft ((host.take i).drop zone) .zone ++ host.drop i
        | none => host
  else host

def split (host uri : Bytes) : Bytes × Bytes × Bytes :=
  if host = [] || (find strColonSlashSlash uri).isSome then splitHostURI host uri else ([], host, uri)

def parse (host uri : Bytes) (isTLS : Bool) : Option Error × URI :=
  if stringContainsCTLByte uri then (some .invalidURI, .zero)
  else
    let split := split host uri
    let scheme := if isTLS then strHTTPS else lowercaseBytes split.1
    let user := splitUser split.2.1
    let u := { URI.zero with scheme, username := user.1, password := user.2.1 }
    match parseHost user.2.2 with
    | .error err => (some (.host err), { u with host := hostLeft user.2.2 })
    | .ok host =>
      let b := splitQuery split.2.2
      (none, { u with
        host := lowercaseBytes host
        pathOriginal := b.1
        path := normalizePath b.1
        queryString := b.2.1
        hash := b.2.2 })

def Parse (host uri : Bytes) : Option Error × URI := parse host uri false

/-! ## Printing -/

def upperhex (n : Nat) : Byte := ((ascii "0123456789ABCDEF")[n]?).getD 0

def quote (c : Byte) : Bytes := [ch '%', upperhex (c.toNat / 16), upperhex (c.toNat % 16)]

def quotedArgShouldEscapeTable (c : Byte) : Bool := !(isLower c || isUpper c || isDigit c || (ascii "-_.~").contains c)

def quotedPathShouldEscapeTable (c : Byte) : Bool := quotedArgShouldEscapeTable c && !(ascii "$&+,/:;=@").contains c

def appendQuotedArg (src : Bytes) : Bytes :=
  src.flatMap fun c => if c = spChar then [ch '+'] else if quotedArgShouldEscapeTable c then quote c else [c]

def appendQuotedPath (src : Bytes) : Bytes :=
  if src = [ch '*'] then [ch '*'] else src.flatMap fun c => if quotedPathShouldEscapeTable c then quote c else [c]

def appendArgs : List ArgsKV → Bytes
  | [] => []
  | kv :: args =>
    appendQuotedArg kv.key ++ (if kv.noValue then [] else ch '=' :: appendQuotedArg kv.value) ++
      (if args = [] then [] else ch '&' :: appendArgs args)

namespace URI

def schemeValue (u : URI) : Bytes := if u.scheme = [] then strHTTP else u.scheme

def pathValue (u : URI) : Bytes := if u.path = [] then strSlash else u.path

def requestURI (u : URI) : Bytes :=
  (if u.disablePathNormalizing then u.pathOriginal else appendQuotedPath u.pathValue) ++
    (if u.parsedQueryArgs && 0 < u.queryArgs.length then ch '?' :: appendArgs u.queryArgs
    else if u.queryString ≠ [] then ch '?' :: u.queryString
    else [])

def appendSchemeHost (u : URI) : Bytes := u.schemeValue ++ strColonSlashSlash ++ u.host

def fullURI (u : URI) : Bytes := u.appendSchemeHost ++ u.requestURI ++ (if u.hash ≠ [] then ch '#' :: u.hash else [])

/-! ## Updating -/

def setQueryString (u : URI) (queryString : Bytes) : URI := { u with queryString, parsedQueryArgs := false }

def setHash (u : URI) (hash : Bytes) : URI := { u with hash }

/-- `Update`. A path without a slash is a panic. -/
def update (u : URI) (newURI : Bytes) : Option URI :=
  if newURI = [] then some u
  else if (find strSlashSlash newURI).isSome then
    let p := Parse [] newURI
    if p.1.isSome then some p.2
    else if u.scheme ≠ [] && p.2.scheme = [] then some { p.2 with scheme := u.scheme }
    else some p.2
  else if newURI.head? = some slash then some (Parse [] (u.appendSchemeHost ++ newURI)).2
  else if newURI.head? = some (ch '?') then some (u.setQueryString newURI.tail)
  else if newURI.head? = some (ch '#') then some (u.setHash newURI.tail)
  else
    match lastIndexByte u.pathValue slash with
    | none => none
    | some n => some (Parse [] (u.appendSchemeHost ++ appendQuotedPath (u.pathValue.take (n + 1)) ++ newURI)).2

end URI

end Fasthttp.Uri
