import Fasthttp.Uri.Path

/-!
# Hosts

`parseHost` and `unescape` of `uri.go`.
-/

namespace Fasthttp

open Segments

inductive Encoding
  | host
  | zone
  deriving DecidableEq, Repr

inductive HostErr
  | escape (s : Bytes)
  | invalidHost (s : Bytes)
  | missingBracket
  | invalidPort (colonPort : Bytes)
  deriving DecidableEq, Repr

def ishex (c : Byte) : Bool := hex2intTable c < 16

def unhexPair (a b : Byte) : Byte := UInt8.ofNat (hex2intTable a % 16 * 16 + hex2intTable b % 16)

def shouldEscape (c : Byte) : Bool :=
  !(isLower c || isUpper c || isDigit c || (ascii "!$&'()*+,;=:[]<>\"").contains c || (ascii "-_.~").contains c)

def strPercent25 : Bytes := ascii "%25"

def checkEscapes (mode : Encoding) : Bytes → Option HostErr
  | [] => none
  | c :: rest =>
    if c = ch '%' then
      match rest with
      | a :: b :: more =>
        if !ishex a || !ishex b then some (.escape [c, a, b])
        else if mode = .host ∧ hex2intTable a % 16 < 8 ∧ [c, a, b] ≠ strPercent25 then some (.escape [c, a, b])
        else if mode = .zone ∧ [c, a, b] ≠ strPercent25 ∧ unhexPair a b ≠ spChar ∧ shouldEscape (unhexPair a b) then
          some (.escape [c, a, b])
        else checkEscapes mode more
      | short => some (.escape (c :: short))
    else if c < 0x80 ∧ shouldEscape c then some (.invalidHost [c])
    else checkEscapes mode rest

def unescapeBytes : Bytes → Bytes
  | c :: a :: b :: rest => if c = ch '%' then unhexPair a b :: unescapeBytes rest else c :: unescapeBytes (a :: b :: rest)
  | short => short

def unescape (s : Bytes) (mode : Encoding) : Except HostErr Bytes :=
  match checkEscapes mode s with
  | some err => .error err
  | none => .ok (unescapeBytes s)

def validOptionalPort : Bytes → Bool
  | [] => true
  | c :: digits => c = ch ':' && digits.all isDigit

def parseHost (host : Bytes) : Except HostErr Bytes :=
  if host.head? = some (ch '[') then
    match lastIndexByte host (ch ']') with
    | none => .error .missingBracket
    | some i =>
      if !validOptionalPort (host.drop (i + 1)) then .error (.invalidPort (host.drop (i + 1)))
      else
        match find strPercent25 (host.take i) with
        | some zone => do
          let host1 ← unescape (host.take zone) .host
          let host2 ← unescape ((host.take i).drop zone) .zone
          let host3 ← unescape (host.drop i) .host
          return host1 ++ host2 ++ host3
        | none => unescape host .host
  else
    match lastIndexByte host (ch ':') with
    | some i => if !validOptionalPort (host.drop i) then .error (.invalidPort (host.drop i)) else unescape host .host
    | none => unescape host .host

def uriHost (host : Bytes) : Except HostErr Bytes := (parseHost host).map (List.map toLowerTable)

end Fasthttp
