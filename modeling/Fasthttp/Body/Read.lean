import Fasthttp.Lib.Taking
import Fasthttp.Bytes

/-!
# Body readers

`readBody`, `readBodyChunked` and `readBodyIdentity` of `http.go`, and `readHexInt` of `bytesconv.go`.
-/

namespace Fasthttp

open Bufio

/-! ## Chunk sizes -/

def maxHexIntChars : Nat := 15

def readHexIntLoop : Nat → Nat → Nat → Reader Byte Err → Except Err Nat × Reader Byte Err
  | 0, _, _, r => (.error .tooLargeHexNum, r)
  | fuel + 1, i, n, r =>
    match r.readByte with
    | (.error e, r) => if e = .eof && 0 < i then (.ok n, r) else (.error e, r)
    | (.ok c, r) =>
      let k := hex2intTable c
      if k = 16 then
        if i = 0 then (.error .emptyHexNum, r) else (.ok n, r.unreadByte c)
      else if maxHexIntChars ≤ i then (.error .tooLargeHexNum, r)
      else readHexIntLoop fuel (i + 1) (n <<< 4 ||| k) r

variable (r : Reader Byte Err)

def readHexInt : Except Err Nat × Reader Byte Err :=
  readHexIntLoop (maxHexIntChars + 1) 0 0 r

def expectBytes : Bytes → Reader Byte Err → Option Err × Reader Byte Err
  | [], r => (none, r)
  | exp :: es, r =>
    match r.readByte with
    | (.error e, r) => (some e, r)
    | (.ok c, r) => if c ≠ exp then (some (.brokenChunk c exp), r) else expectBytes es r

def readCrLf : Option Err × Reader Byte Err := expectBytes strCRLF r

def skipExtension : Nat → Reader Byte Err → Option Err × Reader Byte Err
  | 0, r => (none, r)
  | fuel + 1, r =>
    match r.readByte with
    | (.error e, r) => (some e, r)
    | (.ok c, r) => if c ≠ rChar then skipExtension fuel r else (none, r.unreadByte c)

def parseChunkSize : Except Err Nat × Reader Byte Err :=
  match readHexInt r with
  | (.error e, r) => (.error e, r)
  | (.ok n, r) =>
    match skipExtension (r.unread.length + 1) r with
    | (some e, r) => (.error e, r)
    | (none, r) =>
      match readCrLf r with
      | (some e, r) => (.error e, r)
      | (none, r) => (.ok n, r)

/-! ## Bodies -/

def fillBody : Nat → Reader Byte Err → Bytes → Nat → Bytes × Option Err × Reader Byte Err
  | 0, r, dst, _ => (dst, none, r)
  | fuel + 1, r, dst, want =>
    match r.read want with
    | (bs, e, r) =>
      if bs.isEmpty then (dst, some (e.getD .emptyRead), r)
      else if bs.length = want then (dst ++ bs, none, r)
      else fillBody fuel r (dst ++ bs) (want - bs.length)

def appendBodyFixedSize (dst : Bytes) (n : Int) : Bytes × Option Err × Reader Byte Err :=
  if n = 0 then (dst, none, r)
  -- `dst[:dstLen]` or `dst[offset:]` is out of range
  else if n < 0 then (dst, some .sliceBounds, r)
  else fillBody n.toNat r dst n.toNat

def readBody (contentLength maxBodySize : Int) (dst : Bytes) :
    Bytes × Option Err × Reader Byte Err :=
  if 0 < maxBodySize && maxBodySize < contentLength then (dst, some .bodyTooLarge, r)
  else appendBodyFixedSize r dst contentLength

def readChunks : Nat → Reader Byte Err → Int → Bytes → Bytes × Option Err × Reader Byte Err
  | 0, r, _, dst => (dst, some .emptyRead, r)
  | fuel + 1, r, maxBodySize, dst =>
    match parseChunkSize r with
    | (.error e, r) => (dst, some e, r)
    | (.ok chunkSize, r) =>
      if chunkSize = 0 then (dst, none, r)
      else if 0 < maxBodySize && maxBodySize < dst.length + chunkSize then (dst, some .bodyTooLarge, r)
      else
        match appendBodyFixedSize r dst (chunkSize + strCRLF.length) with
        | (dst, some e, r) => (dst, some e, r)
        | (dst, none, r) =>
          if dst.drop (dst.length - strCRLF.length) ≠ strCRLF then (dst, some .brokenChunkEnd, r)
          else readChunks fuel r maxBodySize (dst.take (dst.length - strCRLF.length))

/-- The caller passes an empty buffer. -/
def readBodyChunked (maxBodySize : Int) : Bytes × Option Err × Reader Byte Err :=
  readChunks (r.unread.length + 1) r maxBodySize []

def roundUpForSliceCap (n : Nat) : Nat :=
  if n = 0 then 0
  else if 100 * 1024 * 1024 < n then n
  else
    let x := n - 1
    let x := x ||| x >>> 1
    let x := x ||| x >>> 2
    let x := x ||| x >>> 4
    let x := x ||| x >>> 8
    let x := x ||| x >>> 16
    x + 1

/-- The loop of `readBodyIdentity`. `size` is the length of the buffer, of which `dst` is filled. -/
def readToEnd : Nat → Reader Byte Err → Int → Nat → Bytes → Bytes × Option Err × Reader Byte Err
  | 0, r, _, _, dst => (dst, some .emptyRead, r)
  | fuel + 1, r, maxBodySize, size, dst =>
    match r.read (size - dst.length) with
    | (bs, e, r) =>
      if bs.isEmpty then
        (dst, match e with | some .eof => none | some e => some e | none => some .emptyRead, r)
      else
        let dst := dst ++ bs
        if 0 < maxBodySize && maxBodySize < dst.length then (dst, some .bodyTooLarge, r)
        else match e with
          | some e => (dst, if e = .eof then none else some e, r)
          | none =>
            let n := roundUpForSliceCap (2 * dst.length)
            let n := if 0 < maxBodySize && maxBodySize < n then maxBodySize.toNat + 1 else n
            readToEnd fuel r maxBodySize (if size = dst.length then n else size) dst

/-- `cap` is the capacity of the buffer of the caller. -/
def readBodyIdentity (maxBodySize : Int) (cap : Nat) : Bytes × Option Err × Reader Byte Err :=
  readToEnd (r.unread.length + 1) r maxBodySize (if cap = 0 then 1024 else cap) []

end Fasthttp
