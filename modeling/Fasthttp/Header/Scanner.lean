import Fasthttp.Header.Key

/-!
# The header scanner

`headerScanner` walks over the buffer of the connection reader and edits it: keys are normalised in place, and a value
that is folded over several lines is unfolded in place, with the rest of the buffer moved up behind it.
-/

namespace Fasthttp

def isBlank (c : Byte) : Bool := c = spChar || c = tabChar

structure Scanner where
  pre : Bytes
  b : Bytes
  post : Bytes
  key : Bytes
  value : Bytes
  hLen : Nat
  nextColon : Option Nat
  nextNewLine : Option Nat
  err : Option Err
  disableNormalizing : Bool
  deriving DecidableEq, Repr

namespace Scanner

def new (b : Bytes) (disableNormalizing : Bool) : Scanner where
  pre := []
  b := b
  post := []
  key := []
  value := []
  hLen := 0
  nextColon := none
  nextNewLine := none
  err := none
  disableNormalizing := disableNormalizing

def mem (s : Scanner) : Bytes := s.pre ++ s.b ++ s.post

end Scanner

/-! ## Values -/

def trimValue (v : Bytes) : Bytes :=
  (if v.getLast? = some rChar then v.dropLast else v).rdropWhile isBlank

def unfoldValue (lineStart once : Bool) : Bytes → Bytes × Nat
  | [] => ([], 0)
  | c :: v =>
    if c = rChar || c = nChar then
      let r := unfoldValue (lineStart || c = nChar) (once && c ≠ nChar) v
      (r.1, r.2 + 1)
    else if lineStart && isBlank c then
      if once then
        let r := unfoldValue lineStart once v
        (r.1, r.2 + 1)
      else
        let r := unfoldValue lineStart true v
        (spChar :: r.1, r.2)
    else
      let r := unfoldValue false once v
      (c :: r.1, r.2)

structure Unfolded where
  nv : Bytes
  ob : Bytes
  start : Nat
  stop : Nat
  nhl : Nat

def normalizeHeaderValue (ov ob : Bytes) (headerLength : Nat) : Unfolded :=
  if ov.isEmpty then { nv := ov, ob, start := 0, stop := 0, nhl := 0 }
  else
    let nv := (unfoldValue false false ov).1
    let shrunk := (unfoldValue false false ov).2
    let moved := ob.drop ov.length
    let skip :=
      if moved.take 1 = [rChar] then
        if (moved.drop 1).take 1 = [nChar] then 2 else 1
      else if moved.take 1 = [nChar] then 1 else 0
    -- `copy` leaves the last bytes where they were
    { nv
      ob := nv ++ moved ++ ob.drop (ob.length - shrunk)
      start := nv.length + skip
      stop := ob.length - shrunk
      nhl := headerLength - shrunk }

structure Folded where
  extra : Nat
  nextColon : Option Nat
  nextNewLine : Option Nat
  deriving DecidableEq, Repr

/-- The lines behind the first line of a value that belong to it: they start with a blank and have no colon. -/
def foldLines : Nat → Bytes → Folded
  | 0, _ => ⟨0, none, none⟩
  | fuel + 1, b =>
    match b with
    | [] => ⟨0, none, none⟩
    | first :: _ =>
      if !isBlank first then ⟨0, none, none⟩
      else match indexByte b nChar with
        | none => ⟨0, none, none⟩
        | some d =>
          match indexByte (b.take d) colonChar with
          | some c => ⟨0, some c, some (d - c - 1)⟩
          | none =>
            let f := foldLines fuel (b.drop (d + 1))
            { f with extra := d + 1 + f.extra }

namespace Scanner

def blankLen (b : Bytes) : Nat :=
  if b.take 2 = strCRLF then 2 else if b.take 1 = [nChar] then 1 else 0

def keyEnd (s : Scanner) : Except Err Nat :=
  match s.nextColon with
  | some n => .ok n
  | none =>
    match indexByte s.b nChar, indexByte s.b colonChar with
    | none, _ => .error .needMore
    | some _, none => .error .needMore
    | some x, some n => if x < n then .error .invalidName else .ok n

def passKey (s : Scanner) (n : Nat) : Scanner :=
  let key := initHeaderK (s.b.take n) s.disableNormalizing
  let skip := ((s.b.drop (n + 1)).takeWhile isBlank).length
  { s with
    key
    pre := s.pre ++ key ++ (s.b.drop n).take (1 + skip)
    b := s.b.drop (n + 1 + skip)
    hLen := s.hLen + (n + 1 + skip)
    nextColon := none
    nextNewLine := s.nextNewLine.bind fun k => if k < skip then none else some (k - skip) }

def passValue (s : Scanner) : Bool × Scanner :=
  match s.nextNewLine.or (indexByte s.b nChar) with
  | none => (false, { s with err := some .needMore })
  | some x =>
    let f := foldLines s.b.length (s.b.drop (x + 1))
    let n := x + f.extra
    let s := { s with nextColon := f.nextColon, nextNewLine := f.nextNewLine }
    if s.b.length ≤ n then (false, { s with err := some .needMore })
    else
      let value := trimValue (s.b.take n)
      if f.extra = 0 then
        (true, { s with
          value
          pre := s.pre ++ s.b.take (n + 1)
          b := s.b.drop (n + 1)
          hLen := s.hLen + (n + 1) })
      else
        let u := normalizeHeaderValue value s.b (s.hLen + (n + 1))
        (true, { s with
          value := u.nv
          pre := s.pre ++ u.ob.take u.start
          b := (u.ob.take u.stop).drop u.start
          post := u.ob.drop u.stop ++ s.post
          hLen := u.nhl })

def next (s : Scanner) : Bool × Scanner :=
  let k := blankLen s.b
  if 0 < k then
    (false, { s with pre := s.pre ++ s.b.take k, b := s.b.drop k, hLen := s.hLen + k })
  else match s.keyEnd with
    | .error e => (false, { s with nextColon := none, err := some e })
    | .ok n => (s.passKey n).passValue

variable {σ : Type}

def scan (body : σ → Bytes → Bytes → σ × Option Err) : Nat → Scanner → σ → σ × Scanner × Option Err
  | 0, s, h => (h, s, s.err)
  | fuel + 1, s, h =>
    match s.next with
    | (false, s) => (h, s, s.err)
    | (true, s) =>
      match body h s.key s.value with
      | (h, some e) => (h, s, some e)
      | (h, none) => scan body fuel s h

/-- Each field takes at least one byte, so this many rounds are enough (`scan_fuel`). -/
def scanAll (body : σ → Bytes → Bytes → σ × Option Err) (s : Scanner) (h : σ) :
    σ × Scanner × Option Err :=
  scan body (s.b.length + 1) s h

end Scanner

end Fasthttp
