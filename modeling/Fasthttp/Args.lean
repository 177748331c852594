import Fasthttp.Bytes

/-! # Argument lists, unsigned integers and comma lists (args.go, bytesconv.go) -/

namespace Fasthttp

open List

/-! ## Argument lists -/

structure ArgsKV where
  key : Bytes
  value : Bytes
  noValue : Bool
  deriving DecidableEq, Repr

def appendArg (args : List ArgsKV) (key value : Bytes) (noValue : Bool) : List ArgsKV :=
  args ++ [{ key, value := if noValue then [] else value, noValue }]

def setArg (h : List ArgsKV) (key value : Bytes) (noValue : Bool) : List ArgsKV :=
  match h with
  | [] => appendArg [] key value noValue
  | kv :: h =>
    if key = kv.key then { kv with value := if noValue then [] else value, noValue } :: h
    else kv :: setArg h key value noValue

def delAllArgs (args : List ArgsKV) (key : Bytes) : List ArgsKV :=
  args.filter fun kv => key ≠ kv.key

def peekArgBytes (h : List ArgsKV) (key : Bytes) : Bytes :=
  ((h.find? fun kv => kv.key = key).map ArgsKV.value).getD []

theorem mem_setArg (args : List ArgsKV) (key value : Bytes) :
    ∃ kv ∈ setArg args key value false, kv.key = key ∧ kv.value = value := by
  induction args with
  | nil => exact ⟨⟨key, value, false⟩, by simp [setArg, appendArg], rfl, rfl⟩
  | cons kv args ih =>
    unfold setArg
    split
    · rename_i hk
      exact ⟨{ kv with value := value, noValue := false }, by simp, hk.symm, rfl⟩
    · obtain ⟨kv', hmem, heq⟩ := ih
      exact ⟨kv', by simp [hmem], heq⟩

theorem forall_setArg {P : ArgsKV → Prop} {args : List ArgsKV} {key value : Bytes} {noValue : Bool} (h : ∀ kv ∈ args, P kv)
    (hnew : P ⟨key, if noValue then [] else value, noValue⟩) : ∀ kv ∈ setArg args key value noValue, P kv := by
  induction args with
  | nil => exact forall_mem_singleton.mpr hnew
  | cons a args ih =>
    rw [forall_mem_cons] at h
    unfold setArg
    split
    · next hkey => exact forall_mem_cons.mpr ⟨hkey ▸ hnew, h.2⟩
    · exact forall_mem_cons.mpr ⟨h.1, ih h.2⟩

def Tidy (args : List ArgsKV) : Prop := ∀ kv ∈ args, kv.noValue = true → kv.value = []

theorem tidy_append {a b : List ArgsKV} : Tidy (a ++ b) ↔ Tidy a ∧ Tidy b := forall_mem_append

/-! ## Unsigned integers -/

/-- An `int64`: sums and products wrap around. -/
def int64 (v : Int) : Int := v.bmod (2 ^ 64)

def parseUintLoop (i : Nat) (v : Int) : Bytes → Int × Nat × Option Err
  | [] => (v, i, none)
  | c :: b =>
    let k := c - ch '0'
    if 9 < k then
      if i = 0 then (-1, i, some .unexpectedFirstChar) else (v, i, none)
    else
      let vNew := int64 (10 * v + k.toNat)
      if vNew < v then (-1, i, some .tooLongInt) else parseUintLoop (i + 1) vNew b

def parseUintBuf (b : Bytes) : Int × Nat × Option Err :=
  if b.isEmpty then (-1, 0, some .emptyInt) else parseUintLoop 0 0 b

def parseUint (b : Bytes) : Int × Option Err :=
  match parseUintBuf b with
  | (v, n, err) => if n ≠ b.length then (-1, some .unexpectedTrailingChar) else (v, err)

def parseContentLength (b : Bytes) : Int × Option Err :=
  match parseUintBuf b with
  | (_, _, some e) => (-1, some e)
  | (v, n, none) => if n ≠ b.length then (-1, some .nonNumericChars) else (v, none)

/-! ## Comma lists -/

def stripSpace (b : Bytes) : Bytes :=
  ((b.dropWhile (· = spChar)).reverse.dropWhile (· = spChar)).reverse

def commaList : Nat → Bytes → List Bytes
  | 0, _ => []
  | fuel + 1, b =>
    if b.isEmpty then []
    else match indexByte b (ch ',') with
      | none => [stripSpace b]
      | some n => stripSpace (b.take n) :: commaList fuel (b.drop (n + 1))

def caseInsensitiveCompare (a b : Bytes) : Bool :=
  a.map (· ||| 32) == b.map (· ||| 32)

def hasHeaderValue (s value : Bytes) : Bool :=
  (commaList (s.length + 1) s).any fun v => caseInsensitiveCompare v value

end Fasthttp
