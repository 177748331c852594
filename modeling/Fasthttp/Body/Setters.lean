import Fasthttp.Bytes

/-!
# The setters of a body

A body is held in the raw slice of the caller or in a buffer, and the slice goes first.
-/

namespace Fasthttp

/-- The fields of a request or a response. A buffer of the pool is empty. -/
structure Buffers where
  bodyRaw : Option Bytes
  body : Option Bytes
  keepBodyBuffer : Bool
  deriving DecidableEq, Repr

namespace Buffers

def bodyBytes (s : Buffers) : Bytes :=
  match s.bodyRaw with
  | some raw => raw
  | none => s.body.getD []

def fillBuffer (s : Buffers) (f : Bytes → Bytes) : Buffers := { s with bodyRaw := none, body := some (f (s.body.getD [])) }

def setBody (s : Buffers) (body : Bytes) : Buffers := s.fillBuffer fun _ => body

def appendBody (s : Buffers) (p : Bytes) : Buffers := { s with bodyRaw := none }.fillBuffer (· ++ p)

def resetBody (s : Buffers) : Buffers :=
  { s with bodyRaw := none, body := if s.keepBodyBuffer then s.body.map fun _ => [] else none }

def setBodyRaw (s : Buffers) (body : Option Bytes) : Buffers := { s.resetBody with bodyRaw := body }

def swapBody (s : Buffers) (body : Bytes) : Bytes × Buffers :=
  let bb := s.fillBuffer id
  (bb.body.getD [], { bb with bodyRaw := none, body := some body })

end Buffers

inductive BodyOp
  | setBody (body : Bytes)
  | appendBody (p : Bytes)
  | setBodyRaw (body : Option Bytes)
  | swapBody (body : Bytes)
  | resetBody
  deriving DecidableEq, Repr

namespace BodyOp

def apply (s : Buffers) : BodyOp → Buffers × Option Bytes
  | setBody body => (s.setBody body, none)
  | appendBody p => (s.appendBody p, none)
  | setBodyRaw body => (s.setBodyRaw body, none)
  | swapBody body => ((s.swapBody body).2, some (s.swapBody body).1)
  | resetBody => (s.resetBody, none)

def replace (body : Bytes) : BodyOp → Bytes × Option Bytes
  | setBody b => (b, none)
  | appendBody p => (body ++ p, none)
  | setBodyRaw b => (b.getD [], none)
  | swapBody b => (b, some body)
  | resetBody => ([], none)

def bodies (s : Buffers) : List BodyOp → List (Bytes × Option Bytes)
  | [] => []
  | op :: ops => ((op.apply s).1.bodyBytes, (op.apply s).2) :: bodies (op.apply s).1 ops

def strings (body : Bytes) : List BodyOp → List (Bytes × Option Bytes)
  | [] => []
  | op :: ops => op.replace body :: strings (op.replace body).1 ops

def Reads : BodyOp → Prop
  | appendBody _ | swapBody _ => True
  | _ => False

def raw : BodyOp → Bytes
  | setBodyRaw body => body.getD []
  | _ => []

def Follows (op next : BodyOp) : Prop := next.Reads → op.raw = []

end BodyOp

namespace Buffers

def Lone (s : Buffers) : Prop := ∀ raw ∈ s.bodyRaw, s.body.getD [] = []

theorem lone_apply (s : Buffers) (op : BodyOp) : (op.apply s).1.Lone ∧ (op.apply s).1.bodyRaw.getD [] = op.raw := by
  rcases op with body | p | body | body | _
  · exact ⟨by simp [BodyOp.apply, setBody, fillBuffer, Lone], rfl⟩
  · exact ⟨by simp [BodyOp.apply, appendBody, fillBuffer, Lone], rfl⟩
  · refine ⟨fun raw _ => ?_, rfl⟩
    unfold BodyOp.apply setBodyRaw resetBody
    split_ifs
    · rcases s.body <;> rfl
    · rfl
  · exact ⟨by simp [BodyOp.apply, swapBody, Lone], rfl⟩
  · exact ⟨by simp [BodyOp.apply, resetBody, Lone], rfl⟩

theorem Lone.buffer_eq_iff {s : Buffers} (h : s.Lone) : s.body.getD [] = s.bodyBytes ↔ s.bodyRaw.getD [] = [] := by
  unfold bodyBytes
  rcases hraw : s.bodyRaw with _ | raw
  · simp
  · rw [h raw hraw]
    exact eq_comm

theorem Lone.apply_iff {s : Buffers} (h : s.Lone) (op : BodyOp) :
    ((op.apply s).1.bodyBytes, (op.apply s).2) = op.replace s.bodyBytes ↔ (op.Reads → s.bodyRaw.getD [] = []) := by
  rcases op with body | p | body | body | _
  · exact ⟨fun _ => False.elim, fun _ => rfl⟩
  · rw [← h.buffer_eq_iff]
    simp [BodyOp.apply, BodyOp.replace, BodyOp.Reads, appendBody, fillBuffer, bodyBytes]
  · refine ⟨fun _ => False.elim, fun _ => ?_⟩
    unfold BodyOp.apply BodyOp.replace setBodyRaw resetBody bodyBytes
    rcases body with _ | body
    · rcases s.keepBodyBuffer <;> rcases s.body <;> rfl
    · rfl
  · rw [← h.buffer_eq_iff]
    simp [BodyOp.apply, BodyOp.replace, BodyOp.Reads, swapBody, fillBuffer, bodyBytes]
  · refine ⟨fun _ => False.elim, fun _ => ?_⟩
    unfold BodyOp.apply BodyOp.replace resetBody bodyBytes
    rcases s.keepBodyBuffer <;> rcases s.body <;> rfl

theorem Lone.bodies_iff {s : Buffers} (h : s.Lone) (ops : List BodyOp) : BodyOp.bodies s ops = BodyOp.strings s.bodyBytes ops ↔
    (∀ op ∈ ops.head?, op.Reads → s.bodyRaw.getD [] = []) ∧ ops.IsChain BodyOp.Follows := by
  induction ops generalizing s with
  | nil => simp [BodyOp.bodies, BodyOp.strings]
  | cons op ops ih =>
    obtain ⟨hlone, hraw⟩ := s.lone_apply op
    rw [BodyOp.bodies, BodyOp.strings, List.cons.injEq, h.apply_iff op, List.isChain_cons]
    simp only [List.head?_cons, Option.mem_def, Option.some.injEq, forall_eq']
    refine and_congr_right fun hfirst => ?_
    have hbody : (op.replace s.bodyBytes).1 = (op.apply s).1.bodyBytes := by rw [← (h.apply_iff op).mpr hfirst]
    rw [hbody, ih hlone, hraw]
    rfl

end Buffers

/-- The bodies are those of a string exactly if no body that was set raw is appended to or swapped. -/
theorem bodies_eq_strings_iff (body : Option Bytes) (keepBodyBuffer : Bool) (ops : List BodyOp) :
    BodyOp.bodies ⟨none, body, keepBodyBuffer⟩ ops = BodyOp.strings (body.getD []) ops ↔ ops.IsChain BodyOp.Follows := by
  have hlone : Buffers.Lone ⟨none, body, keepBodyBuffer⟩ := by simp [Buffers.Lone]
  refine (hlone.bodies_iff ops).trans (and_iff_right fun op _ _ => rfl)

theorem bodies_lose_raw :
    BodyOp.bodies ⟨none, none, false⟩ [.setBodyRaw (some (ascii "a")), .appendBody (ascii "b")] =
        [(ascii "a", none), (ascii "b", none)] ∧
      BodyOp.bodies ⟨none, none, false⟩ [.setBodyRaw (some (ascii "a")), .swapBody (ascii "b")] =
        [(ascii "a", none), (ascii "b", some [])] ∧
      BodyOp.strings [] [.setBodyRaw (some (ascii "a")), .appendBody (ascii "b")] = [(ascii "a", none), (ascii "ab", none)] ∧
      BodyOp.strings [] [.setBodyRaw (some (ascii "a")), .swapBody (ascii "b")] =
        [(ascii "a", none), (ascii "b", some (ascii "a"))] := by
  decide

end Fasthttp
