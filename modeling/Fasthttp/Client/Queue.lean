import Fasthttp.Lib.Machine

/-!
# The queue of the waiting callers

`wantConnQueue` of `client.go`: a queue in two stages, with a count of the waiters in it that have given up.
-/

namespace Fasthttp

open List

structure WantConnQueue where
  head : List Nat
  tail : List Nat
  headPos : Nat
  failedWaiters : Int
  within : headPos ≤ head.length
  deriving DecidableEq, Repr

namespace WantConnQueue

def empty : WantConnQueue := ⟨[], [], 0, 0, by simp⟩

variable (q : WantConnQueue)

def len : Int := q.head.length - q.headPos + q.tail.length - q.failedWaiters

def pushBack (w : Nat) : WantConnQueue := { q with tail := q.tail ++ [w] }

/-- A place in the head that was popped is never read again, and keeps its waiter here. -/
def popFront : Option (Nat × WantConnQueue) :=
  if h : q.headPos < q.head.length then
    some (q.head[q.headPos], { q with headPos := q.headPos + 1, within := h })
  else
    match h : q.tail with
    | [] => none
    | w :: ws => some (w, { q with head := w :: ws, headPos := 1, tail := [], within := by simp })

def peekFront : Option Nat :=
  if h : q.headPos < q.head.length then some q.head[q.headPos] else q.tail.head?

def addFailed (n : Int) : WantConnQueue := { q with failedWaiters := q.failedWaiters + n }

def items : List Nat := q.head.drop q.headPos ++ q.tail

def clearFrontLoop (waiting : Nat → Bool) : Nat → WantConnQueue → WantConnQueue
  | 0, q => q
  | fuel + 1, q =>
    match q.peekFront with
    | none => q
    | some w =>
      if waiting w then q
      else
        match q.popFront with
        | none => q
        | some (_, q) => clearFrontLoop waiting fuel (q.addFailed (-1))

def clearFront (waiting : Nat → Bool) (q : WantConnQueue) : WantConnQueue := clearFrontLoop waiting (q.items.length + 1) q

def popWaitingLoop (accept : Nat → Bool) : Nat → WantConnQueue → Option Nat × WantConnQueue × Bool
  | 0, q => (none, q, false)
  | fuel + 1, q =>
    if 0 < q.len then
      match q.popFront with
      | none => (none, q, true)
      | some (w, q) => if accept w then (some w, q, false) else popWaitingLoop accept fuel (q.addFailed (-1))
    else (none, q, false)

def popWaiting (accept : Nat → Bool) (q : WantConnQueue) : Option Nat × WantConnQueue × Bool :=
  popWaitingLoop accept (q.items.length + 1) q

/-! ## The queue as a list -/

theorem len_eq : q.len = q.items.length - q.failedWaiters := by
  have := q.within
  simp only [len, items, length_append, length_drop]
  omega

@[simp] theorem items_empty : empty.items = [] := rfl

@[simp] theorem items_pushBack (w : Nat) : (q.pushBack w).items = q.items ++ [w] := by
  simp [pushBack, items]

@[simp] theorem items_addFailed (n : Int) : (q.addFailed n).items = q.items := rfl

theorem popFront_nil {q : WantConnQueue} (h : q.items = []) : q.popFront = none := by
  obtain ⟨hh, ht⟩ := append_eq_nil_iff.mp h
  have hle := drop_eq_nil_iff.mp hh
  unfold popFront
  rw [dif_neg (by omega)]
  split
  · rfl
  · rename_i h'
    simp [ht] at h'

theorem popFront_cons {q : WantConnQueue} {w : Nat} {ws : List Nat} (h : q.items = w :: ws) :
    ∃ q', q.popFront = some (w, q') ∧ q'.items = ws ∧ q'.failedWaiters = q.failedWaiters := by
  unfold items at h
  unfold popFront
  by_cases hpos : q.headPos < q.head.length
  · rw [drop_eq_getElem_cons hpos, cons_append, List.cons.injEq] at h
    rw [dif_pos hpos, h.1]
    exact ⟨_, rfl, h.2, rfl⟩
  · rw [drop_eq_nil_of_le (by omega)] at h
    rw [dif_neg hpos]
    split
    · rename_i h'
      simp [h'] at h
    · rename_i w' ws' h'
      rw [h'] at h
      obtain ⟨rfl, rfl⟩ := h
      exact ⟨_, rfl, by simp [items], rfl⟩

theorem peekFront_eq : q.peekFront = q.items.head? := by
  unfold peekFront items
  by_cases hpos : q.headPos < q.head.length
  · rw [dif_pos hpos, drop_eq_getElem_cons hpos]
    rfl
  · rw [dif_neg hpos, drop_eq_nil_of_le (by omega), nil_append]

theorem clearFront_spec (waiting : Nat → Bool) (q : WantConnQueue) :
    (q.clearFront waiting).items = q.items.dropWhile (!waiting ·) ∧
    (q.clearFront waiting).failedWaiters = q.failedWaiters - (q.items.takeWhile (!waiting ·)).length := by
  suffices h : ∀ fuel q, q.items.length < fuel → (clearFrontLoop waiting fuel q).items = q.items.dropWhile (!waiting ·) ∧
      (clearFrontLoop waiting fuel q).failedWaiters = q.failedWaiters - (q.items.takeWhile (!waiting ·)).length from
    h _ q (Nat.lt_succ_self _)
  intro fuel
  induction fuel with
  | zero => omega
  | succ fuel ih =>
    intro q hf
    unfold clearFrontLoop
    rw [peekFront_eq]
    rcases hitems : q.items with _ | ⟨w, ws⟩
    · simp [hitems]
    · rcases hw : waiting w with _ | _
      · obtain ⟨q', hpop, hitems', hfailed⟩ := popFront_cons hitems
        rw [hitems, length_cons] at hf
        obtain ⟨hrest, hcount⟩ := ih (q'.addFailed (-1)) (by rw [items_addFailed, hitems']; omega)
        rw [items_addFailed, hitems'] at hrest hcount
        simp only [head?_cons, hw, hpop, Bool.false_eq_true, if_false, dropWhile_cons, takeWhile_cons, Bool.not_false,
          if_true, length_cons]
        refine ⟨hrest, hcount.trans ?_⟩
        simp only [addFailed]
        omega
      · simp [hw, hitems]

inductive Popped (accept : Nat → Bool) (q : WantConnQueue) : Option Nat × WantConnQueue × Bool → Prop
  | found (gone : List Nat) (w : Nat) (q' : WantConnQueue) : 0 < q.len → q.items = gone ++ w :: q'.items →
      (∀ v ∈ gone, accept v = false) → accept w = true → q'.failedWaiters = q.failedWaiters - gone.length →
      Popped accept q (some w, q', false)
  | idle : q.len ≤ 0 → Popped accept q (none, q, false)
  | short (q' : WantConnQueue) : 0 < q.len → q'.items = [] → (∀ v ∈ q.items, accept v = false) →
      Popped accept q (none, q', true)

theorem popWaiting_spec (accept : Nat → Bool) (q : WantConnQueue) : Popped accept q (q.popWaiting accept) := by
  suffices h : ∀ fuel q, q.items.length < fuel → Popped accept q (popWaitingLoop accept fuel q) from h _ q (Nat.lt_succ_self _)
  intro fuel
  induction fuel with
  | zero => omega
  | succ fuel ih =>
    intro q hf
    unfold popWaitingLoop
    by_cases hlen : 0 < q.len
    swap
    · rw [if_neg hlen]
      exact .idle (by omega)
    rw [if_pos hlen]
    rcases hitems : q.items with _ | ⟨w, ws⟩
    · rw [popFront_nil hitems]
      exact .short q hlen hitems (by simp [hitems])
    · obtain ⟨q', hpop, hitems', hfailed⟩ := popFront_cons hitems
      rw [hpop]
      simp only
      by_cases hw : accept w = true
      · rw [if_pos hw]
        exact .found [] w q' hlen (by rw [hitems, hitems']; rfl) (by simp) hw (by simp [hfailed])
      · rw [if_neg hw]
        have hw' : accept w = false := by simpa using hw
        -- the length stays, as the popped waiter is counted no more
        have hlen' : (q'.addFailed (-1)).len = q.len := by
          rw [len_eq, len_eq, items_addFailed, hitems', hitems, length_cons]
          simp only [addFailed]
          omega
        rw [hitems, length_cons] at hf
        have hrest := ih (q'.addFailed (-1)) (by rw [items_addFailed, hitems']; omega)
        generalize popWaitingLoop accept fuel (q'.addFailed (-1)) = o at hrest
        cases hrest with
        | found gone v q'' _ hsplit hgone hv hcount =>
          rw [items_addFailed, hitems'] at hsplit
          refine .found (w :: gone) v q'' hlen (by rw [hitems, hsplit]; rfl) ?_ hv ?_
          · intro u hu
            rcases mem_cons.mp hu with rfl | hu
            · exact hw'
            · exact hgone u hu
          · rw [hcount, length_cons]
            simp only [addFailed]
            omega
        | idle hle => omega
        | short q'' _ hnil hall =>
          rw [items_addFailed, hitems'] at hall
          refine .short q'' hlen hnil fun v hv => ?_
          rw [hitems] at hv
          rcases mem_cons.mp hv with rfl | hv
          · exact hw'
          · exact hall v hv

end WantConnQueue

inductive QueueCall
  | pushBack (w : Nat)
  | popFront
  | peekFront
  | clearFront (waiting : Nat → Bool)
  | fails

def WantConnQueue.call (q : WantConnQueue) : QueueCall → Option Nat × WantConnQueue
  | .pushBack w => (none, q.pushBack w)
  | .popFront =>
    match q.popFront with
    | none => (none, q)
    | some (w, q) => (some w, q)
  | .peekFront => (q.peekFront, q)
  | .clearFront waiting => (none, q.clearFront waiting)
  | .fails => (none, q.addFailed 1)

/-- The queue that is meant, and the number of its waiters that have given up. -/
def Fifo : Type := List Nat × Int

def Fifo.call (s : Fifo) : QueueCall → Option Nat × Fifo
  | .pushBack w => (none, s.1 ++ [w], s.2)
  | .popFront => (s.1.head?, s.1.tail, s.2)
  | .peekFront => (s.1.head?, s)
  | .clearFront waiting => (none, s.1.dropWhile (!waiting ·), s.2 - (s.1.takeWhile (!waiting ·)).length)
  | .fails => (none, s.1, s.2 + 1)

def WantConnQueue.fifo (q : WantConnQueue) : Fifo := (q.items, q.failedWaiters)

theorem WantConnQueue.call_fifo (q : WantConnQueue) (c : QueueCall) : q.fifo.call c = ((q.call c).1, (q.call c).2.fifo) := by
  cases c with
  | pushBack w => simp [Fifo.call, call, fifo, pushBack, items]
  | popFront =>
    simp only [Fifo.call, call, fifo]
    rcases hitems : q.items with _ | ⟨w, ws⟩
    · simp [popFront_nil hitems, hitems]
    · obtain ⟨q', hpop, hitems', hfailed⟩ := popFront_cons hitems
      simp [hpop, hitems', hfailed]
  | peekFront => simp [Fifo.call, call, fifo, peekFront_eq]
  | clearFront waiting =>
    obtain ⟨hitems, hfailed⟩ := q.clearFront_spec waiting
    simp [Fifo.call, call, fifo, hitems, hfailed]
  | fails => rfl

/-- The queue in two stages answers every sequence of calls as the list does, and then stands for that list. -/
theorem queue_fifo (cs : List QueueCall) : answers Fifo.call ([], 0) cs =
    ((answers WantConnQueue.call .empty cs).1, (answers WantConnQueue.call .empty cs).2.fifo) :=
  answers_simulates WantConnQueue.fifo WantConnQueue.call_fifo cs .empty

end Fasthttp
