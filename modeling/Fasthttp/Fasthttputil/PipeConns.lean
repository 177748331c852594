import Fasthttp.Bytes
import Fasthttp.Lib.Machine
import Fasthttp.Lib.Tally

/-!
# One direction of an in-memory connection pair

`Write` calls of one side of a `PipeConns` and the `Read` calls of the other, with `Close` of either.
-/

namespace Fasthttp

open List

inductive PipeErr
  | connectionClosed
  | timeout
  | eof
  deriving DecidableEq, Repr

inductive WritePc
  | checks (h : Nat)
  | sends (h : Nat)
  | blocked (h : Nat)
  | returned (e : Option PipeErr)
  deriving DecidableEq, Repr

structure PipeWrite where
  data : Bytes
  pc : WritePc
  deriving DecidableEq, Repr

/-- What `Read` does next: `want` is the length of the rest of `p`, and `got` are the bytes that were copied. -/
inductive ReadPc
  | idle
  | loop (want : Nat) (mayBlock : Bool) (got : Bytes)
  | next (want : Nat) (mayBlock : Bool) (got : Bytes)
  | blocked (want : Nat) (got : Bytes)
  | timedOut (want : Nat) (got : Bytes)
  | sawStop (want : Nat) (got : Bytes)
  | copies (want : Nat) (got : Bytes)
  deriving DecidableEq, Repr

/-- `heap` are the contents of the buffers, of which `made` were made. -/
structure Pipe where
  heap : Nat → Bytes
  made : Nat
  pool : List Nat
  ch : List Nat
  stopped : Bool
  writes : List PipeWrite
  reader : ReadPc
  b : Option Nat
  off : Nat
  sent : List Nat
  reads : List (Bytes × Option PipeErr)
  atClose : Option (List Nat)

inductive WriteStep
  | check
  | send
  | timeout
  | stop
  deriving DecidableEq, Repr

inductive ReadStep
  | loop
  | receive
  | giveUp
  | timeout
  | stop
  | copy
  deriving DecidableEq, Repr

inductive PipeAction
  | write (p : Bytes) (recycled : Option Nat)
  | writeStep (i : Nat) (a : WriteStep)
  | read (n : Nat)
  | readStep (a : ReadStep)
  | close
  /-- a buffer of the pool is used by another connection -/
  | other (h : Nat) (p : Bytes)
  deriving DecidableEq, Repr

namespace Pipe

def new : Pipe := ⟨fun _ => [], 0, [], [], false, [], .idle, none, 0, [], [], none⟩

variable (s : Pipe)

def bb : Bytes :=
  match s.b with
  | some h => (s.heap h).drop s.off
  | none => []

def setWrite (i : Nat) (w : PipeWrite) (pc : WritePc) : Pipe := { s with writes := s.writes.set i { w with pc := pc } }

def release (h : Nat) : Pipe := { s with pool := h :: s.pool }

def returnRead (got : Bytes) (e : Option PipeErr) : Pipe := { s with reader := .idle, reads := s.reads ++ [(got, e)] }

def stepWrite (i : Nat) (w : PipeWrite) : WriteStep → Option Pipe
  | .check =>
    match w.pc with
    | .checks h => if s.stopped then some ((s.release h).setWrite i w (.returned (some .connectionClosed))) else some
        (s.setWrite i w (.sends h))
    | _ => none
  | .send =>
    match w.pc with
    | .sends h =>
      if s.ch.length < 4 then some { s.setWrite i w (.returned none) with ch := s.ch ++ [h], sent := s.sent ++ [i] }
      else some (s.setWrite i w (.blocked h))
    | .blocked h =>
      if s.ch.length < 4 then some { s.setWrite i w (.returned none) with ch := s.ch ++ [h], sent := s.sent ++ [i] } else none
    | _ => none
  | .timeout =>
    match w.pc with
    | .blocked _ => some (s.setWrite i w (.returned (some .timeout)))
    | _ => none
  | .stop =>
    match w.pc with
    | .blocked h => if s.stopped then some ((s.release h).setWrite i w (.returned (some .connectionClosed))) else none
    | _ => none

def receive (want : Nat) (got : Bytes) : Option Pipe :=
  match s.ch with
  | h :: rest => some { s with ch := rest, b := some h, off := 0, reader := .copies want got }
  | [] => none

def stepRead : ReadStep → Option Pipe
  | .loop =>
    match s.reader with
    | .loop want mayBlock got =>
      if want = 0 then some (s.returnRead got none)
      else if s.bb = [] then
        match s.b with
        | some h => some { s.release h with b := none, reader := .next want mayBlock got }
        | none => some { s with reader := .next want mayBlock got }
      else some { s with reader := .copies want got }
    | _ => none
  | .receive =>
    match s.reader with
    | .next want _ got | .blocked want got | .timedOut want got | .sawStop want got => s.receive want got
    | _ => none
  | .giveUp =>
    if s.ch = [] then
      match s.reader with
      -- `errWouldBlock` is not returned
      | .next _ false got => some (s.returnRead got none)
      | .next want true got => some { s with reader := .blocked want got }
      | .timedOut _ got => some (s.returnRead got (some .timeout))
      | .sawStop _ got => some (s.returnRead got (some .eof))
      | _ => none
    else none
  | .timeout =>
    match s.reader with
    | .blocked want got => some { s with reader := .timedOut want got }
    | _ => none
  | .stop =>
    match s.reader with
    | .blocked want got => if s.stopped then some { s with reader := .sawStop want got } else none
    | _ => none
  | .copy =>
    match s.reader with
    | .copies want got =>
      some { s with off := s.off + min want s.bb.length, reader := .loop (want - min want s.bb.length) false (got ++ s.bb.take want) }
    | _ => none

def step : PipeAction → Option Pipe
  | .write p none =>
    some { s with heap := Function.update s.heap s.made p, made := s.made + 1, writes := s.writes ++ [⟨p, .checks s.made⟩] }
  | .write p (some h) =>
    if h ∈ s.pool then
      some { s with heap := Function.update s.heap h p, pool := s.pool.erase h, writes := s.writes ++ [⟨p, .checks h⟩] }
    else none
  | .writeStep i a => s.writes[i]?.bind fun w => s.stepWrite i w a
  | .read n => if s.reader = .idle then some { s with reader := .loop n true [] } else none
  | .readStep a => s.stepRead a
  | .close => some (if s.stopped then s else { s with stopped := true, atClose := some s.sent })
  | .other h p => if h ∈ s.pool then some { s with heap := Function.update s.heap h p } else none

def machine : Machine Pipe PipeAction := ⟨step⟩

/-! ## What is delivered -/

def dataOf (i : Nat) : Bytes := (s.writes[i]?.map PipeWrite.data).getD []

def returned : Bytes := (s.reads.map Prod.fst).flatten

def dataOfAll (l : List Nat) : Bytes := (l.map s.dataOf).flatten

/-- The bytes that were read are the first of those that were put on the channel. -/
structure Fifo (s : Pipe) : Prop where
  inOrder : s.returned <+: s.dataOfAll s.sent
  once : s.sent.Nodup
  succeeded : ∀ i, i ∈ s.sent ↔ ∃ w, s.writes[i]? = some w ∧ w.pc = .returned none
  eof : ∀ r ∈ s.reads, r.2 = some .eof → ∃ l, s.atClose = some l ∧ s.dataOfAll l <+: s.returned

end Pipe

/-! ## Who has a buffer -/

def PipeWrite.buf (w : PipeWrite) : Option Nat :=
  match w.pc with
  | .checks h | .sends h | .blocked h => some h
  | .returned _ => none

def PipeWrite.holds (h : Nat) (w : PipeWrite) : Nat := if w.buf = some h then 1 else 0

theorem PipeWrite.holds_of_buf {w : PipeWrite} {h : Nat} (hbuf : w.buf = some h) (j : Nat) : w.holds j = Tally.one h j := by
  simp [PipeWrite.holds, hbuf, Tally.one]

@[simp] theorem PipeWrite.holds_returned (p : Bytes) (e : Option PipeErr) (j : Nat) : PipeWrite.holds j ⟨p, .returned e⟩ = 0 := rfl

namespace ReadPc

def got : ReadPc → Bytes
  | idle => []
  | loop _ _ got | next _ _ got | blocked _ got | timedOut _ got | sawStop _ got | copies _ got => got

def seeks : ReadPc → Bool
  | next _ _ _ | blocked _ _ | timedOut _ _ | sawStop _ _ => true
  | _ => false

def stops : ReadPc → Bool
  | sawStop _ _ => true
  | _ => false

end ReadPc

namespace Pipe

def owners (s : Pipe) (h : Nat) : Nat :=
  s.pool.count h + s.ch.count h + (s.writes.map (PipeWrite.holds h)).sum + if s.b = some h then 1 else 0

structure Inv (s : Pipe) : Prop where
  owned : ∀ h, s.owners h ≤ 1
  made : ∀ h, s.made ≤ h → s.owners h = 0
  filled : ∀ w ∈ s.writes, ∀ h, w.buf = some h → s.heap h = w.data
  stream : s.dataOfAll s.sent = s.returned ++ (s.reader.got ++ (s.bb ++ (s.ch.map s.heap).flatten))
  sought : s.reader.seeks = true → s.b = none
  once : s.sent.Nodup
  succeeded : ∀ i, i ∈ s.sent ↔ ∃ w, s.writes[i]? = some w ∧ w.pc = .returned none
  closed : ∀ l, s.atClose = some l → l <+: s.sent
  stopped : s.stopped = s.atClose.isSome
  stops : s.reader.stops = true → s.stopped = true
  eof : ∀ r ∈ s.reads, r.2 = some .eof → ∃ l, s.atClose = some l ∧ s.dataOfAll l <+: s.returned

theorem Inv.fifo {s : Pipe} (hi : s.Inv) : s.Fifo := by
  refine ⟨?_, hi.once, hi.succeeded, hi.eof⟩
  rw [hi.stream]
  exact prefix_append _ _

theorem inv_new : new.Inv := by
  refine ⟨fun _ => ?_, fun _ _ => ?_, ?_, rfl, ?_, ?_, ?_, ?_, rfl, ?_, ?_⟩ <;> simp [new, owners, ReadPc.stops]

variable {s s' : Pipe} {i h : Nat} {w : PipeWrite}

theorem dataOfAll_congr {l : List Nat} (h : ∀ i ∈ l, s'.dataOf i = s.dataOf i) : s'.dataOfAll l = s.dataOfAll l := by
  unfold dataOfAll
  rw [map_congr_left h]

theorem dataOf_set (hw : s.writes[i]? = some w) (pc : WritePc) (j : Nat) :
    dataOf { s with writes := s.writes.set i { w with pc := pc } } j = s.dataOf j := by
  unfold dataOf
  by_cases hj : j = i
  · subst hj
    rw [getElem?_set_self (List.getElem?_eq_some_iff.mp hw).1, hw]
    rfl
  · rw [getElem?_set_ne (Ne.symm hj)]

/-! ## `Write` -/

section

variable (hi : s.Inv)
include hi

theorem Inv.not_sent (hw : s.writes[i]? = some w) (hbuf : w.buf = some h) : i ∉ s.sent := by
  intro hmem
  obtain ⟨w', hw', hpc⟩ := (hi.succeeded i).mp hmem
  obtain rfl : w = w' := Option.some.inj (hw.symm.trans hw')
  simp [PipeWrite.buf, hpc] at hbuf

theorem Inv.setWrite (hw : s.writes[i]? = some w) (hbuf : w.buf = some h) {pc : WritePc} (hpc : pc ≠ .returned none)
    {pool : List Nat} (hpool : ∀ j, pool.count j + PipeWrite.holds j { w with pc := pc } ≤ s.pool.count j + w.holds j)
    (hkeep : ∀ j, PipeWrite.buf { w with pc := pc } = some j → j = h) :
    Inv { s with writes := s.writes.set i { w with pc := pc }, pool := pool } := by
  have hle : ∀ j, owners { s with writes := s.writes.set i { w with pc := pc }, pool := pool } j ≤ s.owners j := by
    intro j
    have hset := Tally.sum_set (PipeWrite.holds j) hw { w with pc := pc }
    have hj := hpool j
    simp only [owners]
    omega
  have hdata : ∀ l, dataOfAll { s with writes := s.writes.set i { w with pc := pc }, pool := pool } l = s.dataOfAll l :=
    fun l => dataOfAll_congr fun j _ => dataOf_set hw pc j
  refine { hi with
    owned := fun j => (hle j).trans (hi.owned j)
    made := fun j hj => Nat.eq_zero_of_le_zero ((hle j).trans_eq (hi.made j hj))
    filled := fun w' hw' j hj => ?_
    stream := (hdata s.sent).trans hi.stream
    succeeded := fun j => ?_
    eof := fun r hr he => ?_ }
  · rcases mem_or_eq_of_mem_set hw' with hw' | rfl
    · exact hi.filled w' hw' j hj
    · obtain rfl := hkeep j hj
      exact hi.filled w (mem_of_getElem? hw) j hbuf
  · have hlt := (List.getElem?_eq_some_iff.mp hw).1
    rw [hi.succeeded j]
    by_cases hj : j = i
    · subst hj
      rw [getElem?_set_self hlt, hw]
      have hold : w.pc ≠ .returned none := fun h0 => by simp [PipeWrite.buf, h0] at hbuf
      simp [hpc, hold]
    · rw [getElem?_set_ne (Ne.symm hj)]
  · obtain ⟨l, hl, hle⟩ := hi.eof r hr he
    refine ⟨l, hl, ?_⟩
    rw [hdata]
    exact hle

theorem Inv.send (hw : s.writes[i]? = some w) (hbuf : w.buf = some h) :
    Inv { s with writes := s.writes.set i { w with pc := .returned none }, ch := s.ch ++ [h], sent := s.sent ++ [i] } := by
  have hlt := (List.getElem?_eq_some_iff.mp hw).1
  have hnot := hi.not_sent hw hbuf
  have hsame : ∀ j, owners { s with
      writes := s.writes.set i { w with pc := .returned none }, ch := s.ch ++ [h], sent := s.sent ++ [i] } j = s.owners j := by
    intro j
    have hset := Tally.sum_set (PipeWrite.holds j) hw { w with pc := .returned none }
    rw [PipeWrite.holds_of_buf hbuf, PipeWrite.holds_returned] at hset
    simp only [owners, Tally.count_concat]
    omega
  have hdata : ∀ l, dataOfAll { s with
      writes := s.writes.set i { w with pc := .returned none }, ch := s.ch ++ [h], sent := s.sent ++ [i] } l = s.dataOfAll l :=
    fun l => dataOfAll_congr fun j _ => dataOf_set hw _ j
  refine { hi with
    owned := fun j => (hsame j).trans_le (hi.owned j)
    made := fun j hj => (hsame j).trans (hi.made j hj)
    filled := fun w' hw' j hj => ?_
    stream := ?_
    once := ?_
    succeeded := fun j => ?_
    closed := fun l hl => (hi.closed l hl).trans (prefix_append _ _)
    eof := fun r hr he => ?_ }
  · rcases mem_or_eq_of_mem_set hw' with hw' | rfl
    · exact hi.filled w' hw' j hj
    · simp [PipeWrite.buf] at hj
  · have hone : s.dataOf i = s.heap h := by
      rw [hi.filled w (mem_of_getElem? hw) h hbuf]
      simp [dataOf, hw]
    have hall : s.dataOfAll (s.sent ++ [i]) = s.dataOfAll s.sent ++ s.heap h := by simp [dataOfAll, hone]
    rw [hdata, hall, hi.stream]
    simp [returned, bb]
  · refine nodup_append.mpr ⟨hi.once, by simp, fun j hj k hk hjk => ?_⟩
    rw [mem_singleton] at hk
    exact hnot (hk ▸ hjk ▸ hj)
  · rw [mem_append, hi.succeeded j]
    by_cases hj : j = i
    · subst hj
      simp [getElem?_set_self hlt]
    · rw [getElem?_set_ne (Ne.symm hj)]
      simp [hj]
  · obtain ⟨l, hl, hle⟩ := hi.eof r hr he
    refine ⟨l, hl, ?_⟩
    rw [hdata]
    exact hle

theorem Inv.overwrite (hfree : s.owners h = s.pool.count h) (p : Bytes) : Inv { s with heap := Function.update s.heap h p } := by
  simp only [owners] at hfree
  have hch : h ∉ s.ch := count_eq_zero.mp (by omega)
  have hb : s.b ≠ some h := by
    intro hb
    rw [if_pos hb] at hfree
    omega
  have hwrites : ∀ w ∈ s.writes, w.buf ≠ some h := by
    intro w hw hbuf
    have hle := Tally.le_sum (PipeWrite.holds h) hw
    have hone : w.holds h = 1 := if_pos hbuf
    omega
  refine { hi with filled := fun w hw j hj => ?_, stream := ?_ }
  · refine (Function.update_of_ne ?_ _ _).trans (hi.filled w hw j hj)
    rintro rfl
    exact hwrites w hw hj
  · have hmap : s.ch.map (Function.update s.heap h p) = s.ch.map s.heap := by
      refine map_congr_left fun j hj => Function.update_of_ne ?_ _ _
      rintro rfl
      exact hch hj
    have hbb : bb { s with heap := Function.update s.heap h p } = s.bb := by
      unfold bb
      rcases hsb : s.b with _ | j
      · rfl
      · have hne : j ≠ h := by
          rintro rfl
          exact hb hsb
        simp [Function.update_of_ne hne]
    rw [hmap, hbb]
    exact hi.stream

theorem Inv.addWrite {p : Bytes} (hfull : s.heap h = p) {pool : List Nat} {made : Nat}
    (howned : ∀ j, s.owners j + (pool.count j + Tally.one h j) ≤ 1 + s.pool.count j) (hmade : s.made ≤ made)
    (hknown : ∀ j, made ≤ j → pool.count j + Tally.one h j = s.pool.count j) :
    Inv { s with made := made, pool := pool, writes := s.writes ++ [⟨p, .checks h⟩] } := by
  have hnew : ∀ j, PipeWrite.holds j ⟨p, .checks h⟩ = Tally.one h j := PipeWrite.holds_of_buf rfl
  have hdata : ∀ l, (∀ i ∈ l, i ∈ s.sent) →
      dataOfAll { s with made := made, pool := pool, writes := s.writes ++ [⟨p, .checks h⟩] } l = s.dataOfAll l := by
    intro l hl
    refine dataOfAll_congr fun i hmem => ?_
    obtain ⟨w, hw, -⟩ := (hi.succeeded i).mp (hl i hmem)
    simp only [dataOf]
    rw [getElem?_append_left (List.getElem?_eq_some_iff.mp hw).1]
  refine { hi with
    owned := fun j => ?_
    made := fun j hj => ?_
    filled := fun w hw j hj => ?_
    stream := (hdata s.sent fun _ => id).trans hi.stream
    succeeded := fun i => ?_
    eof := fun r hr he => ?_ }
  · have h₁ := hi.owned j
    have h₂ := howned j
    simp only [owners] at h₁ h₂ ⊢
    rw [map_append, sum_append, map_singleton, sum_singleton, hnew]
    omega
  · have h₁ := hi.made j (hmade.trans hj)
    have h₂ := hknown j hj
    simp only [owners] at h₁ ⊢
    rw [map_append, sum_append, map_singleton, sum_singleton, hnew]
    omega
  · rcases mem_append.mp hw with hw | hw
    · exact hi.filled w hw j hj
    · rw [mem_singleton.mp hw] at hj ⊢
      cases hj
      exact hfull
  · rw [hi.succeeded i]
    by_cases hlt : i < s.writes.length
    · rw [getElem?_append_left hlt]
    · rw [getElem?_append_right (by omega), getElem?_eq_none (by omega), getElem?_singleton]
      split_ifs <;> simp
  · obtain ⟨l, hl, hle⟩ := hi.eof r hr he
    refine ⟨l, hl, ?_⟩
    rw [hdata l fun i hmem => (hi.closed l hl).subset hmem]
    exact hle

theorem Inv.write_new (p : Bytes) :
    Inv { s with heap := Function.update s.heap s.made p, made := s.made + 1, writes := s.writes ++ [⟨p, .checks s.made⟩] } := by
  have hzero := hi.made s.made (Nat.le_refl _)
  have hpool : ∀ j, s.made ≤ j → s.pool.count j = 0 := by
    intro j hj
    have := hi.made j hj
    simp only [owners] at this
    omega
  have hover := hi.overwrite (h := s.made) (by rw [hzero, hpool _ (Nat.le_refl _)]) p
  refine hover.addWrite (Function.update_self _ _ _) (fun j => ?_) (Nat.le_succ _) (fun j hj => ?_)
  · have hone := hi.owned j
    by_cases hj : s.made = j
    · subst hj
      rw [Tally.one_self]
      have hz : owners { s with heap := Function.update s.heap s.made p } s.made = 0 := hzero
      simp only
      omega
    · rw [Tally.one_eq_zero.mpr hj]
      have hz : owners { s with heap := Function.update s.heap s.made p } j ≤ 1 := hone
      simp only
      omega
  · rw [Tally.one_eq_zero.mpr (by omega)]
    rfl

theorem Inv.owners_pool (hpool : h ∈ s.pool) : s.owners h = s.pool.count h := by
  have hone := hi.owned h
  have hpos := count_pos_iff.mpr hpool
  simp only [owners] at hone ⊢
  omega

theorem Inv.write_recycled (p : Bytes) (hpool : h ∈ s.pool) :
    Inv { s with heap := Function.update s.heap h p, pool := s.pool.erase h, writes := s.writes ++ [⟨p, .checks h⟩] } := by
  have hover := hi.overwrite (hi.owners_pool hpool) p
  refine hover.addWrite (Function.update_self _ _ _) (fun j => ?_) (Nat.le_refl _) (fun j _ => ?_)
  · rw [Tally.count_erase hpool j]
    have hz : owners { s with heap := Function.update s.heap h p } j ≤ 1 := hi.owned j
    simp only
    omega
  · exact Tally.count_erase hpool j

theorem Inv.stepWrite {a : WriteStep} (hw : s.writes[i]? = some w) (hstep : s.stepWrite i w a = some s') : s'.Inv := by
  -- a call that returns with an error has put its buffer into the pool, or dropped it
  have hfail : ∀ {h : Nat} {e : PipeErr}, w.buf = some h →
      Inv { s with writes := s.writes.set i { w with pc := .returned (some e) }, pool := h :: s.pool } := by
    intro h e hbuf
    refine hi.setWrite hw hbuf (by simp) (fun j => ?_) (fun j hj => nomatch hj)
    rw [Tally.count_cons, PipeWrite.holds_returned, PipeWrite.holds_of_buf hbuf]
    omega
  have hdrop : ∀ {h : Nat} {e : PipeErr}, w.buf = some h →
      Inv { s with writes := s.writes.set i { w with pc := .returned (some e) } } := by
    intro h e hbuf
    exact hi.setWrite hw hbuf (by simp) (fun j => by simp) (fun j hj => nomatch hj)
  have hgo : ∀ {h : Nat} {pc : WritePc}, w.buf = some h → PipeWrite.buf { w with pc := pc } = some h → pc ≠ .returned none →
      Inv { s with writes := s.writes.set i { w with pc := pc } } := by
    intro h pc hbuf hbuf' hpc
    refine hi.setWrite hw hbuf hpc (fun j => ?_) (fun j hj => ?_)
    · rw [PipeWrite.holds_of_buf hbuf, PipeWrite.holds_of_buf hbuf']
    · rw [hbuf'] at hj
      exact (Option.some.inj hj).symm
  rcases hpc : w.pc with h | h | h | e
  case returned => cases a <;> simp [Pipe.stepWrite, hpc] at hstep
  all_goals
    have hbuf : w.buf = some h := by simp [PipeWrite.buf, hpc]
    cases a <;> simp only [Pipe.stepWrite, hpc] at hstep <;> (repeat' split at hstep) <;> cases hstep
    all_goals first
      | exact hfail hbuf
      | exact hdrop hbuf
      | exact hi.send hw hbuf
      | exact hgo hbuf (by simp [PipeWrite.buf]) (by simp)

/-! ## `Read` -/

theorem Inv.setReader {r : ReadPc} (hgot : r.got = s.reader.got) (hseeks : r.seeks = true → s.b = none)
    (hstops : r.stops = true → s.stopped = true) : Inv { s with reader := r } :=
  { hi with
    stream := by
      rw [hgot]
      exact hi.stream
    sought := hseeks
    stops := hstops }

theorem Inv.returnRead {e : Option PipeErr} (heof : e = some .eof → s.reader.stops = true ∧ s.ch = []) :
    (s.returnRead s.reader.got e).Inv := by
  have hreturned : (s.returnRead s.reader.got e).returned = s.returned ++ s.reader.got := by simp [returned, Pipe.returnRead]
  have hdata : ∀ l, (s.returnRead s.reader.got e).dataOfAll l = s.dataOfAll l := fun _ => rfl
  refine { hi with
    stream := ?_
    sought := fun h => nomatch h
    stops := fun h => nomatch h
    eof := fun r hr he => ?_ }
  · rw [hreturned]
    refine hi.stream.trans ?_
    simp [Pipe.returnRead, ReadPc.got, bb]
  · rw [hreturned]
    rcases mem_append.mp hr with hr | hr
    · obtain ⟨l, hl, hle⟩ := hi.eof r hr he
      exact ⟨l, hl, hle.trans (prefix_append _ _)⟩
    · rw [mem_singleton.mp hr] at he
      obtain ⟨hstops, hch⟩ := heof he
      have hclosed := hi.stopped.symm.trans (hi.stops hstops)
      obtain ⟨l, hl⟩ := Option.isSome_iff_exists.mp hclosed
      refine ⟨l, hl, ?_⟩
      have hseeks : s.reader.seeks = true := by
        revert hstops
        cases s.reader <;> simp [ReadPc.stops, ReadPc.seeks]
      have hall : s.dataOfAll s.sent = s.returned ++ s.reader.got := by
        rw [hi.stream, hch, bb, hi.sought hseeks]
        simp
      rw [← hall, hdata]
      obtain ⟨t, ht⟩ := hi.closed l hl
      rw [← ht]
      simp [dataOfAll]

theorem Inv.releaseRead (hb : s.b = some h) (hempty : s.bb = []) {r : ReadPc} (hgot : r.got = s.reader.got)
    (hstops : r.stops = false) : Inv { s with pool := h :: s.pool, b := none, reader := r } := by
  have hsame : ∀ j, owners { s with pool := h :: s.pool, b := none, reader := r } j = s.owners j := by
    simp only [owners, Tally.count_cons, hb, Tally.one]
    simp
    omega
  refine { hi with
    owned := fun j => (hsame j).trans_le (hi.owned j)
    made := fun j hj => (hsame j).trans (hi.made j hj)
    stream := ?_
    sought := fun _ => rfl
    stops := fun h => by simp [hstops] at h }
  rw [hgot]
  refine hi.stream.trans ?_
  rw [hempty]
  rfl

theorem Inv.receive {want : Nat} (hseeks : s.reader.seeks = true) (hstep : s.receive want s.reader.got = some s') : s'.Inv := by
  unfold Pipe.receive at hstep
  split at hstep
  · rename_i h rest hch
    have hb := hi.sought hseeks
    have hsame : ∀ j, owners { s with ch := rest, b := some h, off := 0, reader := .copies want s.reader.got } j = s.owners j := by
      simp only [owners, hch, hb, Tally.count_cons, Tally.one]
      simp
      omega
    rw [← Option.some.inj hstep]
    refine { hi with
      owned := fun j => (hsame j).trans_le (hi.owned j)
      made := fun j hj => (hsame j).trans (hi.made j hj)
      stream := ?_
      sought := fun h => by cases h
      stops := fun h => by cases h }
    refine hi.stream.trans ?_
    simp [bb, hb, hch, ReadPc.got, returned]
  · cases hstep

theorem Inv.copy {want : Nat} {got : Bytes} (hr : s.reader = .copies want got) :
    Inv { s with off := s.off + min want s.bb.length,
                 reader := .loop (want - min want s.bb.length) false (got ++ s.bb.take want) } := by
  refine { hi with
    stream := ?_
    sought := fun h => nomatch h
    stops := fun h => nomatch h }
  have hrest : bb { s with off := s.off + min want s.bb.length,
                            reader := .loop (want - min want s.bb.length) false (got ++ s.bb.take want) }
      = s.bb.drop want := by
    unfold bb
    rcases s.b with _ | h
    · exact drop_nil.symm
    · -- no more is taken than there is
      rcases Nat.le_total want ((s.heap h).drop s.off).length with hle | hle
      · simp only [Nat.min_eq_left hle, drop_drop]
      · simp only [Nat.min_eq_right hle, drop_of_length_le hle, ← drop_drop, drop_length]
  rw [hrest]
  refine hi.stream.trans ?_
  have hsplit := take_append_drop want s.bb
  rw [hr]
  simp only [ReadPc.got, returned, append_assoc]
  rw [← append_assoc (s.bb.take want), hsplit]

theorem Inv.stepRead {a : ReadStep} (hstep : s.stepRead a = some s') : s'.Inv := by
  -- the ways on from a state of the reader: back to the caller, on to another state, and with the next buffer
  have hreturn : ∀ {got : Bytes} {e : Option PipeErr}, s.reader.got = got → (e = some .eof → s.reader.stops = true ∧ s.ch = []) →
      (s.returnRead got e).Inv := by
    rintro _ e rfl heof
    exact hi.returnRead heof
  have hgo : ∀ {r : ReadPc}, r.got = s.reader.got → s.reader.seeks = true → (r.stops = true → s.stopped = true) →
      Inv { s with reader := r } := fun hgot hseeks hstops => hi.setReader hgot (fun _ => hi.sought hseeks) hstops
  have hreceive : ∀ {want : Nat}, s.reader.seeks = true → s.receive want s.reader.got = some s' → s'.Inv := hi.receive
  unfold Pipe.stepRead at hstep
  rcases hr : s.reader with _ | ⟨want, mayBlock, got⟩ | ⟨want, _ | _, got⟩ | ⟨want, got⟩ | ⟨want, got⟩ | ⟨want, got⟩ | ⟨want, got⟩
  all_goals
    rw [hr] at hreturn hgo hreceive
    cases a <;> simp only [hr] at hstep
    all_goals try exact hreceive rfl hstep
    all_goals (repeat' split at hstep) <;> cases hstep
    all_goals try (refine hgo rfl rfl ?_; simp [ReadPc.stops, *])
    all_goals try (refine hreturn rfl ?_; simp [ReadPc.stops, *])
  · exact hi.releaseRead ‹_› ‹_› (by rw [hr]; rfl) rfl
  · exact hi.setReader (by rw [hr]; rfl) (fun _ => ‹_›) nofun
  · exact hi.setReader (by rw [hr]; rfl) nofun nofun
  · exact hi.copy hr

theorem Inv.close (hopen : s.stopped = false) : Inv { s with stopped := true, atClose := some s.sent } := by
  -- no call has seen the end of the stream yet
  have hnone : s.atClose = none := Option.not_isSome_iff_eq_none.mp (by rw [← hi.stopped, hopen]; simp)
  refine { hi with
    closed := fun l hl => ?_
    stopped := rfl
    stops := fun _ => rfl
    eof := fun r hr he => ?_ }
  · exact Option.some.inj hl ▸ prefix_refl s.sent
  · obtain ⟨l, hl, -⟩ := hi.eof r hr he
    rw [hnone] at hl
    cases hl

theorem Inv.step {a : PipeAction} (hstep : s.step a = some s') : s'.Inv := by
  cases a with
  | write p recycled =>
    cases recycled with
    | none => exact Option.some.inj hstep ▸ hi.write_new p
    | some h =>
      simp only [Pipe.step] at hstep
      split_ifs at hstep with hpool
      exact Option.some.inj hstep ▸ hi.write_recycled p hpool
  | writeStep i a =>
    obtain ⟨w, hw, hstep⟩ := Option.bind_eq_some_iff.mp hstep
    exact hi.stepWrite hw hstep
  | read n =>
    simp only [Pipe.step] at hstep
    split_ifs at hstep with hr
    exact Option.some.inj hstep ▸ hi.setReader (by rw [hr]; rfl) (fun h => nomatch h) (fun h => nomatch h)
  | readStep a => exact hi.stepRead hstep
  | close =>
    simp only [Pipe.step] at hstep
    split_ifs at hstep with hstopped
    · exact Option.some.inj hstep ▸ hi
    · exact Option.some.inj hstep ▸ hi.close (Bool.eq_false_of_not_eq_true hstopped)
  | other h p =>
    simp only [Pipe.step] at hstep
    split_ifs at hstep with hpool
    exact Option.some.inj hstep ▸ hi.overwrite (hi.owners_pool hpool) p

end

/-- Whatever the order of the steps of the two sides and of `Close`, the connection is a queue of bytes. -/
theorem reads_fifo (as : List PipeAction) : machine.Always Fifo new as := by
  have hstep : ∀ s a s', s.Inv → machine.step s a = some s' → s'.Inv := fun _ _ _ hi hstep => hi.step hstep
  exact machine.always_invariant hstep (fun _ => Inv.fifo) as inv_new

end Pipe

end Fasthttp
