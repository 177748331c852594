import Fasthttp.Client.Works

/-!
# Responses in the order of the requests

As long as a worker that stops leaves nothing behind in the channels, there is one worker at most and one pair of
channels.
-/

namespace Fasthttp

open List

namespace PipelineWriter

def Uses : PipelineWriter → Prop
  | .opensW chR => chR = some 0
  | .picks l | .sleeps l | .has l _ | .skips l _ | .pushes l _ | .stalls l _ => l.chR = some 0 ∧ l.chW = some 1
  | _ => True

def Active : PipelineWriter → Prop
  | .fails _ _ | .ended _ => False
  | _ => True

def asleep : PipelineWriter → Option WriterVars
  | .sleeps l => some l
  | _ => none

theorem asleep_eq {wr : PipelineWriter} {l : WriterVars} (h : wr.asleep = some l) : wr = .sleeps l := by
  cases wr <;> cases h
  rfl

def sent : PipelineWriter → List Nat
  | .pushes _ w | .stalls _ w => [w]
  | _ => []

end PipelineWriter

namespace PipelineReader

def Uses : PipelineReader → Prop
  | .picks chR | .sleeps chR | .has chR _ | .tells chR _ => chR = some 0
  | _ => True

def Active : PipelineReader → Prop
  | .fails _ | .ended _ => False
  | _ => True

def awaits : PipelineReader → Bool
  | .has _ _ | .fails _ | .ended _ => false
  | _ => true

def got : PipelineReader → List Nat
  | .has _ w => [w]
  | _ => []

theorem awaits_iff (r : PipelineReader) : r.awaits = true ↔ r.Active ∧ r.got = [] := by
  cases r <;> simp [awaits, Active, got]

end PipelineReader

namespace Pipeline

variable {ch : Option Nat} {i : Nat} {ws : List Nat}

variable {p p' : Pipeline} {k : PipelineWorker} {w x : Nat} {n : Int} {e : PipelineEvent}

def pend (p : Pipeline) (k : PipelineWorker) : List Nat := k.reader.got ++ p.buf (some 0) ++ k.writer.sent

def wrote (p : Pipeline) (w : Nat) : Option (Nat × Nat) := p.works[w]?.bind PipelineWork.wrote

def Aligned (p : Pipeline) (conn i : Nat) (ws : List Nat) : Prop := ∀ j w, ws[j]? = some w → p.wrote w = some (conn, i + j)

structure InOrder (p : Pipeline) (k : PipelineWorker) : Prop where
  writer : k.writer.Uses
  reader : k.reader.Uses
  clean : k.master = .dials ∨ k.master = .checks → p.buf (some 0) = []
  order : k.reader.Active → ∃ c, p.conns[k.conn]? = some c ∧ p.Aligned k.conn c.received (p.pend k) ∧
    (k.writer.Active → c.written = c.received + (p.pend k).length)
  behind : ¬ k.reader.Active → k.writer.Active → ∃ c, p.conns[k.conn]? = some c ∧ c.received < c.written
  stop : k.stopR = true → ¬ k.writer.Active

theorem buf_push_ne {j : Nat} (h : ch ≠ some j) (w : Nat) : (p.push ch w).buf (some j) = p.buf (some j) := by
  cases ch with
  | none => rfl
  | some i =>
    have hi : i ≠ j := fun heq => h (by rw [heq])
    simp [push, buf, getElem?_set_ne hi]

theorem buf_pop_ne {j : Nat} (h : ch ≠ some j) : (p.pop ch).buf (some j) = p.buf (some j) := by
  cases ch with
  | none => rfl
  | some i =>
    have hi : i ≠ j := fun heq => h (by rw [heq])
    simp [pop, buf, getElem?_set_ne hi]

theorem buf_push_self (h : p.room n (some i) = true) (w : Nat) :
    (p.push (some i) w).buf (some i) = p.buf (some i) ++ [w] := by
  rcases hb : p.chans[i]? with _ | b
  · simp [room, hb] at h
  · obtain ⟨hlt, -⟩ := List.getElem?_eq_some_iff.mp hb
    simp [push, buf, hlt]

theorem buf_pop_self (h : p.buf ch = w :: ws) : (p.pop ch).buf ch = ws := by
  cases ch with
  | none => cases h
  | some i =>
    rcases hb : p.chans[i]? with _ | b
    · simp [buf, hb] at h
    · obtain ⟨hlt, hget⟩ := List.getElem?_eq_some_iff.mp hb
      simp only [buf, hb] at h
      simp [pop, buf, hlt, hget, h]

@[simp] theorem buf_tell (w : Nat) (ch : Option Nat) : (p.tell w).buf ch = p.buf ch := by
  unfold tell
  split <;> rfl

@[simp] theorem wrote_tell (w x : Nat) : (p.tell w).wrote x = p.wrote x := by
  unfold tell
  rcases hv : p.works[w]? with _ | v
  · rfl
  · obtain ⟨hlt, hget⟩ := List.getElem?_eq_some_iff.mp hv
    by_cases hx : w = x
    · subst hx
      simp [wrote, hlt, hget]
    · simp [wrote, getElem?_set_ne hx]

@[simp] theorem conns_tell (w : Nat) : (p.tell w).conns = p.conns := by
  unfold tell
  split <;> rfl

@[simp] theorem works_push (ch : Option Nat) (w : Nat) : (p.push ch w).works = p.works := by cases ch <;> rfl

@[simp] theorem works_pop (ch : Option Nat) : (p.pop ch).works = p.works := by cases ch <;> rfl

@[simp] theorem conns_push (ch : Option Nat) (w : Nat) : (p.push ch w).conns = p.conns := by cases ch <;> rfl

@[simp] theorem conns_pop (ch : Option Nat) : (p.pop ch).conns = p.conns := by cases ch <;> rfl

/-! ## What keeps the order -/

theorem Aligned.congr {conn : Nat} (h : p.Aligned conn i ws) (hsame : ∀ w ∈ ws, p'.wrote w = p.wrote w) :
    p'.Aligned conn i ws :=
  fun j w hw => (hsame w (mem_of_getElem? hw)).trans (h j w hw)

theorem Aligned.left {conn : Nat} {vs : List Nat} (h : p.Aligned conn i (ws ++ vs)) : p.Aligned conn i ws := by
  intro j w hw
  obtain ⟨hlt, -⟩ := List.getElem?_eq_some_iff.mp hw
  exact h j w (by rw [getElem?_append_left hlt, hw])

namespace InOrder

variable {r : PipelineReader} {wr : PipelineWriter}

section

variable (h : p.InOrder k)
include h

theorem frame (hbuf : p'.buf (some 0) = p.buf (some 0)) (hconns : p'.conns = p.conns)
    (hwrote : ∀ w ∈ p.pend k, p'.wrote w = p.wrote w) : p'.InOrder k := by
  have hpend : p'.pend k = p.pend k := by rw [pend, hbuf, pend]
  refine ⟨h.writer, h.reader, fun hm => hbuf.trans (h.clean hm), fun hr => ?_, fun hr hw => ?_, h.stop⟩
  · obtain ⟨c, hc, haligned, hlen⟩ := h.order hr
    exact ⟨c, hconns ▸ hc, by rw [hpend]; exact haligned.congr hwrote, by rw [hpend]; exact hlen⟩
  · rw [hconns]
    exact h.behind hr hw

theorem writerGo (huses : wr.Uses) (hsent : wr.sent = k.writer.sent)
    (hactive : wr.Active → k.writer.Active) : p.InOrder { k with writer := wr } := by
  have hpend : p.pend { k with writer := wr } = p.pend k := by simp [pend, hsent]
  refine ⟨huses, h.reader, h.clean, fun hr => ?_, fun hr hw => h.behind hr (hactive hw), fun hs hw => h.stop hs (hactive hw)⟩
  obtain ⟨c, hc, haligned, hlen⟩ := h.order hr
  rw [hpend]
  exact ⟨c, hc, haligned, fun hw => hlen (hactive hw)⟩

theorem writerEnd (huses : wr.Uses) (hsent : wr.sent = []) (hactive : ¬ wr.Active) :
    p.InOrder { k with writer := wr } := by
  refine ⟨huses, h.reader, h.clean, fun hr => ?_, fun _ hw => absurd hw hactive, fun _ => hactive⟩
  obtain ⟨c, hc, haligned, -⟩ := h.order hr
  refine ⟨c, hc, ?_, fun hw => absurd hw hactive⟩
  simp only [pend, hsent, append_nil]
  exact Aligned.left haligned

theorem writerWrite {c : PipelineConn} {v : PipelineWork} (hc : p.conns[k.conn]? = some c)
    (hv : p.works[w]? = some v) (hw : w ∉ p.pend k) (hold : k.writer.Active) (hsent : k.writer.sent = [])
    (huses : wr.Uses) (hsent' : wr.sent = [w]) : (p.write k.conn w).InOrder { k with writer := wr } := by
  obtain ⟨hltc, -⟩ := List.getElem?_eq_some_iff.mp hc
  obtain ⟨hltw, -⟩ := List.getElem?_eq_some_iff.mp hv
  have hwrite : p.write k.conn w = { p with
      conns := p.conns.set k.conn { c with written := c.written + 1 }
      works := p.works.set w { v with wrote := some (k.conn, c.written) } } := by simp [write, hc, hv]
  have hwrote : (p.write k.conn w).wrote w = some (k.conn, c.written) := by simp [hwrite, wrote, hltw]
  have hother : ∀ x, x ≠ w → (p.write k.conn w).wrote x = p.wrote x := by
    intro x hx
    simp [hwrite, wrote, getElem?_set_ne (Ne.symm hx)]
  have hconn : (p.write k.conn w).conns[k.conn]? = some { c with written := c.written + 1 } := by simp [hwrite, hltc]
  have hbuf : (p.write k.conn w).buf (some 0) = p.buf (some 0) := by rw [hwrite]; rfl
  have hpend : (p.write k.conn w).pend { k with writer := wr } = p.pend k ++ [w] := by
    simp [pend, hbuf, hsent, hsent']
  refine ⟨huses, h.reader, fun hm => hbuf.trans (h.clean hm), fun hr => ?_, fun hr _ => ?_, fun hs _ => h.stop hs hold⟩
  · obtain ⟨c', hc', haligned, hlen⟩ := h.order hr
    rw [hc, Option.some.injEq] at hc'
    subst hc'
    refine ⟨_, hconn, ?_, fun _ => ?_⟩
    · rw [hpend]
      intro j x hx
      rcases Nat.lt_or_ge j (p.pend k).length with hlt | hge
      · rw [getElem?_append_left hlt] at hx
        have hne : x ≠ w := fun heq => hw (heq ▸ mem_of_getElem? hx)
        exact (hother x hne).trans (haligned j x hx)
      · rw [getElem?_append_right hge] at hx
        obtain ⟨hlt, hget⟩ := List.getElem?_eq_some_iff.mp hx
        have hj : j = (p.pend k).length := by simp at hlt; omega
        subst hj
        simp only [Nat.sub_self, getElem_cons_zero] at hget
        subst hget
        rw [hwrote, hlen hold]
    · have := hlen hold
      rw [hpend, length_append, length_singleton]
      change c.written + 1 = c.received + _
      omega
  · obtain ⟨c', hc', hlt⟩ := h.behind hr hold
    rw [hc, Option.some.injEq] at hc'
    subst hc'
    exact ⟨_, hconn, Nat.lt_succ_of_lt hlt⟩

theorem readerGo (huses : r.Uses) (hgot : r.got = k.reader.got)
    (hactive : k.reader.Active ↔ r.Active) : p.InOrder { k with reader := r } := by
  have hpend : p.pend { k with reader := r } = p.pend k := by simp [pend, hgot]
  refine ⟨h.writer, huses, h.clean, fun hr => ?_, fun hr hw => h.behind (fun hold => hr (hactive.mp hold)) hw, h.stop⟩
  rw [hpend]
  exact h.order (hactive.mpr hr)

theorem readerRead {body : Option Bool} (hgot : k.reader.got = [w]) (hold : k.reader.Active)
    (hread : p.read k.conn w body = some p') (huses : r.Uses) (hgot' : r.got = []) (hactive : r.Active) :
    p'.InOrder { k with reader := r } ∧ p'.mixed = p.mixed := by
  obtain ⟨c, hc, haligned, hlen⟩ := h.order hold
  have hpend : p.pend k = w :: (p.buf (some 0) ++ k.writer.sent) := by simp [pend, hgot]
  have hw : p.wrote w = some (k.conn, c.received) := haligned 0 w (by rw [hpend]; rfl)
  obtain ⟨hlt, -⟩ := List.getElem?_eq_some_iff.mp hc
  unfold read at hread
  rcases hv : p.works[w]? with _ | v
  · simp [hv] at hread
  · have hvw : v.wrote = some (k.conn, c.received) := by simpa [wrote, hv] using hw
    simp only [hc, hv] at hread
    split at hread <;> cases hread
    refine ⟨⟨h.writer, huses, h.clean, fun _ => ?_, fun hr => absurd hactive hr, h.stop⟩, by simp [hvw]⟩
    refine ⟨{ c with received := c.received + 1 }, by simp [hlt], ?_, fun hwr => ?_⟩
    · intro j x hx
      have hx' : (p.pend k)[j + 1]? = some x := by
        rw [hpend, ← hx]
        simp only [pend, hgot']
        rfl
      have := haligned (j + 1) x hx'
      rw [show c.received + 1 + j = c.received + (j + 1) by omega]
      exact this
    · have hlen := hlen hwr
      rw [hpend, length_cons] at hlen
      simp only [pend, hgot']
      change c.written = c.received + 1 + (p.buf (some 0) ++ k.writer.sent).length
      omega

theorem readerFail (hgot : k.reader.got = [w]) (hold : k.reader.Active) (huses : r.Uses)
    (hactive : ¬ r.Active) : p.InOrder { k with reader := r } := by
  refine ⟨h.writer, huses, h.clean, fun hr => absurd hr hactive, fun _ hw => ?_, h.stop⟩
  obtain ⟨c, hc, -, hlen⟩ := h.order hold
  have := hlen hw
  simp only [pend, hgot, cons_append, length_cons] at this
  exact ⟨c, hc, by omega⟩

end

end InOrder

theorem transit_pend (hw : w ∈ p.pend k) : 0 < p.transit w + (k.reader.got ++ k.writer.sent).count w := by
  simp only [pend, mem_append] at hw
  rcases hw with (hw | hw) | hw
  · have := count_pos_iff.mpr hw
    rw [count_append]
    omega
  · rcases hb : p.chans[0]? with _ | b
    · simp [buf, hb] at hw
    · have hpos : 0 < b.count w := count_pos_iff.mpr (by simpa [buf, hb] using hw)
      have hsum := Tally.sum_eraseIdx (·.count w) hb
      simp only [transit]
      omega
  · have := count_pos_iff.mpr hw
    rw [count_append]
    omega

theorem hand_le (k : PipelineWorker) (w : Nat) : (k.reader.got ++ k.writer.sent).count w ≤ k.hand.count w := by
  rw [hand_count, count_append]
  have hr : k.reader.got.count w ≤ k.reader.hand.count w := by cases k.reader <;> simp [PipelineReader.got, PipelineReader.hand]
  have hw : k.writer.sent.count w ≤ k.writer.hand.count w := by cases k.writer <;> simp [PipelineWriter.sent, PipelineWriter.hand]
  omega

end Pipeline

def PipelineCaller.Uses : PipelineCaller → Prop
  | .blocks _ ch => ch ≠ some 0
  | _ => True

namespace Pipeline

variable {p p' : Pipeline} {k : PipelineWorker} {w x : Nat} {n : Int} {e : PipelineEvent}

structure Single (p : Pipeline) : Prop where
  shape : (p.chR = none ∧ p.chW = none ∧ p.chans = [] ∧ p.workers = []) ∨ (p.chR = some 0 ∧ p.chW = some 1)
  workers : p.workers = [] ∨ ∃ k, p.workers = [k] ∧ p.InOrder k
  callers : ∀ c ∈ p.callers, c.Uses
  mixed : p.mixed = false

theorem single_new : new.Single := ⟨.inl ⟨rfl, rfl, rfl, rfl⟩, .inl rfl, by simp [new], rfl⟩

structure CallerFrame (p p' : Pipeline) : Prop where
  chR : p'.chR = p.chR
  chW : p'.chW = p.chW
  workers : p'.workers = p.workers
  conns : p'.conns = p.conns
  mixed : p'.mixed = p.mixed
  chans : p.chans = [] → p'.chans = []
  buf : p'.buf (some 0) = p.buf (some 0)
  callers : ∀ c ∈ p'.callers, c ∈ p.callers ∨ c.Uses
  wrote : ∀ x, p.workPool.count x = 0 → x < p.works.length → p'.wrote x = p.wrote x

variable {ch : Option Nat}

namespace CallerFrame

theorem refl (p : Pipeline) : CallerFrame p p := ⟨rfl, rfl, rfl, rfl, rfl, id, rfl, fun _ h => .inl h, fun _ _ _ => rfl⟩

theorem add (h : CallerFrame p p') {c : PipelineCaller} (hc : c.Uses) : CallerFrame p (p'.addCaller c) where
  chR := h.chR
  chW := h.chW
  workers := h.workers
  conns := h.conns
  mixed := h.mixed
  chans := h.chans
  buf := h.buf
  callers c' hc' := by
    rcases mem_cons.mp hc' with rfl | hc'
    · exact .inr hc
    · exact h.callers c' hc'
  wrote := h.wrote

theorem release (h : CallerFrame p p') (w : Nat) : CallerFrame p (p'.releasePipelineWork w) :=
  { h with }

theorem push (hch : ch ≠ some 0) (w : Nat) : CallerFrame p (p.push ch w) where
  chR := by cases ch <;> rfl
  chW := by cases ch <;> rfl
  workers := by simp
  conns := by simp
  mixed := by cases ch <;> rfl
  chans h := by
    cases ch with
    | none => exact h
    | some i => simp [Pipeline.push, h]
  buf := buf_push_ne hch w
  callers c hc := .inl (by cases ch <;> exact hc)
  wrote x _ _ := by rw [Pipeline.wrote, works_push, Pipeline.wrote]

theorem pop (hch : ch ≠ some 0) : CallerFrame p (p.pop ch) where
  chR := by cases ch <;> rfl
  chW := by cases ch <;> rfl
  workers := by simp
  conns := by simp
  mixed := by cases ch <;> rfl
  chans h := by
    cases ch with
    | none => exact h
    | some i => simp [Pipeline.pop, h]
  buf := buf_pop_ne hch
  callers c hc := .inl (by cases ch <;> exact hc)
  wrote x _ _ := by rw [Pipeline.wrote, works_pop, Pipeline.wrote]

theorem tell (w : Nat) : CallerFrame p (p.tell w) where
  chR := by unfold Pipeline.tell; split <;> rfl
  chW := by unfold Pipeline.tell; split <;> rfl
  workers := by simp
  conns := by simp
  mixed := by unfold Pipeline.tell; split <;> rfl
  chans h := by unfold Pipeline.tell; split <;> exact h
  buf := by simp
  callers c hc := .inl (by unfold Pipeline.tell at hc; split at hc <;> exact hc)
  wrote x _ _ := by simp

theorem acquire (i : Nat) (call : PipelineCall) : CallerFrame p (p.acquirePipelineWork i call).2 := by
  unfold acquirePipelineWork
  rcases hi : p.workPool[i]? with _ | w
  · refine ⟨rfl, rfl, rfl, rfl, rfl, id, rfl, fun _ h => .inl h, fun x _ hx => ?_⟩
    simp [Pipeline.wrote, getElem?_append_left hx]
  · rcases hv : p.works[w]? with _ | v
    · simp only [hv]
      exact ⟨rfl, rfl, rfl, rfl, rfl, id, rfl, fun _ h => .inl h, fun _ _ _ => rfl⟩
    · simp only [hv]
      refine ⟨rfl, rfl, rfl, rfl, rfl, id, rfl, fun _ h => .inl h, fun x hpool _ => ?_⟩
      have hne : w ≠ x := by
        rintro rfl
        have := count_pos_iff.mpr (mem_of_getElem? hi)
        omega
      simp [Pipeline.wrote, getElem?_set_ne hne]

theorem receive {v : PipelineWork} (hv : p.works[w]? = some v) :
    CallerFrame p { p with works := p.works.set w { v with done := 0 } } := by
  refine ⟨rfl, rfl, rfl, rfl, rfl, id, rfl, fun _ h => .inl h, fun x _ _ => ?_⟩
  obtain ⟨hlt, hget⟩ := List.getElem?_eq_some_iff.mp hv
  by_cases hx : w = x
  · subst hx
    simp [Pipeline.wrote, hlt, hget]
  · simp [Pipeline.wrote, getElem?_set_ne hx]

end CallerFrame

theorem callerStep_frame {i : Nat} {c : PipelineCaller} (hW : p.chW ≠ some 0) (hc : c.Uses) (hinits : ∀ d, c ≠ .inits d)
    (hstep : p.callerStep n i e c = some p') : CallerFrame p p' := by
  have hrefl := CallerFrame.refl p
  cases c <;> simp only [callerStep] at hstep <;> (repeat' split at hstep) <;> cases hstep
  all_goals try exact absurd rfl (hinits _)
  all_goals try exact hrefl.add trivial
  all_goals try exact hrefl.release _
  all_goals try exact (CallerFrame.push hW _).add trivial
  · exact (CallerFrame.acquire i _).add trivial
  · exact (CallerFrame.pop hW).add trivial
  · exact (CallerFrame.tell _).add trivial
  · exact hrefl.add hW
  · exact (CallerFrame.push hc _).add trivial
  · exact (CallerFrame.receive ‹_›).release _
  · exact hrefl

theorem Linear.pend_spec (h : (p.addWorker k).Linear) (hw : w ∈ p.pend k) : p.workPool.count w = 0 ∧ w < p.works.length := by
  have hpos := transit_pend hw
  have hle := hand_le k w
  have htransit : 0 < (p.addWorker k).transit w := by
    rw [transit_addWorker]
    omega
  obtain ⟨v, hv⟩ := h.exists_work (w := w) (by omega)
  have hone := (h.one w v.done v.signals (by simp [status, hv])).1
  obtain ⟨hlt, -⟩ := List.getElem?_eq_some_iff.mp hv
  exact ⟨by change (p.addWorker k).workPool.count w = 0; omega, hlt⟩

theorem Single.of_frame (h : p.Single)
    (hpend : ∀ k, p.workers = [k] → ∀ w ∈ p.pend k, p.workPool.count w = 0 ∧ w < p.works.length)
    (hframe : CallerFrame p p') : p'.Single where
  shape := by
    rw [hframe.chR, hframe.chW, hframe.workers]
    rcases h.shape with ⟨hR, hW, hchans, hworkers⟩ | hmade
    · exact .inl ⟨hR, hW, hframe.chans hchans, hworkers⟩
    · exact .inr hmade
  workers := by
    rw [hframe.workers]
    rcases h.workers with hnil | ⟨k, hk, horder⟩
    · exact .inl hnil
    · refine .inr ⟨k, hk, horder.frame hframe.buf hframe.conns fun w hw => ?_⟩
      obtain ⟨hpool, hlt⟩ := hpend k hk w hw
      exact hframe.wrote w hpool hlt
  callers c hc := by
    rcases hframe.callers c hc with hc | hc
    · exact h.callers c hc
    · exact hc
  mixed := hframe.mixed.trans h.mixed

theorem inOrder_worker (hbuf : p.buf (some 0) = []) : p.InOrder worker :=
  ⟨trivial, trivial, fun _ => hbuf, fun h => h.elim, fun _ h => h.elim, fun h => by cases h⟩

theorem init_single (h : p.Single) : p.init.Single := by
  unfold init
  rcases h.shape with ⟨hR, hW, hchans, hworkers⟩ | ⟨hR, hW⟩
  · simp only [hR, hW, hchans]
    refine ⟨.inr ⟨rfl, rfl⟩, .inr ⟨worker, ?_, inOrder_worker rfl⟩, h.callers, h.mixed⟩
    simp [addWorker, hworkers]
  · simp only [hR]
    exact h

structure WorkerFrame (p p' : Pipeline) : Prop where
  chR : p'.chR = p.chR
  chW : p'.chW = p.chW
  workers : p'.workers = p.workers
  callers : p'.callers = p.callers

namespace WorkerFrame

theorem refl (p : Pipeline) : WorkerFrame p p := ⟨rfl, rfl, rfl, rfl⟩

theorem push (ch : Option Nat) (w : Nat) : WorkerFrame p (p.push ch w) := by cases ch <;> exact ⟨rfl, rfl, rfl, rfl⟩

theorem pop (ch : Option Nat) : WorkerFrame p (p.pop ch) := by cases ch <;> exact ⟨rfl, rfl, rfl, rfl⟩

theorem tell (w : Nat) : WorkerFrame p (p.tell w) := by unfold Pipeline.tell; split <;> exact ⟨rfl, rfl, rfl, rfl⟩

theorem write (conn w : Nat) : WorkerFrame p (p.write conn w) := by unfold Pipeline.write; split <;> exact ⟨rfl, rfl, rfl, rfl⟩

theorem read {conn : Nat} {body : Option Bool} (h : p.read conn w body = some p') : WorkerFrame p p' := by
  unfold Pipeline.read at h
  split at h
  · split at h <;> cases h
    exact ⟨rfl, rfl, rfl, rfl⟩
  · cases h

end WorkerFrame

theorem mixed_push (ch : Option Nat) (w : Nat) : (p.push ch w).mixed = p.mixed := by cases ch <;> rfl

theorem mixed_pop (ch : Option Nat) : (p.pop ch).mixed = p.mixed := by cases ch <;> rfl

theorem mixed_tell (w : Nat) : (p.tell w).mixed = p.mixed := by unfold tell; split <;> rfl

theorem mixed_write (conn w : Nat) : (p.write conn w).mixed = p.mixed := by unfold write; split <;> rfl

theorem InOrder.tell (h : p.InOrder k) (w : Nat) : (p.tell w).InOrder k :=
  h.frame (buf_tell w _) (conns_tell w) fun x _ => wrote_tell w x

theorem InOrder.popRequest (h : p.InOrder k) (hch : ch = some 1) : (p.pop ch).InOrder k :=
  h.frame (buf_pop_ne (by simp [hch])) (conns_pop ch) fun x _ => by rw [wrote, works_pop, wrote]

theorem Linear.not_pend (h : (p.addWorker k).Linear) (hhand : k.writer.hand = [w]) (hsent : k.writer.sent = []) : w ∉ p.pend k := by
  intro hw
  have hpos := transit_pend hw
  have hr : k.reader.got.count w ≤ k.reader.hand.count w := by cases k.reader <;> simp [PipelineReader.got, PipelineReader.hand]
  have htwo : 1 < (p.addWorker k).transit w := by
    rw [transit_addWorker, hand_count, hhand]
    simp only [hsent, append_nil] at hpos
    simp only [count_singleton_self]
    omega
  obtain ⟨v, hv⟩ := h.exists_work (w := w) (by omega)
  have hone := (h.one w v.done v.signals (by simp [status, hv])).1
  omega

theorem writerStep_inOrder {wr : PipelineWriter} (hR : p.chR = some 0) (hW : p.chW = some 1) (hlinear : (p.addWorker k).Linear)
    (hstaged : Staged k) (h : p.InOrder k) (hstep : p.writerStep n k e k.writer = some (p', wr)) :
    p'.InOrder { k with writer := wr } ∧ WorkerFrame p p' ∧ p'.mixed = p.mixed := by
  have huses := h.writer
  have hmaster : (∀ err, k.writer ≠ .ended err) → k.master ≠ .dials ∧ k.master ≠ .checks := by
    intro hgo
    unfold Staged at hstaged
    constructor <;> (intro hm; rw [hm] at hstaged; exact absurd hstaged.1.choose_spec (hgo _))
  have hgo {q : Pipeline} (hq : q.InOrder k) {v : PipelineWriter} (hv : v.Uses) (hsent : v.sent = k.writer.sent)
      (hactive : k.writer.Active) : q.InOrder { k with writer := v } := hq.writerGo hv hsent fun _ => hactive
  have hend : ∀ v, v.Uses → v.sent = [] → ¬ v.Active → p.InOrder { k with writer := v } := fun v => h.writerEnd
  have hpush {l : WriterVars} {w : Nat} (hl : l.chR = some 0 ∧ l.chW = some 1) (hroom : p.room n l.chR = true)
      (hsent : k.writer.sent = [w])
      (hactive : k.writer.Active) (hon : ∀ err, k.writer ≠ .ended err) : (p.push l.chR w).InOrder { k with writer := .picks l } := by
    rw [hl.1] at hroom ⊢
    have hpend : (p.push (some 0) w).pend { k with writer := .picks l } = p.pend k := by
      simp [pend, buf_push_self hroom, hsent, show (PipelineWriter.picks l).sent = [] from rfl]
    refine ⟨hl, h.reader, ?_, fun hr => ?_, fun hr _ => h.behind hr hactive, fun hs _ => h.stop hs hactive⟩
    · rintro (hm | hm)
      · exact absurd hm (hmaster hon).1
      · exact absurd hm (hmaster hon).2
    · obtain ⟨c, hc, haligned, hlen⟩ := h.order hr
      rw [hpend]
      exact ⟨c, hc, haligned, fun _ => hlen hactive⟩
  rcases hk : k.writer with _ | chR | l | l | ⟨l, w⟩ | ⟨l, w⟩ | ⟨l, w⟩ | ⟨l, w⟩ | ⟨w, err⟩ | err <;>
    rw [hk] at hstep huses hgo hpush <;> simp only [writerStep] at hstep <;> (repeat' split at hstep) <;> cases hstep
  all_goals try exact ⟨hgo h huses rfl trivial, .refl p, rfl⟩
  all_goals try exact ⟨h.writerEnd trivial rfl id, .refl p, rfl⟩
  all_goals try exact ⟨hgo (h.popRequest huses.2) huses rfl trivial, .pop _, mixed_pop _⟩
  all_goals try exact ⟨hpush huses ‹_› rfl trivial (by simp), .push _ w, mixed_push _ w⟩
  · exact ⟨hgo h hR rfl trivial, .refl p, rfl⟩
  · exact ⟨hgo h ⟨huses, hW⟩ rfl trivial, .refl p, rfl⟩
  · have hnot : w ∉ p.pend k := hlinear.not_pend (by rw [hk]; rfl) (by rw [hk]; rfl)
    obtain ⟨v, hv⟩ : ∃ v, p.works[w]? = some v :=
      hlinear.exists_work (w := w) (by
        rw [transit_addWorker, hand_count, hk]
        have hone : (PipelineWriter.has l w).hand.count w = 1 := by simp [PipelineWriter.hand]
        omega)
    have hactive : k.writer.Active := by rw [hk]; trivial
    obtain ⟨c, hc⟩ : ∃ c, p.conns[k.conn]? = some c := by
      by_cases hr : k.reader.Active
      · obtain ⟨c, hc, -⟩ := h.order hr
        exact ⟨c, hc⟩
      · obtain ⟨c, hc, -⟩ := h.behind hr hactive
        exact ⟨c, hc⟩
    exact ⟨h.writerWrite hc hv hnot hactive (by rw [hk]; rfl) huses rfl, .write _ _, mixed_write _ _⟩
  · exact ⟨hgo (h.tell w) huses rfl trivial, .tell w, mixed_tell w⟩
  · exact ⟨(h.tell w).writerEnd trivial rfl id, .tell w, mixed_tell w⟩

theorem InOrder.readerEnd (h : p.InOrder k) (hstop : k.stopR = true) (err : Bool) : p.InOrder { k with reader := .ended err } :=
  ⟨h.writer, trivial, h.clean, fun hr => hr.elim, fun _ hw => absurd hw (h.stop hstop), h.stop⟩

theorem readerStep_inOrder {r : PipelineReader} (hR : p.chR = some 0) (h : p.InOrder k)
    (hstep : p.readerStep k e k.reader = some (p', r)) :
    p'.InOrder { k with reader := r } ∧ WorkerFrame p p' ∧ p'.mixed = p.mixed := by
  have huses := h.reader
  have hgo {q : Pipeline} (hq : q.InOrder k) {v : PipelineReader} (hv : v.Uses) (hgot : v.got = k.reader.got)
      (hactive : k.reader.Active ↔ v.Active) : q.InOrder { k with reader := v } := hq.readerGo hv hgot hactive
  have hpop {w : Nat} {ws : List Nat} (hbuf : p.buf (some 0) = w :: ws) (hgot : k.reader.got = []) (hactive : k.reader.Active) :
      (p.pop (some 0)).InOrder { k with reader := .has (some 0) w } := by
    have hpend : (p.pop (some 0)).pend { k with reader := .has (some 0) w } = p.pend k := by
      simp [pend, buf_pop_self hbuf, hbuf, hgot, show (PipelineReader.has (some 0) w).got = [w] from rfl]
    refine ⟨h.writer, rfl, fun hm => ?_, fun _ => ?_, fun hr => absurd trivial hr, h.stop⟩
    · have := h.clean hm
      rw [hbuf] at this
      cases this
    · obtain ⟨c, hc, haligned, hlen⟩ := h.order hactive
      rw [hpend]
      exact ⟨c, hc, fun j x hx => by rw [← haligned j x hx, wrote, works_pop, wrote], hlen⟩
  rcases hk : k.reader with _ | chR | chR | ⟨chR, w⟩ | ⟨chR, w⟩ | w | err <;> rw [hk] at hstep huses hgo hpop <;>
    simp only [readerStep] at hstep
  case has =>
    have hresponse {body : Option Bool} (hstep : (p.read k.conn w body).map (·, PipelineReader.tells chR w) = some (p', r)) :
        p'.InOrder { k with reader := r } ∧ WorkerFrame p p' ∧ p'.mixed = p.mixed := by
      obtain ⟨q, hread, heq⟩ := Option.map_eq_some_iff.mp hstep
      cases heq
      obtain ⟨horder, hmixed⟩ := h.readerRead (r := .tells chR w) (by rw [hk]; rfl) (by rw [hk]; trivial) hread huses rfl trivial
      exact ⟨horder, .read hread, hmixed⟩
    split at hstep
    · exact hresponse hstep
    · exact hresponse hstep
    · cases hstep
      exact ⟨h.readerFail (w := w) (by rw [hk]; rfl) (by rw [hk]; trivial) trivial id, .refl p, rfl⟩
    · cases hstep
  all_goals (repeat' split at hstep) <;> cases hstep
  all_goals try exact ⟨hgo h huses rfl Iff.rfl, .refl p, rfl⟩
  all_goals try exact ⟨hgo (h.tell w) huses rfl Iff.rfl, .tell w, mixed_tell w⟩
  · exact ⟨hgo h hR rfl Iff.rfl, .refl p, rfl⟩
  · cases huses
    exact ⟨hpop ‹_› rfl trivial, .pop _, mixed_pop _⟩
  · cases huses
    exact ⟨hpop ‹_› rfl trivial, .pop _, mixed_pop _⟩
  · exact ⟨h.readerEnd ‹_› false, .refl p, rfl⟩

theorem InOrder.masterGo (h : p.InOrder k) {m : PipelineMaster} {stopW stopR : Bool}
    (hclean : m = .dials ∨ m = .checks → p.buf (some 0) = []) (hstop : stopR = true → ¬ k.writer.Active) :
    p.InOrder { k with master := m, stopW := stopW, stopR := stopR } :=
  ⟨h.writer, h.reader, hclean, h.order, h.behind, hstop⟩

theorem inOrder_ended {k : PipelineWorker} (hw : ∃ err, k.writer = .ended err) (hr : ∃ err, k.reader = .ended err)
    (hclean : k.master = .dials ∨ k.master = .checks → p.buf (some 0) = []) : p.InOrder k := by
  obtain ⟨err, hw⟩ := hw
  obtain ⟨err', hr⟩ := hr
  refine ⟨?_, ?_, hclean, fun ha => ?_, fun _ ha => ?_, fun _ ha => ?_⟩
  · rw [hw]; trivial
  · rw [hr]; trivial
  · rw [hr] at ha; exact ha.elim
  · rw [hw] at ha; exact ha.elim
  · rw [hw] at ha; exact ha.elim

theorem masterStep_inOrder (hR : p.chR = some 0) (hstaged : Staged k) (h : p.InOrder k)
    (hdrop : k.master = .checks → p.buf p.chR = [] ∧ p.buf p.chW = []) (hstep : p.masterStep k e = some p') :
    p' = p ∨ ∃ q k', p' = q.addWorker k' ∧ q.InOrder k' ∧ WorkerFrame p q ∧ q.mixed = p.mixed := by
  unfold masterStep at hstep
  unfold Staged at hstaged
  rcases hk : k.master with _ | _ | err | err | err | err | ⟨err, w⟩ | _ <;> rw [hk] at hstep hstaged <;> simp only at hstep hstaged
  case checks =>
    obtain ⟨hr, hw⟩ := hdrop hk
    simp only [hr, hw, isEmpty_nil, Bool.and_self, if_true, Option.some.injEq] at hstep
    exact .inl hstep.symm
  all_goals (repeat' split at hstep) <;> cases hstep
  all_goals try (refine .inr ⟨p, _, rfl, h.masterGo ?_ h.stop, .refl p, rfl⟩; simp; done)
  · exact .inr ⟨p, k, rfl, h, .refl p, rfl⟩
  · have hbuf := h.clean (.inl hk)
    refine .inr ⟨_, _, rfl, ⟨trivial, trivial, fun _ => hbuf, fun _ => ⟨⟨0, 0⟩, ?_, ?_, ?_⟩, ?_, ?_⟩, ⟨rfl, rfl, rfl, rfl⟩, rfl⟩
    · simp
    · intro j w hw
      simp [pend, PipelineReader.got, PipelineWriter.sent, buf] at hw hbuf
      simp [hbuf] at hw
    · intro _
      simp [pend, PipelineReader.got, PipelineWriter.sent, buf] at hbuf ⊢
      simp [hbuf]
    · exact fun hr => absurd trivial hr
    · intro hs
      cases hs
  · exact .inr ⟨p, _, rfl, h.masterGo (by simp) (by simp [*, PipelineWriter.Active]), .refl p, rfl⟩
  · exact .inr ⟨p, _, rfl, h.masterGo (fun _ => hR ▸ ‹_›) h.stop, .refl p, rfl⟩
  · exact .inr ⟨p, _, rfl, h.masterGo (fun _ => hR ▸ ‹_›) h.stop, .refl p, rfl⟩
  · exact .inr ⟨_, _, rfl, inOrder_ended hstaged.1 hstaged.2 (by simp), .pop _, mixed_pop _⟩
  · exact .inr ⟨_, _, rfl, (h.tell w).masterGo (by simp) h.stop, .tell w, mixed_tell w⟩

/-! ## Every run without dropped channels -/

def NoDrop (p : Pipeline) : Action → Prop
  | .worker g .master _ => ∀ k ∈ p.workers[g]?, k.master = .checks → p.buf p.chR = [] ∧ p.buf p.chW = []
  | _ => True

instance (p : Pipeline) : ∀ a, Decidable (p.NoDrop a)
  | .worker _ .master _ => inferInstanceAs (Decidable (∀ k ∈ _, _))
  | .worker _ .writer _ | .worker _ .reader _ | .call _ | .caller _ _ _ => isTrue trivial

theorem Single.of_worker {q : Pipeline} (h : p.Single) (hR : p.chR = some 0) (hW : p.chW = some 1) (horder : q.InOrder k)
    (hframe : WorkerFrame { p with workers := [] } q) (hmixed : q.mixed = p.mixed) : (q.addWorker k).Single where
  shape := .inr ⟨hframe.chR.trans hR, hframe.chW.trans hW⟩
  workers := .inr ⟨k, by rw [addWorker, hframe.workers], horder.frame rfl rfl fun _ _ => rfl⟩
  callers c hc := h.callers c (by rw [← hframe.callers]; exact hc)
  mixed := hmixed.trans h.mixed

theorem Placed.pend_spec (h : p.Placed) (hk : p.workers = [k]) (hw : w ∈ p.pend k) :
    p.workPool.count w = 0 ∧ w < p.works.length :=
  (h.linear.pickWorker (g := 0) (k := k) (by simp [hk])).pend_spec hw

theorem Single.only {g : Nat} (h : p.Single) (hk : p.workers[g]? = some k) :
    (p.chR = some 0 ∧ p.chW = some 1) ∧ g = 0 ∧ p.workers = [k] ∧ p.InOrder k := by
  have hmade : p.chR = some 0 ∧ p.chW = some 1 := by
    rcases h.shape with ⟨-, -, -, hnil⟩ | hmade
    · simp [hnil] at hk
    · exact hmade
  rcases h.workers with hnil | ⟨k', hk', horder⟩
  · simp [hnil] at hk
  · rw [hk'] at hk
    obtain ⟨rfl, rfl⟩ : g = 0 ∧ k' = k := by simpa [getElem?_singleton] using hk
    exact ⟨hmade, rfl, hk', horder⟩

theorem Single.eraseCaller (h : p.Single) (c : Nat) : Single { p with callers := p.callers.eraseIdx c } :=
  ⟨h.shape, h.workers.imp_right fun ⟨k, hk, horder⟩ => ⟨k, hk, horder.frame rfl rfl fun _ _ => rfl⟩,
    fun t ht => h.callers t (mem_of_mem_eraseIdx ht), h.mixed⟩

theorem step_single {a : Action} (hplaced : p.Placed) (h : p.Single) (hgood : p.NoDrop a) (hstep : p.step n a = some p') :
    p'.Single := by
  cases a with
  | call call =>
    cases hstep
    exact h.of_frame (fun k hk w hw => hplaced.pend_spec hk hw) ((CallerFrame.refl p).add trivial)
  | caller c i e =>
    simp only [step] at hstep
    split at hstep
    · rename_i t ht
      have hrest := h.eraseCaller c
      by_cases hinits : ∃ d, t = .inits d
      · obtain ⟨call, rfl⟩ := hinits
        have hinit := init_single hrest
        have hadd : (init { p with callers := p.callers.eraseIdx c }).addCaller (.acquires call) |>.Single :=
          ⟨hinit.shape, hinit.workers.imp_right (Exists.imp fun k => And.imp_right fun horder => horder.frame rfl rfl fun _ _ => rfl),
            by simpa [addCaller, PipelineCaller.Uses] using hinit.callers, hinit.mixed⟩
        simp only [callerStep] at hstep
        split at hstep
        · split at hstep <;> cases hstep
          exact hinit
        · exact Option.some.inj hstep ▸ hadd
      · have hW : p.chW ≠ some 0 := by
          rcases h.shape with ⟨-, hW, -, -⟩ | ⟨-, hW⟩ <;> simp [hW]
        have hframe := callerStep_frame (p := { p with callers := p.callers.eraseIdx c }) hW (h.callers t (mem_of_getElem? ht))
          (fun d hd => hinits ⟨d, hd⟩) hstep
        exact hrest.of_frame (fun k hk w hw => hplaced.pend_spec hk hw) hframe
    · cases hstep
  | worker g part e =>
    simp only [step] at hstep
    split at hstep
    · rename_i k hk
      have hlinear := hplaced.linear.pickWorker hk
      have hstaged : Staged k := hplaced.staged k (mem_of_getElem? hk)
      obtain ⟨⟨hR, hW⟩, rfl, honly, horder⟩ := h.only hk
      have hnil : p.workers.eraseIdx 0 = [] := by rw [honly]; rfl
      rw [hnil] at hstep hlinear
      have horder : InOrder { p with workers := [] } k := horder.frame rfl rfl fun _ _ => rfl
      replace hstep := workerStep_part hstep
      cases part with
      | master =>
        rcases masterStep_inOrder (p := { p with workers := [] }) hR hstaged horder (fun hm => hgood k hk hm) hstep with
          rfl | ⟨q, k', rfl, horder', hframe, hmixed⟩
        · exact ⟨.inr ⟨hR, hW⟩, .inl rfl, h.callers, h.mixed⟩
        · exact h.of_worker hR hW horder' hframe hmixed
      | writer =>
        simp only [partStep, Option.map_eq_some_iff] at hstep
        obtain ⟨⟨q, wr⟩, hwriter, rfl⟩ := hstep
        obtain ⟨horder', hframe, hmixed⟩ := writerStep_inOrder (p := { p with workers := [] }) hR hW hlinear hstaged horder hwriter
        exact h.of_worker hR hW horder' hframe hmixed
      | reader =>
        simp only [partStep, Option.map_eq_some_iff] at hstep
        obtain ⟨⟨q, r⟩, hreader, rfl⟩ := hstep
        obtain ⟨horder', hframe, hmixed⟩ := readerStep_inOrder (p := { p with workers := [] }) hR horder hreader
        exact h.of_worker hR hW horder' hframe hmixed
    · cases hstep

theorem run_single (as : List Action) (h : (machine n).Along NoDrop new as) : (run n as).Single :=
  (Machine.exec_along (M := machine n) (P := fun p => p.Placed ∧ p.Single)
    (fun _ _ _ hp hgood hs => ⟨step_placed hp.1 hs, step_single hp.1 hp.2 hgood hs⟩) as ⟨placed_new, single_new⟩ h).2

/-! ## Every run in which the responses are read whole -/

/-- A reader takes from the connection what was sent as the body of a response. -/
def Framed (p : Pipeline) : Action → Prop
  | .worker g .reader (.body streamed) => ∀ k ∈ p.workers[g]?, ∀ w ∈ k.reader.got, ∀ v ∈ p.works[w]?,
      v.call.misreads (some streamed) = false
  | _ => True

instance (p : Pipeline) (a : Action) : Decidable (p.Framed a) := by
  unfold Framed
  split <;> infer_instance

def wire (p : Pipeline) : List Nat × Bool := (p.lost, p.garbled)

@[simp] theorem wire_push (ch : Option Nat) (w : Nat) : (p.push ch w).wire = p.wire := by cases ch <;> rfl

@[simp] theorem wire_pop (ch : Option Nat) : (p.pop ch).wire = p.wire := by cases ch <;> rfl

@[simp] theorem wire_tell (w : Nat) : (p.tell w).wire = p.wire := by unfold tell; split <;> rfl

@[simp] theorem wire_write (conn w : Nat) : (p.write conn w).wire = p.wire := by unfold write; split <;> rfl

@[simp] theorem wire_init : p.init.wire = p.wire := by
  unfold init
  repeat' split
  all_goals rfl

@[simp] theorem wire_acquire (i : Nat) (call : PipelineCall) : (p.acquirePipelineWork i call).2.wire = p.wire := by
  unfold acquirePipelineWork
  repeat' split
  all_goals rfl

@[simp] theorem wire_addCaller (c : PipelineCaller) : (p.addCaller c).wire = p.wire := rfl

@[simp] theorem wire_addWorker (k : PipelineWorker) : (p.addWorker k).wire = p.wire := rfl

theorem callerStep_wire {i : Nat} {c : PipelineCaller} (hstep : p.callerStep n i e c = some p') : p'.wire = p.wire := by
  cases c <;> simp only [callerStep] at hstep <;> (repeat' split at hstep) <;> cases hstep <;> simp [releasePipelineWork] <;> rfl

theorem masterStep_wire (hstep : p.masterStep k e = some p') : p'.wire = p.wire := by
  unfold masterStep at hstep
  (repeat' split at hstep) <;> cases hstep <;> simp <;> rfl

theorem writerStep_wire {wr : PipelineWriter} (hstep : p.writerStep n k e k.writer = some (p', wr)) : p'.wire = p.wire := by
  cases hk : k.writer <;> rw [hk] at hstep <;> simp only [writerStep] at hstep <;> (repeat' split at hstep) <;> cases hstep <;> simp

theorem read_wire {conn : Nat} {body : Option Bool} (h : p.wire = ([], false))
    (hbody : ∀ v ∈ p.works[w]?, v.call.misreads body = false)
    (hread : p.read conn w body = some p') : p'.wire = ([], false) := by
  obtain ⟨hlost, hgarbled⟩ := Prod.mk.inj h
  unfold read at hread
  split at hread
  · rename_i hv
    split at hread <;> cases hread
    simp [wire, hbody _ hv, hlost, hgarbled]
  · cases hread

theorem readerStep_wire {q : Pipeline} {r : PipelineReader} (h : p.wire = ([], false))
    (hbody : ∀ streamed, e = .body streamed → ∀ w ∈ k.reader.got, ∀ v ∈ p.works[w]?, v.call.misreads (some streamed) = false)
    (hstep : p.readerStep k e k.reader = some (q, r)) : q.wire = ([], false) := by
  cases hk : k.reader <;> rw [hk] at hstep hbody <;> simp only [readerStep] at hstep
  case has chR w =>
    split at hstep
    · obtain ⟨q, hread, heq⟩ := Option.map_eq_some_iff.mp hstep
      cases heq
      exact read_wire h (fun _ _ => rfl) hread
    · obtain ⟨q, hread, heq⟩ := Option.map_eq_some_iff.mp hstep
      cases heq
      exact read_wire h (hbody _ rfl w (by simp [PipelineReader.got])) hread
    · cases hstep
      exact h
    · cases hstep
  all_goals (repeat' split at hstep) <;> cases hstep <;> simpa using h

theorem step_wire {a : Action} (h : p.wire = ([], false)) (hgood : p.Framed a) (hstep : p.step n a = some p') :
    p'.wire = ([], false) := by
  cases a with
  | call call =>
    cases hstep
    exact h
  | caller c i e =>
    simp only [step] at hstep
    split at hstep
    · exact (callerStep_wire hstep).trans h
    · cases hstep
  | worker g part e =>
    simp only [step] at hstep
    split at hstep
    · rename_i k hk
      replace hstep := workerStep_part hstep
      cases part with
      | master => exact (masterStep_wire hstep).trans h
      | writer =>
        simp only [partStep, Option.map_eq_some_iff] at hstep
        obtain ⟨⟨q, wr⟩, hwriter, rfl⟩ := hstep
        exact (writerStep_wire hwriter).trans h
      | reader =>
        simp only [partStep, Option.map_eq_some_iff] at hstep
        obtain ⟨⟨q, r⟩, hreader, rfl⟩ := hstep
        refine readerStep_wire (p := { p with workers := p.workers.eraseIdx g }) (q := q) h (fun streamed he w hw v hv => ?_) hreader
        subst he
        exact hgood k hk w hw v hv
    · cases hstep

/-- As long as no worker that ends without an error finds an item in the channels and no body is taken or left in a wrong
place, each response that is stored for an item is the one to its own request, from its start on. -/
theorem responses_in_order (n : Int) (as : List Action) (h : (machine n).Along (fun p a => p.NoDrop a ∧ p.Framed a) new as) :
    (run n as).mixed = false ∧ (run n as).garbled = false := by
  have hwire := Machine.exec_along (M := machine n) (P := fun p => p.wire = ([], false))
    (fun _ _ _ hp hgood hs => step_wire hp hgood.2 hs) as rfl h
  exact ⟨(run_single as (h.mono fun _ _ hgood => hgood.1)).mixed, congrArg Prod.snd hwire⟩

def inFlight : List Action :=
  [.call {}, .caller 0 0 .ok, .caller 0 0 .ok, .caller 0 0 .ok, .worker 0 .master .ok,
   .worker 0 .writer .ok, .worker 0 .writer .ok, .worker 0 .writer .ok, .worker 0 .writer .ok, .worker 0 .writer .ok,
   .worker 0 .writer .ok, .worker 0 .writer (.flush true), .worker 0 .writer .ok, .worker 0 .reader .ok, .worker 0 .reader .ok]

theorem responses_in_order_answered :
    (machine 0).Along (fun p a => p.NoDrop a ∧ p.Framed a) new (inFlight ++ [.worker 0 .reader (.body false)]) ∧
    (run 0 (inFlight ++ [.worker 0 .reader (.body false)])).mixed = false ∧
    (run 0 (inFlight ++ [.worker 0 .reader (.body false)])).garbled = false :=
  ⟨by decide +kernel, responses_in_order 0 _ (by decide +kernel)⟩

/-- The writer's idle timer fires before it sees a caller's item, so that the worker drops the channels. -/
def dropped : List Action :=
  [.call {}, .caller 0 0 .ok, .worker 0 .master .ok, .worker 0 .writer .ok, .worker 0 .writer .ok, .worker 0 .writer .ok,
   .caller 0 0 .ok, .caller 0 0 .ok, .worker 0 .writer .idle, .worker 0 .master .recv,
   .worker 0 .reader .ok, .worker 0 .reader .ok, .worker 0 .reader .stop,
   .worker 0 .master .ok, .worker 0 .master .ok, .worker 0 .master .ok,
   .call {}, .caller 0 0 .ok, .caller 0 0 .ok, .caller 0 0 .ok, .worker 1 .master .ok, .worker 1 .master .ok,
   .worker 1 .writer .ok, .worker 0 .writer .ok, .worker 0 .writer .ok, .worker 0 .writer .ok, .worker 0 .writer .ok,
   .call {}, .caller 0 0 .ok, .caller 0 0 .ok, .caller 0 0 .ok,
   .worker 1 .writer .ok, .worker 0 .writer .ok, .worker 0 .writer .ok, .worker 0 .writer .ok,
   .worker 0 .reader .ok, .worker 0 .reader .ok, .worker 0 .reader .ok]

/-- The answer to HEAD announces a body, for which the reader takes the answer to the next request. -/
def headFirst : List Action :=
  [.call { head := true }, .caller 0 0 .ok, .caller 0 0 .ok, .caller 0 0 .ok, .worker 0 .master .ok,
   .worker 0 .writer .ok, .worker 0 .writer .ok, .worker 0 .writer .ok, .worker 0 .writer .ok, .worker 0 .writer .ok,
   .call {}, .caller 0 0 .ok, .caller 0 0 .ok, .caller 0 0 .ok, .worker 0 .writer .ok, .worker 0 .writer .ok, .worker 0 .writer .ok,
   .worker 0 .reader .ok, .worker 0 .reader .ok, .worker 0 .reader (.body false), .worker 0 .reader .ok, .worker 0 .reader .ok,
   .worker 0 .reader .ok]

theorem responses_mixed : ((run 0 dropped).mixed = true ∧ (run 0 dropped).wrote 1 = some (1, 0) ∧
    (run 0 dropped).conns = [⟨0, 0⟩, ⟨1, 0⟩, ⟨1, 1⟩]) ∧ (run 0 headFirst).garbled = true ∧ (run 0 headFirst).conns = [⟨2, 2⟩] := by
  decide +kernel

/-! ## Idle stops -/

def idleStop (p : Pipeline) : Action → Option (PipelineWorker × WriterVars)
  | .worker g .writer .idle => p.workers[g]?.bind fun k => k.writer.asleep.map fun l => (k, l)
  | _ => none

/-- When an idle timer fires, every request on the connection has its response. -/
def Answered (p : Pipeline) (a : Action) : Prop :=
  ∀ s ∈ p.idleStop a, (p.conns[s.1.conn]?.map fun c => decide (c.received = c.written)) = some true

/-- When an idle timer fires, the reader awaits the next item and there is none. -/
def Quiet (p : Pipeline) (a : Action) : Prop :=
  ∀ s ∈ p.idleStop a, s.1.reader.awaits = true ∧ p.buf s.2.chR = []

instance (p : Pipeline) (a : Action) : Decidable (p.Answered a) := inferInstanceAs (Decidable (∀ s ∈ _, _))

instance (p : Pipeline) (a : Action) : Decidable (p.Quiet a) := inferInstanceAs (Decidable (∀ s ∈ _, _))

theorem InOrder.answered_iff (h : p.InOrder k) {l : WriterVars} (hl : k.writer = .sleeps l) :
    ((p.conns[k.conn]?.map fun c => decide (c.received = c.written)) = some true) ↔
      k.reader.awaits = true ∧ p.buf l.chR = [] := by
  have hactive : k.writer.Active := by rw [hl]; trivial
  have hchan : l.chR = some 0 := by
    have := h.writer
    rw [hl] at this
    exact this.1
  by_cases hr : k.reader.Active
  · obtain ⟨c, hc, -, hlen⟩ := h.order hr
    have hlen := hlen hactive
    have hpend : p.pend k = k.reader.got ++ p.buf l.chR := by simp [pend, hl, hchan, PipelineWriter.sent]
    rw [hpend, length_append] at hlen
    rw [PipelineReader.awaits_iff, ← length_eq_zero_iff, ← length_eq_zero_iff, hc]
    simp only [Option.map_some, Option.some.injEq, decide_eq_true_eq, hr, true_and]
    omega
  · obtain ⟨c, hc, hlt⟩ := h.behind hr hactive
    rw [PipelineReader.awaits_iff, hc]
    simp only [Option.map_some, Option.some.injEq, decide_eq_true_eq, hr, false_and, iff_false]
    omega

theorem Single.answered_iff (h : p.Single) (a : Action) : p.Answered a ↔ p.Quiet a := by
  refine forall₂_congr fun s hs => ?_
  unfold idleStop at hs
  split at hs
  · simp only [Option.mem_def, Option.bind_eq_some_iff, Option.map_eq_some_iff] at hs
    obtain ⟨k, hk, l, hl, rfl⟩ := hs
    obtain ⟨-, -, -, horder⟩ := h.only hk
    exact horder.answered_iff (PipelineWriter.asleep_eq hl)
  · cases hs

/-- As long as no worker that ends without an error finds an item in the channels, the requests on a
connection have their responses at each idle stop exactly if at each idle stop the reader awaits an
item and the channel to it is empty. -/
theorem idle_stop_answered_iff (n : Int) (as : List Action) (h : (machine n).Along NoDrop new as) :
    (machine n).Along Answered new as ↔ (machine n).Along Quiet new as :=
  Machine.along_congr (M := machine n) (I := fun p => p.Placed ∧ p.Single)
    (fun _ _ _ hp hgood hs => ⟨step_placed hp.1 hs, step_single hp.1 hp.2 hgood hs⟩) (fun _ a _ hp _ => hp.2.answered_iff a) as
    ⟨placed_new, single_new⟩ h

theorem idle_stop_answered_read :
    (machine 0).Along NoDrop new (inFlight ++ [.worker 0 .reader .ok, .worker 0 .writer .idle]) ∧
    ((machine 0).Along Answered new (inFlight ++ [.worker 0 .reader .ok, .worker 0 .writer .idle]) ↔
      (machine 0).Along Quiet new (inFlight ++ [.worker 0 .reader .ok, .worker 0 .writer .idle])) :=
  ⟨by decide +kernel, idle_stop_answered_iff 0 _ (by decide +kernel)⟩

/-- The idle timer fires while the reader waits for a response. -/
theorem idle_stop_in_flight : ((run 0 inFlight).idleStop (.worker 0 .writer .idle)).isSome ∧
    (run 0 inFlight).conns = [⟨1, 0⟩] ∧ ¬ (machine 0).Along Answered new (inFlight ++ [.worker 0 .writer .idle]) := by
  decide +kernel

end Pipeline

end Fasthttp
