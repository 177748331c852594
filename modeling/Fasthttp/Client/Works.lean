import Fasthttp.Client.Pipeline
import Fasthttp.Lib.Tally

/-!
# Where the work items are

Every item is in exactly one place: the pool, a channel, the hand of a goroutine, or it carries its signal.
-/

namespace Fasthttp

open List

def PipelineCaller.hand : PipelineCaller → List Nat
  | .sends _ w | .replaces w | .resends w | .slows w | .blocks w _ => [w]
  | .tells w old => [w, old]
  | _ => []

def PipelineWriter.hand : PipelineWriter → List Nat
  | .has _ w | .skips _ w | .pushes _ w | .stalls _ w | .fails w _ => [w]
  | _ => []

def PipelineReader.hand : PipelineReader → List Nat
  | .has _ w | .tells _ w | .fails w => [w]
  | _ => []

def PipelineMaster.hand : PipelineMaster → List Nat
  | .tells _ w => [w]
  | _ => []

def PipelineWorker.hand (k : PipelineWorker) : List Nat := k.writer.hand ++ k.reader.hand ++ k.master.hand

namespace Pipeline

variable {c : PipelineCaller} {e : PipelineEvent} {i : Nat} {n : Int} {r : PipelineReader} {wr : PipelineWriter}

def held (p : Pipeline) : List Nat := p.callers.flatMap PipelineCaller.hand ++ p.workers.flatMap PipelineWorker.hand

def transit (p : Pipeline) (x : Nat) : Nat :=
  (p.chans.map (·.count x)).sum + (p.callers.map (·.hand.count x)).sum + (p.workers.map (·.hand.count x)).sum

def status (p : Pipeline) (x : Nat) : Option (Nat × Nat) := p.works[x]?.map fun v => (v.done, v.signals)

structure Linear (p : Pipeline) : Prop where
  one : ∀ x d s, p.status x = some (d, s) → p.workPool.count x + p.transit x + d = 1 ∧ s ≤ 1 ∧ (0 < p.transit x → s = 0)
  other : ∀ x, p.status x = none → p.workPool.count x + p.transit x = 0
  jammed : p.jammed = false

variable {p p' : Pipeline} {x w : Nat}

@[simp] theorem transit_addCaller (c : PipelineCaller) : (p.addCaller c).transit x = p.transit x + c.hand.count x := by
  simp only [transit, addCaller, map_cons, sum_cons]
  omega

@[simp] theorem transit_addWorker (k : PipelineWorker) : (p.addWorker k).transit x = p.transit x + k.hand.count x := by
  simp only [transit, addWorker, map_cons, sum_cons]
  omega

theorem transit_push {ch : Option Nat} (h : p.room n ch = true) (w : Nat) :
    (p.push ch w).transit x = p.transit x + [w].count x := by
  cases ch with
  | none => cases h
  | some i =>
    rcases hb : p.chans[i]? with _ | b
    · simp [room, hb] at h
    · have hset := Tally.sum_set (·.count x) hb (b ++ [w])
      simp only [transit, push, buf, hb, Option.getD_some, count_append] at hset ⊢
      omega

theorem transit_pop {ch : Option Nat} {ws : List Nat} (h : p.buf ch = w :: ws) :
    (p.pop ch).transit x + [w].count x = p.transit x := by
  cases ch with
  | none => cases h
  | some i =>
    rcases hb : p.chans[i]? with _ | b
    · simp [buf, hb] at h
    · have hset := Tally.sum_set (·.count x) hb b.tail
      simp only [buf, hb] at h
      subst h
      simp only [transit, pop, buf, hb, Option.getD_some, tail_cons, count_cons, count_nil] at hset ⊢
      omega

namespace Linear

theorem carry (h : p.Linear) (hstatus : ∀ x, p'.status x = p.status x) (hjammed : p'.jammed = p.jammed)
    (hplaces : ∀ x, p'.workPool.count x + p'.transit x = p.workPool.count x + p.transit x)
    (htransit : ∀ x, p'.transit x ≤ p.transit x) : p'.Linear where
  one x d s hs := by
    obtain ⟨hone, hle, hzero⟩ := h.one x d s (hstatus x ▸ hs)
    have := hplaces x
    have := htransit x
    exact ⟨by omega, hle, fun hpos => hzero (by omega)⟩
  other x hs := by rw [hplaces]; exact h.other x (hstatus x ▸ hs)
  jammed := hjammed.trans h.jammed

theorem update (h : p.Linear) (w d' s' : Nat) (hstatus : ∀ x, p'.status x = if w = x then some (d', s') else p.status x)
    (hjammed : p'.jammed = p.jammed) (hone : p'.workPool.count w + p'.transit w + d' = 1) (hle : s' ≤ 1)
    (hzero : 0 < p'.transit w → s' = 0)
    (hrest : ∀ x, w ≠ x → p'.workPool.count x = p.workPool.count x ∧ p'.transit x = p.transit x) : p'.Linear where
  one x d s hs := by
    rw [hstatus] at hs
    split at hs
    · rename_i hx
      subst hx
      cases hs
      exact ⟨hone, hle, hzero⟩
    · rename_i hx
      rw [(hrest x hx).1, (hrest x hx).2]
      exact h.one x d s hs
  other x hs := by
    rw [hstatus] at hs
    split at hs
    · cases hs
    · rename_i hx
      rw [(hrest x hx).1, (hrest x hx).2]
      exact h.other x hs
  jammed := hjammed.trans h.jammed

theorem status_set {v : PipelineWork} (hv : p.works[w]? = some v) (v' : PipelineWork) (x : Nat) :
    (p.works.set w v')[x]?.map (fun v => (v.done, v.signals)) = if w = x then some (v'.done, v'.signals) else p.status x := by
  obtain ⟨hlt, -⟩ := List.getElem?_eq_some_iff.mp hv
  by_cases hx : w = x
  · simp [hx, hx ▸ hlt]
  · simp [hx, status]

theorem exists_work (h : p.Linear) (hpos : 0 < p.workPool.count w + p.transit w) : ∃ v, p.works[w]? = some v := by
  rcases hv : p.works[w]? with _ | v
  · have := h.other w (by simp [status, hv])
    omega
  · exact ⟨v, rfl⟩

theorem signal (h : p.Linear) (hworks : p'.works = p.works) (hjammed : p'.jammed = p.jammed) (hpool : p'.workPool = p.workPool)
    (htransit : ∀ x, p'.transit x + [w].count x = p.transit x) : (p'.tell w).Linear := by
  have hw : p'.transit w + 1 = p.transit w := by simpa using htransit w
  obtain ⟨v, hv⟩ := h.exists_work (w := w) (by omega)
  obtain ⟨hone, -, hzero⟩ := h.one w v.done v.signals (by simp [status, hv])
  -- in a hand it carries no signal, and was given none
  have hdone : v.done = 0 := by omega
  have hsignals : v.signals = 0 := hzero (by omega)
  have htell : p'.tell w = { p' with works := p.works.set w { v with done := 1, signals := 1 } } := by
    simp [Pipeline.tell, hworks, hv, hsignals, hdone]
  rw [htell]
  refine h.update w 1 1 (fun x => status_set hv _ x) hjammed ?_ (Nat.le_refl _) (fun hpos => ?_) (fun x hx => ?_)
  · change p'.workPool.count w + p'.transit w + 1 = 1
    rw [hpool]
    omega
  · change 0 < p'.transit w at hpos
    omega
  · have := htransit x
    simp only [count_singleton, beq_iff_eq, hx] at this
    exact ⟨by rw [hpool], this⟩

theorem receive (h : p.Linear) {v : PipelineWork} (hv : p.works[w]? = some v) (hdone : v.done ≠ 0) :
    ({ p with works := p.works.set w { v with done := 0 } }.releasePipelineWork w).Linear := by
  obtain ⟨hone, hle, hzero⟩ := h.one w v.done v.signals (by simp [status, hv])
  refine h.update w 0 v.signals (fun x => status_set hv _ x) rfl ?_ hle hzero (fun x hx => ?_)
  · change (w :: p.workPool).count w + p.transit w + 0 = 1
    rw [count_cons_self]
    omega
  · exact ⟨count_cons_of_ne hx, rfl⟩

theorem acquire (h : p.Linear) (i : Nat) (call : PipelineCall) :
    ((p.acquirePipelineWork i call).2.addCaller (.sends call.deadline (p.acquirePipelineWork i call).1)).Linear := by
  unfold acquirePipelineWork
  rcases hi : p.workPool[i]? with _ | w
  · have hnew := h.other p.works.length (by simp [status])
    refine h.update p.works.length 0 0 (fun x => ?_) rfl ?_ (Nat.zero_le _) (fun _ => rfl) (fun x hx => ?_)
    · simp only [status, addCaller, List.getElem?_append]
      rcases Nat.lt_trichotomy x p.works.length with hlt | rfl | hgt
      · rw [if_pos hlt, if_neg (by omega)]
      · simp
      · rw [if_neg (by omega), if_neg (by omega), List.getElem?_eq_none (by simp; omega), List.getElem?_eq_none (by omega)]
    · rw [transit_addCaller]
      change p.workPool.count p.works.length + (p.transit p.works.length + [p.works.length].count p.works.length) + 0 = 1
      simp only [count_singleton_self]
      omega
    · rw [transit_addCaller]
      refine ⟨rfl, ?_⟩
      change p.transit x + [p.works.length].count x = p.transit x
      simp [hx]
  · have hpool : ∀ x, (p.workPool.eraseIdx i).count x + [w].count x = p.workPool.count x := by
      intro x
      obtain ⟨hlt, rfl⟩ := List.getElem?_eq_some_iff.mp hi
      rw [← (getElem_cons_eraseIdx_perm hlt).count_eq x]
      simp only [count_cons, count_nil]
      omega
    have hw : (p.workPool.eraseIdx i).count w + 1 = p.workPool.count w := by simpa using hpool w
    obtain ⟨v, hv⟩ := h.exists_work (w := w) (by omega)
    obtain ⟨hone, -, -⟩ := h.one w v.done v.signals (by simp [status, hv])
    simp only [hv]
    refine h.update w v.done 0 (fun x => status_set hv _ x) rfl ?_ (Nat.zero_le _) (fun _ => rfl) (fun x hx => ?_)
    · rw [transit_addCaller]
      change (p.workPool.eraseIdx i).count w + (p.transit w + [w].count w) + v.done = 1
      simp only [count_singleton_self]
      omega
    · rw [transit_addCaller]
      have := hpool x
      simp only [count_singleton, beq_iff_eq, hx] at this
      refine ⟨this, ?_⟩
      change p.transit x + [w].count x = p.transit x
      simp [hx]

end Linear

theorem tell_addCaller (p : Pipeline) (c : PipelineCaller) (w : Nat) : (p.addCaller c).tell w = (p.tell w).addCaller c := by
  unfold tell addCaller
  cases p.works[w]? <;> rfl

theorem tell_addWorker (p : Pipeline) (k : PipelineWorker) (w : Nat) : (p.addWorker k).tell w = (p.tell w).addWorker k := by
  unfold tell addWorker
  cases p.works[w]? <;> rfl

theorem transit_init : p.init.transit x = p.transit x := by
  unfold init
  rcases p.chR with _ | r
  · rcases p.chW with _ | c
    · simp [transit, addWorker, worker, PipelineWorker.hand, PipelineWriter.hand, PipelineReader.hand, PipelineMaster.hand]
    · simp [transit, addWorker, worker, PipelineWorker.hand, PipelineWriter.hand, PipelineReader.hand, PipelineMaster.hand]
  · rfl

structure Keeps (p p' : Pipeline) : Prop where
  works : p'.works = p.works
  workPool : p'.workPool = p.workPool
  jammed : p'.jammed = p.jammed

theorem init_keeps (p : Pipeline) : Keeps p p.init := by
  unfold init
  rcases p.chR with _ | r
  · rcases p.chW with _ | c <;> exact ⟨rfl, rfl, rfl⟩
  · exact ⟨rfl, rfl, rfl⟩

theorem push_keeps (p : Pipeline) (ch : Option Nat) (w : Nat) : Keeps p (p.push ch w) := by
  cases ch <;> exact ⟨rfl, rfl, rfl⟩

theorem pop_keeps (p : Pipeline) (ch : Option Nat) : Keeps p (p.pop ch) := by
  cases ch <;> exact ⟨rfl, rfl, rfl⟩

theorem Linear.pass (h : p.Linear) (hkeeps : Keeps p p') (htransit : ∀ x, p'.transit x = p.transit x) : p'.Linear :=
  h.carry (fun x => by rw [status, status, hkeeps.works]) hkeeps.jammed (fun x => by rw [hkeeps.workPool, htransit])
    (fun x => Nat.le_of_eq (htransit x))

theorem Linear.release (h : p.Linear) (hkeeps : Keeps p p') (htransit : ∀ x, p'.transit x + [w].count x = p.transit x) :
    (p'.releasePipelineWork w).Linear := by
  refine h.carry (fun x => by rw [status, status, ← hkeeps.works]; rfl) hkeeps.jammed (fun x => ?_) (fun x => ?_)
  · change (w :: p'.workPool).count x + p'.transit x = _
    have := htransit x
    simp only [hkeeps.workPool, count_cons, count_nil] at this ⊢
    omega
  · change p'.transit x ≤ _
    have := htransit x
    omega

theorem callerStep_linear (h : (p.addCaller c).Linear) (hstep : p.callerStep n i e c = some p') : p'.Linear := by
  have hfree (hc : c.hand = []) : p.Linear := h.pass ⟨rfl, rfl, rfl⟩ fun x => by simp [hc]
  have hgo {c' : PipelineCaller} (hc : c'.hand = c.hand) : (p.addCaller c').Linear := h.pass ⟨rfl, rfl, rfl⟩ fun x => by simp [hc]
  have hpush {ch : Option Nat} {w : Nat} {d : Bool} (hroom : p.room n ch = true) (hc : c.hand = [w]) :
      ((p.push ch w).addCaller (.waits d w)).Linear := by
    have hkeeps := push_keeps p ch w
    exact h.pass { hkeeps with } fun x => by
      simp only [transit_addCaller, transit_push hroom, hc]
      rfl
  have hrelease {w : Nat} (hc : c.hand = [w]) : (p.releasePipelineWork w).Linear := h.release ⟨rfl, rfl, rfl⟩ fun x => by simp [hc]
  cases c <;> simp only [callerStep] at hstep <;> (repeat' split at hstep) <;> cases hstep
  all_goals try exact hgo rfl
  all_goals try exact hfree rfl
  all_goals try exact hpush ‹_› rfl
  all_goals try exact hrelease rfl
  all_goals try exact (hfree rfl).receive ‹_› ‹_›
  all_goals try exact (hfree rfl).pass (init_keeps p) fun x => transit_init
  · have hinit : p.init.Linear := (hfree rfl).pass (init_keeps p) fun x => transit_init
    exact hinit.pass ⟨rfl, rfl, rfl⟩ fun x => by simp [PipelineCaller.hand]
  · exact (hfree rfl).acquire i _
  · have hkeeps := pop_keeps p p.chW
    refine h.pass { hkeeps with } fun x => ?_
    have hpop := transit_pop (x := x) ‹_›
    simp only [transit_addCaller, PipelineCaller.hand, count_cons, count_nil] at hpop ⊢
    omega
  · rw [← tell_addCaller]
    refine h.signal rfl rfl rfl fun x => ?_
    simp only [transit_addCaller, PipelineCaller.hand, count_cons, count_nil]
    omega

theorem hand_count (k : PipelineWorker) :
    k.hand.count x = k.writer.hand.count x + k.reader.hand.count x + k.master.hand.count x := by
  rw [PipelineWorker.hand, count_append, count_append]

section Worker

variable {k k' : PipelineWorker} {ch : Option Nat}

theorem Linear.workerGo (h : (p.addWorker k).Linear) (hhand : ∀ x, k'.hand.count x = k.hand.count x) : (p.addWorker k').Linear :=
  h.pass ⟨rfl, rfl, rfl⟩ fun x => by rw [transit_addWorker, transit_addWorker, hhand]

theorem Linear.workerPush {n : Int} (h : (p.addWorker k).Linear) (hroom : p.room n ch = true)
    (hhand : ∀ x, k'.hand.count x + [w].count x = k.hand.count x) : ((p.push ch w).addWorker k').Linear := by
  have hkeeps := push_keeps p ch w
  refine h.pass { hkeeps with } fun x => ?_
  have := hhand x
  rw [transit_addWorker, transit_addWorker, transit_push hroom]
  omega

theorem Linear.workerPop {ws : List Nat} (h : (p.addWorker k).Linear) (hbuf : p.buf ch = w :: ws)
    (hhand : ∀ x, k'.hand.count x = k.hand.count x + [w].count x) : ((p.pop ch).addWorker k').Linear := by
  have hkeeps := pop_keeps p ch
  refine h.pass { hkeeps with } fun x => ?_
  have hpop := transit_pop (x := x) hbuf
  rw [transit_addWorker, transit_addWorker, hhand]
  omega

theorem Linear.workerTell (h : (p.addWorker k).Linear) (hhand : ∀ x, k'.hand.count x + [w].count x = k.hand.count x) :
    ((p.tell w).addWorker k').Linear := by
  rw [← tell_addWorker]
  refine h.signal rfl rfl rfl fun x => ?_
  have := hhand x
  rw [transit_addWorker, transit_addWorker]
  omega

end Worker

theorem write_linear (conn : Nat) (h : p.Linear) : (p.write conn w).Linear := by
  unfold write
  split
  · rename_i c v hc hv
    refine h.carry (fun x => ?_) rfl (fun _ => rfl) (fun _ => Nat.le_refl _)
    have := Linear.status_set hv { v with wrote := some (conn, c.written) } x
    simp only [status] at this ⊢
    rw [this]
    split
    · rename_i hx
      simp [← hx, hv]
    · rfl
  · exact h

theorem write_addWorker (p : Pipeline) (k : PipelineWorker) (conn w : Nat) :
    (p.addWorker k).write conn w = (p.write conn w).addWorker k := by
  unfold write addWorker
  cases p.conns[conn]? <;> cases p.works[w]? <;> rfl

variable {k : PipelineWorker}

theorem writerStep_linear (h : (p.addWorker k).Linear)
    (hstep : p.writerStep n k e k.writer = some (p', wr)) : (p'.addWorker { k with writer := wr }).Linear := by
  have hgo {v : PipelineWriter} (hv : v.hand = k.writer.hand) : (p.addWorker { k with writer := v }).Linear :=
    h.workerGo fun x => by simp [hand_count, hv]
  have hdrops {v : PipelineWriter} {w : Nat} (hv : v.hand = []) (hw : k.writer.hand = [w]) (x : Nat) :
      (PipelineWorker.hand { k with writer := v }).count x + [w].count x = k.hand.count x := by
    simp [hand_count, hv, hw, Nat.add_comm, Nat.add_left_comm]
  rcases hk : k.writer with _ | chR | l | l | ⟨l, w⟩ | ⟨l, w⟩ | ⟨l, w⟩ | ⟨l, w⟩ | ⟨w, err⟩ | err <;>
    rw [hk] at hstep hgo hdrops <;> simp only [writerStep] at hstep <;> (repeat' split at hstep) <;> cases hstep
  all_goals try exact hgo rfl
  all_goals try exact h.workerTell (hdrops rfl rfl)
  all_goals try exact h.workerPush ‹_› (hdrops rfl rfl)
  all_goals try exact h.workerPop ‹_› fun x => by simp [hand_count, hk, PipelineWriter.hand, Nat.add_comm, Nat.add_left_comm]
  rw [← write_addWorker]
  exact write_linear k.conn (hgo rfl)

theorem read_keeps {conn : Nat} {body : Option Bool} (h : p.read conn w body = some p') :
    Keeps p p' ∧ ∀ x, p'.transit x = p.transit x := by
  unfold read at h
  split at h
  · split at h <;> cases h
    exact ⟨⟨rfl, rfl, rfl⟩, fun _ => rfl⟩
  · cases h

theorem readerStep_linear (h : (p.addWorker k).Linear)
    (hstep : p.readerStep k e k.reader = some (p', r)) : (p'.addWorker { k with reader := r }).Linear := by
  have hgo {v : PipelineReader} (hv : v.hand = k.reader.hand) : (p.addWorker { k with reader := v }).Linear :=
    h.workerGo fun x => by simp [hand_count, hv]
  have htell {v : PipelineReader} {w : Nat} (hv : v.hand = []) (hw : k.reader.hand = [w]) :
      ((p.tell w).addWorker { k with reader := v }).Linear :=
    h.workerTell fun x => by simp [hand_count, hv, hw, Nat.add_comm, Nat.add_left_comm]
  rcases hk : k.reader with _ | chR | chR | ⟨chR, w⟩ | ⟨chR, w⟩ | w | err <;> rw [hk] at hstep hgo htell <;>
    simp only [readerStep] at hstep <;> (repeat' split at hstep) <;> try cases hstep
  all_goals try exact hgo rfl
  all_goals try exact htell rfl rfl
  all_goals try exact h.workerPop ‹_› fun x => by simp [hand_count, hk, PipelineReader.hand, Nat.add_comm, Nat.add_left_comm]
  -- a response, without a body or with one
  all_goals
    obtain ⟨q, hread, heq⟩ := Option.map_eq_some_iff.mp hstep
    cases heq
    obtain ⟨hkeeps, htransit⟩ := read_keeps hread
    refine h.pass { hkeeps with } fun x => ?_
    simp [htransit, hand_count, hk, PipelineReader.hand]

theorem masterStep_linear (h : (p.addWorker k).Linear)
    -- a worker that dials or ends has left its writer and its reader behind
    (hidle : k.master = .dials ∨ k.master = .checks → k.writer.hand = [] ∧ k.reader.hand = [])
    (hstep : p.masterStep k e = some p') : p'.Linear := by
  have hgo {k' : PipelineWorker} (hw : k'.writer = k.writer) (hr : k'.reader = k.reader) (hm : k'.master.hand = k.master.hand) :
      (p.addWorker k').Linear := h.workerGo fun x => by simp [hand_count, hw, hr, hm]
  have hempty (hm : k.master = .dials ∨ k.master = .checks) (x : Nat) : k.hand.count x = 0 := by
    obtain ⟨hwriter, hreader⟩ := hidle hm
    rcases hm with hm | hm <;> simp [hand_count, hm, hwriter, hreader, PipelineMaster.hand]
  unfold masterStep at hstep
  rcases hk : k.master with _ | _ | err | err | err | err | ⟨err, w⟩ | _ <;> simp only [hk] at hstep hgo <;>
    (repeat' split at hstep) <;> cases hstep
  all_goals try exact hgo rfl rfl rfl
  all_goals try exact h
  · exact h.pass ⟨rfl, rfl, rfl⟩ fun x => by rw [transit_addWorker, transit_addWorker, hempty (.inl hk)]; rfl
  · exact h.workerPop ‹_› fun x => by simp [hand_count, hk, PipelineMaster.hand]
  · exact h.workerTell fun x => by simp [hand_count, hk, PipelineMaster.hand]
  · exact h.pass ⟨rfl, rfl, rfl⟩ fun x => by rw [transit_addWorker, hempty (.inr hk), Nat.add_zero]
  · obtain ⟨hwriter, hreader⟩ := hidle (.inr hk)
    refine h.pass ⟨rfl, rfl, rfl⟩ fun x => ?_
    rw [transit_addWorker, transit_addWorker, hempty (.inr hk), hand_count, hwriter, hreader]
    rfl

def Staged (k : PipelineWorker) : Prop :=
  match k.master with
  | .waits => True
  | .waitsR _ => ∃ err, k.writer = .ended err
  | .waitsW _ => ∃ err, k.reader = .ended err
  | _ => (∃ err, k.writer = .ended err) ∧ ∃ err, k.reader = .ended err

theorem Staged.writer (h : Staged k) (hgo : ∀ err, k.writer ≠ .ended err) :
    Staged { k with writer := wr } := by
  unfold Staged at h ⊢
  rcases hk : k.master with _ | _ | err | err | err | err | ⟨err, w⟩ | _ <;> simp only [hk] at h ⊢
  case waitsR => exact absurd h.choose_spec (hgo _)
  case waitsW => exact h
  all_goals exact absurd h.1.choose_spec (hgo _)

theorem Staged.reader (h : Staged k) (hgo : ∀ err, k.reader ≠ .ended err) :
    Staged { k with reader := r } := by
  unfold Staged at h ⊢
  rcases hk : k.master with _ | _ | err | err | err | err | ⟨err, w⟩ | _ <;> simp only [hk] at h ⊢
  case waitsR => exact h
  case waitsW => exact absurd h.choose_spec (hgo _)
  all_goals exact absurd h.2.choose_spec (hgo _)

@[simp] theorem workers_pop (p : Pipeline) (ch : Option Nat) : (p.pop ch).workers = p.workers := by cases ch <;> rfl

@[simp] theorem workers_push (p : Pipeline) (ch : Option Nat) (w : Nat) : (p.push ch w).workers = p.workers := by
  cases ch <;> rfl

@[simp] theorem workers_tell (p : Pipeline) (w : Nat) : (p.tell w).workers = p.workers := by
  unfold tell
  split <;> rfl

@[simp] theorem workers_write (p : Pipeline) (conn w : Nat) : (p.write conn w).workers = p.workers := by
  unfold write
  split <;> rfl

theorem workers_read {conn : Nat} {body : Option Bool} (h : p.read conn w body = some p') : p'.workers = p.workers := by
  unfold read at h
  split at h
  · split at h <;> cases h
    exact rfl
  · cases h

theorem workerStep_part {part : Part} (h : p.workerStep n k e part = some p') : p.partStep n k e part = some p' := by
  unfold workerStep at h
  split at h
  · cases h
  · exact h

theorem masterStep_workers (h : Staged k) (hstep : p.masterStep k e = some p') :
    p'.workers = p.workers ∨ ∃ k', Staged k' ∧ p'.workers = k' :: p.workers := by
  have hstaged := h
  unfold masterStep at hstep
  unfold Staged at h
  rcases hk : k.master with _ | _ | err | err | err | err | ⟨err, w⟩ | _ <;> simp only [hk] at hstep h <;>
    (repeat' split at hstep) <;> cases hstep
  all_goals try refine .inr ⟨_, ?_, rfl⟩
  all_goals try exact h
  all_goals try exact ⟨_, ‹_›⟩
  · exact hstaged
  · trivial
  · exact ⟨h, _, ‹_›⟩
  · exact ⟨⟨_, ‹_›⟩, h⟩
  · exact .inr ⟨{ k with master := .tells err _ }, h, by rw [addWorker, workers_pop]⟩
  · exact .inr ⟨{ k with master := .drains err }, h, by rw [addWorker, workers_tell]⟩
  · exact .inl rfl

theorem writerStep_workers {w₀ : PipelineWriter}
    (hstep : p.writerStep n k e w₀ = some (p', wr)) : p'.workers = p.workers ∧ ∀ err, w₀ ≠ .ended err := by
  cases w₀ with
  | ended err => cases hstep
  | _ =>
    refine ⟨?_, by simp⟩
    simp only [writerStep] at hstep
    grind [workers_pop, workers_push, workers_tell, workers_write]

theorem readerStep_workers {r₀ : PipelineReader}
    (hstep : p.readerStep k e r₀ = some (p', r)) : p'.workers = p.workers ∧ ∀ err, r₀ ≠ .ended err := by
  cases r₀ with
  | ended err => cases hstep
  | _ =>
    simp only [readerStep] at hstep
    grind [workers_pop, workers_tell, workers_read, Option.map_eq_some_iff]

theorem callerStep_workers (hstep : p.callerStep n i e c = some p') :
    p'.workers = p.workers ∨ p'.workers = worker :: p.workers := by
  have hinit : p.init.workers = p.workers ∨ p.init.workers = worker :: p.workers := by
    unfold init
    rcases p.chR with _ | r
    · rcases p.chW with _ | c <;> exact .inr rfl
    · exact .inl rfl
  have hacquire : ∀ i d, (p.acquirePipelineWork i d).2.workers = p.workers := by
    intro i d
    unfold acquirePipelineWork
    split
    · split <;> rfl
    · rfl
  cases c <;> simp only [callerStep] at hstep <;> grind [workers_pop, workers_push, workers_tell, addCaller, releasePipelineWork]

structure Placed (p : Pipeline) : Prop where
  linear : p.Linear
  staged : ∀ k ∈ p.workers, Staged k

theorem placed_new : new.Placed where
  linear := ⟨by simp [status, new], by simp [transit, new], rfl⟩
  staged := by simp [new]

theorem Linear.pickCaller (h : p.Linear) (hc : p.callers[i]? = some c) :
    ({ p with callers := p.callers.eraseIdx i }.addCaller c).Linear := by
  refine h.pass ⟨rfl, rfl, rfl⟩ fun x => ?_
  have hsum := Tally.sum_eraseIdx (fun c => c.hand.count x) hc
  rw [transit_addCaller]
  simp only [transit]
  omega

theorem Linear.pickWorker {g : Nat} (h : p.Linear) (hk : p.workers[g]? = some k) :
    ({ p with workers := p.workers.eraseIdx g }.addWorker k).Linear := by
  refine h.pass ⟨rfl, rfl, rfl⟩ fun x => ?_
  have hsum := Tally.sum_eraseIdx (fun k => k.hand.count x) hk
  rw [transit_addWorker]
  simp only [transit]
  omega

theorem step_placed {a : Action} (h : p.Placed) (hstep : p.step n a = some p') : p'.Placed := by
  have hworker : Staged worker := ⟨⟨false, rfl⟩, false, rfl⟩
  cases a with
  | call call =>
    cases hstep
    exact ⟨h.linear.pass ⟨rfl, rfl, rfl⟩ fun x => by simp [PipelineCaller.hand], h.staged⟩
  | caller c i e =>
    simp only [step] at hstep
    split at hstep
    · rename_i t ht
      refine ⟨callerStep_linear (h.linear.pickCaller ht) hstep, fun k hk => ?_⟩
      rcases callerStep_workers hstep with heq | heq <;> rw [heq] at hk
      · exact h.staged k hk
      · rcases mem_cons.mp hk with rfl | hk
        · exact hworker
        · exact h.staged k hk
    · cases hstep
  | worker g part e =>
    simp only [step] at hstep
    split at hstep
    · rename_i k hk
      have hlinear := h.linear.pickWorker hk
      have hstaged : Staged k := h.staged k (mem_of_getElem? hk)
      have hrest : ∀ k' ∈ p.workers.eraseIdx g, Staged k' := fun k' hk' => h.staged k' (mem_of_mem_eraseIdx hk')
      have hcons : ∀ k₁, Staged k₁ → ∀ k' ∈ k₁ :: p.workers.eraseIdx g, Staged k' := by
        intro k₁ hk₁ k' hk'
        rcases mem_cons.mp hk' with rfl | hk'
        · exact hk₁
        · exact hrest k' hk'
      replace hstep := workerStep_part hstep
      cases part with
      | master =>
        refine ⟨masterStep_linear hlinear ?_ hstep, ?_⟩
        · intro hmaster
          have hended : (∃ err, k.writer = .ended err) ∧ ∃ err, k.reader = .ended err := by
            unfold Staged at hstaged
            rcases hmaster with hm | hm <;> rw [hm] at hstaged <;> exact hstaged
          obtain ⟨⟨err, hw⟩, err', hr⟩ := hended
          rw [hw, hr]
          exact ⟨rfl, rfl⟩
        · rcases masterStep_workers hstaged hstep with heq | ⟨k₁, hk₁, heq⟩
          · rw [heq]
            exact hrest
          · rw [heq]
            exact hcons k₁ hk₁
      | writer =>
        simp only [partStep, Option.map_eq_some_iff] at hstep
        obtain ⟨⟨q, wr⟩, hwriter, rfl⟩ := hstep
        obtain ⟨hworkers, hgo⟩ := writerStep_workers hwriter
        refine ⟨writerStep_linear hlinear hwriter, ?_⟩
        simp only [addWorker, hworkers]
        exact hcons _ (hstaged.writer hgo)
      | reader =>
        simp only [partStep, Option.map_eq_some_iff] at hstep
        obtain ⟨⟨q, r⟩, hreader, rfl⟩ := hstep
        obtain ⟨hworkers, hgo⟩ := readerStep_workers hreader
        refine ⟨readerStep_linear hlinear hreader, ?_⟩
        simp only [addWorker, hworkers]
        exact hcons _ (hstaged.reader hgo)
    · cases hstep

theorem run_placed (n : Int) (as : List Action) : (run n as).Placed :=
  Machine.exec_invariant (M := machine n) (P := Placed) (fun _ _ _ h hs => step_placed h hs) as placed_new

theorem transit_zero (h : p.transit x = 0) : (∀ b ∈ p.chans, x ∉ b) ∧ x ∉ p.held := by
  simp only [transit, Nat.add_eq_zero_iff, List.sum_eq_zero_iff_forall_eq_nat, List.mem_map, forall_exists_index, and_imp,
    forall_apply_eq_imp_iff₂, List.count_eq_zero] at h
  refine ⟨h.1.1, ?_⟩
  simp only [held, List.mem_append, List.mem_flatMap, not_or, not_exists, not_and]
  exact ⟨h.1.2, h.2⟩

/-- In every run an item is given at most one signal for each time it is acquired, no signal finds
the channel of its item full, and an item in the pool is in no queue and in no hand. -/
theorem work_signalled_once (n : Int) (as : List Action) :
    (∀ (w : Nat) (v : PipelineWork), (run n as).works[w]? = some v → v.signals ≤ 1) ∧ (run n as).jammed = false ∧
    ∀ w ∈ (run n as).workPool, (∀ b ∈ (run n as).chans, w ∉ b) ∧ w ∉ (run n as).held := by
  have h := (run_placed n as).linear
  refine ⟨fun w v hv => ?_, h.jammed, fun w hw => ?_⟩
  · exact (h.one w v.done v.signals (by simp [status, hv])).2.1
  · have hpos : 0 < (run n as).workPool.count w := count_pos_iff.mpr hw
    obtain ⟨v, hv⟩ := h.exists_work (w := w) (by omega)
    have hone := (h.one w v.done v.signals (by simp [status, hv])).1
    exact transit_zero (by omega)

end Pipeline

end Fasthttp
