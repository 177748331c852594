import Fasthttp.Client.Order

/-!
# Queued items are served

A worker that stops because of its idle timer leaves the channels in place, and `init` starts no other worker while
they are there.
-/

namespace Fasthttp

open List

namespace PipelineWriter

def source : PipelineWriter → Option (Option Nat)
  | .picks l | .sleeps l | .has l _ | .skips l _ | .pushes l _ | .stalls l _ => some l.chW
  | _ => none

end PipelineWriter

def PipelineReader.source : PipelineReader → Option (Option Nat)
  | .picks chR | .sleeps chR | .has chR _ | .tells chR _ => some chR
  | _ => none

namespace PipelineWorker

def leaving (k : PipelineWorker) : Bool :=
  match k.master with
  | .waits => decide (k.writer = .ended false)
  | .waitsR err | .drains err | .takes err | .tells err _ => !err
  | .checks => true
  | .dials | .waitsW _ => false

/-- The worker takes the items of the channel: its writer now or after a restart, or its reader or
the worker itself what was written. -/
def Serves (p : Pipeline) (k : PipelineWorker) (x : Nat) : Prop :=
  (k.leaving = false ∧ k.writer.source.getD p.chW = some x) ∨ (k.master ≠ .checks ∧ k.reader.source.getD p.chR = some x)

def Honest (k : PipelineWorker) : Prop :=
  match k.master with
  | .waits => k.stopW = false ∧ k.stopR = false ∧ k.reader ≠ .ended false ∧ ∀ w, k.writer ≠ .fails w false
  | .waitsW err => err = true
  | _ => True

end PipelineWorker

namespace Pipeline

variable {p p' : Pipeline} {k : PipelineWorker} {w : Nat} {n : Int} {e : PipelineEvent}

/-! ## Steps that bring no request -/

structure Fewer (p p' : Pipeline) : Prop where
  length : p'.chans.length = p.chans.length
  requests : p.buf (some 1) = [] → p'.buf (some 1) = []

theorem Fewer.refl (p : Pipeline) : Fewer p p := ⟨rfl, id⟩

theorem Fewer.pop (p : Pipeline) (ch : Option Nat) : Fewer p (p.pop ch) := by
  refine ⟨by cases ch <;> simp [Pipeline.pop], fun h => ?_⟩
  by_cases hch : ch = some 1
  · subst hch
    change ((p.chans.set 1 (p.buf (some 1)).tail)[1]?.getD []) = []
    rw [h, getElem?_set_self']
    cases p.chans[1]? <;> rfl
  · rw [buf_pop_ne hch, h]

theorem Fewer.push {ch : Option Nat} (hch : ch ≠ some 1) (w : Nat) : Fewer p (p.push ch w) :=
  ⟨by cases ch <;> simp [Pipeline.push], fun h => by rw [buf_push_ne hch, h]⟩

theorem Fewer.tell (p : Pipeline) (w : Nat) : Fewer p (p.tell w) :=
  ⟨by unfold Pipeline.tell; split <;> rfl, fun h => by rw [buf_tell, h]⟩

theorem Fewer.write (p : Pipeline) (conn w : Nat) : Fewer p (p.write conn w) := by
  unfold Pipeline.write
  split <;> exact ⟨rfl, id⟩

theorem Fewer.read {conn : Nat} {body : Option Bool} (h : p.read conn w body = some p') : Fewer p p' := by
  unfold Pipeline.read at h
  split at h
  · split at h <;> cases h
    exact ⟨rfl, id⟩
  · cases h

theorem writerStep_fewer {w₀ wr : PipelineWriter} (huses : w₀.Uses) (hstep : p.writerStep n k e w₀ = some (p', wr)) : Fewer p p' := by
  cases w₀ <;> simp only [writerStep, PipelineWriter.Uses] at hstep huses <;>
    grind [Fewer.refl, Fewer.pop, Fewer.push, Fewer.tell, Fewer.write]

theorem readerStep_fewer {r₀ r : PipelineReader} (hstep : p.readerStep k e r₀ = some (p', r)) : Fewer p p' := by
  cases r₀ <;> simp only [readerStep] at hstep <;> grind [Fewer.refl, Fewer.pop, Fewer.tell, Fewer.read, Option.map_eq_some_iff]

theorem writerStep_ends {w₀ wr : PipelineWriter} (hstep : p.writerStep n k e w₀ = some (p', wr)) :
    (wr = .ended false → (∃ l, w₀ = .sleeps l ∧ e = .idle) ∨ k.stopW = true ∨ ∃ w, w₀ = .fails w false) ∧
    ∀ w, wr = .fails w false → k.stopW = true := by
  cases w₀ with
  | fails w err =>
    cases hstep
    refine ⟨fun hwr => .inr (.inr ⟨w, ?_⟩), by simp⟩
    rw [PipelineWriter.ended.injEq] at hwr
    rw [hwr]
  | _ =>
    simp only [writerStep] at hstep
    grind

theorem readerStep_ends {r₀ r : PipelineReader} (hstep : p.readerStep k e r₀ = some (p', r)) (hr : r = .ended false) :
    k.stopR = true := by
  cases r₀ <;> simp only [readerStep] at hstep <;> grind [Option.map_eq_some_iff]

end Pipeline

namespace PipelineCaller

def enqueues (n : Int) (p : Pipeline) (e : PipelineEvent) : PipelineCaller → Bool
  | .sends _ _ | .resends _ => p.room n p.chW
  | .blocks _ _ => decide (e = .send)
  | _ => false

end PipelineCaller

namespace Pipeline

variable {p p' : Pipeline} {k : PipelineWorker} {w : Nat} {n : Int} {e : PipelineEvent}

theorem Fewer.acquire (p : Pipeline) (i : Nat) (call : PipelineCall) : Fewer p (p.acquirePipelineWork i call).2 := by
  unfold acquirePipelineWork
  split
  · split <;> exact ⟨rfl, id⟩
  · exact ⟨rfl, id⟩

theorem callerStep_fewer {i : Nat} {c : PipelineCaller} (hinits : ∀ d, c ≠ .inits d) (hstep : p.callerStep n i e c = some p') :
    p'.chans.length = p.chans.length ∧ (c.enqueues n p e = false → p.buf (some 1) = [] → p'.buf (some 1) = []) := by
  have hpush : ∀ ch w, (p.push ch w).chans.length = p.chans.length := fun ch w => by cases ch <;> simp [push]
  have hfewer {q : Pipeline} (hq : Fewer p q) (c' : PipelineCaller) : (q.addCaller c').chans.length = p.chans.length ∧
      (c.enqueues n p e = false → p.buf (some 1) = [] → (q.addCaller c').buf (some 1) = []) := ⟨hq.length, fun _ => hq.requests⟩
  cases c <;> simp only [callerStep] at hstep <;> (repeat' split at hstep) <;> cases hstep
  all_goals try exact absurd rfl (hinits _)
  all_goals try exact ⟨rfl, fun _ => id⟩
  all_goals try exact ⟨hpush _ _, fun hquiet => by simp_all [PipelineCaller.enqueues]⟩
  · exact hfewer (Fewer.acquire p i _) _
  · exact hfewer (Fewer.pop p p.chW) _
  · exact hfewer (Fewer.tell p _) _

theorem masterStep_fewer (hhonest : k.Honest) (hdrop : k.master = .checks → p.buf p.chR = [] ∧ p.buf p.chW = [])
    (hstep : p.masterStep k e = some p') :
    (p' = p ∧ k.master = .checks) ∨
    ∃ q k', p' = q.addWorker k' ∧ q.workers = p.workers ∧ Fewer p q ∧ k'.Honest ∧ (k.leaving = false → k'.leaving = false) := by
  unfold masterStep at hstep
  unfold PipelineWorker.Honest at hhonest
  rcases hk : k.master with _ | _ | err | err | err | err | ⟨err, w⟩ | _ <;> rw [hk] at hstep hhonest <;> simp only at hstep hhonest
  case checks =>
    obtain ⟨hr, hw⟩ := hdrop hk
    simp only [hr, hw, isEmpty_nil, Bool.and_self, if_true, Option.some.injEq] at hstep
    exact .inl ⟨hstep.symm, rfl⟩
  all_goals (repeat' split at hstep) <;> cases hstep
  · exact .inr ⟨p, k, rfl, rfl, .refl p, by simp [PipelineWorker.Honest, hk], id⟩
  · exact .inr ⟨_, _, rfl, rfl, ⟨rfl, id⟩, by simp [PipelineWorker.Honest], fun _ => by simp [PipelineWorker.leaving]⟩
  · rename_i err hended
    exact .inr ⟨p, _, rfl, rfl, .refl p, trivial, by cases err <;> simp [PipelineWorker.leaving, hk, hended]⟩
  · rename_i err hended
    refine .inr ⟨p, _, rfl, rfl, .refl p, ?_, fun _ => rfl⟩
    cases err
    · exact absurd hended hhonest.2.2.1
    · rfl
  · exact .inr ⟨p, _, rfl, rfl, .refl p, trivial, by simp [PipelineWorker.leaving, hk]⟩
  · exact .inr ⟨p, _, rfl, rfl, .refl p, trivial, by simp [PipelineWorker.leaving, hhonest]⟩
  · exact .inr ⟨p, _, rfl, rfl, .refl p, trivial, by simp [PipelineWorker.leaving]⟩
  · exact .inr ⟨p, _, rfl, rfl, .refl p, trivial, by simp_all [PipelineWorker.leaving]⟩
  · exact .inr ⟨p, _, rfl, rfl, .refl p, trivial, by simp [PipelineWorker.leaving, hk]⟩
  · exact .inr ⟨_, _, rfl, workers_pop _ _, .pop _ _, trivial, by simp [PipelineWorker.leaving, hk]⟩
  · exact .inr ⟨_, _, rfl, workers_tell _ _, .tell _ _, trivial, by simp [PipelineWorker.leaving, hk]⟩

theorem writerStep_honest {wr : PipelineWriter} (hhonest : k.Honest) (hstep : p.writerStep n k e k.writer = some (p', wr)) :
    PipelineWorker.Honest { k with writer := wr } := by
  obtain ⟨-, hfails⟩ := writerStep_ends hstep
  unfold PipelineWorker.Honest at hhonest ⊢
  rcases hk : k.master with _ | _ | err | err | err | err | ⟨err, w⟩ | _ <;> simp only [hk] at hhonest ⊢
  case waits => exact ⟨hhonest.1, hhonest.2.1, hhonest.2.2.1, fun w hw => by simp [hfails w hw] at hhonest⟩
  case waitsW => exact hhonest

theorem readerStep_honest {r : PipelineReader} (hhonest : k.Honest) (hstep : p.readerStep k e k.reader = some (p', r)) :
    PipelineWorker.Honest { k with reader := r } := by
  have hends := readerStep_ends hstep
  unfold PipelineWorker.Honest at hhonest ⊢
  rcases hk : k.master with _ | _ | err | err | err | err | ⟨err, w⟩ | _ <;> simp only [hk] at hhonest ⊢
  case waits => exact ⟨hhonest.1, hhonest.2.1, fun hr => by simp [hends hr] at hhonest, hhonest.2.2.2⟩
  case waitsW => exact hhonest

/-- No idle timer fires beside a request, and a request comes only to a worker that stays. -/
def Attended (n : Int) (p : Pipeline) (a : Action) : Prop :=
  (∀ s ∈ p.idleStop a, p.buf s.2.chW = []) ∧
  match a with
  | .caller c _ e => ∀ t ∈ p.callers[c]?, t.enqueues n p e = true → ∃ k ∈ p.workers, k.leaving = false
  | _ => True

instance (n : Int) (p : Pipeline) : ∀ a, Decidable (p.Attended n a)
  | .caller _ _ _ => inferInstanceAs (Decidable (_ ∧ ∀ t ∈ _, _))
  | .call _ | .worker _ _ _ => inferInstanceAs (Decidable (_ ∧ True))

structure Tended (p : Pipeline) : Prop where
  single : p.Single
  length : p.chans.length ≤ 2
  honest : ∀ k ∈ p.workers, k.Honest
  requests : p.buf (some 1) ≠ [] → ∃ k ∈ p.workers, k.leaving = false
  responses : p.buf (some 0) ≠ [] → p.workers ≠ []

theorem tended_new : new.Tended := ⟨single_new, by simp [new], by simp [new], by simp [new, buf], by simp [new, buf]⟩

namespace Tended

theorem noDrop (h : p.Tended) (a : Action) : p.NoDrop a := by
  cases a with
  | worker g part e =>
    cases part with
    | master =>
      intro k hk hchecks
      obtain ⟨⟨hR, hW⟩, -, honly, horder⟩ := h.single.only hk
      rw [hR, hW]
      refine ⟨horder.clean (.inr hchecks), Classical.byContradiction fun hne => ?_⟩
      obtain ⟨k', hk', hleaving⟩ := h.requests hne
      rw [honly, mem_singleton] at hk'
      simp [hk', PipelineWorker.leaving, hchecks] at hleaving
    | writer => trivial
    | reader => trivial
  | call call => trivial
  | caller c i e => trivial

theorem of_worker {q : Pipeline} {k' : PipelineWorker} (h : p.Tended) (honly : p.workers = [k]) (hsingle : (q.addWorker k').Single)
    (hworkers : q.workers = []) (hfewer : Fewer { p with workers := [] } q) (hhonest : k'.Honest)
    (hleaving : p.buf (some 1) ≠ [] → k.leaving = false → k'.leaving = false) : (q.addWorker k').Tended where
  single := hsingle
  length := hfewer.length ▸ h.length
  honest k₁ hk₁ := by
    rw [addWorker, hworkers, mem_singleton] at hk₁
    exact hk₁ ▸ hhonest
  requests hne := by
    have hold : p.buf (some 1) ≠ [] := fun hnil => hne (hfewer.requests hnil)
    obtain ⟨k₀, hk₀, hstays⟩ := h.requests hold
    rw [honly, mem_singleton] at hk₀
    exact ⟨k', mem_cons_self, hleaving hold (hk₀ ▸ hstays)⟩
  responses _ := cons_ne_nil _ _

theorem init (h : p.Tended) : p.init.Tended := by
  have hsingle := init_single h.single
  rcases h.single.shape with ⟨hR, hW, hchans, hworkers⟩ | ⟨hR, hW⟩
  · have hinit : p.init = { p with chR := some 0, chW := some 1, chans := [[], []], workers := [worker] } := by
      simp [Pipeline.init, hR, hW, hchans, hworkers, addWorker]
    rw [hinit] at hsingle ⊢
    refine ⟨hsingle, Nat.le_refl _, ?_, fun hne => absurd rfl hne, fun hne => absurd rfl hne⟩
    simp [worker, PipelineWorker.Honest]
  · have hinit : p.init = p := by simp [Pipeline.init, hR]
    rw [hinit]
    exact h

end Tended

theorem step_tended {a : Action} (hplaced : p.Placed) (h : p.Tended) (hgood : p.Attended n a) (hstep : p.step n a = some p') :
    p'.Tended := by
  have hsingle := step_single hplaced h.single (h.noDrop a) hstep
  cases a with
  | call call =>
    cases hstep
    exact ⟨hsingle, h.length, h.honest, h.requests, h.responses⟩
  | caller c i e =>
    simp only [step] at hstep
    split at hstep
    · rename_i t ht
      by_cases hinits : ∃ d, t = .inits d
      · obtain ⟨call, rfl⟩ := hinits
        have hinit : (Pipeline.init { p with callers := p.callers.eraseIdx c }).Tended :=
          Tended.init ⟨h.single.eraseCaller c, h.length, h.honest, h.requests, h.responses⟩
        simp only [callerStep] at hstep
        split at hstep
        · split at hstep <;> cases hstep
          exact hinit
        · cases hstep
          exact ⟨hsingle, hinit.length, hinit.honest, hinit.requests, hinit.responses⟩
      · have hinits : ∀ d, t ≠ .inits d := fun d hd => hinits ⟨d, hd⟩
        have hW : p.chW ≠ some 0 := by
          rcases h.single.shape with ⟨-, hW, -, -⟩ | ⟨-, hW⟩ <;> simp [hW]
        have hframe := callerStep_frame (p := { p with callers := p.callers.eraseIdx c }) hW
          (h.single.callers t (mem_of_getElem? ht)) hinits hstep
        obtain ⟨hlength, hrequests⟩ := callerStep_fewer hinits hstep
        have hworkers : p'.workers = p.workers := hframe.workers
        refine ⟨hsingle, hlength ▸ h.length, hworkers ▸ h.honest, fun hne => ?_, fun hne => ?_⟩
        · rw [hworkers]
          -- a request was there before, or it is the caller's
          by_cases hnil : p.buf (some 1) = []
          · rcases henq : t.enqueues n p e with _ | _
            · exact absurd (hrequests henq hnil) hne
            · exact hgood.2 t ht henq
          · exact h.requests hnil
        · rw [hworkers]
          exact h.responses (hframe.buf ▸ hne)
    · cases hstep
  | worker g part e =>
    simp only [step] at hstep
    split at hstep
    · rename_i k hk
      obtain ⟨-, rfl, honly, horder⟩ := h.single.only hk
      have hhonest := h.honest k (mem_of_getElem? hk)
      have hnil : p.workers.eraseIdx 0 = [] := by rw [honly]; rfl
      rw [hnil] at hstep
      replace hstep := workerStep_part hstep
      cases part with
      | master =>
        rcases masterStep_fewer (p := { p with workers := [] }) hhonest (fun hm => h.noDrop (.worker 0 .master e) k hk hm) hstep with
          ⟨rfl, hchecks⟩ | ⟨q, k', rfl, hworkers, hfewer, hhonest', hleaving⟩
        · obtain ⟨hR, hW⟩ := h.noDrop (.worker 0 .master e) k hk hchecks
          obtain ⟨⟨hchR, hchW⟩, -⟩ := h.single.only hk
          rw [hchR] at hR
          rw [hchW] at hW
          exact ⟨hsingle, h.length, by simp, fun hne => absurd hW hne, fun hne => absurd hR hne⟩
        · exact h.of_worker honly hsingle hworkers hfewer hhonest' fun _ => hleaving
      | writer =>
        simp only [partStep, Option.map_eq_some_iff] at hstep
        obtain ⟨⟨q, wr⟩, hwriter, rfl⟩ := hstep
        obtain ⟨hworkers, -⟩ := writerStep_workers hwriter
        refine h.of_worker honly hsingle hworkers (writerStep_fewer horder.writer hwriter) (writerStep_honest hhonest hwriter) ?_
        intro hne hleaving
        obtain ⟨hends, -⟩ := writerStep_ends hwriter
        unfold PipelineWorker.Honest at hhonest
        unfold PipelineWorker.leaving at hleaving ⊢
        rcases hm : k.master with _ | _ | err | err | err | err | ⟨err, w⟩ | _ <;> simp only [hm] at hhonest hleaving ⊢
        case waits =>
          simp only [decide_eq_false_iff_not]
          intro hwr
          rcases hends hwr with ⟨l, hl, rfl⟩ | hstop | ⟨w, hw⟩
          · have hchan : l.chW = some 1 := by
              have := horder.writer
              rw [hl] at this
              exact this.2
            exact hne (hchan ▸ hgood.1 (k, l) (by simp [idleStop, hk, hl, PipelineWriter.asleep]))
          · simp [hhonest.1] at hstop
          · exact hhonest.2.2.2 w hw
        all_goals exact hleaving
      | reader =>
        simp only [partStep, Option.map_eq_some_iff] at hstep
        obtain ⟨⟨q, r⟩, hreader, rfl⟩ := hstep
        obtain ⟨hworkers, -⟩ := readerStep_workers hreader
        exact h.of_worker honly hsingle hworkers (readerStep_fewer hreader) (readerStep_honest hhonest hreader) fun _ => id
    · cases hstep

theorem run_tended (as : List Action) (h : (machine n).Along (Attended n) new as) : (run n as).Tended :=
  (Machine.exec_along (M := machine n) (P := fun p => p.Placed ∧ p.Tended)
    (fun _ _ _ hp hgood hs => ⟨step_placed hp.1 hs, step_tended hp.1 hp.2 hgood hs⟩) as ⟨placed_new, tended_new⟩ h).2

theorem Tended.serves (h : p.Tended) {x : Nat} (hw : w ∈ p.buf (some x)) : ∃ k ∈ p.workers, k.Serves p x := by
  have hlt : x < p.chans.length := by
    rcases hb : p.chans[x]? with _ | b
    · simp [buf, hb] at hw
    · exact (List.getElem?_eq_some_iff.mp hb).1
  have hle := h.length
  rcases (by omega : x = 0 ∨ x = 1) with rfl | rfl
  · -- an item between the writer and the reader
    obtain ⟨k, ks, hks⟩ := exists_cons_of_ne_nil (h.responses (ne_nil_of_mem hw))
    obtain ⟨⟨hR, -⟩, -, -, horder⟩ := h.single.only (g := 0) (k := k) (by simp [hks])
    refine ⟨k, by simp [hks], .inr ⟨fun hchecks => ?_, ?_⟩⟩
    · simp [horder.clean (.inr hchecks)] at hw
    · have := horder.reader
      cases hr : k.reader <;> simp_all [PipelineReader.source, PipelineReader.Uses]
  · obtain ⟨k, hk, hleaving⟩ := h.requests (ne_nil_of_mem hw)
    obtain ⟨g, hg⟩ := getElem?_of_mem hk
    obtain ⟨⟨-, hW⟩, -, -, horder⟩ := h.single.only hg
    refine ⟨k, hk, .inl ⟨hleaving, ?_⟩⟩
    have := horder.writer
    cases hr : k.writer <;> simp_all [PipelineWriter.source, PipelineWriter.Uses]

/-- As long as no idle timer fires beside a request and no caller enqueues while the worker is on its
way out, every queued item is in a channel that a worker serves, so also one that a caller waits for. -/
theorem waiting_served (n : Int) (as : List Action) (h : (machine n).Along (Attended n) new as) (w x : Nat)
    (hqueued : w ∈ (run n as).buf (some x)) : ∃ k ∈ (run n as).workers, k.Serves (run n as) x :=
  (run_tended as h).serves hqueued

def queued : List Action :=
  [.call {}, .caller 0 0 .ok, .worker 0 .master .ok, .worker 0 .writer .ok, .worker 0 .writer .ok, .worker 0 .writer .ok,
   .caller 0 0 .ok, .caller 0 0 .ok]

theorem waiting_served_queued : (machine 0).Along (Attended 0) new queued ∧
    PipelineCaller.waits false 0 ∈ (run 0 queued).callers ∧ 0 ∈ (run 0 queued).buf (some 1) ∧
    ∃ k ∈ (run 0 queued).workers, k.Serves (run 0 queued) 1 :=
  ⟨by decide +kernel, by decide +kernel, by decide +kernel,
    waiting_served 0 queued (by decide +kernel) 0 1 (by decide +kernel)⟩

def unattended : List Action :=
  inFlight ++ [.worker 0 .reader .ok, .worker 0 .reader .ok, .caller 0 0 .recv,
    .worker 0 .writer .idle, .worker 0 .master .recv, .worker 0 .reader .ok, .worker 0 .reader .stop,
    .worker 0 .master .ok, .worker 0 .master .ok, .worker 0 .master .ok,
    .call {}, .caller 0 0 .ok, .caller 0 0 .ok, .caller 0 0 .ok]

theorem waiting_stranded : (run 0 unattended).callers = [.waits false 0] ∧ (run 0 unattended).buf (some 1) = [0] ∧
    (run 0 unattended).workers = [] := by
  decide +kernel

end Pipeline

end Fasthttp
