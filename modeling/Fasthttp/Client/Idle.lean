import Fasthttp.Client.Waiters

/-!
# An idle connection beside a waiter

The pool looks for an idle connection and puts a waiter into the queue in two sections, and it takes the length of the
queue for the number of its waiters.
-/

namespace Fasthttp

namespace Pool

variable {cfg : PoolConfig}

variable {p p' : Pool} {t : Task} {w : Nat}

/-- No connection is idle beside a queued waiter without an answer whose timer has not fired. -/
def NoIdleBeside (p : Pool) : Prop := ¬ (p.conns ≠ [] ∧ ∃ w ∈ p.connsWait.items, p.waiting w = true ∧ p.late w = false)

instance (p : Pool) : Decidable p.NoIdleBeside := inferInstanceAs (Decidable (¬ _))

def AllDead (p : Pool) : Prop := ∀ w ∈ p.connsWait.items, p.dead w = true

theorem noIdleBeside_iff : p.NoIdleBeside ↔ p.conns = [] ∨ p.AllDead := by
  have hdead : ∀ w, p.dead w = true ↔ ¬ (p.waiting w = true ∧ p.late w = false) := by
    intro w
    rcases hw : p.waiting w with _ | _ <;> simp [dead, hw]
  simp only [AllDead, hdead]
  constructor
  · intro h
    rcases hc : p.conns with _ | ⟨c, cs⟩
    · exact .inl rfl
    · exact .inr fun w hw halive => h ⟨by simp [hc], w, hw, halive⟩
  · rintro (hnil | hall) ⟨hne, w, hw, halive⟩
    · exact hne hnil
    · exact hall w hw halive

structure Calm (p p' : Pool) : Prop where
  conns : p.conns = [] → p'.conns = []
  items : ∀ w ∈ p'.connsWait.items, w ∈ p.connsWait.items
  dead : ∀ w ∈ p'.connsWait.items, p.dead w = true → p'.dead w = true

namespace Calm

theorem keeps (h : Calm p p') (hp : p.NoIdleBeside) : p'.NoIdleBeside := by
  rw [noIdleBeside_iff] at hp ⊢
  rcases hp with hnil | hall
  · exact .inl (h.conns hnil)
  · exact .inr fun w hw => h.dead w hw (hall w (h.items w hw))

theorem only (h : Calm p p') (hp : p.NoIdleBeside) {Q : Prop} (hQ : Q) : p'.NoIdleBeside ↔ Q := iff_of_true (h.keeps hp) hQ

theorem of_eq (hc : p.conns = [] → p'.conns = []) (hq : p'.connsWait = p.connsWait) (hw : p'.waiters = p.waiters) :
    Calm p p' := by
  refine ⟨hc, fun w h => by rwa [hq] at h, fun w _ h => ?_⟩
  simpa [Pool.dead, waiting, late, hw] using h

theorem add (h : Calm p p') (t : Task) : Calm p (p'.add t) := { h with }

theorem set {v : WantConn} (v' : WantConn) (hv : p.waiters[w]? = some v)
    (hdead : (v.ready || v.late) = true → (v'.ready || v'.late) = true) : Calm p (p.setWaiter w v') := by
  refine ⟨id, fun _ h => h, fun u _ h => ?_⟩
  by_cases hu : w = u
  · subst hu
    obtain ⟨hlt, -⟩ := List.getElem?_eq_some_iff.mp hv
    have hset : (p.setWaiter w v').waiters[w]? = some v' := by simp [setWaiter, hlt]
    rw [dead_of_some hv] at h
    rw [dead_of_some hset, hdead h]
  · rwa [dead_setWaiter_ne v' hu]

theorem trans {p'' : Pool} (h : Calm p p') (h' : Calm p' p'') : Calm p p'' :=
  ⟨fun hc => h'.conns (h.conns hc), fun w hw => h.items w (h'.items w hw),
    fun w hw hd => h'.dead w hw (h.dead w (h'.items w hw) hd)⟩

end Calm

theorem acquireConn_calm (cfg : PoolConfig) (p : Pool) : Calm p (p.acquireConn cfg) := by
  unfold acquireConn
  split
  · split
    · exact Calm.of_eq id rfl rfl
    · split
      · exact Calm.of_eq id rfl rfl
      · exact Calm.of_eq id rfl rfl
  · rename_i hconns
    split
    · exact Calm.of_eq (by rw [hconns]; simp) rfl rfl
    · exact Calm.of_eq (by rw [hconns]; simp) rfl rfl

theorem popWaiting_items {accept : Nat → Bool} {q q' : WantConnQueue} {o : Option Nat} {b : Bool}
    (h : q.popWaiting accept = (o, q', b)) : ∀ w ∈ q'.items, w ∈ q.items := by
  have hspec := q.popWaiting_spec accept
  rw [h] at hspec
  intro w hw
  cases hspec with
  | found gone v _ _ hitems =>
    rw [hitems]
    exact List.mem_append_right _ (List.mem_cons_of_mem _ hw)
  | idle => exact hw
  | short _ _ hnil =>
    rw [hnil] at hw
    cases hw

theorem decConnsCount_calm (cfg : PoolConfig) (p : Pool) : Calm p (p.decConnsCount cfg) := by
  unfold decConnsCount
  split
  · exact Calm.of_eq id rfl rfl
  · split
    · rename_i hpop
      exact ⟨id, popWaiting_items hpop, fun _ _ h => h⟩
    · rename_i hpop
      exact ⟨id, popWaiting_items hpop, fun _ _ h => h⟩

theorem tryDeliver_calm (hw : w < p.waiters.length) (conn : Option Nat) : Calm p (p.tryDeliver w conn).1 := by
  rcases tryDeliver_cases hw conn with ⟨v, v', hv, -, heq, hready, -⟩ | ⟨-, heq⟩
  · rw [heq]
    exact Calm.set v' hv fun _ => by simp [hready]
  · rw [heq]
    exact Calm.of_eq id rfl rfl

theorem cancel_calm (w : Nat) (p : Pool) : Calm p (p.cancel w) := by
  unfold cancel
  split
  · exact Calm.of_eq id rfl rfl
  · rename_i v hv
    have hset : Calm p (p.setWaiter w v.cancel.1) := Calm.set _ hv fun _ => rfl
    simp only [WantConn.cancel] at hset ⊢
    rcases v.conn with _ | c
    · exact hset
    · exact hset.add _

theorem releaseConn_calm_iff (hcfg : cfg.waitFreeConnTimeout ≠ 0) (c : Nat) (hq : p.Queued) (hp : p.NoIdleBeside) :
    (p.releaseConn cfg c).NoIdleBeside ↔ 0 < p.connsWait.len ∨ p.AllDead := by
  unfold releaseConn
  rw [if_neg hcfg, accepts_eq]
  rcases hq.pop with ⟨w, q, hpop, hto, hw, hlt, hnot, hqueued, hdrift⟩ | ⟨hpop, hlen⟩
  · simp only [hpop, Bool.or_false]
    have hshrink : Calm p { p with connsWait := q } := ⟨id, popWaiting_items hpop, fun _ _ h => h⟩
    have hlen := len_of_handsTo hto
    exact ⟨fun _ => .inl hlen, fun _ => (hshrink.trans (tryDeliver_calm (p := { p with connsWait := q }) hlt (some c))).keeps hp⟩
  · simp only [hpop, noIdleBeside_iff]
    constructor
    · rintro (hnil | hall)
      · simp at hnil
      · exact .inr hall
    · rintro (hpos | hall)
      · omega
      · exact .inr hall

theorem queueForIdle_calm_iff : p.queueForIdle.NoIdleBeside ↔ p.conns = [] := by
  rw [noIdleBeside_iff]
  constructor
  · rintro (hnil | hall)
    · exact hnil
    · -- the new waiter is alive
      have hnew : p.queueForIdle.waiters[p.waiters.length]? = some .new := by simp [queueForIdle, Pool.add]
      have hdead := hall p.waiters.length (by simp [queueForIdle, Pool.add])
      rw [dead_of_some hnew] at hdead
      cases hdead
  · exact fun hnil => .inl hnil

/-- A waiter is queued only beside an empty idle list, and a connection is released only while the queue's length is
positive or no waiter in it is alive. -/
def prompt (pick : Bool) (p : Pool) : Task → Prop
  | .enqueue => p.conns = []
  | .holds _ => pick = true → 0 < p.connsWait.len ∨ p.AllDead
  | .releases _ => 0 < p.connsWait.len ∨ p.AllDead
  | _ => True

theorem act_calm_iff (hcfg : cfg.waitFreeConnTimeout ≠ 0) {pick : Bool} (hq : (p.add t).Queued)
    (hp : p.NoIdleBeside) (hact : p.act cfg pick t = some p') : p'.NoIdleBeside ↔ p.prompt pick t := by
  cases t
  case closes cs =>
    refine Calm.only ?_ hp trivial
    rcases cs with _ | ⟨c, cs⟩ <;> cases hact
    · exact Calm.of_eq id rfl rfl
    · exact (decConnsCount_calm cfg p).add _
  all_goals
    simp only [act] at hact
    (repeat' split at hact) <;> try cases hact
  case enqueue.refl => exact queueForIdle_calm_iff
  case holds.isTrue.refl hpick => simpa [prompt, hpick] using releaseConn_calm_iff hcfg _ (hq.done (by simp)) hp
  case holds.isFalse.refl hpick => exact Calm.only (Calm.of_eq id rfl rfl) hp (by simp [prompt, hpick])
  case releases.refl => exact releaseConn_calm_iff hcfg _ (hq.done (by simp)) hp
  all_goals refine Calm.only ?_ hp trivial
  · exact acquireConn_calm cfg p
  · rename_i v hv _ _ _ _ _
    exact (Calm.set v.take hv id).add _
  · exact Calm.of_eq id rfl rfl
  · rename_i w _ v hv _ _
    have hset : Calm p (p.setWaiter w v.timeout) := Calm.set _ hv fun _ => by simp [WantConn.timeout]
    exact { hset with }
  iterate 2 exact cancel_calm _ p
  iterate 2 exact Calm.of_eq id rfl rfl
  · exact decConnsCount_calm cfg p
  iterate 3 exact Calm.of_eq id rfl rfl
  all_goals
    obtain ⟨hlt, -⟩ := hq.served _ List.mem_cons_self _ List.mem_cons_self
  · exact (tryDeliver_calm (p := p) hlt none).add _
  all_goals
    rename_i htry
    have hcalm := htry ▸ tryDeliver_calm (p := p) hlt _
  · exact hcalm
  · exact hcalm.add _

def Prompt (p : Pool) : Action → Prop
  | .run i pick => ∀ t, p.tasks[i]? = some t → p.prompt pick t
  | _ => True

theorem step_calm_iff (hcfg : cfg.waitFreeConnTimeout ≠ 0) {a : Action} (hq : p.Queued) (hp : p.NoIdleBeside)
    (hstep : p.step cfg a = some p') : p'.NoIdleBeside ↔ p.Prompt a := by
  cases a with
  | call =>
    cases hstep
    exact Calm.only (Calm.of_eq id rfl rfl) hp trivial
  | closeIdle =>
    cases hstep
    have hcalm : Calm p p.closeIdleConnections := Calm.of_eq (fun _ => rfl) rfl rfl
    exact hcalm.only hp trivial
  | clean expired =>
    cases hstep
    refine Calm.only ?_ hp trivial
    unfold clean
    simp only
    split
    · exact Calm.of_eq id rfl rfl
    · exact Calm.of_eq (fun hnil => by simp [Pool.add, hnil]) rfl rfl
  | run i pick =>
    simp only [step] at hstep
    rcases ht : p.tasks[i]? with _ | t
    · simp [ht] at hstep
    · simp only [ht] at hstep
      have hiff := act_calm_iff hcfg (hq.picked ht) hp hstep
      rw [hiff]
      have hprompt : { p with tasks := p.tasks.eraseIdx i }.prompt pick t ↔ p.prompt pick t := by cases t <;> exact Iff.rfl
      simp [Prompt, ht, hprompt]

/-- There is never an idle connection beside a waiter exactly in the runs of prompt steps. -/
theorem no_idle_beside_iff (cfg : PoolConfig) (hcfg : cfg.waitFreeConnTimeout ≠ 0) (as : List Action) :
    (machine cfg).Always NoIdleBeside new as ↔ (machine cfg).Along Prompt new as :=
  Machine.always_iff_along (M := machine cfg) (I := Queued) (P := NoIdleBeside) (fun _ _ _ h hs => (step_queued h hs).1)
    (fun _ _ _ h hp hs => step_calm_iff hcfg h hp hs) as queued_new (by decide)

theorem no_idle_beside_busy : oneConn.waitFreeConnTimeout ≠ 0 ∧
    ((machine oneConn).Always NoIdleBeside new busy ↔ (machine oneConn).Along Prompt new busy) :=
  ⟨by decide, no_idle_beside_iff oneConn (by decide) busy⟩

def lateQueue : List Action := [.call, .run 0 true, .run 0 true, .call, .run 0 true, .run 1 true, .run 0 true]

theorem idle_beside_waiter : oneConn.waitFreeConnTimeout ≠ 0 ∧ (run oneConn lateQueue).conns = [0] ∧
    (run oneConn lateQueue).connsWait.items = [0] ∧ (run oneConn lateQueue).waiting 0 = true ∧
    (run oneConn lateQueue).late 0 = false ∧ ¬ (run oneConn lateQueue).NoIdleBeside := by
  decide +kernel

end Pool

end Fasthttp
