import Fasthttp.Client.Pool

/-!
# What the pool keeps about its waiters

A waiter in the queue is dead once its timer has fired or it was cancelled.
-/

namespace Fasthttp

open List

namespace Task

def caller : Task → List Nat
  | .waits w | .timedOut w | .failed w => [w]
  | _ => []

def serves : Task → List Nat
  | .dialsFor w | .failsFor w | .delivers w _ => [w]
  | _ => []

def Fits (items : List Nat) (v : WantConn) : Task → Prop
  | .waits w => v.taken = false ∧ v.late = false ∧ (w ∈ items → v.ready = false)
  | .timedOut _ => v.taken = false ∧ v.late = true
  | .failed _ => v.taken = false ∧ v.ready = true
  | _ => True

def pops (pick : Bool) : Task → Bool
  | .gives | .releases _ | .closes (_ :: _) => true
  | .holds _ => pick
  | _ => false

end Task

variable {v : WantConn}

namespace WantConn

theorem tryDeliver_ready (h : v.ready = true) (conn : Option Nat) : v.tryDeliver conn = none := by
  rw [tryDeliver, ← v.answered, if_pos h]

theorem tryDeliver_waiting (h : v.ready = false) (conn : Option Nat) :
    ∃ v', v.tryDeliver conn = some v' ∧ v'.ready = true ∧ v'.taken = false ∧ v'.late = v.late ∧ v'.conn = conn := by
  rw [tryDeliver, ← v.answered, h]
  exact ⟨_, rfl, rfl, rfl, rfl, rfl⟩

end WantConn

namespace Pool

def late (p : Pool) (w : Nat) : Bool := (p.waiters[w]?.map WantConn.late).getD false

def dead (p : Pool) (w : Nat) : Bool := !p.waiting w || p.late w

def drift (p : Pool) : Int := p.connsWait.failedWaiters - p.connsWait.items.countP p.dead

structure Queued (p : Pool) : Prop where
  nodup : p.connsWait.items.Nodup
  inside : ∀ w ∈ p.connsWait.items, w < p.waiters.length
  served : ∀ t ∈ p.tasks, ∀ w ∈ t.serves, w < p.waiters.length ∧ w ∉ p.connsWait.items
  callers : (p.tasks.flatMap Task.caller).Nodup
  fits : ∀ t ∈ p.tasks, ∀ w ∈ t.caller, ∃ v, p.waiters[w]? = some v ∧ t.Fits p.connsWait.items v
  between : ∀ w v, p.waiters[w]? = some v → v.late = true → v.ready = false → .timedOut w ∈ p.tasks
  drift : 0 ≤ p.drift
  popped : p.emptyPop = false

theorem queued_new : new.Queued :=
  ⟨by simp [new], by simp [new], by simp [new], by simp [new], by simp [new], by simp [new], by decide, rfl⟩

@[simp] theorem drift_add (p : Pool) (t : Task) : (p.add t).drift = p.drift := rfl

theorem waiting_of_some {p : Pool} {w : Nat} (h : p.waiters[w]? = some v) : p.waiting w = !v.ready := by
  simp [waiting, h, WantConn.waiting]

theorem dead_of_some {p : Pool} {w : Nat} (h : p.waiters[w]? = some v) : p.dead w = (v.ready || v.late) := by
  simp [dead, waiting_of_some h, late, h]

theorem dead_setWaiter_ne {p : Pool} {w u : Nat} (v : WantConn) (h : w ≠ u) : (p.setWaiter w v).dead u = p.dead u := by
  simp [dead, waiting, late, setWaiter, List.getElem?_set_ne h]

theorem drift_setWaiter {p : Pool} {w : Nat} (v' : WantConn) (hv : p.waiters[w]? = some v)
    (h : w ∈ p.connsWait.items → (v'.ready || v'.late) = (v.ready || v.late)) : (p.setWaiter w v').drift = p.drift := by
  have hset : (p.setWaiter w v').waiters[w]? = some v' := by
    obtain ⟨hlt, -⟩ := List.getElem?_eq_some_iff.mp hv
    simp [setWaiter, hlt]
  have hcount : p.connsWait.items.countP (p.setWaiter w v').dead = p.connsWait.items.countP p.dead := by
    apply countP_congr
    intro u hu
    by_cases huw : w = u
    · subst huw
      rw [dead_of_some hset, dead_of_some hv, h hu]
    · rw [dead_setWaiter_ne v' huw]
  unfold drift
  rw [hcount.symm]
  rfl

theorem countP_update {l : List Nat} (hl : l.Nodup) {f g : Nat → Bool} {w : Nat} (hf : w ∈ l → f w = false) (hg : g w = true)
    (hne : ∀ u, u ≠ w → g u = f u) : l.countP g = l.countP f + if w ∈ l then 1 else 0 := by
  induction l with
  | nil => simp
  | cons u us ih =>
    obtain ⟨hu, hus⟩ := nodup_cons.mp hl
    have ih := ih hus fun hin => hf (mem_cons_of_mem _ hin)
    rw [countP_cons, countP_cons, ih]
    by_cases huw : u = w
    · subst huw
      simp [hg, hf mem_cons_self, hu]
    · simp [hne u huw, Ne.symm huw]
      omega

/-! ## Goroutines come and go -/

variable {p : Pool} {t : Task} {w : Nat} {v : WantConn}

namespace Queued

theorem perm (h : p.Queued) {ts : List Task} (hp : p.tasks.Perm ts) : { p with tasks := ts }.Queued where
  nodup := h.nodup
  inside := h.inside
  served t ht := h.served t (hp.mem_iff.mpr ht)
  callers := (hp.flatMap_right _).nodup_iff.mp h.callers
  fits t ht := h.fits t (hp.mem_iff.mpr ht)
  between w v hv hl hr := hp.mem_iff.mp (h.between w v hv hl hr)
  drift := h.drift
  popped := h.popped

theorem rest (h : (p.add t).Queued) : (p.tasks.flatMap Task.caller).Nodup :=
  (nodup_append.mp (by simpa [Pool.add] using h.callers)).2.1

theorem done (h : (p.add t).Queued) (ht : ∀ w, t ≠ .timedOut w) : p.Queued where
  nodup := h.nodup
  inside := h.inside
  served u hu := h.served u (mem_cons_of_mem _ hu)
  callers := h.rest
  fits u hu := h.fits u (mem_cons_of_mem _ hu)
  between w v hv hl hr := by
    rcases mem_cons.mp (h.between w v hv hl hr) with heq | hmem
    · exact absurd heq.symm (ht w)
    · exact hmem
  drift := h.drift
  popped := h.popped

theorem add (h : p.Queued) (hc : t.caller = [])
    (hs : ∀ w ∈ t.serves, w < p.waiters.length ∧ w ∉ p.connsWait.items) : (p.add t).Queued where
  nodup := h.nodup
  inside := h.inside
  served u hu := by
    rcases mem_cons.mp hu with rfl | hu
    · exact hs
    · exact h.served u hu
  callers := by simpa [Pool.add, hc] using h.callers
  fits u hu := by
    rcases mem_cons.mp hu with rfl | hu
    · simp [hc]
    · exact h.fits u hu
  between w v hv hl hr := mem_cons_of_mem _ (h.between w v hv hl hr)
  drift := h.drift
  popped := h.popped

theorem start (h : p.Queued) (hc : t.caller = []) (hs : t.serves = []) : (p.add t).Queued := h.add hc (by simp [hs])

theorem alone (h : (p.add t).Queued) (hw : t.caller = [w]) {u : Task} (hu : u ∈ p.tasks) : w ∉ u.caller := by
  intro hmem
  have hnodup : ([w] ++ p.tasks.flatMap Task.caller).Nodup := by simpa [Pool.add, hw] using h.callers
  exact (nodup_append.mp hnodup).2.2 w (by simp) w (mem_flatMap.mpr ⟨u, hu, hmem⟩) rfl

theorem turn (h : (p.add t).Queued) (hw : t.caller = [w]) (v' : WantConn) (hv : p.waiters[w]? = some v) (q : WantConnQueue)
    (hq : q.items = p.connsWait.items) (ts : List Task) (hcallers : (ts.flatMap Task.caller).Sublist [w])
    (hts : ∀ u ∈ ts, u.serves = [] ∧ u.Fits p.connsWait.items v') (hlate : v'.late = true → v'.ready = false → .timedOut w ∈ ts)
    (hdrift : 0 ≤ { p.setWaiter w v' with connsWait := q }.drift) :
    { p.setWaiter w v' with connsWait := q, tasks := ts ++ p.tasks }.Queued := by
  obtain ⟨hlt, -⟩ := List.getElem?_eq_some_iff.mp hv
  have hself : (p.waiters.set w v')[w]? = some v' := List.getElem?_set_self hlt
  refine ⟨hq ▸ h.nodup, fun u hu => ?_, forall_mem_append.mpr ⟨fun u hu => ?_, fun u hu => ?_⟩, ?_,
    forall_mem_append.mpr ⟨fun u hu x hx => ?_, fun u hu x hx => ?_⟩, fun x y hy hl hr => ?_, hdrift, h.popped⟩
  · simpa [setWaiter, Pool.add] using h.inside u (hq ▸ hu)
  · simp [(hts u hu).1]
  · simpa [setWaiter, Pool.add, hq] using h.served u (mem_cons_of_mem _ hu)
  · have hold : ([w] ++ p.tasks.flatMap Task.caller).Nodup := by simpa [Pool.add, hw] using h.callers
    rw [flatMap_append]
    exact hold.sublist (hcallers.append_right _)
  · obtain rfl := mem_singleton.mp (hcallers.subset (mem_flatMap_of_mem hu hx))
    exact ⟨v', hself, hq ▸ (hts u hu).2⟩
  · have hne : w ≠ x := fun heq => h.alone hw hu (heq ▸ hx)
    obtain ⟨y, hy, hfit⟩ := h.fits u (mem_cons_of_mem _ hu) x hx
    exact ⟨y, by rw [← hy]; exact List.getElem?_set_ne hne, hq ▸ hfit⟩
  · by_cases hx : w = x
    · subst hx
      obtain rfl := Option.some.inj (hself.symm.trans hy)
      exact mem_append_left _ (hlate hl hr)
    · have hy' : p.waiters[x]? = some y := by rw [← hy]; exact (List.getElem?_set_ne hx).symm
      rcases mem_cons.mp (h.between x y hy' hl hr) with rfl | hmem
      · exact absurd (List.cons.inj hw).1.symm hx
      · exact mem_append_right _ hmem

theorem leave (h : (p.add t).Queued) (hw : t.caller = [w]) (v' : WantConn) (hv : p.waiters[w]? = some v)
    (hready : v'.ready = true) (hdead : w ∈ p.connsWait.items → (v'.ready || v'.late) = (v.ready || v.late)) :
    (p.setWaiter w v').Queued := by
  refine h.turn hw v' hv p.connsWait rfl [] (nil_sublist _) (by simp) (by simp [hready]) ?_
  exact (drift_setWaiter v' hv hdead).symm ▸ h.drift

theorem answer (h : p.Queued) {v' : WantConn} (hv : p.waiters[w]? = some v) (hw : w ∉ p.connsWait.items)
    (hready : v'.ready = true) (htaken : v'.taken = false) (hlate : v'.late = v.late) : (p.setWaiter w v').Queued where
  nodup := h.nodup
  inside u hu := by
    simp only [setWaiter, length_set]
    exact h.inside u hu
  served u hu := by
    simp only [setWaiter, length_set]
    exact h.served u hu
  callers := h.callers
  fits u hu x hx := by
    obtain ⟨y, hy, hfit⟩ := h.fits u hu x hx
    by_cases hwx : w = x
    · subst hwx
      obtain ⟨hlt, -⟩ := List.getElem?_eq_some_iff.mp hv
      rw [hv, Option.some.injEq] at hy
      subst hy
      refine ⟨v', List.getElem?_set_self hlt, ?_⟩
      -- its caller goes on as before: late or not, and not in the queue
      cases u with
      | waits u =>
        simp only [Task.caller, mem_singleton] at hx
        subst hx
        exact ⟨htaken, by rw [hlate]; exact hfit.2.1, fun hin => absurd hin hw⟩
      | timedOut u => exact ⟨htaken, by rw [hlate]; exact hfit.2⟩
      | failed u => exact ⟨htaken, hready⟩
      | _ => trivial
    · exact ⟨y, by rw [← hy]; exact List.getElem?_set_ne hwx, hfit⟩
  between x y hy hl hr := by
    by_cases hx : w = x
    · subst hx
      obtain ⟨hlt, -⟩ := List.getElem?_eq_some_iff.mp hv
      simp only [setWaiter, List.getElem?_set_self hlt, Option.some.injEq] at hy
      rw [← hy, hready] at hr
      cases hr
    · exact h.between x y (by rw [← hy]; exact (List.getElem?_set_ne hx).symm) hl hr
  drift := by
    rw [drift_setWaiter _ hv fun hin => absurd hin hw]
    exact h.drift
  popped := h.popped

theorem fire (h : (p.add (.waits w)).Queued) (hv : p.waiters[w]? = some v) :
    ({ p.setWaiter w v.timeout with connsWait := p.connsWait.addFailed 1 }.add (.timedOut w)).Queued ∧
    ({ p.setWaiter w v.timeout with connsWait := p.connsWait.addFailed 1 }.add (.timedOut w)).drift =
      p.drift + if w ∈ p.connsWait.items then 0 else 1 := by
  obtain ⟨hlt, -⟩ := List.getElem?_eq_some_iff.mp hv
  obtain ⟨v₀, hv₀, htaken, hlate, hready⟩ := h.fits _ mem_cons_self w (by simp [Task.caller])
  replace hv₀ : p.waiters[w]? = some v₀ := hv₀
  rw [hv, Option.some.injEq] at hv₀
  subst hv₀
  have hset : (p.setWaiter w v.timeout).waiters[w]? = some v.timeout := by simp [setWaiter, hlt]
  -- in the queue the waiter was alive, and it is there once
  have hcount : p.connsWait.items.countP (p.setWaiter w v.timeout).dead =
      p.connsWait.items.countP p.dead + if w ∈ p.connsWait.items then 1 else 0 := by
    apply countP_update h.nodup
    · intro hin
      rw [dead_of_some hv, hlate, hready hin]
      rfl
    · rw [dead_of_some hset]
      simp [WantConn.timeout]
    · intro u hu
      exact dead_setWaiter_ne _ (Ne.symm hu)
  have hdrift : ({ p.setWaiter w v.timeout with connsWait := p.connsWait.addFailed 1 }.add (.timedOut w)).drift =
      p.drift + if w ∈ p.connsWait.items then 0 else 1 := by
    have hunfold : ({ p.setWaiter w v.timeout with connsWait := p.connsWait.addFailed 1 }.add (.timedOut w)).drift =
      p.connsWait.failedWaiters + 1 - p.connsWait.items.countP (p.setWaiter w v.timeout).dead := rfl
    rw [hunfold, hcount, Pool.drift]
    split <;> omega
  refine ⟨h.turn rfl v.timeout hv (p.connsWait.addFailed 1) rfl [.timedOut w] (Sublist.refl _) ?_
    (fun _ _ => mem_cons_self) ?_, hdrift⟩
  · exact forall_mem_singleton.mpr ⟨rfl, htaken, rfl⟩
  · have hold : 0 ≤ p.drift := h.drift
    refine Int.le_trans ?_ (Int.le_of_eq hdrift.symm)
    split <;> omega

theorem refuse (h : (p.add (.waits w)).Queued) (hv : p.waiters[w]? = some v) (hready : v.ready = true) :
    (p.add (.failed w)).Queued := by
  have hsame : p.setWaiter w v = p := by
    obtain ⟨hlt, rfl⟩ := List.getElem?_eq_some_iff.mp hv
    rw [setWaiter, set_getElem_self]
  obtain ⟨_, hv', htaken, -⟩ := h.fits _ mem_cons_self w mem_cons_self
  obtain rfl := Option.some.inj (hv.symm.trans hv')
  have hturn := h.turn rfl v hv p.connsWait rfl [.failed w] (Sublist.refl _) (forall_mem_singleton.mpr ⟨rfl, htaken, hready⟩)
    (by simp [hready]) (hsame.symm ▸ h.drift)
  rw [hsame] at hturn
  exact hturn

end Queued

def handsTo (p : Pool) : Option Nat := if 0 < p.connsWait.len then p.connsWait.items.find? p.waiting else none

namespace Queued

theorem shrink (h : p.Queued) {q : WantConnQueue} (hq : q.items.Sublist p.connsWait.items)
    (hdrift : 0 ≤ { p with connsWait := q }.drift) : { p with connsWait := q }.Queued where
  nodup := h.nodup.sublist hq
  inside w hw := h.inside w (hq.subset hw)
  served t ht w hw := ⟨(h.served t ht w hw).1, fun hin => (h.served t ht w hw).2 (hq.subset hin)⟩
  callers := h.callers
  fits t ht w hw := by
    obtain ⟨v, hv, hfit⟩ := h.fits t ht w hw
    refine ⟨v, hv, ?_⟩
    cases t with
    | waits u => exact ⟨hfit.1, hfit.2.1, fun hin => hfit.2.2 (hq.subset hin)⟩
    | timedOut u | failed u => exact hfit
    | _ => trivial
  between := h.between
  drift := hdrift
  popped := h.popped

theorem dead_of_passed {gone : List Nat} (hgone : ∀ w ∈ gone, p.waiting w = false) : gone.countP p.dead = gone.length := by
  rw [countP_eq_length]
  intro w hw
  simp [dead, hgone w hw]

theorem pop (h : p.Queued) :
    (∃ w q, p.connsWait.popWaiting p.waiting = (some w, q, false) ∧ p.handsTo = some w ∧ p.waiting w = true ∧
      w < p.waiters.length ∧ w ∉ q.items ∧ { p with connsWait := q }.Queued ∧
      { p with connsWait := q }.drift = p.drift + if p.late w then 1 else 0) ∨
    (p.connsWait.popWaiting p.waiting = (none, p.connsWait, false) ∧ p.connsWait.len ≤ 0) := by
  have hspec := p.connsWait.popWaiting_spec p.waiting
  generalize p.connsWait.popWaiting p.waiting = o at hspec
  cases hspec with
  | found gone w q hlen hitems hgone hw hfailed =>
    left
    have hdead : p.dead w = p.late w := by simp [dead, hw]
    have hdrift : { p with connsWait := q }.drift = p.drift + if p.late w then 1 else 0 := by
      have hq : { p with connsWait := q }.drift = q.failedWaiters - q.items.countP p.dead := rfl
      rw [hq, Pool.drift, hitems, countP_append, countP_cons, dead_of_passed hgone, hdead]
      split <;> omega
    have hsub : q.items.Sublist p.connsWait.items := by
      rw [hitems]
      exact (sublist_cons_self w _).trans (sublist_append_right _ _)
    have hnodup : (gone ++ w :: q.items).Nodup := hitems ▸ h.nodup
    refine ⟨w, q, rfl, ?_, hw, h.inside w (by simp [hitems]), ?_, h.shrink hsub ?_, hdrift⟩
    · rw [handsTo, if_pos hlen, hitems, List.find?_append, List.find?_eq_none.mpr (by simpa using hgone)]
      simp [hw]
    · exact (nodup_cons.mp (nodup_append.mp hnodup).2.1).1
    · rw [hdrift]
      have := h.drift
      split <;> omega
  | idle hlen =>
    right
    exact ⟨rfl, hlen⟩
  | short q hlen hnil hall =>
    -- all waiters in the queue are counted as dead, so that its length is not positive
    have hdrift := h.drift
    rw [Pool.drift, dead_of_passed hall] at hdrift
    rw [WantConnQueue.len_eq] at hlen
    omega

end Queued

theorem handsTo_none (h : p.connsWait.len ≤ 0) : p.handsTo = none := by rw [handsTo, if_neg (by omega)]

theorem len_of_handsTo (h : p.handsTo = some w) : 0 < p.connsWait.len := by
  unfold handsTo at h
  split at h
  · assumption
  · cases h

variable (cfg : PoolConfig)

def handsLate (p : Pool) : Bool := cfg.waitFreeConnTimeout != 0 && p.handsTo.any p.late

theorem decConnsCount_queued (h : p.Queued) :
    (p.decConnsCount cfg).Queued ∧ (p.decConnsCount cfg).drift = p.drift + if p.handsLate cfg then 1 else 0 := by
  unfold decConnsCount handsLate
  split
  · rename_i hcfg
    exact ⟨{ h with }, by simp [hcfg]; rfl⟩
  · rename_i hcfg
    rcases h.pop with ⟨w, q, hpop, hto, hw, hlt, hnot, hq, hdrift⟩ | ⟨hpop, hlen⟩
    · simp only [hpop, hto, Bool.or_false]
      refine ⟨hq.add rfl ?_, ?_⟩
      · intro u hu
        simp only [Task.serves, mem_singleton] at hu
        subst hu
        exact ⟨hlt, hnot⟩
      · rw [drift_add, hdrift]
        simp [hcfg]
    · simp only [hpop, handsTo_none hlen, Bool.or_false]
      exact ⟨{ h with }, by simp; rfl⟩

theorem accepts_eq (p : Pool) (c : Nat) : p.accepts c = p.waiting := by
  funext w
  rcases hv : p.waiters[w]? with _ | v
  · simp [accepts, waiting, hv]
  · rcases hr : v.ready with _ | _
    · obtain ⟨v', hv', -⟩ := WantConn.tryDeliver_waiting hr (some c)
      simp [accepts, hv, hv']
    · simp [accepts, waiting, hv, WantConn.waiting, hr]

theorem tryDeliver_cases (hw : w < p.waiters.length) (conn : Option Nat) :
    (∃ v v', p.waiters[w]? = some v ∧ v.ready = false ∧ p.tryDeliver w conn = (p.setWaiter w v', true) ∧
      v'.ready = true ∧ v'.taken = false ∧ v'.late = v.late ∧ v'.conn = conn) ∨
    (p.waiting w = false ∧ p.tryDeliver w conn = (p, false)) := by
  obtain ⟨v, hv⟩ : ∃ v, p.waiters[w]? = some v := ⟨_, List.getElem?_eq_getElem hw⟩
  unfold tryDeliver
  rcases hr : v.ready with _ | _
  · left
    obtain ⟨v', hv', hprops⟩ := WantConn.tryDeliver_waiting hr conn
    exact ⟨v, v', hv, hr, by simp [hv, hv'], hprops⟩
  · right
    exact ⟨by rw [waiting_of_some hv, hr]; rfl, by simp [hv, WantConn.tryDeliver_ready hr]⟩

theorem tryDeliver_queued (h : p.Queued) (hw : w < p.waiters.length) (hnot : w ∉ p.connsWait.items) (conn : Option Nat) :
    (p.tryDeliver w conn).1.Queued ∧ (p.tryDeliver w conn).1.drift = p.drift := by
  rcases tryDeliver_cases hw conn with ⟨v, v', hv, -, heq, hready, htaken, hlate, -⟩ | ⟨-, heq⟩
  · rw [heq]
    exact ⟨h.answer hv hnot hready htaken hlate, drift_setWaiter _ hv fun hin => absurd hin hnot⟩
  · rw [heq]
    exact ⟨h, rfl⟩

theorem releaseConn_queued (c : Nat) (h : p.Queued) :
    (p.releaseConn cfg c).Queued ∧ (p.releaseConn cfg c).drift = p.drift + if p.handsLate cfg then 1 else 0 := by
  unfold releaseConn handsLate
  rw [accepts_eq]
  split
  · rename_i hcfg
    exact ⟨{ h with }, by simp [hcfg]; rfl⟩
  · rename_i hcfg
    rcases h.pop with ⟨w, q, hpop, hto, hw, hlt, hnot, hq, hdrift⟩ | ⟨hpop, hlen⟩
    · simp only [hpop, hto, Bool.or_false]
      obtain ⟨hqueued, hsame⟩ := tryDeliver_queued hq hlt hnot (some c)
      refine ⟨hqueued, ?_⟩
      rw [hsame, hdrift]
      simp [hcfg]
    · simp only [hpop, handsTo_none hlen, Bool.or_false]
      exact ⟨{ h with }, by simp; rfl⟩

theorem clearFront_queued (h : p.Queued) :
    { p with connsWait := p.connsWait.clearFront p.waiting }.Queued ∧
    { p with connsWait := p.connsWait.clearFront p.waiting }.drift = p.drift := by
  obtain ⟨hrest, hfailed⟩ := p.connsWait.clearFront_spec p.waiting
  have hitems : p.connsWait.items = p.connsWait.items.takeWhile (!p.waiting ·) ++ (p.connsWait.clearFront p.waiting).items := by
    rw [hrest, takeWhile_append_dropWhile]
  have hgone : ∀ w ∈ p.connsWait.items.takeWhile (!p.waiting ·), p.waiting w = false := fun w hw => by simpa using mem_takeWhile_imp hw
  have hdrift : { p with connsWait := p.connsWait.clearFront p.waiting }.drift = p.drift := by
    have hunfold : { p with connsWait := p.connsWait.clearFront p.waiting }.drift =
      (p.connsWait.clearFront p.waiting).failedWaiters - (p.connsWait.clearFront p.waiting).items.countP p.dead := rfl
    have hcount := congrArg (List.countP p.dead) hitems
    rw [countP_append, Queued.dead_of_passed hgone] at hcount
    rw [hunfold, Pool.drift]
    omega
  refine ⟨h.shrink ?_ (by rw [hdrift]; exact h.drift), hdrift⟩
  conv => rhs; rw [hitems]
  exact sublist_append_right _ _

def enqueue (p : Pool) : Pool :=
  { p with connsWait := p.connsWait.pushBack p.waiters.length, waiters := p.waiters ++ [WantConn.new] }.add (.waits p.waiters.length)

theorem enqueue_queued (h : p.Queued) : p.enqueue.Queued ∧ p.enqueue.drift = p.drift := by
  have hnew : p.enqueue.waiters[p.waiters.length]? = some .new := by simp [enqueue, Pool.add]
  have hold : ∀ {u : Nat}, u < p.waiters.length → p.enqueue.waiters[u]? = p.waiters[u]? := List.getElem?_append_left
  have hitems : p.enqueue.connsWait.items = p.connsWait.items ++ [p.waiters.length] := WantConnQueue.items_pushBack _ _
  have hlength : p.enqueue.waiters.length = p.waiters.length + 1 := length_append
  have hfresh : ∀ {u v}, p.waiters[u]? = some v → u < p.waiters.length := fun hv => (List.getElem?_eq_some_iff.mp hv).1
  have hdrift : p.enqueue.drift = p.drift := by
    have hcount : p.connsWait.items.countP p.enqueue.dead = p.connsWait.items.countP p.dead := by
      apply countP_congr
      intro u hu
      have hv := List.getElem?_eq_getElem (h.inside u hu)
      rw [dead_of_some hv, dead_of_some ((hold (h.inside u hu)).trans hv)]
    rw [Pool.drift, hitems, countP_append, hcount, countP_singleton, dead_of_some hnew]
    simp [WantConn.new, Pool.drift, enqueue, Pool.add, WantConnQueue.pushBack]
  refine ⟨⟨?_, ?_, forall_mem_cons.mpr ⟨by simp [Task.serves], fun t ht u hu => ?_⟩, ?_,
    forall_mem_cons.mpr ⟨?_, fun t ht u hu => ?_⟩, fun u v hv hl hr => ?_, hdrift ▸ h.drift, h.popped⟩, hdrift⟩
  · rw [hitems]
    refine nodup_append.mpr ⟨h.nodup, by simp, fun a ha b hb => ?_⟩
    rw [mem_singleton.mp hb]
    exact Nat.ne_of_lt (h.inside a ha)
  · rw [hitems, hlength]
    exact forall_mem_append.mpr ⟨fun u hu => Nat.lt_succ_of_lt (h.inside u hu), by simp⟩
  · obtain ⟨hlt, hnot⟩ := h.served t ht u hu
    simp only [hitems, hlength, mem_append, mem_singleton]
    exact ⟨by omega, by rintro (hin | rfl); exacts [hnot hin, Nat.lt_irrefl _ hlt]⟩
  · refine nodup_append.mpr ⟨by simp [Task.caller], h.callers, fun a ha b hb => ?_⟩
    obtain ⟨t, ht, hat⟩ := mem_flatMap.mp hb
    obtain ⟨v, hv, -⟩ := h.fits t ht b hat
    rw [mem_singleton.mp ha]
    exact (Nat.ne_of_lt (hfresh hv)).symm
  · exact forall_mem_singleton.mpr ⟨.new, hnew, rfl, rfl, fun _ => rfl⟩
  · obtain ⟨v, hv, hfit⟩ := h.fits t ht u hu
    refine ⟨v, (hold (hfresh hv)).trans hv, ?_⟩
    cases t with
    | waits x =>
      obtain rfl := mem_singleton.mp hu
      refine ⟨hfit.1, hfit.2.1, fun hin => ?_⟩
      rw [hitems, mem_append, mem_singleton] at hin
      exact hfit.2.2 (hin.resolve_right (Nat.ne_of_lt (hfresh hv)))
    | timedOut x | failed x => exact hfit
    | _ => trivial
  · rcases Nat.lt_or_ge u p.waiters.length with hlt | hge
    · exact mem_cons_of_mem _ (h.between u v ((hold hlt).symm.trans hv) hl hr)
    · -- the new waiter is not late
      obtain ⟨hu, -⟩ := List.getElem?_eq_some_iff.mp hv
      obtain rfl : u = p.waiters.length := by omega
      obtain rfl := Option.some.inj (hnew.symm.trans hv)
      cases hl

theorem queueForIdle_queued (h : p.Queued) : p.queueForIdle.Queued ∧ p.queueForIdle.drift = p.drift := by
  obtain ⟨hclear, hsame⟩ := clearFront_queued h
  obtain ⟨hpush, hdrift⟩ := enqueue_queued hclear
  exact ⟨hpush, hdrift.trans hsame⟩

theorem cancel_queued (h : (p.add t).Queued) (hw : t.caller = [w]) (hv : p.waiters[w]? = some v)
    (hdead : (v.ready || v.late) = true) : (p.cancel w).Queued ∧ (p.cancel w).drift = p.drift := by
  unfold cancel
  simp only [hv, WantConn.cancel]
  have hset := h.leave hw v.cancel.1 hv rfl fun _ => by rw [hdead]; rfl
  have hsame : (p.setWaiter w v.cancel.1).drift = p.drift := drift_setWaiter _ hv fun _ => by rw [hdead]; rfl
  rcases v.conn with _ | c
  · exact ⟨hset, hsame⟩
  · exact ⟨hset.start rfl rfl, hsame⟩

theorem acquireConn_queued (h : p.Queued) :
    (p.acquireConn cfg).Queued ∧ (p.acquireConn cfg).drift = p.drift := by
  have hkeep : ∀ cs n, { p with conns := cs, connsCount := n }.Queued := fun cs n =>
    { h with }
  unfold acquireConn
  split
  · split
    · exact ⟨(hkeep p.conns _).start rfl rfl, rfl⟩
    · split
      · exact ⟨h, rfl⟩
      · exact ⟨h.start rfl rfl, rfl⟩
  · split
    · exact ⟨(hkeep _ p.connsCount).start rfl rfl, rfl⟩
    · exact ⟨(hkeep _ p.connsCount).start rfl rfl, rfl⟩

/-- `failedWaiters` comes to count a waiter outside the queue: its timer fires after it was popped, or
it is popped alive after its timer. -/
def slips (pick : Bool) (p : Pool) : Task → Bool
  | .waits w => !pick && !decide (w ∈ p.connsWait.items)
  | t => t.pops pick && p.handsLate cfg

theorem act_queued {cfg : PoolConfig} {pick : Bool} {p' : Pool} (h : (p.add t).Queued) (hact : p.act cfg pick t = some p') :
    p'.Queued ∧ p'.drift = p.drift + if p.slips cfg pick t then 1 else 0 := by
  have hdialed : p.Queued → p.dialed.Queued := fun h =>
    { h with }
  cases t
  case closes cs =>
    rcases cs with _ | ⟨c, cs⟩ <;> cases hact
    · exact ⟨h.done (by simp), by simp [slips, Task.pops]⟩
    · obtain ⟨hdec, hdrift⟩ := decConnsCount_queued cfg (h.done (by simp))
      exact ⟨hdec.start rfl rfl, by simpa [slips, Task.pops] using hdrift⟩
  all_goals
    simp only [act] at hact
    (repeat' split at hact) <;> try cases hact
  · simpa [slips, Task.pops] using acquireConn_queued cfg (h.done (by simp))
  · simpa [slips, Task.pops] using queueForIdle_queued (h.done (by simp))
  · -- the waiter has a connection
    rename_i v hv hpick hw _ c _
    refine ⟨(h.leave rfl v.take hv (show v.ready = true by simpa [WantConn.waiting] using hw) fun _ => rfl).start rfl rfl, ?_⟩
    rw [drift_add, drift_setWaiter v.take hv fun _ => rfl]
    simp [slips, hpick]
  · rename_i v hv hpick hw _ _
    exact ⟨h.refuse hv (by simpa [WantConn.waiting] using hw), by simp [slips, hpick]⟩
  · rename_i v hv hpick _
    obtain ⟨hfire, hdrift⟩ := h.fire hv
    refine ⟨hfire, hdrift.trans ?_⟩
    split <;> simp_all [slips]
  · obtain ⟨v, hv, -, hlate⟩ := h.fits _ mem_cons_self _ mem_cons_self
    simpa [slips, Task.pops] using cancel_queued h rfl hv (by simp [hlate])
  · obtain ⟨v, hv, -, hready⟩ := h.fits _ mem_cons_self _ mem_cons_self
    simpa [slips, Task.pops] using cancel_queued h rfl hv (by simp [hready])
  · exact ⟨(hdialed (h.done (by simp))).start rfl rfl, by simp [slips, Task.pops]; rfl⟩
  · exact ⟨(h.done (by simp)).start rfl rfl, by simp [slips, Task.pops]⟩
  · simpa [slips, Task.pops] using decConnsCount_queued cfg (h.done (by simp))
  · simpa [slips, Task.pops, *] using releaseConn_queued cfg _ (h.done (by simp))
  · exact ⟨(h.done (by simp)).start rfl rfl, by simp [slips, Task.pops, *]⟩
  · simpa [slips, Task.pops] using releaseConn_queued cfg _ (h.done (by simp))
  · rename_i c cs
    have h := h.done (by simp)
    have hshut : { p with live := p.live.erase c }.Queued := { h with }
    exact ⟨hshut.start rfl rfl, by simp [slips, Task.pops]; rfl⟩
  · exact ⟨(hdialed (h.done (by simp))).add rfl (h.served (.dialsFor _) mem_cons_self), by simp [slips, Task.pops]; rfl⟩
  · exact ⟨(h.done (by simp)).add rfl (h.served (.dialsFor _) mem_cons_self), by simp [slips, Task.pops]⟩
  all_goals
    obtain ⟨hlt, hnot⟩ := h.served _ mem_cons_self _ mem_cons_self
  · obtain ⟨hdeliver, hdrift⟩ := tryDeliver_queued (h.done (by simp)) hlt hnot none
    exact ⟨hdeliver.start rfl rfl, by simpa [slips, Task.pops] using hdrift⟩
  all_goals
    rename_i htry
    obtain ⟨hdeliver, hdrift⟩ := htry ▸ tryDeliver_queued (h.done (by simp)) hlt hnot _
  · exact ⟨hdeliver, by simpa [slips, Task.pops] using hdrift⟩
  · exact ⟨hdeliver.start rfl rfl, by simpa [slips, Task.pops] using hdrift⟩

theorem Queued.picked (h : p.Queued) {i : Nat} (ht : p.tasks[i]? = some t) :
    ({ p with tasks := p.tasks.eraseIdx i }.add t).Queued := by
  obtain ⟨hlt, rfl⟩ := List.getElem?_eq_some_iff.mp ht
  exact h.perm (getElem_cons_eraseIdx_perm hlt).symm

def Steady (p : Pool) : Action → Prop
  | .run i pick => ∀ t, p.tasks[i]? = some t → p.slips cfg pick t = false
  | _ => True

theorem step_queued {cfg : PoolConfig} {a : Action} {p' : Pool} (h : p.Queued) (hstep : p.step cfg a = some p') :
    p'.Queued ∧ (p.Steady cfg a → p'.drift = p.drift) ∧ (¬ p.Steady cfg a → p'.drift = p.drift + 1) := by
  have hconns : ∀ cs, { p with conns := cs }.Queued := fun cs =>
    { h with }
  cases a with
  | call =>
    cases hstep
    exact ⟨h.start rfl rfl, by simp, by simp [Steady]⟩
  | closeIdle =>
    cases hstep
    exact ⟨(hconns _).start rfl rfl, fun _ => rfl, by simp [Steady]⟩
  | clean expired =>
    cases hstep
    refine ⟨?_, fun _ => ?_, by simp [Steady]⟩
    · unfold clean
      simp only
      split
      · exact h
      · exact (hconns _).start rfl rfl
    · unfold clean
      simp only
      split <;> rfl
  | run i pick =>
    simp only [step] at hstep
    rcases ht : p.tasks[i]? with _ | t
    · simp [ht] at hstep
    · simp only [ht] at hstep
      obtain ⟨hqueued, hdrift⟩ := act_queued (h.picked ht) hstep
      have hsame : { p with tasks := p.tasks.eraseIdx i }.drift = p.drift := rfl
      have hslips : { p with tasks := p.tasks.eraseIdx i }.slips cfg pick t = p.slips cfg pick t := rfl
      have hsteady : p.Steady cfg (.run i pick) ↔ p.slips cfg pick t = false := by simp [Steady, ht]
      rw [hsame, hslips] at hdrift
      rw [hsteady]
      refine ⟨hqueued, fun hs => ?_, fun hs => ?_⟩
      · simpa [hs] using hdrift
      · simpa [hs] using hdrift

/-! ## The count of the waiters -/

def settled (p : Pool) : Bool :=
  p.tasks.all fun
    | .timedOut _ => false
    | _ => true

theorem Queued.dead_eq (h : p.Queued) (hs : p.settled = true) (hw : w < p.waiters.length) : p.dead w = !p.waiting w := by
  obtain ⟨v, hv⟩ : ∃ v, p.waiters[w]? = some v := ⟨_, List.getElem?_eq_getElem hw⟩
  rw [dead_of_some hv, waiting_of_some hv]
  rcases hr : v.ready with _ | _
  · rcases hl : v.late with _ | _
    · rfl
    · have hmem := h.between w v hv hl hr
      have := all_eq_true.mp hs _ hmem
      cases this
  · rfl

theorem Queued.len_iff (h : p.Queued) (hs : p.settled = true) :
    (p.connsWait.len = p.connsWait.items.countP p.waiting ∧
      p.connsWait.failedWaiters = p.connsWait.items.countP fun w => !p.waiting w) ↔ p.drift = 0 := by
  have hdead : p.connsWait.items.countP p.dead = p.connsWait.items.countP fun w => !p.waiting w := by
    apply countP_congr
    intro w hw
    rw [h.dead_eq hs (h.inside w hw)]
  have hsplit := length_eq_countP_add_countP p.waiting (l := p.connsWait.items)
  have hnot : p.connsWait.items.countP (fun w => decide ¬ p.waiting w = true) =
      p.connsWait.items.countP fun w => !p.waiting w := by
    simp
  rw [WantConnQueue.len_eq, Pool.drift]
  omega

theorem run_queued (as : List Action) : (run cfg as).Queued :=
  Machine.exec_invariant (M := machine cfg) (P := Queued) (fun _ _ _ h hs => (step_queued h hs).1) as queued_new

/-- The length of the queue is the number of the waiters in it that wait exactly in the runs of
steady steps. -/
theorem waiter_count_iff (cfg : PoolConfig) (as : List Action) (hs : (run cfg as).settled = true) :
    ((run cfg as).connsWait.len = (run cfg as).connsWait.items.countP (run cfg as).waiting ∧
      (run cfg as).connsWait.failedWaiters = (run cfg as).connsWait.items.countP fun w => !(run cfg as).waiting w) ↔
    (machine cfg).Along (Steady cfg) new as := by
  rw [(run_queued cfg as).len_iff hs]
  have hmeasure := Machine.along_iff_measure (M := machine cfg) (I := Queued) (Steady cfg) Pool.drift
    (fun _ _ _ h hs => (step_queued h hs).1) (fun _ _ _ h hs hg => (step_queued h hs).2.1 hg)
    (fun _ _ _ h hs hg => by rw [(step_queued h hs).2.2 hg]; omega) as queued_new
  rw [hmeasure.2]
  rfl

def oneConn : PoolConfig := ⟨1, .LIFO, 1⟩

def busy : List Action := [.call, .run 0 true, .run 0 true, .call, .run 0 true, .run 0 true]

theorem waiter_count_busy : (run oneConn busy).settled = true ∧
    (((run oneConn busy).connsWait.len = (run oneConn busy).connsWait.items.countP (run oneConn busy).waiting ∧
      (run oneConn busy).connsWait.failedWaiters =
        (run oneConn busy).connsWait.items.countP fun w => !(run oneConn busy).waiting w) ↔
    (machine oneConn).Along (Steady oneConn) new busy) :=
  ⟨by decide +kernel, waiter_count_iff oneConn busy (by decide +kernel)⟩

def lateTimer : List Action := busy ++ [.run 1 false, .run 0 true, .run 2 false, .run 0 true]

theorem waiter_count_drifts : (run oneConn lateTimer).settled = true ∧ (run oneConn lateTimer).connsWait.items = [] ∧
    (run oneConn lateTimer).connsWait.failedWaiters = 1 ∧ (run oneConn lateTimer).connsWait.len = -1 := by
  decide +kernel

end Pool

end Fasthttp
