import Fasthttp.Client.Waiters
import Fasthttp.Lib.Tally

/-!
# Where the connections of the pool are

A connection is idle, held by a goroutine, delivered to a waiter, or being closed.
-/

namespace Fasthttp

open List

namespace Task

def held : Task → List Nat
  | .holds c | .releases c | .delivers _ c => [c]
  | .closes cs | .shuts _ cs => cs
  | _ => []

def closing : Task → List Nat
  | .shuts c _ => [c]
  | _ => []

def dialing : Task → Nat
  | .dials | .gives | .dialsFor _ | .failsFor _ => 1
  | _ => 0

end Task

namespace Pool

variable {t' : Task}

def held (p : Pool) : List Nat := p.tasks.flatMap Task.held

def delivered (p : Pool) : List Nat := p.waiters.flatMap WantConn.pending

def closing (p : Pool) : List Nat := p.tasks.flatMap Task.closing

def dialing (p : Pool) : Nat := (p.tasks.map Task.dialing).sum

def owners (p : Pool) (c : Nat) : Nat := p.conns.count c + p.held.count c + p.delivered.count c + p.closing.count c

def load (m : Nat → Nat) (p : Pool) : Nat :=
  (p.conns.map m).sum + (p.tasks.map fun t => (t.held.map m).sum).sum + (p.waiters.map fun v => (v.pending.map m).sum).sum

def only (c x : Nat) : Nat := if x = c then 1 else 0

theorem sum_one (l : List Nat) : (l.map fun _ => 1).sum = l.length := by simp

theorem sum_only (c : Nat) (l : List Nat) : (l.map (only c)).sum = l.count c := by
  induction l with
  | nil => rfl
  | cons x xs ih =>
    rw [map_cons, sum_cons, count_cons, only]
    simp only [beq_iff_eq]
    omega

theorem sum_flatMap {α : Type} (m : Nat → Nat) (f : α → List Nat) (l : List α) :
    ((l.flatMap f).map m).sum = (l.map fun a => ((f a).map m).sum).sum := by
  induction l with
  | nil => rfl
  | cons a as ih => rw [flatMap_cons, map_append, sum_append, ih, map_cons, sum_cons]

theorem load_eq (m : Nat → Nat) (p : Pool) :
    p.load m = (p.conns.map m).sum + (p.held.map m).sum + (p.delivered.map m).sum := by
  rw [held, delivered, sum_flatMap, sum_flatMap]
  rfl

theorem load_only (p : Pool) (c : Nat) : p.load (only c) + p.closing.count c = p.owners c := by
  rw [load_eq, sum_only, sum_only, sum_only, owners]

variable {p p' : Pool} {t : Task} {w : Nat} {v : WantConn} {cfg : PoolConfig}

@[simp] theorem load_add (m : Nat → Nat) (p : Pool) (t : Task) : (p.add t).load m = p.load m + (t.held.map m).sum := by
  simp only [load, add, map_cons, sum_cons]
  omega

@[simp] theorem dialing_add (p : Pool) (t : Task) : (p.add t).dialing = p.dialing + t.dialing := by
  simp only [dialing, add, map_cons, sum_cons]
  omega

@[simp] theorem closing_add (p : Pool) (t : Task) (c : Nat) :
    (p.add t).closing.count c = p.closing.count c + t.closing.count c := by
  simp only [closing, add, flatMap_cons, count_append]
  omega

@[simp] theorem connsCount_add (p : Pool) (t : Task) : (p.add t).connsCount = p.connsCount := rfl

theorem load_setWaiter (m : Nat → Nat) (v' : WantConn) (hv : p.waiters[w]? = some v) :
    (p.setWaiter w v').load m + (v.pending.map m).sum = p.load m + (v'.pending.map m).sum := by
  have hset := Tally.sum_set (fun v => (v.pending.map m).sum) hv v'
  simp only [load, setWaiter]
  omega

structure Slots (cfg : PoolConfig) (p : Pool) : Prop where
  count : p.connsCount = p.load (fun _ => 1) + p.dialing
  owned : ∀ c, p.load (only c) + p.closing.count c = p.live.count c
  nodup : p.live.Nodup
  fresh : ∀ c ∈ p.live, c < p.nextConn
  bound : p.connsCount ≤ cfg.maxConns

namespace Slots

theorem perm (h : p.Slots cfg) {ts : List Task} (hp : p.tasks.Perm ts) : { p with tasks := ts }.Slots cfg := by
  have hload : ∀ m, { p with tasks := ts }.load m = p.load m := fun m => by
    simp [load, (hp.map fun t => (t.held.map m).sum).sum_nat]
  have hdialing : { p with tasks := ts }.dialing = p.dialing := (hp.map Task.dialing).sum_nat.symm
  have hclosing : ∀ c, { p with tasks := ts }.closing.count c = p.closing.count c := fun c =>
    (hp.flatMap_right Task.closing).symm.count_eq c
  exact ⟨by rw [hload, hdialing]; exact h.count, fun c => by rw [hload, hclosing]; exact h.owned c, h.nodup, h.fresh, h.bound⟩

theorem move (h : p.Slots cfg) (hload : ∀ m, p'.load m = p.load m) (hclosing : ∀ c, p'.closing.count c = p.closing.count c)
    (hlive : p'.live = p.live) (hnext : p'.nextConn = p.nextConn)
    (hcount : p'.connsCount = p.connsCount + p'.dialing - p.dialing) (hbound : p'.connsCount ≤ cfg.maxConns) :
    p'.Slots cfg where
  count := by
    have := h.count
    rw [hload]
    omega
  owned c := by rw [hload, hclosing, hlive]; exact h.owned c
  nodup := hlive ▸ h.nodup
  fresh := by rw [hlive, hnext]; exact h.fresh
  bound := hbound

theorem dialed (h : (p.add t).Slots cfg) (ht : t.held = []) (hd : t.dialing = 1) (hc : t.closing = []) {t' : Task}
    (ht' : t'.held = [p.nextConn]) (hd' : t'.dialing = 0) (hc' : t'.closing = []) : (p.dialed.add t').Slots cfg := by
  have hload : ∀ m, (p.dialed.add t').load m = p.load m + m p.nextConn := fun m => by
    rw [load_add, ht']
    simp [Pool.dialed, load]
  have hnew : p.nextConn ∉ p.live := fun hin => Nat.lt_irrefl _ (h.fresh _ hin)
  refine ⟨?_, ?_, ?_, ?_, h.bound⟩
  · have hcount := h.count
    rw [load_add, dialing_add, ht] at hcount
    rw [hload, dialing_add, hd']
    change p.connsCount = _ at hcount
    change p.connsCount = _ + ((p.dialing + 0 : Nat) : Int)
    simp only [map_nil, sum_nil] at hcount
    omega
  · intro c
    have howned := h.owned c
    rw [load_add, closing_add, ht, hc] at howned
    change p.load (only c) + 0 + (p.closing.count c + 0) = p.live.count c at howned
    rw [hload, closing_add, hc']
    change p.load (only c) + only c p.nextConn + (p.closing.count c + [].count c) = (p.live ++ [p.nextConn]).count c
    rw [count_append, count_singleton, only]
    simp only [count_nil, beq_iff_eq]
    omega
  · exact nodup_append.mpr ⟨h.nodup, by simp, by rintro a ha b hb rfl; exact hnew (mem_singleton.mp hb ▸ ha)⟩
  · intro c hin
    rcases mem_append.mp hin with hin | hin
    · exact Nat.lt_succ_of_lt (h.fresh c hin)
    · rw [mem_singleton.mp hin]
      exact Nat.lt_succ_self _

theorem shut {c : Nat} {cs : List Nat} (h : (p.add (.shuts c cs)).Slots cfg) :
    ({ p with live := p.live.erase c }.add (.closes cs)).Slots cfg where
  count := h.count
  owned x := by
    have howned := h.owned x
    rw [load_add, closing_add] at howned ⊢
    change _ = (p.live.erase c).count x
    change _ = p.live.count x at howned
    rw [count_erase]
    simp only [Task.held, Task.closing, count_singleton] at howned ⊢
    have hload : { p with live := p.live.erase c }.load (only x) = p.load (only x) := rfl
    have hclosing : { p with live := p.live.erase c }.closing = p.closing := rfl
    split at howned
    · simp_all
      omega
    · simp_all
  nodup := h.nodup.erase c
  fresh x hx := h.fresh x (mem_of_mem_erase hx)
  bound := h.bound

end Slots

theorem decConnsCount_spec (cfg : PoolConfig) (p : Pool) :
    (∀ m, (p.decConnsCount cfg).load m = p.load m) ∧ (∀ c, (p.decConnsCount cfg).closing.count c = p.closing.count c) ∧
    (p.decConnsCount cfg).live = p.live ∧ (p.decConnsCount cfg).nextConn = p.nextConn ∧
    (p.decConnsCount cfg).connsCount = p.connsCount + (p.decConnsCount cfg).dialing - p.dialing - 1 ∧
    (p.decConnsCount cfg).connsCount ≤ p.connsCount := by
  unfold decConnsCount
  split
  · refine ⟨fun _ => rfl, fun _ => rfl, rfl, rfl, ?_, ?_⟩
    · change p.connsCount - 1 = p.connsCount + p.dialing - p.dialing - 1
      omega
    · change p.connsCount - 1 ≤ p.connsCount
      omega
  · split
    · rename_i w q popped hpop
      have hdialing : { p with connsWait := q, emptyPop := p.emptyPop || popped }.dialing = p.dialing := rfl
      refine ⟨fun m => ?_, fun c => ?_, rfl, rfl, ?_, Int.le_refl _⟩
      · rw [load_add]
        rfl
      · rfl
      · rw [dialing_add]
        change p.connsCount = _
        simp only [Task.dialing]
        omega
    · refine ⟨fun _ => rfl, fun _ => rfl, rfl, rfl, ?_, ?_⟩
      · change p.connsCount - 1 = p.connsCount + p.dialing - p.dialing - 1
        omega
      · change p.connsCount - 1 ≤ p.connsCount
        omega

theorem tryDeliver_load (m : Nat → Nat) (hw : w < p.waiters.length) (conn : Option Nat) :
    (p.tryDeliver w conn).1.load m = p.load m + if (p.tryDeliver w conn).2 then (conn.toList.map m).sum else 0 := by
  rcases tryDeliver_cases hw conn with ⟨v, v', hv, hready, heq, -, htaken, -, hconn⟩ | ⟨-, heq⟩
  · have hset := load_setWaiter m v' hv
    have hpending : v.pending = [] := by
      have hans := v.answered
      rw [hready] at hans
      rcases hc : v.conn with _ | c
      · simp [WantConn.pending, hc]
      · simp [hc] at hans
    have hpending' : v'.pending = conn.toList := by simp [WantConn.pending, htaken, hconn]
    rw [hpending, hpending'] at hset
    rw [heq]
    simpa using hset
  · rw [heq]
    simp

theorem tryDeliver_frame (w : Nat) (conn : Option Nat) (p : Pool) :
    (p.tryDeliver w conn).1.tasks = p.tasks ∧ (p.tryDeliver w conn).1.live = p.live ∧
    (p.tryDeliver w conn).1.nextConn = p.nextConn ∧ (p.tryDeliver w conn).1.connsCount = p.connsCount := by
  unfold tryDeliver
  split <;> exact ⟨rfl, rfl, rfl, rfl⟩

structure Frame (p p' : Pool) : Prop where
  tasks : p'.tasks = p.tasks
  live : p'.live = p.live
  nextConn : p'.nextConn = p.nextConn
  connsCount : p'.connsCount = p.connsCount

theorem releaseConn_frame (cfg : PoolConfig) (c : Nat) (p : Pool) : Frame p (p.releaseConn cfg c) := by
  unfold releaseConn
  split
  · exact ⟨rfl, rfl, rfl, rfl⟩
  · split
    · rename_i w q popped _
      obtain ⟨htasks, hlive, hnext, hcount⟩ :=
        tryDeliver_frame w (some c) { p with connsWait := q, emptyPop := p.emptyPop || popped }
      exact ⟨htasks, hlive, hnext, hcount⟩
    · exact ⟨rfl, rfl, rfl, rfl⟩

theorem releaseConn_load (cfg : PoolConfig) (m : Nat → Nat) (c : Nat) (hq : p.Queued) :
    (p.releaseConn cfg c).load m = p.load m + m c := by
  have hidle : ∀ q b, { p with connsWait := q, emptyPop := b, conns := p.conns ++ [c] }.load m = p.load m + m c := by
    simp only [load, map_append, sum_append, map_cons, map_nil, sum_cons, sum_nil]
    omega
  unfold releaseConn
  rw [accepts_eq]
  split
  · exact hidle p.connsWait p.emptyPop
  · rcases hq.pop with ⟨w, q, hpop, -, hw, hlt, -⟩ | ⟨hpop, -⟩
    · simp only [hpop, Bool.or_false]
      have hload : _ = p.load m + _ := tryDeliver_load (p := { p with connsWait := q }) m hlt (some c)
      -- the waiter was popped because it waits
      rcases tryDeliver_cases (p := { p with connsWait := q }) hlt (some c) with ⟨v, v', -, -, heq, -⟩ | ⟨hnot, -⟩
      · rw [heq] at hload ⊢
        simpa using hload
      · change p.waiting w = false at hnot
        rw [hw] at hnot
        cases hnot
    · simp only [hpop]
      exact hidle p.connsWait p.emptyPop

theorem Slots.release (c : Nat) (h : (p.add t).Slots cfg) (hq : p.Queued) (hheld : t.held = [c]) (hd : t.dialing = 0)
    (hc : t.closing = []) : (p.releaseConn cfg c).Slots cfg := by
  have hframe := releaseConn_frame cfg c p
  have hdialing : (p.releaseConn cfg c).dialing = p.dialing := by rw [dialing, hframe.tasks, dialing]
  have hclosing : (p.releaseConn cfg c).closing = p.closing := by rw [closing, hframe.tasks, closing]
  refine h.move (fun m => ?_) (fun x => by simp [hclosing, hc]) hframe.live hframe.nextConn
    (by simp [hframe.connsCount, hdialing, hd]) (hframe.connsCount ▸ h.bound)
  rw [releaseConn_load cfg m c hq, load_add, hheld]
  simp

theorem Slots.give (h : (p.add t).Slots cfg) (hheld : t.held = []) (hd : t.dialing = 1) (hc : t.closing = []) :
    (p.decConnsCount cfg).Slots cfg := by
  obtain ⟨hload, hclosing, hlive, hnext, hcount, hle⟩ := decConnsCount_spec cfg p
  refine h.move (fun m => by simp [hload, hheld]) (fun x => by simp [hclosing, hc]) hlive hnext ?_ (Int.le_trans hle h.bound)
  rw [dialing_add, connsCount_add]
  omega

theorem Slots.close {c : Nat} {cs : List Nat} (h : (p.add (.closes (c :: cs))).Slots cfg) :
    ((p.decConnsCount cfg).add (.shuts c cs)).Slots cfg := by
  obtain ⟨hload, hclosing, hlive, hnext, hcount, hle⟩ := decConnsCount_spec cfg p
  refine ⟨?_, fun x => ?_, ?_, ?_, Int.le_trans hle h.bound⟩
  · have hold := h.count
    rw [load_add, dialing_add] at hold ⊢
    change p.connsCount = _ at hold
    change (p.decConnsCount cfg).connsCount = _
    rw [hload]
    simp only [Task.held, Task.dialing, map_cons, sum_cons] at hold ⊢
    omega
  · have hold := h.owned x
    rw [load_add, closing_add] at hold ⊢
    rw [hload, hclosing]
    change _ = p.live.count x at hold
    change _ = (p.decConnsCount cfg).live.count x
    rw [hlive, ← hold]
    simp only [Task.held, Task.closing, map_cons, sum_cons, count_nil, count_singleton, only, beq_iff_eq]
    omega
  · change (p.decConnsCount cfg).live.Nodup
    rw [hlive]
    exact h.nodup
  · change ∀ x ∈ (p.decConnsCount cfg).live, x < (p.decConnsCount cfg).nextConn
    rw [hlive, hnext]
    exact h.fresh

theorem Slots.go (h : (p.add t).Slots cfg) (hheld : t'.held = t.held) (hd : t'.dialing = t.dialing)
    (hc : t'.closing = t.closing) : (p.add t').Slots cfg :=
  h.move (fun m => by simp [hheld]) (fun x => by simp [hc]) rfl rfl (by simp [hd]) h.bound

theorem Slots.done (h : (p.add t).Slots cfg) (hheld : t.held = []) (hd : t.dialing = 0) (hc : t.closing = []) :
    p.Slots cfg :=
  h.move (fun m => by simp [hheld]) (fun x => by simp [hc]) rfl rfl (by simp [hd]) h.bound

theorem Slots.take (h : p.Slots cfg) (cs : List Nat) (hperm : p.conns.Perm (t'.held ++ cs)) (hd : t'.dialing = 0)
    (hc : t'.closing = []) : ({ p with conns := cs }.add t').Slots cfg := by
  refine h.move (fun m => ?_) (fun x => by simp [hc]; rfl) rfl rfl (by simp [hd, dialing, Pool.add]) h.bound
  have hsum := (hperm.map m).sum_nat
  rw [map_append, sum_append] at hsum
  rw [load_add]
  simp only [load]
  omega

theorem Slots.start (h : p.Slots cfg) (hheld : t'.held = []) (hd : t'.dialing = 0) (hc : t'.closing = []) :
    (p.add t').Slots cfg :=
  h.take p.conns (by rw [hheld]; exact List.Perm.refl _) hd hc

theorem Slots.hand (h : p.Slots cfg) (v' : WantConn) (hv : p.waiters[w]? = some v)
    (hpending : v.pending = t'.held ++ v'.pending) (hd : t'.dialing = 0) (hc : t'.closing = []) :
    ((p.setWaiter w v').add t').Slots cfg := by
  refine h.move (fun m => ?_) (fun x => by simp [hc]; rfl) rfl rfl (by simp [hd, dialing, Pool.add, setWaiter]) h.bound
  have hset := load_setWaiter m v' hv
  rw [hpending, map_append, sum_append] at hset
  rw [load_add]
  omega

theorem Slots.deliver (h : (p.add t).Slots cfg) (hw : w < p.waiters.length) {conn : Option Nat}
    (hheld : t.held = t'.held ++ if (p.tryDeliver w conn).2 then conn.toList else []) (hd : t'.dialing = t.dialing)
    (hc : t'.closing = t.closing) : ((p.tryDeliver w conn).1.add t').Slots cfg := by
  obtain ⟨htasks, hlive, hnext, hcount⟩ := tryDeliver_frame w conn p
  refine h.move (fun m => ?_) (fun x => ?_) hlive hnext ?_ (Int.le_trans (Int.le_of_eq hcount) h.bound)
  · rw [load_add, load_add, tryDeliver_load m hw conn, hheld, map_append, sum_append]
    split
    · omega
    · simp
  · rw [closing_add, closing_add, closing, htasks, hc, closing]
  · rw [dialing_add, dialing_add, dialing, htasks, hd, connsCount_add, connsCount_add, hcount, dialing]
    omega

theorem Slots.acquire (h : p.Slots cfg) (hmax : 0 < cfg.maxConns) : (p.acquireConn cfg).Slots cfg := by
  unfold acquireConn
  split
  · split
    · refine h.move (fun m => by rw [load_add]; rfl) (fun x => rfl) rfl rfl ?_ ?_
      · rw [dialing_add]
        change p.connsCount + 1 = p.connsCount + ((p.dialing + 1 : Nat) : Int) - _
        omega
      · change p.connsCount + 1 ≤ cfg.maxConns
        omega
    · split
      · exact h
      · exact h.start rfl rfl rfl
  · rename_i c cs hconns
    split
    · refine h.take _ ?_ rfl rfl
      rw [hconns]
      conv => lhs; rw [← dropLast_append_getLast (cons_ne_nil c cs)]
      exact perm_append_comm
    · refine h.take _ ?_ rfl rfl
      rw [hconns]
      exact List.Perm.refl _

theorem Slots.cancel (h : p.Slots cfg) (hv : p.waiters[w]? = some v) (htaken : v.taken = false) : (p.cancel w).Slots cfg := by
  unfold Pool.cancel
  simp only [hv, WantConn.cancel]
  rcases hc : v.conn with _ | c
  · have hhand : ((p.setWaiter w v.cancel.1).add .acquire).Slots cfg :=
      h.hand v.cancel.1 hv (by simp [WantConn.pending, WantConn.cancel, hc, Task.held]) rfl rfl
    exact hhand.done rfl rfl rfl
  · exact h.hand v.cancel.1 hv (by simp [WantConn.pending, WantConn.cancel, hc, htaken, Task.held]) rfl rfl

theorem act_slots {pick : Bool} (hmax : 0 < cfg.maxConns) (hq : (p.add t).Queued) (h : (p.add t).Slots cfg)
    (hact : p.act cfg pick t = some p') : p'.Slots cfg := by
  cases t
  case closes cs =>
    rcases cs with _ | ⟨c, cs⟩ <;> cases hact
    · exact h.done rfl rfl rfl
    · exact h.close
  all_goals
    simp only [act] at hact
    (repeat' split at hact) <;> try cases hact
  · exact (h.done rfl rfl rfl).acquire hmax
  · refine (h.done rfl rfl rfl).move (fun m => ?_) (fun x => ?_) rfl rfl ?_ h.bound
    · simp [queueForIdle, load, Task.held, WantConn.pending, WantConn.new, Pool.add]
    · simp [queueForIdle, closing, Task.closing, Pool.add]
    · simp [queueForIdle, dialing, Task.dialing, Pool.add]
  · rename_i v hv _ _ _ c hconn
    obtain ⟨_, hv', htaken, -⟩ := hq.fits _ mem_cons_self _ mem_cons_self
    obtain rfl := Option.some.inj (hv.symm.trans hv')
    exact (h.done rfl rfl rfl).hand v.take hv (by simp [WantConn.pending, WantConn.take, htaken, hconn, Task.held]) rfl rfl
  · exact h.go rfl rfl rfl
  · rename_i w _ v hv _ _
    have hhand : ((p.setWaiter w v.timeout).add (.timedOut w)).Slots cfg := (h.done rfl rfl rfl).hand v.timeout hv rfl rfl rfl
    exact { hhand with }
  iterate 2
    obtain ⟨v, hv, htaken, -⟩ := hq.fits _ mem_cons_self _ mem_cons_self
    exact (h.done rfl rfl rfl).cancel hv htaken
  · exact h.dialed rfl rfl rfl rfl rfl rfl
  · exact h.go rfl rfl rfl
  · exact h.give rfl rfl rfl
  · exact h.release _ (hq.done (by simp)) rfl rfl rfl
  · exact h.go rfl rfl rfl
  · exact h.release _ (hq.done (by simp)) rfl rfl rfl
  · exact h.shut
  · exact h.dialed rfl rfl rfl rfl rfl rfl
  · exact h.go rfl rfl rfl
  all_goals
    obtain ⟨hlt, -⟩ := hq.served _ mem_cons_self _ mem_cons_self
  · exact h.deliver hlt (by simp [Task.held]) rfl rfl
  · rename_i w c q htry
    have hdeliver : ((p.tryDeliver w (some c)).1.add .acquire).Slots cfg := h.deliver hlt (by rw [htry]; rfl) rfl rfl
    rw [htry] at hdeliver
    exact hdeliver.done rfl rfl rfl
  · -- refused, so that the connection is released
    rename_i w c _ q htry
    have hdeliver : ((p.tryDeliver w (some c)).1.add (.releases c)).Slots cfg := h.deliver hlt (by rw [htry]; rfl) rfl rfl
    rw [htry] at hdeliver
    exact hdeliver

theorem step_slots (hmax : 0 < cfg.maxConns) {a : Action} (hq : p.Queued) (h : p.Slots cfg) (hstep : p.step cfg a = some p') :
    p'.Slots cfg := by
  cases a with
  | call =>
    cases hstep
    exact h.start rfl rfl rfl
  | closeIdle =>
    cases hstep
    exact h.take [] (by simp [Task.held]) rfl rfl
  | clean expired =>
    cases hstep
    unfold clean
    simp only
    split
    · exact h
    · exact h.take _ (by simp [Task.held]) rfl rfl
  | run i pick =>
    simp only [step] at hstep
    rcases ht : p.tasks[i]? with _ | t
    · simp [ht] at hstep
    · simp only [ht] at hstep
      have hpicked : ({ p with tasks := p.tasks.eraseIdx i }.add t).Slots cfg := by
        obtain ⟨hlt, rfl⟩ := List.getElem?_eq_some_iff.mp ht
        exact h.perm (getElem_cons_eraseIdx_perm hlt).symm
      exact act_slots hmax (hq.picked ht) hpicked hstep

theorem run_slots (hmax : 0 < cfg.maxConns) (as : List Action) : (run cfg as).Slots cfg :=
  (Machine.exec_invariant (M := machine cfg) (P := fun p => p.Queued ∧ p.Slots cfg)
    (fun _ _ _ h hs => ⟨(step_queued h.1 hs).1, step_slots hmax h.1 h.2 hs⟩) as
    ⟨queued_new, rfl, fun _ => rfl, nodup_nil, fun _ h => absurd h not_mem_nil, Int.le_of_lt hmax⟩).2

theorem Slots.length_live (h : p.Slots cfg) :
    p.conns.length + p.held.length + p.delivered.length + p.closing.length = p.live.length := by
  have hperm : (p.conns ++ p.held ++ p.delivered ++ p.closing).Perm p.live := perm_iff_count.mpr fun c => by
    simpa only [count_append, owners] using (load_only p c).symm.trans (h.owned c)
  simpa only [length_append] using hperm.length_eq

/-- After every run the count is that of the connections and the dials and within the bound, each
open connection has one owner and no other connection has any, and the empty queue was not popped. -/
theorem pool_accounting (cfg : PoolConfig) (hmax : 0 < cfg.maxConns) (as : List Action) :
    (run cfg as).connsCount =
      (run cfg as).conns.length + (run cfg as).held.length + (run cfg as).delivered.length + (run cfg as).dialing ∧
    (run cfg as).connsCount + (run cfg as).closing.length = (run cfg as).live.length + (run cfg as).dialing ∧
    (run cfg as).connsCount ≤ cfg.maxConns ∧
    (∀ c, (run cfg as).owners c = if c ∈ (run cfg as).live then 1 else 0) ∧
    (run cfg as).emptyPop = false := by
  have h := run_slots hmax as
  have hcount : (run cfg as).connsCount =
      (run cfg as).conns.length + (run cfg as).held.length + (run cfg as).delivered.length + (run cfg as).dialing := by
    rw [h.count, load_eq, sum_one, sum_one, sum_one]
    rfl
  refine ⟨hcount, ?_, h.bound, fun c => ?_, (run_queued cfg as).popped⟩
  · have := h.length_live
    omega
  · rw [← load_only, h.owned c]
    split
    · exact count_eq_one_of_mem h.nodup ‹_›
    · exact count_eq_zero_of_not_mem ‹_›

theorem pool_accounting_busy : 0 < oneConn.maxConns ∧ (run oneConn busy).connsCount =
      (run oneConn busy).conns.length + (run oneConn busy).held.length + (run oneConn busy).delivered.length +
        (run oneConn busy).dialing :=
  ⟨by decide, (pool_accounting oneConn (by decide) busy).1⟩

end Pool

end Fasthttp
