import Fasthttp.Args
import Fasthttp.Client.Cleaner
import Fasthttp.Client.TimerHeap
import Fasthttp.Lib.Tally

/-!
# The items of the cleaner

`Register` and `checkItems`, under the cleaner's lock.
-/

namespace Fasthttp

open List

abbrev NanoTime := Fin (2 ^ 63)

structure CleanItem where
  client : Option CleanableItem
  when : Int
  deriving DecidableEq, Repr

structure CleanResult where
  duration : Int64
  stop : Bool
  nanoTime : NanoTime
  deriving DecidableEq

/-- `obj` are the items, of which `made` were made, and `spare` is the array behind the end of `items`. -/
structure DurationCleaner where
  obj : Nat → CleanItem
  made : Nat
  items : List Nat
  spare : List (Option Nat)
  zeroWhen : Int
  numItems : UInt32
  registered : List CleanableItem
  stopped : List CleanableItem
  ran : List Nat

inductive CleanerAction
  | register (client : Option CleanableItem) (duration : Int64) (t : NanoTime) (room : Nat)
  | tick (now : NanoTime) (results : Nat → CleanResult)

def minDuration : Int := 500 * 10 ^ 6

def dueAt (duration : Int) (t : NanoTime) : Int := int64 (duration + t.val)

def CleanResult.when (r : CleanResult) : Int :=
  dueAt (if r.duration.toInt < minDuration then minDuration else r.duration.toInt) r.nanoTime

/-- The clock does not go back while `Clean` runs, and the next due time of an item that stays is positive. -/
def CleanResult.Timely (now : NanoTime) (r : CleanResult) : Prop := now ≤ r.nanoTime ∧ (r.stop = false → 0 < r.when)

def CleanerAction.Timely : CleanerAction → Prop
  | .register client duration t _ => client.isSome → 0 < dueAt duration.toInt t
  | .tick now results => ∀ k, (results k).Timely now

namespace DurationCleaner

def new : DurationCleaner := ⟨fun _ => ⟨none, 0⟩, 0, [], [], 0, 0, [], [], []⟩

def when (s : DurationCleaner) (h : Nat) : Int := (s.obj h).when

def client (s : DurationCleaner) (h : Nat) : Option CleanableItem := (s.obj h).client

variable (s : DurationCleaner)

def update0When : DurationCleaner := { s with zeroWhen := (s.items.head?.map s.when).getD 0 }

def doAdd (c : Nat) : Except CleanerFault DurationCleaner :=
  (siftUp s.when s.items (s.items.length - 1)).map fun r =>
    let s := { s with items := r.1, numItems := s.numItems + 1 }
    if s.items.head? = some c then s.update0When else s

def enrol (c : CleanableItem) (when : Int) (h made : Nat) (spare : List (Option Nat)) : DurationCleaner :=
  { s with
    obj := Function.update s.obj h ⟨some c, when⟩
    made := made
    items := s.items ++ [h]
    spare := spare
    registered := s.registered ++ [c] }

def register (client : Option CleanableItem) (duration : Int64) (t : NanoTime) (room : Nat) :
    Except CleanerFault DurationCleaner :=
  match client with
  | none => .ok s
  | some c =>
    let when := dueAt duration.toInt t
    match s.spare with
    | some h :: spare => (s.enrol c when h s.made spare).doAdd h
    | none :: spare => (s.enrol c when s.made (s.made + 1) spare).doAdd s.made
    | [] => (s.enrol c when s.made (s.made + 1) (List.replicate room none)).doAdd s.made

def vacate (h : Nat) (items : List Nat) : DurationCleaner :=
  { s with
    obj := Function.update s.obj h { s.obj h with client := none }
    items := items
    spare := some h :: s.spare
    numItems := s.numItems + 0xFFFFFFFF }

def doDel0 : Except CleanerFault DurationCleaner :=
  let last := s.items.length - 1
  match s.items[0]?, s.items[last]? with
  | some h, some z =>
    let s := s.vacate h (((s.items.set 0 z).set last h).take last)
    (if 0 < last then siftDown s.when s.items 0 else .ok s.items).map fun items =>
      update0When { s with items := items }
  | _, _ => .error .indexOutOfRange

def reschedule (h : Nat) (r : CleanResult) : DurationCleaner :=
  { s with obj := Function.update s.obj h { s.obj h with when := r.when }, ran := s.ran ++ [h] }

def runOne (h : Nat) (r : CleanResult) : Except CleanerFault DurationCleaner :=
  match s.client h with
  | none => .error .nilClient
  | some c =>
    let s := s.reschedule h r
    if r.stop then doDel0 { s with stopped := s.stopped ++ [c] }
    else (siftDown s.when s.items 0).map fun items => { s with items := items }

def run (now : NanoTime) (r : CleanResult) : Except CleanerFault (DurationCleaner × Int) :=
  match s.items[0]? with
  | none => .error .indexOutOfRange
  | some h => if (now.val : Int) < s.when h then .ok (s, s.when h) else (s.runOne h r).map (·, 0)

def checkLoop (now : NanoTime) (results : Nat → CleanResult) :
    Nat → Nat → Bool → DurationCleaner → Except CleanerFault (DurationCleaner × Int × Bool)
  | 0, _, _, _ => .error .unfinished
  | fuel + 1, k, ran, s =>
    if s.items = [] then .ok (s, 0, ran)
    else
      (s.run now (results k)).bind fun r =>
        if r.2 = 0 then checkLoop now results fuel (k + 1) true r.1 else .ok (r.1, if 0 < r.2 then r.2 else 0, ran)

def checkItems (now : NanoTime) (results : Nat → CleanResult) :
    Except CleanerFault (DurationCleaner × Int × Bool) :=
  if (now.val : Int) < s.zeroWhen then .ok (s, s.zeroWhen, false) else checkLoop now results (s.items.length + 1) 0 false s

def tick (now : NanoTime) (results : Nat → CleanResult) : Except CleanerFault DurationCleaner :=
  (s.checkItems now results).bind fun r =>
    if 0 < r.2.1 ∧ int64 (r.2.1 - now.val) ≤ 0 then .error .neverHappened else .ok r.1

def step : CleanerAction → Except CleanerFault DurationCleaner
  | .register client duration t room => s.register client duration t room
  | .tick now results => s.tick now results

def exec : DurationCleaner → List CleanerAction → Except CleanerFault DurationCleaner
  | s, [] => .ok s
  | s, a :: as => (s.step a).bind fun s' => exec s' as

def due (now : NanoTime) : List Nat := s.items.filter fun h => s.when h ≤ now.val

structure Kept (s : DurationCleaner) : Prop where
  heap : ∀ (i x y : Nat), 0 < i → s.items[i]? = some x → s.items[(i - 1) / 4]? = some y → s.when y ≤ s.when x
  clients : (s.items.map s.client ++ s.stopped.map some).Perm (s.registered.map some)
  numItems : s.numItems.toNat = s.items.length % 2 ^ 32
  empty : s.items = [] → s.zeroWhen = 0
  zeroWhen : ∀ h ∈ s.items, s.zeroWhen ≤ s.when h

/-- The round ends, it has run each item that was due once, and the next one is later. -/
structure Served (s : DurationCleaner) (now : NanoTime) (results : Nat → CleanResult) : Prop where
  checked : ∃ s' pollUntil ran, s.checkItems now results = .ok (s', pollUntil, ran) ∧ (pollUntil = 0 ∨ now.val < pollUntil) ∧
    ∃ l, s'.ran = s.ran ++ l ∧ l.Nodup ∧ l.Perm (s.due now)
  ticked : ∃ s', s.tick now results = .ok s'

structure Held (s : DurationCleaner) : Prop where
  distinct : (s.items ++ s.spare.reduceOption).Nodup
  made : ∀ h ∈ s.items ++ s.spare.reduceOption, h < s.made
  range : ∀ h, s.when h < 2 ^ 63
  positive : ∀ h ∈ s.items, 0 < s.when h
  clients : (s.items.map s.client ++ s.stopped.map some).Perm (s.registered.map some)

structure Inv (s : DurationCleaner) : Prop extends Held s where
  numItems : s.numItems = UInt32.ofNat s.items.length
  heap : Heap.Ordered 4 (Heap.keys s.when s.items)
  empty : s.items = [] → s.zeroWhen = 0
  zeroWhen : ∀ h ∈ s.items, s.zeroWhen ≤ s.when h

variable {s s' : DurationCleaner} {h : Nat} {now : NanoTime}

theorem Held.perm (hi : s.Held) {items : List Nat} (hperm : items.Perm s.items) : Held { s with items := items } where
  distinct := (hperm.append_right _).nodup_iff.mpr hi.distinct
  made j hj := hi.made j ((hperm.append_right _).mem_iff.mp hj)
  range := hi.range
  positive j hj := hi.positive j (hperm.mem_iff.mp hj)
  clients := ((hperm.map _).append_right _).trans hi.clients

theorem Inv.kept (hi : s.Inv) : s.Kept := by
  refine ⟨Heap.ordered_keys_iff.mp hi.heap, hi.clients, ?_, hi.empty, hi.zeroWhen⟩
  rw [hi.numItems]
  exact UInt32.toNat_ofNat'

theorem inv_new : new.Inv where
  distinct := nodup_nil
  made := fun _ h => nomatch h
  range := fun _ => (by decide : (0 : Int) < 2 ^ 63)
  positive := fun _ h => nomatch h
  clients := List.Perm.refl _
  numItems := rfl
  heap := Heap.ordered_nil
  empty := fun _ => rfl
  zeroWhen := fun _ h => nomatch h

theorem Held.client_some (hi : s.Held) (hh : h ∈ s.items) : ∃ c, s.client h = some c := by
  have hmem : s.client h ∈ s.registered.map some := by
    rw [← hi.clients.mem_iff]
    exact mem_append_left _ (mem_map_of_mem hh)
  obtain ⟨c, -, hc⟩ := mem_map.mp hmem
  exact ⟨c, hc.symm⟩

section Update

variable {it : CleanItem} (ho : s'.obj = Function.update s.obj h it)

include ho

theorem when_update {j : Nat} (hj : j ≠ h) : s'.when j = s.when j := by rw [when, ho, Function.update_of_ne hj, when]

theorem when_update_self : s'.when h = it.when := by rw [when, ho, Function.update_self]

theorem when_update_lt (hit : it.when < 2 ^ 63) (hs : ∀ j, s.when j < 2 ^ 63) (j : Nat) : s'.when j < 2 ^ 63 := by
  by_cases hj : j = h
  · rw [hj, when_update_self ho]
    exact hit
  · rw [when_update ho hj]
    exact hs j

theorem client_update {j : Nat} (hj : j ≠ h) : s'.client j = s.client j := by rw [client, ho, Function.update_of_ne hj, client]

theorem client_update_self : s'.client h = it.client := by rw [client, ho, Function.update_self]

theorem map_client_update {l : List Nat} (hl : ∀ j ∈ l, j ≠ h) : l.map s'.client = l.map s.client :=
  map_congr_left fun j hj => client_update ho (hl j hj)

theorem keys_update {l : List Nat} (hl : ∀ j ∈ l, j ≠ h) (i : Nat) : Heap.keys s'.when l i = Heap.keys s.when l i :=
  Heap.keys_congr (fun j hj => when_update ho (hl j hj)) i

end Update

theorem Held.update0When (hi : s.Held) (hnum : s.numItems = UInt32.ofNat s.items.length)
    (hheap : Heap.Ordered 4 (Heap.keys s.when s.items)) :
    s.update0When.Inv := by
  refine { hi with numItems := hnum, heap := hheap, empty := fun hempty => ?_, zeroWhen := fun h hh => ?_ }
  · have hnil : s.items = [] := hempty
    simp [DurationCleaner.update0When, hnil]
  · rcases hitems : s.items with _ | ⟨x, rest⟩
    · rw [show s.update0When.items = s.items from rfl, hitems] at hh
      cases hh
    · have hle := hheap.head_le (x := x) (by simp [hitems]) hh
      have hzero : s.update0When.zeroWhen = s.when x := by simp [DurationCleaner.update0When, hitems]
      exact hzero.trans_le hle

theorem dueAt_lt (d : Int) (t : NanoTime) : dueAt d t < 2 ^ 63 := by
  simp only [dueAt, int64, Int.bmod]
  split_ifs <;> omega

theorem lt_dueAt {d : Int} {t : NanoTime} (hd : 0 < d) (hlt : d < 2 ^ 63) (hpos : 0 < dueAt d t) : (t.val : Int) < dueAt d t := by
  simp only [dueAt, int64, Int.bmod] at hpos ⊢
  split_ifs at hpos ⊢ <;> omega

theorem lt_when {r : CleanResult} (hpos : 0 < r.when) : (r.nanoTime.val : Int) < r.when := by
  have hlt := r.duration.toInt_lt
  apply lt_dueAt ?_ ?_ hpos
  all_goals
    unfold minDuration
    split_ifs <;> omega

/-! ## `Register` -/

section Register

variable {c : CleanableItem} {t : Int} {made : Nat} {spare : List (Option Nat)}

theorem obj_enrol : (s.enrol c t h made spare).obj = Function.update s.obj h ⟨some c, t⟩ := rfl

theorem Held.enrol (hi : s.Held) (ht : 0 < t) (hlt : t < 2 ^ 63) (hdistinct : (s.items ++ [h] ++ spare.reduceOption).Nodup)
    (hmade : ∀ j ∈ s.items ++ [h] ++ spare.reduceOption, j < made) (hnew : ∀ j ∈ s.items, j ≠ h) :
    (s.enrol c t h made spare).Held := by
  refine ⟨hdistinct, hmade, when_update_lt obj_enrol hlt hi.range, fun j hj => ?_, ?_⟩
  · rcases mem_append.mp hj with hj | hj
    · exact (hi.positive j hj).trans_eq (when_update obj_enrol (hnew j hj)).symm
    · rw [mem_singleton.mp hj]
      exact ht.trans_eq (when_update_self obj_enrol).symm
  · have hclients : (s.items ++ [h]).map (s.enrol c t h made spare).client = s.items.map s.client ++ [some c] := by
      rw [map_append, map_client_update obj_enrol hnew, map_singleton, client_update_self obj_enrol]
    have hregistered : (s.registered ++ [c]).map some = s.registered.map some ++ [some c] := by simp
    refine (List.Perm.of_eq (congrArg (· ++ _) hclients)).trans (List.Perm.trans ?_ (List.Perm.of_eq hregistered.symm))
    refine List.Perm.trans ?_ (hi.clients.append_right [some c])
    rw [append_assoc, append_assoc]
    exact perm_append_comm.append_left _

theorem Inv.doAdd (hi : s.Inv) (c : CleanableItem) (ht : 0 < t) (hlt : t < 2 ^ 63)
    (hdistinct : (s.items ++ [h] ++ spare.reduceOption).Nodup)
    (hmade : ∀ j ∈ s.items ++ [h] ++ spare.reduceOption, j < made) :
    ∃ s', (s.enrol c t h made spare).doAdd h = .ok s' ∧ s'.Inv ∧ s'.registered = s.registered ++ [c] ∧ s'.stopped = s.stopped := by
  have hnew : ∀ j ∈ s.items, j ≠ h := by
    rintro j hj rfl
    have hnodup := (nodup_append.mp hdistinct).1
    exact (nodup_append.mp hnodup).2.2 j hj j (mem_singleton_self j) rfl
  have hheld : (s.enrol c t h made spare).Held := hi.toHeld.enrol ht hlt hdistinct hmade hnew
  have hheap : Heap.Ordered 4 (Heap.keys (s.enrol c t h made spare).when s.items) := by
    rw [show Heap.keys (s.enrol c t h made spare).when s.items = Heap.keys s.when s.items from funext (keys_update obj_enrol hnew)]
    exact hi.heap
  obtain ⟨items, i, hsift, hordered, hperm⟩ := siftUp_spec hheap (ht.trans_eq (when_update_self obj_enrol).symm)
  have hlast : (s.enrol c t h made spare).items.length - 1 = s.items.length := by simp [DurationCleaner.enrol]
  have hnum : s.numItems + 1 = UInt32.ofNat items.length := by
    rw [hperm.length_eq, hi.numItems]
    simp
  unfold DurationCleaner.doAdd
  rw [hlast]
  simp only [show siftUp (s.enrol c t h made spare).when (s.enrol c t h made spare).items s.items.length = .ok (items, i) from hsift]
  refine ⟨_, rfl, ?_⟩
  have hmoved := hheld.perm hperm
  dsimp only
  split_ifs with hhead
  · exact ⟨Held.update0When { hmoved with } hnum hordered, rfl, rfl⟩
  · -- the first item was there before, and `zeroWhen` is right for it
    refine ⟨⟨{ hmoved with }, hnum, hordered, fun hempty => ?_, fun j hj => ?_⟩, rfl, rfl⟩
    · have hlen := hperm.length_eq
      rw [show items = [] from hempty] at hlen
      simp at hlen
    · rcases hitems : items with _ | ⟨x, rest⟩
      · rw [show items = [] from hitems] at hj
        cases hj
      · have hx : x ∈ s.items := by
          have hmem := hperm.mem_iff.mp (hitems ▸ mem_cons_self : x ∈ items)
          rcases mem_append.mp hmem with hx | hx
          · exact hx
          · exact absurd (by simp [hitems, mem_singleton.mp hx]) hhead
        have hle := hordered.head_le (x := x) (by simp [hitems]) hj
        rw [when_update obj_enrol (hnew x hx)] at hle
        exact (hi.zeroWhen x hx).trans hle

theorem Inv.register (hi : s.Inv) {duration : Int64} {t : NanoTime} (c : CleanableItem) (ht : 0 < dueAt duration.toInt t)
    (room : Nat) :
    ∃ s', s.register (some c) duration t room = .ok s' ∧ s'.Inv ∧ s'.registered = s.registered ++ [c] ∧ s'.stopped = s.stopped := by
  have hdistinct := hi.distinct
  have hmade := hi.made
  -- an item that is made now is none of those there are
  have hfresh : ∀ spare : List (Option Nat), spare.reduceOption.Sublist s.spare.reduceOption →
      (s.items ++ [s.made] ++ spare.reduceOption).Nodup ∧ ∀ j ∈ s.items ++ [s.made] ++ spare.reduceOption, j < s.made + 1 := by
    intro spare hsub
    have hperm : (s.items ++ [s.made] ++ spare.reduceOption).Perm (s.made :: (s.items ++ spare.reduceOption)) := by
      rw [append_assoc]
      exact perm_middle
    have hold := hsub.append_left s.items
    constructor
    · rw [hperm.nodup_iff, nodup_cons]
      exact ⟨fun hmem => absurd (hmade _ (hold.subset hmem)) (lt_irrefl _), hdistinct.sublist hold⟩
    · intro j hj
      rcases mem_cons.mp (hperm.mem_iff.mp hj) with rfl | hj
      · exact Nat.lt_succ_self _
      · exact (hmade j (hold.subset hj)).trans (Nat.lt_succ_self _)
  unfold DurationCleaner.register
  rcases hspare : s.spare with _ | ⟨_ | h, spare⟩
  · have hnone : (List.replicate room (none : Option Nat)).reduceOption = [] := by simp
    obtain ⟨hd, hm⟩ := hfresh (List.replicate room none) (by rw [hnone]; exact nil_sublist _)
    exact hi.doAdd c ht (dueAt_lt _ _) hd hm
  · obtain ⟨hd, hm⟩ := hfresh spare (by rw [hspare, reduceOption_cons_of_none])
    exact hi.doAdd c ht (dueAt_lt _ _) hd hm
  · rw [hspare, reduceOption_cons_of_some, ← singleton_append, ← append_assoc] at hdistinct hmade
    exact hi.doAdd c ht (dueAt_lt _ _) hdistinct hmade

end Register

/-! ## `runOne` -/

section RunOne

variable {c : CleanableItem} {r : CleanResult} {rest : List Nat}

structure Ran (s s' : DurationCleaner) (now : NanoTime) (h : Nat) (rest : List Nat) : Prop where
  inv : s'.Inv
  ran : s'.ran = s.ran ++ [h]
  due : (s'.due now).Perm (rest.filter fun j => s.when j ≤ now.val)

theorem Held.rest_ne (hi : s.Held) (hitems : s.items = h :: rest) : ∀ j ∈ rest, j ≠ h := by
  rintro j hj rfl
  have hnodup := (nodup_append.mp hi.distinct).1
  rw [hitems] at hnodup
  exact (nodup_cons.mp hnodup).1 hj

theorem filter_update {it : CleanItem} (ho : s'.obj = Function.update s.obj h it) (hrest : ∀ j ∈ rest, j ≠ h) (now : NanoTime) :
    (rest.filter fun j => s'.when j ≤ now.val) = rest.filter fun j => s.when j ≤ now.val :=
  filter_congr fun j hj => by rw [when_update ho (hrest j hj)]

theorem obj_reschedule : (s.reschedule h r).obj = Function.update s.obj h ⟨s.client h, r.when⟩ := rfl

theorem client_reschedule : (s.reschedule h r).client = s.client := by
  funext j
  by_cases hj : j = h
  · subst hj
    rw [client_update_self obj_reschedule]
  · exact client_update obj_reschedule hj

theorem Held.reschedule (hi : s.Held) (hpos : 0 < r.when) (h : Nat) : (s.reschedule h r).Held := by
  refine ⟨hi.distinct, hi.made, when_update_lt obj_reschedule (dueAt_lt _ _) hi.range, fun j hj => ?_, ?_⟩
  · by_cases hjh : j = h
    · subst hjh
      exact hpos.trans_eq (when_update_self obj_reschedule).symm
    · exact (hi.positive j hj).trans_eq (when_update obj_reschedule hjh).symm
  · rw [client_reschedule]
    exact hi.clients

theorem Inv.runOne_stays (hi : s.Inv) (hitems : s.items = h :: rest) (hdue : s.when h ≤ now.val) (hnow : now ≤ r.nanoTime)
    (hstop : r.stop = false) (hpos : 0 < r.when) : ∃ s', s.runOne h r = .ok s' ∧ Ran s s' now h rest := by
  obtain ⟨c, hc⟩ := hi.client_some (hitems ▸ mem_cons_self : h ∈ s.items)
  have hrest := hi.rest_ne hitems
  have hself : (s.reschedule h r).when h = r.when := when_update_self obj_reschedule
  have hlate : (now.val : Int) < r.when := lt_of_le_of_lt (by exact_mod_cast hnow) (lt_when hpos)
  have hbelow : Heap.OrderedBelow 4 (Heap.keys (s.reschedule h r).when s.items) 0 := by
    refine hi.heap.below_root fun j hj => ?_
    obtain ⟨j, rfl⟩ := Nat.exists_eq_succ_of_ne_zero hj.ne'
    rw [hitems, Heap.keys_cons, Heap.keys_cons, keys_update obj_reschedule hrest]
  obtain ⟨items, hsift, hordered, hperm⟩ := siftDown_spec (by rw [hitems]; rfl) hbelow (hpos.trans_eq hself.symm)
  have hheld := (hi.toHeld.reschedule hpos h).perm hperm
  refine ⟨_, ?_, ⟨{ hheld with numItems := ?_, heap := hordered, empty := fun hempty => ?_, zeroWhen := fun j hj => ?_ }, rfl, ?_⟩⟩
  · simp only [runOne, hc, hstop, show siftDown (s.reschedule h r).when (s.reschedule h r).items 0 = .ok items from hsift]
    rfl
  · exact hi.numItems.trans (by rw [hperm.length_eq])
  · have hlen := hperm.length_eq
    rw [show items = [] from hempty, hitems] at hlen
    cases hlen
  · have hzero := hi.zeroWhen j (hperm.mem_iff.mp hj)
    by_cases hjh : j = h
    · subst hjh
      exact (hzero.trans (hdue.trans hlate.le)).trans_eq hself.symm
    · exact hzero.trans_eq (when_update obj_reschedule hjh).symm
  · refine (hperm.filter _).trans (List.Perm.of_eq ?_)
    rw [hitems, filter_cons_of_neg (by rw [decide_eq_true_eq]; exact not_le.mpr (hlate.trans_eq hself.symm))]
    exact filter_update obj_reschedule hrest now

theorem when_vacate (s : DurationCleaner) (h : Nat) (items : List Nat) : (s.vacate h items).when = s.when := by
  have ho : (s.vacate h items).obj = Function.update s.obj h ⟨none, s.when h⟩ := rfl
  funext j
  by_cases hj : j = h
  · subst hj
    rw [when_update_self ho]
  · exact when_update ho hj

theorem doDel0_spec {key : Nat → Int} (hitems : s.items = h :: rest) (hheap : Heap.Ordered 4 (Heap.keys key s.items))
    (hkey : ∀ j ∈ rest, s.when j = key j) (hpos : ∀ j ∈ rest, 0 < key j) :
    ∃ items, items.Perm rest ∧ Heap.Ordered 4 (Heap.keys s.when items) ∧ s.doDel0 = .ok (s.vacate h items).update0When := by
  rcases eq_nil_or_concat' rest with rfl | ⟨mid, z, rfl⟩
  · refine ⟨[], List.Perm.refl _, Heap.ordered_nil, ?_⟩
    simp [doDel0, hitems, Except.map]
  · -- the last item goes to the front
    have hz : z ∈ mid ++ [z] := by simp
    have hfront : Heap.Ordered 4 (Heap.keys key (h :: mid)) := by
      have htake := hheap.take (mid.length + 1)
      rwa [hitems, take_succ_cons, take_left' rfl] at htake
    have hbelow : Heap.OrderedBelow 4 (Heap.keys s.when (z :: mid)) 0 := by
      refine hfront.below_root fun j hj => ?_
      obtain ⟨j, rfl⟩ := Nat.exists_eq_succ_of_ne_zero hj.ne'
      exact Heap.keys_congr (fun j hj => hkey j (mem_append_left _ hj)) j
    have hzpos : 0 < s.when z := (hpos z hz).trans_eq (hkey z hz).symm
    obtain ⟨items, hsift, hordered, hperm⟩ := siftDown_spec rfl hbelow hzpos
    refine ⟨items, hperm.trans (perm_append_singleton z mid).symm, hordered, ?_⟩
    have hlen : s.items.length - 1 = mid.length + 1 := by simp [hitems]
    have hcut : ((s.items.set 0 z).set (mid.length + 1) h).take (mid.length + 1) = z :: mid := by simp [hitems]
    have hfirst : s.items[0]? = some h := by simp [hitems]
    have hlast : s.items[mid.length + 1]? = some z := by simp [hitems]
    simp only [doDel0, hlen, hfirst, hlast, hcut, when_vacate]
    rw [show (s.vacate h (z :: mid)).items = z :: mid from rfl, hsift]
    rfl

theorem Held.vacate (hi : s.Held) (hitems : s.items = h :: rest) (hc : s.client h = some c) (hperm : s'.items.Perm rest)
    (ho : s'.obj = Function.update s.obj h ⟨none, r.when⟩) (hspare : s'.spare = some h :: s.spare) (hmade : s'.made = s.made)
    (hstopped : s'.stopped = s.stopped ++ [c]) (hregistered : s'.registered = s.registered) : s'.Held := by
  have hrest := hi.rest_ne hitems
  have hmem : ∀ j ∈ s'.items, j ∈ rest := fun j => hperm.mem_iff.mp
  have hhandles : (s'.items ++ s'.spare.reduceOption).Perm (s.items ++ s.spare.reduceOption) := by
    rw [hspare, hitems]
    exact perm_middle.trans ((hperm.append_right _).cons h)
  refine ⟨hhandles.nodup_iff.mpr hi.distinct, fun j hj => ?_, when_update_lt ho (dueAt_lt _ _) hi.range, fun j hj => ?_, ?_⟩
  · rw [hmade]
    exact hi.made j (hhandles.mem_iff.mp hj)
  · rw [when_update ho (hrest j (hmem j hj))]
    exact hi.positive j (hitems ▸ mem_cons_of_mem h (hmem j hj))
  · rw [hstopped, hregistered, map_client_update ho fun j hj => hrest j (hmem j hj)]
    refine List.Perm.trans ?_ hi.clients
    rw [hitems, map_cons, hc, map_append, ← append_assoc]
    exact (perm_append_singleton _ _).trans (((hperm.map _).append_right _).cons _)

theorem Inv.runOne_stops (hi : s.Inv) (hitems : s.items = h :: rest) (hstop : r.stop = true) (now : NanoTime) :
    ∃ s', s.runOne h r = .ok s' ∧ Ran s s' now h rest := by
  obtain ⟨c, hc⟩ := hi.client_some (hitems ▸ mem_cons_self : h ∈ s.items)
  have hrest := hi.rest_ne hitems
  obtain ⟨items, hperm, hordered, hdel⟩ := doDel0_spec (s := { s.reschedule h r with stopped := s.stopped ++ [c] }) hitems hi.heap
    (fun j hj => when_update obj_reschedule (hrest j hj)) (fun j hj => hi.positive j (hitems ▸ mem_cons_of_mem h hj))
  have ho : (DurationCleaner.vacate { s.reschedule h r with stopped := s.stopped ++ [c] } h items).obj
      = Function.update s.obj h ⟨none, r.when⟩ := by simp [DurationCleaner.vacate, DurationCleaner.reschedule]
  have hheld := hi.toHeld.vacate hitems hc hperm ho rfl rfl rfl rfl
  have hnum : s.numItems + 0xFFFFFFFF = UInt32.ofNat items.length := by
    rw [hi.numItems, hitems, length_cons, hperm.length_eq, UInt32.ofNat_add, UInt32.add_assoc]
    exact UInt32.add_zero _
  refine ⟨_, ?_, ⟨hheld.update0When hnum ?_, rfl, ?_⟩⟩
  · simp only [runOne, hc, hstop]
    exact hdel
  · rw [when_vacate]
    exact hordered
  · exact (hperm.filter _).trans (List.Perm.of_eq (filter_update ho hrest now))

end RunOne

section Rounds

variable {results : Nat → CleanResult}

theorem due_eq_nil (hlate : ∀ h ∈ s.items, (now.val : Int) < s.when h) : s.due now = [] := by
  apply filter_eq_nil_iff.mpr
  intro h hh
  simpa using hlate h hh

theorem Inv.run_due {r : CleanResult} {rest : List Nat} (hi : s.Inv) (hr : r.Timely now) (hitems : s.items = h :: rest)
    (hdue : s.when h ≤ now.val) :
    ∃ s', s.run now r = .ok (s', 0) ∧ Ran s s' now h rest := by
  have hone : ∃ s', s.runOne h r = .ok s' ∧ Ran s s' now h rest := by
    rcases hstop : r.stop with _ | _
    · exact hi.runOne_stays hitems hdue hr.1 hstop (hr.2 hstop)
    · exact hi.runOne_stops hitems hstop now
  obtain ⟨s', hok, hran⟩ := hone
  refine ⟨s', ?_, hran⟩
  unfold DurationCleaner.run
  simp only [hitems, getElem?_cons_zero, if_neg (not_lt.mpr hdue), hok]
  rfl

theorem Inv.checkLoop (hr : ∀ k, (results k).Timely now) (fuel k : Nat) (ran : Bool) (hi : s.Inv) (hfuel : (s.due now).length < fuel) :
    ∃ s' pollUntil ran', DurationCleaner.checkLoop now results fuel k ran s = .ok (s', pollUntil, ran') ∧ s'.Inv ∧
      (pollUntil = 0 ∨ (now.val : Int) < pollUntil ∧ pollUntil < 2 ^ 63) ∧ ∃ l, s'.ran = s.ran ++ l ∧ l.Perm (s.due now) := by
  induction fuel generalizing s k ran with
  | zero => exact absurd hfuel (Nat.not_lt_zero _)
  | succ fuel ih =>
    unfold DurationCleaner.checkLoop
    rcases hitems : s.items with _ | ⟨h, rest⟩
    · have hnil : s.due now = [] := due_eq_nil fun j hj => by rw [hitems] at hj; cases hj
      exact ⟨s, 0, ran, rfl, hi, Or.inl rfl, [], by simp, by rw [hnil]⟩
    · by_cases hdue : s.when h ≤ now.val
      · obtain ⟨s', hrun, hran⟩ := hi.run_due (hr k) hitems hdue
        have hall : s.due now = h :: rest.filter fun j => s.when j ≤ now.val := by
          rw [DurationCleaner.due, hitems, filter_cons_of_pos (by simpa using hdue)]
        rw [hall, length_cons, ← hran.due.length_eq] at hfuel
        obtain ⟨s'', pollUntil, ran', hloop, hinv, hpoll, l, hl, hperm⟩ := ih (k + 1) true hran.inv (by omega)
        refine ⟨s'', pollUntil, ran', ?_, hinv, hpoll, h :: l, ?_, ?_⟩
        · rw [hrun]
          exact hloop
        · rw [hl, hran.ran, append_assoc, singleton_append]
        · rw [hall]
          exact (hperm.trans hran.due).cons h
      · have hlate := not_le.mp hdue
        have hrun : s.run now (results k) = .ok (s, s.when h) := by
          unfold DurationCleaner.run
          simp [hitems, if_pos hlate]
        have hnil : s.due now = [] :=
          due_eq_nil fun j hj => hlate.trans_le (hi.heap.head_le (x := h) (by simp [hitems]) hj)
        refine ⟨s, s.when h, ran, ?_, hi, Or.inr ⟨hlate, hi.range h⟩, [], by simp, by rw [hnil]⟩
        have hpos : 0 < s.when h := by omega
        rw [hrun]
        simp [Except.bind, hpos, hpos.ne']

theorem Inv.checkItems (hi : s.Inv) (hr : ∀ k, (results k).Timely now) :
    ∃ s' pollUntil ran, s.checkItems now results = .ok (s', pollUntil, ran) ∧ s'.Inv ∧
      (pollUntil = 0 ∨ (now.val : Int) < pollUntil ∧ pollUntil < 2 ^ 63) ∧ ∃ l, s'.ran = s.ran ++ l ∧ l.Perm (s.due now) := by
  unfold DurationCleaner.checkItems
  split_ifs with hnext
  · have hnil : s.due now = [] := due_eq_nil fun j hj => hnext.trans_le (hi.zeroWhen j hj)
    refine ⟨s, s.zeroWhen, false, rfl, hi, ?_, [], by simp, by rw [hnil]⟩
    rcases hitems : s.items with _ | ⟨h, rest⟩
    · exact Or.inl (hi.empty hitems)
    · exact Or.inr ⟨hnext, (hi.zeroWhen h (hitems ▸ mem_cons_self)).trans_lt (hi.range h)⟩
  · exact hi.checkLoop hr _ 0 false (Nat.lt_succ_of_le (length_filter_le _ _))

theorem Inv.tick (hi : s.Inv) (hr : ∀ k, (results k).Timely now) : ∃ s', s.tick now results = .ok s' ∧ s'.Inv := by
  obtain ⟨s', pollUntil, ran, hok, hinv, hpoll, -⟩ := hi.checkItems hr
  refine ⟨s', ?_, hinv⟩
  have hlater : ¬ (0 < pollUntil ∧ int64 (pollUntil - now.val) ≤ 0) := by
    rintro ⟨hpos, hle⟩
    rw [int64, Int.bmod_eq_of_le (by omega) (by omega)] at hle
    omega
  unfold DurationCleaner.tick
  rw [hok]
  exact if_neg hlater

theorem Inv.served (hi : s.Inv) (hr : ∀ k, (results k).Timely now) : s.Served now results := by
  obtain ⟨s', pollUntil, ran, hok, -, hpoll, l, hl, hperm⟩ := hi.checkItems hr
  have hnodup := (nodup_append.mp hi.distinct).1
  obtain ⟨s'', htick, -⟩ := hi.tick hr
  exact ⟨⟨s', pollUntil, ran, hok, hpoll.imp_right And.left, l, hl, hperm.nodup_iff.mpr (hnodup.filter _), hperm⟩, s'', htick⟩

end Rounds

theorem Inv.step {a : CleanerAction} (hi : s.Inv) (ha : a.Timely) : ∃ s', s.step a = .ok s' ∧ s'.Inv := by
  cases a with
  | register client duration t room =>
    cases client with
    | none => exact ⟨s, rfl, hi⟩
    | some c =>
      obtain ⟨s', hok, hinv, -⟩ := hi.register c (ha rfl) room
      exact ⟨s', hok, hinv⟩
  | tick now results => exact hi.tick ha

theorem Inv.exec {as : List CleanerAction} (hi : s.Inv) (has : ∀ a ∈ as, a.Timely) : ∃ s', s.exec as = .ok s' ∧ s'.Inv := by
  induction as generalizing s with
  | nil => exact ⟨s, rfl, hi⟩
  | cons a as ih =>
    obtain ⟨s₁, hok, hinv⟩ := hi.step (has a mem_cons_self)
    obtain ⟨s', hrun, hinv'⟩ := ih hinv fun b hb => has b (mem_cons_of_mem a hb)
    refine ⟨s', ?_, hinv'⟩
    unfold DurationCleaner.exec
    rw [hok]
    exact hrun

/-- No call ends in a panic, the items are kept after all of them, and the next round serves those that are due. -/
theorem items_kept (as : List CleanerAction) (has : ∀ a ∈ as, a.Timely) :
    ∃ s, new.exec as = .ok s ∧ s.Kept ∧ ∀ now results, (CleanerAction.tick now results).Timely → s.Served now results := by
  obtain ⟨s, hok, hinv⟩ := inv_new.exec has
  exact ⟨s, hok, hinv.kept, fun _ _ hr => hinv.served hr⟩

theorem items_kept_two : ∃ s, new.exec [.register (some (.client 0)) 9 1 4, .register (some (.host 0)) 5 2 0,
    .tick 8 fun _ => ⟨0, false, 8⟩, .tick 500000020 fun _ => ⟨0, true, 500000021⟩] = .ok s ∧ s.Kept := by
  have hstays : CleanResult.Timely 8 ⟨0, false, 8⟩ := ⟨by decide, fun _ => by decide⟩
  have hstops : CleanResult.Timely 500000020 ⟨0, true, 500000021⟩ := ⟨by decide, fun h => nomatch h⟩
  have has : ∀ a ∈ ([.register (some (.client 0)) 9 1 4, .register (some (.host 0)) 5 2 0, .tick 8 fun _ => ⟨0, false, 8⟩,
      .tick 500000020 fun _ => ⟨0, true, 500000021⟩] : List CleanerAction), a.Timely := by
    simp only [forall_mem_cons, not_mem_nil, false_implies, implies_true, and_true]
    exact ⟨fun _ => by decide, fun _ => by decide, fun _ => hstays, fun _ => hstops⟩
  obtain ⟨s, hok, hkept, -⟩ := items_kept _ has
  exact ⟨s, hok, hkept⟩

theorem exec_replicate (n : Nat) (hi : s.Inv) (hstopped : s.stopped = []) :
    ∃ s', s.exec (List.replicate n (.register (some (.client 0)) 1 0 0)) = .ok s' ∧ s'.Inv ∧
      s'.items.length = s.registered.length + n := by
  induction n generalizing s with
  | zero =>
    have hlen := hi.clients.length_eq
    simp only [hstopped, map_nil, append_nil, length_map] at hlen
    exact ⟨s, rfl, hi, hlen⟩
  | succ n ih =>
    have hdue : 0 < dueAt (1 : Int64).toInt 0 := by decide
    obtain ⟨s₁, hok, hinv, hreg, hstop⟩ := hi.register (.client 0) hdue 0
    obtain ⟨s', hrun, hinv', hlen⟩ := ih hinv (hstop.trans hstopped)
    refine ⟨s', ?_, hinv', ?_⟩
    · rw [replicate_succ, DurationCleaner.exec, DurationCleaner.step, hok]
      exact hrun
    · rw [hlen, hreg, length_append, length_singleton]
      omega

/-- So many registrations that `numItems` is zero again -/
theorem numItems_wraps :
    ∃ s, new.exec (List.replicate (2 ^ 32) (.register (some (.client 0)) 1 0 0)) = .ok s ∧ s.items.length = 2 ^ 32 ∧
      s.numItems.toNat = 0 := by
  obtain ⟨s, hok, hinv, hlen⟩ := exec_replicate (2 ^ 32) inv_new rfl
  have hlen' : s.items.length = 2 ^ 32 := hlen.trans (Nat.zero_add _)
  refine ⟨s, hok, hlen', ?_⟩
  rw [hinv.kept.numItems, hlen', Nat.mod_self]

end DurationCleaner

end Fasthttp
