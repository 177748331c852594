import Fasthttp.Bytes
import Fasthttp.Lib.Machine
import Fasthttp.Lib.Tally

/-!
# The host clients of a `Client`

`Client.Do` and `Client.Clean` over the two maps of the client.
-/

namespace Fasthttp

open List

structure HostKey where
  host : Bytes
  isTLS : Bool
  deriving DecidableEq, Repr

structure MadeClient where
  key : HostKey
  connsCount : Nat
  pendingClientRequests : BitVec 32
  deriving DecidableEq, Repr

inductive DoPc
  | looks
  | creates
  /-- it has obtained a host client, and has yet to add itself to its counter -/
  | counts (h : Nat)
  /-- `Do` of the host client, and then the deferred update -/
  | does (h : Nat)
  | ended
  deriving DecidableEq, Repr

structure DoCall where
  key : HostKey
  pc : DoPc
  deriving DecidableEq, Repr

structure Hosts where
  m : HostKey → Option Nat
  clients : List MadeClient
  calls : List DoCall
  cleaning : Option (List HostKey)

inductive DoStep
  | look
  | create (ok : Bool)
  | count
  | openConn
  | finish
  deriving DecidableEq, Repr

inductive HostAction
  | call (key : HostKey)
  | run (i : Nat) (a : DoStep)
  | closeConn (h : Nat)
  | cleanStart
  | cleanVisit (key : HostKey)
  | cleanEnd
  deriving DecidableEq, Repr

namespace Hosts

def new : Hosts := ⟨fun _ => none, [], [], none⟩

def setPc (s : Hosts) (i : Nat) (c : DoCall) (pc : DoPc) : Hosts := { s with calls := s.calls.set i { c with pc := pc } }

def modifyClient (s : Hosts) (h : Nat) (f : MadeClient → MadeClient) : Hosts := { s with clients := s.clients.modify h f }

def make (s : Hosts) (key : HostKey) : Hosts :=
  { s with m := Function.update s.m key (some s.clients.length), clients := s.clients ++ [⟨key, 0, 0⟩] }

def stepCall (maxConns : Int) (s : Hosts) (i : Nat) (c : DoCall) : DoStep → Option Hosts
  | .look =>
    if c.pc = .looks ∧ s.cleaning = none then
      match s.m c.key with
      | some h => some (s.setPc i c (.counts h))
      | none => some (s.setPc i c .creates)
    else none
  | .create ok =>
    if c.pc = .creates ∧ s.cleaning = none then
      match s.m c.key with
      | some h => some (s.setPc i c (.counts h))
      | none => if ok then some ((s.make c.key).setPc i c (.counts s.clients.length)) else some (s.setPc i c .ended)
    else none
  | .count =>
    match c.pc with
    | .counts h =>
      some ((s.modifyClient h fun v => { v with pendingClientRequests := v.pendingClientRequests + 1 }).setPc i c (.does h))
    | _ => none
  | .openConn =>
    match c.pc with
    | .does h => s.clients[h]?.bind fun v =>
        if v.connsCount < maxConns ∨ maxConns < 0 then
          some (s.modifyClient h fun v => { v with connsCount := v.connsCount + 1 }) else none
    | _ => none
  | .finish =>
    match c.pc with
    | .does h => some ((s.modifyClient h fun v => { v with pendingClientRequests := v.pendingClientRequests - 1 }).setPc i c .ended)
    | _ => none

def ranged (s : Hosts) (visited : List HostKey) (p : HostKey → Bool) : Bool :=
  s.clients.all fun v => !p v.key || (s.m v.key).isNone || visited.contains v.key

def idle (s : Hosts) (h : Nat) : Bool := s.clients[h]?.any fun v => v.connsCount = 0 ∧ v.pendingClientRequests = 0

def step (maxConns : Int) (s : Hosts) : HostAction → Option Hosts
  | .call key => some { s with calls := s.calls ++ [⟨key, .looks⟩] }
  | .run i a => s.calls[i]?.bind fun c => s.stepCall maxConns i c a
  | .closeConn h => some (s.modifyClient h fun v => { v with connsCount := v.connsCount - 1 })
  | .cleanStart => if s.cleaning = none then some { s with cleaning := some [] } else none
  | .cleanVisit key =>
    match s.cleaning, s.m key with
    | some visited, some h =>
      -- the map `ms` comes after `m`
      if key ∉ visited ∧ (key.isTLS = true → s.ranged visited fun k => !k.isTLS) then
        some { s with cleaning := some (key :: visited), m := if s.idle h then Function.update s.m key none else s.m }
      else none
    | _, _ => none
  | .cleanEnd =>
    match s.cleaning with
    | some visited => if s.ranged visited fun _ => true then some { s with cleaning := none } else none
    | none => none

def machine (maxConns : Int) : Machine Hosts HostAction := ⟨step maxConns⟩

end Hosts

/-! ## At most one host client for a host -/

def DoPc.obtained : DoPc → Option Nat
  | counts h | does h => some h
  | _ => none

namespace Hosts

variable {a : HostAction} {c : DoCall} {h i : Nat} {v : MadeClient}

def Busy (s : Hosts) (h : Nat) : Prop := (∃ v ∈ s.clients[h]?, 0 < v.connsCount) ∨ ∃ c ∈ s.calls, c.pc.obtained = some h

def hostConns (s : Hosts) (key : HostKey) : Nat := (s.clients.map fun v => if v.key = key then v.connsCount else 0).sum

structure OnePerHost (maxConns : Int) (s : Hosts) : Prop where
  one : ∀ h h' v v', s.clients[h]? = some v → s.clients[h']? = some v' → v.key = v'.key → s.Busy h → s.Busy h' → h = h'
  kept : ∀ c ∈ s.calls, ∀ h, c.pc.obtained = some h → s.m c.key = some h
  limit : 0 ≤ maxConns → ∀ key, s.hostConns key ≤ maxConns

def waiting (s : Hosts) (h : Nat) : Nat := (s.calls.map fun c => Tally.one c.pc (.counts h)).sum
def counted (s : Hosts) (h : Nat) : Nat := (s.calls.map fun c => Tally.one c.pc (.does h)).sum

/-- `Clean` meets no host client whose counter is zero while a call has obtained it and not counted yet, or because
the counter has wrapped. -/
def Settled (s : Hosts) : HostAction → Prop
  | .cleanVisit key => ∀ h ∈ s.m key, s.idle h = true → s.waiting h = 0 ∧ s.counted h < 2 ^ 32
  | _ => True

instance (s : Hosts) : (a : HostAction) → Decidable (s.Settled a)
  | .cleanVisit key => inferInstanceAs (Decidable (∀ h ∈ s.m key, _))
  | .call _ | .run _ _ | .closeConn _ | .cleanStart | .cleanEnd => .isTrue trivial

structure Inv (maxConns : Int) (s : Hosts) : Prop where
  stored : ∀ key h, s.m key = some h → ∃ v, s.clients[h]? = some v ∧ v.key = key
  obtained : ∀ c ∈ s.calls, ∀ h, c.pc.obtained = some h → ∃ v, s.clients[h]? = some v ∧ v.key = c.key
  pending : ∀ h v, s.clients[h]? = some v → v.pendingClientRequests = BitVec.ofNat 32 (s.counted h)
  conns : 0 ≤ maxConns → ∀ v ∈ s.clients, v.connsCount ≤ maxConns

def Kept (s : Hosts) : Prop := ∀ h v, s.clients[h]? = some v → s.Busy h → s.m v.key = some h

variable {maxConns : Int} {s s' : Hosts}

structure ClientFrame (maxConns : Int) (s s' : Hosts) (h : Nat) (v v' : MadeClient) : Prop where
  key : v'.key = v.key
  pending : v'.pendingClientRequests + BitVec.ofNat 32 (s.counted h) = v.pendingClientRequests + BitVec.ofNat 32 (s'.counted h)
  conns : 0 ≤ maxConns → v.connsCount ≤ maxConns → v'.connsCount ≤ maxConns
  busy : 0 < v'.connsCount → s.Busy h

structure Frame (maxConns : Int) (s s' : Hosts) : Prop where
  m : ∀ key h, s'.m key = some h → s.m key = some h
  clients : ∀ h v, s.clients[h]? = some v → ∃ v', s'.clients[h]? = some v' ∧ ClientFrame maxConns s s' h v v'
  length : s'.clients.length = s.clients.length
  calls : ∀ c' ∈ s'.calls, ∀ h, c'.pc.obtained = some h →
    (∃ c ∈ s.calls, c.key = c'.key ∧ c.pc.obtained = some h) ∨ s.m c'.key = some h

theorem Frame.client (hf : Frame maxConns s s') {v' : MadeClient} (hv' : s'.clients[h]? = some v') :
    ∃ v, s.clients[h]? = some v ∧ ClientFrame maxConns s s' h v v' := by
  have hlt := (List.getElem?_eq_some_iff.mp hv').1
  rw [hf.length] at hlt
  obtain ⟨v'', hv'', hrest⟩ := hf.clients h s.clients[h] (getElem?_eq_getElem hlt)
  obtain rfl : v' = v'' := Option.some.inj (hv'.symm.trans hv'')
  exact ⟨_, getElem?_eq_getElem hlt, hrest⟩

theorem Inv.frame (hi : Inv maxConns s) (hf : Frame maxConns s s') : Inv maxConns s' := by
  have hkey : ∀ (h : Nat) (v : MadeClient), s.clients[h]? = some v → ∃ v' : MadeClient, s'.clients[h]? = some v' ∧ v'.key = v.key := by
    intro h v hv
    obtain ⟨v', hv', hc⟩ := hf.clients h v hv
    exact ⟨v', hv', hc.key⟩
  refine ⟨fun key h hm => ?_, fun c' hc' h ho => ?_, fun h v' hv' => ?_, fun hmax v' hmem => ?_⟩
  · obtain ⟨v, hv, rfl⟩ := hi.stored key h (hf.m key h hm)
    exact hkey h v hv
  · rcases hf.calls c' hc' h ho with ⟨c, hc, hk, ho'⟩ | hm
    · obtain ⟨v, hv, hv'⟩ := hi.obtained c hc h ho'
      rw [← hk, ← hv']
      exact hkey h v hv
    · obtain ⟨v, hv, hv'⟩ := hi.stored _ h hm
      rw [← hv']
      exact hkey h v hv
  · obtain ⟨v, hv, hc⟩ := hf.client hv'
    have hp := hc.pending
    rw [hi.pending h v hv, BitVec.add_comm] at hp
    exact (BitVec.add_right_inj _).mp hp
  · obtain ⟨h, hv'⟩ := mem_iff_getElem?.mp hmem
    obtain ⟨v, hv, hc⟩ := hf.client hv'
    exact hc.conns hmax (hi.conns hmax v (mem_of_getElem? hv))

theorem Kept.frame (hk : s.Kept) (hi : Inv maxConns s) (hf : Frame maxConns s s') (hm : s'.m = s.m) : s'.Kept := by
  intro h v' hv' hbusy
  obtain ⟨v, hv, hc⟩ := hf.client hv'
  rw [hm, hc.key]
  rcases hbusy with ⟨w, hw, hpos⟩ | ⟨c', hc', ho⟩
  · obtain rfl : v' = w := Option.some.inj (hv'.symm.trans hw)
    exact hk h v hv (hc.busy hpos)
  · rcases hf.calls c' hc' h ho with ⟨c, hc, -, ho'⟩ | hstored
    · exact hk h v hv (.inr ⟨c, hc, ho'⟩)
    · obtain ⟨w, hw, hkey⟩ := hi.stored _ h hstored
      obtain rfl : v = w := Option.some.inj (hv.symm.trans hw)
      rw [hkey]
      exact hstored

theorem ClientFrame.refl (hv : s.clients[h]? = some v) (hcounted : s'.counted h = s.counted h) :
    ClientFrame maxConns s s' h v v :=
  ⟨rfl, by rw [hcounted], fun _ => id, fun hpos => .inl ⟨v, hv, hpos⟩⟩

theorem counted_setPc (hc : s.calls[i]? = some c) (pc : DoPc) (h : Nat) :
    (s.setPc i c pc).counted h + Tally.one c.pc (.does h) = s.counted h + Tally.one pc (.does h) :=
  Tally.sum_set (fun c : DoCall => Tally.one c.pc (.does h)) hc { c with pc := pc }

theorem calls_setPc (hc : s.calls[i]? = some c) {pc : DoPc}
    (hpc : ∀ h, pc.obtained = some h → c.pc.obtained = some h ∨ s.m c.key = some h) :
    ∀ c' ∈ (s.setPc i c pc).calls, ∀ h, c'.pc.obtained = some h →
      (∃ c ∈ s.calls, c.key = c'.key ∧ c.pc.obtained = some h) ∨ s.m c'.key = some h := by
  intro c' hc' h ho
  rcases mem_or_eq_of_mem_set hc' with hmem | rfl
  · exact .inl ⟨c', hmem, rfl, ho⟩
  · exact (hpc h ho).imp_left fun ho' => ⟨c, mem_of_getElem? hc, rfl, ho'⟩

theorem frame_setPc (hc : s.calls[i]? = some c) {pc : DoPc} (hsame : ∀ h, c.pc ≠ .does h ∧ pc ≠ .does h)
    (hpc : ∀ h, pc.obtained = some h → s.m c.key = some h) : Frame maxConns s (s.setPc i c pc) := by
  refine ⟨fun _ _ => id, fun h v hv => ⟨v, hv, .refl hv ?_⟩, rfl, calls_setPc hc fun h ho => .inr (hpc h ho)⟩
  have hset := counted_setPc hc pc h
  rw [Tally.one_eq_zero.mpr (hsame h).1, Tally.one_eq_zero.mpr (hsame h).2] at hset
  exact hset

theorem frame_modify {f : MadeClient → MadeClient} (cs : List DoCall)
    (hf : ∀ v, s.clients[h]? = some v → ClientFrame maxConns s { s with calls := cs } h v (f v))
    (hothers : ∀ j, j ≠ h → Hosts.counted { s with calls := cs } j = s.counted j)
    (hcalls : ∀ c' ∈ cs, ∀ h, c'.pc.obtained = some h → (∃ c ∈ s.calls, c.key = c'.key ∧ c.pc.obtained = some h) ∨
      s.m c'.key = some h) :
    Frame maxConns s { s with clients := s.clients.modify h f, calls := cs } := by
  refine ⟨fun _ _ => id, fun j v hv => ?_, length_modify _ _ _, hcalls⟩
  by_cases hj : j = h
  · subst hj
    have hc := hf v hv
    exact ⟨f v, by simp only [getElem?_modify_eq, hv]; rfl, hc.key, hc.pending, hc.conns, hc.busy⟩
  · exact ⟨v, by simp [getElem?_modify_ne _ _ (Ne.symm hj), hv], .refl hv (hothers j hj)⟩

theorem ofNat_succ (n : Nat) : BitVec.ofNat 32 (n + 1) = BitVec.ofNat 32 n + 1 := BitVec.ofNat_add n 1

theorem frame_count (hc : s.calls[i]? = some c) (hpc : c.pc = .counts h) :
    Frame maxConns s ((s.modifyClient h fun v => { v with pendingClientRequests := v.pendingClientRequests + 1 }).setPc i c
      (.does h)) := by
  have hset := counted_setPc hc (.does h)
  refine frame_modify (s.calls.set i { c with pc := .does h }) (fun v hv => ?_) (fun j hj => ?_) (calls_setPc hc fun j ho => .inl ?_)
  · have hone := hset h
    rw [hpc, Tally.one_self] at hone
    have hone : Hosts.counted { s with calls := s.calls.set i { c with pc := .does h } } h = s.counted h + 1 := hone
    refine ⟨rfl, ?_, fun _ => id, fun hpos => .inl ⟨v, hv, hpos⟩⟩
    rw [hone, ofNat_succ, BitVec.add_assoc, BitVec.add_comm 1]
  · have hother := hset j
    rw [hpc, Tally.one_eq_zero.mpr (by simp), Tally.one_eq_zero.mpr (by simp [Ne.symm hj])] at hother
    exact hother
  · rw [hpc]
    exact ho

theorem frame_finish (hc : s.calls[i]? = some c) (hpc : c.pc = .does h) :
    Frame maxConns s ((s.modifyClient h fun v => { v with pendingClientRequests := v.pendingClientRequests - 1 }).setPc i c
      .ended) := by
  have hset := counted_setPc hc .ended
  refine frame_modify (s.calls.set i { c with pc := .ended }) (fun v hv => ?_) (fun j hj => ?_) (calls_setPc hc fun j ho => nomatch ho)
  · have hone := hset h
    rw [hpc, Tally.one_self] at hone
    have hone : Hosts.counted { s with calls := s.calls.set i { c with pc := .ended } } h + 1 = s.counted h := hone
    refine ⟨rfl, ?_, fun _ => id, fun hpos => .inl ⟨v, hv, hpos⟩⟩
    rw [← hone, ofNat_succ, BitVec.add_comm _ 1, ← BitVec.add_assoc, BitVec.sub_add_cancel]
  · have hother := hset j
    rw [hpc, Tally.one_eq_zero.mpr (by simp [Ne.symm hj])] at hother
    exact hother

theorem frame_closeConn (h : Nat) : Frame maxConns s (s.modifyClient h fun v => { v with connsCount := v.connsCount - 1 }) := by
  refine frame_modify s.calls (fun v hv => ?_) (fun _ _ => rfl) (fun c' hc' _ ho => .inl ⟨c', hc', rfl, ho⟩)
  refine ⟨rfl, rfl, fun _ hle => ?_, fun hpos => .inl ⟨v, hv, Nat.lt_of_lt_of_le hpos (Nat.sub_le _ _)⟩⟩
  simp only
  omega

theorem frame_clean {m : HostKey → Option Nat} (hm : ∀ key h, m key = some h → s.m key = some h) (visited : Option (List HostKey)) :
    Frame maxConns s { s with m := m, cleaning := visited } :=
  ⟨hm, fun _ v hv => ⟨v, hv, .refl hv rfl⟩, rfl, fun c' hc' _ ho => .inl ⟨c', hc', rfl, ho⟩⟩

theorem frame_call (key : HostKey) : Frame maxConns s { s with calls := s.calls ++ [⟨key, .looks⟩] } := by
  refine ⟨fun _ _ => id, fun h v hv => ⟨v, hv, .refl hv ?_⟩, rfl, fun c' hc' h ho => ?_⟩
  · simp [counted, Tally.one]
  · rcases mem_append.mp hc' with hc' | hc'
    · exact .inl ⟨c', hc', rfl, ho⟩
    · rw [mem_singleton.mp hc'] at ho
      cases ho

theorem getElem?_make {key : HostKey} (hv : (s.make key).clients[h]? = some v) :
    s.clients[h]? = some v ∨ h = s.clients.length ∧ v = ⟨key, 0, 0⟩ := by
  by_cases hlt : h < s.clients.length
  · left
    rw [← hv]
    exact (getElem?_append_left hlt).symm
  · right
    have hv : (s.clients ++ [(⟨key, 0, 0⟩ : MadeClient)])[h]? = some v := hv
    rw [getElem?_append_right (by omega), getElem?_singleton, Option.ite_none_right_eq_some, Option.some.injEq] at hv
    exact ⟨by omega, hv.2.symm⟩

theorem Inv.getElem?_lt (hi : Inv maxConns s) (hc : c ∈ s.calls) (ho : c.pc.obtained = some h) :
    h < s.clients.length := by
  obtain ⟨v, hv, -⟩ := hi.obtained c hc h ho
  exact (List.getElem?_eq_some_iff.mp hv).1

theorem Inv.counted_length (hi : Inv maxConns s) : s.counted s.clients.length = 0 := by
  refine sum_eq_zero fun n hn => ?_
  obtain ⟨c, hc, rfl⟩ := mem_map.mp hn
  refine Tally.one_eq_zero.mpr fun hpc => ?_
  have hlt := hi.getElem?_lt hc (h := s.clients.length) (by rw [hpc]; rfl)
  omega

theorem Inv.make (hi : Inv maxConns s) (key : HostKey) : Inv maxConns (s.make key) := by
  have hold : ∀ (h : Nat) (v : MadeClient), s.clients[h]? = some v → (s.make key).clients[h]? = some v := by
    intro h v hv
    rw [← hv]
    exact getElem?_append_left (List.getElem?_eq_some_iff.mp hv).1
  refine ⟨fun k h hm => ?_, fun c hc h ho => ?_, fun h v hv => ?_, fun hmax v hv => ?_⟩
  · have hm : Function.update s.m key (some s.clients.length) k = some h := hm
    rw [Function.update_apply] at hm
    split_ifs at hm with hk
    · cases hm
      exact ⟨⟨key, 0, 0⟩, getElem?_concat_length, hk.symm⟩
    · obtain ⟨v, hv, hvk⟩ := hi.stored k h hm
      exact ⟨v, hold h v hv, hvk⟩
  · obtain ⟨v, hv, hk⟩ := hi.obtained c hc h ho
    exact ⟨v, hold h v hv, hk⟩
  · rcases getElem?_make hv with hv | ⟨rfl, rfl⟩
    · exact hi.pending h v hv
    · exact (congrArg (BitVec.ofNat 32) hi.counted_length).symm
  · obtain ⟨h, hv⟩ := mem_iff_getElem?.mp hv
    rcases getElem?_make hv with hv | ⟨-, rfl⟩
    · exact hi.conns hmax v (mem_of_getElem? hv)
    · exact hmax

theorem Kept.make (hk : s.Kept) {key : HostKey} (hnone : s.m key = none) : (s.make key).Kept := by
  intro h v hv hbusy
  have hm : (s.make key).m = Function.update s.m key (some s.clients.length) := rfl
  rcases getElem?_make hv with hv' | ⟨rfl, rfl⟩
  · have hbusy' : s.Busy h := by
      refine hbusy.imp_left ?_
      rintro ⟨w, hw, hpos⟩
      obtain rfl : v = w := Option.some.inj (hv.symm.trans hw)
      exact ⟨v, hv', hpos⟩
    have hstored := hk h v hv' hbusy'
    rw [hm, Function.update_of_ne, hstored]
    rintro rfl
    rw [hnone] at hstored
    cases hstored
  · rw [hm, Function.update_self]

theorem sum_pos_of_mem {α : Type} {l : List α} {f : α → Nat} {a : α} (ha : a ∈ l) (hf : 0 < f a) : 0 < (l.map f).sum :=
  Nat.lt_of_lt_of_le hf (Tally.le_sum f ha)

theorem Inv.not_busy (hi : Inv maxConns s) (hidle : s.idle h = true) (hwaiting : s.waiting h = 0) (hcounted : s.counted h < 2 ^ 32) :
    ¬s.Busy h := by
  obtain ⟨v, hv, hzero⟩ := (Option.any_eq_true _ _).mp hidle
  obtain ⟨hconns, hpending⟩ := of_decide_eq_true hzero
  rw [hi.pending h v hv] at hpending
  have hnone : s.counted h = 0 := by
    have := congrArg BitVec.toNat hpending
    rw [BitVec.toNat_ofNat, Nat.mod_eq_of_lt hcounted] at this
    exact this
  rintro (⟨w, hw, hpos⟩ | ⟨c, hc, ho⟩)
  · obtain rfl : v = w := Option.some.inj (hv.symm.trans hw)
    omega
  · unfold DoPc.obtained at ho
    split at ho <;> cases ho
    · rename_i j hpc
      have hpos : 0 < s.waiting h := sum_pos_of_mem hc (by rw [hpc, Tally.one_self]; exact Nat.one_pos)
      omega
    · rename_i j hpc
      have hpos : 0 < s.counted h := sum_pos_of_mem hc (by rw [hpc, Tally.one_self]; exact Nat.one_pos)
      omega

theorem exists_obtained (hbad : ¬(s.waiting h = 0 ∧ s.counted h < 2 ^ 32)) : ∃ c ∈ s.calls, c.pc.obtained = some h := by
  have hpos : 0 < s.waiting h ∨ 0 < s.counted h := by omega
  rcases hpos with hpos | hpos
  · obtain ⟨i, c, hc, hone⟩ := Tally.exists_of_sum_pos _ hpos
    exact ⟨c, mem_of_getElem? hc, by rw [Tally.eq_of_one_pos hone]; rfl⟩
  · obtain ⟨i, c, hc, hone⟩ := Tally.exists_of_sum_pos _ hpos
    exact ⟨c, mem_of_getElem? hc, by rw [Tally.eq_of_one_pos hone]; rfl⟩

inductive Change (maxConns : Int) (s : Hosts) : HostAction → Hosts → Prop
  | keep {a : HostAction} {s' : Hosts} (hf : Frame maxConns s s') (hm : s'.m = s.m) : Change maxConns s a s'
  | make {a : HostAction} {s' : Hosts} (key : HostKey) (hnone : s.m key = none) (hf : Frame maxConns (s.make key) s')
    (hm : s'.m = (s.make key).m) : Change maxConns s a s'
  | remove (key : HostKey) (h : Nat) (visited : Option (List HostKey)) (hm : s.m key = some h) (hidle : s.idle h = true) :
    Change maxConns s (.cleanVisit key) { s with m := Function.update s.m key none, cleaning := visited }

theorem stepCall_change {a : DoStep} (hc : s.calls[i]? = some c) (h : s.stepCall maxConns i c a = some s') :
    Change maxConns s (.run i a) s' := by
  cases a <;> simp only [stepCall] at h <;> (repeat' split at h) <;> try cases h
  · rename_i hpc _ _ hm
    exact .keep (frame_setPc hc (by simp [hpc.1]) fun k hk => by cases hk; exact hm) rfl
  · rename_i hpc _ _
    exact .keep (frame_setPc hc (by simp [hpc.1]) nofun) rfl
  · rename_i hpc _ _ hm
    exact .keep (frame_setPc hc (by simp [hpc.1]) fun k hk => by cases hk; exact hm) rfl
  · rename_i hpc _ hm _
    refine .make c.key hm (frame_setPc (s := s.make c.key) hc (by simp [hpc.1]) fun k hk => ?_) rfl
    cases hk
    exact Function.update_self _ _ _
  · rename_i hpc _ _ _
    exact .keep (frame_setPc hc (by simp [hpc.1]) nofun) rfl
  · exact .keep (frame_count hc ‹_›) rfl
  · obtain ⟨v, hv, h⟩ := Option.bind_eq_some_iff.mp h
    rw [Option.ite_none_right_eq_some, Option.some.injEq] at h
    obtain ⟨hroom, rfl⟩ := h
    refine .keep (frame_modify s.calls (fun w hw => ?_) (fun _ _ => rfl) (fun c' hc' _ ho => .inl ⟨c', hc', rfl, ho⟩)) rfl
    obtain rfl : v = w := Option.some.inj (hv.symm.trans hw)
    refine ⟨rfl, rfl, fun hmax _ => ?_, fun _ => .inr ⟨c, mem_of_getElem? hc, by rw [‹c.pc = _›]; rfl⟩⟩
    simp only
    omega
  · exact .keep (frame_finish hc ‹_›) rfl

theorem step_change (h : s.step maxConns a = some s') : Change maxConns s a s' := by
  cases a with
  | call key =>
    cases h
    exact .keep (frame_call key) rfl
  | run i a =>
    obtain ⟨c, hc, h⟩ := Option.bind_eq_some_iff.mp h
    exact stepCall_change hc h
  | closeConn j =>
    cases h
    exact .keep (frame_closeConn j) rfl
  | cleanStart =>
    rw [step, Option.ite_none_right_eq_some, Option.some.injEq] at h
    obtain ⟨-, rfl⟩ := h
    exact .keep (frame_clean (fun _ _ => id) _) rfl
  | cleanVisit key =>
    simp only [step] at h
    split at h
    · rename_i visited j _ hm
      rw [Option.ite_none_right_eq_some, Option.some.injEq] at h
      obtain ⟨-, rfl⟩ := h
      by_cases hidle : s.idle j = true
      · rw [if_pos hidle]
        exact .remove key j _ hm hidle
      · rw [if_neg hidle]
        exact .keep (frame_clean (fun _ _ => id) _) rfl
    · cases h
  | cleanEnd =>
    simp only [step] at h
    split at h
    · rw [Option.ite_none_right_eq_some, Option.some.injEq] at h
      obtain ⟨-, rfl⟩ := h
      exact .keep (frame_clean (fun _ _ => id) _) rfl
    · cases h

theorem Inv.step (hi : Inv maxConns s) (h : s.step maxConns a = some s') : Inv maxConns s' := by
  cases step_change h with
  | keep hf => exact hi.frame hf
  | make key hnone hf => exact (hi.make key).frame hf
  | remove key j visited hm hidle =>
    refine hi.frame (frame_clean (fun k n hk => ?_) _)
    rw [Function.update_apply] at hk
    split_ifs at hk
    exact hk

theorem Kept.step (hk : s.Kept) (hi : Inv maxConns s) (hsettled : s.Settled a) (h : s.step maxConns a = some s') :
    s'.Kept := by
  cases step_change h with
  | keep hf hm => exact hk.frame hi hf hm
  | make key hnone hf hm => exact (hk.make hnone).frame (hi.make key) hf hm
  | remove key j visited hm hidle =>
    obtain ⟨hwaiting, hcounted⟩ := hsettled j hm hidle
    intro n v hv hbusy
    have hstored := hk n v hv hbusy
    refine (Function.update_of_ne ?_ _ _).trans hstored
    rintro rfl
    obtain rfl : j = n := Option.some.inj (hm.symm.trans hstored)
    exact hi.not_busy hidle hwaiting hcounted hbusy

theorem Kept.onePerHost (hk : s.Kept) (hi : Inv maxConns s) : s.OnePerHost maxConns := by
  have hone : ∀ h h' v v', s.clients[h]? = some v → s.clients[h']? = some v' → v.key = v'.key → s.Busy h → s.Busy h' → h = h' := by
    intro h h' v v' hv hv' hkey hbusy hbusy'
    have hm := hk h v hv hbusy
    rw [hkey, hk h' v' hv' hbusy'] at hm
    exact (Option.some.inj hm).symm
  refine ⟨hone, fun c hc h ho => ?_, fun hmax key => ?_⟩
  · obtain ⟨v, hv, hkey⟩ := hi.obtained c hc h ho
    rw [← hkey]
    exact hk h v hv (.inr ⟨c, hc, ho⟩)
  · have hsum : s.hostConns key ≤ maxConns.toNat := by
      refine Tally.sum_le_of_unique _ (fun h v hv => ?_) (fun h h' v v' hv hv' hpos hpos' => ?_)
      · have hle := hi.conns hmax v (mem_of_getElem? hv)
        split_ifs <;> omega
      · have hin : ∀ {w : MadeClient}, 0 < (if w.key = key then w.connsCount else 0) → w.key = key ∧ 0 < w.connsCount := by
          intro w hw
          split_ifs at hw with hkey
          · exact ⟨hkey, hw⟩
          · omega
        obtain ⟨hkey, hpos⟩ := hin hpos
        obtain ⟨hkey', hpos'⟩ := hin hpos'
        exact hone h h' v v' hv hv' (hkey.trans hkey'.symm) (.inl ⟨v, hv, hpos⟩) (.inl ⟨v', hv', hpos'⟩)
    omega

theorem settled_of_kept (hi : Inv maxConns s) (h : s.step maxConns a = some s') (hone : s'.OnePerHost maxConns) :
    s.Settled a := by
  cases a with
  | cleanVisit key =>
    intro j hm hidle
    by_contra hbad
    obtain ⟨c, hc, ho⟩ := exists_obtained hbad
    obtain ⟨v, hv, hkey⟩ := hi.obtained c hc j ho
    obtain ⟨w, hw, hkey'⟩ := hi.stored key j hm
    obtain rfl : v = w := Option.some.inj (hv.symm.trans hw)
    simp only [step] at h
    split at h
    · rename_i visited n _ hm'
      obtain rfl : j = n := Option.some.inj (hm.symm.trans hm')
      rw [Option.ite_none_right_eq_some, Option.some.injEq] at h
      obtain ⟨-, rfl⟩ := h
      have hstored := hone.kept c hc j ho
      simp only [hidle, if_true, ← hkey, hkey', Function.update_self] at hstored
      cases hstored
    · cases h
  | _ => trivial

/-- At most one host client is busy for each host, throughout a run, exactly if `Clean` always meets settled host clients. -/
theorem onePerHost_iff (maxConns : Int) (as : List HostAction) :
    (machine maxConns).Always (OnePerHost maxConns) new as ↔ (machine maxConns).Along Settled new as := by
  have hnew : Inv maxConns new := by
    refine ⟨?_, ?_, ?_, ?_⟩ <;> simp [new]
  have hkept : new.Kept := fun h v hv => by simp [new] at hv
  constructor
  · exact Machine.along_of_always (I := Inv maxConns) (fun _ _ _ hi h => hi.step h) (fun _ _ _ hi h => settled_of_kept hi h) as hnew
  · refine Machine.always_along (I := fun s => Inv maxConns s ∧ s.Kept) ?_ (fun s hs => hs.2.onePerHost hs.1) as ⟨hnew, hkept⟩
    rintro s a s' ⟨hi, hk⟩ hsettled h
    exact ⟨hi.step h, hk.step hi hsettled h⟩

def cleanedBetween : List HostAction :=
  [.call ⟨ascii "a", false⟩, .run 0 .look, .run 0 (.create true), .cleanStart, .cleanVisit ⟨ascii "a", false⟩, .cleanEnd,
    .call ⟨ascii "a", false⟩, .run 1 .look, .run 1 (.create true), .run 0 .count, .run 1 .count, .run 0 .openConn, .run 1 .openConn]

theorem cleaned_between :
    ((machine 1).exec new cleanedBetween).hostConns ⟨ascii "a", false⟩ = 2 ∧
      ¬(machine 1).Always (OnePerHost 1) new cleanedBetween := by
  refine ⟨by decide +kernel, fun h => ?_⟩
  have hlimit := (Machine.always_exec h).limit (by decide) ⟨ascii "a", false⟩
  exact absurd hlimit (by decide +kernel)

end Hosts

end Fasthttp
