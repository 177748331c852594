import Fasthttp.Bytes
import Fasthttp.Lib.Tally

/-!
# The counter of connections per IP

`perIPConnCounter`, `wrapPerIPConn` and the two kinds of wrapper, under any number of goroutines.
-/

namespace Fasthttp

open List

/-! ## Addresses -/

def to4 (ip : Bytes) : Bytes :=
  if ip.length = 4 then ip
  else if ip.length = 16 ∧ ip.take 12 = List.replicate 10 0 ++ [255, 255] then ip.drop 12
  else []

def getConnIP4 : Option Bytes → Bytes
  | some ip => to4 ip
  | none => List.replicate 10 0 ++ [255, 255, 0, 0, 0, 0]

def ip2uint32 : Bytes → UInt32
  | [a, b, c, d] => a.toUInt32 <<< 24 ||| b.toUInt32 <<< 16 ||| c.toUInt32 <<< 8 ||| d.toUInt32
  | _ => 0

def uint322ip (ip : UInt32) : Bytes := [(ip >>> 24).toUInt8, (ip >>> 16).toUInt8, (ip >>> 8).toUInt8, ip.toUInt8]

theorem uint322ip_ip2uint32 {a : Bytes} (h : ip2uint32 a ≠ 0) : uint322ip (ip2uint32 a) = a := by
  unfold ip2uint32 at h
  split at h
  · simp only [ip2uint32]
    simp only [uint322ip, List.cons.injEq, and_true, ← UInt8.toBitVec_inj]
    refine ⟨?_, ?_, ?_, ?_⟩
    all_goals
      ext i hi
      interval_cases i
      all_goals simp
  · exact absurd rfl h

/-! ## Connections and their wrappers -/

inductive WrapPc
  | arrives
  | rejects
  | rejected
  | acquires
  | passed (h : Option Nat)
  deriving DecidableEq, Repr

/-- What a call of `Close` of a wrapper does next. It has closed the inner connection. -/
inductive ClosePc
  | unregisters
  | unsets
  | puts
  | returned
  deriving DecidableEq, Repr

structure IPConn where
  addr : Option Bytes
  tls : Bool
  pc : WrapPc
  isOpen : Bool
  calls : List ClosePc
  deriving DecidableEq, Repr

def IPConn.ip (c : IPConn) : UInt32 := ip2uint32 (getConnIP4 c.addr)

structure PerIPConn where
  conn : Option Nat
  ip : UInt32
  tls : Bool
  deriving DecidableEq, Repr

/-- The map of the counter is made by the first call of `Register`. -/
structure Books where
  m : Option (UInt32 → Nat)
  conns : List IPConn
  wrappers : List PerIPConn
  pool : List Nat
  panicked : Bool

inductive WrapAction
  | register
  | reject
  | acquire (recycled : Option Nat)
  | close
  | call (i : Nat)
  deriving DecidableEq, Repr

inductive BookAction
  | accept (addr : Option Bytes) (tls : Bool)
  | conn (k : Nat) (a : WrapAction)
  deriving DecidableEq, Repr

namespace Books

def new : Books := ⟨none, [], [], [], false⟩

def count (s : Books) (ip : UInt32) : Nat := (s.m.getD fun _ => 0) ip

def setConn (s : Books) (k : Nat) (c : IPConn) : Books := { s with conns := s.conns.set k c }

def register (s : Books) (ip : UInt32) : Nat × Books :=
  let n := s.count ip + 1
  (n, { s with m := some (Function.update (s.m.getD fun _ => 0) ip n) })

/-- `Unregister` panics before the first call of `Register`. The number does not fall below zero. -/
def unregister (s : Books) (ip : UInt32) : Books :=
  match s.m with
  | none => { s with panicked := true }
  | some m => { s with m := some (Function.update m ip (m ip - 1)) }

/-- `Close` of a wrapper: the connection that it stands for is closed, and it panics without one. -/
def closeWrapper (s : Books) (k : Nat) (c : IPConn) (h : Nat) : Books :=
  match s.wrappers[h]?.bind PerIPConn.conn with
  | none => { s with panicked := true }
  | some j => { s with
      conns := (s.conns.set k { c with calls := c.calls ++ [.unregisters] }).modify j fun c => { c with isOpen := false } }

def runCall (s : Books) (k : Nat) (c : IPConn) (h i : Nat) : ClosePc → Option Books
  | .unregisters => s.wrappers[h]?.map fun w => (s.unregister w.ip).setConn k { c with calls := c.calls.set i .unsets }
  | .unsets =>
    some { s.setConn k { c with calls := c.calls.set i .puts } with wrappers := s.wrappers.modify h fun w => { w with conn := none } }
  | .puts => some { s.setConn k { c with calls := c.calls.set i .returned } with pool := h :: s.pool }
  | .returned => none

def stepConn (max : Nat) (s : Books) (k : Nat) (c : IPConn) : WrapAction → Option Books
  | .register =>
    if c.pc = .arrives then
      if c.ip = 0 then some (s.setConn k { c with pc := .passed none })
      else
        let r := s.register c.ip
        some (r.2.setConn k { c with pc := if max < r.1 then .rejects else .acquires })
    else none
  | .reject => if c.pc = .rejects then some ((s.unregister c.ip).setConn k { c with pc := .rejected }) else none
  | .acquire none =>
    if c.pc = .acquires then
      some { s.setConn k { c with pc := .passed (some s.wrappers.length) } with wrappers := s.wrappers ++ [⟨some k, c.ip, c.tls⟩] }
    else none
  | .acquire (some h) =>
    if c.pc = .acquires ∧ h ∈ s.pool ∧ s.wrappers[h]?.any (·.tls = c.tls) then
      some { s.setConn k { c with pc := .passed (some h) } with
        wrappers := s.wrappers.set h ⟨some k, c.ip, c.tls⟩, pool := s.pool.erase h }
    else none
  | .close =>
    match c.pc with
    | .rejected | .passed none => some (s.setConn k { c with isOpen := false })
    | .passed (some h) => some (s.closeWrapper k c h)
    | _ => none
  | .call i =>
    match c.pc with
    | .passed (some h) => c.calls[i]?.bind (s.runCall k c h i)
    | _ => none

def step (max : Nat) (s : Books) : BookAction → Option Books
  | .accept addr tls => some { s with conns := s.conns ++ [⟨addr, tls, .arrives, true, []⟩] }
  | .conn k a => s.conns[k]?.bind fun c => s.stepConn max k c a

end Books

namespace IPConn

def accepted (c : IPConn) : Bool :=
  match c.pc with
  | .acquires | .passed _ => true
  | _ => false

def live (c : IPConn) : Bool := c.accepted && (c.isOpen || c.calls.contains .unregisters)

def wrapped (c : IPConn) : Bool :=
  match c.pc with
  | .passed (some _) => true
  | _ => false

def rejecting (c : IPConn) : Bool := c.pc = .rejects

def held (c : IPConn) : Option Nat :=
  match c.pc with
  | .passed (some h) => if c.calls = [.returned] then none else some h
  | _ => none

def liveAt (ip : UInt32) (c : IPConn) : Nat := if c.ip = ip then c.live.toNat else 0
def rejectsAt (ip : UInt32) (c : IPConn) : Nat := if c.ip = ip then c.rejecting.toNat else 0
def holds (h : Nat) (c : IPConn) : Nat := if c.held = some h then 1 else 0

def weight (c : IPConn) : Nat := c.live.toNat + c.rejecting.toNat

end IPConn

attribute [simp] IPConn.live IPConn.accepted IPConn.rejecting

namespace Books

variable {h : Nat}

def liveConns (s : Books) (ip : UInt32) : Nat := (s.conns.map (IPConn.liveAt ip)).sum
def rejections (s : Books) (ip : UInt32) : Nat := (s.conns.map (IPConn.rejectsAt ip)).sum
def owners (s : Books) (h : Nat) : Nat := s.pool.count h + (s.conns.map (IPConn.holds h)).sum

inductive Sound (ws : List PerIPConn) (k : Nat) (c : IPConn) : Prop
  | arrives (hpc : c.pc = .arrives) (hopen : c.isOpen = true) (hcalls : c.calls = [])
  | rejects (hpc : c.pc = .rejects) (hip : c.ip ≠ 0) (hcalls : c.calls = [])
  | rejected (hpc : c.pc = .rejected) (hcalls : c.calls = [])
  | acquires (hpc : c.pc = .acquires) (hip : c.ip ≠ 0) (hopen : c.isOpen = true) (hcalls : c.calls = [])
  | plain (hpc : c.pc = .passed none) (hip : c.ip = 0) (hcalls : c.calls = [])
  | wrapped (h : Nat) (hpc : c.pc = .passed (some h)) (hip : c.ip ≠ 0) (hopen : c.isOpen = true) (hcalls : c.calls = [])
    (hw : ws[h]? = some ⟨some k, c.ip, c.tls⟩)
  | closing (h : Nat) (p : ClosePc) (hpc : c.pc = .passed (some h)) (hip : c.ip ≠ 0) (hopen : c.isOpen = false)
    (hcalls : c.calls = [p]) (hp : p = .unregisters ∨ p = .unsets) (hw : ws[h]? = some ⟨some k, c.ip, c.tls⟩)
  | unset (h : Nat) (hpc : c.pc = .passed (some h)) (hip : c.ip ≠ 0) (hopen : c.isOpen = false) (hcalls : c.calls = [.puts])
    (hw : ws[h]? = some ⟨none, c.ip, c.tls⟩)
  | closed (h : Nat) (hpc : c.pc = .passed (some h)) (hip : c.ip ≠ 0) (hopen : c.isOpen = false) (hcalls : c.calls = [.returned])

structure Inv (max : Nat) (s : Books) : Prop where
  counted : ∀ ip ≠ 0, s.count ip = s.liveConns ip + s.rejections ip
  limit : ∀ ip ≠ 0, s.liveConns ip ≤ max
  owned : ∀ h, s.owners h ≤ 1
  known : ∀ h, s.wrappers.length ≤ h → s.owners h = 0
  sound : ∀ k c, s.conns[k]? = some c → Sound s.wrappers k c
  started : s.m = none → ∀ c ∈ s.conns, c.pc = .arrives ∨ c.ip = 0
  addressed : ∀ w ∈ s.wrappers, w.ip ≠ 0 ∧ ∃ c ∈ s.conns, c.ip = w.ip
  quiet : s.panicked = false

theorem inv_new (max : Nat) : Inv max new := by
  refine ⟨fun _ _ => rfl, fun _ _ => Nat.zero_le _, fun _ => Nat.zero_le _, fun _ _ => rfl, ?_, fun _ c hc => ?_, fun w hw => ?_, rfl⟩
  · intro k c hc
    simp [new] at hc
  · simp [new] at hc
  · simp [new] at hw

theorem Sound.of_eq {ws ws' : List PerIPConn} {k : Nat} {c : IPConn} (hs : Sound ws k c)
    (hws : ∀ h, c.held = some h → ws'[h]? = ws[h]?) : Sound ws' k c := by
  cases hs with
  | arrives hpc hopen hcalls => exact .arrives hpc hopen hcalls
  | rejects hpc hip hcalls => exact .rejects hpc hip hcalls
  | rejected hpc hcalls => exact .rejected hpc hcalls
  | acquires hpc hip hopen hcalls => exact .acquires hpc hip hopen hcalls
  | plain hpc hip hcalls => exact .plain hpc hip hcalls
  | wrapped h hpc hip hopen hcalls hw =>
    exact .wrapped h hpc hip hopen hcalls ((hws h (by simp [IPConn.held, hpc, hcalls])).trans hw)
  | closing h p hpc hip hopen hcalls hp hw =>
    refine .closing h p hpc hip hopen hcalls hp ((hws h ?_).trans hw)
    rcases hp with rfl | rfl <;> simp [IPConn.held, hpc, hcalls]
  | unset h hpc hip hopen hcalls hw =>
    exact .unset h hpc hip hopen hcalls ((hws h (by simp [IPConn.held, hpc, hcalls])).trans hw)
  | closed h hpc hip hopen hcalls => exact .closed h hpc hip hopen hcalls

variable {max : Nat} {s : Books} {k : Nat} {c c' : IPConn}

structure Move (max : Nat) (s : Books) (k : Nat) (c c' : IPConn) (m : Option (UInt32 → Nat)) (ws : List PerIPConn) (pool : List Nat) :
    Prop where
  addr : c'.addr = c.addr
  started : m = none → s.m = none ∧ (c'.pc = .arrives ∨ c.ip = 0)
  counted : ∀ ip ≠ 0, (m.getD fun _ => 0) ip + (if c.ip = ip then c.weight else 0) = s.count ip + if c.ip = ip then c'.weight else 0
  limit : c.ip ≠ 0 → c.live = false → c'.live = true → (m.getD fun _ => 0) c.ip ≤ max
  owned : ∀ h, s.owners h + (pool.count h + c'.holds h) ≤ 1 + (s.pool.count h + c.holds h)
  length : s.wrappers.length ≤ ws.length
  known : ∀ h, ws.length ≤ h → pool.count h + c'.holds h = 0
  others : ∀ h, s.pool.count h = 0 → c.held ≠ some h → h < s.wrappers.length → ws[h]? = s.wrappers[h]?
  sound : Sound ws k c'
  addressed : ∀ w ∈ ws, w.ip ≠ 0 ∧ w.ip = c.ip ∨ ∃ w' ∈ s.wrappers, w'.ip = w.ip

theorem Inv.move (hi : Inv max s) (hk : s.conns[k]? = some c) {m : Option (UInt32 → Nat)} {ws : List PerIPConn} {pool : List Nat}
    (hc : Move max s k c c' m ws pool) : Inv max { s with m := m, conns := s.conns.set k c', wrappers := ws, pool := pool } := by
  have haddr : c'.ip = c.ip := congrArg (fun a => ip2uint32 (getConnIP4 a)) hc.addr
  have hlt := (List.getElem?_eq_some_iff.mp hk).1
  have hsum : ∀ ip ≠ 0, (m.getD fun _ => 0) ip =
      ((s.conns.set k c').map (IPConn.liveAt ip)).sum + ((s.conns.set k c').map (IPConn.rejectsAt ip)).sum := by
    intro ip hne
    have h₁ := Tally.sum_set (IPConn.liveAt ip) hk c'
    have h₂ := Tally.sum_set (IPConn.rejectsAt ip) hk c'
    have h₃ := hi.counted ip hne
    have h₄ := hc.counted ip hne
    simp only [liveConns, rejections] at h₃
    simp only [IPConn.liveAt, IPConn.rejectsAt, IPConn.weight, haddr] at h₁ h₂ h₄ ⊢
    split_ifs at h₁ h₂ h₄ <;> omega
  refine ⟨hsum, fun ip hne => ?_, fun h => ?_, fun h hle => ?_, fun j d hj => ?_, fun hnone d hd => ?_, fun w hw => ?_, hi.quiet⟩
  · have h₁ := Tally.sum_set (IPConn.liveAt ip) hk c'
    have h₂ := hi.limit ip hne
    have h₃ := hsum ip hne
    simp only [liveConns] at h₂ ⊢
    by_cases hnew : c.ip = ip ∧ c.live = false ∧ c'.live = true
    · obtain ⟨rfl, hold, hlive⟩ := hnew
      have hmax := hc.limit hne hold hlive
      omega
    · have hless : c'.liveAt ip ≤ c.liveAt ip := by
        simp only [IPConn.liveAt, haddr]
        split_ifs with hip
        · cases hl : c.live <;> cases hl' : c'.live <;> simp_all
        · exact Nat.le_refl _
      omega
  · have h₁ := Tally.sum_set (IPConn.holds h) hk c'
    have h₂ := hc.owned h
    simp only [owners] at h₂ ⊢
    omega
  · have h₁ := Tally.sum_set (IPConn.holds h) hk c'
    have h₂ := hi.known h (hc.length.trans hle)
    have h₃ := hc.known h hle
    simp only [owners] at h₂ ⊢
    omega
  · by_cases hjk : j = k
    · subst hjk
      rw [getElem?_set_self hlt, Option.some.injEq] at hj
      exact hj ▸ hc.sound
    · rw [getElem?_set_ne (Ne.symm hjk)] at hj
      refine (hi.sound j d hj).of_eq fun h hheld => ?_
      -- the wrapper of another connection is neither in a pool nor with this one
      have hadd := Tally.add_le_sum (IPConn.holds h) hk hj hjk
      have hone := hi.owned h
      have hd : d.holds h = 1 := if_pos hheld
      simp only [owners] at hone
      refine hc.others h (by omega) (fun hc => ?_) ?_
      · have : c.holds h = 1 := if_pos hc
        omega
      · by_contra hge
        have hzero := hi.known h (by omega)
        simp only [owners] at hzero
        omega
  · obtain ⟨hm, hfirst⟩ := hc.started hnone
    rcases mem_or_eq_of_mem_set hd with hd | rfl
    · exact hi.started hm d hd
    · exact hfirst.imp_right haddr.trans
  · have hmem : ∀ d ∈ s.conns, ∃ d' ∈ s.conns.set k c', d'.ip = d.ip := by
      intro d hd
      obtain ⟨j, hj⟩ := mem_iff_getElem?.mp hd
      by_cases hjk : j = k
      · subst hjk
        obtain rfl : c = d := Option.some.inj (hk.symm.trans hj)
        exact ⟨c', mem_set hlt _, haddr⟩
      · refine ⟨d, mem_iff_getElem?.mpr ⟨j, ?_⟩, rfl⟩
        rw [getElem?_set_ne (Ne.symm hjk)]
        exact hj
    rcases hc.addressed w hw with ⟨hne, hw⟩ | ⟨w', hw', hip⟩
    · exact ⟨hne, c', mem_set hlt _, haddr.trans hw.symm⟩
    · obtain ⟨hne, d, hd, hd'⟩ := hi.addressed w' hw'
      obtain ⟨d', hmem', hip'⟩ := hmem d hd
      exact ⟨hip ▸ hne, d', hmem', hip'.trans (hd'.trans hip)⟩

theorem Inv.accept (hi : Inv max s) (addr : Option Bytes) (tls : Bool) :
    Inv max { s with conns := s.conns ++ [⟨addr, tls, .arrives, true, []⟩] } := by
  refine ⟨fun ip hne => ?_, fun ip hne => ?_, fun h => ?_, fun h hle => ?_, fun k c hk => ?_,
    fun hnone => forall_mem_append.mpr ⟨hi.started hnone, by simp⟩, fun w hw => ?_, hi.quiet⟩
  · simpa [count, liveConns, rejections, IPConn.liveAt, IPConn.rejectsAt] using hi.counted ip hne
  · simpa [liveConns, IPConn.liveAt] using hi.limit ip hne
  · simpa [owners, IPConn.holds, IPConn.held] using hi.owned h
  · simpa [owners, IPConn.holds, IPConn.held] using hi.known h hle
  · by_cases hlt : k < s.conns.length
    · rw [getElem?_append_left hlt] at hk
      exact hi.sound k c hk
    · rw [getElem?_append_right (by omega), getElem?_singleton, Option.ite_none_right_eq_some, Option.some.injEq] at hk
      rw [← hk.2]
      exact .arrives rfl rfl rfl
  · obtain ⟨hne, c, hc, hip⟩ := hi.addressed w hw
    exact ⟨hne, c, mem_append_left _ hc, hip⟩

theorem count_register (ip ip' : UInt32) : (s.register ip).2.count ip' = s.count ip' + if ip = ip' then 1 else 0 := by
  unfold register count
  by_cases h : ip' = ip
  · simp [h]
  · simp [h, Ne.symm h]

theorem count_unregister {m : UInt32 → Nat} (hm : s.m = some m) (ip ip' : UInt32) :
    ((s.unregister ip).m.getD fun _ => 0) ip' = s.count ip' - if ip = ip' then 1 else 0 := by
  simp only [unregister, count, hm]
  by_cases h : ip' = ip
  · simp [h]
  · simp [h, Ne.symm h]

theorem holds_none (hheld : c.held = none) (h : Nat) : c.holds h = 0 := by
  simp [IPConn.holds, hheld]

theorem holds_some {j : Nat} (hheld : c.held = some j) (h : Nat) : c.holds h = Tally.one j h := by
  simp [IPConn.holds, hheld, Tally.one]

section

variable (hi : Inv max s) (hk : s.conns[k]? = some c)
include hi hk

theorem Inv.some_map (hpc : c.pc ≠ .arrives) (hne : c.ip ≠ 0) : s.m ≠ none := by
  intro hm
  rcases hi.started hm c (mem_of_getElem? hk) with h | h
  · exact hpc h
  · exact hne h

theorem Inv.keep (c' : IPConn) (m : Option (UInt32 → Nat)) (haddr : c'.addr = c.addr)
    (hstarted : m = none → s.m = none ∧ (c'.pc = .arrives ∨ c.ip = 0))
    (hcounted : ∀ ip ≠ 0, (m.getD fun _ => 0) ip + (if c.ip = ip then c.weight else 0) = s.count ip + if c.ip = ip then
      c'.weight else 0)
    (hlimit : c.ip ≠ 0 → c.live = false → c'.live = true → (m.getD fun _ => 0) c.ip ≤ max) (hheld : c'.held = c.held)
    (hsound : Sound s.wrappers k c') : Inv max { s with m := m, conns := s.conns.set k c' } := by
  have hholds : ∀ h, c'.holds h = c.holds h := fun h => by simp [IPConn.holds, hheld]
  have hmove : Move max s k c c' m s.wrappers s.pool := {
    addr := haddr
    started := hstarted
    counted := hcounted
    limit := hlimit
    owned := fun h => by
      have := hi.owned h
      have := hholds h
      omega
    length := Nat.le_refl _
    known := fun h hle => by
      have h₁ := hi.known h hle
      have h₂ := Tally.le_sum (IPConn.holds h) (mem_of_getElem? hk)
      have h₃ := hholds h
      simp only [owners] at h₁
      omega
    others := fun _ _ _ _ => rfl
    sound := hsound
    addressed := fun w hw => .inr ⟨w, hw, rfl⟩ }
  exact hi.move hk hmove

theorem Inv.register (hpc : c.pc = .arrives) (hne : c.ip ≠ 0) :
    Inv max ((s.register c.ip).2.setConn k { c with pc := if max < (s.register c.ip).1 then .rejects else .acquires }) := by
  obtain ⟨hopen, hcalls⟩ : c.isOpen = true ∧ c.calls = [] := by
    cases hi.sound k c hk <;> simp_all
  have hweight : c.weight = 0 := by simp [IPConn.weight, hpc]
  have hheld : c.held = none := by simp [IPConn.held, hpc]
  have hcount : ∀ ip, ((s.register c.ip).2.m.getD fun _ => 0) ip = s.count ip + if c.ip = ip then 1 else 0 := count_register c.ip
  have hn : (s.register c.ip).1 = s.count c.ip + 1 := rfl
  by_cases hmax : max < (s.register c.ip).1
  · rw [if_pos hmax]
    refine hi.keep hk { c with pc := .rejects } (s.register c.ip).2.m rfl (fun h => nomatch h) (fun ip _ => ?_)
      (fun _ _ h => nomatch h)
      hheld.symm (.rejects rfl hne hcalls)
    rw [hcount, hweight]
    simp [IPConn.weight]
  · rw [if_neg hmax]
    refine hi.keep hk { c with pc := .acquires } (s.register c.ip).2.m rfl (fun h => nomatch h) (fun ip _ => ?_) (fun _ _ _ => ?_)
      hheld.symm (.acquires rfl hne hopen hcalls)
    · rw [hcount, hweight]
      simp [IPConn.weight, hopen]
    · rw [hcount, if_pos rfl]
      omega

theorem Inv.pass (hpc : c.pc = .arrives) (hzero : c.ip = 0) :
    Inv max (s.setConn k { c with pc := .passed none }) := by
  have hcalls : c.calls = [] := by
    cases hi.sound k c hk <;> simp_all
  refine hi.keep hk { c with pc := .passed none } s.m rfl (fun h => ⟨h, .inr hzero⟩) (fun ip hne => ?_) (fun hne => absurd hzero hne)
    (by simp [IPConn.held, hpc]) (.plain rfl hzero hcalls)
  rw [if_neg (hzero ▸ hne.symm), if_neg (hzero ▸ hne.symm)]
  rfl

theorem Inv.weight_le (hne : c.ip ≠ 0) : c.weight ≤ s.count c.ip := by
  have hmem := mem_of_getElem? hk
  have h₁ := Tally.le_sum (IPConn.liveAt c.ip) hmem
  have h₂ := Tally.le_sum (IPConn.rejectsAt c.ip) hmem
  have h₃ := hi.counted c.ip hne
  simp only [liveConns, rejections] at h₃
  simp only [IPConn.liveAt, IPConn.rejectsAt, if_pos] at h₁ h₂
  simp only [IPConn.weight]
  omega

theorem Inv.uncount (hne : c.ip ≠ 0) (c' : IPConn) (haddr : c'.addr = c.addr)
    (hpc : c.pc ≠ .arrives) (hweight : c.weight = 1) (hweight' : c'.weight = 0) (hheld : c'.held = c.held)
    (hsound : Sound s.wrappers k c') :
    Inv max ((s.unregister c.ip).setConn k c') := by
  obtain ⟨m, hm⟩ := Option.ne_none_iff_exists'.mp (hi.some_map hk hpc hne)
  have hle := hi.weight_le hk hne
  have hs' : (s.unregister c.ip).setConn k c' = { s with m := (s.unregister c.ip).m, conns := s.conns.set k c' } := by
    simp [unregister, hm, setConn]
  rw [hs']
  refine hi.keep hk c' _ haddr (fun h => ?_) (fun ip _ => ?_) (fun _ _ hlive => ?_) hheld hsound
  · simp [unregister, hm] at h
  · rw [count_unregister hm]
    split_ifs with hip
    · subst hip
      omega
    · rfl
  · simp only [IPConn.weight, hlive, Bool.toNat_true] at hweight'
    omega

theorem Inv.reject (hpc : c.pc = .rejects) :
    Inv max ((s.unregister c.ip).setConn k { c with pc := .rejected }) := by
  obtain ⟨hne, hcalls⟩ : c.ip ≠ 0 ∧ c.calls = [] := by
    cases hi.sound k c hk <;> simp_all
  refine hi.uncount hk hne { c with pc := .rejected } rfl (by simp [hpc]) ?_ ?_ (by simp [IPConn.held, hpc]) (.rejected rfl hcalls)
  · simp [IPConn.weight, hpc]
  · simp [IPConn.weight]

theorem Inv.rewrap (hpc : c.pc ≠ .arrives) (hne : c.ip ≠ 0) (c' : IPConn)
    (ws : List PerIPConn) (pool : List Nat) (haddr : c'.addr = c.addr) (hlive : c'.live = c.live)
    (hrejecting : c'.rejecting = c.rejecting)
    (howned : ∀ h, s.owners h + (pool.count h + c'.holds h) ≤ 1 + (s.pool.count h + c.holds h)) (hlen : s.wrappers.length ≤ ws.length)
    (hknown : ∀ h, ws.length ≤ h → pool.count h + c'.holds h = 0)
    (hothers : ∀ h, s.pool.count h = 0 → c.held ≠ some h → h < s.wrappers.length → ws[h]? = s.wrappers[h]?) (hsound : Sound ws k c')
    (haddressed : ∀ w ∈ ws, w.ip ≠ 0 ∧ w.ip = c.ip ∨ ∃ w' ∈ s.wrappers, w'.ip = w.ip) :
    Inv max { s.setConn k c' with wrappers := ws, pool := pool } := by
  have hmove : Move max s k c c' s.m ws pool := {
    addr := haddr
    started := fun hm => absurd hm (hi.some_map hk hpc hne)
    counted := fun ip _ => by simp only [IPConn.weight, hlive, hrejecting]; rfl
    limit := fun _ hdead hlive' => nomatch hdead.symm.trans (hlive.symm.trans hlive')
    owned := howned
    length := hlen
    known := hknown
    others := hothers
    sound := hsound
    addressed := haddressed }
  exact hi.move hk hmove

theorem Inv.unknown (hle : s.wrappers.length ≤ h) :
    s.pool.count h = 0 ∧ c.holds h = 0 := by
  have h₁ := hi.known h hle
  have h₂ := Tally.le_sum (IPConn.holds h) (mem_of_getElem? hk)
  simp only [owners] at h₁
  omega

theorem Inv.acquire (hpc : c.pc = .acquires) :
    Inv max { s.setConn k { c with pc := .passed (some s.wrappers.length) } with
      wrappers := s.wrappers ++ [⟨some k, c.ip, c.tls⟩] } := by
  obtain ⟨hne, hopen, hcalls⟩ : c.ip ≠ 0 ∧ c.isOpen = true ∧ c.calls = [] := by
    cases hi.sound k c hk <;> simp_all
  have hheld' : ({ c with pc := .passed (some s.wrappers.length) } : IPConn).held = some s.wrappers.length := by
    simp [IPConn.held, hcalls]
  refine hi.rewrap hk (by simp [hpc]) hne _ _ s.pool rfl ?_ ?_ (fun h => ?_) ?_ (fun h hle => ?_) (fun h _ _ hlt => ?_) ?_
    (forall_mem_append.mpr ⟨fun w hw => .inr ⟨w, hw, rfl⟩, by simp [hne]⟩)
  · simp [hpc]
  · simp [hpc]
  · rw [holds_some hheld']
    have hone := hi.owned h
    by_cases heq : s.wrappers.length = h
    · have hzero := hi.known h (by omega)
      rw [heq, Tally.one_self]
      omega
    · rw [Tally.one_eq_zero.mpr heq]
      omega
  · simp
  · rw [length_append, length_singleton] at hle
    have hnone := hi.unknown hk (h := h) (by omega)
    rw [hnone.1, holds_some hheld', Tally.one_eq_zero.mpr (by omega)]
  · exact getElem?_append_left hlt
  · exact .wrapped _ rfl hne hopen hcalls getElem?_concat_length

theorem Inv.recycle (hpc : c.pc = .acquires) (hpool : h ∈ s.pool) :
    Inv max { s.setConn k { c with pc := .passed (some h) } with
      wrappers := s.wrappers.set h ⟨some k, c.ip, c.tls⟩, pool := s.pool.erase h } := by
  obtain ⟨hne, hopen, hcalls⟩ : c.ip ≠ 0 ∧ c.isOpen = true ∧ c.calls = [] := by
    cases hi.sound k c hk <;> simp_all
  have hheld' : ({ c with pc := .passed (some h) } : IPConn).held = some h := by simp [IPConn.held, hcalls]
  have hlt : h < s.wrappers.length := by
    by_contra hge
    have := (hi.unknown hk (h := h) (by omega)).1
    exact absurd hpool (count_eq_zero.mp this)
  -- from the pool to the connection
  have hsame : ∀ j, (s.pool.erase h).count j + ({ c with pc := .passed (some h) } : IPConn).holds j = s.pool.count j := by
    intro j
    rw [holds_some hheld']
    exact Tally.count_erase hpool j
  refine hi.rewrap hk (by simp [hpc]) hne _ _ _ rfl ?_ ?_ (fun j => ?_) ?_ (fun j hle => ?_) (fun j hj _ _ => ?_) ?_ (fun w hw => ?_)
  · simp [hpc]
  · simp [hpc]
  · have hone := hi.owned j
    rw [hsame]
    omega
  · simp
  · rw [length_set] at hle
    rw [hsame]
    exact (hi.unknown hk hle).1
  · refine getElem?_set_ne ?_
    rintro rfl
    exact count_eq_zero.mp hj hpool
  · exact .wrapped h rfl hne hopen hcalls (getElem?_set_self hlt)
  · rcases mem_or_eq_of_mem_set hw with hw | rfl
    · exact .inr ⟨w, hw, rfl⟩
    · exact .inl ⟨hne, rfl⟩

/-! ## The steps of `Close` -/

theorem Inv.closeWrapper (hpc : c.pc = .passed (some h)) (hcalls : c.calls = []) :
    Inv max (s.closeWrapper k c h) := by
  obtain ⟨hne, hopen, hw⟩ : c.ip ≠ 0 ∧ c.isOpen = true ∧ s.wrappers[h]? = some ⟨some k, c.ip, c.tls⟩ := by
    cases hi.sound k c hk <;> simp_all
  have hs' : s.closeWrapper k c h = { s with
      m := s.m, conns := s.conns.set k { c with isOpen := false, calls := [.unregisters] } } := by
    have hmodify : ∀ (l : List IPConn) (c : IPConn) (f : IPConn → IPConn), (l.set k c).modify k f = l.set k (f c) := by
      intro l c f
      refine ext_getElem? fun j => ?_
      rw [getElem?_modify, getElem?_set, getElem?_set]
      split_ifs <;> simp_all
    simp [Books.closeWrapper, hw, hcalls, hmodify]
  rw [hs']
  refine hi.keep hk _ s.m rfl (fun hm => absurd hm (hi.some_map hk (by simp [hpc]) hne)) (fun ip _ => ?_) (fun _ hdead => ?_) ?_
    (.closing h .unregisters hpc hne rfl rfl (.inl rfl) hw)
  · simp [IPConn.weight, hopen, count]
  · simp [hpc, hopen] at hdead
  · simp [IPConn.held, hcalls]

theorem Inv.closeRaw (hpc : c.pc = .rejected ∨ c.pc = .passed none) :
    Inv max (s.setConn k { c with isOpen := false }) := by
  have hs := hi.sound k c hk
  have hcalls : c.calls = [] := by
    cases hs <;> simp_all
  rcases hpc with hpc | hpc
  · refine hi.keep hk { c with isOpen := false } s.m rfl (fun hm => ?_) (fun ip _ => ?_)
      (fun _ _ hlive => ?_) rfl (.rejected hpc hcalls)
    · rcases hi.started hm c (mem_of_getElem? hk) with h0 | h0
      · simp [hpc] at h0
      · exact ⟨hm, .inr h0⟩
    · simp [IPConn.weight, hpc, count]
    · simp [hpc] at hlive
  · have hzero : c.ip = 0 := by
      cases hs <;> simp_all
    refine hi.keep hk { c with isOpen := false } s.m rfl (fun hm => ⟨hm, .inr hzero⟩) (fun ip hne => ?_)
      (fun hne => absurd hzero hne) rfl
      (.plain hpc hzero hcalls)
    rw [if_neg (hzero ▸ hne.symm), if_neg (hzero ▸ hne.symm)]
    rfl

theorem Inv.held_lt (hheld : c.held = some h) :
    h < s.wrappers.length ∧ s.pool.count h = 0 := by
  have hone := hi.owned h
  have hle := Tally.le_sum (IPConn.holds h) (mem_of_getElem? hk)
  rw [holds_some hheld, Tally.one_self] at hle
  simp only [owners] at hone
  by_contra hge
  have hzero := (hi.unknown hk (h := h) (by omega)).2
  rw [holds_some hheld, Tally.one_self] at hzero
  omega

theorem Inv.unset (hpc : c.pc = .passed (some h)) (hne : c.ip ≠ 0)
    (hopen : c.isOpen = false) (hcalls : c.calls = [.unsets]) (hw : s.wrappers[h]? = some ⟨some k, c.ip, c.tls⟩) :
    Inv max { s.setConn k { c with calls := [.puts] } with wrappers := s.wrappers.modify h fun w => { w with conn := none } } := by
  have hheld : c.held = some h := by simp [IPConn.held, hpc, hcalls]
  have hheld' : ({ c with calls := [.puts] } : IPConn).held = some h := by simp [IPConn.held, hpc]
  refine hi.rewrap hk (by simp [hpc]) hne _ _ s.pool rfl ?_ rfl (fun j => ?_) ?_ (fun j hle => ?_)
    (fun j _ hj _ => ?_) ?_ (fun w hw => ?_)
  · simp [hcalls]
  · have hone := hi.owned j
    rw [holds_some hheld, holds_some hheld']
    omega
  · simp
  · rw [length_modify] at hle
    have hnone := hi.unknown hk hle
    rw [holds_some hheld] at hnone
    rw [holds_some hheld', hnone.1, hnone.2]
  · refine getElem?_modify_ne _ _ ?_
    rintro rfl
    exact hj hheld
  · refine .unset h hpc hne hopen rfl ?_
    rw [getElem?_modify_eq, hw]
    rfl
  · obtain ⟨j, hj⟩ := mem_iff_getElem?.mp hw
    rw [getElem?_modify, Option.map_eq_map, Option.map_eq_some_iff] at hj
    obtain ⟨w', hw', rfl⟩ := hj
    refine .inr ⟨w', mem_of_getElem? hw', ?_⟩
    split <;> rfl

theorem Inv.put (hpc : c.pc = .passed (some h)) (hne : c.ip ≠ 0)
    (hopen : c.isOpen = false) (hcalls : c.calls = [.puts]) :
    Inv max { s.setConn k { c with calls := [.returned] } with pool := h :: s.pool } := by
  have hheld : c.held = some h := by simp [IPConn.held, hpc, hcalls]
  have hheld' : ({ c with calls := [.returned] } : IPConn).held = none := by simp [IPConn.held, hpc]
  obtain ⟨hlt, -⟩ := hi.held_lt hk hheld
  refine hi.rewrap hk (by simp [hpc]) hne _ s.wrappers _ rfl ?_ rfl (fun j => ?_) (Nat.le_refl _) (fun j hle => ?_)
    (fun _ _ _ _ => rfl)
    (.closed h hpc hne hopen rfl) (fun w hw => .inr ⟨w, hw, rfl⟩)
  · simp [hcalls]
  · have hone := hi.owned j
    rw [holds_some hheld, holds_none hheld', Tally.count_cons]
    omega
  · have hnone := hi.unknown hk hle
    rw [holds_none hheld', Tally.count_cons, hnone.1, Tally.one_eq_zero.mpr (by omega)]

theorem Inv.runCall {s' : Books} {i : Nat} (hpc : c.pc = .passed (some h)) {p : ClosePc}
    (hp : c.calls[i]? = some p) (hrun : s.runCall k c h i p = some s') : Inv max s' := by
  have hfirst : ∀ q, c.calls = [q] → i = 0 ∧ q = p := by
    intro q hq
    rw [hq, getElem?_singleton] at hp
    split_ifs at hp with hi
    exact ⟨hi, Option.some.inj hp⟩
  cases hi.sound k c hk with
  | arrives h0 | rejects h0 | rejected h0 | acquires h0 | plain h0 => simp [h0] at hpc
  | wrapped _ _ _ _ hcalls => simp [hcalls] at hp
  | closing h' q hpc' hne hopen hcalls hq hw =>
    obtain rfl : h = h' := by simpa [hpc'] using hpc.symm
    obtain ⟨rfl, rfl⟩ := hfirst q hcalls
    rcases hq with rfl | rfl
    · simp only [Books.runCall, hw, Option.map_some, Option.some.injEq, hcalls] at hrun
      rw [← hrun]
      refine hi.uncount hk hne _ rfl (by simp [hpc]) ?_ ?_ ?_ (.closing h .unsets hpc hne hopen rfl (.inr rfl) hw)
      · simp [IPConn.weight, hpc, hcalls]
      · simp [IPConn.weight, hpc, hopen]
      · simp [IPConn.held, hcalls]
    · simp only [Books.runCall, Option.some.injEq, hcalls] at hrun
      rw [← hrun]
      exact hi.unset hk hpc hne hopen hcalls hw
  | unset h' hpc' hne hopen hcalls hw =>
    obtain ⟨rfl, rfl⟩ := hfirst _ hcalls
    simp only [Books.runCall, Option.some.injEq, hcalls] at hrun
    rw [← hrun]
    exact hi.put hk hpc hne hopen hcalls
  | closed h' hpc' hne hopen hcalls =>
    obtain ⟨rfl, rfl⟩ := hfirst _ hcalls
    cases hrun

end

/-- `Close` of the connection's wrapper is called for the first time. -/
def First (s : Books) : BookAction → Prop
  | .conn k .close => ∀ c ∈ s.conns[k]?, c.wrapped = true → c.calls = []
  | _ => True

instance (s : Books) : (a : BookAction) → Decidable (s.First a)
  | .conn k .close => inferInstanceAs (Decidable (∀ c ∈ s.conns[k]?, c.wrapped = true → c.calls = []))
  | .accept _ _ | .conn _ .register | .conn _ .reject | .conn _ (.acquire _) | .conn _ (.call _) => .isTrue trivial

theorem Inv.step {s' : Books} {a : BookAction} (hi : Inv max s) (hfirst : s.First a) (hstep : s.step max a = some s') :
    Inv max s' := by
  cases a with
  | accept addr tls => exact Option.some.inj hstep ▸ hi.accept addr tls
  | conn k a =>
    obtain ⟨c, hk, hstep⟩ := Option.bind_eq_some_iff.mp hstep
    cases a with
    | register =>
      rw [stepConn, Option.ite_none_right_eq_some] at hstep
      obtain ⟨hpc, hstep⟩ := hstep
      by_cases hip : c.ip = 0
      · rw [if_pos hip] at hstep
        exact Option.some.inj hstep ▸ hi.pass hk hpc hip
      · rw [if_neg hip] at hstep
        exact Option.some.inj hstep ▸ hi.register hk hpc hip
    | reject =>
      simp only [stepConn, Option.ite_none_right_eq_some, Option.some.injEq] at hstep
      obtain ⟨hpc, rfl⟩ := hstep
      exact hi.reject hk hpc
    | acquire recycled =>
      rcases recycled with _ | h
      · simp only [stepConn, Option.ite_none_right_eq_some, Option.some.injEq] at hstep
        obtain ⟨hpc, rfl⟩ := hstep
        exact hi.acquire hk hpc
      · simp only [stepConn, Option.ite_none_right_eq_some, Option.some.injEq] at hstep
        obtain ⟨⟨hpc, hpool, -⟩, rfl⟩ := hstep
        exact hi.recycle hk hpc hpool
    | close =>
      simp only [stepConn] at hstep
      split at hstep <;> cases hstep
      · rename_i hpc
        exact hi.closeRaw hk (.inl hpc)
      · rename_i hpc
        exact hi.closeRaw hk (.inr hpc)
      · rename_i h hpc
        exact hi.closeWrapper hk hpc (hfirst c hk (by simp [IPConn.wrapped, hpc]))
    | call i =>
      simp only [stepConn] at hstep
      split at hstep
      · rename_i h hpc
        obtain ⟨p, hp, hrun⟩ := Option.bind_eq_some_iff.mp hstep
        exact hi.runCall hk hpc hp hrun
      · cases hstep

/-! ## The accounts of the addresses -/

def unregistered (c : IPConn) : Nat := c.calls.countP (· ≠ .unregisters)

def openOf (s : Books) (a : Bytes) : Nat := s.conns.countP fun c => getConnIP4 c.addr = a ∧ c.live = true

def rejectedOf (s : Books) (a : Bytes) : Nat := s.conns.countP fun c => getConnIP4 c.addr = a ∧ c.rejecting = true

/-- The counter of each address is the number of its open and just rejected connections, within the limit. -/
structure Accounted (max : Nat) (s : Books) : Prop where
  counted : ∀ a, ip2uint32 a ≠ 0 → s.count (ip2uint32 a) = s.openOf a + s.rejectedOf a
  limit : ∀ a, ip2uint32 a ≠ 0 → s.openOf a ≤ max
  once : ∀ c ∈ s.conns, c.accepted = true → c.ip ≠ 0 → unregistered c + c.live.toNat = 1
  quiet : s.panicked = false

theorem ip_eq_iff {a : Bytes} (h : ip2uint32 a ≠ 0) : c.ip = ip2uint32 a ↔ getConnIP4 c.addr = a := by
  constructor
  · intro hip
    have hne : ip2uint32 (getConnIP4 c.addr) ≠ 0 := fun h0 => h (hip.symm.trans h0)
    rw [← uint322ip_ip2uint32 h, ← uint322ip_ip2uint32 hne]
    exact congrArg uint322ip hip
  · intro ha
    rw [IPConn.ip, ha]

theorem countP_eq_sum {a : Bytes} (h : ip2uint32 a ≠ 0) (p : IPConn → Bool) (l : List IPConn) :
    l.countP (fun c => getConnIP4 c.addr = a ∧ p c = true) = (l.map fun c => if c.ip = ip2uint32 a then (p c).toNat else 0).sum := by
  induction l with
  | nil => rfl
  | cons c l ih =>
    rw [countP_cons, map_cons, ih, Nat.add_comm]
    simp only [ip_eq_iff h]
    by_cases ha : getConnIP4 c.addr = a <;> cases p c <;> simp

theorem Inv.accounted (hi : Inv max s) : s.Accounted max := by
  have hopen : ∀ a, ip2uint32 a ≠ 0 → s.openOf a = s.liveConns (ip2uint32 a) := fun a ha => countP_eq_sum ha IPConn.live s.conns
  have hrejected : ∀ a, ip2uint32 a ≠ 0 → s.rejectedOf a = s.rejections (ip2uint32 a) :=
    fun a ha => countP_eq_sum ha IPConn.rejecting s.conns
  refine ⟨fun a ha => ?_, fun a ha => ?_, fun c hc haccepted hne => ?_, hi.quiet⟩
  · rw [hopen a ha, hrejected a ha]
    exact hi.counted _ ha
  · rw [hopen a ha]
    exact hi.limit _ ha
  · obtain ⟨k, hk⟩ := mem_iff_getElem?.mp hc
    cases hi.sound k c hk with
    | arrives hpc | rejects hpc | rejected hpc => simp [IPConn.accepted, hpc] at haccepted
    | plain _ hip => exact absurd hip hne
    | acquires _ _ hopen hcalls | wrapped _ _ _ hopen hcalls => simp [unregistered, -IPConn.accepted, haccepted, hopen, hcalls]
    | closing _ _ _ _ hopen hcalls hp =>
      rcases hp with rfl | rfl <;> simp [unregistered, -IPConn.accepted, haccepted, hopen, hcalls]
    | unset _ _ _ hopen hcalls | closed _ _ _ hopen hcalls => simp [unregistered, hopen, hcalls]

/-! ## A second call of `Close` -/

theorem Inv.second_close (hi : Inv max s) (hk : s.conns[k]? = some c) (hpc : c.pc = .passed (some h)) (hcalls : c.calls ≠ [])
    (hquiet : (s.closeWrapper k c h).panicked = false) :
    ∃ addr s₁ s₂ s₃, (s.closeWrapper k c h).step max (.accept addr false) = some s₁ ∧ s₁.panicked = false ∧
      s₁.step max (.conn s.conns.length .register) = some s₂ ∧ s₂.panicked = false ∧ s₂.step max (.conn k (.call 1)) = some s₃ ∧
      ∃ ip, s₃.count ip ≠ s₂.count ip := by
  have hlt := (List.getElem?_eq_some_iff.mp hk).1
  obtain ⟨p, hp⟩ : ∃ p, c.calls = [p] := by
    cases hi.sound k c hk with
    | arrives _ _ hnil | rejects _ _ hnil | rejected _ hnil | acquires _ _ _ hnil | plain _ _ hnil | wrapped _ _ _ _ hnil =>
      exact absurd hnil hcalls
    | closing _ p _ _ _ hp => exact ⟨p, hp⟩
    | unset _ _ _ _ hp | closed _ _ _ _ hp => exact ⟨_, hp⟩
  rcases hconn : s.wrappers[h]?.bind PerIPConn.conn with _ | j
  · simp [Books.closeWrapper, hconn] at hquiet
  obtain ⟨w, hw, -⟩ := Option.bind_eq_some_iff.mp hconn
  obtain ⟨hws, c', hk', hpc', hcalls'⟩ : (s.closeWrapper k c h).wrappers = s.wrappers ∧
      ∃ c', (s.closeWrapper k c h).conns[k]? = some c' ∧ c'.pc = c.pc ∧ c'.calls = c.calls ++ [.unregisters] := by
    simp only [Books.closeWrapper, hconn]
    rw [getElem?_modify, getElem?_set_self hlt]
    refine ⟨trivial, _, rfl, ?_⟩
    split <;> exact ⟨rfl, rfl⟩
  obtain ⟨hne, d, -, hd⟩ := hi.addressed w (mem_of_getElem? hw)
  have hlen : (s.closeWrapper k c h).conns.length = s.conns.length := by
    unfold Books.closeWrapper
    split <;> simp
  generalize s.closeWrapper k c h = b at *
  have hnew : (b.conns ++ [(⟨d.addr, false, .arrives, true, []⟩ : IPConn)])[s.conns.length]? =
      some ⟨d.addr, false, .arrives, true, []⟩ := by
    rw [← hlen]
    exact getElem?_concat_length
  have hip : (⟨d.addr, false, .arrives, true, []⟩ : IPConn).ip = w.ip := hd
  let s₁ : Books := { b with conns := b.conns ++ [⟨d.addr, false, .arrives, true, []⟩] }
  let s₂ : Books := (s₁.register w.ip).2.setConn s.conns.length
    ⟨d.addr, false, if max < (s₁.register w.ip).1 then .rejects else .acquires, true, []⟩
  have hk₂ : s₂.conns[k]? = some c' := by
    have hne : s.conns.length ≠ k := by omega
    simp only [s₂, setConn, Books.register]
    rw [getElem?_set_ne hne, getElem?_append_left (by omega), hk']
  have hw₂ : s₂.wrappers[h]? = some w := by
    rw [← hw, ← hws]
    rfl
  refine ⟨d.addr, s₁, s₂, (s₂.unregister w.ip).setConn k { c' with calls := c'.calls.set 1 .unsets }, rfl, hquiet, ?_,
    hquiet, ?_, w.ip, ?_⟩
  · simp only [Books.step, s₁, hnew, Option.bind_some, stepConn, hip, hne]
    rfl
  · simp [Books.step, hk₂, stepConn, hpc', hpc, hcalls', hp, Books.runCall, hw₂]
  · have hcount : ((s₂.unregister w.ip).m.getD fun _ => 0) w.ip = s₂.count w.ip - if w.ip = w.ip then 1 else 0 :=
      count_unregister rfl w.ip w.ip
    have hpos : s₂.count w.ip = s₁.count w.ip + if w.ip = w.ip then 1 else 0 := count_register w.ip w.ip
    rw [if_pos rfl] at hcount hpos
    intro hsame
    have hsame : ((s₂.unregister w.ip).m.getD fun _ => 0) w.ip = s₂.count w.ip := hsame
    omega

end Books

end Fasthttp
