import Fasthttp.Lib.Machine

/-!
# The addresses of a dial

`dial` and `getTCPAddrs` of `tcpdialer.go`. The addresses of a name are kept for dials of both kinds.
-/

namespace Fasthttp

open List

inductive DialOutcome
  | conn
  | timeout
  | failed
  deriving DecidableEq, Repr

def dialLoop (outcome : Nat → DialOutcome) (k : Nat) : Nat → UInt32 → List Nat × Bool
  | 0, _ => ([], false)
  | n + 1, idx =>
    let a := idx.toNat % (n + 1)
    match outcome k with
    | .conn => ([a], true)
    | .timeout => ([a], false)
    | .failed =>
      let r := dialLoop outcome (k + 1) n (idx + 1)
      (a :: r.1, r.2)

/-- `dial` over a list of this length. The length is cut to 32 bits. -/
def dialAddrs (len : Nat) (idx : UInt32) (outcome : Nat → DialOutcome) : List Nat × Bool := dialLoop outcome 0 (len % 2 ^ 32) idx

def attempts : Nat → UInt32 → List Nat
  | 0, _ => []
  | n + 1, idx => idx.toNat % (n + 1) :: attempts n (idx + 1)

theorem attempts_lt {n : Nat} {idx : UInt32} : ∀ a ∈ attempts n idx, a < n := by
  induction n generalizing idx with
  | zero => simp [attempts]
  | succ n ih =>
    rintro a (_ | ⟨_, ha⟩)
    · exact Nat.mod_lt _ (Nat.succ_pos n)
    · exact Nat.lt_succ_of_lt (ih a ha)

theorem mod_eq_last_iff (x n : Nat) : x % (n + 1) = n ↔ n + 1 ∣ x + 1 := by
  constructor
  · intro h
    refine ⟨x / (n + 1) + 1, ?_⟩
    have := Nat.div_add_mod x (n + 1)
    rw [Nat.mul_add]
    omega
  · rintro ⟨c, hc⟩
    cases c with
    | zero => omega
    | succ c =>
      rw [Nat.mul_succ] at hc
      have hx : x = n + (n + 1) * c := by omega
      rw [hx, Nat.add_mul_mod_self_left, Nat.mod_eq_of_lt (Nat.lt_succ_self n)]

theorem attempts_perm_iff {n : Nat} {idx : UInt32} :
    (attempts n idx).Perm (range n) ↔ ∀ m, 0 < m → m ≤ n → m ∣ (idx + UInt32.ofNat (n - m)).toNat + 1 := by
  induction n generalizing idx with
  | zero =>
    refine iff_of_true (Perm.refl _) ?_
    intro m hpos hle
    omega
  | succ n ih =>
    have hrest : (attempts n (idx + 1)).Perm (range n) ↔ ∀ m, 0 < m → m ≤ n → m ∣ (idx + UInt32.ofNat (n + 1 - m)).toNat + 1 := by
      rw [ih]
      refine forall_congr' fun m => imp_congr_right fun _ => imp_congr_right fun hle => ?_
      have hsub : n + 1 - m = n - m + 1 := by omega
      rw [hsub, UInt32.ofNat_add, UInt32.add_comm (UInt32.ofNat (n - m)), ← UInt32.add_assoc]
      rfl
    have hfirst : idx.toNat % (n + 1) = n ↔ n + 1 ∣ (idx + UInt32.ofNat (n + 1 - (n + 1))).toNat + 1 := by
      rw [mod_eq_last_iff, Nat.sub_self]
      have hzero : idx + UInt32.ofNat 0 = idx := UInt32.add_zero idx
      rw [hzero]
    constructor
    · intro h m hpos hle
      have hmem : n ∈ attempts (n + 1) idx := h.symm.subset (by simp)
      have ha : idx.toNat % (n + 1) = n := by
        rcases mem_cons.mp hmem with ha | ha
        · exact ha.symm
        · exact absurd (attempts_lt n ha) (Nat.lt_irrefl n)
      rcases Nat.eq_or_lt_of_le hle with rfl | hlt
      · exact hfirst.mp ha
      · rw [attempts, ha, range_succ] at h
        have htail := (perm_cons n).mp (h.trans (perm_append_singleton n (range n)))
        exact hrest.mp htail m hpos (by omega)
    · intro h
      have ha := hfirst.mpr (h (n + 1) (Nat.succ_pos n) (Nat.le_refl _))
      rw [attempts, ha, range_succ]
      exact ((hrest.mpr fun m hpos hle => h m hpos (by omega)).cons n).trans (perm_append_singleton n (range n)).symm

/-- Every address is tried before an error is returned, and none behind the first success. -/
structure Exhausts (len : Nat) (outcome : Nat → DialOutcome) (r : List Nat × Bool) : Prop where
  every : r.2 = false → r.1.Perm (range len)
  first : ∀ k, k < r.1.length → outcome k = .conn → k + 1 = r.1.length ∧ r.2 = true

theorem dialLoop_spec {outcome : Nat → DialOutcome} (hfail : ∀ k, outcome k ≠ .timeout) (k n : Nat) (idx : UInt32) :
    ((dialLoop outcome k n idx).2 = false → (dialLoop outcome k n idx).1 = attempts n idx) ∧
    ∀ j, j < (dialLoop outcome k n idx).1.length → outcome (k + j) = .conn →
      j + 1 = (dialLoop outcome k n idx).1.length ∧ (dialLoop outcome k n idx).2 = true := by
  induction n generalizing k idx with
  | zero => exact ⟨fun _ => rfl, fun j hj => absurd hj (Nat.not_lt_zero j)⟩
  | succ n ih =>
    obtain ⟨hall, hfirst⟩ := ih (k + 1) (idx + 1)
    unfold dialLoop
    rcases hk : outcome k with _ | _ | _
    · refine ⟨fun h => by simp at h, fun j hj _ => ⟨?_, rfl⟩⟩
      simpa using hj
    · exact absurd hk (hfail k)
    · refine ⟨fun h => by rw [attempts, ← hall h], ?_⟩
      intro j hj hconn
      cases j with
      | zero => rw [Nat.add_zero, hk] at hconn; cases hconn
      | succ j =>
        have hconn' : outcome (k + 1 + j) = .conn := by rwa [Nat.add_right_comm]
        simp only [length_cons, Nat.succ_lt_succ_iff] at hj
        obtain ⟨hlen, hok⟩ := hfirst j hj hconn'
        exact ⟨congrArg Nat.succ hlen, hok⟩

theorem dialLoop_ok {outcome : Nat → DialOutcome} (hfail : ∀ k, outcome k ≠ .timeout) (k n : Nat) (idx : UInt32) :
    (dialLoop outcome k n idx).2 = true ↔ ∃ j < n, outcome (k + j) = .conn := by
  induction n generalizing k idx with
  | zero => simp [dialLoop]
  | succ n ih =>
    unfold dialLoop
    rcases hk : outcome k with _ | _ | _
    · exact iff_of_true rfl ⟨0, Nat.succ_pos n, hk⟩
    · exact absurd hk (hfail k)
    · rw [ih (k + 1) (idx + 1)]
      constructor
      · rintro ⟨j, hj, hconn⟩
        exact ⟨j + 1, Nat.succ_lt_succ hj, by rwa [Nat.add_right_comm] at hconn⟩
      · rintro ⟨_ | j, hj, hconn⟩
        · rw [Nat.add_zero, hk] at hconn
          cases hconn
        · exact ⟨j, Nat.lt_of_succ_lt_succ hj, by rwa [Nat.add_right_comm]⟩

/-- A dial does what it ought to exactly when it comes to a connection, or when each number up to the count of the
addresses divides the index of its attempt. -/
theorem dial_exhausts_iff (len : Nat) (idx : UInt32) (outcome : Nat → DialOutcome) (hfail : ∀ k, outcome k ≠ .timeout) :
    Exhausts len outcome (dialAddrs len idx outcome) ↔ (∃ k < len % 2 ^ 32, outcome k = .conn) ∨
      len < 2 ^ 32 ∧ ∀ m, 0 < m → m ≤ len → m ∣ (idx + UInt32.ofNat (len - m)).toNat + 1 := by
  have hok := dialLoop_ok hfail 0 (len % 2 ^ 32) idx
  obtain ⟨hall, hfirst⟩ := dialLoop_spec hfail 0 (len % 2 ^ 32) idx
  simp only [Nat.zero_add] at hok hfirst
  unfold dialAddrs
  constructor
  · intro h
    by_cases hconn : ∃ k < len % 2 ^ 32, outcome k = .conn
    · exact .inl hconn
    have hnone := Bool.not_eq_true _ ▸ mt hok.mp hconn
    have hperm := h.every hnone
    rw [hall hnone] at hperm
    have hlen : len < 2 ^ 32 := by
      cases len with
      | zero => omega
      | succ n =>
        have hlast : n < (n + 1) % 2 ^ 32 := attempts_lt n (hperm.symm.subset (by simp))
        have := Nat.mod_lt (n + 1) (by decide : 0 < 2 ^ 32)
        omega
    rw [Nat.mod_eq_of_lt hlen] at hperm
    exact .inr ⟨hlen, attempts_perm_iff.mp hperm⟩
  · intro h
    refine ⟨fun hnone => ?_, hfirst⟩
    rcases h with hconn | ⟨hlen, hdvd⟩
    · exact absurd (hok.mpr hconn) (Bool.not_eq_true _ ▸ hnone)
    · rw [hall hnone, Nat.mod_eq_of_lt hlen]
      exact attempts_perm_iff.mpr hdvd

theorem dial_exhausts_two : Exhausts 2 (fun _ => .failed) (dialAddrs 2 1 fun _ => .failed) :=
  (dial_exhausts_iff 2 1 _ (by simp)).mpr (.inr ⟨by decide, fun m hpos hle => by
    obtain rfl | rfl : m = 1 ∨ m = 2 := by omega
    all_goals decide⟩)

theorem dial_skips : dialAddrs 3 1 (fun _ => .failed) = ([1, 0, 0], false) := by decide

/-! ## The addresses of a name -/

structure Addr where
  ip : Nat
  v4 : Bool
  deriving DecidableEq, Repr

structure AddrEntry where
  addrs : List Addr
  dual : Bool
  answer : List Addr
  deriving DecidableEq, Repr

def usable (dual : Bool) (answer : List Addr) : List Addr := answer.filter fun a => dual || a.v4

inductive Dial (N : Type)
  | loads (name : N) (dual : Bool)
  | resolves (name : N) (dual : Bool)
  | tries (dual : Bool) (e : AddrEntry)
  | noEntries (dual : Bool) (answer : List Addr)
  | fails

structure Dialer (N : Type) where
  map : N → Option AddrEntry
  dials : List (Dial N)

inductive DialerStep (N : Type)
  | dial (name : N) (dual : Bool)
  /-- `again` says that the entry has expired and that no other goroutine has set `pending` to ask again. -/
  | load (i : Nat) (again : Bool)
  | resolve (i : Nat) (answer : Option (List Addr))
  /-- `tcpAddrsClean` -/
  | evict (name : N)

namespace Dialer

variable {N : Type} [DecidableEq N]

def new : Dialer N := ⟨fun _ => none, []⟩

def step (s : Dialer N) : DialerStep N → Option (Dialer N)
  | .dial name dual => some { s with dials := s.dials ++ [.loads name dual] }
  | .load i again =>
    match s.dials[i]? with
    | some (.loads name dual) =>
      match s.map name, again with
      | some e, false => some { s with dials := s.dials.set i (.tries dual e) }
      | _, _ => some { s with dials := s.dials.set i (.resolves name dual) }
    | _ => none
  | .resolve i answer =>
    match s.dials[i]? with
    | some (.resolves name dual) =>
      match answer with
      | none => some { s with dials := s.dials.set i .fails }
      | some answer =>
        if usable dual answer = [] then some { s with dials := s.dials.set i (.noEntries dual answer) }
        else
          let e := ⟨usable dual answer, dual, answer⟩
          some { map := Function.update s.map name (some e), dials := s.dials.set i (.tries dual e) }
    | _ => none
  | .evict name => some { s with map := Function.update s.map name none }

def machine : Machine (Dialer N) (DialerStep N) := ⟨step⟩

end Dialer

namespace AddrEntry

def Made (e : AddrEntry) : Prop := e.addrs = usable e.dual e.answer

def Serves (e : AddrEntry) (dual : Bool) : Prop := e.dual = dual ∨ ∀ a ∈ e.answer, a.v4 = true

end AddrEntry

namespace Dial

variable {N : Type}

/-- A dial may use every address of the answer with `dualStack`, and IPv4 addresses alone without it. -/
def Right : Dial N → Prop
  | tries true e => e.addrs = e.answer
  | tries false e => ∀ a ∈ e.addrs, a.v4 = true
  | noEntries dual answer => ∀ a ∈ answer, dual = false ∧ a.v4 = false
  | _ => True

theorem right_tries_iff {dual : Bool} {e : AddrEntry} (h : e.Made) : (tries dual e : Dial N).Right ↔ e.Serves dual := by
  unfold AddrEntry.Made usable at h
  cases dual <;> rcases hd : e.dual <;> simp [Right, AddrEntry.Serves, h, hd, filter_eq_self]

end Dial

namespace Dialer

variable {N : Type} [DecidableEq N] {s s' : Dialer N} {a : DialerStep N}

def Inv (s : Dialer N) : Prop := ∀ name e, s.map name = some e → e.Made

def AllRight (s : Dialer N) : Prop := ∀ d ∈ s.dials, d.Right

/-- An entry that is taken from the map serves the dial. -/
def Fair (s : Dialer N) : DialerStep N → Prop
  | .load i false =>
    match s.dials[i]? with
    | some (.loads name dual) => ∀ e ∈ s.map name, e.Serves dual
    | _ => True
  | _ => True

theorem inv_update (h : s.Inv) {name : N} {e : Option AddrEntry} {dials : List (Dial N)} (he : ∀ e' ∈ e, e'.Made) :
    Inv ⟨Function.update s.map name e, dials⟩ := by
  intro n e' hmap
  simp only [Function.update_apply] at hmap
  split at hmap
  · exact he e' hmap
  · exact h n e' hmap

theorem step_cases (h : s.Inv) (hstep : s.step a = some s') : s'.Inv ∧
    ((s.Fair a ∧ ∃ l, s'.dials = s.dials ++ l ∧ ∀ d ∈ l, d.Right) ∨
      ∃ i d, i < s.dials.length ∧ s'.dials = s.dials.set i d ∧ (s.Fair a ↔ d.Right)) := by
  have hlt {i : Nat} {d : Dial N} (hi : s.dials[i]? = some d) : i < s.dials.length := (List.getElem?_eq_some_iff.mp hi).1
  cases a with
  | dial name dual =>
    cases hstep
    exact ⟨h, .inl ⟨trivial, [.loads name dual], rfl, by simp [Dial.Right]⟩⟩
  | load i again =>
    simp only [step] at hstep
    split at hstep
    · rename_i name dual hi
      rcases hmap : s.map name with _ | e <;> cases again <;> rw [hmap] at hstep <;> cases hstep
      case h_1.some.false.refl =>
        refine ⟨h, .inr ⟨i, .tries dual e, hlt hi, rfl, ?_⟩⟩
        rw [Dial.right_tries_iff (h name e hmap)]
        simp [Fair, hi, hmap]
      all_goals
        refine ⟨h, .inr ⟨i, .resolves name dual, hlt hi, rfl, iff_of_true ?_ trivial⟩⟩
        simp [Fair, hi, hmap]
    · cases hstep
  | resolve i answer =>
    simp only [step] at hstep
    split at hstep
    · rename_i name dual hi
      split at hstep
      · cases hstep
        exact ⟨h, .inr ⟨i, .fails, hlt hi, rfl, iff_of_true trivial trivial⟩⟩
      · rename_i answer
        split at hstep
        · rename_i hnone
          cases hstep
          refine ⟨h, .inr ⟨i, .noEntries dual answer, hlt hi, rfl, iff_of_true trivial ?_⟩⟩
          simpa [usable, filter_eq_nil_iff, Dial.Right] using hnone
        · cases hstep
          have hmade : AddrEntry.Made ⟨usable dual answer, dual, answer⟩ := rfl
          refine ⟨inv_update h (by rintro e' ⟨⟩; exact hmade), .inr ⟨i, _, hlt hi, rfl, iff_of_true trivial ?_⟩⟩
          exact (Dial.right_tries_iff hmade).mpr (.inl rfl)
    · cases hstep
  | evict name =>
    cases hstep
    exact ⟨inv_update h (by simp), .inl ⟨trivial, [], (append_nil _).symm, by simp⟩⟩

theorem right_step (h : s.Inv) (hright : s.AllRight) (hfair : s.Fair a) (hstep : s.step a = some s') : s'.AllRight := by
  unfold AllRight
  obtain ⟨-, ⟨-, l, hd, hl⟩ | ⟨i, d, -, hd, hiff⟩⟩ := step_cases h hstep
  · rw [hd]
    exact forall_mem_append.mpr ⟨hright, hl⟩
  · intro d' hd'
    rw [hd] at hd'
    rcases mem_or_eq_of_mem_set hd' with hd' | rfl
    · exact hright d' hd'
    · exact hiff.mp hfair

/-- All dials of a run are right exactly when each one that is served from the map finds an entry of its own kind, or one whose
answer had IPv4 addresses alone. -/
theorem dials_right_iff (as : List (DialerStep N)) :
    machine.Always AllRight (new : Dialer N) as ↔ machine.Along Fair (new : Dialer N) as := by
  have hnew : (new : Dialer N).Inv := by
    intro name e h
    cases h
  constructor
  · apply Machine.along_of_always (I := Inv) (fun s a s' h hstep => (step_cases h hstep).1) ?_ as hnew
    intro s a s' h hstep hright
    obtain ⟨-, ⟨hfair, -⟩ | ⟨i, d, hlt, hd, hiff⟩⟩ := step_cases h hstep
    · exact hfair
    · exact hiff.mpr (hright d (by rw [hd]; exact mem_set hlt d))
  · apply Machine.always_along (I := fun s : Dialer N => s.Inv ∧ s.AllRight) ?_ (fun s h => h.2) as ⟨hnew, by simp [AllRight, new]⟩
    intro s a s' h hgood hstep
    exact ⟨(step_cases h.1 hstep).1, right_step h.1 h.2 hgood hstep⟩

/-- An IPv4-only dial behind a dual-stack dial of the same name -/
theorem dials_share_entries :
    let run : List (DialerStep Unit) := [.dial () true, .load 0 false, .resolve 0 (some [⟨6, false⟩]), .dial () false, .load 1 false]
    ¬ (machine.exec (new : Dialer Unit) run).AllRight := by
  intro run h
  have := h (.tries false ⟨[⟨6, false⟩], true, [⟨6, false⟩]⟩) (mem_of_getElem? (i := 1) rfl)
  simp [Dial.Right] at this

end Dialer

end Fasthttp
