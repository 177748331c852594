import Fasthttp.Lib.Machine
import Fasthttp.Lib.Tally

/-!
# The counters of open and of served connections

The fields `open` and `concurrency` of the `Server` under any number of calls of `Serve` and `ServeConn` and the
workers of the pools.
-/

namespace Fasthttp

open List

inductive Party
  | accepts
  /-- `Serve`: a connection is counted, the limit per IP and the pool are asked -/
  | accepted
  /-- `Serve`: the connection is rejected and closed, it is counted off -/
  | refuses
  | stops
  | queued
  /-- `ServeConn`: the limit per IP is asked -/
  | entered
  /-- `ServeConn`: the limit of the concurrency is exceeded, it is undone -/
  | exceeds
  /-- `ServeConn`: the connection is rejected, it is counted off -/
  | rejected
  | serving
  | leaving
  | gone
  deriving DecidableEq, Repr

structure Counters where
  openCount : BitVec 32
  concurrency : BitVec 32
  parties : List Party
  deriving DecidableEq, Repr

inductive CounterAction
  | serve
  | accept (i : Nat)
  | acceptError (i : Nat)
  | reject (i : Nat)
  | hand (i : Nat)
  | countOff (i : Nat)
  | stop (i : Nat)
  | take (i : Nat)
  | serveConn
  | rejectIP (i : Nat)
  | enter (i : Nat)
  | undo (i : Nat)
  | served (i : Nat)
  | leave (i : Nat)
  deriving DecidableEq, Repr

namespace Counters

def new : Counters := ⟨0, 0, []⟩

def set (s : Counters) (i : Nat) (p : Party) (d e : Int) : Counters :=
  ⟨s.openCount + BitVec.ofInt 32 d, s.concurrency + BitVec.ofInt 32 e, s.parties.set i p⟩

def step (limit : BitVec 32) (s : Counters) : CounterAction → Option Counters
  | .serve => some { s with openCount := s.openCount + 1, parties := s.parties ++ [.accepts] }
  | .accept i => if s.parties[i]? = some .accepts then some (s.set i .accepted 1 0) else none
  | .acceptError i => if s.parties[i]? = some .accepts then some (s.set i .stops 0 0) else none
  | .reject i => if s.parties[i]? = some .accepted then some (s.set i .refuses 0 0) else none
  | .hand i =>
    if s.parties[i]? = some .accepted then some { s with parties := s.parties.set i .accepts ++ [.queued] } else none
  | .countOff i =>
    match s.parties[i]? with
    | some .refuses => some (s.set i .accepts (-1) 0)
    | some .rejected => some (s.set i .gone (-1) 0)
    | _ => none
  | .stop i => if s.parties[i]? = some .stops then some (s.set i .gone (-1) 0) else none
  | .take i => if s.parties[i]? = some .queued then some (s.set i .serving 0 1) else none
  | .serveConn => some { s with openCount := s.openCount + 1, parties := s.parties ++ [.entered] }
  | .rejectIP i => if s.parties[i]? = some .entered then some (s.set i .rejected 0 0) else none
  | .enter i =>
    if s.parties[i]? = some .entered then
      let n := s.concurrency + 1
      if limit < n then some (s.set i .exceeds 0 1) else some (s.set i .serving 0 1)
    else none
  | .undo i => if s.parties[i]? = some .exceeds then some (s.set i .rejected 0 (-1)) else none
  | .served i => if s.parties[i]? = some .serving then some (s.set i .leaving (-1) 0) else none
  | .leave i => if s.parties[i]? = some .leaving then some (s.set i .gone 0 (-1)) else none

def machine (limit : BitVec 32) : Machine Counters CounterAction := ⟨step limit⟩

end Counters

namespace Party

def loops : Party → Nat
  | accepts | accepted | refuses | stops => 1
  | _ => 0

def unfinished : Party → Nat
  | accepted | refuses | queued | entered | exceeds | rejected | serving => 1
  | _ => 0

def inSection : Party → Nat
  | serving | leaving => 1
  | _ => 0

def checking : Party → Nat
  | exceeds => 1
  | _ => 0

end Party

namespace Counters

variable (s : Counters)

def runningLoops : Nat := (s.parties.map Party.loops).sum
def unfinishedConns : Nat := (s.parties.map Party.unfinished).sum
def sectionConns : Nat := (s.parties.map Party.inSection).sum
def checkingCalls : Nat := (s.parties.map Party.checking).sum

/-- Both counters are what they count and not below zero, and `open` is zero only when no loop runs and nothing is served. -/
structure Exact (s : Counters) : Prop where
  opened : s.openCount.toInt = s.runningLoops + s.unfinishedConns
  concurrent : s.concurrency.toNat = s.sectionConns + s.checkingCalls
  nonneg : 0 ≤ s.openCount.toInt
  shut : s.openCount = 0 → s.runningLoops = 0 ∧ ∀ p ∈ s.parties, p.unfinished = 0

def Fits (s : Counters) : Prop := s.runningLoops + s.unfinishedConns < 2 ^ 31 ∧ s.sectionConns + s.checkingCalls < 2 ^ 32

structure Inv (s : Counters) : Prop where
  opened : s.openCount = BitVec.ofNat 32 (s.runningLoops + s.unfinishedConns)
  concurrent : s.concurrency = BitVec.ofNat 32 (s.sectionConns + s.checkingCalls)

variable {s : Counters} {i : Nat} {p p' : Party}

theorem ofNat_of_add {n m : Nat} {d : Int} (h : (n : Int) + d = m) : BitVec.ofNat 32 n + BitVec.ofInt 32 d = BitVec.ofNat 32 m := by
  rw [← BitVec.ofInt_natCast, ← BitVec.ofInt_natCast, ← BitVec.ofInt_add, h]

theorem Inv.set (h : s.Inv) {d e : Int} (hi : s.parties[i]? = some p)
    (ho : (p.loops + p.unfinished : Int) + d = p'.loops + p'.unfinished)
    (hc : (p.inSection + p.checking : Int) + e = p'.inSection + p'.checking) :
    (s.set i p' d e).Inv := by
  have h₁ := Tally.sum_set Party.loops hi p'
  have h₂ := Tally.sum_set Party.unfinished hi p'
  have h₃ := Tally.sum_set Party.inSection hi p'
  have h₄ := Tally.sum_set Party.checking hi p'
  constructor
  · refine (congrArg (· + _) h.opened).trans (ofNat_of_add ?_)
    simp only [runningLoops, unfinishedConns, Counters.set]
    omega
  · refine (congrArg (· + _) h.concurrent).trans (ofNat_of_add ?_)
    simp only [sectionConns, checkingCalls, Counters.set]
    omega

theorem Inv.append (h : s.Inv) {d : Int} (ho : d = p.loops + p.unfinished) (hc : p.inSection + p.checking = 0) :
    Inv { s with openCount := s.openCount + BitVec.ofInt 32 d, parties := s.parties ++ [p] } := by
  constructor
  · refine (congrArg (· + _) h.opened).trans (ofNat_of_add ?_)
    simp only [runningLoops, unfinishedConns, map_append, sum_append, map_cons, map_nil, sum_cons, sum_nil]
    omega
  · refine h.concurrent.trans (congrArg (BitVec.ofNat 32) ?_)
    simp only [sectionConns, checkingCalls, map_append, sum_append, map_cons, map_nil, sum_cons, sum_nil]
    omega

theorem Inv.hand (h : s.Inv) (hi : s.parties[i]? = some .accepted) :
    Inv { s with parties := s.parties.set i .accepts ++ [.queued] } := by
  have h₁ := Tally.sum_set Party.loops hi .accepts
  have h₂ := Tally.sum_set Party.unfinished hi .accepts
  have h₃ := Tally.sum_set Party.inSection hi .accepts
  have h₄ := Tally.sum_set Party.checking hi .accepts
  simp only [Party.loops, Party.unfinished, Party.inSection, Party.checking] at h₁ h₂ h₃ h₄
  constructor
  · refine h.opened.trans (congrArg (BitVec.ofNat 32) ?_)
    simp only [runningLoops, unfinishedConns, map_append, sum_append, map_cons, map_nil, sum_cons, sum_nil,
      Party.loops, Party.unfinished]
    omega
  · refine h.concurrent.trans (congrArg (BitVec.ofNat 32) ?_)
    simp only [sectionConns, checkingCalls, map_append, sum_append, map_cons, map_nil, sum_cons, sum_nil,
      Party.inSection, Party.checking]
    omega

theorem Inv.move (h : s.Inv) {d e : Int} {s' : Counters}
    (hstep : (if s.parties[i]? = some p then some (s.set i p' d e) else none) = some s')
    (ho : (p.loops + p.unfinished : Int) + d = p'.loops + p'.unfinished)
    (hc : (p.inSection + p.checking : Int) + e = p'.inSection + p'.checking) : s'.Inv := by
  rw [Option.ite_none_right_eq_some, Option.some.injEq] at hstep
  obtain ⟨hi, rfl⟩ := hstep
  exact h.set hi ho hc

theorem Inv.step {limit : BitVec 32} {a : CounterAction} {s' : Counters} (h : s.Inv) (hstep : s.step limit a = some s') : s'.Inv := by
  cases a with
  | serve => exact Option.some.inj hstep ▸ h.append (d := 1) rfl rfl
  | serveConn => exact Option.some.inj hstep ▸ h.append (d := 1) rfl rfl
  | accept i => exact h.move hstep rfl rfl
  | acceptError i => exact h.move hstep rfl rfl
  | reject i => exact h.move hstep rfl rfl
  | hand i =>
    simp only [Counters.step, Option.ite_none_right_eq_some, Option.some.injEq] at hstep
    obtain ⟨hi, rfl⟩ := hstep
    exact h.hand hi
  | countOff i =>
    simp only [Counters.step] at hstep
    split at hstep
    · rename_i hi
      exact Option.some.inj hstep ▸ h.set hi rfl rfl
    · rename_i hi
      exact Option.some.inj hstep ▸ h.set hi rfl rfl
    · cases hstep
  | stop i => exact h.move hstep rfl rfl
  | take i => exact h.move hstep rfl rfl
  | rejectIP i => exact h.move hstep rfl rfl
  | enter i =>
    simp only [Counters.step] at hstep
    split_ifs at hstep with hi hlimit
    · exact Option.some.inj hstep ▸ h.set hi rfl rfl
    · exact Option.some.inj hstep ▸ h.set hi rfl rfl
  | undo i => exact h.move hstep rfl rfl
  | served i => exact h.move hstep rfl rfl
  | leave i => exact h.move hstep rfl rfl

theorem toInt_ofNat_iff (n : Nat) : (BitVec.ofNat 32 n).toInt = n ↔ n < 2 ^ 31 := by
  constructor
  · have hlt := BitVec.toInt_lt (x := BitVec.ofNat 32 n)
    omega
  · intro h
    have hnat : (BitVec.ofNat 32 n).toNat = n := by
      exact Nat.mod_eq_of_lt (by omega)
    rw [BitVec.toInt_eq_toNat_of_lt (by omega), hnat]

theorem toNat_ofNat_iff (n : Nat) : (BitVec.ofNat 32 n).toNat = n ↔ n < 2 ^ 32 := by
  constructor
  · intro h
    exact h ▸ Nat.mod_lt n (by decide)
  · exact Nat.mod_eq_of_lt

theorem Inv.exact_iff (h : s.Inv) : s.Exact ↔ s.Fits := by
  constructor
  · rintro ⟨ho, hc, -, -⟩
    rw [h.opened] at ho
    rw [h.concurrent] at hc
    exact ⟨(toInt_ofNat_iff _).mp (by exact_mod_cast ho), (toNat_ofNat_iff _).mp hc⟩
  · rintro ⟨hlo, hlc⟩
    have ho : s.openCount.toInt = ((s.runningLoops + s.unfinishedConns : Nat) : Int) := by
      rw [h.opened]
      exact (toInt_ofNat_iff _).mpr hlo
    have hc : s.concurrency.toNat = s.sectionConns + s.checkingCalls := by
      rw [h.concurrent]
      exact (toNat_ofNat_iff _).mpr hlc
    refine ⟨by omega, hc, by omega, fun hzero => ?_⟩
    rw [hzero] at ho
    have hnone : s.runningLoops + s.unfinishedConns = 0 := by
      have : (0 : Int) = ((s.runningLoops + s.unfinishedConns : Nat) : Int) := ho
      omega
    refine ⟨by omega, fun p hp => ?_⟩
    have hle : p.unfinished ≤ s.unfinishedConns := Tally.le_sum _ hp
    omega

/-- In every state of every run the counters are exact as long as what they count fits into them. -/
theorem counters_exact (limit : BitVec 32) (as : List CounterAction) :
    (machine limit).Always (fun s => s.Exact ↔ s.Fits) new as :=
  Machine.always_invariant (I := Inv) (fun _ _ _ h hstep => h.step hstep) (fun _ h => h.exact_iff) as ⟨rfl, rfl⟩

theorem openCount_serveConns (limit : BitVec 32) (n : Nat) (s : Counters) :
    ((machine limit).exec s (List.replicate n .serveConn)).openCount = s.openCount + BitVec.ofNat 32 n := by
  induction n generalizing s with
  | zero => exact (BitVec.add_zero _).symm
  | succ n ih =>
    have hstep : (machine limit).step s .serveConn =
        some { s with openCount := s.openCount + 1, parties := s.parties ++ [.entered] } :=
      rfl
    rw [replicate_succ, Machine.exec, Machine.next_of_step hstep, ih, Nat.add_comm n, BitVec.ofNat_add, BitVec.add_assoc]
    rfl

/-- As many calls of `ServeConn` at once as an `int32` cannot count -/
theorem open_below_zero :
    ((machine 1).exec new (List.replicate (2 ^ 31) .serveConn)).openCount.toInt = -2147483648 := by
  rw [openCount_serveConns]
  rfl

end Counters

end Fasthttp
