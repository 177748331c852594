import Fasthttp.Lib.Machine

/-!
# The load balancer

`lbclient.go`: the penalties of the clients, the choice of a client, and the clients that are removed.
-/

namespace Fasthttp

open List

def maxPenalty : UInt32 := 300

/-- `timers` are the penalty timers that have not fired, and `checks` the penalties that the requests in `incPenalty` have found. -/
structure LbClient where
  penalty : UInt32
  total : UInt64
  timers : Nat
  checks : List UInt32
  deriving DecidableEq

inductive LbAction
  | answered (healthy : Bool)
  | check (k : Nat)
  | fire
  deriving DecidableEq

def decPenalty (p : UInt32) : UInt32 := p + ~~~0

namespace LbClient

def fresh : LbClient := ⟨0, 0, 0, []⟩

def step (c : LbClient) : LbAction → Option LbClient
  | .answered true => some { c with total := c.total + 1 }
  | .answered false => some { c with penalty := c.penalty + 1, checks := c.checks ++ [c.penalty + 1] }
  | .check k => c.checks[k]?.map fun m =>
      let c := { c with checks := c.checks.eraseIdx k }
      if m > maxPenalty then { c with penalty := decPenalty c.penalty, total := c.total + 1 } else { c with timers := c.timers + 1 }
  | .fire => if c.timers = 0 then none else some { c with penalty := decPenalty c.penalty, timers := c.timers - 1 }

/-- The penalty is what it counts, and within the limit behind the checks. -/
def Exact (c : LbClient) : Prop := c.penalty.toNat = c.timers + c.checks.length ∧ (c.checks = [] → c.penalty ≤ maxPenalty)

def Roomy (c : LbClient) (a : LbAction) : Prop := a = .answered false → c.timers + c.checks.length + 1 < 2 ^ 32

structure Inv (c : LbClient) : Prop where
  counts : c.penalty.toNat = c.timers + c.checks.length
  limit : c.timers + c.checks.countP (· ≤ maxPenalty) ≤ maxPenalty.toNat

variable {c c' : LbClient} {a : LbAction}

theorem fresh_inv : fresh.Inv := ⟨rfl, by decide⟩

theorem Inv.exact (h : c.Inv) : c.Exact := by
  refine ⟨h.counts, fun hnone => ?_⟩
  have hlimit := h.limit
  rw [UInt32.le_iff_toNat_le, h.counts]
  simpa [hnone] using hlimit

theorem decPenalty_toNat {p : UInt32} (h : 0 < p.toNat) : (decPenalty p).toNat = p.toNat - 1 := by
  have hdec : decPenalty p = p - 1 := by
    rw [UInt32.sub_eq_add_neg]
    rfl
  have hle : (1 : UInt32) ≤ p := UInt32.le_iff_toNat_le.mpr h
  rw [hdec, UInt32.toNat_sub_of_le _ _ hle]
  rfl

theorem Inv.step (h : c.Inv) (hs : c.step a = some c') (hroom : c.Roomy a) : c'.Inv := by
  obtain ⟨hcounts, hlimit⟩ := h
  cases a with
  | answered healthy =>
    cases healthy <;> obtain rfl := Option.some.inj hs
    · have hlt := hroom rfl
      have hnext : (c.penalty + 1).toNat = c.timers + c.checks.length + 1 := by
        rw [UInt32.toNat_add, UInt32.toNat_one, hcounts, Nat.mod_eq_of_lt hlt]
      refine ⟨by rw [hnext, length_append, length_singleton, Nat.add_assoc], ?_⟩
      have hle := countP_le_length (p := fun m => decide (m ≤ maxPenalty)) (l := c.checks)
      simp only [countP_append, countP_singleton]
      split_ifs with hm
      · rw [decide_eq_true_iff, UInt32.le_iff_toNat_le, hnext] at hm
        omega
      · exact hlimit
    · exact ⟨hcounts, hlimit⟩
  | check k =>
    obtain ⟨m, hm, rfl⟩ := Option.map_eq_some_iff.mp hs
    obtain ⟨hk, rfl⟩ := List.getElem?_eq_some_iff.mp hm
    have hlen := length_eraseIdx_add_one hk
    have hcount := (List.getElem_cons_eraseIdx_perm hk).countP_eq fun m => decide (m ≤ maxPenalty)
    rw [countP_cons] at hcount
    dsimp only
    split_ifs with hbig
    · rw [if_neg (by simpa using hbig)] at hcount
      exact ⟨by simp only [decPenalty_toNat (show 0 < c.penalty.toNat by omega)]; omega, by simp only; omega⟩
    · rw [if_pos (by simpa using hbig)] at hcount
      exact ⟨by simp only; omega, by simp only; omega⟩
  | fire =>
    simp only [LbClient.step] at hs
    split_ifs at hs with hzero
    obtain rfl := Option.some.inj hs
    exact ⟨by simp only [decPenalty_toNat (show 0 < c.penalty.toNat by omega)]; omega, by simp only; omega⟩

end LbClient

structure Balancer where
  clients : Nat → LbClient
  made : Nat
  cs : List Nat

inductive BalancerAction
  | addClient
  | removeClients (rc : Nat → Bool)
  | client (i : Nat) (a : LbAction)

namespace Balancer

def new : Balancer := ⟨fun _ => .fresh, 0, []⟩

def step (s : Balancer) : BalancerAction → Option Balancer
  | .addClient => some { s with clients := Function.update s.clients s.made .fresh, made := s.made + 1, cs := s.cs ++ [s.made] }
  | .removeClients rc => some { s with cs := s.cs.filter (!rc ·) }
  -- a request may still be with a client that was removed
  | .client i a => ((s.clients i).step a).map fun c => { s with clients := Function.update s.clients i c }

def machine : Machine Balancer BalancerAction := ⟨step⟩

def Exact (s : Balancer) : Prop := ∀ i, (s.clients i).Exact

def Roomy (s : Balancer) : BalancerAction → Prop
  | .client i a => (s.clients i).Roomy a
  | _ => True

variable {s s' : Balancer} {a : BalancerAction}

theorem step_inv (h : ∀ i, (s.clients i).Inv) (hroom : s.Roomy a) (hs : s.step a = some s') (i : Nat) : (s'.clients i).Inv := by
  have hset : ∀ {j : Nat} {c : LbClient}, c.Inv → (Function.update s.clients j c i).Inv := fun {j c} hc => by
    rw [Function.update_apply]
    split
    · exact hc
    · exact h i
  cases a with
  | addClient =>
    cases hs
    exact hset LbClient.fresh_inv
  | removeClients rc =>
    cases hs
    exact h i
  | client j a =>
    obtain ⟨c, hc, rfl⟩ := Option.map_eq_some_iff.mp hs
    exact hset ((h j).step hc hroom)

theorem roomy_of_exact (hs : s.step a = some s') (h : s'.Exact) : s.Roomy a := by
  cases a with
  | client i a =>
    rintro rfl
    obtain rfl := Option.some.inj hs
    have hcount := (h i).1
    simp only [Function.update_self, length_append, length_singleton] at hcount
    rw [← Nat.add_assoc] at hcount
    exact hcount ▸ UInt32.toNat_lt _
  | _ => trivial

theorem always_exact_iff (as : List BalancerAction) : machine.Always Exact new as ↔ machine.Along Roomy new as := by
  constructor
  · exact Machine.along_of_always (I := fun _ => True) (fun _ _ _ _ _ => trivial) (fun _ _ _ _ => roomy_of_exact) as trivial
  · refine Machine.always_along (I := fun s => ∀ i, (s.clients i).Inv) (fun _ _ _ h hroom hs => step_inv h hroom hs)
      (fun _ h i => (h i).exact) as fun i => ?_
    exact LbClient.fresh_inv

theorem exec_unhealthy (n : Nat) : ∃ checks, checks.length = n ∧
    machine.exec (machine.next new .addClient) (replicate n (.client 0 (.answered false))) =
      ⟨Function.update (fun _ => .fresh) 0 ⟨UInt32.ofNat n, 0, 0, checks⟩, 1, [0]⟩ := by
  induction n with
  | zero => exact ⟨[], rfl, by simp [Machine.exec, machine, Machine.next, step, new]; rfl⟩
  | succ n ih =>
    obtain ⟨checks, hlen, hexec⟩ := ih
    refine ⟨checks ++ [UInt32.ofNat n + 1], by simp [hlen], ?_⟩
    rw [replicate_succ', Machine.exec_append, hexec]
    simp [Machine.exec, Machine.next, machine, step, LbClient.step]

theorem not_exact_of_unhealthy {n : Nat} (hn : 2 ^ 32 ≤ n) : ¬ ((machine.exec (machine.next new .addClient)
    (replicate n (.client 0 (.answered false)))).clients 0).Exact := by
  obtain ⟨checks, hlen, hexec⟩ := exec_unhealthy n
  rw [hexec]
  rintro ⟨hcount, -⟩
  have hlt := UInt32.toNat_lt (UInt32.ofNat n)
  simp only [Function.update_self] at hcount
  omega

end Balancer

structure LbReading where
  client : Nat
  n : Int
  t : Nat

def get (minC : LbReading) : List LbReading → LbReading
  | [] => minC
  | c :: cs => get (if c.n < minC.n ∨ c.n = minC.n ∧ c.t < minC.t then c else minC) cs

theorem get_argmin (c : LbReading) (cs : List LbReading) : (c :: cs).argmin (fun r => toLex (r.n, r.t)) = some (get c cs) := by
  have hfold : ∀ c, cs.foldl (argAux fun b c => toLex (b.n, b.t) < toLex (c.n, c.t)) (some c) = some (get c cs) := by
    induction cs with
    | nil => exact fun _ => rfl
    | cons d cs ih =>
      intro c
      rw [foldl_cons, get, ← ih]
      simp only [argAux, Prod.Lex.toLex_lt_toLex]
      split_ifs <;> rfl
  exact hfold c

section Remove

variable {α : Type} (rc : α → Bool)

def removeLoop : Nat → Nat → Nat → List (Option α) → Option (List (Option α))
  | 0, _, n, cs => some (cs.take n)
  | k + 1, idx, n, cs => cs[idx]?.join.bind fun c =>
      let cs := cs.set idx none
      if rc c then removeLoop k (idx + 1) n cs else removeLoop k (idx + 1) (n + 1) (cs.set n (some c))

/-- `none` is the panic on a missing client. -/
def removeClients (cs : List α) : Option (List (Option α)) := removeLoop rc cs.length 0 0 (cs.map some)

theorem removeLoop_eq (front rest : List α) (j : Nat) :
    removeLoop rc rest.length (front.length + j) front.length (front.map some ++ (replicate j none ++ rest.map some)) =
      some ((front ++ rest.filter (!rc ·)).map some) := by
  induction rest generalizing front j with
  | nil => simp [removeLoop]
  | cons c rest ih =>
    have hget : (front.map some ++ (replicate j none ++ (c :: rest).map some))[front.length + j]? = some (some c) := by
      rw [getElem?_append_right (by simp), getElem?_append_right (by simp)]
      simp
    have hset : (front.map some ++ (replicate j none ++ (c :: rest).map some)).set (front.length + j) none =
        front.map some ++ (replicate (j + 1) none ++ rest.map some) := by
      rw [set_append_right _ _ (by simp), set_append_right _ _ (by simp), replicate_succ']
      simp
    simp only [length_cons, removeLoop, hget, Option.join_some, Option.bind_some, hset]
    rcases hrc : rc c with _ | _
    · have hput : (front.map some ++ (replicate (j + 1) none ++ rest.map some)).set front.length (some c) =
          (front ++ [c]).map some ++ (replicate j none ++ rest.map some) := by
        rw [set_append_right _ _ (by simp), replicate_succ]
        simp
      have hnext := ih (front ++ [c]) j
      rw [length_append, length_singleton, Nat.add_right_comm] at hnext
      rw [if_neg (by simp), hput, hnext, filter_cons_of_pos (by simp [hrc])]
      simp
    · rw [if_pos rfl, filter_cons_of_neg (by simp [hrc])]
      exact ih front (j + 1)

end Remove

/-- As long as the penalties can count: each is the number of the timers that are pending and of the requests that are
being checked, and within the limit when there are none of these. `get` chooses the first of the least readings, and
`RemoveClients` keeps those that the callback rejects. -/
theorem balancer_exact :
    (∀ as, Balancer.machine.Always Balancer.Exact .new as ↔ Balancer.machine.Along Balancer.Roomy .new as) ∧
    (∀ c cs, (c :: cs).argmin (fun r => toLex (r.n, r.t)) = some (get c cs)) ∧
    ∀ {α : Type} (rc : α → Bool) (cs : List α), removeClients rc cs = some ((cs.filter (!rc ·)).map some) :=
  ⟨Balancer.always_exact_iff, get_argmin, fun rc cs => removeLoop_eq rc [] cs 0⟩

/-- With 2³² requests in `incPenalty` at once the penalty is zero again. -/
theorem penalty_wraps : ¬ ((Balancer.machine.exec (Balancer.machine.next .new .addClient)
    (replicate (2 ^ 32) (.client 0 (.answered false)))).clients 0).Exact :=
  Balancer.not_exact_of_unhealthy le_rfl

end Fasthttp
