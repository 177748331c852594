import Mathlib

/-!
# The attempts of a request

`HostClient.Do` of `client.go`.
-/

namespace Fasthttp

open List

inductive DoErr
  | eof
  | connectionClosed
  | timeout
  | other (n : Nat)
  deriving DecidableEq, Repr

structure RetryAnswer where
  sleepDuration : Nat
  resetReqTimeout : Bool
  retry : Bool
  deriving DecidableEq, Repr

def RetryAnswer.stop : RetryAnswer := ⟨0, false, false⟩

/-- `RetryIfErrFunc` -/
def RetryIf : Type := Nat → DoErr → RetryAnswer

structure DoClient where
  maxIdemponentCallAttempts : Nat
  retryIf : Option RetryIf
  pos : 0 < maxIdemponentCallAttempts

structure DoRequest where
  maxAttempts : Int
  retryIf : Option RetryIf
  isBodyStream : Bool
  isGet : Bool
  isHead : Bool
  isPut : Bool

/-- What `Do` writes to: the `timeout` of the request and the client's counter -/
structure DoState where
  timeout : Int
  pendingRequests : BitVec 32
  deriving DecidableEq, Repr

/-- What each attempt comes to under the `timeout` it finds in the request, with the `retry` of the transport, and the
clock before an attempt and behind the sleep after it -/
structure DoWorld where
  attempt : Nat → Int → Option (DoErr × Bool)
  now : Nat → Int
  awake : Nat → Nat → Int

inductive RetrySource
  | request
  | client
  deriving DecidableEq, Repr

/-- An attempt, whose `RetryIf` was asked behind it, and the decision -/
structure DoRound where
  timeout : Int
  result : Option (DoErr × Bool)
  asked : Option RetrySource
  answer : RetryAnswer
  deriving DecidableEq, Repr

structure DoRun where
  rounds : List DoRound
  err : Option DoErr
  state : DoState
  deriving DecidableEq, Repr

def isIdempotent (req : DoRequest) : Bool := req.isGet || req.isHead || req.isPut

def DoClient.attempts (c : DoClient) (req : DoRequest) : Nat :=
  if req.maxAttempts ≤ 0 then c.maxIdemponentCallAttempts else req.maxAttempts.toNat

/-- The `retryIf` that `Do` takes from the request first is not the one it calls. -/
def DoClient.asks (c : DoClient) (req : DoRequest) (attempts : Nat) (e : DoErr) : Option RetrySource × RetryAnswer :=
  match c.retryIf with
  | some f => (some .client, f attempts e)
  | none => (none, ⟨0, false, isIdempotent req⟩)

/-- A plain end of stream is a closed connection. -/
def returned (e : DoErr) : DoErr := if e = .eof then .connectionClosed else e

def nextDeadline (w : DoWorld) (timeout : Int) (k : Nat) (answer : RetryAnswer) (deadline : Int) : Int :=
  if answer.resetReqTimeout ∧ 0 < timeout then w.awake k answer.sleepDuration + timeout else deadline

section

variable (c : DoClient) (req : DoRequest) (w : DoWorld) (timeout : Int)

def DoState.update (deadline : Int) (k : Nat) (s : DoState) : DoState :=
  if 0 < timeout then { s with timeout := deadline - w.now k } else s

def doLoop (deadline : Int) (k left : Nat) (s : DoState) : List DoRound × Option DoErr × DoState :=
  let s := s.update w timeout deadline k
  if 0 < timeout ∧ s.timeout ≤ 0 then ([], some .timeout, s)
  else
    let result := w.attempt k s.timeout
    match result, left with
    | none, _ => ([⟨s.timeout, result, none, .stop⟩], none, s)
    | some (e, _), 0 => ([⟨s.timeout, result, none, .stop⟩], some e, s)
    | some (e, _), left + 1 =>
      if req.isBodyStream then ([⟨s.timeout, result, none, .stop⟩], some e, s)
      else
        let (asked, answer) := c.asks req (k + 1) e
        if answer.retry then
          let r := doLoop (nextDeadline w timeout k answer deadline) (k + 1) left s
          (⟨s.timeout, result, asked, answer⟩ :: r.1, r.2)
        else ([⟨s.timeout, result, asked, answer⟩], some e, s)

def DoClient.Do (start : Int) (s : DoState) : DoRun :=
  let timeout := s.timeout
  let r := doLoop c req w timeout (start + timeout) 0 (c.attempts req - 1) { s with pendingRequests := s.pendingRequests + 1 }
  let s := { r.2.2 with pendingRequests := r.2.2.pendingRequests - 1 }
  ⟨r.1, r.2.1.map returned, { s with timeout := timeout }⟩

def deadlineAfter (deadline : Int) (k : Nat) : List DoRound → Int
  | [] => deadline
  | a :: rest => deadlineAfter (nextDeadline w timeout k a.answer deadline) (k + 1) rest

/-- The attempt was made before the deadline, with the time that was left. -/
structure DoRound.Made (a : DoRound) (deadline : Int) (k : Nat) : Prop where
  result : a.result = w.attempt k a.timeout
  left : 0 < timeout → a.timeout = deadline - w.now k ∧ 0 < a.timeout
  unset : timeout ≤ 0 → a.timeout = timeout

/-- A call made these attempts and came to this error, and something holds of each decision. -/
structure Attempted (decided : Nat → DoRound → Prop) (deadline : Int) (k left : Nat) (rounds : List DoRound) (err : Option DoErr) :
    Prop where
  most : rounds.length ≤ left + 1
  made : ∀ j (a : DoRound), rounds[j]? = some a → a.Made w timeout (deadlineAfter w timeout deadline k (rounds.take j)) (k + j)
  decided : ∀ j a, rounds[j]? = some a → decided (k + j) a
  /-- No attempt follows a decision against it. -/
  ends : ∀ j (a : DoRound), rounds[j]? = some a → a.answer.retry = false → j + 1 = rounds.length
  last : ∀ a ∈ rounds.getLast?, a.answer.retry = false → err = a.result.map Prod.fst
  expired : (∀ a ∈ rounds.getLast?, a.answer.retry = true) →
    0 < timeout ∧ deadlineAfter w timeout deadline k rounds ≤ w.now (k + rounds.length) ∧ err = some .timeout

def DoClient.decides (k : Nat) : Option (DoErr × Bool) → Option RetrySource × RetryAnswer
  | none => (none, .stop)
  | some (e, _) => if req.isBodyStream ∨ c.attempts req ≤ k + 1 then (none, .stop) else c.asks req (k + 1) e

/-- The `RetryIf` of the request comes before that of the client. -/
def DoClient.consults (attempts : Nat) (e : DoErr) : Option RetrySource × RetryAnswer :=
  match req.retryIf, c.retryIf with
  | some f, _ => (some .request, f attempts e)
  | none, some f => (some .client, f attempts e)
  | none, none => (none, ⟨0, false, isIdempotent req⟩)

/-- What is right behind an attempt: a success, a failure that makes a retry pointless,
a body stream and the last attempt end the call. -/
def DoClient.Ought (k : Nat) (a : DoRound) : Prop :=
  match a.result with
  | some (e, true) =>
    if req.isBodyStream ∨ c.attempts req ≤ k + 1 then a.answer.retry = false else (a.asked, a.answer) = c.consults req (k + 1) e
  | _ => a.answer.retry = false

instance (k : Nat) (a : DoRound) : Decidable (c.Ought req k a) := by
  unfold DoClient.Ought
  split <;> infer_instance

structure Policy (start : Int) (s : DoState) (r : DoRun) : Prop where
  attempts : ∃ err, r.err = err.map returned ∧
    Attempted w s.timeout (c.Ought req) (start + s.timeout) 0 (c.attempts req - 1) r.rounds err
  stream : req.isBodyStream = true → r.rounds.length = 1 ∨ r.rounds = [] ∧ r.err = some .timeout
  restored : r.state = s

/-! ## What the loop does -/

section

variable {w timeout} {decided : Nat → DoRound → Prop} {deadline : Int} {k left : Nat} {err : Option DoErr} {a : DoRound}
    {rest : List DoRound}

namespace Attempted

theorem nil (h : 0 < timeout) (hnow : deadline ≤ w.now k) : Attempted w timeout decided deadline k left [] (some .timeout) :=
  ⟨by simp, by simp, by simp, by simp, by simp, fun _ => ⟨h, hnow, rfl⟩⟩

theorem single (hmade : a.Made w timeout deadline k) (hdecided : decided k a) (hstop : a.answer.retry = false) :
    Attempted w timeout decided deadline k left [a] (a.result.map Prod.fst) where
  most := by simp
  made
    | 0, _, rfl => hmade
  decided
    | 0, _, rfl => hdecided
  ends
    | 0, _, rfl => fun _ => rfl
  last := by simp
  expired h := by simp [hstop] at h

theorem cons (hmade : a.Made w timeout deadline k) (hdecided : decided k a) (hretry : a.answer.retry = true)
    (h : Attempted w timeout decided (nextDeadline w timeout k a.answer deadline) (k + 1) left rest err) :
    Attempted w timeout decided deadline k (left + 1) (a :: rest) err where
  most := Nat.succ_le_succ h.most
  made
    | 0, _, rfl => hmade
    | j + 1, b, hb => by simpa [deadlineAfter, Nat.add_assoc, Nat.add_comm 1] using h.made j b hb
  decided
    | 0, _, rfl => hdecided
    | j + 1, b, hb => by simpa [Nat.add_assoc, Nat.add_comm 1] using h.decided j b hb
  ends
    | 0, _, rfl => by simp [hretry]
    | j + 1, b, hb => fun hstop => congrArg (· + 1) (h.ends j b hb hstop)
  last b hb := by
    rcases rest with _ | ⟨x, xs⟩
    · obtain rfl : a = b := by simpa using hb
      simp [hretry]
    · exact h.last b (by simpa using hb)
  expired hlast := by
    have := h.expired fun b hb => hlast b (by rcases rest with _ | ⟨x, xs⟩ <;> simp_all)
    simpa [deadlineAfter, Nat.add_right_comm, Nat.add_assoc] using this

end Attempted

end

section Step

variable (deadline : Int) {k left : Nat} {s : DoState} (hs : timeout ≤ 0 → s.timeout = timeout)

include hs

omit c req in
theorem update_timeout : (0 < timeout → (s.update w timeout deadline k).timeout = deadline - w.now k) ∧
    (timeout ≤ 0 → (s.update w timeout deadline k).timeout = timeout) := by
  unfold DoState.update
  split
  · exact ⟨fun _ => rfl, fun h => by omega⟩
  · exact ⟨fun h => absurd h ‹_›, hs⟩

theorem doLoop_step (hleft : k + left + 1 = c.attempts req) :
    (0 < timeout ∧ deadline ≤ w.now k ∧
      doLoop c req w timeout deadline k left s = ([], some .timeout, s.update w timeout deadline k)) ∨
    ∃ a : DoRound, a.Made w timeout deadline k ∧ (a.asked, a.answer) = c.decides req k a.result ∧
      (a.answer.retry = false ∧
        doLoop c req w timeout deadline k left s = ([a], a.result.map Prod.fst, s.update w timeout deadline k) ∨
      a.answer.retry = true ∧ ∃ l, left = l + 1 ∧
        let r := doLoop c req w timeout (nextDeadline w timeout k a.answer deadline) (k + 1) l (s.update w timeout deadline k)
        doLoop c req w timeout deadline k left s = (a :: r.1, r.2)) := by
  obtain ⟨hset, hunset⟩ := update_timeout w timeout deadline (k := k) hs
  generalize ht : s.update w timeout deadline k = t at hset hunset
  by_cases hnow : 0 < timeout ∧ t.timeout ≤ 0
  · exact .inl ⟨hnow.1, by have := hset hnow.1; omega, by unfold doLoop; simp [ht, hnow]⟩
  refine .inr ⟨⟨t.timeout, w.attempt k t.timeout, (c.decides req k (w.attempt k t.timeout)).1,
    (c.decides req k (w.attempt k t.timeout)).2⟩, ⟨rfl, fun h => ⟨hset h, by simpa [h] using hnow⟩, hunset⟩, rfl, ?_⟩
  have heq := doLoop.eq_def c req w timeout deadline k left s
  simp only [ht, if_neg hnow] at heq
  rcases hr : w.attempt k t.timeout with _ | ⟨e, allowed⟩ <;> simp only [hr] at heq
  · exact .inl ⟨rfl, heq⟩
  rcases left with _ | left
  · have hdecides : c.decides req k (some (e, allowed)) = (none, .stop) := if_pos (.inr hleft.ge)
    exact .inl ⟨by rw [hdecides]; rfl, by rw [hdecides]; exact heq⟩
  by_cases hstream : req.isBodyStream = true
  · have hdecides : c.decides req k (some (e, allowed)) = (none, .stop) := if_pos (.inl hstream)
    exact .inl ⟨by rw [hdecides]; rfl, by rw [hdecides]; exact heq.trans (if_pos hstream)⟩
  · have hdecides : c.decides req k (some (e, allowed)) = c.asks req (k + 1) e := if_neg (by simp [hstream]; omega)
    rw [hdecides]
    simp only [if_neg hstream] at heq
    rcases hretry : (c.asks req (k + 1) e).2.retry <;> simp only [hretry, if_true, Bool.false_eq_true, if_false] at heq
    · exact .inl ⟨rfl, heq⟩
    · exact .inr ⟨rfl, left, rfl, heq⟩

theorem doLoop_spec (hleft : k + left + 1 = c.attempts req) :
    let r := doLoop c req w timeout deadline k left s
    Attempted w timeout (fun k a => (a.asked, a.answer) = c.decides req k a.result) deadline k left r.1 r.2.1 ∧
      r.2.2.pendingRequests = s.pendingRequests := by
  have hpending (deadline : Int) (k : Nat) (s : DoState) : (s.update w timeout deadline k).pendingRequests = s.pendingRequests := by
    unfold DoState.update
    split <;> rfl
  induction left using Nat.strongRecOn generalizing k deadline s with
  | ind left ih =>
    rcases doLoop_step c req w timeout deadline hs hleft with
      ⟨hpos, hnow, heq⟩ | ⟨a, hmade, hdecided, ⟨hstop, heq⟩ | ⟨hretry, l, rfl, heq⟩⟩
    · exact heq ▸ ⟨.nil hpos hnow, hpending ..⟩
    · exact heq ▸ ⟨.single hmade hdecided hstop, hpending ..⟩
    · obtain ⟨hspec, hrest⟩ := ih l l.lt_succ_self (nextDeadline w timeout k a.answer deadline) (k := k + 1)
        (update_timeout w timeout deadline hs).2 (by omega)
      exact heq ▸ ⟨.cons hmade hdecided hretry hspec, hrest.trans (hpending ..)⟩

end Step

end

/-! ## When the loop follows the policy -/

theorem DoClient.attempts_pos (c : DoClient) (req : DoRequest) : 0 < c.attempts req := by
  have := c.pos
  unfold attempts
  split <;> omega

/-- The decision behind a failed attempt is the one of the policy. -/
def Heeded (c : DoClient) (req : DoRequest) (allowed : Bool) (attempts : Nat) (e : DoErr) : Prop :=
  if allowed then req.retryIf = none else (c.asks req attempts e).2.retry = false

theorem asks_eq_consults_iff (c : DoClient) (req : DoRequest) (attempts : Nat) (e : DoErr) :
    c.asks req attempts e = c.consults req attempts e ↔ req.retryIf = none := by
  unfold DoClient.asks DoClient.consults
  rcases c.retryIf with _ | f <;> rcases req.retryIf with _ | g <;> simp

theorem decides_stop {c : DoClient} {req : DoRequest} {k : Nat} (h : req.isBodyStream = true ∨ c.attempts req ≤ k + 1)
    (result : Option (DoErr × Bool)) : c.decides req k result = (none, .stop) := by
  rcases result with _ | ⟨e, allowed⟩
  · rfl
  · exact if_pos h

theorem ought_iff {c : DoClient} {req : DoRequest} {k : Nat} {a : DoRound} (h : (a.asked, a.answer) = c.decides req k a.result) :
    c.Ought req k a ↔ ∀ e allowed, a.result = some (e, allowed) → req.isBodyStream = false → k + 1 < c.attempts req →
      Heeded c req allowed (k + 1) e := by
  have hanswer : a.answer = _ := congrArg Prod.snd h
  unfold DoClient.Ought
  by_cases hend : req.isBodyStream = true ∨ c.attempts req ≤ k + 1
  · rw [decides_stop hend] at hanswer
    refine iff_of_true ?_ fun e allowed _ hstream hmore => absurd hend (by simp [hstream]; omega)
    split <;> simp [hend, hanswer, RetryAnswer.stop]
  · have hmore : req.isBodyStream = false ∧ k + 1 < c.attempts req := by simpa using hend
    rcases hr : a.result with _ | ⟨e, _ | _⟩ <;> simp only [hr, DoClient.decides, if_neg hend] at h hanswer
    · simp [hanswer, RetryAnswer.stop]
    · simp [hanswer, hmore, Heeded]
    · simp [h, hmore, Heeded, asks_eq_consults_iff]

/-- A call follows the policy exactly if the request has no `RetryIf` whenever a failed attempt allows another one, and
the client's decision is against another one whenever the failed attempt reports it as pointless. -/
theorem do_policy_iff (c : DoClient) (req : DoRequest) (w : DoWorld) (start : Int) (s : DoState) :
    let r := c.Do req w start s
    Policy c req w start s r ↔ ∀ k (a : DoRound) e allowed, r.rounds[k]? = some a → a.result = some (e, allowed) →
      req.isBodyStream = false → k + 1 < c.attempts req → Heeded c req allowed (k + 1) e := by
  have hpos := c.attempts_pos req
  obtain ⟨hspec, hpending⟩ := doLoop_spec c req w s.timeout (start + s.timeout)
    (s := { s with pendingRequests := s.pendingRequests + 1 }) (fun _ => rfl)
    (by omega : 0 + (c.attempts req - 1) + 1 = c.attempts req)
  simp only [DoClient.Do]
  generalize doLoop c req w s.timeout (start + s.timeout) 0 (c.attempts req - 1) _ = r at hspec hpending
  have hought (k : Nat) (a : DoRound) (hk : r.1[k]? = some a) := ought_iff (k := k) (by simpa using hspec.decided k a hk)
  refine ⟨fun ⟨⟨_, _, h⟩, _, _⟩ k a e allowed hk => (hought k a hk).mp (by simpa using h.decided k a hk) e allowed, fun h => ?_⟩
  refine ⟨⟨_, rfl, { hspec with decided := fun k a hk => ?_ }⟩, fun hstream => ?_, ?_⟩
  · simpa using (hought k a hk).mpr fun e allowed => h k a e allowed hk
  · rcases hr : r.1 with _ | ⟨a, rest⟩
    · exact .inr ⟨rfl, congrArg (Option.map returned) (hspec.expired (by simp [hr])).2.2⟩
    · have hk : r.1[0]? = some a := by simp [hr]
      have hstop : a.answer = .stop := congrArg Prod.snd ((hspec.decided 0 a hk).trans (decides_stop (.inl hstream) _))
      exact .inl (hr ▸ (hspec.ends 0 a hk (by rw [hstop]; rfl)).symm)
  · simp [hpending]

/-- The request's `RetryIf` would have stopped the first call, and the second one goes on behind a pointless failure. -/
theorem do_asks_client :
    let c : DoClient := ⟨5, none, by decide⟩
    let w (allowed : Bool) : DoWorld := ⟨fun _ _ => some (.other 0, allowed), fun _ => 0, fun _ _ => 0⟩
    let req (retryIf : Option RetryIf) : DoRequest := ⟨2, retryIf, false, true, false, false⟩
    let first := c.Do (req (some fun _ _ => .stop)) (w true) 0 ⟨0, 0⟩
    let second := c.Do (req none) (w false) 0 ⟨0, 0⟩
    (first.rounds.map (·.asked) = [none, none] ∧ ¬ Policy c (req (some fun _ _ => .stop)) (w true) 0 ⟨0, 0⟩ first) ∧
      second.rounds.length = 2 ∧ ¬ Policy c (req none) (w false) 0 ⟨0, 0⟩ second := by
  refine ⟨⟨by decide +kernel, fun ⟨⟨_, _, h⟩, _, _⟩ => ?_⟩, by decide +kernel, fun ⟨⟨_, _, h⟩, _, _⟩ => ?_⟩
  · exact absurd (h.decided 0 ⟨0, some (.other 0, true), none, 0, false, true⟩ (by decide +kernel)) (by decide +kernel)
  · exact absurd (h.decided 0 ⟨0, some (.other 0, false), none, 0, false, true⟩ (by decide +kernel)) (by decide +kernel)

end Fasthttp
