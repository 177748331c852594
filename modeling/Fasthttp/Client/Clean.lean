import Fasthttp.Client.Pool

/-! # The sweep over the idle connections: `HostClient.Clean` -/

namespace Fasthttp

open List

namespace Pool

variable {p : Pool} {lastUse : Nat → Int} {expired : Nat → Bool} {conns : List Nat}

abbrev Ordered (lastUse : Nat → Int) (conns : List Nat) : Prop := conns.Pairwise fun a b => lastUse a ≤ lastUse b

/-- `absoluteNano` counts up from the start of the program, so the difference does not leave its type. -/
def idleFor (lastUse : Nat → Int) (now maxIdleConnDuration : Int) (c : Nat) : Bool := decide (maxIdleConnDuration < now - lastUse c)

def compact (conns : List Nat) (i : Nat) : List (Option Nat) :=
  let all := conns.map some
  let m := conns.length - i
  (all.drop i ++ all.drop m).take m ++ replicate (conns.length - m) none

theorem searchExpired_eq {k : Nat} (hk : ∀ j < conns.length, (conns[j]?.map expired).getD false = true ↔ j < k) (fuel l r : Nat)
    (hl : l ≤ k) (hr : k ≤ r) (hn : r ≤ conns.length) (hfuel : r ≤ l + fuel) : searchExpired expired conns fuel l r = k := by
  induction fuel generalizing l r with
  | zero =>
    unfold searchExpired
    omega
  | succ fuel ih =>
    unfold searchExpired
    split
    · split
      · rename_i hmid
        rw [hk _ (by omega)] at hmid
        exact ih _ r (by omega) hr hn (by omega)
      · rename_i hmid
        rw [hk _ (by omega)] at hmid
        exact ih l _ hl (by omega) (by omega) (by omega)
    · omega

theorem exists_cut (now limit : Int) (h : Ordered lastUse conns) : ∃ k ≤ conns.length,
    conns.take k = conns.filter (idleFor lastUse now limit) ∧ conns.drop k = conns.filter (!idleFor lastUse now limit ·) ∧
    ∀ j < conns.length, (conns[j]?.map (idleFor lastUse now limit)).getD false = true ↔ j < k := by
  induction conns with
  | nil => exact ⟨0, by simp⟩
  | cons c conns ih =>
    obtain ⟨hle, h⟩ := pairwise_cons.mp h
    obtain ⟨k, hk, htake, hdrop, hcut⟩ := ih h
    by_cases hc : idleFor lastUse now limit c = true
    · refine ⟨k + 1, by simpa using hk, by simp [htake, hc], by simp [hdrop, hc], fun j hj => ?_⟩
      cases j with
      | zero => simpa using hc
      | succ j => simpa using hcut j (by simpa using hj)
    · have hall : ∀ d ∈ conns, idleFor lastUse now limit d = false := by
        intro d hd
        have := hle d hd
        simp only [idleFor, decide_eq_true_eq, decide_eq_false_iff_not] at hc ⊢
        omega
      refine ⟨0, Nat.zero_le _, by simpa [hc] using hall, ?_, fun j hj => ?_⟩
      · exact (filter_eq_self.mpr (by simpa [hc] using hall)).symm
      · cases j with
        | zero => simpa using hc
        | succ j =>
          have hj' : j < conns.length := by simpa using hj
          simp [hj', hall]

theorem compact_eq {k : Nat} (hk : k ≤ conns.length) : compact conns k = (conns.drop k).map some ++ replicate k none := by
  have htake : ((conns.map some).drop k ++ (conns.map some).drop (conns.length - k)).take (conns.length - k) =
      (conns.map some).drop k := take_left' (by simp)
  rw [compact, htake, map_drop, Nat.sub_sub_self hk]

def sweep (expired : Nat → Bool) (p : Pool) : Pool :=
  if p.conns.filter expired = [] then p
  else { p with conns := p.conns.filter (!expired ·) }.add (.closes (p.conns.filter expired))

theorem Ordered.clean_eq {now limit : Int} (h : Ordered lastUse p.conns) :
    p.clean (idleFor lastUse now limit) = p.sweep (idleFor lastUse now limit) ∧
    compact p.conns (searchExpired (idleFor lastUse now limit) p.conns p.conns.length 0 p.conns.length) =
      (p.conns.filter (!idleFor lastUse now limit ·)).map some ++
        replicate (p.conns.filter (idleFor lastUse now limit)).length none := by
  obtain ⟨k, hk, htake, hdrop, hcut⟩ := exists_cut now limit h
  have hsearch := searchExpired_eq hcut p.conns.length 0 p.conns.length (Nat.zero_le _) hk (Nat.le_refl _) (by omega)
  have hzero : k = 0 ↔ p.conns.filter (idleFor lastUse now limit) = [] := by
    rw [← htake, take_eq_nil_iff]
    constructor
    · exact .inl
    · rintro (hk' | hnil)
      · exact hk'
      · rw [hnil] at hk
        exact Nat.le_zero.mp hk
  refine ⟨?_, ?_⟩
  · simp only [clean, sweep, hsearch, hzero, htake, hdrop]
  · rw [hsearch, compact_eq hk, hdrop, ← htake, length_take, Nat.min_eq_left hk]

theorem Ordered.acquireConn (h : Ordered lastUse p.conns) (cfg : PoolConfig) : Ordered lastUse (p.acquireConn cfg).conns := by
  unfold Pool.acquireConn
  split
  · split
    · exact h
    · split
      · exact h
      · exact h
  · rename_i c cs hconns
    rw [hconns] at h
    split
    · exact h.sublist (dropLast_sublist _)
    · exact h.of_cons

theorem releaseConn_conns (cfg : PoolConfig) (c : Nat) (p : Pool) :
    (p.releaseConn cfg c).conns = p.conns ∨ (p.releaseConn cfg c).conns = p.conns ++ [c] := by
  unfold Pool.releaseConn
  split
  · exact .inr rfl
  · split
    · refine .inl ?_
      unfold tryDeliver
      split
      · rfl
      · rfl
    · exact .inr rfl

theorem Ordered.releaseConn (h : Ordered lastUse p.conns) (cfg : PoolConfig) {c : Nat} {now : Int} (hc : c ∉ p.conns)
    (hnow : ∀ d ∈ p.conns, lastUse d ≤ now) : Ordered (Function.update lastUse c now) (p.releaseConn cfg c).conns := by
  have hsame : ∀ d ∈ p.conns, Function.update lastUse c now d = lastUse d :=
    fun d hd => Function.update_of_ne (ne_of_mem_of_not_mem hd hc) _ _
  have hold : Ordered (Function.update lastUse c now) p.conns := by
    refine h.imp_of_mem fun ha hb hab => ?_
    rwa [hsame _ ha, hsame _ hb]
  obtain hconns | hconns := releaseConn_conns cfg c p
  · rwa [hconns]
  · rw [hconns]
    refine pairwise_append.mpr ⟨hold, pairwise_singleton _ _, fun d hd e he => ?_⟩
    obtain rfl := mem_singleton.mp he
    rw [hsame d hd, Function.update_self]
    exact hnow d hd

theorem clean_exact (lastUse : Nat → Int) (now maxIdleConnDuration : Int) (p : Pool) (h : Ordered lastUse p.conns) :
    (p.clean (idleFor lastUse now maxIdleConnDuration) = p.sweep (idleFor lastUse now maxIdleConnDuration) ∧
      compact p.conns (searchExpired (idleFor lastUse now maxIdleConnDuration) p.conns p.conns.length 0 p.conns.length) =
        (p.conns.filter (!idleFor lastUse now maxIdleConnDuration ·)).map some ++
          replicate (p.conns.filter (idleFor lastUse now maxIdleConnDuration)).length none) ∧
    (∀ cfg, Ordered lastUse (p.acquireConn cfg).conns) ∧
    ∀ cfg c t, c ∉ p.conns → (∀ d ∈ p.conns, lastUse d ≤ t) →
      Ordered (Function.update lastUse c t) (p.releaseConn cfg c).conns :=
  ⟨h.clean_eq, h.acquireConn, fun cfg _ _ => h.releaseConn cfg⟩

theorem clean_exact_three :
    ({ new with conns := [4, 7, 5] }.clean (idleFor (fun c => [0, 0, 0, 0, 1, 9, 0, 3].getD c 0) 10 5)).conns = [5] ∧
    compact [4, 7, 5] 2 = [some 5, none, none] := by
  have h := (clean_exact (fun c => [0, 0, 0, 0, 1, 9, 0, 3].getD c 0) 10 5 { new with conns := [4, 7, 5] } (by decide)).1
  exact ⟨(congrArg Pool.conns h.1).trans (by decide +kernel), by decide +kernel⟩

end Pool

end Fasthttp
