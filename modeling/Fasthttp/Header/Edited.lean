import Fasthttp.Header.Accept

/-!
# What a scan leaves in the buffer

A scan that asks for more leaves an edited block behind.
-/

namespace Fasthttp

open Scanner List

/-- The block of `w'` is that of `w` up to the case of its keys, and the bytes behind it are the same. -/
structure Edited (w w' : Bytes) : Prop where
  size : w'.length = w.length
  ends : blockEnd w' = blockEnd w
  behind : ∀ k, blockEnd w = some k → w'.drop k = w.drop k
  noFold : NoFold w' ↔ NoFold w

theorem Edited.refl (w : Bytes) : Edited w w := ⟨rfl, rfl, fun _ _ => rfl, Iff.rfl⟩

theorem Edited.trans {w w' w'' : Bytes} (h : Edited w w') (h' : Edited w' w'') : Edited w w'' where
  size := h'.size.trans h.size
  ends := h'.ends.trans h.ends
  behind k hk := (h'.behind k (h.ends ▸ hk)).trans (h.behind k hk)
  noFold := h'.noFold.trans h.noFold

section
variable {σ : Type} {body : σ → Bytes → Bytes → σ × Option Err}

structure Left (b mem : Bytes) (q : Bytes) (e d : Nat) (stale : Bytes) : Prop where
  mem : mem = q ++ (b.drop e ++ stale)
  le : e ≤ b.length
  size : q.length + d = e
  stale : stale.length = d
  left : ∀ y, blockEnd (q ++ (b.drop e ++ y)) = (blockEnd (b.drop e ++ y)).map (q.length + ·)
  ends : ∀ y, blockEnd (b ++ y) = (blockEnd (b.drop e ++ y)).map (e + ·)
  noFold : d = 0 → ∀ y, NoFold (q ++ (b.drop e ++ y)) ↔ NoFold (b ++ y)
  fold : 0 < d → ∀ y, ¬NoFold (b ++ y)

theorem scanAll_more (hbody : Strict body) {b : Bytes} {dn : Bool} {h h' : σ} {s' : Scanner}
    (hscan : scanAll body (Scanner.new b dn) h = (h', s', some .needMore)) :
    ∃ q e d stale, Left b s'.mem q e d stale := by
  obtain ⟨s₁, h₁, hrun, hend⟩ := scanAll_outcome hbody (.inl (new_fresh b dn)) h
  obtain ⟨q, e, d, hm⟩ := Run.moved hbody hrun
  obtain ⟨stale, hstale, hd⟩ := hm.post
  have hmem : s₁.mem = q ++ (b.drop e ++ stale) := by
    simp [Scanner.mem, hm.pre, hm.rest, hstale, Scanner.new]
  have hleft : ∀ y, blockEnd (q ++ (s₁.b ++ y)) = (blockEnd (s₁.b ++ y)).map (q.length + ·) :=
    fun y => hm.clean.elim (fun hc => hc.2 _) (fun hc => hc.2 y)
  have hends := hm.ends
  have hfold := hm.noFold
  rw [hm.rest] at hleft hends hfold
  have hall : Left b s₁.mem q e d stale :=
    ⟨hmem, hm.le, hm.size, hd, hleft, hends,
      fun h0 y => (hm.noFold' h0 _).trans (hfold h0 y).symm, hm.fold⟩
  rw [hscan] at hend
  generalize hout : (h', s', some Err.needMore) = out at hend
  cases hend with
  | blank k hs₁ hk hb =>
    simp only [Prod.mk.injEq] at hout
    have := hout.2.2.trans hm.err
    simp [Scanner.new] at this
  | noLine =>
    obtain ⟨-, rfl, -⟩ := hout
    exact ⟨q, e, d, stale, hall⟩
  | noColon =>
    obtain ⟨-, rfl, -⟩ := hout
    exact ⟨q, e, d, stale, hall⟩
  | badName => simp at hout
  | rejected s'' h'' e' hnext hb =>
    simp only [Prod.mk.injEq, Option.some.injEq] at hout
    obtain ⟨-, -, rfl⟩ := hout
    exact absurd (congrArg Prod.snd hb) (hbody.definite h₁ s''.key s''.value)

theorem Left.edited {b mem q stale : Bytes} {e d : Nat} (h : Left b mem q e d stale) (h0 : d = 0) (y : Bytes) :
    Edited (b ++ y) (mem ++ y) := by
  have hstale : stale = [] := length_eq_zero_iff.mp (h.stale.trans h0)
  have hmem : mem ++ y = q ++ (b.drop e ++ y) := by rw [h.mem, hstale]; simp
  have hq : q.length = e := by have := h.size; omega
  have hle := h.le
  refine ⟨?_, ?_, fun k hk => ?_, ?_⟩
  · rw [hmem]
    simp only [length_append, length_drop]
    omega
  · rw [hmem, h.left, h.ends, hq]
  · rw [h.ends, Option.map_eq_some_iff] at hk
    obtain ⟨j, -, rfl⟩ := hk
    rw [hmem, ← drop_drop, ← drop_drop, drop_left' hq, drop_append_of_le_length hle]
  · rw [hmem]
    exact h.noFold h0 y

theorem Left.shorter {b mem q stale : Bytes} {e d k : Nat} (h : Left b mem q e d stale)
    (hk : blockEnd b = some k) (y : Bytes) : d ≤ k ∧ blockEnd (mem ++ y) = some (k - d) := by
  have hends := h.ends []
  simp only [append_nil, hk] at hends
  obtain ⟨j, hj, hjk⟩ := Option.map_eq_some_iff.mp hends.symm
  have hmem : mem ++ y = q ++ (b.drop e ++ (stale ++ y)) := by rw [h.mem]; simp
  have := h.size
  refine ⟨by omega, ?_⟩
  rw [hmem, h.left, blockEnd_append hj, Option.map_some]
  congr 1
  omega

end

end Fasthttp
