import Fasthttp.Header.Decided
import Fasthttp.Header.Case

/-!
# The lines of a header block

`Block` reads a block line by line, before any of it is interpreted: the names stand in it as they are spelled.
-/

namespace Fasthttp

open Scanner FirstIndex List

variable {b t : Bytes} {ls : List Bytes}

def foldedValue (v : Bytes) (ls : List Bytes) : Bytes :=
  if ls = [] then trimValue v else unfolded (unlines (v :: ls)).dropLast

/-- `b` starts with the lines `fs` and the blank line that ends them. -/
inductive Block : Bytes → List (Bytes × Bytes) → Prop
  | blank {b : Bytes} : 0 < blankLen b → Block b []
  | field {k bl v t : Bytes} {ls : List Bytes} {fs : List (Bytes × Bytes)} : IsField k bl v → (∀ l ∈ ls, IsFolded l) →
      ¬StartsBlank t → Block t fs →
      Block (k ++ colonChar :: (bl ++ (v ++ nChar :: (unlines ls ++ t)))) ((k, foldedValue v ls) :: fs)

variable {fs : List (Bytes × Bytes)}

theorem Block.lf_mem (h : Block b fs) : nChar ∈ b := by
  cases h with
  | blank h => exact lf_mem_of_blankLen h
  | field => simp

theorem IsField.unique {k k' bl bl' v v' t' : Bytes} (hf : IsField k bl v) (hf' : IsField k' bl' v')
    (h : k ++ colonChar :: (bl ++ (v ++ nChar :: t)) = k' ++ colonChar :: (bl' ++ (v' ++ nChar :: t'))) :
    k = k' ∧ v = v' ∧ t = t' := by
  obtain ⟨hk, hrest⟩ := append_cons_inj hf.noColon hf'.noColon h
  have hblanks : (bl ++ (v ++ nChar :: t)).takeWhile isBlank = (bl' ++ (v' ++ nChar :: t')).takeWhile isBlank := by rw [hrest]
  have hhead : ∀ {u r : Bytes}, (∀ c ∈ u.head?, isBlank c = false) → ∀ c ∈ (u ++ nChar :: r).head?, isBlank c = false := by
    intro u r hu c hc
    rcases u with _ | ⟨d, u⟩
    · simp only [nil_append, head?_cons, Option.mem_some_iff] at hc
      rw [← hc, isBlank_nChar]
    · exact hu c (by simpa using hc)
  rw [takeWhile_blanks hf.blanks (hhead hf.head), takeWhile_blanks hf'.blanks (hhead hf'.head)] at hblanks
  subst hblanks
  obtain ⟨hv, ht⟩ := append_cons_inj hf.noLF hf'.noLF (append_cancel_left hrest)
  exact ⟨hk, hv, ht⟩

theorem unlines_eq_nil : unlines ls = [] ↔ ls = [] := by
  cases ls <;> simp

theorem foldedValue_congr {v : Bytes} {ls' : List Bytes} (h : unlines ls = unlines ls') : foldedValue v ls = foldedValue v ls' := by
  have hnil : ls = [] ↔ ls' = [] := by rw [← unlines_eq_nil, ← unlines_eq_nil, h]
  simp [foldedValue, h, hnil]

theorem Block.unique {fs gs : List (Bytes × Bytes)} (hfs : Block b fs) (hgs : Block b gs) : fs = gs := by
  induction hfs generalizing gs with
  | blank hb =>
    cases hgs with
    | blank => rfl
    | field hf =>
      rw [blankLen_field hf] at hb
      exact absurd hb (by decide)
  | @field k bl v t ls fs hf hls ht _ ih =>
    generalize hb : k ++ colonChar :: (bl ++ (v ++ nChar :: (unlines ls ++ t))) = b at hgs
    cases hgs with
    | blank hblank =>
      rw [← hb, blankLen_field hf] at hblank
      exact absurd hblank (by decide)
    | field hf' hls' ht' hgs =>
      obtain ⟨rfl, rfl, hlines⟩ := hf.unique hf' hb
      have hextra := congrArg (fun u => (folds u).extra) hlines
      simp only [folds_unlines hls, folds_unlines hls', folds_noBlank (not_startsBlank ht),
        folds_noBlank (not_startsBlank ht')] at hextra
      obtain ⟨hunlines, rfl⟩ := append_inj hlines hextra
      rw [foldedValue_congr hunlines, ih hgs]

/-! ## What a scan feeds -/

theorem not_block_folded {l : Bytes} (hl : IsFolded l) (fs : List (Bytes × Bytes)) : ¬Block (l ++ nChar :: t) fs := by
  intro h
  generalize hb : l ++ nChar :: t = b at h
  cases h with
  | blank hblank =>
    rw [← hb, blankLen_line hl.isLine] at hblank
    exact absurd hblank (by decide)
  | @field k bl v t' ls fs hf =>
    have hcut : l ++ nChar :: t = (k ++ colonChar :: (bl ++ v)) ++ nChar :: (unlines ls ++ t') := by rw [hb]; simp
    obtain ⟨rfl, -⟩ := append_cons_inj hl.noLF (shape_line k bl v hf).noLF hcut
    exact hl.noColon (by simp)

theorem Fields.block {d : Bool} {rest : Bytes} (hfs : Fields d b fs rest) (hrest : 0 < blankLen rest) :
    ∃ gs, Block b gs ∧ fs = gs.map fun f => (initHeaderK f.1 d, f.2) := by
  induction hfs with
  | nil => exact ⟨[], .blank hrest, rfl⟩
  | @plain k bl v t rest fs hf hc _ ih =>
    obtain ⟨gs, hgs, rfl⟩ := ih hrest
    have ht : ¬StartsBlank t := fun hb => hc ⟨hb, hgs.lf_mem⟩
    have hblock : Block (k ++ colonChar :: (bl ++ (v ++ nChar :: (unlines [] ++ t)))) ((k, foldedValue v []) :: gs) :=
      .field hf (by simp) ht hgs
    exact ⟨_, hblock, rfl⟩
  | @folded k bl v w t rest ls fs hf hne hls hw hc _ ih =>
    obtain ⟨gs, hgs, rfl⟩ := ih hrest
    have hnone : leftover (v ++ nChar :: w) = [] := by
      refine (leftover_cases _).resolve_right ?_
      rintro ⟨l, hl, hline, hblank, hcolon⟩
      rw [hl, append_assoc] at hgs
      exact not_block_folded ⟨hline.noLF, hblank, hcolon⟩ gs hgs
    rw [hnone] at hgs
    have ht : ¬StartsBlank t := fun hb => hc ⟨hb, hgs.lf_mem⟩
    refine ⟨(k, foldedValue v ls) :: gs, .field hf hls ht hgs, ?_⟩
    have hraw : (unlines (v :: ls)).dropLast = v ++ nChar :: w := by
      rw [unlines_cons, hw, ← cons_append, ← append_assoc, dropLast_concat]
    rw [map_cons, foldedValue, if_neg hne, hraw]

section
variable {σ : Type} {body : σ → Bytes → Bytes → σ × Option Err}

theorem feed_map (g : Bytes → Bytes) (h : σ) (fs : List (Bytes × Bytes)) :
    feed body h (fs.map fun f => (g f.1, f.2)) = feed (fun h k v => body h (g k) v) h fs := by
  induction fs generalizing h with
  | nil => rfl
  | cons f fs ih => simp [feed, ih]

theorem feed_invariant {I : List (Bytes × Bytes) → σ → Prop}
    (hstep : ∀ past f h h', I past h → body h f.1 f.2 = (h', none) → I (past ++ [f]) h') (past : List (Bytes × Bytes)) {h h₁ : σ}
    (hI : I past h) (hfeed : feed body h fs = (h₁, none)) : I (past ++ fs) h₁ := by
  induction fs generalizing past h with
  | nil =>
    simp only [feed, Prod.mk.injEq, and_true] at hfeed
    rw [← hfeed, append_nil]
    exact hI
  | cons f fs ih =>
    obtain ⟨h', hbody, hfeed⟩ := feed_cons hfeed
    have h := ih (past ++ [f]) (hstep past f h h' hI hbody) hfeed
    rwa [append_assoc] at h

theorem scanAll_block (hbody : Strict body) {s s' : Scanner} {h h' : σ} (hs : s.Fresh) (hscan : scanAll body s h = (h', s', none)) :
    ∃ fs, Block s.b fs ∧ feed (fun h k v => body h (initHeaderK k s.disableNormalizing) v) h fs = (h', none) := by
  obtain ⟨s₁, h₁, hrun, hend⟩ := scanAll_outcome hbody (.inl hs) h
  rw [hscan] at hend
  generalize hout : (h', s', (none : Option Err)) = out at hend
  cases hend with
  | blank k hs₁ hk hb =>
    simp only [Prod.mk.injEq] at hout
    obtain ⟨rfl, -, -⟩ := hout
    obtain ⟨gs, hgs, hfeed⟩ := hrun.fields hs₁
    obtain ⟨fs, hfs, rfl⟩ := hgs.block (hb ▸ hk)
    exact ⟨fs, hfs, by rw [← feed_map]; exact hfeed⟩
  | noLine => simp at hout
  | noColon => simp at hout
  | badName => simp at hout
  | rejected => simp at hout

end

theorem RequestHeader.parseHeaders_block {h h' : RequestHeader} {buf mem : Bytes} {n : Nat}
    (hok : h.parseHeaders buf = (h', mem, .ok n)) :
    ∃ fs h₁, Block buf fs ∧ feed (fun h₀ k v => parseField h₀ (initHeaderK k h.disableNormalizing) v) h.start fs =
      (h₁, none) ∧ h' = h₁.finish := by
  unfold parseHeaders at hok
  rcases hscan : scanAll parseField (Scanner.new buf h.disableNormalizing) h.start with ⟨h₁, s₁, _ | e⟩
  · rw [hscan] at hok
    simp only [Prod.mk.injEq] at hok
    obtain ⟨fs, hfs, hfeed⟩ := scanAll_block parseField_strict (new_fresh buf h.disableNormalizing) hscan
    exact ⟨fs, h₁, hfs, hfeed, hok.1.symm⟩
  · rw [hscan] at hok
    simp at hok

end Fasthttp
