import Fasthttp.Header.Run

/-!
# Bytes behind a complete block

A scan of a complete block that does not ask for more ends in the same way when more bytes stand behind the block.
-/

namespace Fasthttp

open Scanner List

variable {s s' : Scanner} {y : Bytes}

theorem folds_append {t : Bytes} (h : blockEnd t ≠ none) (y : Bytes) : folds (t ++ y) = folds t := by
  induction hn : t.length using Nat.strong_induction_on generalizing t with
  | _ n ih =>
    subst hn
    obtain ⟨hno, hf⟩ | ⟨k, m, r, rfl, hkb, hk, hm, hf⟩ | ⟨l, r, rfl, hlb, hl, hc, hf⟩ := folds_cases t
    · have hlf : nChar ∈ t := by
        by_contra hlf
        exact h (blockEnd_noLine hlf)
      have hb : ¬StartsBlank (t ++ y) := by
        obtain ⟨c, t, rfl⟩ := exists_cons_of_ne_nil (ne_nil_of_mem hlf)
        exact hno.resolve_right (not_not_intro hlf)
      rw [hf, folds_noBlank (not_startsBlank hb)]
    · have hkc : colonChar ∉ k := by
        intro hkc
        obtain ⟨u, w, rfl, hu⟩ := eq_append_cons_of_mem hkc
        simp only [mem_append, mem_cons, not_or] at hk
        have hub := startsBlank_left isBlank_colonChar hkb
        have := folds_colon (k := u) (m := w ++ colonChar :: m) (t := r) hub hu hk.1 (by simp [hk.2.2, hm])
        simp only [append_assoc, cons_append] at this hf
        rw [this] at hf
        simp at hf
      rw [append_assoc, cons_append, append_assoc, cons_append,
        folds_colon hkb hkc hk hm, folds_colon hkb hkc hk hm]
    · have hline : IsLine l := (IsFolded.mk hl hlb hc).isLine
      rw [blockEnd_line hline] at h
      rw [append_assoc, cons_append, folds_line hlb hl hc, folds_line hlb hl hc,
        ih r.length (by simp; omega) (fun h0 => h (by rw [h0]; rfl)) rfl]

theorem blankLen_append {b : Bytes} (h : 0 < blankLen b) (y : Bytes) : blankLen (b ++ y) = blankLen b := by
  obtain ⟨t, rfl | rfl⟩ := blank_cases h <;> simp

structure Longer (y : Bytes) (s s' : Scanner) : Prop where
  b : s'.b = s.b ++ y
  nextColon : s'.nextColon = s.nextColon
  nextNewLine : s'.nextNewLine = s.nextNewLine
  err : s'.err = s.err
  normal : s'.disableNormalizing = s.disableNormalizing

theorem Longer.fresh (h : Longer y s s') (hs : s.Fresh) : s'.Fresh :=
  ⟨h.nextColon.trans hs.1, h.nextNewLine.trans hs.2⟩

theorem Longer.remembered (h : Longer y s s') (hs : s.Remembered) : s'.Remembered := by
  obtain ⟨hstart, pad, k, m, r, hb, hk, hcol, hnl⟩ := hs
  refine ⟨by rw [h.b]; exact startsBlank_append hstart y, pad, k, m, r ++ y, by rw [h.b, hb]; simp, hk,
    h.nextColon.trans hcol, h.nextNewLine.trans hnl⟩

theorem next_longer {s₁ : Scanner} (hs : s.Fresh) (hl : Longer y s s')
    (hblock : blockEnd s.b ≠ none) (hnext : s.next = (true, s₁)) :
    ∃ s₁', s'.next = (true, s₁') ∧ Longer y s₁ s₁' ∧ s₁'.key = s₁.key ∧ s₁'.value = s₁.value ∧
      blockEnd s₁.b ≠ none ∧ (s₁.Fresh ∨ s₁.Remembered) := by
  have hspec := next_spec hs
  rw [hnext] at hspec
  cases hspec with
  | plain k bl v t hb hf he =>
    have ht : blockEnd t ≠ none := by
      intro h0
      exact hblock (by rw [hb, blockEnd_field hf, h0]; rfl)
    have hfold := folds_append ht y
    have hb' : s'.b = k ++ colonChar :: (bl ++ (v ++ nChar :: (t ++ y))) := by rw [hl.b, hb]; simp
    refine ⟨_, next_plain (hl.fresh hs) hb' hf (by rw [hfold]; exact he), ⟨rfl, ?_, ?_, hl.err, hl.normal⟩,
      ?_, rfl, ht, passPlain_state he⟩
    · simp only [passPlain, hfold]
    · simp only [passPlain, hfold]
    · simp only [passPlain, hl.normal]
  | folded k bl v ls w t hb hf hne hls hw he =>
    have ht : blockEnd t ≠ none := by
      intro h0
      exact hblock (by rw [hb, blockEnd_field hf, blockEnd_unlines hls, h0]; rfl)
    have hfold := folds_append ht y
    have hwt : ∀ z, unlines ls ++ z = w ++ nChar :: z := by rw [hw]; simp
    have hb' : s'.b = k ++ colonChar :: (bl ++ (v ++ nChar :: (w ++ nChar :: (t ++ y)))) := by
      rw [hl.b, hb, ← hwt]; simp
    have hextra : folds (w ++ nChar :: (t ++ y)) = { folds (t ++ y) with extra := w.length + 1 } := by
      rw [← hwt, folds_unlines hls, hw, hfold, he]
      simp
    refine ⟨_, next_folded (hl.fresh hs) hb' hf hextra, ⟨by simp [passFolded], ?_, ?_, hl.err, hl.normal⟩,
      ?_, rfl, ?_, passFolded_state he⟩
    · simp only [passFolded, hfold]
    · simp [passFolded, hfold]
    · simp [passFolded, hl.normal]
    · obtain ⟨q, e, hm⟩ := moved_folded hb hf hne hls hw
      have hends := hm.ends []
      simp only [append_nil] at hends
      intro h0
      exact hblock (by rw [hends, h0]; rfl)

section
variable {σ : Type} {body : σ → Bytes → Bytes → σ × Option Err}

theorem scanAll_longer (hbody : Strict body) {y : Bytes} {s s' : Scanner} (hs : s.Fresh ∨ s.Remembered)
    (hl : Longer y s s') (hblock : blockEnd s.b ≠ none) (h : σ)
    (hdecided : (scanAll body s h).2.2 ≠ some .needMore) :
    (scanAll body s' h).1 = (scanAll body s h).1 ∧ (scanAll body s' h).2.2 = (scanAll body s h).2.2 := by
  induction hn : s.b.length using Nat.strong_induction_on generalizing s s' h with
  | _ n ih =>
    subst hn
    rcases hs with hs | hs
    swap
    -- the line of a remembered colon is turned down
    · obtain ⟨s₁, n, hnext, hkey, hcol, hle, hk⟩ := next_remembered hs
      obtain ⟨s₁', n', hnext', -, hcol', -, hk'⟩ := next_remembered (hl.remembered hs)
      have hn : n' = n := by
        rw [hl.nextColon, hcol, Option.some.injEq] at hcol'
        exact hcol'.symm
      have hkk : s₁'.key = s₁.key := by
        rw [hk, hk', hn, hl.b, hl.normal, take_append_of_le_length hle]
      obtain ⟨e, he⟩ := hbody.blank h s₁.key hkey
      rw [scanAll_reject hnext (he _), scanAll_reject hnext' (hkk ▸ he _)]
      exact ⟨rfl, rfl⟩
    have hfield : ∀ s₁, s.next = (true, s₁) → (scanAll body s' h).1 = (scanAll body s h).1 ∧
        (scanAll body s' h).2.2 = (scanAll body s h).2.2 := by
      intro s₁ hnext
      obtain ⟨s₁', hnext', hl₁, hk, hv, hblock₁, hs₁⟩ := next_longer hs hl hblock hnext
      rcases hb : body h s₁.key s₁.value with ⟨h', _ | e⟩
      · rw [scanAll_field hnext hb] at hdecided ⊢
        rw [scanAll_field hnext' (by rw [hk, hv]; exact hb)]
        exact ih _ (next_shorter hnext) hs₁ hl₁ hblock₁ h' hdecided rfl
      · rw [scanAll_reject hnext hb, scanAll_reject hnext' (by rw [hk, hv]; exact hb)]
        exact ⟨rfl, rfl⟩
    have hspec := next_spec hs
    generalize hnext : s.next = r at hspec
    cases hspec with
    | blank k hk hb =>
      have hblank : 0 < blankLen s'.b := by
        rw [hl.b, blankLen_append (hb ▸ hk) y]
        omega
      rw [scanAll_stop h hnext, scanAll_stop h (if_pos hblank)]
      exact ⟨rfl, hl.err⟩
    | noLine hb => exact absurd (blockEnd_noLine hb) hblock
    | noColon l t hb hline hc =>
      rw [scanAll_stop h hnext] at hdecided
      exact absurd rfl hdecided
    | badName l t hb hline hc ht =>
      have hb' : s'.b = l ++ nChar :: (t ++ y) := by rw [hl.b, hb]; simp
      rw [scanAll_stop h hnext, scanAll_stop h (next_badName (hl.fresh hs) hb' hline hc (by simp [ht]))]
      exact ⟨rfl, rfl⟩
    | plain => exact hfield _ hnext
    | folded => exact hfield _ hnext

end

end Fasthttp
