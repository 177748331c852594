import Fasthttp.Header.Block

/-!
# Runs of the scanner

A run passes fields that the body of the loop accepts.
-/

namespace Fasthttp

open List

namespace Scanner

variable {bl k v : Bytes} {s s₁ : Scanner}

variable {σ : Type} {body : σ → Bytes → Bytes → σ × Option Err}

/-- A body that turns down keys that start with a blank, and never asks for more bytes. -/
structure Strict (body : σ → Bytes → Bytes → σ × Option Err) : Prop where
  blank : ∀ h k, StartsBlank k → ∃ e, ∀ v, body h k v = (h, some e)
  definite : ∀ h k v, (body h k v).2 ≠ some .needMore

def feed (body : σ → Bytes → Bytes → σ × Option Err) : σ → List (Bytes × Bytes) → σ × Option Err
  | h, [] => (h, none)
  | h, (k, v) :: fs =>
    match body h k v with
    | (h, none) => feed body h fs
    | (h, some e) => (h, some e)

theorem feed_append {h h₁ : σ} {fs : List (Bytes × Bytes)} (hfs : feed body h fs = (h₁, none))
    (gs : List (Bytes × Bytes)) : feed body h (fs ++ gs) = feed body h₁ gs := by
  induction fs generalizing h with
  | nil =>
    simp only [feed, Prod.mk.injEq, and_true] at hfs
    rw [hfs, nil_append]
  | cons f fs ih =>
    rcases hb : body h f.1 f.2 with ⟨h', _ | e⟩
    · simp only [feed, hb] at hfs
      simp [feed, hb, ih hfs]
    · simp [feed, hb] at hfs

theorem feed_definite (hbody : Strict body) (h : σ) (fs : List (Bytes × Bytes)) :
    (feed body h fs).2 ≠ some .needMore := by
  induction fs generalizing h with
  | nil => simp [feed]
  | cons f fs ih =>
    rcases hb : body h f.1 f.2 with ⟨h', _ | e⟩
    · simp only [feed, hb]
      exact ih h'
    · simp only [feed, hb]
      have := hbody.definite h f.1 f.2
      rwa [hb] at this

theorem feed_related {R : σ → σ → Prop}
    (hR : ∀ h h' k v, R h h' → (body h k v).2 = (body h' k v).2 ∧ R (body h k v).1 (body h' k v).1)
    {h h' : σ} (hh : R h h') (fs : List (Bytes × Bytes)) :
    (feed body h fs).2 = (feed body h' fs).2 ∧ R (feed body h fs).1 (feed body h' fs).1 := by
  induction fs generalizing h h' with
  | nil => exact ⟨rfl, hh⟩
  | cons f fs ih =>
    obtain ⟨he, hr⟩ := hR h h' f.1 f.2 hh
    rcases hb : body h f.1 f.2 with ⟨h₁, _ | e⟩ <;> rcases hb' : body h' f.1 f.2 with ⟨h₁', _ | e'⟩ <;>
      simp only [hb, hb'] at he hr <;> simp only [feed, hb, hb']
    · exact ih hr
    · simp at he
    · simp at he
    · exact ⟨he, hr⟩

inductive Run (body : σ → Bytes → Bytes → σ × Option Err) : Scanner → σ → Scanner → σ → Prop
  | refl (s : Scanner) (h : σ) : Run body s h s h
  | step {s s₁ s₂ : Scanner} {h h₁ h₂ : σ} : s.Fresh → s.next = (true, s₁) →
      body h s₁.key s₁.value = (h₁, none) → Run body s₁ h₁ s₂ h₂ → Run body s h s₂ h₂

theorem Run.scanAll {h h₁ : σ} (hrun : Run body s h s₁ h₁) :
    scanAll body s h = scanAll body s₁ h₁ := by
  induction hrun with
  | refl => rfl
  | step _ hnext hb _ ih => rw [scanAll_field hnext hb, ih]

inductive End (body : σ → Bytes → Bytes → σ × Option Err) (s : Scanner) (h : σ) :
    σ × Scanner × Option Err → Prop
  | blank (k : Nat) : s.Fresh → 0 < k → blankLen s.b = k → End body s h
      (h, { s with pre := s.pre ++ s.b.take k, b := s.b.drop k, hLen := s.hLen + k }, s.err)
  | noLine : s.Fresh → nChar ∉ s.b →
      End body s h (h, { s with nextColon := none, err := some .needMore }, some .needMore)
  | noColon (l t : Bytes) : s.Fresh → s.b = l ++ nChar :: t → IsLine l → colonChar ∉ s.b →
      End body s h (h, { s with nextColon := none, err := some .needMore }, some .needMore)
  | badName (l t : Bytes) : s.Fresh → s.b = l ++ nChar :: t → IsLine l → colonChar ∉ l → colonChar ∈ t →
      End body s h (h, { s with nextColon := none, err := some .invalidName }, some .invalidName)
  | rejected (s' : Scanner) (h' : σ) (e : Err) : s.next = (true, s') →
      body h s'.key s'.value = (h', some e) → End body s h (h', s', some e)

theorem scanAll_outcome (hbody : Strict body) (hs : s.Fresh ∨ s.Remembered) (h : σ) :
    ∃ s₁ h₁, Run body s h s₁ h₁ ∧ End body s₁ h₁ (scanAll body s h) := by
  induction hn : s.b.length using Nat.strong_induction_on generalizing s h with
  | _ n ih =>
    subst hn
    rcases hs with hs | hs
    swap
    · obtain ⟨s', -, hnext, hkey, -⟩ := next_remembered hs
      rcases hb : body h s'.key s'.value with ⟨h', _ | e⟩
      · obtain ⟨e, he⟩ := hbody.blank h _ hkey
        simp [he] at hb
      · refine ⟨s, h, .refl s h, ?_⟩
        rw [scanAll_reject hnext hb]
        exact .rejected s' h' e hnext hb
    have hfield : ∀ s', s.next = (true, s') → (s'.Fresh ∨ s'.Remembered) →
        ∃ s₁ h₁, Run body s h s₁ h₁ ∧ End body s₁ h₁ (scanAll body s h) := by
      intro s' hnext hs'
      rcases hb : body h s'.key s'.value with ⟨h', _ | e⟩
      · obtain ⟨s₁, h₁, hrun, hend⟩ := ih _ (next_shorter hnext) hs' h' rfl
        rw [scanAll_field hnext hb]
        exact ⟨s₁, h₁, .step hs hnext hb hrun, hend⟩
      · rw [scanAll_reject hnext hb]
        exact ⟨s, h, .refl s h, .rejected s' h' e hnext hb⟩
    have hspec := next_spec hs
    generalize hnext : s.next = r at hspec
    cases hspec with
    | blank k hk hb =>
      rw [scanAll_stop h hnext]
      exact ⟨s, h, .refl s h, .blank k hs hk hb⟩
    | noLine hb =>
      rw [scanAll_stop h hnext]
      exact ⟨s, h, .refl s h, .noLine hs hb⟩
    | noColon l t hb hl hc =>
      rw [scanAll_stop h hnext]
      exact ⟨s, h, .refl s h, .noColon l t hs hb hl hc⟩
    | badName l t hb hl hc ht =>
      rw [scanAll_stop h hnext]
      exact ⟨s, h, .refl s h, .badName l t hs hb hl hc ht⟩
    | plain k bl v t hb hf he => exact hfield _ hnext (passPlain_state he)
    | folded k bl v ls w t hb hf hne hls hw he => exact hfield _ hnext (passFolded_state he)

/-! ## What a run moves -/

def Stuck (s : Scanner) : Prop := ∃ l t, s.b = l ++ nChar :: t ∧ IsFolded l

theorem next_stuck (hs : s.Fresh) (h : s.Stuck) : s.next.1 = false := by
  obtain ⟨l, t, hb, hl⟩ := h
  by_cases hc : colonChar ∈ t
  · rw [next_badName hs hb hl.isLine hl.noColon hc]
  · rw [next_noColon hs hb hl.isLine (by rw [hb]; simp [hl.noColon, hc])]

def WholeLines (q : Bytes) : Prop := ∀ z, blockEnd (q ++ z) = (blockEnd z).map (q.length + ·)

theorem WholeLines.append {q q' : Bytes} (h : WholeLines q) (h' : WholeLines q') : WholeLines (q ++ q') := by
  intro z
  rw [append_assoc, h, h', Option.map_map, length_append]
  congr 1
  funext n
  simp only [Function.comp_apply]
  omega

theorem wholeLines_line {l : Bytes} (h : IsLine l) : WholeLines (l ++ [nChar]) := by
  intro z
  rw [append_assoc, singleton_append, blockEnd_line h]
  simp

/-- From `s` to `s₁` the scanner passes `e` bytes and leaves `q` in their place, `d` bytes less. -/
structure Moved (s s₁ : Scanner) (q : Bytes) (e d : Nat) : Prop where
  rest : s₁.b = s.b.drop e
  le : e ≤ s.b.length
  pre : s₁.pre = s.pre ++ q
  size : q.length + d = e
  post : ∃ stale, s₁.post = stale ++ s.post ∧ stale.length = d
  err : s₁.err = s.err
  normal : s₁.disableNormalizing = s.disableNormalizing
  ends : ∀ y, blockEnd (s.b ++ y) = (blockEnd (s₁.b ++ y)).map (e + ·)
  noFold : d = 0 → ∀ y, NoFold (s.b ++ y) ↔ NoFold (s₁.b ++ y)
  noFold' : d = 0 → ∀ z, NoFold (q ++ z) ↔ NoFold z
  fold : 0 < d → ∀ y, ¬NoFold (s.b ++ y)
  clean : (s₁.hLen = s.hLen + q.length ∧ WholeLines q) ∨
    (s₁.Stuck ∧ ∀ y, blockEnd (q ++ (s₁.b ++ y)) = (blockEnd (s₁.b ++ y)).map (q.length + ·))

theorem Moved.refl (s : Scanner) : Moved s s [] 0 0 := by
  refine ⟨by simp, by simp, by simp, rfl, ⟨[], by simp, rfl⟩, rfl, rfl, fun y => ?_, fun _ _ => Iff.rfl,
    fun _ _ => Iff.rfl, by omega, .inl ⟨rfl, fun z => ?_⟩⟩
  · cases blockEnd (s.b ++ y) <;> simp
  · rw [nil_append]
    cases blockEnd z <;> simp

theorem Moved.trans {s₂ : Scanner} {q q' : Bytes} {e d e' d' : Nat} (h : Moved s s₁ q e d)
    (h' : Moved s₁ s₂ q' e' d') (hclean : s₁.hLen = s.hLen + q.length ∧ WholeLines q) :
    Moved s s₂ (q ++ q') (e + e') (d + d') := by
  obtain ⟨st, hst, hd⟩ := h.post
  obtain ⟨st', hst', hd'⟩ := h'.post
  have hle' := h'.le
  have hle := h.le
  have hsize := h.size
  have hsize' := h'.size
  rw [h.rest, length_drop] at hle'
  refine ⟨by rw [h'.rest, h.rest, drop_drop], by omega, by rw [h'.pre, h.pre, append_assoc],
    by simp only [length_append]; omega, ⟨st' ++ st, by rw [hst', hst, append_assoc],
    by simp only [length_append]; omega⟩, h'.err.trans h.err, h'.normal.trans h.normal,
    fun y => ?_, fun h0 y => ?_, fun h0 z => ?_, fun hpos y => ?_, ?_⟩
  · rw [h.ends, h'.ends, Option.map_map]
    congr 1
    funext n
    simp only [Function.comp_apply]
    omega
  · rw [h.noFold (by omega), h'.noFold (by omega)]
  · rw [append_assoc, h.noFold' (by omega), h'.noFold' (by omega)]
  · by_cases hd0 : d = 0
    · rw [h.noFold hd0]; exact h'.fold (by omega) y
    · exact h.fold (by omega) y
  · refine h'.clean.imp (fun hc => ⟨?_, hclean.2.append hc.2⟩) (fun hc => ⟨hc.1, fun y => ?_⟩)
    · rw [hc.1, hclean.1, length_append, Nat.add_assoc]
    · rw [append_assoc, hclean.2, hc.2, Option.map_map, length_append]
      congr 1
      funext n
      simp only [Function.comp_apply]
      omega

theorem initHeaderK_length (k : Bytes) (d : Bool) : (initHeaderK k d).length = k.length := by
  unfold initHeaderK
  split <;> simp

theorem mem_initHeaderK {x : Byte} (hx : Caseless x) (k : Bytes) (d : Bool) : x ∈ initHeaderK k d ↔ x ∈ k := by
  unfold initHeaderK
  split
  · rfl
  · exact mem_normalizeHeaderKeyV2 hx k

theorem startsBlank_initHeaderK (k : Bytes) (d : Bool) : StartsBlank (initHeaderK k d) ↔ StartsBlank k := by
  refine ⟨fun h => ?_, fun h => initHeaderK_startsBlank h d⟩
  unfold initHeaderK at h
  split at h
  · exact h
  · rcases k with _ | ⟨c, k⟩
    · exact h
    · have hup : ∀ c, isBlank (toUpperTable c) = true → isBlank c = true := forall_byte (by decide +kernel)
      obtain ⟨e, he, hb⟩ := h
      simp only [normalizeHeaderKeyV2, head?_cons, Option.mem_some_iff] at he
      exact ⟨c, by simp, hup c (he ▸ hb)⟩

theorem isField_initHeaderK (h : IsField k bl v) (d : Bool) :
    IsField (initHeaderK k d) bl v where
  noColon := by rw [mem_initHeaderK caseless_colon]; exact h.noColon
  keyNoLF := by rw [mem_initHeaderK caseless_lf]; exact h.keyNoLF
  blanks := h.blanks
  noLF := h.noLF
  head := h.head

theorem moved_plain {t : Bytes}
    (hb : s.b = k ++ colonChar :: (bl ++ (v ++ nChar :: t))) (hf : IsField k bl v) (hk : ¬StartsBlank k) :
    ∃ q e, Moved s (s.passPlain k bl v t) q e 0 := by
  have hkey := initHeaderK_length k s.disableNormalizing
  have hf' := isField_initHeaderK hf s.disableNormalizing
  have hk' : ¬StartsBlank (initHeaderK k s.disableNormalizing) := by rwa [startsBlank_initHeaderK]
  refine ⟨initHeaderK k s.disableNormalizing ++ colonChar :: (bl ++ (v ++ [nChar])),
    k.length + 1 + bl.length + (v.length + 1), ?_, by rw [hb]; simp; omega, by simp [passPlain],
    by simp; omega, ⟨[], rfl, rfl⟩, rfl, rfl, fun y => ?_, fun _ y => ?_, fun _ z => ?_, by omega, .inl ⟨?_, ?_⟩⟩
  · have : s.b = (k ++ colonChar :: (bl ++ (v ++ [nChar]))) ++ t := by rw [hb]; simp
    rw [this, drop_left' (by simp; omega)]
    rfl
  · have := blockEnd_field hf (t ++ y)
    rw [hb]
    simpa [passPlain] using this
  · have := noFold_field hf (t ++ y)
    rw [hb]
    simpa [passPlain, hk] using this
  · have := noFold_field hf' z
    simpa [hk'] using this
  · simp only [passPlain, length_append, length_cons, hkey, length_nil]
    omega
  · have := wholeLines_line (shape_line _ _ _ hf')
    simpa using this

theorem moved_folded {w t : Bytes} {ls : List Bytes}
    (hb : s.b = k ++ colonChar :: (bl ++ (v ++ nChar :: (unlines ls ++ t)))) (hf : IsField k bl v)
    (hne : ls ≠ []) (hls : ∀ l ∈ ls, IsFolded l) (hw : unlines ls = w ++ [nChar]) :
    ∃ q e, Moved s (s.passFolded k bl (v ++ nChar :: w) t) q e (shrunk (v ++ nChar :: w)) := by
  generalize hraw : v ++ nChar :: w = raw
  have hkey := initHeaderK_length k s.disableNormalizing
  have hpos : 0 < shrunk raw := shrunk_pos (by rw [← hraw]; simp)
  have hgap := congrArg List.length (passed_append_leftover raw)
  have hlen := unfolded_length raw
  simp only [length_append, length_singleton] at hgap
  have hcut : v ++ nChar :: (unlines ls ++ t) = trimValue raw ++ (passed raw ++ (leftover raw ++ t)) := by
    rw [hw, ← append_assoc (passed raw), passed_append_leftover, ← append_assoc,
      ← append_assoc, trimValue_append_gap, ← hraw]
    simp
  have htrim : (trimValue raw).length = (unfolded raw).length + shrunk raw :=
    (unfoldValue_length false false (trimValue raw)).symm
  have hrawlen : raw.length = v.length + 1 + w.length := by rw [← hraw]; simp; omega
  -- the unfolded value is one line
  have hnv : nChar ∉ unfolded raw := fun hm => (unfoldValue_noBreak false false _ _ hm).2 rfl
  have hbl : nChar ∉ bl := fun hm => ne_of_isBlank (hf.blanks _ hm) isBlank_nChar rfl
  have hline : ∀ g, nChar ∉ g →
      IsLine (initHeaderK k s.disableNormalizing ++ colonChar :: (bl ++ (unfolded raw ++ g))) := by
    intro g hg
    refine ⟨?_, by simp, ?_⟩
    · simp [mem_initHeaderK caseless_lf, hf.keyNoLF, hbl, hnv, hg]
    · intro he
      have : colonChar ∈ [rChar] := by rw [← he]; simp
      revert this; decide
  have hleft : ∀ y, blockEnd (leftover raw ++ (t ++ y)) = (blockEnd (t ++ y)).map ((leftover raw).length + ·) := by
    intro y
    rcases leftover_cases raw with h | ⟨l, h, hl, -, -⟩
    · rw [h]; simp
    · rw [h, append_assoc, singleton_append, blockEnd_line hl]
      simp
  refine ⟨initHeaderK k s.disableNormalizing ++ colonChar :: (bl ++ (unfolded raw ++ passed raw)),
    k.length + 1 + bl.length + ((trimValue raw).length + (passed raw).length), ?_, ?_, ?_, ?_,
    ⟨_, rfl, ?_⟩, rfl, rfl, fun y => ?_, by omega, by omega, fun _ y hno => ?_, ?_⟩
  · have : s.b = (k ++ colonChar :: (bl ++ (trimValue raw ++ passed raw))) ++ (leftover raw ++ t) := by
      rw [hb, hcut]; simp
    rw [this, drop_left' (by simp; omega)]
    rfl
  · rw [hb, hcut]; simp; omega
  · simp [passFolded]
  · simp only [length_append, length_cons]
    omega
  · simp only [length_drop, length_append]
    omega
  · have hends := blockEnd_field hf (unlines ls ++ (t ++ y))
    rw [blockEnd_unlines hls, Option.map_map] at hends
    have hsb : s.b ++ y = k ++ colonChar :: (bl ++ (v ++ nChar :: (unlines ls ++ (t ++ y)))) := by
      rw [hb]; simp
    have hb₁ : (s.passFolded k bl raw t).b ++ y = leftover raw ++ (t ++ y) := by simp [passFolded]
    have hul : (unlines ls).length = w.length + 1 := by rw [hw]; simp
    rw [hsb, hends, hb₁, hleft, Option.map_map]
    congr 1
    funext n
    simp only [Function.comp_apply]
    omega
  · have hsb : s.b ++ y = k ++ colonChar :: (bl ++ (v ++ nChar :: (unlines ls ++ (t ++ y)))) := by
      rw [hb]; simp
    obtain ⟨l, ls, rfl⟩ := exists_cons_of_ne_nil hne
    rw [hsb, noFold_field hf] at hno
    refine noFold_not_startsBlank hno.2 ?_
    rw [unlines_cons, append_assoc]
    exact startsBlank_append (hls l (by simp)).blank _
  · rcases leftover_cases raw with h | ⟨l, h, hl, hlb, hlc⟩
    · left
      rw [h] at hgap
      have hpass : passed raw = gap raw ++ [nChar] := by
        have := passed_append_leftover raw
        rwa [h, append_nil] at this
      refine ⟨?_, ?_⟩
      · simp only [passFolded, length_append, length_cons, length_nil] at hgap ⊢
        omega
      · have := wholeLines_line (hline (gap raw) (gap_noLF raw))
        rw [hpass]
        simpa using this
    · right
      have hpass : passed raw = [] := by
        unfold leftover at h
        unfold passed
        split at h
        · simp at h
        · rw [if_neg ‹_›]
      refine ⟨⟨l, t, by simp [passFolded, h], hl.noLF, hlb, hlc⟩, fun y => ?_⟩
      have hl' := hline l hl.noLF
      have hb₁ : (s.passFolded k bl raw t).b ++ y = l ++ nChar :: (t ++ y) := by simp [passFolded, h]
      have hall := blockEnd_line hl' (t ++ y)
      rw [hb₁, hpass, blockEnd_line hl, Option.map_map]
      simp only [append_nil, append_assoc, cons_append] at hall ⊢
      rw [hall]
      congr 1
      funext n
      simp only [Function.comp_apply, length_append, length_cons]
      omega

theorem Run.moved (hbody : Strict body) {h h₁ : σ} (hrun : Run body s h s₁ h₁) :
    ∃ q e d, Moved s s₁ q e d := by
  induction hrun with
  | refl s h => exact ⟨[], 0, 0, Moved.refl s⟩
  | @step s s₁ s₂ h h₁ h₂ hs hnext hb hrun ih =>
    obtain ⟨q', e', d', hm'⟩ := ih
    have hone : ∃ q e d, Moved s s₁ q e d := by
      have hspec := next_spec hs
      rw [hnext] at hspec
      cases hspec with
      | plain k bl v t heq hf he =>
        have hk : ¬StartsBlank k := by
          intro hk
          obtain ⟨e, he⟩ := hbody.blank h _ (initHeaderK_startsBlank hk s.disableNormalizing)
          have hnone : body h (initHeaderK k s.disableNormalizing) (trimValue v) = (h₁, none) := hb
          simp [he] at hnone
        obtain ⟨q, e, hm⟩ := moved_plain heq hf hk
        exact ⟨q, e, 0, hm⟩
      | folded k bl v ls w t heq hf hne hls hw he =>
        obtain ⟨q, e, hm⟩ := moved_folded heq hf hne hls hw
        exact ⟨q, e, _, hm⟩
    obtain ⟨q, e, d, hm⟩ := hone
    rcases hm.clean with hclean | ⟨hstuck, -⟩
    · exact ⟨_, _, _, hm.trans hm' hclean⟩
    -- no field is passed behind a line that was left over
    · cases hrun with
      | refl => exact ⟨q, e, d, hm⟩
      | step hs₁ hnext₁ _ _ =>
        have := next_stuck hs₁ hstuck
        rw [hnext₁] at this
        exact absurd this (by simp)

theorem blankLen_le (b : Bytes) : blankLen b ≤ b.length := by
  unfold blankLen
  split
  · rename_i h; have := congrArg List.length h; simp [strCRLF] at this; omega
  · split
    · rename_i h; have := congrArg List.length h; simp at this; omega
    · omega

theorem scanAll_success (hbody : Strict body) {s' : Scanner} {h h' : σ} (hs : s.Fresh)
    (hscan : scanAll body s h = (h', s', none)) :
    ∃ q e d, blockEnd s.b = some e ∧ s'.b = s.b.drop e ∧ s'.hLen = s.hLen + q.length ∧
      s'.pre = s.pre ++ q ∧ q.length + d = e ∧ (∃ stale, s'.post = stale ++ s.post ∧ stale.length = d) ∧
      (d = 0 ↔ NoFold s.b) := by
  obtain ⟨s₁, h₁, hrun, hend⟩ := scanAll_outcome hbody (.inl hs) h
  obtain ⟨q, e, d, hm⟩ := Run.moved hbody hrun
  rw [hscan] at hend
  generalize hout : (h', s', (none : Option Err)) = out at hend
  cases hend with
  | blank k hs₁ hk hb =>
    simp only [Prod.mk.injEq] at hout
    obtain ⟨-, rfl, -⟩ := hout
    have hb₁ : blockEnd s₁.b = some k := blockEnd_blank hb hk
    have hkle : k ≤ s₁.b.length := hb ▸ blankLen_le s₁.b
    have hends := hm.ends []
    have hno := fun h0 => hm.noFold h0 []
    have hfo := fun h0 => hm.fold h0 []
    simp only [append_nil] at hends hno hfo
    have hclean : s₁.hLen = s.hLen + q.length := by
      rcases hm.clean with hc | ⟨⟨l, t, hbl, hl⟩, -⟩
      · exact hc.1
      · rw [hbl, blankLen_line hl.isLine] at hb
        omega
    have hsize := hm.size
    refine ⟨q ++ s₁.b.take k, e + k, d, by rw [hends, hb₁]; rfl, by simp [hm.rest],
      ?_, by simp [hm.pre, append_assoc], ?_, hm.post, ?_⟩
    · simp only [length_append, length_take]; omega
    · simp only [length_append, length_take]; omega
    · constructor
      · intro h0
        rw [hno h0]
        exact noFold_blank hb hk
      · intro hn
        by_contra hd
        exact hfo (by omega) hn
  | noLine => simp at hout
  | noColon => simp at hout
  | badName => simp at hout
  | rejected => simp at hout

end Scanner

end Fasthttp
