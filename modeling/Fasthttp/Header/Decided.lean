import Fasthttp.Header.Attempt

/-!
# When a complete block is decided

The fields of a block, in their own terms: a grammar of lines (`Fields`) with no scanner in it.
-/

namespace Fasthttp

open Scanner

/-! ## The fields of a block -/

/-- The line in front belongs to the value behind it, or is taken for a field of its own. -/
def Continues (t : Bytes) : Prop := StartsBlank t ∧ nChar ∈ t

inductive Fields (disableNormalizing : Bool) : Bytes → List (Bytes × Bytes) → Bytes → Prop
  | nil (b : Bytes) : Fields disableNormalizing b [] b
  | plain {k bl v t rest : Bytes} {fs : List (Bytes × Bytes)} : IsField k bl v → ¬Continues t →
      Fields disableNormalizing t fs rest →
      Fields disableNormalizing (k ++ colonChar :: (bl ++ (v ++ nChar :: t)))
        ((initHeaderK k disableNormalizing, trimValue v) :: fs) rest
  | folded {k bl v w t rest : Bytes} {ls : List Bytes} {fs : List (Bytes × Bytes)} : IsField k bl v →
      ls ≠ [] → (∀ l ∈ ls, IsFolded l) → unlines ls = w ++ [nChar] → ¬Continues t →
      Fields disableNormalizing (leftover (v ++ nChar :: w) ++ t) fs rest →
      Fields disableNormalizing (k ++ colonChar :: (bl ++ (v ++ nChar :: (unlines ls ++ t))))
        ((initHeaderK k disableNormalizing, unfolded (v ++ nChar :: w)) :: fs) rest

theorem folds_not_continues {t : Bytes} (h : ¬Continues t) : folds t = ⟨0, none, none⟩ := by
  by_cases hb : StartsBlank t
  · exact folds_noLine fun hm => h ⟨hb, hm⟩
  · exact folds_noBlank (not_startsBlank hb)

theorem not_continues_of_folds {t : Bytes} (he : (folds t).extra = 0) (hc : (folds t).nextColon = none) :
    ¬Continues t := by
  rintro ⟨hb, hm⟩
  obtain ⟨h | h, -⟩ | ⟨k, m, r, -, -, -, -, hf⟩ | ⟨l, r, -, -, -, -, hf⟩ := folds_cases t
  · exact h hb
  · exact h hm
  · simp [hf] at hc
  · simp [hf] at he

section
variable {σ : Type} {body : σ → Bytes → Bytes → σ × Option Err}

theorem Scanner.Run.fields {s s₁ : Scanner} {h h₁ : σ} (hrun : Run body s h s₁ h₁) (hs₁ : s₁.Fresh) :
    ∃ fs, Fields s.disableNormalizing s.b fs s₁.b ∧ feed body h fs = (h₁, none) := by
  induction hrun with
  | refl s h => exact ⟨[], .nil s.b, rfl⟩
  | @step s s₁ s₂ h h₁ h₂ hs hnext hb hrun ih =>
    obtain ⟨fs, hfs, hacc⟩ := ih hs₁
    -- the scanner is fresh behind the field, at the end of the run or before its next field
    have hfresh : s₁.Fresh := by
      cases hrun with
      | refl => exact hs₁
      | step h => exact h
    have hspec := next_spec hs
    rw [hnext] at hspec
    cases hspec with
    | plain k bl v t heq hf he =>
      refine ⟨(initHeaderK k s.disableNormalizing, trimValue v) :: fs, ?_, ?_⟩
      · rw [heq]
        exact .plain hf (not_continues_of_folds he hfresh.1) hfs
      · have hb' : body h (initHeaderK k s.disableNormalizing) (trimValue v) = (h₁, none) := hb
        simp [feed, hb', hacc]
    | folded k bl v ls w t heq hf hne hls hw he =>
      refine ⟨(initHeaderK k s.disableNormalizing, unfolded (v ++ nChar :: w)) :: fs, ?_, ?_⟩
      · rw [heq]
        exact .folded hf hne hls hw (not_continues_of_folds he hfresh.1) hfs
      · have hb' : body h (initHeaderK k s.disableNormalizing) (unfolded (v ++ nChar :: w)) = (h₁, none) := hb
        simp [feed, hb', hacc]

theorem feed_cons {h h₁ : σ} {k v : Bytes} {fs : List (Bytes × Bytes)}
    (hacc : feed body h ((k, v) :: fs) = (h₁, none)) :
    ∃ h', body h k v = (h', none) ∧ feed body h' fs = (h₁, none) := by
  rcases hb : body h k v with ⟨h', _ | e⟩
  · exact ⟨h', rfl, by simpa [feed, hb] using hacc⟩
  · simp [feed, hb] at hacc

theorem Fields.run {d : Bool} {b rest : Bytes} {fs : List (Bytes × Bytes)} (hfs : Fields d b fs rest) :
    ∀ {s : Scanner} {h h₁ : σ}, s.Fresh → s.b = b → s.disableNormalizing = d →
      feed body h fs = (h₁, none) → ∃ s₁, Run body s h s₁ h₁ ∧ s₁.Fresh ∧ s₁.b = rest := by
  induction hfs with
  | nil b =>
    intro s h h₁ hs hb hd hacc
    simp only [feed, Prod.mk.injEq, and_true] at hacc
    subst hacc
    exact ⟨s, .refl s h, hs, hb⟩
  | @plain k bl v t rest fs hf hc _ ih =>
    intro s h h₁ hs hb hd hacc
    subst hd
    have hfold := folds_not_continues hc
    obtain ⟨h', hbody, hacc⟩ := feed_cons hacc
    have hfresh : (s.passPlain k bl v t).Fresh := by simp [Fresh, passPlain, hfold]
    obtain ⟨s₁, hrun, hs₁, hb₁⟩ := ih hfresh rfl rfl hacc
    exact ⟨s₁, .step hs (next_plain hs hb hf (by rw [hfold])) hbody hrun, hs₁, hb₁⟩
  | @folded k bl v w t rest ls fs hf hne hls hw hc _ ih =>
    intro s h h₁ hs hb hd hacc
    subst hd
    have hfold := folds_not_continues hc
    obtain ⟨h', hbody, hacc⟩ := feed_cons hacc
    have hfresh : (s.passFolded k bl (v ++ nChar :: w) t).Fresh := by simp [Fresh, passFolded, hfold]
    obtain ⟨s₁, hrun, hs₁, hb₁⟩ := ih hfresh rfl rfl hacc
    have hwt : unlines ls ++ t = w ++ nChar :: t := by rw [hw]; simp
    have hextra : folds (w ++ nChar :: t) = { folds t with extra := w.length + 1 } := by
      rw [← hwt, folds_unlines hls, hw, hfold]
      simp
    exact ⟨s₁, .step hs (next_folded hs (by rw [hb, hwt]) hf hextra) hbody hrun, hs₁, hb₁⟩

theorem scanAll_needMore (hbody : Strict body) {s : Scanner} (hs : s.Fresh) (he : s.err = none) (h : σ)
    (hblock : blockEnd s.b ≠ none) :
    (scanAll body s h).2.2 = some .needMore ↔
      ∃ fs rest h₁, Fields s.disableNormalizing s.b fs rest ∧ feed body h fs = (h₁, none) ∧
        blankLen rest = 0 ∧ colonChar ∉ rest := by
  constructor
  · intro hmore
    obtain ⟨s₁, h₁, hrun, hend⟩ := scanAll_outcome hbody (.inl hs) h
    obtain ⟨q, e, d, hm⟩ := Run.moved hbody hrun
    generalize scanAll body s h = out at hend hmore
    cases hend with
    | blank => simp [hm.err, he] at hmore
    | noLine _ hno =>
      have hends := hm.ends []
      simp only [List.append_nil, blockEnd_noLine hno] at hends
      exact absurd hends hblock
    | noColon l t hs₁ hb hl hc =>
      obtain ⟨fs, hfs, hacc⟩ := hrun.fields hs₁
      exact ⟨fs, s₁.b, h₁, hfs, hacc, by rw [hb]; exact blankLen_line hl t, hc⟩
    | badName => simp at hmore
    | rejected s' h' e hnext hb =>
      exact absurd (by rw [hb, hmore]) (hbody.definite h₁ s'.key s'.value)
  · rintro ⟨fs, rest, h₁, hfs, hacc, hblank, hc⟩
    obtain ⟨s₁, hrun, hs₁, rfl⟩ := hfs.run hs rfl rfl hacc
    rw [hrun.scanAll]
    have hspec := next_spec hs₁
    generalize hnext : s₁.next = r at hspec
    cases hspec with
    | blank k hk hb => omega
    | noLine => rw [scanAll_stop h₁ hnext]
    | noColon => rw [scanAll_stop h₁ hnext]
    | badName l t hb _ _ ht => exact absurd (by rw [hb]; simp [ht]) hc
    | plain k bl v t hb => exact absurd (by rw [hb]; simp) hc
    | folded k bl v ls w t hb => exact absurd (by rw [hb]; simp) hc

end

/-! ## Complete request blocks -/

namespace RequestHeader

/-- Behind the accepted fields there is a line that is not blank, and no colon. -/
def Dangling (h : RequestHeader) (buf : Bytes) : Prop :=
  ∃ h₀ m fs rest h₁, h.requestLine buf = (h₀, .ok m) ∧ 0 ≤ m ∧ m ≤ buf.length ∧
    Fields h₀.disableNormalizing (buf.drop m.toNat) fs rest ∧
    feed parseField (h₀.keepRaw (buf.drop m.toNat)).start fs = (h₁, none) ∧
    blankLen rest = 0 ∧ colonChar ∉ rest

theorem parseHeaders_out (h : RequestHeader) (b : Bytes) :
    (h.parseHeaders b).2.2 = .error .needMore ↔
      (scanAll parseField (Scanner.new b h.disableNormalizing) h.start).2.2 = some .needMore := by
  unfold parseHeaders
  generalize scanAll parseField (Scanner.new b h.disableNormalizing) h.start = out
  obtain ⟨h', s', _ | e⟩ := out <;> simp

theorem parse_needMore_iff {h : RequestHeader} {buf : Bytes} (hline : nChar ∈ buf)
    (hblock : ∀ h₀ m, h.requestLine buf = (h₀, .ok m) →
      (readRawHeaders (buf.drop m.toNat)).2.isSome = true) :
    (h.parse buf).2.2 = .error .needMore ↔ h.Dangling buf := by
  rcases hfirst : h.requestLine buf with ⟨h₀, e | m⟩
  · have he := requestLine_definite hline hfirst
    have hno : ¬h.Dangling buf := by
      rintro ⟨h₀', m, fs, rest, h₁, hm, -⟩
      simp [hfirst] at hm
    simp [parse, hfirst, he, hno]
  by_cases hm : m < 0 ∨ buf.length < m
  · have hno : ¬h.Dangling buf := by
      rintro ⟨h₀', m', fs, rest, h₁, hm', h0, hle, -⟩
      simp only [hfirst, Prod.mk.injEq, Except.ok.injEq] at hm'
      omega
    simp [parse, hfirst, hm, hno]
  have hsome := hblock h₀ m hfirst
  obtain ⟨e, he⟩ := Option.isSome_iff_exists.mp hsome
  have hend : blockEnd (buf.drop m.toNat) ≠ none := by
    rw [← readRawHeaders_length, he]
    simp
  have hparse : (h.parse buf).2.2 = .error .needMore ↔
      ((h₀.keepRaw (buf.drop m.toNat)).parseHeaders (buf.drop m.toNat)).2.2 = .error .needMore := by
    have : (m < 0 || decide ((buf.length : Int) < m)) = false := by simpa using hm
    simp only [parse, hfirst, this, he]
    cases ((h₀.keepRaw (buf.drop m.toNat)).parseHeaders (buf.drop m.toNat)).2.2 <;> simp [Except.map]
  rw [hparse, parseHeaders_out, scanAll_needMore parseField_strict (new_fresh _ _) rfl _ hend]
  constructor
  · rintro ⟨fs, rest, h₁, hfs, hacc, hb, hc⟩
    exact ⟨h₀, m, fs, rest, h₁, hfirst, by omega, by omega, hfs, hacc, hb, hc⟩
  · rintro ⟨h₀', m', fs, rest, h₁, hm', -, -, hfs, hacc, hb, hc⟩
    simp only [hfirst] at hm'
    obtain ⟨rfl, rfl⟩ := hm'
    exact ⟨fs, rest, h₁, hfs, hacc, hb, hc⟩

theorem parse_decided_iff (h : RequestHeader) (buf : Bytes) (hline : nChar ∈ buf)
    (hblock : ∀ h₀ m, h.requestLine buf = (h₀, .ok m) →
      (readRawHeaders (buf.drop m.toNat)).2.isSome = true) :
    (h.parse buf).2.2 ≠ .error .needMore ↔ ¬h.Dangling buf :=
  not_congr (parse_needMore_iff hline hblock)

theorem parse_decided_iff_host :
    ¬zero.Dangling (ascii "GET / HTTP/1.1\r\nHost: a\r\n\r\n") :=
  (parse_decided_iff zero (ascii "GET / HTTP/1.1\r\nHost: a\r\n\r\n") (by decide)
    (fun h₀ m hm => by
      have : m = 16 := by
        have h16 : (zero.requestLine (ascii "GET / HTTP/1.1\r\nHost: a\r\n\r\n")).2.toOption = some 16 := by
          decide +kernel
        simpa [hm, Except.toOption] using h16
      subst this
      decide +kernel)).mp
    (by decide +kernel)

/-- A line without a colon, in a block that is complete. -/
theorem parse_undecided :
    nChar ∈ ascii "GET / HTTP/1.1\r\nfoo\r\n\r\n" ∧
    (readRawHeaders ((ascii "GET / HTTP/1.1\r\nfoo\r\n\r\n").drop 16)).2 = some 7 ∧
    (zero.parse (ascii "GET / HTTP/1.1\r\nfoo\r\n\r\n")).2.2 = .error .needMore := by
  exact ⟨by decide, by decide +kernel, rfl⟩

end RequestHeader

end Fasthttp
