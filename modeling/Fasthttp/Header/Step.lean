import Fasthttp.Header.Lines

/-!
# A field is passed

A value on one line leaves the buffer as it is, up to the case of the key.
-/

namespace Fasthttp

open List

/-! ## The trimmed value and the gap behind it -/

def gap (v : Bytes) : Bytes := v.drop (trimValue v).length

theorem trimValue_split (v : Bytes) : ∃ bs cr, v = trimValue v ++ (bs ++ cr) ∧
    (∀ c ∈ bs, isBlank c = true) ∧ (cr = [] ∨ cr = [rChar]) := by
  have hblank : ∀ u : Bytes, ∃ bs, u = u.rdropWhile isBlank ++ bs ∧ ∀ c ∈ bs, isBlank c = true := by
    intro u
    refine ⟨(u.reverse.takeWhile isBlank).reverse, ?_, ?_⟩
    · rw [rdropWhile, ← reverse_append, takeWhile_append_dropWhile, reverse_reverse]
    · intro c hc
      exact mem_takeWhile_imp (mem_reverse.mp hc)
  unfold trimValue
  split
  · rename_i hlast
    obtain ⟨bs, hbs, hall⟩ := hblank v.dropLast
    refine ⟨bs, [rChar], ?_, hall, .inr rfl⟩
    rw [← append_assoc, ← hbs]
    exact (dropLast_append_getLast? rChar hlast).symm
  · obtain ⟨bs, hbs, hall⟩ := hblank v
    exact ⟨bs, [], by rw [append_nil, ← hbs], hall, .inl rfl⟩

theorem trimValue_append_gap (v : Bytes) : trimValue v ++ gap v = v := by
  obtain ⟨bs, cr, h, -, -⟩ := trimValue_split v
  exact prefix_iff_eq_append.mp ⟨bs ++ cr, h.symm⟩

theorem gap_cases (v : Bytes) : ∃ bs cr, gap v = bs ++ cr ∧
    (∀ c ∈ bs, isBlank c = true) ∧ (cr = [] ∨ cr = [rChar]) := by
  obtain ⟨bs, cr, h, hbs, hcr⟩ := trimValue_split v
  refine ⟨bs, cr, ?_, hbs, hcr⟩
  exact append_cancel_left ((trimValue_append_gap v).trans h)

theorem gap_noLF (v : Bytes) : nChar ∉ gap v := by
  obtain ⟨bs, cr, h, hbs, hcr⟩ := gap_cases v
  rw [h, mem_append, not_or]
  refine ⟨fun hm => ne_of_isBlank (hbs _ hm) isBlank_nChar rfl, ?_⟩
  rcases hcr with rfl | rfl <;> simp

theorem lf_mem_trimValue {v : Bytes} (h : nChar ∈ v) : nChar ∈ trimValue v := by
  rw [← trimValue_append_gap v, mem_append] at h
  exact h.resolve_right (gap_noLF v)

def passed (v : Bytes) : Bytes := if gap v = [] ∨ gap v = [rChar] then gap v ++ [nChar] else []

def leftover (v : Bytes) : Bytes := if gap v = [] ∨ gap v = [rChar] then [] else gap v ++ [nChar]

theorem passed_append_leftover (v : Bytes) : passed v ++ leftover v = gap v ++ [nChar] := by
  unfold passed leftover
  split <;> simp

theorem leftover_cases (v : Bytes) : leftover v = [] ∨
    ∃ l, leftover v = l ++ [nChar] ∧ IsLine l ∧ StartsBlank l ∧ colonChar ∉ l := by
  by_cases hg : gap v = [] ∨ gap v = [rChar]
  · exact .inl (by simp [leftover, hg])
  · refine .inr ⟨gap v, by simp [leftover, hg], ⟨gap_noLF v, ?_, ?_⟩, ?_, ?_⟩
    · exact fun h => hg (.inl h)
    · exact fun h => hg (.inr h)
    all_goals obtain ⟨bs, cr, h, hbs, hcr⟩ := gap_cases v
    · rcases bs with _ | ⟨c, bs⟩
      · rw [h] at hg
        exact absurd hcr hg
      · exact ⟨c, by simp [h], hbs c (by simp)⟩
    · rw [h, mem_append, not_or]
      refine ⟨fun hm => ne_of_isBlank (hbs _ hm) isBlank_colonChar rfl, ?_⟩
      rcases hcr with rfl | rfl <;> simp [show colonChar ≠ rChar by decide]

/-! ## The unfolded value -/

theorem unfoldValue_length (ls once : Bool) (v : Bytes) :
    (unfoldValue ls once v).1.length + (unfoldValue ls once v).2 = v.length := by
  fun_induction unfoldValue ls once v with
  | case1 => rfl
  | case2 ls once c v hc r ih | case3 ls c v hc hb r ih =>
    simp only [length_cons, r]; omega
  | case4 ls once c v hc hb hone r ih | case5 ls once c v hc hb r ih =>
    simp only [length_cons, r]; omega

theorem unfoldValue_pos (ls once : Bool) {v : Bytes} (h : nChar ∈ v) :
    0 < (unfoldValue ls once v).2 := by
  fun_induction unfoldValue ls once v with
  | case1 => simp at h
  | case2 ls once c v hc r ih => simp
  | case3 ls c v hc hb r ih => simp
  | case4 ls once c v hc hb hone r ih | case5 ls once c v hc hb r ih =>
    simp only [Bool.or_eq_true, decide_eq_true_eq, not_or] at hc
    exact ih ((mem_cons.mp h).resolve_left (Ne.symm hc.2))

theorem unfoldValue_noBreak (ls once : Bool) (v : Bytes) :
    ∀ c ∈ (unfoldValue ls once v).1, c ≠ rChar ∧ c ≠ nChar := by
  fun_induction unfoldValue ls once v with
  | case1 => simp
  | case2 ls once c v hc r ih => exact ih
  | case3 ls c v hc hb r ih => exact ih
  | case4 ls once c v hc hb hone r ih => exact forall_mem_cons.mpr ⟨by decide, ih⟩
  | case5 ls once c v hc hb r ih => exact forall_mem_cons.mpr ⟨by simpa using hc, ih⟩

namespace Scanner

open FirstIndex

variable {bl k t v : Bytes} {s s' : Scanner}

theorem takeWhile_blanks {r : Bytes} (hbl : ∀ c ∈ bl, isBlank c = true)
    (hr : ∀ c ∈ r.head?, isBlank c = false) : (bl ++ r).takeWhile isBlank = bl := by
  rw [takeWhile_append_of_pos hbl]
  rcases r with _ | ⟨c, r⟩
  · simp
  · simp [hr c (by simp)]

theorem keyEnd_field (hs : s.Fresh)
    (hb : s.b = k ++ colonChar :: (bl ++ (v ++ nChar :: t))) (hf : IsField k bl v) :
    s.keyEnd = .ok k.length := by
  have hx : indexByte s.b nChar = some (k ++ colonChar :: (bl ++ v)).length := by
    have hcut : s.b = (k ++ colonChar :: (bl ++ v)) ++ nChar :: t := by rw [hb]; simp
    rw [hcut, indexByte, idxOf?_append_cons _ _ _ (shape_line k bl v hf).noLF]
  have hn : indexByte s.b colonChar = some k.length := by
    rw [hb, indexByte, idxOf?_append_cons _ _ _ hf.noColon]
  rw [keyEnd, hs.1]
  simp only [hx, hn]
  rw [if_neg (by simp)]

theorem passKey_field (hs : s.Fresh)
    (hb : s.b = k ++ colonChar :: (bl ++ (v ++ nChar :: t))) (hf : IsField k bl v) :
    s.passKey k.length = { s with
      key := initHeaderK k s.disableNormalizing
      pre := s.pre ++ initHeaderK k s.disableNormalizing ++ colonChar :: bl
      b := v ++ nChar :: t
      hLen := s.hLen + (k.length + 1 + bl.length)
      nextColon := none
      nextNewLine := none } := by
  have hhead : ∀ c ∈ (v ++ nChar :: t).head?, isBlank c = false := by
    intro c hc
    rcases v with _ | ⟨d, v⟩
    · simp only [nil_append, head?_cons, Option.mem_some_iff] at hc
      subst hc; rfl
    · exact hf.head c (by simpa using hc)
  have htake : s.b.take k.length = k := by rw [hb, take_left' rfl]
  have hdrop : s.b.drop k.length = colonChar :: (bl ++ (v ++ nChar :: t)) := by
    rw [hb, drop_left' rfl]
  have hdrop1 : s.b.drop (k.length + 1) = bl ++ (v ++ nChar :: t) := by
    rw [← drop_drop, hdrop]; rfl
  have hskip : ((s.b.drop (k.length + 1)).takeWhile isBlank).length = bl.length := by
    rw [hdrop1, takeWhile_blanks hf.blanks hhead]
  have hpre : (s.b.drop k.length).take (1 + bl.length) = colonChar :: bl := by
    rw [hdrop, Nat.add_comm, take_succ_cons, take_left' rfl]
  have hrest : s.b.drop (k.length + 1 + bl.length) = v ++ nChar :: t := by
    rw [← drop_drop, hdrop1, drop_left' rfl]
  simp [passKey, htake, hskip, hpre, hrest, hs.2]

theorem passValue_plain (hs : s.nextNewLine = none)
    (hb : s.b = v ++ nChar :: t) (hv : nChar ∉ v) (he : (folds t).extra = 0) :
    s.passValue = (true, { s with
      value := trimValue v
      pre := s.pre ++ (v ++ [nChar])
      b := t
      hLen := s.hLen + (v.length + 1)
      nextColon := (folds t).nextColon
      nextNewLine := (folds t).nextNewLine }) := by
  have hx : indexByte s.b nChar = some v.length := by
    rw [hb, indexByte, idxOf?_append_cons _ _ _ hv]
  have hdrop : s.b.drop (v.length + 1) = t := by rw [hb]; simp
  have htake : s.b.take v.length = v := by rw [hb, take_left' rfl]
  have htake1 : s.b.take (v.length + 1) = v ++ [nChar] := by
    rw [hb, append_cons, take_left' (by simp)]
  have hlen : ¬s.b.length ≤ v.length := by rw [hb]; simp
  have hfold : foldLines s.b.length t = folds t := foldLines_eq_folds (by rw [hb]; simp; omega)
  simp [passValue, hs, hx, hdrop, hfold, he, hlen, htake, htake1]

theorem skip_eq (v t : Bytes) :
    (if ((gap v ++ nChar :: t).take 1 = [rChar]) then
      if ((gap v ++ nChar :: t).drop 1).take 1 = [nChar] then 2 else 1
    else if (gap v ++ nChar :: t).take 1 = [nChar] then 1 else 0) = (passed v).length := by
  obtain ⟨bs, cr, h, hbs, hcr⟩ := gap_cases v
  rcases bs with _ | ⟨c, bs⟩
  · rcases hcr with rfl | rfl <;> simp [passed, h]
  · have hc := hbs c (by simp)
    have h1 : c ≠ rChar := ne_of_isBlank hc isBlank_rChar
    have h2 : c ≠ nChar := ne_of_isBlank hc isBlank_nChar
    simp [passed, h, h1, h2]

def unfolded (raw : Bytes) : Bytes := (unfoldValue false false (trimValue raw)).1

def shrunk (raw : Bytes) : Nat := (unfoldValue false false (trimValue raw)).2

theorem shrunk_pos {raw : Bytes} (h : nChar ∈ raw) : 0 < shrunk raw :=
  unfoldValue_pos false false (lf_mem_trimValue h)

theorem unfolded_length (raw : Bytes) :
    (unfolded raw).length + shrunk raw + (gap raw).length = raw.length := by
  have h := unfoldValue_length false false (trimValue raw)
  have := congrArg List.length (trimValue_append_gap raw)
  rw [length_append] at this
  unfold unfolded shrunk
  omega

theorem normalizeHeaderValue_spec (raw t : Bytes) (n : Nat) (h : nChar ∈ raw) :
    let ob := raw ++ nChar :: t
    let u := normalizeHeaderValue (trimValue raw) ob n
    u.nv = unfolded raw ∧ u.ob.take u.start = unfolded raw ++ passed raw ∧
      (u.ob.take u.stop).drop u.start = leftover raw ++ t ∧
      u.ob.drop u.stop = ob.drop (ob.length - shrunk raw) ∧ u.nhl = n - shrunk raw := by
  intro ob u
  have hne : (trimValue raw).isEmpty = false := by
    rw [isEmpty_eq_false_iff]
    exact ne_nil_of_mem (lf_mem_trimValue h)
  have hmoved : ob.drop (trimValue raw).length = gap raw ++ nChar :: t := by
    have hsplit := trimValue_append_gap raw
    have : ob = trimValue raw ++ (gap raw ++ nChar :: t) := by rw [← append_assoc, hsplit]
    rw [this, drop_left' rfl]
  have hgap : gap raw ++ nChar :: t = passed raw ++ (leftover raw ++ t) := by
    rw [← append_assoc, passed_append_leftover]; simp
  have hu : u = ⟨unfolded raw, unfolded raw ++ (passed raw ++ (leftover raw ++ t)) ++
      ob.drop (ob.length - shrunk raw), (unfolded raw).length + (passed raw).length,
      ob.length - shrunk raw, n - shrunk raw⟩ := by
    simp only [u, normalizeHeaderValue, hne, hmoved, skip_eq]
    rw [hgap]
    rfl
  have hstop : (unfolded raw ++ (passed raw ++ (leftover raw ++ t))).length = ob.length - shrunk raw := by
    have := unfolded_length raw
    rw [← hgap]
    simp only [ob, length_append]
    omega
  rw [hu]
  refine ⟨rfl, ?_, ?_, drop_left' hstop, rfl⟩
  · have hassoc : unfolded raw ++ (passed raw ++ (leftover raw ++ t)) ++ ob.drop (ob.length - shrunk raw)
        = (unfolded raw ++ passed raw) ++ (leftover raw ++ t ++ ob.drop (ob.length - shrunk raw)) := by
      simp
    simp only [hassoc]
    rw [take_left' (by simp)]
  · rw [take_left' hstop, ← append_assoc, drop_left' (by simp)]

theorem passValue_folded {w : Bytes} (hs : s.nextNewLine = none)
    (hb : s.b = v ++ nChar :: (w ++ nChar :: t)) (hv : nChar ∉ v)
    (he : (folds (w ++ nChar :: t)).extra = w.length + 1) :
    s.passValue = (true, { s with
      value := unfolded (v ++ nChar :: w)
      pre := s.pre ++ (unfolded (v ++ nChar :: w) ++ passed (v ++ nChar :: w))
      b := leftover (v ++ nChar :: w) ++ t
      post := s.b.drop (s.b.length - shrunk (v ++ nChar :: w)) ++ s.post
      hLen := s.hLen + ((v ++ nChar :: w).length + 1) - shrunk (v ++ nChar :: w)
      nextColon := (folds (w ++ nChar :: t)).nextColon
      nextNewLine := (folds (w ++ nChar :: t)).nextNewLine }) := by
  have hx : indexByte s.b nChar = some v.length := by
    rw [hb, indexByte, idxOf?_append_cons _ _ _ hv]
  have hdrop : s.b.drop (v.length + 1) = w ++ nChar :: t := by rw [hb]; simp
  have hraw : s.b = (v ++ nChar :: w) ++ nChar :: t := by rw [hb]; simp
  have hn : v.length + (w.length + 1) = (v ++ nChar :: w).length := by simp
  have hlen : ¬s.b.length ≤ (v ++ nChar :: w).length := by rw [hraw]; simp
  have hfold : foldLines s.b.length (w ++ nChar :: t) = folds (w ++ nChar :: t) :=
    foldLines_eq_folds (by rw [hb]; simp; omega)
  obtain ⟨h1, h2, h3, h4, h5⟩ :=
    normalizeHeaderValue_spec (v ++ nChar :: w) t (s.hLen + ((v ++ nChar :: w).length + 1)) (by simp)
  rw [← hraw] at h1 h2 h3 h4 h5
  have htake : s.b.take (v ++ nChar :: w).length = v ++ nChar :: w := by rw [hraw, take_left' rfl]
  simp only [passValue, hs, hx, Option.none_or, hdrop, hfold, he, hn, hlen, if_false, htake,
    Nat.succ_ne_zero, h1, h2, h3, h4, h5]

theorem next_of_key {n : Nat} (hb : blankLen s.b = 0) (hk : s.keyEnd = .ok n) :
    s.next = (s.passKey n).passValue := by
  simp [next, hb, hk]

theorem blankLen_field (hf : IsField k bl v) (t : Bytes) :
    blankLen (k ++ colonChar :: (bl ++ (v ++ nChar :: t))) = 0 := by
  have h := blankLen_line (shape_line k bl v hf) t
  simpa using h

def passPlain (s : Scanner) (k bl v t : Bytes) : Scanner :=
  { s with
    key := initHeaderK k s.disableNormalizing
    value := trimValue v
    pre := s.pre ++ initHeaderK k s.disableNormalizing ++ colonChar :: bl ++ (v ++ [nChar])
    b := t
    hLen := s.hLen + (k.length + 1 + bl.length) + (v.length + 1)
    nextColon := (folds t).nextColon
    nextNewLine := (folds t).nextNewLine }

def passFolded (s : Scanner) (k bl raw t : Bytes) : Scanner :=
  { s with
    key := initHeaderK k s.disableNormalizing
    value := unfolded raw
    pre := s.pre ++ initHeaderK k s.disableNormalizing ++ colonChar :: bl ++ (unfolded raw ++ passed raw)
    b := leftover raw ++ t
    post := (raw ++ nChar :: t).drop ((raw ++ nChar :: t).length - shrunk raw) ++ s.post
    hLen := s.hLen + (k.length + 1 + bl.length) + (raw.length + 1) - shrunk raw
    nextColon := (folds t).nextColon
    nextNewLine := (folds t).nextNewLine }

inductive Next (s : Scanner) : Bool × Scanner → Prop
  | blank (k : Nat) : 0 < k → blankLen s.b = k →
      Next s (false, { s with pre := s.pre ++ s.b.take k, b := s.b.drop k, hLen := s.hLen + k })
  | noLine : nChar ∉ s.b → Next s (false, { s with nextColon := none, err := some .needMore })
  | noColon (l t : Bytes) : s.b = l ++ nChar :: t → IsLine l → colonChar ∉ s.b →
      Next s (false, { s with nextColon := none, err := some .needMore })
  | badName (l t : Bytes) : s.b = l ++ nChar :: t → IsLine l → colonChar ∉ l → colonChar ∈ t →
      Next s (false, { s with nextColon := none, err := some .invalidName })
  | plain (k bl v t : Bytes) : s.b = k ++ colonChar :: (bl ++ (v ++ nChar :: t)) → IsField k bl v →
      (folds t).extra = 0 → Next s (true, s.passPlain k bl v t)
  | folded (k bl v : Bytes) (ls : List Bytes) (w t : Bytes) :
      s.b = k ++ colonChar :: (bl ++ (v ++ nChar :: (unlines ls ++ t))) → IsField k bl v → ls ≠ [] →
      (∀ l ∈ ls, IsFolded l) → unlines ls = w ++ [nChar] → (folds t).extra = 0 →
      Next s (true, s.passFolded k bl (v ++ nChar :: w) t)

theorem next_plain (hs : s.Fresh)
    (hb : s.b = k ++ colonChar :: (bl ++ (v ++ nChar :: t))) (hf : IsField k bl v)
    (he : (folds t).extra = 0) : s.next = (true, s.passPlain k bl v t) := by
  rw [next_of_key (by rw [hb]; exact blankLen_field hf t) (keyEnd_field hs hb hf),
    passKey_field hs hb hf, passValue_plain rfl rfl hf.noLF he]
  rfl

theorem next_folded {w : Bytes} (hs : s.Fresh)
    (hb : s.b = k ++ colonChar :: (bl ++ (v ++ nChar :: (w ++ nChar :: t)))) (hf : IsField k bl v)
    (he : folds (w ++ nChar :: t) = { folds t with extra := w.length + 1 }) :
    s.next = (true, s.passFolded k bl (v ++ nChar :: w) t) := by
  rw [next_of_key (by rw [hb]; exact blankLen_field hf _) (keyEnd_field hs hb hf),
    passKey_field hs hb hf, passValue_folded rfl rfl hf.noLF (by rw [he])]
  simp [passFolded, he]

theorem next_spec (hs : s.Fresh) : Next s s.next := by
  have hshape := shape s.b
  generalize hb : s.b = b at hshape
  cases hshape with
  | crlf t =>
    have h := Next.blank (s := s) 2 (by omega) (by rw [hb]; simp)
    rw [next_crlf hb]
    simpa [hb, strCRLF] using h
  | lf t =>
    have h := Next.blank (s := s) 1 (by omega) (by rw [hb]; simp)
    simpa [next, hb] using h
  | noLine b h => rw [next_noLine hs (hb ▸ h)]; exact .noLine (hb ▸ h)
  | noColon l t hl hc => rw [next_noColon hs hb hl (hb ▸ hc)]; exact .noColon l t hb hl (hb ▸ hc)
  | badName l t hl hc ht => rw [next_badName hs hb hl hc ht]; exact .badName l t hb hl hc ht
  | field k bl v t hf =>
    obtain ⟨ls, t', rfl, hls, hlen, hfold⟩ := folds_spec t
    rcases ls with _ | ⟨l, ls⟩
    · have he : (folds (unlines [] ++ t')).extra = 0 := by rw [← hlen]; rfl
      rw [next_plain hs hb hf he]
      exact .plain k bl v _ hb hf he
    · obtain ⟨w, hw⟩ := unlines_snoc (cons_ne_nil l ls)
      have hwt : unlines (l :: ls) ++ t' = w ++ nChar :: t' := by rw [hw]; simp
      have he : folds (w ++ nChar :: t') = { folds t' with extra := w.length + 1 } := by
        rw [hwt] at hlen hfold
        rw [hfold]
        rw [hw] at hlen
        simp only [length_append, length_singleton] at hlen
        rw [hlen]
      rw [next_folded hs (by rw [hb, hwt]) hf he]
      exact .folded k bl v (l :: ls) w t' hb hf (by simp) hls hw (by rw [hfold])

theorem folds_extra_le (t : Bytes) : (folds t).extra ≤ t.length := by
  obtain ⟨ls, t', h, -, hw, -⟩ := folds_spec t
  rw [← hw, congrArg List.length h]; simp

theorem passKey_mem_length (s : Scanner) (n : Nat) : (s.passKey n).mem.length = s.mem.length := by
  have hkey : (initHeaderK (s.b.take n) s.disableNormalizing).length = min n s.b.length := by
    unfold initHeaderK; split <;> simp
  simp only [mem, passKey, length_append, length_take, length_drop]
  omega

theorem trimValue_length_le (v : Bytes) : (trimValue v).length ≤ v.length := by
  have := congrArg List.length (trimValue_append_gap v)
  rw [length_append] at this
  omega

theorem normalizeHeaderValue_length (ov ob : Bytes) (n : Nat) (h : ov.length ≤ ob.length) :
    let u := normalizeHeaderValue ov ob n
    u.ob.length = ob.length ∧ u.start ≤ u.stop ∧ u.stop ≤ ob.length := by
  have hsum := unfoldValue_length false false ov
  unfold normalizeHeaderValue
  split
  · simp
  · have hskip : (if (ob.drop ov.length).take 1 = [rChar] then
        if ((ob.drop ov.length).drop 1).take 1 = [nChar] then 2 else 1
        else if (ob.drop ov.length).take 1 = [nChar] then 1 else 0) ≤ ob.length - ov.length := by
      have hlen : (ob.drop ov.length).length = ob.length - ov.length := by simp
      rcases hm : ob.drop ov.length with _ | ⟨c, _ | ⟨d, m⟩⟩ <;> rw [hm] at hlen <;>
        simp only [length_cons, length_nil] at hlen <;> simp <;> (try split) <;>
        (try split) <;> omega
    refine ⟨?_, ?_, ?_⟩ <;> simp only [length_append, length_drop] <;> omega

theorem passValue_mem_length (s : Scanner) : s.passValue.2.mem.length = s.mem.length := by
  unfold passValue
  split
  · rfl
  · rename_i x hx
    simp only
    split
    · rfl
    · split
      · simp only [mem, length_append, length_take, length_drop]; omega
      · obtain ⟨h1, h2, h3⟩ := normalizeHeaderValue_length
          (trimValue (s.b.take (x + (foldLines s.b.length (s.b.drop (x + 1))).extra))) s.b
          (s.hLen + (x + (foldLines s.b.length (s.b.drop (x + 1))).extra + 1))
          ((trimValue_length_le _).trans (by simp only [length_take]; omega))
        simp only [mem, length_append, length_take, length_drop]
        omega

theorem next_mem_length (s : Scanner) : s.next.2.mem.length = s.mem.length := by
  unfold next
  rcases Nat.eq_zero_or_pos (blankLen s.b) with hk | hk
  · simp only [hk, Nat.lt_irrefl, if_false]
    split
    · rfl
    · rw [passValue_mem_length, passKey_mem_length]
  · simp only [hk, if_true, mem, length_append, length_take, length_drop]; omega

theorem passValue_b_length (s : Scanner) (h : s.passValue.1 = true) :
    s.passValue.2.b.length ≤ s.b.length ∧ s.b ≠ [] := by
  revert h
  unfold passValue
  split
  · simp
  · rename_i x hx
    simp only
    split
    · simp
    · rename_i hlen
      have hne : s.b ≠ [] := by rintro h; simp [h] at hlen
      split
      · simp [hne]
      · intro _
        obtain ⟨h1, h2, h3⟩ := normalizeHeaderValue_length
          (trimValue (s.b.take (x + (foldLines s.b.length (s.b.drop (x + 1))).extra))) s.b
          (s.hLen + (x + (foldLines s.b.length (s.b.drop (x + 1))).extra + 1))
          ((trimValue_length_le _).trans (by simp only [length_take]; omega))
        refine ⟨?_, hne⟩
        simp only [length_take, length_drop]
        omega

theorem next_shorter (h : s.next = (true, s')) : s'.b.length < s.b.length := by
  unfold next at h
  rcases Nat.eq_zero_or_pos (blankLen s.b) with hk | hk
  swap
  · simp [hk] at h
  · simp only [hk, Nat.lt_irrefl, if_false] at h
    split at h
    · simp at h
    · rename_i n hn
      have h1 : (s.passKey n).passValue.1 = true := by rw [h]
      obtain ⟨hle, hne⟩ := passValue_b_length (s.passKey n) h1
      rw [h] at hle
      have hlt : (s.passKey n).b.length < s.b.length := by
        have hpos : 0 < (s.passKey n).b.length := length_pos_iff.mpr hne
        simp only [passKey, length_drop] at hpos ⊢
        omega
      simp only at hle
      omega

variable {σ : Type}

theorem scan_fuel (body : σ → Bytes → Bytes → σ × Option Err) (n m : Nat) (s : Scanner) (h : σ)
    (hn : s.b.length < n) (hm : s.b.length < m) : scan body n s h = scan body m s h := by
  induction n generalizing m s h with
  | zero => omega
  | succ n ih =>
    obtain ⟨m, rfl⟩ : ∃ k, m = k + 1 := ⟨m - 1, by omega⟩
    rcases hnext : s.next with ⟨_ | _, s'⟩
    · simp [scan, hnext]
    · have hlt := next_shorter hnext
      simp only [scan, hnext]
      rcases body h s'.key s'.value with ⟨h', _ | e⟩
      · exact ih m s' h' (by omega) (by omega)
      · rfl

variable {body : σ → Bytes → Bytes → σ × Option Err}

theorem scanAll_field {h h' : σ}
    (hnext : s.next = (true, s')) (hbody : body h s'.key s'.value = (h', none)) :
    scanAll body s h = scanAll body s' h' := by
  have hlt := next_shorter hnext
  rw [scanAll, scan]
  simp only [hnext, hbody]
  exact scan_fuel body _ _ s' h' (by omega) (by omega)

theorem scanAll_reject {h h' : σ} {e : Err}
    (hnext : s.next = (true, s')) (hbody : body h s'.key s'.value = (h', some e)) :
    scanAll body s h = (h', s', some e) := by
  simp [scanAll, scan, hnext, hbody]

theorem scanAll_stop (h : σ)
    (hnext : s.next = (false, s')) : scanAll body s h = (h, s', s'.err) := by
  simp [scanAll, scan, hnext]

theorem scanAll_mem_length (body : σ → Bytes → Bytes → σ × Option Err) (s : Scanner) (h : σ) :
    (scanAll body s h).2.1.mem.length = s.mem.length := by
  induction hn : s.b.length using Nat.strong_induction_on generalizing s h with
  | _ n ih =>
    have hmem := next_mem_length s
    rcases hnext : s.next with ⟨_ | _, s'⟩ <;> rw [hnext] at hmem
    · rw [scanAll_stop h hnext]; exact hmem
    · rcases hbody : body h s'.key s'.value with ⟨h', _ | e⟩
      · rw [scanAll_field hnext hbody, ih _ (hn ▸ next_shorter hnext) s' h' rfl]; exact hmem
      · rw [scanAll_reject hnext hbody]; exact hmem

theorem scanAll_keeps {p : σ → Prop}
    (hp : ∀ h k v, p h → p (body h k v).1) (s : Scanner) (h : σ) (hh : p h) :
    p (scanAll body s h).1 := by
  induction hn : s.b.length using Nat.strong_induction_on generalizing s h with
  | _ n ih =>
    rcases hnext : s.next with ⟨_ | _, s'⟩
    · rw [scanAll_stop h hnext]; exact hh
    · have hb := hp h s'.key s'.value hh
      rcases hbody : body h s'.key s'.value with ⟨h', _ | e⟩ <;> rw [hbody] at hb
      · rw [scanAll_field hnext hbody]
        exact ih _ (hn ▸ next_shorter hnext) s' h' hb rfl
      · rw [scanAll_reject hnext hbody]; exact hb

end Scanner

end Fasthttp
