import Fasthttp.Header.Step
import Fasthttp.Header.Request

/-!
# The header block

The block ends with its first blank line (`blockEnd`).
-/

namespace Fasthttp

open FirstIndex List

variable {b : Bytes} {k : Nat}

/-! ## The end of the block -/

def blockEnd (b : Bytes) : Option Nat := blankLineEnd (b.length + 1) b

theorem readRawHeaders_length (b : Bytes) : (readRawHeaders b).2 = blockEnd b := by
  unfold readRawHeaders blockEnd
  cases blankLineEnd (b.length + 1) b <;> rfl

theorem blankLineEnd_fuel (n m : Nat) (b : Bytes) (hn : b.length < n) (hm : b.length < m) :
    blankLineEnd n b = blankLineEnd m b := by
  induction n generalizing m b with
  | zero => omega
  | succ n ih =>
    obtain ⟨m, rfl⟩ : ∃ k, m = k + 1 := ⟨m - 1, by omega⟩
    rcases hx : indexByte b nChar with _ | x
    · simp [blankLineEnd, hx]
    · have hlt := idxOf?_lt hx
      have := ih m (b.drop (x + 1)) (by simp; omega) (by simp; omega)
      simp [blankLineEnd, hx, this]

@[simp] theorem blockEnd_crlf (t : Bytes) : blockEnd (rChar :: nChar :: t) = some 2 := by
  have h := idxOf?_append_cons nChar [rChar] t (by simp)
  simp only [cons_append, nil_append] at h
  simp [blockEnd, blankLineEnd, indexByte, h]

@[simp] theorem blockEnd_lf (t : Bytes) : blockEnd (nChar :: t) = some 1 := by
  simp [blockEnd, blankLineEnd, indexByte, idxOf?_cons]

theorem blockEnd_noLine (h : nChar ∉ b) : blockEnd b = none := by
  simp [blockEnd, blankLineEnd, indexByte, List.idxOf?_eq_none_iff.mpr h]

theorem blockEnd_line {l : Bytes} (h : IsLine l) (t : Bytes) :
    blockEnd (l ++ nChar :: t) = (blockEnd t).map (l.length + 1 + ·) := by
  have hx : indexByte (l ++ nChar :: t) nChar = some l.length := by
    rw [indexByte, idxOf?_append_cons _ _ _ h.noLF]
  have hdrop : (l ++ nChar :: t).drop (l.length + 1) = t := by simp
  have hblank : ¬((l.length = 1 && (l ++ nChar :: t).take 1 = [rChar]) || l.length = 0) = true := by
    rcases l with _ | ⟨c, _ | ⟨d, l⟩⟩
    · exact absurd rfl h.ne_nil
    · have : c ≠ rChar := fun hc => h.ne_cr (by rw [hc])
      simp [this]
    · simp
  have hfuel := blankLineEnd_fuel (l ++ nChar :: t).length (t.length + 1) t (by simp; omega) (by omega)
  rw [blockEnd, blankLineEnd, hx]
  simp only [hblank, hdrop, hfuel]
  rfl

theorem blockEnd_unlines {ls : List Bytes} (h : ∀ l ∈ ls, IsFolded l) (t : Bytes) :
    blockEnd (unlines ls ++ t) = (blockEnd t).map ((unlines ls).length + ·) := by
  induction ls with
  | nil => simp
  | cons l ls ih =>
    have hl := (h l (by simp)).isLine
    rw [unlines_cons, append_assoc, cons_append, blockEnd_line hl,
      ih fun x hx => h x (by simp [hx]), Option.map_map]
    congr 1
    funext n
    simp
    omega

theorem blockEnd_field {k bl v : Bytes} (h : IsField k bl v) (t : Bytes) :
    blockEnd (k ++ colonChar :: (bl ++ (v ++ nChar :: t)))
      = (blockEnd t).map (k.length + 1 + bl.length + (v.length + 1) + ·) := by
  have hcut : k ++ colonChar :: (bl ++ (v ++ nChar :: t)) = (k ++ colonChar :: (bl ++ v)) ++ nChar :: t := by
    simp
  rw [hcut, blockEnd_line (shape_line k bl v h)]
  congr 1
  funext n
  simp
  omega

theorem blockEnd_blank (h : Scanner.blankLen b = k) (hk : 0 < k) :
    blockEnd b = some k := by
  subst h
  obtain ⟨t, rfl | rfl⟩ := Scanner.blank_cases hk <;> simp

/-! ## Folded lines in a block -/

def noFold : Nat → Bytes → Bool
  | 0, _ => true
  | fuel + 1, b =>
    !(b.take 1).any isBlank &&
      match indexByte b nChar with
      | none => true
      | some n => (n = 1 && b.take 1 = [rChar]) || n = 0 || noFold fuel (b.drop (n + 1))

def NoFold (b : Bytes) : Prop := noFold (b.length + 1) b = true

instance (b : Bytes) : Decidable (NoFold b) := inferInstanceAs (Decidable (_ = true))

theorem startsBlank_iff (b : Bytes) : StartsBlank b ↔ (b.take 1).any isBlank = true := by
  cases b <;> simp [StartsBlank]

theorem noFold_fuel (n m : Nat) (b : Bytes) (hn : b.length < n) (hm : b.length < m) :
    noFold n b = noFold m b := by
  induction n generalizing m b with
  | zero => omega
  | succ n ih =>
    obtain ⟨m, rfl⟩ : ∃ k, m = k + 1 := ⟨m - 1, by omega⟩
    rcases hx : indexByte b nChar with _ | x
    · simp [noFold, hx]
    · have hlt := idxOf?_lt hx
      have := ih m (b.drop (x + 1)) (by simp; omega) (by simp; omega)
      simp [noFold, hx, this]

theorem noFold_crlf (t : Bytes) : NoFold (rChar :: nChar :: t) := by
  have h := idxOf?_append_cons nChar [rChar] t (by simp)
  simp only [cons_append, nil_append] at h
  simp [NoFold, noFold, indexByte, h]

theorem noFold_lf (t : Bytes) : NoFold (nChar :: t) := by
  simp [NoFold, noFold, indexByte, idxOf?_cons]

theorem noFold_noLine (h : nChar ∉ b) : NoFold b ↔ ¬StartsBlank b := by
  simp [NoFold, noFold, indexByte, List.idxOf?_eq_none_iff.mpr h, startsBlank_iff]

theorem noFold_line {l : Bytes} (h : IsLine l) (t : Bytes) :
    NoFold (l ++ nChar :: t) ↔ ¬StartsBlank l ∧ NoFold t := by
  have hx : indexByte (l ++ nChar :: t) nChar = some l.length := by
    rw [indexByte, idxOf?_append_cons _ _ _ h.noLF]
  have hdrop : (l ++ nChar :: t).drop (l.length + 1) = t := by simp
  have hfuel := noFold_fuel (l ++ nChar :: t).length (t.length + 1) t (by simp; omega) (by omega)
  have htake : (l ++ nChar :: t).take 1 = l.take 1 := by
    rcases l with _ | ⟨c, l⟩
    · exact absurd rfl h.ne_nil
    · simp
  have hblank : ((l.length = 1 && l.take 1 = [rChar]) || l.length = 0) = false := by
    rcases l with _ | ⟨c, _ | ⟨d, l⟩⟩
    · exact absurd rfl h.ne_nil
    · have : c ≠ rChar := fun hc => h.ne_cr (by rw [hc])
      simp [this]
    · simp
  rw [NoFold, noFold, hx, startsBlank_iff, htake]
  simp only [hdrop, hfuel, hblank, Bool.and_eq_true, Bool.not_eq_true',
    Bool.not_eq_true]
  rfl

theorem noFold_field {k bl v : Bytes} (h : IsField k bl v) (t : Bytes) :
    NoFold (k ++ colonChar :: (bl ++ (v ++ nChar :: t))) ↔ ¬StartsBlank k ∧ NoFold t := by
  have hcut : k ++ colonChar :: (bl ++ (v ++ nChar :: t)) = (k ++ colonChar :: (bl ++ v)) ++ nChar :: t := by
    simp
  have hstart : StartsBlank (k ++ colonChar :: (bl ++ v)) ↔ StartsBlank k :=
    ⟨startsBlank_left isBlank_colonChar, fun hk => startsBlank_append hk _⟩
  rw [hcut, noFold_line (shape_line k bl v h), hstart]

theorem noFold_not_startsBlank (h : NoFold b) : ¬StartsBlank b := by
  rw [startsBlank_iff]
  simp only [NoFold, noFold, Bool.and_eq_true, Bool.not_eq_true'] at h
  simp [h.1]

theorem noFold_blank (h : Scanner.blankLen b = k) (hk : 0 < k) : NoFold b := by
  obtain ⟨t, rfl | rfl⟩ := Scanner.blank_cases (h ▸ hk)
  · exact noFold_crlf t
  · exact noFold_lf t

/-! ## Blocks with bytes behind them -/

@[elab_as_elim] theorem line_induction {motive : Bytes → Prop} (b : Bytes) (noLine : ∀ b, nChar ∉ b → motive b)
    (crlf : ∀ t, motive (rChar :: nChar :: t)) (lf : ∀ t, motive (nChar :: t))
    (line : ∀ l t, IsLine l → motive t → motive (l ++ nChar :: t)) : motive b := by
  induction hn : b.length using Nat.strong_induction_on generalizing b with
  | _ n ih =>
    by_cases hmem : nChar ∈ b
    swap
    · exact noLine b hmem
    obtain ⟨l, t, rfl, hl⟩ := eq_append_cons_of_mem hmem
    by_cases h0 : l = []
    · simpa [h0] using lf t
    by_cases h1 : l = [rChar]
    · simpa [h1] using crlf t
    · exact line l t ⟨hl, h0, h1⟩ (ih t.length (by simp at hn; omega) t rfl)

/-- A block that ends: its first line is blank, or the rest is such a block. -/
@[elab_as_elim] theorem block_induction {motive : (b : Bytes) → (k : Nat) → blockEnd b = some k → Prop}
    (crlf : ∀ t, motive (rChar :: nChar :: t) 2 (blockEnd_crlf t)) (lf : ∀ t, motive (nChar :: t) 1 (blockEnd_lf t))
    (line : ∀ l t j (hl : IsLine l) (hj : blockEnd t = some j), motive t j hj →
      motive (l ++ nChar :: t) (l.length + 1 + j) (by rw [blockEnd_line hl, hj]; rfl))
    (h : blockEnd b = some k) : motive b k h := by
  induction b using line_induction generalizing k with
  | noLine b hb => simp [blockEnd_noLine hb] at h
  | crlf t =>
    obtain rfl := Option.some.inj ((blockEnd_crlf t).symm.trans h)
    exact crlf t
  | lf t =>
    obtain rfl := Option.some.inj ((blockEnd_lf t).symm.trans h)
    exact lf t
  | line l t hl ih =>
    obtain ⟨j, hj, rfl⟩ := Option.map_eq_some_iff.mp ((blockEnd_line hl t).symm.trans h)
    exact line l t j hl hj (ih hj)

theorem blockEnd_append (h : blockEnd b = some k) (y : Bytes) :
    blockEnd (b ++ y) = some k := by
  induction h using block_induction with
  | crlf t => simp
  | lf t => simp
  | line l t j hl _ ih =>
    rw [append_assoc, cons_append, blockEnd_line hl, ih]
    rfl

theorem blockEnd_le (h : blockEnd b = some k) : k ≤ b.length := by
  induction h using block_induction with
  | crlf t => simp
  | lf t => simp
  | line l t j hl _ ih =>
    simp only [length_append, length_cons]
    omega

theorem noFold_append (h : blockEnd b = some k) (y : Bytes) :
    NoFold (b ++ y) ↔ NoFold b := by
  induction h using block_induction with
  | crlf t => exact iff_of_true (noFold_crlf _) (noFold_crlf _)
  | lf t => exact iff_of_true (noFold_lf _) (noFold_lf _)
  | line l t j hl _ ih => rw [append_assoc, cons_append, noFold_line hl, noFold_line hl, ih]

/-! ## A remembered colon -/

namespace Scanner

variable {k t : Bytes} {s : Scanner}

structure Remembered (s : Scanner) : Prop where
  start : StartsBlank s.b
  line : ∃ pad k m r, s.b = pad ++ (k ++ colonChar :: (m ++ nChar :: r)) ∧ k ≠ [] ∧
    s.nextColon = some k.length ∧ s.nextNewLine = some m.length

theorem passValue_key (s : Scanner) : s.passValue.2.key = s.key := by
  unfold passValue
  split
  · rfl
  · simp only
    split
    · rfl
    · split <;> rfl

theorem passValue_true {x : Nat} (hx : s.nextNewLine.or (indexByte s.b nChar) = some x)
    (hlt : x < s.b.length) : s.passValue.1 = true := by
  have hextra : (foldLines s.b.length (s.b.drop (x + 1))).extra ≤ s.b.length - (x + 1) := by
    rw [foldLines_eq_folds (by simp)]
    exact (folds_extra_le _).trans (by simp)
  have hlen : ¬s.b.length ≤ x + (foldLines s.b.length (s.b.drop (x + 1))).extra := by omega
  simp only [passValue, hx, hlen, if_false]
  split <;> rfl

theorem takeWhile_length_le {p : Byte → Bool} {u r : Bytes} {c : Byte} (hc : p c = false) :
    ((u ++ c :: r).takeWhile p).length ≤ u.length := by
  induction u with
  | nil => simp [hc]
  | cons d u ih =>
    simp only [cons_append, takeWhile_cons]
    split
    · simpa using ih
    · simp

theorem initHeaderK_startsBlank (h : StartsBlank k) (d : Bool) :
    StartsBlank (initHeaderK k d) := by
  obtain ⟨c, t, rfl, hc⟩ := startsBlank_cons h
  unfold initHeaderK
  split
  · exact ⟨c, by simp, hc⟩
  · have hup : ∀ c, isBlank c = true → toUpperTable c = c := forall_byte (by decide +kernel)
    exact ⟨c, by simp [normalizeHeaderKeyV2, hup c hc], hc⟩

theorem blankLen_startsBlank {b : Bytes} (h : StartsBlank b) : blankLen b = 0 := by
  obtain ⟨c, t, rfl, hc⟩ := startsBlank_cons h
  have h1 : c ≠ rChar := ne_of_isBlank hc isBlank_rChar
  have h2 : c ≠ nChar := ne_of_isBlank hc isBlank_nChar
  simp [blankLen, strCRLF, h1, h2]

theorem next_remembered (h : s.Remembered) :
    ∃ s' n, s.next = (true, s') ∧ StartsBlank s'.key ∧ s.nextColon = some n ∧ n ≤ s.b.length ∧
      s'.key = initHeaderK (s.b.take n) s.disableNormalizing := by
  obtain ⟨hstart, pad, k, m, r, hb, hk, hcol, hnl⟩ := h
  have hkey : s.keyEnd = .ok k.length := by simp [keyEnd, hcol]
  have hnext := next_of_key (blankLen_startsBlank hstart) hkey
  have hk0 : 0 < k.length := length_pos_iff.mpr hk
  have hlen : s.b.length = pad.length + k.length + 1 + m.length + 1 + r.length := by
    rw [hb]; simp; omega
  refine ⟨(s.passKey k.length).passValue.2, k.length, ?_, ?_, hcol, by omega, by rw [passValue_key]; rfl⟩
  · rw [hnext]
    refine Prod.ext ?_ rfl
    -- the blanks behind the cut end before the line feed
    have hcut : s.b.drop (k.length + 1) = ((pad ++ (k ++ colonChar :: m)).drop (k.length + 1)) ++ nChar :: r := by
      have : s.b = (pad ++ (k ++ colonChar :: m)) ++ nChar :: r := by rw [hb]; simp
      rw [this, drop_append_of_le_length (by simp; omega)]
    have hskip : ((s.b.drop (k.length + 1)).takeWhile isBlank).length ≤ pad.length + m.length := by
      rw [hcut]
      refine (takeWhile_length_le isBlank_nChar).trans ?_
      simp; omega
    by_cases hm : m.length < ((s.b.drop (k.length + 1)).takeWhile isBlank).length
    · have hmem : nChar ∈ (s.passKey k.length).b := by
        simp only [passKey]
        rw [← drop_drop, hcut, drop_append_of_le_length (by
          rw [← hcut]; simp at hskip ⊢; omega)]
        simp
      obtain ⟨x, hx⟩ := Option.isSome_iff_exists.mp (isSome_idxOf?.mpr hmem)
      refine passValue_true (x := x) ?_ (idxOf?_lt hx)
      simp only [passKey, hnl, Option.bind_some, hm]
      exact hx
    · refine passValue_true (x := m.length - ((s.b.drop (k.length + 1)).takeWhile isBlank).length) ?_ ?_
      · simp [passKey, hnl, hm]
      · simp only [passKey, length_drop]; omega
  · rw [passValue_key]
    refine initHeaderK_startsBlank ?_ _
    obtain ⟨c, t, hct, hc⟩ := startsBlank_cons hstart
    obtain ⟨j, hj⟩ : ∃ j, k.length = j + 1 := ⟨k.length - 1, by omega⟩
    exact ⟨c, by simp [hct, hj], hc⟩

theorem remembered_or_fresh (pad : Bytes) (hb : s.b = pad ++ t)
    (hpad : pad = [] ∨ StartsBlank pad) (he : (folds t).extra = 0)
    (hc : s.nextColon = (folds t).nextColon) (hn : s.nextNewLine = (folds t).nextNewLine) :
    s.Fresh ∨ s.Remembered := by
  obtain ⟨-, hf⟩ | ⟨k, m, r, rfl, hkb, -, -, hf⟩ | ⟨l, r, -, -, -, -, hf⟩ := folds_cases t
  · rw [hf] at hc hn
    exact .inl ⟨hc, hn⟩
  · rw [hf] at hc hn
    refine .inr ⟨?_, pad, k, m, r, hb, ?_, hc, hn⟩
    · rw [hb]
      rcases hpad with rfl | hpad
      · exact startsBlank_append hkb _
      · exact startsBlank_append hpad _
    · rintro rfl
      obtain ⟨c, t, h, -⟩ := startsBlank_cons hkb
      simp at h
  · simp [hf] at he

theorem leftover_blank (raw : Bytes) : leftover raw = [] ∨ StartsBlank (leftover raw) := by
  rcases leftover_cases raw with h | ⟨l, h, -, hb, -⟩
  · exact .inl h
  · exact .inr (h ▸ startsBlank_append hb _)

theorem passPlain_state {bl v : Bytes} (he : (folds t).extra = 0) :
    (s.passPlain k bl v t).Fresh ∨ (s.passPlain k bl v t).Remembered :=
  remembered_or_fresh [] rfl (.inl rfl) he rfl rfl

theorem passFolded_state {bl raw : Bytes} (he : (folds t).extra = 0) :
    (s.passFolded k bl raw t).Fresh ∨ (s.passFolded k bl raw t).Remembered :=
  remembered_or_fresh (leftover raw) rfl (leftover_blank raw) he rfl rfl

end Scanner

end Fasthttp
