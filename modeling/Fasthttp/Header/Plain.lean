import Fasthttp.Header.Run

/-!
# Blocks without folded lines

Such a block is a list of field lines with something behind it that ends the scan.
-/

namespace Fasthttp

open Scanner FirstIndex List

variable {b l : Bytes}

/-- A field line that cannot be taken for a part of the value in front of it. -/
@[ext] structure Line where
  k : Bytes
  bl : Bytes
  v : Bytes
  field : IsField k bl v
  start : ¬StartsBlank k

namespace Line

def text (l : Line) : Bytes := l.k ++ colonChar :: (l.bl ++ (l.v ++ [nChar]))

def entry (disableNormalizing : Bool) (l : Line) : Bytes × Bytes :=
  (initHeaderK l.k disableNormalizing, trimValue l.v)

def cased (disableNormalizing : Bool) (l : Line) : Line where
  k := initHeaderK l.k disableNormalizing
  bl := l.bl
  v := l.v
  field := isField_initHeaderK l.field disableNormalizing
  start := by rw [startsBlank_initHeaderK]; exact l.start

theorem entry_cased (d : Bool) (l : Line) : (l.cased d).entry d = l.entry d := by
  unfold entry cased initHeaderK
  split <;> simp [normalizeHeaderKeyV2_idem]

theorem text_cased_length (d : Bool) (l : Line) : (l.cased d).text.length = l.text.length := by
  simp [text, cased, initHeaderK_length]

theorem text_append (l : Line) (t : Bytes) :
    l.text ++ t = l.k ++ colonChar :: (l.bl ++ (l.v ++ nChar :: t)) := by
  simp [text]

theorem not_startsBlank_text (l : Line) (t : Bytes) : ¬StartsBlank (l.text ++ t) := by
  rw [text_append]
  exact fun h => l.start (startsBlank_left isBlank_colonChar h)

end Line

def text (ls : List Line) : Bytes := ls.flatMap Line.text

@[simp] theorem text_nil : text [] = [] := rfl
@[simp] theorem text_cons (l : Line) (ls : List Line) : text (l :: ls) = l.text ++ text ls := rfl
@[simp] theorem text_append (ls ls' : List Line) : text (ls ++ ls') = text ls ++ text ls' :=
  flatMap_append

theorem text_cased_length (d : Bool) (ls : List Line) :
    (text (ls.map (Line.cased d))).length = (text ls).length := by
  induction ls with
  | nil => rfl
  | cons l ls ih => simp [l.text_cased_length, ih]

def Line.parse (l : Bytes) : Option Line :=
  match hc : indexByte l colonChar with
  | none => none
  | some c =>
    if h : nChar ∈ l ∨ (l.take 1).any isBlank = true then none
    else some
      { k := l.take c
        bl := (l.drop (c + 1)).takeWhile isBlank
        v := (l.drop (c + 1)).dropWhile isBlank
        field :=
          { noColon := by
              obtain ⟨u, w, rfl, hu, rfl⟩ := idxOf?_cut hc
              rw [take_left' rfl]
              exact hu
            keyNoLF := fun hm => h (.inl (mem_of_mem_take hm))
            blanks := fun _ => mem_takeWhile_imp
            noLF := fun hm => h (.inl (mem_of_mem_drop (dropWhile_subset _ hm)))
            head := by
              intro x hx
              have := head?_dropWhile_not isBlank (l.drop (c + 1))
              rw [Option.mem_def.mp hx] at this
              simpa using this }
        start := by
          rintro ⟨x, hx, hb⟩
          refine h (.inr ((startsBlank_iff l).mp ⟨x, ?_, hb⟩))
          rcases l with _ | ⟨y, l⟩
          · simp at hx
          · rcases c with _ | c
            · simp at hx
            · simpa using hx }

theorem Line.parse_some {x : Line} (h : Line.parse l = some x) : x.text = l ++ [nChar] := by
  unfold Line.parse at h
  split at h
  · simp at h
  · rename_i c hc
    split at h
    · simp at h
    · obtain ⟨u, w, rfl, hu, rfl⟩ := idxOf?_cut hc
      rw [Option.some.injEq] at h
      have hdrop : (u ++ colonChar :: w).drop (u.length + 1) = w := by simp
      rw [← h]
      simp only [Line.text, hdrop]
      rw [← append_assoc (w.takeWhile isBlank)]
      simp

theorem Line.parse_none (h : Line.parse l = none) (hn : nChar ∉ l) (hb : ¬StartsBlank l) :
    colonChar ∉ l := by
  unfold Line.parse at h
  split at h
  · rename_i hc
    exact List.idxOf?_eq_none_iff.mp hc
  · split at h
    · rename_i hor
      rcases hor with hm | hm
      · exact absurd hm hn
      · exact absurd ((startsBlank_iff l).mpr hm) hb
    · simp at h

theorem Line.parse_body (x : Line) : Line.parse (x.k ++ colonChar :: (x.bl ++ x.v)) = some x := by
  have hx := idxOf?_append_cons colonChar x.k (x.bl ++ x.v) x.field.noColon
  have hline := shape_line _ _ _ x.field
  have hstart : ¬StartsBlank (x.k ++ colonChar :: (x.bl ++ x.v)) :=
    fun h => x.start (startsBlank_left isBlank_colonChar h)
  have hdrop : (x.k ++ colonChar :: (x.bl ++ x.v)).drop (x.k.length + 1) = x.bl ++ x.v := by
    simp
  have hv : x.v.takeWhile isBlank = [] ∧ x.v.dropWhile isBlank = x.v := by
    rcases hv : x.v with _ | ⟨c, t⟩
    · simp
    · have := x.field.head c (by simp [hv])
      simp [this]
  unfold Line.parse
  split
  · rename_i hc
    simp [indexByte] at hc
  · rename_i c hc
    simp only [indexByte, hx, Option.some.injEq] at hc
    subst hc
    rw [dif_neg (by
      rintro (hm | hm)
      · exact hline.noLF hm
      · exact hstart ((startsBlank_iff _).mpr hm))]
    rw [Option.some.injEq]
    refine Line.ext ?_ ?_ ?_
    · exact take_left' rfl
    · simp only [hdrop]
      rw [takeWhile_append_of_pos x.field.blanks, hv.1, append_nil]
    · simp only [hdrop]
      rw [dropWhile_append_of_pos x.field.blanks, hv.2]

def fieldLines : Nat → Bytes → List Line × Bytes
  | 0, b => ([], b)
  | fuel + 1, b =>
    match indexByte b nChar with
    | none => ([], b)
    | some n =>
      match Line.parse (b.take n) with
      | none => ([], b)
      | some l =>
        let r := fieldLines fuel (b.drop (n + 1))
        (l :: r.1, r.2)

theorem fieldLines_fuel (n m : Nat) (b : Bytes) (hn : b.length ≤ n) (hm : b.length ≤ m) :
    fieldLines n b = fieldLines m b := by
  induction n generalizing m b with
  | zero =>
    have : b = [] := length_eq_zero_iff.mp (by omega)
    subst this
    cases m <;> rfl
  | succ n ih =>
    rcases m with _ | m
    · have : b = [] := length_eq_zero_iff.mp (by omega)
      subst this
      rfl
    rcases hx : indexByte b nChar with _ | x
    · simp [fieldLines, hx]
    · have := ih m (b.drop (x + 1)) (by simp; omega) (by simp; omega)
      simp [fieldLines, hx, this]

def lines (b : Bytes) : List Line := (fieldLines b.length b).1

def behind (b : Bytes) : Bytes := (fieldLines b.length b).2

theorem fieldLines_line (l : Line) (z : Bytes) :
    fieldLines (l.text ++ z).length (l.text ++ z) = (l :: lines z, behind z) := by
  have hline := shape_line _ _ _ l.field
  have hb : l.text ++ z = (l.k ++ colonChar :: (l.bl ++ l.v)) ++ nChar :: z := by simp [Line.text]
  have hx : indexByte (l.text ++ z) nChar = some (l.k ++ colonChar :: (l.bl ++ l.v)).length := by
    rw [hb, indexByte, idxOf?_append_cons _ _ _ hline.noLF]
  have htake : (l.text ++ z).take (l.k ++ colonChar :: (l.bl ++ l.v)).length
      = l.k ++ colonChar :: (l.bl ++ l.v) := by rw [hb, take_left' rfl]
  have hdrop : (l.text ++ z).drop ((l.k ++ colonChar :: (l.bl ++ l.v)).length + 1) = z := by
    rw [hb, drop_append]; simp
  obtain ⟨n, hn⟩ : ∃ n, (l.text ++ z).length = n + 1 := ⟨(l.text ++ z).length - 1, by simp [Line.text]; omega⟩
  have hfuel := fieldLines_fuel n z.length z (by simp [Line.text] at hn; omega) le_rfl
  rw [hn, fieldLines]
  simp only [hx, htake, l.parse_body, hdrop, hfuel]
  rfl

theorem lines_text (ls : List Line) (z : Bytes) : lines (text ls ++ z) = ls ++ lines z := by
  induction ls with
  | nil => rfl
  | cons l ls ih => rw [text_cons, append_assoc, lines, fieldLines_line, ih]; rfl

theorem behind_text (ls : List Line) (z : Bytes) : behind (text ls ++ z) = behind z := by
  induction ls with
  | nil => rfl
  | cons l ls ih => rw [text_cons, append_assoc, behind, fieldLines_line, ih]

theorem lines_stop {u : Bytes} (hu : nChar ∉ u) (hl : Line.parse u = none) (w : Bytes) :
    lines (u ++ nChar :: w) = [] ∧ behind (u ++ nChar :: w) = u ++ nChar :: w := by
  have hx : indexByte (u ++ nChar :: w) nChar = some u.length := by
    rw [indexByte, idxOf?_append_cons _ _ _ hu]
  obtain ⟨n, hn⟩ : ∃ n, (u ++ nChar :: w).length = n + 1 := ⟨u.length + w.length, by simp; omega⟩
  have : fieldLines (u ++ nChar :: w).length (u ++ nChar :: w) = ([], u ++ nChar :: w) := by
    rw [hn, fieldLines]
    simp [hx, hl]
  simp only [lines, behind, this, and_self]

theorem lines_noLine (h : nChar ∉ b) : lines b = [] ∧ behind b = b := by
  have hx : indexByte b nChar = none := List.idxOf?_eq_none_iff.mpr h
  unfold lines behind
  cases b <;> simp [fieldLines, hx]

theorem lines_parse {u w : Bytes} {l : Line} (hl : Line.parse u = some l) :
    lines (u ++ nChar :: w) = l :: lines w ∧ behind (u ++ nChar :: w) = behind w := by
  have hb : u ++ nChar :: w = l.text ++ w := by rw [Line.parse_some hl]; simp
  rw [hb, lines, behind, fieldLines_line]
  exact ⟨rfl, rfl⟩

theorem text_lines (b : Bytes) : text (lines b) ++ behind b = b := by
  induction hn : b.length using Nat.strong_induction_on generalizing b with
  | _ n ih =>
    subst hn
    by_cases hm : nChar ∈ b
    swap
    · rw [(lines_noLine hm).1, (lines_noLine hm).2, text_nil, nil_append]
    obtain ⟨u, w, rfl, hu⟩ := eq_append_cons_of_mem hm
    rcases hl : Line.parse u with _ | l
    · rw [(lines_stop hu hl w).1, (lines_stop hu hl w).2, text_nil, nil_append]
    · rw [(lines_parse hl).1, (lines_parse hl).2, text_cons, append_assoc,
        ih w.length (by simp; omega) w rfl, Line.parse_some hl]
      simp

inductive Final : Bytes → Prop
  | blank (b : Bytes) : 0 < blankLen b → Final b
  | noLine (b : Bytes) : nChar ∉ b → ¬StartsBlank b → Final b
  | noName (l t : Bytes) : IsLine l → colonChar ∉ l → ¬StartsBlank l → Final (l ++ nChar :: t)

theorem Final.not_startsBlank (h : Final b) : ¬StartsBlank b := by
  cases h with
  | blank _ h => exact fun hb => by rw [blankLen_startsBlank hb] at h; omega
  | noLine _ _ h => exact h
  | noName l t _ _ h => exact fun hb => h (startsBlank_left isBlank_nChar hb)

theorem behind_final (h : NoFold b) : Final (behind b) := by
  induction b using line_induction with
  | noLine b hb =>
    rw [(lines_noLine hb).2]
    exact .noLine b hb ((noFold_noLine hb).mp h)
  | crlf t =>
    have hp : Line.parse [rChar] = none := by decide
    rw [show rChar :: nChar :: t = [rChar] ++ nChar :: t from rfl, (lines_stop (by simp) hp t).2]
    exact .blank _ (by simp)
  | lf t =>
    have hp : Line.parse [] = none := rfl
    rw [show nChar :: t = [] ++ nChar :: t from rfl, (lines_stop (by simp) hp t).2]
    exact .blank _ (by simp)
  | line l t hl ih =>
    obtain ⟨hlb, ht⟩ := (noFold_line hl t).mp h
    rcases hp : Line.parse l with _ | x
    · rw [(lines_stop hl.noLF hp t).2]
      exact .noName l t hl (Line.parse_none hp hl.noLF hlb) hlb
    · rw [(lines_parse hp).2]
      exact ih ht

theorem NoFold.left {y : Bytes} (h : NoFold (b ++ y)) : NoFold b := by
  induction b using line_induction with
  | noLine b hb => exact (noFold_noLine hb).mpr fun hs => noFold_not_startsBlank h (startsBlank_append hs y)
  | crlf t => exact noFold_crlf t
  | lf t => exact noFold_lf t
  | line l t hl ih =>
    rw [append_assoc, cons_append, noFold_line hl] at h
    exact (noFold_line hl t).mpr ⟨h.1, ih h.2⟩

theorem not_final_field {k bl v t : Bytes} (hb : b = k ++ colonChar :: (bl ++ (v ++ nChar :: t)))
    (hf : IsField k bl v) : ¬Final b := by
  have hline := shape_line _ _ _ hf
  have hcut : b = (k ++ colonChar :: (bl ++ v)) ++ nChar :: t := by rw [hb]; simp
  intro h
  cases h with
  | blank _ h =>
    rw [hcut, blankLen_line hline] at h
    omega
  | noLine _ h => exact h (by rw [hcut]; simp)
  | noName l t' hl hc =>
    -- the first line feed cuts both lines
    have h1 := idxOf?_append_cons nChar l t' hl.noLF
    have h2 := idxOf?_append_cons nChar (k ++ colonChar :: (bl ++ v)) t hline.noLF
    rw [hcut, h2, Option.some.injEq] at h1
    have hle : l = k ++ colonChar :: (bl ++ v) := (append_inj hcut (by omega)).1
    exact hc (by rw [hle]; simp)

def Nameless (b : Bytes) : Prop :=
  ∃ l t, behind b = l ++ nChar :: t ∧ IsLine l ∧ colonChar ∉ l ∧ ¬StartsBlank l

theorem Nameless.final (h : Nameless b) : Final (behind b) := by
  obtain ⟨l, t, hb, hl, hc, hs⟩ := h
  rw [hb]
  exact .noName l t hl hc hs

theorem Line.parse_noColon (h : colonChar ∉ l) : Line.parse l = none := by
  have hx : indexByte l colonChar = none := List.idxOf?_eq_none_iff.mpr h
  unfold Line.parse
  split
  · rfl
  · rename_i hc
    simp [hx] at hc

theorem lines_append (hf : Final (behind b)) (hn : nChar ∈ behind b) (y : Bytes) :
    lines (b ++ y) = lines b ∧ behind (b ++ y) = behind b ++ y := by
  obtain ⟨l, t, hb, hl, hp⟩ : ∃ l t, behind b = l ++ nChar :: t ∧ nChar ∉ l ∧ Line.parse l = none := by
    generalize behind b = rest at hf hn
    cases hf with
    | blank _ h =>
      have hs := shape rest
      cases hs with
      | crlf t => exact ⟨[rChar], t, rfl, by simp, by decide⟩
      | lf t => exact ⟨[], t, rfl, by simp, rfl⟩
      | noLine _ h' => exact absurd hn h'
      | noColon l t hl => rw [blankLen_line hl] at h; omega
      | badName l t hl => rw [blankLen_line hl] at h; omega
      | field k bl v t hf => rw [blankLen_field hf] at h; omega
    | noLine _ h => exact absurd hn h
    | noName l t hl hc => exact ⟨l, t, rfl, hl.noLF, Line.parse_noColon hc⟩
  have hcut : b ++ y = text (lines b) ++ (l ++ nChar :: (t ++ y)) := by
    conv_lhs => rw [← text_lines b, hb]
    simp
  obtain ⟨h1, h2⟩ := lines_stop hl hp (t ++ y)
  exact ⟨by rw [hcut, lines_text, h1, append_nil], by rw [hcut, behind_text, h2, hb]; simp⟩

theorem blank_split {z : Bytes} (h : 0 < blankLen z) : ∃ bl z', z = bl ++ z' ∧ lines bl = [] ∧ behind bl = bl ∧
    0 < blankLen bl ∧ ∀ y, blockEnd (bl ++ y) = some bl.length := by
  obtain ⟨t, rfl | rfl⟩ := blank_cases h
  · exact ⟨[rChar, nChar], t, rfl, by decide, by decide, by decide, fun y => blockEnd_crlf y⟩
  · exact ⟨[nChar], t, rfl, by decide, by decide, by decide, fun y => blockEnd_lf y⟩

theorem Nameless.append (h : Nameless b) (y : Bytes) :
    lines (b ++ y) = lines b ∧ Nameless (b ++ y) := by
  have hf := h.final
  obtain ⟨l, t, hb, hl, hc, hs⟩ := h
  obtain ⟨h1, h2⟩ := lines_append hf (by rw [hb]; simp) y
  exact ⟨h1, l, t ++ y, by rw [h2, hb]; simp, hl, hc, hs⟩

def ending (rest : Bytes) : Option Err :=
  if 0 < blankLen rest then none
  else if nChar ∈ rest ∧ colonChar ∈ rest then some .invalidName
  else some .needMore

theorem ending_line (hl : IsLine l) (t : Bytes) : ending (l ++ nChar :: t)
    = if colonChar ∈ l ++ nChar :: t then some .invalidName else some .needMore := by
  have hn : nChar ∈ l ++ nChar :: t := by simp
  simp [ending, blankLen_line hl]

section
variable {b b' : Bytes} {d : Bool}

variable {σ : Type} {body : σ → Bytes → Bytes → σ × Option Err}

theorem scanAll_final (body : σ → Bytes → Bytes → σ × Option Err) {s : Scanner} (hs : s.Fresh)
    (he : s.err = none) (hf : Final s.b) (h : σ) :
    ∃ s', scanAll body s h = (h, s', ending s.b) ∧ s'.mem = s.mem ∧
      (ending s.b = none → s'.hLen = s.hLen + blankLen s.b) := by
  have hspec := next_spec hs
  generalize hnext : s.next = r at hspec
  cases hspec with
  | blank k hk hb =>
    have hend : ending s.b = s.err := by simp [ending, hb, hk, he]
    rw [scanAll_stop h hnext, hend]
    refine ⟨_, rfl, ?_, fun _ => by rw [hb]⟩
    simp only [Scanner.mem, append_assoc]
    rw [← append_assoc (s.b.take k), take_append_drop]
  | noLine hb =>
    have hend : ending s.b = some .needMore := by simp [ending, blankLen_noLine hb, hb]
    rw [scanAll_stop h hnext, hend]
    exact ⟨_, rfl, rfl, by simp⟩
  | noColon l t hb hl hc =>
    have hbl : blankLen s.b = 0 := by rw [hb]; exact blankLen_line hl t
    have hend : ending s.b = some .needMore := by simp [ending, hbl, hc]
    rw [scanAll_stop h hnext, hend]
    exact ⟨_, rfl, rfl, by simp⟩
  | badName l t hb hl hc ht =>
    have hbl : blankLen s.b = 0 := by rw [hb]; exact blankLen_line hl t
    have hn : nChar ∈ s.b := by rw [hb]; simp
    have hcol : colonChar ∈ s.b := by rw [hb]; simp [ht]
    have hend : ending s.b = some .invalidName := by simp [ending, hbl, hn, hcol]
    rw [scanAll_stop h hnext, hend]
    exact ⟨_, rfl, rfl, by simp⟩
  -- a field line does not end the scan
  | plain k bl v t hb hf' => exact absurd hf (not_final_field hb hf')
  | folded k bl v ls w t hb hf' => exact absurd hf (not_final_field hb hf')

structure Past (s : Scanner) (ls : List Line) (rest : Bytes) (s₁ : Scanner) : Prop where
  fresh : s₁.Fresh
  b : s₁.b = rest
  pre : s₁.pre = s.pre ++ text (ls.map (Line.cased s.disableNormalizing))
  hLen : s₁.hLen = s.hLen + (text ls).length
  post : s₁.post = s.post
  err : s₁.err = s.err
  normal : s₁.disableNormalizing = s.disableNormalizing

theorem scanAll_text (body : σ → Bytes → Bytes → σ × Option Err) {s : Scanner} (hs : s.Fresh)
    {ls : List Line} {rest : Bytes} (hb : s.b = text ls ++ rest) (hrest : ¬StartsBlank rest) (h : σ) :
    (∃ h₁ s' e, feed body h (ls.map (Line.entry s.disableNormalizing)) = (h₁, some e) ∧
      scanAll body s h = (h₁, s', some e)) ∨
    ∃ h₁ s₁, feed body h (ls.map (Line.entry s.disableNormalizing)) = (h₁, none) ∧
      scanAll body s h = scanAll body s₁ h₁ ∧ Past s ls rest s₁ := by
  induction ls generalizing s h with
  | nil => exact .inr ⟨h, s, rfl, rfl, hs, hb, by simp, by simp, rfl, rfl, rfl⟩
  | cons l ls ih =>
    have hbt : ¬StartsBlank (text ls ++ rest) := by
      cases ls with
      | nil => exact hrest
      | cons l' ls => rw [text_cons, append_assoc]; exact l'.not_startsBlank_text _
    have hfold := folds_noBlank (not_startsBlank hbt)
    rw [text_cons, append_assoc, Line.text_append] at hb
    have hnext := next_plain hs hb l.field (by rw [hfold])
    generalize hs' : s.passPlain l.k l.bl l.v (text ls ++ rest) = s' at hnext
    have hd : s'.disableNormalizing = s.disableNormalizing := by rw [← hs']; rfl
    have hkv : (s'.key, s'.value) = l.entry s.disableNormalizing := by rw [← hs']; rfl
    rcases hbody : body h s'.key s'.value with ⟨h', _ | e⟩
    · have hfresh : s'.Fresh := by rw [← hs']; simp [Fresh, passPlain, hfold]
      have hsb : s'.b = text ls ++ rest := by rw [← hs']; rfl
      rw [scanAll_field hnext hbody, map_cons, ← hkv]
      simp only [feed, hbody]
      rcases ih hfresh hsb h' with ⟨h₁, s₂, e, hfeed, hscan⟩ | ⟨h₁, s₁, hfeed, hscan, hpast⟩
      · exact .inl ⟨h₁, s₂, e, by rw [← hd]; exact hfeed, hscan⟩
      · refine .inr ⟨h₁, s₁, by rw [← hd]; exact hfeed, hscan, hpast.fresh, hpast.b, ?_, ?_, ?_, ?_, hpast.normal.trans hd⟩
        · rw [hpast.pre, ← hs']
          simp [passPlain, Line.text, Line.cased]
        · rw [hpast.hLen, ← hs']
          simp only [passPlain, text_cons, Line.text, length_append, length_cons, length_nil]
          omega
        · rw [hpast.post, ← hs']; rfl
        · rw [hpast.err, ← hs']; rfl
    · refine .inl ⟨h', s', e, ?_, scanAll_reject hnext hbody⟩
      rw [map_cons, ← hkv]
      simp [feed, hbody]

/-! ## Scanning again -/

def Recased (d : Bool) (b b' : Bytes) : Prop :=
  ∃ ls ls' z, b = text ls ++ z ∧ b' = text ls' ++ z ∧ ls'.map (Line.entry d) = ls.map (Line.entry d) ∧
    (text ls').length = (text ls).length

theorem Recased.refl (d : Bool) (b : Bytes) : Recased d b b := ⟨[], [], b, rfl, rfl, rfl, rfl⟩

theorem Recased.append (h : Recased d b b') (y : Bytes) : Recased d (b ++ y) (b' ++ y) := by
  obtain ⟨ls, ls', z, rfl, rfl, he, hlen⟩ := h
  exact ⟨ls, ls', z ++ y, by simp, by simp, he, hlen⟩

theorem Recased.length (h : Recased d b b') : b'.length = b.length := by
  obtain ⟨ls, ls', z, rfl, rfl, -, hlen⟩ := h
  simp [hlen]

theorem Recased.lines (h : Recased d b b') :
    ∃ ls', b' = text ls' ++ behind b ∧ ls'.map (Line.entry d) = (lines b).map (Line.entry d) ∧
      (text ls').length = (text (lines b)).length := by
  obtain ⟨ls, ls', z, rfl, rfl, he, hlen⟩ := h
  refine ⟨ls' ++ Fasthttp.lines z, ?_, ?_, ?_⟩
  · rw [behind_text, text_append, append_assoc, text_lines]
  · rw [lines_text, map_append, map_append, he]
  · rw [lines_text]
    simp [hlen]

theorem blockEnd_text (ls : List Line) (z : Bytes) :
    blockEnd (text ls ++ z) = (blockEnd z).map ((text ls).length + ·) := by
  induction ls with
  | nil => simp
  | cons l ls ih =>
    have := blockEnd_field l.field (text ls ++ z)
    rw [← Line.text_append] at this
    rw [text_cons, append_assoc, this, ih, Option.map_map]
    congr 1
    funext n
    simp [Line.text]
    omega

theorem Recased.blockEnd (h : Recased d b b') : blockEnd b' = blockEnd b := by
  obtain ⟨ls, ls', z, rfl, rfl, -, hlen⟩ := h
  rw [blockEnd_text, blockEnd_text, hlen]

def fields (d : Bool) (b : Bytes) : List (Bytes × Bytes) := (lines b).map (Line.entry d)

theorem scanAll_recased (body : σ → Bytes → Bytes → σ × Option Err)
    (hfin : Final (behind b)) (hb : Recased d b b') (h : σ) :
    ∃ s', scanAll body (Scanner.new b' d) h
        = ((feed body h (fields d b)).1, s', (feed body h (fields d b)).2.or (ending (behind b))) ∧
      ((feed body h (fields d b)).2 = none → Recased d b s'.mem ∧
        (ending (behind b) = none → s'.hLen = (text (lines b)).length + blankLen (behind b))) := by
  obtain ⟨ls', rfl, he, hlen⟩ := hb.lines
  have hfields : fields d b = ls'.map (Line.entry d) := he.symm
  rw [hfields]
  rcases scanAll_text body (new_fresh (text ls' ++ behind b) d) rfl hfin.not_startsBlank h with
    ⟨h₁, s', e, hfeed, hscan⟩ | ⟨h₁, s₁, hfeed, hscan, hpast⟩
  · have hfeed : feed body h (ls'.map (Line.entry d)) = (h₁, some e) := hfeed
    refine ⟨s', ?_, ?_⟩
    · rw [hscan, hfeed]; rfl
    · rw [hfeed]; simp
  · have hfeed : feed body h (ls'.map (Line.entry d)) = (h₁, none) := hfeed
    obtain ⟨s', hs', hmem, hhLen⟩ := scanAll_final body hpast.fresh hpast.err (hpast.b ▸ hfin) h₁
    refine ⟨s', ?_, fun _ => ⟨?_, fun hend => ?_⟩⟩
    · rw [hscan, hs', hfeed, hpast.b]; rfl
    · refine ⟨lines b, ls'.map (Line.cased d), behind b, (text_lines b).symm, ?_, ?_, ?_⟩
      · rw [hmem]
        simp [Scanner.mem, hpast.pre, hpast.b, hpast.post, Scanner.new]
      · rw [map_map, ← he]
        exact map_congr_left fun l _ => l.entry_cased d
      · rw [text_cased_length, hlen]
    · rw [hhLen (by rw [hpast.b]; exact hend), hpast.hLen, hpast.b, hlen]
      simp [Scanner.new]

end

end Fasthttp
