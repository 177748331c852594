import Fasthttp.Lib.FirstIndex
import Fasthttp.Header.Scanner

/-!
# What one call of the scanner does

The bytes in front of the scanner have one of six shapes (`Shape`), and there is one lemma for each of them.
-/

namespace Fasthttp

open FirstIndex List

variable {k t : Bytes}

@[simp] theorem nChar_ne_rChar : nChar ≠ rChar := by decide
@[simp] theorem nChar_ne_colonChar : nChar ≠ colonChar := by decide
@[simp] theorem colonChar_ne_nChar : colonChar ≠ nChar := by decide
@[simp] theorem isBlank_nChar : isBlank nChar = false := by decide
@[simp] theorem isBlank_rChar : isBlank rChar = false := by decide
@[simp] theorem isBlank_colonChar : isBlank colonChar = false := by decide

theorem ne_of_isBlank {c d : Byte} (hc : isBlank c = true) (hd : isBlank d = false) : c ≠ d := by
  rintro rfl
  simp [hc] at hd

structure IsLine (l : Bytes) : Prop where
  noLF : nChar ∉ l
  ne_nil : l ≠ []
  ne_cr : l ≠ [rChar]

structure IsField (k bl v : Bytes) : Prop where
  noColon : colonChar ∉ k
  keyNoLF : nChar ∉ k
  blanks : ∀ c ∈ bl, isBlank c = true
  noLF : nChar ∉ v
  head : ∀ c ∈ v.head?, isBlank c = false

inductive Shape : Bytes → Prop
  | crlf (t : Bytes) : Shape (rChar :: nChar :: t)
  | lf (t : Bytes) : Shape (nChar :: t)
  | noLine (b : Bytes) : nChar ∉ b → Shape b
  | noColon (l t : Bytes) : IsLine l → colonChar ∉ l ++ nChar :: t → Shape (l ++ nChar :: t)
  | badName (l t : Bytes) : IsLine l → colonChar ∉ l → colonChar ∈ t → Shape (l ++ nChar :: t)
  | field (k bl v t : Bytes) : IsField k bl v → Shape (k ++ colonChar :: (bl ++ (v ++ nChar :: t)))

theorem blanks_split (b : Bytes) : ∃ bl v, b = bl ++ v ∧ (∀ c ∈ bl, isBlank c = true) ∧
    ∀ c ∈ v.head?, isBlank c = false := by
  refine ⟨b.takeWhile isBlank, b.dropWhile isBlank, (takeWhile_append_dropWhile).symm, ?_, ?_⟩
  · intro c hc
    exact mem_takeWhile_imp hc
  · intro c hc
    have := head?_dropWhile_not isBlank b
    rw [Option.mem_def.mp hc] at this
    simpa using this

theorem shape (b : Bytes) : Shape b := by
  by_cases hn : nChar ∈ b
  swap
  · exact .noLine b hn
  obtain ⟨l, t, rfl, hl⟩ := eq_append_cons_of_mem hn
  by_cases hc : colonChar ∈ l
  · obtain ⟨k, m, rfl, hk⟩ := eq_append_cons_of_mem hc
    obtain ⟨bl, v, rfl, hbl, hv⟩ := blanks_split m
    simp only [mem_append, mem_cons, not_or] at hl
    have := Shape.field k bl v t ⟨hk, hl.1, hbl, hl.2.2.2, hv⟩
    simpa using this
  by_cases h0 : l = []
  · subst h0; exact .lf t
  by_cases h1 : l = [rChar]
  · subst h1; exact .crlf t
  by_cases ht : colonChar ∈ t
  · exact .badName l t ⟨hl, h0, h1⟩ hc ht
  · exact .noColon l t ⟨hl, h0, h1⟩ (by simp [hc, ht])

theorem shape_line (k bl v : Bytes) (h : IsField k bl v) : IsLine (k ++ colonChar :: (bl ++ v)) where
  noLF := by
    have hbl : nChar ∉ bl := fun hm => ne_of_isBlank (h.blanks _ hm) isBlank_nChar rfl
    simp [h.keyNoLF, hbl, h.noLF]
  ne_nil := by simp
  ne_cr := by
    intro he
    have : colonChar ∈ [rChar] := by rw [← he]; simp
    revert this; decide

namespace Scanner

variable {l t : Bytes} {s : Scanner}

@[simp] theorem blankLen_crlf (t : Bytes) : blankLen (rChar :: nChar :: t) = 2 := by
  simp [blankLen, strCRLF]

@[simp] theorem blankLen_lf (t : Bytes) : blankLen (nChar :: t) = 1 := by
  simp [blankLen, strCRLF]

theorem blankLen_line (h : IsLine l) (t : Bytes) : blankLen (l ++ nChar :: t) = 0 := by
  obtain ⟨hn, h0, h1⟩ := h
  rcases l with _ | ⟨c, _ | ⟨d, l⟩⟩
  · exact absurd rfl h0
  · have : c ≠ rChar := fun hc => h1 (by rw [hc])
    simp only [mem_singleton] at hn
    simp [blankLen, strCRLF, this, Ne.symm hn]
  · simp only [mem_cons, not_or] at hn
    simp [blankLen, strCRLF, Ne.symm hn.1, Ne.symm hn.2.1]

theorem blank_cases {b : Bytes} (h : 0 < blankLen b) : ∃ t, b = rChar :: nChar :: t ∨ b = nChar :: t := by
  unfold blankLen at h
  split_ifs at h with hcrlf hlf
  · exact ⟨b.drop 2, .inl (by rw [← take_append_drop 2 b, hcrlf]; simp [strCRLF])⟩
  · exact ⟨b.drop 1, .inr (by rw [← take_append_drop 1 b, hlf]; simp)⟩
  · omega

theorem lf_mem_of_blankLen {b : Bytes} (h : 0 < blankLen b) : nChar ∈ b := by
  obtain ⟨t, rfl | rfl⟩ := blank_cases h <;> simp

theorem blankLen_noLine {b : Bytes} (h : nChar ∉ b) : blankLen b = 0 :=
  Nat.eq_zero_of_not_pos fun hpos => h (lf_mem_of_blankLen hpos)

def Fresh (s : Scanner) : Prop := s.nextColon = none ∧ s.nextNewLine = none

theorem new_fresh (b : Bytes) (d : Bool) : (new b d).Fresh := ⟨rfl, rfl⟩

theorem next_crlf (hb : s.b = rChar :: nChar :: t) :
    s.next = (false, { s with pre := s.pre ++ strCRLF, b := t, hLen := s.hLen + 2 }) := by
  simp [next, hb, strCRLF]

theorem next_stop {e : Err} (hb : blankLen s.b = 0) (he : s.keyEnd = .error e) :
    s.next = (false, { s with nextColon := none, err := some e }) := by
  simp [next, hb, he]

theorem next_noLine (hs : s.Fresh) (h : nChar ∉ s.b) :
    s.next = (false, { s with nextColon := none, err := some .needMore }) := by
  apply next_stop (blankLen_noLine h)
  simp [keyEnd, hs.1, indexByte, List.idxOf?_eq_none_iff.mpr h]

theorem next_noColon (hs : s.Fresh) (hb : s.b = l ++ nChar :: t)
    (hl : IsLine l) (hc : colonChar ∉ s.b) :
    s.next = (false, { s with nextColon := none, err := some .needMore }) := by
  apply next_stop (by rw [hb]; exact blankLen_line hl t)
  rw [keyEnd, hs.1]
  simp only [indexByte, List.idxOf?_eq_none_iff.mpr hc]
  split <;> simp_all

theorem next_badName (hs : s.Fresh) (hb : s.b = l ++ nChar :: t)
    (hl : IsLine l) (hc : colonChar ∉ l) (ht : colonChar ∈ t) :
    s.next = (false, { s with nextColon := none, err := some .invalidName }) := by
  apply next_stop (by rw [hb]; exact blankLen_line hl t)
  obtain ⟨u, w, rfl, hu⟩ := eq_append_cons_of_mem ht
  have hi : indexByte s.b colonChar = some (l.length + 1 + u.length) := by
    have : s.b = (l ++ nChar :: u) ++ colonChar :: w := by rw [hb]; simp
    rw [indexByte, this, idxOf?_append_cons]
    · simp; omega
    · simp [hc, hu]
  have hx : indexByte s.b nChar = some l.length := by
    rw [indexByte, hb, idxOf?_append_cons _ _ _ hl.noLF]
  rw [keyEnd, hs.1]
  simp only [hi, hx]
  rw [if_pos (by omega)]

end Scanner

def folds (t : Bytes) : Folded := foldLines t.length t

theorem foldLines_fuel (n m : Nat) (t : Bytes) (hn : t.length ≤ n) (hm : t.length ≤ m) :
    foldLines n t = foldLines m t := by
  induction n generalizing m t with
  | zero =>
    have : t = [] := length_eq_zero_iff.mp (by omega)
    subst this
    cases m <;> rfl
  | succ n ih =>
    rcases t with _ | ⟨c, t⟩
    · cases m <;> rfl
    obtain ⟨m, rfl⟩ : ∃ k, m = k + 1 := ⟨m - 1, by simp at hm; omega⟩
    have hdrop : ∀ d, foldLines n ((c :: t).drop (d + 1)) = foldLines m ((c :: t).drop (d + 1)) := by
      intro d
      simp only [length_cons] at hn hm
      exact ih m _ (by simp; omega) (by simp; omega)
    simp only [foldLines, hdrop]

theorem foldLines_cons (n : Nat) (c : Byte) (t : Bytes) : foldLines (n + 1) (c :: t) =
    if !isBlank c then ⟨0, none, none⟩
    else match indexByte (c :: t) nChar with
      | none => ⟨0, none, none⟩
      | some d =>
        match indexByte ((c :: t).take d) colonChar with
        | some c => ⟨0, some c, some (d - c - 1)⟩
        | none =>
          let f := foldLines n ((c :: t).drop (d + 1))
          { f with extra := d + 1 + f.extra } := rfl

theorem foldLines_eq_folds {n : Nat} (h : t.length ≤ n) : foldLines n t = folds t :=
  foldLines_fuel n t.length t h le_rfl

theorem folds_noBlank (h : ∀ c ∈ t.head?, isBlank c = false) :
    folds t = ⟨0, none, none⟩ := by
  rcases t with _ | ⟨c, t⟩
  · rfl
  · have := h c (by simp)
    simp [folds, foldLines, this]

theorem folds_noLine (h : nChar ∉ t) : folds t = ⟨0, none, none⟩ := by
  rcases t with _ | ⟨c, t⟩
  · rfl
  · simp only [folds, length_cons, foldLines, indexByte, List.idxOf?_eq_none_iff.mpr h]
    split <;> rfl

def StartsBlank (t : Bytes) : Prop := ∃ c ∈ t.head?, isBlank c = true

theorem not_startsBlank (h : ¬StartsBlank t) : ∀ c ∈ t.head?, isBlank c = false := by
  intro c hc
  by_contra hb
  exact h ⟨c, hc, by simpa using hb⟩

theorem startsBlank_append (h : StartsBlank k) (t : Bytes) : StartsBlank (k ++ t) := by
  obtain ⟨c, hc, hb⟩ := h
  refine ⟨c, ?_, hb⟩
  rcases k with _ | ⟨d, k⟩
  · simp at hc
  · simpa using hc

theorem startsBlank_left {d : Byte} (hd : isBlank d = false)
    (h : StartsBlank (k ++ d :: t)) : StartsBlank k := by
  obtain ⟨c, hc, hb⟩ := h
  rcases k with _ | ⟨e, k⟩
  · simp only [nil_append, head?_cons, Option.mem_some_iff] at hc
    subst hc
    simp [hd] at hb
  · exact ⟨c, by simpa using hc, hb⟩

theorem startsBlank_cons (h : StartsBlank k) : ∃ c t, k = c :: t ∧ isBlank c = true := by
  obtain ⟨c, hc, hb⟩ := h
  rcases k with _ | ⟨d, k⟩
  · simp at hc
  · simp only [head?_cons, Option.mem_some_iff] at hc
    exact ⟨d, k, rfl, hc ▸ hb⟩

theorem folds_colon {m : Bytes} (hb : StartsBlank k) (hk : colonChar ∉ k) (hn : nChar ∉ k)
    (hm : nChar ∉ m) :
    folds (k ++ colonChar :: (m ++ nChar :: t)) = ⟨0, some k.length, some m.length⟩ := by
  have hl : nChar ∉ k ++ colonChar :: m := by simp [hn, hm]
  have hcut : k ++ colonChar :: (m ++ nChar :: t) = (k ++ colonChar :: m) ++ nChar :: t := by simp
  have hx : indexByte (k ++ colonChar :: (m ++ nChar :: t)) nChar
      = some (k ++ colonChar :: m).length := by
    rw [hcut, indexByte, idxOf?_append_cons _ _ _ hl]
  have htake : (k ++ colonChar :: (m ++ nChar :: t)).take (k ++ colonChar :: m).length
      = k ++ colonChar :: m := by
    rw [hcut, take_left' rfl]
  have hcol : indexByte (k ++ colonChar :: m) colonChar = some k.length := by
    rw [indexByte, idxOf?_append_cons _ _ _ hk]
  obtain ⟨c, k', rfl, hc⟩ := startsBlank_cons hb
  simp only [cons_append] at hx htake hcol ⊢
  rw [folds, length_cons, foldLines_cons]
  simp only [hc, hx, htake, hcol]
  simp

theorem folds_line {l : Bytes} (hb : StartsBlank l) (hn : nChar ∉ l) (hc : colonChar ∉ l) :
    folds (l ++ nChar :: t) = { folds t with extra := l.length + 1 + (folds t).extra } := by
  have hx : indexByte (l ++ nChar :: t) nChar = some l.length := by
    rw [indexByte, idxOf?_append_cons _ _ _ hn]
  have htake : (l ++ nChar :: t).take l.length = l := take_left' rfl
  have hdrop : (l ++ nChar :: t).drop (l.length + 1) = t := by simp
  have hcol : indexByte l colonChar = none := List.idxOf?_eq_none_iff.mpr hc
  obtain ⟨c, l', rfl, hcb⟩ := startsBlank_cons hb
  rw [cons_append] at hx htake hdrop ⊢
  rw [folds, length_cons, foldLines_cons]
  simp only [hcb, hx, htake, hcol, hdrop, Bool.not_true, Bool.false_eq_true, if_false]
  rw [foldLines_eq_folds (by simp; omega)]

theorem folds_cases (t : Bytes) :
    ((¬StartsBlank t ∨ nChar ∉ t) ∧ folds t = ⟨0, none, none⟩) ∨
    (∃ k m r, t = k ++ colonChar :: (m ++ nChar :: r) ∧ StartsBlank k ∧ nChar ∉ k ∧ nChar ∉ m ∧
      folds t = ⟨0, some k.length, some m.length⟩) ∨
    (∃ l r, t = l ++ nChar :: r ∧ StartsBlank l ∧ nChar ∉ l ∧ colonChar ∉ l ∧
      folds t = { folds r with extra := l.length + 1 + (folds r).extra }) := by
  by_cases hb : StartsBlank t
  swap
  · exact .inl ⟨.inl hb, folds_noBlank (not_startsBlank hb)⟩
  by_cases hlf : nChar ∈ t
  swap
  · exact .inl ⟨.inr hlf, folds_noLine hlf⟩
  obtain ⟨l, r, rfl, hl⟩ := eq_append_cons_of_mem hlf
  have hlb := startsBlank_left isBlank_nChar hb
  by_cases hcol : colonChar ∈ l
  · obtain ⟨k, m, rfl, hk⟩ := eq_append_cons_of_mem hcol
    simp only [mem_append, mem_cons, not_or] at hl
    have hkb := startsBlank_left isBlank_colonChar hlb
    refine .inr (.inl ⟨k, m, r, by simp, hkb, hl.1, hl.2.2, ?_⟩)
    rw [append_assoc, cons_append, folds_colon hkb hk hl.1 hl.2.2]
  · exact .inr (.inr ⟨l, r, rfl, hlb, hl, hcol, folds_line hlb hl hcol⟩)

structure IsFolded (l : Bytes) : Prop where
  noLF : nChar ∉ l
  blank : StartsBlank l
  noColon : colonChar ∉ l

theorem IsFolded.isLine {l : Bytes} (h : IsFolded l) : IsLine l := by
  obtain ⟨c, t, rfl, hc⟩ := startsBlank_cons h.blank
  refine ⟨h.noLF, by simp, ?_⟩
  intro he
  simp only [List.cons.injEq] at he
  exact ne_of_isBlank hc isBlank_rChar he.1

def unlines (ls : List Bytes) : Bytes := ls.flatMap (· ++ [nChar])

@[simp] theorem unlines_nil : unlines [] = [] := rfl
@[simp] theorem unlines_cons (l : Bytes) (ls : List Bytes) :
    unlines (l :: ls) = l ++ nChar :: unlines ls := by simp [unlines]

theorem folds_spec (t : Bytes) : ∃ ls t', t = unlines ls ++ t' ∧ (∀ l ∈ ls, IsFolded l) ∧
    (unlines ls).length = (folds t).extra ∧ folds t' = ⟨0, (folds t).nextColon, (folds t).nextNewLine⟩ := by
  induction hn : t.length using Nat.strong_induction_on generalizing t with
  | _ n ih =>
    obtain ⟨-, hf⟩ | ⟨k, m, r, -, -, -, -, hf⟩ | ⟨l, r, rfl, hlb, hl, hc, hf⟩ := folds_cases t
    · exact ⟨[], t, by simp, by simp, by simp [hf], by simp [hf]⟩
    · exact ⟨[], t, by simp, by simp, by simp [hf], by simp [hf]⟩
    · obtain ⟨ls, t', hr, hls, hw, hft⟩ := ih r.length (by simp at hn; omega) r rfl
      exact ⟨l :: ls, t', by simp [hr], forall_mem_cons.mpr ⟨⟨hl, hlb, hc⟩, hls⟩, by simp [hf]; omega, by simp [hf, hft]⟩

theorem folds_unlines {ls : List Bytes} (h : ∀ l ∈ ls, IsFolded l) (t : Bytes) :
    folds (unlines ls ++ t) = { folds t with extra := (unlines ls).length + (folds t).extra } := by
  induction ls with
  | nil => simp
  | cons l ls ih =>
    have hl := h l (by simp)
    rw [unlines_cons, append_assoc, cons_append, folds_line hl.blank hl.noLF hl.noColon,
      ih fun x hx => h x (by simp [hx])]
    simp
    omega

theorem unlines_snoc {ls : List Bytes} (h : ls ≠ []) : ∃ w, unlines ls = w ++ [nChar] := by
  induction ls with
  | nil => exact absurd rfl h
  | cons l ls ih =>
    rcases ls with _ | ⟨l', ls⟩
    · exact ⟨l, by simp⟩
    · obtain ⟨w, hw⟩ := ih (by simp)
      exact ⟨l ++ nChar :: w, by rw [unlines_cons, hw]; simp⟩

end Fasthttp
