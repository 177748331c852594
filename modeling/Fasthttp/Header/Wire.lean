import Fasthttp.Request.Lines
import Fasthttp.Request.Write

/-!
# Fields on the wire

The scanner finds the fields that `appendHeaderLine` wrote: a name is a token, and a value is made of legal bytes with
no blanks around it.
-/

namespace Fasthttp

open Scanner List

variable {k t : Bytes} {n : Nat}

def digitsValue (v : Nat) (ds : Bytes) : Nat := ds.foldl (fun n c => 10 * n + (c - ch '0').toNat) v

theorem le_digitsValue (v : Nat) (ds : Bytes) : v ≤ digitsValue v ds := by
  induction ds generalizing v with
  | nil => exact Nat.le_refl v
  | cons c ds ih =>
    have h := ih (10 * v + (c - ch '0').toNat)
    change v ≤ digitsValue (10 * v + (c - ch '0').toNat) ds
    omega

theorem digit_le : ∀ c : Byte, isDigit c = true → ¬ 9 < c - ch '0' := forall_byte (by decide +kernel)

theorem int64_of_lt (h : n < 2 ^ 63) : int64 n = n := by
  exact Int.bmod_eq_of_le (by omega) (by omega)

theorem parseUintLoop_of_digits {ds : Bytes} {i v : Nat} (hds : ∀ c ∈ ds, isDigit c = true) (hlt : digitsValue v ds < 2 ^ 63)
    (hi : 0 < i + ds.length) (ht : ∀ c ∈ t.head?, 9 < c - ch '0') :
    parseUintLoop i v (ds ++ t) = ((digitsValue v ds : Int), i + ds.length, none) := by
  induction ds generalizing i v with
  | nil =>
    rcases t with _ | ⟨c, t⟩
    · rfl
    · have hc := ht c (by simp)
      have hne : i ≠ 0 := by simpa using Nat.ne_of_gt hi
      simp [parseUintLoop, hc, hne, digitsValue]
  | cons c ds ih =>
    have hc := digit_le c (hds c (by simp))
    have hle := le_digitsValue (10 * v + (c - ch '0').toNat) ds
    have hcast : int64 (10 * (v : Int) + ((c - ch '0').toNat : Int)) = ((10 * v + (c - ch '0').toNat : Nat) : Int) := by
      have h := int64_of_lt (n := 10 * v + (c - ch '0').toNat) (by
        have : digitsValue (10 * v + (c - ch '0').toNat) ds < 2 ^ 63 := hlt
        omega)
      simpa using h
    simp only [cons_append, parseUintLoop, hc, if_false, hcast]
    rw [if_neg (by omega), ih (fun c' h => hds c' (by simp [h])) hlt (by omega)]
    simp [digitsValue]
    omega

theorem digitsValue_toDigits (n : Nat) : digitsValue 0 ((Nat.toDigits 10 n).map ch) = n := by
  have h := decimal_toDigits n
  unfold decimal at h
  split at h
  · exact Option.some.inj h
  · simp at h

theorem toDigits_ne_nil (n : Nat) : (Nat.toDigits 10 n).map ch ≠ [] := by
  have h := decimal_toDigits n
  unfold decimal at h
  split at h
  · rename_i hif
    exact hif.1
  · simp at h

theorem parseUintBuf_toDigits (h : n < 2 ^ 63) (ht : ∀ c ∈ t.head?, 9 < c - ch '0') :
    parseUintBuf ((Nat.toDigits 10 n).map ch ++ t) = ((n : Int), ((Nat.toDigits 10 n).map ch).length, none) := by
  have hne := toDigits_ne_nil n
  unfold parseUintBuf
  have hloop := parseUintLoop_of_digits (i := 0) (v := 0) (isDigit_toDigits n) (by rwa [digitsValue_toDigits])
    (by simpa using length_pos_iff.mpr hne) ht
  rw [digitsValue_toDigits] at hloop
  simpa using hloop

theorem parseContentLength_toDigits (h : n < 2 ^ 63) : parseContentLength ((Nat.toDigits 10 n).map ch) = ((n : Int), none) := by
  have hbuf := parseUintBuf_toDigits h (t := []) (by simp)
  rw [append_nil] at hbuf
  simp [parseContentLength, hbuf]

structure Token (k : Bytes) : Prop where
  ne_nil : k ≠ []
  valid : ∀ c ∈ k, validHeaderFieldByte c = true

structure Text (v : Bytes) : Prop where
  valid : ∀ c ∈ v, validHeaderValueByte c = true
  head : ∀ c ∈ v.head?, isBlank c = false
  last : ∀ c ∈ v.getLast?, isBlank c = false

theorem not_blank_of_field : ∀ c : Byte, validHeaderFieldByte c = true → isBlank c = false ∧ c ≠ colonChar ∧ c ≠ nChar :=
  forall_byte (by decide +kernel)

theorem valid_table : ∀ c : Byte, validHeaderFieldByte c = true →
    validHeaderFieldByte (toLowerTable c) = true ∧ validHeaderFieldByte (toUpperTable c) = true := forall_byte (by decide +kernel)

theorem normalizeTail_valid {b : Bytes} (h : ∀ c ∈ b, validHeaderFieldByte c = true) :
    ∀ c ∈ normalizeTail b, validHeaderFieldByte c = true := by
  fun_induction normalizeTail b with
  | case1 => exact h
  | case2 c =>
    have hc := h c (by simp)
    split
    · simpa using hc
    · simpa using (valid_table c hc).1
  | case3 d b ih =>
    have hd := h d (by simp)
    have hb := ih fun c hc => h c (by simp [hc])
    simp only [mem_cons, forall_eq_or_imp]
    exact ⟨h _ (by simp), (valid_table d hd).2, hb⟩
  | case4 c d b _ ih =>
    have hb := ih fun c' hc => h c' (mem_cons_of_mem _ hc)
    rw [forall_mem_cons]
    exact ⟨(valid_table c (h c (by simp))).1, hb⟩

theorem Token.free (hk : Token k) : colonChar ∉ k ∧ nChar ∉ k :=
  ⟨fun h => (not_blank_of_field _ (hk.valid _ h)).2.1 rfl, fun h => (not_blank_of_field _ (hk.valid _ h)).2.2 rfl⟩

theorem Token.initHeaderK (hk : Token k) (d : Bool) : Token (initHeaderK k d) := by
  unfold Fasthttp.initHeaderK
  split
  · exact hk
  · cases k with
    | nil => exact absurd rfl hk.ne_nil
    | cons c k =>
      refine ⟨by simp [normalizeHeaderKeyV2], ?_⟩
      rw [normalizeHeaderKeyV2, forall_mem_cons]
      exact ⟨(valid_table c (hk.valid c (by simp))).2, normalizeTail_valid fun c' hc => hk.valid c' (by simp [hc])⟩

theorem Token.isField {v : Bytes} (hk : Token k) (hv : Text v) : IsField k [spChar] (v ++ [rChar]) where
  noColon := hk.free.1
  keyNoLF := hk.free.2
  blanks := by simp [isBlank]
  noLF := by
    have hn : nChar ∉ v := fun h => absurd (hv.valid _ h) (by decide)
    simp [hn]
  head := by
    rcases v with _ | ⟨c, v⟩
    · simp [isBlank, rChar, spChar, tabChar]
    · exact hv.head

theorem Token.not_startsBlank (hk : Token k) (t : Bytes) : ¬ StartsBlank (k ++ t) := by
  rcases k with _ | ⟨c, k⟩
  · exact absurd rfl hk.ne_nil
  · rintro ⟨d, hd, hb⟩
    obtain rfl : c = d := by simpa using hd
    have h := (not_blank_of_field c (hk.valid c (by simp))).1
    simp [h] at hb

theorem Text.trimValue {v : Bytes} (hv : Text v) : trimValue (v ++ [rChar]) = v := by
  unfold Fasthttp.trimValue
  rw [if_pos (by simp), dropLast_concat]
  rcases eq_nil_or_concat v with rfl | ⟨u, c, rfl⟩
  · rfl
  · have hc := hv.last c (by simp)
    rw [concat_eq_append, rdropWhile_concat_neg _ _ _ (by simp [hc])]

/-! ## Lines -/

def wireLines (fs : List (Bytes × Bytes)) : Bytes := fs.flatMap fun f => appendHeaderLine f.1 f.2

theorem folds_wireLines {fs : List (Bytes × Bytes)} (hfs : ∀ f ∈ fs, Token f.1) (t : Bytes) :
    folds (wireLines fs ++ (strCRLF ++ t)) = ⟨0, none, none⟩ := by
  apply folds_noBlank
  apply Fasthttp.not_startsBlank
  rcases fs with _ | ⟨f, fs⟩
  · rintro ⟨c, hc, hb⟩
    obtain rfl : rChar = c := by simpa [wireLines, strCRLF] using hc
    exact absurd hb (by decide)
  · have h := (hfs f (by simp)).not_startsBlank (strColonSpace ++ f.2 ++ strCRLF ++ (wireLines fs ++ (strCRLF ++ t)))
    simpa [wireLines, appendHeaderLine] using h

variable {σ : Type} {body : σ → Bytes → Bytes → σ × Option Err}

theorem scanAll_wireLines {fs : List (Bytes × Bytes)} (hfs : ∀ f ∈ fs, Token f.1 ∧ Text f.2) {s : Scanner} (hs : s.Fresh)
    (hb : s.b = wireLines fs ++ (strCRLF ++ t)) {h h' : σ}
    (hfeed : feed body h (fs.map fun f => (initHeaderK f.1 s.disableNormalizing, f.2)) = (h', none)) :
    ∃ s', scanAll body s h = (h', s', s.err) ∧ s'.b = t ∧ s'.post = s.post := by
  induction fs generalizing s h with
  | nil =>
    obtain rfl : h = h' := congrArg Prod.fst hfeed
    have hnext := next_crlf (s := s) (t := t) (by simpa [wireLines, strCRLF] using hb)
    refine ⟨_, (scanAll_stop h hnext).trans rfl, ?_⟩
    exact ⟨rfl, rfl⟩
  | cons f fs ih =>
    obtain ⟨hk, hv⟩ := hfs f (by simp)
    have hrest : ∀ f ∈ fs, Token f.1 ∧ Text f.2 := fun g hg => hfs g (by simp [hg])
    generalize ht : wireLines fs ++ (strCRLF ++ t) = rest at hb
    have hfolds : folds rest = ⟨0, none, none⟩ := ht ▸ folds_wireLines (fun f hf => (hrest f hf).1) t
    have hbytes : s.b = f.1 ++ colonChar :: ([spChar] ++ ((f.2 ++ [rChar]) ++ nChar :: rest)) := by
      rw [hb, ← ht]
      have hcolon : strColonSpace = [colonChar, spChar] := by decide
      simp [wireLines, appendHeaderLine, hcolon, strCRLF]
    have hnext := next_plain hs hbytes (hk.isField hv) (by rw [hfolds])
    simp only [map_cons, feed] at hfeed
    rcases hbody : body h (initHeaderK f.1 s.disableNormalizing) f.2 with ⟨h₁, _ | e⟩
    · rw [hbody] at hfeed
      have hfield : scanAll body s h = scanAll body _ h₁ := scanAll_field hnext (by simp [passPlain, hv.trimValue, hbody])
      obtain ⟨s', hscan, hs'⟩ := ih hrest (s := s.passPlain f.1 [spChar] (f.2 ++ [rChar]) rest)
        ⟨by simp [passPlain, hfolds], by simp [passPlain, hfolds]⟩ (by simp [passPlain, ht]) hfeed
      exact ⟨s', hfield.trans hscan, hs'⟩
    · rw [hbody] at hfeed
      simp at hfeed

end Fasthttp
