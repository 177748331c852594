import Fasthttp.Header.Key

/-!
# Names up to letter case

The normal form of a key forgets the case and nothing else.
-/

namespace Fasthttp

open List

def SameName (a b : Bytes) : Prop := a.map toLowerTable = b.map toLowerTable

instance (a b : Bytes) : Decidable (SameName a b) := inferInstanceAs (Decidable (_ = _))

theorem SameName.trans {a b c : Bytes} (hab : SameName a b) (hbc : SameName b c) : SameName a c := Eq.trans hab hbc

theorem SameName.symm {a b : Bytes} (h : SameName a b) : SameName b a := Eq.symm h

/-! ## The normal form -/

theorem toLower_toUpper (c : Byte) : toLowerTable (toUpperTable c) = toLowerTable c := by
  revert c; exact forall_byte (by decide +kernel)

theorem toUpper_toLower (c : Byte) : toUpperTable (toLowerTable c) = toUpperTable c := by
  revert c; exact forall_byte (by decide +kernel)

theorem normalizeTail_lower (b : Bytes) : (normalizeTail b).map toLowerTable = b.map toLowerTable := by
  fun_induction normalizeTail b with
  | case1 => rfl
  | case2 c => split <;> simp [toLowerTable_idem]
  | case3 d b ih => simp [toLower_toUpper, ih]
  | case4 c d b _ ih =>
    rw [map_cons, ih]
    simp [toLowerTable_idem]

theorem normalizeTail_map_lower (b : Bytes) : normalizeTail (b.map toLowerTable) = normalizeTail b := by
  fun_induction normalizeTail b with
  | case1 => rfl
  | case2 c =>
    by_cases hc : c = ch '-'
    · simp [normalizeTail, hc, (toLowerTable_eq_dash _).mpr rfl]
    · simp [normalizeTail, hc, toLowerTable_idem]
  | case3 d b ih => simp [normalizeTail, toLowerTable_eq_dash, toUpper_toLower, ih]
  | case4 c d b hc ih =>
    rw [map_cons] at ih
    simp [normalizeTail, toLowerTable_eq_dash, hc, toLowerTable_idem, ih]

theorem normalizeHeaderKeyV2_lower (k : Bytes) : SameName (normalizeHeaderKeyV2 k) k := by
  cases k with
  | nil => rfl
  | cons c k => simp [SameName, normalizeHeaderKeyV2, toLower_toUpper, normalizeTail_lower]

theorem normalizeHeaderKeyV2_map_lower (k : Bytes) : normalizeHeaderKeyV2 (k.map toLowerTable) = normalizeHeaderKeyV2 k := by
  cases k with
  | nil => rfl
  | cons c k => simp [normalizeHeaderKeyV2, toUpper_toLower, normalizeTail_map_lower]

theorem normalizeHeaderKeyV2_eq_iff {a b : Bytes} : normalizeHeaderKeyV2 a = normalizeHeaderKeyV2 b ↔ SameName a b := by
  constructor
  · intro h
    have hnormal := (normalizeHeaderKeyV2_lower a).symm
    rw [h] at hnormal
    exact hnormal.trans (normalizeHeaderKeyV2_lower b)
  · intro h
    rw [← normalizeHeaderKeyV2_map_lower a, h, normalizeHeaderKeyV2_map_lower b]

theorem initHeaderK_lower (k : Bytes) (d : Bool) : (initHeaderK k d).map toLowerTable = k.map toLowerTable := by
  unfold initHeaderK
  split
  · rfl
  · exact normalizeHeaderKeyV2_lower k

/-! ## The comparison that ignores the case -/

def Lettered (name : Bytes) : Prop := ∀ c ∈ name, isLower (toLowerTable c) = true ∨ c = ch '-'

instance (name : Bytes) : Decidable (Lettered name) := inferInstanceAs (Decidable (∀ c ∈ name, _))

def crToDash (c : Byte) : Byte := if c = rChar then ch '-' else c

theorem or_lettered : ∀ x : Byte, isLower (toLowerTable x) = true ∨ x = ch '-' →
    x ||| 32 = toLowerTable x ∧ (isLower (x ||| 32) = true ∨ x ||| 32 = ch '-') := forall_byte (by decide +kernel)

theorem lower_crToDash_of_or : ∀ c : Byte, isLower (c ||| 32) = true ∨ c ||| 32 = ch '-' → toLowerTable (crToDash c) = c ||| 32 :=
  forall_byte (by decide +kernel)

theorem or_of_lower_crToDash : ∀ c : Byte, isLower (toLowerTable (crToDash c)) = true ∨ toLowerTable (crToDash c) = ch '-' →
    c ||| 32 = toLowerTable (crToDash c) := forall_byte (by decide +kernel)

theorem map_eq_map_congr {α β γ : Type} {f f' : α → γ} {g g' : β → γ} {ys : List β} {xs : List α}
    (h : ∀ y ∈ ys, ∀ x ∈ xs, f x = g y ↔ f' x = g' y) : xs.map f = ys.map g ↔ xs.map f' = ys.map g' := by
  induction ys generalizing xs with
  | nil => simp
  | cons y ys ih =>
    cases xs with
    | nil => simp
    | cons x xs =>
      have hrest : xs.map f = ys.map g ↔ xs.map f' = ys.map g' :=
        ih fun y' hy' x' hx' => h y' (mem_cons_of_mem _ hy') x' (mem_cons_of_mem _ hx')
      simp [h y mem_cons_self x mem_cons_self, hrest]

theorem caseInsensitiveCompare_iff {name : Bytes} (hname : Lettered name) (k : Bytes) :
    caseInsensitiveCompare k name = true ↔ SameName (k.map crToDash) name := by
  have hbytes : k.map (· ||| 32) = name.map (· ||| 32) ↔ k.map (toLowerTable ∘ crToDash) = name.map toLowerTable := by
    refine map_eq_map_congr fun x hx c _ => ?_
    obtain ⟨hlower, hor⟩ := or_lettered x (hname x hx)
    constructor
    · intro h
      rw [← h] at hor
      rw [Function.comp, lower_crToDash_of_or c hor, h, hlower]
    · intro h
      rw [hlower, ← h] at hor
      rw [or_of_lower_crToDash c hor, hlower]
      exact h
  rw [caseInsensitiveCompare, beq_iff_eq, hbytes, SameName, map_map]

theorem map_crToDash {k : Bytes} (h : rChar ∉ k) : k.map crToDash = k := by
  have hid : ∀ c ∈ k, crToDash c = id c := by
    intro c hc
    have hne : c ≠ rChar := by
      rintro rfl
      exact h hc
    exact if_neg hne
  rw [map_congr_left hid, map_id]

theorem lower_ne_cr : ∀ c : Byte, isLower (toLowerTable c) = true ∨ c = ch '-' →
    toLowerTable c ≠ rChar := forall_byte (by decide +kernel)

theorem SameName.no_cr {k name : Bytes} (h : SameName k name) (hname : Lettered name) : rChar ∉ k := by
  intro hk
  have hmem : toLowerTable rChar ∈ name.map toLowerTable := h ▸ mem_map_of_mem hk
  obtain ⟨c, hc, heq⟩ := mem_map.mp hmem
  exact lower_ne_cr c (hname c hc) heq

/-! ## Names of letters, digits and dashes -/

def isNameByte (c : Byte) : Bool := isLower (toLowerTable c) || isDigit c || c = ch '-'

theorem or_nameByte : ∀ x : Byte, isNameByte x = true → x ||| 32 = toLowerTable x ∧ isNameByte (x ||| 32) = true :=
  forall_byte (by decide +kernel)

-- a token has none of the control characters that the comparison takes for digits and dashes
theorem or_token : ∀ c : Byte, validHeaderFieldByte c = true → isNameByte (c ||| 32) = true ∨ isNameByte (toLowerTable c) = true →
    c ||| 32 = toLowerTable c := forall_byte (by decide +kernel)

theorem caseInsensitiveCompare_token {k name : Bytes} (hk : ∀ c ∈ k, validHeaderFieldByte c = true)
    (hname : ∀ c ∈ name, isNameByte c = true) : caseInsensitiveCompare k name = true ↔ SameName k name := by
  rw [caseInsensitiveCompare, beq_iff_eq, SameName]
  apply map_eq_map_congr
  intro x hx c hc
  obtain ⟨hlower, hbyte⟩ := or_nameByte x (hname x hx)
  constructor
  · intro h
    rw [← h] at hbyte
    rw [← or_token c (hk c hc) (.inl hbyte), h, hlower]
  · intro h
    rw [hlower, ← h] at hbyte
    rw [or_token c (hk c hc) (.inr hbyte), hlower, h]

/-- The normal form stands for a name up to letter case, and the comparison agrees with it on tokens. -/
theorem normal_form_canonical :
    (∀ a b, normalizeHeaderKeyV2 a = normalizeHeaderKeyV2 b ↔ SameName a b) ∧
    (∀ a, normalizeHeaderKeyV2 (normalizeHeaderKeyV2 a) = normalizeHeaderKeyV2 a ∧ (normalizeHeaderKeyV2 a).length = a.length) ∧
    ∀ a name, (∀ c ∈ a, validHeaderFieldByte c = true) → (∀ c ∈ name, isNameByte c = true) →
      (caseInsensitiveCompare a name = true ↔ normalizeHeaderKeyV2 a = normalizeHeaderKeyV2 name) := by
  refine ⟨fun a b => normalizeHeaderKeyV2_eq_iff, fun a => ⟨normalizeHeaderKeyV2_idem a, normalizeHeaderKeyV2_length a⟩, ?_⟩
  intro a name ha hname
  rw [normalizeHeaderKeyV2_eq_iff]
  exact caseInsensitiveCompare_token ha hname

theorem normal_form_canonical_host : caseInsensitiveCompare (ascii "x-hOST-1") (ascii "X-Host-1") = true ↔
    normalizeHeaderKeyV2 (ascii "x-hOST-1") = normalizeHeaderKeyV2 (ascii "X-Host-1") :=
  normal_form_canonical.2.2 _ _ (by decide +kernel) (by decide +kernel)

end Fasthttp
