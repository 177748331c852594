import Fasthttp.Header.Case
import Fasthttp.Lib.FirstIndex

/-!
# Forbidden trailers

What `isBadTrailer` finds, and what `AddTrailerBytes` of a request and of a response therefore records.
-/

namespace Fasthttp

open List

variable {d : Bool} {f k : Bytes}

def forbiddenTrailers : List Bytes :=
  [strAuthorization, strContentEncoding, strContentLength, strContentType, strContentRange, strConnection, strExpect, strHost,
    ascii "Keep-Alive", strMaxForwards, strProxyConnection, strProxyAuthenticate, strProxyAuthorization, strRange, strTE, strTrailer,
    strTransferEncoding, strWWWAuthenticate]

def Forbidden (k : Bytes) : Prop := ∃ f ∈ forbiddenTrailers, SameName k f

instance (k : Bytes) : Decidable (Forbidden k) := inferInstanceAs (Decidable (∃ f ∈ _, _))

def comparedTrailers : List Bytes :=
  [strAuthorization, strContentEncoding, strContentLength, strContentRange, strConnection, strExpect, strHost, strKeepAlive,
    strMaxForwards, strProxyAuthenticate, strProxyAuthorization, strRange, strTE, strTrailer, strTransferEncoding, strWWWAuthenticate]

/-! ## The classifier -/

def foldByte (disableNormalize : Bool) (c : Byte) : Byte := if disableNormalize then c ||| 32 else c

theorem headNameCompare_iff (a b : Bytes) (d : Bool) : headNameCompare a b d = true ↔ a.map (foldByte d) = b.map (foldByte d) := by
  cases d with
  | false =>
    have hid : foldByte false = id := rfl
    simp [headNameCompare, hid]
  | true =>
    have hor : foldByte true = (· ||| 32) := rfl
    simp [headNameCompare, caseInsensitiveCompare, hor]

theorem or_of_foldByte {a b : Byte} (h : foldByte d a = foldByte d b) : a ||| 32 = b ||| 32 := by
  cases d with
  | false => exact congrArg (· ||| 32) h
  | true => exact h

theorem first_of_map_eq {x : Byte} (h : k.map (foldByte d) = f.map (foldByte d))
    (hf : f.head?.map (· ||| 32) = some x) : ∃ c t, k = c :: t ∧ c ||| 32 = x := by
  cases f with
  | nil => cases hf
  | cons y f =>
    cases k with
    | nil => cases h
    | cons c t =>
      rw [map_cons, map_cons, List.cons.injEq] at h
      exact ⟨c, t, rfl, (or_of_foldByte h.1).trans (Option.some.inj hf)⟩

theorem parts_of_map_eq (h : k.map (foldByte d) = f.map (foldByte d)) (short : Bytes) (n : Nat)
    (hlen : short.length < f.length) (hpre : f.take n = short.take n) :
    (decide (short.length < k.length) && headNameCompare (k.take n) (short.take n) d) = true ∧
      headNameCompare (k.drop n) (f.drop n) d = true := by
  have hk : k.length = f.length := by simpa using congrArg List.length h
  have htake : (k.take n).map (foldByte d) = (short.take n).map (foldByte d) := by rw [← hpre, map_take, map_take, h]
  have hdrop : (k.drop n).map (foldByte d) = (f.drop n).map (foldByte d) := by rw [map_drop, map_drop, h]
  rw [Bool.and_eq_true, decide_eq_true_iff, headNameCompare_iff, headNameCompare_iff]
  exact ⟨⟨by omega, htake⟩, hdrop⟩

theorem isBadTrailer_of_compared (hf : f ∈ comparedTrailers) (h : k.map (foldByte d) = f.map (foldByte d)) :
    isBadTrailer k d = true := by
  have hcompare : headNameCompare k f d = true := (headNameCompare_iff k f d).mpr h
  have hgroups : ∀ f ∈ comparedTrailers, f ∈ [strContentEncoding, strContentLength, strContentRange] ∨
      f ∈ [strProxyAuthenticate, strProxyAuthorization] ∨ f = strConnection ∨ f ∈ [strAuthorization, strExpect, strHost, strKeepAlive,
        strMaxForwards, strRange, strTE, strTrailer, strTransferEncoding, strWWWAuthenticate] := by decide
  have hgroup := hgroups f hf
  simp only [mem_cons, not_mem_nil, or_false] at hgroup
  rcases hgroup with hcontent | hproxy | rfl | hwhole
  · rcases hcontent with rfl | rfl | rfl <;>
    · obtain ⟨c, t, rfl, hc⟩ := first_of_map_eq (x := ch 'c') h (by decide)
      obtain ⟨hpre, hrest⟩ := parts_of_map_eq h strContentType 8 (by decide) (by decide)
      simp +decide only [isBadTrailer, hc, if_true, if_false, hpre, hrest, Bool.true_or, Bool.or_true]
  · rcases hproxy with rfl | rfl <;>
    · obtain ⟨c, t, rfl, hc⟩ := first_of_map_eq (x := ch 'p') h (by decide)
      obtain ⟨hpre, hrest⟩ := parts_of_map_eq h strProxyConnection 6 (by decide) (by decide)
      simp +decide only [isBadTrailer, hc, if_false, hpre, hrest, Bool.true_or, Bool.or_true]
  · obtain ⟨c, t, rfl, hc⟩ := first_of_map_eq (x := ch 'c') h (by decide)
    have hlen : (c :: t).length = strConnection.length := by simpa using congrArg List.length h
    have hshort : ¬ strContentType.length < (c :: t).length := by rw [hlen]; decide
    simp +decide only [isBadTrailer, hc, if_false, hshort, decide_false, Bool.false_and, hcompare]
  · rcases hwhole with rfl | rfl | rfl | rfl | rfl | rfl | rfl | rfl | rfl | rfl <;>
    · obtain ⟨c, t, rfl, hc⟩ := first_of_map_eq h rfl
      simp +decide [isBadTrailer, hc, hcompare]

theorem of_ite_true {c : Prop} [Decidable c] {x y : Bool} {P : Prop} (hx : c → x = true → P) (hy : y = true → P) :
    (if c then x else y) = true → P := by
  split
  · exact hx ‹c›
  · exact hy

theorem compared_of_isBadTrailer {c : Byte} {t : Bytes} (h : isBadTrailer (c :: t) d = true) :
    ∃ f ∈ comparedTrailers, (c :: t).map (foldByte d) = f.map (foldByte d) := by
  have found (f : Bytes) (hf : f ∈ comparedTrailers) (hc : headNameCompare (c :: t) f d = true) :
      ∃ f ∈ comparedTrailers, (c :: t).map (foldByte d) = f.map (foldByte d) := ⟨f, hf, (headNameCompare_iff _ f d).mp hc⟩
  have parts (short f : Bytes) (n : Nat) (hf : f ∈ comparedTrailers) (hpre : f.take n = short.take n)
      (hn : (decide (short.length < (c :: t).length) && headNameCompare ((c :: t).take n) (short.take n) d) = true)
      (hc : headNameCompare ((c :: t).drop n) (f.drop n) d = true) :
      ∃ f ∈ comparedTrailers, (c :: t).map (foldByte d) = f.map (foldByte d) := by
    rw [Bool.and_eq_true, headNameCompare_iff, ← hpre] at hn
    refine ⟨f, hf, ?_⟩
    rw [← take_append_drop n (c :: t), ← take_append_drop n f, map_append, map_append, hn.2, (headNameCompare_iff _ _ d).mp hc]
  -- the name that has the length itself
  have unreached (short : Bytes) (n : Nat) (hlen : n ≤ short.length)
      (hn : (decide (short.length < (c :: t).length) && headNameCompare ((c :: t).take n) (short.take n) d) = true)
      (hc : headNameCompare ((c :: t).drop n) (short.drop n) d = true) : False := by
    rw [Bool.and_eq_true, decide_eq_true_iff] at hn
    have hdrop := congrArg List.length ((headNameCompare_iff _ _ d).mp hc)
    simp only [length_map, length_drop] at hdrop
    omega
  revert h
  refine of_ite_true (fun _ => found strAuthorization (by decide)) ?_
  refine of_ite_true (fun _ => of_ite_true (fun hn hc => ?_) (found strConnection (by decide))) ?_
  · simp only [Bool.or_eq_true] at hc
    rcases hc with ((hc | hc) | hc) | hc
    · exact parts strContentType strContentEncoding 8 (by decide) (by decide) hn hc
    · exact parts strContentType strContentLength 8 (by decide) (by decide) hn hc
    · exact (unreached strContentType 8 (by decide) hn hc).elim
    · exact parts strContentType strContentRange 8 (by decide) (by decide) hn hc
  refine of_ite_true (fun _ => found strExpect (by decide)) (of_ite_true (fun _ => found strHost (by decide)) ?_)
  refine of_ite_true (fun _ => found strKeepAlive (by decide)) (of_ite_true (fun _ => found strMaxForwards (by decide)) ?_)
  refine of_ite_true (fun _ => of_ite_true (fun hn hc => ?_) (by simp)) ?_
  · simp only [Bool.or_eq_true] at hc
    rcases hc with (hc | hc) | hc
    · exact (unreached strProxyConnection 6 (by decide) hn hc).elim
    · exact parts strProxyConnection strProxyAuthenticate 6 (by decide) (by decide) hn hc
    · exact parts strProxyConnection strProxyAuthorization 6 (by decide) (by decide) hn hc
  refine of_ite_true (fun _ => found strRange (by decide)) (of_ite_true (fun _ hc => ?_) ?_)
  · simp only [Bool.or_eq_true] at hc
    rcases hc with (hc | hc) | hc
    · exact found strTE (by decide) hc
    · exact found strTrailer (by decide) hc
    · exact found strTransferEncoding (by decide) hc
  · exact of_ite_true (fun _ => found strWWWAuthenticate (by decide)) (by simp)

theorem isBadTrailer_iff (k : Bytes) (d : Bool) :
    isBadTrailer k d = true ↔ k = [] ∨ ∃ f ∈ comparedTrailers, k.map (foldByte d) = f.map (foldByte d) := by
  constructor
  · intro h
    cases k with
    | nil => exact .inl rfl
    | cons c t => exact .inr (compared_of_isBadTrailer h)
  · rintro (rfl | ⟨f, hf, h⟩)
    · rfl
    · exact isBadTrailer_of_compared hf h

/-! ## What each of the callers rejects -/

/-- The check of `AddTrailerBytes`: a request puts the name into its normal form before it -/
def rejectsTrailer (request disableNormalizing : Bool) (k : Bytes) : Bool :=
  isBadTrailer (if request then initHeaderK k disableNormalizing else k) disableNormalizing

/-- The names that a request with normalised names compares in another spelling, or not at all -/
def missedTrailers : List Bytes := [strContentType, strProxyConnection, ascii "Keep-Alive", strTE, strWWWAuthenticate]

def Told (request disableNormalizing : Bool) (k : Bytes) : Prop :=
  match disableNormalizing, request with
  | true, _ =>
    ¬ SameName k strContentType ∧ ¬ SameName k strProxyConnection ∧
      (Forbidden k ∨ ∀ f ∈ comparedTrailers, ¬ SameName (k.map crToDash) f)
  | false, true => ∀ f ∈ missedTrailers, ¬ SameName k f
  | false, false => Forbidden k → k ∈ comparedTrailers

theorem found_iff_forbidden {found : List Bytes} (missed : List Bytes) (hfound : ∀ f ∈ found, Forbidden f)
    (hmissed : ∀ g ∈ missed, Forbidden g)
    (hcover : ∀ f ∈ forbiddenTrailers, (∃ g ∈ missed, SameName f g) ∨ ∃ f' ∈ found, SameName f f')
    (hapart : ∀ f ∈ found, ∀ g ∈ missed, ¬ SameName f g) (k : Bytes) :
    ((∃ f ∈ found, SameName k f) ↔ Forbidden k) ↔ ∀ g ∈ missed, ¬ SameName k g := by
  constructor
  · intro h g hg hk
    obtain ⟨f, hf, hsame⟩ := hmissed g hg
    obtain ⟨f', hf', hsame'⟩ := h.mpr ⟨f, hf, hk.trans hsame⟩
    exact hapart f' hf' g hg (hsame'.symm.trans hk)
  · intro h
    constructor
    · rintro ⟨f, hf, hk⟩
      obtain ⟨f', hf', hsame⟩ := hfound f hf
      exact ⟨f', hf', hk.trans hsame⟩
    · rintro ⟨f, hf, hk⟩
      rcases hcover f hf with ⟨g, hg, hsame⟩ | ⟨f', hf', hsame⟩
      · exact absurd (hk.trans hsame) (h g hg)
      · exact ⟨f', hf', hk.trans hsame⟩

theorem compared_forbidden : ∀ f ∈ comparedTrailers, Forbidden f := by decide +kernel

theorem compared_lettered : ∀ f ∈ comparedTrailers, Lettered f := by decide +kernel

theorem forbidden_lettered : ∀ f ∈ forbiddenTrailers, Lettered f := by decide +kernel

theorem told_iff_of_disabled (request : Bool) (hk : k ≠ []) :
    (rejectsTrailer request true k = true ↔ Forbidden k) ↔ Told request true k := by
  have hrejects : rejectsTrailer request true k = true ↔ ∃ f ∈ comparedTrailers, SameName (k.map crToDash) f := by
    have hkey : (if request then initHeaderK k true else k) = k := by cases request <;> rfl
    rw [rejectsTrailer, hkey, isBadTrailer_iff]
    simp only [hk, false_or]
    refine exists_congr fun f => and_congr_right fun hf => ?_
    rw [← headNameCompare_iff, ← caseInsensitiveCompare_iff (compared_lettered f hf)]
    rfl
  rw [hrejects]
  by_cases hforbidden : Forbidden k
  · -- no carriage return in it
    obtain ⟨f, hf, hsame⟩ := id hforbidden
    rw [map_crToDash (hsame.no_cr (forbidden_lettered f hf)),
      found_iff_forbidden [strContentType, strProxyConnection] compared_forbidden (by decide +kernel) (by decide +kernel)
        (by decide +kernel)]
    simp [Told, hforbidden]
  · have hct : ¬ SameName k strContentType := fun h => hforbidden ⟨_, by decide, h⟩
    have hpc : ¬ SameName k strProxyConnection := fun h => hforbidden ⟨_, by decide, h⟩
    simp [Told, hforbidden, hct, hpc]

theorem told_iff_of_request (hk : k ≠ []) : (rejectsTrailer true false k = true ↔ Forbidden k) ↔ Told true false k := by
  have hrejects : rejectsTrailer true false k = true ↔
      ∃ f ∈ comparedTrailers.filter (fun f => normalizeHeaderKeyV2 f = f), SameName k f := by
    have hne : normalizeHeaderKeyV2 k ≠ [] := by
      cases k with
      | nil => exact absurd rfl hk
      | cons c k => simp [normalizeHeaderKeyV2]
    have hid : foldByte false = id := rfl
    rw [rejectsTrailer, isBadTrailer_iff]
    simp only [initHeaderK, Bool.false_eq_true, if_true, if_false, hne, false_or, hid, map_id, mem_filter, decide_eq_true_iff]
    constructor
    · rintro ⟨f, hf, rfl⟩
      exact ⟨_, ⟨hf, normalizeHeaderKeyV2_idem k⟩, (normalizeHeaderKeyV2_lower k).symm⟩
    · rintro ⟨f, ⟨hf, hnormal⟩, hsame⟩
      exact ⟨f, hf, (normalizeHeaderKeyV2_eq_iff.mpr hsame).trans hnormal⟩
  rw [hrejects]
  exact found_iff_forbidden missedTrailers (fun f hf => compared_forbidden f (mem_of_mem_filter hf)) (by decide +kernel)
    (by decide +kernel) (by decide +kernel) k

theorem told_iff_of_response (hk : k ≠ []) : (rejectsTrailer false false k = true ↔ Forbidden k) ↔ Told false false k := by
  have hrejects : rejectsTrailer false false k = true ↔ k ∈ comparedTrailers := by
    have hid : foldByte false = id := rfl
    simp [rejectsTrailer, isBadTrailer_iff, hk, hid]
  rw [hrejects]
  exact ⟨fun h => h.mpr, fun h => ⟨compared_forbidden k, h⟩⟩

theorem told_iff (request d : Bool) (hk : k ≠ []) : (rejectsTrailer request d k = true ↔ Forbidden k) ↔ Told request d k := by
  cases d with
  | true => exact told_iff_of_disabled request hk
  | false =>
    cases request with
    | true => exact told_iff_of_request hk
    | false => exact told_iff_of_response hk

/-! ## Lists of names -/

structure ListedName where
  before : Nat
  name : Bytes
  after : Nat
  ne_nil : name ≠ []
  no_comma : ch ',' ∉ name
  head : name.head? ≠ some spChar
  last : name.getLast? ≠ some spChar

namespace ListedName

def text (x : ListedName) : Bytes := List.replicate x.before spChar ++ x.name ++ List.replicate x.after spChar

def joined : List ListedName → Bytes
  | [] => []
  | [x] => x.text
  | x :: y :: xs => x.text ++ ch ',' :: joined (y :: xs)

theorem dropWhile_spaces (n : Nat) {b : Bytes} (h : b.head? ≠ some spChar) :
    (List.replicate n spChar ++ b).dropWhile (· = spChar) = b := by
  induction n with
  | zero =>
    cases b with
    | nil => rfl
    | cons c b =>
      have hc : c ≠ spChar := by simpa using h
      simp [hc]
  | succ n ih => simpa [replicate_succ] using ih

theorem stripSpace_text (x : ListedName) : stripSpace x.text = x.name := by
  have hne : (x.name ++ List.replicate x.after spChar).head? = x.name.head? := by
    rw [head?_append_of_ne_nil _ x.ne_nil]
  have hlast : x.name.reverse.head? ≠ some spChar := by
    rw [head?_reverse]
    exact x.last
  rw [stripSpace, text, append_assoc, dropWhile_spaces _ (by rw [hne]; exact x.head), reverse_append, reverse_replicate,
    dropWhile_spaces _ hlast, reverse_reverse]

theorem no_comma_text (x : ListedName) : ch ',' ∉ x.text := by
  have hne : ch ',' ≠ spChar := by decide
  simp [text, x.no_comma, hne]

theorem text_ne_nil (x : ListedName) : x.text ≠ [] := by
  simp [text, x.ne_nil]

theorem commaList_joined (xs : List ListedName) {fuel : Nat} (hfuel : xs.length < fuel) :
    commaList fuel (joined xs) = xs.map name := by
  induction xs generalizing fuel with
  | nil =>
    obtain ⟨fuel, rfl⟩ := Nat.exists_eq_add_one_of_ne_zero (Nat.ne_of_gt hfuel)
    rfl
  | cons x xs ih =>
    obtain ⟨fuel, rfl⟩ := Nat.exists_eq_add_one_of_ne_zero (Nat.ne_of_gt (Nat.zero_lt_of_lt hfuel))
    cases xs with
    | nil =>
      have hnone : indexByte x.text (ch ',') = none := List.idxOf?_eq_none_iff.mpr x.no_comma_text
      simp [commaList, joined, x.text_ne_nil, hnone, stripSpace_text]
    | cons y xs =>
      have hcut : indexByte (x.text ++ ch ',' :: joined (y :: xs)) (ch ',') = some x.text.length :=
        FirstIndex.idxOf?_append_cons _ _ _ x.no_comma_text
      have hrest := ih (Nat.lt_of_succ_lt_succ hfuel)
      rw [commaList, joined, hcut]
      simp [stripSpace_text, hrest]

theorem length_lt_joined (xs : List ListedName) : xs.length < (joined xs).length + 1 := by
  induction xs with
  | nil => simp
  | cons x xs ih =>
    have hx := length_pos_iff.mpr x.text_ne_nil
    cases xs with
    | nil => simpa [joined] using hx
    | cons y xs =>
      simp only [joined, length_append, length_cons] at ih ⊢
      omega

end ListedName

/-- The names that are not forbidden are recorded, and there is an error exactly if one is forbidden. -/
structure RecordsAllowed (disableNormalizing : Bool) (trailer : List ArgsKV) (names : List Bytes)
    (r : List ArgsKV × Option Err) : Prop where
  recorded : r.1 = trailer ++ (names.filter fun k => ¬ Forbidden k).map fun k => ⟨initHeaderK k disableNormalizing, [], true⟩
  error : r.2.isSome = true ↔ ∃ k ∈ names, Forbidden k

theorem foldl_trailers (rejects : Bytes → Bool) (key : Bytes → Bytes) (e : Bytes → Err) (names : List Bytes)
    (t : List ArgsKV) (err : Option Err) :
    (names.foldl (fun (r : List ArgsKV × Option Err) k => if rejects k then
      (r.1, some (e k)) else (appendArg r.1 (key k) [] true, r.2))
      (t, err)).1 = t ++ (names.filter fun k => ¬ rejects k).map (fun k => ⟨key k, [], true⟩) ∧
    ((names.foldl (fun (r : List ArgsKV × Option Err) k => if rejects k then
      (r.1, some (e k)) else (appendArg r.1 (key k) [] true, r.2))
      (t, err)).2.isSome = true ↔ err.isSome = true ∨ ∃ k ∈ names, rejects k = true) := by
  induction names generalizing t err with
  | nil => simp
  | cons k names ih =>
    rw [foldl_cons]
    by_cases hk : rejects k = true
    · obtain ⟨hrec, herr⟩ := ih t (some (e k))
      simp only [if_pos hk] at hrec herr ⊢
      rw [hrec, herr]
      simp [hk]
    · obtain ⟨hrec, herr⟩ := ih (appendArg t (key k) [] true) err
      simp only [if_neg hk] at hrec herr ⊢
      rw [hrec, herr]
      simp [hk, appendArg]

theorem forbidden_of_rejects {request : Bool} (hk : k ≠ []) (h : rejectsTrailer request false k = true) : Forbidden k := by
  have hid : foldByte false = id := rfl
  cases request with
  | false => exact ((told_iff_of_response hk).mpr fun hf => by simpa [rejectsTrailer, isBadTrailer_iff, hk, hid] using h).mp h
  | true =>
    simp only [rejectsTrailer, isBadTrailer_iff, hid, map_id] at h
    rcases h with hnil | ⟨f, hf, heq⟩
    · have hlen := congrArg List.length hnil
      simp [initHeaderK, hk] at hlen
    · obtain ⟨f', hf', hsame⟩ := compared_forbidden f hf
      rw [← heq] at hsame
      exact ⟨f', hf', SameName.trans (initHeaderK_lower k false).symm hsame⟩

theorem filter_eq_of_length {α : Type} {p q : α → Bool} {l : List α} (hpq : ∀ x ∈ l, q x = true → p x = true)
    (hlen : (l.filter p).length = (l.filter q).length) : ∀ x ∈ l, p x = q x := by
  have hsub : l.filter q = (l.filter p).filter q := by
    rw [filter_filter]
    refine filter_congr fun x hx => ?_
    cases hq : q x with
    | false => simp
    | true => simp [hpq x hx hq]
  rw [hsub, eq_comm, length_filter_eq_length_iff] at hlen
  intro x hx
  cases hp : p x with
  | true => exact (hlen x (mem_filter.mpr ⟨hx, hp⟩)).symm
  | false =>
    cases hq : q x with
    | false => rfl
    | true => exact absurd (hpq x hx hq) (by simp [hp])

theorem recordsAllowed_iff {request : Bool} {t : List ArgsKV} {names : List Bytes} (hnames : ∀ k ∈ names, k ≠ [])
    {r : List ArgsKV × Option Err}
    (hrec : r.1 = t ++ (names.filter fun k => ¬ rejectsTrailer request d k).map fun k => ⟨initHeaderK k d, [], true⟩)
    (herr : r.2.isSome = true ↔ ∃ k ∈ names, rejectsTrailer request d k = true) :
    RecordsAllowed d t names r ↔ ∀ k ∈ names, Told request d k := by
  constructor
  · rintro ⟨hall, -⟩ k hk
    rw [hrec, append_cancel_left_eq] at hall
    have hsame : ∀ k ∈ names, (decide ¬ rejectsTrailer request d k = true) = decide ¬ Forbidden k := by
      cases d with
      | true =>
        -- the names are stored as they are
        have hinj : Function.Injective fun k : Bytes => (⟨initHeaderK k true, [], true⟩ : ArgsKV) := fun a b h => (ArgsKV.mk.inj h).1
        have hfilter := map_injective_iff.mpr hinj hall
        intro k hk
        have hmem : k ∈ names.filter (fun k => ¬ rejectsTrailer request true k) ↔
            k ∈ names.filter (fun k => ¬ Forbidden k) := by rw [hfilter]
        simp only [mem_filter, hk, true_and, decide_eq_true_iff] at hmem
        exact decide_eq_decide.mpr hmem
      | false =>
        refine filter_eq_of_length (fun k hk hq => ?_) (by simpa using congrArg List.length hall)
        have hno : ¬ Forbidden k := of_decide_eq_true hq
        exact decide_eq_true fun hr => hno (forbidden_of_rejects (hnames k hk) hr)
    rw [← told_iff request d (hnames k hk)]
    have hk' := hsame k hk
    rw [decide_eq_decide, not_iff_not] at hk'
    exact hk'
  · intro h
    have htold : ∀ k ∈ names, (rejectsTrailer request d k = true ↔ Forbidden k) :=
        fun k hk => (told_iff request d (hnames k hk)).mpr (h k hk)
    constructor
    · have hfilter : (names.filter fun k => ¬ rejectsTrailer request d k) = names.filter fun k => ¬ Forbidden k :=
        filter_congr fun k hk => decide_eq_decide.mpr (not_congr (htold k hk))
      rw [hrec, hfilter]
    · rw [herr]
      exact exists_congr fun k => and_congr_right (htold k)

/-- `AddTrailerBytes` of a request and of a response, with normalised names or not, for any list of names -/
theorem addTrailerBytes_iff (disableNormalizing : Bool) (trailer : List ArgsKV) (xs : List ListedName) :
    (RecordsAllowed disableNormalizing trailer (xs.map ListedName.name)
    (addRequestTrailer disableNormalizing trailer (ListedName.joined xs)) ↔
      ∀ x ∈ xs, Told true disableNormalizing x.name) ∧
    (RecordsAllowed disableNormalizing trailer (xs.map ListedName.name)
    (addResponseTrailer disableNormalizing trailer (ListedName.joined xs)) ↔
      ∀ x ∈ xs, Told false disableNormalizing x.name) := by
  have hnames : ∀ k ∈ xs.map ListedName.name, k ≠ [] := by
    intro k hk
    obtain ⟨x, -, rfl⟩ := mem_map.mp hk
    exact x.ne_nil
  have hlist := ListedName.commaList_joined xs (ListedName.length_lt_joined xs)
  constructor
  · rw [addRequestTrailer, hlist]
    obtain ⟨hrec, herr⟩ := foldl_trailers (rejectsTrailer true disableNormalizing) (initHeaderK · disableNormalizing)
      (fun k => .headerParse "bad trailer key" (initHeaderK k disableNormalizing)) (xs.map ListedName.name) trailer none
    rw [← forall_mem_map (P := Told true disableNormalizing)]
    exact recordsAllowed_iff hnames hrec (herr.trans (by simp))
  · rw [addResponseTrailer, hlist]
    obtain ⟨hrec, herr⟩ := foldl_trailers (rejectsTrailer false disableNormalizing) (initHeaderK · disableNormalizing)
      (fun _ => .badTrailer) (xs.map ListedName.name) trailer none
    rw [← forall_mem_map (P := Told false disableNormalizing)]
    exact recordsAllowed_iff hnames hrec (herr.trans (by simp))

/-- A response records the length of the body in small letters, and a request the type of the body,
the keep-alive header and the coding
that is accepted. -/
theorem addTrailerBytes_records_forbidden :
    Forbidden (ascii "content-length") ∧ addResponseTrailer false []
      (ascii "content-length") = ([⟨strContentLength, [], true⟩], none) ∧
    Forbidden strContentType ∧ addRequestTrailer true [] strContentType = ([⟨strContentType, [], true⟩], none) ∧
    Forbidden strTE ∧ addRequestTrailer false []
      (ascii "TE, Keep-Alive") = ([⟨ascii "Te", [], true⟩, ⟨ascii "Keep-Alive", [], true⟩], none) := by
  decide +kernel

end Fasthttp
