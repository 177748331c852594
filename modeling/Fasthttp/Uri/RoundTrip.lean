import Fasthttp.Uri.HostText
import Fasthttp.Uri.Normal

/-!
# Printed URIs

`Sound` is what holds of every URI that was parsed.
-/

namespace Fasthttp.Uri

open Segments List

variable {c : Byte} {s u : Bytes}

theorem no_ctl_iff : stringContainsCTLByte s = false ↔ ∀ c ∈ s, 32 ≤ c ∧ c ≠ 0x7f := by
  simp [stringContainsCTLByte]

theorem no_ctl_append {t : Bytes} : stringContainsCTLByte (s ++ t) = false ↔ stringContainsCTLByte s = false ∧
    stringContainsCTLByte t = false := by
  simp only [no_ctl_iff, forall_mem_append]

theorem no_ctl_of_subset {t : Bytes} (h : stringContainsCTLByte t = false) (hsub : s ⊆ t) : stringContainsCTLByte s = false :=
  no_ctl_iff.mpr fun c hc => no_ctl_iff.mp h c (hsub hc)

theorem no_ctl_marked (hc : 32 ≤ c ∧ c ≠ 0x7f) (h : stringContainsCTLByte s = false) :
    stringContainsCTLByte (if s ≠ [] then c :: s else []) = false := by
  split
  · exact no_ctl_iff.mpr (forall_mem_cons.mpr ⟨hc, no_ctl_iff.mp h⟩)
  · rfl

theorem no_ctl_lower (h : stringContainsCTLByte s = false) : stringContainsCTLByte (lowercaseBytes s) = false := by
  have hlower : ∀ c, 32 ≤ c ∧ c ≠ 0x7f → 32 ≤ toLowerTable c ∧ toLowerTable c ≠ 0x7f := forall_byte (by decide +kernel)
  exact no_ctl_iff.mpr (forall_mem_map.mpr fun c hc => hlower c (no_ctl_iff.mp h c hc))

/-! ## Query and fragment -/

theorem not_mem_of_indexByte {b : Bytes} (h : indexByte b c = none) : c ∉ b := by
  simpa [indexByte] using h

theorem drop_behind (l r : Bytes) (c : Byte) : (l ++ c :: r).drop (l.length + 1) = r := by simp

theorem splitQuery_eq (b : Bytes) :
    splitQuery b = (before (ch '?') (before (ch '#') b), Segments.behind (ch '?') (before (ch '#') b),
      Segments.behind (ch '#') b) := by
  unfold splitQuery
  rcases hq : indexByte b (ch '?') with _ | q <;> rcases hf : indexByte b (ch '#') with _ | f
  · have hq' := not_mem_of_indexByte hq
    have hf' := not_mem_of_indexByte hf
    simp [before_of_not_mem, behind_of_not_mem, hq', hf']
  · obtain ⟨w, z, rfl, hw, rfl⟩ := FirstIndex.idxOf?_cut hf
    have hq' : ch '?' ∉ w := fun h => not_mem_of_indexByte hq (mem_append_left _ h)
    simp [before_append_cons, behind_append_cons, before_of_not_mem, behind_of_not_mem, hw, hq']
  · obtain ⟨u, v, rfl, hu, rfl⟩ := FirstIndex.idxOf?_cut hq
    have hf' := not_mem_of_indexByte hf
    rw [before_of_not_mem hf', behind_of_not_mem hf', before_append_cons hu, behind_append_cons hu]
    simp
  · obtain ⟨u, v, rfl, hu, rfl⟩ := FirstIndex.idxOf?_cut hq
    obtain ⟨w, z, heq, hw, rfl⟩ := FirstIndex.idxOf?_cut hf
    rw [heq, before_append_cons hw, behind_append_cons hw]
    rcases append_eq_append_iff.mp heq with ⟨a, rfl, ha⟩ | ⟨a, rfl, ha⟩
    · -- the query comes first
      cases a with
      | nil => exact absurd (List.cons.inj ha).1 (by decide)
      | cons d a =>
        obtain rfl := (List.cons.inj ha).1
        rw [before_append_cons hu, behind_append_cons hu]
        simp only [take_left, drop_behind]
        simp
    · -- the query is in the fragment
      cases a with
      | nil => exact absurd (List.cons.inj ha).1 (by decide)
      | cons d a =>
        have hw' : ch '?' ∉ w := fun h => hu (mem_append_left _ h)
        rw [before_of_not_mem hw', behind_of_not_mem hw']
        simp

theorem splitQuery_glue {p q f : Bytes} (hp : ch '?' ∉ p) (hp' : ch '#' ∉ p) (hq : ch '#' ∉ q) :
    splitQuery (p ++ (if q ≠ [] then ch '?' :: q else []) ++ (if f ≠ [] then ch '#' :: f else [])) = (p, q, f) := by
  have hfront : ch '#' ∉ p ++ (if q ≠ [] then ch '?' :: q else []) := by
    split
    · simp only [mem_append, mem_cons, not_or]
      exact ⟨hp', by decide, hq⟩
    · simpa using hp'
  have hback : before (ch '?') (p ++ (if q ≠ [] then ch '?' :: q else [])) = p ∧
      Segments.behind (ch '?') (p ++ (if q ≠ [] then ch '?' :: q else [])) = q := by
    split
    · exact ⟨before_append_cons hp _, behind_append_cons hp _⟩
    · rename_i hnil
      rw [append_nil, before_of_not_mem hp, behind_of_not_mem hp]
      exact ⟨rfl, by simpa using hnil⟩
  rw [splitQuery_eq]
  by_cases hf : f = []
  · have hnone : (if f ≠ [] then ch '#' :: f else []) = [] := if_neg (by simpa using hf)
    rw [hnone, append_nil, before_of_not_mem hfront, behind_of_not_mem hfront, hback.1, hback.2, hf]
  · have hsome : (if f ≠ [] then ch '#' :: f else []) = ch '#' :: f := if_pos hf
    rw [hsome, before_append_cons hfront, behind_append_cons hfront, hback.1, hback.2]

/-! ## Quoted paths -/

def quoted (c : Byte) : Bytes := if quotedPathShouldEscapeTable c then quote c else [c]

theorem appendQuotedPath_rooted (p : Bytes) : appendQuotedPath (slash :: p) = (slash :: p).flatMap quoted := by
  rfl

theorem quoted_bytes : ∀ c : Byte, ∀ d ∈ quoted c, d ≠ ch '?' ∧ d ≠ ch '#' ∧ 32 ≤ d ∧ d ≠ 0x7f := forall_byte (by decide +kernel)

theorem quoted_cases : ∀ c : Byte, (quoted c = [c] ∧ c ≠ ch '%') ∨
    (quoted c = quote c ∧ hexOf (upperhex (c.toNat / 16)) = some (c.toNat / 16) ∧
      hexOf (upperhex (c.toNat % 16)) = some (c.toNat % 16)) :=
  forall_byte (by decide +kernel)

theorem percentDecode_quoted (c : Byte) (r : Bytes) : percentDecode (quoted c ++ r) = c :: percentDecode r := by
  rcases quoted_cases c with ⟨heq, hne⟩ | ⟨heq, hhigh, hlow⟩
  · rw [heq, singleton_append, percentDecode_cons hne]
  · rw [heq, quote]
    simp only [cons_append, nil_append]
    rw [percentDecode, hhigh, hlow]
    simp only [if_true]
    rw [Nat.div_add_mod, UInt8.ofNat_toNat]

theorem percentDecode_flatMap (p r : Bytes) : percentDecode (p.flatMap quoted ++ r) = p ++ percentDecode r := by
  induction p with
  | nil => rfl
  | cons c p ih => rw [flatMap_cons, append_assoc, percentDecode_quoted, ih, cons_append]

theorem quotedPath_bytes (p : Bytes) : ∀ d ∈ p.flatMap quoted, d ≠ ch '?' ∧ d ≠ ch '#' ∧ 32 ≤ d ∧ d ≠ 0x7f := by
  intro d hd
  obtain ⟨c, -, hc⟩ := mem_flatMap.mp hd
  exact quoted_bytes c d hc

theorem normalizePath_quoted (p : Bytes) : normalizePath ((cleanPath p).flatMap quoted) = cleanPath p := by
  have hdecode := percentDecode_flatMap (cleanPath p) []
  rw [append_nil, percentDecode.eq_2 [] (by simp), append_nil] at hdecode
  rw [normalizePath_clean, hdecode, cleanPath_cleanPath]

/-! ## What was parsed -/

structure Sound (u : URI) : Prop where
  scheme_slash : slash ∉ u.schemeValue
  scheme_ctl : stringContainsCTLByte u.schemeValue = false
  scheme_lower : lowercaseBytes u.schemeValue = u.schemeValue
  host : HostShape u.host
  host_lower : lowercaseBytes u.host = u.host
  path : ∃ p, u.path = cleanPath p
  query_ctl : stringContainsCTLByte u.queryString = false
  query_hash : ch '#' ∉ u.queryString
  hash_ctl : stringContainsCTLByte u.hash = false
  args : u.parsedQueryArgs = false
  normalizing : u.disablePathNormalizing = false

theorem lowercase_lowercase (s : Bytes) : lowercaseBytes (lowercaseBytes s) = lowercaseBytes s := by
  have htwice : ∀ c, toLowerTable (toLowerTable c) = toLowerTable c := forall_byte (by decide +kernel)
  simp [lowercaseBytes, htwice]

theorem slash_not_mem_lower (h : slash ∉ s) : slash ∉ lowercaseBytes s := by
  intro hmem
  obtain ⟨c, hc, hlower⟩ := mem_map.mp hmem
  rw [eq_of_toLowerTable (by decide) hlower] at hc
  exact h hc

theorem splitHostURI_from (host uri : Bytes) :
    slash ∉ (splitHostURI host uri).1 ∧ (splitHostURI host uri).1 ⊆ strHTTP ++ uri ∧
      (splitHostURI host uri).2.2 ⊆ strSlash ++ uri := by
  have htext : slash ∉ strHTTP ∧ strHTTP ⊆ strHTTP ++ uri ∧ uri ⊆ strSlash ++ uri := ⟨by decide, by simp, by simp⟩
  unfold splitHostURI
  split
  · exact htext
  · rename_i n hn
    simp only
    split
    · exact htext
    · rename_i hslash
      have hscheme : slash ∉ uri.take n := by simpa [indexByte] using hslash
      have hshort : (if (uri.take n).getLast? = some (ch ':') then (uri.take n).dropLast else uri.take n) ⊆ uri.take n := by
        split
        · exact dropLast_subset _
        · exact List.Subset.refl _
      have hsub : uri.take n ⊆ strHTTP ++ uri := fun c hc => mem_append_right _ (mem_of_mem_take hc)
      have hrest (m : Nat) : (uri.drop (n + 2)).drop m ⊆ strSlash ++ uri :=
        fun c hc => mem_append_right _ (mem_of_mem_drop (mem_of_mem_drop hc))
      have hall (r : Bytes) (hr : r ⊆ strSlash ++ uri) :
          slash ∉ (if (uri.take n).getLast? = some (ch ':') then (uri.take n).dropLast else uri.take n) ∧
            (if (uri.take n).getLast? = some (ch ':') then (uri.take n).dropLast else uri.take n) ⊆ strHTTP ++ uri ∧
              r ⊆ strSlash ++ uri :=
        ⟨fun h => hscheme (hshort h), List.Subset.trans hshort hsub, hr⟩
      split
      · split
        · exact hall _ (hrest _)
        · exact hall _ (hrest _)
      · exact hall _ (hrest _)
      · exact hall _ (hrest _)
      · exact hall _ (by simp)

theorem split_from (host uri : Bytes) :
    slash ∉ (split host uri).1 ∧ (split host uri).1 ⊆ strHTTP ++ uri ∧ (split host uri).2.2 ⊆ strSlash ++ uri := by
  unfold split
  split
  · exact splitHostURI_from host uri
  · exact ⟨by simp, by simp, by simp⟩

theorem before_subset (x : Byte) (l : Bytes) : before x l ⊆ l := (takeWhile_sublist _).subset

theorem behind_subset (x : Byte) (l : Bytes) : Segments.behind x l ⊆ l :=
  fun _ hc => (dropWhile_sublist _).subset (mem_of_mem_tail hc)

theorem not_mem_before (x : Byte) (l : Bytes) : x ∉ before x l := by
  intro hmem
  have hall : decide (x ≠ x) = true := all_eq_true.mp all_takeWhile x hmem
  simp at hall

theorem parse_sound {host uri : Bytes} {isTLS : Bool} (h : (parse host uri isTLS).1 = none) : Sound (parse host uri isTLS).2 := by
  have hshape := parse_shape h
  obtain ⟨hctl, name, -, hu⟩ := parse_ok h
  rw [hu] at hshape ⊢
  obtain ⟨hslash, hscheme, hrest⟩ := split_from host uri
  have hctl₁ : stringContainsCTLByte (split host uri).1 = false := no_ctl_of_subset (no_ctl_append.mpr ⟨by decide, hctl⟩) hscheme
  have hctl₂ : stringContainsCTLByte (split host uri).2.2 = false := no_ctl_of_subset (no_ctl_append.mpr ⟨by decide, hctl⟩) hrest
  rw [splitQuery_eq]
  generalize hs : (if isTLS then strHTTPS else lowercaseBytes (split host uri).1) = scheme
  have hgood : slash ∉ scheme ∧ stringContainsCTLByte scheme = false ∧ lowercaseBytes scheme = scheme := by
    rw [← hs]
    split
    · decide
    · exact ⟨slash_not_mem_lower hslash, no_ctl_lower hctl₁, lowercase_lowercase _⟩
  have hvalue : slash ∉ (if scheme = [] then strHTTP else scheme) ∧
      stringContainsCTLByte (if scheme = [] then strHTTP else scheme) = false ∧
      lowercaseBytes (if scheme = [] then strHTTP else scheme) = if scheme = [] then strHTTP else scheme := by
    split
    · decide
    · exact hgood
  exact {
    scheme_slash := hvalue.1
    scheme_ctl := hvalue.2.1
    scheme_lower := hvalue.2.2
    host := hshape
    host_lower := lowercase_lowercase name
    path := ⟨_, normalizePath_clean _⟩
    query_ctl := no_ctl_of_subset hctl₂ fun _ hc => before_subset _ _ (behind_subset _ _ hc)
    query_hash := fun hmem => not_mem_before _ _ (behind_subset _ _ hmem)
    hash_ctl := no_ctl_of_subset hctl₂ (behind_subset _ _)
    args := rfl
    normalizing := rfl }

/-! ## Parsing a host again -/

theorem checkEscapes_plain {mode : Encoding} (hbytes : ∀ c ∈ s, HostByte c) (hpercent : ch '%' ∉ s) : checkEscapes mode s = none := by
  induction s with
  | nil => rfl
  | cons c s ih =>
    obtain ⟨hc, hs⟩ := forall_mem_cons.mp hbytes
    simp only [mem_cons, not_or] at hpercent
    have hplain : ¬ (c < 0x80 ∧ shouldEscape c = true) := fun h => by simp [hc h.1] at h
    unfold checkEscapes
    rw [if_neg (Ne.symm hpercent.1), if_neg hplain]
    exact ih hs hpercent.2

theorem unescapeBytes_plain (hpercent : ch '%' ∉ s) : unescapeBytes s = s := by
  induction s with
  | nil => rfl
  | cons c s ih =>
    simp only [mem_cons, not_or] at hpercent
    rw [unescapeBytes_cons (Ne.symm hpercent.1), ih hpercent.2]

theorem unescape_plain {mode : Encoding} (hbytes : ∀ c ∈ s, PlainByte c) (hpercent : ch '%' ∉ s) : unescape s mode = .ok s := by
  have hhost : ∀ c ∈ s, HostByte c := by
    intro c hc hlow
    rcases hbytes c hc hlow with h | rfl
    · exact h
    · exact absurd hc hpercent
  rw [unescape, checkEscapes_plain hhost hpercent]
  exact congrArg Except.ok (unescapeBytes_plain hpercent)

theorem lastIndexByte_append_cons {v : Bytes} (hv : c ∉ v) (u : Bytes) : lastIndexByte (u ++ c :: v) c = some u.length := by
  have hrev : (u ++ c :: v).reverse = v.reverse ++ c :: u.reverse := by simp
  rw [lastIndexByte, hrev, FirstIndex.idxOf?_append_cons c _ _ (by simpa using hv)]
  simp only [length_append, length_cons, length_reverse, Option.map_some, Option.some.injEq]
  omega

theorem validOptionalPort_digits {ds : Bytes} (h : ∀ c ∈ ds, isDigit c = true) : validOptionalPort (ch ':' :: ds) = true := by
  simpa [validOptionalPort] using h

theorem parseHost_parsed {h : Bytes} (hs : HostShape h) (hpercent : ch '%' ∉ h) : parseHost h = .ok h := by
  have hplain : ∀ c ∈ h, PlainByte c := by
    intro c hc
    refine (hs.bytes c hc).resolve_right ?_
    rintro rfl
    obtain ⟨l, r, he⟩ := append_of_mem hc
    exact hpercent (by rw [he]; exact mem_append_left _ (hs.space he).2.1)
  have hself : unescape h .host = .ok h := unescape_plain hplain hpercent
  unfold parseHost
  cases hs with
  | zone => simp at hpercent
  | @bracket addr port haddr hport =>
    have hfind : find strPercent25 (ch '[' :: addr) = none := find_of_not_mem (fun h => hpercent (mem_append_left _ h)) _
    rw [lastIndexByte_append_cons (bracket_not_mem_port hport)]
    simp only [drop_behind, hport, take_left, hfind]
    exact hself
  | name _ hstart hport =>
    rw [if_neg hstart]
    split
    · rename_i i hi
      obtain ⟨l, r, rfl, hr, rfl⟩ := lastIndexByte_last hi
      rw [drop_left, validOptionalPort_digits (hport l r rfl hr)]
      exact hself
    · exact hself

/-! ## Parsing a URI again -/

def inHost (c : Byte) : Bool := c ≠ slash && c ≠ ch '?'

def authority (rest : Bytes) : Bytes := rest.takeWhile inHost

def target (rest : Bytes) : Bytes :=
  let b := rest.dropWhile inHost
  if b = [] then strSlash else b

def withoutColon (scheme : Bytes) : Bytes := if scheme.getLast? = some (ch ':') then scheme.dropLast else scheme

theorem authority_all (hslash : slash ∉ u) (hquery : ch '?' ∉ u) : ∀ c ∈ u, inHost c = true := by
  intro c hc
  simp only [inHost, Bool.and_eq_true, decide_eq_true_eq]
  exact ⟨fun he => hslash (he ▸ hc), fun he => hquery (he ▸ hc)⟩

theorem authority_cut {v : Bytes} (hslash : slash ∉ u) (hquery : ch '?' ∉ u) (hc : c = slash ∨ c = ch '?') :
    authority (u ++ c :: v) = u ∧ target (u ++ c :: v) = c :: v := by
  have hall := authority_all hslash hquery
  have hstop : ¬ inHost c = true := by
    rcases hc with rfl | rfl
    · decide
    · decide
  rw [authority, target, takeWhile_append_of_pos hall, takeWhile_cons_of_neg hstop, dropWhile_append_of_pos hall,
    dropWhile_cons_of_neg hstop]
  simp

theorem authority_whole (hslash : slash ∉ u) (hquery : ch '?' ∉ u) : authority u = u ∧ target u = strSlash := by
  have hall := authority_all hslash hquery
  have htake : (u ++ []).takeWhile inHost = u ++ [].takeWhile inHost := takeWhile_append_of_pos hall
  have hdrop : (u ++ []).dropWhile inHost = [].dropWhile inHost := dropWhile_append_of_pos hall
  rw [append_nil] at htake hdrop
  rw [authority, target, htake, hdrop]
  simp

theorem find_slashes (hs : slash ∉ s) (rest : Bytes) : find strSlashSlash (s ++ slash :: slash :: rest) = some s.length := by
  have hskip := find_skip hs [slash] (slash :: slash :: rest)
  have hstart : find [slash, slash] (slash :: slash :: rest) = some 0 := find_start ⟨rest, rfl⟩ (by simp)
  rw [hstart, Option.map_some, Nat.zero_add] at hskip
  exact hskip

theorem splitHostURI_slashes (hs : slash ∉ s) (given rest : Bytes) :
    splitHostURI given (s ++ slash :: slash :: rest) = (withoutColon s, authority rest, target rest) := by
  have hnone : indexByte s slash = none := by simpa [indexByte] using hs
  have hdrop : (s ++ slash :: slash :: rest).drop (s.length + 2) = rest := by simp
  rw [splitHostURI, find_slashes hs]
  simp only [take_left, hnone, hdrop]
  rcases hn : indexByte rest slash with _ | n <;> rcases hq : indexByte rest (ch '?') with _ | q
  · have hcut := authority_whole (not_mem_of_indexByte hn) (not_mem_of_indexByte hq)
    rw [hcut.1, hcut.2]
    rfl
  · obtain ⟨u, v, rfl, hu, rfl⟩ := FirstIndex.idxOf?_cut hq
    have hcut : authority (u ++ ch '?' :: v) = u ∧ target (u ++ ch '?' :: v) = ch '?' :: v :=
      authority_cut (fun h => not_mem_of_indexByte hn (mem_append_left _ h)) hu (.inr rfl)
    rw [hcut.1, hcut.2]
    simp [withoutColon]
  · obtain ⟨u, v, rfl, hu, rfl⟩ := FirstIndex.idxOf?_cut hn
    have hcut : authority (u ++ slash :: v) = u ∧ target (u ++ slash :: v) = slash :: v :=
      authority_cut hu (fun h => not_mem_of_indexByte hq (mem_append_left _ h)) (.inl rfl)
    rw [hcut.1, hcut.2]
    simp [withoutColon]
  · obtain ⟨u, v, rfl, hu, rfl⟩ := FirstIndex.idxOf?_cut hn
    obtain ⟨w, z, heq, hw, rfl⟩ := FirstIndex.idxOf?_cut hq
    rcases append_eq_append_iff.mp heq with ⟨a, rfl, ha⟩ | ⟨a, rfl, ha⟩
    · -- the slash comes first
      have hcut : authority (u ++ slash :: v) = u ∧ target (u ++ slash :: v) = slash :: v :=
        authority_cut hu (fun h => hw (mem_append_left _ h)) (.inl rfl)
      have hfirst : ¬ (u ++ a).length < u.length := by simp
      rw [hcut.1, hcut.2]
      simp only [hfirst, take_left, drop_left]
      rfl
    · -- the question mark comes first
      cases a with
      | nil => exact absurd (List.cons.inj ha).1 (by decide)
      | cons d a =>
        have hcut : authority (w ++ ch '?' :: z) = w ∧ target (w ++ ch '?' :: z) = ch '?' :: z :=
          authority_cut (fun h => hu (mem_append_left _ h)) hw (.inr rfl)
        have hfirst : w.length < (w ++ d :: a).length := by simp
        rw [heq, hcut.1, hcut.2]
        simp only [hfirst, take_left, drop_left]
        rfl

theorem splitHostURI_full {scheme host : Bytes} (hscheme : slash ∉ scheme) (hhost : slash ∉ host) (hquery : ch '?' ∉ host)
    (given rest : Bytes) :
    splitHostURI given (scheme ++ strColonSlashSlash ++ host ++ slash :: rest) = (scheme, host, slash :: rest) := by
  have hmark : strColonSlashSlash = [ch ':', slash, slash] := by decide
  have htext : scheme ++ strColonSlashSlash ++ host ++ slash :: rest =
      (scheme ++ [ch ':']) ++ slash :: slash :: (host ++ slash :: rest) := by
    simp [hmark]
  have hfront : slash ∉ scheme ++ [ch ':'] := by
    simp only [mem_append, not_or]
    exact ⟨hscheme, by decide⟩
  have hcut : authority (host ++ slash :: rest) = host ∧ target (host ++ slash :: rest) = slash :: rest :=
    authority_cut hhost hquery (.inl rfl)
  rw [htext, splitHostURI_slashes hfront, hcut.1, hcut.2, withoutColon, getLast?_concat, if_pos rfl, dropLast_concat]

theorem Sound.parse_schemeHost {u : URI} (hu : Sound u) (hpercent : ch '%' ∉ u.host) {rest : Bytes}
    (hctl : stringContainsCTLByte (slash :: rest) = false) :
    Parse [] (u.appendSchemeHost ++ slash :: rest) =
      (none, { URI.zero with
        scheme := u.schemeValue
        host := u.host
        pathOriginal := (splitQuery (slash :: rest)).1
        path := normalizePath (splitQuery (slash :: rest)).1
        queryString := (splitQuery (slash :: rest)).2.1
        hash := (splitQuery (slash :: rest)).2.2 }) := by
  have hhost := hu.host.no_delimiter
  have hnot {c : Byte} (hc : c ∈ ascii "/\\?#@") : c ∉ u.host := fun hmem => (hhost c hmem).1 hc
  have hclear : stringContainsCTLByte (u.appendSchemeHost ++ slash :: rest) = false := by
    rw [URI.appendSchemeHost, no_ctl_append, no_ctl_append, no_ctl_append]
    exact ⟨⟨⟨hu.scheme_ctl, by decide⟩, no_ctl_iff.mpr fun c hc => (hhost c hc).2⟩, hctl⟩
  have hsplit : split [] (u.appendSchemeHost ++ slash :: rest) = (u.schemeValue, u.host, slash :: rest) :=
    splitHostURI_full hu.scheme_slash (hnot (by decide)) (hnot (by decide)) [] rest
  have huser : splitUser u.host = ([], [], u.host) := by
    have hnone : indexByte u.host (ch '@') = none := by simpa [indexByte] using hnot (by decide)
    rw [splitUser, hnone]
  rw [Parse, parse, hclear, hsplit]
  simp only [huser, parseHost_parsed hu.host hpercent, hu.scheme_lower, hu.host_lower]
  rfl

theorem cleanPath_rooted (p : Bytes) : ∃ r, cleanPath p = slash :: r := List.head?_eq_some_iff.mp (cleanPath_normal p).starts

theorem Sound.fullURI_eq {u : URI} (hu : Sound u) :
    u.fullURI = u.appendSchemeHost ++
      (u.path.flatMap quoted ++ (if u.queryString ≠ [] then ch '?' :: u.queryString else []) ++
        (if u.hash ≠ [] then ch '#' :: u.hash else [])) := by
  obtain ⟨p, hp⟩ := hu.path
  obtain ⟨r, hr⟩ := cleanPath_rooted p
  have hpath : appendQuotedPath u.pathValue = u.path.flatMap quoted := by
    rw [URI.pathValue, hp, hr, if_neg (by simp), appendQuotedPath_rooted]
  rw [URI.fullURI, URI.requestURI, hu.args, hu.normalizing, hpath]
  simp

structure Components where
  scheme : Bytes
  host : Bytes
  path : Bytes
  query : Bytes
  fragment : Bytes
  deriving DecidableEq, Repr

def URI.components (u : URI) : Components := ⟨u.schemeValue, u.host, u.pathValue, u.queryString, u.hash⟩

theorem schemeValue_ne_nil (u : URI) : u.schemeValue ≠ [] := by
  unfold URI.schemeValue
  split
  · decide
  · assumption

theorem Sound.parse_fullURI {u : URI} (hu : Sound u) (hpercent : ch '%' ∉ u.host) :
    (Parse [] u.fullURI).1 = none ∧ (Parse [] u.fullURI).2.components = u.components := by
  obtain ⟨p, hp⟩ := hu.path
  obtain ⟨r, hr⟩ := cleanPath_rooted p
  have hquoted := quotedPath_bytes u.path
  have hglue := splitQuery_glue (f := u.hash) (fun h => (hquoted _ h).1 rfl) (fun h => (hquoted _ h).2.1 rfl) hu.query_hash
  have hpath : normalizePath (u.path.flatMap quoted) = u.path := by rw [hp, normalizePath_quoted]
  have hctl : stringContainsCTLByte (u.path.flatMap quoted ++ (if u.queryString ≠ [] then ch '?' :: u.queryString else []) ++
      (if u.hash ≠ [] then ch '#' :: u.hash else [])) = false := by
    rw [no_ctl_append, no_ctl_append]
    exact ⟨⟨no_ctl_iff.mpr fun c hc => (hquoted c hc).2.2, no_ctl_marked (by decide) hu.query_ctl⟩,
      no_ctl_marked (by decide) hu.hash_ctl⟩
  have hstart : ∃ rest, u.path.flatMap quoted ++ (if u.queryString ≠ [] then ch '?' :: u.queryString else []) ++
      (if u.hash ≠ [] then ch '#' :: u.hash else []) = slash :: rest := by
    rw [hp, hr]
    exact ⟨_, rfl⟩
  obtain ⟨rest, hrest⟩ := hstart
  rw [hrest] at hglue hctl
  rw [hu.fullURI_eq, hrest, hu.parse_schemeHost hpercent hctl, hglue]
  refine ⟨rfl, ?_⟩
  rw [URI.components, URI.schemeValue, if_neg (schemeValue_ne_nil u), hpath]
  rfl

/-- A URI that was parsed and printed says the same when it is parsed again. -/
theorem parse_fullURI_same (host uri : Bytes) (h : (Parse host uri).1 = none) (hpercent : ch '%' ∉ (Parse host uri).2.host) :
    (Parse [] (Parse host uri).2.fullURI).1 = none ∧
      (Parse [] (Parse host uri).2.fullURI).2.components = (Parse host uri).2.components :=
  (parse_sound h).parse_fullURI hpercent

theorem parse_fullURI_query :
    (Parse (ascii "Example.com:80") (ascii "a//b%20c/../d?x=//y#?f")).2.fullURI = ascii "http://example.com:80/a/d?x=//y#?f" ∧
      (Parse [] (Parse (ascii "Example.com:80") (ascii "a//b%20c/../d?x=//y#?f")).2.fullURI).1 = none ∧
      (Parse [] (Parse (ascii "Example.com:80") (ascii "a//b%20c/../d?x=//y#?f")).2.fullURI).2.components =
        (Parse (ascii "Example.com:80") (ascii "a//b%20c/../d?x=//y#?f")).2.components :=
  ⟨by decide +kernel, parse_fullURI_same _ _ (by decide +kernel) (by decide +kernel)⟩

end Fasthttp.Uri
