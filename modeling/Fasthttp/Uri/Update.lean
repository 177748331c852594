import Fasthttp.Uri.RoundTrip

/-!
# Updating a URI

`Update` looks for two slashes anywhere in the reference, its query and its fragment included, and takes what it finds
there for a scheme and a host.
-/

namespace Fasthttp.Uri

open Segments List

variable {name rest s : Bytes} {v : URI}

/-! ## References -/

def pathOf (ref : Bytes) : Bytes := before (ch '?') (before (ch '#') ref)

def directory (p : Bytes) : Bytes := p.take ((lastIndexByte p slash).elim 0 (· + 1))

def Components.resolve (base : Components) (ref : Bytes) : Components :=
  { base with
    path :=
      if pathOf ref = [] then base.path
      else if (pathOf ref).head? = some slash then cleanPath (percentDecode (pathOf ref))
      else cleanPath (directory base.path ++ percentDecode (pathOf ref))
    query := if pathOf ref = [] ∧ ch '?' ∉ before (ch '#') ref then base.query else Segments.behind (ch '?') (before (ch '#') ref)
    fragment := Segments.behind (ch '#') ref }

def IsReference (ref : Bytes) : Prop :=
  (ref.head? = some slash ∧ ¬ strSlashSlash <+: ref) ∨ ref.head? = some (ch '?') ∨ ref.head? = some (ch '#') ∨
    (pathOf ref ≠ [] ∧ (pathOf ref).head? ≠ some slash ∧ ch ':' ∉ before slash (pathOf ref))

/-- The reference happens to begin with the scheme and the host, and with the path that it leads to behind them. -/
structure Repeats (u : URI) (s rest name : Bytes) : Prop where
  scheme : lowercaseBytes s = u.schemeValue
  parts : ch '?' ∉ s ∧ ch '#' ∉ s ∧ ch '#' ∉ authority rest
  named : parseHost (splitUser (authority rest)).2.2 = .ok name
  host : lowercaseBytes name = u.host
  path : cleanPath (percentDecode (pathOf (target rest))) =
    cleanPath (directory u.pathValue ++ percentDecode (pathOf (s ++ slash :: slash :: rest)))

def Resolvable (u : URI) (ref : Bytes) : Prop :=
  if strSlashSlash <:+: ref then
    stringContainsCTLByte ref = false ∧ ∃ s rest name, ref = s ++ slash :: slash :: rest ∧ slash ∉ s ∧ Repeats u s rest name
  else if ref.head? = some (ch '?') then ch '#' ∉ ref ∧ u.hash = []
  else ref.head? = some (ch '#') ∨ stringContainsCTLByte ref = false

theorem splitQuery_parts (b : Bytes) : splitQuery b =
    (pathOf b, Segments.behind (ch '?') (before (ch '#') b), Segments.behind (ch '#') b) := splitQuery_eq b

theorem normalizePath_ne_nil (p : Bytes) : normalizePath p ≠ [] := by
  obtain ⟨r, hr⟩ := cleanPath_rooted (percentDecode p)
  rw [normalizePath_clean, hr]
  simp

theorem pathOf_append {u : Bytes} (hq : ch '?' ∉ u) (hf : ch '#' ∉ u) (v : Bytes) : pathOf (u ++ v) = u ++ pathOf v := by
  rw [pathOf, before_append hf, before_append hq, pathOf]

variable {u : URI} {ref : Bytes}

theorem update_query_iff (hno : ¬ strSlashSlash <:+: ref) (hstart : ref.head? = some (ch '?')) :
    (u.update ref).map URI.components = some (u.components.resolve ref) ↔ ch '#' ∉ ref ∧ u.hash = [] := by
  obtain ⟨r, rfl⟩ : ∃ r, ref = ch '?' :: r := List.head?_eq_some_iff.mp hstart
  have hupdate : u.update (ch '?' :: r) = some (u.setQueryString r) := by
    rw [URI.update, if_neg (find_isSome.not.mpr hno)]
    rfl
  have hbefore : before (ch '#') (ch '?' :: r) = ch '?' :: before (ch '#') r := before_cons (by decide) r
  have hbehind : Segments.behind (ch '#') (ch '?' :: r) = Segments.behind (ch '#') r := behind_append (u := [ch '?']) (by decide) r
  have hpath : pathOf (ch '?' :: r) = [] := by rfl
  have hquery : Segments.behind (ch '?') (ch '?' :: before (ch '#') r) = before (ch '#') r := rfl
  have hset : (u.setQueryString r).components = { u.components with query := r } := rfl
  rw [hupdate, Option.map_some, Option.some.injEq, hset, Components.resolve, hbefore, hbehind, hpath, hquery]
  simp only [Components.mk.injEq, true_and, mem_cons, true_or, not_true_eq_false, if_false, if_true]
  constructor
  · rintro ⟨hr, hhash⟩
    have hmem : ch '#' ∉ r := fun h => not_mem_before (ch '#') r (hr ▸ h)
    rw [behind_of_not_mem hmem] at hhash
    exact ⟨not_or.mpr ⟨by decide, hmem⟩, hhash⟩
  · rintro ⟨hmem, hhash⟩
    simp only [not_or] at hmem
    exact ⟨(before_of_not_mem hmem.2).symm, by rw [behind_of_not_mem hmem.2]; exact hhash⟩

theorem update_fragment (hno : ¬ strSlashSlash <:+: ref) (hstart : ref.head? = some (ch '#')) :
    (u.update ref).map URI.components = some (u.components.resolve ref) := by
  obtain ⟨r, rfl⟩ : ∃ r, ref = ch '#' :: r := List.head?_eq_some_iff.mp hstart
  have hupdate : u.update (ch '#' :: r) = some (u.setHash r) := by
    rw [URI.update, if_neg (find_isSome.not.mpr hno)]
    rfl
  have hbehind : Segments.behind (ch '#') (ch '#' :: r) = r := rfl
  have hset : (u.setHash r).components = { u.components with fragment := r } := rfl
  rw [hupdate, Option.map_some, hset, Components.resolve, pathOf, hbehind]
  simp [before]

theorem Sound.directory_cut (hu : Sound u) :
    ∃ n d, lastIndexByte u.pathValue slash = some n ∧ u.pathValue.take (n + 1) = slash :: d ∧ directory u.pathValue = slash :: d := by
  obtain ⟨p, hp⟩ := hu.path
  obtain ⟨r, hr⟩ := cleanPath_rooted p
  have hvalue : u.pathValue = slash :: r := by rw [URI.pathValue, hp, hr, if_neg (by simp)]
  rcases hn : lastIndexByte u.pathValue slash with _ | n
  · exact absurd (by simp [hvalue]) (lastIndexByte_none hn)
  · exact ⟨n, r.take n, rfl, by rw [hvalue]; rfl, by rw [directory, hn, hvalue]; rfl⟩

theorem head_of_path (hpath : pathOf ref ≠ []) (hstart : (pathOf ref).head? ≠ some slash) :
    ref.head? ≠ some slash ∧ ref.head? ≠ some (ch '?') ∧ ref.head? ≠ some (ch '#') := by
  cases ref with
  | nil => exact absurd rfl hpath
  | cons c r =>
    simp only [head?_cons, ne_eq, Option.some.injEq]
    refine ⟨?_, ?_, ?_⟩
    · rintro rfl
      exact hstart (by rfl)
    · rintro rfl
      exact hpath (by rfl)
    · rintro rfl
      exact hpath rfl

theorem Sound.parse_iff (hu : Sound u) (hhost : u.host ≠ []) (hpercent : ch '%' ∉ u.host) (rest : Bytes) :
    (Parse [] (u.appendSchemeHost ++ slash :: rest)).2.components =
      ⟨u.schemeValue, u.host, cleanPath (percentDecode (pathOf (slash :: rest))),
        Segments.behind (ch '?') (before (ch '#') (slash :: rest)),
        Segments.behind (ch '#') (slash :: rest)⟩ ↔ stringContainsCTLByte (slash :: rest) = false := by
  constructor
  · intro heq
    by_contra hctl
    have hbad : stringContainsCTLByte (u.appendSchemeHost ++ slash :: rest) = true := by
      rw [← Bool.not_eq_false, no_ctl_append]
      exact fun hboth => hctl hboth.2
    have hgone : (Parse [] (u.appendSchemeHost ++ slash :: rest)).2 = URI.zero := by rw [Parse, parse, if_pos hbad]
    rw [hgone] at heq
    exact hhost (congrArg Components.host heq).symm
  · intro hctl
    rw [hu.parse_schemeHost hpercent hctl, splitQuery_parts, URI.components, URI.schemeValue, URI.pathValue,
      if_neg (schemeValue_ne_nil u),
      if_neg (normalizePath_ne_nil _), normalizePath_clean]

section Update

variable {u : URI} {ref : Bytes} (hu : Sound u) (hhost : u.host ≠ []) (hpercent : ch '%' ∉ u.host)
include hu hhost hpercent

theorem update_path_iff (hno : ¬ strSlashSlash <:+: ref) (hstart : ref.head? = some slash) :
    (u.update ref).map URI.components = some (u.components.resolve ref) ↔ stringContainsCTLByte ref = false := by
  obtain ⟨r, rfl⟩ : ∃ r, ref = slash :: r := List.head?_eq_some_iff.mp hstart
  have hupdate : u.update (slash :: r) = some (Parse [] (u.appendSchemeHost ++ slash :: r)).2 := by
    rw [URI.update, if_neg (by simp), if_neg (find_isSome.not.mpr hno), if_pos hstart]
  have hpath : pathOf (slash :: r) = slash :: pathOf r := pathOf_append (u := [slash]) (by decide) (by decide) r
  rw [hupdate, ← hu.parse_iff hhost hpercent, Components.resolve, hpath]
  simp [URI.components]

theorem update_relative_iff (hno : ¬ strSlashSlash <:+: ref) (hpath : pathOf ref ≠ []) (hstart : (pathOf ref).head? ≠ some slash) :
    (u.update ref).map URI.components = some (u.components.resolve ref) ↔ stringContainsCTLByte ref = false := by
  obtain ⟨n, d, hn, hdir, hdir'⟩ := hu.directory_cut
  have hne : ref ≠ [] := fun h => hpath (by rw [h]; rfl)
  obtain ⟨hslash, hquery, hhash⟩ := head_of_path hpath hstart
  have hquoted := quotedPath_bytes (slash :: d)
  have hq : ch '?' ∉ (slash :: d).flatMap quoted := fun h => (hquoted _ h).1 rfl
  have hf : ch '#' ∉ (slash :: d).flatMap quoted := fun h => (hquoted _ h).2.1 rfl
  have hupdate : u.update ref = some (Parse [] (u.appendSchemeHost ++ ((slash :: d).flatMap quoted ++ ref))).2 := by
    rw [URI.update, if_neg hne, if_neg (find_isSome.not.mpr hno), if_neg hslash, if_neg hquery, if_neg hhash, hn]
    simp [hdir, appendQuotedPath_rooted]
  have hctl : stringContainsCTLByte ref = false ↔ stringContainsCTLByte ((slash :: d).flatMap quoted ++ ref) = false := by
    rw [no_ctl_append]
    exact ⟨fun h => ⟨no_ctl_iff.mpr fun c hc => (hquoted c hc).2.2, h⟩, fun h => h.2⟩
  have hparse := hu.parse_iff hhost hpercent (d.flatMap quoted ++ ref)
  rw [show slash :: (d.flatMap quoted ++ ref) = (slash :: d).flatMap quoted ++ ref from rfl, pathOf_append hq hf,
    percentDecode_flatMap,
    behind_append hf, before_append hf, behind_append hq] at hparse
  rw [hupdate, Option.map_some, Option.some.injEq, hctl, ← hparse, Components.resolve, if_neg hpath, if_neg hstart,
    if_neg fun h => hpath h.1]
  simp [URI.components, hdir']

end Update

theorem percent_mem_pieceLeft (zone : Bytes) : ch '%' ∈ pieceLeft (strPercent25 ++ zone) .zone := by
  unfold pieceLeft
  split
  · rename_i t ht
    cases escaped_of_unescape ht with
    | plain hne => exact absurd rfl hne
    | escape => exact mem_append_left _ (mem_cons.mpr (.inl (by decide)))
  · exact mem_append_left _ (by decide)

theorem hostLeft_eq {host : Bytes} (h : ch '%' ∉ hostLeft host) : hostLeft host = host := by
  unfold hostLeft at h ⊢
  split
  · rename_i hstart
    rw [if_pos hstart] at h
    split
    · rfl
    · rename_i i hi
      simp only [hi] at h
      split
      · rfl
      · rename_i hport
        simp only [hport] at h
        split
        · rename_i n hn
          simp only [hn] at h
          split
          · rfl
          · rename_i hone
            obtain ⟨zone, hzone⟩ := prefix_of_find hn
            rw [if_neg hone, ← hzone] at h
            exact absurd (mem_append_left _ (mem_append_right _ (percent_mem_pieceLeft zone))) h
        · rfl
  · rfl

theorem splitUser_suffix (a : Bytes) : (splitUser a).2.2 <:+ a := by
  unfold splitUser
  split
  · exact suffix_refl a
  · simp only
    split
    · exact drop_suffix _ _
    · exact drop_suffix _ _

theorem hash_not_mem_host {raw : Bytes} (h : parseHost raw = .ok name) : ch '#' ∉ raw := by
  intro hmem
  rcases parseHost_source h _ hmem with hc | hc | hc
  · exact absurd hc (by decide)
  · exact absurd hc (by decide)
  · exact absurd (hc (by decide)) (by decide)

theorem slashes_append (s rest : Bytes) :
    s ++ slash :: slash :: rest = (s ++ slash :: slash :: authority rest) ++ rest.dropWhile inHost := by
  rw [append_assoc, cons_append, cons_append, authority, takeWhile_append_dropWhile]

theorem hash_not_mem_front (hs : ch '#' ∉ s) (hauth : ch '#' ∉ authority rest) : ch '#' ∉ s ++ slash :: slash :: authority rest := by
  simp only [mem_append, mem_cons, not_or]
  exact ⟨hs, by decide, by decide, hauth⟩

theorem behind_target (rest : Bytes) : Segments.behind (ch '#') (target rest) = Segments.behind (ch '#') (rest.dropWhile inHost) ∧
    Segments.behind (ch '?') (before (ch '#') (target rest)) = Segments.behind (ch '?') (before (ch '#') (rest.dropWhile inHost)) := by
  simp only [target]
  split
  · rename_i h
    rw [h]
    decide
  · exact ⟨rfl, rfl⟩

theorem fragment_free (hname : parseHost (splitUser (authority rest)).2.2 = .ok name) (hne : name ≠ [])
    (h : Segments.behind (ch '#') (target rest) = Segments.behind (ch '#') (s ++ slash :: slash :: rest)) :
    ch '#' ∉ s ∧ ch '#' ∉ authority rest := by
  obtain ⟨front, hfront⟩ := splitUser_suffix (authority rest)
  have hraw := hash_not_mem_host hname
  have hpos : 0 < (splitUser (authority rest)).2.2.length := by
    refine length_pos_iff.mpr fun hnil => hne ?_
    rw [hnil] at hname
    exact (Except.ok.inj hname).symm
  have hfree : ch '#' ∉ s ++ slash :: slash :: front := by
    intro hmem
    have htext : s ++ slash :: slash :: rest =
        (s ++ slash :: slash :: front) ++ ((splitUser (authority rest)).2.2 ++ rest.dropWhile inHost) := by
      rw [slashes_append]
      conv_lhs => rw [← hfront]
      simp
    rw [(behind_target rest).1, htext, behind_append_of_mem hmem] at h
    have hle := length_behind_le (ch '#') (rest.dropWhile inHost)
    rw [h, length_append, length_append] at hle
    omega
  simp only [mem_append, mem_cons, not_or] at hfree
  refine ⟨hfree.1, ?_⟩
  rw [← hfront]
  exact not_mem_append hfree.2.2.2 hraw

theorem query_free (hs : ch '#' ∉ s) (hauth : ch '#' ∉ authority rest)
    (h : Segments.behind (ch '?') (before (ch '#') (target rest)) =
      Segments.behind (ch '?') (before (ch '#') (s ++ slash :: slash :: rest))) : ch '?' ∉ s := by
  intro hmem
  have htext : before (ch '#') (s ++ slash :: slash :: rest) =
      s ++ slash :: slash :: (authority rest ++ before (ch '#') (rest.dropWhile inHost)) := by
    rw [slashes_append, before_append (hash_not_mem_front hs hauth), append_assoc]
    rfl
  rw [(behind_target rest).2, htext, behind_append_of_mem hmem] at h
  have hle := length_behind_le (ch '?') (before (ch '#') (rest.dropWhile inHost))
  rw [h] at hle
  simp at hle
  omega

theorem update_slashes (u : URI) (h : strSlashSlash <:+: ref) :
    ∃ v, u.update ref = some v ∧ (v = (Parse [] ref).2 ∨
      ((Parse [] ref).2.scheme = [] ∧ v = { (Parse [] ref).2 with scheme := u.scheme })) := by
  have hne : ref ≠ [] := by
    rintro rfl
    exact absurd (infix_nil.mp h) (by decide)
  rw [URI.update, if_neg hne, if_pos (find_isSome.mpr h)]
  simp only
  split
  · exact ⟨_, rfl, .inl rfl⟩
  · split
    · rename_i hscheme
      simp only [Bool.and_eq_true, decide_eq_true_eq] at hscheme
      exact ⟨_, rfl, .inr ⟨hscheme.2, rfl⟩⟩
    · exact ⟨_, rfl, .inl rfl⟩

theorem slashes_cut (h : strSlashSlash <:+: ref) :
    ∃ s rest, ref = s ++ slash :: slash :: rest ∧ find strSlashSlash ref = some s.length := by
  obtain ⟨n, hn⟩ := Option.isSome_iff_exists.mp (find_isSome.mpr h)
  obtain ⟨rest, hrest⟩ := prefix_of_find hn
  have hle : n ≤ ref.length := by
    by_contra hgt
    rw [drop_eq_nil_of_le (by omega)] at hrest
    exact absurd hrest (by simp [strSlashSlash, ascii])
  refine ⟨ref.take n, rest, ?_, by rw [hn, length_take, Nat.min_eq_left hle]⟩
  conv_lhs => rw [← take_append_drop n ref, ← hrest]
  rfl

theorem parse_host_nil (hs : slash ∈ s) (hfind : find strSlashSlash (s ++ slash :: slash :: rest) = some s.length) :
    (Parse [] (s ++ slash :: slash :: rest)).2.host = [] := by
  have hsome : (indexByte s slash).isSome = true := by simpa [indexByte] using hs
  have hsplit : split [] (s ++ slash :: slash :: rest) = (strHTTP, [], s ++ slash :: slash :: rest) := by
    change splitHostURI [] (s ++ slash :: slash :: rest) = _
    rw [splitHostURI, hfind]
    simp [hsome]
  rw [Parse, parse, hsplit]
  split
  · rfl
  · rfl

theorem relative_of_slashes (href : IsReference (s ++ slash :: slash :: rest)) (hs : slash ∉ s) (hq : ch '?' ∉ s) (hf : ch '#' ∉ s) :
    s ≠ [] ∧ ch ':' ∉ s ∧ pathOf (s ++ slash :: slash :: rest) ≠ [] ∧ (pathOf (s ++ slash :: slash :: rest)).head? ≠ some slash := by
  have hpath : pathOf (s ++ slash :: slash :: rest) = s ++ slash :: slash :: pathOf rest := by
    rw [pathOf_append hq hf, pathOf, before_cons (by decide), before_cons (by decide), before_cons (by decide),
      before_cons (by decide), pathOf]
  rcases href with ⟨hstart, hnot⟩ | hstart | hstart | ⟨hne, hstart, hcolon⟩
  · cases s with
    | nil => exact absurd ⟨rest, rfl⟩ hnot
    | cons c s => exact absurd (by simpa using .inl (Option.some.inj hstart).symm) hs
  · cases s with
    | nil => exact absurd (Option.some.inj hstart) (by decide)
    | cons c s => exact absurd (by simpa using .inl (Option.some.inj hstart).symm) hq
  · cases s with
    | nil => exact absurd (Option.some.inj hstart) (by decide)
    | cons c s => exact absurd (by simpa using .inl (Option.some.inj hstart).symm) hf
  · refine ⟨?_, ?_, hne, hstart⟩
    · rintro rfl
      exact hstart (by rfl)
    · rwa [hpath, before_append_cons hs] at hcolon

theorem withoutColon_eq (h : ch ':' ∉ s) : withoutColon s = s :=
  if_neg fun hlast => h (mem_of_getLast? hlast)

theorem resolve_slashes (base : Components) (hq : ch '?' ∉ s) (hf : ch '#' ∉ s) (hauth : ch '#' ∉ authority rest)
    (hne : pathOf (s ++ slash :: slash :: rest) ≠ []) (hstart : (pathOf (s ++ slash :: slash :: rest)).head? ≠ some slash) :
    base.resolve (s ++ slash :: slash :: rest) =
      { base with
        path := cleanPath (directory base.path ++ percentDecode (pathOf (s ++ slash :: slash :: rest)))
        query := Segments.behind (ch '?') (before (ch '#') (target rest))
        fragment := Segments.behind (ch '#') (target rest) } := by
  have hmark : ch '?' ∉ authority rest := fun h => absurd (all_eq_true.mp all_takeWhile _ h) (by decide)
  have hfront : ch '?' ∉ s ++ slash :: slash :: authority rest := by
    simp only [mem_append, mem_cons, not_or]
    exact ⟨hq, by decide, by decide, hmark⟩
  have hback := hash_not_mem_front hf hauth
  have hquery : Segments.behind (ch '?') (before (ch '#') (s ++ slash :: slash :: rest)) = Segments.behind (ch '?')
      (before (ch '#') (target rest)) := by
    rw [slashes_append, before_append hback, behind_append hfront, (behind_target rest).2]
  have hfragment : Segments.behind (ch '#') (s ++ slash :: slash :: rest) = Segments.behind (ch '#') (target rest) := by
    rw [slashes_append, behind_append hback, (behind_target rest).1]
  rw [Components.resolve, if_neg hne, if_neg hstart, if_neg fun h => hne h.1, hquery, hfragment]

theorem components_eq_iff {c : Components} :
    v.components = c ↔ v.schemeValue = c.scheme ∧ v.host = c.host ∧ v.pathValue = c.path ∧ v.queryString = c.query ∧
      v.hash = c.fragment := by
  cases c
  simp [URI.components]

theorem query_mark_free {base : Components} (hs : ch '#' ∉ s) (hauth : ch '#' ∉ authority rest)
    (h : Segments.behind (ch '?') (before (ch '#') (target rest)) = (base.resolve (s ++ slash :: slash :: rest)).query) :
    ch '?' ∉ s := by
  intro hmem
  have hmark : ch '?' ∈ before (ch '#') (s ++ slash :: slash :: rest) := by
    rw [before_append hs]
    exact mem_append_left _ hmem
  rw [Components.resolve] at h
  simp only [hmark, not_true_eq_false, and_false] at h
  exact query_free hs hauth h hmem

theorem repeats_iff (hhost : u.host ≠ []) (href : IsReference (s ++ slash :: slash :: rest)) (hs : slash ∉ s)
    (hctl : stringContainsCTLByte (s ++ slash :: slash :: rest) = false)
    (hname : parseHost (splitUser (authority rest)).2.2 = .ok name)
    (hv : v = (Parse [] (s ++ slash :: slash :: rest)).2 ∨ ((Parse [] (s ++ slash :: slash :: rest)).2.scheme = [] ∧
      v = { (Parse [] (s ++ slash :: slash :: rest)).2 with scheme := u.scheme })) :
    v.components = u.components.resolve (s ++ slash :: slash :: rest) ↔ Repeats u s rest name := by
  have hsplit : split [] (s ++ slash :: slash :: rest) = (withoutColon s, authority rest, target rest) :=
      splitHostURI_slashes hs [] rest
  have hscheme : (Parse [] (s ++ slash :: slash :: rest)).2.scheme = lowercaseBytes (withoutColon s) := by
    simp only [Parse, parse, hctl, hsplit, Bool.false_eq_true, if_false, hname, splitQuery_parts]
  have hparts : v.host = lowercaseBytes name ∧ v.pathValue = cleanPath (percentDecode (pathOf (target rest))) ∧
      v.queryString = Segments.behind (ch '?') (before (ch '#') (target rest)) ∧ v.hash = Segments.behind (ch '#') (target rest) := by
    rcases hv with rfl | ⟨-, rfl⟩
    all_goals
      simp only [Parse, parse, hctl, hsplit, Bool.false_eq_true, if_false, hname, splitQuery_parts, true_and, and_true]
      rw [URI.pathValue, if_neg (normalizePath_ne_nil _), normalizePath_clean]
  obtain ⟨hname', hpath, hquery, hhash⟩ := hparts
  -- without separators in front of the host, the reference is a relative path and its first segment is the scheme
  have hkey (hq : ch '?' ∉ s) (hf : ch '#' ∉ s) (hauth : ch '#' ∉ authority rest) :
      v.components = u.components.resolve (s ++ slash :: slash :: rest) ↔
        lowercaseBytes s = u.schemeValue ∧ lowercaseBytes name = u.host ∧ cleanPath (percentDecode (pathOf (target rest))) =
          cleanPath (directory u.pathValue ++ percentDecode (pathOf (s ++ slash :: slash :: rest))) := by
    obtain ⟨hne, hcolon, hpathne, hstart⟩ := relative_of_slashes href hs hq hf
    rw [withoutColon_eq hcolon] at hscheme
    have hfull : lowercaseBytes s ≠ [] := fun h => hne (map_eq_nil_iff.mp h)
    have hvalue : v.schemeValue = lowercaseBytes s := by
      rcases hv with rfl | ⟨hnil, -⟩
      · rw [URI.schemeValue, hscheme, if_neg hfull]
      · exact absurd (hscheme.symm.trans hnil) hfull
    rw [components_eq_iff, resolve_slashes _ hq hf hauth hpathne hstart, hvalue, hname', hpath, hquery, hhash]
    simp only [and_true]
    rfl
  constructor
  · intro heq
    obtain ⟨-, hhost', -, hquery', hhash'⟩ := components_eq_iff.mp heq
    have hne : name ≠ [] := by
      rintro rfl
      exact hhost (hhost'.symm.trans hname')
    obtain ⟨hf, hauth⟩ := fragment_free hname hne (hhash.symm.trans hhash')
    have hq := query_mark_free hf hauth (hquery.symm.trans hquery')
    obtain ⟨h₁, h₂, h₃⟩ := (hkey hq hf hauth).mp heq
    exact ⟨h₁, ⟨hq, hf, hauth⟩, hname, h₂, h₃⟩
  · intro hrep
    exact (hkey hrep.parts.1 hrep.parts.2.1 hrep.parts.2.2).mpr ⟨hrep.scheme, hrep.host, hrep.path⟩

theorem update_slashes_iff (hu : Sound u) (hhost : u.host ≠ []) (hpercent : ch '%' ∉ u.host) (href : IsReference ref)
    (h : strSlashSlash <:+: ref) :
    (u.update ref).map URI.components = some (u.components.resolve ref) ↔
      stringContainsCTLByte ref = false ∧ ∃ s rest name, ref = s ++ slash :: slash :: rest ∧ slash ∉ s ∧ Repeats u s rest name := by
  obtain ⟨v, hv, hcases⟩ := update_slashes u h
  obtain ⟨s, rest, rfl, hfind⟩ := slashes_cut h
  have hsame : v.host = (Parse [] (s ++ slash :: slash :: rest)).2.host := by
    rcases hcases with rfl | ⟨-, rfl⟩
    · rfl
    · rfl
  rw [hv, Option.map_some, Option.some.injEq]
  constructor
  · intro heq
    have hkept : (Parse [] (s ++ slash :: slash :: rest)).2.host = u.host := hsame.symm.trans (congrArg Components.host heq)
    have hs : slash ∉ s := fun hs => hhost ((parse_host_nil hs hfind).symm.trans hkept).symm
    have hctl : stringContainsCTLByte (s ++ slash :: slash :: rest) = false := by
      by_contra hctl
      rw [Parse, parse, if_pos (by simpa using hctl)] at hkept
      exact hhost hkept.symm
    rcases hname : parseHost (splitUser (authority rest)).2.2 with err | name
    · have hsplit : split [] (s ++ slash :: slash :: rest) = (withoutColon s, authority rest, target rest) :=
        splitHostURI_slashes hs [] rest
      have hraw : hostLeft (splitUser (authority rest)).2.2 = u.host := by
        rw [← hkept, Parse, parse, hsplit, hctl]
        simp only [hname, Bool.false_eq_true, if_false]
      have hagain := hostLeft_eq (hraw ▸ hpercent)
      rw [← hagain, hraw, parseHost_parsed hu.host hpercent] at hname
      contradiction
    · exact ⟨hctl, s, rest, name, rfl, hs, (repeats_iff hhost href hs hctl hname hcases).mp heq⟩
  · rintro ⟨hctl, s', rest', name, heq, hs, hrep⟩
    rw [heq, find_slashes hs, Option.some.injEq] at hfind
    obtain ⟨rfl, htail⟩ := append_inj heq hfind.symm
    obtain rfl := (List.cons.inj (List.cons.inj htail).2).2
    exact (repeats_iff hhost href hs hctl hrep.named hcases).mpr hrep

/-- A reference without a host keeps the scheme and the host and is resolved against the old URI exactly when it has no two
slashes, or happens to repeat the scheme and the host behind them, has no control byte in a text that is parsed, and
leaves no old fragment behind a new query. -/
theorem update_resolves_iff (host uri ref : Bytes) (h : (Parse host uri).1 = none) (hhost : (Parse host uri).2.host ≠ [])
    (hpercent : ch '%' ∉ (Parse host uri).2.host) (href : IsReference ref) :
    ((Parse host uri).2.update ref).map URI.components = some ((Parse host uri).2.components.resolve ref) ↔
      Resolvable (Parse host uri).2 ref := by
  have hu : Sound (Parse host uri).2 := parse_sound h
  unfold Resolvable
  split
  · rename_i hslashes
    exact update_slashes_iff hu hhost hpercent href hslashes
  · rename_i hno
    split
    · rename_i hquery
      exact update_query_iff hno hquery
    · rename_i hquery
      rcases href with ⟨hstart, -⟩ | hstart | hstart | ⟨hne, hstart, -⟩
      · rw [update_path_iff hu hhost hpercent hno hstart]
        exact ⟨.inr, fun h => h.resolve_left fun hhash => absurd (hstart.symm.trans hhash) (by decide)⟩
      · exact absurd hstart hquery
      · exact ⟨fun _ => .inl hstart, fun _ => update_fragment hno hstart⟩
      · rw [update_relative_iff hu hhost hpercent hno hne hstart]
        exact ⟨.inr, fun h => h.resolve_left (head_of_path hne hstart).2.2⟩

theorem update_resolves_parent :
    ((Parse [] (ascii "http://example.com/a/b?q#f")).2.update (ascii "../c?x#y")).map URI.components =
      some ((Parse [] (ascii "http://example.com/a/b?q#f")).2.components.resolve (ascii "../c?x#y")) := by
  refine (update_resolves_iff [] (ascii "http://example.com/a/b?q#f") (ascii "../c?x#y") (by decide +kernel)
    (by decide +kernel) (by decide +kernel)
    (.inr (.inr (.inr (by decide +kernel))))).mpr ?_
  unfold Resolvable
  rw [if_neg (by decide +kernel), if_neg (by decide +kernel)]
  exact .inr (by decide +kernel)

/-- Two slashes in the query of a reference take the host away, or bring another one. -/
theorem update_takes_host :
    IsReference (ascii "/login?next=//evil.com/") ∧ IsReference (ascii "?next=//evil.com/") ∧
      (Parse [] (ascii "http://example.com/")).1 = none ∧ (Parse [] (ascii "http://example.com/")).2.host = ascii "example.com" ∧
      ((Parse [] (ascii "http://example.com/")).2.update (ascii "/login?next=//evil.com/")).map URI.components =
        some ⟨ascii "http", [], ascii "/login", ascii "next=//evil.com/", []⟩ ∧
      (Parse [] (ascii "http://example.com/")).2.components.resolve (ascii "/login?next=//evil.com/") =
        ⟨ascii "http", ascii "example.com", ascii "/login", ascii "next=//evil.com/", []⟩ ∧
      ((Parse [] (ascii "http://example.com/")).2.update (ascii "?next=//evil.com/")).map URI.host = some (ascii "evil.com") :=
  ⟨.inl (by decide +kernel), .inr (.inl (by decide +kernel)), by decide +kernel, by decide +kernel, by decide +kernel, by
    decide +kernel,
    by decide +kernel⟩

end Fasthttp.Uri
