import Fasthttp.Uri.Parse

/-!
# What is accepted as a host

`Escaped` relates the text of a piece to what `unescape` makes of it, `HostShape` is the grammar of the hosts that
`parseHost` returns.
-/

namespace Fasthttp.Uri

open Segments List

variable {a c : Byte} {host port : Bytes}

def HostByte (c : Byte) : Prop := c < 0x80 → shouldEscape c = false

/-- A byte that may be escaped: an address takes bytes beyond ASCII and the percent sign,
a zone what it may hold anyway and a space. -/
def EscapedByte : Encoding → Byte → Prop
  | .host, c => 0x80 ≤ c ∨ c = ch '%'
  | .zone, c => shouldEscape c = false ∨ c = ch '%' ∨ c = spChar

inductive Escaped (mode : Encoding) : Bytes → Bytes → Prop
  | nil : Escaped mode [] []
  | plain {c : Byte} {s t : Bytes} : c ≠ ch '%' → HostByte c → Escaped mode s t → Escaped mode (c :: s) (c :: t)
  | escape {a b : Byte} {s t : Bytes} : ishex a = true → ishex b = true → EscapedByte mode (unhexPair a b) → Escaped mode s t →
      Escaped mode (ch '%' :: a :: b :: s) (unhexPair a b :: t)

theorem unescapeBytes_cons (hc : c ≠ ch '%') (rest : Bytes) : unescapeBytes (c :: rest) = c :: unescapeBytes rest := by
  match rest with
  | [] | [_] => rfl
  | a :: b :: rest => rw [unescapeBytes, if_neg hc]

theorem unhexPair_high {b : Byte} (ha : 8 ≤ hex2intTable a % 16) : 0x80 ≤ unhexPair a b := by
  rw [UInt8.le_iff_toNat_le, unhexPair, UInt8.toNat_ofNat_of_lt' (by simp only [UInt8.size]; omega)]
  show 128 ≤ _
  omega

variable {mode : Encoding}

theorem escapedByte_of_checked {b : Byte}
    (hhost : ¬ (mode = .host ∧ hex2intTable a % 16 < 8 ∧ [ch '%', a, b] ≠ strPercent25))
    (hzone : ¬ (mode = .zone ∧ [ch '%', a, b] ≠ strPercent25 ∧ unhexPair a b ≠ spChar ∧ shouldEscape (unhexPair a b) = true)) :
    EscapedByte mode (unhexPair a b) := by
  by_cases hpercent : [ch '%', a, b] = strPercent25
  · have hab : a = ch '2' ∧ b = ch '5' := by simpa [strPercent25, ascii] using hpercent
    obtain ⟨rfl, rfl⟩ := hab
    cases mode with
    | host => exact .inr (by decide)
    | zone => exact .inr (.inl (by decide))
  · cases mode with
    | host =>
      refine .inl (unhexPair_high ?_)
      by_contra hlow
      exact hhost ⟨rfl, by omega, hpercent⟩
    | zone =>
      by_cases hsp : unhexPair a b = spChar
      · exact .inr (.inr hsp)
      · left
        by_contra hesc
        exact hzone ⟨rfl, hpercent, hsp, by simpa using hesc⟩

theorem escaped_of_checked {s : Bytes} (h : checkEscapes mode s = none) : Escaped mode s (unescapeBytes s) := by
  fun_induction checkEscapes mode s with
  | case1 => exact .nil
  | case2 | case3 | case4 | case6 | case7 => simp at h
  | case5 a b more hhex hhost hzone ih =>
    simp only [Bool.or_eq_true, Bool.not_eq_true', not_or, Bool.not_eq_false] at hhex
    exact .escape hhex.1 hhex.2 (escapedByte_of_checked hhost hzone) (ih h)
  | case8 c rest hc hplain ih =>
    rw [unescapeBytes_cons hc]
    refine .plain hc ?_ (ih h)
    intro hlow
    simpa using fun hesc => hplain ⟨hlow, hesc⟩

theorem escaped_of_unescape {s t : Bytes} (h : unescape s mode = .ok t) : Escaped mode s t := by
  unfold unescape at h
  split at h
  · contradiction
  · rename_i hcheck
    cases h
    exact escaped_of_checked hcheck

namespace Escaped

variable {mode : Encoding} {s t : Bytes}

theorem bytes (h : Escaped mode s t) : ∀ c ∈ t, HostByte c ∨ EscapedByte mode c := by
  induction h with
  | nil => simp
  | plain _ hc _ ih => exact forall_mem_cons.mpr ⟨.inl hc, ih⟩
  | escape _ _ hc _ ih => exact forall_mem_cons.mpr ⟨.inr hc, ih⟩

theorem source (h : Escaped mode s t) : ∀ c ∈ s, c = ch '%' ∨ ishex c = true ∨ HostByte c := by
  induction h with
  | nil => simp
  | plain _ hc _ ih => exact forall_mem_cons.mpr ⟨.inr (.inr hc), ih⟩
  | escape ha hb _ _ ih =>
    exact forall_mem_cons.mpr ⟨.inl rfl, forall_mem_cons.mpr ⟨.inr (.inl ha), forall_mem_cons.mpr ⟨.inr (.inl hb), ih⟩⟩⟩

theorem eq_of_not_mem (h : Escaped mode s t) (hs : ch '%' ∉ s) : t = s := by
  induction h with
  | nil => rfl
  | plain _ _ _ ih =>
    simp only [mem_cons, not_or] at hs
    rw [ih hs.2]
  | escape => simp at hs

theorem cut {l r : Bytes} {c : Byte} (h : Escaped mode (l ++ c :: r) t) (hc : ishex c = false) :
    ∃ t₁ t₂, t = t₁ ++ t₂ ∧ Escaped mode l t₁ ∧ Escaped mode (c :: r) t₂ := by
  generalize hs : l ++ c :: r = s at h
  induction h generalizing l with
  | nil => simp at hs
  | @plain c' s t hne hbyte h ih =>
    cases l with
    | nil =>
      obtain ⟨rfl, rfl⟩ := List.cons.inj hs
      exact ⟨[], _, rfl, .nil, .plain hne hbyte h⟩
    | cons d l =>
      obtain ⟨rfl, hrest⟩ := List.cons.inj hs
      obtain ⟨t₁, t₂, rfl, h₁, h₂⟩ := ih hrest
      exact ⟨_, t₂, rfl, .plain hne hbyte h₁, h₂⟩
  | @escape a b s t ha hb hbyte h ih =>
    match l with
    | [] =>
      obtain ⟨rfl, rfl⟩ := List.cons.inj hs
      exact ⟨[], _, rfl, .nil, .escape ha hb hbyte h⟩
    | [d] =>
      simp only [cons_append, nil_append, List.cons.injEq] at hs
      exact absurd ha (by simp [← hs.2.1, hc])
    | [d, e] =>
      simp only [cons_append, nil_append, List.cons.injEq] at hs
      exact absurd hb (by simp [← hs.2.2.1, hc])
    | d :: e :: f :: l =>
      simp only [cons_append, List.cons.injEq] at hs
      obtain ⟨rfl, rfl, rfl, hs⟩ := hs
      obtain ⟨t₁, t₂, rfl, h₁, h₂⟩ := ih hs
      exact ⟨_, t₂, rfl, .escape ha hb hbyte h₁, h₂⟩

theorem host_mem (h : Escaped .host s t) : ∀ c ∈ t, c ∈ s ∨ 0x80 ≤ c ∨ c = ch '%' := by
  induction h with
  | nil => simp
  | @plain c s t _ _ _ ih =>
    refine forall_mem_cons.mpr ⟨.inl (by simp), fun c' h => ?_⟩
    exact (ih c' h).imp_left (mem_cons_of_mem c)
  | @escape a b s t _ _ hbyte _ ih =>
    refine forall_mem_cons.mpr ⟨.inr hbyte, fun c' h => ?_⟩
    exact (ih c' h).imp_left fun h => by simp [h]

theorem head_eq (h : Escaped .host s t) {c : Byte} (hlow : c < 0x80) (hc : c ≠ ch '%') : t.head? = some c ↔ s.head? = some c := by
  cases h with
  | nil => rfl
  | plain => simp
  | @escape a b s t _ _ hbyte _ =>
    simp only [head?_cons, Option.some.injEq]
    constructor
    · rintro rfl
      rcases hbyte with hhigh | hpercent
      · exact absurd hlow (UInt8.not_lt.mpr hhigh)
      · exact absurd hpercent hc
    · intro h
      exact absurd h.symm hc

end Escaped

def PlainByte (c : Byte) : Prop := c < 0x80 → shouldEscape c = false ∨ c = ch '%'

inductive HostShape : Bytes → Prop
  | zone {addr zone port : Bytes} : (∀ c ∈ addr, PlainByte c) → (∀ c ∈ zone, PlainByte c ∨ c = spChar) →
      validOptionalPort port = true →
      HostShape (ch '[' :: addr ++ ch '%' :: zone ++ ch ']' :: port)
  | bracket {addr port : Bytes} : (∀ c ∈ addr, PlainByte c) → validOptionalPort port = true →
      HostShape (ch '[' :: addr ++ ch ']' :: port)
  | name {h : Bytes} : (∀ c ∈ h, PlainByte c) →
      h.head? ≠ some (ch '[') → (∀ l r, h = l ++ ch ':' :: r → ch ':' ∉ r → ∀ c ∈ r, isDigit c = true) →
      HostShape h

theorem lastIndexByte_last {b : Bytes} {n : Nat} (h : lastIndexByte b c = some n) :
    ∃ u v, b = u ++ c :: v ∧ c ∉ v ∧ u.length = n := by
  obtain ⟨m, hm, rfl⟩ := Option.map_eq_some_iff.mp h
  obtain ⟨u, v, huv, hu, rfl⟩ := FirstIndex.idxOf?_cut hm
  have hb : b = v.reverse ++ c :: u.reverse := by
    rw [← reverse_reverse b, huv]
    simp
  refine ⟨v.reverse, u.reverse, hb, by simpa using hu, ?_⟩
  rw [hb]
  simp

theorem lastIndexByte_none {b : Bytes} (h : lastIndexByte b c = none) : c ∉ b := by
  unfold lastIndexByte at h
  simpa using h

theorem validOptionalPort_cases (h : validOptionalPort port = true) :
    port = [] ∨ ∃ ds, port = ch ':' :: ds ∧ ∀ c ∈ ds, isDigit c = true := by
  cases port with
  | nil => exact .inl rfl
  | cons c ds =>
    simp only [validOptionalPort, Bool.and_eq_true, decide_eq_true_eq, all_eq_true] at h
    exact .inr ⟨ds, by rw [h.1], h.2⟩

theorem not_mem_port (h : validOptionalPort port = true) (hc : c ≠ ch ':') (hdigit : isDigit c = false) : c ∉ port := by
  rcases validOptionalPort_cases h with rfl | ⟨ds, rfl, hds⟩
  · simp
  · simp only [mem_cons, not_or]
    exact ⟨hc, fun hmem => by simp [hds c hmem] at hdigit⟩

theorem HostByte.plainByte (h : HostByte c) : PlainByte c := fun hlow => .inl (h hlow)

theorem EscapedByte.plainByte (h : EscapedByte .host c) : PlainByte c := by
  intro hlow
  rcases h with hhigh | hpercent
  · exact absurd hlow (UInt8.not_lt.mpr hhigh)
  · exact .inr hpercent

theorem Escaped.plainBytes {s t : Bytes} (h : Escaped .host s t) : ∀ c ∈ t, PlainByte c :=
  fun c hc => (h.bytes c hc).elim HostByte.plainByte EscapedByte.plainByte

theorem Escaped.zoneBytes {s t : Bytes} (h : Escaped .zone s t) : ∀ c ∈ t, PlainByte c ∨ c = spChar := by
  intro c hc
  rcases h.bytes c hc with hbyte | hbyte | rfl | rfl
  · exact .inl hbyte.plainByte
  · exact .inl fun _ => .inl hbyte
  · exact .inl fun _ => .inr rfl
  · exact .inr rfl

theorem Escaped.bracket_end {port t : Bytes} (h : Escaped mode (ch ']' :: port) t) (hport : validOptionalPort port = true) :
    t = ch ']' :: port := by
  apply h.eq_of_not_mem
  simp only [mem_cons, not_or]
  exact ⟨by decide, not_mem_port hport (by decide) (by decide)⟩

theorem shape_of_bracket {l h : Bytes} (hstart : (l ++ ch ']' :: port).head? = some (ch '[')) (hport : validOptionalPort port = true)
    (hesc : Escaped .host (l ++ ch ']' :: port) h) : HostShape h := by
  obtain ⟨t₁, t₂, rfl, h₁, h₂⟩ := hesc.cut (by decide)
  cases l with
  | nil => exact absurd (Option.some.inj hstart) (by decide)
  | cons d l =>
    have hhead := (h₁.head_eq (by decide) (by decide)).mpr hstart
    have hplain := h₁.plainBytes
    obtain ⟨t₁, rfl⟩ : ∃ l, t₁ = ch '[' :: l := List.head?_eq_some_iff.mp hhead
    rw [h₂.bracket_end hport]
    exact .bracket (fun c hc => hplain c (by simp [hc])) hport

theorem last_cut_inj {u u' v v' : Bytes} (hv : a ∉ v) (hv' : a ∉ v') (h : u ++ a :: v = u' ++ a :: v') : u = u' ∧ v = v' := by
  have hrev : v.reverse ++ a :: u.reverse = v'.reverse ++ a :: u'.reverse := by simpa using congrArg reverse h
  obtain ⟨h₁, h₂⟩ := FirstIndex.append_cons_inj (by simpa using hv) (by simpa using hv') hrev
  exact ⟨reverse_injective h₂, reverse_injective h₁⟩

theorem colon_not_mem_digits {ds : Bytes} (h : ∀ c ∈ ds, isDigit c = true) : ch ':' ∉ ds :=
  fun hmem => absurd (h _ hmem) (by decide)

theorem shape_of_port {l ds h : Bytes} (hstart : (l ++ ch ':' :: ds).head? ≠ some (ch '[')) (hds : ∀ c ∈ ds, isDigit c = true)
    (hesc : Escaped .host (l ++ ch ':' :: ds) h) : HostShape h := by
  have hhead := (hesc.head_eq (c := ch '[') (by decide) (by decide)).not.mpr hstart
  have hplain := hesc.plainBytes
  obtain ⟨t₁, t₂, rfl, -, h₂⟩ := hesc.cut (by decide)
  have hport : t₂ = ch ':' :: ds := by
    apply h₂.eq_of_not_mem
    simp only [mem_cons, not_or]
    exact ⟨by decide, fun hmem => absurd (hds _ hmem) (by decide)⟩
  subst hport
  refine .name hplain hhead ?_
  intro l' r he hr
  obtain ⟨-, rfl⟩ := last_cut_inj (colon_not_mem_digits hds) hr he
  exact hds

theorem shape_of_name {s h : Bytes} (hstart : s.head? ≠
    some (ch '[')) (hcolon : ch ':' ∉ s) (hesc : Escaped .host s h) : HostShape h := by
  refine .name hesc.plainBytes ((hesc.head_eq (by decide) (by decide)).not.mpr hstart) ?_
  rintro l r rfl -
  rcases hesc.host_mem (ch ':') (by simp) with hmem | hhigh | hpercent
  · exact absurd hmem hcolon
  · exact absurd hhigh (by decide)
  · exact absurd hpercent (by decide)

theorem zone_cut {l port : Bytes} {n : Nat} (hstart : (l ++ ch ']' :: port).head? = some (ch '[')) (h : find strPercent25 l = some n) :
    ∃ addr zone, l = addr ++ (strPercent25 ++ zone) ∧ addr.length = n ∧ addr.head? = some (ch '[') := by
  obtain ⟨zone, hzone⟩ := prefix_of_find h
  have hle : n ≤ l.length := by
    by_contra hgt
    rw [drop_eq_nil_of_le (by omega)] at hzone
    exact absurd hzone (by simp [strPercent25, ascii])
  refine ⟨l.take n, zone, by rw [hzone, take_append_drop], by rw [length_take, Nat.min_eq_left hle], ?_⟩
  cases l with
  | nil => exact absurd (Option.some.inj hstart) (by decide)
  | cons d l =>
    cases n with
    | zero =>
      have hd : d = ch '%' := (List.cons.inj hzone).1.symm
      exact absurd (Option.some.inj hstart) (by rw [hd]; decide)
    | succ n => exact hstart

theorem ok_of_bind {α β ε : Type} {x : Except ε α} {f : α → Except ε β} {r : β} (h : (x >>= f) = .ok r) :
    ∃ a, x = .ok a ∧ f a = .ok r := by
  cases x with
  | error e => exact absurd h (by simp [bind, Except.bind])
  | ok a => exact ⟨a, rfl, h⟩

variable {h : Bytes}

theorem parseHost_pieces (hp : parseHost host = .ok h) :
    (∃ addr zone port h₁ h₂ h₃, host = addr ++ (strPercent25 ++ zone) ++ ch ']' :: port ∧
      addr.head? = some (ch '[') ∧ validOptionalPort port = true ∧
      Escaped .host addr h₁ ∧ Escaped .zone (strPercent25 ++ zone) h₂ ∧ Escaped .host (ch ']' :: port) h₃ ∧ h = h₁ ++ h₂ ++ h₃) ∨
    (Escaped .host host h ∧
      ((∃ l port, host = l ++ ch ']' :: port ∧ host.head? = some (ch '[') ∧ validOptionalPort port = true) ∨
        (host.head? ≠ some (ch '[') ∧ (ch ':' ∉ host ∨ ∃ l ds, host = l ++ ch ':' :: ds ∧ ∀ c ∈ ds, isDigit c = true)))) := by
  unfold parseHost at hp
  split at hp
  · rename_i hstart
    split at hp
    · contradiction
    · rename_i i hi
      obtain ⟨l, port, rfl, -, rfl⟩ := lastIndexByte_last hi
      have hbehind : (l ++ ch ']' :: port).drop (l.length + 1) = port := by simp
      rw [hbehind, take_left, drop_left] at hp
      split at hp
      · contradiction
      · rename_i hport
        simp only [Bool.not_eq_true', Bool.not_eq_false] at hport
        split at hp
        · rename_i n hzone
          obtain ⟨addr, zone, rfl, rfl, haddr⟩ := zone_cut hstart hzone
          rw [append_assoc, take_left, drop_left] at hp
          obtain ⟨t₁, h₁, hp⟩ := ok_of_bind hp
          obtain ⟨t₂, h₂, hp⟩ := ok_of_bind hp
          obtain ⟨t₃, h₃, hp⟩ := ok_of_bind hp
          cases hp
          exact .inl ⟨addr, zone, port, t₁, t₂, t₃, rfl, haddr, hport, escaped_of_unescape h₁, escaped_of_unescape h₂,
            escaped_of_unescape h₃, rfl⟩
        · exact .inr ⟨escaped_of_unescape hp, .inl ⟨l, port, rfl, hstart, hport⟩⟩
  · rename_i hstart
    split at hp
    · rename_i i hi
      obtain ⟨l, ds, rfl, -, rfl⟩ := lastIndexByte_last hi
      rw [drop_left] at hp
      split at hp
      · contradiction
      · rename_i hport
        simp only [Bool.not_eq_true', Bool.not_eq_false, validOptionalPort, decide_true, Bool.true_and, all_eq_true] at hport
        exact .inr ⟨escaped_of_unescape hp, .inr ⟨hstart, .inr ⟨l, ds, rfl, hport⟩⟩⟩
    · rename_i hnone
      exact .inr ⟨escaped_of_unescape hp, .inr ⟨hstart, .inl (lastIndexByte_none hnone)⟩⟩

theorem parseHost_shape (hp : parseHost host = .ok h) : HostShape h := by
  rcases parseHost_pieces hp with ⟨addr, zone, port, h₁, h₂, h₃, -, haddr, hport, hone, htwo, hthree, rfl⟩ |
    ⟨hesc, ⟨l, port, rfl, hstart, hport⟩ | ⟨hstart, hcolon | ⟨l, ds, rfl, hds⟩⟩⟩
  · have hhead := (hone.head_eq (by decide) (by decide)).mpr haddr
    have hplain := hone.plainBytes
    obtain ⟨h₁, rfl⟩ : ∃ l, h₁ = ch '[' :: l := List.head?_eq_some_iff.mp hhead
    rw [hthree.bracket_end hport]
    cases htwo with
    | plain hne => exact absurd rfl hne
    | escape _ _ _ hz => exact .zone (fun c hc => hplain c (by simp [hc])) hz.zoneBytes hport
  · exact shape_of_bracket hstart hport hesc
  · exact shape_of_name hstart hcolon hesc
  · exact shape_of_port hstart hds hesc

theorem parseHost_source (hp : parseHost host = .ok h) : ∀ c ∈ host, c = ch '%' ∨ ishex c = true ∨ HostByte c := by
  rcases parseHost_pieces hp with ⟨addr, zone, port, h₁, h₂, h₃, rfl, -, -, hone, htwo, hthree, -⟩ | ⟨hesc, -⟩
  · exact forall_mem_append.mpr ⟨forall_mem_append.mpr ⟨hone.source, htwo.source⟩, hthree.source⟩
  · exact hesc.source

theorem shouldEscape_lower : ∀ c, shouldEscape (toLowerTable c) = shouldEscape c ∧ (toLowerTable c < 0x80 ↔ c < 0x80) :=
  forall_byte (by decide +kernel)

theorem toLowerTable_not_upper : ∀ c, isUpper (toLowerTable c) = false := forall_byte (by decide +kernel)

theorem eq_of_toLowerTable {x : Byte} (hx : isLower x = false) (h : toLowerTable c = x) : c = x := by
  have hlower : ∀ c, isLower (toLowerTable c) = true ∨ toLowerTable c = c := forall_byte (by decide +kernel)
  rcases hlower c with hc | hc
  · rw [h, hx] at hc
    cases hc
  · rw [← h, hc]

theorem PlainByte.lower (h : PlainByte c) : PlainByte (toLowerTable c) := by
  intro hlow
  rcases h ((shouldEscape_lower c).2.mp hlow) with hc | rfl
  · exact .inl (by rw [(shouldEscape_lower c).1, hc])
  · exact .inr (by decide)

theorem lowercase_digits {ds : Bytes} (h : ∀ c ∈ ds, isDigit c = true) : lowercaseBytes ds = ds := by
  have hdigit : ∀ c, isDigit c = true → toLowerTable c = c := forall_byte (by decide +kernel)
  exact (map_congr_left fun c hc => hdigit c (h c hc)).trans (map_id' ds)

theorem lowercase_port (h : validOptionalPort port = true) : lowercaseBytes port = port := by
  rcases validOptionalPort_cases h with rfl | ⟨ds, rfl, hds⟩
  · rfl
  · exact congrArg (List.cons (ch ':')) (lowercase_digits hds)

theorem HostShape.lower (hs : HostShape h) : HostShape (lowercaseBytes h) := by
  cases hs with
  | @zone addr zone port haddr hzone hport =>
    have heq : lowercaseBytes (ch '[' :: addr ++ ch '%' :: zone ++ ch ']' :: port) =
        ch '[' :: lowercaseBytes addr ++ ch '%' :: lowercaseBytes zone ++ ch ']' :: lowercaseBytes port := by
      simp only [lowercaseBytes, map_append]
      rfl
    rw [heq, lowercase_port hport]
    refine .zone ?_ ?_ hport
    · exact forall_mem_map.mpr fun c hc => (haddr c hc).lower
    · exact forall_mem_map.mpr fun c hc => (hzone c hc).imp PlainByte.lower fun h => by rw [h]; decide
  | @bracket addr port haddr hport =>
    have heq : lowercaseBytes (ch '[' :: addr ++ ch ']' :: port) = ch '[' :: lowercaseBytes addr ++ ch ']' :: lowercaseBytes port := by
      simp only [lowercaseBytes, map_append]
      rfl
    rw [heq, lowercase_port hport]
    exact .bracket (forall_mem_map.mpr fun c hc => (haddr c hc).lower) hport
  | name hplain hstart hport =>
    refine .name (forall_mem_map.mpr fun c hc => (hplain c hc).lower) ?_ ?_
    · rw [lowercaseBytes, head?_map]
      intro he
      obtain ⟨c, hc, hlower⟩ := Option.map_eq_some_iff.mp he
      rw [eq_of_toLowerTable (by decide) hlower] at hc
      exact hstart hc
    · intro l r he hr
      obtain ⟨l, t, rfl, rfl, ht⟩ := map_eq_append_iff.mp he
      obtain ⟨c, r, rfl, hc, rfl⟩ := map_eq_cons_iff.mp ht
      obtain rfl := eq_of_toLowerTable (by decide) hc
      have hdigits := hport l r rfl fun hmem => hr (mem_map.mpr ⟨_, hmem, by decide⟩)
      have hsame : r.map toLowerTable = r := lowercase_digits hdigits
      rwa [hsame]

/-! ## Hosts of parsed URIs -/

/-- What a host looks like: a space stands in a zone, that is behind a `%` and in brackets. -/
structure HostText (h : Bytes) : Prop where
  bytes : ∀ l c r, h = l ++ c :: r → c < 0x80 → isLower c = true ∨ isDigit c = true ∨ c ∈ ascii "-_.~!$&'()*+,;=:[]<>\"" ∨ c = ch '%' ∨
    (c = spChar ∧ l.head? = some (ch '[') ∧ ch '%' ∈ l ∧ ch ']' ∈ r)
  no_delimiter : ∀ c ∈ h, c ∉ ascii "/\\?#@" ∧ 32 ≤ c ∧ c ≠ 0x7f
  bracketed : h.head? = some (ch '[') →
    ∃ l r, h = l ++ ch ']' :: r ∧ ch ']' ∉ r ∧ (r = [] ∨ ∃ ds, r = ch ':' :: ds ∧ ∀ c ∈ ds, isDigit c = true)
  named : h.head? ≠ some (ch '[') → ∀ l r, h = l ++ ch ':' :: r → ch ':' ∉ r → ∀ c ∈ r, isDigit c = true

theorem between_of_not_mem {A Z B l r : Bytes} (hA : c ∉ A) (hB : c ∉ B) (h : A ++ Z ++ B = l ++ c :: r) : A <+: l ∧ B <:+ r := by
  constructor
  · rw [append_assoc] at h
    rcases append_eq_append_iff.mp h with ⟨u, hu, -⟩ | ⟨u, hu, hrest⟩
    · exact ⟨u, hu.symm⟩
    · cases u with
      | nil => exact ⟨[], by simp [hu]⟩
      | cons d u =>
        obtain rfl := (List.cons.inj hrest).1
        exact absurd (by simp [hu]) hA
  · rw [← singleton_append, ← append_assoc] at h
    rcases append_eq_append_iff.mp h with ⟨u, hu, hrest⟩ | ⟨u, -, hrest⟩
    · rcases eq_nil_or_concat' u with rfl | ⟨u, d, rfl⟩
      · exact ⟨[], by simp [hrest]⟩
      · rw [← append_assoc] at hu
        obtain rfl : c = d := by simpa using (append_inj' hu rfl).2
        exact absurd (by simp [hrest]) hB
    · exact ⟨u, hrest.symm⟩

theorem plain_text : ∀ c : Byte, c < 0x80 → isUpper c = false → shouldEscape c = false →
    isLower c = true ∨ isDigit c = true ∨ c ∈ ascii "-_.~!$&'()*+,;=:[]<>\"" := forall_byte (by decide +kernel)

theorem plain_no_delimiter : ∀ c : Byte, (c < 0x80 → shouldEscape c = false ∨ c = ch '%' ∨ c = spChar) →
    c ∉ ascii "/\\?#@" ∧ 32 ≤ c ∧ c ≠ 0x7f := forall_byte (by decide +kernel)

theorem space_not_plain : ¬ PlainByte spChar := fun h => absurd (h (by decide)) (by decide)

theorem plain_not_space {s : Bytes} (h : ∀ c ∈ s, PlainByte c) : spChar ∉ s := fun hmem => space_not_plain (h _ hmem)

theorem space_not_mem_port (h : validOptionalPort port = true) : spChar ∉ port := not_mem_port h (by decide) (by decide)

theorem bracket_not_mem_port {port : Bytes} (h : validOptionalPort port = true) : ch ']' ∉ port :=
    not_mem_port h (by decide) (by decide)

theorem digit_plain : ∀ c : Byte, isDigit c = true ∨ c = ch ':' ∨ c = ch '[' ∨ c = ch ']' ∨ c = ch '%' →
    shouldEscape c = false ∨ c = ch '%' :=
  forall_byte (by decide +kernel)

theorem port_plain (h : validOptionalPort port = true) : ∀ c ∈ port, PlainByte c := by
  intro c hc _
  rcases validOptionalPort_cases h with rfl | ⟨ds, rfl, hds⟩
  · simp at hc
  · rcases mem_cons.mp hc with rfl | hc
    · exact digit_plain _ (.inr (.inl rfl))
    · exact digit_plain c (.inl (hds c hc))

namespace HostShape

variable {h : Bytes}

theorem bytes (hs : HostShape h) : ∀ c ∈ h, PlainByte c ∨ c = spChar := by
  have hmark {c : Byte} (hc : isDigit c = true ∨ c = ch ':' ∨ c = ch '[' ∨ c = ch ']' ∨ c = ch '%') : PlainByte c ∨ c = spChar :=
    .inl fun _ => digit_plain c hc
  cases hs with
  | zone haddr hzone hport =>
    intro c hc
    simp only [cons_append, append_assoc, mem_cons, mem_append] at hc
    rcases hc with rfl | hc | rfl | hc | rfl | hc
    · exact hmark (by decide)
    · exact .inl (haddr c hc)
    · exact hmark (by decide)
    · exact hzone c hc
    · exact hmark (by decide)
    · exact .inl (port_plain hport c hc)
  | bracket haddr hport =>
    intro c hc
    simp only [cons_append, mem_cons, mem_append] at hc
    rcases hc with rfl | hc | rfl | hc
    · exact hmark (by decide)
    · exact .inl (haddr c hc)
    · exact hmark (by decide)
    · exact .inl (port_plain hport c hc)
  | name hplain => exact fun c hc => .inl (hplain c hc)

theorem space (hs : HostShape h) {l r : Bytes} (he : h = l ++ spChar :: r) : l.head? = some (ch '[') ∧ ch '%' ∈ l ∧ ch ']' ∈ r := by
  cases hs with
  | @zone addr zone port haddr hzone hport =>
    have hcut : (ch '[' :: addr ++ [ch '%']) ++ zone ++ (ch ']' :: port) = l ++ spChar :: r := by
      rw [← he]
      simp
    have hfront : spChar ∉ ch '[' :: addr ++ [ch '%'] := by
      simp only [mem_append, mem_cons, not_or]
      exact ⟨⟨by decide, plain_not_space haddr⟩, by decide⟩
    have hback : spChar ∉ ch ']' :: port := by
      simp only [mem_cons, not_or]
      exact ⟨by decide, space_not_mem_port hport⟩
    obtain ⟨hl, hr⟩ := between_of_not_mem hfront hback hcut
    refine ⟨?_, hl.subset (by simp), hr.subset (by simp)⟩
    obtain ⟨u, rfl⟩ := hl
    rfl
  | @bracket addr port haddr hport =>
    have hmem : spChar ∈ ch '[' :: addr ++ ch ']' :: port := by simp [he]
    simp only [cons_append, mem_cons, mem_append] at hmem
    rcases hmem with hc | hc | hc | hc
    · exact absurd hc (by decide)
    · exact absurd hc (plain_not_space haddr)
    · exact absurd hc (by decide)
    · exact absurd hc (space_not_mem_port hport)
  | name hplain => exact absurd (by simp [he]) (plain_not_space hplain)

theorem no_delimiter (hs : HostShape h) : ∀ c ∈ h, c ∉ ascii "/\\?#@" ∧ 32 ≤ c ∧ c ≠ 0x7f := by
  intro c hc
  refine plain_no_delimiter c fun hlow => ?_
  exact (hs.bytes c hc).elim (fun h => (h hlow).imp_right .inl) fun h => .inr (.inr h)

theorem text (hs : HostShape h) (hupper : ∀ c ∈ h, isUpper c = false) : HostText h := by
  refine ⟨?_, hs.no_delimiter, ?_, ?_⟩
  · intro l c r he hlow
    have hc : c ∈ h := by simp [he]
    rcases hs.bytes c hc with hplain | rfl
    · rcases hplain hlow with hplain | rfl
      · exact (plain_text c hlow (hupper c hc) hplain).imp_right (·.imp_right .inl)
      · exact .inr (.inr (.inr (.inl rfl)))
    · exact .inr (.inr (.inr (.inr ⟨rfl, hs.space he⟩)))
  · intro hstart
    cases hs with
    | zone _ _ hport => exact ⟨_, _, rfl, bracket_not_mem_port hport, validOptionalPort_cases hport⟩
    | bracket _ hport => exact ⟨_, _, rfl, bracket_not_mem_port hport, validOptionalPort_cases hport⟩
    | name _ hnot => exact absurd hstart hnot
  · intro hnot
    cases hs with
    | zone | bracket => exact absurd rfl hnot
    | name _ _ hport => exact hport

end HostShape

theorem parse_ok {uri : Bytes} {isTLS : Bool} (h : (parse host uri isTLS).1 = none) :
    stringContainsCTLByte uri = false ∧ ∃ name, parseHost (splitUser (split host uri).2.1).2.2 = .ok name ∧
      (parse host uri isTLS).2 =
        { URI.zero with
          scheme := if isTLS then strHTTPS else lowercaseBytes (split host uri).1
          username := (splitUser (split host uri).2.1).1
          password := (splitUser (split host uri).2.1).2.1
          host := lowercaseBytes name
          pathOriginal := (splitQuery (split host uri).2.2).1
          path := normalizePath (splitQuery (split host uri).2.2).1
          queryString := (splitQuery (split host uri).2.2).2.1
          hash := (splitQuery (split host uri).2.2).2.2 } := by
  unfold parse at h ⊢
  split at h
  · contradiction
  · rename_i hctl
    rw [if_neg hctl]
    rcases hp : parseHost (splitUser (split host uri).2.1).2.2 with err | name
    · simp [hp] at h
    · exact ⟨by simpa using hctl, name, rfl, by simp [hp]⟩

theorem parse_shape {uri : Bytes} {isTLS : Bool} (h : (parse host uri isTLS).1 = none) : HostShape (parse host uri isTLS).2.host := by
  obtain ⟨-, name, hname, hu⟩ := parse_ok h
  rw [hu]
  exact (parseHost_shape hname).lower

/-- A host that was parsed is in lower case and holds no delimiter, and what stands behind it is a port. -/
theorem parse_host_text (host uri : Bytes) (h : (Parse host uri).1 = none) : HostText (Parse host uri).2.host := by
  apply (parse_shape h).text
  obtain ⟨-, name, -, hu⟩ := parse_ok h
  rw [hu]
  exact forall_mem_map.mpr fun c _ => toLowerTable_not_upper c

theorem parse_host_text_zone :
    (Parse (ascii "u@[FE80::1%25en%200]:8080") (ascii "/x")).2.host = ascii "[fe80::1%en 0]:8080" ∧
      HostText (Parse (ascii "u@[FE80::1%25en%200]:8080") (ascii "/x")).2.host :=
  ⟨by decide +kernel, parse_host_text _ _ (by decide +kernel)⟩

end Fasthttp.Uri
