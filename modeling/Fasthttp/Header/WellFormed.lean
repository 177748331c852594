import Fasthttp.Header.Field
import Fasthttp.Header.Forbidden
import Fasthttp.Header.Injection

/-!
# Accepted request heads

The names and the values of an accepted head are legal, whatever its lines are.
-/

namespace Fasthttp

open Scanner FirstIndex List

namespace RequestHeader

def values (h : RequestHeader) : List Bytes :=
  [h.host, h.contentType, h.userAgent, h.contentLengthBytes] ++ h.h.map ArgsKV.value ++ h.trailer.map ArgsKV.key

structure WellFormed (h : RequestHeader) : Prop where
  method : h.method ≠ [] ∧ h.method.all validMethodValueByte = true
  proto : ∃ major minor, isDigit major = true ∧ isDigit minor = true ∧ h.proto = ascii "HTTP/" ++ [major, ch '.', minor]
  requestURI : h.requestURI ≠ []
  names : ∀ kv ∈ h.h, kv.key ≠ [] ∧ kv.key.all validHeaderFieldByte = true
  values : ∀ v ∈ h.values, v.all validHeaderValueByte = true ∧ rChar ∉ v ∧ nChar ∉ v

structure Legal (h : RequestHeader) : Prop where
  names : ∀ kv ∈ h.h, kv.key ≠ [] ∧ kv.key.all validHeaderFieldByte = true
  values : ∀ v ∈ h.values, v.all validHeaderValueByte = true

end RequestHeader

theorem all_of_sameName {p : Byte → Bool} (hp : ∀ c, p (toLowerTable c) = p c) {a b : Bytes} (h : SameName a b) :
    a.all p = b.all p := by
  have hmap : ∀ k : Bytes, (k.map toLowerTable).all p = k.all p := by
    intro k
    rw [all_map]
    exact congrArg k.all (funext hp)
  rw [← hmap a, h, hmap b]

theorem validHeaderValueByte_lower : ∀ c, validHeaderValueByte (toLowerTable c) = validHeaderValueByte c :=
    forall_byte (by decide +kernel)

theorem addRequestTrailer_legal {d : Bool} {v : Bytes} (hv : v.all validHeaderValueByte = true) :
    ∀ kv ∈ (addRequestTrailer d [] v).1, kv.key.all validHeaderValueByte = true := by
  obtain ⟨hrec, -⟩ := foldl_trailers (rejectsTrailer true d) (initHeaderK · d)
    (fun k => .headerParse "bad trailer key" (initHeaderK k d))
    (commaList (v.length + 1) v) [] none
  intro kv hkv
  rw [show (addRequestTrailer d [] v).1 = _ from hrec, nil_append, mem_map] at hkv
  obtain ⟨name, hname, rfl⟩ := hkv
  rw [all_of_sameName validHeaderValueByte_lower (initHeaderK_lower name d), all_eq_true]
  intro c hc
  exact all_eq_true.mp hv c (commaList_subset (mem_of_mem_filter hname) hc)

namespace RequestHeader

variable {h h' : RequestHeader} {v : Bytes}

theorem values_of (hh : h.Legal) (hv : v.all validHeaderValueByte = true)
    (hvalues : ∀ x ∈ h'.values, x ∈ h.values ∨ x = v ∨ x = []) : ∀ x ∈ h'.values, x.all validHeaderValueByte = true := by
  intro x hx
  rcases hvalues x hx with hx | rfl | rfl
  · exact hh.values x hx
  · exact hv
  · rfl

theorem Legal.append {k : Bytes} (hh : h.Legal) (hne : k ≠ []) (hk : k.all validHeaderFieldByte = true)
    (hv : v.all validHeaderValueByte = true) (c : Bool) :
    ({ h with connectionClose := c, h := appendArg h.h k v false } : RequestHeader).Legal where
  names := forall_mem_append.mpr ⟨hh.names, by simpa [hne] using hk⟩
  values := by
    refine values_of hh hv fun x hx => ?_
    simp only [RequestHeader.values, appendArg, map_append, mem_append, map_cons, map_nil, mem_singleton] at hx ⊢
    tauto

theorem Taken.legal {k : Bytes} (ht : Taken h k v h') (hh : h.Legal) (hne : k ≠ [])
    (hk : k.all validHeaderFieldByte = true) (hv : v.all validHeaderValueByte = true) : h'.Legal := by
  cases ht with
  | generic => exact hh.append hne hk hv h.connectionClose
  | connection => exact hh.append hne hk hv false
  | host | userAgent | contentType =>
    refine ⟨hh.names, values_of hh hv fun x hx => ?_⟩
    simp only [RequestHeader.values, mem_append, mem_cons] at hx ⊢
    tauto
  | lengthSeen | close => exact ⟨hh.names, hh.values⟩
  | length =>
    refine ⟨hh.names, values_of hh hv fun x hx => ?_⟩
    simp only [RequestHeader.values, mem_append, mem_cons] at hx ⊢
    tauto
  | chunked =>
    constructor
    · exact forall_setArg hh.names (by decide +kernel)
    · refine values_of (v := strChunked) hh (by decide +kernel) fun x hx => ?_
      simp only [RequestHeader.values, mem_append, mem_map] at hx ⊢
      rcases hx with (hx | ⟨kv, hkv, rfl⟩) | hx
      · exact .inl (.inl (.inl hx))
      · revert kv
        exact forall_setArg (fun kv hkv => .inl (.inl (.inr ⟨kv, hkv, rfl⟩))) (.inr (.inl rfl))
      · exact .inl (.inr hx)
  | trailer =>
    refine ⟨hh.names, fun x hx => ?_⟩
    simp only [RequestHeader.values, mem_append, mem_map] at hx
    rcases hx with hx | ⟨kv, hkv, rfl⟩
    · exact hh.values x (by simp only [RequestHeader.values, mem_append, mem_map]; exact .inl hx)
    · exact addRequestTrailer_legal hv kv hkv

def line (h : RequestHeader) : Bytes × Bytes × Bytes := (h.method, h.requestURI, h.proto)

theorem parseHeaders_legal {buf mem : Bytes} {n : Nat} (hh : h.Legal) (hok : h.parseHeaders buf = (h', mem, .ok n)) :
    h'.Legal ∧ h'.line = h.line := by
  obtain ⟨fs, h₁, -, hfeed, rfl⟩ := parseHeaders_block hok
  have hstep : ∀ (past : List (Bytes × Bytes)) (f : Bytes × Bytes) (h₀ h₁ : RequestHeader), (h₀.Legal ∧ h₀.line = h.line) →
      h₀.parseField (initHeaderK f.1 h.disableNormalizing) f.2 = (h₁, none) → h₁.Legal ∧ h₁.line = h.line := by
    rintro past f h₀ h₁ ⟨hl, hline⟩ hbody
    obtain ⟨hne, hk, hv, htaken⟩ := parseField_taken hbody
    have hkeep : h₁.line = h₀.line := by cases htaken <;> rfl
    exact ⟨htaken.legal hl hne hk hv, hkeep.trans hline⟩
  obtain ⟨hl, hline⟩ := feed_invariant (I := fun _ h₀ => h₀.Legal ∧ h₀.line = h.line) hstep [] ⟨⟨hh.names, hh.values⟩, rfl⟩ hfeed
  refine ⟨⟨hl.names, values_of hl (v := []) rfl fun x hx => ?_⟩, hline⟩
  unfold finish at hx
  simp only [RequestHeader.values, mem_append, mem_cons] at hx ⊢
  split at hx <;> tauto

/-! ## The request line -/

end RequestHeader

theorem lastIndexByte_cut {b : Bytes} {c : Byte} {n : Nat} (h : lastIndexByte b c = some n) :
    ∃ u v, b = u ++ c :: v ∧ u.length = n := by
  obtain ⟨i, hi, rfl⟩ := Option.map_eq_some_iff.mp h
  obtain ⟨u, v, hb, -, rfl⟩ := idxOf?_cut hi
  have hrev : b = v.reverse ++ c :: u.reverse := by
    rw [← reverse_reverse b, hb]
    simp
  refine ⟨v.reverse, u.reverse, hrev, ?_⟩
  rw [hrev]
  simp

namespace RequestHeader

structure RequestLine (l method uri : Bytes) (major sep minor : Byte) : Prop where
  line : l = method ++ spChar :: (uri ++ spChar :: (ascii "HTTP/" ++ [major, sep, minor]))
  noSpace : spChar ∉ method
  method : method ≠ []
  uri : uri ≠ []
  major : isDigit major = true
  minor : isDigit minor = true

theorem parseFirstLine_ok {h h₀ : RequestHeader} {buf : Bytes} {m : Int} (hok : h.parseFirstLine buf = (h₀, .ok m)) :
    ∃ l rest method uri a x b, nextLine buf = some (l, rest) ∧ RequestLine l method uri a x b ∧
      h₀.line = (method, uri, ascii "HTTP/" ++ [a, x, b]) ∧ h₀.h = h.h ∧ h₀.values = h.values := by
  unfold parseFirstLine at hok
  rcases hnext : nextLine buf with _ | ⟨l, rest⟩
  · simp [hnext] at hok
  simp only [hnext] at hok
  split at hok
  · simp at hok
  next hn1 =>
  split at hok
  · simp at hok
  split at hok
  · simp at hok
  next hn2 =>
  split at hok
  · simp at hok
  next hversion =>
  rcases hi : indexByte l spChar with _ | n1
  · simp [hi] at hn1
  obtain ⟨method, b, rfl, hspace, rfl⟩ := idxOf?_cut hi
  have hdrop : (method ++ spChar :: b).drop (method.length + 1) = b := by simp
  simp only [hi, Option.getD_some, hdrop] at hok hn1 hn2 hversion
  rcases hj : lastIndexByte b spChar with _ | n2
  · simp [hj] at hn2
  obtain ⟨uri, proto, rfl, rfl⟩ := lastIndexByte_cut hj
  have hdrop' : (uri ++ spChar :: proto).drop (uri.length + 1) = proto := by simp
  simp only [hj, Option.getD_some, hdrop', Bool.or_eq_true, decide_eq_true_eq, Bool.not_eq_true', not_or, Decidable.not_not,
    Bool.not_eq_false] at hok hn2 hversion
  obtain ⟨⟨⟨hlen, hname⟩, hmajor⟩, hminor⟩ := hversion
  have htail : (proto.drop 5).length = 3 := by rw [length_drop, hlen]; rfl
  obtain ⟨a, x, b, hlast⟩ := length_eq_three.mp htail
  obtain rfl : proto = ascii "HTTP/" ++ [a, x, b] := by
    rw [← take_append_drop 5 proto, hname, hlast]
    rfl
  simp only [Prod.mk.injEq] at hok
  refine ⟨_, rest, method, uri, a, x, b, rfl, ⟨rfl, hspace, ?_, ?_, hmajor, hminor⟩, ?_⟩
  · simpa using hn1
  · simpa using hn2
  · rw [← hok.1]
    simp [line, values]

def firstLine (buf : Bytes) : Bytes := ((nextLine buf).map Prod.fst).getD []

/-- The bytes before the first space may stand in a method, and the last byte but one is a dot. -/
def LegalLine (l : Bytes) : Prop := (l.takeWhile (· ≠ spChar)).all validMethodValueByte = true ∧ l.reverse[1]? = some (ch '.')

theorem RequestLine.legal_iff {l method uri : Bytes} {a x b : Byte} (h : RequestLine l method uri a x b) :
    LegalLine l ↔ method.all validMethodValueByte = true ∧ x = ch '.' := by
  have hmethod : l.takeWhile (· ≠ spChar) = method := by
    rw [h.line, takeWhile_append_of_pos]
    · simp
    · intro c hc
      simp only [decide_eq_true_eq]
      rintro rfl
      exact h.noSpace hc
  have hsep : l.reverse[1]? = some x := by
    rw [h.line]
    simp
  rw [LegalLine, hmethod, hsep, Option.some.injEq]

theorem proto_iff {p : Bytes} {a x b : Byte} (hp : p = ascii "HTTP/" ++ [a, x, b]) (ha : isDigit a = true) (hb : isDigit b = true) :
    (∃ major minor, isDigit major = true ∧ isDigit minor = true ∧ p = ascii "HTTP/" ++ [major, ch '.', minor]) ↔ x = ch '.' := by
  constructor
  · rintro ⟨major, minor, -, -, hp'⟩
    have htail := append_cancel_left (hp.symm.trans hp')
    simp only [List.cons.injEq] at htail
    exact htail.2.1
  · rintro rfl
    exact ⟨a, b, ha, hb, hp⟩

theorem reset_legal (h : RequestHeader) : h.resetSkipNormalize.Legal := by
  constructor
  · intro kv hkv
    exact absurd hkv (by simp [resetSkipNormalize, zero])
  · intro v hv
    have hnil : v = [] := by simpa [resetSkipNormalize, zero, RequestHeader.values] using hv
    rw [hnil]
    rfl

theorem parse_requestLine {h h' : RequestHeader} {buf mem : Bytes} {n : Nat}
    (hok : h.resetSkipNormalize.parse buf = (h', mem, .ok n)) :
    ∃ method uri a x b, RequestLine (firstLine buf) method uri a x b ∧ h'.line = (method, uri, ascii "HTTP/" ++ [a, x, b]) ∧
      h'.Legal := by
  unfold parse at hok
  rcases hfirst : h.resetSkipNormalize.requestLine buf with ⟨h₀, e | m⟩
  · simp [hfirst] at hok
  simp only [hfirst] at hok
  split at hok
  · simp at hok
  split at hok
  · simp at hok
  obtain ⟨l, rest, method, uri, a, x, b, hnext, hline, hsays, hlist, hvalues⟩ := parseFirstLine_ok hfirst
  have hl : (h₀.keepRaw (buf.drop m.toNat)).Legal := by
    constructor
    · intro kv hkv
      exact (reset_legal h).names kv (hlist ▸ hkv)
    · intro v hv
      exact (reset_legal h).values v (hvalues ▸ hv)
  generalize hp : (h₀.keepRaw (buf.drop m.toNat)).parseHeaders (buf.drop m.toNat) = p at hok
  obtain ⟨h₁, mem₁, e | k⟩ := p
  · simp [Except.map] at hok
  obtain ⟨hlegal, hkeep⟩ := parseHeaders_legal hl hp
  simp only [Prod.mk.injEq] at hok
  rw [← hok.1]
  have hl' : firstLine buf = l := by rw [firstLine, hnext]; rfl
  exact ⟨method, uri, a, x, b, hl' ▸ hline, hkeep.trans hsays, hlegal⟩

theorem validHeaderValueByte_breaks : validHeaderValueByte rChar = false ∧ validHeaderValueByte nChar = false := by decide +kernel

/-- A head that a reset header accepts is well formed exactly when its request line is legal. -/
theorem parse_wellFormed_iff {h h' : RequestHeader} {buf mem : Bytes} {n : Nat}
    (hok : h.resetSkipNormalize.parse buf = (h', mem, .ok n)) :
    h'.WellFormed ↔ LegalLine (firstLine buf) := by
  obtain ⟨method, uri, a, x, b, hline, hsays, hlegal⟩ := parse_requestLine hok
  simp only [line, Prod.mk.injEq] at hsays
  obtain ⟨hmethod, huri, hproto⟩ := hsays
  rw [hline.legal_iff, ← proto_iff hproto hline.major hline.minor, ← hmethod]
  constructor
  · intro hw
    exact ⟨hw.method.2, hw.proto⟩
  · rintro ⟨hbytes, hversion⟩
    refine ⟨⟨hmethod ▸ hline.method, hbytes⟩, hversion, huri ▸ hline.uri, hlegal.names, ?_⟩
    intro v hv
    have hall := hlegal.values v hv
    refine ⟨hall, ?_, ?_⟩
    · intro hr
      exact absurd (all_eq_true.mp hall _ hr) (by simp [validHeaderValueByte_breaks])
    · intro hn
      exact absurd (all_eq_true.mp hall _ hn) (by simp [validHeaderValueByte_breaks])

theorem parse_wellFormed_get :
    (zero.resetSkipNormalize.parse (ascii "GET / HTTP/1.1\r\nHost: a\r\n\r\n")).1.WellFormed := by
  have hok : (zero.resetSkipNormalize.parse (ascii "GET / HTTP/1.1\r\nHost: a\r\n\r\n")).2.2 = .ok 27 := rfl
  exact (parse_wellFormed_iff (Prod.ext rfl (Prod.ext rfl hok))).mpr ⟨by decide +kernel, by decide +kernel⟩

/-- A method with a bracket and a version without a dot are accepted. -/
theorem parse_accepts_malformed :
    (zero.resetSkipNormalize.parse (ascii "G(T / HTTP/1.1\r\n\r\n")).2.2 = .ok 18 ∧
    (zero.resetSkipNormalize.parse (ascii "G(T / HTTP/1.1\r\n\r\n")).1.method = ascii "G(T" ∧
      (ascii "G(T").all validMethodValueByte = false ∧
    (zero.resetSkipNormalize.parse (ascii "GET / HTTP/1x1\r\n\r\n")).2.2 = .ok 18 ∧
    (zero.resetSkipNormalize.parse (ascii "GET / HTTP/1x1\r\n\r\n")).1.proto = ascii "HTTP/1x1" := by
  exact ⟨rfl, by decide +kernel, by decide +kernel, rfl, by decide +kernel⟩

end RequestHeader

end Fasthttp
