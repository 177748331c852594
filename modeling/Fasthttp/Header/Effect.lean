import Fasthttp.Header.Accept

/-!
# What fields do to a response header

A field sets some parts of the header or appends to its lists.
-/

namespace Fasthttp

open Scanner

/-- The parts that fields set (`none`: not set), and what they append. -/
structure Effect where
  contentType : Option Bytes := none
  contentEncoding : Option Bytes := none
  server : Option Bytes := none
  contentLengthBytes : Option Bytes := none
  connectionClose : Option Bool := none
  trailer : Option (List ArgsKV) := none
  contentLength : Int
  h : List ArgsKV := []
  cookies : List ArgsKV := []

def Effect.comp (a b : Effect) : Effect where
  contentType := b.contentType.or a.contentType
  contentEncoding := b.contentEncoding.or a.contentEncoding
  server := b.server.or a.server
  contentLengthBytes := b.contentLengthBytes.or a.contentLengthBytes
  connectionClose := b.connectionClose.or a.connectionClose
  trailer := b.trailer.or a.trailer
  contentLength := b.contentLength
  h := a.h ++ b.h
  cookies := a.cookies ++ b.cookies

def Effect.Quiet (a : Effect) : Prop := a.h = [] ∧ a.cookies = []

theorem Effect.quiet_comp (a b : Effect) : (a.comp b).Quiet ↔ a.Quiet ∧ b.Quiet := by
  simp only [Quiet, comp, List.append_eq_nil_iff]
  tauto

namespace ResponseHeader

variable (h : ResponseHeader)

def apply (h : ResponseHeader) (a : Effect) : ResponseHeader :=
  { h with
    contentType := a.contentType.getD h.contentType
    contentEncoding := a.contentEncoding.getD h.contentEncoding
    server := a.server.getD h.server
    contentLengthBytes := a.contentLengthBytes.getD h.contentLengthBytes
    connectionClose := a.connectionClose.getD h.connectionClose
    trailer := a.trailer.getD h.trailer
    contentLength := a.contentLength
    h := h.h ++ a.h
    cookies := h.cookies ++ a.cookies }

@[simp] theorem apply_disableNormalizing (a : Effect) :
    (h.apply a).disableNormalizing = h.disableNormalizing := rfl
@[simp] theorem apply_contentLength (a : Effect) :
    (h.apply a).contentLength = a.contentLength := rfl

theorem apply_comp (a b : Effect) : h.apply (a.comp b) = (h.apply a).apply b := by
  simp [apply, Effect.comp]

def ownFields : List Bytes :=
  [strContentType, strContentEncoding, strContentLength, strServer, strTransferEncoding, strTrailer]

def listed (d : Bool) (f : Bytes × Bytes) : Bool :=
  !(ownFields.any (headNameCompare f.1 · d) || (headNameCompare f.1 strConnection d && f.2 = strClose))

theorem headNameCompare_head {a b : Bytes} {d : Bool} (h : headNameCompare a b d = true) (hb : b ≠ []) :
    a.headD 0 ||| 32 = b.headD 0 ||| 32 := by
  obtain ⟨y, t, rfl⟩ := List.exists_cons_of_ne_nil hb
  unfold headNameCompare at h
  split at h
  · rcases a with _ | ⟨x, s⟩
    · simp [caseInsensitiveCompare] at h
    · simp only [caseInsensitiveCompare, List.map_cons, beq_iff_eq, List.cons.injEq] at h
      exact h.1
  · rw [beq_iff_eq] at h
    rw [h]

theorem letter_and {k n : Bytes} {d : Bool} {c : Byte} (hc : n.headD 0 ||| 32 = c) (hn : n ≠ []) :
    (decide (k.headD 0 ||| 32 = c) && headNameCompare k n d) = headNameCompare k n d := by
  rcases h : headNameCompare k n d with _ | _
  · simp
  · simp only [headNameCompare_head h hn, hc, decide_true, Bool.and_true]

theorem headNameCompare_other {k m n : Bytes} {d : Bool} (h : headNameCompare k m d = true) (hm : m ≠ [])
    (hn : n ≠ []) (hne : m.headD 0 ||| 32 ≠ n.headD 0 ||| 32) : headNameCompare k n d = false := by
  rcases h' : headNameCompare k n d with _ | _
  · rfl
  · exact absurd ((headNameCompare_head h hm).symm.trans (headNameCompare_head h' hn)) hne

theorem specialField_eq (k v : Bytes) : h.specialField k v =
    let eq name := headNameCompare k name h.disableNormalizing
    if eq strContentType then ({ h with contentType := v }, none)
    else if eq strContentEncoding then ({ h with contentEncoding := v }, none)
    else if eq strContentLength then h.setContentLength v
    else if eq strConnection then (h.setConnection k v, none)
    else if eq strServer then ({ h with server := v }, none)
    else if eq strSetCookie then ({ h with cookies := appendArg h.cookies (getCookieKey v) v false }, none)
    else if eq strTransferEncoding then h.setTransferEncoding v
    else if eq strTrailer then h.setTrailer v
    else ({ h with h := appendArg h.h k v false }, none) := by
  unfold specialField
  simp only
  rw [letter_and (n := strContentType) (by decide) (by decide), letter_and (n := strContentEncoding) (by decide) (by decide),
    letter_and (n := strContentLength) (by decide) (by decide), letter_and (n := strConnection) (by decide) (by decide),
    letter_and (n := strServer) (by decide) (by decide), letter_and (n := strSetCookie) (by decide) (by decide),
    letter_and (n := strTransferEncoding) (by decide) (by decide), letter_and (n := strTrailer) (by decide) (by decide)]

theorem apply_same : h.apply { contentLength := h.contentLength } = h := by
  simp [apply]

theorem setContentLength_effect (c : Int) (v : Bytes) : ∃ a e, a.Quiet ∧
    ∀ h : ResponseHeader, h.contentLength = c → h.setContentLength v = (h.apply a, e) := by
  by_cases hc : c = -1
  · refine ⟨{ contentLength := c }, none, ⟨rfl, rfl⟩, fun h hh => ?_⟩
    rw [setContentLength, if_pos (hh.trans hc), ← hh, apply_same]
  rcases hv : parseContentLength v with ⟨n, _ | e⟩
  · refine ⟨{ contentLength := n, contentLengthBytes := some v }, none, ⟨rfl, rfl⟩, fun h hh => ?_⟩
    simp [setContentLength, hh, hc, hv, apply]
  · refine ⟨{ contentLength := n }, some .contentLengthNotInt, ⟨rfl, rfl⟩, fun h hh => ?_⟩
    simp [setContentLength, hh, hc, hv, apply]

theorem setTransferEncoding_effect (c : Int) (v : Bytes) : ∃ a e, a.Quiet ∧
    ∀ h : ResponseHeader, h.contentLength = c → h.setTransferEncoding v = (h.apply a, e) := by
  by_cases hv : v = strChunked
  · exact ⟨{ contentLength := -1 }, none, ⟨rfl, rfl⟩, fun h _ => by simp [setTransferEncoding, hv, apply]⟩
  · exact ⟨{ contentLength := c }, _, ⟨rfl, rfl⟩, fun h hh => by simp [setTransferEncoding, hv, apply, ← hh]; rfl⟩

theorem setTrailer_effect (d : Bool) (c : Int) (v : Bytes) : ∃ a e, a.Quiet ∧
    ∀ h : ResponseHeader, h.disableNormalizing = d → h.contentLength = c → h.setTrailer v = (h.apply a, e) := by
  refine ⟨{ trailer := some (addResponseTrailer d [] v).1, contentLength := c },
    if (addResponseTrailer d [] v).2.isSome then some .badTrailerInHeader else none, ⟨rfl, rfl⟩, fun h hd hc => ?_⟩
  subst hd hc
  simp only [apply, List.append_nil]
  rfl

theorem specialField_effect (d : Bool) (c : Int) (k v : Bytes) :
    ∃ a e, (∀ h : ResponseHeader, h.disableNormalizing = d → h.contentLength = c →
      h.specialField k v = (h.apply a, e)) ∧ (a.Quiet ↔ listed d (k, v) = false) := by
  by_cases h1 : headNameCompare k strContentType d = true
  · refine ⟨{ contentType := some v, contentLength := c }, none, fun h hd hc => ?_, ?_⟩
    · subst hd hc; rw [specialField_eq]; simp [h1, apply]
    · simp [Effect.Quiet, listed, ownFields, h1]
  by_cases h2 : headNameCompare k strContentEncoding d = true
  · refine ⟨{ contentEncoding := some v, contentLength := c }, none, fun h hd hc => ?_, ?_⟩
    · subst hd hc; rw [specialField_eq]; simp [h1, h2, apply]
    · simp [Effect.Quiet, listed, ownFields, h2]
  by_cases h3 : headNameCompare k strContentLength d = true
  · obtain ⟨a, e, hq, ha⟩ := setContentLength_effect c v
    refine ⟨a, e, fun h hd hc => ?_, iff_of_true hq (by simp [listed, ownFields, h3])⟩
    rw [specialField_eq]; simp [hd, h1, h2, h3, ha h hc]
  by_cases h4 : headNameCompare k strConnection d = true
  · by_cases hv : v = strClose
    · refine ⟨{ connectionClose := some true, contentLength := c }, none, fun h hd hc => ?_, ?_⟩
      · subst hd hc; rw [specialField_eq]; simp [h1, h2, h3, h4, setConnection, hv, apply]
      · simp [Effect.Quiet, listed, h4, hv]
    · refine ⟨{ connectionClose := some false, contentLength := c, h := appendArg [] k v false }, none,
        fun h hd hc => ?_, ?_⟩
      · subst hd hc; rw [specialField_eq]; simp [h1, h2, h3, h4, setConnection, hv, apply, appendArg]
      · have h5 := headNameCompare_other (n := strServer) h4 (by decide) (by decide) (by decide)
        have h7 := headNameCompare_other (n := strTransferEncoding) h4 (by decide) (by decide) (by decide)
        have h8 := headNameCompare_other (n := strTrailer) h4 (by decide) (by decide) (by decide)
        simp [Effect.Quiet, listed, ownFields, appendArg, h1, h2, h3, h5, h7, h8, hv]
  by_cases h5 : headNameCompare k strServer d = true
  · refine ⟨{ server := some v, contentLength := c }, none, fun h hd hc => ?_, ?_⟩
    · subst hd hc; rw [specialField_eq]; simp [h1, h2, h3, h4, h5, apply]
    · simp [Effect.Quiet, listed, ownFields, h5]
  by_cases h6 : headNameCompare k strSetCookie d = true
  · refine ⟨{ contentLength := c, cookies := appendArg [] (getCookieKey v) v false }, none, fun h hd hc => ?_, ?_⟩
    · subst hd hc; rw [specialField_eq]; simp [h1, h2, h3, h4, h5, h6, apply, appendArg]
    · have h7 := headNameCompare_other (n := strTransferEncoding) h6 (by decide) (by decide) (by decide)
      have h8 := headNameCompare_other (n := strTrailer) h6 (by decide) (by decide) (by decide)
      simp [Effect.Quiet, listed, ownFields, appendArg, h1, h2, h3, h4, h5, h7, h8]
  by_cases h7 : headNameCompare k strTransferEncoding d = true
  · obtain ⟨a, e, hq, ha⟩ := setTransferEncoding_effect c v
    refine ⟨a, e, fun h hd hc => ?_, iff_of_true hq (by simp [listed, ownFields, h7])⟩
    rw [specialField_eq]; simp [hd, h1, h2, h3, h4, h5, h6, h7, ha h hc]
  by_cases h8 : headNameCompare k strTrailer d = true
  · obtain ⟨a, e, hq, ha⟩ := setTrailer_effect d c v
    refine ⟨a, e, fun h hd hc => ?_, iff_of_true hq (by simp [listed, ownFields, h8])⟩
    rw [specialField_eq]; simp [hd, h1, h2, h3, h4, h5, h6, h7, h8, ha h hd hc]
  · refine ⟨{ contentLength := c, h := appendArg [] k v false }, none, fun h hd hc => ?_, ?_⟩
    · subst hd hc; rw [specialField_eq]; simp [h1, h2, h3, h4, h5, h6, h7, h8, apply, appendArg]
    · simp [Effect.Quiet, listed, ownFields, appendArg, h1, h2, h3, h4, h5, h7, h8]

theorem parseField_effect (d : Bool) (c : Int) (k v : Bytes) :
    ∃ a e, (∀ h : ResponseHeader, h.disableNormalizing = d → h.contentLength = c →
      h.parseField k v = (h.apply a, e)) ∧ (e = none → (a.Quiet ↔ listed d (k, v) = false)) := by
  have hrefuse : ∀ e : Err, (∀ h : ResponseHeader, h.parseField k v = (h, some e)) →
      ∃ a e, (∀ h : ResponseHeader, h.disableNormalizing = d → h.contentLength = c →
        h.parseField k v = (h.apply a, e)) ∧ (e = none → (a.Quiet ↔ listed d (k, v) = false)) := by
    intro e he
    exact ⟨{ contentLength := c }, some e, fun h _ hc => by rw [he, ← hc, apply_same], by simp⟩
  by_cases h0 : k.isEmpty = true
  · exact hrefuse .emptyHeaderKey fun h => by simp [parseField, h0]
  by_cases h1 : (!k.all validHeaderFieldByte) = true
  · exact hrefuse _ fun h => by rw [parseField, if_neg h0, if_pos h1]
  by_cases h2 : (!v.all validHeaderValueByte) = true
  · exact hrefuse _ fun h => by rw [parseField, if_neg h0, if_neg h1, if_pos h2]
  obtain ⟨a, e, ha, hq⟩ := specialField_effect d c k v
  exact ⟨a, e, fun h hd hc => by rw [parseField, if_neg h0, if_neg h1, if_neg h2, ha h hd hc], fun _ => hq⟩

def Does (d : Bool) (c : Int) (fs : List (Bytes × Bytes)) (a : Effect) : Prop :=
  ∀ h : ResponseHeader, h.disableNormalizing = d → h.contentLength = c → feed parseField h fs = (h.apply a, none)

theorem Does.append {d : Bool} {c : Int} {fs gs : List (Bytes × Bytes)} {a b : Effect} (ha : Does d c fs a)
    (hb : Does d a.contentLength gs b) : Does d c (fs ++ gs) (a.comp b) := by
  intro h hd hc
  rw [feed_append (ha h hd hc), hb (h.apply a) hd rfl, apply_comp]

theorem feed_effect (d : Bool) (c : Int) (fs : List (Bytes × Bytes)) :
    (∃ a, Does d c fs a ∧ (a.Quiet ↔ ∀ f ∈ fs, listed d f = false)) ∨
    ∃ e, ∀ h : ResponseHeader, h.disableNormalizing = d → h.contentLength = c →
      (feed parseField h fs).2 = some e := by
  induction fs generalizing c with
  | nil =>
    refine .inl ⟨{ contentLength := c }, fun h _ hc => ?_, by simp [Effect.Quiet]⟩
    rw [← hc, apply_same]
    rfl
  | cons f fs ih =>
    obtain ⟨a, e, ha, hq⟩ := parseField_effect d c f.1 f.2
    rcases e with _ | e
    swap
    · exact .inr ⟨e, fun h hd hc => by simp [feed, ha h hd hc]⟩
    rcases ih a.contentLength with ⟨b, hb, hqb⟩ | ⟨e, he⟩
    · refine .inl ⟨a.comp b, fun h hd hc => ?_, ?_⟩
      · simp [feed, ha h hd hc, hb (h.apply a) hd rfl, apply_comp]
      · rw [Effect.quiet_comp, hq rfl, hqb]
        simp
    · exact .inr ⟨e, fun h hd hc => by simp [feed, ha h hd hc, he (h.apply a) hd rfl]⟩

end ResponseHeader

end Fasthttp
