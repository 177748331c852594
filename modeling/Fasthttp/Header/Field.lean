import Fasthttp.Header.Grammar

/-!
# What an accepted field does to a request header

`Taken` has one case for each thing that a field can do, so what the fields preserve is proved from its cases alone.
-/

namespace Fasthttp

open Scanner

variable {a b k : Bytes} {d : Bool}

/-! ## Names that the code looks for -/

theorem headNameCompare_or (h : headNameCompare a b d = true) : a.map (· ||| 32) = b.map (· ||| 32) := by
  unfold headNameCompare at h
  split at h
  · exact beq_iff_eq.mp h
  · rw [beq_iff_eq.mp h]

theorem headNameCompare_first (h : headNameCompare a b d = true) : a.headD 0 ||| 32 = b.headD 0 ||| 32 := by
  have hmap := headNameCompare_or h
  rcases a with _ | ⟨x, a⟩ <;> rcases b with _ | ⟨y, b⟩
  · rfl
  · simp at hmap
  · simp at hmap
  · exact (List.cons.inj hmap).1

theorem headNameCompare_ne (ha : headNameCompare k a d = true) (hab : a.map (· ||| 32) ≠ b.map (· ||| 32)) :
    headNameCompare k b d = false := by
  rw [← Bool.not_eq_true]
  intro hb
  exact hab ((headNameCompare_or ha).symm.trans (headNameCompare_or hb))

theorem validHeaderFieldByte_cr : validHeaderFieldByte rChar = false := by decide +kernel

theorem caseless_cr : Caseless rChar := forall_byte (by decide +kernel)

theorem no_cr_of_valid (h : (initHeaderK k d).all validHeaderFieldByte = true) : rChar ∉ k := by
  intro hk
  have hvalid := List.all_eq_true.mp h rChar ((mem_initHeaderK caseless_cr k d).mpr hk)
  rw [validHeaderFieldByte_cr] at hvalid
  exact absurd hvalid (by decide)

theorem headNameCompare_initHeaderK {name : Bytes} (hk : (initHeaderK k d).all validHeaderFieldByte = true) (hname : Lettered name)
    (hnormal : normalizeHeaderKeyV2 name = name) : headNameCompare (initHeaderK k d) name d = true ↔ SameName k name := by
  cases d with
  | true =>
    show caseInsensitiveCompare k name = true ↔ SameName k name
    rw [caseInsensitiveCompare_iff hname, map_crToDash (no_cr_of_valid hk)]
  | false =>
    show (normalizeHeaderKeyV2 k == name) = true ↔ SameName k name
    rw [beq_iff_eq, ← normalizeHeaderKeyV2_eq_iff, hnormal]

namespace RequestHeader

variable {h h' : RequestHeader} {k v : Bytes}

inductive Taken (h : RequestHeader) (k v : Bytes) : RequestHeader → Prop
  | generic : (h.disableSpecialHeader = false → headNameCompare k strContentLength h.disableNormalizing = false ∧
      headNameCompare k strTransferEncoding h.disableNormalizing = false) → Taken h k v { h with h := appendArg h.h k v false }
  | host : headNameCompare k strHost h.disableNormalizing = true → Taken h k v { h with host := v }
  | userAgent : headNameCompare k strUserAgent h.disableNormalizing = true → Taken h k v { h with userAgent := v }
  | contentType : headNameCompare k strContentType h.disableNormalizing = true → Taken h k v { h with contentType := v }
  | lengthSeen : headNameCompare k strContentLength h.disableNormalizing = true → h.contentLengthSeen = false → h.contentLength = -1 →
      Taken h k v { h with contentLengthSeen := true }
  | length (n : Int) : headNameCompare k strContentLength h.disableNormalizing = true → h.contentLengthSeen = false →
      h.contentLength ≠ -1 →
      parseContentLength v = (n, none) → Taken h k v { h with contentLengthSeen := true, contentLength := n, contentLengthBytes := v }
  | close : headNameCompare k strConnection h.disableNormalizing = true → v = strClose → Taken h k v { h with connectionClose := true }
  | connection : headNameCompare k strConnection h.disableNormalizing = true →
      Taken h k v { h with connectionClose := false, h := appendArg h.h k v false }
  | chunked : headNameCompare k strTransferEncoding h.disableNormalizing = true →
      headNameCompare v strChunked h.disableSpecialHeader = true →
      Taken h k v { h with contentLength := -1, h := setArg h.h strTransferEncoding strChunked false }
  | trailer : headNameCompare k strTrailer h.disableNormalizing = true →
      Taken h k v { h with trailer := (addRequestTrailer h.disableNormalizing [] v).1 }

theorem setContentLength_taken (hk : headNameCompare k strContentLength h.disableNormalizing = true)
    (hok : h.setContentLength v = (h', none)) : Taken h k v h' := by
  unfold setContentLength at hok
  by_cases hseen : h.contentLengthSeen = true
  · simp [hseen] at hok
  rw [if_neg hseen] at hok
  simp only [Bool.not_eq_true] at hseen
  by_cases hskip : h.contentLength = -1
  · simp only [hskip, if_true, Prod.mk.injEq, and_true] at hok
    rw [← hok]
    exact hskip ▸ .lengthSeen hk hseen hskip
  · rcases hv : parseContentLength v with ⟨n, _ | e⟩
    · simp only [hskip, hv, if_false, Option.isSome_none, Bool.false_eq_true, Prod.mk.injEq, and_true] at hok
      rw [← hok]
      exact .length n hk hseen hskip hv
    · simp [hskip, hv] at hok

theorem specialField_taken (hok : h.specialField k v = (h', none)) : Taken h k v h' := by
  -- the switch looks at the first letter only to save comparisons
  have hfirst : ∀ {name : Bytes} {c : Char},
      ¬((decide (k.headD 0 ||| 32 = ch c) && headNameCompare k name h.disableNormalizing) = true) →
      name.headD 0 ||| 32 = ch c → headNameCompare k name h.disableNormalizing = false := by
    intro name c hno hc
    rw [← Bool.not_eq_true]
    intro heq
    exact hno (by rw [headNameCompare_first heq, hc, heq]; simp)
  unfold specialField at hok
  simp only at hok
  split at hok
  · next hc =>
    cases hok
    exact .host (Bool.and_eq_true_iff.mp hc).2
  split at hok
  · next hc =>
    cases hok
    exact .userAgent (Bool.and_eq_true_iff.mp hc).2
  split at hok
  · next hc =>
    cases hok
    exact .contentType (Bool.and_eq_true_iff.mp hc).2
  split at hok
  · next hc => exact setContentLength_taken (Bool.and_eq_true_iff.mp hc).2 hok
  next hlength =>
  split at hok
  · next hc =>
    cases hok
    unfold setConnection
    split
    · next hv => exact .close (Bool.and_eq_true_iff.mp hc).2 hv
    · exact .connection (Bool.and_eq_true_iff.mp hc).2
  split at hok
  · next hc =>
    unfold setTransferEncoding at hok
    split at hok
    · next hv =>
      cases hok
      exact .chunked (Bool.and_eq_true_iff.mp hc).2 hv
    · simp at hok
  next hchunked =>
  split at hok
  · next hc =>
    have hset : (h.setTrailerBytes v).1 = h' := congrArg Prod.fst hok
    rw [← hset]
    exact .trailer (Bool.and_eq_true_iff.mp hc).2
  · cases hok
    exact .generic fun _ => ⟨hfirst hlength (by decide), hfirst hchunked (by decide)⟩

theorem parseField_taken (hok : h.parseField k v = (h', none)) :
    k ≠ [] ∧ k.all validHeaderFieldByte = true ∧ v.all validHeaderValueByte = true ∧ Taken h k v h' := by
  unfold parseField at hok
  split at hok
  · simp at hok
  next hne =>
  split at hok
  · simp at hok
  next hkey =>
  split at hok
  · simp at hok
  next hvalue =>
  have htaken : Taken h k v h' := by
    split at hok
    · next hs =>
      cases hok
      exact .generic fun hs' => by simp [hs] at hs'
    · exact specialField_taken hok
  exact ⟨by simpa using hne, by simpa using hkey, by simpa using hvalue, htaken⟩

theorem Taken.options (ht : Taken h k v h') :
    h'.disableNormalizing = h.disableNormalizing ∧ h'.disableSpecialHeader = h.disableSpecialHeader := by
  cases ht <;> exact ⟨rfl, rfl⟩

end RequestHeader

end Fasthttp
