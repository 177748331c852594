import Fasthttp.Header.Field

/-!
# The length of a request body has one reading

Whatever the order and the spelling of the lines, an accepted header frames its body by its `Transfer-Encoding` lines
if there are any, and otherwise by its only `Content-Length` line.
-/

namespace Fasthttp

open Scanner List

def Named (name : Bytes) (f : Bytes × Bytes) : Prop := SameName f.1 name

instance (name : Bytes) (f : Bytes × Bytes) : Decidable (Named name f) := inferInstanceAs (Decidable (SameName _ _))

def stored (name : Bytes) (args : List ArgsKV) : List ArgsKV := args.filter fun kv => SameName kv.key name

def chunkedEntry : ArgsKV := ⟨strTransferEncoding, strChunked, false⟩

structure Measured (fs : List (Bytes × Bytes)) (h : RequestHeader) : Prop where
  chunked : (∃ f ∈ fs, Named strTransferEncoding f) → (∀ f ∈ fs, Named strTransferEncoding f → f.2 = strChunked) ∧
    h.contentLength = -1 ∧ h.contentLengthBytes = [] ∧ stored strTransferEncoding h.h = [chunkedEntry]
  sized : (∀ f ∈ fs, ¬Named strTransferEncoding f) → (fs.filter fun f => Named strContentLength f).length ≤ 1 ∧
    (∀ f ∈ fs, Named strContentLength f → parseContentLength f.2 = (h.contentLength, none)) ∧
    ((∀ f ∈ fs, ¬Named strContentLength f) → h.contentLength = 0)

theorem stored_setArg {args : List ArgsKV}
    (h : stored strTransferEncoding args = [] ∨ stored strTransferEncoding args = [chunkedEntry]) :
    stored strTransferEncoding (setArg args strTransferEncoding strChunked false) = [chunkedEntry] := by
  have hself : SameName strTransferEncoding strTransferEncoding := rfl
  induction args with
  | nil => simp [setArg, stored, appendArg, hself, chunkedEntry]
  | cons kv args ih =>
    by_cases hnamed : SameName kv.key strTransferEncoding
    · simp only [stored, filter_cons, hnamed, decide_true, if_true, cons_ne_nil, false_or, List.cons.injEq] at h
      obtain ⟨rfl, hrest⟩ := h
      simp [setArg, stored, chunkedEntry, hself, hrest]
    · have hkey : strTransferEncoding ≠ kv.key := fun heq => hnamed (heq ▸ hself)
      have hskip : ∀ l, stored strTransferEncoding (kv :: l) = stored strTransferEncoding l := by
        intro l
        exact filter_cons_of_neg (by simpa using hnamed)
      rw [hskip] at h
      rw [setArg, if_neg hkey, hskip, ih h]

structure Reading (past : List (Bytes × Bytes)) (h : RequestHeader) : Prop where
  special : h.disableSpecialHeader = false
  once : (past.filter fun f => Named strContentLength f).length = if h.contentLengthSeen then 1 else 0
  entry : stored strTransferEncoding h.h = [] ∨ stored strTransferEncoding h.h = [chunkedEntry]
  chunked : (∃ f ∈ past, Named strTransferEncoding f) → (∀ f ∈ past, Named strTransferEncoding f → f.2 = strChunked) ∧
    h.contentLength = -1 ∧ stored strTransferEncoding h.h = [chunkedEntry]
  sized : (∀ f ∈ past, ¬Named strTransferEncoding f) →
    (∀ f ∈ past, Named strContentLength f → parseContentLength f.2 = (h.contentLength, none)) ∧
    ((∀ f ∈ past, ¬Named strContentLength f) → h.contentLength = 0)

variable {past : List (Bytes × Bytes)} {f : Bytes × Bytes} {h h' : RequestHeader}

theorem Reading.other (hr : Reading past h) (hte : ¬Named strTransferEncoding f) (hcl : ¬Named strContentLength f)
    (hspecial : h'.disableSpecialHeader = h.disableSpecialHeader) (hseen : h'.contentLengthSeen = h.contentLengthSeen)
    (hlength : h'.contentLength = h.contentLength) (hentry : stored strTransferEncoding h'.h = stored strTransferEncoding h.h) :
    Reading (past ++ [f]) h' where
  special := by rw [hspecial, hr.special]
  once := by rw [hseen, ← hr.once]; simp [hcl]
  entry := by rw [hentry]; exact hr.entry
  chunked := by
    intro hex
    have hpast : ∃ g ∈ past, Named strTransferEncoding g := by simpa [hte] using hex
    obtain ⟨hall, hlen, hone⟩ := hr.chunked hpast
    rw [hlength, hentry]
    exact ⟨forall_mem_append.mpr ⟨hall, by simp [hte]⟩, hlen, hone⟩
  sized := by
    intro hnone
    obtain ⟨hparse, hzero⟩ := hr.sized fun g hg => hnone g (by simp [hg])
    rw [hlength]
    exact ⟨forall_mem_append.mpr ⟨hparse, by simp [hcl]⟩, fun hno => hzero fun g hg => hno g (by simp [hg])⟩

theorem Reading.length (hr : Reading past h) (hte : ¬Named strTransferEncoding f) (hcl : Named strContentLength f)
    (hspecial : h'.disableSpecialHeader = h.disableSpecialHeader) (hseen : h.contentLengthSeen = false)
    (hseen' : h'.contentLengthSeen = true)
    (hentry : stored strTransferEncoding h'.h = stored strTransferEncoding h.h)
    (hlength : (h.contentLength = -1 ∧ h'.contentLength = -1) ∨
      (h.contentLength ≠ -1 ∧ parseContentLength f.2 = (h'.contentLength, none))) :
    Reading (past ++ [f]) h' where
  special := by rw [hspecial, hr.special]
  once := by
    have hlen := hr.once
    rw [hseen] at hlen
    simp [hlen, hcl, hseen']
  entry := by rw [hentry]; exact hr.entry
  chunked := by
    intro hex
    have hpast : ∃ g ∈ past, Named strTransferEncoding g := by simpa [hte] using hex
    obtain ⟨hall, hlen, hone⟩ := hr.chunked hpast
    rw [hentry]
    refine ⟨forall_mem_append.mpr ⟨hall, by simp [hte]⟩, ?_, hone⟩
    rcases hlength with ⟨-, hlen'⟩ | ⟨hne, -⟩
    · exact hlen'
    · exact absurd hlen hne
  sized := by
    intro hnone
    have hno : ∀ g ∈ past, ¬Named strContentLength g := by simpa [hseen] using hr.once
    have hzero := (hr.sized fun g hg => hnone g (by simp [hg])).2 hno
    obtain ⟨hminus, -⟩ | ⟨-, hparse⟩ := hlength
    · rw [hzero] at hminus
      exact absurd hminus (by decide)
    refine ⟨forall_mem_append.mpr ⟨fun g hg hnamed => absurd hnamed (hno g hg), by simp [hparse]⟩, fun hall => ?_⟩
    exact absurd hcl (hall f (by simp))

theorem Reading.encoding (hr : Reading past h) (hte : Named strTransferEncoding f) (hcl : ¬Named strContentLength f)
    (hv : f.2 = strChunked)
    (hspecial : h'.disableSpecialHeader = h.disableSpecialHeader) (hseen : h'.contentLengthSeen = h.contentLengthSeen)
    (hlength : h'.contentLength = -1) (hentry : stored strTransferEncoding h'.h = [chunkedEntry]) : Reading (past ++ [f]) h' where
  special := by rw [hspecial, hr.special]
  once := by rw [hseen, ← hr.once]; simp [hcl]
  entry := .inr hentry
  chunked := by
    intro _
    refine ⟨forall_mem_append.mpr ⟨fun g hg hnamed => ?_, by simp [hv]⟩, hlength, hentry⟩
    exact (hr.chunked ⟨g, hg, hnamed⟩).1 g hg hnamed
  sized := by
    intro hnone
    exact absurd hte (hnone f (by simp))

theorem Reading.start (h : RequestHeader) (hspecial : h.disableSpecialHeader = false)
    (hentry : stored strTransferEncoding h.h = [] ∨ stored strTransferEncoding h.h = [chunkedEntry]) : Reading [] h.start where
  special := hspecial
  once := rfl
  entry := hentry
  chunked := by simp
  sized := by simp [RequestHeader.start]

theorem Reading.step {d : Bool} (hd : h.disableNormalizing = d) (hr : Reading past h)
    (hok : h.parseField (initHeaderK f.1 d) f.2 = (h', none)) : Reading (past ++ [f]) h' := by
  subst hd
  obtain ⟨-, hkey, -, htaken⟩ := RequestHeader.parseField_taken hok
  have hte : headNameCompare (initHeaderK f.1 h.disableNormalizing) strTransferEncoding h.disableNormalizing = true ↔
      Named strTransferEncoding f := headNameCompare_initHeaderK hkey (by decide +kernel) (by decide +kernel)
  have hcl : headNameCompare (initHeaderK f.1 h.disableNormalizing) strContentLength h.disableNormalizing = true ↔
      Named strContentLength f := headNameCompare_initHeaderK hkey (by decide +kernel) (by decide +kernel)
  have hboth : Named strTransferEncoding f → ¬Named strContentLength f := by
    intro hn hn'
    exact absurd (SameName.trans (SameName.symm hn) hn') (by decide +kernel)
  -- a field that is found under another name has neither of the two
  have hother : ∀ {name : Bytes}, headNameCompare (initHeaderK f.1 h.disableNormalizing) name h.disableNormalizing = true →
      name.map (· ||| 32) ≠ strTransferEncoding.map (· ||| 32) → name.map (· ||| 32) ≠ strContentLength.map (· ||| 32) →
      ¬Named strTransferEncoding f ∧ ¬Named strContentLength f := by
    intro name hname hne hne'
    constructor
    · intro hn
      exact absurd (hte.mpr hn) (by simp [headNameCompare_ne hname hne])
    · intro hn
      exact absurd (hcl.mpr hn) (by simp [headNameCompare_ne hname hne'])
  have hstore : ¬Named strTransferEncoding f →
      stored strTransferEncoding (appendArg h.h (initHeaderK f.1 h.disableNormalizing) f.2 false) =
      stored strTransferEncoding h.h := by
    intro hn
    have hne : ¬SameName (initHeaderK f.1 h.disableNormalizing) strTransferEncoding :=
      fun hsame => hn ((Eq.symm (initHeaderK_lower f.1 h.disableNormalizing)).trans hsame)
    simp [stored, appendArg, hne]
  cases htaken with
  | generic hno =>
    obtain ⟨hno, hno'⟩ := hno hr.special
    have hn : ¬Named strTransferEncoding f := fun hn => absurd (hte.mpr hn) (by simp [hno'])
    exact hr.other hn (fun hn => absurd (hcl.mpr hn) (by simp [hno])) rfl rfl rfl (hstore hn)
  | host hname | userAgent hname | contentType hname | close hname | trailer hname =>
    obtain ⟨hn, hn'⟩ := hother hname (by decide +kernel) (by decide +kernel)
    exact hr.other hn hn' rfl rfl rfl rfl
  | connection hname =>
    obtain ⟨hn, hn'⟩ := hother hname (by decide +kernel) (by decide +kernel)
    exact hr.other hn hn' rfl rfl rfl (hstore hn)
  | lengthSeen hname hseen hskip =>
    exact hr.length (fun hn => hboth hn (hcl.mp hname)) (hcl.mp hname) rfl hseen rfl rfl (.inl ⟨hskip, hskip⟩)
  | length n hname hseen hskip hparse =>
    exact hr.length (fun hn => hboth hn (hcl.mp hname)) (hcl.mp hname) rfl hseen rfl rfl (.inr ⟨hskip, hparse⟩)
  | chunked hname hv =>
    rw [hr.special] at hv
    exact hr.encoding (hte.mp hname) (hboth (hte.mp hname)) (beq_iff_eq.mp hv) rfl rfl rfl (stored_setArg hr.entry)

theorem Reading.measured (hr : Reading past h) : Measured past h.finish where
  chunked := by
    intro hex
    obtain ⟨hall, hlen, hone⟩ := hr.chunked hex
    refine ⟨hall, hlen, ?_, hone⟩
    simp [RequestHeader.finish, hlen]
  sized := by
    intro hnone
    refine ⟨?_, hr.sized hnone⟩
    rw [hr.once]
    split <;> decide

/-- Every accepted block, in any order of its lines and any spelling of their names: the body is framed in one way. -/
theorem parseHeaders_measured {h h' : RequestHeader} {buf mem : Bytes} {n : Nat} (hspecial : h.disableSpecialHeader = false)
    (hentry : stored strTransferEncoding h.h = [] ∨ stored strTransferEncoding h.h = [chunkedEntry])
    (hok : h.parseHeaders buf = (h', mem, .ok n)) : ∃ fs, Block buf fs ∧ (∀ gs, Block buf gs → gs = fs) ∧ Measured fs h' := by
  obtain ⟨fs, h₁, hblock, hfeed, rfl⟩ := RequestHeader.parseHeaders_block hok
  have hstep : ∀ past f h₀ h₁, (h₀.disableNormalizing = h.disableNormalizing ∧ Reading past h₀) →
      h₀.parseField (initHeaderK f.1 h.disableNormalizing) f.2 = (h₁, none) →
      h₁.disableNormalizing = h.disableNormalizing ∧ Reading (past ++ [f]) h₁ := by
    rintro past f h₀ h₁ ⟨hd, hr⟩ hbody
    obtain ⟨-, -, -, htaken⟩ := RequestHeader.parseField_taken hbody
    exact ⟨htaken.options.1.trans hd, hr.step hd hbody⟩
  have hr := feed_invariant hstep [] ⟨rfl, Reading.start h hspecial hentry⟩ hfeed
  exact ⟨fs, hblock, fun gs hgs => hgs.unique hblock, hr.2.measured⟩

def bothLengths : Bytes := ascii "content-LENGTH: 5\r\ntransfer-encoding: chunked\r\n\r\n"

theorem parseHeaders_measured_both :
    (RequestHeader.zero.parseHeaders bothLengths).2.2 = .ok 49 ∧ (RequestHeader.zero.parseHeaders bothLengths).1.contentLength = -1 ∧
    ∃ fs, Block bothLengths fs ∧ (∀ gs, Block bothLengths gs → gs = fs) ∧
      Measured fs (RequestHeader.zero.parseHeaders bothLengths).1 := by
  have hok : (RequestHeader.zero.parseHeaders bothLengths).2.2 = .ok 49 := rfl
  refine ⟨hok, by decide +kernel, ?_⟩
  exact parseHeaders_measured rfl (.inl rfl) (Prod.ext rfl (Prod.ext rfl hok))

end Fasthttp
