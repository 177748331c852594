import Fasthttp.Body.SetUp
import Fasthttp.Header.TrailerExact

/-!
# Streamed and buffered bodies

`ReadBody` and the stream of `ReadBodyStream` read the same bytes.
-/

namespace Fasthttp

open Bufio Reader BodyStream List

namespace Request

def Holds (req : Request) (t : Bytes) : Prop :=
  if req.header.contentLength = -1 then (chunks 0 t).stop = .done
  else 0 < req.header.contentLength ∧ req.header.contentLength ≤ t.length

def bodyOf (req : Request) (t : Bytes) : Bytes :=
  if req.header.contentLength = -1 then (chunks 0 t).body else t.take req.header.contentLength.toNat

/-- The headers before a trailer is read: an empty chunked body takes its encoding away. -/
def headersBefore (req : Request) (body : Bytes) : List ArgsKV :=
  if req.header.contentLength = -1 ∧ body = [] then (req.header.withContentLength 0).h else req.header.h

/-- The drained stream gives the body of a read at once and ends with its error, or else with its trailer and unread bytes. -/
def Agrees (req : Request) (m : MultipartParser) (r : Reader Byte Err) (maxBodySize : Int) (cap : Nat) (sizes : Nat → Nat) : Prop :=
  let b := req.readBody m r maxBodySize false cap
  let o := req.readBodyStream m r maxBodySize false
  o.1 = none ∧ ∃ s, o.2.1.bodyStream = some s ∧ ∀ fuel, b.2.1.body.length < fuel →
    ∃ s' r', s.drain sizes fuel o.2.2 = (b.2.1.body, some (b.1.getD .eof), s', r') ∧
      (b.1 = none → r'.unread = b.2.2.unread ∧ ∃ trailers, b.2.1.header.h = req.headersBefore b.2.1.body ++ trailers ∧
        s'.recorded req.header = req.header.h ++ trailers)

/-- No attempt before the last one finds a field of the trailer. -/
def Once (d : Bool) (r : Reader Byte Err) : Prop :=
  ∀ e, blockEnd r.unread = some e → ∀ n < e, r.Arrives n → Untouched d [] r.unread n

/-- Two readers come to the trailer with the same buffer, or it is not folded and neither of them records a field in an
attempt that is repeated. -/
def TrailerAlike (d : Bool) (r₁ r₂ : Reader Byte Err) : Prop := r₁ = r₂ ∨ NoFold r₁.unread ∧ Once d r₁ ∧ Once d r₂

def streamReader (req : Request) (r : Reader Byte Err) (sizes : Nat → Nat) (fuel : Nat) : Reader Byte Err :=
  (parseChunkSize ((request (.new [] (.request req.header))).beforeEnd sizes fuel r)).2

theorem beforeEnd_more {c n : Nat} (s : BodyStream) (r : Reader Byte Err) (h : (s.drain (fun _ => c) n r).2.1 ≠ none) (k : Nat) :
    s.beforeEnd (fun _ => c) (n + k) r = s.beforeEnd (fun _ => c) n r := by
  induction n generalizing s r with
  | zero => simp [drain] at h
  | succ n ih =>
    rw [Nat.succ_add, beforeEnd, beforeEnd]
    rcases hread : s.read r c with ⟨bs, _ | e, s', r'⟩
    · exact ih s' r' (by simpa [drain, hread] using h)
    · rfl

theorem readTrailer_eq (h : RequestHeader) (r : Reader Byte Err) :
    h.readTrailer r = ((readTrailerWith (RequestHeader.trailerLoop h.disableNormalizing) [] r).1,
      { h with h := h.h ++ (readTrailerWith (RequestHeader.trailerLoop h.disableNormalizing) [] r).2.1 },
      (readTrailerWith (RequestHeader.trailerLoop h.disableNormalizing) [] r).2.2) := by
  let L := RequestHeader.trailerLoop h.disableNormalizing
  have hmap (r : Reader Byte Err) : L.read (h.h ++ []) r = ((L.read [] r).1, h.h ++ (L.read [] r).2.1, (L.read [] r).2.2) :=
    Retry.Loop.run_map (fun s b => RequestHeader.parseTrailer_append h.disableNormalizing h.h s b) _ _ [] r
  simp only [L, append_nil] at hmap
  unfold RequestHeader.readTrailer readTrailerWith
  rcases hp : r.peek 2 with ⟨b | ⟨b, e⟩ | b, r'⟩
  · by_cases hb : b = strCRLF <;> simp [hb, hmap]
  · simp
  · simp

theorem once_crlf {r : Reader Byte Err} {t : Bytes} (d : Bool) (h : r.unread = rChar :: nChar :: t) : NoFold r.unread ∧ Once d r := by
  rw [Once, h, blockEnd_crlf]
  refine ⟨noFold_crlf t, fun e he n hn _ => untouched_short ?_ d []⟩
  rw [Option.some.injEq] at he
  omega

theorem trailer_same {r r₁ r₂ : Reader Byte Err} {t : Bytes} {d : Bool} (h₁ : Leaves r t r₁) (h₂ : Leaves r t r₂)
    (hcond : TrailerAlike d r₁ r₂) :
    let o₁ := readTrailerWith (RequestHeader.trailerLoop d) [] r₁
    let o₂ := readTrailerWith (RequestHeader.trailerLoop d) [] r₂
    o₁.1 = o₂.1 ∧ (o₁.1 = none → o₁.2.1 = o₂.2.1 ∧ o₁.2.2.unread = o₂.2.2.unread) := by
  rcases hcond with rfl | ⟨hfold, honce₁, honce₂⟩
  · exact ⟨rfl, fun _ => ⟨rfl, rfl⟩⟩
  have hu : r₂.unread = r₁.unread := h₂.unread.trans h₁.unread.symm
  have hwhole : r₁.whole = r₂.whole := by
    unfold whole
    congr 1
    · exact h₁.size.trans h₂.size.symm
    · rw [hu, h₁.last, h₂.last]
  have hA := RequestHeader.trailerLoop_attempts d
  have hL := RequestHeader.trailerLoop_plain d
  have hout := (plain_outcome (h := []) hA hfold fun _ _ => trivial).trans
    (hwhole ▸ (plain_outcome (h := []) hA (hu ▸ hfold) fun _ _ => trivial).symm)
  intro o₁ o₂
  have herr : o₁.1 = o₂.1 := by
    change Retry.Loop.outcome _ o₁ = Retry.Loop.outcome _ o₂ at hout
    unfold Retry.Loop.outcome at hout
    rcases ho₁ : o₁.1 with _ | e₁ <;> rcases ho₂ : o₂.1 with _ | e₂ <;> simp_all
  refine ⟨herr, fun hok => ?_⟩
  obtain ⟨e, left, he, -, -, hrest, hlist, -, hleft⟩ := plain_read hA hL hfold (fun _ _ => trivial) hok
  obtain ⟨e', left', he', -, -, hrest', hlist', -, hleft'⟩ := plain_read hA hL (hu ▸ hfold) (fun _ _ => trivial) (herr ▸ hok)
  obtain rfl := hleft.mpr (honce₁ e he)
  obtain rfl := hleft'.mpr (honce₂ e' he')
  rw [hu] at he' hrest' hlist'
  obtain rfl : e = e' := Option.some.inj (he.symm.trans he')
  exact ⟨hlist.trans hlist'.symm, hrest.trans hrest'.symm⟩

theorem agrees_fixed {req : Request} {r : Reader Byte Err} {maxBodySize : Int} {c : Nat} (m : MultipartParser) (cap : Nat)
    {sizes : Nat → Nat} (hsizes : ∀ i, 0 < sizes i) (hpos : 0 < c) (hc : req.header.contentLength = c)
    (henough : c ≤ r.unread.length) (hmax : 0 ≤ maxBodySize) (hfits : maxBodySize = 0 ∨ c ≤ maxBodySize) :
    req.Agrees m r maxBodySize cap sizes := by
  have hne : (c : Int) ≠ 0 := by omega
  have hlt : (0 : Int) < c := by omega
  have hne1 : (c : Int) ≠ -1 := by omega
  have hlimit : ¬ (0 < maxBodySize ∧ maxBodySize < c) := by omega
  have hform : req.preParse false = false := rfl
  obtain ⟨r', happ, hd⟩ := appendBodyFixedSize_enough r [] henough
  have hbody : req.readBody m r maxBodySize false cap = (none, { req with body := r.unread.take c }, r') := by
    unfold readBody readBodyBytes Fasthttp.readBody
    simp only [hc, hne, hlt, hform, if_false, if_true, hne1, decide_true, Bool.true_and, Bool.and_eq_true, decide_eq_true_eq,
      hlimit, Bool.false_eq_true, happ, nil_append, Option.map_none]
  have hspec := setUpStream_spec (.request req.header) .unexpectedReqBodyEOF (.inl hmax : Prefetches r.size c maxBodySize) henough
  rcases ho : setUpStream (.request req.header) .unexpectedReqBodyEOF r c maxBodySize with ⟨e | s, r₁⟩ <;> rw [ho] at hspec
  · cases hspec
  have hstream : req.readBodyStream m r maxBodySize false = (none, { req with bodyStream := some s }, r₁) := by
    unfold readBodyStream
    simp only [hc, hne, if_false, hform, Bool.and_false, Bool.false_eq_true, ho]
  unfold Agrees
  rw [hbody, hstream]
  refine ⟨rfl, s, rfl, fun fuel hf => ?_⟩
  simp only [length_take] at hf
  obtain ⟨s', r'', hdrain, hl, hrec⟩ := hspec.drains hc henough hsizes (by omega : c < fuel)
  refine ⟨s', r'', hdrain, fun _ => ⟨hl.unread.trans hd.unread.symm, [], ?_, ?_⟩⟩
  · simp [headersBefore, hc]
  · rw [hrec req.header rfl, append_nil]

theorem agrees_chunked {req : Request} {r : Reader Byte Err} {maxBodySize : Int} (m : MultipartParser) (cap : Nat)
    {sizes : Nat → Nat} (hsizes : ∀ i, 0 < sizes i) (hc : req.header.contentLength = -1)
    (hstop : (chunks 0 r.unread).stop = .done) (hfits : maxBodySize ≤ 0 ∨ (chunks 0 r.unread).body.length ≤ maxBodySize)
    (hcond : strCRLF <+: r.unread.drop (chunks 0 r.unread).len ∨ ∀ fuel, (chunks 0 r.unread).body.length < fuel →
      TrailerAlike req.header.disableNormalizing (readBodyChunked r maxBodySize).2.2 (req.streamReader r sizes fuel)) :
    req.Agrees m r maxBodySize cap sizes := by
  obtain ⟨r₁, hread, hd⟩ := readBodyChunked_done r maxBodySize hstop hfits
  rw [hread] at hcond
  generalize hheader : (if (chunks 0 r.unread).body = [] then req.header.withContentLength 0 else req.header) = header
  have hnorm : header.disableNormalizing = req.header.disableNormalizing := by
    rw [← hheader]
    split
    · unfold RequestHeader.withContentLength
      split <;> rfl
    · rfl
  have hbefore : req.headersBefore (chunks 0 r.unread).body = header.h := by
    rw [headersBefore, ← hheader]
    simp only [hc, true_and]
    split <;> rfl
  have hbody : req.readBody m r maxBodySize false cap
      = ((header.readTrailer r₁).1, { req with body := (chunks 0 r.unread).body, header := (header.readTrailer r₁).2.1 },
        (header.readTrailer r₁).2.2) := by
    have hbytes : req.readBodyBytes r (-1) maxBodySize cap = (none, { req with body := (chunks 0 r.unread).body, header }, r₁) := by
      unfold readBodyBytes
      simp only [hread, Option.isNone_none, Bool.true_and, List.isEmpty_iff, hheader]
      rfl
    unfold readBody
    simp only [hc, hbytes]
    rfl
  have hstream : req.readBodyStream m r maxBodySize false
      = (none, { req with bodyStream := some (.request (.new [] (.request req.header))) }, r) := by
    unfold readBodyStream setUpStream readBodyWithStreaming
    simp only [hc]
    rfl
  unfold Agrees
  rw [hbody, hstream]
  refine ⟨rfl, _, rfl, fun fuel hf => ?_⟩
  obtain ⟨e, s', r', hdrain, r₂, rs, hr₂, hl₂, rfl, rfl, hrs, rfl⟩ := drain_chunks hsizes (h := .request req.header) hc hstop hf
  have halike : TrailerAlike req.header.disableNormalizing r₁ r₂ := by
    rcases hcond with ⟨t, ht⟩ | halike
    · obtain ⟨hfold, honce⟩ := once_crlf req.header.disableNormalizing (hd.unread.trans ht.symm)
      exact .inr ⟨hfold, honce, (once_crlf _ (hl₂.unread.trans ht.symm)).2⟩
    · exact hr₂ ▸ halike fuel hf
  obtain ⟨herr, hsame⟩ := trailer_same hd.toLeaves hl₂ halike
  rw [readTrailer_eq, hnorm]
  simp only [StreamHeader.readTrailer, readTrailer_eq req.header] at hdrain hrs ⊢
  rw [← herr] at hdrain
  refine ⟨_, _, hdrain, fun hok => ?_⟩
  obtain ⟨hlist, hrest⟩ := hsame hok
  refine ⟨hrest.symm, _, by rw [hbefore, hlist], ?_⟩
  obtain ⟨header', _, _, _⟩ := rs
  simp only at hrs
  rw [hrs]
  rfl

/-- Streamed and buffered bodies agree if the length is given, if the trailer has no fields, or if both come to the trailer
with the same buffer or find no field of it in an attempt that is repeated. -/
theorem readBody_agrees (req : Request) (m : MultipartParser) (r : Reader Byte Err) (maxBodySize : Int) (cap : Nat)
    (sizes : Nat → Nat) (hsizes : ∀ i, 0 < sizes i) (hholds : req.Holds r.unread) (hmax : 0 ≤ maxBodySize)
    (hfits : maxBodySize = 0 ∨ (req.bodyOf r.unread).length ≤ maxBodySize)
    (hcond : req.header.contentLength = -1 → strCRLF <+: r.unread.drop (chunks 0 r.unread).len ∨
      ∀ fuel, (chunks 0 r.unread).body.length < fuel → TrailerAlike req.header.disableNormalizing
        (readBodyChunked r maxBodySize).2.2 (req.streamReader r sizes fuel)) :
    req.Agrees m r maxBodySize cap sizes := by
  unfold Holds at hholds
  unfold bodyOf at hfits
  by_cases hc : req.header.contentLength = -1
  · rw [if_pos hc] at hholds hfits
    exact agrees_chunked m cap hsizes hc hholds (hfits.imp_left Int.le_of_eq) (hcond hc)
  · rw [if_neg hc] at hholds hfits
    obtain ⟨c, hcast⟩ := Int.eq_ofNat_of_zero_le (Int.le_of_lt hholds.1)
    rw [length_take] at hfits
    exact agrees_fixed m cap hsizes (by omega) hcast (by omega) hmax (by omega)

theorem readBody_agrees_trailer :
    (sizedRequest (-1)).Agrees noForm (wire ["3\r\nab", "c\r\n0\r\nA: b\r\n\r\n"]) 0 0 (fun _ => 2) := by
  refine readBody_agrees _ _ _ _ _ _ (by simp) ((if_pos rfl).mpr (by decide +kernel)) (by decide) (.inl rfl)
    fun _ => .inr fun fuel hf => ?_
  have hlen : (chunks 0 (wire ["3\r\nab", "c\r\n0\r\nA: b\r\n\r\n"]).unread).body.length = 3 := by decide +kernel
  obtain ⟨k, rfl⟩ : ∃ k, fuel = 4 + k := ⟨fuel - 4, by omega⟩
  rw [streamReader, beforeEnd_more _ _ (by decide +kernel)]
  exact .inl (ext_fields (by decide +kernel) (by decide +kernel) (by decide +kernel)
    (Source.ext (by decide +kernel) (by decide +kernel)))

def longChunk : Reader Byte Err :=
  .new 16 (.of [ascii "22\r\n" ++ List.replicate 34 (ch 'x') ++ ascii "\r\n0\r\nA:b\r\n\r\n"] .eof) (by decide)

/-- The stream, read byte by byte, comes to a trailer of which the buffer holds only a part, and
records its field twice. -/
theorem readBody_disagrees : ¬ (sizedRequest (-1)).Agrees noForm longChunk 0 0 (fun _ => 1) := by
  unfold Agrees
  generalize hb : (sizedRequest (-1)).readBody noForm longChunk 0 false 0 = b
  generalize ho : (sizedRequest (-1)).readBodyStream noForm longChunk 0 false = o
  rintro ⟨-, s, hs, hall⟩
  have hone : b.2.1.header.h.length = 1 ∧ b.2.1.body.length < 100 ∧ b.1 = none := by
    rw [← hb]
    decide +kernel
  have htwo : o.2.1.bodyStream.map (fun s => ((s.drain (fun _ => 1) 100 o.2.2).2.2.1.recorded (sizedRequest (-1)).header).length)
      = some 2 := by
    rw [← ho]
    decide +kernel
  have hnone : (sizedRequest (-1)).header.h = [] := rfl
  obtain ⟨s', r', hdrain, hsame⟩ := hall 100 hone.2.1
  obtain ⟨-, trailers, hbody, hstream⟩ := hsame hone.2.2
  rw [hs, Option.map_some, hdrain, hstream, hnone, nil_append] at htwo
  have hlen := congrArg List.length hbody
  rw [length_append, hone.1] at hlen
  simp only [Option.some.injEq] at htwo
  omega

end Request

end Fasthttp
