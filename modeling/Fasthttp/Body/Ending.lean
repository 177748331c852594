import Fasthttp.Body.Chunks
import Fasthttp.Body.Fixed
import Fasthttp.Header.Attempt

/-!
# When a stream ends

A stream reports the end of its body by `io.EOF`.
-/

namespace Fasthttp

open Bufio Reader Scanner List

/-! ## Trailers without folded lines -/

namespace StreamHeader

/-- No line of the trailer is folded, and a response does not skip its first bytes. -/
def PlainTrailer (h : StreamHeader) (rest : Bytes) : Prop :=
  NoFold rest ∧ match h with
    | request _ => True
    | response _ => rest.head? ≠ some (ch '0')

theorem readTrailer_plain {h : StreamHeader} {r : Reader Byte Err} (hplain : h.PlainTrailer r.unread) :
    (h.readTrailer r).1 ≠ some .eof ∧ ((h.readTrailer r).1 = none →
      ∃ e, blockEnd r.unread = some e ∧ Leaves r (r.unread.drop e) (h.readTrailer r).2.2) := by
  cases h with
  | request h =>
    exact readTrailerWith_plain (RequestHeader.trailerLoop_plain h.disableNormalizing) h.h hplain.1 fun _ _ => trivial
  | response h =>
    refine readTrailerWith_plain (ResponseHeader.trailerLoop_plain h.disableNormalizing) h.h hplain.1 fun b hb => ?_
    obtain ⟨y, hy⟩ := hb
    have h0 := hplain.2
    rw [← hy] at h0
    cases b with
    | nil => simp
    | cons c b => simpa using h0

end StreamHeader

namespace RequestStream

variable {b bs out : Bytes} {h : StreamHeader} {r r' r₀ : Reader Byte Err} {rs rs₀ : RequestStream}

inductive Reads (rs₀ : RequestStream) (r₀ : Reader Byte Err) : Bytes → RequestStream → Reader Byte Err → Prop
  | start : Reads rs₀ r₀ [] rs₀ r₀
  | read {out bs : Bytes} {rs rs' : RequestStream} {r r' : Reader Byte Err} (k : Nat) : Reads rs₀ r₀ out rs r →
      rs.read r k = (bs, none, rs', r') → Reads rs₀ r₀ (out ++ bs) rs' r'

theorem read_fixed (h : rs.header.contentLength ≠ -1) (r : Reader Byte Err) (k : Nat) :
    rs.read r k = rs.readFixed r k := by
  rw [RequestStream.read, if_neg h]

theorem read_chunked (h : rs.header.contentLength = -1) (r : Reader Byte Err) (k : Nat) :
    rs.read r k = rs.readChunked r k := by
  rw [RequestStream.read, if_pos h]

structure FixedStream (b : Bytes) (h : StreamHeader) : Prop where
  nonneg : 0 ≤ h.contentLength
  fits : b.length ≤ h.contentLength

theorem Reads.fixed
    (hs : FixedStream b h) (hr : Reads (.new b h) r₀ out rs r) : rs.header = h ∧ FixedInv b r₀ out rs r := by
  induction hr with
  | start => exact ⟨rfl, fixedInv_new b h r₀ hs.nonneg⟩
  | @read out bs rs rs' r r' k _ hread ih =>
    obtain ⟨hh, hI⟩ := ih
    have hpos := hs.nonneg
    rw [read_fixed (by rw [hh]; omega)] at hread
    have hspec := readFixed_spec (by rw [hh]; exact hs.fits) hI k
    rw [hread] at hspec
    cases hspec with
    | data _ _ _ _ hh' hI' => exact ⟨hh'.trans hh, hI'⟩

theorem Reads.fixed_read (hs : FixedStream b h) (hr : Reads (.new b h) r₀ out rs r) (k : Nat) :
    FixedRead b r₀ out rs r k (rs.read r k) := by
  obtain ⟨hh, hI⟩ := hr.fixed hs
  have hpos := hs.nonneg
  rw [read_fixed (by rw [hh]; omega)]
  exact readFixed_spec (by rw [hh]; exact hs.fits) hI k

theorem FixedInv.part (hI : FixedInv b r₀ out rs r) :
    out <+: b ++ r₀.unread := by
  rw [← hI.front]
  exact take_prefix _ _

structure ChunkInv (rs₀ : RequestStream) (r₀ : Reader Byte Err) (out : Bytes) (rs : RequestStream) (r : Reader Byte Err) : Prop where
  header : rs.header = rs₀.header
  ahead : ∃ n, rs₀.ahead r₀ = (rs.ahead r).behind out n ∧ n ≤ r₀.unread.length ∧ Leaves r₀ (r₀.unread.drop n) r

theorem chunkInv_start (rs₀ : RequestStream) (r₀ : Reader Byte Err) : ChunkInv rs₀ r₀ [] rs₀ r₀ :=
  ⟨rfl, 0, by simp [Walk.behind], by simp, rfl, rfl, by simp⟩

theorem ChunkInv.data {n left : Nat}
    (hI : ChunkInv rs₀ r₀ out rs r) (hw : rs.ahead r = (chunks left r'.unread).behind bs n)
    (hd : Drops r n r') : ChunkInv rs₀ r₀ (out ++ bs) (rs.delivered bs left) r' := by
  obtain ⟨m, hm, hle, hl₀⟩ := hI.ahead
  have hall := Drops.trans ⟨hl₀, hle⟩ hd
  refine ⟨hI.header, m + n, ?_, hall.le, hall.toLeaves⟩
  rw [hm, hw, Walk.behind_behind]
  rfl

theorem Reads.chunked
    (hc : rs₀.header.contentLength = -1) (hr : Reads rs₀ r₀ out rs r) : ChunkInv rs₀ r₀ out rs r := by
  induction hr with
  | start => exact chunkInv_start rs₀ r₀
  | @read out bs rs rs' r r' k _ hread ih =>
    rw [read_chunked (by rw [ih.header]; exact hc)] at hread
    have hspec := rs.readChunked_spec r k
    rw [hread] at hspec
    cases hspec with
    | data _ n left _ _ _ hw hd => exact ih.data hw hd

theorem Reads.ends (rs₀ : RequestStream) (r₀ : Reader Byte Err) (bound : Nat)
    (hbound : ∀ out rs r, Reads rs₀ r₀ out rs r → out.length ≤ bound)
    (hdata : ∀ out rs r bs rs' r', Reads rs₀ r₀ out rs r → rs.read r 1 = (bs, none, rs', r') → bs ≠ []) :
    ∃ out rs r bs e rs' r', Reads rs₀ r₀ out rs r ∧ rs.read r 1 = (bs, some e, rs', r') := by
  suffices h : ∀ out rs r, Reads rs₀ r₀ out rs r →
      ∃ out rs r bs e rs' r', Reads rs₀ r₀ out rs r ∧ rs.read r 1 = (bs, some e, rs', r') from h [] rs₀ r₀ .start
  intro out rs r hr
  induction hn : bound - out.length using Nat.strong_induction_on generalizing out rs r with
  | _ n ih =>
    rcases hread : rs.read r 1 with ⟨bs, _ | e, rs', r'⟩
    · have hne := length_pos_iff.mpr (hdata _ _ _ _ _ _ hr hread)
      have hle := hbound _ _ _ (.read 1 hr hread)
      rw [length_append] at hle
      exact ih _ (by rw [length_append]; omega) _ _ _ (.read 1 hr hread) rfl
    · exact ⟨out, rs, r, bs, e, rs', r', hr, hread⟩

/-- The whole body was delivered. For chunks, the reader is left behind the trailer. -/
def Complete (b : Bytes) (h : StreamHeader) (t out left : Bytes) : Prop :=
  if h.contentLength = -1 then
    (chunks 0 t).stop = .done ∧ out = (chunks 0 t).body ∧
      ∃ e, blockEnd (t.drop (chunks 0 t).len) = some e ∧ left = t.drop ((chunks 0 t).len + e)
  else out.length = h.contentLength ∧ out <+: b ++ t

def Honest (b : Bytes) (h : StreamHeader) (r₀ : Reader Byte Err) : Prop :=
  ∀ out rs r, Reads (.new b h) r₀ out rs r → ∀ k bs rs' r', rs.read r k = (bs, some .eof, rs', r') →
    Complete b h r₀.unread (out ++ bs) r'.unread

/-- The bytes do not end before the end of the body where the error of the connection is passed on. -/
def Untruncated (b : Bytes) (h : StreamHeader) (t : Bytes) : Prop :=
  if h.contentLength = -1 then (chunks 0 t).stop ≠ .cutSize ∧ (chunks 0 t).stop ≠ .cutEnd
  else h.contentLength ≤ b.length + t.length

theorem ChunkInv.complete {n : Nat}
    (hI : ChunkInv rs₀ r₀ out rs r) (hw : rs.ahead r = ⟨[], .done, n⟩) (ht : Drops r n r') :
    (rs₀.ahead r₀).stop = .done ∧ (rs₀.ahead r₀).body = out ∧ Leaves r₀ (r₀.unread.drop (rs₀.ahead r₀).len) r' := by
  obtain ⟨m, hm, -, hl⟩ := hI.ahead
  have hl' := hl.trans ht.toLeaves
  rw [hl.unread, drop_drop] at hl'
  rw [hm, hw]
  exact ⟨rfl, by simp [Walk.behind], hl'⟩

inductive ChunkEnd (r₀ : Reader Byte Err) (out : Bytes) (r' : Reader Byte Err) : Prop
  | done (e : Nat) : (chunks 0 r₀.unread).stop = .done → out = (chunks 0 r₀.unread).body →
      blockEnd (r₀.unread.drop (chunks 0 r₀.unread).len) = some e →
      Leaves r₀ (r₀.unread.drop ((chunks 0 r₀.unread).len + e)) r' → ChunkEnd r₀ out r'
  | cut : (chunks 0 r₀.unread).stop = .cutSize ∨ (chunks 0 r₀.unread).stop = .cutEnd → r₀.src.last = .eof →
      Leaves r₀ [] r' → ChunkEnd r₀ out r'

theorem StopErr.eof {last : Err} {left : Nat} {t : Bytes} (h : StopErr last (chunks left t).stop .eof) :
    last = .eof ∧ ((chunks left t).stop = .cutSize ∨ (chunks left t).stop = .cutEnd) := by
  generalize hst : (chunks left t).stop = st at h
  generalize heof : Err.eof = e at h
  cases h with
  | size => exact ⟨rfl, .inl rfl⟩
  | ends => exact ⟨rfl, .inr rfl⟩
  | data =>
    by_cases h0 : last = .eof
    · simp [h0] at heof
    · rw [if_neg h0] at heof
      exact absurd heof.symm h0
  | broken e => exact absurd heof.symm (walk_broken hst)

theorem chunkEnd_of_eof {rs' : RequestStream} {k : Nat}
    (hc : rs₀.header.contentLength = -1) (h₀ : rs₀.chunkLeft = 0)
    (hplain : (chunks 0 r₀.unread).stop = .done → rs₀.header.PlainTrailer (r₀.unread.drop (chunks 0 r₀.unread).len))
    (hr : Reads rs₀ r₀ out rs r) (hread : rs.read r k = (bs, some .eof, rs', r')) :
    ChunkEnd r₀ (out ++ bs) r' ∧ rs'.header.contentLength = -1 ∧ rs'.chunkLeft = 0 := by
  have hI := hr.chunked hc
  have hahead : rs₀.ahead r₀ = chunks 0 r₀.unread := by rw [ahead, h₀]
  obtain ⟨m, hm, -, hl⟩ := hI.ahead
  have hstop := congrArg Walk.stop hm
  rw [hahead] at hstop
  have hheader : rs.header = rs₀.header := hI.header
  rw [read_chunked (by rw [hheader]; exact hc)] at hread
  have hspec := rs.readChunked_spec r k
  generalize hout : rs.readChunked r k = o at hspec
  rw [hread] at hout
  cases hspec with
  | data => simp at hout
  | done n r₁ hw ht =>
    obtain ⟨hdone, hbody, hleave⟩ := hI.complete hw ht
    rw [hahead] at hdone hbody hleave
    have hpl := hplain hdone
    have hunread : r₁.unread = r₀.unread.drop (chunks 0 r₀.unread).len := hleave.unread
    rw [← hunread, ← hheader] at hpl
    obtain ⟨hne, hok⟩ := StreamHeader.readTrailer_plain hpl
    have hlen : (rs.header.readTrailer r₁).2.1.contentLength = rs.header.contentLength := by cases rs.header <;> rfl
    rw [Prod.mk.injEq, Prod.mk.injEq] at hout
    obtain ⟨rfl, he, rfl, rfl⟩ := hout
    have hnone : (rs.header.readTrailer r₁).1 = none := by
      rcases ht' : (rs.header.readTrailer r₁).1 with _ | e
      · rfl
      · rw [ht'] at he hne
        exact absurd he.symm hne
    obtain ⟨e, hblock, hl'⟩ := hok hnone
    refine ⟨.done e hdone (by rw [append_nil]; exact hbody.symm) (by rw [← hunread]; exact hblock) ?_,
      hlen.trans (hheader ▸ hc), ?_⟩
    · have hafter := hleave.trans hl'
      rwa [hunread, drop_drop] at hafter
    · by_contra hleft
      exact chunks_ne_done (Nat.pos_of_ne_zero hleft) r.unread n hw
  | stop bs' e left r₁ _ he hl' hleft =>
    obtain ⟨rfl, rfl, rfl, rfl⟩ := hout
    obtain ⟨hlast, hcut⟩ := StopErr.eof he
    rw [hl.last] at hlast
    rw [ahead, chunks_cut_len hcut, drop_length] at hl'
    refine ⟨.cut (by rw [hstop]; exact hcut) hlast (hl.trans hl'), hheader ▸ hc, ?_⟩
    exact hleft.resolve_left (by rcases hcut with hcut | hcut <;> rw [ahead, hcut] <;> simp)

theorem complete_of_eof {rs' : RequestStream} {k : Nat}
    (hs : h.contentLength = -1 ∨ FixedStream b h)
    (hplain : h.contentLength = -1 → (chunks 0 r₀.unread).stop = .done →
      h.PlainTrailer (r₀.unread.drop (chunks 0 r₀.unread).len))
    (hcond : r₀.src.last ≠ .eof ∨ Untruncated b h r₀.unread) (hr : Reads (.new b h) r₀ out rs r)
    (hread : rs.read r k = (bs, some .eof, rs', r')) : Complete b h r₀.unread (out ++ bs) r'.unread := by
  unfold Complete
  unfold Untruncated at hcond
  by_cases hc : h.contentLength = -1
  · rw [if_pos hc] at hcond ⊢
    rcases (chunkEnd_of_eof hc rfl (hplain hc) hr hread).1 with ⟨e, hdone, hbody, hblock, hl⟩ | ⟨hcut, hlast, -⟩
    · exact ⟨hdone, hbody, e, hblock, hl.unread⟩
    · have hno := hcond.resolve_left (by simp [hlast])
      exact absurd hcut (by simp [hno])
  · rw [if_neg hc] at hcond ⊢
    have hfs := hs.resolve_left hc
    obtain ⟨hheader, hI⟩ := hr.fixed hfs
    have hspec := hr.fixed_read hfs k
    generalize hout : rs.read r k = o at hspec
    rw [hread] at hout
    cases hspec with
    | done hdone =>
      simp only [Prod.mk.injEq] at hout
      rw [hout.1, append_nil, hdone, hheader]
      exact ⟨rfl, hI.part⟩
    | data => simp at hout
    | cut rs'' r'' hall hlt =>
      simp only [Prod.mk.injEq, Option.some.injEq] at hout
      have hlen := congrArg List.length hall
      rw [length_append] at hlen
      rw [hheader] at hlt
      rcases hcond with hne | hle
      · exact absurd hout.2.1.symm hne
      · omega

theorem exists_eof_chunked (hc : h.contentLength = -1)
    (hlast : r₀.src.last = .eof) (hcut : (chunks 0 r₀.unread).stop = .cutSize ∨ (chunks 0 r₀.unread).stop = .cutEnd) :
    ∃ out rs r bs rs' r', Reads (.new b h) r₀ out rs r ∧ rs.read r 1 = (bs, some .eof, rs', r') := by
  have hread : ∀ {out rs r}, Reads (.new b h) r₀ out rs r → ChunkRead rs r 1 (rs.read r 1) := fun {_ rs r} hr => by
    rw [read_chunked (by rw [(hr.chunked hc).header]; exact hc)]
    exact rs.readChunked_spec r 1
  obtain ⟨out, rs, r, bs, e, rs', r', hr, he⟩ := Reads.ends (.new b h) r₀ (chunks 0 r₀.unread).body.length
    (fun out rs r hr => by
      obtain ⟨n, hn, -⟩ := (hr.chunked hc).ahead
      have hlen := congrArg (·.body.length) hn
      change (chunks 0 r₀.unread).body.length = (out ++ (rs.ahead r).body).length at hlen
      rw [length_append] at hlen
      omega)
    (fun out rs r bs rs' r' hr he => by
      have hspec := hread hr
      rw [he] at hspec
      cases hspec with
      | data _ _ _ _ hne => exact hne (by omega))
  obtain ⟨n, hn, -, hl⟩ := (hr.chunked hc).ahead
  have hstop := congrArg Walk.stop hn
  change (chunks 0 r₀.unread).stop = (rs.ahead r).stop at hstop
  rw [hstop] at hcut
  have hspec := hread hr
  rw [he] at hspec
  generalize ho : (bs, some e, rs', r') = o at hspec
  cases hspec with
  | data => simp at ho
  | done n r'' hw => simp [hw] at hcut
  | stop bs' e' left r'' _ hs =>
    simp only [Prod.mk.injEq, Option.some.injEq] at ho
    obtain ⟨-, rfl, -⟩ := ho
    rw [hl.last, hlast] at hs
    have heof : e = .eof := by
      rcases hcut with hcut | hcut <;> rw [hcut] at hs <;> cases hs <;> rfl
    exact ⟨out, rs, r, bs, rs', r', hr, heof ▸ he⟩

theorem exists_eof_fixed (hs : FixedStream b h)
    (hlast : r₀.src.last = .eof) (hshort : b.length + r₀.unread.length < h.contentLength) :
    ∃ out rs r bs rs' r', Reads (.new b h) r₀ out rs r ∧ rs.read r 1 = (bs, some .eof, rs', r') := by
  obtain ⟨out, rs, r, bs, e, rs', r', hr, he⟩ := Reads.ends (.new b h) r₀ (b ++ r₀.unread).length
    (fun out rs r hr => (hr.fixed hs).2.part.length_le)
    (fun out rs r bs rs' r' hr he => by
      have hspec := hr.fixed_read hs 1
      rw [he] at hspec
      cases hspec with
      | data _ _ _ hne => exact hne (by omega))
  have hle := (hr.fixed hs).2.part.length_le
  rw [length_append] at hle
  have hspec := hr.fixed_read hs 1
  rw [he] at hspec
  generalize ho : (bs, some e, rs', r') = o at hspec
  cases hspec with
  | done hdone =>
    rw [(hr.fixed hs).1] at hdone
    omega
  | data => simp at ho
  | cut =>
    simp only [Prod.mk.injEq] at ho
    rw [ho.2.1, hlast] at he
    exact ⟨out, rs, r, bs, rs', r', hr, he⟩

/-- A stream reports the end of the connection as the end of its body exactly if the connection
ends with `io.EOF` before a chunk size, in its line or in the line end behind a chunk, or before
the content length is reached. -/
theorem eof_honest_iff (b : Bytes) (h : StreamHeader) (r₀ : Reader Byte Err)
    (hs : h.contentLength = -1 ∨ FixedStream b h)
    (hplain : h.contentLength = -1 → (chunks 0 r₀.unread).stop = .done →
      h.PlainTrailer (r₀.unread.drop (chunks 0 r₀.unread).len)) :
    Honest b h r₀ ↔ r₀.src.last ≠ .eof ∨ Untruncated b h r₀.unread := by
  refine ⟨fun hh => ?_, fun hcond out rs r hr k bs rs' r' hread => complete_of_eof hs hplain hcond hr hread⟩
  by_contra hno
  rw [not_or, Decidable.not_not] at hno
  obtain ⟨hlast, hcut⟩ := hno
  unfold Untruncated at hcut
  unfold Honest Complete at hh
  by_cases hc : h.contentLength = -1
  · rw [if_pos hc] at hcut
    have hstop : (chunks 0 r₀.unread).stop = .cutSize ∨ (chunks 0 r₀.unread).stop = .cutEnd := by
      rwa [not_and_or, Decidable.not_not, Decidable.not_not] at hcut
    obtain ⟨out, rs, r, bs, rs', r', hr, he⟩ := exists_eof_chunked (b := b) hc hlast hstop
    have hdone := hh out rs r hr 1 bs rs' r' he
    rw [if_pos hc] at hdone
    rcases hstop with hstop | hstop <;> simp [hstop] at hdone
  · rw [if_neg hc] at hcut
    obtain ⟨out, rs, r, bs, rs', r', hr, he⟩ := exists_eof_fixed (hs.resolve_left hc) hlast (by omega)
    have hdone := hh out rs r hr 1 bs rs' r' he
    rw [if_neg hc] at hdone
    have hle := hdone.2.length_le
    simp only [length_append] at hle hdone
    omega

def chunkedRequest : StreamHeader := .request { RequestHeader.zero with contentLength := -1 }

theorem eof_honest_hello : Honest [] chunkedRequest (wire ["5\r\nhe", "llo\r\n0\r", "\n\r\nGET"]) :=
  (eof_honest_iff _ _ _ (.inl rfl) fun _ _ => ⟨by decide +kernel, trivial⟩).mpr
    (.inr ((if_pos rfl).mpr (by decide +kernel)))

/-- The connection ends in the line end of a chunk, and one read reports the end of the body. -/
theorem eof_truncated : ¬ Honest [] chunkedRequest (wire ["3\r\nhel\r"]) := by
  intro hh
  have heof : ((new [] chunkedRequest).read (wire ["3\r\nhel\r"]) 10).2.1 = some .eof := by decide +kernel
  rcases hread : (new [] chunkedRequest).read (wire ["3\r\nhel\r"]) 10 with ⟨bs, e, rs', r'⟩
  rw [hread] at heof
  subst heof
  have hdone := hh [] _ _ .start 10 bs rs' r' hread
  rw [Complete, if_pos (by rfl)] at hdone
  exact absurd hdone.1 (by decide +kernel)

end RequestStream

end Fasthttp
