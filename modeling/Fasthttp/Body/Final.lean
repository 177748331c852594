import Fasthttp.Body.Ending
import Fasthttp.Body.Message

/-!
# What follows the end of a stream

A stream does not remember that it has reported its end.
-/

namespace Fasthttp

open Bufio Reader List

/-! ## Trailers put nothing back -/

theorem readTrailerWith_unread {L : Retry.Loop (List ArgsKV) Byte Err} (hL : L.InPlace) (h : List ArgsKV) (r : Reader Byte Err) :
    (readTrailerWith L h r).2.2.unread.length ≤ r.unread.length ∧
      ((readTrailerWith L h r).1 ≠ none → (readTrailerWith L h r).2.2.unread.length = r.unread.length) := by
  have hleast := r.least
  unfold readTrailerWith
  rcases Nat.lt_or_ge r.unread.length 2 with hlt | hge
  · obtain ⟨r', hp, hl⟩ := Reader.peek_short hlt (by omega)
    simp [hp, hl.unread]
  · obtain ⟨r', hp, hl, hbuf⟩ := Reader.peek_there hge (by omega)
    simp only [hp]
    split
    · refine ⟨?_, fun hne => absurd rfl hne⟩
      rw [r'.discard_unread hbuf, hl.unread, length_drop]
      omega
    · rw [← hl.unread]
      exact Retry.Loop.read_unread hL h r'

theorem StreamHeader.readTrailer_unread (h : StreamHeader) (r : Reader Byte Err) :
    (h.readTrailer r).2.2.unread.length ≤ r.unread.length ∧
      ((h.readTrailer r).1 ≠ none → (h.readTrailer r).2.2.unread.length = r.unread.length) := by
  cases h with
  | request h => exact readTrailerWith_unread (RequestHeader.trailerLoop_plain h.disableNormalizing).inPlace h.h r
  | response h => exact readTrailerWith_unread (ResponseHeader.trailerLoop_plain h.disableNormalizing).inPlace h.h r

theorem chunks_len_pos {t : Bytes} (h : t ≠ []) : 0 < (chunks 0 t).len := by
  rcases hs : sizeLine t with ⟨m, n⟩ | _ | ⟨e, n⟩
  · have hpos := sizeLine_size hs
    rcases Nat.eq_zero_or_pos m with rfl | hm
    · rw [chunks_zero hs]
      exact hpos.1
    · rw [chunks_size hs hm]
      simp only [Walk.behind]
      omega
  · rw [chunks_cut hs]
    exact length_pos_iff.mpr h
  · rw [chunks_broken hs]
    exact (sizeLine_broken hs).2.1

theorem read_zero_again (r : Reader Byte Err) : ((r.read 0).2.2.read 0).2.1 = none ∨ (r.read 0).2.1 = none := by
  unfold Reader.read
  simp only [if_true]
  split
  · rename_i hb
    left
    simp [hb]
  · exact .inr rfl

namespace RequestStream

variable {r : Reader Byte Err} {rs : RequestStream}

inductive Later (rs₀ : RequestStream) (r₀ : Reader Byte Err) : RequestStream → Reader Byte Err → Prop
  | start : Later rs₀ r₀ rs₀ r₀
  | read {rs : RequestStream} {r : Reader Byte Err} (k : Nat) : Later rs₀ r₀ rs r →
      Later rs₀ r₀ (rs.read r k).2.2.1 (rs.read r k).2.2.2

/-- Every later read reports the end and takes nothing, and so does the discard of a close. -/
structure Final (rs : RequestStream) (r : Reader Byte Err) : Prop where
  ends : ∀ rs' r', Later rs r rs' r' → r'.unread = r.unread ∧ ∀ k, (rs'.read r' k).1 = [] ∧ (rs'.read r' k).2.1 = some .eof
  close : ∀ (req : Request) (sizes : Nat → Nat), req.bodyStream = some (.request rs) →
    (req.closeBodyStream sizes r).1 = none ∧ (req.closeBodyStream sizes r).2.2.unread = r.unread

theorem Final.of_ends
    (h : ∀ rs' r', Later rs r rs' r' → r'.unread = r.unread ∧ ∀ k, (rs'.read r' k).1 = [] ∧ (rs'.read r' k).2.1 = some .eof) :
    Final rs r := by
  refine ⟨h, fun req sizes hreq => ?_⟩
  unfold Request.closeBodyStream
  simp only [hreq]
  split
  · generalize rs.prefetchedBytes.s.length + r.unread.length = fuel
    have heof := ((h rs r .start).2 (sizes fuel)).2
    have hleft := (h _ _ (.read (sizes fuel) .start)).1
    have hdrain : (BodyStream.request rs).drain sizes (fuel + 1) r = ((rs.read r (sizes fuel)).1, some .eof,
        .request (rs.read r (sizes fuel)).2.2.1, (rs.read r (sizes fuel)).2.2.2) := by
      simp [BodyStream.drain, BodyStream.read, heof]
    rw [hdrain]
    exact ⟨by simp, hleft⟩
  · exact ⟨rfl, rfl⟩

theorem final_fixed (hc : rs.header.contentLength ≠ -1) (hall : rs.totalBytesRead = rs.header.contentLength)
    (r : Reader Byte Err) : Final rs r := by
  have hread : ∀ k, rs.read r k = ([], some .eof, rs, r) := fun k => by
    rw [read_fixed hc, readFixed, if_pos hall]
  refine .of_ends fun rs' r' hl => ?_
  have hsame : rs' = rs ∧ r' = r := by
    induction hl with
    | start => exact ⟨rfl, rfl⟩
    | read k _ ih =>
      obtain ⟨rfl, rfl⟩ := ih
      rw [hread]
      exact ⟨rfl, rfl⟩
  obtain ⟨rfl, rfl⟩ := hsame
  exact ⟨rfl, fun k => by rw [hread]; exact ⟨rfl, rfl⟩⟩

structure Closed (rs : RequestStream) (r : Reader Byte Err) : Prop where
  chunked : rs.header.contentLength = -1
  between : rs.chunkLeft = 0
  unread : r.unread = []
  last : r.src.last = .eof

theorem Closed.read (hc : Closed rs r) (k : Nat) :
    ∃ r', rs.read r k = ([], some .eof, rs, r') ∧ Closed rs r' := by
  have hspec := parseChunkSize_spec r
  have hcut : sizeLine r.unread = .cut := by rw [hc.unread]; rfl
  rw [hcut] at hspec
  obtain ⟨r', hp, hl⟩ := hspec
  refine ⟨r', ?_, hc.chunked, hc.between, hl.unread, hl.last.trans hc.last⟩
  rw [read_chunked hc.chunked, readChunked, if_pos hc.between, hp, hc.last]

theorem Closed.final (hc : Closed rs r) : Final rs r := by
  refine .of_ends fun rs' r' hl => ?_
  have hclosed : Closed rs' r' := by
    induction hl with
    | start => exact hc
    | read k _ ih =>
      obtain ⟨r₁, hr, hc₁⟩ := ih.read k
      rw [hr]
      exact hc₁
  refine ⟨by rw [hclosed.unread, hc.unread], fun k => ?_⟩
  obtain ⟨r₁, hr, -⟩ := hclosed.read k
  rw [hr]
  exact ⟨rfl, rfl⟩

theorem not_final_chunked (hc : rs.header.contentLength = -1)
    (h0 : rs.chunkLeft = 0) (hopen : ¬ (r.unread = [] ∧ r.src.last = .eof)) : ¬ Final rs r := by
  intro hF
  have heof := ((hF.ends rs r .start).2 1).2
  have hsame := congrArg List.length (hF.ends _ _ (.read 1 .start)).1
  have hahead : rs.ahead r = chunks 0 r.unread := by rw [ahead, h0]
  have hspec := rs.readChunked_spec r 1
  rw [← read_chunked hc] at hspec
  generalize rs.read r 1 = o at hspec heof hsame
  cases hspec with
  | data => simp at heof
  | done n r' hw ht =>
    have hle := (rs.header.readTrailer_unread r').1
    rw [hahead] at hw
    have hne : r.unread ≠ [] := by
      intro hu
      rw [hu, chunks_cut rfl] at hw
      simp at hw
    have hpos := chunks_len_pos hne
    have hlen := ht.le
    rw [hw] at hpos
    rw [ht.unread, length_drop] at hle
    simp only at hsame hpos
    omega
  | stop bs e left r' hbody he hl =>
    simp only [hl.unread, length_drop] at hsame
    simp only [Option.some.injEq] at heof
    subst heof
    by_cases hu : r.unread = []
    · rw [hahead, hu] at he
      generalize hlast : r.src.last = last at he
      cases he
      exact hopen ⟨hu, hlast⟩
    · have hpos := chunks_len_pos hu
      have := length_pos_iff.mpr hu
      rw [hahead] at hsame
      omega

theorem not_final_fixed (hlt : rs.totalBytesRead < rs.header.contentLength)
    (hpre : rs.prefetchedBytes.s.length ≤ rs.totalBytesRead) (r : Reader Byte Err) : ¬ Final rs r := by
  intro hF
  have hread : ∀ r, rs.read r 0 = ([], (r.read 0).2.1, rs, (r.read 0).2.2) := fun r => by
    obtain ⟨e, r', hr, -⟩ := r.read_zero
    rw [read_fixed (by omega), readFixed, if_neg (by omega), if_neg (by omega), if_neg (by omega), if_neg (by omega), hr]
    rfl
  have hfirst := ((hF.ends rs r .start).2 0).2
  have hsecond := ((hF.ends _ _ (.read 0 .start)).2 0).2
  rw [hread] at hfirst hsecond
  rw [hread] at hsecond
  rcases read_zero_again r with hnone | hnone
  · rw [hnone] at hsecond
    simp at hsecond
  · rw [hnone] at hfirst
    simp at hfirst

/-- Nothing follows the body in chunks, or the body of fixed length is there. -/
def Alone (b : Bytes) (h : StreamHeader) (r₀ : Reader Byte Err) : Prop :=
  if h.contentLength = -1 then
    r₀.src.last = .eof ∧ ((chunks 0 r₀.unread).stop = .done → ∀ e,
      blockEnd (r₀.unread.drop (chunks 0 r₀.unread).len) = some e → r₀.unread.drop ((chunks 0 r₀.unread).len + e) = [])
  else h.contentLength ≤ b.length + r₀.unread.length

/-- Once an end was reported, it is final exactly if nothing follows the chunks or the bytes of
the fixed length were all there. -/
theorem eof_final_iff {b out bs : Bytes} {h : StreamHeader} {r₀ r r' : Reader Byte Err} {rs rs' : RequestStream} {k : Nat}
    (hs : h.contentLength = -1 ∨ FixedStream b h)
    (hplain : h.contentLength = -1 → (chunks 0 r₀.unread).stop = .done →
      h.PlainTrailer (r₀.unread.drop (chunks 0 r₀.unread).len))
    (hr : Reads (.new b h) r₀ out rs r) (hread : rs.read r k = (bs, some .eof, rs', r')) :
    Final rs' r' ↔ Alone b h r₀ := by
  unfold Alone
  by_cases hc : h.contentLength = -1
  · rw [if_pos hc]
    obtain ⟨hend, hc', h0⟩ := chunkEnd_of_eof hc rfl (hplain hc) hr hread
    have hiff : Final rs' r' ↔ r'.unread = [] ∧ r'.src.last = .eof :=
      ⟨fun hF => Decidable.not_not.mp fun hopen => not_final_chunked hc' h0 hopen hF,
        fun hcl => Closed.final ⟨hc', h0, hcl.1, hcl.2⟩⟩
    rw [hiff]
    rcases hend with ⟨e, hdone, -, hblock, hl⟩ | ⟨hcut, hlast, hl⟩
    · rw [hl.unread, hl.last]
      constructor
      · rintro ⟨hnil, hlast⟩
        refine ⟨hlast, fun _ e' he' => ?_⟩
        obtain rfl : e = e' := Option.some.inj (hblock.symm.trans he')
        exact hnil
      · rintro ⟨hlast, hnil⟩
        exact ⟨hnil hdone e hblock, hlast⟩
    · rw [hl.unread, hl.last]
      refine ⟨fun _ => ⟨hlast, fun hdone => ?_⟩, fun _ => ⟨rfl, hlast⟩⟩
      rcases hcut with hcut | hcut <;> simp [hcut] at hdone
  · rw [if_neg hc]
    have hfs := hs.resolve_left hc
    obtain ⟨hheader, hI⟩ := hr.fixed hfs
    have hspec := hr.fixed_read hfs k
    generalize hout : rs.read r k = o at hspec
    rw [hread] at hout
    cases hspec with
    | done hdone =>
      simp only [Prod.mk.injEq] at hout
      obtain ⟨-, -, rfl, rfl⟩ := hout
      have hle := hI.part.length_le
      rw [hheader] at hdone
      rw [length_append] at hle
      exact ⟨fun _ => by omega, fun _ => final_fixed (hheader ▸ hc) (by rw [hI.total, hheader, hdone]) r'⟩
    | data => simp at hout
    | cut rs'' r'' hall hlt hheader' hI' =>
      simp only [Prod.mk.injEq] at hout
      obtain ⟨-, -, rfl, rfl⟩ := hout
      have hlen := congrArg List.length hall
      rw [length_append] at hlen
      have hopen : rs'.totalBytesRead < rs'.header.contentLength := by
        rw [hI'.total, hheader']
        exact hlt
      have hno := not_final_fixed hopen (by rw [hI'.total, hI'.bytes]; simp only; omega) r'
      rw [hheader] at hlt
      exact ⟨fun hF => absurd hF hno, fun hle => by omega⟩

theorem eof_final_abc :
    let r := wire ["3\r\nabc\r\n0\r\n\r\n"]
    let first := (new [] chunkedRequest).read r 3
    let second := first.2.2.1.read first.2.2.2 1
    first.1 = ascii "abc" ∧ second.2.1 = some .eof ∧ Final second.2.2.1 second.2.2.2 := by
  intro r first second
  have habc : first.1 = ascii "abc" ∧ first.2.1 = none := by decide +kernel
  have heof : second.2.1 = some .eof := by decide +kernel
  have hreads : Reads (.new [] chunkedRequest) r ([] ++ first.1) first.2.2.1 first.2.2.2 := .read 3 .start (by rw [← habc.2])
  refine ⟨habc.1, heof, (eof_final_iff (.inl rfl) (fun _ _ => ⟨by decide +kernel, trivial⟩) hreads (by rw [← heof])).mpr
    ((if_pos rfl).mpr ⟨rfl, ?_⟩)⟩
  have hblock : blockEnd (r.unread.drop (chunks 0 r.unread).len) = some 2 := by decide +kernel
  intro _ e he
  obtain rfl : 2 = e := Option.some.inj (hblock.symm.trans he)
  decide +kernel

/-- The end of the chunks was reported, and the next read takes bytes of the next request. -/
theorem eof_not_final : ((new [] chunkedRequest).read (wire ["0\r\n\r\nGET"]) 1).2.1 = some .eof ∧
    ¬ Final ((new [] chunkedRequest).read (wire ["0\r\n\r\nGET"]) 1).2.2.1
      ((new [] chunkedRequest).read (wire ["0\r\n\r\nGET"]) 1).2.2.2 := by
  refine ⟨by decide +kernel, fun hF => ?_⟩
  exact absurd (hF.ends _ _ (.read 1 .start)).1 (by decide +kernel)

end RequestStream

end Fasthttp
