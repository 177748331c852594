import Fasthttp.Body.SetUp
import Fasthttp.Body.Final

/-!
# What a body takes from the connection

A body that was read at once is taken whole.
-/

namespace Fasthttp

open Bufio Reader List

variable {dst out : Bytes} {maxBodySize : Int} {r r' : Reader Byte Err}

theorem readChunks_taken (fuel : Nat)
    (h : readChunks fuel r maxBodySize dst = (out, none, r')) :
    (chunks 0 r.unread).stop = .done ∧ Drops r (chunks 0 r.unread).len r' := by
  induction fuel generalizing r dst with
  | zero => simp [readChunks] at h
  | succ fuel ih =>
    have hsize := parseChunkSize_spec r
    rcases hs : sizeLine r.unread with ⟨m, n⟩ | _ | ⟨e, n⟩ <;> simp only [hs] at hsize <;> obtain ⟨r₁, hp, ht⟩ := hsize
    swap
    · simp [readChunks, hp] at h
    swap
    · simp [readChunks, hp] at h
    rcases Nat.eq_zero_or_pos m with rfl | hm
    · simp only [readChunks, hp, if_true, Prod.mk.injEq, true_and] at h
      rw [chunks_zero hs, ← h.2]
      exact ⟨rfl, ht⟩
    have hw := chunks_size hs hm
    rw [← ht.unread] at hw
    simp only [readChunks, hp, Nat.ne_of_gt hm, if_false] at h
    split at h
    · simp at h
    have hcast : ((m : Int) + (strCRLF.length : Nat)) = ((m + 2 : Nat) : Int) := by simp [strCRLF]
    rw [hcast] at h
    rcases Nat.lt_or_ge r₁.unread.length (m + 2) with hshort | henough
    · obtain ⟨r₂, happ, -⟩ := appendBodyFixedSize_short r₁ dst hshort
      rw [happ] at h
      simp at h
    obtain ⟨r₂, happ, hd₂⟩ := appendBodyFixedSize_enough r₁ dst henough
    have hdata : dst ++ r₁.unread.take (m + 2) = (dst ++ r₁.unread.take m) ++ (r₁.unread.drop m).take 2 := by
      rw [take_add, append_assoc]
    have hlen : ((r₁.unread.drop m).take 2).length = strCRLF.length := by
      rw [length_take, length_drop]
      omega
    rw [happ] at h
    simp only [hdata, length_append, hlen] at h
    split at h
    · simp at h
    rename_i hcrlf
    -- the chunk ends with its line end
    have hcrlf : (r₁.unread.drop m).take 2 = strCRLF := by simpa using hcrlf
    have hok : crLf (r₁.unread.drop m) = .ok := by
      rw [← take_append_drop 2 (r₁.unread.drop m), hcrlf]
      rfl
    have hfull := chunks_full hm (by omega : m ≤ r₁.unread.length)
    rw [hok] at hfull
    obtain ⟨hdone, hdrops⟩ := ih h
    rw [hd₂.unread] at hdone hdrops
    rw [hw, hfull]
    refine ⟨hdone, ?_⟩
    have hall := (ht.trans hd₂).trans hdrops
    simp only [Walk.behind]
    rwa [← Nat.add_assoc]

theorem readBodyChunked_taken (h : readBodyChunked r maxBodySize = (out, none, r')) :
    (chunks 0 r.unread).stop = .done ∧ Drops r (chunks 0 r.unread).len r' := readChunks_taken _ h

theorem appendBodyFixedSize_taken {n : Int} (h : appendBodyFixedSize r dst n = (out, none, r')) :
    0 ≤ n ∧ Drops r n.toNat r' := by
  rcases Int.lt_or_le n 0 with hneg | hpos
  · unfold appendBodyFixedSize at h
    rw [if_neg (by omega), if_pos hneg] at h
    simp at h
  obtain ⟨n, rfl⟩ := Int.eq_ofNat_of_zero_le hpos
  refine ⟨hpos, ?_⟩
  rcases Nat.lt_or_ge r.unread.length n with hshort | henough
  · obtain ⟨r₂, happ, -⟩ := appendBodyFixedSize_short r dst hshort
    rw [happ] at h
    simp at h
  · obtain ⟨r₂, happ, hd⟩ := appendBodyFixedSize_enough r dst henough
    rw [happ] at h
    simp only [Prod.mk.injEq, true_and] at h
    rw [← h.2]
    exact hd

theorem chunks_done_ne_nil {left : Nat} {t : Bytes} (h : (chunks left t).stop = .done) : t ≠ [] := by
  rintro rfl
  rcases Nat.eq_zero_or_pos left with rfl | hpos
  · have hcut : chunks 0 [] = ⟨[], .cutSize, 0⟩ := by decide
    simp [hcut] at h
  · rw [chunks_short (by simpa using hpos)] at h
    simp at h

namespace BodyStream

variable {b out : Bytes} {r r₀ : Reader Byte Err} {rs : RequestStream}

theorem drain_ready (sizes : Nat → Nat) (fuel : Nat) {s : BodyStream} (hs : ∀ rs, s ≠ .request rs) (hc : s ≠ .conn)
    (r : Reader Byte Err) : (s.drain sizes fuel r).2.2.2 = r ∧ ∀ rs, (s.drain sizes fuel r).2.2.1 ≠ .request rs := by
  induction fuel generalizing s with
  | zero => exact ⟨rfl, hs⟩
  | succ fuel ih =>
    cases s with
    | empty => exact ⟨rfl, by simp [drain, read]⟩
    | bytes b =>
      simp only [drain, read]
      rcases b.read (sizes fuel) with ⟨bs, _ | e, b'⟩
      · exact ih (by simp) (by simp)
      · exact ⟨rfl, by simp⟩
    | two t =>
      simp only [drain, read]
      rcases t.read (sizes fuel) with ⟨bs, _ | e, t'⟩
      · exact ih (by simp) (by simp)
      · exact ⟨rfl, by simp⟩
    | request rs => exact absurd rfl (hs rs)
    | conn => exact absurd rfl hc

open RequestStream

theorem request_readFixed (hc : rs.header.contentLength ≠ -1) (r : Reader Byte Err) (n : Nat) : (request rs).read r n =
    ((rs.readFixed r n).1, (rs.readFixed r n).2.1, request (rs.readFixed r n).2.2.1, (rs.readFixed r n).2.2.2) := by
  simp [read, read_fixed hc]

theorem request_readChunked (hc : rs.header.contentLength = -1) (r : Reader Byte Err) (n : Nat) : (request rs).read r n =
    ((rs.readChunked r n).1, (rs.readChunked r n).2.1, request (rs.readChunked r n).2.2.1, (rs.readChunked r n).2.2.2) := by
  simp [read, read_chunked hc]

theorem drain_fixed_inv (sizes : Nat → Nat) (fuel : Nat)
    (hpos : 0 ≤ rs.header.contentLength) (hfits : b.length ≤ rs.header.contentLength) (hI : FixedInv b r₀ out rs r) :
    ∃ rs', ((request rs).drain sizes fuel r).2.2.1 = request rs' ∧ rs'.header = rs.header ∧
      FixedInv b r₀ (out ++ ((request rs).drain sizes fuel r).1) rs' ((request rs).drain sizes fuel r).2.2.2 := by
  induction fuel generalizing out rs r with
  | zero => exact ⟨rs, rfl, rfl, by simpa [drain] using hI⟩
  | succ fuel ih =>
    have hspec := readFixed_spec hfits hI (sizes fuel)
    have hread := request_readFixed (by omega : rs.header.contentLength ≠ -1) r (sizes fuel)
    generalize hout : rs.readFixed r (sizes fuel) = o at hspec hread
    cases hspec with
    | done => exact ⟨rs, by simp [drain, hread], rfl, by simpa [drain, hread] using hI⟩
    | data bs rs' r' _ hh hI' =>
      obtain ⟨rs'', hs, hh'', hI''⟩ := ih (by rw [hh]; exact hpos) (by rw [hh]; exact hfits) hI'
      rw [append_assoc] at hI''
      simp only [drain, hread]
      exact ⟨rs'', hs, hh''.trans hh, hI''⟩
    | cut rs' r' _ _ hh hI' => exact ⟨rs', by simp [drain, hread], hh, by simpa [drain, hread] using hI'⟩

theorem drain_chunks_taken (sizes : Nat → Nat) (fuel : Nat) {h : StreamHeader}
    (hc : h.contentLength = -1) (hstop : (chunks 0 r₀.unread).stop = .done)
    (hplain : h.PlainTrailer (r₀.unread.drop (chunks 0 r₀.unread).len)) (hI : ChunkInv (.new [] h) r₀ out rs r) :
    (((request rs).drain sizes fuel r).2.1 = some .eof → ∃ e, blockEnd (r₀.unread.drop (chunks 0 r₀.unread).len) = some e ∧
      ((request rs).drain sizes fuel r).2.2.2.unread = r₀.unread.drop ((chunks 0 r₀.unread).len + e)) ∧
    (((request rs).drain sizes fuel r).2.1 ≠ some .eof → blockEnd (r₀.unread.drop (chunks 0 r₀.unread).len) ≠ none →
      ((request rs).drain sizes fuel r).2.2.2.unread ≠ []) := by
  induction fuel generalizing out rs r with
  | zero =>
    obtain ⟨m, hm, -, -⟩ := hI.ahead
    have hstop' := congrArg Walk.stop hm
    exact ⟨by simp [drain], fun _ _ => chunks_done_ne_nil (hstop'.symm.trans hstop)⟩
  | succ fuel ih =>
    have hheader : rs.header = h := hI.header
    obtain ⟨m, hm, -, -⟩ := hI.ahead
    have hstop' := congrArg Walk.stop hm
    change (chunks 0 r₀.unread).stop = (rs.ahead r).stop at hstop'
    have hspec := rs.readChunked_spec r (sizes fuel)
    have hread := request_readChunked (hheader ▸ hc : rs.header.contentLength = -1) r (sizes fuel)
    generalize rs.readChunked r (sizes fuel) = o at hspec hread
    cases hspec with
    | data bs n left r' _ _ hw hd =>
      simp only [drain, hread]
      exact ih (hI.data hw hd)
    | done n r' hw ht =>
      obtain ⟨-, -, hleave⟩ := hI.complete hw ht
      have hleave : Leaves r₀ (r₀.unread.drop (chunks 0 r₀.unread).len) r' := hleave
      have hplain' : h.PlainTrailer r'.unread := by rw [hleave.unread]; exact hplain
      obtain ⟨hne, htrailer⟩ := StreamHeader.readTrailer_plain hplain'
      have hunread := (h.readTrailer_unread r').2
      simp only [drain, hread, hheader]
      rcases he : (h.readTrailer r').1 with _ | e
      · refine ⟨fun _ => ?_, fun habs => absurd rfl habs⟩
        obtain ⟨e, hend, hl⟩ := htrailer he
        rw [hleave.unread] at hend hl
        exact ⟨e, hend, by rw [hl.unread, drop_drop]⟩
      · refine ⟨fun heof => absurd (by rw [he, ← heof]; rfl) hne, fun _ hblock hnil => ?_⟩
        have hlen := hunread (by simp [he])
        rw [hnil, hleave.unread] at hlen
        rw [length_eq_zero_iff.mp hlen.symm] at hblock
        exact hblock (by decide)
    | stop bs e left r' _ he =>
      rw [← hstop', hstop] at he
      cases he

end BodyStream

end Fasthttp
