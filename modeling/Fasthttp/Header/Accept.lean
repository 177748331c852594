import Fasthttp.Header.Run
import Fasthttp.Header.Response

/-! # What the two header parsers accept: both are strict bodies of the scan -/

namespace Fasthttp

open Scanner

theorem validHeaderFieldByte_blank (c : Byte) (h : isBlank c = true) : validHeaderFieldByte c = false := by
  revert c; exact forall_byte (by decide +kernel)

theorem all_validHeaderFieldByte_startsBlank {k : Bytes} (h : StartsBlank k) :
    k.isEmpty = false ∧ k.all validHeaderFieldByte = false := by
  obtain ⟨c, t, rfl, hc⟩ := startsBlank_cons h
  simp [validHeaderFieldByte_blank c hc]

theorem addRequestTrailer_definite (d : Bool) (t : List ArgsKV) (names : Bytes) :
    (addRequestTrailer d t names).2 ≠ some .needMore := by
  refine List.foldlRecOn (motive := fun te : List ArgsKV × Option Err => te.2 ≠ some .needMore) _ _ (by simp) fun te hte key _ => ?_
  dsimp only
  split
  · simp
  · exact hte

theorem RequestHeader.parseField_strict : Strict RequestHeader.parseField where
  blank h k hk := by
    obtain ⟨h0, h1⟩ := all_validHeaderFieldByte_startsBlank hk
    exact ⟨_, fun v => by simp [RequestHeader.parseField, h0, h1]; rfl⟩
  definite h k v := by
    have hcl : (h.setContentLength v).2 ≠ some .needMore := by
      unfold RequestHeader.setContentLength
      split
      · simp [Err.multipleContentLength]
      · simp only
        split
        · simp
        · split <;> simp [Err.contentLengthNotInt]
    have hte : (h.setTransferEncoding v).2 ≠ some .needMore := by
      unfold RequestHeader.setTransferEncoding
      split <;> simp
    have htr : (h.setTrailerBytes v).2 ≠ some .needMore := addRequestTrailer_definite _ _ _
    have hspecial : (h.specialField k v).2 ≠ some .needMore := by
      unfold RequestHeader.specialField
      simp only
      repeat' split
      all_goals first | assumption | simp
    unfold RequestHeader.parseField
    repeat' split
    all_goals first | assumption | simp [Err.emptyHeaderKey]

theorem ResponseHeader.parseField_strict : Strict ResponseHeader.parseField where
  blank h k hk := by
    obtain ⟨h0, h1⟩ := all_validHeaderFieldByte_startsBlank hk
    exact ⟨_, fun v => by simp [ResponseHeader.parseField, h0, h1]; rfl⟩
  definite h k v := by
    have hcl : (h.setContentLength v).2 ≠ some .needMore := by
      unfold ResponseHeader.setContentLength
      split
      · simp
      · simp only
        split <;> simp [Err.contentLengthNotInt]
    have hte : (h.setTransferEncoding v).2 ≠ some .needMore := by
      unfold ResponseHeader.setTransferEncoding
      split <;> simp
    have htr : (h.setTrailer v).2 ≠ some .needMore := by
      unfold ResponseHeader.setTrailer
      simp only
      split <;> simp [Err.badTrailerInHeader]
    have hspecial : (h.specialField k v).2 ≠ some .needMore := by
      unfold ResponseHeader.specialField
      simp only
      repeat' split
      all_goals first | assumption | simp
    unfold ResponseHeader.parseField
    repeat' split
    all_goals first | assumption | simp [Err.emptyHeaderKey]

end Fasthttp
