import Fasthttp.Body.Wire

/-!
# Bodies that are read at once

A body of a given length, and a chunked body up to the line of its last chunk.
-/

namespace Fasthttp

open Bufio Reader List

theorem fillBody_enough (fuel : Nat) (r : Reader Byte Err) (dst : Bytes) (want : Nat) (hpos : 0 < want)
    (hf : want ≤ fuel) (h : want ≤ r.unread.length) :
    ∃ r', fillBody fuel r dst want = (dst ++ r.unread.take want, none, r') ∧ Drops r want r' := by
  induction fuel generalizing r dst want with
  | zero => omega
  | succ fuel ih =>
    have hu : r.unread ≠ [] := by
      rw [← length_pos_iff]
      omega
    obtain ⟨bs, r₁, hr, hne, hle, happ, hd⟩ := read_some hu hpos
    have hlen := length_pos_iff.mpr hne
    have hbs : r.unread.take bs.length = bs := by rw [happ, take_left' rfl]
    have hempty : bs.isEmpty = false := by simpa using hne
    by_cases heq : bs.length = want
    · refine ⟨r₁, ?_, heq ▸ hd⟩
      rw [← heq, hbs]
      simp [fillBody, hr, heq, hempty]
    · have hrest : want - bs.length ≤ r₁.unread.length := by rw [hd.unread, length_drop]; omega
      obtain ⟨r', hr', hd'⟩ := ih r₁ (dst ++ bs) (want - bs.length) (by omega) (by omega) hrest
      have hsplit : bs ++ r₁.unread.take (want - bs.length) = r.unread.take want := by
        rw [happ, take_append, take_of_length_le hle]
      refine ⟨r', ?_, ?_⟩
      · rw [fillBody, hr]
        simp only [hempty, Bool.false_eq_true, if_false, heq]
        rw [hr', append_assoc, hsplit]
      · have := hd.trans hd'
        rwa [Nat.add_sub_cancel' hle] at this

theorem fillBody_short (fuel : Nat) (r : Reader Byte Err) (dst : Bytes) (want : Nat) (hf : want ≤ fuel)
    (h : r.unread.length < want) :
    ∃ r', fillBody fuel r dst want = (dst ++ r.unread, some r.src.last, r') ∧ Leaves r [] r' := by
  induction fuel generalizing r dst want with
  | zero => omega
  | succ fuel ih =>
    by_cases hu : r.unread = []
    · obtain ⟨r', hr, hl⟩ := read_ended hu (by omega : 0 < want)
      exact ⟨r', by simp [fillBody, hr, hu], hl⟩
    obtain ⟨bs, r₁, hr, hne, hle, happ, hd⟩ := read_some hu (by omega : 0 < want)
    have hlen := length_pos_iff.mpr hne
    have hempty : bs.isEmpty = false := by simpa using hne
    have hlt : bs.length < want := by
      have := hd.le
      omega
    obtain ⟨r', hr', hl'⟩ := ih r₁ (dst ++ bs) (want - bs.length) (by omega)
      (by rw [hd.unread, length_drop]; omega)
    refine ⟨r', ?_, hd.toLeaves.trans hl'⟩
    rw [fillBody, hr]
    simp only [hempty, Bool.false_eq_true, if_false, Nat.ne_of_lt hlt]
    rw [hr', append_assoc, ← happ, hd.last]

theorem appendBodyFixedSize_enough (r : Reader Byte Err) (dst : Bytes) {n : Nat} (h : n ≤ r.unread.length) :
    ∃ r', appendBodyFixedSize r dst n = (dst ++ r.unread.take n, none, r') ∧ Drops r n r' := by
  unfold appendBodyFixedSize
  rcases Nat.eq_zero_or_pos n with rfl | hpos
  · exact ⟨r, by simp, .refl r⟩
  · rw [if_neg (by omega)]
    exact fillBody_enough n r dst n hpos (Nat.le_refl n) h

theorem appendBodyFixedSize_short (r : Reader Byte Err) (dst : Bytes) {n : Nat} (h : r.unread.length < n) :
    ∃ r', appendBodyFixedSize r dst n = (dst ++ r.unread, some r.src.last, r') ∧ Leaves r [] r' := by
  unfold appendBodyFixedSize
  rw [if_neg (by omega)]
  exact fillBody_short n r dst n (Nat.le_refl n) h

theorem chunks_done_data {left : Nat} {t : Bytes} (hpos : 0 < left) (h : (chunks left t).stop = .done) :
    left + 2 ≤ t.length ∧ (t.take (left + 2)) = t.take left ++ strCRLF ∧
      chunks left t = (chunks 0 (t.drop (left + 2))).behind (t.take left) (left + 2) := by
  rcases Nat.lt_or_ge t.length left with hlt | hge
  · simp [chunks_short hlt] at h
  have hfull := chunks_full hpos hge
  rcases hc : crLf (t.drop left) with _ | _ | ⟨e, n⟩ <;> rw [hc] at hfull
  · obtain ⟨u, hu⟩ := crLf_ok hc
    have hlen := congrArg List.length hu
    refine ⟨by simp at hlen; omega, ?_, hfull⟩
    rw [take_add, hu]
    rfl
  · simp [hfull] at h
  · simp [hfull] at h

theorem readChunks_done (fuel : Nat) (r : Reader Byte Err) (maxBodySize : Int) (dst : Bytes)
    (hf : r.unread.length < fuel) (hstop : (chunks 0 r.unread).stop = .done)
    (hmax : maxBodySize ≤ 0 ∨ dst.length + (chunks 0 r.unread).body.length ≤ maxBodySize) :
    ∃ r', readChunks fuel r maxBodySize dst = (dst ++ (chunks 0 r.unread).body, none, r') ∧
      Drops r (chunks 0 r.unread).len r' := by
  induction fuel generalizing r dst with
  | zero => omega
  | succ fuel ih =>
    have hsize := parseChunkSize_spec r
    rcases hs : sizeLine r.unread with ⟨m, n⟩ | _ | ⟨e, n⟩ <;> simp only [hs] at hsize
    swap
    · simp [chunks_cut hs] at hstop
    swap
    · simp [chunks_broken hs] at hstop
    obtain ⟨r₁, hp, ht⟩ := hsize
    rcases Nat.eq_zero_or_pos m with rfl | hm
    · rw [chunks_zero hs]
      exact ⟨r₁, by simp [readChunks, hp], ht⟩
    have hw := chunks_size hs hm
    rw [← ht.unread] at hw
    have hstop₁ : (chunks m r₁.unread).stop = .done := by rw [hw] at hstop; exact hstop
    obtain ⟨hlen, htake, hw₁⟩ := chunks_done_data hm hstop₁
    obtain ⟨r₂, happ, hd₂⟩ := appendBodyFixedSize_enough r₁ dst hlen
    have hboth : Drops r (n + (m + 2)) r₂ := ht.trans hd₂
    have hbody : (chunks 0 r.unread).body = r₁.unread.take m ++ (chunks 0 r₂.unread).body := by
      rw [hw, hw₁, hd₂.unread]
      rfl
    have hmlen : (r₁.unread.take m).length = m := by
      rw [length_take]
      omega
    have hlimit : (0 < maxBodySize && maxBodySize < dst.length + m) = false := by
      rw [hbody, length_append] at hmax
      rcases hmax with hmax | hmax
      · simp only [Bool.and_eq_false_imp, decide_eq_true_eq]
        omega
      · simp only [Bool.and_eq_false_imp, decide_eq_false_iff_not]
        omega
    obtain ⟨r', hr', hd'⟩ := ih r₂ (dst ++ r₁.unread.take m)
      (by
        have := hboth.le
        rw [hboth.unread, length_drop]
        omega)
      (by rw [hw, hw₁, ← hd₂.unread] at hstop; exact hstop)
      (by
        rw [hbody] at hmax
        simp only [length_append] at hmax ⊢
        omega)
    have hlenw : (chunks 0 r.unread).len = n + (m + 2) + (chunks 0 r₂.unread).len := by
      rw [hw, hw₁, hd₂.unread]
      simp only [Walk.behind]
      omega
    rw [hlenw]
    refine ⟨r', ?_, hboth.trans hd'⟩
    have hcast : ((m : Int) + (strCRLF.length : Nat)) = ((m + 2 : Nat) : Int) := by
      simp [strCRLF]
    rw [readChunks, hp]
    simp only [Nat.ne_of_gt hm, if_false, hlimit, Bool.false_eq_true]
    rw [hcast, happ]
    simp only
    rw [htake, ← append_assoc, length_append, Nat.add_sub_cancel, take_left' rfl,
      if_neg (by simp), hr', hbody, append_assoc]

theorem readBodyChunked_done (r : Reader Byte Err) (maxBodySize : Int) (hstop : (chunks 0 r.unread).stop = .done)
    (hmax : maxBodySize ≤ 0 ∨ (chunks 0 r.unread).body.length ≤ maxBodySize) :
    ∃ r', readBodyChunked r maxBodySize = ((chunks 0 r.unread).body, none, r') ∧
      Drops r (chunks 0 r.unread).len r' :=
  readChunks_done _ r maxBodySize [] (by omega) hstop (by simpa using hmax)

end Fasthttp
