import Fasthttp.Body.Wire
import Fasthttp.Body.Stream

/-!
# One read of a chunked stream

A read takes its bytes from the front of the walk that is still ahead of the stream, or it comes to the stop of that
walk.
-/

namespace Fasthttp

open Bufio Reader List

namespace RequestStream

def ahead (rs : RequestStream) (r : Reader Byte Err) : Walk := chunks rs.chunkLeft r.unread

def delivered (rs : RequestStream) (bs : Bytes) (left : Nat) : RequestStream :=
  { rs with totalBytesRead := rs.totalBytesRead + bs.length, chunkLeft := left }

inductive StopErr (last : Err) : Stop → Err → Prop
  | size : StopErr last .cutSize last
  | ends : StopErr last .cutEnd last
  | data : StopErr last .cutData (if last = .eof then .unexpectedReqBodyEOF else last)
  | broken (e : Err) : StopErr last (.broken e) e

inductive ChunkRead (rs : RequestStream) (r : Reader Byte Err) (k : Nat) :
    Bytes × Option Err × RequestStream × Reader Byte Err → Prop
  | data (bs : Bytes) (n left : Nat) (r' : Reader Byte Err) : (0 < k → bs ≠ []) → bs.length ≤ n →
      rs.ahead r = (chunks left r'.unread).behind bs n → Drops r n r' →
      ChunkRead rs r k (bs, none, rs.delivered bs left, r')
  | done (n : Nat) (r' : Reader Byte Err) : rs.ahead r = ⟨[], .done, n⟩ → Drops r n r' → (parseChunkSize r).2 = r' →
      ChunkRead rs r k ([], some ((rs.header.readTrailer r').1.getD .eof),
        { rs with header := (rs.header.readTrailer r').2.1 }, (rs.header.readTrailer r').2.2)
  | stop (bs : Bytes) (e : Err) (left : Nat) (r' : Reader Byte Err) : (rs.ahead r).body = bs →
      StopErr r.src.last (rs.ahead r).stop e → Leaves r (r.unread.drop (rs.ahead r).len) r' →
      (rs.ahead r).stop = .cutData ∨ left = 0 → ChunkRead rs r k (bs, some e, rs.delivered bs left, r')

theorem readData_spec (rs : RequestStream) (r : Reader Byte Err) (k : Nat) (hleft : 0 < rs.chunkLeft) :
    ChunkRead rs r k (rs.readData r k) := by
  have hahead : rs.ahead r = chunks rs.chunkLeft r.unread := rfl
  have hm : (if rs.chunkLeft < k then rs.chunkLeft else k) = min k rs.chunkLeft := by
    split <;> omega
  have hended : ∀ r', r.unread = [] → Leaves r [] r' → r.read (min k rs.chunkLeft) = ([], some r.src.last, r') →
      ChunkRead rs r k (rs.readData r k) := by
    intro r' hu hl hr
    have hread : rs.readData r k = ([], some (if r.src.last = .eof then .unexpectedReqBodyEOF else r.src.last),
        rs.delivered [] rs.chunkLeft, r') := by
      unfold readData
      rw [hm, hr]
      by_cases hlast : r.src.last = .eof <;> simp [delivered, hlast]
    have hstop : rs.ahead r = ⟨[], .cutData, 0⟩ := by rw [hahead, hu, chunks_short (by simpa using hleft)]; rfl
    rw [hread]
    refine .stop [] _ rs.chunkLeft r' (by rw [hstop]) (by rw [hstop]; exact .data) ?_ (.inl (by rw [hstop]))
    rw [hstop]
    exact ⟨hl.size, hl.last, by rw [hl.unread, hu]; rfl⟩
  rcases Nat.eq_zero_or_pos k with rfl | hk
  · -- an empty read
    obtain ⟨e, r', hr, hl, rfl | ⟨rfl, hu⟩⟩ := r.read_zero
    · have hread : rs.readData r 0 = ([], none, rs.delivered [] rs.chunkLeft, r') := by
        unfold readData
        rw [hm, Nat.zero_min, hr]
        simp [delivered, Nat.ne_of_gt hleft]
      rw [hread]
      refine .data [] 0 rs.chunkLeft r' (by simp) (by simp) ?_ ⟨{ hl with }, by simp⟩
      rw [hahead, hl.unread]
      simp [Walk.behind]
    · exact hended r' hu (hu ▸ hl) (by rw [Nat.zero_min, hr])
  by_cases hu : r.unread = []
  · obtain ⟨r', hr, hl⟩ := read_ended hu (by omega : 0 < min k rs.chunkLeft)
    exact hended r' hu hl hr
  obtain ⟨bs, r₁, hr, hne, hle, happ, hd⟩ := read_some hu (by omega : 0 < min k rs.chunkLeft)
  have hbs : r.unread.take bs.length = bs := by rw [happ, take_left' rfl]
  rcases Nat.lt_or_ge bs.length rs.chunkLeft with hlt | hge
  · -- the chunk goes on
    have hread : rs.readData r k = (bs, none, rs.delivered bs (rs.chunkLeft - bs.length), r₁) := by
      unfold readData
      rw [hm, hr]
      simp only [reduceCtorEq, if_false, Option.isNone_none, Bool.true_and, decide_eq_true_eq]
      rw [if_neg (by omega)]
      rfl
    rw [hread]
    refine .data bs bs.length _ r₁ (fun _ => hne) (by omega) ?_ hd
    rw [hahead, chunks_part hlt hd.le, hbs, hd.unread]
  have heq : bs.length = rs.chunkLeft := by omega
  have hread : rs.readData r k = (bs, (readCrLf r₁).1, rs.delivered bs 0, (readCrLf r₁).2) := by
    unfold readData
    rw [hm, hr]
    simp only [reduceCtorEq, if_false, Option.isNone_none, Bool.true_and, decide_eq_true_eq]
    rw [if_pos (by omega)]
    simp only [delivered]
    rw [Nat.sub_eq_zero_of_le hge]
  rw [hread]
  have hfull := chunks_full hleft (heq ▸ hd.le)
  rw [← heq, hbs, ← hd.unread, heq, ← hahead] at hfull
  have hcr := readCrLf_spec r₁
  rcases hc : crLf r₁.unread with _ | _ | ⟨e, n⟩ <;> simp only [hc] at hcr hfull
  · obtain ⟨r₂, hcr, ht₂⟩ := hcr
    have hboth : Drops r (bs.length + 2) r₂ := hd.trans ht₂
    rw [hcr]
    refine .data bs (bs.length + 2) 0 r₂ (fun _ => hne) (by omega) ?_ hboth
    rw [hfull, hboth.unread, heq]
  · obtain ⟨r₂, hcr, hl₂⟩ := hcr
    rw [hcr, hd.last]
    refine .stop bs _ 0 r₂ (by rw [hfull]) (by rw [hfull]; exact .ends) ?_ (.inr rfl)
    rw [hfull]
    have := hd.toLeaves.trans hl₂
    exact ⟨this.size, this.last, by rw [this.unread, drop_length]⟩
  · obtain ⟨r₂, hcr, ht₂⟩ := hcr
    have hboth : Drops r (bs.length + n) r₂ := hd.trans ht₂
    rw [hcr]
    refine .stop bs _ 0 r₂ (by rw [hfull]) (by rw [hfull]; exact .broken e) ?_ (.inr rfl)
    rw [hfull, ← heq]
    exact hboth.toLeaves

theorem Walk.behind_behind (w : Walk) (bs bs' : Bytes) (n n' : Nat) :
    (w.behind bs n).behind bs' n' = w.behind (bs' ++ bs) (n' + n) := by
  simp [Walk.behind, Nat.add_assoc]

theorem chunks_ne_done {left : Nat} (h : 0 < left) (t : Bytes) (n : Nat) : chunks left t ≠ ⟨[], .done, n⟩ := by
  intro hd
  rcases Nat.lt_or_ge t.length left with hlt | hge
  · simp [chunks_short hlt] at hd
  · have hbody := congrArg Walk.body hd
    have hpos : t.take left ≠ [] := by
      rw [← length_pos_iff, length_take]
      omega
    rw [chunks_full h hge] at hbody
    rcases hc : crLf (t.drop left) with _ | _ | ⟨e, m⟩ <;> simp [Walk.behind] at hbody <;> simp_all

theorem ChunkRead.behind {rs : RequestStream} {r r₁ : Reader Byte Err} {k m n : Nat}
    {out : Bytes × Option Err × RequestStream × Reader Byte Err} (hzero : rs.chunkLeft = 0)
    (hs : sizeLine r.unread = .size m n) (hm : 0 < m) (ht : Drops r n r₁)
    (h : ChunkRead { rs with chunkLeft := m } r₁ k out) : ChunkRead rs r k out := by
  have hahead : rs.ahead r = (ahead { rs with chunkLeft := m } r₁).behind [] n := by
    simp [ahead, hzero, chunks_size hs hm, ht.unread]
  cases h with
  | data bs n' left r' hne hbs hw hd =>
    refine .data bs (n + n') left r' hne (by omega) ?_ (ht.trans hd)
    rw [hahead, hw, Walk.behind_behind]
    rfl
  | done n' r' hw ht' =>
    -- a stop behind the chunk is not the end of a read that starts in it
    exact absurd hw (chunks_ne_done hm _ _)
  | stop bs e left r' hb he hl hleft =>
    have hl' := ht.toLeaves.trans hl
    rw [ht.unread, drop_drop] at hl'
    rw [ht.last] at he
    exact .stop bs e left r' (by rw [hahead]; exact hb) (by rw [hahead]; exact he) (by rw [hahead]; exact hl')
      (by rw [hahead]; exact hleft)

theorem readChunked_spec (rs : RequestStream) (r : Reader Byte Err) (k : Nat) :
    ChunkRead rs r k (rs.readChunked r k) := by
  rcases Nat.eq_zero_or_pos rs.chunkLeft with hzero | hpos
  swap
  · unfold readChunked
    rw [if_neg (by omega)]
    exact rs.readData_spec r k hpos
  have hahead : rs.ahead r = chunks 0 r.unread := by rw [ahead, hzero]
  have hself : ∀ left, left = 0 → rs.delivered [] left = rs := by
    cases rs
    simp_all [delivered]
  have hsize := parseChunkSize_spec r
  unfold readChunked
  rw [if_pos hzero]
  rcases hs : sizeLine r.unread with ⟨m, n⟩ | _ | ⟨e, n⟩ <;> simp only [hs] at hsize
  · obtain ⟨r₁, hp, ht⟩ := hsize
    rw [hp]
    simp only
    split
    · rename_i hm
      subst hm
      exact .done n r₁ (by rw [hahead, chunks_zero hs]) ht (by rw [hp])
    · exact (readData_spec { rs with chunkLeft := m } r₁ k (by simp only; omega)).behind hzero hs (by omega) ht
  · obtain ⟨r₁, hp, hl⟩ := hsize
    have hstop := hahead.trans (chunks_cut hs)
    rw [hp]
    have := ChunkRead.stop (k := k) [] r.src.last 0 r₁ (by rw [hstop]) (by rw [hstop]; exact .size)
      (by rw [hstop]; exact ⟨hl.size, hl.last, by rw [hl.unread, drop_length]⟩) (.inr rfl)
    rwa [hself 0 rfl] at this
  · obtain ⟨r₁, hp, ht⟩ := hsize
    have hstop := hahead.trans (chunks_broken hs)
    rw [hp]
    have := ChunkRead.stop (k := k) [] e 0 r₁ (by rw [hstop]) (by rw [hstop]; exact .broken e)
      (by rw [hstop]; exact ht.toLeaves) (.inr rfl)
    rwa [hself 0 rfl] at this

end RequestStream

end Fasthttp
