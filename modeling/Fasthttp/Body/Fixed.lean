import Fasthttp.Body.Stream

/-!
# One read of a stream of fixed length

Such a stream delivers the prefetched bytes and then those of the reader, up to the content length.
-/

namespace Fasthttp

open Bufio Reader List

namespace RequestStream

variable {b out : Bytes} {r r₀ : Reader Byte Err} {rs : RequestStream}

structure FixedInv (b : Bytes) (r₀ : Reader Byte Err) (out : Bytes) (rs : RequestStream) (r : Reader Byte Err) : Prop where
  total : rs.totalBytesRead = out.length
  bytes : rs.prefetchedBytes = ⟨b, min out.length b.length⟩
  front : (b ++ r₀.unread).take out.length = out
  le : (out.length : Int) ≤ rs.header.contentLength
  leaves : Leaves r₀ (r₀.unread.drop (out.length - b.length)) r

theorem fixedInv_new (b : Bytes) (h : StreamHeader) (r : Reader Byte Err) (hpos : 0 ≤ h.contentLength) :
    FixedInv b r [] (.new b h) r :=
  ⟨rfl, by simp [new, BytesReader.new], by simp, by simpa [new] using hpos, ⟨rfl, rfl, by simp⟩⟩

inductive FixedRead (b : Bytes) (r₀ : Reader Byte Err) (out : Bytes) (rs : RequestStream) (r : Reader Byte Err) (k : Nat) :
    Bytes × Option Err × RequestStream × Reader Byte Err → Prop
  | done : out.length = rs.header.contentLength → FixedRead b r₀ out rs r k ([], some .eof, rs, r)
  | data (bs : Bytes) (rs' : RequestStream) (r' : Reader Byte Err) : (0 < k → bs ≠ []) → rs'.header = rs.header →
      FixedInv b r₀ (out ++ bs) rs' r' → FixedRead b r₀ out rs r k (bs, none, rs', r')
  | cut (rs' : RequestStream) (r' : Reader Byte Err) : out = b ++ r₀.unread → out.length < rs.header.contentLength →
      rs'.header = rs.header → FixedInv b r₀ out rs' r' → FixedRead b r₀ out rs r k ([], some r₀.src.last, rs', r')

theorem FixedInv.prefetched (hI : FixedInv b r₀ out rs r)
    (hb : b.length ≤ rs.header.contentLength) (hlt : out.length < b.length) (k : Nat) :
    FixedRead b r₀ out rs r k (rs.readFixed r k) := by
  generalize hbs : (b.drop out.length).take (min k (b.length - out.length)) = bs
  have hlen : bs.length = min k (b.length - out.length) := by
    rw [← hbs, length_take, length_drop]
    omega
  have hread : rs.readFixed r k = (bs, none,
      { rs with prefetchedBytes := ⟨b, out.length + bs.length⟩, totalBytesRead := out.length + bs.length }, r) := by
    have hmin : min out.length b.length = out.length := by omega
    have hm : (if b.length - out.length < k then b.length - out.length else k) = min k (b.length - out.length) := by
      split <;> omega
    unfold readFixed
    rw [hI.total, hI.bytes, hmin, if_neg (by omega), if_pos hlt]
    simp only [hm, BytesReader.read]
    rw [if_neg (by omega), hbs]
  rw [hread]
  refine .data bs _ r (fun hk => length_pos_iff.mp (by omega)) rfl ⟨by simp, ?_, ?_, ?_, ?_⟩
  · simp only [length_append]
    rw [Nat.min_eq_left (by omega)]
  · have hfront := hI.front
    rw [take_append_of_le_length (by omega)] at hfront
    rw [take_append_of_le_length (by simp only [length_append]; omega), length_append, take_add,
      hfront, hlen, ← hbs]
  · simp only [length_append]
    omega
  · have h0 : (out ++ bs).length - b.length = 0 := by simp only [length_append]; omega
    have h1 : out.length - b.length = 0 := by omega
    rw [h0]
    exact h1 ▸ hI.leaves

theorem FixedInv.conn (hI : FixedInv b r₀ out rs r)
    (hge : b.length ≤ out.length) (hlt : out.length < rs.header.contentLength) (k : Nat) :
    FixedRead b r₀ out rs r k (rs.readFixed r k) := by
  have hl := hI.leaves
  generalize hm : min k (rs.header.contentLength - out.length).toNat = m
  have hread : rs.readFixed r k = ((r.read m).1, (r.read m).2.1,
      { rs with totalBytesRead := out.length + (r.read m).1.length }, (r.read m).2.2) := by
    have hmin : (if rs.header.contentLength - out.length < (k : Int) then
        (rs.header.contentLength - out.length).toNat else k) = m := by
      split <;> omega
    unfold readFixed
    rw [hI.total, hI.bytes, if_neg (by omega), if_neg (by simp only; omega)]
    simp only [hmin]
    rw [if_neg (by omega)]
  have hall : r.unread = [] → out = b ++ r₀.unread := by
    intro hu
    have hdrop := hl.unread.symm.trans hu
    rw [drop_eq_nil_iff] at hdrop
    have := hI.front
    rw [take_of_length_le (by simp only [length_append]; omega)] at this
    exact this.symm
  have hkeep : ∀ r', Leaves r r.unread r' → FixedInv b r₀ out { rs with totalBytesRead := out.length } r' :=
    fun r' hl' => ⟨rfl, hI.bytes, hI.front, hI.le, ⟨hl'.size.trans hl.size, hl'.last.trans hl.last, by rw [hl'.unread, hl.unread]⟩⟩
  rw [hread]
  rcases Nat.eq_zero_or_pos m with hm0 | hmpos
  · have hk : k = 0 := by omega
    subst hk
    obtain ⟨e, r', hr, hl', he⟩ := r.read_zero
    rw [hm0, hr]
    rcases he with rfl | ⟨rfl, hu⟩
    · exact .data [] _ r' (by simp) rfl (by simpa using hkeep r' hl')
    · rw [hl.last]
      exact .cut _ r' (hall hu) hlt rfl (hkeep r' hl')
  by_cases hu : r.unread = []
  · obtain ⟨r', hr, hl'⟩ := read_ended hu hmpos
    rw [hr, hl.last]
    exact .cut _ r' (hall hu) hlt rfl (hkeep r' (hu ▸ hl'))
  · obtain ⟨bs, r', hr, hne, hle, happ, ht⟩ := read_some hu hmpos
    have hbs : r.unread.take bs.length = bs := by rw [happ, take_left' rfl]
    rw [hr]
    refine .data bs _ r' (fun _ => hne) rfl ⟨by simp, ?_, ?_, ?_, ?_, ?_, ?_⟩
    · simp only [hI.bytes, length_append]
      congr 1
      omega
    · have hfront := hI.front
      rw [length_append, take_add, hfront, drop_append, drop_of_length_le hge, nil_append,
        ← hl.unread, hbs]
    · simp only [length_append]
      omega
    · exact ht.size.trans hl.size
    · exact ht.last.trans hl.last
    · rw [ht.unread, hl.unread, drop_drop, length_append]
      congr 1
      omega

theorem readFixed_spec (hb : b.length ≤ rs.header.contentLength) (hI : FixedInv b r₀ out rs r) (k : Nat) :
    FixedRead b r₀ out rs r k (rs.readFixed r k) := by
  by_cases hdone : (out.length : Int) = rs.header.contentLength
  · have hread : rs.readFixed r k = ([], some .eof, rs, r) := by
      unfold readFixed
      rw [hI.total, if_pos hdone]
    rw [hread]
    exact .done hdone
  · have hle := hI.le
    rcases Nat.lt_or_ge out.length b.length with hlt | hge
    · exact hI.prefetched hb hlt k
    · exact hI.conn hge (by omega) k

end RequestStream

end Fasthttp
