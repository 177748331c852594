import Fasthttp.Lib.Bufio

/-!
# What a buffered reader delivers

Reading takes items from the front of what is unread, however they were buffered.
-/

namespace Bufio

open List

variable {α ε : Type}

namespace Reader

variable {k n : Nat}

variable (r : Reader α ε)

structure Leaves (r : Reader α ε) (t : List α) (r' : Reader α ε) : Prop where
  size : r'.size = r.size
  last : r'.src.last = r.src.last
  unread : r'.unread = t

structure Drops (r : Reader α ε) (n : Nat) (r' : Reader α ε) : Prop extends Leaves r (r.unread.drop n) r' where
  le : n ≤ r.unread.length

variable {r₁ r₂ : Reader α ε}

theorem Leaves.trans {r : Reader α ε} {t t' : List α} (h : Leaves r t r₁) (h' : Leaves r₁ t' r₂) : Leaves r t' r₂ :=
  ⟨h'.size.trans h.size, h'.last.trans h.last, h'.unread⟩

theorem Drops.refl : Drops r 0 r := ⟨⟨rfl, rfl, by simp⟩, by simp⟩

theorem Drops.trans {r : Reader α ε} {n' : Nat} (h : Drops r n r₁) (h' : Drops r₁ n' r₂) : Drops r (n + n') r₂ := by
  have hle := h'.le
  rw [h.unread, length_drop] at hle
  have := h.le
  refine ⟨⟨h'.size.trans h.size, h'.last.trans h.last, ?_⟩, by omega⟩
  rw [h'.unread, h.unread, drop_drop]

theorem discard_zero : r.discard 0 = r := by
  ext1 <;> simp

/-! ## One item after the other -/

variable {r}

theorem readByte_buffered {a : α} {b : List α} (h : r.buf = a :: b) :
    r.readByte = (.ok a, r.discard 1) := by
  unfold readByte
  split
  · rename_i a' b' h'
    rw [h] at h'
    obtain ⟨rfl, rfl⟩ := h'
    congr 1
    ext1 <;> simp [h]
  · rename_i h'
    simp [h] at h'

theorem unreadByte_discard {a : α} {b : List α} (h : r.buf = a :: b) :
    (r.discard 1).unreadByte a = r := by
  have hfits := r.fits
  rw [h, length_cons] at hfits
  unfold unreadByte
  rw [dif_pos (by simp only [discard_buf, discard_size, h, drop_succ_cons, drop_zero]; omega)]
  ext1 <;> simp [h]

def warm (r : Reader α ε) : Reader α ε := if r.buf.isEmpty then r.fetch else r

theorem warm_leaves : Leaves r r.unread r.warm := by
  unfold warm
  split
  · exact ⟨rfl, rfl, r.fetch_unread⟩
  · exact ⟨rfl, rfl, rfl⟩

theorem pieces_ne_nil (hb : r.buf = []) (h : r.unread ≠ []) : r.src.pieces ≠ [] := by
  intro hp
  simp [unread, hb, (Source.items_eq_nil _).mpr hp] at h

theorem warm_buf (h : r.unread ≠ []) : r.warm.buf ≠ [] := by
  unfold warm
  split
  · rename_i hb
    have hb : r.buf = [] := by simpa using hb
    have hgrow := r.fetch_buf_length (by simpa [hb] using r.pos) (pieces_ne_nil hb h)
    exact length_pos_iff.mp (by omega)
  · rename_i hb
    simpa using hb

theorem warm_of_buf (h : r.buf ≠ []) : r.warm = r := if_neg (by simpa using h)

theorem readByte_warm {a : α} {t : List α} (h : r.unread = a :: t) :
    ∃ b, r.warm.buf = a :: b ∧ r.readByte = (.ok a, r.warm.discard 1) := by
  have hne : r.unread ≠ [] := by simp [h]
  have hhead : ∀ a' b, r.warm.buf = a' :: b → a' = a := fun a' b hb => by
    have hu := r.warm_leaves.unread
    rw [unread, hb, h] at hu
    exact (cons.inj hu).1
  obtain ⟨a', b, hb⟩ := exists_cons_of_ne_nil (warm_buf hne)
  obtain rfl := hhead a' b hb
  refine ⟨b, hb, ?_⟩
  by_cases hbuf : r.buf = []
  · have hw : r.warm = r.fetch := if_pos (by simp [hbuf])
    have hchunk : r.src.chunk r.size = a' :: b := by
      rw [hw] at hb
      simpa [fetch, hbuf] using hb
    unfold readByte
    split
    · rename_i h'
      simp [hbuf] at h'
    · rw [r.err_eq_none (pieces_ne_nil hbuf hne)]
      simp only
      split
      · rename_i h'
        simp [hchunk] at h'
      · rename_i c d h'
        rw [hchunk] at h'
        obtain ⟨rfl, rfl⟩ := h'
        congr 1
        rw [hw]
        ext1 <;> simp [fetch, hbuf, hchunk]
  · rw [warm_of_buf hbuf] at hb ⊢
    exact readByte_buffered hb

theorem readByte_ended (h : r.unread = []) :
    ∃ r', r.readByte = (.error r.src.last, r') ∧ Leaves r [] r' := by
  obtain ⟨hb, hi⟩ := append_eq_nil_iff.mp h
  have hp := (Source.items_eq_nil _).mp hi
  have hc : r.src.chunk r.size = [] := by simp [Source.chunk, hp, cut]
  unfold readByte
  split
  · rename_i h'
    simp [hb] at h'
  · rcases he : r.err with _ | e
    · simp only
      split
      · exact ⟨r, rfl, rfl, rfl, h⟩
      · rename_i h'
        simp [hc] at h'
    · rw [(r.ended e he).2]
      exact ⟨r.clear, rfl, rfl, rfl, h⟩

theorem readByte_next {a : α} {t : List α} (h : r.unread = a :: t) :
    ∃ r', r.readByte = (.ok a, r') ∧ Drops r 1 r' ∧ Drops r 0 (r'.unreadByte a) := by
  obtain ⟨b, hb, hread⟩ := readByte_warm h
  have hl := r.warm_leaves
  refine ⟨_, hread, ⟨⟨hl.size, hl.last, ?_⟩, by simp [h]⟩, ?_⟩
  · rw [discard_unread _ (by simp [hb]), hl.unread]
  · rw [unreadByte_discard hb]
    exact ⟨{ hl with }, by simp⟩

theorem read_ended (h : r.unread = []) (hk : 0 < k) :
    ∃ r', r.read k = ([], some r.src.last, r') ∧ Leaves r [] r' := by
  obtain ⟨hb, hi⟩ := append_eq_nil_iff.mp h
  have hp := (Source.items_eq_nil _).mp hi
  have hchunk : ∀ n, r.src.chunk n = [] := fun n => by simp [Source.chunk, hp, cut]
  have hrest : ∀ n, (r.src.rest n).items = [] := fun n => by simp [Source.rest, Source.items, hp, cut]
  unfold read
  rw [if_neg (by omega), if_pos (by simp [hb])]
  rcases he : r.err with _ | e
  · have hfault : r.src.fault = some r.src.last := by simp [Source.fault, hp]
    simp only [hfault, hchunk, take_nil]
    split
    · exact ⟨_, rfl, rfl, rfl, by simp [unread, hb, hrest]⟩
    · exact ⟨_, rfl, rfl, rfl, by simp [unread, hrest]⟩
  · rw [(r.ended e he).2]
    exact ⟨_, rfl, rfl, rfl, h⟩

theorem read_warm (h : r.unread ≠ []) (hk : 0 < k) (hb : r.buf = [] → k < r.size) :
    r.read k = (r.warm.buf.take k, none, r.warm.discard k) := by
  unfold read
  rw [if_neg (by omega)]
  by_cases hbuf : r.buf = []
  · have hp := pieces_ne_nil hbuf h
    have hfault : r.src.fault = none := by simp [Source.fault, hp]
    have hw : r.warm = r.fetch := if_pos (by simp [hbuf])
    have hlt := hb hbuf
    rw [if_pos (by simp [hbuf])]
    simp only [r.err_eq_none hp, hfault, hw]
    rw [if_neg (by omega)]
    refine Prod.ext ?_ (Prod.ext rfl ?_)
    · simp [fetch, hbuf]
    · ext1 <;> simp [fetch, hbuf]
  · rw [if_neg (by simpa using hbuf), warm_of_buf hbuf]

theorem read_direct (h : r.unread ≠ []) (hb : r.buf = []) (hk : r.size ≤ k) :
    ∃ r', r.read k = (r.src.chunk k, none, r') ∧ r.src.chunk k ≠ [] ∧ Drops r (r.src.chunk k).length r' := by
  have hp := pieces_ne_nil hb h
  have hpos := r.pos
  have hfault : r.src.fault = none := by simp [Source.fault, hp]
  have hu : r.unread = r.src.chunk k ++ (r.buf ++ (r.src.rest k).items) := by
    rw [unread, hb, nil_append, nil_append, r.src.chunk_append_rest]
  unfold read
  rw [if_neg (by omega), if_pos (by simp [hb])]
  simp only [r.err_eq_none hp, hfault]
  rw [if_pos hk]
  refine ⟨_, rfl, cut_ne_nil (by omega) r.src.solid hp, ⟨rfl, rfl, ?_⟩, by simp [hu]⟩
  rw [hu, drop_left' rfl]
  rfl

theorem read_some (h : r.unread ≠ []) (hk : 0 < k) :
    ∃ bs r', r.read k = (bs, none, r') ∧ bs ≠ [] ∧ bs.length ≤ k ∧ r.unread = bs ++ r'.unread ∧
      Drops r bs.length r' := by
  by_cases hdirect : r.buf = [] ∧ r.size ≤ k
  · obtain ⟨r', hread, hne, hd⟩ := read_direct h hdirect.1 hdirect.2
    refine ⟨_, r', hread, hne, cut_length_le k _, ?_, hd⟩
    have hitems : r.unread = r.src.chunk k ++ (r.src.rest k).items := by
      rw [unread, hdirect.1, nil_append, r.src.chunk_append_rest]
    rw [hd.unread, hitems, drop_left' rfl]
  · have hw := r.warm_leaves
    have hpos := length_pos_iff.mpr (warm_buf h)
    have hlen : (r.warm.buf.take k).length = min k r.warm.buf.length := length_take
    have hu : r.unread = r.warm.buf.take k ++ (r.warm.discard k).unread := by
      rw [← hw.unread]
      simp [unread, ← append_assoc]
    have hd : Drops r (r.warm.buf.take k).length (r.warm.discard k) :=
      ⟨⟨hw.size, hw.last, by rw [hu, drop_left' rfl]⟩, by simp [hu]⟩
    exact ⟨_, _, read_warm h hk (fun hb => Nat.lt_of_not_le fun hle => hdirect ⟨hb, hle⟩),
      length_pos_iff.mp (by omega), by omega, hu, hd⟩

theorem read_zero :
    ∃ e r', r.read 0 = ([], e, r') ∧ Leaves r r.unread r' ∧ (e = none ∨ e = some r.src.last ∧ r.unread = []) := by
  unfold read
  rw [if_pos rfl]
  split
  · rename_i hb
    have hb : r.buf = [] := by simpa using hb
    refine ⟨_, _, rfl, ⟨rfl, rfl, rfl⟩, ?_⟩
    rcases he : r.err with _ | e
    · exact .inl rfl
    · obtain ⟨hp, rfl⟩ := r.ended e he
      exact .inr ⟨rfl, by simp [unread, hb, (Source.items_eq_nil _).mpr hp]⟩
  · exact ⟨_, _, rfl, ⟨rfl, rfl, rfl⟩, .inl rfl⟩

theorem Leaves.discard {r r' : Reader α ε} (h : Leaves r r.unread r') (hb : n ≤ r'.buf.length) :
    Drops r n (r'.discard n) := by
  have hle : n ≤ r.unread.length := by
    rw [← h.unread, Reader.unread, length_append]
    omega
  exact ⟨⟨h.size, h.last, by rw [r'.discard_unread hb, h.unread]⟩, hle⟩

theorem fillTo_leaves (n : Nat) : Leaves r r.unread (r.fillTo n) := by
  have h := gather_spec r.size n r.src.pieces r.buf r.src.solid r.fits
  unfold fillTo
  split
  · exact ⟨rfl, rfl, rfl⟩
  · exact ⟨rfl, rfl, h.same⟩

theorem fillTo_enough (n : Nat) :
    min n r.size ≤ (r.fillTo n).buf.length ∨ (r.fillTo n).src.pieces = [] ∧ (r.fillTo n).err = some r.src.last := by
  have h := gather_spec r.size n r.src.pieces r.buf r.src.solid r.fits
  unfold fillTo
  split
  · rename_i he
    obtain ⟨e, he⟩ := Option.isSome_iff_exists.mp he
    obtain ⟨hp, rfl⟩ := r.ended e he
    exact .inr ⟨hp, he⟩
  · rcases hg : (gather r.size n r.src.pieces r.buf).2.2 with _ | _
    · have := h.enough hg
      simp only
      omega
    · exact .inr ⟨(h.ended hg).1, by simp [hg]⟩

theorem peek_fillTo (hn : n ≤ r.unread.length) (hsize : n ≤ r.size) :
    r.peek n = (.all (r.unread.take n), r.fillTo n) ∧ n ≤ (r.fillTo n).buf.length := by
  have hl := r.fillTo_leaves n
  have hbuf : n ≤ (r.fillTo n).buf.length := by
    rcases r.fillTo_enough n with h | ⟨hp, -⟩
    · omega
    · have := hl.unread
      rw [unread, (Source.items_eq_nil _).mpr hp, append_nil] at this
      rw [this]
      exact hn
  refine ⟨?_, hbuf⟩
  have htake : (r.fillTo n).buf.take n = r.unread.take n := by
    rw [← hl.unread, unread, take_append_of_le_length hbuf]
  simp only [peek]
  rw [if_neg (by rw [hl.size]; omega), if_neg (by omega), htake]

theorem peek_there (hn : n ≤ r.unread.length) (hsize : n ≤ r.size) :
    ∃ r', r.peek n = (.all (r.unread.take n), r') ∧ Leaves r r.unread r' ∧ n ≤ r'.buf.length := by
  obtain ⟨hpeek, hbuf⟩ := peek_fillTo hn hsize
  exact ⟨r.fillTo n, hpeek, r.fillTo_leaves n, hbuf⟩

theorem peek_short (hn : r.unread.length < n) (hsize : n ≤ r.size) :
    ∃ r', r.peek n = (.short r.unread r.src.last, r') ∧ Leaves r r.unread r' := by
  have hl := r.fillTo_leaves n
  have hle : (r.fillTo n).buf.length ≤ r.unread.length := by
    rw [← hl.unread, unread, length_append]
    omega
  rcases r.fillTo_enough n with h | ⟨hp, he⟩
  · omega
  · have hall : (r.fillTo n).buf = r.unread := by
      have := hl.unread
      rwa [unread, (Source.items_eq_nil _).mpr hp, append_nil] at this
    refine ⟨(r.fillTo n).clear, ?_, hl.size, hl.last, hl.unread⟩
    simp only [peek, he]
    rw [if_neg (by rw [hl.size]; omega), if_pos (by omega), hall]

end Reader

end Bufio
