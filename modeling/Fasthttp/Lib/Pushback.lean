import Fasthttp.Lib.Retry

/-!
# An item that is read ahead

The first item of a source is taken alone and then delivered again in front of the next piece.
-/

namespace Bufio

variable {α ε : Type}

namespace Source

theorem push_rest {s : Source α ε} {a : α} {l : List α} (h : s.chunk 1 = a :: l) :
    (s.rest 1).push a = s ∨ ∃ p ps, s.pieces = [a] :: p :: ps ∧ ((s.rest 1).push a).pieces = (a :: p) :: ps := by
  rcases hps : s.pieces with _ | ⟨c, cs⟩
  · simp [chunk, hps, cut] at h
  · rcases c with _ | ⟨b, c⟩
    · exact absurd rfl (s.solid [] (by simp [hps]))
    rcases c with _ | ⟨b', c⟩
    · obtain rfl : b = a := by
        simp only [chunk, hps, cut, List.length_singleton, Nat.le_refl, if_true, List.cons.injEq] at h
        exact h.1
      rcases cs with _ | ⟨p, ps⟩
      · exact .inl (Source.ext (by simp [push, rest, hps, cut]) rfl)
      · exact .inr ⟨p, ps, rfl, by simp [push, rest, hps, cut]⟩
    · obtain rfl : b = a := by
        simp only [chunk, hps] at h
        simpa using (List.cons.inj h).1
      exact .inl (Source.ext (by simp [push, rest, hps, cut]) rfl)

theorem chunk_push (s : Source α ε) (a : α) : (s.push a).chunk 1 = [a] ∧ ((s.push a).rest 1).push a = s.push a := by
  rcases hps : s.pieces with _ | ⟨p, ps⟩
  · exact ⟨by simp [chunk, push, hps, cut], Source.ext (by simp [push, rest, hps, cut]) rfl⟩
  · have hne : p ≠ [] := s.solid p (by simp [hps])
    exact ⟨by simp [chunk, push, hps, cut, hne], Source.ext (by simp [push, rest, hps, cut, hne]) rfl⟩

end Source

namespace Reader

theorem peek_size (r : Reader α ε) (n : Nat) : (r.peek n).2.size = r.size := by
  have hsize : (r.fillTo n).size = r.size := by
    unfold fillTo
    split_ifs <;> rfl
  unfold peek
  dsimp only
  split_ifs
  · exact hsize
  · split <;> exact hsize
  · exact hsize

theorem read_size (r : Reader α ε) (k : Nat) : (r.read k).2.2.size = r.size := by
  unfold read
  split_ifs
  · rfl
  · rfl
  · split <;> rfl
  · split <;> rfl
  · rfl

theorem peek_fetch {r : Reader α ε} {n : Nat} (hn : r.buf.length < n) (hroom : r.buf.length < r.size) (hp : r.src.pieces ≠ []) :
    r.fetch.peek n = r.peek n := by
  have hfill : r.fetch.fillTo n = r.fillTo n := by
    rcases hps : r.src.pieces with _ | ⟨c, cs⟩
    · exact absurd hps hp
    have herr := r.err_eq_none hp
    have hg : gather r.size n r.fetch.src.pieces r.fetch.buf = gather r.size n r.src.pieces r.buf := by
      by_cases hle : c.length ≤ r.size - r.buf.length
      · have hle' : r.buf.length + c.length ≤ r.size := by omega
        simp [fetch, Source.chunk, Source.rest, hps, cut, hle, gather, hn, hroom, hle']
      · have hle' : ¬ r.buf.length + c.length ≤ r.size := by omega
        have hfull : ¬ ((r.buf ++ c.take (r.size - r.buf.length)).length < n ∧
            (r.buf ++ c.take (r.size - r.buf.length)).length < r.size) := by
          rw [List.length_append, List.length_take]
          omega
        simp only [fetch, Source.chunk, Source.rest, hps, cut, hle, if_false]
        rw [gather_idle _ hfull]
        simp [gather, hn, hroom, hle']
    unfold fillTo
    rw [if_neg (by simp), if_neg (by simp [herr])]
    ext1 <;> simp only [fetch_size, hg, fetch_last]
  unfold peek
  rw [hfill]

theorem fetch_joined {r r' : Reader α ε} {a : α} {p : List α} {ps : List (List α)} (hsize : r'.size = r.size)
    (hlast : r'.src.last = r.src.last)
    (hbuf : r.buf = [a]) (hps : r.src.pieces = p :: ps) (hbuf' : r'.buf = []) (hps' : r'.src.pieces = (a :: p) :: ps) :
    r'.fetch = r.fetch := by
  have hleast := r.least
  by_cases hle : p.length ≤ r.size - 1
  · have hle' : (a :: p).length ≤ r.size := by
      rw [List.length_cons]
      omega
    ext1
    · exact hsize
    · simp [fetch, Source.chunk, hbuf, hps, hbuf', hps', cut, hsize, hle, List.length_cons ▸ hle']
    · rfl
    · exact Source.ext (by simp [fetch, Source.rest, hbuf, hps, hbuf', hps', cut, hsize, hle, List.length_cons ▸ hle']) hlast
  · have hle' : ¬ p.length + 1 ≤ r.size := by omega
    obtain ⟨m, hm⟩ : ∃ m, r.size = m + 1 := ⟨r.size - 1, by omega⟩
    ext1
    · exact hsize
    · simp only [fetch, Source.chunk, hbuf, hps, hbuf', hps', cut, hsize, hm] at hle hle' ⊢
      rw [if_neg (by omega), if_neg (by omega)]
      simp
    · rfl
    · refine Source.ext ?_ hlast
      simp only [fetch, Source.rest, hbuf, hps, hbuf', hps', cut, hsize, hm] at hle hle' ⊢
      rw [if_neg (by omega), if_neg (by omega)]
      simp

end Reader

end Bufio

namespace Retry.Loop

open Bufio

variable {σ α ε : Type} [DecidableEq ε] {L : Loop σ α ε}

theorem run_fuel (hL : L.InPlace) (fuel fuel' n : Nat) (s : σ) {r r' : Reader α ε} {b : List α} (hp : r.peek n = (.all b, r'))
    (hf : r'.size + 1 < r'.buf.length + fuel) (hf' : r'.size + 1 < r'.buf.length + fuel') : L.run fuel n s r = L.run fuel' n s r := by
  induction fuel generalizing fuel' n s r r' b with
  | zero =>
    have hfits := r'.fits
    omega
  | succ fuel ih =>
    have hfits := r'.fits
    obtain ⟨fuel', rfl⟩ : ∃ m, fuel' = m + 1 := ⟨fuel' - 1, by omega⟩
    rw [run_of_peek hp, run_of_peek hp]
    rcases hparse : L.parse s r'.buf with ⟨s', mem, e | k⟩
    · by_cases he : e = L.more
      swap
      · simp [he]
      simp only [he]
      have hlen : mem.length = r'.buf.length := by simpa [hparse] using hL s r'.buf
      have hbuf : (r'.overwrite mem).buf.length = r'.buf.length := by rw [r'.overwrite_buf hlen, hlen]
      obtain ⟨fuel, rfl⟩ : ∃ m, fuel = m + 1 := ⟨fuel - 1, by omega⟩
      obtain ⟨fuel', rfl⟩ : ∃ m, fuel' = m + 1 := ⟨fuel' - 1, by omega⟩
      by_cases hfull : r'.size ≤ r'.buf.length
      · have hsucc := (r'.overwrite mem).peek_succ_full (by simpa [hbuf] using hfull)
        simp only [run, hsucc]
      have hroom : (r'.overwrite mem).buf.length < (r'.overwrite mem).size := by simpa [hbuf] using hfull
      by_cases hps : r'.src.pieces = []
      · have hsucc := (r'.overwrite mem).peek_succ_ended hroom hps
        simp [run, hsucc]
      · have hsucc := (r'.overwrite mem).peek_succ_more hroom hps
        have hgrow := (r'.overwrite mem).fetch_buf_length hroom hps
        refine ih (fuel' + 1) _ s' hsucc ?_ ?_
        · simp only [Reader.fetch_size, Reader.overwrite_size]
          omega
        · simp only [Reader.fetch_size, Reader.overwrite_size]
          omega
    · rfl

theorem run_size (fuel n : Nat) (s : σ) (r : Reader α ε) : (L.run fuel n s r).2.2.size = r.size := by
  induction fuel generalizing n s r with
  | zero => rfl
  | succ fuel ih =>
    have hsize := r.peek_size n
    unfold run
    rcases hp : r.peek n with ⟨b | ⟨b, e⟩ | b, r'⟩ <;> rw [hp] at hsize
    · rcases hparse : L.parse s r'.buf with ⟨s', mem, e | k⟩
      · by_cases he : e = L.more
        · simp only [he, if_true, hparse]
          rw [ih]
          exact hsize
        · simp only [he, hparse]
          exact hsize
      · simp only [hparse]
        exact hsize
    · exact hsize
    · exact hsize

theorem read_fetch {r : Reader α ε} (s : σ) (hbuf : r.buf = []) (hps : r.src.pieces ≠ []) : L.read s r.fetch = L.read s r := by
  have hroom : r.buf.length < r.size := by simpa [hbuf] using r.pos
  have hlt := r.fetch_buf_length hroom hps
  have hsucc := r.peek_succ_more hroom hps
  rw [hbuf, List.length_nil] at hsucc
  unfold read
  rw [run_of_peek hsucc, run_of_peek (r.fetch.peek_buffered (by omega : 1 ≤ r.fetch.buf.length))]
  rfl

theorem read_more (hL : L.InPlace) {r : Reader α ε} {s : σ} {a : α} (hbuf : r.buf = [a]) (hps : r.src.pieces ≠ [])
    (hmore : L.parse s [a] = (s, [a], .error L.more)) : L.read s r = L.read s r.fetch := by
  have hleast := r.least
  have hroom : r.buf.length < r.size := by
    rw [hbuf, List.length_singleton]
    omega
  have hlt := r.fetch_buf_length hroom hps
  have hsucc := r.peek_succ_more hroom hps
  have hself : r.overwrite [a] = r := hbuf ▸ r.overwrite_self
  have hfirst : L.read s r = L.run (r.size + 1) (r.buf.length + 1) s r := by
    unfold read
    rw [run_of_peek (r.peek_buffered (by simp [hbuf] : 1 ≤ r.buf.length)), hbuf, hmore]
    simp [hself, hbuf]
  have hpeek : r.fetch.peek 1 = (.all (r.fetch.buf.take 1), r.fetch) := r.fetch.peek_buffered (by omega)
  rw [hfirst, run_fuel hL (r.size + 1) (r.size + 2) _ s hsucc (by rw [Reader.fetch_size]; omega) (by rw [Reader.fetch_size]; omega)]
  unfold read
  rw [run_of_peek hsucc, run_of_peek hpeek]
  rfl

end Retry.Loop
