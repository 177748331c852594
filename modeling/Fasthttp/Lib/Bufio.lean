import Mathlib

/-!
# A buffered reader over a source that delivers its items in pieces

The reader of Go's `bufio` package.
-/

namespace Bufio

open List

variable {α ε : Type}

/-! ## The source -/

@[ext] structure Source (α ε : Type) where
  pieces : List (List α)
  last : ε
  solid : ∀ p ∈ pieces, p ≠ []

def cut (k : Nat) : List (List α) → List α × List (List α)
  | [] => ([], [])
  | c :: cs => if c.length ≤ k then (c, cs) else (c.take k, c.drop k :: cs)

theorem cut_solid (k : Nat) (ps : List (List α)) (h : ∀ p ∈ ps, p ≠ []) :
    ∀ p ∈ (cut k ps).2, p ≠ [] := by
  cases ps with
  | nil => simp [cut]
  | cons c cs =>
    have hcs : ∀ p ∈ cs, p ≠ [] := fun p hp => h p (mem_cons_of_mem _ hp)
    by_cases hk : c.length ≤ k
    · simpa [cut, hk] using hcs
    · simp only [cut, hk, if_false, mem_cons, forall_eq_or_imp]
      exact ⟨by simp; omega, hcs⟩

theorem cut_flatten (k : Nat) (ps : List (List α)) :
    (cut k ps).1 ++ (cut k ps).2.flatten = ps.flatten := by
  cases ps with
  | nil => simp [cut]
  | cons c cs =>
    by_cases hk : c.length ≤ k
    · simp [cut, hk]
    · simp [cut, hk, ← append_assoc]

theorem cut_length_le (k : Nat) (ps : List (List α)) : (cut k ps).1.length ≤ k := by
  cases ps with
  | nil => simp [cut]
  | cons c cs =>
    by_cases hk : c.length ≤ k
    · simp [cut, hk]
    · simp only [cut, hk, if_false, length_take]
      exact Nat.min_le_left _ _

theorem cut_ne_nil {k : Nat} {ps : List (List α)} (hk : 0 < k) (h : ∀ p ∈ ps, p ≠ [])
    (hps : ps ≠ []) : (cut k ps).1 ≠ [] := by
  cases ps with
  | nil => exact absurd rfl hps
  | cons c cs =>
    have hc : c ≠ [] := h c (by simp)
    by_cases hle : c.length ≤ k
    · simpa [cut, hle] using hc
    · simp [cut, hle, hc]; omega

namespace Source

variable (s : Source α ε)

def items : List α := s.pieces.flatten

def chunk (k : Nat) : List α := (cut k s.pieces).1

def fault : Option ε := if s.pieces.isEmpty then some s.last else none

def rest (k : Nat) : Source α ε :=
  { s with pieces := (cut k s.pieces).2, solid := cut_solid k s.pieces s.solid }

@[simp] theorem rest_last (k : Nat) : (s.rest k).last = s.last := rfl

def of (ps : List (List α)) (last : ε) : Source α ε where
  pieces := ps.filter fun p => !p.isEmpty
  last := last
  solid := by simp

@[simp] theorem of_items (ps : List (List α)) (last : ε) : (of ps last).items = ps.flatten := by
  unfold items of
  induction ps with
  | nil => rfl
  | cons p ps ih => cases p <;> simp [ih]

theorem chunk_append_rest (k : Nat) : s.chunk k ++ (s.rest k).items = s.items :=
  cut_flatten k s.pieces

def push (a : α) : Source α ε where
  pieces := match s.pieces with
    | [] => [[a]]
    | p :: ps => (a :: p) :: ps
  last := s.last
  solid := by
    rcases hp : s.pieces with _ | ⟨p, ps⟩
    · simp
    · intro q hq
      rcases mem_cons.mp hq with rfl | hq
      · simp
      · exact s.solid q (by simp [hp, hq])

@[simp] theorem push_items (a : α) : (s.push a).items = a :: s.items := by
  simp only [items, push]
  rcases s.pieces with _ | ⟨p, ps⟩ <;> simp

theorem items_eq_nil : s.items = [] ↔ s.pieces = [] := by
  constructor
  · intro h
    rcases hp : s.pieces with _ | ⟨c, cs⟩
    · rfl
    · have hc : c ≠ [] := s.solid c (by simp [hp])
      simp [items, hp, hc] at h
  · intro h; simp [items, h]

end Source

/-! ## The reader -/

/-- `buf` holds the items that were read from the source and not yet delivered. -/
structure Reader (α ε : Type) where
  size : Nat
  buf : List α
  err : Option ε
  src : Source α ε
  least : 16 ≤ size
  fits : buf.length ≤ size
  ended : ∀ e, err = some e → src.pieces = [] ∧ e = src.last

namespace Reader

variable {n : Nat}

variable (r : Reader α ε)

theorem pos : 0 < r.size := by
  have := r.least
  omega

variable (r : Reader α ε)

def unread : List α := r.buf ++ r.src.items

def buffered : Nat := r.buf.length

def clear : Reader α ε := { r with err := none, ended := by simp }

def new (size : Nat) (src : Source α ε) (least : 16 ≤ size) : Reader α ε :=
  { size, buf := [], err := none, src, least, fits := by simp, ended := by simp }

theorem default_size : 16 ≤ 4096 := by decide

@[simp] theorem new_unread (size : Nat) (src : Source α ε) (least : 16 ≤ size) :
    (new size src least).unread = src.items := rfl

def whole : Reader α ε := new r.size (.of [r.unread] r.src.last) r.least

@[simp] theorem whole_unread : r.whole.unread = r.unread := by
  simp [whole]

@[simp] theorem whole_size : r.whole.size = r.size := rfl
@[simp] theorem whole_last : r.whole.src.last = r.src.last := rfl

@[simp] theorem clear_unread : r.clear.unread = r.unread := rfl
@[simp] theorem clear_size : r.clear.size = r.size := rfl
@[simp] theorem clear_buf : r.clear.buf = r.buf := rfl
@[simp] theorem clear_src : r.clear.src = r.src := rfl
@[simp] theorem clear_err : r.clear.err = none := rfl

/-- The loop of a peek: pieces are taken until `n` items are buffered, the buffer is full or
the source has ended (the flag). -/
def gather (size n : Nat) : List (List α) → List α → List α × List (List α) × Bool
  | [], b => (b, [], decide (b.length < n ∧ b.length < size))
  | c :: cs, b =>
    if b.length < n ∧ b.length < size then
      if b.length + c.length ≤ size then gather size n cs (b ++ c)
      else (b ++ c.take (size - b.length), c.drop (size - b.length) :: cs, false)
    else (b, c :: cs, false)

structure Gathered (size n : Nat) (ps : List (List α)) (b : List α)
    (g : List α × List (List α) × Bool) : Prop where
  solid : ∀ p ∈ g.2.1, p ≠ []
  same : g.1 ++ g.2.1.flatten = b ++ ps.flatten
  grown : b <+: g.1
  fits : g.1.length ≤ size
  ended : g.2.2 = true → g.2.1 = [] ∧ g.1.length < n
  enough : g.2.2 = false → n ≤ g.1.length ∨ g.1.length = size

theorem gather_spec (size n : Nat) (ps : List (List α)) (b : List α)
    (hs : ∀ p ∈ ps, p ≠ []) (hb : b.length ≤ size) :
    Gathered size n ps b (gather size n ps b) := by
  induction ps generalizing b with
  | nil =>
    refine ⟨by simp [gather], by simp [gather], by simp [gather], by simpa [gather], ?_, ?_⟩
    · simp only [gather, decide_eq_true_eq]
      intro h
      exact ⟨trivial, h.1⟩
    · simp only [gather, decide_eq_false_iff_not]
      omega
  | cons c cs ih =>
    have hcs : ∀ p ∈ cs, p ≠ [] := fun p hp => hs p (mem_cons_of_mem _ hp)
    by_cases hlt : b.length < n ∧ b.length < size
    · by_cases hc : b.length + c.length ≤ size
      · have h := ih (b ++ c) hcs (by simpa using hc)
        simp only [gather, hlt, hc, and_self, if_true]
        exact ⟨h.solid, by rw [h.same]; simp, (prefix_append b c).trans h.grown, h.fits,
          h.ended, h.enough⟩
      · simp only [gather, hlt, hc, and_self, if_true, if_false]
        refine ⟨?_, ?_, prefix_append _ _, by simp; omega,
          by simp, fun _ => Or.inr (by simp; omega)⟩
        swap
        · rw [flatten_cons, flatten_cons, append_assoc,
            ← append_assoc (c.take _), take_append_drop]
        intro p hp
        rcases mem_cons.mp hp with rfl | hp
        · simp; omega
        · exact hcs p hp
    · simp only [gather, hlt, if_false]
      exact ⟨hs, by simp, prefix_refl b, hb, by simp, fun _ => by simp only; omega⟩

def fillTo (n : Nat) : Reader α ε :=
  if r.err.isSome then r
  else
    let g := gather r.size n r.src.pieces r.buf
    have h := gather_spec r.size n r.src.pieces r.buf r.src.solid r.fits
    { size := r.size
      buf := g.1
      err := if g.2.2 then some r.src.last else none
      src := { r.src with pieces := g.2.1, solid := h.solid }
      least := r.least
      fits := h.fits
      ended := by
        intro e he
        split at he
        · exact ⟨(h.ended ‹_›).1, (Option.some.inj he).symm⟩
        · simp at he }

inductive Peeked (α ε : Type)
  | all (items : List α)
  | short (items : List α) (e : ε)
  | full (items : List α)
  deriving DecidableEq, Repr

def peek (n : Nat) : Peeked α ε × Reader α ε :=
  let f := r.fillTo n
  if f.size < n then (.full f.buf, f)
  else if f.buf.length < n then
    match f.err with
    | some e => (.short f.buf e, f.clear)
    | none => (.full f.buf, f)
  else (.all (f.buf.take n), f)

def discard (n : Nat) : Reader α ε :=
  { r with buf := r.buf.drop n, fits := by have := r.fits; simp; omega }

def overwrite (b : List α) : Reader α ε :=
  { r with buf := b.take r.buf.length, fits := by have := r.fits; simp; omega }

def readByte : Except ε α × Reader α ε :=
  match h : r.buf with
  | a :: b => (.ok a, { r with buf := b, fits := by have := r.fits; simp [h] at this; omega })
  | [] =>
    match r.err with
    | some e => (.error e, r.clear)
    | none =>
      match hc : r.src.chunk r.size with
      | [] => (.error r.src.last, r)
      | a :: b =>
        (.ok a, { r with
          buf := b, src := r.src.rest r.size, err := none
          fits := by
            have := cut_length_le r.size r.src.pieces
            rw [← Source.chunk, hc] at this
            simp at this; omega
          ended := by simp })

def unreadByte (a : α) : Reader α ε :=
  if h : r.buf.length < r.size then { r with buf := a :: r.buf, fits := h } else r

/-- `Read` into a slice of length `k`. A large read with nothing buffered goes past the buffer. -/
def read (k : Nat) : List α × Option ε × Reader α ε :=
  if k = 0 then
    if r.buf.isEmpty then ([], r.err, r.clear) else ([], none, r)
  else if r.buf.isEmpty then
    match r.err with
    | some e => ([], some e, r.clear)
    | none =>
      if r.size ≤ k then
        (r.src.chunk k, r.src.fault, { r with src := r.src.rest k, err := none, ended := by simp })
      else
        ((r.src.chunk r.size).take k, r.src.fault,
          { r with
            buf := (r.src.chunk r.size).drop k, src := r.src.rest r.size, err := none
            fits := by
              have := cut_length_le r.size r.src.pieces
              simp only [Source.chunk, length_drop]; omega
            ended := by simp })
  else (r.buf.take k, none, r.discard k)

/-! ## What the operations do to the unread items -/

@[ext] theorem ext_fields {r r' : Reader α ε} (hs : r.size = r'.size) (hb : r.buf = r'.buf)
    (he : r.err = r'.err) (hsrc : r.src = r'.src) : r = r' := by
  cases r; simp_all

@[simp] theorem discard_size (n : Nat) : (r.discard n).size = r.size := rfl
@[simp] theorem discard_buf (n : Nat) : (r.discard n).buf = r.buf.drop n := rfl
@[simp] theorem discard_src (n : Nat) : (r.discard n).src = r.src := rfl
@[simp] theorem discard_err (n : Nat) : (r.discard n).err = r.err := rfl

theorem discard_unread (h : n ≤ r.buf.length) :
    (r.discard n).unread = r.unread.drop n := by
  simp [unread, drop_append_of_le_length h]

@[simp] theorem overwrite_size (b : List α) : (r.overwrite b).size = r.size := rfl
@[simp] theorem overwrite_src (b : List α) : (r.overwrite b).src = r.src := rfl
@[simp] theorem overwrite_err (b : List α) : (r.overwrite b).err = r.err := rfl

variable {b : List α}

theorem overwrite_buf (h : b.length = r.buf.length) :
    (r.overwrite b).buf = b := by
  simp [overwrite, ← h]

theorem overwrite_self : r.overwrite r.buf = r := by
  ext1 <;> simp [overwrite]

def fetch : Reader α ε :=
  { r with
    buf := r.buf ++ r.src.chunk (r.size - r.buf.length)
    src := r.src.rest (r.size - r.buf.length)
    err := none
    fits := by
      have := cut_length_le (r.size - r.buf.length) r.src.pieces
      have := r.fits
      simp only [Source.chunk, length_append]; omega
    ended := by simp }

@[simp] theorem fetch_size : r.fetch.size = r.size := rfl
@[simp] theorem fetch_err : r.fetch.err = none := rfl
@[simp] theorem fetch_last : r.fetch.src.last = r.src.last := rfl

theorem fetch_unread : r.fetch.unread = r.unread := by
  simp [unread, fetch, Source.chunk_append_rest]

theorem fetch_buf_prefix : r.buf <+: r.fetch.buf := prefix_append _ _

theorem fetch_buf_length (hroom : r.buf.length < r.size)
    (hp : r.src.pieces ≠ []) : r.buf.length < r.fetch.buf.length := by
  have h := cut_ne_nil (by omega : 0 < r.size - r.buf.length) r.src.solid hp
  have := length_pos_iff.mpr h
  simp only [fetch, Source.chunk, length_append]; omega

theorem gather_idle {size : Nat} (ps : List (List α))
    (h : ¬(b.length < n ∧ b.length < size)) : gather size n ps b = (b, ps, false) := by
  cases ps <;> simp only [gather, h, decide_false, if_false]

theorem fillTo_idle (h : ¬(r.buf.length < n ∧ r.buf.length < r.size)) :
    r.fillTo n = r := by
  unfold fillTo
  split
  · rfl
  · rename_i he
    ext1 <;> simp only [gather_idle r.src.pieces h]
    exact (Option.not_isSome_iff_eq_none.mp he).symm

theorem peek_buffered (h : n ≤ r.buf.length) :
    r.peek n = (.all (r.buf.take n), r) := by
  have := r.fits
  simp only [peek, r.fillTo_idle (n := n) (by omega)]
  rw [if_neg (by omega), if_neg (by omega)]

theorem gather_one (size : Nat) (c : List α) (cs : List (List α)) (b : List α) (hc : c ≠ [])
    (hb : b.length < size) :
    gather size (b.length + 1) (c :: cs) b =
      (b ++ (cut (size - b.length) (c :: cs)).1, (cut (size - b.length) (c :: cs)).2, false) := by
  have hpos := length_pos_iff.mpr hc
  simp only [gather]
  rw [if_pos ⟨by omega, hb⟩]
  by_cases hle : b.length + c.length ≤ size
  · rw [if_pos hle]
    have : c.length ≤ size - b.length := by omega
    rw [gather_idle cs (by simp only [length_append]; omega)]
    simp [cut, this]
  · rw [if_neg hle]
    simp only [cut]
    rw [if_neg (by omega)]

/-! A peek for one item more than is buffered: the buffer is full, or the source has ended, or
one more piece is read. -/

theorem peek_succ_full (hfull : r.size ≤ r.buf.length) :
    r.peek (r.buf.length + 1) = (.full r.buf, r) := by
  simp only [peek, r.fillTo_idle (n := r.buf.length + 1) (by omega)]
  rw [if_pos (by omega)]

theorem peek_succ_ended (hroom : r.buf.length < r.size) (hp : r.src.pieces = []) :
    r.peek (r.buf.length + 1) = (.short r.buf r.src.last, r.clear) := by
  rcases he : r.err with _ | e
  · have hg : gather r.size (r.buf.length + 1) r.src.pieces r.buf = (r.buf, [], true) := by
      simp [hp, gather, hroom]
    simp only [peek, fillTo, he, hg, Option.isSome_none, Bool.false_eq_true, if_false, if_true]
    rw [if_neg (by omega), if_pos (by omega)]
    congr 1
    ext1 <;> try rfl
    exact Source.ext hp.symm rfl
  · simp only [peek, fillTo, he, Option.isSome_some, if_true]
    rw [if_neg (by omega), if_pos (by omega), (r.ended e he).2]

theorem err_eq_none (hp : r.src.pieces ≠ []) : r.err = none := by
  rcases he : r.err with _ | e
  · rfl
  · exact absurd (r.ended e he).1 hp

theorem peek_succ_more (hroom : r.buf.length < r.size) (hp : r.src.pieces ≠ []) :
    r.peek (r.buf.length + 1) = (.all (r.fetch.buf.take (r.buf.length + 1)), r.fetch) := by
  have hg : gather r.size (r.buf.length + 1) r.src.pieces r.buf
      = (r.fetch.buf, r.fetch.src.pieces, false) := by
    rcases hps : r.src.pieces with _ | ⟨c, cs⟩
    · exact absurd hps hp
    · have hc : c ≠ [] := r.src.solid c (by simp [hps])
      rw [gather_one _ _ _ _ hc hroom]
      simp [fetch, Source.chunk, Source.rest, hps]
  have hfill : r.fillTo (r.buf.length + 1) = r.fetch := by
    unfold fillTo
    rw [if_neg (by simp [r.err_eq_none hp])]
    ext1 <;> simp [hg]
    rfl
  have hlt := r.fetch_buf_length hroom hp
  simp only [peek, hfill, fetch_size]
  rw [if_neg (by omega), if_neg (by omega)]

/-! ## The lengths at which a buffer stops to grow for a while -/

/-- The buffer of the reader holds `n` items when some of the pieces have come. -/
def Arrives (n : Nat) : Prop := ∃ j, n = r.buf.length + (r.src.pieces.take j).flatten.length

instance (r : Reader α ε) (n : Nat) : Decidable (r.Arrives n) :=
  decidable_of_iff (∃ j < r.src.pieces.length + 1, n = r.buf.length + (r.src.pieces.take j).flatten.length) <| by
    constructor
    · rintro ⟨j, -, h⟩
      exact ⟨j, h⟩
    · rintro ⟨j, h⟩
      refine ⟨min j r.src.pieces.length, by omega, ?_⟩
      rw [h, take_eq_take_min]

theorem arrives_self : r.Arrives r.buf.length := ⟨0, by simp⟩

theorem Arrives.le {r : Reader α ε} (h : r.Arrives n) : r.buf.length ≤ n := by
  obtain ⟨j, rfl⟩ := h
  omega

theorem arrives_whole (h : r.whole.Arrives n) : n = 0 ∨ n = r.unread.length := by
  obtain ⟨j, rfl⟩ := h
  have hnil : r.whole.buf = [] := rfl
  rw [hnil]
  rcases hu : r.unread with _ | ⟨x, xs⟩
  · have : r.whole.src.pieces = [] := by simp [whole, new, Source.of, hu]
    simp [this]
  · have : r.whole.src.pieces = [x :: xs] := by simp [whole, new, Source.of, hu]
    rw [this]
    cases j with
    | zero => simp
    | succ j => simp

theorem arrives_whole_early (hlt : n < min r.whole.size r.whole.unread.length) (h : r.whole.Arrives n) : n = 0 := by
  rw [whole_unread] at hlt
  rcases r.arrives_whole h with h | h <;> omega

theorem arrives_overwrite (h : b.length = r.buf.length) (n : Nat) :
    (r.overwrite b).Arrives n ↔ r.Arrives n := by
  unfold Arrives
  rw [overwrite_buf r h, h]
  rfl

theorem arrives_fetch (hroom : r.buf.length < r.size) (hp : r.src.pieces ≠ []) (n : Nat) :
    (r.Arrives n → n = r.buf.length ∨ r.fetch.buf.length ≤ n) ∧
    (r.fetch.buf.length < r.size → (r.fetch.Arrives n ↔ r.Arrives n ∧ n ≠ r.buf.length)) := by
  obtain ⟨c, cs, hps⟩ := exists_cons_of_ne_nil hp
  have hc : 0 < c.length := length_pos_iff.mpr (r.src.solid c (by simp [hps]))
  by_cases hle : c.length ≤ r.size - r.buf.length
  · have hbuf : r.fetch.buf.length = r.buf.length + c.length := by
      simp [fetch, Source.chunk, hps, cut, hle]
    have hcs : r.fetch.src.pieces = cs := by
      simp [fetch, Source.rest, hps, cut, hle]
    refine ⟨?_, fun _ => ⟨?_, ?_⟩⟩
    · rintro ⟨_ | j, rfl⟩
      · simp
      · rw [hps]
        simp only [take_succ_cons, flatten_cons, length_append]
        omega
    · rintro ⟨j, rfl⟩
      refine ⟨⟨j + 1, ?_⟩, ?_⟩
      · rw [hcs, hps]
        simp only [take_succ_cons, flatten_cons, length_append]
        omega
      · omega
    · rintro ⟨⟨_ | j, rfl⟩, hne⟩
      · simp at hne
      · refine ⟨j, ?_⟩
        rw [hcs, hps]
        simp only [take_succ_cons, flatten_cons, length_append]
        omega
  · have hbuf : r.fetch.buf.length = r.size := by
      simp only [fetch, Source.chunk, hps, cut, hle, if_false, length_append, length_take]
      omega
    refine ⟨?_, by omega⟩
    rintro ⟨_ | j, rfl⟩
    · simp
    · rw [hps]
      simp only [take_succ_cons, flatten_cons, length_append]
      omega

def Ahead (r₀ r : Reader α ε) : Prop := r.buf.length < r.size → ∀ n, r.Arrives n ↔ r₀.Arrives n ∧ r.buf.length ≤ n

theorem ahead_self : r.Ahead r := fun _ _ => ⟨fun h => ⟨h, h.le⟩, fun h => h.1⟩

theorem Ahead.fetch {r₀ r : Reader α ε} (h : r₀.Ahead r) (hroom : r.buf.length < r.size) (hp : r.src.pieces ≠ [])
    (hlen : b.length = r.buf.length) : r₀.Ahead (r.overwrite b).fetch ∧ r₀.Arrives r.buf.length ∧
      ∀ n, r₀.Arrives n → n < (r.overwrite b).fetch.buf.length → n < r.buf.length ∨ n = r.buf.length := by
  have hbuf : (r.overwrite b).buf.length = r.buf.length := by rw [r.overwrite_buf hlen, hlen]
  have hroom' : (r.overwrite b).buf.length < (r.overwrite b).size := by rw [hbuf]; exact hroom
  have hgrow := (r.overwrite b).fetch_buf_length hroom' hp
  have harr := (r.overwrite b).arrives_fetch hroom' hp
  have hbetween : ∀ n, r₀.Arrives n → n < (r.overwrite b).fetch.buf.length → n < r.buf.length ∨ n = r.buf.length := by
    intro n hn hlt
    by_contra hno
    have hle : r.buf.length ≤ n := by omega
    rcases (harr n).1 ((r.arrives_overwrite hlen n).mpr ((h hroom n).mpr ⟨hn, hle⟩)) with h | h <;> omega
  refine ⟨fun hlt n => ?_, ((h hroom _).mp r.arrives_self).1, hbetween⟩
  rw [(harr n).2 hlt, r.arrives_overwrite hlen, h hroom]
  constructor
  · rintro ⟨⟨hn, hle⟩, hne⟩
    refine ⟨hn, ?_⟩
    by_contra hno
    rcases hbetween n hn (by omega) with h | h <;> omega
  · rintro ⟨hn, hle⟩
    exact ⟨⟨hn, by omega⟩, by omega⟩

theorem gather_arrives {size : Nat} {ps : List (List α)} (hs : ∀ p ∈ ps, p ≠ []) (hb : b.length ≤ size) :
    (∀ j, b.length + (ps.take j).flatten.length < (gather size n ps b).1.length → b.length + (ps.take j).flatten.length < n) ∧
    ((gather size n ps b).1.length < size → ∀ m,
      (∃ j, m = (gather size n ps b).1.length + ((gather size n ps b).2.1.take j).flatten.length) ↔
        (∃ j, m = b.length + (ps.take j).flatten.length) ∧ (gather size n ps b).1.length ≤ m) := by
  induction ps generalizing b with
  | nil => simp [gather]
  | cons c cs ih =>
    have hcs : ∀ p ∈ cs, p ≠ [] := fun p hp => hs p (mem_cons_of_mem _ hp)
    have hc : 0 < c.length := length_pos_iff.mpr (hs c (by simp))
    by_cases hlt : b.length < n ∧ b.length < size
    · by_cases hle : b.length + c.length ≤ size
      · have hle' : (b ++ c).length ≤ size := by simpa using hle
        have hgrown := (gather_spec size n cs (b ++ c) hcs hle').grown.length_le
        obtain ⟨hfirst, hrest⟩ := ih hcs hle'
        have hg : gather size n (c :: cs) b = gather size n cs (b ++ c) := by simp [gather, hlt, hle]
        have hsucc : ∀ j, b.length + ((c :: cs).take (j + 1)).flatten.length = (b ++ c).length + (cs.take j).flatten.length := by
          simp only [take_succ_cons, flatten_cons, length_append]
          omega
        rw [hg]
        refine ⟨fun j hj => ?_, fun hroom m => (hrest hroom m).trans ⟨?_, ?_⟩⟩
        · cases j with
          | zero => simpa using hlt.1
          | succ j =>
            rw [hsucc] at hj ⊢
            exact hfirst j hj
        · rintro ⟨⟨j, rfl⟩, hm⟩
          exact ⟨⟨j + 1, (hsucc j).symm⟩, hm⟩
        · rintro ⟨⟨_ | j, rfl⟩, hm⟩
          · simp only [take_zero, flatten_nil, length_nil, length_append] at hm hgrown
            omega
          · exact ⟨⟨j, hsucc j⟩, hm⟩
      · have hg : (gather size n (c :: cs) b).1.length = size := by
          simp only [gather, hlt, hle, and_self, if_true, if_false, length_append, length_take]
          omega
        rw [hg]
        refine ⟨fun j hj => ?_, fun hroom => absurd hroom (Nat.lt_irrefl _)⟩
        cases j with
        | zero => simpa using hlt.1
        | succ j =>
          simp only [take_succ_cons, flatten_cons, length_append] at hj
          omega
    · rw [gather_idle _ hlt]
      refine ⟨fun j hj => absurd hj (by simp), fun _ m => ⟨?_, fun h => h.1⟩⟩
      rintro ⟨j, rfl⟩
      exact ⟨⟨j, rfl⟩, Nat.le_add_right _ _⟩

theorem fillTo_ahead (n : Nat) :
    r.Ahead (r.fillTo n) ∧ ∀ m, r.Arrives m → m < (r.fillTo n).buf.length → m < n := by
  rcases he : r.err with _ | e
  · obtain ⟨hfirst, hrest⟩ := gather_arrives (n := n) r.src.solid r.fits
    have hfill : (r.fillTo n).buf = (gather r.size n r.src.pieces r.buf).1 ∧
        (r.fillTo n).src.pieces = (gather r.size n r.src.pieces r.buf).2.1 ∧ (r.fillTo n).size = r.size := by
      simp [fillTo, he]
    unfold Ahead Arrives
    rw [hfill.1, hfill.2.1, hfill.2.2]
    refine ⟨hrest, ?_⟩
    rintro m ⟨j, rfl⟩
    exact hfirst j
  · have hfill : r.fillTo n = r := by simp [fillTo, he]
    rw [hfill]
    refine ⟨r.ahead_self, fun m hm hlt => ?_⟩
    have := hm.le
    omega

theorem whole_fillTo (hn : 0 < n) :
    (r.whole.fillTo n).buf = r.unread.take r.size ∧ (r.whole.fillTo n).src.items = r.unread.drop r.size := by
  have hpos := r.pos
  rcases hu : r.unread with _ | ⟨a, l⟩
  · simp [fillTo, whole, new, Source.of, hu, gather, Source.items]
  · have hfill : (r.whole.fillTo n).buf = (gather r.size n [a :: l] []).1 ∧
        (r.whole.fillTo n).src.pieces = (gather r.size n [a :: l] []).2.1 := by
      simp [fillTo, whole, new, Source.of, hu]
    rw [hfill.1, Source.items, hfill.2]
    by_cases hle : (a :: l).length ≤ r.size
    · have hle' : l.length + 1 ≤ r.size := hle
      rw [take_of_length_le hle]
      simp [gather, hn, hpos, hle']
    · have hle' : ¬l.length + 1 ≤ r.size := hle
      simp [gather, hn, hpos, hle']

end Reader

end Bufio
