import Fasthttp.Header.Grammar
import Fasthttp.Header.ResponseSplit
import Fasthttp.Header.Trailer

/-!
# Trailers in pieces

Every attempt of `ReadTrailer` starts again, with the entries of the earlier attempts still in the list.
-/

namespace Fasthttp

open Scanner Bufio Retry.Loop List

/-! ## The fields of a trailer -/

def trailerEntries (fs : List (Bytes × Bytes)) : List ArgsKV := (fs.filter fun f => f.1 ≠ []).map fun f => ⟨f.1, f.2, false⟩

def AllGood (good : Bytes → Bool) (fs : List (Bytes × Bytes)) : Prop := ∀ f ∈ fs, f.1 = [] ∨ good f.1 = true

theorem trailerEntries_cons (f : Bytes × Bytes) (fs : List (Bytes × Bytes)) :
    trailerEntries (f :: fs) = (if f.1 = [] then [] else [⟨f.1, f.2, false⟩]) ++ trailerEntries fs := by
  unfold trailerEntries
  by_cases h : f.1 = [] <;> simp [h]

theorem trailerEntries_named (fs : List (Bytes × Bytes)) : ∀ kv ∈ trailerEntries fs, kv.key ≠ [] := by
  intro kv hkv
  obtain ⟨f, hf, rfl⟩ := mem_map.mp hkv
  simpa using (mem_filter.mp hf).2

def verdict : Option Err → Option (Except Err Unit)
  | none => some (.ok ())
  | some e => if e = .needMore then none else some (.error e)

namespace RequestHeader

def goodTrailer (key : Bytes) : Bool := !hasBlank key

theorem feed_trailerField (h : List ArgsKV) (fs : List (Bytes × Bytes)) :
    (AllGood goodTrailer fs → feed trailerField h fs = (h ++ trailerEntries fs, none)) ∧
    (¬ AllGood goodTrailer fs → (feed trailerField h fs).2 ≠ none) ∧
    (feed trailerField h fs).2 = (feed trailerField [] fs).2 := by
  induction fs generalizing h with
  | nil => simp [feed, trailerEntries, AllGood]
  | cons f fs ih =>
    unfold AllGood at ih ⊢
    rw [forall_mem_cons, trailerEntries_cons]
    by_cases hkey : f.1 = []
    · simp only [feed, hkey, true_or, true_and]
      exact ih h
    · by_cases hblank : hasBlank f.1 = true
      · have hstep : ∀ g, trailerField g f.1 f.2 = (g, some (.trailerKey "invalid trailer key" f.1)) := fun g => by
          simp [trailerField, hkey, hblank]
        simp [feed, hstep, hkey, goodTrailer, hblank]
      · have hstep : ∀ g, trailerField g f.1 f.2 = (g ++ [⟨f.1, f.2, false⟩], none) := fun g => by
          simp [trailerField, hkey, hblank, appendArg]
        have hgood : goodTrailer f.1 = true := by simp [goodTrailer, hblank]
        obtain ⟨h1, h2, h3⟩ := ih (h ++ [⟨f.1, f.2, false⟩])
        simp only [feed, hstep, hkey, hgood, or_true, true_and, ← append_assoc]
        exact ⟨h1, h2, h3.trans (ih _).2.2.symm⟩

def trailerError (d : Bool) (b : Bytes) : Option Err := (feed trailerField [] (fields d b)).2.or (ending (behind b))

end RequestHeader

namespace ResponseHeader

def goodTrailer (key : Bytes) : Bool := !hasBlank key && !isBadTrailer key false

theorem trailerField_cases (k v : Bytes) : (k = [] ∧ ∀ g, trailerField g k v = (g, none)) ∨
    (k ≠ [] ∧ goodTrailer k = true ∧ ∀ g, trailerField g k v = ((g.1 ++ [⟨k, v, false⟩], g.2), none)) ∨
    (k ≠ [] ∧ goodTrailer k = false ∧ ∃ e, ∀ g, trailerField g k v = ((g.1, some e), none)) := by
  by_cases hkey : k = []
  · exact .inl ⟨hkey, fun g => by simp [trailerField, hkey]⟩
  by_cases hblank : hasBlank k = true
  · exact .inr (.inr ⟨hkey, by simp [goodTrailer, hblank], .trailerKey "invalid trailer key" k,
      fun g => by simp [trailerField, hkey, hblank]⟩)
  by_cases hbad : isBadTrailer k false = true
  · exact .inr (.inr ⟨hkey, by simp [goodTrailer, hbad], .trailerKey "forbidden trailer key" k,
      fun g => by simp [trailerField, hkey, hblank, hbad]⟩)
  · exact .inr (.inl ⟨hkey, by simp [goodTrailer, hblank, hbad], fun g => by simp [trailerField, hkey, hblank, hbad, appendArg]⟩)

theorem feed_trailerField (fs : List (Bytes × Bytes)) : ∃ a x, (∀ h e, feed trailerField (h, e) fs = ((h ++ a, x.or e), none)) ∧
    (x = none ↔ AllGood goodTrailer fs) ∧ (AllGood goodTrailer fs → a = trailerEntries fs) := by
  induction fs with
  | nil => exact ⟨[], none, by simp [feed], by simp [AllGood], fun _ => rfl⟩
  | cons f fs ih =>
    obtain ⟨a, x, hfeed, hx, ha⟩ := ih
    unfold AllGood at hx ha ⊢
    rw [forall_mem_cons, trailerEntries_cons]
    rcases trailerField_cases f.1 f.2 with ⟨hkey, hstep⟩ | ⟨hkey, hgood, hstep⟩ | ⟨hkey, hbad, y, hstep⟩
    · refine ⟨a, x, fun h e => ?_, by simp [hkey, hx], by simpa [hkey] using ha⟩
      simp [feed, hstep, hfeed]
    · refine ⟨⟨f.1, f.2, false⟩ :: a, x, fun h e => ?_, by simp [hgood, hx], fun hall => by simp [hkey, ha hall.2]⟩
      simp [feed, hstep, hfeed]
    · refine ⟨a, x.or (some y), fun h e => ?_, by simp [hkey, hbad], fun hall => by simp [hkey, hbad] at hall⟩
      simp only [feed, hstep, hfeed, Option.or_assoc, Option.some_or]

def trailerError (d : Bool) (b : Bytes) : Option Err := (ending (behind b)).or (feed trailerField ([], none) (fields d b)).1.2

end ResponseHeader

/-! ## Attempts -/

structure Attempts (L : Retry.Loop (List ArgsKV) Byte Err) (d : Bool) (good : Bytes → Bool) (p : Bytes) (fine : Bytes → Prop)
    (error : Bytes → Option Err) : Prop where
  more : L.more = .needMore
  inPlace : L.InPlace
  start : error [] = some .needMore
  parse : ∀ h b b', Recased d b b' → NoFold b → fine b → ∃ h' mem n,
    L.parse h (p ++ b') = (h', mem, match error b with
      | none => .ok n
      | some e => .error e) ∧
    (AllGood good (fields d b) → h' = h ++ trailerEntries (fields d b)) ∧
    (error b = some .needMore → ∃ m, mem = p ++ m ∧ Recased d b m) ∧
    (error b = none → n = (text (lines b)).length + blankLen (behind b))
  ok_iff : ∀ b, NoFold b → (error b = none ↔ AllGood good (fields d b) ∧ ending (behind b) = none)
  stable : ∀ b y, NoFold (b ++ y) → error b ≠ some .needMore → error (b ++ y) = error b

theorem fields_stable {d : Bool} {b y : Bytes} (hfold : NoFold (b ++ y)) (hend : ending (behind b) ≠ some .needMore) :
    fields d (b ++ y) = fields d b ∧ ending (behind (b ++ y)) = ending (behind b) := by
  have hfin := behind_final hfold.left
  obtain ⟨hn, hsame⟩ := ending_append hfin hend y
  obtain ⟨hlines, hbehind⟩ := lines_append hfin hn y
  exact ⟨by rw [fields, fields, hlines], by rw [hbehind, hsame]⟩

namespace RequestHeader

theorem trailerLoop_attempts (d : Bool) : Attempts (trailerLoop d) d goodTrailer [] (fun _ => True) (trailerError d) where
  more := rfl
  inPlace := (trailerLoop_plain d).inPlace
  start := rfl
  parse := by
    intro h b b' hrec hfold _
    obtain ⟨s', hscan, hmem⟩ := scanAll_recased trailerField (behind_final hfold) hrec h
    obtain ⟨hgood, -, herr⟩ := feed_trailerField h (fields d b)
    rw [herr] at hscan hmem
    refine ⟨(feed trailerField h (fields d b)).1, s'.mem, s'.hLen, ?_, fun hall => by rw [hgood hall], ?_, ?_⟩
    · simp only [nil_append, trailerLoop, parseTrailer, hscan, trailerError]
      rcases (feed trailerField [] (fields d b)).2.or (ending (behind b)) with _ | e <;> rfl
    · intro hmore
      refine ⟨s'.mem, rfl, (hmem ?_).1⟩
      by_contra hne
      obtain ⟨e, he⟩ := Option.ne_none_iff_exists'.mp hne
      rw [trailerError, he, Option.some_or, Option.some.injEq] at hmore
      exact (feed_trailerField_error he).2 hmore
    · intro hnone
      obtain ⟨hfeed, hend⟩ := Option.or_eq_none_iff.mp hnone
      exact (hmem hfeed).2 hend
  ok_iff := by
    intro b _
    obtain ⟨hgood, hbad, -⟩ := feed_trailerField [] (fields d b)
    rw [trailerError, Option.or_eq_none_iff]
    refine and_congr_left fun _ => ⟨fun h => ?_, fun h => by rw [hgood h]⟩
    by_contra hno
    exact hbad hno h
  stable := by
    intro b y hfold hne
    rw [trailerError] at hne
    unfold trailerError
    rcases hfed : feed trailerField [] (fields d b) with ⟨h', _ | e⟩
    · rw [hfed] at hne
      obtain ⟨hfields, hend⟩ := fields_stable (d := d) hfold hne
      rw [hfields, hfed, hend]
    · obtain ⟨gs, hgs⟩ := fields_append d b y
      rw [hgs, feed_append_error hfed gs]
      rfl

end RequestHeader

namespace ResponseHeader

def Skips (p b : Bytes) : Prop := p = [] ∧ b.head? ≠ some (ch '0') ∨ p.length = 3 ∧ p.head? = some (ch '0')

theorem parseTrailer_skips {p b : Bytes} (hp : Skips p b) (d : Bool) (h : List ArgsKV) :
    parseTrailer d h (p ++ b) = match scanAll trailerField (Scanner.new b d) (h, none) with
      | (h, s, some e) => (h.1, p ++ s.mem, .error e)
      | (h, s, none) =>
        match h.2 with
        | some e => (h.1, p ++ s.mem, .error e)
        | none => (h.1, p ++ s.mem, .ok s.hLen) := by
  have hskip : (if (p ++ b).head? = some (ch '0') then strCRLF.length + 1 else 0) = p.length := by
    rcases hp with ⟨rfl, hb⟩ | ⟨hlen, hhead⟩
    · rw [nil_append, if_neg hb]
      rfl
    · rw [head?_append, hhead, hlen]
      rfl
  unfold parseTrailer
  simp only [hskip]
  rewrite [if_neg (by simp), drop_left, take_left]
  rfl

theorem trailerLoop_attempts (d : Bool) {p : Bytes} {fine : Bytes → Prop} (hfine : ∀ b b', Recased d b b' → fine b → Skips p b') :
    Attempts (trailerLoop d) d goodTrailer p fine (trailerError d) where
  more := rfl
  inPlace := (trailerLoop_plain d).inPlace
  start := rfl
  parse := by
    intro h b b' hrec hfold hb
    obtain ⟨s', hscan, hmem⟩ := scanAll_recased trailerField (behind_final hfold) hrec (h, none)
    obtain ⟨a, x, hfeed, hx, ha⟩ := feed_trailerField (fields d b)
    have hparse := parseTrailer_skips (hfine b b' hrec hb) d h
    rw [hscan, hfeed] at hparse
    rw [hfeed] at hmem
    obtain ⟨hrec', hlen⟩ := hmem rfl
    have herr : trailerError d b = (ending (behind b)).or x := by rw [trailerError, hfeed, Option.or_none]
    refine ⟨h ++ a, p ++ s'.mem, s'.hLen, ?_, fun hall => by rw [ha hall], fun _ => ⟨s'.mem, rfl, hrec'⟩, ?_⟩
    · simp only [trailerLoop, hparse, herr]
      rcases ending (behind b) with _ | e
      · rcases x with _ | e <;> rfl
      · rfl
    · intro hnone
      rw [herr, Option.or_eq_none_iff] at hnone
      exact hlen hnone.1
  ok_iff := by
    intro b _
    obtain ⟨a, x, hfeed, hx, -⟩ := feed_trailerField (fields d b)
    rw [trailerError, hfeed, Option.or_none, Option.or_eq_none_iff, hx]
    exact and_comm
  stable := by
    intro b y hfold hne
    have hend : ending (behind b) ≠ some .needMore := by
      intro hmore
      rw [trailerError, hmore] at hne
      exact hne rfl
    obtain ⟨hfields, hsame⟩ := fields_stable (d := d) hfold hend
    rw [trailerError, trailerError, hfields, hsame]

theorem trailerLoop_zero_attempts (d : Bool) {p : Bytes} (hlen : p.length = 3) (hhead : p.head? = some (ch '0')) :
    Attempts (trailerLoop d) d goodTrailer p (fun _ => True) (trailerError d) :=
  trailerLoop_attempts d fun _ _ _ _ => .inr ⟨hlen, hhead⟩

end ResponseHeader

/-! ## Reading in pieces -/

section Pieces

variable {h h₀ : List ArgsKV} {n : Nat} {r r₀ : Reader Byte Err}

variable {L : Retry.Loop (List ArgsKV) Byte Err} {d : Bool} {good : Bytes → Bool} {p : Bytes} {fine : Bytes → Prop}
    {error : Bytes → Option Err}

/-- No complete field with a name stands in the first `n` bytes. -/
def Untouched (d : Bool) (p t : Bytes) (n : Nat) : Prop := trailerEntries (fields d ((t.take n).drop p.length)) = []

structure PieceInv (error : Bytes → Option Err) (d : Bool) (good : Bytes → Bool) (p : Bytes) (h₀ : List ArgsKV) (r₀ : Reader Byte Err)
    (h : List ArgsKV) (r : Reader Byte Err) : Prop where
  size : r.size = r₀.size
  last : r.src.last = r₀.src.last
  buf : ∃ b b', r.buf = p ++ b' ∧ Recased d b b' ∧ r₀.unread = p ++ (b ++ r.src.items)
  ahead : r₀.Ahead r
  undecided : ∀ n, r₀.Arrives n → n < r.buf.length → verdict (error ((r₀.unread.take n).drop p.length)) = none
  left : AllGood good (fields d ((r₀.unread.take r.buf.length).drop p.length)) → ∃ left, h = h₀ ++ left ∧
    (∀ kv ∈ left, kv.key ≠ []) ∧ (left = [] ↔ ∀ n, r₀.Arrives n → n < r.buf.length → Untouched d p r₀.unread n)

theorem PieceInv.length (hI : PieceInv error d good p h₀ r₀ h r) :
    r.unread.length = r₀.unread.length := by
  obtain ⟨b, b', hbuf, hrec, ht⟩ := hI.buf
  rw [ht, Reader.unread, hbuf]
  simp [hrec.length]

theorem PieceInv.take (hI : PieceInv error d good p h₀ r₀ h r) :
    ∃ b b', r.buf = p ++ b' ∧ Recased d b b' ∧ r₀.unread = p ++ (b ++ r.src.items) ∧
      (r₀.unread.take r.buf.length).drop p.length = b := by
  obtain ⟨b, b', hbuf, hrec, ht⟩ := hI.buf
  refine ⟨b, b', hbuf, hrec, ht, ?_⟩
  have hlen : r.buf.length = (p ++ b).length := by rw [hbuf, length_append, length_append, hrec.length]
  rw [ht, hlen, ← append_assoc, take_left, drop_left]

theorem allGood_take {d : Bool} {p t : Bytes} {m : Nat} (hnm : n ≤ m) (h : AllGood good (fields d ((t.take m).drop p.length))) :
    AllGood good (fields d ((t.take n).drop p.length)) := by
  obtain ⟨y, hy⟩ : (t.take n).drop p.length <+: (t.take m).drop p.length := by
    rw [drop_take, drop_take]
    exact take_prefix_take_left (by omega)
  obtain ⟨gs, hgs⟩ := fields_append d ((t.take n).drop p.length) y
  rw [← hy, hgs] at h
  exact fun f hf => h f (mem_append_left _ hf)

theorem PieceInv.step {h' : List ArgsKV} {b m mem : Bytes}
    (hI : PieceInv error d good p h₀ r₀ h r) (hb : (r₀.unread.take r.buf.length).drop p.length = b)
    (ht : r₀.unread = p ++ (b ++ r.src.items)) (hlen : mem.length = r.buf.length) (hroom : r.buf.length < r.size)
    (hp : r.src.pieces ≠ []) (herr : error b = some .needMore)
    (hadds : AllGood good (fields d b) → h' = h ++ trailerEntries (fields d b))
    (hmem : mem = p ++ m) (hrec : Recased d b m) : PieceInv error d good p h₀ r₀ h' (r.overwrite mem).fetch := by
  have hj : verdict (error ((r₀.unread.take r.buf.length).drop p.length)) = none := by rw [hb, herr]; rfl
  have hhistory : History r₀ (fun x => verdict (error (x.drop p.length))) (Untouched d p r₀.unread)
      (∀ n, r₀.Arrives n → n < r.buf.length → Untouched d p r₀.unread n) r := ⟨hI.ahead, hI.undecided, Iff.rfl⟩
  obtain ⟨hahead, hundecided, htraces⟩ := hhistory.step hroom hp hlen hj Iff.rfl
  have hgrow : r.buf.length ≤ (r.overwrite mem).fetch.buf.length := by
    have hle := List.IsPrefix.length_le (Reader.fetch_buf_prefix (r.overwrite mem))
    rwa [r.overwrite_buf hlen, hlen] at hle
  refine ⟨hI.size, hI.last, ?_, hahead, hundecided, fun hall => ?_⟩
  · refine ⟨b ++ r.src.chunk (r.size - (r.overwrite mem).buf.length),
      m ++ r.src.chunk (r.size - (r.overwrite mem).buf.length), ?_, hrec.append _, ?_⟩
    · rw [← append_assoc, ← hmem]
      simp [Reader.fetch, r.overwrite_buf hlen]
    · rw [ht, append_assoc]
      simp [Reader.fetch, r.src.chunk_append_rest]
  · have hgood := allGood_take hgrow hall
    obtain ⟨left, rfl, hnames, hleft⟩ := hI.left hgood
    rw [hb] at hgood
    refine ⟨left ++ trailerEntries (fields d b), by rw [hadds hgood, append_assoc],
      forall_mem_append.mpr ⟨hnames, trailerEntries_named _⟩, ?_⟩
    rw [append_eq_nil_iff, hleft, ← htraces, Untouched, hb]

variable (hL : Attempts L d good p fine error)
include hL

theorem Attempts.judged (hfold : NoFold (r₀.unread.drop p.length))
    (hfine : ∀ b, b <+: r₀.unread.drop p.length → fine b) :
    L.Judged r₀.unread r₀.size r₀.src.last (fun _ => ()) (fun x => verdict (error (x.drop p.length)))
      (PieceInv error d good p h₀ r₀) := by
  have hattempt : ∀ h r, PieceInv error d good p h₀ r₀ h r → ∃ b h' mem n, (r₀.unread.take r.buf.length).drop p.length = b ∧
      r₀.unread = p ++ (b ++ r.src.items) ∧ L.parse h r.buf = (h', mem, match error b with
        | none => .ok n
        | some e => .error e) ∧ (AllGood good (fields d b) → h' = h ++ trailerEntries (fields d b)) ∧
      (error b = some .needMore → ∃ m, mem = p ++ m ∧ Recased d b m) := by
    intro h r hI
    obtain ⟨b, b', hbuf, hrec, ht, hb⟩ := hI.take
    have hcut : r₀.unread.drop p.length = b ++ r.src.items := by rw [ht, drop_left]
    obtain ⟨h', mem, n, hparse, hadds, hmem, -⟩ := hL.parse h b b' hrec (hcut ▸ hfold).left (hfine b ⟨_, hcut.symm⟩)
    exact ⟨b, h', mem, n, hb, ht, by rw [hbuf]; exact hparse, hadds, hmem⟩
  refine ⟨fun h r hI => ⟨hI.size, hI.length, hI.last⟩, ?_, ?_, ?_, ?_⟩
  · intro h r v hI hv
    have hnm : r.buf.length ≤ r₀.size := hI.size ▸ r.fits
    generalize r.buf.length = n at hnm hv
    obtain ⟨y, hy⟩ : (r₀.unread.take n).drop p.length <+: (r₀.unread.take r₀.size).drop p.length := by
      rw [drop_take, drop_take]
      exact take_prefix_take_left (by omega)
    have hne : error ((r₀.unread.take n).drop p.length) ≠ some .needMore := by
      intro hmore
      rw [hmore] at hv
      cases hv
    have hnofold : NoFold ((r₀.unread.take n).drop p.length ++ y) := by
      have hpre : (r₀.unread.take r₀.size).drop p.length <+: r₀.unread.drop p.length := by
        rw [drop_take]
        exact take_prefix _ _
      obtain ⟨z, hz⟩ := hpre
      rw [hy]
      rw [← hz] at hfold
      exact hfold.left
    rw [← hy, hL.stable _ y hnofold hne]
    exact hv
  · intro h r h' mem k hI hp
    obtain ⟨b, h₁, mem₁, n, hb, -, hparse, -⟩ := hattempt h r hI
    rw [hparse] at hp
    rw [hb]
    rcases herr : error b with _ | e
    · rfl
    · simp [herr] at hp
  · intro h r h' mem e hI hp hne
    obtain ⟨b, h₁, mem₁, n, hb, -, hparse, -⟩ := hattempt h r hI
    rw [hparse] at hp
    rw [hb]
    rcases herr : error b with _ | e'
    · simp [herr] at hp
    · rw [herr] at hp
      obtain ⟨-, -, rfl⟩ := hp
      rw [hL.more] at hne
      simp [verdict, hne]
  · intro h r h' mem hI hp
    obtain ⟨b, h₁, mem₁, n, hb, ht, hparse, hadds, hmem⟩ := hattempt h r hI
    have hlen : mem.length = r.buf.length := by
      have := hL.inPlace h r.buf
      rwa [hp] at this
    rw [hparse] at hp
    rcases herr : error b with _ | e'
    · simp [herr] at hp
    · rw [herr, hL.more] at hp
      obtain ⟨rfl, rfl, rfl⟩ := hp
      obtain ⟨m, hm, hrec⟩ := hmem herr
      refine ⟨by rw [hb, herr]; rfl, fun hroom hps => ?_⟩
      exact hI.step hb ht hlen hroom hps herr hadds hm hrec

theorem Attempts.block {b : Bytes} (hfold : NoFold b) (herr : error b = none) : ∃ b₀ y, b = b₀ ++ y ∧
    b₀.length = (text (lines b)).length + blankLen (behind b) ∧ error b₀ = none ∧ ∀ z, blockEnd (b ++ z) = some b₀.length := by
  obtain ⟨hgood, hend⟩ := (hL.ok_iff b hfold).mp herr
  obtain ⟨bl, z, hz, hlines, hbehind, hpos, hblock⟩ := blank_split (ending_blank hend)
  have hb : b = (text (lines b) ++ bl) ++ z := by rw [append_assoc, ← hz, text_lines]
  have hlen : blankLen (behind b) = bl.length := by
    have hblank := hblock []
    rw [append_nil, blockEnd_blank rfl hpos, Option.some.injEq] at hblank
    rw [hz, blankLen_append hpos, hblank]
  have hfold₀ : NoFold (text (lines b) ++ bl) := by
    rw [hb] at hfold
    exact hfold.left
  refine ⟨text (lines b) ++ bl, z, hb, by rw [length_append, hlen], ?_, fun y => ?_⟩
  · refine (hL.ok_iff _ hfold₀).mpr ⟨?_, ?_⟩
    · rw [fields, lines_text, hlines, append_nil]
      exact hgood
    · rw [behind_text, hbehind, ending, if_pos hpos]
  · conv_lhs => rw [hb]
    rw [append_assoc, append_assoc, blockEnd_text, hblock, length_append]
    rfl

structure TrailerRead (d : Bool) (good : Bytes → Bool) (p : Bytes) (h₀ : List ArgsKV) (r₀ : Reader Byte Err) (h : List ArgsKV)
    (r : Reader Byte Err) (e : Nat) (left : List ArgsKV) : Prop where
  blockEnd : blockEnd (r₀.unread.drop p.length) = some e
  fits : p.length + e ≤ r₀.size
  rest : r.unread.length + e = r₀.unread.length
  good : AllGood good (fields d (r₀.unread.drop p.length))
  list : h = h₀ ++ left ++ trailerEntries (fields d (r₀.unread.drop p.length))
  named : ∀ kv ∈ left, kv.key ≠ []
  left : left = [] ↔ ∀ n < p.length + e, r₀.Arrives n → Untouched d p r₀.unread n

theorem Attempts.ok {h' : List ArgsKV} {mem : Bytes} (hfold : NoFold (r₀.unread.drop p.length))
    (hfine : ∀ b, b <+: r₀.unread.drop p.length → fine b) (hI : PieceInv error d good p h₀ r₀ h r)
    (hp : L.parse h r.buf = (h', mem, .ok n)) : ∃ e left, TrailerRead d good p h₀ r₀ h' ((r.overwrite mem).discard n) e left := by
  obtain ⟨b, b', hbuf, hrec, ht, hb⟩ := hI.take
  have hcut : r₀.unread.drop p.length = b ++ r.src.items := by rw [ht, drop_left]
  have hfoldb : NoFold b := (hcut ▸ hfold).left
  obtain ⟨h₁, mem₁, n₁, hparse, hadds, -, hn⟩ := hL.parse h b b' hrec hfoldb (hfine b ⟨_, hcut.symm⟩)
  have hlen : mem.length = r.buf.length := by
    have := hL.inPlace h r.buf
    rwa [hp] at this
  rw [← hbuf, hp] at hparse
  rcases herr : error b with _ | e
  swap
  · simp [herr] at hparse
  rw [herr] at hparse
  obtain ⟨rfl, rfl, rfl⟩ := hparse
  obtain ⟨b₀, y, hcutb, hlen₀, herr₀, hblock⟩ := hL.block hfoldb herr
  obtain ⟨hgood, hend⟩ := (hL.ok_iff b hfoldb).mp herr
  obtain ⟨hfields, -⟩ := fields_stable (d := d) (hcut ▸ hfold) (by rw [hend]; simp)
  obtain ⟨left, rfl, hnames, hleft⟩ := hI.left (by rw [hb]; exact hgood)
  have hlenb : r.buf.length = p.length + (b₀.length + y.length) := by
    rw [hbuf, length_append, hrec.length, hcutb, length_append]
  refine ⟨b₀.length, left, ?_, ?_, ?_, ?_, ?_, hnames, ?_⟩
  · rw [hcut, hblock]
  · have := r.fits
    rw [← hI.size]
    omega
  · have hn₀ : n = b₀.length := by rw [hn herr, hlen₀]
    have hbuf' : (r.overwrite mem).buf.length = r.buf.length := by rw [r.overwrite_buf hlen, hlen]
    rw [Reader.discard_unread _ (by omega), length_drop, Reader.unread, length_append, ← hI.length,
      Reader.unread, length_append, Reader.overwrite_src]
    omega
  · rw [hcut, hfields]
    exact hgood
  · rw [hcut, hfields, hadds hgood]
  · rw [hleft]
    constructor
    · intro h n hlt hn
      exact h n hn (by omega)
    · intro h n hn hlt
      refine h n ?_ hn
      -- an attempt on the complete trailer would have been the last
      by_contra hge
      have hundecided := hI.undecided n hn hlt
      obtain ⟨k, rfl⟩ : ∃ k, n = p.length + (b₀.length + k) := ⟨n - p.length - b₀.length, by omega⟩
      have hfront : (r₀.unread.take (p.length + (b₀.length + k))).drop p.length = b₀ ++ (y ++ r.src.items).take k := by
        rw [drop_take, hcut, hcutb, Nat.add_sub_cancel_left, append_assoc, take_length_add_append]
      have hnofold : NoFold (b₀ ++ (y ++ r.src.items).take k) := by
        rw [← hfront, drop_take]
        rw [← take_append_drop (p.length + (b₀.length + k) - p.length) (r₀.unread.drop p.length)] at hfold
        exact hfold.left
      rw [hfront, hL.stable b₀ _ hnofold (by rw [herr₀]; simp), herr₀] at hundecided
      cases hundecided

theorem Attempts.read {r₁ : Reader Byte Err} (hfold : NoFold (r₀.unread.drop p.length))
    (hfine : ∀ b, b <+: r₀.unread.drop p.length → fine b) (hI : PieceInv error d good p h₀ r₀ h₀ r₁) (hu : r₁.unread = r₀.unread)
    (hne : r₁.buf ≠ []) :
    outcome (fun _ => ()) (L.read h₀ r₁) = (verdict (error ((r₀.unread.take r₀.size).drop p.length))).getD
      (.error (if r₀.size ≤ r₀.unread.length then L.full else L.ended r₀.src.last)) ∧
    ((L.read h₀ r₁).1 = none → ∃ e left, TrailerRead d good p h₀ r₀ (L.read h₀ r₁).2.1 (L.read h₀ r₁).2.2 e left) := by
  have hJ : L.Judged r₀.unread r₀.size r₀.src.last (fun _ => ()) (fun x => verdict (error (x.drop p.length)))
      (PieceInv error d good p h₀ r₀) := hL.judged hfold hfine
  constructor
  · refine read_judged hJ hL.inPlace h₀ r₁ hI.size hu hI.last ?_ (fun _ => hI) fun hb => absurd hb hne
    rw [drop_nil, hL.start]
    rfl
  · have hrule : L.Rule (PieceInv error d good p h₀ r₀) fun out h r => out = none →
      ∃ e left, TrailerRead d good p h₀ r₀ h r e left := by
      refine ⟨?_, ?_, ?_, ?_, fun h r h' mem hI hp => (hJ.more h r h' mem hI hp).2⟩
      · intro h r h' mem k hI hp _
        exact hL.ok hfold hfine hI hp
      all_goals
        simp_all
    exact read_rule hrule hL.inPlace h₀ r₁ (fun _ => hI) (fun hb => absurd hb hne) fun hb => absurd hb hne

omit hL in
theorem pieceInv_start (hp : p <+: r.buf) (h : List ArgsKV) : PieceInv error d good p h r h r := by
  obtain ⟨b, hb⟩ := hp
  refine ⟨rfl, rfl, ⟨b, b, hb.symm, Recased.refl _ _, ?_⟩, r.ahead_self, ?_, fun _ => ⟨[], by simp, by simp, ?_⟩⟩
  · rw [Reader.unread, ← hb, append_assoc]
  · intro n hn hlt
    have := hn.le
    omega
  · refine iff_of_true rfl fun n hn hlt => ?_
    have := hn.le
    omega

omit hL in
theorem untouched_short {t : Bytes} (hn : n < 2) (d : Bool) (p : Bytes) : Untouched d p t n := by
  have hlines : lines ((t.take n).drop p.length) = [] := by
    rcases hl : lines ((t.take n).drop p.length) with _ | ⟨l, ls⟩
    · rfl
    · have hlen := congrArg List.length (text_lines ((t.take n).drop p.length))
      rw [hl] at hlen
      simp only [text_cons, Line.text, length_append, length_cons, length_drop, length_take] at hlen
      omega
  rw [Untouched, fields, hlines]
  rfl

theorem Attempts.readTrailer (h₀ : List ArgsKV) (hge : 2 ≤ r.unread.length) (hcrlf : r.unread.take 2 ≠ strCRLF)
    (hp : p <+: (r.fillTo 2).buf) (hfold : NoFold (r.unread.drop p.length)) (hfine : ∀ b, b <+: r.unread.drop p.length → fine b) :
    outcome (fun _ => ()) (readTrailerWith L h₀ r) = (verdict (error ((r.unread.take r.size).drop p.length))).getD
      (.error (if r.size ≤ r.unread.length then L.full else L.ended r.src.last)) ∧
    ((readTrailerWith L h₀ r).1 = none →
      ∃ e left, TrailerRead d good p h₀ r (readTrailerWith L h₀ r).2.1 (readTrailerWith L h₀ r).2.2 e left) := by
  have hleast := r.least
  obtain ⟨hpeek, hbuf⟩ := Reader.peek_fillTo hge (by omega)
  have hl := r.fillTo_leaves 2
  obtain ⟨hahead, hfirst⟩ := r.fillTo_ahead 2
  have hread : readTrailerWith L h₀ r = L.read h₀ (r.fillTo 2) := by simp [readTrailerWith, hpeek, hcrlf]
  have hne : (r.fillTo 2).buf ≠ [] := by
    rw [← length_pos_iff]
    omega
  obtain ⟨hout, hok⟩ := hL.read (hl.unread ▸ hfold) (hl.unread ▸ hfine) (pieceInv_start hp h₀) rfl hne
  rw [hl.unread, hl.size, hl.last] at hout
  rw [hread]
  refine ⟨hout, fun hnone => ?_⟩
  obtain ⟨e, left, hT⟩ := hok hnone
  have hfits : p.length + e ≤ r.size := hl.size ▸ hT.fits
  refine ⟨e, left, hl.unread ▸ hT.blockEnd, hfits, hl.unread ▸ hT.rest, hl.unread ▸ hT.good, hl.unread ▸ hT.list, hT.named, ?_⟩
  rw [hT.left, hl.unread]
  -- the arrivals of which the peek makes one leave no trace
  refine forall₂_congr fun n hlt => ?_
  have hsize : (r.fillTo 2).size = r.size := hl.size
  constructor
  · intro h hn
    by_cases hle : (r.fillTo 2).buf.length ≤ n
    · exact h ((hahead (by omega) n).mpr ⟨hn, hle⟩)
    · exact untouched_short (hfirst n hn (by omega)) d p
  · intro h hn
    have hle := hn.le
    exact h ((hahead (by omega) n).mp hn).1

end Pieces

end Fasthttp
