import Fasthttp.Header.Response
import Fasthttp.Header.Stable
import Fasthttp.Header.Plain
import Fasthttp.Lib.Taking

/-!
# Trailers

`ReadTrailer` of `header.go`, for requests and for responses.
-/

namespace Fasthttp

open Scanner Bufio List

variable {d : Bool} {r : Reader Byte Err}

def hasBlank (key : Bytes) : Bool := key.contains spChar || key.contains tabChar

def readTrailerWith (loop : Retry.Loop (List ArgsKV) Byte Err) (h : List ArgsKV) (r : Reader Byte Err) :
    Option Err × List ArgsKV × Reader Byte Err :=
  match r.peek 2 with
  | (.all b, r) => if b = strCRLF then (none, h, r.discard 2) else loop.read h r
  | (.short _ e, r) => (some (if e = .eof then .unexpectedTrailerEOF else e), h, r)
  | (.full _, r) => (some .bufferFull, h, r)

namespace RequestHeader

def trailerField (h : List ArgsKV) (key value : Bytes) : List ArgsKV × Option Err :=
  if key.isEmpty then (h, none)
  else if hasBlank key then (h, some (.trailerKey "invalid trailer key" key))
  else (appendArg h key value false, none)

def parseTrailer (disableNormalizing : Bool) (h : List ArgsKV) (buf : Bytes) : List ArgsKV × Bytes × Except Err Nat :=
  match scanAll trailerField (Scanner.new buf disableNormalizing) h with
  | (h, s, some e) => (h, s.mem, .error e)
  | (h, s, none) => (h, s.mem, .ok s.hLen)

def trailerLoop (disableNormalizing : Bool) : Retry.Loop (List ArgsKV) Byte Err where
  parse := parseTrailer disableNormalizing
  more := .needMore
  ended e := if e = .eof then .unexpectedTrailerEOF else if e = .bufferFull then .trailerHeaderBufferSmall else e
  full := .trailerHeaderBufferSmall

def readTrailer (h : RequestHeader) (r : Reader Byte Err) : Option Err × RequestHeader × Reader Byte Err :=
  let t := readTrailerWith (trailerLoop h.disableNormalizing) h.h r
  (t.1, { h with h := t.2.1 }, t.2.2)

end RequestHeader

namespace ResponseHeader

/-- The loop body of `parseTrailer`: a bad field is skipped, and the error kept. -/
def trailerField (h : List ArgsKV × Option Err) (key value : Bytes) : (List ArgsKV × Option Err) × Option Err :=
  if key.isEmpty then (h, none)
  else if hasBlank key then ((h.1, some (.trailerKey "invalid trailer key" key)), none)
  else if isBadTrailer key false then ((h.1, some (.trailerKey "forbidden trailer key" key)), none)
  else ((appendArg h.1 key value false, h.2), none)

/-- The three bytes of a further chunk of size zero are skipped, but not counted. -/
def parseTrailer (disableNormalizing : Bool) (h : List ArgsKV) (buf : Bytes) : List ArgsKV × Bytes × Except Err Nat :=
  let skip := if buf.head? = some (ch '0') then strCRLF.length + 1 else 0
  if buf.length < skip then (h, buf, .error .eof)
  else
    match scanAll trailerField (Scanner.new (buf.drop skip) disableNormalizing) (h, none) with
    | (h, s, some e) => (h.1, buf.take skip ++ s.mem, .error e)
    | (h, s, none) =>
      match h.2 with
      | some e => (h.1, buf.take skip ++ s.mem, .error e)
      | none => (h.1, buf.take skip ++ s.mem, .ok s.hLen)

def trailerLoop (disableNormalizing : Bool) : Retry.Loop (List ArgsKV) Byte Err where
  parse := parseTrailer disableNormalizing
  more := .needMore
  ended e := if e = .eof then .unexpectedHeaderEOF else if e = .bufferFull then .headerBufferSmall else e
  full := .headerBufferSmall

def readTrailer (h : ResponseHeader) (r : Reader Byte Err) : Option Err × ResponseHeader × Reader Byte Err :=
  let t := readTrailerWith (trailerLoop h.disableNormalizing) h.h r
  (t.1, { h with h := t.2.1 }, t.2.2)

end ResponseHeader

/-! ## Entries are added to the end -/

theorem Scanner.scan_map {σ : Type} {body : σ → Bytes → Bytes → σ × Option Err} {φ : σ → σ}
    (hφ : ∀ h k v, body (φ h) k v = (φ (body h k v).1, (body h k v).2)) (fuel : Nat) (s : Scanner) (h : σ) :
    scan body fuel s (φ h) = (φ (scan body fuel s h).1, (scan body fuel s h).2) := by
  induction fuel generalizing s h with
  | zero => rfl
  | succ fuel ih =>
    rcases hn : s.next with ⟨_ | _, s'⟩
    · simp [scan, hn]
    · simp only [scan, hn, hφ]
      rcases hb : body h s'.key s'.value with ⟨h', _ | e⟩
      · exact ih s' h'
      · rfl

namespace RequestHeader

theorem parseTrailer_append (d : Bool) (pre h : List ArgsKV) (b : Bytes) :
    parseTrailer d (pre ++ h) b = (pre ++ (parseTrailer d h b).1, (parseTrailer d h b).2) := by
  have hbody : ∀ h k v, trailerField (pre ++ h) k v = (pre ++ (trailerField h k v).1, (trailerField h k v).2) := by
    intro h k v
    unfold trailerField
    split
    · rfl
    · split
      · rfl
      · simp [appendArg]
  have hscan := scan_map hbody ((Scanner.new b d).b.length + 1) (Scanner.new b d) h
  unfold parseTrailer scanAll
  rw [hscan]
  rcases scan trailerField ((Scanner.new b d).b.length + 1) (Scanner.new b d) h with ⟨h', s', _ | e⟩ <;> rfl

end RequestHeader

/-! ## Trailers without folded lines -/

theorem readTrailerWith_crlf (L : Retry.Loop (List ArgsKV) Byte Err) (h : List ArgsKV) {t : Bytes}
    (ht : r.unread = rChar :: nChar :: t) :
    ∃ r', readTrailerWith L h r = (none, h, r') ∧ r.Leaves t r' := by
  have hleast := r.least
  obtain ⟨r', hp, hl, hbuf⟩ := Reader.peek_there (n := 2) (by simp [ht] : 2 ≤ r.unread.length) (by omega)
  refine ⟨r'.discard 2, ?_, hl.size, hl.last, ?_⟩
  · simp only [readTrailerWith, hp, ht]
    rfl
  · rw [r'.discard_unread hbuf, hl.unread, ht]
    rfl

structure PlainLoop (L : Retry.Loop (List ArgsKV) Byte Err) (d : Bool) (fine : Bytes → Prop) : Prop where
  more : L.more = .needMore
  ended : ∀ e, L.ended e ≠ .eof
  full : L.full ≠ .eof
  inPlace : L.InPlace
  ok : ∀ h b b' h' mem n, Recased d b b' → NoFold b → fine b → L.parse h b' = (h', mem, .ok n) →
    Recased d b mem ∧ ending (behind b) = none ∧ n = (text (lines b)).length + blankLen (behind b)
  error : ∀ h b b' h' mem e, Recased d b b' → NoFold b → fine b → L.parse h b' = (h', mem, .error e) →
    e ≠ .eof ∧ (e = .needMore → Recased d b mem)

structure TrailerInv (d : Bool) (r₀ r : Reader Byte Err) : Prop where
  size : r.size = r₀.size
  last : r.src.last = r₀.src.last
  buf : ∃ b, Recased d b r.buf ∧ r₀.unread = b ++ r.src.items

theorem TrailerInv.fetch {r₀ : Reader Byte Err} (hI : TrailerInv d r₀ r) : TrailerInv d r₀ r.fetch := by
  obtain ⟨b, hrec, hu⟩ := hI.buf
  refine ⟨hI.size, hI.last, b ++ r.src.chunk (r.size - r.buf.length), hrec.append _, ?_⟩
  rw [hu, append_assoc]
  simp [Reader.fetch, r.src.chunk_append_rest]

theorem ending_blank {b : Bytes} (h : ending b = none) : 0 < blankLen b := by
  by_contra h0
  rw [ending, if_neg h0] at h
  split at h <;> simp at h

variable {L : Retry.Loop (List ArgsKV) Byte Err}

theorem TrailerInv.ok {fine : Bytes → Prop} {r₀ : Reader Byte Err}
    {h h' : List ArgsKV} {mem : Bytes} {n : Nat} (hL : PlainLoop L d fine) (hfold : NoFold r₀.unread)
    (hfine : ∀ b, b <+: r₀.unread → fine b) (hI : TrailerInv d r₀ r) (hp : L.parse h r.buf = (h', mem, .ok n)) :
    ∃ e, blockEnd r₀.unread = some e ∧ r₀.Leaves (r₀.unread.drop e) ((r.overwrite mem).discard n) := by
  obtain ⟨b, hrec, hu⟩ := hI.buf
  have hfold' : NoFold b := (hu ▸ hfold).left
  obtain ⟨hmem, hend, rfl⟩ := hL.ok h b r.buf h' mem n hrec hfold' (hfine b ⟨_, hu.symm⟩) hp
  have hblank := ending_blank hend
  obtain ⟨ls', hm, -, hlen⟩ := hmem.lines
  have hmlen : mem.length = r.buf.length := by rw [hmem.length, hrec.length]
  have hle := blankLen_le (behind b)
  have hb : r₀.unread = text (lines b) ++ (behind b ++ r.src.items) := by
    rw [hu, ← append_assoc, text_lines]
  refine ⟨(text (lines b)).length + blankLen (behind b), ?_, hI.size, hI.last, ?_⟩
  · rw [hb, blockEnd_text, blockEnd_blank (blankLen_append hblank _) hblank]
    rfl
  · rw [Reader.discard_unread]
    · have hskip : ∀ x y : Bytes, (x ++ y).drop (x.length + blankLen (behind b)) = y.drop (blankLen (behind b)) :=
        fun x y => drop_length_add_append _
      rw [Reader.unread, Reader.overwrite_buf r hmlen, Reader.overwrite_src, hm, hb, append_assoc, hskip,
        ← hlen, hskip]
    · rw [Reader.overwrite_buf r hmlen, hm]
      simp only [length_append]
      omega

theorem readTrailerWith_plain {fine : Bytes → Prop}
    (hL : PlainLoop L d fine) (h : List ArgsKV) (hfold : NoFold r.unread)
    (hfine : ∀ b, b <+: r.unread → fine b) :
    (readTrailerWith L h r).1 ≠ some .eof ∧ ((readTrailerWith L h r).1 = none →
      ∃ e, blockEnd r.unread = some e ∧ r.Leaves (r.unread.drop e) (readTrailerWith L h r).2.2) := by
  have hleast := r.least
  rcases Nat.lt_or_ge r.unread.length 2 with hlt | hge
  · obtain ⟨r', hp, -⟩ := Reader.peek_short hlt (by omega)
    simp only [readTrailerWith, hp, reduceCtorEq, false_imp_iff, and_true, ne_eq, Option.some.injEq]
    split
    · simp
    · assumption
  obtain ⟨r', hp, hl, hbuf⟩ := Reader.peek_there hge (by omega)
  by_cases hcrlf : r.unread.take 2 = strCRLF
  · have hread : readTrailerWith L h r = (none, h, r'.discard 2) := by
      simp [readTrailerWith, hp, hcrlf]
    have hblank : blankLen r.unread = 2 := by rw [blankLen, if_pos hcrlf]
    rw [hread]
    refine ⟨by simp, fun _ => ⟨2, blockEnd_blank hblank (by omega), hl.size, hl.last, ?_⟩⟩
    rw [r'.discard_unread hbuf, hl.unread]
  have hread : readTrailerWith L h r = L.read h r' := by simp [readTrailerWith, hp, hcrlf]
  rw [hread]
  have hstart : TrailerInv d r r' := ⟨hl.size, hl.last, r'.buf, Recased.refl _ _, hl.unread.symm⟩
  have hne : r'.buf ≠ [] := by
    rw [← length_pos_iff]
    omega
  have hrule : L.Rule (fun _ => TrailerInv d r) (fun out _ r₁ => out ≠ some .eof ∧ (out = none →
      ∃ e, blockEnd r.unread = some e ∧ r.Leaves (r.unread.drop e) r₁)) := by
    have hnofold : ∀ {b : Bytes} {y : Bytes}, r.unread = b ++ y → NoFold b := fun hu => (hu ▸ hfold).left
    refine ⟨?_, ?_, ?_, ?_, ?_⟩
    · intro s r₁ s' mem k hI hparse
      exact ⟨by simp, fun _ => hI.ok hL hfold hfine hparse⟩
    · intro s r₁ s' mem e hI hparse _
      obtain ⟨b, hrec, hu⟩ := hI.buf
      have := (hL.error s b _ s' mem e hrec (hnofold hu) (hfine b ⟨_, hu.symm⟩) hparse).1
      exact ⟨by simpa using this, by simp⟩
    · intro s r₁ s' mem hI hparse _
      exact ⟨by simpa using hL.full, by simp⟩
    · intro s r₁ s' mem hI hparse _ _
      exact ⟨by simpa using hL.ended _, by simp⟩
    · intro s r₁ s' mem hI hparse _ _
      obtain ⟨b, hrec, hu⟩ := hI.buf
      have hmem := (hL.error s b _ s' mem _ hrec (hnofold hu) (hfine b ⟨_, hu.symm⟩) hparse).2 hL.more
      have hlen : mem.length = r₁.buf.length := by rw [hmem.length, hrec.length]
      have hI' : TrailerInv d r (r₁.overwrite mem) :=
        ⟨hI.size, hI.last, b, by rw [r₁.overwrite_buf hlen]; exact hmem, hu⟩
      exact hI'.fetch
  exact Retry.Loop.read_rule hrule hL.inPlace h r' (fun _ => hstart) (fun hb => absurd hb hne) (fun hb => absurd hb hne)

theorem ending_error {b : Bytes} {e : Err} (h : ending b = some e) : e ≠ .eof := by
  rintro rfl
  unfold ending at h
  split at h
  · simp at h
  · split at h <;> simp at h

namespace RequestHeader

theorem trailerField_error {h : List ArgsKV} {k v : Bytes} {e : Err} (he : (trailerField h k v).2 = some e) :
    e ≠ .eof ∧ e ≠ .needMore := by
  unfold trailerField at he
  split at he
  · simp at he
  · split at he
    · simp only [Option.some.injEq] at he
      subst he
      simp
    · simp at he

theorem feed_trailerField_error {h : List ArgsKV} {fs : List (Bytes × Bytes)} {e : Err}
    (he : (feed trailerField h fs).2 = some e) : e ≠ .eof ∧ e ≠ .needMore := by
  induction fs generalizing h with
  | nil => simp [feed] at he
  | cons f fs ih =>
    rcases hb : trailerField h f.1 f.2 with ⟨h', _ | e'⟩
    · simp only [feed, hb] at he
      exact ih he
    · simp only [feed, hb, Option.some.injEq] at he
      subst he
      exact trailerField_error (by rw [hb])

theorem trailerLoop_plain (d : Bool) : PlainLoop (trailerLoop d) d (fun _ => True) := by
  refine ⟨rfl, fun e => ?_, by simp [trailerLoop], fun h b => ?_, ?_, ?_⟩
  · simp only [trailerLoop]
    split
    · simp
    · split
      · simp
      · assumption
  · have := scanAll_mem_length trailerField (Scanner.new b d) h
    simp only [trailerLoop, parseTrailer]
    rcases hscan : scanAll trailerField (Scanner.new b d) h with ⟨h', s', _ | e⟩ <;>
      · simp only [hscan] at this ⊢
        rw [this]
        simp [Scanner.mem, Scanner.new]
  · intro h b b' h' mem n hrec hfold _ hp
    obtain ⟨s', hscan, hmem⟩ := scanAll_recased trailerField (behind_final hfold) hrec h
    simp only [trailerLoop, parseTrailer, hscan] at hp
    rcases hfed : (feed trailerField h (fields d b)).2 with _ | e
    · rw [hfed] at hp
      obtain ⟨hm, hlen⟩ := hmem hfed
      rcases hend : ending (behind b) with _ | e
      · rw [hend] at hp
        obtain ⟨-, rfl, rfl⟩ := hp
        exact ⟨hm, rfl, hlen hend⟩
      · simp [hend] at hp
    · simp [hfed] at hp
  · intro h b b' h' mem e hrec hfold _ hp
    obtain ⟨s', hscan, hmem⟩ := scanAll_recased trailerField (behind_final hfold) hrec h
    simp only [trailerLoop, parseTrailer, hscan] at hp
    rcases hfed : (feed trailerField h (fields d b)).2 with _ | e'
    · rw [hfed] at hp
      rcases hend : ending (behind b) with _ | e'
      · simp [hend] at hp
      · rw [hend] at hp
        obtain ⟨-, rfl, rfl⟩ := hp
        exact ⟨ending_error hend, fun _ => (hmem hfed).1⟩
    · rw [hfed] at hp
      obtain ⟨-, -, rfl⟩ := hp
      obtain ⟨h1, h2⟩ := feed_trailerField_error hfed
      exact ⟨h1, fun h0 => absurd h0 h2⟩

end RequestHeader

namespace ResponseHeader

theorem trailerField_ok (h : List ArgsKV × Option Err) (k v : Bytes) : (trailerField h k v).2 = none := by
  unfold trailerField
  split
  · rfl
  · split
    · rfl
    · split <;> rfl

theorem feed_trailerField_ok (h : List ArgsKV × Option Err) (fs : List (Bytes × Bytes)) :
    (feed trailerField h fs).2 = none := by
  induction fs generalizing h with
  | nil => rfl
  | cons f fs ih =>
    have hb := trailerField_ok h f.1 f.2
    rcases hf : trailerField h f.1 f.2 with ⟨h', e⟩
    rw [hf] at hb
    subst hb
    simp only [feed, hf]
    exact ih h'

theorem kept_error {h h' : List ArgsKV × Option Err} {fs : List (Bytes × Bytes)} {e : Err}
    (hf : feed trailerField h fs = (h', none)) (he : h'.2 = some e) (h0 : h.2 = some e → e ≠ .eof ∧ e ≠ .needMore) :
    e ≠ .eof ∧ e ≠ .needMore := by
  induction fs generalizing h with
  | nil =>
    simp only [feed, Prod.mk.injEq] at hf
    exact h0 (hf.1 ▸ he)
  | cons f fs ih =>
    have hb := trailerField_ok h f.1 f.2
    rcases hone : trailerField h f.1 f.2 with ⟨h₁, e'⟩
    rw [hone] at hb
    subst hb
    simp only [feed, hone] at hf
    refine ih hf fun h1 => ?_
    unfold trailerField at hone
    split at hone
    · simp only [Prod.mk.injEq, and_true] at hone
      exact h0 (hone ▸ h1)
    · split at hone
      · simp only [Prod.mk.injEq, and_true] at hone
        subst hone
        simp only [Option.some.injEq] at h1
        subst h1
        simp
      · split at hone
        · simp only [Prod.mk.injEq, and_true] at hone
          subst hone
          simp only [Option.some.injEq] at h1
          subst h1
          simp
        · simp only [Prod.mk.injEq, and_true] at hone
          subst hone
          exact h0 h1

theorem upper_zero (c : Byte) : toUpperTable c = ch '0' ↔ c = ch '0' := by
  revert c; exact forall_byte (by decide +kernel)

theorem initHeaderK_head_zero (k : Bytes) (d : Bool) : (initHeaderK k d).head? = some (ch '0') ↔ k.head? = some (ch '0') := by
  unfold initHeaderK
  split
  · rfl
  · cases k with
    | nil => rfl
    | cons c k => simp [normalizeHeaderKeyV2, upper_zero]

theorem recased_head_zero {d : Bool} {b b' : Bytes} (h : Recased d b b') (h0 : b.head? ≠ some (ch '0')) :
    b'.head? ≠ some (ch '0') := by
  obtain ⟨ls, ls', z, rfl, rfl, he, -⟩ := h
  rcases ls with _ | ⟨l, ls⟩ <;> rcases ls' with _ | ⟨l', ls'⟩ <;> simp only [map_nil, map_cons, reduceCtorEq] at he
  · exact h0
  · obtain ⟨hl, -⟩ := List.cons.inj he
    have hk : initHeaderK l'.k d = initHeaderK l.k d := congrArg Prod.fst hl
    have hlen : l'.k.length = l.k.length := by
      have := congrArg List.length hk
      rwa [initHeaderK_length, initHeaderK_length] at this
    have hhead : ∀ m : Line, ∀ x, (text (m :: x) ++ z).head? = m.k.head?.or (some colonChar) := by
      intro m x
      rw [text_cons, Line.text_append]
      cases m.k <;> simp
    rw [hhead] at h0 ⊢
    have hzero := initHeaderK_head_zero l.k d
    rw [← hk, initHeaderK_head_zero] at hzero
    rcases hkl : l.k with _ | ⟨c, k⟩ <;> rcases hkl' : l'.k with _ | ⟨c', k'⟩ <;> simp_all

theorem trailerLoop_plain (d : Bool) : PlainLoop (trailerLoop d) d (fun b => b.head? ≠ some (ch '0')) := by
  have hparse : ∀ h b b', Recased d b b' → b.head? ≠ some (ch '0') →
      (trailerLoop d).parse h b' = match scanAll trailerField (Scanner.new b' d) (h, none) with
        | (h, s, some e) => (h.1, s.mem, .error e)
        | (h, s, none) =>
          match h.2 with
          | some e => (h.1, s.mem, .error e)
          | none => (h.1, s.mem, .ok s.hLen) := by
    intro h b b' hrec h0
    have := recased_head_zero hrec h0
    simp only [trailerLoop, parseTrailer, this, if_false]
    rw [if_neg (by omega)]
    simp only [drop_zero, take_zero, nil_append]
  refine ⟨rfl, fun e => ?_, by simp [trailerLoop], fun h b => ?_, ?_, ?_⟩
  · simp only [trailerLoop]
    split
    · simp
    · split
      · simp
      · assumption
  · simp only [trailerLoop, parseTrailer]
    generalize (if b.head? = some (ch '0') then strCRLF.length + 1 else 0) = skip
    split
    · rfl
    · have hlen := scanAll_mem_length trailerField (Scanner.new (b.drop skip) d) (h, none)
      have hnew : (Scanner.new (b.drop skip) d).mem.length = b.length - skip := by simp [Scanner.mem, Scanner.new]
      rcases hscan : scanAll trailerField (Scanner.new (b.drop skip) d) (h, none) with ⟨⟨h', _ | e'⟩, s', _ | e⟩ <;>
        · rw [hscan] at hlen
          simp only [length_append, length_take] at hlen ⊢
          omega
  · intro h b b' h' mem n hrec hfold h0 hp
    obtain ⟨s', hscan, hmem⟩ := scanAll_recased trailerField (behind_final hfold) hrec (h, none)
    rw [hparse h b b' hrec h0, hscan, feed_trailerField_ok, Option.none_or] at hp
    obtain ⟨hm, hlen⟩ := hmem (feed_trailerField_ok _ _)
    rcases hend : ending (behind b) with _ | e
    · rw [hend] at hp
      simp only at hp
      split at hp
      · simp at hp
      · obtain ⟨-, rfl, rfl⟩ := hp
        exact ⟨hm, rfl, hlen hend⟩
    · simp [hend] at hp
  · intro h b b' h' mem e hrec hfold h0 hp
    obtain ⟨s', hscan, hmem⟩ := scanAll_recased trailerField (behind_final hfold) hrec (h, none)
    have hfed := feed_trailerField_ok (h, none) (fields d b)
    rw [hparse h b b' hrec h0, hscan, hfed, Option.none_or] at hp
    rcases hend : ending (behind b) with _ | e'
    · rw [hend] at hp
      simp only at hp
      split at hp
      · rename_i hkept
        obtain ⟨-, -, rfl⟩ := hp
        obtain ⟨h1, h2⟩ := kept_error (Prod.ext rfl hfed) hkept (by simp)
        exact ⟨h1, fun h3 => absurd h3 h2⟩
      · simp at hp
    · rw [hend] at hp
      obtain ⟨-, rfl, rfl⟩ := hp
      exact ⟨ending_error hend, fun _ => (hmem hfed).1⟩

end ResponseHeader

end Fasthttp
