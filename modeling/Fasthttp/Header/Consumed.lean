import Fasthttp.Header.Edited
import Fasthttp.Header.Attempt

/-!
# What reading a header consumes

A read that succeeds consumes exactly the header when no line of its block is folded.
-/

namespace Fasthttp

open Scanner Bufio List

variable {b : Bytes}

/-! ## A stream whose header is edited -/

structure SameLine (t u : Bytes) : Prop where
  size : u.length = t.length
  line : u.take (lineEnd t) = t.take (lineEnd t)
  none : nChar ∉ t → u = t

structure Shorter (w w' : Bytes) : Prop where
  fold : ¬NoFold w
  ends : ∃ k j, blockEnd w = some k ∧ blockEnd w' = some j ∧ j < k

theorem SameLine.refl (t : Bytes) : SameLine t t := ⟨rfl, rfl, fun _ => rfl⟩

theorem SameLine.buffer {t y : Bytes} (h : SameLine t (b ++ y)) (hn : nChar ∈ b) :
    nChar ∈ t ∧ lineEnd b = lineEnd t := by
  have ht : nChar ∈ t := by
    by_contra h0
    exact h0 (h.none h0 ▸ by simp [hn])
  exact ⟨ht, by rw [← lineEnd_append hn y]; exact lineEnd_take ht h.line⟩

theorem SameLine.edit {t y m : Bytes} (h : SameLine t (b ++ y)) (hn : nChar ∈ b)
    (hm : m.length = (b.drop (lineEnd b)).length) :
    SameLine t (b.take (lineEnd b) ++ m ++ y) ∧
      (b.take (lineEnd b) ++ m ++ y).drop (lineEnd t) = m ++ y ∧
      (b ++ y).drop (lineEnd t) = b.drop (lineEnd b) ++ y := by
  obtain ⟨ht, hl⟩ := h.buffer hn
  have hle := lineEnd_le b
  have htake : (b.take (lineEnd b)).length = lineEnd t := by simp only [length_take]; omega
  have hdrop : (b ++ y).drop (lineEnd t) = b.drop (lineEnd b) ++ y := by
    rw [← hl, drop_append_of_le_length hle]
  refine ⟨⟨?_, ?_, fun h0 => absurd ht h0⟩, ?_, hdrop⟩
  · have := h.size
    simp only [length_append, length_drop, hm] at this ⊢
    omega
  · have hline := h.line
    rw [← hl, take_append_of_le_length hle, hl] at hline
    rw [append_assoc, take_left' htake, ← hline, hl]
  · rw [append_assoc, drop_left' htake]

theorem overwrite_unread (r : Reader Byte Err) (h : b.length = r.buf.length) :
    (r.overwrite b).unread = b ++ r.src.items := by
  rw [Reader.unread, Reader.overwrite_buf r h]
  rfl

theorem success_unread {σ : Type} {body : σ → Bytes → Bytes → σ × Option Err} (hbody : Strict body) {r : Reader Byte Err} {d : Bool}
    {h h' : σ} {s' : Scanner} (hscan : scanAll body (Scanner.new (r.buf.drop (lineEnd r.buf)) d) h = (h', s', none)) :
    ∃ k stale, blockEnd (r.buf.drop (lineEnd r.buf)) = some k ∧
      ((r.overwrite (r.buf.take (lineEnd r.buf) ++ s'.mem)).discard (lineEnd r.buf + s'.hLen)).unread
        = (r.buf.drop (lineEnd r.buf)).drop k ++ stale ++ r.src.items ∧
      (stale = [] ↔ NoFold (r.buf.drop (lineEnd r.buf))) ∧
      s'.hLen + stale.length = k ∧ s'.b.length + k = (r.buf.drop (lineEnd r.buf)).length := by
  obtain ⟨q, e, d, hend, hb, hh, hpre, hsize, ⟨stale, hpost, hd⟩, hfold⟩ := scanAll_success hbody (new_fresh _ _) hscan
  have hle := lineEnd_le r.buf
  have hke : e ≤ _ := blockEnd_le hend
  simp only [Scanner.new] at hb hh hpre hpost hend hke hfold
  have hmem : s'.mem = q ++ ((r.buf.drop (lineEnd r.buf)).drop e ++ stale) := by
    simp [Scanner.mem, hpre, hb, hpost]
  have hlen : (r.buf.take (lineEnd r.buf) ++ s'.mem).length = r.buf.length := by
    rw [hmem]
    simp only [length_append, length_take, length_drop] at hke ⊢
    omega
  refine ⟨e, stale, hend, ?_, by rw [← hfold, ← hd, length_eq_zero_iff], by omega, by rw [hb, length_drop]; omega⟩
  rw [Reader.discard_unread, overwrite_unread r hlen, hmem]
  · have hassoc : r.buf.take (lineEnd r.buf) ++ (q ++ ((r.buf.drop (lineEnd r.buf)).drop e ++ stale)) ++ r.src.items
        = (r.buf.take (lineEnd r.buf) ++ q) ++ ((r.buf.drop (lineEnd r.buf)).drop e ++ stale ++ r.src.items) := by
      simp
    rw [hassoc, drop_left']
    simp only [length_append, length_take]
    omega
  · rw [Reader.overwrite_buf r hlen]
    simp only [length_drop] at hke
    omega

/-! ## Requests -/

namespace RequestHeader

variable {h h' : RequestHeader} {mem t : Bytes} {r : Reader Byte Err}

structure ReadInv (t : Bytes) (h : RequestHeader) (r : Reader Byte Err) : Prop where
  kept : h.LineKept r.buf
  line : SameLine t r.unread
  block : Edited (t.drop (lineEnd t)) (r.unread.drop (lineEnd t)) ∨
    Shorter (t.drop (lineEnd t)) (r.unread.drop (lineEnd t))

theorem LineKept.mono {b b' : Bytes} (hk : h.LineKept b) (hb : b <+: b') :
    h.LineKept b' := by
  obtain ⟨y, rfl⟩ := hb
  refine hk.imp_right fun ⟨hn, hl⟩ => ⟨by simp [hn], ?_⟩
  rw [lineEnd_append hn, hl]

theorem ReadInv.more (hsmall : lineEnd t < 2 ^ 31) (hI : ReadInv t h r)
    (hp : h.parse r.buf = (h', mem, .error .needMore)) : ReadInv t h' (r.overwrite mem) := by
  have hlen : mem.length = r.buf.length := by
    have := parse_inPlace h r.buf
    simp only [loop, hp] at this
    exact this
  have hbuf : (r.overwrite mem).buf = mem := r.overwrite_buf hlen
  have hu : (r.overwrite mem).unread = mem ++ r.src.items := overwrite_unread r hlen
  have hline := hI.line
  have hblock := hI.block
  rw [Reader.unread] at hline hblock
  have hsmallb : lineEnd r.buf < 2 ^ 31 := by
    by_cases hn : nChar ∈ r.buf
    · rw [(hline.buffer hn).2]; exact hsmall
    · simp [lineEnd, indexByte, List.idxOf?_eq_none_iff.mpr hn]
  obtain ⟨hn, rfl, rfl⟩ | ⟨h₀, hfirst, hn, hattempt⟩ := parse_more hI.kept hsmallb hp
  · refine ⟨?_, ?_, ?_⟩
    · rw [hbuf]; exact hI.kept
    · rw [hu]; exact hline
    · rw [hu]; exact hblock
  have hfl : h₀.firstLineLen = lineEnd r.buf := (requestLine_ok hI.kept hsmallb hfirst).2.2
  rcases hattempt with ⟨-, rfl, rfl⟩ | ⟨k, s', hk, hscan, rfl⟩
  · refine ⟨?_, ?_, ?_⟩
    · rw [hbuf]; exact .inr ⟨hn, hfl⟩
    · rw [hu]; exact hline
    · rw [hu]; exact hblock
  have hmlen : s'.mem.length = (r.buf.drop (lineEnd r.buf)).length := by
    simp only [length_append, length_take] at hlen
    simp only [length_drop]
    omega
  obtain ⟨hline', hdrop', hdrop⟩ := hline.edit hn hmlen
  obtain ⟨q, e, d, stale, hleft⟩ := scanAll_more parseField_strict hscan
  have hkeep : h'.firstLineLen = lineEnd r.buf := by
    have := congrArg Prod.fst (h₀.scanBlock_kept (r.buf.drop (lineEnd r.buf)))
    rw [hscan] at this
    exact this.trans hfl
  have hmt : nChar ∈ r.buf.take (lineEnd r.buf) := mem_take_lineEnd hn
  refine ⟨?_, by rw [hu]; exact hline', ?_⟩
  · rw [hbuf]
    refine .inr ⟨by simp [hmt], hkeep.trans ?_⟩
    have := lineEnd_append hmt (r.buf.drop (lineEnd r.buf))
    rw [take_append_drop] at this
    rw [lineEnd_append hmt, ← this]
  · rw [hu, hdrop']
    rw [hdrop] at hblock
    obtain ⟨hdk, hshort⟩ := hleft.shorter hk r.src.items
    have hkY := blockEnd_append hk r.src.items
    rcases Nat.eq_zero_or_pos d with h0 | hpos
    · have hed := hleft.edited h0 r.src.items
      rcases hblock with hblock | hblock
      · exact .inl (hblock.trans hed)
      · obtain ⟨hfold, k₁, j₁, hk₁, hj₁, hlt⟩ := hblock
        exact .inr ⟨hfold, k₁, j₁, hk₁, hed.ends.trans hj₁, hlt⟩
    · right
      rcases hblock with hblock | hblock
      · refine ⟨fun hno => hleft.fold hpos r.src.items (hblock.noFold.mpr hno), k, k - d, ?_, hshort, by omega⟩
        rw [← hblock.ends]; exact hkY
      · obtain ⟨hfold, k₁, j₁, hk₁, hj₁, hlt⟩ := hblock
        rw [hkY, Option.some.injEq] at hj₁
        exact ⟨hfold, k₁, k - d, hk₁, hshort, by omega⟩

theorem ReadInv.fetch (hI : ReadInv t h r) :
    ReadInv t h r.fetch where
  kept := hI.kept.mono r.fetch_buf_prefix
  line := by rw [r.fetch_unread]; exact hI.line
  block := by rw [r.fetch_unread]; exact hI.block

theorem ReadInv.ok {n : Nat}
    (hsmall : lineEnd t < 2 ^ 31) (hI : ReadInv t h r) (hp : h.parse r.buf = (h', mem, .ok n)) :
    ∃ e, headerEnd t = some e ∧
      (((r.overwrite mem).discard n).unread = t.drop e ↔ NoFold (t.drop (lineEnd t))) := by
  have hline := hI.line
  have hblock := hI.block
  rw [Reader.unread] at hline hblock
  have hn : nChar ∈ r.buf := by
    by_contra hn
    unfold parse requestLine at hp
    obtain ⟨-, hnext⟩ | ⟨hn', -⟩ := nextLine_eq r.buf
    · rcases hI.kept with h0 | ⟨hn', -⟩
      · simp [h0, parseFirstLine, hnext] at hp
      · exact hn hn'
    · exact hn hn'
  have hl := (hline.buffer hn).2
  obtain ⟨h₀, h₁, s', -, -, hscan, -, rfl, rfl⟩ := parse_ok hI.kept (hl ▸ hsmall) hp
  obtain ⟨k, stale, hk, hun, hstale, -⟩ := success_unread parseField_strict hscan
  have hle := lineEnd_le r.buf
  have hkle := blockEnd_le hk
  have hkY := blockEnd_append hk r.src.items
  have hnoY := noFold_append hk r.src.items
  have hdrop : (r.buf ++ r.src.items).drop (lineEnd t) = r.buf.drop (lineEnd r.buf) ++ r.src.items := by
    rw [← hl, drop_append_of_le_length hle]
  have hsize := hline.size
  have hunlen := congrArg List.length hun
  rw [hdrop] at hblock
  simp only [length_append, length_drop] at hunlen hsize hkle
  rcases hblock with hed | ⟨hfold, k₁, j₁, hk₁, hj₁, hlt⟩
  · have hkt : blockEnd (t.drop (lineEnd t)) = some k := by rw [← hed.ends, hkY]
    refine ⟨lineEnd t + k, by rw [headerEnd, hkt]; rfl, ?_⟩
    rw [← hed.noFold, hnoY, ← hstale]
    constructor
    · intro he
      have := congrArg List.length he
      simp only [length_drop] at this
      exact length_eq_zero_iff.mp (by omega)
    · intro h0
      rw [hun, h0, append_nil, ← drop_drop, ← hed.behind k hkt,
        drop_append_of_le_length (blockEnd_le hk)]
  · refine ⟨lineEnd t + k₁, by rw [headerEnd, hk₁]; rfl, iff_of_false (fun he => ?_) hfold⟩
    rw [hkY, Option.some.injEq] at hj₁
    have hk₁le := blockEnd_le hk₁
    have := congrArg List.length he
    simp only [length_drop] at this hk₁le
    omega

theorem read_consumes {r' : Reader Byte Err} (hread : h.read r = (none, h', r'))
    (hsmall : lineEnd r.unread < 2 ^ 31) :
    ∃ e, headerEnd r.unread = some e ∧
      (r'.unread = r.unread.drop e ↔ NoFold (r.unread.drop (lineEnd r.unread))) := by
  have hstart : ReadInv r.unread h.resetSkipNormalize r :=
    ⟨.inl rfl, SameLine.refl _, .inl (Edited.refl _)⟩
  exact Retry.Loop.read_ok parse_inPlace (P := fun _ r' => ∃ e, headerEnd r.unread = some e ∧
      (r'.unread = r.unread.drop e ↔ NoFold (r.unread.drop (lineEnd r.unread))))
    (fun _ _ _ _ _ hI hp => hI.ok hsmall hp) (fun _ _ _ _ hI hp => hI.more hsmall hp) (fun _ _ hI => hI.fetch) hstart hread

end RequestHeader

/-! ## Responses -/

namespace ResponseHeader

variable {h h' : ResponseHeader} {r : Reader Byte Err} {t : Bytes}

structure ReadInv (t : Bytes) (r : Reader Byte Err) : Prop where
  line : SameLine t r.unread
  block : Edited (t.drop (lineEnd t)) (r.unread.drop (lineEnd t))

theorem ReadInv.fetch (hI : ReadInv t r) : ReadInv t r.fetch where
  line := by rw [r.fetch_unread]; exact hI.line
  block := by rw [r.fetch_unread]; exact hI.block

theorem ReadInv.more {mem : Bytes}
    (hfold : NoFold (t.drop (lineEnd t))) (hI : ReadInv t r)
    (hp : h.parse r.buf = (h', mem, .error .needMore)) : ReadInv t (r.overwrite mem) := by
  have hlen : mem.length = r.buf.length := by
    have := parse_inPlace h r.buf
    simp only [loop, hp] at this
    exact this
  have hu : (r.overwrite mem).unread = mem ++ r.src.items := overwrite_unread r hlen
  have hline := hI.line
  have hblock := hI.block
  rw [Reader.unread] at hline hblock
  obtain ⟨-, -, rfl⟩ | ⟨h₀, s', -, hn, hscan, rfl⟩ := parse_more hp
  · exact ⟨by rw [hu]; exact hline, by rw [hu]; exact hblock⟩
  have hmlen : s'.mem.length = (r.buf.drop (lineEnd r.buf)).length := by
    simp only [length_append, length_take] at hlen
    simp only [length_drop]
    omega
  obtain ⟨hline', hdrop', hdrop⟩ := hline.edit hn hmlen
  obtain ⟨q, e, d, stale, hleft⟩ := scanAll_more parseField_strict hscan
  rw [hdrop] at hblock
  -- no line is folded, so nothing has shrunk
  have h0 : d = 0 := by
    by_contra hd
    exact hleft.fold (by omega) r.src.items (hblock.noFold.mpr hfold)
  refine ⟨by rw [hu]; exact hline', ?_⟩
  rw [hu, hdrop']
  exact hblock.trans (hleft.edited h0 r.src.items)

theorem ReadInv.ok {mem : Bytes} {n : Nat}
    (hfold : NoFold (t.drop (lineEnd t))) (hI : ReadInv t r) (hp : h.parse r.buf = (h', mem, .ok n)) :
    ∃ e, headerEnd t = some e ∧ ((r.overwrite mem).discard n).unread = t.drop e := by
  have hline := hI.line
  have hblock := hI.block
  rw [Reader.unread] at hline hblock
  obtain ⟨h₀, h₁, s', -, hn, hscan, -, rfl, rfl⟩ := parse_ok hp
  obtain ⟨k, stale, hk, hun, hstale, hhLen, hb⟩ := success_unread parseField_strict hscan
  have hl := (hline.buffer hn).2
  have hdrop : (r.buf ++ r.src.items).drop (lineEnd t) = r.buf.drop (lineEnd r.buf) ++ r.src.items := by
    rw [← hl, drop_append_of_le_length (lineEnd_le r.buf)]
  rw [hdrop] at hblock
  have hst := hstale.mpr ((noFold_append hk r.src.items).mp (hblock.noFold.mpr hfold))
  have hkt : blockEnd (t.drop (lineEnd t)) = some k := by rw [← hblock.ends, blockEnd_append hk]
  have hbehind := hblock.behind k hkt
  rw [drop_append_of_le_length (blockEnd_le hk), drop_drop (l := t)] at hbehind
  rw [hst, append_nil, hbehind] at hun
  have hn' : (r.buf.drop (lineEnd r.buf)).length - s'.b.length = s'.hLen := by
    rw [hst] at hhLen
    simp only [length_nil] at hhLen
    omega
  exact ⟨lineEnd t + k, by rw [headerEnd, hkt]; rfl, by rw [hn', hun]⟩

theorem read_consumes {r' : Reader Byte Err} (hread : h.read r = (none, h', r'))
    (hfold : NoFold (r.unread.drop (lineEnd r.unread))) :
    ∃ e, headerEnd r.unread = some e ∧ r'.unread = r.unread.drop e := by
  have hstart : ReadInv r.unread r := ⟨SameLine.refl _, Edited.refl _⟩
  exact Retry.Loop.read_ok parse_inPlace (I := fun _ => ReadInv r.unread)
    (P := fun _ r' => ∃ e, headerEnd r.unread = some e ∧ r'.unread = r.unread.drop e)
    (fun _ _ _ _ _ hI hp => hI.ok hfold hp) (fun _ _ _ _ hI hp => hI.more hfold hp) (fun _ _ hI => hI.fetch) hstart hread

end ResponseHeader

/-- What a read header takes from the reader is the header, unless a line of it is folded. -/
theorem header_read_consumes (r r' : Reader Byte Err) :
    (∀ h h' : RequestHeader, h.read r = (none, h', r') →
      lineEnd r.unread < 2 ^ 31 →
      ∃ e, headerEnd r.unread = some e ∧
        (r'.unread = r.unread.drop e ↔ NoFold (r.unread.drop (lineEnd r.unread)))) ∧
    (∀ h h' : ResponseHeader, h.read r = (none, h', r') →
      NoFold (r.unread.drop (lineEnd r.unread)) →
      ∃ e, headerEnd r.unread = some e ∧ r'.unread = r.unread.drop e) :=
  ⟨fun _ _ hread hsmall => RequestHeader.read_consumes hread hsmall,
    fun _ _ hread hfold => ResponseHeader.read_consumes hread hfold⟩

theorem header_read_consumes_plain :
    (∃ e, headerEnd (wire ["GET / HTTP/1.1\r\nA: b\r\n\r\nBODY"]).unread = some e ∧
      ((RequestHeader.zero.read (wire ["GET / HTTP/1.1\r\nA: b\r\n\r\nBODY"])).2.2.unread
        = (wire ["GET / HTTP/1.1\r\nA: b\r\n\r\nBODY"]).unread.drop e ↔
      NoFold ((wire ["GET / HTTP/1.1\r\nA: b\r\n\r\nBODY"]).unread.drop
        (lineEnd (wire ["GET / HTTP/1.1\r\nA: b\r\n\r\nBODY"]).unread)))) ∧
    ∃ e, headerEnd (wire ["HTTP/1.1 200 OK\r\nA: b\r\n\r\nBODY"]).unread = some e ∧
      (ResponseHeader.zero.read (wire ["HTTP/1.1 200 OK\r\nA: b\r\n\r\nBODY"])).2.2.unread
        = (wire ["HTTP/1.1 200 OK\r\nA: b\r\n\r\nBODY"]).unread.drop e := by
  refine ⟨(header_read_consumes _ _).1 _ _ (Prod.ext ?_ rfl) ?_,
    (header_read_consumes _ _).2 _ _ (Prod.ext ?_ rfl) ?_⟩
  all_goals decide +kernel

/-- With a folded line bytes of the body are repeated, or lost and repeated. -/
theorem header_read_repeats :
    ((RequestHeader.zero.read (wire ["GET / HTTP/1.1\r\nA: b\r\n c\r\n\r\nBODY"])).1 = none ∧
      (RequestHeader.zero.read (wire ["GET / HTTP/1.1\r\nA: b\r\n c\r\n\r\nBODY"])).2.2.unread
        = ascii "BODYDY") ∧
    ((ResponseHeader.zero.read (wire ["HTTP/1.1 200 OK\r\nA: b\r\n c\r\n\r\nBODY"])).1 = none ∧
      (ResponseHeader.zero.read (wire ["HTTP/1.1 200 OK\r\nA: b\r\n c\r\n\r\nBODY"])).2.2.unread
        = ascii "DYDY") := by
  decide +kernel

end Fasthttp
