import Fasthttp.Header.Decided
import Fasthttp.Header.Plain
import Fasthttp.Header.Stable

/-!
# Reading a request header in pieces

An attempt that finds no complete block leaves no trace, and one that decides a complete block decides it in the same
way with more bytes behind it.
-/

namespace Fasthttp

open Scanner Bufio List

namespace RequestHeader

variable {b t : Bytes} {h h' h₀ : RequestHeader} {k size : Nat} {last : Err} {r : Reader Byte Err}

def judge (h : RequestHeader) (b : Bytes) : Option (Except Err RequestHeader) :=
  match h.parse b with
  | (h', _, .ok _) => some (.ok h')
  | (_, _, .error e) => if e = .needMore then none else some (.error e)

theorem judgement_eq (h : RequestHeader) (b : Bytes) : loop.judgement id h b = h.judge b := by
  rw [judge, Retry.Loop.judgement, show loop.parse h b = h.parse b from rfl]
  rcases h.parse b with ⟨h', mem, e | k⟩ <;> rfl

def verdict (out : RequestHeader × Scanner × Option Err) : Option (Except Err RequestHeader) :=
  match out with
  | (h', _, none) => some (.ok h'.finish)
  | (_, _, some e) => if e = .needMore then none else some (.error e)

theorem judge_complete
    (hline : h.requestLine b = (h₀, .ok (lineEnd b : Int))) (hblock : blockEnd (b.drop (lineEnd b)) = some k) :
    h.judge b = verdict (h₀.scanBlock (b.drop (lineEnd b))) := by
  rw [judge, parse_complete hline hblock]
  generalize h₀.scanBlock (b.drop (lineEnd b)) = out
  obtain ⟨h', s', _ | e⟩ := out <;> rfl

theorem judge_noLine (h0 : h.firstLineLen = 0) (hn : nChar ∉ b) : h.judge b = none := by
  obtain ⟨-, hnext⟩ | ⟨hn', -⟩ := nextLine_eq b
  · simp [judge, parse, requestLine, h0, parseFirstLine, hnext]
  · exact absurd hn' hn

theorem scanBlock_append (h₀ : RequestHeader) (hblock : blockEnd b = some k) (y : Bytes)
    {v : Except Err RequestHeader} (hv : verdict (h₀.scanBlock b) = some v) :
    verdict (h₀.scanBlock (b ++ y)) = some v := by
  have hraw : h₀.keepRaw (b ++ y) = h₀.keepRaw b := by simp [keepRaw, readRawHeaders_append hblock y]
  have hdecided : (h₀.scanBlock b).2.2 ≠ some .needMore := by
    intro h0
    rcases hs : h₀.scanBlock b with ⟨h', s', e⟩
    rw [hs] at h0 hv
    simp only at h0
    simp [h0, verdict] at hv
  have hl : Longer y (Scanner.new b h₀.disableNormalizing) (Scanner.new (b ++ y) h₀.disableNormalizing) :=
    ⟨rfl, rfl, rfl, rfl, rfl⟩
  obtain ⟨h1, h2⟩ := scanAll_longer parseField_strict (.inl (new_fresh b h₀.disableNormalizing)) hl
    (by simp [Scanner.new, hblock]) (h₀.keepRaw b).start hdecided
  have hlong : h₀.scanBlock (b ++ y)
      = scanAll parseField (Scanner.new (b ++ y) h₀.disableNormalizing) (h₀.keepRaw b).start := by
    rw [scanBlock, hraw]
  rw [← hlong] at h1 h2
  change (h₀.scanBlock (b ++ y)).1 = (h₀.scanBlock b).1 at h1
  change (h₀.scanBlock (b ++ y)).2.2 = (h₀.scanBlock b).2.2 at h2
  generalize h₀.scanBlock (b ++ y) = out' at h1 h2
  generalize h₀.scanBlock b = out at h1 h2 hv
  obtain ⟨h', s', e'⟩ := out'
  obtain ⟨h, s, e⟩ := out
  subst h1 h2
  cases e' <;> exact hv

theorem judge_append (h0 : h.firstLineLen = 0) (hsmall : lineEnd b < 2 ^ 31)
    {v : Except Err RequestHeader} (hj : h.judge b = some v) (y : Bytes) : h.judge (b ++ y) = some v := by
  have hn : nChar ∈ b := by
    by_contra hn
    simp [judge_noLine h0 hn] at hj
  have hl := lineEnd_append hn y
  have hline' : h.requestLine (b ++ y) = h.requestLine b := by simp [requestLine, h.parseFirstLine_append hn y]
  rcases hline : h.requestLine b with ⟨h₀, e | m⟩
  · simpa [judge, parse, hline, hline'] using hj
  obtain ⟨-, rfl, -⟩ := requestLine_ok (.inl h0) hsmall hline
  have hdrop : (b ++ y).drop (lineEnd (b ++ y)) = b.drop (lineEnd b) ++ y := by
    rw [hl, drop_append_of_le_length (lineEnd_le b)]
  rcases hblock : blockEnd (b.drop (lineEnd b)) with _ | k
  · simp [judge, parse_incomplete hline hblock] at hj
  rw [judge_complete hline hblock] at hj
  rw [judge_complete (hline'.trans (by rw [hline, hl])) (by rw [hdrop]; exact blockEnd_append hblock y), hdrop]
  exact scanBlock_append h₀ hblock y hj

theorem lineEnd_take_small (hsmall : lineEnd t < 2 ^ 31) (n : Nat) : lineEnd (t.take n) < 2 ^ 31 := by
  by_cases hn : nChar ∈ t.take n
  · rwa [← lineEnd_append hn (t.drop n), take_append_drop]
  · simp [lineEnd, indexByte, List.idxOf?_eq_none_iff.mpr hn]

theorem judge_take {n m : Nat} {v : Except Err RequestHeader} (h0 : h.firstLineLen = 0) (hsmall : lineEnd t < 2 ^ 31) (hnm : n ≤ m)
    (hv : h.judge (t.take n) = some v) : h.judge (t.take m) = some v := by
  rw [← Nat.add_sub_cancel' hnm, take_add]
  exact judge_append h0 (lineEnd_take_small hsmall n) hv _

/-! ## Attempts that leave no trace -/

theorem readRawHeaders_none (h : blockEnd b = none) : readRawHeaders b = ([], none) := by
  unfold blockEnd at h
  simp [readRawHeaders, h]

def LineRead (h₀ h : RequestHeader) (b : Bytes) : Prop :=
  h = h₀ ∨ (nChar ∈ b ∧ ∃ h₁, h₀.parseFirstLine b = (h₁, .ok (lineEnd b : Int)) ∧ h = { h₁ with rawHeaders := [] })

theorem LineRead.append (hr : LineRead h₀ h b) (y : Bytes) :
    LineRead h₀ h (b ++ y) := by
  refine hr.imp_right fun ⟨hn, h₁, hfirst, hh⟩ => ⟨by simp [hn], h₁, ?_, hh⟩
  rw [h₀.parseFirstLine_append hn y, lineEnd_append hn y, hfirst]

theorem LineRead.parse (h0 : h₀.firstLineLen = 0) (hr : LineRead h₀ h b) : h.parse b = h₀.parse b := by
  rcases hr with rfl | ⟨hn, h₁, hfirst, rfl⟩
  · rfl
  have hlen : h₁.firstLineLen = lineEnd b := (parseFirstLine_length hfirst).2.2
  have hpos := lineEnd_pos hn
  have hline : h₀.requestLine b = (h₁, .ok (lineEnd b : Int)) := by simp [requestLine, h0, hfirst]
  have hline' : ({ h₁ with rawHeaders := [] } : RequestHeader).requestLine b
      = ({ h₁ with rawHeaders := [] }, .ok (lineEnd b : Int)) := by
    have : ¬(lineEnd b : Int) = 0 := by omega
    simp only [requestLine, hlen, this, if_false]
  rcases hblock : blockEnd (b.drop (lineEnd b)) with _ | k
  · rw [parse_incomplete hline hblock, parse_incomplete hline' hblock]
    rfl
  · rw [parse_complete hline hblock, parse_complete hline' hblock]
    rfl

/-- No attempt before the last bytes that fit sees a whole header. -/
def OneLook (r : Reader Byte Err) : Prop := ∀ n < min r.size r.unread.length, r.Arrives n → headerEnd (r.unread.take n) = none

theorem OneLook.loop (h0 : h₀.firstLineLen = 0) (hsmall : lineEnd r.unread < 2 ^ 31) (hlook : OneLook r) :
    loop.OneLook id (fun n h => LineRead h₀ h (r.unread.take n)) h₀ r where
  start _ := .inl rfl
  mono n m h hnm hr := by
    rw [← Nat.add_sub_cancel' hnm, take_add]
    exact hr.append _
  alike _ _ hr := hr.parse h0
  stable n hlt _ v hv := by
    rw [judgement_eq] at hv ⊢
    exact judge_take h0 hsmall (by omega) hv
  waits n hlt hn h mem hp := by
    obtain ⟨-, rfl, rfl⟩ | ⟨h₁, hline, hmem, ⟨hblock, rfl, rfl⟩ | ⟨k, -, hk, -⟩⟩ :=
      parse_more (.inl h0) (lineEnd_take_small hsmall n) hp
    · exact ⟨.inl rfl, rfl⟩
    · refine ⟨.inr ⟨hmem, h₁, ?_, by simp [keepRaw, readRawHeaders_none hblock]⟩, rfl⟩
      simpa only [requestLine, h0, if_true] using hline
    · have := hlook n hlt hn
      simp [headerEnd, hk] at this

theorem oneLook_whole (r : Reader Byte Err) : OneLook r.whole := by
  intro n hlt hn
  rw [r.arrives_whole_early hlt hn]
  rfl

/-! ## Attempts behind a line without a name -/

structure Alike (h h' : RequestHeader) : Prop where
  length : h'.contentLength = h.contentLength
  seen : h'.contentLengthSeen = h.contentLengthSeen
  normal : h'.disableNormalizing = h.disableNormalizing
  special : h'.disableSpecialHeader = h.disableSpecialHeader

theorem setContentLength_alike (v : Bytes) (ha : Alike h h') :
    (h.setContentLength v).2 = (h'.setContentLength v).2 ∧ Alike (h.setContentLength v).1 (h'.setContentLength v).1 := by
  simp only [setContentLength, ha.length, ha.seen]
  repeat' split
  all_goals exact ⟨rfl, by simp [ha.length], by simp [ha.seen], ha.normal, ha.special⟩

theorem setTransferEncoding_alike (v : Bytes) (ha : Alike h h') :
    (h.setTransferEncoding v).2 = (h'.setTransferEncoding v).2 ∧
      Alike (h.setTransferEncoding v).1 (h'.setTransferEncoding v).1 := by
  unfold setTransferEncoding
  rw [ha.special]
  split
  · exact ⟨rfl, rfl, ha.seen, ha.normal, rfl⟩
  · exact ⟨rfl, ha⟩

theorem specialField_alike (k v : Bytes) (ha : Alike h h') :
    (h.specialField k v).2 = (h'.specialField k v).2 ∧ Alike (h.specialField k v).1 (h'.specialField k v).1 := by
  have hcl := setContentLength_alike v ha
  have hte := setTransferEncoding_alike v ha
  have hco : Alike (h.setConnection k v) (h'.setConnection k v) := by
    unfold setConnection
    split <;> exact { ha with }
  have htr : (h.setTrailerBytes v).2 = (h'.setTrailerBytes v).2 := by
    unfold setTrailerBytes
    rw [ha.normal]
  unfold specialField
  simp only
  rw [ha.normal]
  repeat' split
  all_goals first
    | assumption
    | exact ⟨rfl, hco⟩
    | exact ⟨htr, ha.length, ha.seen, ha.normal, ha.special⟩
    | exact ⟨rfl, ha.length, ha.seen, rfl, ha.special⟩

theorem parseField_alike (h h' : RequestHeader) (k v : Bytes) (ha : Alike h h') :
    (h.parseField k v).2 = (h'.parseField k v).2 ∧ Alike (h.parseField k v).1 (h'.parseField k v).1 := by
  have hspecial := specialField_alike k v ha
  unfold parseField
  rw [ha.special]
  repeat' split
  all_goals first
    | assumption
    | exact ⟨rfl, ha⟩
    | exact ⟨rfl, ha.length, ha.seen, ha.normal, rfl⟩

theorem scanBlock_nameless (h₁ : RequestHeader) {b' : Bytes} (hb : Recased h₁.disableNormalizing b b')
    (hname : Nameless b)
    (hacc : (feed parseField (h₁.keepRaw b').start (fields h₁.disableNormalizing b)).2 = none) :
    ∃ h' s' e, h₁.scanBlock b' = (h', s', some e) ∧ ending (behind b) = some e ∧
      Recased h₁.disableNormalizing b s'.mem := by
  obtain ⟨s', hscan, hmem⟩ := scanAll_recased parseField hname.final hb (h₁.keepRaw b').start
  obtain ⟨l, t, hbehind, hl, -⟩ := hname
  have hend : ending (behind b) ≠ none := by
    rw [hbehind, ending_line hl]
    split <;> simp
  obtain ⟨e, he⟩ := Option.ne_none_iff_exists'.mp hend
  exact ⟨_, s', e, by rw [scanBlock, hscan, hacc, he]; rfl, he, (hmem hacc).1⟩

structure Waiting (h₀ : RequestHeader) (t : Bytes) (h : RequestHeader) (r : Reader Byte Err) : Prop where
  line : nChar ∈ t
  kept : ∃ h₁, h₀.parseFirstLine t = (h₁, .ok (lineEnd t : Int)) ∧ h.kept = h₁.kept ∧
    ∃ b b', t = t.take (lineEnd t) ++ (b ++ r.src.items) ∧ r.buf = t.take (lineEnd t) ++ b' ∧
      Recased h₁.disableNormalizing b b' ∧ Nameless b ∧ blockEnd b ≠ none ∧
      (feed parseField h₁.start (fields h₁.disableNormalizing b)).2 = none

theorem accepted_again {h₁ : RequestHeader} (hk : h.kept = h₁.kept) (b : Bytes) {fs : List (Bytes × Bytes)}
    (hacc : (feed parseField h₁.start fs).2 = none) : (feed parseField (h.keepRaw b).start fs).2 = none := by
  have ha : Alike h₁.start (h.keepRaw b).start :=
    ⟨rfl, rfl, congrArg (·.2.1) hk, congrArg (·.2.2) hk⟩
  rw [← (feed_related parseField_alike ha fs).1]
  exact hacc

theorem Waiting.fetch (hw : Waiting h₀ t h r) :
    Waiting h₀ t h r.fetch := by
  obtain ⟨hn, h₁, hfirst, hk, b, b', ht, hbuf, hrec, hname, hblock, hacc⟩ := hw
  have hsrc := r.src.chunk_append_rest (r.size - r.buf.length)
  obtain ⟨k, hk'⟩ := Option.ne_none_iff_exists'.mp hblock
  obtain ⟨hlines, hname'⟩ := hname.append (r.src.chunk (r.size - r.buf.length))
  refine ⟨hn, h₁, hfirst, hk, b ++ r.src.chunk (r.size - r.buf.length), b' ++ r.src.chunk (r.size - r.buf.length),
    ?_, ?_, hrec.append _, hname', by rw [blockEnd_append hk']; simp, ?_⟩
  · rw [append_assoc]
    simp only [Reader.fetch, hsrc]
    exact ht
  · simp [Reader.fetch, hbuf]
  · rw [fields, hlines]
    exact hacc

theorem Waiting.attempt (h0 : h₀.firstLineLen = 0)
    (hw : Waiting h₀ t h r) :
    ∃ h' mem e, h.parse r.buf = (h', mem, .error e) ∧
      h₀.judge (t.take r.buf.length) = (if e = .needMore then none else some (.error e)) ∧
      Waiting h₀ t h' (r.overwrite mem) := by
  obtain ⟨hn, h₁, hfirst, hk, b, b', ht, hbuf, hrec, hname, hblock, hacc⟩ := hw
  have hlen : (t.take (lineEnd t)).length = lineEnd t := by
    have := lineEnd_le t
    simp only [length_take]; omega
  have hpos := lineEnd_pos hn
  have hlf : nChar ∈ t.take (lineEnd t) := mem_take_lineEnd hn
  have hlf₁ : h₁.firstLineLen = lineEnd t := (parseFirstLine_length hfirst).2.2
  obtain ⟨k, hbk⟩ := Option.ne_none_iff_exists'.mp hblock
  have hline_of : ∀ z, lineEnd (t.take (lineEnd t) ++ z) = lineEnd t := fun z =>
    lineEnd_take hn (take_left' hlen)
  -- the attempt
  have hl : lineEnd r.buf = lineEnd t := by rw [hbuf]; exact hline_of b'
  have hdrop : r.buf.drop (lineEnd r.buf) = b' := by rw [hl, hbuf, drop_left' hlen]
  have hreq : h.requestLine r.buf = (h, .ok (lineEnd r.buf : Int)) := by
    have hfl : h.firstLineLen = lineEnd t := (congrArg Prod.fst hk).trans hlf₁
    have : ¬(lineEnd t : Int) = 0 := by omega
    simp only [requestLine, hfl, this, if_false, hl]
  have hdn : h.disableNormalizing = h₁.disableNormalizing := congrArg (·.2.1) hk
  rw [← hdn] at hrec hacc
  obtain ⟨h', s', e, hscan, he, hmem⟩ := scanBlock_nameless h hrec hname (accepted_again hk b' hacc)
  have hparse : h.parse r.buf = (h', r.buf.take (lineEnd r.buf) ++ s'.mem, .error e) := by
    rw [parse_complete hreq (by rw [hdrop, hrec.blockEnd, hbk]), hdrop, hscan]
  -- the judgement
  have hp : t.take r.buf.length = t.take (lineEnd t) ++ b := by
    have hlb := hrec.length
    have ht' : t = (t.take (lineEnd t) ++ b) ++ r.src.items := by rw [append_assoc]; exact ht
    refine (congrArg (take r.buf.length) ht').trans (take_left' ?_)
    rw [hbuf]
    simp only [length_append]
    omega
  have hjudge : h₀.judge (t.take r.buf.length) = if e = .needMore then none else some (.error e) := by
    rw [hp]
    have hle := hline_of b
    have hdrop' : (t.take (lineEnd t) ++ b).drop (lineEnd (t.take (lineEnd t) ++ b)) = b := by
      rw [hle, drop_left' hlen]
    have hreq' : h₀.requestLine (t.take (lineEnd t) ++ b)
        = (h₁, .ok (lineEnd (t.take (lineEnd t) ++ b) : Int)) := by
      have := h₀.parseFirstLine_append (b := t.take (lineEnd t) ++ b) (by simp [hlf]) r.src.items
      rw [append_assoc, ← ht, hfirst] at this
      simp [requestLine, h0, ← this, hle]
    obtain ⟨h'', s'', e', hscan', he', -⟩ := scanBlock_nameless h₁ (Recased.refl _ b) hname
      (accepted_again rfl b (hdn ▸ hacc))
    rw [judge_complete hreq' (by rw [hdrop']; exact hbk), hdrop', hscan']
    rw [he, Option.some.injEq] at he'
    rw [he']
    rfl
  refine ⟨h', _, e, hparse, hjudge, hn, h₁, hfirst, ?_, b, s'.mem, ht, ?_, hdn ▸ hmem, hname, hblock, hdn ▸ hacc⟩
  · have := h.scanBlock_kept b'
    rw [hscan] at this
    exact this.trans hk
  · rw [Reader.overwrite_buf]
    · rw [hl, hbuf, take_left' hlen]
    · have := parse_inPlace h r.buf
      simp only [loop, hparse] at this
      exact this

def Steady (h₀ : RequestHeader) (t : Bytes) : Prop :=
  NoFold (t.drop (lineEnd t)) ∨ ∀ e, headerEnd t = some e → ¬h₀.Dangling (t.take e)

theorem blockEnd_take (h : blockEnd b = some k) : blockEnd (b.take k) = some k := by
  induction h using block_induction with
  | crlf t => exact blockEnd_crlf []
  | lf t => exact blockEnd_lf []
  | line l t j hl _ ih =>
    have htake : (l ++ nChar :: t).take (l.length + 1 + j) = l ++ nChar :: t.take j := by
      have hlen : l.length + 1 + j = (l ++ [nChar]).length + j := by simp
      rw [append_cons, hlen, take_length_add_append, ← append_cons]
    rw [htake, blockEnd_line hl, ih]
    rfl

theorem dangling_of_judge (h0 : h₀.firstLineLen = 0) (hn : nChar ∈ t)
    (hsmall : lineEnd t < 2 ^ 31) (hk : blockEnd (t.drop (lineEnd t)) = some k)
    (hj : h₀.judge (t.take (lineEnd t + k)) = none) : h₀.Dangling (t.take (lineEnd t + k)) := by
  have htake : (t.take (lineEnd t + k)).take (lineEnd t) = t.take (lineEnd t) := by
    rw [take_take, Nat.min_eq_left (by omega)]
  have hl : lineEnd (t.take (lineEnd t + k)) = lineEnd t := lineEnd_take hn htake
  have hn' : nChar ∈ t.take (lineEnd t + k) :=
    mem_of_mem_take (by rw [htake]; exact mem_take_lineEnd hn)
  refine (parse_needMore_iff hn' fun h₁ m hm => ?_).mp ?_
  · obtain ⟨-, rfl, -⟩ := requestLine_ok (.inl h0) (by rw [hl]; exact hsmall) hm
    rw [readRawHeaders_length, hl, Int.toNat_natCast, drop_take, Nat.add_sub_cancel_left, blockEnd_take hk]
    rfl
  · unfold judge at hj
    rcases hp : h₀.parse (t.take (lineEnd t + k)) with ⟨h', mem, e | n⟩
    · simp only [hp, ite_eq_left_iff, reduceCtorEq, imp_false, not_not] at hj
      rw [hj]
    · simp [hp] at hj

structure SplitInv (h₀ : RequestHeader) (t : Bytes) (size : Nat) (last : Err) (h : RequestHeader)
    (r : Reader Byte Err) : Prop where
  size : r.size = size
  last : r.src.last = last
  phase : (LineRead h₀ h r.buf ∧ r.unread = t) ∨ Waiting h₀ t h r

theorem SplitInv.length (hI : SplitInv h₀ t size last h r) : r.unread.length = t.length := by
  rcases hI.phase with ⟨-, ht⟩ | ⟨-, h₁, -, -, b, b', ht, hbuf, hrec, -⟩
  · rw [ht]
  · have hlb := hrec.length
    have := congrArg List.length ht
    rw [Reader.unread, hbuf]
    simp only [length_append] at this ⊢
    omega

theorem SplitInv.fetch (hI : SplitInv h₀ t size last h r) : SplitInv h₀ t size last h r.fetch where
  size := hI.size
  last := hI.last
  phase := by
    rcases hI.phase with ⟨hr, ht⟩ | hw
    · exact .inl ⟨hr.append _, r.fetch_unread.trans ht⟩
    · exact .inr hw.fetch

theorem waiting_of_more {h₁ : RequestHeader} {s' : Scanner}
    (ht : r.unread = t) (hfold : NoFold (t.drop (lineEnd t))) (hn : nChar ∈ r.buf)
    (hfirst : h₀.parseFirstLine r.buf = (h₁, .ok (lineEnd r.buf : Int)))
    (hk : blockEnd (r.buf.drop (lineEnd r.buf)) = some k)
    (hscan : h₁.scanBlock (r.buf.drop (lineEnd r.buf)) = (h', s', some .needMore)) :
    Waiting h₀ t h' (r.overwrite (r.buf.take (lineEnd r.buf) ++ s'.mem)) := by
  have ht' : t = r.buf ++ r.src.items := ht.symm
  have hl : lineEnd t = lineEnd r.buf := by rw [ht', lineEnd_append hn]
  have hle := lineEnd_le r.buf
  have htake : t.take (lineEnd t) = r.buf.take (lineEnd r.buf) := by
    rw [hl, ht', take_append_of_le_length hle]
  have hdrop : t.drop (lineEnd t) = r.buf.drop (lineEnd r.buf) ++ r.src.items := by
    rw [hl, ht', drop_append_of_le_length hle]
  generalize hb : r.buf.drop (lineEnd r.buf) = b at hk hscan hdrop
  have hfin := behind_final (hdrop ▸ hfold).left
  obtain ⟨s'', hscan', hmem⟩ := scanAll_recased parseField hfin (Recased.refl h₁.disableNormalizing b)
    (h₁.keepRaw b).start
  rw [scanBlock, hscan'] at hscan
  simp only [Prod.mk.injEq] at hscan
  obtain ⟨rfl, rfl, hor⟩ := hscan
  -- the fields are accepted, so what ends the scan is a line without a name
  have hacc : (feed parseField (h₁.keepRaw b).start (fields h₁.disableNormalizing b)).2 = none := by
    rcases hf : (feed parseField (h₁.keepRaw b).start (fields h₁.disableNormalizing b)).2 with _ | e
    · rfl
    · rw [hf] at hor
      exact absurd (hf.trans hor) (feed_definite parseField_strict _ _)
  rw [hacc] at hor
  have hname : Nameless b := by
    have hbl := text_lines b
    generalize hbehind : behind b = rest at hfin hor hbl
    cases hfin with
    | blank _ h => simp [ending, h] at hor
    | noLine _ h _ =>
      rw [← hbl, blockEnd_text, blockEnd_noLine h] at hk
      simp at hk
    | noName l t' hline hc hs => exact ⟨l, t', hbehind, hline, hc, hs⟩
  have hkept := h₁.scanBlock_kept b
  rw [scanBlock, hscan'] at hkept
  have hmlen : (r.buf.take (lineEnd r.buf) ++ s''.mem).length = r.buf.length := by
    rw [length_append, (hmem hacc).1.length, ← hb, ← length_append, take_append_drop]
  refine ⟨by rw [ht']; simp [hn], h₁, ?_, hkept, b, s''.mem, ?_, ?_, (hmem hacc).1, hname, by rw [hk]; simp, ?_⟩
  · rw [hl, ht', h₀.parseFirstLine_append hn, hfirst]
  · rw [Reader.overwrite_src, ← hdrop, take_append_drop]
  · rw [Reader.overwrite_buf r hmlen, htake]
  · have ha : Alike (h₁.keepRaw b).start h₁.start := ⟨rfl, rfl, rfl, rfl⟩
    rw [← (feed_related parseField_alike ha _).1]
    exact hacc

theorem SplitInv.more
    {mem : Bytes} (h0 : h₀.firstLineLen = 0) (hsmall : lineEnd t < 2 ^ 31) (hst : h₀.Steady t)
    (hI : SplitInv h₀ t size last h r) (hp : h.parse r.buf = (h', mem, .error .needMore)) :
    SplitInv h₀ t size last h' (r.overwrite mem) := by
  refine ⟨hI.size, hI.last, ?_⟩
  rcases hI.phase with ⟨hr, ht⟩ | hw
  swap
  · obtain ⟨h'', mem', e, hp', -, hw'⟩ := hw.attempt h0
    rw [hp'] at hp
    obtain ⟨rfl, rfl, -⟩ := hp
    exact .inr hw'
  have ht' : t = r.buf ++ r.src.items := ht.symm
  have hsmallb : lineEnd r.buf < 2 ^ 31 := by
    have := lineEnd_take_small hsmall r.buf.length
    rwa [ht', take_left' rfl] at this
  rw [hr.parse h0] at hp
  have hj : h₀.judge r.buf = none := by simp [judge, hp]
  obtain ⟨-, rfl, rfl⟩ | ⟨h₁, hline, hn, hattempt⟩ := parse_more (.inl h0) hsmallb hp
  · exact .inl ⟨.inl rfl, by rw [r.overwrite_self]; exact ht⟩
  have hfirst : h₀.parseFirstLine r.buf = (h₁, .ok (lineEnd r.buf : Int)) := by
    simpa only [requestLine, h0, if_true] using hline
  rcases hattempt with ⟨hblock, rfl, rfl⟩ | ⟨k, s', hk, hscan, rfl⟩
  · left
    rw [r.overwrite_self]
    exact ⟨.inr ⟨hn, h₁, hfirst, by simp [keepRaw, readRawHeaders_none hblock]⟩, ht⟩
  right
  have hl : lineEnd t = lineEnd r.buf := by rw [ht', lineEnd_append hn]
  have hle := lineEnd_le r.buf
  have hkt : blockEnd (t.drop (lineEnd t)) = some k := by
    rw [hl, ht', drop_append_of_le_length hle]
    exact blockEnd_append hk _
  refine waiting_of_more ht ?_ hn hfirst hk hscan
  refine hst.resolve_right fun hdec => ?_
  refine hdec (lineEnd t + k) (by rw [headerEnd, hkt]; rfl)
    (dangling_of_judge h0 (by rw [ht']; simp [hn]) hsmall hkt ?_)
  -- a judgement of the header alone would stand in the buffer
  have hbuf : r.buf = t.take (lineEnd t + k) ++ r.buf.drop (lineEnd t + k) := by
    have hkle := blockEnd_le hk
    rw [length_drop] at hkle
    rw [ht', take_append_of_le_length (by rw [← ht']; omega), take_append_drop]
  by_contra hne
  obtain ⟨v, hv⟩ := Option.ne_none_iff_exists'.mp hne
  have hl' : lineEnd (t.take (lineEnd t + k)) < 2 ^ 31 := by
    rw [lineEnd_take (b := t) (by rw [ht']; simp [hn]) (by rw [take_take, Nat.min_eq_left (by omega)])]
    exact hsmall
  have := judge_append h0 hl' hv (r.buf.drop (lineEnd t + k))
  rw [← hbuf, hj] at this
  simp at this

theorem judged (h0 : h₀.firstLineLen = 0) (hsmall : lineEnd t < 2 ^ 31)
    (hst : h₀.Steady t) (size : Nat) (last : Err) :
    loop.Judged t size last id h₀.judge (SplitInv h₀ t size last) := by
  have hbuf : ∀ (h : RequestHeader) (r : Reader Byte Err), LineRead h₀ h r.buf → r.unread = t →
      h.parse r.buf = h₀.parse (t.take r.buf.length) := by
    intro h r hr ht
    have htake : t.take r.buf.length = r.buf := by rw [← ht, Reader.unread, take_left' rfl]
    rw [htake]
    exact hr.parse h0
  refine ⟨fun h r hI => ⟨hI.size, hI.length, hI.last⟩, ?_, ?_, ?_, ?_⟩
  · exact fun h r v hI => judge_take h0 hsmall (hI.size ▸ r.fits)
  · intro h r h' mem k hI hp
    rcases hI.phase with ⟨hr, ht⟩ | hw
    · have : h₀.parse (t.take r.buf.length) = (h', mem, .ok k) := (hbuf h r hr ht).symm.trans hp
      simp [judge, this]
    · obtain ⟨h'', mem', e, hp', -⟩ := hw.attempt h0
      have : h.parse r.buf = (h', mem, .ok k) := hp
      simp [hp'] at this
  · intro h r h' mem e hI hp hne
    have hp : h.parse r.buf = (h', mem, .error e) := hp
    have hne : e ≠ .needMore := hne
    rcases hI.phase with ⟨hr, ht⟩ | hw
    · have : h₀.parse (t.take r.buf.length) = (h', mem, .error e) := (hbuf h r hr ht).symm.trans hp
      simp [judge, this, hne]
    · obtain ⟨h'', mem', e', hp', hj, -⟩ := hw.attempt h0
      rw [hp', Prod.mk.injEq, Prod.mk.injEq, Except.error.injEq] at hp
      obtain ⟨-, -, rfl⟩ := hp
      rw [hj, if_neg hne]
  · intro h r h' mem hI hp
    have hp : h.parse r.buf = (h', mem, .error .needMore) := hp
    refine ⟨?_, fun _ _ => (hI.more h0 hsmall hst hp).fetch⟩
    rcases hI.phase with ⟨hr, ht⟩ | hw
    · have : h₀.parse (t.take r.buf.length) = (h', mem, .error .needMore) := (hbuf h r hr ht).symm.trans hp
      simp [judge, this]
    · obtain ⟨h'', mem', e', hp', hj, -⟩ := hw.attempt h0
      rw [hp', Prod.mk.injEq, Prod.mk.injEq, Except.error.injEq] at hp
      obtain ⟨-, -, rfl⟩ := hp
      rw [hj, if_pos rfl]

def outcome (o : Option Err × RequestHeader × Reader Byte Err) : Except Err RequestHeader :=
  Retry.Loop.outcome id o

theorem read_judge (h : RequestHeader) (r : Reader Byte Err) (hsmall : lineEnd r.unread < 2 ^ 31)
    (hst : h.resetSkipNormalize.Steady r.unread ∨ OneLook r) :
    outcome (h.read r) = (h.resetSkipNormalize.judge (r.unread.take r.size)).getD
      (.error (if r.size ≤ r.unread.length then .headerBufferSmall else readErr r.src.last)) := by
  have h0 : h.resetSkipNormalize.firstLineLen = 0 := rfl
  rcases hst with hst | hlook
  swap
  · rw [← judgement_eq]
    exact (hlook.loop h0 hsmall).read parse_inPlace ((judgement_eq _ _).trans (judge_noLine h0 (by simp)))
  have hstart : SplitInv h.resetSkipNormalize r.unread r.size r.src.last h.resetSkipNormalize r :=
    ⟨rfl, rfl, .inl ⟨.inl rfl, rfl⟩⟩
  exact Retry.Loop.read_judged (judged h0 hsmall hst r.size r.src.last) parse_inPlace h.resetSkipNormalize r
    rfl rfl rfl (judge_noLine h0 (by simp)) (fun _ => hstart) (fun _ _ => hstart.fetch)

/-- Reading does not depend on how the bytes are cut into pieces. -/
theorem read_split (h : RequestHeader) (r : Reader Byte Err) (hsmall : lineEnd r.unread < 2 ^ 31)
    (hst : h.resetSkipNormalize.Steady r.unread ∨ OneLook r) : outcome (h.read r) = outcome (h.read r.whole) := by
  rw [read_judge h r hsmall hst, read_judge h r.whole (by rw [Reader.whole_unread]; exact hsmall) (.inr (oneLook_whole r))]
  simp

theorem read_split_host :
    outcome (zero.read (wire ["GET / HT", "TP/1.1\r\nHost: a\r\n", "\r\n"]))
      = outcome (zero.read (wire ["GET / HT", "TP/1.1\r\nHost: a\r\n", "\r\n"]).whole) :=
  read_split zero _ (by decide +kernel) (.inl (.inl (by decide +kernel)))

/-- The blanks at the end of a folded value are left over as a line of their own. -/
theorem read_split_folded :
    (zero.read (wire ["GET / HTTP/1.1\r\nA: b\r\n c \r\n\r\n", "x:"])).1 = none ∧
    (zero.read (wire ["GET / HTTP/1.1\r\nA: b\r\n c \r\n\r\n", "x:"]).whole).1 = some .invalidName := by
  decide +kernel

end RequestHeader

end Fasthttp
