import Fasthttp.Header.Attempt
import Fasthttp.Header.Plain
import Fasthttp.Header.Stable
import Fasthttp.Header.Effect

/-!
# Reading a response header in pieces

Each attempt parses the fields that have come into the same header again.
-/

namespace Fasthttp

open Scanner Bufio List

namespace ResponseHeader

variable {b : Bytes}

structure Status where
  noHTTP11 : Bool
  statusCode : Int
  statusMessage : Option Bytes

def line (h : ResponseHeader) (f : Status) : ResponseHeader :=
  { h with
    noHTTP11 := f.noHTTP11
    statusCode := f.statusCode
    statusMessage := f.statusMessage.getD h.statusMessage }

theorem parseFirstLine_cases (b : Bytes) :
    (nChar ∉ b ∧ ∀ h : ResponseHeader, h.parseFirstLine b = (h, .error .needMore)) ∨
    (nChar ∈ b ∧ ((∀ h : ResponseHeader, (h.parseFirstLine b).2 = .error .malformedResponse) ∨
      ∃ f, ∀ h : ResponseHeader, h.parseFirstLine b = (h.line f, .ok (lineEnd b)))) := by
  obtain ⟨hn, hnext⟩ | ⟨hn, l, hnext⟩ := nextLine_eq b
  · exact .inl ⟨hn, fun h => by simp [parseFirstLine, hnext]⟩
  refine .inr ⟨hn, ?_⟩
  have hsub : b.length - (b.drop (lineEnd b)).length = lineEnd b := by
    have := lineEnd_le b
    simp only [length_drop]
    omega
  by_cases h1 : (indexByte l spChar).getD 0 = 0
  · exact .inl fun h => by simp [parseFirstLine, hnext, h1]
  generalize hrest : l.drop ((indexByte l spChar).getD 0 + 1) = rest
  by_cases h2 : (parseUintBuf rest).2.2.isSome = true
  · exact .inl fun h => by simp [parseFirstLine, hnext, h1, hrest, h2]
  by_cases h3 : ((parseUintBuf rest).2.1 < rest.length && rest.getD (parseUintBuf rest).2.1 0 ≠ spChar) = true
  · exact .inl fun h => by
      simp only [parseFirstLine, hnext, h1, hrest, h2, h3]
      rfl
  refine .inr ⟨⟨l.take ((indexByte l spChar).getD 0) ≠ strHTTP11, (parseUintBuf rest).1,
    if (parseUintBuf rest).2.1 + 1 < rest.length then some (rest.drop ((parseUintBuf rest).2.1 + 1)) else none⟩,
    fun h => ?_⟩
  simp only [parseFirstLine, hnext, h1, hrest, h2, h3, Bool.false_eq_true, if_false, hsub]
  split <;> rfl

theorem parseFirstLine_append (h : ResponseHeader) (hn : nChar ∈ b) (y : Bytes) :
    h.parseFirstLine (b ++ y) = h.parseFirstLine b := by
  obtain ⟨l, h1, h2⟩ := nextLine_append hn y
  have hlen : (b ++ y).length - (b.drop (lineEnd b) ++ y).length = b.length - (b.drop (lineEnd b)).length := by
    simp only [length_append]
    omega
  simp only [parseFirstLine, h1, h2, hlen]

def core (h : ResponseHeader) : ResponseHeader := { h with h := [], cookies := [] }

def judge (h : ResponseHeader) (b : Bytes) : Option (Except Err ResponseHeader) :=
  match h.parse b with
  | (h', _, .ok _) => some (.ok h'.core)
  | (_, _, .error e) => if e = .needMore then none else some (.error e)

def fed (h : ResponseHeader) (f : Status) (b : Bytes) : ResponseHeader × Option Err :=
  feed parseField (h.line f).start (fields h.disableNormalizing b)

theorem parse_plain {h : ResponseHeader} {f : Status} {buf : Bytes}
    (hline : h.parseFirstLine buf = (h.line f, .ok (lineEnd buf)))
    (hrec : Recased h.disableNormalizing b (buf.drop (lineEnd buf))) (hfin : Final (behind b)) :
    ∃ mem n, (h.parse buf = match (h.fed f b).2.or (ending (behind b)) with
      | none => ((h.fed f b).1.finish, mem, .ok n)
      | some e => ((h.fed f b).1, mem, .error e)) ∧
      ((h.fed f b).2 = none → ∃ m, mem = buf.take (lineEnd buf) ++ m ∧ Recased h.disableNormalizing b m) := by
  obtain ⟨s', hscan, hmem⟩ := scanAll_recased parseField hfin hrec (h.line f).start
  have hdn : (h.line f).disableNormalizing = h.disableNormalizing := rfl
  refine ⟨buf.take (lineEnd buf) ++ s'.mem, lineEnd buf + ((buf.drop (lineEnd buf)).length - s'.b.length), ?_,
    fun h0 => ⟨s'.mem, rfl, (hmem h0).1⟩⟩
  simp only [parse, hline, parseHeaders, hdn, hscan, fed]
  cases (feed parseField (h.line f).start (fields h.disableNormalizing b)).2.or (ending (behind b)) <;> rfl

theorem judge_plain {h : ResponseHeader} {f : Status} {buf : Bytes}
    (hline : h.parseFirstLine buf = (h.line f, .ok (lineEnd buf)))
    (hrec : Recased h.disableNormalizing b (buf.drop (lineEnd buf))) (hfin : Final (behind b)) :
    h.judge buf = match (h.fed f b).2.or (ending (behind b)) with
      | none => some (.ok (h.fed f b).1.finish.core)
      | some e => if e = .needMore then none else some (.error e) := by
  obtain ⟨mem, n, hp, -⟩ := parse_plain hline hrec hfin
  rw [judge, hp]
  cases (h.fed f b).2.or (ending (behind b)) <;> rfl

theorem judge_noLine (h : ResponseHeader) (hn : nChar ∉ b) : h.judge b = none := by
  obtain ⟨-, hfirst⟩ | ⟨hn', -⟩ := parseFirstLine_cases b
  · simp [judge, parse, hfirst]
  · exact absurd hn' hn

end ResponseHeader

theorem ending_append {rest : Bytes} (hf : Final rest) (hne : ending rest ≠ some .needMore) (y : Bytes) :
    nChar ∈ rest ∧ ending (rest ++ y) = ending rest := by
  cases hf with
  | blank _ h =>
    exact ⟨lf_mem_of_blankLen h, by rw [ending, ending, blankLen_append h y, if_pos h, if_pos h]⟩
  | noLine _ h _ => simp [ending, blankLen_noLine h, h] at hne
  | noName l t hl hc hs =>
    refine ⟨by simp, ?_⟩
    rw [ending_line hl] at hne
    rw [append_assoc, cons_append, ending_line hl, ending_line hl]
    have hcol : colonChar ∈ l ++ nChar :: t := by
      by_contra hcol
      simp [hcol] at hne
    rw [if_pos hcol, if_pos]
    rw [← cons_append, ← append_assoc]
    exact mem_append_left y hcol

theorem fields_append (d : Bool) (b y : Bytes) : ∃ gs, fields d (b ++ y) = fields d b ++ gs := by
  refine ⟨(lines (behind b ++ y)).map (Line.entry d), ?_⟩
  conv_lhs => rw [← text_lines b, append_assoc]
  rw [fields, lines_text, map_append]
  rfl

theorem Scanner.feed_append_error {σ : Type} {body : σ → Bytes → Bytes → σ × Option Err} {h h₁ : σ} {e : Err}
    {fs : List (Bytes × Bytes)} (hfs : feed body h fs = (h₁, some e)) (gs : List (Bytes × Bytes)) :
    feed body h (fs ++ gs) = (h₁, some e) := by
  induction fs generalizing h with
  | nil => simp [feed] at hfs
  | cons f fs ih =>
    rcases hb : body h f.1 f.2 with ⟨h', _ | e'⟩
    · simp only [feed, hb] at hfs
      simp [feed, hb, ih hfs]
    · simp only [feed, hb] at hfs
      simp [feed, hb, hfs]

namespace ResponseHeader

variable {a c : Effect} {b past t : Bytes} {f : Status} {h h₀ : ResponseHeader} {n : Nat} {r r₀ : Reader Byte Err}

theorem judge_append {y : Bytes} (hfold : NoFold ((b ++ y).drop (lineEnd (b ++ y))))
    {v : Except Err ResponseHeader} (hj : h.judge b = some v) : h.judge (b ++ y) = some v := by
  have hn : nChar ∈ b := by
    by_contra hn
    simp [judge_noLine h hn] at hj
  have hl := lineEnd_append hn y
  have hdrop : (b ++ y).drop (lineEnd (b ++ y)) = b.drop (lineEnd b) ++ y := by
    rw [hl, drop_append_of_le_length (lineEnd_le b)]
  have happ := h.parseFirstLine_append hn y
  obtain ⟨hn', -⟩ | ⟨-, hbad | ⟨f, hline⟩⟩ := parseFirstLine_cases b
  · exact absurd hn hn'
  · rcases hfirst : h.parseFirstLine b with ⟨h', e | m⟩
    · simpa [judge, parse, hfirst, happ] using hj
    · have := hbad h
      simp [hfirst] at this
  rw [hdrop] at hfold
  have hfin := behind_final hfold.left
  have hfin' := behind_final hfold
  rw [judge_plain (hline h) (Recased.refl _ _) hfin] at hj
  rw [judge_plain (b := b.drop (lineEnd b) ++ y) (by rw [happ, hl]; exact hline h)
    (by rw [hdrop]; exact Recased.refl _ _) hfin']
  rcases hfed : h.fed f (b.drop (lineEnd b)) with ⟨h₁, _ | e⟩
  · -- the fields are accepted: a line ends the scan
    rw [hfed] at hj
    have hne : ending (behind (b.drop (lineEnd b))) ≠ some .needMore := by
      intro h0
      simp [h0] at hj
    obtain ⟨hn', hend⟩ := ending_append hfin hne y
    obtain ⟨h1, h2⟩ := lines_append hfin hn' y
    have : h.fed f (b.drop (lineEnd b) ++ y) = h.fed f (b.drop (lineEnd b)) := by rw [fed, fed, fields, fields, h1]
    rw [this, hfed, h2, hend]
    exact hj
  · obtain ⟨gs, hgs⟩ := fields_append h.disableNormalizing (b.drop (lineEnd b)) y
    have : h.fed f (b.drop (lineEnd b) ++ y) = (h₁, some e) := by
      rw [fed, hgs]
      exact feed_append_error hfed gs
    rw [this]
    rw [hfed] at hj
    exact hj

/-! ## Attempts that leave entries behind -/

theorem getD_getD {α : Type} (a : Option α) (x : α) : a.getD (a.getD x) = a.getD x := by
  cases a <;> rfl

theorem core_again (hc : h.core = ((h₀.line f).start.apply a).core) (b : Effect) :
    ((h.line f).start.apply (a.comp b)).core = ((h₀.line f).start.apply (a.comp b)).core := by
  simp only [core, mk.injEq, true_and] at hc
  obtain ⟨h1, h2, h3, h4, h5, h6, -, h8, -, h10, h11, h12, h13, h14, h15⟩ := hc
  simp [core, line, start, apply, Effect.comp, h1, h2, h3, h4, h5, h6, h10, h11, h12, h13, h14, h15,
    getD_getD]

theorem core_finish {x w : ResponseHeader} (hc : x.core = w.core)
    (hp : peekArgBytes x.h strConnection = peekArgBytes w.h strConnection) : x.finish.core = w.finish.core := by
  simp only [core, mk.injEq] at hc
  obtain ⟨h1, h2, h3, h4, h5, h6, h7, h8, h9, h10, h11, h12, h13, h14, h15⟩ := hc
  simp [core, finish, h1, h2, h3, h4, h5, h7, h9, h10, h11, h12, h13, h14, h15, hp]

def Repeats (left last : List ArgsKV) : Prop := ∀ p x, left.find? p = some x → last.find? p = some x

theorem Repeats.peek {left last : List ArgsKV} (h : Repeats left last) (more : List ArgsKV) (key : Bytes) :
    peekArgBytes (left ++ (last ++ more)) key = peekArgBytes (last ++ more) key := by
  unfold peekArgBytes
  rcases hf : left.find? (fun kv => kv.key = key) with _ | x
  · simp [hf]
  · simp [hf, h _ _ hf]

theorem Repeats.step {left last : List ArgsKV} (h : Repeats left last) (more : List ArgsKV) :
    Repeats (left ++ (last ++ more)) (last ++ more) := by
  intro p x hx
  rw [List.find?_append, Option.or_eq_some_iff] at hx
  rcases hx with hx | ⟨-, hx⟩
  · rw [List.find?_append, h p x hx]
    rfl
  · exact hx

structure Tried (h₀ : ResponseHeader) (t : Bytes) (f : Status) (b past : Bytes) (a : Effect)
    (h : ResponseHeader) (r : Reader Byte Err) : Prop where
  mem : nChar ∈ t
  line : ∀ h : ResponseHeader, h.parseFirstLine t = (h.line f, .ok (lineEnd t))
  stream : t = t.take (lineEnd t) ++ (b ++ r.src.items)
  buf : ∃ b', r.buf = t.take (lineEnd t) ++ b' ∧ Recased h₀.disableNormalizing b b'
  part : past <+: b
  does : Does h₀.disableNormalizing h₀.start.contentLength (fields h₀.disableNormalizing past) a
  quiet : a.Quiet ↔ ∀ g ∈ fields h₀.disableNormalizing past, listed h₀.disableNormalizing g = false
  again : ∀ e, ((h.line f).start.apply (a.comp e)).core = ((h₀.line f).start.apply (a.comp e)).core
  left : Repeats h.h a.h

theorem Tried.normal (hT : Tried h₀ t f b past a h r) : h.disableNormalizing = h₀.disableNormalizing := by
  have := congrArg disableNormalizing (hT.again a)
  exact this

theorem Tried.length (hT : Tried h₀ t f b past a h r) : h.start.contentLength = h₀.start.contentLength := by
  have := congrArg headMethod (hT.again a)
  have : h.headMethod = h₀.headMethod := this
  simp [start, this]

theorem Tried.take (hT : Tried h₀ t f b past a h r) : t.take r.buf.length = t.take (lineEnd t) ++ b := by
  obtain ⟨b', hbuf, hrec⟩ := hT.buf
  have hlb := hrec.length
  have ht : t = (t.take (lineEnd t) ++ b) ++ r.src.items := by rw [append_assoc]; exact hT.stream
  refine (congrArg (List.take r.buf.length) ht).trans (take_left' ?_)
  rw [hbuf]
  simp only [length_append]
  omega

theorem Tried.attempt (hfold : NoFold (t.drop (lineEnd t))) (hT : Tried h₀ t f b past a h r) :
    ∃ mem n, (h.parse r.buf = match (h.fed f b).2.or (ending (behind b)) with
      | none => ((h.fed f b).1.finish, mem, .ok n)
      | some e => ((h.fed f b).1, mem, .error e)) ∧
      ((h.fed f b).2 = none → ∃ m, mem = t.take (lineEnd t) ++ m ∧ Recased h₀.disableNormalizing b m) ∧
      h₀.judge (t.take r.buf.length) = match (h₀.fed f b).2.or (ending (behind b)) with
        | none => some (.ok (h₀.fed f b).1.finish.core)
        | some e => if e = .needMore then none else some (.error e) := by
  obtain ⟨b', hbuf, hrec⟩ := hT.buf
  have hlen : (t.take (lineEnd t)).length = lineEnd t := by
    have := lineEnd_le t
    simp only [length_take]; omega
  have hlf : nChar ∈ t.take (lineEnd t) := mem_take_lineEnd hT.mem
  have hline_of : ∀ z, lineEnd (t.take (lineEnd t) ++ z) = lineEnd t := fun z =>
    lineEnd_take hT.mem (take_left' hlen)
  have hfirst : ∀ (h : ResponseHeader) z, h.parseFirstLine (t.take (lineEnd t) ++ z) = (h.line f, .ok (lineEnd t)) := by
    intro h z
    have h1 := h.parseFirstLine_append hlf z
    have h2 := h.parseFirstLine_append hlf (t.drop (lineEnd t))
    rw [take_append_drop, hT.line] at h2
    rw [h1, h2]
  have hfin : Final (behind b) := by
    have hdrop : t.drop (lineEnd t) = b ++ r.src.items := by
      rw [hT.stream, hline_of, drop_left' hlen]
    exact behind_final (hdrop ▸ hfold).left
  have hl : lineEnd r.buf = lineEnd t := by rw [hbuf]; exact hline_of b'
  have htake : r.buf.take (lineEnd r.buf) = t.take (lineEnd t) := by rw [hl, hbuf, take_left' hlen]
  have hline : h.parseFirstLine r.buf = (h.line f, .ok (lineEnd r.buf)) := by rw [hl, hbuf]; exact hfirst h b'
  have hrec : Recased h.disableNormalizing b (r.buf.drop (lineEnd r.buf)) := by
    rw [hl, hbuf, drop_left' hlen, hT.normal]; exact hrec
  obtain ⟨mem, n, hp, hmem⟩ := parse_plain hline hrec hfin
  refine ⟨mem, n, hp, fun h0 => ?_, ?_⟩
  · obtain ⟨m, hm, hr⟩ := hmem h0
    exact ⟨m, by rw [hm, htake], by rw [← hT.normal]; exact hr⟩
  · rw [hT.take]
    exact judge_plain (by rw [hline_of]; exact hfirst h₀ b)
      (by rw [hline_of, drop_left' hlen]; exact Recased.refl _ b) hfin

theorem Tried.fed (hT : Tried h₀ t f b past a h r) :
    (∃ e, e ≠ .needMore ∧ (h.fed f b).2 = some e ∧ (h₀.fed f b).2 = some e) ∨
    ∃ c, Does h₀.disableNormalizing h₀.start.contentLength (fields h₀.disableNormalizing b) (a.comp c) ∧
      ((a.comp c).Quiet ↔ ∀ g ∈ fields h₀.disableNormalizing b, listed h₀.disableNormalizing g = false) ∧
      h.fed f b = ((h.line f).start.apply (a.comp c), none) ∧
      h₀.fed f b = ((h₀.line f).start.apply (a.comp c), none) := by
  obtain ⟨y, rfl⟩ := hT.part
  obtain ⟨gs, hgs⟩ := fields_append h₀.disableNormalizing past y
  have hstart : ∀ h : ResponseHeader, (h.line f).start.contentLength = h.start.contentLength := fun _ => rfl
  have hdn : ∀ h : ResponseHeader, (h.line f).start.disableNormalizing = h.disableNormalizing := fun _ => rfl
  rcases feed_effect h₀.disableNormalizing a.contentLength gs with ⟨c, hc, hq⟩ | ⟨e, he⟩
  · have hall := hT.does.append hc
    refine .inr ⟨c, hgs ▸ hall, ?_, ?_, ?_⟩
    · rw [Effect.quiet_comp, hT.quiet, hq, hgs]
      simp [or_imp, forall_and]
    · rw [ResponseHeader.fed, hT.normal, hgs]
      exact hall _ ((hdn h).trans hT.normal) ((hstart h).trans hT.length)
    · rw [ResponseHeader.fed, hgs]
      exact hall _ (hdn h₀) (hstart h₀)
  · have hone : ∀ h : ResponseHeader, h.disableNormalizing = h₀.disableNormalizing →
        h.start.contentLength = h₀.start.contentLength → (h.fed f (past ++ y)).2 = some e := by
      intro h hd hs
      rw [ResponseHeader.fed, hd, hgs, feed_append (hT.does (h.line f).start ((hdn h).trans hd) ((hstart h).trans hs))]
      exact he _ ((hdn h).trans hd) rfl
    refine .inl ⟨e, ?_, hone h hT.normal hT.length, hone h₀ rfl rfl⟩
    rintro rfl
    exact feed_definite parseField_strict _ _ (hone h₀ rfl rfl)

/-- No complete line in the first `n` bytes goes into a list. -/
def Clean (h₀ : ResponseHeader) (t : Bytes) (n : Nat) : Prop :=
  ∀ g ∈ fields h₀.disableNormalizing ((t.take n).drop (lineEnd t)), listed h₀.disableNormalizing g = false

instance (h₀ : ResponseHeader) (t : Bytes) (n : Nat) : Decidable (h₀.Clean t n) :=
  inferInstanceAs (Decidable (∀ g ∈ fields h₀.disableNormalizing ((t.take n).drop (lineEnd t)),
    listed h₀.disableNormalizing g = false))

theorem clean_noLine (h₀ : ResponseHeader) (hn : nChar ∉ t.take n) : h₀.Clean t n := by
  have h0 : nChar ∉ (t.take n).drop (lineEnd t) := fun hm => hn (mem_of_mem_drop hm)
  intro g hg
  rw [fields, (lines_noLine h0).1] at hg
  simp at hg

def Listless (h : ResponseHeader) : Prop := h.h = [] ∧ h.cookies = []

structure SplitInv (h₀ : ResponseHeader) (r₀ : Reader Byte Err) (h : ResponseHeader) (r : Reader Byte Err) : Prop where
  size : r.size = r₀.size
  last : r.src.last = r₀.src.last
  ahead : r.buf.length < r.size → ∀ n, r.Arrives n ↔ r₀.Arrives n ∧ r.buf.length ≤ n
  undecided : ∀ n, r₀.Arrives n → n < r.buf.length → h₀.judge (r₀.unread.take n) = none
  lists : h.Listless ↔ ∀ n, r₀.Arrives n → n < r.buf.length → h₀.Clean r₀.unread n
  phase : (h = h₀ ∧ r.unread = r₀.unread) ∨ ∃ f b past a, Tried h₀ r₀.unread f b past a h r

theorem SplitInv.length (hI : SplitInv h₀ r₀ h r) :
    r.unread.length = r₀.unread.length := by
  rcases hI.phase with ⟨-, ht⟩ | ⟨f, b, past, a, hT⟩
  · rw [ht]
  · obtain ⟨b', hbuf, hrec⟩ := hT.buf
    have hlb := hrec.length
    have := congrArg List.length hT.stream
    rw [Reader.unread, hbuf]
    simp only [length_append] at this ⊢
    omega

theorem splitInv_start (h0 : h₀.Listless) (r₀ : Reader Byte Err) : SplitInv h₀ r₀ h₀ r₀ := by
  refine ⟨rfl, rfl, fun _ n => ⟨fun h => ⟨h, h.le⟩, fun h => h.1⟩, fun n hn hlt => ?_, ?_, .inl ⟨rfl, rfl⟩⟩
  · have := hn.le
    omega
  · refine iff_of_true h0 fun n hn hlt => ?_
    have := hn.le
    omega

theorem SplitInv.step {h' : ResponseHeader} {mem : Bytes} (hI : SplitInv h₀ r₀ h r)
    (hroom : r.buf.length < r.size) (hp : r.src.pieces ≠ []) (hlen : mem.length = r.buf.length)
    (hj : h₀.judge (r₀.unread.take r.buf.length) = none)
    (hlists : h'.Listless ↔ h.Listless ∧ h₀.Clean r₀.unread r.buf.length)
    (hphase : (h' = h₀ ∧ (r.overwrite mem).fetch.unread = r₀.unread) ∨
      ∃ f b past a, Tried h₀ r₀.unread f b past a h' (r.overwrite mem).fetch) :
    SplitInv h₀ r₀ h' (r.overwrite mem).fetch := by
  have hhistory : Retry.Loop.History r₀ h₀.judge (h₀.Clean r₀.unread) h.Listless r := ⟨hI.ahead, hI.undecided, hI.lists⟩
  obtain ⟨hahead, hundecided, hlists⟩ := hhistory.step hroom hp hlen hj hlists
  exact ⟨hI.size, hI.last, hahead, hundecided, hlists, hphase⟩

theorem Tried.fetch (hT : Tried h₀ t f b past a h r) :
    Tried h₀ t f (b ++ r.src.chunk (r.size - r.buf.length)) past a h r.fetch := by
  obtain ⟨b', hbuf, hrec⟩ := hT.buf
  have hsrc := r.src.chunk_append_rest (r.size - r.buf.length)
  refine ⟨hT.mem, hT.line, ?_, ⟨b' ++ r.src.chunk (r.size - r.buf.length), ?_, hrec.append _⟩,
    hT.part.trans (prefix_append _ _), hT.does, hT.quiet, hT.again, hT.left⟩
  · rw [append_assoc]
    simp only [Reader.fetch, hsrc]
    exact hT.stream
  · simp [Reader.fetch, hbuf]

theorem tried_first (h0 : h₀.Listless) (ht : r.unread = t)
    (hn : nChar ∈ r.buf)
    (hline : ∀ h : ResponseHeader, h.parseFirstLine r.buf = (h.line f, .ok (lineEnd r.buf))) :
    Tried h₀ t f (r.buf.drop (lineEnd r.buf)) [] { contentLength := h₀.start.contentLength } h₀ r := by
  have ht' : t = r.buf ++ r.src.items := ht.symm
  have hl : lineEnd t = lineEnd r.buf := by rw [ht', lineEnd_append hn]
  have htake : t.take (lineEnd t) = r.buf.take (lineEnd r.buf) := by
    rw [hl, ht', take_append_of_le_length (lineEnd_le _)]
  have hnil : fields h₀.disableNormalizing [] = [] := rfl
  refine ⟨by rw [ht']; simp [hn], fun h => ?_, ?_, ⟨_, ?_, Recased.refl _ _⟩, nil_prefix, fun h _ hc => ?_, ?_,
    fun e => rfl, ?_⟩
  · rw [hl, ht', h.parseFirstLine_append hn, hline]
  · rw [htake, ← append_assoc, take_append_drop, ht']
  · rw [htake, take_append_drop]
  · rw [← hc, apply_same]
    rfl
  · rw [hnil]
    simp [Effect.Quiet]
  · intro p x hx
    rw [h0.1] at hx
    simp at hx

theorem apply_listless (h : ResponseHeader) (f : Status) (a : Effect) :
    ((h.line f).start.apply a).Listless ↔ h.Listless ∧ a.Quiet := by
  have : ((h.line f).start.apply a).Listless ↔ h.h ++ a.h = [] ∧ h.cookies ++ a.cookies = [] := Iff.rfl
  rw [this, append_eq_nil_iff, append_eq_nil_iff, Listless, Effect.Quiet]
  tauto

theorem Tried.next (hT : Tried h₀ t f b past a h r) {mem m : Bytes} (hmem : mem = t.take (lineEnd t) ++ m)
    (hrec : Recased h₀.disableNormalizing b m) (hlen : mem.length = r.buf.length)
    (hdoes : Does h₀.disableNormalizing h₀.start.contentLength (fields h₀.disableNormalizing b) (a.comp c))
    (hquiet : (a.comp c).Quiet ↔ ∀ g ∈ fields h₀.disableNormalizing b, listed h₀.disableNormalizing g = false) :
    Tried h₀ t f b b (a.comp c) ((h.line f).start.apply (a.comp c)) (r.overwrite mem) where
  mem := hT.mem
  line := hT.line
  stream := hT.stream
  buf := ⟨m, by rw [r.overwrite_buf hlen, hmem], hrec⟩
  part := prefix_refl b
  does := hdoes
  quiet := hquiet
  again := core_again (hT.again c)
  left := hT.left.step c.h

inductive Ends (h₀ : ResponseHeader) (r₀ : Reader Byte Err) (h : ResponseHeader) (r : Reader Byte Err) : Prop
  | bad (e : Err) (h' : ResponseHeader) (mem : Bytes) : e ≠ .needMore → h.parse r.buf = (h', mem, .error e) →
      h₀.judge (r₀.unread.take r.buf.length) = some (.error e) → Ends h₀ r₀ h r
  | more (h' : ResponseHeader) (mem : Bytes) : h.parse r.buf = (h', mem, .error .needMore) →
      h₀.judge (r₀.unread.take r.buf.length) = none →
      (r.buf.length < r.size → r.src.pieces ≠ [] → SplitInv h₀ r₀ h' (r.overwrite mem).fetch) → Ends h₀ r₀ h r
  | ok (f : Status) (b past : Bytes) (a c : Effect) (mem : Bytes) (n : Nat) :
      Tried h₀ r₀.unread f b past a h r → ending (behind b) = none →
      h₀.fed f b = ((h₀.line f).start.apply (a.comp c), none) →
      h.parse r.buf = (((h.line f).start.apply (a.comp c)).finish, mem, .ok n) →
      h₀.judge (r₀.unread.take r.buf.length) = some (.ok ((h.line f).start.apply (a.comp c)).finish.core) →
      Ends h₀ r₀ h r

theorem Tried.ends
    (h0 : h₀.Listless) (hfold : NoFold (r₀.unread.drop (lineEnd r₀.unread))) (hI : SplitInv h₀ r₀ h r)
    (hT : Tried h₀ r₀.unread f b past a h r) : Ends h₀ r₀ h r := by
  obtain ⟨mem, n, hp, hmem, hj⟩ := hT.attempt hfold
  rcases hT.fed with ⟨e, hne, he, he'⟩ | ⟨c, hdoes, hquiet, hfed, hfed'⟩
  · rw [he] at hp
    rw [he', Option.some_or] at hj
    simp only [hne] at hj
    exact .bad e _ _ hne hp hj
  rw [hfed] at hp
  rw [hfed', Option.none_or] at hj
  rcases hend : ending (behind b) with _ | e
  · rw [hend] at hp hj
    refine .ok f b past a c mem n hT hend hfed' hp ?_
    have hpeek := hT.left.peek c.h strConnection
    have hnew : h₀.h ++ (a.h ++ c.h) = a.h ++ c.h := by rw [h0.1, nil_append]
    rw [hj, core_finish (hT.again c)]
    exact hpeek.trans (congrArg (peekArgBytes · strConnection) hnew.symm)
  rw [hend] at hp hj
  by_cases hmore : e = .needMore
  swap
  · simp only [hmore] at hj
    exact .bad e _ _ hmore hp hj
  subst hmore
  obtain ⟨m, hm, hrec⟩ := hmem (by rw [hfed])
  have hlen : mem.length = r.buf.length := by
    have := parse_inPlace h r.buf
    simp only [loop, hp] at this
    exact this
  refine .more _ mem hp hj fun hroom hps => hI.step hroom hps hlen hj ?_
    (.inr ⟨f, _, _, _, (hT.next hm hrec hlen hdoes hquiet).fetch⟩)
  have hdrop : (r₀.unread.take r.buf.length).drop (lineEnd r₀.unread) = b := by
    have := lineEnd_le r₀.unread
    rw [hT.take, drop_left' (by simp only [length_take]; omega)]
  rw [apply_listless, hquiet, Clean, hdrop]

theorem SplitInv.ends (h0 : h₀.Listless)
    (hfold : NoFold (r₀.unread.drop (lineEnd r₀.unread))) (hI : SplitInv h₀ r₀ h r) : Ends h₀ r₀ h r := by
  rcases hI.phase with ⟨rfl, ht⟩ | ⟨f, b, past, a, hT⟩
  swap
  · exact hT.ends h0 hfold hI
  have htake : r₀.unread.take r.buf.length = r.buf := by rw [← ht, Reader.unread, take_left' rfl]
  obtain ⟨hn, hfirst⟩ | ⟨hn, hbad | ⟨f, hline⟩⟩ := parseFirstLine_cases r.buf
  · have hp : h.parse r.buf = (h, r.buf, .error .needMore) := by simp [parse, hfirst]
    have hj : h.judge (r₀.unread.take r.buf.length) = none := by rw [htake]; exact judge_noLine h hn
    refine .more h r.buf hp hj fun hroom hps => hI.step hroom hps rfl hj ?_ (.inl ⟨rfl, ?_⟩)
    · exact (and_iff_left (clean_noLine h (by rw [htake]; exact hn))).symm
    · rw [r.overwrite_self, r.fetch_unread, ht]
  · rcases hfirst : h.parseFirstLine r.buf with ⟨h', e | m⟩
    · have he := hbad h
      rw [hfirst, Except.error.injEq] at he
      subst he
      have hp : h.parse r.buf = (h', r.buf, .error .malformedResponse) := by simp [parse, hfirst]
      exact .bad _ _ _ (by simp) hp (by rw [htake]; simp [judge, hp])
    · have := hbad h
      simp [hfirst] at this
  · exact (tried_first h0 ht hn hline).ends h0 hfold hI

theorem drop_take_lineEnd {m : Nat} (hn : nChar ∈ t.take m) :
    lineEnd t = lineEnd (t.take m) ∧ t.drop (lineEnd t) = (t.take m).drop (lineEnd (t.take m)) ++ t.drop m := by
  have hl := lineEnd_append hn (t.drop m)
  rw [take_append_drop] at hl
  rw [hl, ← drop_append_of_le_length (lineEnd_le (t.take m)), take_append_drop]
  exact ⟨rfl, rfl⟩

theorem take_noFold (hfold : NoFold (t.drop (lineEnd t))) {m : Nat} (hn : nChar ∈ t.take m) :
    NoFold ((t.take m).drop (lineEnd (t.take m))) :=
  ((drop_take_lineEnd hn).2 ▸ hfold).left

theorem judge_take (hfold : NoFold (t.drop (lineEnd t))) {m : Nat}
    {v : Except Err ResponseHeader} (hnm : n ≤ m) (hv : h₀.judge (t.take n) = some v) :
    h₀.judge (t.take m) = some v := by
  have hcut : t.take m = t.take n ++ (t.drop n).take (m - n) := by
    rw [← take_add, Nat.add_sub_cancel' hnm]
  have hn : nChar ∈ t.take m := by
    by_contra hn
    rw [hcut, mem_append, not_or] at hn
    simp [judge_noLine h₀ hn.1] at hv
  have := take_noFold hfold hn
  rw [hcut] at this ⊢
  exact judge_append this hv

theorem judged (h0 : h₀.Listless)
    (hfold : NoFold (r₀.unread.drop (lineEnd r₀.unread))) :
    loop.Judged r₀.unread r₀.size r₀.src.last core h₀.judge (SplitInv h₀ r₀) := by
  refine ⟨fun h r hI => ⟨hI.size, hI.length, hI.last⟩, fun h r v hI => judge_take hfold (hI.size ▸ r.fits), ?_, ?_, ?_⟩
  · intro h r h' mem k hI hp
    have hp : h.parse r.buf = (h', mem, .ok k) := hp
    cases hI.ends h0 hfold with
    | bad e h'' mem' hne hp' hj => simp [hp'] at hp
    | more h'' mem' hp' hj => simp [hp'] at hp
    | ok f b past a c mem' n hT hend hfed hp' hj =>
      rw [hp', Prod.mk.injEq] at hp
      rw [hj, hp.1]
  · intro h r h' mem e hI hp hne
    have hp : h.parse r.buf = (h', mem, .error e) := hp
    cases hI.ends h0 hfold with
    | bad e' h'' mem' _ hp' hj =>
      rw [hp', Prod.mk.injEq, Prod.mk.injEq, Except.error.injEq] at hp
      rw [hj, hp.2.2]
    | more h'' mem' hp' hj =>
      rw [hp', Prod.mk.injEq, Prod.mk.injEq, Except.error.injEq] at hp
      exact absurd hp.2.2.symm hne
    | ok f b past a c mem' n hT hend hfed hp' hj => simp [hp'] at hp
  · intro h r h' mem hI hp
    have hp : h.parse r.buf = (h', mem, .error .needMore) := hp
    cases hI.ends h0 hfold with
    | bad e' h'' mem' hne hp' hj =>
      rw [hp', Prod.mk.injEq, Prod.mk.injEq, Except.error.injEq] at hp
      exact absurd hp.2.2 hne
    | more h'' mem' hp' hj hnext =>
      rw [hp'] at hp
      obtain ⟨rfl, rfl, -⟩ := hp
      exact ⟨hj, hnext⟩
    | ok f b past a c mem' n hT hend hfed hp' hj => simp [hp'] at hp

theorem splitInv_first (h0 : h₀.Listless) (hb : r.buf = [])
    (hp : r.src.pieces ≠ []) : SplitInv h₀ r h₀ r.fetch := by
  have hroom : r.buf.length < r.size := by simpa [hb] using r.pos
  have htake : nChar ∉ r.unread.take r.buf.length := by simp [hb]
  have hnext : SplitInv h₀ r h₀ (r.overwrite r.buf).fetch :=
    (splitInv_start h0 r).step hroom hp rfl (judge_noLine h₀ htake) (and_iff_left (clean_noLine h₀ htake)).symm
      (.inl ⟨rfl, by rw [r.overwrite_self, r.fetch_unread]⟩)
  rwa [r.overwrite_self] at hnext

theorem read_judge (h : ResponseHeader) (r : Reader Byte Err) (hfold : NoFold (r.unread.drop (lineEnd r.unread))) :
    Retry.Loop.outcome core (h.read r) = (h.resetSkipNormalize.judge (r.unread.take r.size)).getD
      (.error (if r.size ≤ r.unread.length then .bufferFull else readErr r.src.last)) := by
  have h0 : h.resetSkipNormalize.Listless := ⟨rfl, rfl⟩
  exact Retry.Loop.read_judged (judged h0 hfold) parse_inPlace h.resetSkipNormalize r rfl rfl rfl
    (judge_noLine _ (by simp)) (fun _ => splitInv_start h0 r) (fun hb hp => splitInv_first h0 hb hp)

def accepted (h₀ : ResponseHeader) (t : Bytes) : ResponseHeader :=
  (feed parseField (h₀.parseFirstLine t).1.start (fields h₀.disableNormalizing (t.drop (lineEnd t)))).1

theorem Tried.complete
    (hfold : NoFold (t.drop (lineEnd t))) (hT : Tried h₀ t f b past a h r) (hend : ending (behind b) = none)
    (hfed : h₀.fed f b = ((h₀.line f).start.apply (a.comp c), none)) :
    (∃ e, headerEnd t = some e ∧ e ≤ r.buf.length ∧ h₀.judge (t.take e) ≠ none) ∧
      h₀.accepted t = (h₀.line f).start.apply (a.comp c) := by
  have hblank : 0 < blankLen (behind b) := by
    by_contra h0
    rw [ending, if_neg h0] at hend
    split at hend <;> simp at hend
  obtain ⟨bl, z, hz, hlines, hbehind, hpos, hblock⟩ := blank_split hblank
  have hb : b = text (lines b) ++ (bl ++ z) := by rw [← hz, text_lines]
  generalize hls : lines b = ls at hb
  have hlb := congrArg List.length hT.take
  have hlen : (t.take (lineEnd t)).length = lineEnd t := by
    have := lineEnd_le t
    simp only [length_take]; omega
  have hdrop : t.drop (lineEnd t) = b ++ r.src.items := by
    have := take_append_drop (lineEnd t) t
    exact append_cancel_left (this.trans hT.stream)
  have hblocke : blockEnd (t.drop (lineEnd t)) = some ((text ls).length + bl.length) := by
    rw [hdrop, hb, append_assoc, append_assoc, blockEnd_text, hblock]
    rfl
  refine ⟨⟨lineEnd t + ((text ls).length + bl.length), ?_, ?_, ?_⟩, ?_⟩
  · rw [headerEnd, hblocke]
    rfl
  · have := congrArg List.length hb
    simp only [length_append, hlen, length_take] at this hlb
    omega
  · have htake : t.take (lineEnd t + ((text ls).length + bl.length)) = t.take (lineEnd t) ++ (text ls ++ bl) := by
      have hcut : b ++ r.src.items = (text ls ++ bl) ++ (z ++ r.src.items) := by simp [hb, append_assoc]
      rw [take_add, hdrop, hcut, take_left' (by simp)]
    have hbeh : behind (text ls ++ bl) = bl := by rw [behind_text, hbehind]
    have hline : lineEnd (t.take (lineEnd t) ++ (text ls ++ bl)) = lineEnd t := lineEnd_take hT.mem (take_left' hlen)
    have hfirst : h₀.parseFirstLine (t.take (lineEnd t) ++ (text ls ++ bl)) = (h₀.line f, .ok (lineEnd t)) := by
      have h1 := h₀.parseFirstLine_append (mem_take_lineEnd hT.mem) (text ls ++ bl)
      have h2 := h₀.parseFirstLine_append (mem_take_lineEnd hT.mem) (t.drop (lineEnd t))
      rw [take_append_drop, hT.line] at h2
      rw [h1, h2]
    have hsame : h₀.fed f (text ls ++ bl) = h₀.fed f b := by
      rw [ResponseHeader.fed, ResponseHeader.fed, fields, fields, lines_text, hlines, append_nil, hls]
    rw [htake, judge_plain (b := text ls ++ bl) (by rw [hline]; exact hfirst)
      (by rw [hline, drop_left' hlen]; exact Recased.refl _ _) (by rw [hbeh]; exact .blank _ hpos),
      hsame, hfed, hbeh, ending, if_pos hpos]
    simp
  · have hfin := behind_final (hdrop ▸ hfold).left
    obtain ⟨hn, -⟩ := ending_append hfin (by simp [hend]) []
    rw [accepted, hT.line, hdrop, fields, (lines_append hfin hn _).1]
    exact congrArg Prod.fst hfed

def Lists (h₀ : ResponseHeader) (r₀ : Reader Byte Err) (h : ResponseHeader) : Prop :=
  ∃ e left leftCookies, headerEnd r₀.unread = some e ∧ h.h = left ++ (h₀.accepted r₀.unread).h ∧
    h.cookies = leftCookies ++ (h₀.accepted r₀.unread).cookies ∧
    ((left = [] ∧ leftCookies = []) ↔ ∀ n < e, r₀.Arrives n → h₀.Clean r₀.unread n)

theorem SplitInv.listed
    (h0 : h₀.Listless) (hfold : NoFold (r₀.unread.drop (lineEnd r₀.unread))) (hI : SplitInv h₀ r₀ h r)
    (hT : Tried h₀ r₀.unread f b past a h r) (hend : ending (behind b) = none)
    (hfed : h₀.fed f b = ((h₀.line f).start.apply (a.comp c), none)) :
    Lists h₀ r₀ ((h.line f).start.apply (a.comp c)).finish := by
  obtain ⟨⟨e, he, hle, hj⟩, hacc⟩ := hT.complete hfold hend hfed
  have hh : (h₀.accepted r₀.unread).h = (a.comp c).h := by
    rw [hacc]
    show h₀.h ++ (a.comp c).h = (a.comp c).h
    rw [h0.1, nil_append]
  have hcookies : (h₀.accepted r₀.unread).cookies = (a.comp c).cookies := by
    rw [hacc]
    show h₀.cookies ++ (a.comp c).cookies = (a.comp c).cookies
    rw [h0.2, nil_append]
  refine ⟨e, h.h, h.cookies, he, by rw [hh]; rfl, by rw [hcookies]; rfl, ?_⟩
  refine (Iff.trans Iff.rfl hI.lists).trans ⟨fun hc n hlt hn => hc n hn (by omega), fun hc n hn hlt => hc n ?_ hn⟩
  -- an attempt on a complete header would have been the last
  by_contra hno
  obtain ⟨v, hv⟩ := Option.ne_none_iff_exists'.mp hj
  have hstays := judge_take hfold (Nat.le_of_not_lt hno) hv
  rw [hI.undecided n hn hlt] at hstays
  simp at hstays

theorem read_lists (h : ResponseHeader) (r : Reader Byte Err) (hfold : NoFold (r.unread.drop (lineEnd r.unread)))
    (hok : (h.read r).1 = none) : Lists h.resetSkipNormalize r (h.read r).2.1 := by
  have h0 : h.resetSkipNormalize.Listless := ⟨rfl, rfl⟩
  have hJ := judged h0 hfold
  have hrule : loop.Rule (SplitInv h.resetSkipNormalize r)
      (fun out h' _ => out = none → Lists h.resetSkipNormalize r h') := by
    refine ⟨?_, ?_, ?_, ?_, fun h₁ r₁ h' mem hI hp => (hJ.more h₁ r₁ h' mem hI hp).2⟩
    · intro h₁ r₁ h' mem k hI hp _
      have hp : h₁.parse r₁.buf = (h', mem, .ok k) := hp
      cases hI.ends h0 hfold with
      | bad e h'' mem' _ hp' => simp [hp'] at hp
      | more h'' mem' hp' => simp [hp'] at hp
      | ok f b past a c mem' n hT hend hfed hp' hj =>
        rw [hp', Prod.mk.injEq] at hp
        rw [← hp.1]
        exact hI.listed h0 hfold hT hend hfed
    all_goals simp_all
  exact Retry.Loop.read_rule hrule parse_inPlace h.resetSkipNormalize r (fun _ => splitInv_start h0 r)
    (fun hb hp => splitInv_first h0 hb hp) (by simp) hok

theorem headerEnd_le {e : Nat} (he : headerEnd t = some e) : e ≤ t.length := by
  obtain ⟨k, hk, rfl⟩ := Option.map_eq_some_iff.mp he
  have h1 := blockEnd_le hk
  have h2 := lineEnd_le t
  rw [length_drop] at h1
  omega

theorem whole_clean (hn : r.whole.Arrives n) {e : Nat}
    (he : headerEnd r.unread = some e) (hlt : n < e) : h₀.Clean r.unread n := by
  have hle := headerEnd_le he
  rcases r.arrives_whole hn with rfl | rfl
  · exact clean_noLine h₀ (by simp)
  · omega

/-- Whether a response header stands at the front of `b` in which every field is accepted. -/
def Readable (h₀ : ResponseHeader) (b : Bytes) : Prop :=
  ∃ f, h₀.parseFirstLine b = (h₀.line f, .ok (lineEnd b)) ∧ (h₀.fed f (b.drop (lineEnd b))).2 = none ∧
    0 < blankLen (behind (b.drop (lineEnd b)))

theorem judge_ok_iff (hfold : NoFold (b.drop (lineEnd b))) :
    (∃ w, h₀.judge b = some (.ok w)) ↔ h₀.Readable b := by
  have hfin := behind_final hfold
  constructor
  · rintro ⟨w, hw⟩
    obtain ⟨hn, -⟩ | ⟨-, hbad | ⟨f, hline⟩⟩ := parseFirstLine_cases b
    · simp [judge_noLine h₀ hn] at hw
    · rcases hfirst : h₀.parseFirstLine b with ⟨h', e | m⟩
      · simp [judge, parse, hfirst] at hw
      · have := hbad h₀
        simp [hfirst] at this
    rw [judge_plain (hline h₀) (Recased.refl _ _) hfin] at hw
    refine ⟨f, hline h₀, ?_⟩
    rcases hfed : (h₀.fed f (b.drop (lineEnd b))).2 with _ | e
    · refine ⟨rfl, ?_⟩
      by_contra h0
      obtain ⟨e, he⟩ : ∃ e, ending (behind (b.drop (lineEnd b))) = some e := by
        rw [ending, if_neg h0]
        split
        · exact ⟨_, rfl⟩
        · exact ⟨_, rfl⟩
      rw [hfed, Option.none_or, he] at hw
      simp only at hw
      split at hw <;> simp at hw
    · rw [hfed, Option.some_or] at hw
      simp only at hw
      split at hw <;> simp at hw
  · rintro ⟨f, hline, hfed, hblank⟩
    rw [judge_plain hline (Recased.refl _ _) hfin, hfed, ending, if_pos hblank]
    exact ⟨_, rfl⟩

def seen (h : ResponseHeader) : (Int × Bytes × Bytes × Bool) × (Int × Bool) × List ArgsKV × List ArgsKV × List ArgsKV :=
  ((h.statusCode, h.statusMessage, h.protocol, h.noHTTP11), (h.contentLength, h.connectionClose), h.h, h.cookies, h.trailer)

theorem read_ok_iff (h : ResponseHeader) (r : Reader Byte Err) (hfold : NoFold (r.unread.drop (lineEnd r.unread))) :
    (h.read r).1 = none ↔ h.resetSkipNormalize.Readable (r.unread.take r.size) := by
  have hread := read_judge h r hfold
  by_cases hn : nChar ∈ r.unread.take r.size
  · rw [← judge_ok_iff (take_noFold hfold hn)]
    rcases hr : h.read r with ⟨_ | e, h', r'⟩ <;> rw [Retry.Loop.outcome] at hread <;>
      rcases hj : h.resetSkipNormalize.judge (r.unread.take r.size) with _ | (e' | w) <;> simp_all
  · rw [judge_noLine _ hn] at hread
    obtain ⟨-, hfirst⟩ | ⟨hn', -⟩ := parseFirstLine_cases (r.unread.take r.size)
    · rcases hr : h.read r with ⟨_ | e, h', r'⟩
      · simp [hr, Retry.Loop.outcome] at hread
      · simp [Readable, hfirst]
    · exact absurd hn' hn

/-! ## One attempt that sees fields -/

/-- No attempt before the last bytes that fit sees a whole field line. -/
def OneLook (r : Reader Byte Err) : Prop :=
  ∀ n < min r.size r.unread.length, r.Arrives n → nChar ∉ (r.unread.take n).drop (lineEnd (r.unread.take n))

theorem oneLook_whole (r : Reader Byte Err) : OneLook r.whole := by
  intro n hlt hn
  rw [r.arrives_whole_early hlt hn]
  simp

def FirstLine (f : Status) (b : Bytes) : Prop := ∀ h : ResponseHeader, h.parseFirstLine b = (h.line f, .ok (lineEnd b))

theorem FirstLine.append (hf : FirstLine f b) (y : Bytes) : FirstLine f (b ++ y) := by
  obtain ⟨-, hmore⟩ | ⟨hn, -⟩ := parseFirstLine_cases b
  · have := (hmore zero).symm.trans (hf zero)
    simp at this
  · exact fun h => by rw [h.parseFirstLine_append hn, lineEnd_append hn, hf]

theorem FirstLine.parse_again (hf : FirstLine f b) (h : ResponseHeader) : (h.line f).start.parse b = h.parse b := by
  have hagain : ((h.line f).start.line f).start = (h.line f).start := by
    simp only [line, start, getD_getD]
    rfl
  simp only [parse, hf _, parseHeaders, hagain]
  rfl

theorem parse_early (h : ResponseHeader) (hn : nChar ∉ b.drop (lineEnd b)) :
    h.parse b = (h, b, .error .needMore) ∨ (∀ y, ∃ h' mem, h.parse (b ++ y) = (h', mem, .error .malformedResponse)) ∨
    ∃ f, FirstLine f b ∧ h.parse b = ((h.line f).start, b, .error .needMore) := by
  obtain ⟨-, hmore⟩ | ⟨hline, hbad | ⟨f, hf⟩⟩ := parseFirstLine_cases b
  · exact .inl (by simp [parse, hmore])
  · refine .inr (.inl fun y => ?_)
    have := hbad h
    rw [← h.parseFirstLine_append hline y] at this
    rcases hfirst : h.parseFirstLine (b ++ y) with ⟨h', _ | _⟩ <;> simp_all [parse]
  · have hnext := next_noLine (new_fresh (b.drop (lineEnd b)) (h.line f).disableNormalizing) hn
    refine .inr (.inr ⟨f, hf, ?_⟩)
    simp only [parse, hf h, parseHeaders, scanAll, scan, hnext]
    simp [Scanner.mem, Scanner.new, Except.map]

theorem OneLook.loop (hlook : OneLook r) (h₀ : ResponseHeader) :
    loop.OneLook seen (fun n h => h = h₀ ∨ ∃ f, FirstLine f (r.unread.take n) ∧ h = (h₀.line f).start) h₀ r where
  start _ := .inl rfl
  mono n m h hnm := Or.imp_right fun ⟨f, hf, hh⟩ => ⟨f, by
    rw [← Nat.add_sub_cancel' hnm, take_add]
    exact hf.append _, hh⟩
  alike n h := by
    rintro (rfl | ⟨f, hf, rfl⟩)
    · rfl
    · exact hf.parse_again h₀
  stable n hlt hn v hv := by
    obtain hp | hp | ⟨f, -, hp⟩ := h₀.parse_early (hlook n hlt hn)
    · simp [Retry.Loop.judgement, hp, ResponseHeader.loop] at hv
    · obtain ⟨_, _, hnow⟩ := hp []
      obtain ⟨_, _, hlater⟩ := hp ((r.unread.drop n).take (r.size - n))
      rw [← take_add, Nat.add_sub_cancel' (by omega)] at hlater
      rw [append_nil] at hnow
      rw [← hv]
      simp [Retry.Loop.judgement, ResponseHeader.loop, hnow, hlater]
    · simp [Retry.Loop.judgement, hp, ResponseHeader.loop] at hv
  waits n hlt hn h mem hp := by
    have hp : h₀.parse (r.unread.take n) = (h, mem, .error .needMore) := hp
    obtain hp' | hp' | ⟨f, hf, hp'⟩ := h₀.parse_early (hlook n hlt hn)
    · rw [hp'] at hp
      cases hp
      exact ⟨.inl rfl, rfl⟩
    · obtain ⟨_, _, hnow⟩ := hp' []
      rw [append_nil, hp] at hnow
      cases hnow
    · rw [hp'] at hp
      cases hp
      exact ⟨.inr ⟨f, hf, rfl⟩, rfl⟩

theorem read_once (h : ResponseHeader) (r : Reader Byte Err) (hlook : OneLook r) :
    Retry.Loop.outcome seen (h.read r) = (loop.judgement seen h.resetSkipNormalize (r.unread.take r.size)).getD
      (.error (if r.size ≤ r.unread.length then .bufferFull else readErr r.src.last)) :=
  (hlook.loop h.resetSkipNormalize).read parse_inPlace rfl

theorem Readable.headerEnd_le {e m : Nat} (hr : h₀.Readable (t.take m)) (he : headerEnd t = some e) : e ≤ m := by
  obtain ⟨f, hline, -, hblank⟩ := hr
  have hn : nChar ∈ t.take m := by
    by_contra hn
    obtain ⟨-, hmore⟩ | ⟨hn', -⟩ := parseFirstLine_cases (t.take m)
    · simp [hmore] at hline
    · exact hn hn'
  obtain ⟨hl, hdrop⟩ := drop_take_lineEnd hn
  obtain ⟨bl, z, hz, -, -, -, hblock⟩ := blank_split hblank
  have hb := text_lines ((t.take m).drop (lineEnd (t.take m)))
  rw [hz] at hb
  have hle := lineEnd_le (t.take m)
  have hlen := congrArg List.length hb
  rw [headerEnd, hdrop, ← hb, append_assoc, append_assoc, blockEnd_text, hblock, hl] at he
  simp only [Option.map_some, Option.some.injEq, length_append, length_drop, length_take] at he hlen hle
  omega

theorem OneLook.clean {e : Nat} (hlook : OneLook r) (hr : h₀.Readable (r.unread.take r.size)) (he : headerEnd r.unread = some e)
    (hlt : n < e) (hn : r.Arrives n) : h₀.Clean r.unread n := by
  by_cases hline : nChar ∈ r.unread.take n
  swap
  · exact clean_noLine h₀ hline
  have hsize := hr.headerEnd_le he
  have hlen := headerEnd_le he
  have hnone := hlook n (by omega) hn
  rw [← (drop_take_lineEnd hline).1] at hnone
  intro g hg
  rw [fields, (lines_noLine hnone).1] at hg
  simp at hg

/-- A read in pieces ends as a read of all bytes at once, unless the header is read with success
and an attempt before the last one found a complete field of the lists. -/
theorem read_split_iff (h : ResponseHeader) (r : Reader Byte Err)
    (hfold : NoFold (r.unread.drop (lineEnd r.unread)) ∨ OneLook r) :
    Retry.Loop.outcome seen (h.read r) = Retry.Loop.outcome seen (h.read r.whole) ↔
      (h.resetSkipNormalize.Readable (r.unread.take r.size) → ∀ e, headerEnd r.unread = some e →
        ∀ n < e, r.Arrives n → h.resetSkipNormalize.Clean r.unread n) := by
  rcases hfold with hfold | hlook
  swap
  · refine iff_of_true ?_ fun hr e he n hlt hn => hlook.clean hr he hlt hn
    rw [read_once h r hlook, read_once h r.whole (oneLook_whole r)]
    simp
  have hfold' : NoFold (r.whole.unread.drop (lineEnd r.whole.unread)) := by rw [Reader.whole_unread]; exact hfold
  have hcore : Retry.Loop.outcome core (h.read r) = Retry.Loop.outcome core (h.read r.whole) := by
    rw [read_judge h r hfold, read_judge h r.whole hfold']
    simp
  rw [← read_ok_iff h r hfold]
  have hlists := read_lists h r hfold
  have hlists' := read_lists h r.whole hfold'
  rcases hr : h.read r with ⟨_ | e, h₁, r₁⟩ <;> rcases hw : h.read r.whole with ⟨_ | e', h₂, r₂⟩ <;>
    simp only [hr, hw, Retry.Loop.outcome, Except.ok.injEq, Except.error.injEq, reduceCtorEq] at hcore hlists hlists' ⊢
  · -- both succeed: the lists of the read of all bytes are those of the header
    obtain ⟨e, left, leftCookies, he, hh, hck, hleft⟩ := hlists trivial
    obtain ⟨e', left', leftCookies', he', hh', hck', hleft'⟩ := hlists' trivial
    rw [Reader.whole_unread] at he' hh' hck' hleft'
    obtain ⟨rfl, rfl⟩ := hleft'.mpr fun n hlt hn => whole_clean hn he' hlt
    simp only [core, mk.injEq] at hcore
    simp [seen, hcore, hh, hh', hck, hck', hleft, he]
  · simp [hcore]

theorem read_split_iff_plain :
    Retry.Loop.outcome seen (zero.read (wire ["HTTP/1.1 200 OK\r\nServer: a\r\n", "A: b\r\n\r\n"]))
      = Retry.Loop.outcome seen (zero.read (wire ["HTTP/1.1 200 OK\r\nServer: a\r\n", "A: b\r\n\r\n"]).whole) := by
  refine (read_split_iff zero _ (.inl (by decide +kernel))).mpr fun _ e he => ?_
  have he' : headerEnd (wire ["HTTP/1.1 200 OK\r\nServer: a\r\n", "A: b\r\n\r\n"]).unread = some 36 := by decide +kernel
  rw [he', Option.some.injEq] at he
  subst he
  decide +kernel

/-- Both attempts find the field. -/
theorem read_split_twice :
    (zero.read (wire ["HTTP/1.1 200 OK\r\nA: b\r\n", "\r\n"])).2.1.h
      = [⟨ascii "A", ascii "b", false⟩, ⟨ascii "A", ascii "b", false⟩] ∧
    (zero.read (wire ["HTTP/1.1 200 OK\r\nA: b\r\n", "\r\n"]).whole).2.1.h = [⟨ascii "A", ascii "b", false⟩] := by
  decide +kernel

end ResponseHeader

end Fasthttp
