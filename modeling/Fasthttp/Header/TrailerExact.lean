import Fasthttp.Header.TrailerSplit

/-!
# Trailers that are read as they stand

`ReadTrailer` adds one entry for each line of the trailer and stops behind its blank line, however the bytes arrive,
exactly under the conditions of `readTrailer_exact_iff`.
-/

namespace Fasthttp

open Scanner Bufio Retry.Loop List

variable {b t : Bytes} {n : Nat} {x : Err}

/-! ## The lines of a trailer -/

def Line.spelled (l : Line) : Bytes × Bytes := (l.k, trimValue l.v)

theorem block_text {z : Bytes} (hz : 0 < blankLen z) (ls : List Line) : Block (text ls ++ z) (ls.map Line.spelled) := by
  induction ls with
  | nil => exact .blank hz
  | cons l ls ih =>
    have hstart : ¬StartsBlank (text ls ++ z) := by
      cases ls with
      | nil =>
        intro h
        rw [text_nil, nil_append] at h
        rw [blankLen_startsBlank h] at hz
        exact absurd hz (by decide)
      | cons m ls =>
        rw [text_cons, append_assoc]
        exact m.not_startsBlank_text _
    have hblock : Block (l.k ++ colonChar :: (l.bl ++ (l.v ++ nChar :: (unlines [] ++ (text ls ++ z)))))
        ((l.k, foldedValue l.v []) :: ls.map Line.spelled) := .field l.field (by simp) hstart ih
    rw [text_cons, append_assoc, Line.text_append]
    exact hblock

theorem lines_blank (h : 0 < blankLen b) : lines b = [] ∧ behind b = b := by
  obtain ⟨bl, z, rfl, hlines, hbehind, hpos, -⟩ := blank_split h
  have hfin : Final (behind bl) := by
    rw [hbehind]
    exact .blank bl hpos
  have hn : nChar ∈ behind bl := by
    rw [hbehind]
    exact lf_mem_of_blankLen hpos
  obtain ⟨h1, h2⟩ := lines_append hfin hn z
  exact ⟨h1.trans hlines, by rw [h2, hbehind]⟩

variable {fs : List (Bytes × Bytes)}

theorem block_iff (hfold : NoFold b) :
    Block b fs ↔ ending (behind b) = none ∧ fs = (lines b).map Line.spelled := by
  constructor
  · intro h
    induction h with
    | @blank b hb =>
      have hstop := lines_blank hb
      rw [hstop.1, hstop.2, ending, if_pos hb]
      exact ⟨rfl, rfl⟩
    | @field k bl v t ls fs hf hls ht _ ih =>
      obtain ⟨hk, hrest⟩ := (noFold_field hf _).mp hfold
      obtain rfl : ls = [] := by
        rcases ls with _ | ⟨l, ls⟩
        · rfl
        · refine absurd ?_ (noFold_not_startsBlank hrest)
          rw [unlines_cons, append_assoc]
          exact startsBlank_append (hls l (by simp)).blank _
      obtain ⟨hend, rfl⟩ := ih hrest
      have hline : k ++ colonChar :: (bl ++ (v ++ nChar :: (unlines [] ++ t))) = text [⟨k, bl, v, hf, hk⟩] ++ t := by simp [Line.text]
      rw [hline, lines_text, behind_text]
      exact ⟨hend, rfl⟩
  · rintro ⟨hend, rfl⟩
    have hblock := block_text (ending_blank hend) (lines b)
    rwa [text_lines] at hblock

theorem fields_spelled (d : Bool) (b : Bytes) : fields d b = ((lines b).map Line.spelled).map fun f => (initHeaderK f.1 d, f.2) := by
  rw [map_map]
  rfl

/-! ## What it means to read a trailer -/

def trailerOutcome (o : Option Err × List ArgsKV × Reader Byte Err) : Except Err (List ArgsKV × Bytes) :=
  match o.1 with
  | none => .ok (o.2.1, o.2.2.unread)
  | some e => .error e

/-- A read that succeeds adds one entry for each line and stops behind the blank line, as when all bytes come at once. -/
structure ExactTrailer (d : Bool) (h : List ArgsKV) (read : Reader Byte Err → Option Err × List ArgsKV × Reader Byte Err)
    (r : Reader Byte Err) :
    Prop where
  adds : ∀ list rest, trailerOutcome (read r) = .ok (list, rest) → ∃ fs e, Block r.unread fs ∧ blockEnd r.unread = some e ∧
    list = h ++ fs.map (fun f => ⟨initHeaderK f.1 d, f.2, false⟩) ∧ rest = r.unread.drop e
  same : trailerOutcome (read r) = trailerOutcome (read r.whole)

/-- If the buffer can hold the trailer and its names are accepted: no line is folded or without a name, and no bytes
are waited for behind the first line. -/
def FitsTrailer (good : Bytes → Bool) (d : Bool) (r : Reader Byte Err) : Prop :=
  ∀ fs, Block (r.unread.take r.size) fs → (∀ f ∈ fs, f.1 = [] ∨ good (initHeaderK f.1 d) = true) →
    NoFold r.unread ∧ (∀ f ∈ fs, f.1 ≠ []) ∧ ∀ e, blockEnd r.unread = some e → ∀ n < e, r.Arrives n → n < lineEnd r.unread

/-! ## Without folded lines -/

theorem initHeaderK_eq_nil (k : Bytes) (d : Bool) : initHeaderK k d = [] ↔ k = [] := by
  rw [← length_eq_zero_iff, initHeaderK_length, length_eq_zero_iff]

variable {good : Bytes → Bool} {d : Bool}

theorem allGood_spelled :
    AllGood good (fields d b) ↔ ∀ f ∈ (lines b).map Line.spelled, f.1 = [] ∨ good (initHeaderK f.1 d) = true := by
  rw [AllGood, fields_spelled, forall_mem_map]
  simp [initHeaderK_eq_nil]

theorem trailerEntries_spelled (left : List ArgsKV) (hleft : ∀ kv ∈ left, kv.key ≠ []) :
    left ++ trailerEntries (fs.map fun f => (initHeaderK f.1 d, f.2)) = fs.map (fun f => ⟨initHeaderK f.1 d, f.2, false⟩) ↔
      left = [] ∧ ∀ f ∈ fs, f.1 ≠ [] := by
  have hall : (∀ f ∈ fs, f.1 ≠ []) →
      trailerEntries (fs.map fun f => (initHeaderK f.1 d, f.2)) = fs.map (fun f => ⟨initHeaderK f.1 d, f.2, false⟩) := by
    intro hnames
    have hfilter : (fs.map fun f => (initHeaderK f.1 d, f.2)).filter (fun f => f.1 ≠ []) = fs.map fun f =>
        (initHeaderK f.1 d, f.2) := by
      refine filter_eq_self.mpr fun f hf => ?_
      obtain ⟨g, hg, rfl⟩ := mem_map.mp hf
      simpa [initHeaderK_eq_nil] using hnames g hg
    rw [trailerEntries, hfilter, map_map]
    rfl
  constructor
  · intro h
    have hnames : ∀ f ∈ fs, f.1 ≠ [] := by
      intro f hf
      have hmem : (⟨initHeaderK f.1 d, f.2, false⟩ : ArgsKV) ∈ left ++ trailerEntries (fs.map fun f => (initHeaderK f.1 d, f.2)) := by
        rw [h]
        exact mem_map.mpr ⟨f, hf, rfl⟩
      have hkey : initHeaderK f.1 d ≠ [] := by
        rcases mem_append.mp hmem with hmem | hmem
        · exact hleft _ hmem
        · exact trailerEntries_named _ _ hmem
      rwa [ne_eq, initHeaderK_eq_nil] at hkey
    rw [hall hnames] at h
    exact ⟨by simpa using h, hnames⟩
  · rintro ⟨rfl, hnames⟩
    rw [nil_append, hall hnames]

theorem lineEnd_line {l : Bytes} (hl : nChar ∉ l) (t : Bytes) : lineEnd (l ++ nChar :: t) = l.length + 1 := by
  simp [lineEnd, indexByte, FirstIndex.idxOf?_append_cons _ _ _ hl]

theorem lineEnd_blank (h : 0 < blankLen t) : lineEnd t = blankLen t := by
  obtain ⟨u, rfl | rfl⟩ := blank_cases h
  · exact lineEnd_line (l := [rChar]) (by decide) u
  · exact lineEnd_line (l := []) (by simp) u

theorem no_lf_take_lineEnd (hn : n < lineEnd t) : nChar ∉ t.take n := by
  unfold lineEnd at hn
  split at hn
  · next x hx => exact fun hc => FirstIndex.take_of_idxOf? hx ((take_prefix_take_left (by omega)).subset hc)
  · omega

theorem untouched_iff {e : Nat} (he : blockEnd t = some e) (hend : ending (behind t) = none)
    (hnames : ∀ f ∈ (lines t).map Line.spelled, f.1 ≠ []) (hn : n < e) : Untouched d [] t n ↔ n < lineEnd t := by
  have ht := text_lines t
  constructor
  · intro h
    rcases hl : lines t with _ | ⟨l, ls⟩
    · -- the blank line is the first one
      rw [hl, text_nil, nil_append] at ht
      have hblank := ending_blank hend
      rw [ht] at hblank
      rw [blockEnd_blank rfl hblank, Option.some.injEq] at he
      rwa [lineEnd_blank hblank, he]
    · by_contra hge
      rw [hl, text_cons, append_assoc] at ht
      have hline : lineEnd t = l.text.length := by
        rw [← ht, Line.text_append]
        have hcut : l.k ++ colonChar :: (l.bl ++ (l.v ++ nChar :: (text ls ++ behind t)))
            = (l.k ++ colonChar :: (l.bl ++ l.v)) ++ nChar :: (text ls ++ behind t) := by simp
        rw [hcut, lineEnd_line (shape_line _ _ _ l.field).noLF]
        simp [Line.text]
        omega
      have htake : t.take n = text [l] ++ (text ls ++ behind t).take (n - l.text.length) := by
        conv_lhs => rw [← ht]
        rw [take_append, take_of_length_le (by omega)]
        simp
      have hkey : initHeaderK l.k d ≠ [] := by
        rw [ne_eq, initHeaderK_eq_nil]
        exact hnames l.spelled (by simp [hl])
      rw [Untouched, length_nil, drop_zero, htake, fields, lines_text, singleton_append, map_cons,
        trailerEntries_cons] at h
      simp [Line.entry, hkey] at h
  · intro hlt
    rw [Untouched, length_nil, drop_zero, fields, (lines_noLine (no_lf_take_lineEnd hlt)).1]
    rfl

variable {r : Reader Byte Err}

theorem readTrailerWith_short (L : Retry.Loop (List ArgsKV) Byte Err) (h : List ArgsKV) (ht : r.unread.length < 2) :
    (readTrailerWith L h r).1 = some (if r.src.last = .eof then .unexpectedTrailerEOF else r.src.last) := by
  have hleast := r.least
  obtain ⟨r', hp, -⟩ := Reader.peek_short ht (by omega)
  simp [readTrailerWith, hp]

theorem take_two_crlf (h : t.take 2 = strCRLF) : ∃ u, t = rChar :: nChar :: u :=
  ⟨t.drop 2, by rw [← take_append_drop 2 t, h]; rfl⟩

theorem NoFold.take (h : NoFold t) (n : Nat) : NoFold (t.take n) := by
  rw [← take_append_drop n t] at h
  exact h.left

variable {o : Option Err × List ArgsKV × Reader Byte Err}

theorem outcome_ok_iff : o.1 = none ↔ outcome (fun _ => ()) o = .ok () := by
  rcases o with ⟨_ | e, s, r⟩ <;> simp [outcome]

theorem verdict_getD_ok {e : Option Err} : (verdict e).getD (.error x) = .ok () ↔ e = none := by
  rcases e with _ | e
  · simp [verdict]
  · by_cases he : e = .needMore <;> simp [verdict, he]

theorem verdict_getD_ne_eof {e : Option Err} (he : e ≠ some .eof) (hx : x ≠ .eof) :
    (verdict e).getD (.error x) ≠ .error .eof := by
  rcases e with _ | e
  · simp [verdict]
  · by_cases hmore : e = .needMore
    · simpa [verdict, hmore] using hx
    · simpa [verdict, hmore] using he

theorem block_take_iff (hfold : NoFold t) (h : Block (t.take n) fs) :
    fs = (lines t).map Line.spelled ∧ ending (behind t) = none := by
  obtain ⟨hend, rfl⟩ := (block_iff (hfold.take n)).mp h
  have hcut := take_append_drop n t
  have hfin := behind_final (hfold.take n)
  obtain ⟨hn, hsame⟩ := ending_append hfin (by rw [hend]; simp) (t.drop n)
  obtain ⟨hlines, hbehind⟩ := lines_append hfin hn (t.drop n)
  rw [hcut] at hlines hbehind
  exact ⟨by rw [hlines], by rw [hbehind, hsame, hend]⟩

theorem trailerOutcome_ok (h : o.1 = none) :
    trailerOutcome o = .ok (o.2.1, o.2.2.unread) := by
  rw [trailerOutcome, h]

theorem short_block (hlt : t.length < 2) (hend : ending (behind t) = none) :
    (∀ f ∈ (lines t).map Line.spelled, f.1 ≠ []) ∧ ∀ e, blockEnd t = some e → ∀ n < e, n < lineEnd t := by
  have hlines : lines t = [] := by
    rcases hl : lines t with _ | ⟨l, ls⟩
    · rfl
    · have hlen := congrArg List.length (text_lines t)
      rw [hl] at hlen
      simp only [text_cons, Line.text, length_append, length_cons] at hlen
      omega
  have ht := text_lines t
  rw [hlines, text_nil, nil_append] at ht
  have hblank := ending_blank hend
  rw [ht] at hblank
  refine ⟨by simp [hlines], fun e he n hn => ?_⟩
  rw [blockEnd_blank rfl hblank, Option.some.injEq] at he
  rwa [lineEnd_blank hblank, he]

section Plain

variable {L : Retry.Loop (List ArgsKV) Byte Err} {d : Bool} {good : Bytes → Bool} {fine : Bytes → Prop} {error : Bytes → Option Err}
  (hA : Attempts L d good [] fine error) (hL : PlainLoop L d fine) {h : List ArgsKV} {r : Reader Byte Err} (hfold : NoFold r.unread)
  (hfine : ∀ b, b <+: r.unread → fine b)
include hA hfold hfine

theorem plain_outcome : outcome (fun _ => ()) (readTrailerWith L h r) = outcome (fun _ => ()) (readTrailerWith L h r.whole) := by
  have hw := r.whole_unread
  by_cases hlt : r.unread.length < 2
  · rw [outcome, outcome, readTrailerWith_short L h hlt, readTrailerWith_short L h (hw.symm ▸ hlt), r.whole_last]
  by_cases hcrlf : r.unread.take 2 = strCRLF
  · obtain ⟨u, hu⟩ := take_two_crlf hcrlf
    obtain ⟨r₁, h₁, -⟩ := readTrailerWith_crlf L h hu
    obtain ⟨r₂, h₂, -⟩ := readTrailerWith_crlf L h (hw.trans hu)
    rw [h₁, h₂]
    rfl
  · have h₁ := (hA.readTrailer h (by omega) hcrlf nil_prefix hfold hfine).1
    have h₂ := (hA.readTrailer h (r := r.whole) (by rw [hw]; omega) (by rw [hw]; exact hcrlf) nil_prefix
      (by rw [hw]; exact hfold) (by rw [hw]; exact hfine)).1
    rw [hw, r.whole_size, r.whole_last] at h₂
    rw [h₁, h₂]

theorem plain_success_iff (hge : 2 ≤ r.unread.length) : (readTrailerWith L h r).1 = none ↔
    ∃ fs, Block (r.unread.take r.size) fs ∧ ∀ f ∈ fs, f.1 = [] ∨ good (initHeaderK f.1 d) = true := by
  have hleast := r.least
  by_cases hcrlf : r.unread.take 2 = strCRLF
  · obtain ⟨u, hu⟩ := take_two_crlf hcrlf
    obtain ⟨r₁, h₁, -⟩ := readTrailerWith_crlf L h hu
    have hblank : 0 < blankLen (r.unread.take r.size) := by
      have htake : (r.unread.take r.size).take 2 = strCRLF := by rw [take_take, min_eq_left (by omega), hcrlf]
      obtain ⟨v, hv⟩ := take_two_crlf htake
      rw [hv, blankLen_crlf]
      decide
    rw [h₁]
    exact iff_of_true rfl ⟨[], .blank hblank, by simp⟩
  · rw [outcome_ok_iff, (hA.readTrailer h hge hcrlf nil_prefix hfold hfine).1, verdict_getD_ok, length_nil, drop_zero,
      hA.ok_iff _ (hfold.take _), allGood_spelled]
    constructor
    · rintro ⟨hgood, hend⟩
      exact ⟨_, (block_iff (hfold.take _)).mpr ⟨hend, rfl⟩, hgood⟩
    · rintro ⟨fs, hfs, hgood⟩
      obtain ⟨hend, rfl⟩ := (block_iff (hfold.take _)).mp hfs
      exact ⟨hgood, hend⟩

include hL

theorem plain_read (hok : (readTrailerWith L h r).1 = none) : ∃ e left, blockEnd r.unread = some e ∧
    Block (r.unread.take r.size) ((lines r.unread).map Line.spelled) ∧
    (∀ f ∈ (lines r.unread).map Line.spelled, f.1 = [] ∨ good (initHeaderK f.1 d) = true) ∧
    (readTrailerWith L h r).2.2.unread = r.unread.drop e ∧
    (readTrailerWith L h r).2.1 = h ++ (left ++ trailerEntries (fields d r.unread)) ∧ (∀ kv ∈ left, kv.key ≠ []) ∧
    (left = [] ↔ ∀ n < e, r.Arrives n → Untouched d [] r.unread n) := by
  have hge : 2 ≤ r.unread.length := by
    by_contra hlt
    rw [readTrailerWith_short L h (by omega)] at hok
    cases hok
  obtain ⟨fs, hfs, hgood⟩ := (plain_success_iff hA hfold hfine hge).mp hok
  obtain ⟨rfl, hend⟩ := block_take_iff hfold hfs
  obtain ⟨e, he, hl⟩ := (readTrailerWith_plain hL h hfold hfine).2 hok
  by_cases hcrlf : r.unread.take 2 = strCRLF
  · obtain ⟨u, hu⟩ := take_two_crlf hcrlf
    obtain ⟨r₁, h₁, -⟩ := readTrailerWith_crlf L h hu
    have hblank : 0 < blankLen r.unread := by
      rw [hu, blankLen_crlf]
      decide
    have hfields : fields d r.unread = [] := by rw [fields, (lines_blank hblank).1]; rfl
    have he2 : e = 2 := by
      rw [hu, blockEnd_crlf, Option.some.injEq] at he
      exact he.symm
    refine ⟨e, [], he, hfs, hgood, hl.unread, ?_, by simp, iff_of_true rfl fun n hn _ => untouched_short (by omega) d []⟩
    rw [h₁, hfields]
    simp [trailerEntries]
  · obtain ⟨e', left, hT⟩ := (hA.readTrailer h hge hcrlf nil_prefix hfold hfine).2 hok
    have hT' := hT.blockEnd
    rw [length_nil, drop_zero, he, Option.some.injEq] at hT'
    subst hT'
    refine ⟨e, left, he, hfs, hgood, hl.unread, ?_, hT.named, ?_⟩
    · rw [hT.list, length_nil, drop_zero, append_assoc]
    · simpa using hT.left

theorem plain_whole (hok : (readTrailerWith L h r.whole).1 = none) : ∃ e, blockEnd r.unread = some e ∧
    trailerOutcome (readTrailerWith L h r.whole) = .ok (h ++ trailerEntries (fields d r.unread), r.unread.drop e) := by
  have hw := r.whole_unread
  obtain ⟨e, left, he, -, -, hrest, hlist, -, hleft⟩ := plain_read hA hL (hw.symm ▸ hfold) (hw.symm ▸ hfine) hok
  rw [hw] at he hrest hlist hleft
  have hnil : left = [] := by
    refine hleft.mpr fun n hn harr => ?_
    have hle := blockEnd_le he
    rcases r.arrives_whole harr with rfl | rfl
    · exact untouched_short (by decide) d []
    · omega
  rw [hnil, nil_append] at hlist
  exact ⟨e, he, by rw [trailerOutcome_ok hok, hlist, hrest]⟩

theorem plain_exact_iff : ExactTrailer d h (readTrailerWith L h) r ↔ FitsTrailer good d r := by
  constructor
  · intro hexact fs hfs hgood
    obtain ⟨rfl, hend⟩ := block_take_iff hfold hfs
    by_cases hlt : r.unread.length < 2
    · obtain ⟨hnames, hline⟩ := short_block hlt hend
      exact ⟨hfold, hnames, fun e he n hn _ => hline e he n hn⟩
    have hok := (plain_success_iff (h := h) hA hfold hfine (by omega)).mpr ⟨_, hfs, hgood⟩
    obtain ⟨e, left, he, -, -, hrest, hlist, hnamed, hleft⟩ := plain_read hA hL hfold hfine hok
    obtain ⟨fs', e', hfs', -, hlist', -⟩ := hexact.adds _ _ (trailerOutcome_ok hok)
    obtain ⟨-, rfl⟩ := (block_iff hfold).mp hfs'
    rw [hlist, append_cancel_left_eq, fields_spelled, trailerEntries_spelled _ hnamed] at hlist'
    obtain ⟨rfl, hnames⟩ := hlist'
    refine ⟨hfold, hnames, fun e' he' n hn harr => ?_⟩
    obtain rfl : e = e' := by rw [he, Option.some.injEq] at he'; exact he'
    exact (untouched_iff he hend hnames hn).mp (hleft.mp rfl n hn harr)
  · intro hfits
    have hread : (readTrailerWith L h r).1 = none → ∃ e, blockEnd r.unread = some e ∧ ending (behind r.unread) = none ∧
        (∀ f ∈ (lines r.unread).map Line.spelled, f.1 ≠ []) ∧
        trailerOutcome (readTrailerWith L h r) = .ok (h ++ trailerEntries (fields d r.unread), r.unread.drop e) := by
      intro hok
      obtain ⟨e, left, he, hfs, hgood, hrest, hlist, -, hleft⟩ := plain_read hA hL hfold hfine hok
      obtain ⟨-, hend⟩ := block_take_iff hfold hfs
      obtain ⟨-, hnames, harrives⟩ := hfits _ hfs hgood
      have hnil : left = [] := hleft.mpr fun n hn harr => (untouched_iff he hend hnames hn).mpr (harrives e he n hn harr)
      rw [hnil, nil_append] at hlist
      exact ⟨e, he, hend, hnames, by rw [trailerOutcome_ok hok, hlist, hrest]⟩
    have hout := plain_outcome (h := h) hA hfold hfine
    rcases hr : readTrailerWith L h r with ⟨_ | x, h', r'⟩
    · have hok : (readTrailerWith L h r).1 = none := by rw [hr]
      obtain ⟨e, he, hend, hnames, hdone⟩ := hread hok
      have hwok : (readTrailerWith L h r.whole).1 = none := by
        rw [outcome_ok_iff, ← hout]
        exact outcome_ok_iff.mp hok
      obtain ⟨e', he', hwdone⟩ := plain_whole hA hL hfold hfine hwok
      obtain rfl : e = e' := by rw [he, Option.some.injEq] at he'; exact he'
      refine ⟨fun list rest h0 => ?_, hdone.trans hwdone.symm⟩
      rw [hdone] at h0
      obtain ⟨rfl, rfl⟩ := h0
      refine ⟨_, e, (block_iff hfold).mpr ⟨hend, rfl⟩, he, ?_, rfl⟩
      have hentries := (trailerEntries_spelled (d := d) [] (by simp)).mpr ⟨rfl, hnames⟩
      rw [fields_spelled, ← hentries, nil_append]
    · have hbad : trailerOutcome (readTrailerWith L h r) = .error x := by rw [trailerOutcome, hr]
      refine ⟨fun list rest h0 => by simp [hbad] at h0, ?_⟩
      rw [hbad]
      rw [hr] at hout
      rcases hw : readTrailerWith L h r.whole with ⟨_ | x', h'', r''⟩
      · rw [hw] at hout
        simp [outcome] at hout
      · rw [hw] at hout
        simp only [outcome, Except.error.injEq] at hout
        rw [hout, trailerOutcome]

end Plain

/-! ## Trailers that come at once -/

structure TrailerFound (good : Bytes → Bool) (d : Bool) (b : Bytes) (n e : Nat) (fs : List (Bytes × Bytes)) : Prop where
  block : Block b fs
  good : ∀ f ∈ fs, f.1 = [] ∨ good (initHeaderK f.1 d) = true
  blockEnd : blockEnd b = some e
  le : n ≤ e
  noFold : n = e ↔ NoFold b

theorem found_of_scan {σ : Type} {body : σ → Bytes → Bytes → σ × Option Err} (hbody : Strict body)
    (hgood : ∀ h h' fs, feed body h fs = (h', none) → AllGood good fs) {h h' : σ} {s' : Scanner}
    (hscan : scanAll body (Scanner.new b d) h = (h', s', none)) : ∃ e fs, TrailerFound good d b s'.hLen e fs := by
  obtain ⟨fs, hfs, hfeed⟩ := scanAll_block hbody (new_fresh b d) hscan
  obtain ⟨q, e, x, he, -, hlen, -, hsum, -, hfold⟩ := scanAll_success hbody (new_fresh b d) hscan
  have hlen : s'.hLen = q.length := by simpa [Scanner.new] using hlen
  refine ⟨e, fs, hfs, ?_, he, by omega, ?_⟩
  · have hfed : feed body h (fs.map fun f => (initHeaderK f.1 d, f.2)) = (h', none) :=
      (feed_map _ h fs).trans hfeed
    intro f hf
    have h0 := hgood h h' _ hfed _ (mem_map.mpr ⟨f, hf, rfl⟩)
    rwa [initHeaderK_eq_nil] at h0
  · rw [← show x = 0 ↔ NoFold b from hfold]
    omega

theorem hasBlank_of_startsBlank {k : Bytes} (h : StartsBlank k) : k.isEmpty = false ∧ hasBlank k = true := by
  obtain ⟨c, t, rfl, hc⟩ := startsBlank_cons h
  refine ⟨rfl, ?_⟩
  unfold isBlank at hc
  unfold hasBlank
  rw [Bool.or_eq_true] at hc ⊢
  rcases hc with hc | hc
  · exact .inl (by simpa using .inl (by simpa using Eq.symm (by simpa using hc)))
  · exact .inr (by simpa using .inl (by simpa using Eq.symm (by simpa using hc)))

namespace RequestHeader

theorem trailerField_strict : Strict trailerField where
  blank := by
    intro h k hk
    obtain ⟨hne, hblank⟩ := hasBlank_of_startsBlank hk
    exact ⟨_, fun v => by simp [trailerField, hne, hblank]; rfl⟩
  definite := by
    intro h k v he
    exact (trailerField_error he).2 rfl

theorem parseTrailer_found {h h' : List ArgsKV} {b mem : Bytes} {n : Nat} (hp : parseTrailer d h b = (h', mem, .ok n)) :
    ∃ e fs, TrailerFound goodTrailer d b n e fs := by
  unfold parseTrailer at hp
  rcases hscan : scanAll trailerField (Scanner.new b d) h with ⟨h₁, s', _ | e⟩
  · rw [hscan] at hp
    obtain ⟨-, -, rfl⟩ := hp
    refine found_of_scan trailerField_strict (fun h h' fs hfeed => ?_) hscan
    by_contra hno
    exact (feed_trailerField h fs).2.1 hno (by rw [hfeed])
  · simp [hscan] at hp

end RequestHeader

variable {h : List ArgsKV}

namespace ResponseHeader

variable {h' : List ArgsKV}

def checkedField (h : List ArgsKV) (key value : Bytes) : List ArgsKV × Option Err :=
  if key.isEmpty then (h, none)
  else if goodTrailer key then (appendArg h key value false, none)
  else (h, some .invalidName)

theorem checkedField_strict : Strict checkedField where
  blank := by
    intro h k hk
    obtain ⟨hne, hblank⟩ := hasBlank_of_startsBlank hk
    exact ⟨.invalidName, fun v => by simp [checkedField, hne, goodTrailer, hblank]⟩
  definite := by
    intro h k v
    unfold checkedField
    split
    · simp
    · split <;> simp

theorem feed_checkedField (hfeed : feed checkedField h fs = (h', none)) :
    AllGood goodTrailer fs := by
  induction fs generalizing h with
  | nil => simp [AllGood]
  | cons f fs ih =>
    obtain ⟨h₁, hone, hrest⟩ := feed_cons hfeed
    refine forall_mem_cons.mpr ⟨?_, ih hrest⟩
    unfold checkedField at hone
    split at hone
    · next hkey => exact .inl (isEmpty_iff.mp hkey)
    · split at hone
      · exact .inr ‹_›
      · simp at hone

theorem scan_kept (fuel : Nat) (s : Scanner) (h : List ArgsKV) (e : Err) : (scan trailerField fuel s (h, some e)).1.2 ≠ none := by
  induction fuel generalizing s h e with
  | zero => simp [scan]
  | succ fuel ih =>
    rcases hn : s.next with ⟨_ | _, s'⟩
    · simp [scan, hn]
    · rcases trailerField_cases s'.key s'.value with ⟨-, hstep⟩ | ⟨-, -, hstep⟩ | ⟨-, -, y, hstep⟩
      all_goals
        simp only [scan, hn, hstep]
        exact ih _ _ _

theorem scan_checked {fuel : Nat} {s s' : Scanner}
    (hscan : scan trailerField fuel s (h, none) = ((h', none), s', none)) : scan checkedField fuel s h = (h', s', none) := by
  induction fuel generalizing s h with
  | zero =>
    simp only [scan, Prod.mk.injEq] at hscan ⊢
    exact ⟨hscan.1.1, hscan.2⟩
  | succ fuel ih =>
    rcases hn : s.next with ⟨_ | _, s₁⟩
    · simp only [scan, hn, Prod.mk.injEq] at hscan ⊢
      exact ⟨hscan.1.1, hscan.2⟩
    · rcases trailerField_cases s₁.key s₁.value with ⟨hkey, hstep⟩ | ⟨hkey, hgood, hstep⟩ | ⟨-, -, y, hstep⟩
      · have hchecked : checkedField h s₁.key s₁.value = (h, none) := by simp [checkedField, hkey]
        simp only [scan, hn, hstep] at hscan
        simp only [scan, hn, hchecked]
        exact ih hscan
      · have hchecked : checkedField h s₁.key s₁.value = (h ++ [⟨s₁.key, s₁.value, false⟩], none) := by
          simp [checkedField, hkey, hgood, appendArg]
        simp only [scan, hn, hstep] at hscan
        simp only [scan, hn, hchecked]
        exact ih hscan
      · simp only [scan, hn, hstep] at hscan
        refine absurd ?_ (scan_kept fuel s₁ h y)
        rw [hscan]

theorem parseTrailer_found {p : Bytes} {b mem : Bytes} {n : Nat} (hskips : Skips p b)
    (hp : parseTrailer d h (p ++ b) = (h', mem, .ok n)) : ∃ e fs, TrailerFound goodTrailer d b n e fs := by
  rw [parseTrailer_skips hskips] at hp
  rcases hscan : scanAll trailerField (Scanner.new b d) (h, none) with ⟨⟨h₁, _ | e⟩, s', _ | e'⟩ <;> rw [hscan] at hp
  · obtain ⟨-, -, rfl⟩ := hp
    exact found_of_scan checkedField_strict (fun h h' fs => feed_checkedField) (scan_checked hscan)
  · simp at hp
  · simp at hp
  · simp at hp

end ResponseHeader

variable {L : Retry.Loop (List ArgsKV) Byte Err}

theorem readTrailerWith_whole (hL : L.InPlace)
    (hcrlf : r.unread.take 2 ≠ strCRLF) (hok : (readTrailerWith L h r.whole).1 = none) :
    ∃ mem n, L.parse h (r.unread.take r.size) = ((readTrailerWith L h r.whole).2.1, mem, .ok n) ∧
      (n ≤ (r.unread.take r.size).length → (readTrailerWith L h r.whole).2.2.unread.length + n = r.unread.length) := by
  have hleast := r.least
  have hw := r.whole_unread
  have hge : 2 ≤ r.whole.unread.length := by
    by_contra hlt
    rw [readTrailerWith_short L h (by omega)] at hok
    cases hok
  obtain ⟨hpeek, hbuf⟩ := Reader.peek_fillTo hge (by rw [r.whole_size]; omega)
  have hl := r.whole.fillTo_leaves 2
  obtain ⟨hbuf₁, hitems⟩ := r.whole_fillTo (n := 2) (by decide)
  have hread : readTrailerWith L h r.whole = L.read h (r.whole.fillTo 2) := by
    simp [readTrailerWith, hpeek, hcrlf]
  have hrule : L.Rule (fun s r₁ => s = h ∧ r₁ = r.whole.fillTo 2) fun out s' r' => out = none →
      ∃ mem n, L.parse h (r.whole.fillTo 2).buf = (s', mem, .ok n) ∧ r' = ((r.whole.fillTo 2).overwrite mem).discard n := by
    refine ⟨?_, ?_, ?_, ?_, ?_⟩
    · rintro s r₁ s' mem k ⟨rfl, rfl⟩ hp _
      exact ⟨mem, k, hp, rfl⟩
    · rintro s r₁ s' mem e ⟨rfl, rfl⟩ hp _ h0
      cases h0
    · rintro s r₁ s' mem ⟨rfl, rfl⟩ hp _ h0
      cases h0
    · rintro s r₁ s' mem ⟨rfl, rfl⟩ hp _ _ h0
      cases h0
    · -- what does not fit into the buffer is still to come only when the buffer is full
      rintro s r₁ s' mem ⟨rfl, rfl⟩ hp hroom hps
      rw [hl.size, r.whole_size, hbuf₁, length_take] at hroom
      refine absurd ((Source.items_eq_nil _).mp ?_) hps
      rw [hitems, drop_of_length_le (by omega)]
  have hne : (r.whole.fillTo 2).buf ≠ [] := by
    rw [← length_pos_iff]
    omega
  rw [hread] at hok ⊢
  obtain ⟨mem, n, hp, hr'⟩ := read_rule hrule hL h _ (fun _ => ⟨rfl, rfl⟩) (fun hb => absurd hb hne) (fun hb => absurd hb hne) hok
  rw [hbuf₁] at hp
  refine ⟨mem, n, hp, fun hn => ?_⟩
  have hlen : mem.length = (r.whole.fillTo 2).buf.length := by
    have := hL h (r.unread.take r.size)
    rwa [hp, ← hbuf₁] at this
  have hover : ((r.whole.fillTo 2).overwrite mem).buf.length = (r.unread.take r.size).length := by
    rw [Reader.overwrite_buf _ hlen, hlen, hbuf₁]
  have htotal := congrArg List.length (take_append_drop r.size r.unread)
  rw [length_append] at htotal
  rw [hr', Reader.discard_unread _ (by omega), length_drop, Reader.unread, length_append, Reader.overwrite_src, hitems]
  omega

/-! ## Trailers with folded lines, and those behind a digit zero -/

variable {read : Reader Byte Err → Option Err × List ArgsKV × Reader Byte Err}

theorem exact_same
    (hexact : ExactTrailer d h read r) (hok : (read r.whole).1 = none) :
    ∃ fs e, Block r.unread fs ∧ blockEnd r.unread = some e ∧ (read r.whole).2.2.unread.length + e = r.unread.length := by
  obtain ⟨fs, e, hfs, he, -, hrest⟩ := hexact.adds _ _ (hexact.same.trans (trailerOutcome_ok hok))
  have hle := blockEnd_le he
  refine ⟨fs, e, hfs, he, ?_⟩
  rw [hrest, length_drop]
  omega

theorem blockEnd_drop_three {e e' : Nat} (hblock : Block t fs) (hzero : t.head? = some (ch '0'))
    (he : blockEnd (t.drop 3) = some e) (he' : blockEnd t = some e') : e < e' := by
  cases hblock with
  | blank hblank =>
    obtain ⟨u, rfl | rfl⟩ := blank_cases hblank <;> exact absurd hzero (by simp [rChar, nChar, ch])
  | @field k bl v u ls fs hf hls hu hfs =>
    generalize hrest : unlines ls ++ u = rest at *
    have hcut : k ++ colonChar :: (bl ++ (v ++ nChar :: rest)) = (k ++ colonChar :: (bl ++ v)) ++ nChar :: rest := by simp
    have hline := shape_line k bl v hf
    have hlen : 2 ≤ (k ++ colonChar :: (bl ++ v)).length := by
      rcases k with _ | ⟨c, k⟩
      · exact absurd hzero (by simp [colonChar, ch])
      · simp
        omega
    rw [hcut] at he he'
    generalize k ++ colonChar :: (bl ++ v) = l at *
    rw [blockEnd_line hline] at he'
    obtain ⟨x, hx, rfl⟩ := Option.map_eq_some_iff.mp he'
    rcases Nat.lt_or_ge 2 l.length with hlong | hshort
    · rw [drop_append_of_le_length (by omega)] at he
      have hdrop : (l.drop 3).length + 3 = l.length := by
        rw [length_drop]
        omega
      have hlf : nChar ∉ l.drop 3 := fun hc => hline.noLF (mem_of_mem_drop hc)
      by_cases hnil : l.drop 3 = []
      · rw [hnil, nil_append, blockEnd_lf, Option.some.injEq] at he
        omega
      by_cases hcr : l.drop 3 = [rChar]
      · rw [hcr, singleton_append, blockEnd_crlf, Option.some.injEq] at he
        omega
      rw [blockEnd_line ⟨hlf, hnil, hcr⟩, hx, Option.map_some, Option.some.injEq] at he
      omega
    · have hdrop : (l ++ nChar :: rest).drop 3 = rest := by
        have htwo : l.length + 1 = 3 := by omega
        rw [← htwo, ← drop_drop, drop_left]
        rfl
      rw [hdrop, hx, Option.some.injEq] at he
      omega

theorem exact_of_errors
    (hr : (read r).1 = some x) (hw : (read r.whole).1 = some x) : ExactTrailer d h read r := by
  have hbad : ∀ {o : Option Err × List ArgsKV × Reader Byte Err}, o.1 = some x → trailerOutcome o = .error x := fun ho => by
    rw [trailerOutcome, ho]
  refine ⟨fun list rest h0 => ?_, (hbad hr).trans (hbad hw).symm⟩
  rw [hbad hr] at h0
  cases h0

theorem folded_not_exact (hL : L.InPlace)
    (hfound : ∀ h' mem n, L.parse h (r.unread.take r.size) = (h', mem, .ok n) →
      ∃ e fs, TrailerFound good d (r.unread.take r.size) n e fs)
    (hfold : ¬NoFold r.unread) (hok : (readTrailerWith L h r.whole).1 = none) :
    ¬ExactTrailer d h (readTrailerWith L h) r ∧ ¬FitsTrailer good d r := by
  have hcrlf : r.unread.take 2 ≠ strCRLF := by
    intro hcrlf
    obtain ⟨u, hu⟩ := take_two_crlf hcrlf
    exact hfold (hu ▸ noFold_crlf u)
  obtain ⟨mem, n, hp, hrest⟩ := readTrailerWith_whole hL hcrlf hok
  obtain ⟨e, fs, hf⟩ := hfound _ _ _ hp
  refine ⟨fun hexact => hfold ?_, fun hfits => hfold (hfits fs hf.block hf.good).1⟩
  have hle := blockEnd_le hf.blockEnd
  have hrest := hrest (hf.le.trans hle)
  obtain ⟨fs', e', -, he', hlen⟩ := exact_same hexact hok
  have hcut : r.unread.take r.size ++ r.unread.drop r.size = r.unread := take_append_drop _ _
  have he := blockEnd_append hf.blockEnd (r.unread.drop r.size)
  rw [hcut, he', Option.some.injEq] at he
  rw [← hcut, noFold_append hf.blockEnd]
  exact hf.noFold.mp (by omega)

theorem not_crlf_of_zero (h : t.head? = some (ch '0')) : t.take 2 ≠ strCRLF := by
  intro hcrlf
  obtain ⟨u, rfl⟩ := take_two_crlf hcrlf
  exact absurd h (by simp [rChar, ch])

namespace ResponseHeader

theorem trailerError_ne_eof (d : Bool) (b : Bytes) : trailerError d b ≠ some .eof := by
  unfold trailerError
  rcases hend : ending (behind b) with _ | e
  · intro he
    exact (kept_error (Prod.ext rfl (feed_trailerField_ok _ _)) he (by simp)).1 rfl
  · rw [Option.some_or, ne_eq, Option.some.injEq]
    exact ending_error hend

section Zero

variable {d : Bool} {h : List ArgsKV} {r : Reader Byte Err} (hzero : r.unread.head? = some (ch '0'))
include hzero

theorem readTrailer_two (hge : 2 ≤ r.unread.length) (hbuf : (r.fillTo 2).buf.length = 2) :
    (readTrailerWith (trailerLoop d) h r).1 = some .eof := by
  have hleast := r.least
  obtain ⟨hpeek, -⟩ := Reader.peek_fillTo hge (by omega)
  have hhead : (r.fillTo 2).buf.head? = some (ch '0') := by
    have hu := (r.fillTo_leaves 2).unread
    rw [Reader.unread] at hu
    rw [← hu] at hzero
    rcases hb : (r.fillTo 2).buf with _ | ⟨c, b⟩
    · simp [hb] at hbuf
    · rw [hb] at hzero
      simpa using hzero
  have hparse : (trailerLoop d).parse h (r.fillTo 2).buf = (h, (r.fillTo 2).buf, .error .eof) := by
    simp only [trailerLoop, parseTrailer, hhead]
    rw [if_pos]
    rw [hbuf]
    decide
  have hfirst : (trailerLoop d).run ((r.fillTo 2).size + 1 + 1) 1 h (r.fillTo 2) = _ :=
    run_of_peek ((r.fillTo 2).peek_buffered (n := 1) (by omega))
  simp only [readTrailerWith, hpeek, not_crlf_of_zero hzero, if_false, Retry.Loop.read, hfirst, hparse]
  rw [if_neg (by simp [trailerLoop])]

variable (hfold : NoFold (r.unread.drop 3))
include hfold

theorem zero_outcome (hbuf : 3 ≤ (r.fillTo 2).buf.length) : outcome (fun _ => ()) (readTrailerWith (trailerLoop d) h r) =
    (verdict (trailerError d ((r.unread.take r.size).drop 3))).getD
      (.error (if r.size ≤ r.unread.length then (trailerLoop d).full else (trailerLoop d).ended r.src.last)) := by
  have hu := (r.fillTo_leaves 2).unread
  have hpre : (r.fillTo 2).buf <+: r.unread := ⟨_, hu⟩
  have hge : 3 ≤ r.unread.length := Nat.le_trans hbuf hpre.length_le
  have hlen : (r.unread.take 3).length = 3 := by
    rw [length_take]
    omega
  have hhead : (r.unread.take 3).head? = some (ch '0') := by
    rcases ht : r.unread with _ | ⟨c, t⟩
    · simp [ht] at hge
    · rw [ht] at hzero
      simpa using hzero
  have hp : r.unread.take 3 <+: (r.fillTo 2).buf := by
    rw [← hu, Reader.unread, take_append_of_le_length hbuf]
    exact take_prefix _ _
  have hA := trailerLoop_zero_attempts d hlen hhead
  have hout := (hA.readTrailer h (by omega) (not_crlf_of_zero hzero) hp (by rw [hlen]; exact hfold) (fun _ _ => trivial)).1
  rwa [hlen] at hout

end Zero

theorem zero_not_exact (hzero : r.unread.head? = some (ch '0'))
    (hok : (readTrailerWith (trailerLoop d) h r.whole).1 = none) : ¬ExactTrailer d h (readTrailerWith (trailerLoop d) h) r ∧
      ∃ fs, Block ((r.unread.take r.size).drop 3) fs ∧ ∀ f ∈ fs, f.1 = [] ∨ goodTrailer (initHeaderK f.1 d) = true := by
  have hleast := r.least
  obtain ⟨mem, n, hp, hrest⟩ := readTrailerWith_whole (trailerLoop_plain d).inPlace (not_crlf_of_zero hzero) hok
  have hhead : (r.unread.take r.size).head? = some (ch '0') := by
    rcases ht : r.unread with _ | ⟨c, t⟩
    · simp [ht] at hzero
    · rw [ht] at hzero
      rw [head?_take, if_neg (by omega)]
      exact hzero
  have hthree : 3 ≤ (r.unread.take r.size).length := by
    by_contra hlt
    have hshort : parseTrailer d h (r.unread.take r.size) = (h, r.unread.take r.size, .error .eof) := by
      have hskip : strCRLF.length = 2 := rfl
      simp only [parseTrailer, hhead, if_true]
      exact if_pos (by omega)
    have hp : parseTrailer d h (r.unread.take r.size) = _ := hp
    rw [hshort] at hp
    simp at hp
  generalize hb : r.unread.take r.size = b at *
  have hskips : Skips (b.take 3) (b.drop 3) := by
    refine .inr ⟨by rw [length_take]; omega, ?_⟩
    rw [head?_take]
    exact hhead
  rw [← take_append_drop 3 b] at hp
  obtain ⟨e, fs, hfound⟩ := parseTrailer_found hskips hp
  refine ⟨fun hexact => ?_, fs, hfound.block, hfound.good⟩
  obtain ⟨fs', e', hfs', he', hlen⟩ := exact_same hexact hok
  have hle := blockEnd_le hfound.blockEnd
  rw [length_drop] at hle
  have hn := hfound.le
  have hdrop : r.unread.drop 3 = b.drop 3 ++ r.unread.drop r.size := by
    rw [← drop_append_of_le_length hthree, ← hb, take_append_drop]
  have he : blockEnd (r.unread.drop 3) = some e := by
    rw [hdrop]
    exact blockEnd_append hfound.blockEnd _
  have := blockEnd_drop_three hfs' hzero he he'
  omega

theorem zero_exact_iff (hzero : r.unread.head? = some (ch '0'))
    (hfold : NoFold (r.unread.drop 3) ∨ (readTrailerWith (trailerLoop d) h r.whole).1 = none) :
    ExactTrailer d h (readTrailerWith (trailerLoop d) h) r ↔
      (∀ fs, Block ((r.unread.take r.size).drop 3) fs → ¬∀ f ∈ fs, f.1 = [] ∨ goodTrailer (initHeaderK f.1 d) = true) ∧
      (2 < r.unread.length → ¬r.Arrives 2) := by
  have hleast := r.least
  by_cases hwok : (readTrailerWith (trailerLoop d) h r.whole).1 = none
  · obtain ⟨hno, fs, hfs, hgood⟩ := zero_not_exact hzero hwok
    exact iff_of_false hno fun h0 => h0.1 fs hfs hgood
  have hfold := hfold.resolve_right hwok
  have hw := r.whole_unread
  have hzero' : r.whole.unread.head? = some (ch '0') := by rwa [hw]
  have hwbuf : (r.whole.fillTo 2).buf.length = min r.size r.unread.length := by
    rw [(r.whole_fillTo (n := 2) (by decide)).1, length_take]
  -- nothing acceptable is there, or it would have been read at once
  have hnone : ∀ fs, Block ((r.unread.take r.size).drop 3) fs → ¬∀ f ∈ fs, f.1 = [] ∨ goodTrailer (initHeaderK f.1 d) = true := by
    intro fs hfs hgood
    have hlen : 3 ≤ (r.whole.fillTo 2).buf.length := by
      by_contra hlt
      have hnil : (r.unread.take r.size).drop 3 = [] := drop_of_length_le (by rw [length_take]; omega)
      rw [hnil] at hfs
      exact absurd hfs.lf_mem (by simp)
    have hnofold : NoFold ((r.unread.take r.size).drop 3) := by
      rw [drop_take]
      exact hfold.take _
    obtain ⟨hend, rfl⟩ := (block_iff hnofold).mp hfs
    refine hwok ?_
    rw [outcome_ok_iff, zero_outcome hzero' (by rw [hw]; exact hfold) hlen, hw, verdict_getD_ok]
    exact ((trailerLoop_zero_attempts d (p := [ch '0', ch '0', ch '0']) rfl rfl).ok_iff _ hnofold).mpr
      ⟨allGood_spelled.mpr hgood, hend⟩
  rw [and_iff_right hnone]
  rcases Nat.lt_trichotomy r.unread.length 2 with hlt | htwo | hgt
  · refine iff_of_true (exact_of_errors (readTrailerWith_short _ h hlt) ?_) (by omega)
    rw [readTrailerWith_short _ h (by rw [hw]; exact hlt), r.whole_last]
  · have hbuf := (Reader.peek_fillTo (r := r) (n := 2) (by omega) (by omega)).2
    have hle : (r.fillTo 2).buf.length ≤ r.unread.length := by
      rw [← (r.fillTo_leaves 2).unread, Reader.unread, length_append]
      omega
    exact iff_of_true (exact_of_errors (readTrailer_two hzero (by omega) (by omega))
      (readTrailer_two hzero' (by rw [hw]; omega) (by omega))) (by omega)
  · obtain ⟨hahead, hfirst⟩ := r.fillTo_ahead 2
    have hbuf := (Reader.peek_fillTo (r := r) (n := 2) (by omega) (by omega)).2
    have hwout := zero_outcome (d := d) (h := h) hzero' (by rw [hw]; exact hfold) (by omega)
    rw [hw, r.whole_size, r.whole_last] at hwout
    obtain ⟨x, hx⟩ := Option.ne_none_iff_exists'.mp hwok
    by_cases harr : r.Arrives 2
    · refine iff_of_false (fun hexact => ?_) (fun h0 => h0 hgt harr)
      have hlen : (r.fillTo 2).buf.length = 2 := by
        by_contra hne
        exact absurd (hfirst 2 harr (by omega)) (by decide)
      have hsame := hexact.same
      rw [trailerOutcome, trailerOutcome, readTrailer_two hzero (by omega) hlen, hx, Except.error.injEq] at hsame
      rw [outcome, hx, ← hsame] at hwout
      have hL := trailerLoop_plain d
      have hlate : (if r.size ≤ r.unread.length then (trailerLoop d).full else (trailerLoop d).ended r.src.last) ≠ .eof := by
        split
        · exact hL.full
        · exact hL.ended _
      exact verdict_getD_ne_eof (trailerError_ne_eof d _) hlate hwout.symm
    · refine iff_of_true (exact_of_errors (x := x) ?_ hx) fun _ => harr
      have hlen : 3 ≤ (r.fillTo 2).buf.length := by
        by_contra hlt
        have htwo : (r.fillTo 2).buf.length = 2 := by omega
        have hself := (r.fillTo 2).arrives_self
        rw [htwo] at hself
        exact harr ((hahead (by rw [(r.fillTo_leaves 2).size]; omega) 2).mp hself).1
      have hout := zero_outcome (d := d) (h := h) hzero hfold hlen
      rw [← hwout, outcome, outcome, hx] at hout
      rcases hr : (readTrailerWith (trailerLoop d) h r).1 with _ | y
      · simp [hr] at hout
      · rw [hr, Except.error.injEq] at hout
        rw [hout]

end ResponseHeader

/-! ## The trailers of both sides -/

def RequestHeader.ReadsExactly (h : RequestHeader) (r : Reader Byte Err) : Prop :=
  ExactTrailer h.disableNormalizing h.h (fun r => ((h.readTrailer r).1, (h.readTrailer r).2.1.h, (h.readTrailer r).2.2)) r

def ResponseHeader.ReadsExactly (h : ResponseHeader) (r : Reader Byte Err) : Prop :=
  ExactTrailer h.disableNormalizing h.h (fun r => ((h.readTrailer r).1, (h.readTrailer r).2.1.h, (h.readTrailer r).2.2)) r

def ResponseHeader.TrailerFits (d : Bool) (r : Reader Byte Err) : Prop :=
  if r.unread.head? = some (ch '0') then
    (∀ fs, Block ((r.unread.take r.size).drop 3) fs → ¬∀ f ∈ fs, f.1 = [] ∨ goodTrailer (initHeaderK f.1 d) = true) ∧
      (2 < r.unread.length → ¬r.Arrives 2)
  else FitsTrailer goodTrailer d r

def ResponseHeader.trailerText (t : Bytes) : Bytes := t.drop (if t.head? = some (ch '0') then 3 else 0)

theorem RequestHeader.readsExactly_iff {h : RequestHeader}
    (hfold : NoFold r.unread ∨ (h.readTrailer r.whole).1 = none) :
    h.ReadsExactly r ↔ FitsTrailer goodTrailer h.disableNormalizing r := by
  by_cases hplain : NoFold r.unread
  · exact plain_exact_iff (trailerLoop_attempts _) (trailerLoop_plain _) hplain fun _ _ => trivial
  · have hno := folded_not_exact (trailerLoop_plain _).inPlace (fun _ _ _ hp => parseTrailer_found hp) hplain
      (hfold.resolve_left hplain)
    exact iff_of_false hno.1 hno.2

theorem ResponseHeader.readsExactly_iff {h : ResponseHeader}
    (hfold : NoFold (trailerText r.unread) ∨ (h.readTrailer r.whole).1 = none) :
    h.ReadsExactly r ↔ TrailerFits h.disableNormalizing r := by
  unfold trailerText at hfold
  unfold TrailerFits
  split at hfold
  · rename_i hzero
    rw [if_pos hzero]
    exact zero_exact_iff hzero hfold
  rename_i hzero
  rw [if_neg hzero]
  have hhead : ∀ b, b <+: r.unread → b.head? ≠ some (ch '0') := by
    rintro b ⟨t, ht⟩ hb
    rw [← ht, head?_append, hb] at hzero
    exact hzero rfl
  by_cases hplain : NoFold r.unread
  · exact plain_exact_iff (trailerLoop_attempts _ fun _ _ hrec hb => .inl ⟨rfl, recased_head_zero hrec hb⟩)
      (trailerLoop_plain _) hplain hhead
  · have hno := folded_not_exact (trailerLoop_plain _).inPlace
      (fun _ _ _ hp => parseTrailer_found (.inl ⟨rfl, hhead _ <| take_prefix _ _⟩) hp) hplain (hfold.resolve_left hplain)
    exact iff_of_false hno.1 hno.2

theorem readTrailer_exact_iff (req : RequestHeader) (resp : ResponseHeader) (r : Reader Byte Err) :
    (NoFold r.unread ∨ (req.readTrailer r.whole).1 = none →
      (req.ReadsExactly r ↔ FitsTrailer RequestHeader.goodTrailer req.disableNormalizing r)) ∧
      (NoFold (ResponseHeader.trailerText r.unread) ∨ (resp.readTrailer r.whole).1 = none →
        (resp.ReadsExactly r ↔ ResponseHeader.TrailerFits resp.disableNormalizing r)) :=
  ⟨RequestHeader.readsExactly_iff, ResponseHeader.readsExactly_iff⟩

theorem fitsTrailer_within_line (good : Bytes → Bool) : FitsTrailer good false (wire ["A:", " b\r\n\r\nX"]) := by
  intro fs hfs _
  have hplain : NoFold (wire ["A:", " b\r\n\r\nX"]).unread := by decide +kernel
  obtain ⟨rfl, -⟩ := block_take_iff hplain hfs
  refine ⟨hplain, by decide +kernel, fun e he => ?_⟩
  have hend : blockEnd (wire ["A:", " b\r\n\r\nX"]).unread = some 8 := by decide +kernel
  rw [hend, Option.some.injEq] at he
  rw [← he]
  decide +kernel

theorem readTrailer_exact_within_line : NoFold (wire ["A:", " b\r\n\r\nX"]).unread ∧
    RequestHeader.zero.ReadsExactly (wire ["A:", " b\r\n\r\nX"]) ∧ ResponseHeader.zero.ReadsExactly (wire ["A:", " b\r\n\r\nX"]) := by
  have hreads := readTrailer_exact_iff .zero .zero (wire ["A:", " b\r\n\r\nX"])
  have hplain : NoFold (wire ["A:", " b\r\n\r\nX"]).unread := by decide +kernel
  refine ⟨hplain, (hreads.1 (.inl hplain)).mpr (fitsTrailer_within_line _), (hreads.2 (.inl hplain)).mpr ?_⟩
  rw [ResponseHeader.TrailerFits, if_neg (by decide +kernel)]
  exact fitsTrailer_within_line _

/-- A trailer that is cut behind its first line is added twice. -/
theorem readTrailer_not_exact : ¬RequestHeader.zero.ReadsExactly (wire ["A: b\r\n", "\r\n"]) ∧
    ¬RequestHeader.zero.ReadsExactly (wire ["A: b\r\n c\r\n\r\nGET"]) ∧
    ¬ResponseHeader.zero.ReadsExactly (wire ["0-A: b\r\n\r\nHTTP"]) := by
  refine ⟨fun h => absurd h.same (by decide +kernel), fun h => ?_, fun h => ?_⟩
  · obtain ⟨fs, e, -, he, -, hrest⟩ := h.adds _ _ (trailerOutcome_ok (by decide +kernel))
    have hend : blockEnd (wire ["A: b\r\n c\r\n\r\nGET"]).unread = some 12 := by decide +kernel
    rw [hend, Option.some.injEq] at he
    rw [← he] at hrest
    exact absurd hrest (by decide +kernel)
  · obtain ⟨fs, e, -, he, -, hrest⟩ := h.adds _ _ (trailerOutcome_ok (by decide +kernel))
    have hend : blockEnd (wire ["0-A: b\r\n\r\nHTTP"]).unread = some 10 := by decide +kernel
    rw [hend, Option.some.injEq] at he
    rw [← he] at hrest
    exact absurd hrest (by decide +kernel)

end Fasthttp
