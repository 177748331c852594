import Fasthttp.Body.Codec
import Fasthttp.Body.SetUp
import Fasthttp.Request.Sound

/-!
# A written request is framed as it declares

When `Write` sets the length or the coding itself, the other lines must not declare one as well.
-/

namespace Fasthttp

open Bufio List

theorem isChunked_iff {s : Source Byte Err} {out : Bytes} (h : writeBodyChunked s = .ok out) (trailer : Bytes) :
    IsChunked (out ++ trailer) ↔ blockEnd trailer = some trailer.length := by
  unfold IsChunked
  rw [writeChunks_walk h (Nat.lt_succ_self _) trailer]
  simp

namespace OutHeader

def pieces (h : OutHeader) : List Bytes := h.requestLine :: h.fields.map fun f => appendHeaderLine f.1 f.2

theorem appendBytes_eq (h : OutHeader) : h.appendBytes = h.pieces.flatten ++ strCRLF := by
  simp [appendBytes, pieces, flatMap]

theorem pieces_endsLine (h : OutHeader) : ∀ p ∈ h.pieces, EndsLine p := by
  intro p hp
  simp only [pieces, mem_cons, mem_map] at hp
  rcases hp with rfl | ⟨f, -, rfl⟩
  · exact endsLine_crlf _
  · exact endsLine_crlf _

def Whole (h : OutHeader) : Prop := blockEnd h.appendBytes = some h.appendBytes.length

theorem whole_iff (h : OutHeader) : h.Whole ↔ ∀ p ∈ h.pieces, blockEnd p = none := by
  rw [Whole, appendBytes_eq, blockEnd_pieces h.pieces_endsLine]

theorem lengths_eq (h : OutHeader) : lengths h.appendBytes = h.pieces.flatMap lengths := by
  rw [appendBytes_eq, lengths_pieces h.pieces_endsLine]

theorem codings_eq (h : OutHeader) : codings h.appendBytes = h.pieces.flatMap codings := by
  rw [appendBytes_eq, codings_pieces h.pieces_endsLine]

def others (h : OutHeader) : OutHeader := { h with contentLengthBytes := [] }

def own (h : OutHeader) : List Bytes := if h.contentLengthBytes = [] then [] else [h.contentLengthBytes]

section LengthLine

variable {v : Bytes} (hd : ∀ c ∈ v, isDigit c = true)
include hd

theorem lengthText_noLF : nChar ∉ strContentLength ++ strColonSpace ++ v ++ [rChar] := by
  simp only [mem_append, not_or]
  refine ⟨⟨by decide, fun hc => ?_⟩, by decide⟩
  exact absurd (hd _ hc) (by decide)

theorem textLines_length : textLines (appendHeaderLine strContentLength v)
    = [strContentLength ++ colonChar :: (spChar :: (v ++ [rChar]))] := by
  have hsplit : appendHeaderLine strContentLength v = (strContentLength ++ strColonSpace ++ v ++ [rChar]) ++ [nChar] := by
    simp [appendHeaderLine, strCRLF]
  rw [hsplit, textLines_line (lengthText_noLF hd)]
  simp [strColonSpace, ascii, colonChar, spChar, ch]

omit hd in
theorem fieldName_length : fieldName (strContentLength ++ colonChar :: (spChar :: (v ++ [rChar]))) = strContentLength :=
  fieldName_append (by decide) _

theorem fieldValue_length (hne : v ≠ []) : fieldValue (strContentLength ++ colonChar :: (spChar :: (v ++ [rChar]))) = v := by
  have hblank : ∀ c : Byte, isDigit c = true → isBlank c = false := forall_byte (by decide +kernel)
  have hdrop : (strContentLength ++ colonChar :: (spChar :: (v ++ [rChar]))).drop (strContentLength.length + 1)
      = spChar :: (v ++ [rChar]) := by
    simp
  have hkeep : (v ++ [rChar]).dropWhile isBlank = v ++ [rChar] := by
    obtain ⟨c, t, rfl⟩ := exists_cons_of_ne_nil hne
    exact dropWhile_cons_of_neg (by simp [hblank c (hd c (by simp))])
  simp only [fieldValue, fieldName_length, hdrop]
  rw [dropWhile_cons_of_pos (by decide), hkeep, if_pos (by simp), dropLast_concat]

theorem lengths_length (hne : v ≠ []) : lengths (appendHeaderLine strContentLength v) = [v] := by
  unfold lengths
  rw [textLines_length hd, filter_cons_of_pos (by simp [named, fieldName_length])]
  simp [fieldValue_length hd hne]

theorem codings_length : codings (appendHeaderLine strContentLength v) = [] := by
  unfold codings
  rw [textLines_length hd]
  rfl

theorem blockEnd_length : blockEnd (appendHeaderLine strContentLength v) = none := by
  have hline : IsLine (strContentLength ++ strColonSpace ++ v ++ [rChar]) :=
    ⟨lengthText_noLF hd, by simp, by simp [strContentLength, ascii]⟩
  have hsplit : appendHeaderLine strContentLength v = (strContentLength ++ strColonSpace ++ v ++ [rChar]) ++ nChar :: [] := by
    simp [appendHeaderLine, strCRLF]
  rw [hsplit, blockEnd_line hline]
  rfl

end LengthLine

variable {h : OutHeader}

theorem others_of_nil (hv : h.contentLengthBytes = []) : h.others = h := by
  rw [others, ← hv]

theorem pieces_split (hs : h.disableSpecialHeader = false) (hv : h.contentLengthBytes ≠ []) :
    ∃ ps qs, h.pieces = ps ++ appendHeaderLine strContentLength h.contentLengthBytes :: qs ∧ h.others.pieces = ps ++ qs := by
  let text (f : Bytes × Bytes) := appendHeaderLine f.1 f.2
  refine ⟨h.requestLine :: h.frontLines.map text, (h.genericLines ++ h.backLines).map text, ?_, ?_⟩
  · simp [pieces, fields, lengthLine, lineIf, hs, hv, text]
  · simp only [pieces, fields, map_append, append_assoc]
    rfl

variable (hs : h.Sound)
include hs

theorem lengths_perm : (lengths h.appendBytes).Perm (h.own ++ lengths h.others.appendBytes) := by
  by_cases hv : h.contentLengthBytes = []
  · simp [own, hv, others_of_nil hv]
  · obtain ⟨ps, qs, hp, hq⟩ := pieces_split hs.special hv
    rw [lengths_eq, lengths_eq, hp, hq, own, if_neg hv]
    simp only [flatMap_append, flatMap_cons, lengths_length hs.digits hv]
    exact perm_middle

theorem codings_others : codings h.appendBytes = codings h.others.appendBytes := by
  by_cases hv : h.contentLengthBytes = []
  · rw [others_of_nil hv]
  · obtain ⟨ps, qs, hp, hq⟩ := pieces_split hs.special hv
    rw [codings_eq, codings_eq, hp, hq]
    simp [codings_length hs.digits]

theorem whole_others : h.Whole ↔ h.others.Whole := by
  by_cases hv : h.contentLengthBytes = []
  · rw [others_of_nil hv]
  · obtain ⟨ps, qs, hp, hq⟩ := pieces_split hs.special hv
    rw [whole_iff, whole_iff, hp, hq]
    simp [or_imp, forall_and, blockEnd_length hs.digits]

/-! ## The three ways to declare a body -/

/-- The lines, as they stand, declare `n` bytes. -/
structure AsIs (h : OutHeader) (n : Nat) : Prop where
  whole : h.others.Whole
  coding : codings h.others.appendBytes = []
  once : (h.own ++ lengths h.others.appendBytes).length ≤ 1
  sized : ∀ v ∈ h.own ++ lengths h.others.appendBytes, decimal v = some n
  none : h.own ++ lengths h.others.appendBytes = [] → n = 0

omit hs in
theorem perm_nil {l l' : List Bytes} (h : l.Perm l') : l = [] ↔ l' = [] := by
  constructor
  · rintro rfl
    exact h.nil_eq.symm
  · rintro rfl
    exact h.eq_nil

theorem framed_asIs {body : Bytes} (hpos : body ≠ [] → h.contentLengthBytes ≠ []) :
    Framed h.appendBytes body ↔ h.AsIs body.length := by
  have hperm := lengths_perm hs
  have hcod := codings_others hs
  constructor
  · intro hf
    have hnone : codings h.others.appendBytes = [] := by
      rw [← hcod]
      refine Classical.byContradiction fun hne => ?_
      have hlen := hf.apart.resolve_right hne
      rw [perm_nil hperm, append_eq_nil_iff] at hlen
      -- without a length there is no body, and no body is not a chunked one
      have hbody : body = [] := by
        refine Classical.byContradiction fun hb => ?_
        have hown := hlen.1
        rw [own, if_neg (hpos hb)] at hown
        simp at hown
      exact not_isChunked_nil (hbody ▸ hf.chunked hne)
    refine ⟨(whole_others hs).mp hf.whole, hnone, hperm.length_eq ▸ hf.once, fun v hv => hf.sized v (hperm.mem_iff.mpr hv),
      fun hnil => ?_⟩
    rw [hf.none ((perm_nil hperm).mpr hnil) (hcod.trans hnone), length_nil]
  · intro ha
    have hnone := hcod.trans ha.coding
    refine ⟨(whole_others hs).mpr ha.whole, hperm.length_eq ▸ ha.once, .inr hnone, fun v hv => ha.sized v (hperm.mem_iff.mp hv),
      fun hne => absurd hnone hne, fun hnil _ => ?_⟩
    exact length_eq_zero_iff.mp (ha.none ((perm_nil hperm).mp hnil))

def bare (h : OutHeader) : OutHeader := { h with contentLengthBytes := [], h := delAllArgs h.h strTransferEncoding }

structure Silent (h : OutHeader) : Prop where
  whole : h.bare.Whole
  coding : codings h.bare.appendBytes = []
  length : lengths h.bare.appendBytes = []

omit hs in
theorem others_setContentLength (h : OutHeader) (n : Nat) : (h.setContentLength n).others.appendBytes = h.bare.appendBytes := by
  simp only [setContentLength, RequestHeader.withContentLength, if_pos (Int.natCast_nonneg n)]
  rfl

theorem framed_setContentLength (body : Bytes) : Framed (h.setContentLength body.length).appendBytes body ↔ h.Silent := by
  have hset : (h.setContentLength body.length).Sound := hs.withContentLength body.length
  have hbytes : (h.setContentLength body.length).contentLengthBytes = (Nat.toDigits 10 body.length).map ch := by
    simp [setContentLength, RequestHeader.withContentLength]
  have hown : (h.setContentLength body.length).own = [(Nat.toDigits 10 body.length).map ch] := by
    rw [own, hbytes, if_neg (by simp)]
  rw [framed_asIs hset fun _ => by simp [hbytes]]
  have hwhole : (h.setContentLength body.length).others.Whole ↔ h.bare.Whole := by
    rw [Whole, Whole, others_setContentLength]
  constructor
  · intro ha
    refine ⟨hwhole.mp ha.whole, others_setContentLength h _ ▸ ha.coding, ?_⟩
    have honce := ha.once
    rw [hown, others_setContentLength] at honce
    simpa using honce
  · intro hq
    have hall : (h.setContentLength body.length).own ++ lengths (h.setContentLength body.length).others.appendBytes
        = [(Nat.toDigits 10 body.length).map ch] := by
      rw [hown, others_setContentLength, hq.length, append_nil]
    exact ⟨hwhole.mpr hq.whole, (others_setContentLength h _).symm ▸ hq.coding, by simp [hall],
      by simp [hall, decimal_toDigits], by simp [hall]⟩

/-- No line declares a length, and the trailer ends with its last line. -/
structure Chunks (h : OutHeader) (adds : List ArgsKV) : Prop where
  whole : (h.setContentLength (-1)).Whole
  length : lengths (h.setContentLength (-1)).appendBytes = []
  trailer : blockEnd { h.setContentLength (-1) with h := (h.setContentLength (-1)).h ++ adds }.trailerHeader
    = some { h.setContentLength (-1) with h := (h.setContentLength (-1)).h ++ adds }.trailerHeader.length

theorem codings_setContentLength : codings (h.setContentLength (-1)).appendBytes ≠ [] := by
  obtain ⟨kv, hmem, hk, hv⟩ := mem_setArg h.h strTransferEncoding strChunked
  have hline : appendHeaderLine strTransferEncoding strChunked ∈ (h.setContentLength (-1)).pieces := by
    have hgen : (strTransferEncoding, strChunked) ∈ (h.setContentLength (-1)).genericLines := by
      refine mem_map.mpr ⟨kv, mem_filter.mpr ⟨hmem, ?_⟩, by rw [hk, hv]⟩
      simp only [Bool.not_eq_true', any_eq_false, decide_eq_true_eq]
      intro t ht heq
      exact hs.trailer t ht (heq.symm.trans hk)
    have hfield : (strTransferEncoding, strChunked) ∈ (h.setContentLength (-1)).fields := by simp [fields, hgen]
    exact mem_cons_of_mem _ (mem_map.mpr ⟨_, hfield, rfl⟩)
  rw [codings_eq]
  intro hnil
  have := flatMap_eq_nil_iff.mp hnil _ hline
  exact absurd this (by decide)

end OutHeader

/-! ## Requests -/

namespace OutRequest

variable {body : Bytes} {req : OutRequest} {s : OutStream}

def StreamFits (h : OutHeader) (s : OutStream) : Prop :=
  if 0 ≤ h.contentLength then h.AsIs h.contentLength.toNat
  else if s.limit.any (0 ≤ ·) then h.Silent
  else h.Chunks s.adds

def ContentFits (h : OutHeader) (body : Bytes) : Prop :=
  if body = [] ∧ h.ignoreBody = true then h.AsIs 0 else h.Silent

def Fits (parseURI : Bytes → Bytes → URI) (req : OutRequest) : Prop :=
  match req.address parseURI with
  | .error _ => True
  | .ok h =>
    match req.bodyStream with
    | some s => StreamFits h s
    | none =>
      match req.content h with
      | .error _ => True
      | .ok (body, h) => ContentFits h body

theorem addressTo_sound (hs : req.header.Sound) (uri : URI) : (req.addressTo uri).Sound := by
  have hset : ∀ host requestURI, { req.header with host := host, requestURI := requestURI }.Sound :=
    fun _ _ => { hs with }
  unfold addressTo
  split
  · exact OutHeader.set_sound (hset _ _) _ _
  · exact hset _ _

variable {h : OutHeader}

theorem address_sound {parseURI : Bytes → Bytes → URI} (hs : req.header.Sound)
    (ha : req.address parseURI = .ok h) : h.Sound := by
  unfold address at ha
  split at ha
  · simp only at ha
    split at ha
    · simp at ha
    · exact Except.ok.inj ha ▸ addressTo_sound hs _
  · exact Except.ok.inj ha ▸ hs

theorem formContent_sound {h h' : OutHeader} (hs : h.Sound)
    (hc : req.formContent h = .ok (body, h')) : h'.Sound := by
  unfold formContent at hc
  split at hc
  · exact (Prod.mk.inj (Except.ok.inj hc)).2 ▸ hs
  · split at hc
    · exact (Prod.mk.inj (Except.ok.inj hc)).2 ▸ hs
    · split at hc
      · simp at hc
      · rw [← (Prod.mk.inj (Except.ok.inj hc)).2]
        exact { hs with }

theorem argsContent_sound (req : OutRequest) (body : Bytes) (hs : h.Sound) : (req.argsContent body h).2.Sound := by
  unfold argsContent
  split
  · exact hs
  · split
    · exact { hs with }
    · exact hs

theorem content_sound {h h' : OutHeader} (hs : h.Sound) (hc : req.content h = .ok (body, h')) :
    h'.Sound := by
  unfold content at hc
  split at hc
  · simp at hc
  · rename_i b g hf
    have hargs := argsContent_sound req b (formContent_sound hs hf)
    rwa [Except.ok.inj hc] at hargs

theorem writeBodyFixedSize_length {s : Source Byte Err} {size : Int} {out : Bytes} (h : writeBodyFixedSize s size = .ok out) :
    (out.length : Int) = size := by
  unfold writeBodyFixedSize at h
  split at h
  · simp at h
  · split at h
    · simp at h
    · rename_i hn
      rw [← Except.ok.inj h]
      exact Decidable.not_not.mp hn

theorem writeStreamBody_length (hb : writeStreamBody h s = .ok body)
    (hn : 0 ≤ h.contentLength) : (body.length : Int) = h.contentLength := by
  unfold writeStreamBody at hb
  split at hb
  · exact writeBodyFixedSize_length hb
  · split at hb
    · rename_i h0
      rw [← Except.ok.inj hb, h0]
      rfl
    · omega

theorem writeStreamBody_chunks (hb : writeStreamBody h s = .ok body)
    (hn : h.contentLength < 0) : ∃ out, writeBodyChunked s.src = .ok out ∧
      body = out ++ { h with h := h.h ++ s.adds }.trailerHeader := by
  unfold writeStreamBody at hb
  rw [if_neg (by omega), if_neg (by omega)] at hb
  rcases hw : writeBodyChunked s.src with e | out
  · simp [hw, Except.map] at hb
  · rw [hw] at hb
    exact ⟨out, rfl, (Except.ok.inj hb).symm⟩

theorem writeBodyStream_ok {block : Bytes} (hw : writeBodyStream h s = .ok (block, body)) :
    block = (streamHeader h s).appendBytes ∧ writeStreamBody (streamHeader h s) s = .ok body := by
  unfold writeBodyStream at hw
  simp only at hw
  split at hw
  · simp at hw
  · simp at hw
  · rename_i b hb _
    obtain ⟨rfl, rfl⟩ := Prod.mk.inj (Except.ok.inj hw)
    exact ⟨rfl, hb⟩

theorem setContentLength_contentLength (h : OutHeader) (n : Int) : (h.setContentLength n).contentLength = n := by
  unfold OutHeader.setContentLength RequestHeader.withContentLength
  split <;> rfl

theorem writeBodyStream_framed {block : Bytes} (hs : h.Sound)
    (hw : writeBodyStream h s = .ok (block, body)) : Framed block body ↔ StreamFits h s := by
  obtain ⟨rfl, hb⟩ := writeBodyStream_ok hw
  unfold StreamFits
  by_cases hn : 0 ≤ h.contentLength
  · have hsame : streamHeader h s = h := by rw [streamHeader, if_pos hn]
    rw [hsame] at hb ⊢
    have hlen := writeStreamBody_length hb hn
    rw [← hlen]
    apply OutHeader.framed_asIs hs
    intro hne
    have hpos := length_pos_iff.mpr hne
    exact hs.length (by omega)
  rw [if_neg hn]
  by_cases hl : s.limit.any (0 ≤ ·) = true
  · obtain ⟨n, hlim, h0⟩ : ∃ n, s.limit = some n ∧ 0 ≤ n := by simpa [Option.any_eq_true] using hl
    have hset : streamHeader h s = h.setContentLength n := by
      rw [streamHeader, if_neg hn, hlim]
      exact if_pos h0
    rw [hset] at hb ⊢
    have hlen := writeStreamBody_length hb (by rw [setContentLength_contentLength]; exact h0)
    rw [setContentLength_contentLength] at hlen
    rw [if_pos hl, ← hlen]
    exact OutHeader.framed_setContentLength hs body
  · have hset : streamHeader h s = h.setContentLength (-1) := by
      rw [streamHeader, if_neg hn]
      split
      · rename_i n hlim
        rw [if_neg fun h0 => hl (by simp [hlim, h0])]
      · rfl
    rw [hset] at hb ⊢
    obtain ⟨out, hout, rfl⟩ := writeStreamBody_chunks hb (by rw [setContentLength_contentLength]; omega)
    rw [if_neg hl]
    have hcod := OutHeader.codings_setContentLength hs
    constructor
    · intro hf
      exact ⟨hf.whole, hf.apart.resolve_right hcod, (isChunked_iff hout _).mp (hf.chunked hcod)⟩
    · intro hc
      exact ⟨hc.whole, by simp [hc.length], .inl hc.length, by simp [hc.length], fun _ => (isChunked_iff hout _).mpr hc.trailer,
        fun _ hnil => absurd hnil hcod⟩

theorem contentHeader_framed (hs : h.Sound) (body : Bytes) :
    Framed (contentHeader h body).appendBytes body ↔ ContentFits h body := by
  unfold contentHeader ContentFits
  by_cases hbody : body = [] ∧ h.ignoreBody = true
  · rw [if_pos hbody, if_neg (by simp [hbody])]
    obtain ⟨rfl, -⟩ := hbody
    exact OutHeader.framed_asIs hs fun hne => absurd rfl hne
  · rw [if_neg hbody, if_pos (by simpa [Classical.or_iff_not_imp_left] using hbody)]
    exact OutHeader.framed_setContentLength hs body

/-- A request that was built by any operations, when it is written without an error, is framed as
it declares exactly if its header fits its body. -/
theorem write_framed_iff (parseURI : Bytes → Bytes → URI) (o : RequestOptions) (ops : List Op) {block body : Bytes}
    (hw : (built o ops).write parseURI = .ok (block, body)) : Framed block body ↔ Fits parseURI (built o ops) := by
  have hs := built_sound o ops
  unfold write at hw
  unfold Fits
  rcases ha : (built o ops).address parseURI with e | h
  · simp [ha] at hw
  have hsound := address_sound hs ha
  rcases hstream : (built o ops).bodyStream with _ | s
  · rcases hc : (built o ops).content h with e | ⟨b, h'⟩
    · simp [ha, hstream, hc] at hw
    · simp only [ha, hstream, hc, Except.ok.injEq, Prod.mk.injEq] at hw ⊢
      obtain ⟨rfl, rfl⟩ := hw
      exact contentHeader_framed (content_sound hsound hc) b
  · simp only [ha, hstream] at hw ⊢
    exact writeBodyStream_framed hsound hw

def plainOptions : RequestOptions := ⟨false, false, false, true, false⟩

def plainURI (host requestURI : Bytes) : URI := ⟨host, requestURI, none⟩

def received (lines : List String) : Incoming where
  r := .new 4096 (.of [lines.flatMap ascii] .eof) Bufio.Reader.default_size
  maxBodySize := 0
  cap := 0
  parser := noForm
  form := .ok []
  stream := ⟨.of [] .eof, none, [], none⟩

def forwarded (trailer : List String) : OutRequest :=
  built plainOptions [.read (received (["PUT / HTTP/1.1\r\n", "Host: a\r\n", "Transfer-Encoding: chunked\r\n", "\r\n",
    "1\r\nx\r\n0\r\n"] ++
    trailer ++ ["\r\n"]))]

/-- A body that was read in chunks is written with its length. -/
theorem write_framed_forwarded :
    (forwarded []).write plainURI
        = .ok (["PUT / HTTP/1.1\r\n", "Host: a\r\n", "Content-Length: 1\r\n", "\r\n"].flatMap ascii, ascii "x") ∧
      Fits plainURI (forwarded []) := by
  have hw : (forwarded []).write plainURI
      = .ok (["PUT / HTTP/1.1\r\n", "Host: a\r\n", "Content-Length: 1\r\n", "\r\n"].flatMap ascii, ascii "x") := by decide +kernel
  exact ⟨hw, (write_framed_iff plainURI plainOptions _ hw).mp ⟨by decide +kernel, by decide +kernel, by decide +kernel,
    by decide +kernel, fun h => absurd (by decide +kernel) h, fun h => absurd h (by decide +kernel)⟩⟩

/-- A length in a trailer is written as a second length in the header. -/
theorem write_two_lengths : ∃ block body, (forwarded ["Content-Length: 9\r\n"]).write plainURI = .ok (block, body) ∧
    (lengths block).length = 2 ∧ ¬ Framed block body :=
  ⟨["PUT / HTTP/1.1\r\n", "Host: a\r\n", "Content-Length: 1\r\n", "Content-Length: 9\r\n", "\r\n"].flatMap ascii, ascii "x",
    by decide +kernel, by decide +kernel, fun h => absurd h.once (by decide +kernel)⟩

end OutRequest

end Fasthttp
