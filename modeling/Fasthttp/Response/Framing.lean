import Fasthttp.Request.Framing
import Fasthttp.Response.Build
import Fasthttp.Response.Close

/-!
# A written response is framed as it declares

One line of the header block declares the body, and the flags of the header decide which.
-/

namespace Fasthttp

open Bufio List

@[mk_iff] structure Declares (ls cs : List Bytes) (body : Bytes) : Prop where
  sized : ∀ v ∈ ls, decimal v = some body.length
  chunked : ∀ l ∈ cs, fieldValue l = strChunked ∧ IsChunked body

structure ResponseFramed (sent : Bool) (block body : Bytes) : Prop where
  whole : blockEnd block = some block.length
  once : (lengths block).length + (codings block).length ≤ 1
  declared : sent = true → Declares (lengths block) (codings block) body
  closed : sent = true → lengths block = [] → codings block = [] → AnnouncesClose block
  nothing : sent = false → body = []

/-! ## Blocks of lines -/

structure Quiet (rest : List Bytes) : Prop where
  whole : ∀ p ∈ rest, blockEnd p = none
  lengths : rest.flatMap lengths = []
  codings : rest.flatMap codings = []

section Blocks

variable {ps rest : List Bytes} (hps : ∀ p ∈ ps, EndsLine p) {sent : Bool} {body : Bytes}
include hps

theorem framed_iff {qs : List Bytes} (hp : ps.Perm qs) : ResponseFramed sent (ps.flatten ++ strCRLF) body ↔
    (∀ p ∈ qs, blockEnd p = none) ∧ (qs.flatMap lengths).length + (qs.flatMap codings).length ≤ 1 ∧
    (sent = true → Declares (qs.flatMap lengths) (qs.flatMap codings) body) ∧
    (sent = true → qs.flatMap lengths = [] → qs.flatMap codings = [] → AnnouncesClose (ps.flatten ++ strCRLF)) ∧
    (sent = false → body = []) := by
  have hls := hp.flatMap_right lengths
  have hcs := hp.flatMap_right codings
  have hwhole : (∀ p ∈ qs, blockEnd p = none) ↔ ∀ p ∈ ps, blockEnd p = none := by simp [hp.mem_iff]
  have hdecl : Declares (qs.flatMap lengths) (qs.flatMap codings) body ↔ Declares (ps.flatMap lengths) (ps.flatMap codings) body := by
    simp only [declares_iff, hls.mem_iff, hcs.mem_iff]
  have hnil : ∀ {l l' : List Bytes}, l.Perm l' → (l' = [] ↔ l = []) := fun hperm => by
    rw [← length_eq_zero_iff, ← length_eq_zero_iff, hperm.length_eq]
  rw [hwhole, ← hls.length_eq, ← hcs.length_eq, hdecl, hnil hls, hnil hcs, ← blockEnd_pieces hps, ← lengths_pieces hps,
    ← codings_pieces hps]
  constructor
  · exact fun hf => ⟨hf.whole, hf.once, hf.declared, hf.closed, hf.nothing⟩
  · rintro ⟨hw, honce, hd, hc, hn⟩
    exact ⟨hw, honce, hd, hc, hn⟩

theorem framed_length {n : Nat} (hp : ps.Perm (appendHeaderLine strContentLength ((Nat.toDigits 10 n).map ch) :: rest)) :
    ResponseFramed sent (ps.flatten ++ strCRLF) body ↔ Quiet rest ∧ if sent then n = body.length else body = [] := by
  have hdigits := isDigit_toDigits n
  rw [framed_iff hps hp]
  simp only [flatMap_cons, forall_mem_cons, OutHeader.lengths_length hdigits (by simp), OutHeader.codings_length hdigits,
    OutHeader.blockEnd_length hdigits, singleton_append, nil_append, length_cons]
  constructor
  · rintro ⟨hwhole, honce, hdecl, -, hnothing⟩
    refine ⟨⟨hwhole.2, length_eq_zero_iff.mp (by omega), length_eq_zero_iff.mp (by omega)⟩, ?_⟩
    cases sent with
    | false => exact hnothing rfl
    | true => simpa [decimal_toDigits] using (hdecl rfl).sized _ mem_cons_self
  · rintro ⟨hq, hbody⟩
    rw [hq.lengths, hq.codings]
    refine ⟨⟨trivial, hq.whole⟩, by simp, ?_, by simp, ?_⟩
    · rintro rfl
      exact ⟨by simpa [decimal_toDigits] using hbody, by simp⟩
    · rintro rfl
      simpa using hbody

theorem framed_chunked (hp : ps.Perm (appendHeaderLine strTransferEncoding strChunked :: rest)) :
    ResponseFramed sent (ps.flatten ++ strCRLF) body ↔ Quiet rest ∧ if sent then IsChunked body else body = [] := by
  have hline : lengths (appendHeaderLine strTransferEncoding strChunked) = [] ∧
      (∃ l, codings (appendHeaderLine strTransferEncoding strChunked) = [l] ∧ fieldValue l = strChunked) ∧
      blockEnd (appendHeaderLine strTransferEncoding strChunked) = none :=
    ⟨by decide +kernel, ⟨ascii "Transfer-Encoding: chunked\r", by decide +kernel, by decide +kernel⟩, by decide +kernel⟩
  obtain ⟨hnone, ⟨l, hl, hvalue⟩, hline⟩ := hline
  rw [framed_iff hps hp]
  simp only [flatMap_cons, forall_mem_cons, hnone, hl, hline, singleton_append, nil_append, length_cons]
  constructor
  · rintro ⟨hwhole, honce, hdecl, -, hnothing⟩
    refine ⟨⟨hwhole.2, length_eq_zero_iff.mp (by omega), length_eq_zero_iff.mp (by omega)⟩, ?_⟩
    cases sent with
    | false => exact hnothing rfl
    | true => exact ((hdecl rfl).chunked l mem_cons_self).2
  · rintro ⟨hq, hbody⟩
    rw [hq.lengths, hq.codings]
    refine ⟨⟨trivial, hq.whole⟩, by simp, ?_, by simp, ?_⟩
    · rintro rfl
      exact ⟨by simp, by simpa [hvalue] using hbody⟩
    · rintro rfl
      simpa using hbody

theorem framed_bare (hp : ps.Perm rest) (hclose : sent = true → AnnouncesClose (ps.flatten ++ strCRLF))
    (hbody : sent = false → body = []) :
    ResponseFramed sent (ps.flatten ++ strCRLF) body ↔ (∀ p ∈ rest, blockEnd p = none) ∧
      (rest.flatMap lengths).length + (rest.flatMap codings).length ≤ 1 ∧
      (sent = true → Declares (rest.flatMap lengths) (rest.flatMap codings) body) := by
  rw [framed_iff hps hp]
  exact ⟨fun ⟨hw, honce, hd, _⟩ => ⟨hw, honce, hd⟩, fun ⟨hw, honce, hd⟩ => ⟨hw, honce, hd, fun hs _ _ => hclose hs, hbody⟩⟩

theorem not_framed_two {f g : Bytes} (hp : ps.Perm (f :: g :: rest)) (hf : 1 ≤ (lengths f).length + (codings f).length)
    (hg : 1 ≤ (lengths g).length + (codings g).length) : ¬ ResponseFramed sent (ps.flatten ++ strCRLF) body := by
  intro h
  have honce := h.once
  rw [lengths_pieces hps, codings_pieces hps, (hp.flatMap_right lengths).length_eq, (hp.flatMap_right codings).length_eq] at honce
  simp only [flatMap_cons, length_append] at honce
  omega

theorem not_whole_cut {t : Bytes} (ht : blockEnd t = none) (hne : t ≠ []) :
    blockEnd (ps.flatten ++ t) ≠ some (ps.flatten ++ t).length := by
  induction ps with
  | nil => simp [ht]
  | cons p ps ih =>
    have ih := ih fun q hq => hps q (by simp [hq])
    have hpos := length_pos_iff.mpr hne
    rw [flatten_cons, append_assoc]
    rcases hk : blockEnd p with _ | k
    · rw [wholeLines_of_blockEnd (.inr (hps p (by simp))) hk]
      intro h
      rw [Option.map_eq_some_iff] at h
      obtain ⟨k, hk, hlen⟩ := h
      rw [length_append] at hlen
      exact ih (by rw [hk, Option.some.injEq]; omega)
    · have hle := blockEnd_le hk
      rw [blockEnd_append hk]
      simp only [ne_eq, Option.some.injEq, length_append]
      omega

end Blocks

/-! ## The lines of a header -/

namespace ResponseHeader

variable (h : ResponseHeader)

def ownLines (compressed : Bool) : List (Bytes × Bytes) :=
  if h.mustSkipContentLength then []
  else
    lineIf (0 < h.contentLength ∧ compressed = false) strContentLength ((Nat.toDigits 10 h.contentLength.toNat).map ch) ++
    lineIf (h.contentLength = 0 ∧ h.headMethod = false) strContentLength (ascii "0") ++
    lineIf (h.contentLength = -1 ∧ h.headMethod = false) strTransferEncoding strChunked

def otherLines (date : Bytes) : List (Bytes × Bytes) :=
  lineIf (h.server ≠ []) strServer h.server ++
  lineIf (h.noDefaultDate = false) strDate date ++
  (if h.mustSkipContentLength then []
    else lineIf (h.contentTypeValue ≠ [] ∧ (h.contentType ≠ [] ∨ h.contentLength ≠ 0)) strContentType h.contentTypeValue ++
      lineIf (h.contentEncoding ≠ []) strContentEncoding h.contentEncoding) ++
  h.genericLines ++
  lineIf (h.sentTrailer ≠ []) strTrailer (strCommaSpace.intercalate (h.sentTrailer.map ArgsKV.key)) ++
  (h.cookies.map fun kv => (strSetCookie, kv.value)) ++
  lineIf (h.appended.connectionClose = true) strConnection strClose

def texts (fs : List (Bytes × Bytes)) : List Bytes := fs.map fun f => appendHeaderLine f.1 f.2

@[simp] theorem texts_nil : texts [] = [] := rfl
@[simp] theorem texts_cons (f : Bytes × Bytes) (fs : List (Bytes × Bytes)) :
    texts (f :: fs) = appendHeaderLine f.1 f.2 :: texts fs := rfl

def rest (date : Bytes) : List Bytes := h.statusLine :: texts (h.otherLines date)

def pieces (date : Bytes) (compressed : Bool) : List Bytes :=
  h.statusLine :: texts (h.plainFields date compressed ++ lineIf (h.appended.connectionClose = true) strConnection strClose)

theorem appendBytes_pieces (date : Bytes) (compressed : Bool) :
    h.appendBytes date compressed = (h.pieces date compressed).flatten ++ if compressed then [] else strCRLF := by
  simp [appendBytes, pieces, texts, flatMap]

theorem pieces_endsLine (date : Bytes) (compressed : Bool) : ∀ p ∈ h.pieces date compressed, EndsLine p := by
  intro p hp
  rcases mem_cons.mp hp with rfl | hp
  · exact endsLine_crlf _
  · obtain ⟨f, -, rfl⟩ := mem_map.mp hp
    exact endsLine_crlf _

theorem pieces_perm (date : Bytes) (compressed : Bool) :
    (h.pieces date compressed).Perm (texts (h.ownLines compressed) ++ h.rest date) := by
  have hfields : (h.plainFields date compressed ++ lineIf (h.appended.connectionClose = true) strConnection strClose).Perm
      (h.ownLines compressed ++ h.otherLines date) := by
    unfold plainFields ownLines otherLines contentLines
    split
    · simp
    · -- the lines of the declaration stand behind the coding of the content
      simpa only [append_assoc] using perm_append_comm_assoc
        (lineIf (h.server ≠ []) strServer h.server ++ (lineIf (h.noDefaultDate = false) strDate date ++
          (lineIf (h.contentTypeValue ≠ [] ∧ (h.contentType ≠ [] ∨ h.contentLength ≠ 0)) strContentType h.contentTypeValue ++
            lineIf (h.contentEncoding ≠ []) strContentEncoding h.contentEncoding)))
        (lineIf (0 < h.contentLength ∧ compressed = false) strContentLength ((Nat.toDigits 10 h.contentLength.toNat).map ch) ++
          (lineIf (h.contentLength = 0 ∧ h.headMethod = false) strContentLength (ascii "0") ++
            lineIf (h.contentLength = -1 ∧ h.headMethod = false) strTransferEncoding strChunked)) _
  unfold pieces rest texts
  refine List.Perm.trans ?_ perm_middle.symm
  rw [← map_append]
  exact (hfields.map _).cons _

theorem ownLines_cases (compressed : Bool) :
    (0 ≤ h.contentLength ∧ h.ownLines compressed = [(strContentLength, (Nat.toDigits 10 h.contentLength.toNat).map ch)]) ∨
    (h.contentLength = -1 ∧ h.ownLines compressed = [(strTransferEncoding, strChunked)]) ∨ h.ownLines compressed = [] := by
  unfold ownLines lineIf
  split
  · exact .inr (.inr rfl)
  rcases Int.lt_trichotomy h.contentLength 0 with hneg | hzero | hpos
  · by_cases hc : h.contentLength = -1
    · by_cases hm : h.headMethod = false
      · exact .inr (.inl ⟨hc, by simp [hc, hm]⟩)
      · exact .inr (.inr (by simp [hc, hm]))
    · refine .inr (.inr ?_)
      rw [if_neg (by omega), if_neg (by omega), if_neg (by omega)]
      rfl
  · by_cases hm : h.headMethod = false
    · rw [hzero]
      simp [hm]
      decide
    · exact .inr (.inr (by simp [hzero, hm]))
  · by_cases hcomp : compressed = false
    · refine .inl ⟨by omega, ?_⟩
      rw [if_pos ⟨hpos, hcomp⟩, if_neg (by omega), if_neg (by omega)]
      rfl
    · refine .inr (.inr ?_)
      rw [if_neg (by simp [hcomp]), if_neg (by omega), if_neg (by omega)]
      rfl

end ResponseHeader

theorem isChunked_writePieces (ps : List Bytes) (t : Bytes) :
    IsChunked (writePieces ps ++ t) ↔ (∀ p ∈ ps, p.length < 16 ^ 15) ∧ blockEnd t = some t.length := by
  constructor
  · intro h
    have hlen := chunks_writePieces_done h.1
    refine ⟨hlen, ?_⟩
    have hend := h.2
    rwa [chunks_writePieces hlen, drop_left, length_append, Nat.add_sub_cancel_left] at hend
  · rintro ⟨hlen, hend⟩
    unfold IsChunked
    rw [chunks_writePieces hlen, drop_left, length_append, Nat.add_sub_cancel_left]
    exact ⟨rfl, hend⟩

namespace OutResponse

variable {h : ResponseHeader} {s : OutStream}

def ShortPieces (pieces : Except Err (List Bytes)) : Prop := ∀ ps, pieces = .ok ps → ∀ p ∈ ps, p.length < 16 ^ 15

def Trailed (h : ResponseHeader) (adds : List ArgsKV) : Prop := blockEnd (h.trailerHeader adds) = some (h.trailerHeader adds).length

def Chunks (resp : OutResponse) : Prop :=
  match resp.chunkedW, resp.compressPool, resp.bodyStream with
  | some w, some c, _ => ShortPieces (c.pieces w.pieces.flatten) ∧ Trailed resp.sentHeader.1 w.adds
  | some w, none, _ => ShortPieces (.ok w.pieces) ∧ Trailed resp.sentHeader.1 w.adds
  | none, some c, some s => ShortPieces (c.pieces s.src.items) ∧ Trailed resp.sentHeader.1 s.adds
  | none, none, some s => Trailed resp.sentHeader.1 s.adds
  | none, _, none => True

def payload (resp : OutResponse) : Bytes :=
  match resp.bodyStream with
  | some s => s.src.items
  | none => resp.bodyBytes

inductive Sent (resp : OutResponse) (h : ResponseHeader) (body : Bytes) : Prop
  | sized : (body.length : Int) = h.contentLength → Sent resp h body
  | chunked : h.contentLength = -1 → (IsChunked body ↔ resp.Chunks) → Sent resp h body
  | closed : h.contentLength < -1 → body = resp.payload → Sent resp h body

theorem closing_ok {r : Except WriteErr Bytes} {b : Bytes} (h : closing s r = .ok b) : r = .ok b := by
  unfold closing at h
  split at h
  · cases h
  · exact h

theorem pieces_sent {pieces : Except Err (List Bytes)} {adds : List ArgsKV} {ps : List Bytes}
    (hp : pieces = .ok ps) : IsChunked (writePieces ps ++ h.trailerHeader adds) ↔ ShortPieces pieces ∧ Trailed h adds := by
  rw [isChunked_writePieces, ShortPieces, hp]
  simp [Trailed]

variable {resp : OutResponse} {date body : Bytes}

theorem chunkedStream_sent {w : ChunkedWriter} (hw : resp.chunkedW = some w) (hsent : resp.mustSkipBody = false)
    (h : (resp.writeChunkedStream date w).body = .ok body) : Sent resp resp.sentHeader.1 body := by
  have hheader : resp.sentHeader.1 = { resp.header with contentLength := -1 } := by simp [sentHeader, hw]
  refine .chunked (by rw [hheader]) ?_
  simp only [writeChunkedStream, hsent] at h
  rcases herr : w.err with _ | e <;> simp only [herr] at h
  swap
  · cases h
  rcases hc : resp.compressPool with _ | c <;> simp only [hc] at h <;> simp only [Chunks, hw, hc, hheader]
  · obtain rfl := Except.ok.inj h
    exact pieces_sent rfl
  · rcases hp : c.pieces w.pieces.flatten with e | ps <;> simp only [hp] at h
    · cases h
    · obtain rfl := Except.ok.inj h
      rw [← hp]
      exact pieces_sent hp

theorem compressStream_sent {c : Compressor} (hw : resp.chunkedW = none) (hc : resp.compressPool = some c)
    (hs : resp.bodyStream = some s) (hsent : resp.mustSkipBody = false)
    (h : (resp.writeCompressBodyStream date c s).body = .ok body) : Sent resp resp.sentHeader.1 body := by
  have hheader : resp.sentHeader.1 = compressedHeader resp.header := by simp [sentHeader, hw, hc, hs]
  refine .chunked (by rw [hheader]; rfl) ?_
  have h := closing_ok h
  simp only [hsent, Bool.false_eq_true, if_false] at h
  simp only [Chunks, hw, hc, hs, hheader]
  rcases hcopy : copyStream s.src with e | b <;> simp only [hcopy] at h
  · cases h
  rcases hp : c.pieces s.src.items with e | ps <;> simp only [hp] at h
  · cases h
  split at h
  · cases h
  · obtain rfl := Except.ok.inj h
    rw [← hp]
    exact pieces_sent hp

theorem bodyStream_sent (hw : resp.chunkedW = none) (hc : resp.compressPool = none) (hs : resp.bodyStream = some s)
    (hsent : resp.mustSkipBody = false) (h : (resp.writeBodyStream date s).body = .ok body) : Sent resp resp.sentHeader.1 body := by
  have hheader : resp.sentHeader.1 = streamHeader resp.header s := by simp [sentHeader, hw, hc, hs]
  have h := closing_ok h
  simp only [hsent, Bool.false_eq_true, if_false] at h
  rw [hheader]
  unfold writeStream at h
  split at h
  · exact .sized (OutRequest.writeBodyFixedSize_length h)
  split at h
  · rename_i hzero
    rw [← Except.ok.inj h]
    exact .sized (by simp [hzero])
  split at h
  · rename_i hm
    refine .chunked hm ?_
    rcases hout : writeBodyChunked s.src with e | out
    · simp [hout, Except.map] at h
    · simp only [hout, Except.map, Except.ok.injEq] at h
      simp only [Chunks, hw, hc, hs, hheader, ← h]
      exact isChunked_iff hout _
  · refine .closed (by omega) ?_
    unfold copyStream at h
    split at h
    · rw [← Except.ok.inj h]
      simp [payload, hs]
    · cases h

theorem bytes_sent (hw : resp.chunkedW = none) (hc : resp.compressPool = none) (hs : resp.bodyStream = none)
    (hsent : resp.mustSkipBody = false) : Sent resp resp.sentHeader.1 resp.bodyBytes := by
  have hheader : resp.sentHeader.1 = resp.bytesHeader := by simp [sentHeader, hw, hc, hs]
  rw [hheader]
  unfold bytesHeader
  split
  · exact .sized rfl
  · rename_i h
    have hlen : resp.header.contentLength = -2 := by
      by_contra hne
      exact h ⟨.inl hsent, hne⟩
    exact .closed (by omega) (by simp [payload, hs])

theorem sentHeader_plain (h : resp.sentHeader.2 = false) : (resp.write date).block = resp.sentHeader.1.appendBytes date false := by
  unfold sentHeader at h ⊢
  unfold write
  rcases hw : resp.chunkedW with _ | w <;> simp only [hw] at h ⊢
  · rcases hc : resp.compressPool with _ | c <;> rcases hs : resp.bodyStream with _ | s <;> simp only [hc, hs] at h ⊢
    · rfl
    · by_cases hskip : resp.mustSkipBody = true
      · simp [writeCompress, hs, hskip]
      · simp [hskip] at h
    · simp only [writeCompress, hs]
      rfl
  · rfl

theorem write_skipped (hskip : resp.mustSkipBody = true) (h : (resp.write date).body = .ok body) :
    body = [] ∧ resp.sentHeader.2 = false := by
  unfold write at h
  unfold sentHeader
  rcases hw : resp.chunkedW with _ | w <;> simp only [hw] at h ⊢
  · rcases hc : resp.compressPool with _ | c <;> rcases hs : resp.bodyStream with _ | s <;> simp only [hc, hs] at h ⊢
    · simp only [hskip, Except.ok.injEq] at h
      exact ⟨h.symm, trivial⟩
    · have h := closing_ok h
      simp only [hskip, if_true, Except.ok.injEq] at h
      exact ⟨h.symm, trivial⟩
    · simp only [writeCompress, hs, hskip, if_true, Except.ok.injEq] at h
      exact ⟨h.symm, by simp [hskip]⟩
    · simp only [writeCompress, hs] at h
      have h := closing_ok h
      simp only [hskip, if_true, Except.ok.injEq] at h
      exact ⟨h.symm, trivial⟩
  · simp only [writeChunkedStream, hskip, if_true, Except.ok.injEq] at h
    exact ⟨h.symm, trivial⟩

theorem write_sent (hplain : resp.sentHeader.2 = false) (hsent : resp.mustSkipBody = false) (h : (resp.write date).body = .ok body) :
    Sent resp resp.sentHeader.1 body := by
  rcases hw : resp.chunkedW with _ | w
  · rcases hc : resp.compressPool with _ | c <;> rcases hs : resp.bodyStream with _ | s <;> simp only [write, hw, hc, hs] at h
    · simp only [hsent, Except.ok.injEq] at h
      exact h ▸ bytes_sent hw hc hs hsent
    · exact bodyStream_sent hw hc hs hsent h
    · simp [sentHeader, hw, hc, hs, hsent] at hplain
    · simp only [writeCompress, hs] at h
      exact compressStream_sent hw hc hs hsent h
  · simp only [write, hw] at h
    exact chunkedStream_sent hw hsent h

theorem sentHeader_kept (resp : OutResponse) : resp.sentHeader.1.mustSkipContentLength = resp.header.mustSkipContentLength ∧
    resp.sentHeader.1.headMethod = resp.header.headMethod := by
  unfold sentHeader
  rcases resp.chunkedW with _ | w
  · rcases resp.compressPool with _ | c <;> rcases resp.bodyStream with _ | s <;> simp only
    · unfold bytesHeader
      split <;> exact ⟨rfl, rfl⟩
    · unfold streamHeader
      split
      · split <;> exact ⟨rfl, rfl⟩
      · exact ⟨rfl, rfl⟩
    · split <;> exact ⟨rfl, rfl⟩
    · exact ⟨rfl, rfl⟩
  · exact ⟨rfl, rfl⟩

/-! ## The length of a compressed body -/

theorem compressedLength_whole {n : Nat} (hn : n < 10 ^ 12) :
    compressedLength n = appendHeaderLine strContentLength ((Nat.toDigits 10 n).map ch) ++ strCRLF := by
  have hdigits : (Nat.toDigits 10 n).length ≤ 12 := (Nat.length_toDigits_le_iff (by omega) (by decide)).mpr hn
  unfold compressedLength appendHeaderLine
  rw [take_of_length_le]
  have hname : (strContentLength ++ strColonSpace).length = 16 := by decide
  rw [length_append, length_append, length_append, length_map]
  simp only [strCRLF, length_cons, length_nil]
  omega

theorem compressedLength_cut {n : Nat} (hn : ¬ n < 10 ^ 12) : blockEnd (compressedLength n) = none ∧ compressedLength n ≠ [] := by
  have hdigits : 12 < (Nat.toDigits 10 n).length := by
    rw [← Nat.not_le]
    exact fun h => hn ((Nat.length_toDigits_le_iff (by omega) (by decide)).mp h)
  obtain ⟨l, hl⟩ : ∃ l, l = strContentLength ++ strColonSpace ++ (Nat.toDigits 10 n).map ch ++ [rChar] := ⟨_, rfl⟩
  have hline : IsLine l := by
    rw [hl]
    exact ⟨OutHeader.lengthText_noLF (isDigit_toDigits n), by simp, by simp [strContentLength, ascii]⟩
  have hlen : 30 ≤ l.length := by
    have hname : (strContentLength ++ strColonSpace).length = 16 := by decide
    rw [hl, length_append, length_append, length_map, length_singleton]
    omega
  have heq : compressedLength n = (l ++ nChar :: strCRLF).take 32 := by
    rw [hl]
    simp [compressedLength, strCRLF]
  constructor
  · rw [heq, take_append]
    rcases Nat.lt_or_ge l.length 32 with hshort | hlong
    · rw [take_of_length_le (by omega : l.length ≤ 32)]
      obtain ⟨k, hk⟩ : ∃ k, 32 - l.length = k + 1 := ⟨31 - l.length, by omega⟩
      rw [hk, take_succ_cons, blockEnd_line hline]
      have hnone : blockEnd (strCRLF.take k) = none := by
        have hk' : k = 0 ∨ k = 1 := by omega
        rcases hk' with rfl | rfl <;> decide
      rw [hnone]
      rfl
    · rw [Nat.sub_eq_zero_of_le hlong, take_zero, append_nil]
      exact blockEnd_noLine fun h => hline.noLF (mem_of_mem_take h)
  · rw [heq, ← length_pos_iff, length_take, length_append]
    omega

/-! ## When a response is framed -/

def Fits (resp : OutResponse) (date : Bytes) : Prop :=
  let h := resp.sentHeader.1
  if resp.sentHeader.2 then
    -- the length of the compressed body is declared behind the header
    h.ownLines true = [] ∧ Quiet (h.rest date) ∧ ∀ c, resp.compressPool = some c → ∀ b, c.whole resp.bodyBytes = .ok b →
      b.length < 10 ^ 12
  else if h.ownLines false = [] then
    (∀ p ∈ h.rest date, blockEnd p = none) ∧ ((h.rest date).flatMap lengths).length + ((h.rest date).flatMap codings).length ≤ 1 ∧
      (resp.mustSkipBody = false → Declares ((h.rest date).flatMap lengths) ((h.rest date).flatMap codings) resp.payload)
  else Quiet (h.rest date) ∧ (resp.mustSkipBody = false → h.contentLength = -1 → resp.Chunks)

theorem ownLines_nil (hskip : h.mustSkipContentLength = false) (hhead : h.headMethod = false)
    (hnil : h.ownLines false = []) : h.contentLength < -1 := by
  unfold ResponseHeader.ownLines lineIf at hnil
  simp only [hskip, hhead, Bool.false_eq_true, if_false, and_true] at hnil
  by_contra hge
  rcases Int.lt_trichotomy h.contentLength 0 with hneg | hzero | hpos
  · rw [if_neg (by omega), if_neg (by omega), if_pos (by omega)] at hnil
    simp at hnil
  · rw [if_pos hzero] at hnil
    simp at hnil
  · rw [if_pos hpos] at hnil
    simp at hnil

theorem framed_compressed (hcomp : resp.sentHeader.2 = true) (h : (resp.write date).body = .ok body) :
    ResponseFramed (!resp.mustSkipBody) (resp.write date).block body ↔ resp.Fits date := by
  obtain ⟨hsent, hheader, hblock, c, hc, hb⟩ : resp.mustSkipBody = false ∧ resp.sentHeader.1 = resp.header ∧
      (resp.write date).block = resp.header.appendBytes date true ++ compressedLength body.length ∧
      ∃ c, resp.compressPool = some c ∧ c.whole resp.bodyBytes = .ok body := by
    unfold sentHeader at hcomp ⊢
    unfold write at h ⊢
    rcases hw : resp.chunkedW with _ | w <;> simp only [hw, Bool.false_eq_true] at h hcomp ⊢
    rcases hc : resp.compressPool with _ | c <;> rcases hs : resp.bodyStream with _ | s <;>
      simp only [hc, hs, Bool.false_eq_true] at h hcomp ⊢
    by_cases hskip : resp.mustSkipBody = true
    · simp [hskip] at hcomp
    simp only [hskip, Bool.false_eq_true, if_false, writeCompress, hs] at h ⊢
    rcases hb : c.whole resp.bodyBytes with e | b <;> simp only [hb] at h ⊢
    · cases h
    · obtain rfl := Except.ok.inj h
      exact ⟨by simp, trivial, rfl, c, rfl, hb⟩
  have hshort : (∀ c, resp.compressPool = some c → ∀ b, c.whole resp.bodyBytes = .ok b → b.length < 10 ^ 12) ↔
      body.length < 10 ^ 12 := by
    constructor
    · exact fun hall => hall c hc body hb
    · intro hlt c' hc' b' hb'
      obtain rfl : c = c' := Option.some.inj (hc.symm.trans hc')
      obtain rfl : body = b' := Except.ok.inj (hb.symm.trans hb')
      exact hlt
  unfold Fits
  rw [hblock, hsent, hheader, ResponseHeader.appendBytes_pieces]
  simp only [hcomp, if_true, append_nil, hshort]
  have hends := resp.header.pieces_endsLine date true
  by_cases hlen : body.length < 10 ^ 12
  swap
  · obtain ⟨hcut, hne⟩ := compressedLength_cut hlen
    simp only [hlen, and_false, iff_false]
    exact fun hf => not_whole_cut hends hcut hne hf.whole
  simp only [hlen]
  -- the declared length is one more line
  have hsplit : (resp.header.pieces date true).flatten ++ compressedLength body.length =
      (resp.header.pieces date true ++ [appendHeaderLine strContentLength ((Nat.toDigits 10 body.length).map ch)]).flatten ++
        strCRLF := by
    rw [compressedLength_whole hlen]
    simp
  have hends' : ∀ p ∈ resp.header.pieces date true ++ [appendHeaderLine strContentLength ((Nat.toDigits 10 body.length).map ch)],
      EndsLine p := by
    intro p hp
    rcases mem_append.mp hp with hp | hp
    · exact hends p hp
    · rw [mem_singleton.mp hp]
      exact endsLine_crlf _
  have hperm : (resp.header.pieces date true ++ [appendHeaderLine strContentLength ((Nat.toDigits 10 body.length).map ch)]).Perm
      (appendHeaderLine strContentLength ((Nat.toDigits 10 body.length).map ch) ::
        (ResponseHeader.texts (resp.header.ownLines true) ++ resp.header.rest date)) :=
    perm_append_comm.trans ((resp.header.pieces_perm date true).cons _)
  have hlength := OutHeader.lengths_length (isDigit_toDigits body.length) (by simp)
  rw [hsplit]
  by_cases hown : resp.header.ownLines true = []
  · rw [framed_length hends' hperm]
    simp [hown]
  · simp only [hown, false_and, iff_false]
    have hdeclares : ∃ f, resp.header.ownLines true = [f] ∧
        1 ≤ (lengths (appendHeaderLine f.1 f.2)).length + (codings (appendHeaderLine f.1 f.2)).length := by
      rcases resp.header.ownLines_cases true with ⟨-, hf⟩ | ⟨-, hf⟩ | hf
      · refine ⟨_, hf, ?_⟩
        rw [OutHeader.lengths_length (isDigit_toDigits _) (by simp)]
        simp
      · exact ⟨_, hf, by decide +kernel⟩
      · exact absurd hf hown
    obtain ⟨f, hf, hone⟩ := hdeclares
    rw [hf] at hperm
    exact not_framed_two hends' hperm (by simp [hlength]) hone

theorem framed_plain (hplain : resp.sentHeader.2 = false) (hhead : resp.header.headMethod = true → resp.skipBody = true)
    (h : (resp.write date).body = .ok body) :
    ResponseFramed (!resp.mustSkipBody) (resp.write date).block body ↔ resp.Fits date := by
  obtain ⟨hstatus, hmethod⟩ := resp.sentHeader_kept
  have hannounce := resp.write_announces date
  have hends := resp.sentHeader.1.pieces_endsLine date false
  have hperm := resp.sentHeader.1.pieces_perm date false
  rw [sentHeader_plain hplain, ResponseHeader.appendBytes_pieces] at hannounce ⊢
  simp only [Bool.false_eq_true, if_false] at hannounce ⊢
  unfold Fits
  simp only [hplain]
  by_cases hskip : resp.mustSkipBody = true
  · obtain ⟨rfl, -⟩ := write_skipped hskip h
    rcases resp.sentHeader.1.ownLines_cases false with ⟨-, hf⟩ | ⟨-, hf⟩ | hf <;>
      simp only [hf, ResponseHeader.texts_cons] at hperm
    · rw [framed_length hends hperm]
      simp [hskip, hf]
    · rw [framed_chunked hends hperm]
      simp [hskip, hf]
    · rw [framed_bare hends hperm (by simp [hskip]) (fun _ => rfl)]
      simp [hskip, hf]
  have hsent : resp.mustSkipBody = false := by simpa using hskip
  obtain ⟨hnoskip, hallowed⟩ : resp.skipBody = false ∧ resp.header.mustSkipContentLength = false := by
    simpa [mustSkipBody] using hsent
  have hget : resp.header.headMethod = false := by
    by_contra hm
    simp [hhead (by simpa using hm)] at hnoskip
  have hbody := write_sent hplain hsent h
  rcases resp.sentHeader.1.ownLines_cases false with ⟨hpos, hf⟩ | ⟨hneg, hf⟩ | hf <;>
    simp only [hf, ResponseHeader.texts_cons] at hperm
  · rw [framed_length hends hperm]
    have hlen : resp.sentHeader.1.contentLength.toNat = body.length := by
      cases hbody with
      | sized hlen => omega
      | chunked hc => omega
      | closed hc => omega
    have hne : resp.sentHeader.1.contentLength ≠ -1 := by omega
    simp [hsent, hf, hlen, hne]
  · rw [framed_chunked hends hperm]
    have hiff : IsChunked body ↔ resp.Chunks := by
      cases hbody with
      | sized hlen => omega
      | chunked _ hiff => exact hiff
      | closed hc => omega
    simp [hsent, hf, hneg, hiff]
  · have hlt := ownLines_nil (hstatus.trans hallowed) (hmethod.trans hget) hf
    have hclose : resp.sentHeader.1.appended.connectionClose = true := by
      simp [ResponseHeader.appended, ResponseHeader.endsWithConn, hstatus, hallowed, hmethod, hget, hlt]
    have hpay : body = resp.payload := by
      cases hbody with
      | sized hlen => omega
      | chunked hc => omega
      | closed _ hpay => exact hpay
    rw [framed_bare hends hperm (fun _ => hannounce.mpr (.inl hclose)) (by simp [hsent]), hpay]
    simp [hf]

/-! ## Responses that were built -/

theorem resetConnectionClose_head (h : ResponseHeader) : h.resetConnectionClose.headMethod = h.headMethod := by
  unfold ResponseHeader.resetConnectionClose
  split <;> rfl

theorem setSpecialHeader_head {h' : ResponseHeader} {key value : Bytes} {set : Bool}
    (hs : h.setSpecialHeader key value set = some h') : h'.headMethod = h.headMethod :=
  ResponseHeader.setSpecialHeader_rule (fun g => g.headMethod = h.headMethod) hs rfl rfl rfl rfl rfl
    (fun _ => resetConnectionClose_head h) rfl rfl fun _ => rfl

theorem setCanonical_head (h : ResponseHeader) (key value : Bytes) : (h.setCanonical key value).headMethod = h.headMethod := by
  unfold ResponseHeader.setCanonical
  rcases hs : h.setSpecialHeader key value true with _ | h'
  · rfl
  · exact setSpecialHeader_head hs

theorem addCanonical_head (h : ResponseHeader) (key value : Bytes) : (h.addCanonical key value).headMethod = h.headMethod := by
  unfold ResponseHeader.addCanonical
  rcases hs : h.setSpecialHeader key value false with _ | h'
  · rfl
  · exact setSpecialHeader_head hs

theorem delCanonical_head (h : ResponseHeader) (key : Bytes) : (h.delCanonical key).headMethod = h.headMethod := by
  unfold ResponseHeader.delCanonical ResponseHeader.delSpecial
  split_ifs <;> rfl

theorem built_head (ops : List Op) : (built ops).header.headMethod = true → (built ops).skipBody = true := by
  refine Machine.exec_invariant (P := fun resp : OutResponse => resp.header.headMethod = true →
    resp.skipBody = true) ?_ ops (by simp [new, ResponseHeader.zero])
  intro resp op resp' ih hstep
  cases hstep
  cases op with
  | set key value => exact fun h => ih ((setCanonical_head _ _ _).symm.trans h)
  | add key value => exact fun h => ih ((addCanonical_head _ _ _).symm.trans h)
  | setCanonical key value => exact fun h => ih ((setCanonical_head _ _ _).symm.trans h)
  | addCanonical key value => exact fun h => ih ((addCanonical_head _ _ _).symm.trans h)
  | del key => exact fun h => ih ((delCanonical_head _ _).symm.trans h)
  | resetConnectionClose => exact fun h => ih ((resetConnectionClose_head _).symm.trans h)
  | skipBody | head => exact fun _ => rfl
  | setContentLength | setTrailer | addTrailer | setStatusCode | setStatusMessage | setProtocol | setContentType | setContentEncoding
    | setServer | setConnectionClose | setCookie | setCookieBytes | delCookie | setNormalizing | setNoDefaultContentType
    | setNoDefaultDate | setBody | appendBody | setBodyRaw | resetBody | setBodyStream | setBodyStreamChunkedWriter
    | setCompressPool => exact ih

/-- A response that was built by any setters, when it is written without an error, is framed as it
declares exactly if its header fits its body. -/
theorem response_framed_iff (ops : List Op) (date : Bytes) {body : Bytes} (hw : ((built ops).write date).body = .ok body) :
    ResponseFramed (!(built ops).mustSkipBody) ((built ops).write date).block body ↔ (built ops).Fits date := by
  cases hcomp : (built ops).sentHeader.2 with
  | true => exact framed_compressed hcomp hw
  | false => exact framed_plain hcomp (built_head ops) hw

def helloOps : List Op := [.setStatusCode 200, .setNoDefaultDate true, .setNoDefaultContentType true, .setBody (ascii "hello")]

theorem response_framed_hello :
    ((built helloOps).write []).body = .ok (ascii "hello") ∧ (built helloOps).Fits [] := by
  have hw : ((built helloOps).write []).body = .ok (ascii "hello") := rfl
  refine ⟨hw, (response_framed_iff helloOps [] hw).mp ⟨by decide +kernel, by decide +kernel, fun _ => ⟨by decide +kernel, ?_⟩,
    fun _ h => absurd h (by decide +kernel), by decide +kernel⟩⟩
  have hnone : codings ((built helloOps).write []).block = [] := by decide +kernel
  simp [hnone]

def stored : Compressor := ⟨.ok, fun b => .ok [b]⟩

/-- The length that was never set is written in front of the length of the compressed body. -/
theorem response_two_lengths :
    ((built (helloOps ++ [.setCompressPool (some stored)])).write []).body = .ok (ascii "hello") ∧
    ((built (helloOps ++ [.setCompressPool (some stored)])).write []).block
      = ["HTTP/1.1 200 OK\r\n", "Content-Length: 0\r\n", "Content-Length: 5\r\n\r\n"].flatMap ascii ∧
    ¬ ResponseFramed (!(built (helloOps ++ [.setCompressPool (some stored)])).mustSkipBody)
      ((built (helloOps ++ [.setCompressPool (some stored)])).write []).block (ascii "hello") :=
  ⟨rfl, by decide +kernel, fun h => absurd h.once (by decide +kernel)⟩

end OutResponse

end Fasthttp
