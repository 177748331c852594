import Fasthttp.Request.Lines
import Fasthttp.Response.Write

/-!
# Responses that announce a close

A header block says `Connection: close` in its last line if the flag of the header is set, or is set while the block
is written.
-/

namespace Fasthttp

open Bufio List

/-! ## Header blocks that announce a close -/

def closeLine (l : Bytes) : Bool := named strConnection l && (fieldValue l).map toLowerTable = strClose

def AnnouncesClose (b : Bytes) : Prop := ∃ l ∈ textLines b, closeLine l = true

instance (b : Bytes) : Decidable (AnnouncesClose b) := inferInstanceAs (Decidable (∃ l ∈ textLines b, closeLine l = true))

theorem announcesClose_append {p : Bytes} (hp : EndsLine p) (z : Bytes) :
    AnnouncesClose (p ++ z) ↔ AnnouncesClose p ∨ AnnouncesClose z := by
  unfold AnnouncesClose
  rw [textLines_append hp]
  simp [or_and_right, exists_or]

theorem announcesClose_lines (fs : List (Bytes × Bytes)) (z : Bytes) :
    AnnouncesClose ((fs.flatMap fun f => appendHeaderLine f.1 f.2) ++ z) ↔
      (∃ f ∈ fs, AnnouncesClose (appendHeaderLine f.1 f.2)) ∨ AnnouncesClose z := by
  induction fs with
  | nil => simp
  | cons f fs ih =>
    have hend : EndsLine (appendHeaderLine f.1 f.2) := endsLine_crlf _
    rw [flatMap_cons, append_assoc, announcesClose_append hend, ih]
    simp [mem_cons, exists_eq_or_imp, or_assoc]

theorem announcesClose_closeLine : AnnouncesClose (appendHeaderLine strConnection strClose) := by decide +kernel

namespace ResponseHeader

/-- A line other than the last one announces a close: values are written as they are set. -/
def OtherLine (h : ResponseHeader) (date : Bytes) (compressed : Bool) : Prop :=
  AnnouncesClose h.statusLine ∨ ∃ f ∈ h.plainFields date compressed, AnnouncesClose (appendHeaderLine f.1 f.2)

instance (h : ResponseHeader) (date : Bytes) (compressed : Bool) : Decidable (h.OtherLine date compressed) :=
  inferInstanceAs (Decidable (_ ∨ _))

theorem appendBytes_announces (h : ResponseHeader) (date : Bytes) (compressed : Bool) (z : Bytes) :
    AnnouncesClose (h.appendBytes date compressed ++ z) ↔
      h.appended.connectionClose = true ∨ h.OtherLine date compressed ∨ AnnouncesClose z := by
  have hend : AnnouncesClose ((if compressed then [] else strCRLF) ++ z) ↔ AnnouncesClose z := by
    cases compressed with
    | true => simp
    | false =>
      have hno : ¬ AnnouncesClose strCRLF := by decide +kernel
      have hends : EndsLine strCRLF := endsLine_crlf []
      simp [announcesClose_append hends, hno]
  have hlast : (∃ f ∈ lineIf (h.appended.connectionClose = true) strConnection strClose,
      AnnouncesClose (appendHeaderLine f.1 f.2)) ↔ h.appended.connectionClose = true := by
    unfold lineIf
    split
    · simp [announcesClose_closeLine, *]
    · simp [*]
  have hfirst : EndsLine h.statusLine := endsLine_crlf _
  unfold appendBytes OtherLine
  rw [append_assoc, append_assoc, announcesClose_append hfirst, announcesClose_lines, hend]
  simp only [mem_append, or_and_right, exists_or, hlast]
  constructor
  · rintro (h | (h | h) | h)
    exacts [.inr (.inl (.inl h)), .inr (.inl (.inr h)), .inl h, .inr (.inr h)]
  · rintro (h | (h | h) | h)
    exacts [.inr (.inl (.inr h)), .inl h, .inr (.inl (.inl h)), .inr (.inr h)]

end ResponseHeader

/-! ## Responses that announce a close -/

theorem mem_textLines_subset {b l : Bytes} (hl : l ∈ textLines b) : ∀ c ∈ l, c ∈ b := by
  induction b generalizing l with
  | nil => simp [textLines] at hl
  | cons c b ih =>
    unfold textLines at hl
    split at hl
    · rcases mem_cons.mp hl with rfl | hl
      · simp
      · exact fun d hd => mem_cons_of_mem _ (ih hl d hd)
    · rcases ht : textLines b with _ | ⟨l₀, ls⟩ <;> rw [ht] at hl ih
      · simp at hl
        simp [hl]
      · rcases mem_cons.mp hl with rfl | hl
        · intro d hd
          rcases mem_cons.mp hd with rfl | hd
          · simp
          · exact mem_cons_of_mem _ (ih (by simp) d hd)
        · exact fun d hd => mem_cons_of_mem _ (ih (by simp [hl]) d hd)

theorem not_announcesClose {b : Bytes} (h : ∀ c ∈ b, toLowerTable c ≠ ch 'i') : ¬ AnnouncesClose b := by
  rintro ⟨l, hl, hclose⟩
  unfold closeLine named at hclose
  rw [Bool.and_eq_true, decide_eq_true_eq] at hclose
  have hmem : ch 'i' ∈ (fieldName l).map toLowerTable := by
    rw [hclose.1]
    decide +kernel
  obtain ⟨c, hc, hlow⟩ := mem_map.mp hmem
  exact h c (mem_textLines_subset hl c (takeWhile_subset _ hc)) hlow

theorem isDigit_ne_i (c : Byte) (h : isDigit c = true) : toLowerTable c ≠ ch 'i' := by
  revert c; exact forall_byte (by decide +kernel)

namespace OutResponse

variable (resp : OutResponse)

theorem not_announcesClose_compressedLength (n : Nat) : ¬ AnnouncesClose (compressedLength n) := by
  refine not_announcesClose fun c hc => ?_
  have hc := mem_of_mem_take hc
  have hname : ∀ c ∈ strContentLength ++ strColonSpace, toLowerTable c ≠ ch 'i' := by decide +kernel
  have hend : ∀ c ∈ strCRLF, toLowerTable c ≠ ch 'i' := by decide +kernel
  rw [mem_append, mem_append, mem_append] at hc
  rcases hc with ((hc | hc) | hc) | hc
  exacts [hname c hc, isDigit_ne_i c (isDigit_toDigits n c hc), hend c hc, hend c hc]

def sentHeader (resp : OutResponse) : ResponseHeader × Bool :=
  match resp.chunkedW, resp.compressPool, resp.bodyStream with
  | some _, _, _ => ({ resp.header with contentLength := -1 }, false)
  | none, some _, some _ => (compressedHeader resp.header, false)
  | none, some _, none => if resp.mustSkipBody then (resp.skippedHeader, false) else (resp.header, true)
  | none, none, some s => (streamHeader resp.header s, false)
  | none, none, none => (resp.bytesHeader, false)

theorem write_announces (date : Bytes) :
    AnnouncesClose (resp.write date).block ↔
      resp.sentHeader.1.appended.connectionClose = true ∨ resp.sentHeader.1.OtherLine date resp.sentHeader.2 := by
  have hplain : ∀ (h : ResponseHeader) (compressed : Bool), AnnouncesClose (h.appendBytes date compressed) ↔
      h.appended.connectionClose = true ∨ h.OtherLine date compressed := by
    intro h compressed
    have hnil : ¬ AnnouncesClose [] := by decide
    rw [← append_nil (h.appendBytes date compressed), h.appendBytes_announces]
    simp [hnil]
  unfold write sentHeader
  rcases resp.chunkedW with _ | w
  · rcases resp.compressPool with _ | c
    · rcases resp.bodyStream with _ | s
      · exact hplain _ _
      · exact hplain _ _
    · rcases hs : resp.bodyStream with _ | s
      · simp only [writeCompress, hs]
        split
        · exact hplain _ _
        · split
          · exact hplain _ _
          · rw [ResponseHeader.appendBytes_announces]
            simp [not_announcesClose_compressedLength]
      · simp only [writeCompress, hs]
        exact hplain _ _
  · exact hplain _ _

/-- The body ends with the connection, and the server learns it only from the header block. -/
def endsWithConn (resp : OutResponse) : Bool :=
  let h := resp.header
  let declares := !h.mustSkipContentLength && !h.headMethod
  match resp.chunkedW, resp.compressPool, resp.bodyStream with
  | some _, _, _ => false
  | none, some _, some _ => h.contentLength = -2
  | none, some _, none => declares && h.contentLength < -1 && (!resp.skipBody || resp.bodyBytes = [])
  | none, none, some s =>
    match s.limit with
    | some n => if 0 ≤ n then h.contentLength = -2 else declares && h.contentLength < -1
    | none => declares && h.contentLength < -1
  | none, none, none => declares && (h.contentLength = -2 || h.contentLength < -1 && resp.skipBody && resp.bodyBytes = [])

theorem bytesHeader_close : resp.bytesHeader.appended.connectionClose = (resp.header.connectionClose ||
    (!resp.header.mustSkipContentLength && !resp.header.headMethod &&
      (resp.header.contentLength = -2 || resp.header.contentLength < -1 && resp.skipBody && resp.bodyBytes = []))) := by
  unfold bytesHeader mustSkipBody
  split
  · change (resp.header.connectionClose || (!resp.header.mustSkipContentLength && decide ((resp.bodyBytes.length : Int) < -1) &&
      !resp.header.headMethod)) = _
    grind
  · change (resp.header.connectionClose || (!resp.header.mustSkipContentLength && decide (resp.header.contentLength < -1) &&
      !resp.header.headMethod)) = _
    grind

theorem streamHeader_close (h : ResponseHeader) (s : OutStream) : (streamHeader h s).appended.connectionClose = (h.connectionClose ||
    match s.limit with
    | some n => if 0 ≤ n then decide (h.contentLength = -2)
      else !h.mustSkipContentLength && !h.headMethod && decide (h.contentLength < -1)
    | none => !h.mustSkipContentLength && !h.headMethod && decide (h.contentLength < -1)) := by
  have hown : h.appended.connectionClose = (h.connectionClose || (!h.mustSkipContentLength && decide (h.contentLength < -1) &&
      !h.headMethod)) := rfl
  unfold streamHeader
  rcases s.limit with _ | n
  · grind
  · simp only
    split
    · change (h.connectionClose || decide (h.contentLength = -2) || (!h.mustSkipContentLength && decide (n < -1) && !h.headMethod)) = _
      grind
    · grind

theorem skippedHeader_close : resp.skippedHeader.appended.connectionClose = (resp.header.connectionClose ||
    (!resp.header.mustSkipContentLength && !resp.header.headMethod && resp.header.contentLength < -1 && resp.bodyBytes = [])) := by
  change (resp.header.connectionClose || (!resp.header.mustSkipContentLength &&
    decide ((if resp.bodyBytes = [] then resp.header.contentLength else (resp.bodyBytes.length : Int)) < -1) &&
    !resp.header.headMethod)) = _
  grind

theorem sentHeader_close :
    resp.sentHeader.1.appended.connectionClose = (resp.header.connectionClose || resp.endsWithConn) := by
  unfold sentHeader endsWithConn
  rcases resp.chunkedW with _ | w
  swap
  · simp [ResponseHeader.appended, ResponseHeader.endsWithConn]
  rcases resp.compressPool with _ | c <;> rcases resp.bodyStream with _ | s
  · exact resp.bytesHeader_close
  · exact streamHeader_close resp.header s
  · simp only
    split
    · rw [skippedHeader_close]
      grind [mustSkipBody]
    · change (resp.header.connectionClose || (!resp.header.mustSkipContentLength && decide (resp.header.contentLength < -1) &&
        !resp.header.headMethod)) = _
      grind [mustSkipBody]
  · simp [ResponseHeader.appended, ResponseHeader.endsWithConn, compressedHeader]

end OutResponse

end Fasthttp
