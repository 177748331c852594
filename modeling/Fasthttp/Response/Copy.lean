import Fasthttp.Request.Copy
import Fasthttp.Response.Close

/-!
# Copies of responses

`Response.CopyTo` of `http.go`, for a response that has neither a stream nor a chunked writer.
-/

namespace Fasthttp

open List

theorem textOf_nil : textOf [] = [] := rfl

namespace ResponseHeader

def reset (_ : ResponseHeader) : ResponseHeader := zero

/-- `headMethod` is left as it is after the reset. -/
def copyTo (h dst : ResponseHeader) : ResponseHeader :=
  let dst := dst.reset
  { dst with
    disableNormalizing := h.disableNormalizing
    noHTTP11 := h.noHTTP11
    connectionClose := h.connectionClose
    noDefaultContentType := h.noDefaultContentType
    noDefaultDate := h.noDefaultDate
    statusCode := h.statusCode
    statusMessage := dst.statusMessage ++ h.statusMessage
    protocol := dst.protocol ++ h.protocol
    contentLength := h.contentLength
    contentLengthBytes := dst.contentLengthBytes ++ h.contentLengthBytes
    contentType := dst.contentType ++ h.contentType
    contentEncoding := dst.contentEncoding ++ h.contentEncoding
    server := dst.server ++ h.server
    h := copyArgs h.h
    cookies := copyArgs h.cookies
    trailer := copyArgs h.trailer }

def headless (h : ResponseHeader) : ResponseHeader := { h with headMethod := false }

def trailerLine (h : ResponseHeader) : List (Bytes × Bytes) :=
  lineIf (h.sentTrailer ≠ []) strTrailer (strCommaSpace.intercalate (h.sentTrailer.map ArgsKV.key))

def frontLines (h : ResponseHeader) (date : Bytes) (compressed : Bool) : List (Bytes × Bytes) :=
  lineIf (h.server ≠ []) strServer h.server ++ lineIf (h.noDefaultDate = false) strDate date ++
  lineIf (h.contentTypeValue ≠ [] ∧ (h.contentType ≠ [] ∨ h.contentLength ≠ 0)) strContentType h.contentTypeValue ++
  lineIf (h.contentEncoding ≠ []) strContentEncoding h.contentEncoding ++
  lineIf (0 < h.contentLength ∧ compressed = false) strContentLength ((Nat.toDigits 10 h.contentLength.toNat).map ch)

/-- The block says as much to `HEAD` as to any other method. -/
def HeadAlike (h : ResponseHeader) : Prop :=
  h.mustSkipContentLength = true ∨ 0 < h.contentLength ∨ (h.contentLength < -1 ∧ h.connectionClose = true) ∨
    (h.contentLength = -1 ∧ textOf ((strTransferEncoding,
      strChunked) :: (h.headless.genericLines ++ h.headless.trailerLine)) = textOf h.genericLines)

variable {h : ResponseHeader}

theorem appendBytes_lines (hskip : h.mustSkipContentLength = false) (date : Bytes) (compressed : Bool) :
    h.appendBytes date compressed =
    h.statusLine ++ textOf (h.frontLines date compressed ++
      (lineIf (h.contentLength = 0 ∧ h.headMethod = false) strContentLength (ascii "0") ++
      (lineIf (h.contentLength = -1 ∧ h.headMethod = false) strTransferEncoding strChunked ++ (h.genericLines ++ h.trailerLine))) ++
      h.cookies.map (fun kv => (strSetCookie, kv.value)) ++ lineIf (h.appended.connectionClose = true) strConnection strClose) ++
      if compressed then [] else strCRLF := by
  simp only [appendBytes, plainFields, contentLines, hskip, Bool.false_eq_true, if_false, frontLines, trailerLine, textOf,
    append_assoc]

theorem headless_appendBytes_iff (hh : h.headMethod = true) (date : Bytes) (compressed : Bool) :
    h.headless.appendBytes date compressed = h.appendBytes date compressed ↔ h.HeadAlike := by
  by_cases hskip : h.mustSkipContentLength = true
  · refine iff_of_true ?_ (.inl hskip)
    have hskip' : h.headless.mustSkipContentLength = true := hskip
    simp only [appendBytes, plainFields, genericLines, sentTrailer, appended, endsWithConn, hskip, hskip']
    rfl
  · replace hskip : h.mustSkipContentLength = false := by simpa using hskip
    have hskip' : h.headless.mustSkipContentLength = false := hskip
    have hstatus : h.headless.statusLine = h.statusLine := rfl
    have hfront : h.headless.frontLines date compressed = h.frontLines date compressed := rfl
    have hcookies : h.headless.cookies = h.cookies := rfl
    have hlength : h.headless.contentLength = h.contentLength := rfl
    have hheadless : h.headless.headMethod = false := rfl
    have hclose : h.headless.appended.connectionClose = (h.connectionClose || decide (h.contentLength < -1)) := by
      simp only [appended, endsWithConn, hskip', hlength, hheadless, Bool.not_false, Bool.and_true, Bool.true_and]
      rfl
    have hclose' : h.appended.connectionClose = h.connectionClose := by simp [appended, endsWithConn, hh]
    have hsent : h.sentTrailer = [] := by simp [sentTrailer, hh]
    have htrailer : h.trailerLine = [] := by simp [trailerLine, hsent, lineIf]
    have hsame (hne : h.contentLength ≠ -1) : h.headless.genericLines = h.genericLines ∧ h.headless.trailerLine = [] := by
      have hsent' : h.headless.sentTrailer = [] := by simp [sentTrailer, hlength, hne]
      exact ⟨by rw [genericLines, genericLines, hsent, hsent']; rfl, by simp [trailerLine, hsent', lineIf]⟩
    rw [appendBytes_lines hskip, appendBytes_lines hskip', hstatus, hfront, hcookies, hlength, hheadless, hclose, hclose',
      hh, htrailer,
      append_left_inj, append_right_inj]
    simp only [textOf_append, append_assoc, append_right_inj, HeadAlike, hskip, Bool.false_eq_true, false_or]
    rcases (by omega : h.contentLength = 0 ∨ h.contentLength = -1 ∨ 0 < h.contentLength ∨ h.contentLength < -1) with
      h0 | h1 | hpos | hneg
    · obtain ⟨hgeneric, htrailer'⟩ := hsame (by omega)
      have hline : textOf [(strContentLength, ascii "0")] ≠ [] := by decide
      simp [lineIf, h0, hgeneric, htrailer', textOf_nil, hline]
    · have hcons (f : Bytes × Bytes) (fs : List (Bytes × Bytes)) : textOf (f :: fs) = textOf [f] ++ textOf fs := textOf_append [f] fs
      have htail {a b c d e : Bytes} : a ++ (b ++ (c ++ d)) = e ++ d ↔ a ++ (b ++ c) = e := by
        rw [← append_assoc, ← append_assoc, append_left_inj, append_assoc]
      simp [lineIf, h1, textOf_nil, hcons (strTransferEncoding, strChunked) (_ ++ _), textOf_append, htail]
    · obtain ⟨hgeneric, htrailer'⟩ := hsame (by omega)
      have h0 : h.contentLength ≠ 0 := by omega
      have h1 : h.contentLength ≠ -1 := by omega
      have hlt : ¬ h.contentLength < -1 := by omega
      simp [lineIf, hgeneric, htrailer', h0, h1, hpos, hlt]
    · obtain ⟨hgeneric, htrailer'⟩ := hsame (by omega)
      have h0 : h.contentLength ≠ 0 := by omega
      have h1 : h.contentLength ≠ -1 := by omega
      have hpos : ¬ 0 < h.contentLength := by omega
      cases hc : h.connectionClose with
      | true => simp [lineIf, hgeneric, htrailer', h0, h1, hpos, hneg]
      | false =>
        have hline : textOf [(strConnection, strClose)] ≠ [] := by decide
        simp [lineIf, hgeneric, htrailer', h0, h1, hpos, hneg, textOf_nil, hline]

end ResponseHeader

/-! ## Responses -/

/-- `A` are network addresses. -/
structure FullResponse (A : Type) extends Buffers where
  header : ResponseHeader
  raddr : Option A
  laddr : Option A
  compressPool : Option Compressor
  immediateHeaderFlush : Bool
  streamBody : Bool
  skipBody : Bool
  secureErrorLogMessage : Bool

namespace FullResponse

variable {A : Type}

def reset (resp : FullResponse A) (large : Bool) : FullResponse A where
  toBuffers := resp.toBuffers.reset large
  header := resp.header.reset
  raddr := none
  laddr := none
  compressPool := none
  immediateHeaderFlush := false
  streamBody := false
  skipBody := false
  secureErrorLogMessage := false

def copyToSkipBody (resp dst : FullResponse A) (large : Bool) : FullResponse A :=
  let dst := dst.reset large
  { dst with
    header := resp.header.copyTo dst.header
    raddr := resp.raddr
    laddr := resp.laddr
    compressPool := resp.compressPool
    immediateHeaderFlush := resp.immediateHeaderFlush
    streamBody := resp.streamBody
    skipBody := resp.skipBody
    keepBodyBuffer := resp.keepBodyBuffer
    secureErrorLogMessage := resp.secureErrorLogMessage }

def copyTo (resp dst : FullResponse A) (large : Bool) : FullResponse A :=
  let dst := resp.copyToSkipBody dst large
  { dst with toBuffers := resp.toBuffers.copyBody dst.toBuffers }

def out (resp : FullResponse A) : OutResponse where
  header := resp.header
  bodyStream := none
  bodyRaw := resp.bodyRaw
  body := resp.body.getD []
  chunkedW := none
  compressPool := resp.compressPool
  skipBody := resp.skipBody

def write (resp : FullResponse A) (date : Bytes) : Written := resp.out.write date

end FullResponse

namespace OutResponse

def headless (resp : OutResponse) : OutResponse := { resp with header := resp.header.headless }

theorem headless_write_iff (resp : OutResponse) (hw : resp.chunkedW = none) (hs : resp.bodyStream = none) (date : Bytes) :
    resp.headless.write date = resp.write date ↔ resp.header.headMethod = false ∨ resp.sentHeader.1.HeadAlike := by
  by_cases hh : resp.header.headMethod = false
  · refine iff_of_true ?_ (.inl hh)
    rw [headless, ResponseHeader.headless, ← hh]
  · replace hh := Bool.of_not_eq_false hh
    rw [hh]
    have hw' : resp.headless.chunkedW = none := hw
    have hs' : resp.headless.bodyStream = none := hs
    have hpool : resp.headless.compressPool = resp.compressPool := rfl
    have hskip : resp.headless.mustSkipBody = resp.mustSkipBody := rfl
    have hbytes : resp.headless.bodyBytes = resp.bodyBytes := rfl
    unfold write sentHeader
    rw [hw, hs, hw', hs', hpool]
    rcases resp.compressPool with _ | c
    · have hsent : resp.headless.bytesHeader = resp.bytesHeader.headless ∧ resp.bytesHeader.headMethod = true := by
        unfold bytesHeader
        rw [hskip, hbytes]
        have hlength : resp.headless.header.contentLength = resp.header.contentLength := rfl
        rw [hlength]
        split_ifs
        · exact ⟨rfl, hh⟩
        · exact ⟨rfl, hh⟩
      simp [hskip, hbytes, hsent.1, ResponseHeader.headless_appendBytes_iff hsent.2]
    · simp only [writeCompress, hs, hs', hskip, hbytes]
      cases resp.mustSkipBody with
      | true =>
        have hsent : resp.headless.skippedHeader = resp.skippedHeader.headless := rfl
        have hhead : resp.skippedHeader.headMethod = true := hh
        simp [hsent, ResponseHeader.headless_appendBytes_iff hhead]
      | false =>
        have hheader : resp.headless.header = resp.header.headless := rfl
        rcases c.whole resp.bodyBytes with e | b
        · simp [hheader, ResponseHeader.headless_appendBytes_iff hh]
        · simp [hheader, ResponseHeader.headless_appendBytes_iff hh]

theorem write_body (resp : OutResponse) {raw : Option Bytes} {body : Bytes} (hw : resp.chunkedW = none) (hs : resp.bodyStream = none)
    (hbytes : raw.getD body = resp.bodyBytes) (date : Bytes) : { resp with bodyRaw := raw, body }.write date = resp.write date := by
  have hbytes' : { resp with bodyRaw := raw, body }.bodyBytes = resp.bodyBytes := hbytes
  unfold write bytesHeader writeCompress skippedHeader
  rw [hbytes', hw, hs]
  rfl

end OutResponse

structure SoundResponse (A : Type) extends FullResponse A where
  tidy : Tidy (header.h ++ header.cookies ++ header.trailer)

namespace SoundResponse

variable {A : Type}

def Faithful (resp : SoundResponse A) (date : Bytes) (copy : FullResponse A) : Prop :=
  copy.bodyBytes = resp.bodyBytes ∧ copy.write date = resp.write date

structure Copyable (resp : SoundResponse A) : Prop where
  body : ∀ raw ∈ resp.bodyRaw, ∀ body ∈ resp.body, body = raw
  header : resp.header.headMethod = false ∨ resp.out.sentHeader.1.HeadAlike

theorem faithful_iff (resp : SoundResponse A) (dst : FullResponse A) (large : Bool) (date : Bytes) :
    resp.Faithful date (resp.copyTo dst large) ↔ resp.Copyable := by
  have htidy := resp.tidy
  simp only [tidy_append] at htidy
  obtain ⟨⟨hh, hcookies⟩, htrailer⟩ := htidy
  have hheader : resp.header.copyTo (dst.reset large).header = resp.header.headless := by
    simp only [ResponseHeader.copyTo, hh.copyArgs_eq, hcookies.copyArgs_eq, htrailer.copyArgs_eq]
    rfl
  obtain ⟨b, hb⟩ : ∃ b, resp.toBuffers.copyBody { dst.toBuffers.reset large with keepBodyBuffer := resp.keepBodyBuffer } =
    b := ⟨_, rfl⟩
  have hcopy : resp.copyTo dst large = { resp.toFullResponse with toBuffers := b, header := resp.header.headless } := by
    rw [← hb]
    simp only [FullResponse.copyTo, FullResponse.copyToSkipBody, hheader]
    rfl
  have hbody : b.bodyBytes = resp.bodyBytes ↔ ∀ raw ∈ resp.bodyRaw, ∀ body ∈ resp.body, body = raw := by
    rw [← hb]
    exact resp.toBuffers.copyBody_bodyBytes rfl
  have hwrite (hsame : b.bodyBytes = resp.bodyBytes) :
      (resp.copyTo dst large).write date = resp.write date ↔ resp.header.headMethod = false ∨ resp.out.sentHeader.1.HeadAlike := by
    have hbytes : b.bodyRaw.getD (b.body.getD []) = resp.out.headless.bodyBytes :=
      b.getD_bodyRaw.trans (hsame.trans resp.getD_bodyRaw.symm)
    rw [hcopy]
    exact (Eq.congr_left (resp.out.headless.write_body rfl rfl hbytes date)).trans (resp.out.headless_write_iff rfl rfl date)
  have hsame : (resp.copyTo dst large).bodyBytes = b.bodyBytes := by rw [hcopy]
  unfold Faithful
  rw [hsame]
  constructor
  · rintro ⟨heq, hsent⟩
    exact ⟨hbody.mp heq, (hwrite heq).mp hsent⟩
  · rintro ⟨hraw, hhead⟩
    exact ⟨hbody.mpr hraw, (hwrite (hbody.mpr hraw)).mpr hhead⟩

end SoundResponse

/-- Requests and responses are copied as they are exactly when nothing of theirs is among what `CopyTo` leaves out. -/
theorem copyTo_faithful_iff {F A : Type} (req : SoundRequest F) (dst : FullRequest F) (basic : Bytes → Bytes → Bytes)
    (resp : SoundResponse A) (dst' : FullResponse A) (date : Bytes) (large : Bool) :
    (req.Faithful basic (req.copyTo dst large) ↔ req.Copyable basic) ∧ (resp.Faithful date (resp.copyTo dst' large) ↔ resp.Copyable) :=
  ⟨req.faithful_iff dst large basic, resp.faithful_iff dst' large date⟩

def attempted : SoundRequest Unit where
  toBuffers := Buffers.setBodyRaw ⟨none, some (ascii "a"), true⟩ (some (ascii "b"))
  header := ⟨RequestHeader.zero, [], false, false⟩
  uri := .zero
  postArgs := []
  timeout := 0
  maxBodySize := 0
  cliInfo := some ⟨none, 3, 0, 0⟩
  secureErrorLogMessage := false
  parsedURI := false
  parsedPostArgs := false
  isTLS := false
  useHostHeader := false
  disableRedirectPathNormalizing := false
  discardUnReadBodyStream := false
  streamBody := false
  tidy := by simp [Tidy, RequestHeader.zero, Uri.URI.zero]

theorem copyTo_loses_raw : attempted.bodyBytes = ascii "b" ∧ (attempted.copyTo attempted.toFullRequest false).bodyBytes = [] ∧
    attempted.settings.1.maxAttempts = 3 ∧ (attempted.copyTo attempted.toFullRequest false).settings.1.maxAttempts = 0 ∧
    ¬ attempted.Faithful (fun _ _ => []) (attempted.copyTo attempted.toFullRequest false) := by
  refine ⟨by decide, by decide, by decide, by decide, ?_⟩
  rintro ⟨hbody, -, -⟩
  revert hbody
  decide

end Fasthttp
