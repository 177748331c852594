import Fasthttp.Body.Setters
import Fasthttp.Request.Write
import Fasthttp.Uri.RoundTrip

/-!
# Copies of requests

`Request.CopyTo` of `http.go` with the functions that it calls, for a request that has neither a stream nor a form.
-/

namespace Fasthttp

open Segments List

/-! ## Argument lists -/

def copyArgs (src : List ArgsKV) : List ArgsKV := src.map fun kv => { kv with value := if kv.noValue then [] else kv.value }

theorem Tidy.copyArgs_eq {args : List ArgsKV} (h : Tidy args) : copyArgs args = args := by
  refine (map_congr_left fun kv hkv => ?_).trans (map_id args)
  split
  · rw [← h kv hkv ‹_›]
    rfl
  · rfl

/-! ## Bodies -/

namespace Buffers

/-- `Reset` gives a buffer up that is too large for the pool. -/
def reset (s : Buffers) (large : Bool) : Buffers := { s with body := if large then none else s.body }.resetBody

def copyBody (s dst : Buffers) : Buffers :=
  let dst := match s.bodyRaw with
    -- a nil slice to which nothing is appended stays nil
    | some raw => { dst with bodyRaw := if dst.bodyRaw = none ∧ raw = [] then none else some raw }
    | none => dst
  match s.body with
  | some body => dst.setBody body
  | none => { dst with body := none }

theorem getD_bodyRaw (s : Buffers) : s.bodyRaw.getD (s.body.getD []) = s.bodyBytes := by
  unfold bodyBytes
  rcases s.bodyRaw <;> rfl

theorem copyBody_bodyBytes (s : Buffers) {dst : Buffers} (hdst : dst.bodyRaw = none) :
    (s.copyBody dst).bodyBytes = s.bodyBytes ↔ ∀ raw ∈ s.bodyRaw, ∀ body ∈ s.body, body = raw := by
  unfold copyBody bodyBytes
  rcases s.bodyRaw with _ | raw <;> rcases s.body with _ | body
  · simp [hdst]
  · simp [setBody, fillBuffer]
  · by_cases hraw : raw = []
    · simp [hdst, hraw]
    · simp [hraw]
  · simp [setBody, fillBuffer]

end Buffers

/-! ## Headers and URIs -/

namespace OutHeader

def reset (_ : OutHeader) : OutHeader := ⟨RequestHeader.zero, [], false, false⟩

/-- `disableSpecialHeader` is left as it is after the reset. -/
def copyTo (h dst : OutHeader) : OutHeader :=
  let dst := dst.reset
  { dst with
    disableNormalizing := h.disableNormalizing
    noHTTP11 := h.noHTTP11
    connectionClose := h.connectionClose
    noDefaultContentType := h.noDefaultContentType
    contentLength := h.contentLength
    contentLengthBytes := dst.contentLengthBytes ++ h.contentLengthBytes
    method := dst.method ++ h.method
    proto := dst.proto ++ h.proto
    requestURI := dst.requestURI ++ h.requestURI
    host := dst.host ++ h.host
    contentType := dst.contentType ++ h.contentType
    userAgent := dst.userAgent ++ h.userAgent
    trailer := dst.trailer ++ h.trailer
    h := copyArgs h.h
    cookies := copyArgs h.cookies
    cookiesCollected := h.cookiesCollected
    rawHeaders := dst.rawHeaders ++ h.rawHeaders
    contentLengthSeen := h.contentLengthSeen
    firstLineLen := h.firstLineLen }

def visible (h : OutHeader) (host : Bytes) : OutHeader := { h with disableSpecialHeader := false, host }

end OutHeader

/-- `Reset` leaves nothing of the destination. -/
def Uri.URI.copyTo (u _dst : Uri.URI) : Uri.URI :=
  let dst := Uri.URI.zero
  { dst with
    pathOriginal := dst.pathOriginal ++ u.pathOriginal
    scheme := dst.scheme ++ u.scheme
    path := dst.path ++ u.path
    queryString := dst.queryString ++ u.queryString
    hash := dst.hash ++ u.hash
    host := dst.host ++ u.host
    username := dst.username ++ u.username
    password := dst.password ++ u.password
    queryArgs := copyArgs u.queryArgs
    parsedQueryArgs := u.parsedQueryArgs
    disablePathNormalizing := u.disablePathNormalizing }

/-! ## Requests -/

/-- The settings of a request for its client. `F` are the functions that decide on retries. -/
structure CliInfo (F : Type) where
  retryIf : Option F
  maxAttempts : Int
  readTimeout : Int
  writeTimeout : Int

structure FullRequest (F : Type) extends Buffers where
  header : OutHeader
  uri : Uri.URI
  postArgs : List ArgsKV
  timeout : Int
  maxBodySize : Int
  cliInfo : Option (CliInfo F)
  secureErrorLogMessage : Bool
  parsedURI : Bool
  parsedPostArgs : Bool
  isTLS : Bool
  useHostHeader : Bool
  disableRedirectPathNormalizing : Bool
  discardUnReadBodyStream : Bool
  streamBody : Bool

namespace FullRequest

variable {F : Type}

def reset (req : FullRequest F) (large : Bool) : FullRequest F where
  toBuffers := req.toBuffers.reset large
  header := req.header.reset
  uri := .zero
  postArgs := []
  timeout := 0
  maxBodySize := 0
  cliInfo := none
  secureErrorLogMessage := false
  parsedURI := false
  parsedPostArgs := false
  isTLS := false
  useHostHeader := false
  disableRedirectPathNormalizing := false
  discardUnReadBodyStream := false
  streamBody := false

def copyToSkipBody (req dst : FullRequest F) (large : Bool) : FullRequest F :=
  let dst := dst.reset large
  { dst with
    header := req.header.copyTo dst.header
    uri := req.uri.copyTo dst.uri
    postArgs := copyArgs req.postArgs
    timeout := req.timeout
    maxBodySize := req.maxBodySize
    -- the destination is asked, and it was reset
    cliInfo := if dst.cliInfo.isSome then req.cliInfo else dst.cliInfo
    secureErrorLogMessage := req.secureErrorLogMessage
    parsedURI := req.parsedURI
    parsedPostArgs := req.parsedPostArgs
    keepBodyBuffer := req.keepBodyBuffer
    isTLS := req.isTLS
    useHostHeader := req.useHostHeader
    disableRedirectPathNormalizing := req.disableRedirectPathNormalizing
    discardUnReadBodyStream := req.discardUnReadBodyStream
    streamBody := req.streamBody }

def copyTo (req dst : FullRequest F) (large : Bool) : FullRequest F :=
  let dst := req.copyToSkipBody dst large
  { dst with toBuffers := req.toBuffers.copyBody dst.toBuffers }

def settings (req : FullRequest F) : CliInfo F × Int := (req.cliInfo.getD ⟨none, 0, 0, 0⟩, req.timeout)

def address (basic : Bytes → Bytes → Bytes) (u : Uri.URI) : URI :=
  ⟨u.host, u.requestURI, if u.username = [] then none else some (basic u.username u.password)⟩

def out (req : FullRequest F) (basic : Bytes → Bytes → Bytes) : OutRequest where
  header := req.header
  uri := address basic req.uri
  parsedURI := req.parsedURI
  useHostHeader := req.useHostHeader
  streamBody := req.streamBody
  discardUnReadBodyStream := req.discardUnReadBodyStream
  bodyStream := none
  bodyRaw := req.bodyRaw
  body := req.body.getD []
  multipartForm := none
  multipartFormBoundary := []
  postArgs := Uri.appendArgs req.postArgs

def parseURI (basic : Bytes → Bytes → Bytes) (isTLS : Bool) (host requestURI : Bytes) : URI :=
  address basic (Uri.parse host requestURI isTLS).2

def write (req : FullRequest F) (basic : Bytes → Bytes → Bytes) : Except WriteErr (Bytes × Bytes) :=
  (req.out basic).write (parseURI basic req.isTLS)

end FullRequest

structure SoundRequest (F : Type) extends FullRequest F where
  tidy : Tidy (header.h ++ header.cookies ++ postArgs ++ uri.queryArgs)

namespace SoundRequest

variable {F : Type}

def kept (req : SoundRequest F) (b : Buffers) : FullRequest F :=
  { req.toFullRequest with toBuffers := b, header := req.header.visible req.header.host, cliInfo := none }

theorem copyTo_eq (req : SoundRequest F) (dst : FullRequest F) (large : Bool) : req.copyTo dst large =
    req.kept (req.toBuffers.copyBody { dst.toBuffers.reset large with keepBodyBuffer := req.keepBodyBuffer }) := by
  have htidy := req.tidy
  simp only [tidy_append] at htidy
  obtain ⟨⟨⟨hh, hcookies⟩, hargs⟩, hquery⟩ := htidy
  have hheader : req.header.copyTo (dst.reset large).header = req.header.visible req.header.host := by
    simp only [OutHeader.copyTo, hh.copyArgs_eq, hcookies.copyArgs_eq]
    rfl
  have huri : req.uri.copyTo (dst.reset large).uri = req.uri := by
    simp only [Uri.URI.copyTo, hquery.copyArgs_eq]
    rfl
  simp only [FullRequest.copyTo, FullRequest.copyToSkipBody, hheader, huri, hargs.copyArgs_eq]
  rfl

end SoundRequest

/-! ## The lines of special headers -/

def textOf (fields : List (Bytes × Bytes)) : Bytes := fields.flatMap fun f => appendHeaderLine f.1 f.2

theorem length_textOf_eq_zero {fields : List (Bytes × Bytes)} (h : (textOf fields).length = 0) : fields = [] := by
  cases fields with
  | nil => rfl
  | cons f fields => simp [textOf, appendHeaderLine, strColonSpace, ascii] at h

theorem textOf_append (a b : List (Bytes × Bytes)) : textOf (a ++ b) = textOf a ++ textOf b := flatMap_append

namespace OutHeader

def trailerLine (h : OutHeader) : List (Bytes × Bytes) :=
  lineIf (h.trailer ≠ []) strTrailer (strCommaSpace.intercalate (h.trailer.map ArgsKV.key))

def cookieLine (h : OutHeader) : List (Bytes × Bytes) :=
  lineIf (h.cookies ≠ [] ∧ h.disableSpecialHeader = false) strCookie (appendRequestCookieBytes h.cookies)

def closeLine (h : OutHeader) : List (Bytes × Bytes) :=
  lineIf (h.connectionClose = true ∧ h.disableSpecialHeader = false) strConnection strClose

def specialLines (h : OutHeader) : List (Bytes × Bytes) := h.frontLines ++ h.lengthLine ++ (h.cookieLine ++ h.closeLine)

theorem appendBytes_textOf (h : OutHeader) : h.appendBytes = h.requestLine ++ textOf h.fields ++ strCRLF := rfl

theorem visible_appendBytes_iff {h : OutHeader} (hh : h.disableSpecialHeader = true) (host : Bytes) :
    (h.visible host).appendBytes = h.appendBytes ↔ (h.visible host).specialLines = [] := by
  have hshown : (h.visible host).backLines = h.trailerLine ++ (h.visible host).cookieLine ++ (h.visible host).closeLine := rfl
  have hhidden : h.fields = h.genericLines ++ h.trailerLine := by
    simp [fields, frontLines, lengthLine, backLines, trailerLine, lineIf, hh]
  have hline : (h.visible host).requestLine = h.requestLine := rfl
  have hgeneric : (h.visible host).genericLines = h.genericLines := rfl
  rw [appendBytes_textOf, appendBytes_textOf, append_left_inj, hline, append_right_inj, hhidden, fields, hgeneric, hshown]
  unfold specialLines
  constructor
  · intro heq
    have hlen := congrArg List.length heq
    simp only [textOf_append, length_append] at hlen
    rw [length_textOf_eq_zero (by omega : (textOf (h.visible host).frontLines).length = 0),
      length_textOf_eq_zero (by omega : (textOf (h.visible host).lengthLine).length = 0),
      length_textOf_eq_zero (by omega : (textOf (h.visible host).cookieLine).length = 0),
      length_textOf_eq_zero (by omega : (textOf (h.visible host).closeLine).length = 0)]
    rfl
  · intro hnil
    simp only [append_eq_nil_iff] at hnil
    rw [hnil.1.1, hnil.1.2, hnil.2.1, hnil.2.2]
    simp

end OutHeader

/-! ## Writing -/

namespace OutRequest

def completed (req : OutRequest) (h : OutHeader) : OutHeader :=
  contentHeader (req.argsContent req.bodyBytes h).2 (req.argsContent req.bodyBytes h).1

theorem completed_visible (req : OutRequest) (h : OutHeader) (host : Bytes) :
    req.completed (h.visible host) = (req.completed h).visible host := by
  have hargs : req.argsContent req.bodyBytes (h.visible host) =
      ((req.argsContent req.bodyBytes h).1, (req.argsContent req.bodyBytes h).2.visible host) := by
    unfold argsContent
    split_ifs <;> rfl
  have hcontent (g : OutHeader) (body : Bytes) : contentHeader (g.visible host) body = (contentHeader g body).visible host := by
    have hignore : (g.visible host).ignoreBody = g.ignoreBody := rfl
    unfold contentHeader
    rw [hignore]
    split_ifs
    · simp only [OutHeader.setContentLength, RequestHeader.withContentLength]
      rw [if_pos (Int.natCast_nonneg _), if_pos (Int.natCast_nonneg _)]
      rfl
    · rfl
  rw [completed, hargs, hcontent]
  rfl

/-- A request that has no line of a special header to send, apart from its host -/
def Bare (req : OutRequest) (h : OutHeader) : Prop :=
  h.userAgent = [] ∧ h.contentType = [] ∧ h.contentLengthBytes = [] ∧ h.cookies = [] ∧ h.connectionClose = false ∧
    h.ignoreBody = true ∧ req.bodyBytes = [] ∧ req.postArgs = []

theorem completed_specialLines_iff (req : OutRequest) (h : OutHeader) (host : Bytes) :
    ((req.completed h).visible host).specialLines = [] ↔ host = [] ∧ req.Bare h := by
  have hnil {p : Prop} [Decidable p] {key value : Bytes} : lineIf p key value = [] ↔ ¬ p := by
    unfold lineIf
    split_ifs with hp <;> simp [hp]
  -- a length that is declared has its line
  have hlength {g : OutHeader} {body : Bytes} (hg : body ≠ [] ∨ g.ignoreBody = false) :
      ((contentHeader g body).visible host).specialLines ≠ [] := by
    have hset : contentHeader g body = g.setContentLength body.length := if_pos (by simpa using hg)
    have hline : ((contentHeader g body).visible host).lengthLine ≠ [] := by
      rw [hset, OutHeader.lengthLine, Ne, hnil, not_not]
      exact ⟨by simp [OutHeader.visible, OutHeader.setContentLength, RequestHeader.withContentLength, Nat.toDigits_ne_nil], rfl⟩
    simp [OutHeader.specialLines, hline]
  by_cases hbody : req.bodyBytes = []
  · by_cases hargs : req.postArgs = []
    · have hcontent : req.argsContent req.bodyBytes h = ([], h) := by simp [argsContent, hbody, hargs]
      rw [completed, hcontent]
      by_cases hignore : h.ignoreBody = true
      · have hsame : contentHeader h [] = h := if_neg (by simp [hignore])
        have htype : (h.visible host).sentContentType = h.contentType := by
          have hvisible : (h.visible host).ignoreBody = true := hignore
          rw [OutHeader.sentContentType, hvisible]
          simp [RequestHeader.contentTypeValue, OutHeader.visible]
        have hplain : (h.visible host).disableSpecialHeader = false := rfl
        have hagent : (h.visible host).userAgentValue = h.userAgent := rfl
        have hhost : (h.visible host).hostValue = host := rfl
        simp only [hsame, OutHeader.specialLines, OutHeader.frontLines, OutHeader.lengthLine, OutHeader.cookieLine,
          OutHeader.closeLine,
          append_eq_nil_iff, hnil, htype, hplain, hagent, hhost, ne_eq, and_true, not_not, Bool.not_eq_true]
        constructor
        · rintro ⟨⟨⟨⟨hu, hh⟩, ht⟩, hl⟩, hc, hk⟩
          exact ⟨hh, hu, ht, hl, hc, hk, hignore, hbody, hargs⟩
        · rintro ⟨hh, hu, ht, hl, hc, hk, -⟩
          exact ⟨⟨⟨⟨hu, hh⟩, ht⟩, hl⟩, hc, hk⟩
      · exact iff_of_false (hlength (.inr (by simpa using hignore))) fun ⟨_, hb⟩ => hignore hb.2.2.2.2.2.1
    · have hcontent : req.argsContent req.bodyBytes h = (req.postArgs, { h with contentType := strPostArgsContentType }) := by
        simp [argsContent, hbody, hargs]
      rw [completed, hcontent]
      exact iff_of_false (hlength (.inl hargs)) fun ⟨_, hb⟩ => hargs hb.2.2.2.2.2.2.2
  · have hcontent : req.argsContent req.bodyBytes h = (req.bodyBytes, h) := if_pos hbody
    rw [completed, hcontent]
    exact iff_of_false (hlength (.inl hbody)) fun ⟨_, hb⟩ => hbody hb.2.2.2.2.2.2.1

theorem write_completed (req : OutRequest) (hs : req.bodyStream = none) (hf : req.multipartForm = none) (p : Bytes → Bytes → URI) :
    req.write p = (req.address p).map fun h => ((req.completed h).appendBytes, (req.argsContent req.bodyBytes h).1) := by
  unfold write
  rcases req.address p with e | h
  · rfl
  · simp only [hs, content, formContent, hf]
    rfl

end OutRequest

/-! ## The request line -/

namespace Uri

theorem parse_requestURI (host uri : Bytes) (isTLS : Bool) (r : Bytes) :
    ∃ c t, (parse host uri isTLS).2.requestURI ++ spChar :: r = slash :: c :: t ∧ c ≠ slash := by
  obtain ⟨p, hpath, hargs, hnormal⟩ : ∃ p, (parse host uri isTLS).2.pathValue = cleanPath p ∧
      (parse host uri isTLS).2.parsedQueryArgs = false ∧ (parse host uri isTLS).2.disablePathNormalizing = false := by
    have hroot : strSlash = cleanPath [] := by decide +kernel
    unfold parse
    split
    · exact ⟨[], hroot, rfl, rfl⟩
    · dsimp only
      rcases parseHost (splitUser (split host uri).2.1).2.2 with err | name
      · exact ⟨[], hroot, rfl, rfl⟩
      · have hclean := normalizePath_clean (splitQuery (split host uri).2.2).1
        have hne : normalizePath (splitQuery (split host uri).2.2).1 ≠ [] := by
          intro hnil
          have hstart := (cleanPath_normal (percentDecode (splitQuery (split host uri).2.2).1)).starts
          simp [← hclean, hnil] at hstart
        exact ⟨_, (if_neg hne).trans hclean, rfl, rfl⟩
  obtain ⟨t, ht⟩ : ∃ t, cleanPath p = slash :: t := List.head?_eq_some_iff.mp (cleanPath_normal p).starts
  have hslash : quoted slash = [slash] := by decide
  rw [URI.requestURI, hargs, hnormal, hpath, ht]
  simp only [Bool.false_eq_true, if_false, Bool.false_and, appendQuotedPath_rooted, flatMap_cons, hslash]
  cases t with
  | nil =>
    split_ifs
    · exact ⟨_, _, rfl, by decide⟩
    · exact ⟨_, _, rfl, by decide⟩
  | cons c t =>
    have hc : c ≠ slash := by
      rintro rfl
      exact (cleanPath_normal p).no_dup (ht ▸ ⟨[], t, rfl⟩)
    rcases quoted_cases c with ⟨heq, -⟩ | ⟨heq, -⟩
    · rw [flatMap_cons, heq]
      exact ⟨c, _, rfl, hc⟩
    · rw [flatMap_cons, heq]
      exact ⟨_, _, rfl, by decide⟩

theorem slashes_of_host {uri : Bytes} {isTLS : Bool} (h : (parse [] uri isTLS).2.host ≠ []) :
    uri ≠ [] ∧ (uri.head? = some slash → ∃ t, uri = slash :: slash :: t) := by
  have hhost : (splitHostURI [] uri).2.1 ≠ [] := by
    intro hnil
    have hsplit : split [] uri = splitHostURI [] uri := if_pos (by simp)
    have huser : splitUser [] = ([], [], []) := rfl
    have hparse : parseHost [] = .ok [] := by decide +kernel
    apply h
    unfold parse
    split
    · rfl
    · simp only [hsplit, hnil, huser, hparse]
      rfl
  unfold splitHostURI at hhost
  rcases hn : find strSlashSlash uri with _ | n
  · simp [hn] at hhost
  · by_cases hin : (indexByte (uri.take n) slash).isSome = true
    · simp [hn, hin] at hhost
    · obtain ⟨t, ht⟩ := prefix_of_find hn
      have hnot : slash ∉ uri.take n := not_mem_of_indexByte (by simpa using hin)
      cases uri with
      | nil =>
        have hlen := congrArg List.length ht
        simp [strSlashSlash, ascii] at hlen
      | cons c uri =>
        refine ⟨by simp, fun hc => ?_⟩
        obtain rfl : c = slash := by simpa using hc
        cases n with
        | zero => exact ⟨t, ht.symm⟩
        | succ n => simp at hnot

theorem requestURI_apart {uri : Bytes} {isTLS : Bool} (h : (parse [] uri isTLS).2.host ≠ []) (r r' : Bytes) :
    (parse [] uri isTLS).2.requestURI ++ spChar :: r ≠ uri ++ spChar :: r' := by
  intro heq
  obtain ⟨c, t, hstart, hc⟩ := parse_requestURI [] uri isTLS r
  obtain ⟨hne, hslash⟩ := slashes_of_host h
  rw [hstart] at heq
  cases uri with
  | nil => exact hne rfl
  | cons d uri =>
    have hd : slash = d := (List.cons.inj heq).1
    obtain ⟨u, hu⟩ := hslash (by rw [← hd]; rfl)
    rw [hu] at heq
    exact hc (List.cons.inj (List.cons.inj heq).2).1

end Uri

/-! ## The same bytes -/

namespace OutRequest

variable {req : OutRequest} {g h : OutHeader}

def shown (req : OutRequest) : OutRequest := { req with header := req.header.visible req.header.host }

def sent (req : OutRequest) (h : OutHeader) : Bytes × Bytes := ((req.completed h).appendBytes, (req.argsContent req.bodyBytes h).1)

theorem completed_keeps (req : OutRequest) (h : OutHeader) :
    (req.completed h).requestLine = h.requestLine ∧ (req.completed h).disableSpecialHeader = h.disableSpecialHeader := by
  have hcontent (g : OutHeader) (body : Bytes) : (contentHeader g body).requestLine = g.requestLine ∧
      (contentHeader g body).disableSpecialHeader = g.disableSpecialHeader := by
    unfold contentHeader
    split_ifs
    · simp only [OutHeader.setContentLength, RequestHeader.withContentLength]
      rw [if_pos (Int.natCast_nonneg _)]
      exact ⟨rfl, rfl⟩
    · exact ⟨rfl, rfl⟩
  refine (hcontent _ _).imp (fun hl => hl.trans ?_) fun hd => hd.trans ?_
  · unfold argsContent
    split_ifs <;> rfl
  · unfold argsContent
    split_ifs <;> rfl

theorem sent_visible_iff (req : OutRequest) (hg : g.disableSpecialHeader = true) (host : Bytes) :
    req.sent (g.visible host) = req.sent g ↔ host = [] ∧ req.Bare g := by
  have hbody : (req.argsContent req.bodyBytes (g.visible host)).1 = (req.argsContent req.bodyBytes g).1 := by
    unfold argsContent
    split_ifs <;> rfl
  unfold sent
  rw [Prod.mk.injEq, hbody, completed_visible, OutHeader.visible_appendBytes_iff ((req.completed_keeps g).2.trans hg),
    completed_specialLines_iff]
  exact and_iff_left rfl

theorem completed_line (req : OutRequest) (h : OutHeader) :
    ∃ r, (req.completed h).appendBytes = h.methodValue ++ spChar :: (h.requestURIValue ++ spChar :: r) := by
  rw [OutHeader.appendBytes_textOf, (req.completed_keeps h).1]
  exact ⟨_, by simp only [OutHeader.requestLine, append_assoc, cons_append, nil_append]; rfl⟩

theorem sent_apart {isTLS : Bool} (hmethod : g.methodValue = h.methodValue)
    (hhost : (Uri.parse [] h.requestURIValue isTLS).2.host ≠ [])
    (huri : g.requestURI = (Uri.parse [] h.requestURIValue isTLS).2.requestURI) : req.sent g ≠ req.sent h := by
  intro heq
  obtain ⟨r, hr⟩ := req.completed_line g
  obtain ⟨s, hs⟩ := req.completed_line h
  obtain ⟨c, t, hstart, -⟩ := Uri.parse_requestURI [] h.requestURIValue isTLS []
  have hvalue : g.requestURIValue = (Uri.parse [] h.requestURIValue isTLS).2.requestURI := by
    unfold OutHeader.requestURIValue
    rw [huri]
    refine if_neg fun hnil => ?_
    rw [hnil] at hstart
    exact absurd (List.cons.inj hstart).1 (by decide)
  have htext := congrArg Prod.fst heq
  simp only [sent] at htext
  rw [hr, hs, hmethod, hvalue, append_right_inj, List.cons.injEq] at htext
  exact Uri.requestURI_apart hhost r s htext.2

theorem set_authorization (h : OutHeader) (value : Bytes) :
    h.set strAuthorization value = h.setNonSpecial strAuthorization (initHeaderV value) := by
  have hkey (d : Bool) : initHeaderK strAuthorization d = strAuthorization := by cases d <;> decide
  have hnone : h.setSpecialHeader strAuthorization (initHeaderV value) true = none := by
    simp +decide [OutHeader.setSpecialHeader]
  rw [OutHeader.set, OutHeader.setCanonical, hkey, hnone]
  rfl

def hostFrom (req : OutRequest) (uri : URI) : Bytes :=
  if !req.useHostHeader || req.header.host = [] then uri.host else req.header.host

theorem hostFrom_ne_nil {uri : URI} (h : uri.host ≠ []) : req.hostFrom uri ≠ [] := by
  unfold hostFrom
  split
  · exact h
  · simp_all

theorem addressTo_shown (req : OutRequest) (uri : URI) :
    req.shown.addressTo uri = (req.addressTo uri).visible (req.hostFrom uri) ∧ (req.Bare (req.addressTo uri) ↔ req.Bare req.header) ∧
    (req.addressTo uri).disableSpecialHeader = req.header.disableSpecialHeader ∧ (req.addressTo uri).requestURI = uri.requestURI ∧
    (req.addressTo uri).methodValue = req.header.methodValue := by
  unfold addressTo
  rcases uri.authorization with _ | value
  · exact ⟨rfl, .rfl, rfl, rfl, rfl⟩
  · simp only [set_authorization]
    exact ⟨rfl, .rfl, rfl, rfl, rfl⟩

/-- Neither the header nor the URI has a host, and the request is not written. -/
def Unaddressed (req : OutRequest) (parseURI : Bytes → Bytes → URI) : Prop :=
  req.header.hostValue = [] ∧ req.header.host = [] ∧ (req.targetURI parseURI).host = []

/-- The host of the URI is empty, and those of the header are not, but they are not used. -/
def Hostless (req : OutRequest) : Prop :=
  req.parsedURI = true ∧ req.uri.host = [] ∧ req.header.host ≠ [] ∧ req.header.hostValue ≠ [] ∧ req.useHostHeader = false

theorem shown_write_iff (hh : req.header.disableSpecialHeader = true) (hs : req.bodyStream = none) (hf : req.multipartForm = none)
    (basic : Bytes → Bytes → Bytes) (isTLS : Bool) :
    req.shown.write (FullRequest.parseURI basic isTLS) = req.write (FullRequest.parseURI basic isTLS) ↔
      req.Unaddressed (FullRequest.parseURI basic isTLS) ∨ (req.Hostless ∧ req.Bare req.header) := by
  generalize hp : FullRequest.parseURI basic isTLS = p
  have hshown : req.shown.write p = (req.shown.address p).map req.sent := req.shown.write_completed hs hf p
  have hplain : req.write p = (req.address p).map req.sent := req.write_completed hs hf p
  have haddress (uri : URI) : req.sent (req.shown.addressTo uri) = req.sent (req.addressTo uri) ↔
      req.hostFrom uri = [] ∧ req.Bare req.header := by
    obtain ⟨hto, hbare, hflag, -⟩ := req.addressTo_shown uri
    rw [hto, req.sent_visible_iff (hflag.trans hh), hbare]
  rw [hshown, hplain]
  have hhost : req.shown.header.hostValue = req.header.host := rfl
  unfold address
  rw [hhost]
  cases hparsed : req.parsedURI with
  | true =>
    have htarget : req.targetURI p = req.uri := if_pos hparsed
    have htarget' : req.shown.targetURI p = req.uri := if_pos hparsed
    have hparsed' : req.shown.parsedURI = true := hparsed
    simp only [hparsed', htarget', htarget, Bool.or_true, if_true]
    by_cases hu : req.uri.host = []
    · by_cases hv : req.header.hostValue = [] <;> by_cases hH : req.header.host = []
      · simp [Unaddressed, hu, hv, hH, htarget]
      · simp [Unaddressed, Hostless, hu, hv, hH, htarget, Except.map]
      · simp [Unaddressed, Hostless, hu, hv, hH, htarget, Except.map]
      · simp [Unaddressed, Hostless, hu, hv, hH, htarget, Except.map, haddress, hostFrom, hparsed]
    · simp [Unaddressed, Hostless, hu, htarget, Except.map, haddress, hostFrom_ne_nil hu]
  | false =>
    have hparsed' : req.shown.parsedURI = false := hparsed
    have huri : req.shown.targetURI p = p req.header.host req.header.requestURIValue := if_neg (by simp [hparsed'])
    have huri' : req.targetURI p = p req.header.hostValue req.header.requestURIValue := if_neg (by simp [hparsed])
    have hnot : ¬ req.Hostless := fun hn => by simp [hn.1] at hparsed
    simp only [hparsed', Bool.or_false, decide_eq_true_eq, huri, huri', hnot, false_and, or_false]
    by_cases hv : req.header.hostValue = [] <;> by_cases hH : req.header.host = []
    · simp only [hv, hH]
      by_cases hu : (p [] req.header.requestURIValue).host = []
      · simp [Unaddressed, hu, hv, hH, huri']
      · simp [Unaddressed, hu, hv, hH, huri', Except.map, haddress, hostFrom_ne_nil hu]
    · obtain ⟨-, -, -, hto, hmethod⟩ := req.addressTo_shown (p [] req.header.requestURIValue)
      by_cases hu : (p [] req.header.requestURIValue).host = []
      · simp [Unaddressed, hu, hv, hH, Except.map]
      · subst hp
        have hne : req.sent req.shown.header ≠ req.sent (req.addressTo _) := (sent_apart (h := req.shown.header) hmethod hu hto).symm
        simp [Unaddressed, hu, hv, hH, Except.map, hne]
    · obtain ⟨-, -, -, hto, hmethod⟩ := req.shown.addressTo_shown (p [] req.header.requestURIValue)
      by_cases hu : (p [] req.header.requestURIValue).host = []
      · simp [Unaddressed, hu, hv, hH, Except.map]
      · subst hp
        have hne : req.sent (req.shown.addressTo _) ≠ req.sent req.header := sent_apart hmethod hu hto
        simp [Unaddressed, hu, hv, hH, Except.map, hne]
    · have hne : req.sent req.shown.header ≠ req.sent req.header := fun h => hH ((req.sent_visible_iff hh _).mp h).1
      simp [Unaddressed, hv, hH, Except.map, hne]

end OutRequest

namespace SoundRequest

variable {F : Type}

/-- The copy has the body of the request, is written as it, and has its settings. -/
def Faithful (req : SoundRequest F) (basic : Bytes → Bytes → Bytes) (copy : FullRequest F) : Prop :=
  copy.bodyBytes = req.bodyBytes ∧ copy.write basic = req.write basic ∧ copy.settings = req.settings

structure Copyable (req : SoundRequest F) (basic : Bytes → Bytes → Bytes) : Prop where
  body : ∀ raw ∈ req.bodyRaw, ∀ body ∈ req.body, body = raw
  header : req.header.disableSpecialHeader = false ∨ (req.out basic).Unaddressed (FullRequest.parseURI basic req.isTLS) ∨
    ((req.out basic).Hostless ∧ (req.out basic).Bare req.header)
  settings : ∀ info ∈ req.cliInfo, info = ⟨none, 0, 0, 0⟩

theorem faithful_iff (req : SoundRequest F) (dst : FullRequest F) (large : Bool) (basic : Bytes → Bytes → Bytes) :
    req.Faithful basic (req.copyTo dst large) ↔ req.Copyable basic := by
  rw [copyTo_eq]
  generalize hb : req.toBuffers.copyBody { dst.toBuffers.reset large with keepBodyBuffer := req.keepBodyBuffer } = b
  have hbody : b.bodyBytes = req.bodyBytes ↔ ∀ raw ∈ req.bodyRaw, ∀ body ∈ req.body, body = raw := by
    rw [← hb]
    exact req.toBuffers.copyBody_bodyBytes rfl
  have hsettings : (req.kept b).settings = req.settings ↔ ∀ info ∈ req.cliInfo, info = ⟨none, 0, 0, 0⟩ := by
    unfold FullRequest.settings kept
    rcases req.cliInfo with _ | info
    · simp
    · simp [eq_comm]
  have hwrite (hsame : b.bodyBytes = req.bodyBytes) :
      (req.kept b).write basic = (req.out basic).shown.write (FullRequest.parseURI basic req.isTLS) := by
    have hbytes : ((req.kept b).out basic).bodyBytes = (req.out basic).shown.bodyBytes :=
      b.getD_bodyRaw.trans (hsame.trans req.getD_bodyRaw.symm)
    rw [FullRequest.write, OutRequest.write_completed _ rfl rfl, OutRequest.write_completed _ rfl rfl]
    unfold OutRequest.completed
    rw [hbytes]
    rfl
  constructor
  · rintro ⟨hsame, hsent, hset⟩
    refine ⟨hbody.mp hsame, ?_, hsettings.mp hset⟩
    rw [hwrite hsame] at hsent
    by_cases hh : req.header.disableSpecialHeader = false
    · exact .inl hh
    · exact .inr ((OutRequest.shown_write_iff (Bool.of_not_eq_false hh) rfl rfl basic _).mp hsent)
  · rintro ⟨hraw, hheader, hset⟩
    have hsame := hbody.mpr hraw
    refine ⟨hsame, (hwrite hsame).trans ?_, hsettings.mpr hset⟩
    by_cases hh : req.header.disableSpecialHeader = false
    · have hself : (req.out basic).shown = req.out basic := by
        simp only [OutRequest.shown, OutHeader.visible, FullRequest.out, ← hh]
      rw [hself]
      rfl
    · exact (OutRequest.shown_write_iff (Bool.of_not_eq_false hh) rfl rfl basic _).mpr (hheader.resolve_left hh)

end SoundRequest

end Fasthttp
