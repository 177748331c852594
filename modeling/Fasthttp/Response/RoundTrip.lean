import Fasthttp.Header.Case
import Fasthttp.Header.Injection
import Fasthttp.Header.Wire
import Fasthttp.Body.Whole

/-!
# Responses written and read back

A response with a body of bytes, with any headers that are not handled on their own and any cookies, is read back from
the bytes that `Response.Write` writes (`OutResponse.response_round_trip`).
-/

namespace Fasthttp

open Bufio Scanner List

variable {k name : Bytes}

/-! ## Names that are not handled on their own -/

def specialNames : List Bytes :=
  [strContentType, strContentLength, strContentEncoding, strConnection, strServer, strSetCookie, strTransferEncoding,
    strTrailer, strDate]

structure PlainName (k : Bytes) : Prop extends Token k where
  plain : ∀ name ∈ specialNames, k.map toLowerTable ≠ name.map toLowerTable

theorem token_special : ∀ name ∈ specialNames, Token name := by
  have hnames : ∀ name ∈ specialNames, name ≠ [] ∧ ∀ c ∈ name, validHeaderFieldByte c = true := by decide +kernel
  exact fun name h => ⟨(hnames name h).1, (hnames name h).2⟩

theorem PlainName.initHeaderK (hk : PlainName k) (d : Bool) : PlainName (initHeaderK k d) where
  toToken := hk.toToken.initHeaderK d
  plain := by
    rw [initHeaderK_lower]
    exact hk.plain

theorem fold_case : ∀ c : Byte, validHeaderFieldByte c = true → isLower (c ||| 32) = true ∨ c ||| 32 = ch '-' →
    c ||| 32 = toLowerTable c :=
  forall_byte (by decide +kernel)

theorem PlainName.compare (hk : PlainName k) (hname : name ∈ specialNames) (d : Bool) :
    headNameCompare k name d = false := by
  have hletters : ∀ name ∈ specialNames, (∀ c ∈ name, isLower (c ||| 32) = true ∨ c ||| 32 = ch '-') ∧
      name.map (· ||| 32) = name.map toLowerTable := by decide +kernel
  rw [Bool.eq_false_iff]
  intro h
  unfold headNameCompare at h
  split at h
  · obtain ⟨hname', hfold⟩ := hletters name hname
    have heq : k.map (· ||| 32) = name.map (· ||| 32) := by simpa [caseInsensitiveCompare] using h
    apply hk.plain name hname
    rw [← hfold, ← heq]
    apply map_congr_left
    intro c hc
    obtain ⟨d, hd, hdc⟩ := mem_map.mp (heq ▸ mem_map_of_mem hc : (c ||| 32) ∈ name.map (· ||| 32))
    exact (fold_case c (hk.valid c hc) (hdc ▸ hname' d hd)).symm
  · obtain rfl : k = name := by simpa using h
    exact hk.plain k hname rfl

variable {kvs : List ArgsKV}

namespace ResponseHeader

variable {p : Prop} {v : Bytes}

theorem parseField_of_valid {k : Bytes} (hk : Token k) (hv : ∀ c ∈ v, validHeaderValueByte c = true) (g : ResponseHeader) :
    g.parseField k v = g.specialField k v := by
  have hall : k.all validHeaderFieldByte = true := all_eq_true.mpr hk.valid
  have hval : v.all validHeaderValueByte = true := all_eq_true.mpr hv
  simp [parseField, hk.ne_nil, hall, hval]

structure Carries (g : ResponseHeader) (d : Bool) (statusCode contentLength : Int) (list : List ArgsKV)
    (cookies : List Bytes) : Prop where
  disableNormalizing : g.disableNormalizing = d
  headMethod : g.headMethod = false
  statusCode : g.statusCode = statusCode
  contentLength : g.contentLength = contentLength
  list : g.h = list
  cookies : g.cookies.map ArgsKV.value = cookies

def scanned (d : Bool) (fs : List (Bytes × Bytes)) : List (Bytes × Bytes) := fs.map fun f => (initHeaderK f.1 d, f.2)

variable {g : ResponseHeader} {d : Bool} {statusCode contentLength : Int} {list : List ArgsKV} {cookies : List Bytes}

theorem Carries.own (hg : g.Carries d statusCode contentLength list cookies) [Decidable p] {name : Bytes}
    (hname : name = strServer ∨ name = strContentType ∨ name = strContentEncoding) (hv : Text v) :
    ∃ g', feed parseField g (scanned d (lineIf p name v)) = (g', none) ∧ g'.Carries d statusCode contentLength list cookies := by
  unfold lineIf
  split
  swap
  · exact ⟨g, rfl, hg⟩
  have hspecial : ∃ g', g.specialField (initHeaderK name d) v = (g', none) ∧ g'.Carries d statusCode contentLength list cookies := by
    have hd := hg.disableNormalizing
    rcases hname with rfl | rfl | rfl
    · refine ⟨{ g with server := v }, ?_, { hg with }⟩
      cases d <;> simp only [specialField, hd] <;> rfl
    · refine ⟨{ g with contentType := v }, ?_, { hg with }⟩
      cases d <;> simp only [specialField, hd] <;> rfl
    · refine ⟨{ g with contentEncoding := v }, ?_, { hg with }⟩
      cases d <;> simp only [specialField, hd] <;> rfl
  have htoken : Token (initHeaderK name d) := by
    apply Token.initHeaderK
    rcases hname with rfl | rfl | rfl <;> exact token_special _ (by decide +kernel)
  obtain ⟨g', hfield, hg'⟩ := hspecial
  refine ⟨g', ?_, hg'⟩
  simp only [scanned, map_cons, map_nil, feed, parseField_of_valid htoken hv.valid, hfield]

theorem Carries.date (hg : g.Carries d statusCode contentLength list cookies) [Decidable p] (hv : Text v) :
    ∃ g', feed parseField g (scanned d (lineIf p strDate v)) = (g', none) ∧
      g'.Carries d statusCode contentLength (list ++ (lineIf p strDate v).map fun f => ⟨f.1, f.2, false⟩) cookies := by
  unfold lineIf
  split
  swap
  · exact ⟨g, rfl, by simpa using hg⟩
  have hdate : initHeaderK strDate d = strDate := by cases d <;> decide
  have hfield : g.specialField strDate v = ({ g with h := appendArg g.h strDate v false }, none) := by
    cases d <;> rfl
  refine ⟨{ g with h := appendArg g.h strDate v false }, ?_, { hg with list := by simp [appendArg, hg.list] }⟩
  have htoken : Token strDate := token_special _ (by decide +kernel)
  simp [scanned, feed, hdate, parseField_of_valid htoken hv.valid, hfield]

theorem Carries.length (hg : g.Carries d statusCode (-2) list cookies) {n : Nat} (hn : n < 2 ^ 63) :
    ∃ g', feed parseField g (scanned d [(strContentLength, (Nat.toDigits 10 n).map ch)]) = (g', none) ∧
      g'.Carries d statusCode n list cookies := by
  have hkey : initHeaderK strContentLength d = strContentLength := by cases d <;> decide
  have hvalid : ∀ c ∈ (Nat.toDigits 10 n).map ch, validHeaderValueByte c = true := fun c hc => digit_valid c (isDigit_toDigits n c hc)
  have hspecial : g.specialField strContentLength ((Nat.toDigits 10 n).map ch)
      = g.setContentLength ((Nat.toDigits 10 n).map ch) := by
    have hd := hg.disableNormalizing
    cases d <;> simp only [specialField, hd] <;> rfl
  have hlen : g.setContentLength ((Nat.toDigits 10 n).map ch)
      = ({ g with contentLength := n, contentLengthBytes := (Nat.toDigits 10 n).map ch }, none) := by
    have hne : ¬ g.contentLength = -1 := by rw [hg.contentLength]; decide
    simp only [setContentLength, parseContentLength_toDigits hn]
    rw [if_neg hne]
    rfl
  have htoken : Token strContentLength := token_special _ (by decide +kernel)
  refine ⟨{ g with contentLength := n, contentLengthBytes := (Nat.toDigits 10 n).map ch }, ?_, { hg with contentLength := rfl }⟩
  simp [scanned, feed, hkey, parseField_of_valid htoken hvalid, hspecial, hlen]

structure Generic (d : Bool) (kv : ArgsKV) : Prop where
  name : PlainName kv.key
  normal : initHeaderK kv.key d = kv.key
  text : Text kv.value
  hasValue : kv.noValue = false

theorem Generic.field {kv : ArgsKV} (hkv : Generic d kv) (hd : g.disableNormalizing = d) :
    g.parseField kv.key kv.value = ({ g with h := g.h ++ [kv] }, none) := by
  have hne : ∀ name ∈ specialNames, headNameCompare kv.key name d = false := fun name h => hkv.name.compare h d
  have heq : (⟨kv.key, kv.value, false⟩ : ArgsKV) = kv := by rw [← hkv.hasValue]
  rw [parseField_of_valid hkv.name.toToken hkv.text.valid]
  simp only [specialNames, forall_mem_cons] at hne
  obtain ⟨hct, hcl, hce, hco, hse, hsc, hte, htr, -⟩ := hne
  simp [specialField, hd, hct, hcl, hce, hco, hse, hsc, hte, htr, appendArg, heq]

theorem Carries.generic (hg : g.Carries d statusCode contentLength list cookies) (hkvs : ∀ kv ∈ kvs, Generic d kv) :
    ∃ g', feed parseField g (scanned d (kvs.map fun kv => (kv.key, kv.value))) = (g', none) ∧
      g'.Carries d statusCode contentLength (list ++ kvs) cookies := by
  induction kvs generalizing g list with
  | nil => exact ⟨g, rfl, by simpa using hg⟩
  | cons kv kvs ih =>
    have hkv := hkvs kv (by simp)
    have hkept : Carries { g with h := g.h ++ [kv] } d statusCode contentLength (list ++ [kv]) cookies :=
      { hg with list := by simp [hg.list] }
    obtain ⟨g', hfeed, hg'⟩ := ih hkept fun kv' h => hkvs kv' (by simp [h])
    refine ⟨g', ?_, by simpa using hg'⟩
    simpa only [scanned, map_cons, feed, hkv.normal, hkv.field hg.disableNormalizing] using hfeed

theorem Carries.setCookies (hg : g.Carries d statusCode contentLength list cookies) {values : List Bytes} (hv : ∀ v ∈ values, Text v) :
    ∃ g', feed parseField g (scanned d (values.map fun v => (strSetCookie, v))) = (g', none) ∧
      g'.Carries d statusCode contentLength list (cookies ++ values) := by
  induction values generalizing g cookies with
  | nil => exact ⟨g, rfl, by simpa using hg⟩
  | cons v values ih =>
    have hkey : initHeaderK strSetCookie d = strSetCookie := by cases d <;> decide
    have hfield : g.parseField strSetCookie v = ({ g with cookies := appendArg g.cookies (getCookieKey v) v false }, none) := by
      rw [parseField_of_valid (token_special _ (by decide +kernel)) (hv v (by simp)).valid]
      have hd := hg.disableNormalizing
      cases d <;> simp only [specialField, hd] <;> rfl
    have hkept : Carries { g with cookies := appendArg g.cookies (getCookieKey v) v false }
        d statusCode contentLength list (cookies ++ [v]) :=
      { hg with cookies := by simp [appendArg, hg.cookies] }
    obtain ⟨g', hfeed, hg'⟩ := ih hkept fun v' h => hv v' (by simp [h])
    refine ⟨g', ?_, by simpa using hg'⟩
    simpa only [scanned, map_cons, feed, hkey, hfield] using hfeed

theorem Carries.close (hg : g.Carries d statusCode contentLength list cookies) [Decidable p] :
    ∃ g', feed parseField g (scanned d (lineIf p strConnection strClose)) = (g', none) ∧
      g'.Carries d statusCode contentLength list cookies := by
  unfold lineIf
  split
  swap
  · exact ⟨g, rfl, hg⟩
  have hkey : initHeaderK strConnection d = strConnection := by cases d <;> decide
  have hfield : g.parseField strConnection strClose = ({ g with connectionClose := true }, none) := by
    have hset : g.setConnection strConnection strClose = { g with connectionClose := true } := by simp [setConnection]
    rw [parseField_of_valid (token_special _ (by decide +kernel)) (by decide +kernel), ← hset]
    have hd := hg.disableNormalizing
    cases d <;> simp only [specialField, hd] <;> rfl
  refine ⟨{ g with connectionClose := true }, ?_, { hg with }⟩
  simp [scanned, feed, hkey, hfield]

theorem nextLine_crlf {l : Bytes} (hl : nChar ∉ l) (t : Bytes) : nextLine (l ++ strCRLF ++ t) = some (l, t) := by
  have hsplit : l ++ strCRLF ++ t = (l ++ [rChar]) ++ nChar :: t := by simp [strCRLF]
  have hn : nChar ∉ l ++ [rChar] := by
    simp [hl]
  unfold nextLine indexByte
  rw [hsplit, FirstIndex.idxOf?_append_cons _ _ _ hn, Option.map_some, take_left, drop_append]
  simp

theorem parseFirstLine_status {code : Nat} (hcode : code < 2 ^ 63) {msg : Bytes} (hmsg : nChar ∉ msg) (hne : msg ≠ [])
    (g : ResponseHeader)
    (t : Bytes) : g.parseFirstLine (strHTTP11 ++ [spChar] ++ (Nat.toDigits 10 code).map ch ++ [spChar] ++ msg ++ strCRLF ++ t)
      = ({ g with noHTTP11 := false, statusCode := code, statusMessage := msg },
        .ok (strHTTP11 ++ [spChar] ++ (Nat.toDigits 10 code).map ch ++ [spChar] ++ msg ++ strCRLF).length) := by
  generalize hds : (Nat.toDigits 10 code).map ch = ds
  have hline : strHTTP11 ++ [spChar] ++ ds ++ [spChar] ++ msg = strHTTP11 ++ spChar :: (ds ++ spChar :: msg) := by simp
  have hn : nChar ∉ strHTTP11 ++ [spChar] ++ ds ++ [spChar] ++ msg := by
    have h1 : nChar ∉ strHTTP11 ++ [spChar] := by decide
    have h2 : nChar ∉ ds := hds ▸ digits_no_lf code
    have h3 : nChar ≠ spChar := by decide
    simp only [mem_append, not_or, mem_singleton]
    exact ⟨⟨⟨by simpa using h1, h2⟩, h3⟩, hmsg⟩
  have hint : parseUintBuf (ds ++ spChar :: msg) = ((code : Int), ds.length, none) := by
    rw [← hds]
    exact parseUintBuf_toDigits hcode (by simp; decide)
  have hidx : indexByte (strHTTP11 ++ spChar :: (ds ++ spChar :: msg)) spChar = some strHTTP11.length := by
    rw [indexByte, FirstIndex.idxOf?_append_cons _ _ _ (by decide)]
  have hdrop : (strHTTP11 ++ spChar :: (ds ++ spChar :: msg)).drop (strHTTP11.length + 1) = ds ++ spChar :: msg := by
    simp
  have htake : (strHTTP11 ++ spChar :: (ds ++ spChar :: msg)).take strHTTP11.length = strHTTP11 := take_left' rfl
  have hget : (ds ++ spChar :: msg).getD ds.length 0 = spChar := by simp
  have hlong : 0 < msg.length := length_pos_iff.mpr hne
  have hmsg : (ds ++ spChar :: msg).drop (ds.length + 1) = msg := by
    simp
  unfold parseFirstLine
  rw [nextLine_crlf hn]
  simp only [hline, hidx, Option.getD_some, hdrop, hint]
  rw [if_neg (by decide), if_neg (by simp), if_neg (by simp), if_pos (by simp; omega)]
  simp only [length_append]
  congr 2
  omega

theorem parse_block {code : Nat} (hcode : code < 2 ^ 63) {msg : Bytes} (hmsg : nChar ∉ msg) (hne : msg ≠ [])
    {fs : List (Bytes × Bytes)}
    (hfs : ∀ f ∈ fs, Token f.1 ∧ Text f.2) {g g' : ResponseHeader} {t buf line : Bytes}
    (hline : line = strHTTP11 ++ [spChar] ++ (Nat.toDigits 10 code).map ch ++ [spChar] ++ msg ++ strCRLF)
    (hbuf : buf = line ++ (wireLines fs ++ (strCRLF ++ t)))
    (hfeed : feed parseField { g with noHTTP11 := false, statusCode := code, statusMessage := msg }.start
      (scanned g.disableNormalizing fs) = (g', none)) :
    ∃ mem k, g.parse buf = (g'.finish, mem, .ok k) ∧ mem.length = buf.length ∧ mem.drop k = t := by
  have hfirst := parseFirstLine_status hcode hmsg hne g (wireLines fs ++ (strCRLF ++ t))
  rw [← hline] at hfirst
  obtain ⟨s', hscan, hb, hpost⟩ := scanAll_wireLines hfs (s := Scanner.new (wireLines fs ++ (strCRLF ++ t)) g.disableNormalizing)
    (new_fresh _ _) rfl hfeed
  have hmem := scanAll_mem_length parseField (Scanner.new (wireLines fs ++ (strCRLF ++ t)) g.disableNormalizing)
    { g with noHTTP11 := false, statusCode := code, statusMessage := msg }.start
  have hlen : s'.pre.length + t.length = (wireLines fs ++ (strCRLF ++ t)).length := by
    rw [hscan] at hmem
    simpa [Scanner.mem, hb, hpost, Scanner.new] using hmem
  refine ⟨line ++ (s'.pre ++ t), line.length + s'.pre.length, ?_, by rw [hbuf]; simpa using hlen, ?_⟩
  · unfold ResponseHeader.parse
    rw [hbuf, hfirst]
    simp only [drop_left, take_left]
    have hheaders : parseHeaders { g with noHTTP11 := false, statusCode := code, statusMessage := msg }
        (wireLines fs ++ (strCRLF ++ t))
        = (g'.finish, s'.pre ++ t, .ok s'.pre.length) := by
      have hall : scanAll parseField (Scanner.new (wireLines fs ++ (strCRLF ++ t))
          { g with noHTTP11 := false, statusCode := code, statusMessage := msg }.disableNormalizing)
          { g with noHTTP11 := false, statusCode := code, statusMessage := msg }.start = (g', s', none) := hscan
      unfold parseHeaders
      rw [hall]
      simp only [Scanner.mem, hb, hpost, Scanner.new, append_nil]
      congr 3
      omega
    rw [hheaders]
    rfl
  · rw [← append_assoc, ← length_append, drop_left]

theorem read_of_parse {g g' : ResponseHeader} {r : Reader Byte Err} {mem : Bytes} {k : Nat} (hbuf : r.buf ≠ [])
    (hparse : g.resetSkipNormalize.parse r.buf = (g', mem, .ok k)) : g.read r = (none, g', (r.overwrite mem).discard k) := by
  have hpeek := r.peek_buffered (n := 1) (length_pos_iff.mpr hbuf)
  unfold read Retry.Loop.read
  rw [Retry.Loop.run_of_peek hpeek]
  simp [loop, hparse]

theorem Carries.finish (hg : g.Carries d statusCode contentLength list cookies) :
    g.finish.Carries d statusCode contentLength list cookies :=
  { hg with }

end ResponseHeader

/-! ## Responses as they are read -/

def Response.readLimit (header : ResponseHeader) (skipBody : Bool) (r : Reader Byte Err) (maxBodySize : Int) (cap : Nat) :
    Option Err × Bytes × Response × Reader Byte Err :=
  match header.readBehindContinue r with
  | (some e, header, r) => (some e, [], ⟨header, none⟩, r)
  | (none, header, r) =>
    if skipBody || header.mustSkipContentLength || header.headMethod then (none, [], ⟨header, none⟩, r)
    else readBody ⟨header, none⟩ r maxBodySize cap

def Response.read (header : ResponseHeader) (skipBody : Bool) (r : Reader Byte Err) (cap : Nat) :
    Option Err × Bytes × Response × Reader Byte Err := readLimit header skipBody r 0 cap

theorem Response.readBody_length {header : ResponseHeader} {r : Reader Byte Err} {body : Bytes}
    (hlen : header.contentLength = body.length)
    (hb : body <+: r.unread) (cap : Nat) :
    ∃ r', Response.readBody ⟨header, none⟩ r 0 cap = (none, body, ⟨header, none⟩, r') ∧ r'.unread = r.unread.drop body.length := by
  unfold Response.readBody
  simp only [hlen]
  rcases Nat.eq_zero_or_pos body.length with h0 | hpos
  · refine ⟨r, ?_, by simp [h0]⟩
    rw [if_pos (by omega), length_eq_zero_iff.mp h0]
  · obtain ⟨r', hread, hdrops, -⟩ := appendBodyFixedSize_enough r [] hb.length_le
    refine ⟨r', ?_, hdrops.unread⟩
    have hbody : r.unread.take body.length = body := (prefix_iff_eq_take.mp hb).symm
    have hfixed : Fasthttp.readBody r body.length 0 [] = (body, none, r') := by simpa [Fasthttp.readBody, hbody] using hread
    rw [if_neg (by omega), if_pos (by omega), hfixed, if_neg (by omega)]
    simp only
    rw [if_neg (by omega)]

/-! ## Responses as they are built -/

theorem Text.initHeaderV {v : Bytes} (hv : Text v) : initHeaderV v = v := by
  have hn : indexByte v nChar = none := List.idxOf?_eq_none_iff.mpr fun h => absurd (hv.valid _ h) (by decide)
  have hr : indexByte v rChar = none := List.idxOf?_eq_none_iff.mpr fun h => absurd (hv.valid _ h) (by decide)
  simp [Fasthttp.initHeaderV, hn, hr]

theorem initHeaderK_idem (k : Bytes) (d : Bool) : initHeaderK (initHeaderK k d) d = initHeaderK k d := by
  cases d
  · exact normalizeHeaderKeyV2_idem k
  · rfl

theorem PlainName.ne (hk : PlainName k) (h : name ∈ specialNames) : k ≠ name := by
  rintro rfl
  exact hk.plain k h rfl

variable {d : Bool}

namespace ResponseHeader

theorem setSpecialHeader_plain {k : Bytes} (hk : PlainName k) (h : ResponseHeader) (v : Bytes) (set : Bool) :
    h.setSpecialHeader k v set = none := by
  have hne : ∀ name ∈ specialNames, k ≠ name := fun name hname => hk.ne hname
  simp only [specialNames, forall_mem_cons] at hne
  obtain ⟨hct, hcl, hce, hco, hse, hsc, hte, htr, hda, -⟩ := hne
  simp [setSpecialHeader, hct, hcl, hce, hco, hse, hsc, hte, htr, hda]

theorem Generic.setArg (hkvs : ∀ kv ∈ kvs, Generic d kv) {k v : Bytes} (hk : PlainName k)
    (hn : initHeaderK k d = k) (hv : Text v) : ∀ kv ∈ setArg kvs k v false, Generic d kv := by
  induction kvs with
  | nil =>
    intro kv hkv
    obtain rfl := mem_singleton.mp hkv
    exact ⟨hk, hn, hv, rfl⟩
  | cons kv kvs ih =>
    rw [forall_mem_cons] at hkvs
    unfold Fasthttp.setArg
    split
    · rw [forall_mem_cons]
      exact ⟨⟨hkvs.1.name, hkvs.1.normal, hv, rfl⟩, hkvs.2⟩
    · rw [forall_mem_cons]
      exact ⟨hkvs.1, ih hkvs.2⟩

end ResponseHeader

namespace OutResponse

open ResponseHeader

variable {resp : OutResponse}

/-- Set and Add of plain names, the other texts of a response, its status and its body of bytes -/
def Op.Portable : Op → Prop
  | .set key value | .add key value => PlainName key ∧ Text value
  | .setCookie _ value | .setContentType value | .setContentEncoding value | .setServer value | .setStatusMessage value => Text value
  | .setStatusCode _ | .setBody _ | .appendBody _ | .setBodyRaw _ | .resetBody | .setNoDefaultContentType _ | .setNoDefaultDate _
    | .setConnectionClose => True
  | _ => False

structure Portable (d : Bool) (resp : OutResponse) : Prop where
  disableNormalizing : resp.header.disableNormalizing = d
  headMethod : resp.header.headMethod = false
  contentLength : resp.header.contentLength = 0
  protocol : resp.header.protocol = []
  trailer : resp.header.trailer = []
  statusMessage : Text resp.header.statusMessage
  contentType : Text resp.header.contentType
  contentEncoding : Text resp.header.contentEncoding
  server : Text resp.header.server
  list : ∀ kv ∈ resp.header.h, Generic d kv
  cookies : ∀ kv ∈ resp.header.cookies, Text kv.value
  skipBody : resp.skipBody = false
  chunkedW : resp.chunkedW = none
  compressPool : resp.compressPool = none
  bodyStream : resp.bodyStream = none

theorem setArg_text (hkvs : ∀ kv ∈ kvs, Text kv.value) (k : Bytes) {v : Bytes} (hv : Text v) :
    ∀ kv ∈ setArg kvs k v false, Text kv.value := by
  induction kvs with
  | nil =>
    intro kv hkv
    obtain rfl := mem_singleton.mp hkv
    exact hv
  | cons kv kvs ih =>
    rw [forall_mem_cons] at hkvs
    unfold setArg
    split
    · rw [forall_mem_cons]
      exact ⟨hv, hkvs.2⟩
    · rw [forall_mem_cons]
      exact ⟨hkvs.1, ih hkvs.2⟩

theorem Portable.apply (h : resp.Portable d) {op : Op} (hop : op.Portable) : (resp.apply op).Portable d := by
  have hd := h.disableNormalizing
  cases op with
  | set key value =>
    obtain ⟨hk, hv⟩ := hop
    have hset : resp.header.set key value = resp.header.setNonSpecial (initHeaderK key d) value := by
      simp [ResponseHeader.set, ResponseHeader.setCanonical, hd, hv.initHeaderV, setSpecialHeader_plain (hk.initHeaderK d)]
    simp only [OutResponse.apply, hset]
    exact { h with list := Generic.setArg h.list (hk.initHeaderK d) (initHeaderK_idem key d) hv }
  | add key value =>
    obtain ⟨hk, hv⟩ := hop
    have hadd : resp.header.add key value = { resp.header with h := appendArg resp.header.h (initHeaderK key d) value false } := by
      simp [ResponseHeader.add, ResponseHeader.addCanonical, hd, hv.initHeaderV, setSpecialHeader_plain (hk.initHeaderK d)]
    simp only [OutResponse.apply, hadd]
    refine { h with list := ?_ }
    intro kv hkv
    rcases mem_append.mp hkv with hkv | hkv
    · exact h.list kv hkv
    · obtain rfl := mem_singleton.mp hkv
      exact ⟨hk.initHeaderK d, initHeaderK_idem key d, hv, rfl⟩
  | setCookie key value => exact { h with cookies := setArg_text h.cookies key hop }
  | setContentType value => exact { h with contentType := hop }
  | setContentEncoding value => exact { h with contentEncoding := hop }
  | setServer value => exact { h with server := hop }
  | setStatusMessage value => exact { h with statusMessage := hop }
  | setStatusCode | setNoDefaultContentType | setNoDefaultDate | setConnectionClose => exact { h with }
  | setBody | appendBody | setBodyRaw | resetBody => exact { h with chunkedW := rfl, bodyStream := rfl }
  | setCanonical | addCanonical | del | setContentLength | setTrailer | addTrailer | setProtocol | resetConnectionClose |
      setCookieBytes
    | delCookie | setNormalizing | setBodyStream | setBodyStreamChunkedWriter | setCompressPool | skipBody | head => exact hop.elim

theorem new_portable (d : Bool) : (new.apply (.setNormalizing d)).Portable d := by
  have hnil : Text [] := ⟨by simp, by simp, by simp⟩
  exact ⟨rfl, rfl, rfl, rfl, rfl, hnil, hnil, hnil, hnil, by simp [new, OutResponse.apply, ResponseHeader.zero],
    by simp [new, OutResponse.apply, ResponseHeader.zero], rfl, rfl, rfl, rfl⟩

theorem Portable.exec (h : resp.Portable d) {ops : List Op} (hops : ∀ op ∈ ops, op.Portable) :
    (machine.exec resp ops).Portable d := by
  induction ops generalizing resp with
  | nil => exact h
  | cons op ops ih =>
    rw [forall_mem_cons] at hops
    exact ih (h.apply hops.1) hops.2

theorem text_digits (n : Nat) : Text ((Nat.toDigits 10 n).map ch) := by
  have hdigit : ∀ c : Byte, isDigit c = true → isBlank c = false := forall_byte (by decide +kernel)
  refine ⟨fun c hc => digit_valid c (isDigit_toDigits n c hc), fun c hc => ?_, fun c hc => ?_⟩
  · exact hdigit c (isDigit_toDigits n c (mem_of_mem_head? hc))
  · exact hdigit c (isDigit_toDigits n c (mem_of_mem_getLast? hc))

theorem text_date (t : UTCTime) : Text (appendHTTPDate t) := by
  have hday : ∀ day : Fin 7, ∃ c b, weekdayName day = c :: b ∧ isBlank c = false := by
    intro day
    refine ⟨(weekdayName day).headD 0, (weekdayName day).tail, ?_, ?_⟩ <;> revert day <;> decide +kernel
  refine ⟨appendHTTPDate_valid t, ?_, ?_⟩
  · obtain ⟨c, b, hb, hc⟩ := hday t.weekday
    intro c' hc'
    obtain rfl : c = c' := by simpa [appendHTTPDate, hb] using hc'
    exact hc
  · have hlast : ∀ b : Bytes, (b ++ ascii " GMT").getLast? = some (ch 'T') := by
      intro b
      have hsplit : ascii " GMT" = ascii " GM" ++ [ch 'T'] := by decide
      rw [hsplit, ← append_assoc, getLast?_concat]
    intro c hc
    rw [appendHTTPDate, hlast] at hc
    cases hc
    decide

theorem text_contentTypeValue {g : ResponseHeader} (h : Text g.contentType) : Text g.contentTypeValue := by
  unfold contentTypeValue
  split
  · exact ⟨by decide +kernel, by decide +kernel, by decide +kernel⟩
  · exact h

theorem Portable.fields (h : resp.Portable d) (hbody : resp.header.mustSkipContentLength = false) (date : Bytes)
    (n : Nat) {g : ResponseHeader} (hg : g = { resp.header with contentLength := (n : Int) }) :
    g.plainFields date false ++ lineIf (g.appended.connectionClose = true) strConnection strClose
      = lineIf (g.server ≠ []) strServer g.server ++ (lineIf (g.noDefaultDate = false) strDate date ++
        (lineIf (g.contentTypeValue ≠ [] ∧ (g.contentType ≠ [] ∨ g.contentLength ≠ 0)) strContentType g.contentTypeValue ++
        (lineIf (g.contentEncoding ≠ []) strContentEncoding g.contentEncoding ++
        ([(strContentLength, (Nat.toDigits 10 n).map ch)] ++ (g.h.map (fun kv => (kv.key, kv.value)) ++
        ((g.cookies.map ArgsKV.value).map (fun v => (strSetCookie, v)) ++
          lineIf (g.appended.connectionClose = true) strConnection strClose)))))) := by
  have hskip : g.mustSkipContentLength = false := hg ▸ hbody
  have hsent : g.sentTrailer = [] := by
    unfold sentTrailer
    split
    · exact hg ▸ h.trailer
    · rfl
  have hgeneric : g.genericLines = g.h.map fun kv => (kv.key, kv.value) := by
    have hlist : ∀ kv ∈ g.h, Generic d kv := hg ▸ h.list
    have hdel : delAllArgs g.h strTransferEncoding = g.h := by
      unfold delAllArgs
      rw [filter_eq_self]
      intro kv hkv
      simpa using ((hlist kv hkv).name.ne (by decide +kernel)).symm
    unfold genericLines
    rw [hsent, hdel]
    simp
  have hlength : lineIf (0 < g.contentLength ∧ false = false) strContentLength ((Nat.toDigits 10 g.contentLength.toNat).map ch) ++
      (lineIf (g.contentLength = 0 ∧ g.headMethod = false) strContentLength (ascii "0") ++
        lineIf (g.contentLength = -1 ∧ g.headMethod = false) strTransferEncoding strChunked)
      = [(strContentLength, (Nat.toDigits 10 n).map ch)] := by
    have hhead : g.headMethod = false := hg ▸ h.headMethod
    have hcl : g.contentLength = n := by rw [hg]
    rcases Nat.eq_zero_or_pos n with rfl | hpos
    · have hzero : ascii "0" = [ch '0'] := by decide
      simp [lineIf, hcl, hhead, hzero]
    · have hne : n ≠ 0 := by omega
      simp [lineIf, hcl, hne]
  have hcontent : g.contentLines false
      = lineIf (g.contentTypeValue ≠ [] ∧ (g.contentType ≠ [] ∨ g.contentLength ≠ 0)) strContentType g.contentTypeValue ++
        (lineIf (g.contentEncoding ≠ []) strContentEncoding g.contentEncoding ++
          [(strContentLength, (Nat.toDigits 10 n).map ch)]) := by
    rw [← hlength]
    simp [contentLines]
  have htrailer : lineIf (g.sentTrailer ≠ []) strTrailer (strCommaSpace.intercalate (g.sentTrailer.map ArgsKV.key)) = [] := by
    simp [lineIf, hsent]
  simp only [plainFields, hskip, hgeneric, htrailer, hcontent, append_assoc, map_map,
    Bool.false_eq_true, if_false]
  rfl

theorem feed_trans {σ : Type} {body : σ → Bytes → Bytes → σ × Option Err} {h h₁ h₂ : σ} {fs gs : List (Bytes × Bytes)}
    (hfs : feed body h fs = (h₁, none)) (hgs : feed body h₁ gs = (h₂, none)) : feed body h (fs ++ gs) = (h₂, none) :=
  (feed_append hfs gs).trans hgs

theorem Portable.feed (h : resp.Portable d) (hbody : resp.header.mustSkipContentLength = false) (now : UTCTime)
    {n : Nat} (hn : n < 2 ^ 63) {g₀ : ResponseHeader} {statusCode : Int} (hg₀ : g₀.Carries d statusCode (-2) [] []) :
    let g := { resp.header with contentLength := (n : Int) }
    ∃ g', feed parseField g₀ (scanned d (g.plainFields (appendHTTPDate now) false ++
        lineIf (g.appended.connectionClose = true) strConnection strClose)) = (g', none) ∧
      g'.Carries d statusCode n ((lineIf (g.noDefaultDate = false) strDate (appendHTTPDate now)).map (fun f => ⟨f.1, f.2, false⟩) ++
        resp.header.h) (resp.header.cookies.map ArgsKV.value) := by
  intro g
  have htype : Text g.contentTypeValue := text_contentTypeValue h.contentType
  have hcookies : ∀ v ∈ g.cookies.map ArgsKV.value, Text v := by
    intro v hv
    obtain ⟨kv, hkv, rfl⟩ := mem_map.mp hv
    exact h.cookies kv hkv
  obtain ⟨g₁, hf₁, hg₁⟩ := hg₀.own (p := g.server ≠ []) (.inl rfl) h.server
  obtain ⟨g₂, hf₂, hg₂⟩ := hg₁.date (p := g.noDefaultDate = false) (text_date now)
  obtain ⟨g₃, hf₃, hg₃⟩ := hg₂.own (p := g.contentTypeValue ≠ [] ∧ (g.contentType ≠ [] ∨ g.contentLength ≠ 0)) (.inr (.inl rfl)) htype
  obtain ⟨g₄, hf₄, hg₄⟩ := hg₃.own (p := g.contentEncoding ≠ []) (.inr (.inr rfl)) h.contentEncoding
  obtain ⟨g₅, hf₅, hg₅⟩ := hg₄.length hn
  obtain ⟨g₆, hf₆, hg₆⟩ := hg₅.generic h.list
  obtain ⟨g₇, hf₇, hg₇⟩ := hg₆.setCookies hcookies
  obtain ⟨g₈, hf₈, hg₈⟩ := hg₇.close (p := g.appended.connectionClose = true)
  refine ⟨g₈, ?_, by simpa using hg₈⟩
  rw [h.fields hbody _ n rfl]
  simp only [scanned, map_append]
  exact feed_trans hf₁ (feed_trans hf₂ (feed_trans hf₃ (feed_trans hf₄ (feed_trans hf₅ (feed_trans hf₆ (feed_trans hf₇ hf₈))))))

theorem Portable.whole (h : resp.Portable d) (hbody : resp.header.mustSkipContentLength = false) (now : UTCTime)
    (n : Nat) : let g := { resp.header with contentLength := (n : Int) }
    ∀ f ∈ g.plainFields (appendHTTPDate now) false ++ lineIf (g.appended.connectionClose = true) strConnection strClose,
      Token f.1 ∧ Text f.2 := by
  intro g f hf
  rw [h.fields hbody _ n rfl] at hf
  have hline : ∀ {p : Prop} [Decidable p] {name v : Bytes}, name ∈ specialNames → Text v → f ∈ lineIf p name v → Token f.1 ∧
      Text f.2 := by
    intro p _ name v hname hv hf
    unfold lineIf at hf
    split at hf
    · obtain rfl := mem_singleton.mp hf
      exact ⟨token_special name hname, hv⟩
    · simp at hf
  have htype : Text g.contentTypeValue := text_contentTypeValue h.contentType
  simp only [mem_append] at hf
  rcases hf with hf | hf | hf | hf | hf | hf | hf | hf
  · exact hline (by decide +kernel) h.server hf
  · exact hline (by decide +kernel) (text_date now) hf
  · exact hline (by decide +kernel) htype hf
  · exact hline (by decide +kernel) h.contentEncoding hf
  · obtain rfl := mem_singleton.mp hf
    exact ⟨token_special strContentLength (by decide +kernel), text_digits n⟩
  · obtain ⟨kv, hkv, rfl⟩ := mem_map.mp hf
    exact ⟨(h.list kv hkv).name.toToken, (h.list kv hkv).text⟩
  · obtain ⟨v, hv, rfl⟩ := mem_map.mp hf
    obtain ⟨kv, hkv, rfl⟩ := mem_map.mp hv
    exact ⟨token_special strSetCookie (by decide +kernel), h.cookies kv hkv⟩
  · exact hline (by decide +kernel) ⟨by decide +kernel, by decide +kernel, by decide +kernel⟩ hf

theorem statusMessage_ne_nil (code : Int) : statusMessage code ≠ [] := by
  have htable : ∀ m ∈ statusMessages, ascii m.2 ≠ [] := by decide +kernel
  unfold statusMessage
  split
  · exact htable _ (mem_of_find?_eq_some ‹_›)
  · decide

theorem Portable.write_eq (h : resp.Portable d) (hbody : resp.header.mustSkipContentLength = false) (date : Bytes) :
    let g := { resp.header with contentLength := (resp.bodyBytes.length : Int) }
    (resp.write date).body = .ok resp.bodyBytes ∧
      (resp.write date).block = g.statusLine ++
        (wireLines (g.plainFields date false ++ lineIf (g.appended.connectionClose = true) strConnection strClose) ++ strCRLF) := by
  intro g
  have hskip : resp.mustSkipBody = false := by simp [mustSkipBody, h.skipBody, hbody]
  have hheader : resp.bytesHeader = g := by
    unfold bytesHeader
    rw [if_pos ⟨.inl hskip, by rw [h.contentLength]; decide⟩]
  have hwrite : resp.write date = ⟨g.appendBytes date false, .ok resp.bodyBytes⟩ := by
    simp [OutResponse.write, h.chunkedW, h.compressPool, h.bodyStream, hheader, hskip]
  rw [hwrite]
  exact ⟨rfl, by simp [appendBytes, wireLines]⟩

theorem Portable.statusLine (h : resp.Portable d) {code : Nat} (hcode : resp.header.statusCode = code)
    (hpos : 0 < code) : ∃ msg, nChar ∉ msg ∧ msg ≠ [] ∧
      ({ resp.header with contentLength := (resp.bodyBytes.length : Int) } : ResponseHeader).statusLine
      = strHTTP11 ++ [spChar] ++ (Nat.toDigits 10 code).map ch ++ [spChar] ++ msg ++ strCRLF := by
  have hnot : ¬ (code : Int) ≤ 0 := by omega
  refine ⟨if resp.header.statusMessage = [] then Fasthttp.statusMessage code else resp.header.statusMessage, ?_, ?_, ?_⟩
  · exact no_lf_default (fun hm => absurd (h.statusMessage.valid _ hm) (by decide)) (statusMessage_no_lf _)
  · split
    · exact statusMessage_ne_nil code
    · assumption
  · simp only [ResponseHeader.statusLine, formatStatusLine, protocolValue, h.protocol, hnot, if_false, hcode,
      Int.toNat_natCast, if_true]

/-- A response with a final status that allows a body, and with a body of bytes, is read back from the
bytes that are written for it: its status, its body, its headers, its cookies, and no byte more. -/
theorem response_round_trip (d : Bool) {ops : List Op} (hops : ∀ op ∈ ops, op.Portable) (now : UTCTime) {resp : OutResponse}
    (hresp : resp = built (.setNormalizing d :: ops)) (hfinal : 200 ≤ resp.header.statusCode) (hint : resp.header.statusCode < 2 ^ 63)
    (hallowed : resp.header.mustSkipContentLength = false) (hlen : resp.bodyBytes.length < 2 ^ 63) {r : Reader Byte Err} {rest : Bytes}
    (hbuf : r.buf = (resp.write (appendHTTPDate now)).block ++ (resp.bodyBytes ++ rest)) {header : ResponseHeader}
    (hnorm : header.disableNormalizing = d) (hhead : header.headMethod = false) (cap : Nat) :
    (resp.write (appendHTTPDate now)).body = .ok resp.bodyBytes ∧
    ∃ header' r', Response.read header false r cap = (none, resp.bodyBytes, ⟨header', none⟩, r') ∧
      header'.statusCode = resp.header.statusCode ∧
      (header'.h.filter fun kv => kv.key ≠ strDate) = resp.header.h ∧
      header'.cookies.map ArgsKV.value = resp.header.cookies.map ArgsKV.value ∧
      r'.unread = rest ++ r.src.items := by
  have h : resp.Portable d := hresp ▸ (new_portable d).exec hops
  obtain ⟨code, hcode⟩ : ∃ code : Nat, resp.header.statusCode = code := ⟨resp.header.statusCode.toNat, by omega⟩
  obtain ⟨msg, hmsg, hne, hline⟩ := h.statusLine hcode (by omega)
  obtain ⟨hbody, hblock⟩ := h.write_eq hallowed (appendHTTPDate now)
  have hstart : ({ header.resetSkipNormalize with
      noHTTP11 := false, statusCode := (code : Int), statusMessage := msg } : ResponseHeader).start.Carries
      d code (-2) [] [] := ⟨hnorm, hhead, rfl, by simp [ResponseHeader.start, resetSkipNormalize, hhead], rfl, rfl⟩
  obtain ⟨g, hfeed, hg⟩ := h.feed hallowed now hlen hstart
  rw [← hnorm] at hfeed
  rw [hblock, append_assoc, append_assoc] at hbuf
  obtain ⟨mem, k, hparse, hmem, hdrop⟩ := parse_block (by omega) hmsg hne (h.whole hallowed now _)
    (g := header.resetSkipNormalize) hline hbuf hfeed
  have hread : header.read r = (none, g.finish, (r.overwrite mem).discard k) := read_of_parse (by rw [hbuf, hline]; simp) hparse
  have hg' := hg.finish
  have hunread : ((r.overwrite mem).discard k).unread = resp.bodyBytes ++ (rest ++ r.src.items) := by
    simp [Reader.unread, r.overwrite_buf hmem, hdrop]
  obtain ⟨r', hreadBody, hr'⟩ := Response.readBody_length hg'.contentLength (hunread ▸ prefix_append _ _) cap
  refine ⟨hbody, g.finish, r', ?_, by rw [hg'.statusCode, hcode], ?_, hg'.cookies, ?_⟩
  · have hskip : g.finish.mustSkipContentLength = false := by
      rw [← hallowed]
      simp [mustSkipContentLength, hg'.statusCode, hcode]
    have h100 : g.finish.statusCode ≠ 100 := by
      rw [hg'.statusCode]
      omega
    have hbehind : header.readBehindContinue r = (none, g.finish, (r.overwrite mem).discard k) := by
      simp [readBehindContinue, hread, h100]
    simp [Response.read, Response.readLimit, hbehind, hskip, hg'.headMethod, hreadBody]
  · have hdate : ∀ kv ∈ resp.header.h, kv.key ≠ strDate := fun kv hkv => (h.list kv hkv).name.ne (by decide +kernel)
    have hnone : ((lineIf (resp.header.noDefaultDate = false) strDate (appendHTTPDate now)).map fun f =>
        (⟨f.1, f.2, false⟩ : ArgsKV)).filter
        (fun kv => kv.key ≠ strDate) = [] := by
      unfold lineIf
      split <;> simp
    rw [hg'.list, filter_append, hnone, nil_append, filter_eq_self]
    intro kv hkv
    simpa using hdate kv hkv
  · rw [hr', hunread, drop_left]

def answerOps : List Op :=
  [.setStatusCode 404, .set (ascii "x-a") (ascii "1"), .add (ascii "X-A") [], .setCookie (ascii "k") (ascii "k=v"),
    .setBody (ascii "hi")]

def answer : OutResponse := built (.setNormalizing false :: answerOps)

def answerTime : UTCTime := ⟨0, 15, 10, 2026, 9, 5, 7⟩

def answerReader : Reader Byte Err where
  size := 4096
  buf := (answer.write (appendHTTPDate answerTime)).block ++ (answer.bodyBytes ++ ascii "HTTP")
  err := none
  src := ⟨[], .eof, by simp⟩
  least := Bufio.Reader.default_size
  fits := by decide +kernel
  ended := by simp

theorem response_round_trip_answer :
    ∃ header' r', Response.read ResponseHeader.zero false answerReader 0 = (none, ascii "hi", ⟨header', none⟩, r') ∧
      header'.statusCode = 404 ∧
      (header'.h.filter fun kv => kv.key ≠ strDate) = [⟨ascii "X-A", ascii "1", false⟩, ⟨ascii "X-A", [], false⟩] ∧
      header'.cookies.map ArgsKV.value = [ascii "k=v"] ∧ r'.unread = ascii "HTTP" := by
  have hname : PlainName (ascii "x-a") ∧ PlainName (ascii "X-A") :=
    ⟨⟨⟨by decide, by decide +kernel⟩, by decide +kernel⟩, ⟨⟨by decide, by decide +kernel⟩, by decide +kernel⟩⟩
  have hops : ∀ op ∈ answerOps, op.Portable := by
    simp only [answerOps, forall_mem_cons]
    exact ⟨trivial, ⟨hname.1, by decide +kernel, by decide +kernel, by decide +kernel⟩,
      ⟨hname.2, by decide +kernel, by decide +kernel, by decide +kernel⟩, ⟨by decide +kernel, by decide +kernel, by decide +kernel⟩,
      trivial, by simp⟩
  obtain ⟨-, header', r', hread, hcode, hlist, hcookies, hrest⟩ := response_round_trip false hops answerTime
    (rfl : answer = built (.setNormalizing false :: answerOps)) (by decide +kernel) (by decide +kernel) (by decide +kernel)
    (by decide +kernel)
    (rfl : answerReader.buf = (answer.write (appendHTTPDate answerTime)).block ++ (answer.bodyBytes ++ ascii "HTTP"))
    (rfl : ResponseHeader.zero.disableNormalizing = false) rfl 0
  exact ⟨header', r', hread, hcode, hlist, hcookies, hrest⟩

end OutResponse

end Fasthttp
