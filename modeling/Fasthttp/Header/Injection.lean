import Fasthttp.Request.Lines
import Fasthttp.Response.Build

/-!
# Values that stay in their line

A header is built by `Set` and `Add` alone, with names that hold no line break and with any values.
-/

namespace Fasthttp

open List

variable {b value : Bytes} {kvs : List ArgsKV}

/-- The block is made of these lines and its end, and none of them is empty or holds a line feed. -/
structure LineByLine (lines : List Bytes) (blockEnd block : Bytes) : Prop where
  block_eq : block = lines.flatMap (· ++ strCRLF) ++ blockEnd
  whole : ∀ l ∈ lines, l ≠ [] ∧ nChar ∉ l

def headerLine (f : Bytes × Bytes) : Bytes := f.1 ++ strColonSpace ++ f.2

theorem headerLine_whole {f : Bytes × Bytes} (hf : nChar ∉ f.1 ∧ nChar ∉ f.2) : headerLine f ≠ [] ∧ nChar ∉ headerLine f := by
  have hcolon : strColonSpace = [colonChar, spChar] := by decide
  have hn : nChar ≠ colonChar ∧ nChar ≠ spChar := by decide
  simp [headerLine, hcolon, hf.1, hf.2, hn.2]

theorem appendHeaderLine_eq (f : Bytes × Bytes) : appendHeaderLine f.1 f.2 = headerLine f ++ strCRLF := rfl

theorem blankBreaks_no_lf {start : Nat} {raw : Bytes} (h : nChar ∉ raw.take start) : nChar ∉ blankBreaks start raw := by
  unfold blankBreaks
  rw [mem_append, mem_map]
  rintro (hmem | ⟨c, -, hc⟩)
  · exact h hmem
  · split at hc
    · exact absurd hc (by decide)
    · rename_i hne
      simp [hc] at hne

theorem not_mem_take_of_indexByte {c : Byte} {n m : Nat} (h : indexByte b c = some n) (hm : m ≤ n) : c ∉ b.take m :=
  fun hc => FirstIndex.take_of_idxOf? h ((take_prefix_take_left hm).subset hc)

theorem initHeaderV_no_lf (raw : Bytes) : nChar ∉ initHeaderV raw := by
  unfold initHeaderV
  split
  · rename_i foundN foundR hn hr
    refine blankBreaks_no_lf (not_mem_take_of_indexByte hn ?_)
    split <;> omega
  · exact blankBreaks_no_lf (by simp)
  · rename_i hn _
    exact blankBreaks_no_lf fun h => absurd (mem_of_mem_take h) (List.idxOf?_eq_none_iff.mp hn)
  · rename_i hn _
    exact List.idxOf?_eq_none_iff.mp hn

theorem initHeaderK_no_lf {key : Bytes} (h : nChar ∉ key) (d : Bool) : nChar ∉ initHeaderK key d := by
  unfold initHeaderK
  split
  · exact h
  · rwa [mem_normalizeHeaderKeyV2 caseless_lf]

theorem stripSpace_subset (b : Bytes) : stripSpace b ⊆ b := by
  intro c hc
  unfold stripSpace at hc
  rw [mem_reverse] at hc
  have hrev := (dropWhile_sublist _).subset hc
  rw [mem_reverse] at hrev
  exact (dropWhile_sublist _).subset hrev

theorem commaList_subset {fuel : Nat} {v : Bytes} (hv : v ∈ commaList fuel b) : v ⊆ b := by
  induction fuel generalizing b with
  | zero => simp [commaList] at hv
  | succ fuel ih =>
    unfold commaList at hv
    split at hv
    · simp at hv
    · split at hv
      · obtain rfl := mem_singleton.mp hv
        exact stripSpace_subset b
      · rcases mem_cons.mp hv with rfl | hv
        · exact List.Subset.trans (stripSpace_subset _) (take_subset _ _)
        · exact List.Subset.trans (ih hv) (drop_subset _ _)

def OneLined (kvs : List ArgsKV) : Prop := ∀ kv ∈ kvs, nChar ∉ kv.key ∧ nChar ∉ kv.value

theorem OneLined.appendArg (h : OneLined kvs) {key : Bytes} (hk : nChar ∉ key) (hv : nChar ∉ value)
    (noValue : Bool) : OneLined (appendArg kvs key value noValue) := by
  refine forall_mem_append.mpr ⟨h, ?_⟩
  cases noValue <;> simp [hk, hv]

theorem OneLined.setArg (h : OneLined kvs) {key : Bytes} (hk : nChar ∉ key) (hv : nChar ∉ value) :
    OneLined (setArg kvs key value false) := forall_setArg h ⟨hk, hv⟩

theorem OneLined.filter (h : OneLined kvs) (p : ArgsKV → Bool) : OneLined (kvs.filter p) :=
  fun kv hkv => h kv (mem_of_mem_filter hkv)

def FieldsWhole (fs : List (Bytes × Bytes)) : Prop := ∀ f ∈ fs, nChar ∉ f.1 ∧ nChar ∉ f.2

theorem FieldsWhole.append {fs gs : List (Bytes × Bytes)} (hf : FieldsWhole fs) (hg : FieldsWhole gs) : FieldsWhole (fs ++ gs) :=
  forall_mem_append.mpr ⟨hf, hg⟩

theorem forall_lineIf {P : Bytes × Bytes → Prop} {p : Prop} [Decidable p] {key : Bytes} (h : p → P (key, value)) :
    ∀ f ∈ lineIf p key value, P f := by
  unfold lineIf
  split
  · exact forall_mem_singleton.mpr (h ‹_›)
  · simp

theorem fieldsWhole_lineIf {p : Prop} [Decidable p] {key : Bytes} (h : p → nChar ∉ key ∧ nChar ∉ value) :
    FieldsWhole (lineIf p key value) := forall_lineIf h

theorem OneLined.fieldsWhole (h : OneLined kvs) : FieldsWhole (kvs.map fun kv => (kv.key, kv.value)) := forall_mem_map.mpr h

theorem intercalate_no_lf {sep : Bytes} {bs : List Bytes} (hs : nChar ∉ sep) (h : ∀ b ∈ bs, nChar ∉ b) :
    nChar ∉ sep.intercalate bs := by
  match bs with
  | [] => simp
  | [b] => simpa using h b
  | b :: c :: bs =>
    have hrest : nChar ∉ sep.intercalate (c :: bs) := intercalate_no_lf hs fun b' hb' => h b' (by simp [hb'])
    simp [h b (by simp), hs, hrest]

theorem keys_no_lf (h : OneLined kvs) : nChar ∉ strCommaSpace.intercalate (kvs.map ArgsKV.key) := by
  refine intercalate_no_lf (by decide) ?_
  intro b hb
  obtain ⟨kv, hkv, rfl⟩ := mem_map.mp hb
  exact (h kv hkv).1

theorem cookieBytes_no_lf (h : OneLined kvs) : nChar ∉ appendRequestCookieBytes kvs := by
  refine intercalate_no_lf (by decide) ?_
  intro b hb
  obtain ⟨kv, hkv, rfl⟩ := mem_map.mp hb
  obtain ⟨hk, hv⟩ := h kv hkv
  have heq : nChar ≠ ch '=' := by decide
  split <;> simp [hk, hv, heq]

theorem digits_no_lf (n : Nat) : nChar ∉ (Nat.toDigits 10 n).map ch := fun h => absurd (isDigit_toDigits n _ h) (by decide)

theorem statusMessage_no_lf (statusCode : Int) : nChar ∉ statusMessage statusCode := by
  have htable : ∀ m ∈ statusMessages, nChar ∉ ascii m.2 := by decide +kernel
  unfold statusMessage
  split
  · exact htable _ (mem_of_find?_eq_some ‹_›)
  · decide

theorem no_lf_default {d : Bytes} (hb : nChar ∉ b) (hd : nChar ∉ d) : nChar ∉ if b = [] then d else b := by
  split
  · exact hd
  · exact hb

theorem digit_valid : ∀ c : Byte, isDigit c = true → validHeaderValueByte c = true := forall_byte (by decide +kernel)

theorem padded_digits (width n : Nat) : ∀ c ∈ padded width n, isDigit c = true := by
  refine forall_mem_append.mpr ⟨fun c hc => ?_, isDigit_toDigits n⟩
  rw [eq_of_mem_replicate hc]
  decide

theorem appendHTTPDate_valid (t : UTCTime) : ∀ c ∈ appendHTTPDate t, validHeaderValueByte c = true := by
  have hday : ∀ d : Fin 7, ∀ c ∈ weekdayName d, validHeaderValueByte c = true := by decide +kernel
  have hmonth : ∀ m : Fin 12, ∀ c ∈ monthName m, validHeaderValueByte c = true := by decide +kernel
  have hpadded : ∀ width n, ∀ c ∈ padded width n, validHeaderValueByte c = true :=
    fun width n c hc => digit_valid c (padded_digits width n c hc)
  have hends : (∀ c ∈ ascii ", ", validHeaderValueByte c = true) ∧
      ∀ c ∈ ascii " GMT", validHeaderValueByte c = true := by decide +kernel
  have hsep : validHeaderValueByte spChar = true ∧ validHeaderValueByte (ch ':') = true := by decide +kernel
  simp only [appendHTTPDate, forall_mem_append, forall_mem_singleton, hsep, and_true]
  exact ⟨⟨⟨⟨⟨⟨⟨⟨hday _, hends.1⟩, hpadded _ _⟩, hmonth _⟩, hpadded _ _⟩, hpadded _ _⟩, hpadded _ _⟩, hpadded _ _⟩, hends.2⟩

theorem appendHTTPDate_no_lf (t : UTCTime) : nChar ∉ appendHTTPDate t := fun h => absurd (appendHTTPDate_valid t _ h) (by decide)

theorem addTrailer_oneLined {names : Bytes} (hn : nChar ∉ names) (d : Bool) :
    OneLined (addRequestTrailer d [] names).1 ∧ OneLined (addResponseTrailer d [] names).1 := by
  constructor
  all_goals
    refine foldlRecOn (motive := fun t : List ArgsKV × Option Err => OneLined t.1) _ _ (by simp [OneLined]) fun t ht key hkey => ?_
    simp only
    split
    · exact ht
    · exact ht.appendArg (initHeaderK_no_lf (fun hc => hn (commaList_subset hkey hc)) d) (by simp) true

theorem decodeCookieArg_subset (src : Bytes) (skipQuotes : Bool) : decodeCookieArg src skipQuotes ⊆ src := by
  unfold decodeCookieArg
  simp only
  split
  · exact List.Subset.trans (List.Subset.trans (dropLast_subset _) (drop_subset _ _)) (stripSpace_subset src)
  · exact stripSpace_subset src

theorem cookieArg_subset (b : Bytes) : (cookieArg b).key ⊆ b ∧ (cookieArg b).value ⊆ b := by
  unfold cookieArg
  split
  · exact ⟨by simp, decodeCookieArg_subset b true⟩
  · rename_i n _
    exact ⟨List.Subset.trans (decodeCookieArg_subset (b.take n) false) (take_subset n b),
      List.Subset.trans (decodeCookieArg_subset (b.drop (n + 1)) true) (drop_subset (n + 1) b)⟩

theorem cookieArgs_subset {fuel : Nat} {kv : ArgsKV} (hkv : kv ∈ cookieArgs fuel b) : kv.key ⊆ b ∧ kv.value ⊆ b := by
  induction fuel generalizing b with
  | zero => simp [cookieArgs] at hkv
  | succ fuel ih =>
    unfold cookieArgs at hkv
    split at hkv
    · simp at hkv
    · split at hkv
      · obtain rfl := mem_singleton.mp hkv
        exact cookieArg_subset b
      · rcases mem_cons.mp hkv with rfl | hkv
        · obtain ⟨hk, hv⟩ := cookieArg_subset (b.take _)
          exact ⟨List.Subset.trans hk (take_subset _ _), List.Subset.trans hv (take_subset _ _)⟩
        · obtain ⟨hk, hv⟩ := ih hkv
          exact ⟨List.Subset.trans hk (drop_subset _ _), List.Subset.trans hv (drop_subset _ _)⟩

theorem OneLined.parseRequestCookies {cookies : List ArgsKV} (h : OneLined cookies) {src : Bytes} (hs : nChar ∉ src) :
    OneLined (parseRequestCookies cookies src) := by
  refine forall_mem_append.mpr ⟨h, fun kv hkv => ?_⟩
  obtain ⟨hk, hv⟩ := cookieArgs_subset (mem_of_mem_filter hkv)
  exact ⟨fun hc => hs (hk hc), fun hc => hs (hv hc)⟩

theorem foldl_cookies {cookies : List ArgsKV} (hkvs : ∀ kv ∈ kvs, nChar ∉ kv.value) (hc : OneLined cookies) :
    OneLined (kvs.foldl (fun cookies kv => parseRequestCookies cookies kv.value) cookies) :=
  kvs.foldlRecOn _ hc fun _ hc kv hkv => hc.parseRequestCookies (hkvs kv hkv)

theorem getCookieKey_subset (src : Bytes) : getCookieKey src ⊆ src := by
  unfold getCookieKey
  split
  · exact List.Subset.trans (stripSpace_subset _) (take_subset _ _)
  · exact stripSpace_subset src

inductive HeaderCall
  | set (key value : Bytes)
  | add (key value : Bytes)
  | setCanonical (key value : Bytes)
  | addCanonical (key value : Bytes)

def HeaderCall.key : HeaderCall → Bytes
  | .set key _ | .add key _ | .setCanonical key _ | .addCanonical key _ => key

inductive RequestCall
  | form (c : HeaderCall)
  | setCanonicalNoSpecial (key value : Bytes)

def RequestCall.Clean : RequestCall → Prop
  | .form c => nChar ∉ c.key
  | .setCanonicalNoSpecial key value => nChar ∉ key ∧ nChar ∉ value

/-! ## Requests -/

namespace OutHeader

variable {value : Bytes}

def fresh (disableNormalizing disableSpecialHeader noDefaultContentType : Bool) : OutHeader :=
  ⟨{ RequestHeader.zero with disableNormalizing, disableSpecialHeader }, [], false, noDefaultContentType⟩

def call (h : OutHeader) : RequestCall → OutHeader
  | .form (.set key value) => h.set key value
  | .form (.add key value) => h.add key value
  | .form (.setCanonical key value) => h.setCanonical key (initHeaderV value)
  | .form (.addCanonical key value) => h.add key (initHeaderV value)
  | .setCanonicalNoSpecial key value => h.setNonSpecial key value

def lines (h : OutHeader) : List Bytes :=
  (h.methodValue ++ [spChar] ++ h.requestURIValue ++ [spChar] ++ h.protocolValue) :: h.fields.map headerLine

structure Flat (h : OutHeader) : Prop where
  method : nChar ∉ h.method
  requestURI : nChar ∉ h.requestURI
  proto : nChar ∉ h.proto
  host : nChar ∉ h.host
  userAgent : nChar ∉ h.userAgent
  contentType : nChar ∉ h.contentType
  contentLengthBytes : nChar ∉ h.contentLengthBytes
  list : OneLined h.h
  trailer : OneLined h.trailer
  cookies : OneLined h.cookies

variable {h : OutHeader}

theorem Flat.withList (hh : h.Flat) {list : List ArgsKV} (hl : OneLined list) : Flat { h with h := list } := { hh with list := hl }

theorem Flat.setNonSpecial (hh : h.Flat) {key : Bytes} (hk : nChar ∉ key) (hv : nChar ∉ value) :
    (h.setNonSpecial key value).Flat := hh.withList (hh.list.setArg hk hv)

theorem Flat.resetConnectionClose (hh : h.Flat) : h.resetConnectionClose.Flat := by
  unfold OutHeader.resetConnectionClose
  split
  · exact { hh with list := hh.list.filter _ }
  · exact hh

theorem Flat.collectCookies (hh : h.Flat) : h.collectCookies.Flat := by
  unfold OutHeader.collectCookies
  split
  · exact hh
  · refine { hh with list := hh.list.filter _, cookies := ?_ }
    exact foldl_cookies (fun kv hkv => (hh.list.filter _ kv hkv).2) hh.cookies

theorem Flat.setSpecialHeader (hh : h.Flat) {key : Bytes} {set : Bool} {g : OutHeader} (hk : nChar ∉ key) (hv : nChar ∉ value)
    (hg : h.setSpecialHeader key value set = some g) : g.Flat := by
  refine OutHeader.setSpecialHeader_rule Flat hg hh { hh with contentType := hv }
    (fun _ => { hh with contentLengthBytes := hv }) { hh with }
    (fun _ => hh.resetConnectionClose.setNonSpecial hk hv) ?_ (fun _ => { hh with trailer := (addTrailer_oneLined hv _).1 })
    { hh with host := hv }
    { hh with userAgent := hv }
  refine { hh.collectCookies with cookies := OneLined.parseRequestCookies ?_ hv }
  split
  · simp [OneLined]
  · exact hh.collectCookies.cookies

theorem Flat.setCanonical (hh : h.Flat) {key : Bytes} (hk : nChar ∉ key) (hv : nChar ∉ value) : (h.setCanonical key value).Flat := by
  unfold OutHeader.setCanonical
  rcases hs : h.setSpecialHeader key value true with _ | g
  · exact hh.setNonSpecial hk hv
  · exact hh.setSpecialHeader hk hv hs

theorem Flat.addCanonical (hh : h.Flat) {key : Bytes} (hk : nChar ∉ key) (hv : nChar ∉ value) : (h.addCanonical key value).Flat := by
  unfold OutHeader.addCanonical
  rcases hs : h.setSpecialHeader key value false with _ | g
  · exact hh.withList (hh.list.appendArg hk hv false)
  · exact hh.setSpecialHeader hk hv hs

theorem Flat.call (hh : h.Flat) {c : RequestCall} (hc : c.Clean) : (h.call c).Flat := by
  match c with
  | .form (.set key value) => exact hh.setCanonical (initHeaderK_no_lf hc _) (initHeaderV_no_lf value)
  | .form (.add key value) => exact hh.addCanonical (initHeaderK_no_lf hc _) (initHeaderV_no_lf value)
  | .form (.setCanonical key value) => exact hh.setCanonical hc (initHeaderV_no_lf value)
  | .form (.addCanonical key value) => exact hh.addCanonical (initHeaderK_no_lf hc _) (initHeaderV_no_lf _)
  | .setCanonicalNoSpecial key value => exact hh.setNonSpecial hc.1 hc.2

theorem fresh_flat (d s n : Bool) : (fresh d s n).Flat := by
  constructor <;> simp [fresh, RequestHeader.zero, OneLined]

theorem Flat.calls (hh : h.Flat) {calls : List RequestCall} (hc : ∀ c ∈ calls, c.Clean) : (calls.foldl OutHeader.call h).Flat :=
  calls.foldlRecOn _ hh fun _ hh c hmem => hh.call (hc c hmem)

theorem frontLines_whole (huserAgent : nChar ∉ h.userAgent) (hhost : nChar ∉ h.host) (hcontentType : nChar ∉ h.contentType) :
    FieldsWhole h.frontLines := by
  refine ((fieldsWhole_lineIf fun hif => ⟨by decide, ?_⟩).append (fieldsWhole_lineIf fun hif => ⟨by decide, ?_⟩)).append
    (fieldsWhole_lineIf fun hif => ⟨by decide, ?_⟩)
  · simpa [userAgentValue, hif.2] using huserAgent
  · simpa [hostValue, hif.2] using hhost
  · unfold sentContentType
    split
    · decide
    · simpa [RequestHeader.contentTypeValue, hif.2] using hcontentType

theorem backLines_whole (htrailer : OneLined h.trailer) (hcookies : OneLined h.cookies) : FieldsWhole h.backLines :=
  ((fieldsWhole_lineIf fun _ => ⟨by decide, keys_no_lf htrailer⟩).append
    (fieldsWhole_lineIf fun _ => ⟨by decide, cookieBytes_no_lf hcookies⟩)).append (fieldsWhole_lineIf fun _ => by decide)

theorem Flat.fields (hh : h.Flat) : FieldsWhole h.fields := by
  have hgeneric : FieldsWhole h.genericLines := (hh.list.filter _).fieldsWhole
  have hlength : FieldsWhole h.lengthLine := fieldsWhole_lineIf fun _ => ⟨by decide, hh.contentLengthBytes⟩
  exact (((frontLines_whole hh.userAgent hh.host hh.contentType).append hlength).append hgeneric).append
    (backLines_whole hh.trailer hh.cookies)

theorem Flat.requestLine (hh : h.Flat) :
    nChar ∉ h.methodValue ++ [spChar] ++ h.requestURIValue ++ [spChar] ++ h.protocolValue := by
  have hm : nChar ∉ h.methodValue := no_lf_default hh.method (by decide)
  have hu : nChar ∉ h.requestURIValue := no_lf_default hh.requestURI (by decide)
  have hp : nChar ∉ h.protocolValue := no_lf_default hh.proto (by decide)
  have hsp : nChar ≠ spChar := by decide
  simp [hm, hu, hp, hsp]

theorem Flat.lineByLine (hh : h.Flat) : LineByLine h.lines strCRLF h.appendBytes where
  block_eq := by simp [lines, appendBytes, OutHeader.requestLine, appendHeaderLine_eq, flatMap_map]
  whole := forall_mem_cons.mpr ⟨⟨by simp, hh.requestLine⟩, forall_mem_map.mpr fun f hf => headerLine_whole (hh.fields f hf)⟩

end OutHeader

/-! ## Responses -/

namespace ResponseHeader

variable {value : Bytes}

def fresh (disableNormalizing noDefaultContentType noDefaultDate : Bool) : ResponseHeader :=
  { zero with disableNormalizing, noDefaultContentType, noDefaultDate }

def call (h : ResponseHeader) : HeaderCall → ResponseHeader
  | .set key value => h.set key value
  | .add key value => h.add key value
  | .setCanonical key value => h.setCanonical key (initHeaderV value)
  | .addCanonical key value => h.addCanonical key (initHeaderV value)

def statusText (h : ResponseHeader) : Bytes :=
  let statusCode := if h.statusCode ≤ 0 then 200 else h.statusCode.toNat
  h.protocolValue ++ [spChar] ++ (Nat.toDigits 10 statusCode).map ch ++ [spChar] ++
    if h.statusMessage = [] then Fasthttp.statusMessage statusCode else h.statusMessage

def lines (h : ResponseHeader) (date : Bytes) (compressed : Bool) : List Bytes :=
  h.statusText ::
    (h.plainFields date compressed ++ lineIf (h.appended.connectionClose = true) strConnection strClose).map headerLine

structure Flat (h : ResponseHeader) : Prop where
  protocol : nChar ∉ h.protocol
  statusMessage : nChar ∉ h.statusMessage
  contentType : nChar ∉ h.contentType
  contentEncoding : nChar ∉ h.contentEncoding
  server : nChar ∉ h.server
  list : OneLined h.h
  trailer : OneLined h.trailer
  cookies : OneLined h.cookies

variable {h : ResponseHeader}

theorem Flat.setNonSpecial (hh : h.Flat) {key : Bytes} (hk : nChar ∉ key) (hv : nChar ∉ value) :
    (h.setNonSpecial key value).Flat := { hh with list := hh.list.setArg hk hv }

theorem Flat.resetConnectionClose (hh : h.Flat) : h.resetConnectionClose.Flat := by
  unfold ResponseHeader.resetConnectionClose
  split
  · exact { hh with list := hh.list.filter _ }
  · exact hh

theorem Flat.setSpecialHeader (hh : h.Flat) {key : Bytes} {set : Bool} {g : ResponseHeader} (hk : nChar ∉ key)
    (hv : nChar ∉ value) (hg : h.setSpecialHeader key value set = some g) : g.Flat := by
  have hcookie : nChar ∉ getCookieKey value := fun hc => hv (getCookieKey_subset value hc)
  refine ResponseHeader.setSpecialHeader_rule Flat hg hh { hh with contentType := hv } { hh with }
    { hh with contentEncoding := hv } { hh with }
    (fun _ => hh.resetConnectionClose.setNonSpecial hk hv) { hh with server := hv } ?_
    (fun _ => { hh with trailer := (addTrailer_oneLined hv _).2 })
  refine { hh with cookies := OneLined.appendArg ?_ hcookie hv false }
  split
  · simp [OneLined]
  · exact hh.cookies

theorem Flat.setCanonical (hh : h.Flat) {key : Bytes} (hk : nChar ∉ key) (hv : nChar ∉ value) : (h.setCanonical key value).Flat := by
  unfold ResponseHeader.setCanonical
  rcases hs : h.setSpecialHeader key value true with _ | g
  · exact hh.setNonSpecial hk hv
  · exact hh.setSpecialHeader hk hv hs

theorem Flat.addCanonical (hh : h.Flat) {key : Bytes} (hk : nChar ∉ key) (hv : nChar ∉ value) : (h.addCanonical key value).Flat := by
  unfold ResponseHeader.addCanonical
  rcases hs : h.setSpecialHeader key value false with _ | g
  · exact { hh with list := hh.list.appendArg hk hv false }
  · exact hh.setSpecialHeader hk hv hs

theorem Flat.call (hh : h.Flat) {c : HeaderCall} (hc : nChar ∉ c.key) : (h.call c).Flat := by
  match c with
  | .set key value => exact hh.setCanonical (initHeaderK_no_lf hc _) (initHeaderV_no_lf value)
  | .add key value => exact hh.addCanonical (initHeaderK_no_lf hc _) (initHeaderV_no_lf value)
  | .setCanonical key value => exact hh.setCanonical hc (initHeaderV_no_lf value)
  | .addCanonical key value => exact hh.addCanonical hc (initHeaderV_no_lf value)

theorem fresh_flat (d n t : Bool) : (fresh d n t).Flat := by
  constructor <;> simp [fresh, zero, OneLined]

theorem Flat.calls (hh : h.Flat) {calls : List HeaderCall} (hc : ∀ c ∈ calls, nChar ∉ c.key) :
    (calls.foldl ResponseHeader.call h).Flat := calls.foldlRecOn _ hh fun _ hh c hmem => hh.call (hc c hmem)

theorem contentLines_whole (hcontentType : nChar ∉ h.contentType) (hcontentEncoding : nChar ∉ h.contentEncoding) (compressed : Bool) :
    FieldsWhole (if h.mustSkipContentLength then [] else h.contentLines compressed) := by
  split
  · simp [FieldsWhole]
  refine ((((fieldsWhole_lineIf fun _ => ⟨by decide, ?_⟩).append (fieldsWhole_lineIf fun _ => ⟨by decide, hcontentEncoding⟩)).append
    (fieldsWhole_lineIf fun _ => ⟨by decide, digits_no_lf _⟩)).append (fieldsWhole_lineIf fun _ => by decide)).append
    (fieldsWhole_lineIf fun _ => by decide)
  unfold contentTypeValue
  split
  · decide
  · exact hcontentType

theorem Flat.fields (hh : h.Flat) {date : Bytes} (hd : nChar ∉ date) (compressed : Bool) :
    FieldsWhole (h.plainFields date compressed ++ lineIf (h.appended.connectionClose = true) strConnection strClose) := by
  have htrailer : OneLined h.sentTrailer := by
    unfold sentTrailer
    split
    · exact hh.trailer
    · simp [OneLined]
  have hcookies : FieldsWhole (h.cookies.map fun kv => (strSetCookie, kv.value)) := by
    intro f hf
    obtain ⟨kv, hkv, rfl⟩ := mem_map.mp hf
    exact ⟨(by decide : nChar ∉ strSetCookie), (hh.cookies kv hkv).2⟩
  have hgeneric : FieldsWhole h.genericLines := ((hh.list.filter _).filter _).fieldsWhole
  exact ((((((fieldsWhole_lineIf fun _ => ⟨by decide, hh.server⟩).append (fieldsWhole_lineIf fun _ => ⟨by decide, hd⟩)).append
    (contentLines_whole hh.contentType hh.contentEncoding compressed)).append hgeneric).append (fieldsWhole_lineIf fun _ =>
      ⟨by decide, keys_no_lf htrailer⟩)).append hcookies).append
    (fieldsWhole_lineIf fun _ => by decide)

theorem Flat.statusText (hh : h.Flat) : nChar ∉ h.statusText := by
  have hp : nChar ∉ h.protocolValue := no_lf_default hh.protocol (by decide)
  have hsp : nChar ≠ spChar := by decide
  have hm : nChar ∉ if h.statusMessage = [] then Fasthttp.statusMessage (if h.statusCode ≤ 0 then 200 else h.statusCode.toNat : Nat)
      else h.statusMessage := no_lf_default hh.statusMessage (statusMessage_no_lf _)
  simp only [ResponseHeader.statusText, mem_append, mem_singleton, not_or]
  exact ⟨⟨⟨⟨hp, hsp⟩, digits_no_lf _⟩, hsp⟩, hm⟩

theorem Flat.lineByLine (hh : h.Flat) {date : Bytes} (hd : nChar ∉ date) (compressed : Bool) :
    LineByLine (h.lines date compressed) (if compressed then [] else strCRLF) (h.appendBytes date compressed) where
  block_eq := by
    have hline : h.statusLine = h.statusText ++ strCRLF := rfl
    simp [lines, appendBytes, hline, appendHeaderLine_eq, flatMap_map]
  whole := forall_mem_cons.mpr ⟨⟨by simp [ResponseHeader.statusText], hh.statusText⟩,
    forall_mem_map.mpr fun f hf => headerLine_whole (hh.fields hd compressed f hf)⟩

end ResponseHeader

/-- Whatever is set or added under names without line feeds, each line of the block is one of the
lines that are written for the header, if no value with a line feed goes around `initHeaderV`. -/
theorem header_line_by_line (disableNormalizing disableSpecialHeader noDefaultContentType noDefaultDate : Bool) (now : UTCTime)
    {requestCalls : List RequestCall} (hrequest : ∀ c ∈ requestCalls, c.Clean)
    {responseCalls : List HeaderCall} (hresponse : ∀ c ∈ responseCalls, nChar ∉ c.key) (compressed : Bool) :
    (let h := requestCalls.foldl OutHeader.call (.fresh disableNormalizing disableSpecialHeader noDefaultContentType)
     LineByLine h.lines strCRLF h.appendBytes) ∧
    let h := responseCalls.foldl ResponseHeader.call (.fresh disableNormalizing noDefaultContentType noDefaultDate)
    LineByLine (h.lines (appendHTTPDate now) compressed) (if compressed then [] else strCRLF)
      (h.appendBytes (appendHTTPDate now) compressed) :=
  ⟨((OutHeader.fresh_flat _ _ _).calls hrequest).lineByLine,
    ((ResponseHeader.fresh_flat _ _ _).calls hresponse).lineByLine (appendHTTPDate_no_lf now) compressed⟩

def twoLines : Bytes := ascii "b\r\nC: d"

theorem header_line_by_line_two :
    (let h := [RequestCall.form (.set (ascii "a") twoLines)].foldl OutHeader.call (.fresh false false false)
     h.lines = [ascii "GET / HTTP/1.1", ascii "A: b  C: d"] ∧ LineByLine h.lines strCRLF h.appendBytes) ∧
    let h := [HeaderCall.add (ascii "a") twoLines].foldl ResponseHeader.call (.fresh false false true)
    let date := appendHTTPDate ⟨0, 1, 0, 2000, 0, 0, 0⟩
    h.lines date false = [ascii "HTTP/1.1 200 OK", ascii "Content-Length: 0", ascii "A: b  C: d"] ∧
      LineByLine (h.lines date false) strCRLF (h.appendBytes date false) := by
  have hname : nChar ∉ ascii "a" := by decide
  have hrequest : ∀ c ∈ [RequestCall.form (.set (ascii "a") twoLines)], c.Clean := fun c hc => by
    rw [mem_singleton.mp hc]
    exact hname
  have hresponse : ∀ c ∈ [HeaderCall.add (ascii "a") twoLines], nChar ∉ c.key := fun c hc => by
    rw [mem_singleton.mp hc]
    exact hname
  obtain ⟨hreq, hresp⟩ := header_line_by_line false false false true ⟨0, 1, 0, 2000, 0, 0, 0⟩ hrequest hresponse false
  exact ⟨⟨by decide +kernel, hreq⟩, by decide +kernel, hresp⟩

/-- A value that `SetCanonicalNoSpecial` takes starts a line that was never set. -/
theorem value_starts_line :
    let h := (OutHeader.fresh false false false).call (.setCanonicalNoSpecial (ascii "A") twoLines)
    h.appendBytes = ["GET / HTTP/1.1\r\n", "A: b\r\n", "C: d\r\n\r\n"].flatMap ascii ∧ ¬ LineByLine h.lines strCRLF h.appendBytes :=
  ⟨by decide +kernel, fun h => absurd h.whole (by decide +kernel)⟩

end Fasthttp
