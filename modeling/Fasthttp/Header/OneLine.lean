import Fasthttp.Header.Case
import Fasthttp.Header.Injection
import Fasthttp.Header.Wire
import Fasthttp.Lib.Segments

/-!
# One line for a name

`Set` is for a single header of its name.
-/

namespace Fasthttp

open Segments List

variable {name : Bytes} {p : Prop}

/-! ## The lines of a name -/

def Bears (k l : Bytes) : Prop := colonChar ∈ l ∧ SameName (l.takeWhile (· ≠ colonChar)) k

instance (k l : Bytes) : Decidable (Bears k l) := inferInstanceAs (Decidable (_ ∧ _))

def linesNamed (k block : Bytes) : List Bytes := (block.splitOn nChar).filter fun l => Bears k l

def OneLine (k v block : Bytes) : Prop :=
  ∃ name, SameName name k ∧ linesNamed k block = [name ++ strColonSpace ++ v ++ [rChar]]

variable {k v : Bytes}

theorem linesNamed_append (k s t : Bytes) : linesNamed k (s ++ nChar :: t) = linesNamed k s ++ linesNamed k t := by
  unfold linesNamed
  rw [splitOn_append_cons, filter_append]

theorem linesNamed_bare {l : Bytes} (hn : nChar ∉ l) (hc : colonChar ∉ l) (k : Bytes) : linesNamed k l = [] := by
  unfold linesNamed
  rw [splitOn_of_not_mem hn]
  simp [Bears, hc]

theorem linesNamed_block (k : Bytes) (ls : List Bytes) (e : Bytes) :
    linesNamed k (ls.flatMap (· ++ strCRLF) ++ e) = ls.flatMap (fun l => linesNamed k (l ++ [rChar])) ++ linesNamed k e := by
  induction ls with
  | nil => rfl
  | cons l ls ih =>
    have hline : (l :: ls).flatMap (· ++ strCRLF) ++ e = (l ++ [rChar]) ++ nChar :: (ls.flatMap (· ++ strCRLF) ++ e) := by
      simp [strCRLF]
    rw [hline, linesNamed_append, ih, flatMap_cons, append_assoc]

/-! ## The lines of a field -/

theorem bears_field (k s t : Bytes) : Bears k (s ++ colonChar :: t) ↔ Bears k (s ++ [colonChar]) := by
  simp [Bears, takeWhile_append]

def linesOf (k key : Bytes) : Nat := (linesNamed k (key ++ [colonChar])).length

theorem headerLine_eq (f : Bytes × Bytes) : headerLine f = f.1 ++ colonChar :: spChar :: f.2 := by
  simp [headerLine, show strColonSpace = [colonChar, spChar] from rfl]

theorem length_linesNamed_field {f : Bytes × Bytes} (hv : nChar ∉ f.2) (k : Bytes) :
    (linesNamed k (headerLine f ++ [rChar])).length = linesOf k f.1 := by
  obtain ⟨init, last, -, happend⟩ := splitOn_append_free (x := nChar) f.1
  have hvalue : nChar ∉ colonChar :: spChar :: (f.2 ++ [rChar]) := by
    have hne : nChar ≠ colonChar ∧ nChar ≠ spChar ∧ nChar ≠ rChar := by decide
    simp [hne, hv]
  have hcolon : nChar ∉ [colonChar] := by decide
  rw [headerLine_eq, append_assoc]
  simp only [linesOf, linesNamed, cons_append, happend _ hvalue, happend _ hcolon, filter_append, length_append,
    filter_singleton, bears_field k last (spChar :: _)]
  cases decide (Bears k (last ++ [colonChar])) <;> rfl

theorem linesNamed_field {f : Bytes × Bytes} (hkey : Token f.1) (hv : nChar ∉ f.2) (hname : SameName f.1 k) :
    linesNamed k (headerLine f ++ [rChar]) = [headerLine f ++ [rChar]] := by
  have hline : nChar ∉ headerLine f ++ [rChar] := by
    simp [(headerLine_whole ⟨hkey.free.2, hv⟩).2]
  have hbears : Bears k (headerLine f ++ [rChar]) := by
    rw [headerLine_eq, append_assoc]
    exact ⟨by simp, (congrArg (SameName · k) (before_append_cons hkey.free.1 _)).mpr hname⟩
  rw [linesNamed, splitOn_of_not_mem hline]
  simp [hbears]

theorem linesOf_token {key : Bytes} (hkey : Token key) (k : Bytes) : linesOf k key = if SameName key k then 1 else 0 := by
  have hn : nChar ∉ key ++ [colonChar] := by
    simp [hkey.free.2]
  have htake : (key ++ [colonChar]).takeWhile (· ≠ colonChar) = key := before_append_cons hkey.free.1 []
  rw [linesOf, linesNamed, splitOn_of_not_mem hn]
  simp only [filter_singleton, Bears]
  split <;> simp_all

/-! ## The lines of a header -/

def tally (k : Bytes) (fs : List (Bytes × Bytes)) : Nat := (fs.map fun f => linesOf k f.1).sum

theorem tally_append (k : Bytes) (fs gs : List (Bytes × Bytes)) : tally k (fs ++ gs) = tally k fs + tally k gs := by simp [tally]

theorem tally_lineIf [Decidable p] {key : Bytes} (hkey : Token key) (k value : Bytes) :
    tally k (lineIf p key value) = if p ∧ SameName key k then 1 else 0 := by
  unfold lineIf
  by_cases hp : p
  · simp [tally, hp, linesOf_token hkey]
  · simp [tally, hp]

theorem oneLine_iff {fs : List (Bytes × Bytes)} {block : Bytes} (hv : ∀ f ∈ fs, nChar ∉ f.2) (hname : Token name)
    (hk : SameName name k) (hmem : (name, v) ∈ fs)
    (hblock : linesNamed k block = fs.flatMap fun f => linesNamed k (headerLine f ++ [rChar])) :
    OneLine k v block ↔ tally k fs = 1 := by
  have hlength : (linesNamed k block).length = tally k fs := by
    rw [hblock, length_flatMap]
    congr 1
    exact map_congr_left fun f hf => length_linesNamed_field (hv f hf) k
  constructor
  · rintro ⟨name', -, hone⟩
    rw [← hlength, hone]
    rfl
  · intro hone
    rw [hone] at hlength
    obtain ⟨l, hl⟩ := length_eq_one_iff.mp hlength
    have hline : headerLine (name, v) ++ [rChar] ∈ linesNamed k block := by
      rw [hblock, mem_flatMap]
      exact ⟨(name, v), hmem, by simp [linesNamed_field (f := (name, v)) hname (hv _ hmem) hk]⟩
    rw [hl, mem_singleton] at hline
    exact ⟨name, hk, by rw [hl, ← hline, headerLine]⟩

theorem linesNamed_header {first e : Bytes} (hn : nChar ∉ first) (hc : colonChar ∉ first) (he : e = [] ∨ e = strCRLF) (k : Bytes)
    (fs : List (Bytes × Bytes)) : linesNamed k ((first :: fs.map headerLine).flatMap (· ++ strCRLF) ++ e) =
      fs.flatMap fun f => linesNamed k (headerLine f ++ [rChar]) := by
  have hfirst : linesNamed k (first ++ [rChar]) = [] := by
    have hne : nChar ≠ rChar ∧ colonChar ≠ rChar := by decide
    exact linesNamed_bare (by simp [hn]) (by simp [hc, hne.2]) k
  have hend : linesNamed k e = [] := by
    rcases he with rfl | rfl
    · exact linesNamed_bare (by simp) (by simp) k
    · exact (linesNamed_append k [rChar] []).trans (by
        rw [linesNamed_bare (by decide) (by decide), linesNamed_bare (by simp) (by simp), append_nil])
  rw [linesNamed_block, flatMap_cons, hfirst, hend, nil_append, append_nil, flatMap_map]

def entries (k : Bytes) (kvs : List ArgsKV) : Nat := kvs.countP fun kv => kv.key = initHeaderK k false

def strays (k : Bytes) (kvs : List ArgsKV) : Nat :=
  (kvs.map fun kv => if kv.key = initHeaderK k false then 0 else linesOf k kv.key).sum

def Apart (k : Bytes) (kvs : List ArgsKV) : Prop :=
  ∀ kv ∈ kvs, kv.key ≠ initHeaderK k false → linesNamed k (kv.key ++ [colonChar]) = []

instance (k : Bytes) (kvs : List ArgsKV) : Decidable (Apart k kvs) := inferInstanceAs (Decidable (∀ kv ∈ kvs, _))

section Entries

variable {kvs : List ArgsKV}

theorem strays_eq_zero : strays k kvs = 0 ↔ Apart k kvs := by
  induction kvs with
  | nil => simp [strays, Apart]
  | cons kv kvs ih =>
    unfold strays Apart at ih ⊢
    rw [map_cons, sum_cons, Nat.add_eq_zero_iff, ih]
    by_cases h : kv.key = initHeaderK k false <;> simp [linesOf]

theorem tally_entries (hk : Token k) : tally k (kvs.map fun kv => (kv.key, kv.value)) = entries k kvs + strays k kvs := by
  have hown : linesOf k (initHeaderK k false) = 1 := by
    rw [linesOf_token (hk.initHeaderK false)]
    exact if_pos (initHeaderK_lower k false)
  induction kvs with
  | nil => rfl
  | cons kv kvs ih =>
    unfold tally entries strays at ih ⊢
    rw [map_cons, map_cons, sum_cons, ih]
    by_cases h : kv.key = initHeaderK k false
    · simp [h]
      omega
    · simp [h]
      omega

theorem entries_setArg (k v : Bytes) (kvs : List ArgsKV) :
    entries k (setArg kvs (initHeaderK k false) v false) = max 1 (entries k kvs) := by
  induction kvs with
  | nil => simp [setArg, appendArg, entries]
  | cons kv kvs ih =>
    unfold setArg
    unfold entries at ih ⊢
    split
    · next h => simp [h]
    · next h => simp [ih, Ne.symm h]

theorem strays_setArg (k v : Bytes) (kvs : List ArgsKV) : strays k (setArg kvs (initHeaderK k false) v false) = strays k kvs := by
  induction kvs with
  | nil => simp [setArg, appendArg, strays]
  | cons kv kvs ih =>
    unfold setArg
    unfold strays at ih ⊢
    split
    · next h => simp
    · simp [ih]

theorem entries_delAllArgs (k : Bytes) (kvs : List ArgsKV) : entries k (delAllArgs kvs (initHeaderK k false)) = 0 := by
  refine countP_eq_zero.mpr fun kv hkv => ?_
  have hne : initHeaderK k false ≠ kv.key := by simpa using (mem_filter.mp hkv).2
  simpa using hne.symm

theorem sum_delAllArgs {f : ArgsKV → Nat} (hf : ∀ kv, name = kv.key → f kv = 0) (kvs : List ArgsKV) :
    ((delAllArgs kvs name).map f).sum = (kvs.map f).sum := by
  induction kvs with
  | nil => rfl
  | cons kv kvs ih =>
    unfold delAllArgs at ih ⊢
    rw [filter_cons]
    split
    · rw [map_cons, sum_cons, ih, map_cons, sum_cons]
    · next h => rw [ih, map_cons, sum_cons, hf kv (by simpa using h), Nat.zero_add]

theorem strays_delAllArgs (k : Bytes) (kvs : List ArgsKV) : strays k (delAllArgs kvs (initHeaderK k false)) = strays k kvs :=
  sum_delAllArgs (fun _ heq => if_pos heq.symm) kvs

theorem entries_eq_zero {names : List Bytes} (h : ∀ kv ∈ kvs, kv.key ∉ names) (hkey : initHeaderK k false ∈ names) :
    entries k kvs = 0 := by
  refine countP_eq_zero.mpr fun kv hkv => ?_
  have hne : kv.key ≠ initHeaderK k false := fun heq => h kv hkv (heq ▸ hkey)
  simpa using hne

end Entries

inductive HeaderEdit
  | set (key value : Bytes)
  | add (key value : Bytes)
  | del (key : Bytes)

def HeaderEdit.key : HeaderEdit → Bytes
  | .set key _ | .add key _ | .del key => key

def OutHeader.edit (h : OutHeader) : HeaderEdit → OutHeader
  | .set key value => h.set key value
  | .add key value => h.add key value
  | .del key => h.del key

def ResponseHeader.edit (h : ResponseHeader) : HeaderEdit → ResponseHeader
  | .set key value => h.set key value
  | .add key value => h.add key value
  | .del key => h.delCanonical (initHeaderK key h.disableNormalizing)

def managedNames : List Bytes := [strContentLength, strTransferEncoding, strDate, strTrailer, strSetCookie, strCookie]

structure Settable (k : Bytes) : Prop extends Token k where
  free : ∀ name ∈ managedNames, ¬ SameName k name

structure PlainValue (v : Bytes) : Prop where
  ne_nil : v ≠ []
  no_lf : nChar ∉ v
  no_cr : rChar ∉ v

theorem PlainValue.initHeaderV (hv : PlainValue v) : initHeaderV v = v := by
  unfold Fasthttp.initHeaderV indexByte
  rw [List.idxOf?_eq_none_iff.mpr hv.no_lf, List.idxOf?_eq_none_iff.mpr hv.no_cr]

theorem sameName_iff_eq (hname : normalizeHeaderKeyV2 name = name) (k : Bytes) :
    SameName name k ↔ initHeaderK k false = name := by
  rw [← normalizeHeaderKeyV2_eq_iff, hname]
  exact eq_comm

theorem Settable.ne_managed (hk : Settable k) (name : Bytes) (hname : name ∈ managedNames) : initHeaderK k false ≠ name :=
  fun h => hk.free name hname (h ▸ (initHeaderK_lower k false).symm)

def knownNames : List Bytes := [strContentType, strHost, strUserAgent, strContentEncoding, strServer, strConnection] ++ managedNames

theorem known_names : ∀ name ∈ knownNames, Token name ∧ normalizeHeaderKeyV2 name = name := by
  have hnames : ∀ name ∈ knownNames, (name ≠ [] ∧ ∀ c ∈ name, validHeaderFieldByte c = true) ∧
      normalizeHeaderKeyV2 name = name := by decide +kernel
  intro name h
  obtain ⟨⟨hne, hvalid⟩, hnormal⟩ := hnames name h
  exact ⟨⟨hne, hvalid⟩, hnormal⟩

theorem HeaderEdit.initHeaderK_ne_trailer {e : HeaderEdit} (he : ¬ SameName e.key strTrailer) : initHeaderK e.key false ≠ strTrailer :=
  fun heq => he ((sameName_iff_eq (known_names _ (by decide)).2 _).mpr heq).symm

theorem sameName_connection : SameName k strConnection ↔ initHeaderK k false = strConnection := by
  rw [← sameName_iff_eq (known_names _ (by decide)).2]
  exact ⟨SameName.symm, SameName.symm⟩

theorem Settable.not_managed (hk : Settable k) (hname : name ∈ managedNames) : ¬ SameName name k :=
  fun h => hk.free name hname h.symm

theorem tally_known (hname : name ∈ knownNames) [Decidable p] (k value : Bytes) :
    tally k (lineIf p name value) = if p ∧ initHeaderK k false = name then 1 else 0 := by
  obtain ⟨htoken, hnormal⟩ := known_names name hname
  rw [tally_lineIf htoken]
  simp [sameName_iff_eq hnormal]

theorem tally_managed (hk : Settable k) (hname : name ∈ managedNames) [Decidable p] (value : Bytes) :
    tally k (lineIf p name value) = 0 := by
  rw [tally_lineIf (known_names name (mem_append_right _ hname)).1, if_neg]
  exact fun h => hk.not_managed hname h.2

/-! ## Requests -/

variable {set : Bool}

namespace OutHeader

/-- What the header has to be like for `Set` to leave one line of the name -/
def Ready (h : OutHeader) (k v : Bytes) : Prop :=
  Apart k h.h ∧
  if h.disableSpecialHeader = false ∧ SameName k strConnection then
    if v = strClose then entries k h.h = 0 else h.connectionClose = true ∨ entries k h.h ≤ 1
  else entries k h.h ≤ 1

instance (h : OutHeader) (k v : Bytes) : Decidable (h.Ready k v) := inferInstanceAs (Decidable (_ ∧ _))

def fieldNames : List Bytes := [strContentType, strHost, strUserAgent]

structure Settled (h : OutHeader) : Prop where
  normalizing : h.disableNormalizing = false
  method : h.method = []
  requestURI : h.requestURI = []
  proto : h.proto = []
  host : nChar ∉ h.host
  userAgent : nChar ∉ h.userAgent
  contentType : nChar ∉ h.contentType
  contentLengthBytes : nChar ∉ h.contentLengthBytes
  values : ∀ kv ∈ h.h, nChar ∉ kv.value
  generic : h.disableSpecialHeader = false → ∀ kv ∈ h.h, kv.key ∉ fieldNames
  trailer : h.trailer = []
  cookies : OneLined h.cookies

variable {h : OutHeader}

theorem Settled.sub (hh : h.Settled) (list : List ArgsKV) (hl : list ⊆ h.h) : Settled { h with h := list } :=
  { hh with values := fun kv hkv => hh.values kv (hl hkv), generic := fun hs kv hkv => hh.generic hs kv (hl hkv) }

theorem Settled.setNonSpecial (hh : h.Settled) {key value : Bytes} (hkey : h.disableSpecialHeader = false → key ∉ fieldNames)
    (hv : nChar ∉ value) : (h.setNonSpecial key value).Settled := by
  exact { hh with values := forall_setArg hh.values hv, generic := fun hs => forall_setArg (hh.generic hs) (hkey hs) }

theorem Settled.resetConnectionClose (hh : h.Settled) : h.resetConnectionClose.Settled := by
  unfold OutHeader.resetConnectionClose
  split
  · have hsub := hh.sub (delAllArgs h.h strConnection) (filter_subset_self _)
    exact { hsub with }
  · exact hh

theorem Settled.collectCookies (hh : h.Settled) : h.collectCookies.Settled := by
  unfold OutHeader.collectCookies
  split
  · exact hh
  · have hsub := hh.sub (h.h.filter fun kv => !caseInsensitiveCompare kv.key strCookie) (filter_subset_self _)
    exact { hsub with cookies := foldl_cookies (fun kv hkv => hh.values kv (mem_of_mem_filter hkv)) hh.cookies }

theorem Settled.setSpecialHeader (hh : h.Settled) {key value : Bytes} {g : OutHeader} (hkey : key ≠ strTrailer)
    (hv : nChar ∉ value) (hg : h.setSpecialHeader key value set = some g) : g.Settled := by
  refine setSpecialHeader_rule Settled hg hh { hh with contentType := hv } (fun _ => { hh with contentLengthBytes := hv }) { hh with }
    (fun hconn => hh.resetConnectionClose.setNonSpecial (fun _ => ?_) hv) ?_ (fun h => absurd h hkey) { hh with host := hv }
    { hh with userAgent := hv }
  · rw [hconn]
    decide
  · refine { hh.collectCookies with cookies := OneLined.parseRequestCookies ?_ hv }
    split
    · simp [OneLined]
    · exact hh.collectCookies.cookies

theorem setSpecialHeader_connection (hs : h.disableSpecialHeader = false) (value : Bytes) (set : Bool) :
    h.setSpecialHeader strConnection value set =
    some (if value = strClose then { h with connectionClose := true }
      else h.resetConnectionClose.setNonSpecial strConnection value) := by
  simp +decide [setSpecialHeader, hs]

theorem setSpecialHeader_none {key value : Bytes} (hnone : h.setSpecialHeader key value set = none)
    (hs : h.disableSpecialHeader = false) : key ∉ fieldNames := by
  intro hmem
  simp only [fieldNames, mem_cons, not_mem_nil, or_false] at hmem
  rcases hmem with rfl | rfl | rfl <;> simp +decide [setSpecialHeader, hs] at hnone

theorem Settled.setCanonical (hh : h.Settled) {key value : Bytes} (hkey : key ≠ strTrailer) (hv : nChar ∉ value) :
    (h.setCanonical key value).Settled := by
  unfold OutHeader.setCanonical
  rcases hs : h.setSpecialHeader key value true with _ | g
  · exact hh.setNonSpecial (setSpecialHeader_none hs) hv
  · exact hh.setSpecialHeader hkey hv hs

theorem Settled.addCanonical (hh : h.Settled) {key value : Bytes} (hkey : key ≠ strTrailer) (hv : nChar ∉ value) :
    (h.addCanonical key value).Settled := by
  unfold OutHeader.addCanonical
  rcases hs : h.setSpecialHeader key value false with _ | g
  · refine { hh with values := ?_, generic := fun hspecial => ?_ }
    · exact forall_mem_append.mpr ⟨hh.values, by simpa using hv⟩
    · exact forall_mem_append.mpr ⟨hh.generic hspecial, by simpa using setSpecialHeader_none hs hspecial⟩
  · exact hh.setSpecialHeader hkey hv hs

theorem Settled.delSpecial (hh : h.Settled) (key : Bytes) : (h.delSpecial key).Settled := by
  have hnil : nChar ∉ ([] : Bytes) := by simp
  unfold OutHeader.delSpecial
  split_ifs
  · exact { hh with host := hnil }
  · exact { hh with contentType := hnil }
  · exact { hh with userAgent := hnil }
  · exact { hh with cookies := by simp [OneLined] }
  · exact { hh with contentLengthBytes := hnil }
  · exact { hh with }
  · exact { hh with trailer := rfl }
  · exact hh

theorem Settled.edit (hh : h.Settled) {e : HeaderEdit} (he : ¬ SameName e.key strTrailer) : (h.edit e).Settled := by
  have hkey : initHeaderK e.key h.disableNormalizing ≠ strTrailer := by
    rw [hh.normalizing]
    exact HeaderEdit.initHeaderK_ne_trailer he
  match e with
  | .set key value => exact hh.setCanonical hkey (initHeaderV_no_lf value)
  | .add key value => exact hh.addCanonical hkey (initHeaderV_no_lf value)
  | .del key => exact (hh.delSpecial _).sub _ (filter_subset_self _)

theorem fresh_settled (s n : Bool) : (fresh false s n).Settled := by
  constructor <;> simp [fresh, RequestHeader.zero, OneLined]

theorem Settled.edits (hh : h.Settled) {edits : List HeaderEdit} (he : ∀ e ∈ edits, ¬ SameName e.key strTrailer) :
    (edits.foldl OutHeader.edit h).Settled := edits.foldlRecOn _ hh fun _ hh e hmem => hh.edit (he e hmem)

theorem Settled.linesNamed (hh : h.Settled) (k : Bytes) :
    linesNamed k h.appendBytes = h.fields.flatMap fun f => linesNamed k (headerLine f ++ [rChar]) := by
  have hfirst : h.methodValue ++ [spChar] ++ h.requestURIValue ++ [spChar] ++ h.protocolValue = ascii "GET / HTTP/1.1" := by
    simp only [methodValue, requestURIValue, protocolValue, hh.method, hh.requestURI, hh.proto]
    decide
  have hblock : h.appendBytes = (ascii "GET / HTTP/1.1" :: h.fields.map headerLine).flatMap (· ++ strCRLF) ++ strCRLF := by
    simp [← hfirst, appendBytes, OutHeader.requestLine, appendHeaderLine_eq, flatMap_map]
  rw [hblock, linesNamed_header (by decide) (by decide) (.inr rfl)]

theorem Settled.fields_values (hh : h.Settled) : ∀ f ∈ h.fields, nChar ∉ f.2 := by
  have hfront := frontLines_whole hh.userAgent hh.host hh.contentType
  have hgeneric : ∀ f ∈ h.genericLines, nChar ∉ f.2 := by
    intro f hf
    obtain ⟨kv, hkv, rfl⟩ := mem_map.mp hf
    exact hh.values kv (mem_of_mem_filter hkv)
  have hback : FieldsWhole h.backLines := backLines_whole (by simp [hh.trailer, OneLined]) hh.cookies
  exact forall_mem_append.mpr ⟨forall_mem_append.mpr ⟨forall_mem_append.mpr ⟨fun f hf => (hfront f hf).2,
    forall_lineIf fun _ => hh.contentLengthBytes⟩, hgeneric⟩, fun f hf => (hback f hf).2⟩

theorem Settled.tally_fields (hh : h.Settled) (hk : Settable k) :
    tally k h.fields = tally k h.frontLines + (entries k h.h + strays k h.h) +
      if (h.connectionClose = true ∧ h.disableSpecialHeader = false) ∧ initHeaderK k false = strConnection then 1 else 0 := by
  have hgeneric : h.genericLines = h.h.map fun kv => (kv.key, kv.value) := by simp [genericLines, hh.trailer]
  have hlength : tally k h.lengthLine = 0 := tally_managed hk (by decide) _
  unfold fields backLines
  rw [tally_append, tally_append, tally_append, tally_append, tally_append, hgeneric, tally_entries hk.toToken,
    tally_managed hk (by decide), tally_managed hk (by decide), tally_known (by decide)]
  omega

theorem tally_frontLines (h : OutHeader) (k : Bytes) : tally k h.frontLines =
    (if (h.userAgentValue ≠ [] ∧ h.disableSpecialHeader = false) ∧ initHeaderK k false = strUserAgent then 1 else 0) +
    (if (h.hostValue ≠ [] ∧ h.disableSpecialHeader = false) ∧ initHeaderK k false = strHost then 1 else 0) +
    if (h.sentContentType ≠ [] ∧ h.disableSpecialHeader = false) ∧ initHeaderK k false = strContentType then 1 else 0 := by
  unfold frontLines
  rw [tally_append, tally_append, tally_known (by decide), tally_known (by decide), tally_known (by decide)]

theorem Settled.setNonSpecial_fields (hh : h.Settled) (hk : Settable k) (hv : PlainValue v)
    (hkey : h.disableSpecialHeader = false → initHeaderK k false ∉ fieldNames) :
    let g := h.setNonSpecial (initHeaderK k false) v
    (initHeaderK k false, v) ∈ g.fields ∧ tally k g.fields = max 1 (entries k h.h) + strays k h.h +
      if (h.connectionClose = true ∧ h.disableSpecialHeader = false) ∧ initHeaderK k false = strConnection then 1 else 0 := by
  intro g
  have hg : g.Settled := hh.setNonSpecial hkey hv.no_lf
  constructor
  · obtain ⟨kv, hmem, hk, hv⟩ := mem_setArg h.h (initHeaderK k false) v
    have hgen : (initHeaderK k false, v) ∈ g.genericLines :=
      mem_map.mpr ⟨kv, mem_filter.mpr ⟨hmem, by simp [hg.trailer]⟩, by rw [hk, hv]⟩
    simp [fields, hgen]
  · have hfront : tally k g.frontLines = 0 := by
      rw [tally_frontLines]
      rcases hs : h.disableSpecialHeader with _ | _
      · have hne := hkey hs
        simp only [fieldNames, mem_cons, not_or] at hne
        simp [hne]
      · simp [show g.disableSpecialHeader = true from hs]
    rw [hg.tally_fields hk, hfront, show g.h = setArg h.h (initHeaderK k false) v false from rfl, entries_setArg,
      strays_setArg, Nat.zero_add]
    rfl

theorem setSpecialHeader_generic (hk : Settable k)
    (h0 : h.disableSpecialHeader = true ∨ initHeaderK k false ∉ fieldNames ∧ initHeaderK k false ≠ strConnection)
    (value : Bytes) (set : Bool) :
    h.setSpecialHeader (initHeaderK k false) value set = none := by
  unfold setSpecialHeader
  split
  · rfl
  · next hspecial =>
    have hs : h.disableSpecialHeader = false := by
      rw [Bool.or_eq_true, not_or] at hspecial
      exact Bool.eq_false_iff.mpr hspecial.2
    obtain ⟨hfield, hconn⟩ := h0.resolve_left (by simp [hs])
    simp only [fieldNames, mem_cons, not_mem_nil, or_false, not_or] at hfield
    rw [if_neg hfield.1, if_neg (hk.ne_managed strContentLength (by decide)), if_neg hconn,
      if_neg (hk.ne_managed strCookie (by decide)), if_neg (hk.ne_managed strTransferEncoding (by decide)),
      if_neg (hk.ne_managed strTrailer (by decide)), if_neg hfield.2.1, if_neg hfield.2.2]

theorem Settled.setField_fields (hh : h.Settled) (hk : Settable k) (hv : PlainValue v) (hs : h.disableSpecialHeader = false)
    (hfield : initHeaderK k false ∈ fieldNames) : ∃ g, h.setSpecialHeader (initHeaderK k false) v true = some g ∧
      (initHeaderK k false, v) ∈ g.fields ∧ tally k g.fields = 1 + strays k h.h := by
  have hzero := entries_eq_zero (hh.generic hs) hfield
  have hne := hv.ne_nil
  simp only [fieldNames, mem_cons, not_mem_nil, or_false] at hfield
  rcases hfield with hK | hK | hK
  · refine ⟨{ h with contentType := v }, by simp +decide [OutHeader.setSpecialHeader, hK, hs], ?_, ?_⟩
    · simp [fields, frontLines, lineIf, sentContentType, RequestHeader.contentTypeValue, hs, hK, hne]
    · have hg : Settled { h with contentType := v } := { hh with contentType := hv.no_lf }
      rw [hg.tally_fields hk, tally_frontLines]
      simp +decide [hK, hs, hzero, sentContentType, RequestHeader.contentTypeValue, hne]
  · refine ⟨{ h with host := v }, by simp +decide [OutHeader.setSpecialHeader, hK, hs], ?_, ?_⟩
    · simp [fields, frontLines, lineIf, hostValue, hs, hK, hne]
    · have hg : Settled { h with host := v } := { hh with host := hv.no_lf }
      rw [hg.tally_fields hk, tally_frontLines]
      simp +decide [hK, hs, hzero, hostValue, hne]
  · refine ⟨{ h with userAgent := v }, by simp +decide [OutHeader.setSpecialHeader, hK, hs], ?_, ?_⟩
    · simp [fields, frontLines, lineIf, userAgentValue, hs, hK, hne]
    · have hg : Settled { h with userAgent := v } := { hh with userAgent := hv.no_lf }
      rw [hg.tally_fields hk, tally_frontLines]
      simp +decide [hK, hs, hzero, userAgentValue, hne]

theorem resetConnectionClose_entries (h : OutHeader) (hK : initHeaderK k false = strConnection) :
    h.resetConnectionClose.connectionClose = false ∧ strays k h.resetConnectionClose.h = strays k h.h ∧
      entries k h.resetConnectionClose.h = if h.connectionClose then 0 else entries k h.h := by
  unfold resetConnectionClose
  rcases hc : h.connectionClose with _ | _
  · simp [hc]
  · simp only [if_true]
    rw [← hK]
    exact ⟨trivial, strays_delAllArgs k h.h, entries_delAllArgs k h.h⟩

theorem Settled.set_fields (hh : h.Settled) (hk : Settable k) (hv : PlainValue v) :
    (initHeaderK k false, v) ∈ (h.set k v).fields ∧ (tally k (h.set k v).fields = 1 ↔ h.Ready k v) := by
  rw [OutHeader.set, hh.normalizing, hv.initHeaderV, OutHeader.setCanonical, Ready, ← strays_eq_zero]
  simp only [sameName_connection]
  by_cases hgen : h.disableSpecialHeader = true ∨ initHeaderK k false ∉ fieldNames ∧ initHeaderK k false ≠ strConnection
  · have hnot : ¬ (h.disableSpecialHeader = false ∧ initHeaderK k false = strConnection) := by
      rintro ⟨hs, hK⟩
      simp [hs, hK] at hgen
    obtain ⟨hmem, htally⟩ := hh.setNonSpecial_fields hk hv fun hs => (hgen.resolve_left (by simp [hs])).1
    rw [setSpecialHeader_generic hk hgen, Option.getD_none, htally, if_neg hnot, if_neg fun h => hnot ⟨h.1.2, h.2⟩]
    exact ⟨hmem, by omega⟩
  · obtain ⟨hs, hspecial⟩ := not_or.mp hgen
    rw [Bool.not_eq_true] at hs
    by_cases hfield : initHeaderK k false ∈ fieldNames
    · obtain ⟨g, hg, hmem, htally⟩ := hh.setField_fields hk hv hs hfield
      have hK : initHeaderK k false ≠ strConnection := by
        intro hK
        rw [hK] at hfield
        exact absurd hfield (by decide)
      rw [hg, Option.getD_some, htally, if_neg fun h => hK h.2, entries_eq_zero (hh.generic hs) hfield]
      exact ⟨hmem, by omega⟩
    · have hK : initHeaderK k false = strConnection := by
        by_contra hK
        exact hspecial ⟨hfield, hK⟩
      rw [if_pos ⟨hs, hK⟩, hK, setSpecialHeader_connection hs, Option.getD_some, ← hK]
      split
      · next hclose =>
        have hg : Settled { h with connectionClose := true } := { hh with }
        refine ⟨by simp [fields, backLines, lineIf, hs, hK, hclose], ?_⟩
        rw [hg.tally_fields hk, tally_frontLines]
        simp +decide [hK, hs]
        omega
      · obtain ⟨hflag, hstrays, hentries⟩ := h.resetConnectionClose_entries hK
        obtain ⟨hmem, htally⟩ := hh.resetConnectionClose.setNonSpecial_fields hk hv fun _ => hfield
        refine ⟨hmem, ?_⟩
        rw [htally, hflag, hstrays, hentries]
        rcases h.connectionClose with _ | _
        · simp
          omega
        · simp

end OutHeader

/-! ## Responses -/

theorem tally_delAllArgs (hk : Settable k) (hname : name ∈ managedNames) (kvs : List ArgsKV) :
    tally k ((delAllArgs kvs name).map fun kv => (kv.key, kv.value)) = tally k (kvs.map fun kv => (kv.key, kv.value)) := by
  have hzero : linesOf k name = 0 := by
    rw [linesOf_token (known_names name (mem_append_right _ hname)).1]
    exact if_neg (hk.not_managed hname)
  unfold tally
  rw [map_map, map_map]
  exact sum_delAllArgs (fun kv heq => (congrArg (linesOf k) heq.symm).trans hzero) kvs

namespace ResponseHeader

def Ready (h : ResponseHeader) (k v : Bytes) : Prop :=
  Apart k h.h ∧
  if SameName k strConnection then
    if v = strClose then entries k h.h = 0 else (h.connectionClose = true ∨ entries k h.h ≤ 1) ∧ -1 ≤ h.contentLength
  else entries k h.h ≤ 1

instance (h : ResponseHeader) (k v : Bytes) : Decidable (h.Ready k v) := inferInstanceAs (Decidable (_ ∧ _))

def fieldNames : List Bytes := [strContentType, strContentEncoding, strServer]

structure Settled (h : ResponseHeader) : Prop where
  normalizing : h.disableNormalizing = false
  statusCode : h.statusCode = 0
  headMethod : h.headMethod = false
  protocol : h.protocol = []
  statusMessage : h.statusMessage = []
  contentType : nChar ∉ h.contentType
  contentEncoding : nChar ∉ h.contentEncoding
  server : nChar ∉ h.server
  values : ∀ kv ∈ h.h, nChar ∉ kv.value
  generic : ∀ kv ∈ h.h, kv.key ∉ fieldNames
  trailer : h.trailer = []
  cookies : ∀ kv ∈ h.cookies, nChar ∉ kv.value

variable {h : ResponseHeader}

theorem Settled.sub (hh : h.Settled) (list : List ArgsKV) (hl : list ⊆ h.h) : Settled { h with h := list } :=
  { hh with values := fun kv hkv => hh.values kv (hl hkv), generic := fun kv hkv => hh.generic kv (hl hkv) }

theorem Settled.setNonSpecial (hh : h.Settled) {key value : Bytes} (hkey : key ∉ fieldNames) (hv : nChar ∉ value) :
    (h.setNonSpecial key value).Settled := by
  exact { hh with values := forall_setArg hh.values hv, generic := forall_setArg hh.generic hkey }

theorem Settled.resetConnectionClose (hh : h.Settled) : h.resetConnectionClose.Settled := by
  unfold ResponseHeader.resetConnectionClose
  split
  · have hsub := hh.sub (delAllArgs h.h strConnection) (filter_subset_self _)
    exact { hsub with }
  · exact hh

theorem Settled.setSpecialHeader (hh : h.Settled) {key value : Bytes} {g : ResponseHeader} (hkey : key ≠ strTrailer)
    (hv : nChar ∉ value) (hg : h.setSpecialHeader key value set = some g) : g.Settled := by
  refine setSpecialHeader_rule Settled hg hh { hh with contentType := hv } { hh with } { hh with contentEncoding := hv } { hh with }
    (fun hconn => hh.resetConnectionClose.setNonSpecial ?_ hv) { hh with server := hv } ?_ (fun h => absurd h hkey)
  · rw [hconn]
    decide
  · refine { hh with cookies := forall_mem_append.mpr ⟨?_, by simpa using hv⟩ }
    split
    · simp
    · exact hh.cookies

theorem setSpecialHeader_connection (h : ResponseHeader) (value : Bytes) (set : Bool) : h.setSpecialHeader strConnection value set =
    some (if value = strClose then { h with connectionClose := true }
      else h.resetConnectionClose.setNonSpecial strConnection value) := by
  simp +decide [setSpecialHeader]

theorem setSpecialHeader_none {key value : Bytes} (hnone : h.setSpecialHeader key value set = none) : key ∉ fieldNames := by
  intro hmem
  simp only [fieldNames, mem_cons, not_mem_nil, or_false] at hmem
  rcases hmem with rfl | rfl | rfl <;> simp +decide [setSpecialHeader] at hnone

theorem Settled.setCanonical (hh : h.Settled) {key value : Bytes} (hkey : key ≠ strTrailer) (hv : nChar ∉ value) :
    (h.setCanonical key value).Settled := by
  unfold ResponseHeader.setCanonical
  rcases hs : h.setSpecialHeader key value true with _ | g
  · exact hh.setNonSpecial (setSpecialHeader_none hs) hv
  · exact hh.setSpecialHeader hkey hv hs

theorem Settled.addCanonical (hh : h.Settled) {key value : Bytes} (hkey : key ≠ strTrailer) (hv : nChar ∉ value) :
    (h.addCanonical key value).Settled := by
  unfold ResponseHeader.addCanonical
  rcases hs : h.setSpecialHeader key value false with _ | g
  · refine { hh with values := ?_, generic := ?_ }
    · exact forall_mem_append.mpr ⟨hh.values, by simpa using hv⟩
    · exact forall_mem_append.mpr ⟨hh.generic, by simpa using setSpecialHeader_none hs⟩
  · exact hh.setSpecialHeader hkey hv hs

theorem Settled.delSpecial (hh : h.Settled) (key : Bytes) : (h.delSpecial key).Settled := by
  have hnil : nChar ∉ ([] : Bytes) := by simp
  unfold ResponseHeader.delSpecial
  split_ifs
  · exact { hh with contentType := hnil }
  · exact { hh with contentEncoding := hnil }
  · exact { hh with server := hnil }
  · exact { hh with cookies := by simp }
  · exact { hh with }
  · exact { hh with }
  · exact { hh with trailer := rfl }
  · exact hh

theorem Settled.edit (hh : h.Settled) {e : HeaderEdit} (he : ¬ SameName e.key strTrailer) : (h.edit e).Settled := by
  have hkey : initHeaderK e.key h.disableNormalizing ≠ strTrailer := by
    rw [hh.normalizing]
    exact HeaderEdit.initHeaderK_ne_trailer he
  match e with
  | .set key value => exact hh.setCanonical hkey (initHeaderV_no_lf value)
  | .add key value => exact hh.addCanonical hkey (initHeaderV_no_lf value)
  | .del key => exact (hh.delSpecial _).sub _ (filter_subset_self _)

theorem fresh_settled (n t : Bool) : (fresh false n t).Settled := by
  constructor <;> simp [fresh, zero]

theorem Settled.edits (hh : h.Settled) {edits : List HeaderEdit} (he : ∀ e ∈ edits, ¬ SameName e.key strTrailer) :
    (edits.foldl ResponseHeader.edit h).Settled := edits.foldlRecOn _ hh fun _ hh e hmem => hh.edit (he e hmem)

def sentFields (h : ResponseHeader) (date : Bytes) (compressed : Bool) : List (Bytes × Bytes) :=
  h.plainFields date compressed ++ lineIf (h.appended.connectionClose = true) strConnection strClose

theorem Settled.linesNamed (hh : h.Settled) (date : Bytes) (compressed : Bool) (k : Bytes) :
    linesNamed k (h.appendBytes date compressed) = (h.sentFields date compressed).flatMap fun f =>
      linesNamed k (headerLine f ++ [rChar]) := by
  have hfirst : h.statusLine = ascii "HTTP/1.1 200 OK" ++ strCRLF := by
    simp only [statusLine, protocolValue, hh.statusCode, hh.protocol, hh.statusMessage]
    decide
  have hblock : h.appendBytes date compressed =
      (ascii "HTTP/1.1 200 OK" :: (h.sentFields date compressed).map headerLine).flatMap (· ++ strCRLF) ++
        if compressed then [] else strCRLF := by
    simp [sentFields, appendBytes, hfirst, appendHeaderLine_eq, flatMap_map]
  rw [hblock, linesNamed_header (by decide) (by decide)]
  cases compressed
  · exact .inr rfl
  · exact .inl rfl

theorem Settled.sent (hh : h.Settled) : h.mustSkipContentLength = false ∧ h.sentTrailer = [] ∧
    h.endsWithConn = decide (h.contentLength < -1) := by
  have hskip : h.mustSkipContentLength = false := by simp [mustSkipContentLength, hh.statusCode]
  exact ⟨hskip, by simp [sentTrailer, hh.trailer], by simp [endsWithConn, hskip, hh.headMethod]⟩

theorem Settled.fields_values (hh : h.Settled) {date : Bytes} (hd : nChar ∉ date) (compressed : Bool) :
    ∀ f ∈ h.sentFields date compressed, nChar ∉ f.2 := by
  have hcontent := contentLines_whole hh.contentType hh.contentEncoding compressed
  have hgeneric : ∀ f ∈ h.genericLines, nChar ∉ f.2 := by
    intro f hf
    obtain ⟨kv, hkv, rfl⟩ := mem_map.mp hf
    exact hh.values kv (mem_of_mem_filter (mem_of_mem_filter hkv))
  unfold sentFields plainFields
  simp only [forall_mem_append]
  exact ⟨⟨⟨⟨⟨⟨forall_lineIf fun _ => hh.server, forall_lineIf fun _ => hd⟩, fun f hf => (hcontent f hf).2⟩, hgeneric⟩,
    forall_lineIf fun hif => absurd hh.sent.2.1 hif⟩, forall_mem_map.mpr hh.cookies⟩, forall_lineIf fun _ => by decide⟩

theorem Settled.tally_fields (hh : h.Settled) (hk : Settable k) (date : Bytes) (compressed : Bool) :
    tally k (h.sentFields date compressed) =
      (if h.server ≠ [] ∧ initHeaderK k false = strServer then 1 else 0) +
      (if (h.contentTypeValue ≠ [] ∧ (h.contentType ≠ [] ∨ h.contentLength ≠ 0)) ∧
        initHeaderK k false = strContentType then 1 else 0) +
      (if h.contentEncoding ≠ [] ∧ initHeaderK k false = strContentEncoding then 1 else 0) +
      (entries k h.h + strays k h.h) +
      if (h.connectionClose || decide (h.contentLength < -1)) = true ∧ initHeaderK k false = strConnection then 1 else 0 := by
  obtain ⟨hskip, htrailer, hends⟩ := hh.sent
  have hgeneric : tally k h.genericLines = entries k h.h + strays k h.h := by
    have hlist : h.genericLines = (delAllArgs h.h strTransferEncoding).map fun kv => (kv.key, kv.value) := by
      simp [genericLines, htrailer]
    rw [hlist, tally_delAllArgs hk (by decide), tally_entries hk.toToken]
  have hcookies : tally k (h.cookies.map fun kv => (strSetCookie, kv.value)) = 0 := by
    have hzero : linesOf k strSetCookie = 0 := by
      rw [linesOf_token (known_names _ (by decide)).1]
      exact if_neg (hk.not_managed (by decide))
    simp [tally, Function.comp_def, hzero]
  unfold sentFields plainFields contentLines appended
  simp only [hskip, Bool.false_eq_true, if_false, tally_append, hends]
  rw [tally_known (by decide), tally_managed hk (by decide), tally_known (by decide), tally_known (by decide),
    tally_managed hk (by decide), tally_managed hk (by decide), tally_managed hk (by decide), tally_managed hk (by decide),
    tally_known (by decide)]
  omega

theorem Settled.setNonSpecial_fields (hh : h.Settled) (hk : Settable k) (hv : PlainValue v) (hkey : initHeaderK k false ∉ fieldNames)
    (date : Bytes) (compressed : Bool) :
    let g := h.setNonSpecial (initHeaderK k false) v
    (initHeaderK k false, v) ∈ g.sentFields date compressed ∧
    tally k (g.sentFields date compressed) = max 1 (entries k h.h) + strays k h.h +
      if (h.connectionClose || decide (h.contentLength < -1)) = true ∧ initHeaderK k false = strConnection then 1 else 0 := by
  intro g
  have hg : g.Settled := hh.setNonSpecial hkey hv.no_lf
  constructor
  · obtain ⟨kv, hmem, hkv, hval⟩ := mem_setArg h.h (initHeaderK k false) v
    have hkeep : kv ∈ delAllArgs g.h strTransferEncoding := by
      refine mem_filter.mpr ⟨hmem, ?_⟩
      simpa [hkv] using (hk.ne_managed strTransferEncoding (by decide)).symm
    have hgen : (initHeaderK k false, v) ∈ g.genericLines :=
      mem_map.mpr ⟨kv, mem_filter.mpr ⟨hkeep, by simp [hg.sent.2.1]⟩, by rw [hkv, hval]⟩
    simp [sentFields, plainFields, hgen]
  · simp only [fieldNames, mem_cons, not_mem_nil, or_false, not_or] at hkey
    rw [hg.tally_fields hk, if_neg fun h => hkey.2.2 h.2, if_neg fun h => hkey.1 h.2, if_neg fun h => hkey.2.1 h.2,
      show g.h = setArg h.h (initHeaderK k false) v false from rfl, entries_setArg, strays_setArg, Nat.zero_add]
    rfl

theorem setSpecialHeader_generic (hk : Settable k) (hfield : initHeaderK k false ∉ fieldNames)
    (hconn : initHeaderK k false ≠ strConnection) (h : ResponseHeader) (value : Bytes) (set : Bool) :
    h.setSpecialHeader (initHeaderK k false) value set = none := by
  unfold setSpecialHeader
  split
  · rfl
  · simp only [fieldNames, mem_cons, not_mem_nil, or_false, not_or] at hfield
    rw [if_neg hfield.1, if_neg (hk.ne_managed strContentLength (by decide)), if_neg hfield.2.1, if_neg hfield.2.2,
      if_neg (hk.ne_managed strSetCookie (by decide)), if_neg (hk.ne_managed strTransferEncoding (by decide)),
      if_neg (hk.ne_managed strTrailer (by decide)), if_neg (hk.ne_managed strDate (by decide))]

theorem Settled.setField_fields (hh : h.Settled) (hk : Settable k) (hv : PlainValue v) (hfield : initHeaderK k false ∈ fieldNames)
    (date : Bytes) (compressed : Bool) : ∃ g, h.setSpecialHeader (initHeaderK k false) v true = some g ∧
      (initHeaderK k false, v) ∈ g.sentFields date compressed ∧ tally k (g.sentFields date compressed) = 1 + strays k h.h := by
  have hzero := entries_eq_zero hh.generic hfield
  have hne := hv.ne_nil
  simp only [fieldNames, mem_cons, not_mem_nil, or_false] at hfield
  rcases hfield with hK | hK | hK
  · have hg : Settled { h with contentType := v } := { hh with contentType := hv.no_lf }
    refine ⟨{ h with contentType := v }, by simp +decide [ResponseHeader.setSpecialHeader, hK], ?_, ?_⟩
    · simp [sentFields, plainFields, hg.sent.1, contentLines, lineIf, contentTypeValue, hK, hne]
    · rw [hg.tally_fields hk]
      simp +decide [hK, hzero, contentTypeValue, hne]
  · have hg : Settled { h with contentEncoding := v } := { hh with contentEncoding := hv.no_lf }
    refine ⟨{ h with contentEncoding := v }, by simp +decide [ResponseHeader.setSpecialHeader, hK], ?_, ?_⟩
    · simp [sentFields, plainFields, hg.sent.1, contentLines, lineIf, hK, hne]
    · rw [hg.tally_fields hk]
      simp +decide [hK, hzero, hne]
  · have hg : Settled { h with server := v } := { hh with server := hv.no_lf }
    refine ⟨{ h with server := v }, by simp +decide [ResponseHeader.setSpecialHeader, hK], ?_, ?_⟩
    · simp [sentFields, plainFields, lineIf, hK, hne]
    · rw [hg.tally_fields hk]
      simp +decide [hK, hzero, hne]

theorem resetConnectionClose_entries (h : ResponseHeader) (hK : initHeaderK k false = strConnection) :
    h.resetConnectionClose.connectionClose = false ∧ h.resetConnectionClose.contentLength = h.contentLength ∧
      strays k h.resetConnectionClose.h = strays k h.h ∧
      entries k h.resetConnectionClose.h = if h.connectionClose then 0 else entries k h.h := by
  unfold resetConnectionClose
  rcases hc : h.connectionClose with _ | _
  · simp [hc]
  · simp only [if_true]
    rw [← hK]
    exact ⟨trivial, trivial, strays_delAllArgs k h.h, entries_delAllArgs k h.h⟩

theorem Settled.set_fields (hh : h.Settled) (hk : Settable k) (hv : PlainValue v) (date : Bytes) (compressed : Bool) :
    (initHeaderK k false, v) ∈ (h.set k v).sentFields date compressed ∧
      (tally k ((h.set k v).sentFields date compressed) = 1 ↔ h.Ready k v) := by
  rw [ResponseHeader.set, hh.normalizing, hv.initHeaderV, ResponseHeader.setCanonical, Ready, ← strays_eq_zero]
  simp only [sameName_connection]
  by_cases hfield : initHeaderK k false ∈ fieldNames
  · obtain ⟨g, hg, hmem, htally⟩ := hh.setField_fields hk hv hfield date compressed
    have hK : initHeaderK k false ≠ strConnection := by
      intro hK
      rw [hK] at hfield
      exact absurd hfield (by decide)
    rw [hg, Option.getD_some, if_neg hK, entries_eq_zero hh.generic hfield]
    exact ⟨hmem, by omega⟩
  · by_cases hK : initHeaderK k false = strConnection
    · rw [hK, setSpecialHeader_connection, Option.getD_some, ← hK]
      split
      · next hclose =>
        have hg : Settled { h with connectionClose := true } := { hh with }
        refine ⟨by simp [sentFields, appended, lineIf, hK, hclose], ?_⟩
        rw [hg.tally_fields hk]
        simp +decide [hK]
        omega
      · obtain ⟨hflag, hlength, hstrays, hentries⟩ := h.resetConnectionClose_entries hK
        obtain ⟨hmem, htally⟩ := hh.resetConnectionClose.setNonSpecial_fields hk hv hfield date compressed
        refine ⟨hmem, ?_⟩
        rw [htally, hflag, hlength, hentries]
        by_cases hlen : h.contentLength < -1
        · simp [hK, hlen]
        · rcases h.connectionClose with _ | _
          · simp [hlen]
            omega
          · simp [hlen]
            omega
    · obtain ⟨hmem, htally⟩ := hh.setNonSpecial_fields hk hv hfield date compressed
      rw [setSpecialHeader_generic hk hfield hK, Option.getD_none, htally, if_neg hK, if_neg fun h => hK h.2]
      exact ⟨hmem, by omega⟩

end ResponseHeader

/-! ## The line that is set -/

/-- After any history, `Set` leaves one line of its name, with its value, exactly when the header was
ready for it. -/
theorem set_oneLine_iff (disableSpecialHeader noDefaultContentType noDefaultDate compressed : Bool) (now : UTCTime)
    {edits : List HeaderEdit} (hedits : ∀ e ∈ edits, ¬ SameName e.key strTrailer) (hk : Settable k) (hv : PlainValue v) :
    (let h := edits.foldl OutHeader.edit (.fresh false disableSpecialHeader noDefaultContentType)
     OneLine k v (h.set k v).appendBytes ↔ h.Ready k v) ∧
    let h := edits.foldl ResponseHeader.edit (.fresh false noDefaultContentType noDefaultDate)
    OneLine k v ((h.set k v).appendBytes (appendHTTPDate now) compressed) ↔ h.Ready k v := by
  have hname : Token (initHeaderK k false) ∧ SameName (initHeaderK k false) k := ⟨hk.initHeaderK false, initHeaderK_lower k false⟩
  have hset : ¬ SameName (HeaderEdit.set k v).key strTrailer := hk.free _ (by decide)
  constructor
  · intro h
    have hh : h.Settled := (OutHeader.fresh_settled _ _).edits hedits
    have hg : (h.set k v).Settled := hh.edit hset
    obtain ⟨hmem, htally⟩ := hh.set_fields hk hv
    rw [← htally]
    exact oneLine_iff hg.fields_values hname.1 hname.2 hmem (hg.linesNamed k)
  · intro h
    have hh : h.Settled := (ResponseHeader.fresh_settled _ _).edits hedits
    have hg : (h.set k v).Settled := hh.edit hset
    obtain ⟨hmem, htally⟩ := hh.set_fields hk hv (appendHTTPDate now) compressed
    rw [← htally]
    exact oneLine_iff (hg.fields_values (appendHTTPDate_no_lf now) compressed) hname.1 hname.2 hmem (hg.linesNamed _ _ k)

theorem set_oneLine_again :
    (let h := [HeaderEdit.set (ascii "a") (ascii "1")].foldl OutHeader.edit (.fresh false false false)
     h.Ready (ascii "A") (ascii "2") ∧ OneLine (ascii "A") (ascii "2") (h.set (ascii "A") (ascii "2")).appendBytes) ∧
    let h := [HeaderEdit.set (ascii "a") (ascii "1")].foldl ResponseHeader.edit (.fresh false false true)
    let date := appendHTTPDate ⟨0, 1, 0, 2000, 0, 0, 0⟩
    h.Ready (ascii "A") (ascii "2") ∧ OneLine (ascii "A") (ascii "2") ((h.set (ascii "A") (ascii "2")).appendBytes date false) := by
  have hname : Settable (ascii "A") := ⟨⟨by decide, by decide +kernel⟩, by decide⟩
  have hvalue : PlainValue (ascii "2") := ⟨by decide, by decide, by decide⟩
  have hedits : ∀ e ∈ [HeaderEdit.set (ascii "a") (ascii "1")], ¬ SameName e.key strTrailer := by
    intro e he
    rw [mem_singleton.mp he]
    decide
  obtain ⟨hrequest, hresponse⟩ := set_oneLine_iff false false true false ⟨0, 1, 0, 2000, 0, 0, 0⟩ hedits hname hvalue
  exact ⟨⟨by decide +kernel, hrequest.mpr (by decide +kernel)⟩, by decide +kernel, hresponse.mpr (by decide +kernel)⟩

theorem not_oneLine {block : Bytes} (h : (linesNamed k block).length ≠ 1) : ¬ OneLine k v block := by
  rintro ⟨name, -, hone⟩
  exact h (by rw [hone]; rfl)

/-- `Set` takes the place of one of two entries, and a closed connection is announced next to the entry
that was there. -/
theorem set_leaves_two_lines :
    (let h := [HeaderEdit.add (ascii "A") (ascii "1"), .add (ascii "A") (ascii "2")].foldl OutHeader.edit (.fresh false false false)
     let block := (h.set (ascii "A") (ascii "3")).appendBytes
     block = ["GET / HTTP/1.1\r\n", "A: 3\r\n", "A: 2\r\n\r\n"].flatMap ascii ∧ ¬ OneLine (ascii "A") (ascii "3") block) ∧
    let h := [HeaderEdit.set strConnection strKeepAlive].foldl ResponseHeader.edit (.fresh false false true)
    let block := (h.set strConnection strClose).appendBytes (appendHTTPDate ⟨0, 1, 0, 2000, 0, 0, 0⟩) false
    block = ["HTTP/1.1 200 OK\r\n", "Content-Length: 0\r\n", "Connection: keep-alive\r\n", "Connection: close\r\n\r\n"].flatMap ascii ∧
      ¬ OneLine strConnection strClose block :=
  ⟨⟨by decide +kernel, not_oneLine (by decide +kernel)⟩, by decide +kernel, not_oneLine (by decide +kernel)⟩

end Fasthttp
