import Fasthttp.Header.Attempt
import Fasthttp.Request.Write
import Fasthttp.Request.Lines

/-!
# What holds of every request that was built

A length that is declared in digits, and trailers that name no transfer coding: the operations keep this
(`OutRequest.built_sound`), whatever is read.
-/

namespace Fasthttp

open Bufio List

/-! ## Lengths and trailers -/

theorem isDigit_of_le : ∀ c : Byte, ¬ 9 < c - ch '0' → isDigit c = true := forall_byte (by decide +kernel)

theorem parseUintLoop_digits {i j : Nat} {v w : Int} {b : Bytes} (h : parseUintLoop i v b = (w, j, none)) :
    j ≤ i + b.length ∧ (j = i + b.length → ∀ c ∈ b, isDigit c = true) := by
  fun_induction parseUintLoop i v b with
  | case1 => simp_all
  | case2 => simp at h
  | case3 i v c b k hk hi =>
    simp only [Prod.mk.injEq] at h
    simp only [length_cons]
    exact ⟨by omega, fun hj => by omega⟩
  | case4 => simp at h
  | case5 i v c b k hk v' hv ih =>
    obtain ⟨hle, hall⟩ := ih h
    simp only [length_cons, mem_cons, forall_eq_or_imp]
    exact ⟨by omega, fun hj => ⟨isDigit_of_le c hk, hall (by omega)⟩⟩

theorem parseContentLength_digits {b : Bytes} (h : (parseContentLength b).2 = none) : b ≠ [] ∧ ∀ c ∈ b, isDigit c = true := by
  unfold parseContentLength at h
  split at h
  · simp at h
  · rename_i v n hp
    split at h
    · simp at h
    · unfold parseUintBuf at hp
      split at hp
      · simp at hp
      · rename_i hne
        have hdig := (parseUintLoop_digits hp).2 (by omega)
        exact ⟨by simpa using hne, hdig⟩

theorem addRequestTrailer_good {d : Bool} {t : List ArgsKV} {names : Bytes} {p : Bytes → Prop} (ht : ∀ kv ∈ t, p kv.key)
    (hp : ∀ key, isBadTrailer key d = false → p key) : ∀ kv ∈ (addRequestTrailer d t names).1, p kv.key := by
  unfold addRequestTrailer
  refine foldlRecOn (motive := fun te : List ArgsKV × Option Err => ∀ kv ∈ te.1, p kv.key) _ _ ht fun te hte key _ => ?_
  simp only
  split
  · exact hte
  · rename_i hbad
    exact forall_mem_append.mpr ⟨hte, by simpa using hp _ (by simpa using hbad)⟩

theorem ne_transferEncoding {d : Bool} {key : Bytes} (h : isBadTrailer key d = false) : key ≠ strTransferEncoding := by
  rintro rfl
  cases d <;> revert h <;> decide

/-! ## Headers -/

namespace RequestHeader

structure Sound (h : RequestHeader) : Prop where
  special : h.disableSpecialHeader = false
  digits : ∀ c ∈ h.contentLengthBytes, isDigit c = true
  length : 0 < h.contentLength → h.contentLengthBytes ≠ []
  trailer : ∀ t ∈ h.trailer, t.key ≠ strTransferEncoding

variable {h : RequestHeader}

theorem Sound.declare (hh : h.Sound) {value : Bytes} (hv : (parseContentLength value).2 = none) :
    { h with contentLength := (parseContentLength value).1, contentLengthBytes := value }.Sound :=
  have hd := parseContentLength_digits hv
  ⟨hh.special, hd.2, fun _ => hd.1, hh.trailer⟩

theorem Sound.trailers (hh : h.Sound) (names : Bytes) :
    { h with trailer := (addRequestTrailer h.disableNormalizing [] names).1 }.Sound :=
  ⟨hh.special, hh.digits, hh.length, addRequestTrailer_good (by simp) fun _ => ne_transferEncoding⟩

theorem Sound.withContentLength (hh : h.Sound) (n : Int) : (h.withContentLength n).Sound := by
  unfold RequestHeader.withContentLength
  split
  · exact ⟨hh.special, isDigit_toDigits _, fun _ => by simp, hh.trailer⟩
  · exact ⟨hh.special, by simp, fun hpos => absurd hpos (by simp only at hpos ⊢; omega), hh.trailer⟩

theorem Sound.undeclared (hh : h.Sound) (n : Int) (hn : n ≤ 0) : { h with contentLength := n }.Sound :=
  ⟨hh.special, hh.digits, fun hpos => absurd hpos (by simp only; omega), hh.trailer⟩

/-! ## Reading -/

theorem parseContentLength_error {b : Bytes} (h : (parseContentLength b).2 ≠ none) : (parseContentLength b).1 = -1 := by
  unfold parseContentLength at h ⊢
  split
  · rfl
  · split
    · rfl
    · rename_i hp hn
      simp [hp, hn] at h

section

variable (hh : h.Sound)
include hh

theorem Sound.setContentLength (value : Bytes) : (h.setContentLength value).1.Sound := by
  unfold RequestHeader.setContentLength
  split
  · exact hh
  have hs : { h with contentLengthSeen := true }.Sound := { hh with }
  simp only
  split
  · exact hs
  · split
    · rename_i he
      have herr := parseContentLength_error (b := value) (by simpa [Option.isSome_iff_ne_none] using he)
      exact hs.undeclared _ (by omega)
    · rename_i he
      exact hs.declare (by simpa using he)

theorem Sound.setConnection (key value : Bytes) : (h.setConnection key value).Sound := by
  unfold RequestHeader.setConnection
  split <;> exact { hh with }

theorem Sound.setTransferEncoding (value : Bytes) : (h.setTransferEncoding value).1.Sound := by
  unfold RequestHeader.setTransferEncoding
  split
  · have hs := hh.undeclared (-1) (by omega)
    exact { hs with }
  · exact hh

theorem Sound.specialField (key value : Bytes) : (h.specialField key value).1.Sound := by
  have hother : ∀ host userAgent contentType list,
      { h with host := host, userAgent := userAgent, contentType := contentType, h := list }.Sound :=
    fun _ _ _ _ => { hh with }
  unfold RequestHeader.specialField
  simp only
  repeat' split
  · exact hother _ _ _ _
  · exact hother _ _ _ _
  · exact hother _ _ _ _
  · exact hh.setContentLength value
  · exact hh.setConnection key value
  · exact hh.setTransferEncoding value
  · exact hh.trailers value
  · exact hother _ _ _ _

theorem Sound.parseField (key value : Bytes) : (h.parseField key value).1.Sound := by
  unfold RequestHeader.parseField
  repeat' split
  · exact hh
  · exact hh
  · exact hh
  · exact { hh with }
  · exact hh.specialField key value

theorem Sound.parseHeaders (buf : Bytes) : (h.parseHeaders buf).1.Sound := by
  have hstart : h.start.Sound := ⟨hh.special, hh.digits, fun hpos => absurd hpos (by simp [start]), hh.trailer⟩
  have hscan : (Scanner.scanAll RequestHeader.parseField (Scanner.new buf h.disableNormalizing) h.start).1.Sound :=
    Scanner.scanAll_keeps (fun _ k v hp => hp.parseField k v) _ _ hstart
  unfold RequestHeader.parseHeaders
  split
  · rename_i hs
    rwa [hs] at hscan
  · rename_i h' s hs
    rw [hs] at hscan
    refine ⟨hscan.special, ?_, fun hpos => ?_, hscan.trailer⟩
    · simp only [finish]
      split
      · simp
      · exact hscan.digits
    · simp only [finish] at hpos ⊢
      rw [if_neg (by omega)]
      exact hscan.length hpos

theorem Sound.parseFirstLine (buf : Bytes) : (h.parseFirstLine buf).1.Sound := by
  unfold RequestHeader.parseFirstLine
  split
  · exact hh
  · simp only
    repeat' split
    · exact hh
    · exact hh
    · exact hh
    · exact hh
    · exact { hh with }

theorem Sound.parse (buf : Bytes) : (h.parse buf).1.Sound := by
  have hline : (h.requestLine buf).1.Sound := by
    unfold requestLine
    split
    · exact hh.parseFirstLine buf
    · exact hh
  unfold RequestHeader.parse
  rcases hl : h.requestLine buf with ⟨h', e | m⟩ <;> rw [hl] at hline
  · exact hline
  · have hraw : ∀ b, (h'.keepRaw b).Sound := fun b => { hline with }
    simp only
    repeat' split
    · exact hline
    · exact hraw _
    · exact (hraw _).parseHeaders _

theorem Sound.read (r : Reader Byte Err) : (h.read r).2.1.Sound := by
  have hrule : loop.Rule (fun s _ => s.Sound) (fun _ s _ => s.Sound) := by
    have hparse : ∀ {s s' : RequestHeader} {b mem : Bytes} {o : Except Err Nat}, s.Sound → loop.parse s b = (s', mem, o) →
        s'.Sound := fun {s s' b mem o} hs hp => by
      have := hs.parse b
      change s.parse b = _ at hp
      rwa [hp] at this
    exact ⟨fun _ _ _ _ _ hs hp => hparse hs hp, fun _ _ _ _ _ hs hp _ => hparse hs hp, fun _ _ _ _ hs hp _ => hparse hs hp,
      fun _ _ _ _ hs hp _ _ => hparse hs hp, fun _ _ _ _ hs hp _ _ => hparse hs hp⟩
  have hreset : h.resetSkipNormalize.Sound := ⟨hh.special, by simp [resetSkipNormalize, zero],
    by simp [resetSkipNormalize, zero], by simp [resetSkipNormalize, zero]⟩
  exact Retry.Loop.read_rule hrule parse_inPlace _ r (fun _ => hreset) (fun _ _ => hreset) (fun _ _ => hreset)

theorem Sound.withList (list : List ArgsKV) : { h with h := list }.Sound :=
  { hh with }

theorem Sound.readTrailer (r : Reader Byte Err) : (h.readTrailer r).2.1.Sound := hh.withList _

end

end RequestHeader

namespace Request

variable {req : Request} (hh : req.header.Sound)
include hh

theorem readBodyBytes_sound (r : Reader Byte Err) (contentLength maxBodySize : Int) (cap : Nat) :
    (req.readBodyBytes r contentLength maxBodySize cap).2.1.header.Sound := by
  unfold readBodyBytes
  simp only
  split
  · exact hh
  split
  · exact hh
  split
  · split
    · exact hh.withContentLength 0
    · exact hh
  · exact hh.withContentLength (readBodyIdentity r maxBodySize cap).1.length

theorem readBody_sound (m : MultipartParser) (r : Reader Byte Err) (maxBodySize : Int) (pre : Bool) (cap : Nat) :
    (req.readBody m r maxBodySize pre cap).2.1.header.Sound := by
  have hbytes := readBodyBytes_sound hh r req.header.contentLength maxBodySize cap
  unfold readBody
  simp only
  split
  · exact hh
  split
  · exact hh
  split
  · exact hh
  split
  · rename_i hb
    rwa [hb] at hbytes
  · rename_i hb
    rw [hb] at hbytes
    split
    · exact hbytes.readTrailer _
    · exact hbytes

end Request

/-! ## Setters -/

namespace OutHeader

variable {h : OutHeader} (hh : h.Sound)
include hh

theorem setNonSpecial_sound (key value : Bytes) : (h.setNonSpecial key value).Sound := hh.withList _

theorem resetConnectionClose_sound : h.resetConnectionClose.Sound := by
  unfold resetConnectionClose
  split
  · exact { hh with }
  · exact hh

theorem collectCookies_sound : h.collectCookies.Sound := by
  unfold collectCookies
  split
  · exact hh
  · exact hh.withList _

theorem setSpecialHeader_sound {key value : Bytes} {set : Bool} {g : OutHeader} (hg : h.setSpecialHeader key value set = some g) :
    g.Sound := by
  have hother : ∀ host userAgent contentType connectionClose,
      { h with host := host, userAgent := userAgent, contentType := contentType, connectionClose := connectionClose }.Sound :=
    fun _ _ _ _ => { hh with }
  refine setSpecialHeader_rule (fun g => g.Sound) hg hh (hother _ _ _ _)
    (fun hv => hh.declare (Option.isNone_iff_eq_none.mp hv)) (hother _ _ _ _)
    (fun _ => setNonSpecial_sound (resetConnectionClose_sound hh) _ _) ?_ (fun _ => hh.trailers value) (hother _ _ _ _)
    (hother _ _ _ _)
  exact collectCookies_sound hh

theorem set_sound (key value : Bytes) : (h.set key value).Sound := by
  unfold set setCanonical
  rcases hs : h.setSpecialHeader (initHeaderK key h.disableNormalizing) (initHeaderV value) true with _ | g
  · exact setNonSpecial_sound hh _ _
  · exact setSpecialHeader_sound hh hs

theorem add_sound (key value : Bytes) : (h.add key value).Sound := by
  unfold add addCanonical
  rcases hs : h.setSpecialHeader (initHeaderK key h.disableNormalizing) (initHeaderV value) false with _ | g
  · exact hh.withList _
  · exact setSpecialHeader_sound hh hs

theorem del_sound (key : Bytes) : (h.del key).Sound := by
  have hother : ∀ host userAgent contentType connectionClose,
      { h with host := host, userAgent := userAgent, contentType := contentType, connectionClose := connectionClose }.Sound :=
    fun _ _ _ _ => { hh with }
  apply RequestHeader.Sound.withList
  unfold delSpecial
  repeat' split
  · exact hother _ _ _ _
  · exact hother _ _ _ _
  · exact hother _ _ _ _
  · exact hh
  · exact ⟨hh.special, by simp, by simp, hh.trailer⟩
  · exact hother _ _ _ _
  · exact ⟨hh.special, hh.digits, hh.length, by simp⟩
  · exact hh

theorem addTrailer_sound (names : Bytes) : (h.addTrailer names).Sound :=
  ⟨hh.special, hh.digits, hh.length, addRequestTrailer_good hh.trailer fun _ => ne_transferEncoding⟩

end OutHeader

/-! ## Requests -/

namespace OutRequest

variable {req : OutRequest} (hh : req.header.Sound)
include hh

theorem closeBodyStream_sound : req.closeBodyStream.header.Sound := by
  unfold closeBodyStream
  split
  · exact hh
  · split
    · exact hh.withList _
    · exact hh

theorem removeMultipartFormFiles_sound : req.removeMultipartFormFiles.header.Sound := hh

theorem resetBody_sound : req.resetBody.header.Sound := closeBodyStream_sound (removeMultipartFormFiles_sound hh)

theorem dropOtherBodies_sound : req.dropOtherBodies.header.Sound := by
  unfold dropOtherBodies
  split
  · exact closeBodyStream_sound (removeMultipartFormFiles_sound hh)
  · exact closeBodyStream_sound hh

theorem readBody_sound (i : Incoming) (r : Reader Byte Err) : (req.readBody i r).header.Sound := by
  unfold readBody
  split
  · unfold Request.readBodyStream
    simp only
    repeat' split
    all_goals exact hh
  · exact Request.readBody_sound hh _ _ _ _ _

theorem read_sound (i : Incoming) : (req.read i).header.Sound := by
  have hread := hh.read i.r
  unfold read
  simp only
  split
  · exact hread
  · split
    · exact resetBody_sound hread
    · exact readBody_sound (resetBody_sound hread) i _

theorem apply_sound (op : Op) : (req.apply op).header.Sound := by
  cases op with
  | set key value => exact OutHeader.set_sound hh key value
  | add key value => exact OutHeader.add_sound hh key value
  | del key => exact OutHeader.del_sound hh key
  | setContentLength n => exact hh.withContentLength n
  | setTrailer names => exact hh.trailers names
  | addTrailer names => exact OutHeader.addTrailer_sound hh names
  | setMethod | setRequestURI | setProtocol => exact { hh with }
  | setURI | setPostArgs => exact hh
  | setBody => exact dropOtherBodies_sound hh
  | appendBody => exact dropOtherBodies_sound hh
  | setBodyRaw => exact resetBody_sound hh
  | resetBody => exact resetBody_sound hh
  | setBodyStream s n => exact (resetBody_sound hh).withContentLength n
  | read i => exact read_sound hh i

omit hh in
theorem built_sound (o : RequestOptions) (ops : List Op) : (built o ops).header.Sound := by
  have hnew : (new o).header.Sound :=
    ⟨rfl, by simp [new, RequestHeader.zero], by simp [new, RequestHeader.zero], by simp [new, RequestHeader.zero]⟩
  refine Machine.exec_invariant (M := machine) (P := fun req => req.header.Sound) ?_ ops hnew
  rintro req op _ hreq ⟨⟩
  exact apply_sound hreq op

end OutRequest

end Fasthttp
