import Fasthttp.Body.ChunkSize
import Fasthttp.Body.Limit
import Fasthttp.Header.Wire

/-!
# The buffers of a body

The lengths for which `ReadBody` calls `make` when there is no limit.
-/

namespace Fasthttp

open Bufio Reader List

variable {cap m n : Nat}

def maxAlloc : Nat := 2 ^ 48

structure MakeCall where
  needed : Nat
  size : Int
  deriving DecidableEq, Repr

def MakeCall.Allowed (c : MakeCall) : Prop := 0 ≤ c.size ∧ c.size ≤ maxAlloc

instance (c : MakeCall) : Decidable c.Allowed := inferInstanceAs (Decidable (_ ∧ _))

/-- The sum is one of `int`s, and may have wrapped around. -/
def makeCall (needed : Nat) : MakeCall := ⟨needed, roundUpForSliceCap (int64 needed).toNat⟩

def appendCall (cap len n : Nat) : Option MakeCall :=
  let dstLen := int64 ((len + n : Nat) : Int)
  if n = 0 then none
  -- it is `dst[:dstLen]` that panics then
  else if dstLen < 0 then some ⟨len + n, dstLen⟩
  else if cap < dstLen then some (makeCall (len + n))
  else none

def capBehind (cap : Nat) : Option MakeCall → Option Nat
  | none => some cap
  | some c => if c.Allowed then some c.size.toNat else none

def behindChunk (r : Reader Byte Err) (dst : Bytes) (chunkSize : Nat) : Option (Bytes × Reader Byte Err) :=
  match appendBodyFixedSize r dst ((chunkSize + 2 : Nat) : Int) with
  | (_, some _, _) => none
  | (dst, none, r) => if dst.drop (dst.length - 2) ≠ strCRLF then none else some (dst.take (dst.length - 2), r)

def chunkCall (r : Reader Byte Err) (cap : Nat) (dst : Bytes) : Option MakeCall × Option (Reader Byte Err × Nat × Bytes) :=
  match parseChunkSize r with
  | (.error _, _) => (none, none)
  | (.ok chunkSize, r) =>
    if chunkSize = 0 then (none, none)
    else
      let call := appendCall cap dst.length (chunkSize + 2)
      (call, (capBehind cap call).bind fun cap => (behindChunk r dst chunkSize).map fun p => (p.2, cap, p.1))

def chunkCalls : Nat → Reader Byte Err → Nat → Bytes → List MakeCall
  | 0, _, _, _ => []
  | fuel + 1, r, cap, dst =>
    let p := chunkCall r cap dst
    p.1.toList ++ p.2.elim [] fun s => chunkCalls fuel s.1 s.2.1 s.2.2

def identityCalls : Nat → Identity → List MakeCall
  | 0, _ => []
  | fuel + 1, s =>
    match s.round 0 with
    | .inl _ => []
    | .inr s' =>
      if s.size = s'.dst.length then
        let c := makeCall (2 * s'.dst.length)
        c :: if c.Allowed then identityCalls fuel s' else []
      else identityCalls fuel s'

/-- The calls for a body of this length (-1: chunks, less: the rest of the stream) into a buffer of this capacity -/
def bodyCalls (contentLength : Int) (r : Reader Byte Err) (cap : Nat) : List MakeCall :=
  if 0 ≤ contentLength then (appendCall cap 0 contentLength.toNat).toList
  else if contentLength = -1 then chunkCalls (r.unread.length + 1) r cap []
  else identityCalls (r.unread.length + 1) (.start r cap)

/-- `ReadBody` without a limit. A form is parsed from the connection and not buffered. -/
def Request.calls (req : Request) (r : Reader Byte Err) (preParseMultipartForm : Bool) (cap : Nat) : List MakeCall :=
  if 0 < req.header.contentLength && req.preParse preParseMultipartForm then []
  else bodyCalls req.header.contentLength r cap

def Response.calls (resp : Response) (r : Reader Byte Err) (cap : Nat) : List MakeCall := bodyCalls resp.header.contentLength r cap

/-- `none` is the panic. -/
def Request.readBodyOrPanic (req : Request) (m : MultipartParser) (r : Reader Byte Err) (preParseMultipartForm : Bool) (cap : Nat) :
    Option (Option Err × Request × Reader Byte Err) :=
  if ∀ c ∈ req.calls r preParseMultipartForm cap, c.Allowed then some (req.readBody m r 0 preParseMultipartForm cap) else none

def Response.readBodyOrPanic (resp : Response) (r : Reader Byte Err) (cap : Nat) :
    Option (Option Err × Bytes × Response × Reader Byte Err) :=
  if ∀ c ∈ resp.calls r cap, c.Allowed then some (resp.readBody r 0 cap) else none

theorem roundUpForSliceCap_le_iff (n : Nat) : roundUpForSliceCap n ≤ maxAlloc ↔ n ≤ maxAlloc := by
  refine ⟨Nat.le_trans (le_roundUpForSliceCap n), fun hn => ?_⟩
  unfold roundUpForSliceCap
  split_ifs with hzero hlarge
  · exact Nat.zero_le _
  · exact hn
  · -- no bit is set above those of `n - 1`
    have hor : ∀ x k : Nat, x < 2 ^ 48 → x ||| x >>> k < 2 ^ 48 := fun x k hx =>
      Nat.or_lt_two_pow hx (Nat.lt_of_le_of_lt (Nat.shiftRight_le x k) hx)
    have hlt : n - 1 < 2 ^ 48 := by omega
    exact hor _ 16 (hor _ 8 (hor _ 4 (hor _ 2 (hor _ 1 hlt))))

def MakeCall.Exact (c : MakeCall) : Prop := c.size = roundUpForSliceCap c.needed

theorem MakeCall.Exact.allowed_iff {c : MakeCall} (h : c.Exact) : c.Allowed ↔ c.needed ≤ maxAlloc := by
  unfold Allowed
  rw [h, ← roundUpForSliceCap_le_iff]
  omega

theorem makeCall_exact (hn : n < 2 ^ 63) : (makeCall n).Exact := by
  unfold makeCall MakeCall.Exact
  rw [int64_of_lt hn]
  rfl

theorem appendCall_eq (cap : Nat) {len : Nat} (hpos : 0 < n) (hlt : len + n < 2 ^ 63) :
    appendCall cap len n = if cap < len + n then some (makeCall (len + n)) else none := by
  unfold appendCall
  rw [int64_of_lt hlt, if_neg (by omega), if_neg (by omega)]
  exact if_congr Int.ofNat_lt rfl rfl

theorem hexNumber_lt {d : Bytes} (hd : ∀ c ∈ d, isHex c = true) : hexNumber d < 16 ^ d.length := by
  induction d using reverseRecOn with
  | nil => decide
  | append_singleton d c ih =>
    have hc : hex2intTable c < 16 := hex2intTable_lt (hd c (by simp))
    have hlt := ih fun c hc => hd c (by simp [hc])
    unfold hexNumber at hlt ⊢
    rw [foldl_append, length_append, length_singleton, foldl_cons, foldl_nil]
    omega

theorem sizeLine_lt {t : Bytes} (h : sizeLine t = .size m n) : m < 16 ^ 15 := by
  obtain ⟨-, hle, -, rfl, -⟩ := (sizeLine_eq_size_iff t m n).mp h
  exact Nat.lt_of_lt_of_le (hexNumber_lt fun c => isHex_of_mem_sizeDigits) (Nat.pow_le_pow_right (by decide) hle)

structure Calls (calls : List MakeCall) (affordable : Prop) : Prop where
  exact : ∀ c ∈ calls, c.Exact
  iff : (∀ c ∈ calls, c.Allowed) ↔ affordable

namespace Calls

variable {calls : List MakeCall} {p q : Prop}

theorem nil (h : p) : Calls [] p := ⟨by simp, by simp [h]⟩

theorem congr (h : Calls calls p) (hpq : p ↔ q) : Calls calls q := ⟨h.exact, h.iff.trans hpq⟩

theorem cons {c : MakeCall} (hc : c.Exact) (h : c.Allowed → Calls calls p) :
    Calls (c :: if c.Allowed then calls else []) (c.needed ≤ maxAlloc ∧ p) := by
  rw [← hc.allowed_iff]
  by_cases hok : c.Allowed
  · rw [if_pos hok]
    exact ⟨forall_mem_cons.mpr ⟨hc, (h hok).exact⟩, by rw [forall_mem_cons, (h hok).iff]⟩
  · rw [if_neg hok]
    exact ⟨by simpa using hc, by simp [hok]⟩

end Calls

def callsBehind (fuel : Nat) (next : Option (Bytes × Reader Byte Err)) (cap : Nat) : List MakeCall :=
  next.elim [] fun p => chunkCalls fuel p.2 cap p.1

theorem chunkCalls_data {r r₁ : Reader Byte Err} (hp : parseChunkSize r = (.ok m, r₁)) (hm : 0 < m) (fuel cap : Nat) (dst : Bytes) :
    (appendCall cap dst.length (m + 2) = none → chunkCalls (fuel + 1) r cap dst = callsBehind fuel (behindChunk r₁ dst m) cap) ∧
    (∀ c, appendCall cap dst.length (m + 2) = some c → chunkCalls (fuel + 1) r cap dst =
      c :: if c.Allowed then callsBehind fuel (behindChunk r₁ dst m) c.size.toNat else []) := by
  unfold chunkCalls callsBehind chunkCall
  simp only [hp, Nat.ne_of_gt hm, if_false]
  refine ⟨fun hnone => ?_, fun c hsome => ?_⟩
  · rw [hnone]
    rcases behindChunk r₁ dst m with _ | p <;> rfl
  · rw [hsome]
    unfold capBehind
    by_cases hok : c.Allowed
    · rcases behindChunk r₁ dst m with _ | p <;> simp [hok]
    · simp [hok]

theorem calls_chunkCalls (fuel : Nat) (r : Reader Byte Err) {dst : Bytes} (hf : r.unread.length < fuel)
    (hcap : cap ≤ maxAlloc) (hdst : dst.length ≤ maxAlloc) :
    Calls (chunkCalls fuel r cap dst) (0 < announced r.unread → dst.length + announced r.unread + 2 ≤ maxAlloc) := by
  induction fuel generalizing r cap dst with
  | zero => omega
  | succ fuel ih =>
    have hsize := parseChunkSize_spec r
    rcases hs : sizeLine r.unread with ⟨m, n⟩ | _ | ⟨e, n⟩ <;> simp only [hs] at hsize <;> obtain ⟨r₁, hp, ht⟩ := hsize
    rotate_left
    iterate 2
      rw [announced_other (by simp [hs])]
      unfold chunkCalls chunkCall
      rewrite [hp]
      exact .nil (by simp)
    have hann := announced_size hs
    rcases Nat.eq_zero_or_pos m with rfl | hm
    · rw [hann]
      unfold chunkCalls chunkCall
      rewrite [hp]
      exact .nil (by simp)
    have hlt := sizeLine_lt hs
    have hsmall : dst.length + (m + 2) < 2 ^ 63 := by
      unfold maxAlloc at hdst
      omega
    have hexact := makeCall_exact hsmall
    -- what follows is the same whether there is a call or not
    have hbehind : ∀ cap ≤ maxAlloc, dst.length + m + 2 ≤ maxAlloc → Calls (callsBehind fuel (behindChunk r₁ dst m) cap)
        (dst.length + announced r.unread + 2 ≤ maxAlloc) := by
      intro cap hcap hfits
      rw [← drop_drop, ← ht.unread] at hann
      unfold behindChunk
      rcases appendBodyFixedSize_chunk r₁ dst m with ⟨hend, d, e, r₂, happ, hne⟩ | ⟨hend, d, r₂, happ, hlast, htake, hd⟩
      · rw [if_neg (by simp [hend])] at hann
        rw [happ]
        rcases e with _ | e
        · simp only [if_pos (hne rfl)]
          exact .nil (by omega)
        · exact .nil (by omega)
      · rw [if_pos ⟨hm, hend⟩, Nat.add_assoc, ← drop_drop, ← ht.unread, ← hd.unread] at hann
        have hle := hd.le
        have hpos := sizeLine_size hs
        have hlen : (dst ++ r₁.unread.take m).length = dst.length + m := by
          rw [length_append, length_take]
          omega
        have hshorter : r₂.unread.length < fuel := by
          rw [hd.unread, ht.unread, length_drop, length_drop]
          omega
        simp only [happ, hlast, htake, ne_eq, not_true_eq_false, if_false]
        refine (ih r₂ hshorter hcap ?_).congr ?_
        · rw [hlen]
          omega
        · rw [hlen]
          omega
    have hle : m ≤ announced r.unread := by omega
    obtain ⟨hnone, hsome⟩ := chunkCalls_data hp hm fuel cap dst
    rw [appendCall_eq cap (by omega) hsmall] at hnone hsome
    by_cases hgrow : cap < dst.length + (m + 2)
    · rw [hsome _ (if_pos hgrow)]
      refine (Calls.cons hexact fun hok => hbehind _ ?_ ?_).congr ?_
      · have hle := hok.2
        omega
      · exact hexact.allowed_iff.mp hok
      · have hneeded : (makeCall (dst.length + (m + 2))).needed = dst.length + (m + 2) := rfl
        omega
    · rw [hnone (if_neg hgrow)]
      exact (hbehind cap hcap (by omega)).congr (by omega)

/-! ## The rest of the stream -/

def bufferSize (cap : Nat) : Nat → Nat
  | 0 => if cap = 0 then 1024 else cap
  | k + 1 => roundUpForSliceCap (2 * bufferSize cap k)

theorem bufferSize_le (cap : Nat) {k l : Nat} (h : k ≤ l) : bufferSize cap k ≤ bufferSize cap l := by
  induction h with
  | refl => exact Nat.le_refl _
  | step h ih =>
    refine Nat.le_trans ih (Nat.le_trans ?_ (le_roundUpForSliceCap _))
    omega

theorem calls_identityCalls (fuel : Nat) {s : Identity} {k : Nat} (hf : s.r.unread.length < fuel) (hsize : s.size = bufferSize cap k)
    (hroom : s.dst.length < s.size) (hle : s.size ≤ maxAlloc) :
    Calls (identityCalls fuel s)
      (∀ l, k ≤ l → bufferSize cap l ≤ s.dst.length + s.r.unread.length → 2 * bufferSize cap l ≤ maxAlloc) := by
  induction fuel generalizing s k with
  | zero => omega
  | succ fuel ih =>
    unfold identityCalls
    by_cases hend : s.r.unread = []
    · obtain ⟨r', hround⟩ := s.round_ended 0 hroom hend
      rw [hround]
      refine .nil fun l hl hfull => ?_
      have hmono := bufferSize_le cap hl
      rw [hend, length_nil] at hfull
      omega
    obtain ⟨bs, r', hne, happ, -, hfit, hround⟩ := s.round_more 0 hroom hend
    rw [if_neg (by simp)] at hround
    have hpos := length_pos_iff.mpr hne
    have htotal : s.dst.length + s.r.unread.length = (s.dst ++ bs).length + r'.unread.length := by
      rw [happ, length_append, length_append]
      omega
    have hless : r'.unread.length < fuel := by
      rw [length_append] at htotal
      omega
    rw [hround, htotal]
    dsimp only
    by_cases hfull : s.size = (s.dst ++ bs).length
    · rw [if_pos hfull]
      have hgrown : Identity.grown 0 s.size (s.dst ++ bs).length = bufferSize cap (k + 1) := by
        unfold Identity.grown bufferSize
        rw [← hsize, ← hfull]
        simp
      have hexact : (makeCall (2 * (s.dst ++ bs).length)).Exact := makeCall_exact (by unfold maxAlloc at hle; omega)
      have hnext : bufferSize cap (k + 1) = roundUpForSliceCap (2 * (s.dst ++ bs).length) := by rw [← hfull, hsize, bufferSize]
      refine (Calls.cons hexact fun hok => ih (s := ⟨r', Identity.grown 0 s.size (s.dst ++ bs).length, s.dst ++ bs⟩) (k := k + 1)
        hless hgrown ?_ ?_).congr ⟨fun ⟨hneeded, hrest⟩ l hl => ?_, fun h => ⟨?_, fun l hl => h l (Nat.le_of_succ_le hl)⟩⟩
      · have hround := le_roundUpForSliceCap (2 * (s.dst ++ bs).length)
        simp only [hgrown]
        omega
      · simp only [hgrown, hnext]
        exact (roundUpForSliceCap_le_iff _).mpr (hexact.allowed_iff.mp hok)
      · rcases Nat.eq_or_lt_of_le hl with rfl | hlt
        · intro _
          rw [← hsize, hfull]
          exact hneeded
        · exact hrest l hlt
      · have hcond := h k (Nat.le_refl k)
        rw [← hsize, hfull] at hcond
        exact hcond (Nat.le_add_right _ _)
    · rw [if_neg hfull]
      have hgrown : Identity.grown 0 s.size (s.dst ++ bs).length = s.size := if_neg hfull
      rw [hgrown]
      exact ih (s := ⟨r', s.size, s.dst ++ bs⟩) hless hsize (Nat.lt_of_le_of_ne hfit (Ne.symm hfull)) hle

/-- Bodies whose length, announced sizes or next buffer is not too large -/
def Affordable (contentLength : Int) (t : Bytes) (cap : Nat) : Prop :=
  if 0 ≤ contentLength then contentLength ≤ maxAlloc
  else if contentLength = -1 then 0 < announced t → announced t + 2 ≤ maxAlloc
  else ∀ k, bufferSize cap k ≤ t.length → 2 * bufferSize cap k ≤ maxAlloc

theorem calls_bodyCalls {contentLength : Int} (hlen : contentLength < 2 ^ 63) (r : Reader Byte Err) (hcap : cap ≤ maxAlloc) :
    Calls (bodyCalls contentLength r cap) (Affordable contentLength r.unread cap) := by
  unfold bodyCalls Affordable
  split_ifs with hfixed hchunked
  · obtain ⟨n, rfl⟩ := Int.eq_ofNat_of_zero_le hfixed
    rcases Nat.eq_zero_or_pos n with rfl | hpos
    · exact .nil (by simp)
    have hsmall : 0 + n < 2 ^ 63 := by omega
    have hexact := makeCall_exact hsmall
    rw [Int.toNat_natCast, appendCall_eq cap hpos hsmall]
    split_ifs with hgrow
    · refine ⟨by simpa using hexact, ?_⟩
      have hneeded : (makeCall (0 + n)).needed = 0 + n := rfl
      simp only [Option.toList_some, mem_singleton, forall_eq]
      rw [hexact.allowed_iff]
      omega
    · exact .nil (by omega)
  · exact (calls_chunkCalls _ r (Nat.lt_succ_self _) hcap (Nat.zero_le _)).congr (by simp)
  · have hstart : (Identity.start r cap).dst.length < (Identity.start r cap).size := by
      unfold Identity.start
      simp only [length_nil]
      split_ifs <;> omega
    have hsize : (Identity.start r cap).size ≤ maxAlloc := by
      unfold Identity.start maxAlloc at *
      simp only
      split_ifs <;> omega
    exact (calls_identityCalls (k := 0) _ (Nat.lt_succ_self _) rfl hstart hsize).congr (by simp [Identity.start])

theorem readChunks_fuel (fuel fuel' : Nat) (r : Reader Byte Err) (dst : Bytes) (hf : r.unread.length < fuel)
    (hf' : r.unread.length < fuel') :
    readChunks fuel r 0 dst = readChunks fuel' r 0 dst := by
  induction fuel generalizing fuel' r dst with
  | zero => omega
  | succ fuel ih =>
    obtain ⟨fuel', rfl⟩ : ∃ m, fuel' = m + 1 := ⟨fuel' - 1, by omega⟩
    have hsize := parseChunkSize_spec r
    rcases hs : sizeLine r.unread with ⟨m, n⟩ | _ | ⟨e, n⟩ <;> simp only [hs] at hsize <;> obtain ⟨r₁, hp, ht⟩ := hsize
    · rcases Nat.eq_zero_or_pos m with rfl | hm
      · simp [readChunks, hp]
      rcases readChunks_data hp hm dst with ⟨-, out, hout⟩ | ⟨-, r₂, hd, hout⟩
      · rw [hout fuel 0 (by simp), hout fuel' 0 (by simp)]
      · have hpos := sizeLine_size hs
        have hshorter : r₂.unread.length < r.unread.length := by
          rw [hd.unread, ht.unread, length_drop, length_drop]
          omega
        rw [hout fuel 0 (by simp), hout fuel' 0 (by simp)]
        exact ih fuel' r₂ _ (by omega) (by omega)
    · simp [readChunks, hp]
    · simp [readChunks, hp]

theorem Identity.readToEnd_unlimited (fuel : Nat) {s : Identity} (hf : s.r.unread.length < fuel) (hroom : s.dst.length < s.size) :
    ∃ r', readToEnd fuel s.r 0 s.size s.dst = (s.dst ++ s.r.unread, if s.r.src.last = .eof then none else some s.r.src.last, r') := by
  induction fuel generalizing s with
  | zero => omega
  | succ fuel ih =>
    rw [readToEnd_succ]
    by_cases hend : s.r.unread = []
    · obtain ⟨r', hround⟩ := round_ended 0 hroom hend
      rw [hround, hend, append_nil]
      exact ⟨r', rfl⟩
    · obtain ⟨bs, r', hne, happ, hlast, hfit, hround⟩ := round_more 0 hroom hend
      rw [if_neg (by simp)] at hround
      have hpos := length_pos_iff.mpr hne
      have hless : r'.unread.length < fuel := by
        rw [happ, length_append] at hf
        omega
      have hmore : (s.dst ++ bs).length < grown 0 s.size (s.dst ++ bs).length := by
        unfold grown
        have hle := le_roundUpForSliceCap (2 * (s.dst ++ bs).length)
        simp only [Int.lt_irrefl, decide_false, Bool.false_and, Bool.false_eq_true, if_false]
        split_ifs <;> omega
      obtain ⟨r'', hrest⟩ := ih (s := ⟨r', grown 0 s.size (s.dst ++ bs).length, s.dst ++ bs⟩) hless hmore
      refine ⟨r'', ?_⟩
      rw [hround]
      simpa only [hlast, append_assoc, ← happ] using hrest

/-- `ReadBody` without a limit: it returns but for one call, and each call is for what is needed. -/
structure ReturnsIff (req : Request) (resp : Response) (m : MultipartParser) (r : Reader Byte Err)
    (preParseMultipartForm : Bool) (cap : Nat) :
    Prop where
  request : (req.readBodyOrPanic m r preParseMultipartForm cap).isSome ↔
    (0 < req.header.contentLength ∧ req.preParse preParseMultipartForm) ∨ Affordable req.header.contentLength r.unread cap
  response : (resp.readBodyOrPanic r cap).isSome ↔ Affordable resp.header.contentLength r.unread cap
  exact : ∀ c ∈ req.calls r preParseMultipartForm cap ++ resp.calls r cap, c.Exact
  chunks_end : ∀ fuel, r.unread.length < fuel → readChunks fuel r 0 [] = readBodyChunked r 0
  identity_end : ∃ r', readBodyIdentity r 0 cap = (r.unread, if r.src.last = .eof then none else some r.src.last, r')

theorem readBody_returns_iff {req : Request} {resp : Response} (hreq : req.header.contentLength < 2 ^ 63)
    (hresp : resp.header.contentLength < 2 ^ 63) (m : MultipartParser) (r : Reader Byte Err) (preParseMultipartForm : Bool) {cap : Nat}
    (hcap : cap ≤ maxAlloc) : ReturnsIff req resp m r preParseMultipartForm cap := by
  have hbody := calls_bodyCalls hreq r hcap
  have hresponse := calls_bodyCalls hresp r hcap
  have hrequest : Calls (req.calls r preParseMultipartForm cap)
      ((0 < req.header.contentLength ∧ req.preParse preParseMultipartForm) ∨ Affordable req.header.contentLength r.unread cap) := by
    unfold Request.calls
    by_cases hform : 0 < req.header.contentLength ∧ req.preParse preParseMultipartForm
    · rw [if_pos (by simpa using hform)]
      exact .nil (.inl hform)
    · rw [if_neg (by simpa using hform)]
      exact hbody.congr ⟨.inr, Or.rec (fun h => absurd h hform) id⟩
  constructor
  · rw [← hrequest.iff]
    exact Option.isSome_ite
  · rw [← hresponse.iff]
    exact Option.isSome_ite
  · rw [forall_mem_append]
    exact ⟨hrequest.exact, hresponse.exact⟩
  · intro fuel hf
    exact readChunks_fuel fuel _ r [] hf (Nat.lt_succ_self _)
  · refine Identity.readToEnd_unlimited _ (s := .start r cap) (Nat.lt_succ_self _) ?_
    unfold Identity.start
    simp only [length_nil]
    split_ifs <;> omega

/-- Five bytes in chunks are read, and 2^48 + 1 bytes are not. -/
theorem readBody_returns_five :
    let r : Reader Byte Err := .new 16 (.of [ascii "5\r\nabcde\r\n0\r\n\r\n"] .eof) (by decide)
    let req : Request := ⟨{ RequestHeader.zero with contentLength := -1 }, [], none, false⟩
    let resp : Response := ⟨{ ResponseHeader.zero with contentLength := 281474976710657 }, none⟩
    (req.readBodyOrPanic ⟨fun _ _ => (0, none), by simp⟩ r false 0).isSome ∧ ¬ (resp.readBodyOrPanic r 0).isSome := by
  intro r req resp
  have hiff := readBody_returns_iff (by decide : req.header.contentLength < 2 ^ 63) (by decide : resp.header.contentLength < 2 ^ 63)
    ⟨fun _ _ => (0, none), by simp⟩ r false (Nat.zero_le maxAlloc)
  have hann : announced r.unread = 5 := by decide +kernel
  rw [hiff.request, hiff.response]
  refine ⟨.inr ?_, ?_⟩
  · simp [req, Affordable, hann, maxAlloc]
  · simp [resp, Affordable, maxAlloc]

/-- The size of a chunk has up to 15 digits, and a length up to 19. -/
theorem readBody_panics :
    let r : Reader Byte Err := .new 32 (.of [ascii "fffffffffffffff\r\n"] .eof) (by decide)
    let req : Request := ⟨(RequestHeader.zero.parse
      (ascii "POST / HTTP/1.1\r\nHost: a\r\nTransfer-Encoding: chunked\r\n\r\n")).1, [], none, false⟩
    let resp : Response := ⟨(ResponseHeader.zero.parse (ascii "HTTP/1.1 200 OK\r\nContent-Length: 281474976710657\r\n\r\n")).1, none⟩
    req.readBodyOrPanic ⟨fun _ _ => (0, none), by simp⟩ r false 0 = none ∧ resp.readBodyOrPanic r 0 = none := by
  intro r req resp
  have hann : announced r.unread = 1152921504606846975 := by decide +kernel
  have hreq : req.header.contentLength = -1 := by decide +kernel
  have hresp : resp.header.contentLength = 281474976710657 := by decide +kernel
  have hrequest := calls_bodyCalls (by decide : (-1 : Int) < 2 ^ 63) r (Nat.zero_le maxAlloc)
  have hresponse := calls_bodyCalls (by decide : (281474976710657 : Int) < 2 ^ 63) r (Nat.zero_le maxAlloc)
  refine ⟨if_neg fun hall => ?_, if_neg fun hall => ?_⟩
  · unfold Request.calls at hall
    rw [hreq] at hall
    have hle := hrequest.iff.mp hall
    simp [Affordable, hann, maxAlloc] at hle
  · unfold Response.calls at hall
    rw [hresp] at hall
    have hle := hresponse.iff.mp hall
    simp [Affordable, maxAlloc] at hle

end Fasthttp
