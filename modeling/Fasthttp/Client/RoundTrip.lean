import Fasthttp.Body.Taken
import Fasthttp.Header.Consumed

/-!
# One exchange over a connection

`transport.RoundTrip` of `client.go`.
-/

namespace Fasthttp

open Bufio Reader List

structure Exchange where
  connectionClose : Bool
  isHead : Bool
  skipBody : Bool
  streamBody : Bool
  outlived : Bool
  maxResponseBodySize : Int
  disableHeaderNamesNormalizing : Bool
  /-- the error of a deadline that is set, or of the request that is written and flushed -/
  sendErr : Option Err
  /-- a deadline was set and fails to be reset -/
  resetFails : Bool

/-- How a streamed response is read: at most this many reads, and with what error it is closed -/
structure StreamUse where
  sizes : Nat → Nat
  reads : Nat
  wErr : Option Err

inductive Trip
  | failed (retry : Bool) (err : Err)
  | done (resp : Response) (r : Reader Byte Err) (released : Bool)
  /-- the connection is released or closed together with the stream -/
  | streams (resp : Response) (stream : BodyStream) (r : Reader Byte Err) (closeConn : Bool)

namespace Exchange

def sentClose (x : Exchange) : Bool := x.connectionClose || x.outlived

def respHeader (x : Exchange) (header : ResponseHeader) : ResponseHeader :=
  { header with
    headMethod := header.headMethod || x.skipBody || x.isHead
    disableNormalizing := header.disableNormalizing || x.disableHeaderNamesNormalizing }

def roundTrip (x : Exchange) (header : ResponseHeader) (r : Reader Byte Err) (cap : Nat) : Trip :=
  match x.sendErr with
  | some e => .failed true e
  | none =>
    match Response.readLimitIfClose (x.respHeader header) (x.skipBody || x.isHead) x.streamBody r x.maxResponseBodySize cap with
    | (_, some e, _, _) => .failed (e ≠ .bodyTooLarge) e
    | (closeConn, none, resp, r) =>
      -- the flag that was set for the write is reset by now
      let closeConn := closeConn || x.connectionClose || resp.header.connectionClose
      match x.streamBody, resp.bodyStream with
      | true, some s => .streams resp s r closeConn
      | _, _ => .done resp r (!closeConn && !x.resetFails)

def closeStream (x : Exchange) (closeConn : Bool) (wErr : Option Err) : Bool :=
  !(closeConn || wErr.isSome) && !x.resetFails

/-- The reader that is given up when the connection goes back to the idle pool, if it does. -/
def putBack (x : Exchange) (u : StreamUse) (header : ResponseHeader) (r : Reader Byte Err) (cap : Nat) : Option (Reader Byte Err) :=
  match x.roundTrip header r cap with
  | .failed _ _ => none
  | .done _ r released => if released then some r else none
  | .streams _ s r closeConn => if x.closeStream closeConn u.wErr then some (s.drain u.sizes u.reads r).2.2.2 else none

end Exchange

/-! ## Responses as they are on the wire -/

def ResponseHeader.interim (h : ResponseHeader) : Bool := 100 ≤ h.statusCode && h.statusCode < 200

inductive FinalHeader : ResponseHeader → Reader Byte Err → ResponseHeader → Reader Byte Err → Prop
  | last {h h' : ResponseHeader} {r r' : Reader Byte Err} {e : Nat} : h.read r = (none, h', r') → headerEnd r.unread = some e →
      r'.unread = r.unread.drop e → h'.interim = false → FinalHeader h r h' r'
  | interim {h h₁ h' : ResponseHeader} {r r₁ r' : Reader Byte Err} {e : Nat} : h.read r = (none, h₁, r₁) →
      headerEnd r.unread = some e → r₁.unread = r.unread.drop e → h₁.interim = true → FinalHeader h₁ r₁ h' r' →
      FinalHeader h r h' r'

variable {r r' : Reader Byte Err}

theorem FinalHeader.ne_nil {h h' : ResponseHeader} (hf : FinalHeader h r h' r') : r.unread ≠ [] := by
  intro hnil
  cases hf with
  | last _ hend => simp [hnil, headerEnd, blockEnd, blankLineEnd, indexByte] at hend
  | interim _ hend => simp [hnil, headerEnd, blockEnd, blankLineEnd, indexByte] at hend

def IsBody (isHead : Bool) (h : ResponseHeader) (t : Bytes) : Prop :=
  if isHead || h.mustSkipContentLength then t = []
  else if h.contentLength = -1 then
    (chunks 0 t).stop = .done ∧ blockEnd (t.drop (chunks 0 t).len) = some (t.length - (chunks 0 t).len)
  else h.contentLengthBytes ≠ [] ∧ h.contentLength = t.length

namespace Exchange

/-- No close was asked for, the peer has sent one response, and nothing of it is left. -/
structure Clean (x : Exchange) (header : ResponseHeader) (r r' : Reader Byte Err) : Prop where
  request : x.sentClose = false
  response : ∃ h r₁, FinalHeader (x.respHeader header) r h r₁ ∧ h.connectionClose = false ∧ IsBody x.isHead h r₁.unread
  taken : r'.unread = []

def streamed (x : Exchange) (u : StreamUse) (h : ResponseHeader) (r : Reader Byte Err) : Bytes × Option Err :=
  let p := Response.readBodyStream ⟨h, none⟩ r x.maxResponseBodySize
  match p.2.1.bodyStream with
  | some s => ((s.drain u.sizes u.reads p.2.2).1, (s.drain u.sizes u.reads p.2.2).2.1)
  | none => ([], none)

def skips (x : Exchange) (h : ResponseHeader) : Bool := x.skipBody || x.isHead || h.mustSkipContentLength || h.headMethod

/-- The body is not skipped unless it is empty, and a stream that was not set up with all of it is read to its end. -/
def ReadsBody (x : Exchange) (u : StreamUse) (h : ResponseHeader) (r : Reader Byte Err) : Prop :=
  if x.skips h then r.unread = []
  else if !x.streamBody then True
  else if h.contentLength = -1 then (x.streamed u h r).2 = some .eof
  else h.contentLength ≤ readAhead h.contentLength x.maxResponseBodySize + r.size ∨ (x.streamed u h r).1.length = h.contentLength

/-- The connection is not too old, one response comes behind one of status 100 at most, and its body is read whole. -/
structure Fair (x : Exchange) (u : StreamUse) (header : ResponseHeader) (r : Reader Byte Err) : Prop where
  young : x.outlived = false
  response : ∃ h r₁, (x.respHeader header).readBehindContinue r = (none, h, r₁) ∧ h.interim = false ∧
    IsBody x.isHead h r₁.unread ∧ x.ReadsBody u h r₁

/-- No line of a header or of the trailer is folded, and the trailer does not start with a zero. -/
structure Unfolded (h : ResponseHeader) (r : Reader Byte Err) : Prop where
  first : NoFold (r.unread.drop (lineEnd r.unread))
  second : (h.read r).2.1.statusCode = 100 → NoFold ((h.read r).2.2.unread.drop (lineEnd (h.read r).2.2.unread))
  trailer : (h.readBehindContinue r).2.1.contentLength = -1 → StreamHeader.PlainTrailer (.response (h.readBehindContinue r).2.1)
    ((h.readBehindContinue r).2.2.unread.drop (chunks 0 (h.readBehindContinue r).2.2.unread).len)

end Exchange

/-! ## What the body takes -/

namespace Response

theorem readBody_close (h : ResponseHeader) (r : Reader Byte Err) (maxBodySize : Int) (cap : Nat) :
    (readBody ⟨h, none⟩ r maxBodySize cap).2.2.1.header.connectionClose = h.connectionClose ∧
      (readBody ⟨h, none⟩ r maxBodySize cap).2.2.1.bodyStream = none := by
  have hheader : ∀ n, (if h.contentLength < -1 then { h with contentLength := n } else h).connectionClose = h.connectionClose := by
    intro n
    split <;> rfl
  unfold readBody
  simp only
  split
  · exact ⟨rfl, rfl⟩
  · split
    · exact ⟨hheader _, rfl⟩
    · split
      · exact ⟨hheader _, rfl⟩
      · exact ⟨hheader _, rfl⟩

variable {h : ResponseHeader} {maxBodySize : Int} {resp : Response}

theorem readBody_taken {cap : Nat} {body : Bytes}
    (hread : readBody ⟨h, none⟩ r maxBodySize cap = (none, body, resp, r')) (hskip : h.mustSkipContentLength = false)
    (hbody : IsBody false h r.unread)
    (hplain : h.contentLength = -1 → StreamHeader.PlainTrailer (.response h) (r.unread.drop (chunks 0 r.unread).len)) :
    r'.unread = [] := by
  unfold IsBody at hbody
  simp only [hskip] at hbody
  unfold readBody at hread
  by_cases hc : h.contentLength = -1
  · -- the chunks and then the trailer
    rw [if_pos hc] at hbody
    simp only [hc] at hread
    rcases hp : readBodyChunked r maxBodySize with ⟨out, _ | e, r₁⟩
    · obtain ⟨-, hd⟩ := readBodyChunked_taken hp
      simp [hp] at hread
      have hplain' : StreamHeader.PlainTrailer (.response h) r₁.unread := by rw [hd.unread]; exact hplain hc
      obtain ⟨e, hend, hl⟩ := (StreamHeader.readTrailer_plain hplain').2 hread.1
      rw [hd.unread, hbody.2, Option.some.injEq] at hend
      have hl := hl.unread
      rw [← hread.2.2.2]
      rw [hd.unread, drop_drop, drop_eq_nil_of_le (by omega)] at hl
      exact hl
    · simp [hp] at hread
  · rw [if_neg hc] at hbody
    have hlen := hbody.2
    by_cases hzero : h.contentLength = 0
    · simp only [hzero, if_true, Prod.mk.injEq, true_and] at hread
      rw [← hread.2.2]
      exact length_eq_zero_iff.mp (by omega)
    · have hpos : 0 ≤ h.contentLength := by omega
      simp only [hzero, hpos, hc, if_true, if_false] at hread
      rcases hp : Fasthttp.readBody r h.contentLength maxBodySize [] with ⟨out, _ | e, r₁⟩
      · simp only [hp, Prod.mk.injEq, true_and] at hread
        unfold Fasthttp.readBody at hp
        split at hp
        · simp at hp
        · obtain ⟨-, hd⟩ := appendBodyFixedSize_taken hp
          rw [← hread.2.2, hd.unread, hlen, Int.toNat_natCast, drop_length]
      · simp [hp] at hread

theorem readBodyStream_stream
    (hread : readBodyStream ⟨h, none⟩ r maxBodySize = (none, resp, r')) : resp.header = h ∧ ∃ s, resp.bodyStream = some s := by
  unfold readBodyStream at hread
  simp only at hread
  split at hread
  · cases hread
    exact ⟨rfl, _, rfl⟩
  · split at hread
    · cases hread
      exact ⟨rfl, _, rfl⟩
    · split at hread <;> cases hread
      exact ⟨rfl, _, rfl⟩

theorem readBodyStream_taken {s : BodyStream}
    (u : StreamUse) (hread : readBodyStream ⟨h, none⟩ r maxBodySize = (none, resp, r')) (hs : resp.bodyStream = some s)
    (hskip : h.mustSkipContentLength = false) (hbody : IsBody false h r.unread)
    (hplain : h.contentLength = -1 → StreamHeader.PlainTrailer (.response h) (r.unread.drop (chunks 0 r.unread).len)) :
    (s.drain u.sizes u.reads r').2.2.2.unread = [] ↔
      if h.contentLength = -1 then (s.drain u.sizes u.reads r').2.1 = some .eof
      else h.contentLength ≤ readAhead h.contentLength maxBodySize + r.size ∨
        (s.drain u.sizes u.reads r').1.length = h.contentLength := by
  unfold IsBody at hbody
  simp only [hskip] at hbody
  unfold readBodyStream at hread
  by_cases hc : h.contentLength = -1
  · rw [if_pos hc] at hbody ⊢
    have hset : setUpStream (.response h) .unexpectedRespBodyEOF r (-1) maxBodySize =
        (.ok (.request (.new [] (.response h))), r) := rfl
    simp only [hc, hset] at hread
    obtain ⟨rfl, rfl⟩ : resp = ⟨h, some (.request (.new [] (.response h)))⟩ ∧ r' = r := by
      simpa [eq_comm] using hread
    cases hs
    obtain ⟨heof, hne⟩ := BodyStream.drain_chunks_taken u.sizes u.reads (h := .response h) hc hbody.1 (hplain hc)
      (RequestStream.chunkInv_start _ r')
    constructor
    · intro hnil
      by_contra hno
      exact hne hno (by simp [hbody.2]) hnil
    · intro hyes
      obtain ⟨e, hend, hl⟩ := heof hyes
      rw [hbody.2, Option.some.injEq] at hend
      rw [hl, drop_eq_nil_of_le (by omega)]
  rw [if_neg hc] at hbody ⊢
  obtain ⟨-, hlen⟩ := hbody
  generalize hn : r.unread.length = c at hlen
  rw [hlen] at hread ⊢
  rcases Nat.eq_zero_or_pos c with rfl | hpos
  · rw [Prod.mk.injEq] at hread
    obtain ⟨-, hread⟩ := hread
    obtain ⟨rfl, rfl⟩ := hread
    cases hs
    rw [(BodyStream.drain_ready _ _ (by simp) (by simp) _).1]
    have hdrain : (BodyStream.empty.drain u.sizes u.reads r).1 = [] := by cases u.reads <;> rfl
    simp [length_eq_zero_iff.mp hn, hdrain]
  rw [if_neg (by omega), if_neg (by omega)] at hread
  by_cases hpre : Prefetches r.size c maxBodySize
  swap
  · have hpanic := setUpStream_panics (.response h) .unexpectedRespBodyEOF hpre
    rcases ho : setUpStream (.response h) .unexpectedRespBodyEOF r c maxBodySize with ⟨e | s', r₁⟩ <;> rw [ho] at hread hpanic
    · simp at hread
    · simp at hpanic
  rcases Int.lt_or_le (readAhead c maxBodySize + r.size) c with hlong | hfit
  · obtain ⟨n, r₁, hahead, hset, hd⟩ := setUpStream_long (.response h) .unexpectedRespBodyEOF hpre (by omega) hlong
    simp only [hset, Prod.mk.injEq, true_and] at hread
    obtain ⟨rfl, rfl⟩ := hread
    cases hs
    have htake : (r.unread.take n).length = n := by
      rw [length_take]
      omega
    have hnew := RequestStream.fixedInv_new (r.unread.take n) (.response h) r₁ (by change 0 ≤ h.contentLength; omega)
    obtain ⟨rs, -, hh, hI⟩ := BodyStream.drain_fixed_inv u.sizes u.reads (by change 0 ≤ h.contentLength; omega)
      (by rw [htake]; change (n : Int) ≤ h.contentLength; omega) hnew
    have hle : _ ≤ h.contentLength := hh ▸ hI.le
    rw [nil_append] at hI hle
    rw [hI.leaves.unread, hd.unread, drop_drop, ← length_eq_zero_iff, length_drop]
    omega
  · obtain ⟨s', r₁, hset, -, hrequest, hconn, hd⟩ := setUpStream_fits (.response h) .unexpectedRespBodyEOF
      (by omega : c ≤ r.unread.length) hfit
    simp only [hset] at hread
    obtain ⟨rfl, rfl⟩ := hread
    cases hs
    rw [(BodyStream.drain_ready _ _ hrequest hconn _).1, hd.unread]
    simp [hn, hfit]

end Response

namespace Exchange

variable {x : Exchange} {u : StreamUse} {header h : ResponseHeader} {r r₁ r' : Reader Byte Err} {cap : Nat}

inductive PutBack (x : Exchange) (u : StreamUse) (h : ResponseHeader) (r₁ : Reader Byte Err) (cap : Nat) : Reader Byte Err → Prop
  | skipped : x.skips h = true → PutBack x u h r₁ cap r₁
  | buffered (body : Bytes) (resp : Response) (r' : Reader Byte Err) : x.skips h = false → x.streamBody = false →
      Response.readBody ⟨h, none⟩ r₁ x.maxResponseBodySize cap = (none, body, resp, r') → PutBack x u h r₁ cap r'
  | streamed (resp : Response) (s : BodyStream) (r₂ : Reader Byte Err) : x.skips h = false → x.streamBody = true →
      Response.readBodyStream ⟨h, none⟩ r₁ x.maxResponseBodySize = (none, resp, r₂) → resp.bodyStream = some s →
      PutBack x u h r₁ cap (s.drain u.sizes u.reads r₂).2.2.2

theorem putBack_spec (hput : x.putBack u header r cap = some r') :
    x.connectionClose = false ∧ ∃ h r₁, (x.respHeader header).readBehindContinue r = (none, h, r₁) ∧ h.connectionClose = false ∧
      PutBack x u h r₁ cap r' := by
  unfold putBack roundTrip at hput
  rcases hsend : x.sendErr with _ | e
  swap
  · simp [hsend] at hput
  simp only [hsend] at hput
  unfold Response.readLimitIfClose at hput
  rcases hh : (x.respHeader header).readBehindContinue r with ⟨_ | e, h, r₁⟩
  swap
  · simp [hh] at hput
  simp only [hh] at hput
  by_cases hskip : x.skips h = true
  · have hcond : ((x.skipBody || x.isHead) || h.mustSkipContentLength || h.headMethod) = true := hskip
    simp only [hcond] at hput
    have hdone : (if !(x.connectionClose || h.connectionClose) && !x.resetFails then some r₁ else none) = some r' := by
      cases hs : x.streamBody <;> simpa [hs] using hput
    simp only [Option.ite_none_right_eq_some, Bool.and_eq_true, Bool.not_eq_true', Bool.or_eq_false_iff,
      Option.some.injEq] at hdone
    obtain ⟨hrel, rfl⟩ := hdone
    exact ⟨hrel.1.1, h, r₁, rfl, hrel.1.2, .skipped hskip⟩
  have hskip : x.skips h = false := by simpa using hskip
  have hcond : ((x.skipBody || x.isHead) || h.mustSkipContentLength || h.headMethod) = false := hskip
  simp only [hcond, Bool.false_eq_true, if_false] at hput
  rcases hs : x.streamBody with _ | _
  · simp only [hs, Bool.false_eq_true, if_false] at hput
    obtain ⟨hclose, hstream⟩ := Response.readBody_close h r₁ x.maxResponseBodySize cap
    rcases hp : Response.readBody ⟨h, none⟩ r₁ x.maxResponseBodySize cap with ⟨_ | e, body, resp, r₂⟩ <;> rw [hp] at hput hclose
    swap
    · simp at hput
    simp only [Option.ite_none_right_eq_some, Bool.and_eq_true, Bool.not_eq_true', Bool.or_eq_false_iff,
      Option.some.injEq] at hput hclose
    obtain ⟨hrel, rfl⟩ := hput
    exact ⟨hrel.1.1.2, h, r₁, rfl, hclose ▸ hrel.1.2, .buffered body resp r₂ hskip hs hp⟩
  · simp only [hs, if_true] at hput
    rcases hp : Response.readBodyStream ⟨h, none⟩ r₁ x.maxResponseBodySize with ⟨_ | e, resp, r₂⟩ <;> rw [hp] at hput
    swap
    · simp at hput
    obtain ⟨hheader, s, hstream⟩ := Response.readBodyStream_stream hp
    simp only [hstream, closeStream, hheader, Option.ite_none_right_eq_some, Bool.and_eq_true, Bool.not_eq_true',
      Bool.or_eq_false_iff, Option.some.injEq] at hput
    obtain ⟨hrel, rfl⟩ := hput
    exact ⟨hrel.1.1.1.2, h, r₁, rfl, hrel.1.1.2, .streamed resp s r₂ hskip hs hp hstream⟩

theorem interim_skips (hh : h.interim = true) : x.skips h = true := by
  simp only [ResponseHeader.interim, Bool.and_eq_true, decide_eq_true_eq] at hh
  have hskip : h.mustSkipContentLength = true := by
    unfold ResponseHeader.mustSkipContentLength
    rw [if_neg (by simp; omega)]
    simp [hh.2]
  simp [skips, hskip]

theorem PutBack.skipped_eq (hput : PutBack x u h r₁ cap r') (hskip : x.skips h = true) : r' = r₁ := by
  cases hput with
  | skipped _ => rfl
  | buffered _ _ _ hno => simp [hskip] at hno
  | streamed _ _ _ hno => simp [hskip] at hno

theorem finalHeader_read_eq {H h₂ : ResponseHeader} {r₂ : Reader Byte Err} (hf : FinalHeader H r h₂ r₂)
    (hread : H.readBehindContinue r = (none, h, r₁)) (hput : PutBack x u h r₁ cap r') (htaken : r'.unread = []) :
    h₂ = h ∧ r₂ = r₁ ∧ h.interim = false := by
  have hstop : ∀ {h' r'}, h.interim = true → ¬ FinalHeader h r₁ h' r' := by
    intro h' r'' hi hmore
    rw [hput.skipped_eq (interim_skips hi)] at htaken
    exact hmore.ne_nil htaken
  unfold ResponseHeader.readBehindContinue at hread
  cases hf with
  | last hfirst _ _ hfinal =>
    rw [hfirst] at hread
    have hne : h₂.statusCode ≠ 100 := by
      intro h100
      simp [ResponseHeader.interim, h100] at hfinal
    simp only [hne] at hread
    obtain ⟨rfl, rfl⟩ := hread
    exact ⟨rfl, rfl, hfinal⟩
  | @interim _ h₁ _ _ r₁' _ _ hfirst _ _ hinterim hrest =>
    rw [hfirst] at hread
    by_cases h100 : h₁.statusCode = 100
    · simp only [h100] at hread
      cases hrest with
      | last hsecond _ _ hfinal =>
        rw [hsecond] at hread
        obtain ⟨-, rfl, rfl⟩ := hread
        exact ⟨rfl, rfl, hfinal⟩
      | interim hsecond _ _ hinterim' hrest' =>
        rw [hsecond] at hread
        obtain ⟨-, rfl, rfl⟩ := hread
        exact absurd hrest' (hstop hinterim')
    · simp only [h100] at hread
      obtain ⟨rfl, rfl⟩ := hread
      exact absurd hrest (hstop hinterim)

theorem Unfolded.finalHeader {H : ResponseHeader} (hplain : Unfolded H r) (hread : H.readBehindContinue r = (none, h, r₁))
    (hfinal : h.interim = false) : FinalHeader H r h r₁ := by
  unfold ResponseHeader.readBehindContinue at hread
  rcases hfirst : H.read r with ⟨_ | e, h₁, r'⟩ <;> rw [hfirst] at hread
  swap
  · simp at hread
  obtain ⟨e, hend, hdrop⟩ := ResponseHeader.read_consumes hfirst hplain.first
  by_cases h100 : h₁.statusCode = 100
  · simp only [h100] at hread
    have hsecond := hplain.second
    rw [hfirst] at hsecond
    obtain ⟨e', hend', hdrop'⟩ := ResponseHeader.read_consumes hread (hsecond h100)
    exact .interim hfirst hend hdrop (by simp [ResponseHeader.interim, h100]) (.last hread hend' hdrop' hfinal)
  · simp only [h100] at hread
    obtain ⟨rfl, rfl⟩ := hread
    exact .last hfirst hend hdrop hfinal

theorem PutBack.taken_iff (hput : PutBack x u h r₁ cap r') (hbody : IsBody x.isHead h r₁.unread)
    (hplain : h.contentLength = -1 → StreamHeader.PlainTrailer (.response h) (r₁.unread.drop (chunks 0 r₁.unread).len)) :
    r'.unread = [] ↔ x.ReadsBody u h r₁ := by
  have hrest : x.skips h = false → h.mustSkipContentLength = false ∧ IsBody false h r₁.unread := by
    intro hskip
    simp only [skips, Bool.or_eq_false_iff] at hskip
    rw [hskip.1.1.2] at hbody
    exact ⟨hskip.1.2, hbody⟩
  unfold ReadsBody
  cases hput with
  | skipped hskip => rw [if_pos hskip]
  | buffered body resp r'' hskip hs hread =>
    obtain ⟨hmust, hbody'⟩ := hrest hskip
    simp only [hskip, hs, Bool.false_eq_true, if_false, Bool.not_false, if_true, iff_true]
    exact Response.readBody_taken hread hmust hbody' hplain
  | streamed resp s r₂ hskip hs hread hstream =>
    obtain ⟨hmust, hbody'⟩ := hrest hskip
    rw [Response.readBodyStream_taken u hread hstream hmust hbody' hplain]
    simp [hskip, hs, Exchange.streamed, hread, hstream]

/-- A connection that is put back is clean exactly if it was not too old, no more than one response
came, behind one of status 100 at most, and its body was read whole. -/
theorem putBack_clean_iff (x : Exchange) (u : StreamUse) (header : ResponseHeader) (r r' : Reader Byte Err) (cap : Nat)
    (hput : x.putBack u header r cap = some r') (hplain : Unfolded (x.respHeader header) r) :
    x.Clean header r r' ↔ x.Fair u header r := by
  obtain ⟨hclose, h, r₁, hread, hkeep, hway⟩ := putBack_spec hput
  have htrailer := hplain.trailer
  rw [hread] at htrailer
  constructor
  · rintro ⟨hsent, ⟨h₂, r₂, hf, -, hbody⟩, htaken⟩
    obtain ⟨rfl, rfl, hfinal⟩ := finalHeader_read_eq hf hread hway htaken
    refine ⟨?_, h₂, r₂, hread, hfinal, hbody, (hway.taken_iff hbody htrailer).mp htaken⟩
    simp only [sentClose, Bool.or_eq_false_iff] at hsent
    exact hsent.2
  · rintro ⟨hyoung, h₂, r₂, hread', hfinal, hbody, hreads⟩
    rw [hread] at hread'
    obtain ⟨-, rfl, rfl⟩ := hread'
    refine ⟨by simp [sentClose, hclose, hyoung], ⟨h, r₁, hplain.finalHeader hread hfinal, hkeep, hbody⟩, ?_⟩
    exact (hway.taken_iff hbody htrailer).mpr hreads

def get : Exchange := ⟨false, false, false, false, false, 0, false, none, false⟩

def oneByte : StreamUse := ⟨fun _ => 1, 1, none⟩

theorem putBack_clean_hello : ∃ r', get.putBack oneByte .zero
    (wire ["HTTP/1.1 200 OK\r\nContent-Length: 5\r\n\r\nhe", "llo"]) 0 = some r' ∧
    (get.Clean .zero (wire ["HTTP/1.1 200 OK\r\nContent-Length: 5\r\n\r\nhe", "llo"]) r' ↔
      get.Fair oneByte .zero (wire ["HTTP/1.1 200 OK\r\nContent-Length: 5\r\n\r\nhe", "llo"])) := by
  have hsome : (get.putBack oneByte .zero (wire ["HTTP/1.1 200 OK\r\nContent-Length: 5\r\n\r\nhe", "llo"]) 0).isSome = true := by
    decide +kernel
  obtain ⟨r', hr'⟩ := Option.isSome_iff_exists.mp hsome
  refine ⟨r', hr', putBack_clean_iff _ _ _ _ _ _ hr' ⟨?_, ?_, fun hc => absurd hc ?_⟩⟩
  all_goals decide +kernel

/-- A body that is skipped or read in part, and a response behind one of status 103, are left on a connection that is put back. -/
theorem putBack_dirty :
    ({ get with skipBody := true }.putBack oneByte .zero
      (wire ["HTTP/1.1 200 OK\r\nContent-Length: 5\r\n\r\nhello"]) 0).map unread = some (ascii "hello") ∧
    ({ get with streamBody := true }.putBack oneByte .zero
      (wire ["HTTP/1.1 200 OK\r\nTransfer-Encoding: chunked\r\n\r\n5\r\nhello\r\n0\r\n\r\n"]) 0).map unread
      = some (ascii "ello\r\n0\r\n\r\n") ∧
    (get.putBack oneByte .zero
      (wire ["HTTP/1.1 103 Early Hints\r\n\r\n", "HTTP/1.1 200 OK\r\nContent-Length: 0\r\n\r\n"]) 0).map unread
      = some (ascii "HTTP/1.1 200 OK\r\nContent-Length: 0\r\n\r\n") ∧
    { get with outlived := true }.sentClose = true ∧
    ({ get with outlived := true }.putBack oneByte .zero
      (wire ["HTTP/1.1 200 OK\r\nContent-Length: 5\r\n\r\nhello"]) 0).map unread = some [] := by
  decide +kernel

end Exchange

end Fasthttp
