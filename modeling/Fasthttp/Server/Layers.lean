import Fasthttp.Lib.Pushback
import Fasthttp.Server.Framing

/-!
# Saving memory between requests

With `ReduceMemoryUsage` a reader is given back while nothing is buffered, and `acquireByteReader` reads the first
byte of the next request for a new one.
-/

namespace Fasthttp

open Bufio Reader

inductive Layer
  | tcp
  | tlsOverTCP
  | other
  deriving DecidableEq, Repr

/-- A byte from below a TLS connection, and what the connection delivers without it -/
structure Below where
  byte : Byte
  rest : Source Byte Err

def Server.saving (s : Server) : Server := { s with reduceMemoryUsage := true }

def Server.usual (s : Server) : Server := { s with reduceMemoryUsage := false }

namespace Server

def acquireLayered (s : Server) (layer : Layer) (src : Source Byte Err) (below : Option Below) : Option (Reader Byte Err) :=
  match layer, below with
  | .tlsOverTCP, some w => some (s.acquireReader (w.rest.push w.byte))
  | _, _ => s.acquireByteReader src

end Server

def ServerConn.under (c : ServerConn) (layer : Layer) (below : Option Below) : ServerConn :=
  match layer, below, c.input with
  | .tlsOverTCP, some w, .conn _ => { c with input := .conn (w.rest.push w.byte) }
  | _, _, _ => c

namespace Server

theorem acquireByteReader_under (s : Server) (layer : Layer) (below : Option Below) {c : ServerConn} {src : Source Byte Err}
    (h : c.input = .conn src) : s.await (c.under layer below) = s.acquireLayered layer src below := by
  unfold acquireLayered ServerConn.under await
  rcases layer with _ | _ | _ <;> rcases below with _ | w <;> simp only [h]
  obtain ⟨hchunk, hpush⟩ := w.rest.chunk_push w.byte
  simp [acquireByteReader, hchunk, hpush]

def fed (s : Server) (c : ServerConn) : Bytes := ((s.await c).map Reader.unread).getD []

def layered (s : Server) (layer : Layer) : Machine (Option ServerConn) (Turn × Option Below) where
  step
    | some c, a => some (s.round (c.under layer a.2) a.1).next
    | none, _ => none

def feeds (s : Server) (layer : Layer) : Option ServerConn → List (Turn × Option Below) → List Bytes
  | some c, a :: as => s.fed (c.under layer a.2) :: feeds s layer ((s.layered layer).next (some c) a) as
  | _, _ => []

def Unmixed (layer : Layer) (o : Option ServerConn) (a : Turn × Option Below) : Prop :=
  layer = .tlsOverTCP → a.2.isSome → ∀ c ∈ o, ∃ br, c.input = .reader br

end Server

theorem fillBody_size (fuel : Nat) (r : Reader Byte Err) (dst : Bytes) (want : Nat) :
    (fillBody fuel r dst want).2.2.size = r.size := by
  induction fuel generalizing r dst want with
  | zero => rfl
  | succ fuel ih =>
    have hsize := r.read_size want
    unfold fillBody
    rcases hread : r.read want with ⟨bs, e, r'⟩
    rw [hread] at hsize
    dsimp only
    split_ifs
    · exact hsize
    · exact hsize
    · rw [ih]
      exact hsize

theorem appendBodyFixedSize_size (r : Reader Byte Err) (dst : Bytes) (n : Int) : (appendBodyFixedSize r dst n).2.2.size = r.size := by
  unfold appendBodyFixedSize
  split_ifs
  · rfl
  · rfl
  · exact fillBody_size _ r dst _

theorem parseChunkSize_size (r : Reader Byte Err) : (parseChunkSize r).2.size = r.size := by
  have hspec := parseChunkSize_spec r
  rcases hs : sizeLine r.unread with ⟨m, n⟩ | _ | ⟨e, n⟩ <;> simp only [hs] at hspec <;> obtain ⟨r', hp, ht⟩ := hspec <;> rw [hp]
  · exact ht.size
  · exact ht.size
  · exact ht.size

theorem readChunks_size (fuel : Nat) (r : Reader Byte Err) (maxBodySize : Int) (dst : Bytes) :
    (readChunks fuel r maxBodySize dst).2.2.size = r.size := by
  induction fuel generalizing r dst with
  | zero => rfl
  | succ fuel ih =>
    have hsize := parseChunkSize_size r
    unfold readChunks
    rcases hp : parseChunkSize r with ⟨e | m, r₁⟩ <;> rw [hp] at hsize
    · exact hsize
    dsimp only
    split_ifs
    · exact hsize
    · exact hsize
    · have happ := appendBodyFixedSize_size r₁ dst (m + strCRLF.length)
      rcases hq : appendBodyFixedSize r₁ dst (m + strCRLF.length) with ⟨d, _ | e, r₂⟩ <;> rw [hq] at happ
      · dsimp only
        split_ifs
        · exact happ.trans hsize
        · rw [ih]
          exact happ.trans hsize
      · exact happ.trans hsize

theorem readToEnd_size (fuel : Nat) (r : Reader Byte Err) (maxBodySize : Int) (size : Nat) (dst : Bytes) :
    (readToEnd fuel r maxBodySize size dst).2.2.size = r.size := by
  induction fuel generalizing r size dst with
  | zero => rfl
  | succ fuel ih =>
    have hsize := r.read_size (size - dst.length)
    unfold readToEnd
    rcases hread : r.read (size - dst.length) with ⟨bs, e, r'⟩
    rw [hread] at hsize
    dsimp only
    split_ifs
    · exact hsize
    · exact hsize
    all_goals
      rcases e with _ | e
      · rw [ih]
        exact hsize
      · exact hsize

theorem readTrailerWith_size (L : Retry.Loop (List ArgsKV) Byte Err) (h : List ArgsKV) (r : Reader Byte Err) :
    (readTrailerWith L h r).2.2.size = r.size := by
  have hsize := r.peek_size 2
  unfold readTrailerWith
  rcases hp : r.peek 2 with ⟨b | ⟨b, e⟩ | b, r'⟩ <;> rw [hp] at hsize
  · dsimp only
    split_ifs
    · exact hsize
    · exact (L.run_size _ _ _ _).trans hsize
  · exact hsize
  · exact hsize

theorem Request.readBodyBytes_size (req : Request) (r : Reader Byte Err) (contentLength maxBodySize : Int) (cap : Nat) :
    (req.readBodyBytes r contentLength maxBodySize cap).2.2.size = r.size := by
  unfold Request.readBodyBytes Fasthttp.readBody
  dsimp only
  split_ifs
  · rfl
  · rfl
  · exact appendBodyFixedSize_size r _ _
  · exact readChunks_size _ r _ _
  · exact readChunks_size _ r _ _
  · exact readToEnd_size _ r _ _ _

theorem Request.readBody_size (req : Request) (m : MultipartParser) (r : Reader Byte Err) (maxBodySize : Int) (pre : Bool)
    (cap : Nat) :
    (req.readBody m r maxBodySize pre cap).2.2.size = r.size := by
  have hsize := req.readBodyBytes_size r req.header.contentLength maxBodySize cap
  unfold Request.readBody
  dsimp only
  split_ifs
  · rfl
  · rfl
  · unfold readMultipartForm
    split_ifs
    · rfl
    · exact appendBodyFixedSize_size r _ _
  · rcases hq : req.readBodyBytes r req.header.contentLength maxBodySize cap with ⟨_ | e, req', r'⟩ <;> rw [hq] at hsize
    · exact (readTrailerWith_size _ _ r').trans hsize
    · exact hsize
  · rcases hq : req.readBodyBytes r req.header.contentLength maxBodySize cap with ⟨_ | e, req', r'⟩ <;> rw [hq] at hsize
    · exact hsize
    · exact hsize

theorem Request.readBody_bodyStream (req : Request) (m : MultipartParser) (r : Reader Byte Err) (maxBodySize : Int)
    (pre : Bool) (cap : Nat) :
    (req.readBody m r maxBodySize pre cap).2.1.bodyStream = req.bodyStream := by
  have hbytes : ∀ contentLength, (req.readBodyBytes r contentLength maxBodySize cap).2.1.bodyStream = req.bodyStream := by
    intro contentLength
    unfold Request.readBodyBytes
    split_ifs <;> rfl
  unfold Request.readBody
  dsimp only
  split_ifs
  · rfl
  · rfl
  · rfl
  all_goals
    have hnone := hbytes req.header.contentLength
    rcases hq : req.readBodyBytes r req.header.contentLength maxBodySize cap with ⟨_ | e, req', r'⟩ <;> rw [hq] at hnone
    · exact hnone
    · exact hnone

theorem skipLineEnds_size (r : Reader Byte Err) : (RequestHeader.skipLineEnds r).size = r.size := by
  have hsize := r.peek_size 4
  unfold RequestHeader.skipLineEnds
  rcases hp : r.peek 4 with ⟨b | ⟨b, e⟩ | b, r'⟩ <;> rw [hp] at hsize
  · exact hsize
  · exact hsize
  · exact hsize

theorem readLoop_size (h : RequestHeader) (r : Reader Byte Err) (post dontReset : Bool) :
    (h.readLoop r post dontReset).2.2.size = r.size := by
  refine (RequestHeader.loop.run_size _ _ _ _).trans ?_
  split_ifs
  · exact skipLineEnds_size r
  · rfl

/-! ## The header behind a byte that was read ahead -/

namespace RequestHeader

variable {b : Byte} {h : RequestHeader} {r r' : Reader Byte Err}

def SameRead (o o' : Option Err × RequestHeader × Reader Byte Err) : Prop := o = o' ∨ ∃ e, o.1 = some e ∧ o'.1 = some e

theorem parse_byte (h : RequestHeader) (hline : h.firstLineLen = 0) (hb : b ≠ nChar) :
    h.parse [b] = (h, [b], .error .needMore) := by
  have hnext : nextLine [b] = none := by simp [nextLine, indexByte, hb]
  simp [parse, requestLine, hline, parseFirstLine, hnext]

theorem read_line_end (hline : h.firstLineLen = 0) {t : Bytes} (hbuf : r.buf = nChar :: t) :
    (loop.read h r).1 = some (.headerParse "request method not found" []) := by
  have hpeek := r.peek_buffered (by simp [hbuf] : 1 ≤ r.buf.length)
  have hparse : loop.parse h r.buf = (h, r.buf, .error (.headerParse "request method not found" [])) := by
    simp only [loop, parse, requestLine, hline, hbuf]
    rfl
  have hne : Err.headerParse "request method not found" [] ≠ loop.more := fun h => by cases h
  unfold Retry.Loop.read
  rw [Retry.Loop.run_of_peek hpeek, hparse]
  simp [hne]

theorem read_joined (hline : h.firstLineLen = 0) {p : Bytes} {ps : List Bytes}
    (hsize : r'.size = r.size) (hlast : r'.src.last = r.src.last) (hbuf : r.buf = [b]) (hps : r.src.pieces = p :: ps)
    (hbuf' : r'.buf = [])
    (hps' : r'.src.pieces = (b :: p) :: ps) : SameRead (loop.read h r') (loop.read h r) := by
  have hfetch := fetch_joined hsize hlast hbuf hps hbuf' hps'
  by_cases hb : b = nChar
  · subst hb
    have hnext : ∃ t, r'.fetch.buf = nChar :: t := by
      rw [hfetch]
      obtain ⟨t, ht⟩ := r.fetch_buf_prefix
      exact ⟨t, by rw [← ht, hbuf]; rfl⟩
    obtain ⟨t, ht⟩ := hnext
    refine .inr ⟨_, ?_, read_line_end hline hbuf⟩
    rw [← Retry.Loop.read_fetch h hbuf' (by simp [hps'])]
    exact read_line_end hline ht
  · left
    rw [Retry.Loop.read_more parse_inPlace hbuf (by simp [hps]) (h.parse_byte hline hb), ← hfetch]
    exact (Retry.Loop.read_fetch h hbuf' (by simp [hps'])).symm

theorem skipLineEnds_congr (h : r.peek 4 = r'.peek 4) : skipLineEnds r = skipLineEnds r' := by
  unfold skipLineEnds
  rw [h]

theorem readLoop_pushed (hline : h.firstLineLen = 0) {l : Bytes} (hbuf : r.buf = [])
    (hchunk : r.src.chunk 1 = b :: l) (hr' : r' = .new r.size ((r.src.rest 1).push b) r.least) (post : Bool) :
    SameRead (h.readLoop r' post true) (h.readLoop r.fetch post true) := by
  have hps : r.src.pieces ≠ [] := by
    intro hnil
    simp [Source.chunk, hnil, cut] at hchunk
  have hsize : r'.size = r.size := by rw [hr']; rfl
  have hlast : r'.src.last = r.src.last := by rw [hr']; rfl
  have hbuf' : r'.buf = [] := by rw [hr']; rfl
  have hleast := r.least
  rcases Source.push_rest hchunk with hsame | ⟨p, ps, hpieces, hjoined⟩
  · have hself : r' = r := by
      rw [hr', hsame]
      ext1
      exacts [rfl, hbuf.symm, (r.err_eq_none hps).symm, rfl]
    left
    rw [hself]
    rcases post with _ | _
    · exact (Retry.Loop.read_fetch h hbuf hps).symm
    · have hpeek := peek_fetch (by simp [hbuf] : r.buf.length < 4) (by simp [hbuf]; omega) hps
      exact congrArg (loop.read h) (skipLineEnds_congr hpeek.symm)
  · have hle : 1 ≤ r.size := by omega
    have hbuf₁ : r.fetch.buf = [b] := by simp [fetch, Source.chunk, hbuf, hpieces, cut, hle]
    have hps₁ : r.fetch.src.pieces = p :: ps := by simp [fetch, Source.rest, hbuf, hpieces, cut, hle]
    have hps' : r'.src.pieces = (b :: p) :: ps := by rw [hr']; exact hjoined
    have hfetch : r'.fetch = r.fetch.fetch := fetch_joined hsize hlast hbuf₁ hps₁ hbuf' hps'
    rcases post with _ | _
    · exact read_joined hline hsize hlast hbuf₁ hps₁ hbuf' hps'
    · left
      have hpeek : r'.peek 4 = r.fetch.peek 4 := by
        rw [← peek_fetch (by simp [hbuf'] : r'.buf.length < 4) (by simp [hbuf']; omega) (by simp [hps']),
          ← peek_fetch (by simp [hbuf₁] : r.fetch.buf.length < 4) (by simp [hbuf₁]; omega) (by simp [hps₁]),
          hfetch]
      exact congrArg (loop.read h) (skipLineEnds_congr hpeek)

end RequestHeader

/-! ## Both servers in step -/

namespace Server

variable {br : Reader Byte Err} {c : ServerConn}

structure SameInput (s : Server) (on off : Input) : Prop where
  same : on = off ∨ ∃ br, off = .reader br ∧ br.buf = [] ∧ br.size = s.readerSize ∧ on = .conn br.src
  reader : ∃ br, off = .reader br ∧ (s.streamRequestBody = false → br.size = s.readerSize)

structure Alike (s : Server) (on off : ServerConn) : Prop where
  fresh : on.fresh = off.fresh
  post : on.prevMethodIsPost = off.prevMethodIsPost
  first : off.fresh = true → off.prevMethodIsPost = false
  input : s.SameInput on.input off.input

variable {s : Server} {on off : ServerConn} {x : Turn}

theorem SameInput.unread_eq {on off : Input} (h : s.SameInput on off) : on.unread = off.unread := by
  rcases h.same with rfl | ⟨br, rfl, hbuf, -, rfl⟩
  · rfl
  · simp [Input.unread, Reader.unread, hbuf]

theorem SameInput.dropLineEnds {on off : Input} (h : s.SameInput on off) : s.SameInput (dropLineEnds on) (dropLineEnds off) := by
  obtain ⟨hsame, br, rfl, hsize⟩ := h
  refine ⟨?_, _, rfl, hsize⟩
  rcases hsame with rfl | ⟨br, hoff, hbuf, hsize, rfl⟩
  · exact .inl rfl
  · cases hoff
    have hnone : br.discard (numLeadingCRorLF (br.buf.take 4)) = br := by
      rw [hbuf]
      exact br.discard_zero
    exact .inr ⟨br, by rw [Server.dropLineEnds, hnone], hbuf, hsize, rfl⟩

theorem sameInput_release (s : Server) (hsize : s.streamRequestBody = false → br.size = s.readerSize) :
    s.SameInput (s.saving.release br) (s.usual.release br) := by
  refine ⟨?_, br, rfl, hsize⟩
  by_cases hgive : s.streamRequestBody = false ∧ br.buffered = 0
  · exact .inr ⟨br, rfl, List.length_eq_zero_iff.mp hgive.2, hsize hgive.1, if_pos (by simpa [saving] using hgive)⟩
  · exact .inl (if_neg (by simpa [saving] using hgive))

theorem fed_eq (s : Server) (c : ServerConn) : s.fed c = c.input.unread := by
  unfold fed await
  rcases c.input with br | src
  · have hsize := br.least
    rcases c.fresh with _ | _
    · rcases Nat.eq_zero_or_pos br.unread.length with hnil | hpos
      · obtain ⟨r', hp, -⟩ := peek_short (r := br) (by omega : br.unread.length < 1) (by omega)
        simp [hp, Input.unread, List.length_eq_zero_iff.mp hnil]
      · obtain ⟨r', hp, hl, -⟩ := peek_there (r := br) (by omega : 1 ≤ br.unread.length) (by omega)
        simp [hp, Input.unread, hl.unread]
    · simp [Input.unread]
  · have happ := src.chunk_append_rest 1
    have hlen : (src.chunk 1).length ≤ 1 := cut_length_le 1 src.pieces
    simp only [acquireByteReader]
    rcases hchunk : src.chunk 1 with _ | ⟨b, bs⟩
    · have hps : src.pieces = [] := by
        by_contra hne
        exact cut_ne_nil Nat.one_pos src.solid hne hchunk
      simp [Input.unread, (Source.items_eq_nil src).mpr hps]
    · rw [hchunk] at happ hlen
      obtain rfl : bs = [] := by simpa using hlen
      simp [acquireReader, Input.unread, ← happ]

def headerOf (s : Server) (o : Option Err × RequestHeader × Reader Byte Err) : Except (List Bytes) (RequestHeader × Reader Byte Err) :=
  match o with
  | (some e, _, _) => .error [headerErrStr e]
  | (none, h, br) => if s.getOnly && !h.isGet && !h.isHead then .error [errHTTPResponseStr "405" "Method Not Allowed"] else .ok (h, br)

theorem readHeader_eq (s : Server) (h : s.await c = some br) :
    s.readHeader c = s.headerOf (s.freshHeader.readLoop br c.prevMethodIsPost true) := by
  unfold readHeader
  simp only [h]
  rfl

theorem headerOf_same (s : Server) {o o' : Option Err × RequestHeader × Reader Byte Err} (h : RequestHeader.SameRead o o') :
    s.headerOf o = s.headerOf o' := by
  rcases h with rfl | ⟨e, ho, ho'⟩
  · rfl
  · rcases o with ⟨_ | e₁, h₁, r₁⟩
    · cases ho
    rcases o' with ⟨_ | e₂, h₂, r₂⟩
    · cases ho'
    cases ho
    cases ho'
    rfl

theorem headerOf_ended (s : Server) (h : RequestHeader) (hbuf : br.buf = []) (hps : br.src.pieces = []) :
    ∃ str, s.headerOf (h.readLoop br false true) = .error str := by
  have hsucc := br.peek_succ_ended (by simpa [hbuf] using br.pos) hps
  rw [hbuf, List.length_nil] at hsucc
  have hread : (h.readLoop br false true).1 = some (RequestHeader.loop.ended br.src.last) := by
    unfold RequestHeader.readLoop Retry.Loop.read
    simp [Retry.Loop.run, hsucc]
  rcases ho : h.readLoop br false true with ⟨e, h', br'⟩
  rw [ho] at hread
  cases hread
  exact ⟨_, rfl⟩

theorem Alike.readHeader (h : s.Alike on off) : s.saving.readHeader on = s.usual.readHeader off ∨
    ∃ str str', s.saving.readHeader on = .error str ∧ s.usual.readHeader off = .error str' := by
  rcases h.input.same with heq | ⟨br, hoff, hbuf, hsize, hon⟩
  · left
    have hsame : on = off := by
      obtain ⟨input', fresh', post'⟩ := off
      cases heq
      cases h.fresh
      cases h.post
      rfl
    rw [hsame]
    rfl
  have hroom : br.buf.length < br.size := by simpa [hbuf] using br.pos
  rcases hchunk : br.src.chunk 1 with _ | ⟨b, l⟩
  · -- the connection has ended
    right
    have hps : br.src.pieces = [] := by
      by_contra hne
      exact cut_ne_nil Nat.one_pos br.src.solid hne hchunk
    have hnone : s.saving.await on = none := by simp [await, hon, acquireByteReader, hchunk]
    refine ⟨[], ?_⟩
    rcases hfresh : off.fresh with _ | _
    · have hsucc := br.peek_succ_ended hroom hps
      rw [hbuf, List.length_nil] at hsucc
      have hnone' : s.usual.await off = none := by simp [await, hoff, hfresh, hsucc]
      exact ⟨[], by simp [Server.readHeader, hnone], by simp [Server.readHeader, hnone']⟩
    · obtain ⟨str, hstr⟩ := s.usual.headerOf_ended s.usual.freshHeader hbuf hps
      refine ⟨str, by simp [Server.readHeader, hnone], ?_⟩
      have hawait : s.usual.await off = some br := by simp [await, hoff, hfresh]
      rw [s.usual.readHeader_eq hawait, h.first hfresh]
      exact hstr
  · left
    have hps : br.src.pieces ≠ [] := by
      intro hnil
      simp [Source.chunk, hnil, cut] at hchunk
    have hsome : s.saving.await on = some (.new br.size ((br.src.rest 1).push b) br.least) := by
      simp only [await, hon, acquireByteReader, hchunk, hsize]
      rfl
    have hloop := RequestHeader.readLoop_pushed (h := s.freshHeader) rfl hbuf hchunk rfl off.prevMethodIsPost
    rw [s.saving.readHeader_eq hsome, h.post]
    refine (s.headerOf_same hloop).trans ?_
    rcases hfresh : off.fresh with _ | _
    · have hsucc := br.peek_succ_more hroom hps
      rw [hbuf, List.length_nil] at hsucc
      have hawait : s.usual.await off = some br.fetch := by simp [await, hoff, hfresh, hsucc]
      rw [s.usual.readHeader_eq hawait]
      rfl
    · have hawait : s.usual.await off = some br := by simp [await, hoff, hfresh]
      rw [s.usual.readHeader_eq hawait, h.first hfresh]
      exact congrArg s.headerOf (Retry.Loop.read_fetch s.freshHeader hbuf hps)

theorem readHeader_size {br₀ : Reader Byte Err} {h : RequestHeader} (hin : c.input = .reader br₀)
    (hread : s.readHeader c = .ok (h, br)) : br.size = br₀.size := by
  rcases hawait : s.await c with _ | br₁
  · simp [Server.readHeader, hawait] at hread
  have hsize : br₁.size = br₀.size := by
    simp only [await, hin] at hawait
    split_ifs at hawait
    · cases hawait
      rfl
    · have hpeek := br₀.peek_size 1
      rcases hp : br₀.peek 1 with ⟨b | ⟨b, e⟩ | b, r'⟩ <;> rw [hp] at hpeek <;> simp only [hp] at hawait
      · cases hawait
        exact hpeek
      · cases hawait
      · cases hawait
  have hloop := readLoop_size s.freshHeader br₁ c.prevMethodIsPost true
  rw [s.readHeader_eq hawait] at hread
  unfold headerOf at hread
  rcases ho : s.freshHeader.readLoop br₁ c.prevMethodIsPost true with ⟨_ | e, h', r'⟩ <;> rw [ho] at hread hloop
  · dsimp only at hread
    split_ifs at hread
    cases hread
    exact hloop.trans hsize
  · cases hread

theorem Alike.receive (h : s.Alike on off) (x : Turn) :
    ((s.saving.receive on x).2 = none ∧ (s.usual.receive off x).2 = none) ∨
    ∃ header input input', (s.saving.receive on x).2 = some ⟨header, input⟩ ∧ (s.usual.receive off x).2 = some ⟨header, input'⟩ ∧
      s.SameInput input input' := by
  unfold Server.receive
  rcases h.readHeader with heq | ⟨str, str', hon, hoff⟩
  swap
  · left
    simp [hon, hoff]
  rw [heq]
  rcases hread : s.usual.readHeader off with str | ⟨hd, br⟩
  · exact .inl ⟨rfl, rfl⟩
  obtain ⟨br₀, hin, hsize₀⟩ := h.input.reader
  have hsize := readHeader_size hin hread
  have hcont : s.saving.continues hd = s.usual.continues hd := rfl
  have hbody : s.saving.readBody x hd br = s.usual.readBody x hd br := rfl
  simp only [hcont, hbody]
  split_ifs
  · exact .inl ⟨rfl, rfl⟩
  · exact .inl ⟨rfl, rfl⟩
  rcases hq : s.usual.readBody x hd br with ⟨_ | e, req, br'⟩
  swap
  · exact .inl ⟨rfl, rfl⟩
  have hplain : s.streamRequestBody = false → br'.size = s.readerSize ∧ req.bodyStream = none := by
    intro hstream
    have hread : s.usual.readBody x hd br =
        (s.request hd).readBody s.multipart br (s.usual.maxBodySize hd) (!s.disablePreParseMultipartForm) x.cap :=
          if_neg (by simp [usual, hstream])
    have hbody := (s.request hd).readBody_size s.multipart br (s.usual.maxBodySize hd) (!s.disablePreParseMultipartForm) x.cap
    have hnone := (s.request hd).readBody_bodyStream s.multipart br (s.usual.maxBodySize hd) (!s.disablePreParseMultipartForm) x.cap
    rw [← hread, hq] at hbody hnone
    exact ⟨by rw [hbody, hsize, hsize₀ hstream], hnone⟩
  dsimp only
  unfold Server.handle
  rcases hstream : req.bodyStream with _ | stream
  · exact .inr ⟨req.header, _, _, rfl, rfl, s.sameInput_release fun h => (hplain h).1⟩
  · dsimp only
    rcases hclose : Request.closeBodyStream _ _ _ with ⟨_ | e, req', br''⟩
    · refine .inr ⟨req.header, _, _, rfl, rfl, .inl rfl, _, rfl, fun h => ?_⟩
      rw [(hplain h).2] at hstream
      cases hstream
    · exact .inl ⟨rfl, rfl⟩

def Step (s : Server) (on off : Option ServerConn) : Prop :=
  (on = none ∧ off = none) ∨ ∃ c c', on = some c ∧ off = some c' ∧ s.Alike c c'

theorem Alike.round (h : s.Alike on off) (x : Turn) : s.Step (s.saving.round on x).next (s.usual.round off x).next := by
  unfold Server.round
  rcases hon : s.saving.receive on x with ⟨sent, r⟩
  rcases hoff : s.usual.receive off x with ⟨sent', r'⟩
  have hreceive := h.receive x
  rw [hon, hoff] at hreceive
  rcases hreceive with ⟨rfl, rfl⟩ | ⟨header, input, input', rfl, rfl, hsame⟩
  · exact .inl ⟨rfl, rfl⟩
  dsimp only
  by_cases hends : s.Ends header x
  · have hsaving : (s.saving.respond x ⟨header, input⟩).next = none := respond_ends hends
    have husual : (s.usual.respond x ⟨header, input'⟩).next = none := respond_ends hends
    exact .inl ⟨hsaving, husual⟩
  · have hsaving := respond_stays (s := s.saving) (x := x) (r := ⟨header, input⟩) hends
    have husual := respond_stays (s := s.usual) (x := x) (r := ⟨header, input'⟩) hends
    rw [hsaving, husual]
    refine .inr ⟨_, _, rfl, rfl, rfl, rfl, by simp, ?_⟩
    split_ifs
    · exact hsame.dropLineEnds
    · exact hsame

theorem under_eq {layer : Layer} {a : Turn × Option Below} (h : Unmixed layer (some c) a) : c.under layer a.2 = c := by
  unfold ServerConn.under
  rcases layer with _ | _ | _
  · rfl
  · rcases ha : a.2 with _ | w
    · rfl
    · obtain ⟨br, hbr⟩ := h rfl (by simp [ha]) c rfl
      rw [hbr]
  · rfl

theorem Step.feeds {on off : Option ServerConn} (layer : Layer) (as : List (Turn × Option Below)) (h : s.Step on off)
    (halong : (s.saving.layered layer).Along (Unmixed layer) on as) : s.saving.feeds layer on as = s.usual.feeds layer off as := by
  induction as generalizing on off with
  | nil =>
    rcases h with ⟨rfl, rfl⟩ | ⟨c, c', rfl, rfl, -⟩
    · rfl
    · rfl
  | cons a as ih =>
    rcases h with ⟨rfl, rfl⟩ | ⟨c, c', rfl, rfl, halike⟩
    · rfl
    obtain ⟨hgood, hrest⟩ := halong
    have hunder := under_eq (hgood rfl)
    obtain ⟨br, hbr, -⟩ := halike.input.reader
    have hunder' : c'.under layer a.2 = c' := under_eq fun _ _ c'' hc'' => ⟨br, by cases hc''; exact hbr⟩
    have hon : (s.saving.layered layer).next (some c) a = (s.saving.round c a.1).next :=
      congrArg (fun c => (s.saving.round c a.1).next) hunder
    have hoff : (s.usual.layered layer).next (some c') a = (s.usual.round c' a.1).next :=
      congrArg (fun c => (s.usual.round c a.1).next) hunder'
    unfold Server.feeds
    rw [hunder, hunder', fed_eq, fed_eq, halike.input.unread_eq, hon, hoff]
    rw [hon] at hrest
    rw [ih (halike.round a.1) hrest]

end Server

end Fasthttp
