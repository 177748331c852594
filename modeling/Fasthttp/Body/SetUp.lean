import Fasthttp.Body.Drain
import Fasthttp.Body.Whole

/-!
# How a body stream is set up

Which of its streams `ReadBodyStream` sets up depends on the content length, the limit and the size of the reader's
buffer.
-/

namespace Fasthttp

open Bufio Reader BodyStream List

variable {c : Nat} {header : StreamHeader} {maxBodySize : Int} {r r' : Reader Byte Err} {unexpectedEOF : Err}

def readAhead (contentLength maxBodySize : Int) : Int :=
  let readN := if contentLength < maxBodySize then contentLength else maxBodySize
  if 8 * 1024 < readN then 8 * 1024 else readN

theorem readAhead_le (c : Nat) (maxBodySize : Int) :
    readAhead c maxBodySize ≤ c ∧ (0 ≤ maxBodySize → 0 ≤ readAhead c maxBodySize) ∧
      (maxBodySize < 0 → readAhead c maxBodySize = maxBodySize) := by
  unfold readAhead
  simp only
  split <;> omega

def Prefetches (size c : Nat) (maxBodySize : Int) : Prop := 0 ≤ maxBodySize ∨ c ≤ maxBodySize + size

instance (size c : Nat) (maxBodySize : Int) : Decidable (Prefetches size c maxBodySize) :=
  inferInstanceAs (Decidable (_ ∨ _))

theorem readAhead_nonneg {size : Nat} (h : Prefetches size c maxBodySize)
    (hlong : readAhead c maxBodySize + size < c) : 0 ≤ readAhead c maxBodySize := by
  obtain ⟨-, hpos, hneg⟩ := readAhead_le c maxBodySize
  rcases h with h | h
  · exact hpos h
  · omega

inductive SetUp (header : StreamHeader) (r : Reader Byte Err) (c : Nat) : Except Err BodyStream × Reader Byte Err → Prop
  | bytes (r' : Reader Byte Err) : Drops r c r' → SetUp header r c (.ok (.bytes (.new (r.unread.take c))), r')
  | two (n : Nat) (r' : Reader Byte Err) : n + r.size = c → Drops r c r' →
      SetUp header r c (.ok (.two (.new (r.unread.take n) ((r.unread.drop n).take r.size))), r')
  | request (n : Nat) (r' : Reader Byte Err) : n ≤ c → Drops r n r' →
      SetUp header r c (.ok (.request (.new (r.unread.take n) header)), r')

theorem readBodyWithStreaming_eq (r : Reader Byte Err) (c : Nat) (maxBodySize : Int) :
    readBodyWithStreaming r c maxBodySize =
      if (c : Int) ≤ readAhead c maxBodySize + r.size then
        if c ≤ r.size then
          match r.peek c with
          | (.all b, r) => (b, true, none, r.discard c)
          | (.short b e, r) => (b, true, some e, r)
          | (.full b, r) => (b, true, some .bufferFull, r)
        else
          match appendBodyFixedSize r [] ((c - r.size : Nat) : Int) with
          | (b, some e, r) => (b, false, some e, r)
          | (b, none, r) =>
            match r.peek r.size with
            | (.all _, r) => (b, false, none, r)
            | (.short _ e, r) => (b, false, some e, r)
            | (.full _, r) => (b, false, some .bufferFull, r)
      else
        match appendBodyFixedSize r [] (readAhead c maxBodySize) with
        | (b, some e, r) => (b, false, some e, r)
        | (b, none, r) => (b, false, some .bodyTooLarge, r) := by
  unfold readBodyWithStreaming readAhead
  rw [if_neg (by omega)]
  apply if_congr Iff.rfl _ rfl
  by_cases hbuf : c ≤ r.size
  · have hcast : (c : Int) ≤ r.size := by omega
    have hpos : ¬ (c : Int) < 0 := by omega
    rw [if_pos hbuf]
    exact (if_pos hcast).trans (if_neg hpos)
  · have hcast : ¬ (c : Int) ≤ r.size := by omega
    have hsub : (c : Int) - r.size = ((c - r.size : Nat) : Int) := by omega
    rw [if_neg hbuf, ← hsub]
    exact if_neg hcast

theorem setUpStream_fits (header : StreamHeader) (unexpectedEOF : Err)
    (henough : c ≤ r.unread.length) (hfit : (c : Int) ≤ readAhead c maxBodySize + r.size) :
    ∃ s r', setUpStream header unexpectedEOF r c maxBodySize = (.ok s, r') ∧ SetUp header r c (.ok s, r') ∧
      (∀ rs, s ≠ .request rs) ∧ s ≠ .conn ∧ Drops r c r' := by
  unfold setUpStream
  rw [readBodyWithStreaming_eq, if_pos hfit]
  by_cases hbuf : c ≤ r.size
  · obtain ⟨r', hp, hl, hb⟩ := peek_there henough hbuf
    rw [if_pos hbuf]
    simp only [hp]
    exact ⟨_, _, rfl, .bytes _ (hl.discard hb), by simp, by simp, hl.discard hb⟩
  · obtain ⟨r₁, happ, hd⟩ := appendBodyFixedSize_enough r [] (n := c - r.size) (by omega)
    have hrest : r₁.size ≤ r₁.unread.length := by
      rw [hd.unread, length_drop, hd.size]
      omega
    obtain ⟨r₂, hp, hl, hb⟩ := peek_there hrest (Nat.le_refl _)
    have hagain := r₂.peek_buffered (by rw [hl.size]; exact hb : r₂.size ≤ r₂.buf.length)
    have htake : r₂.buf.take r₁.size = (r.unread.drop (c - r.size)).take r.size := by
      rw [← hd.unread, ← hd.size, ← hl.unread, unread, take_append_of_le_length hb]
    rw [if_neg hbuf, happ]
    simp only [hp, hagain]
    rw [hl.size, htake]
    have hall := hd.trans (hl.discard hb)
    rw [hd.size, Nat.sub_add_cancel (by omega)] at hall
    exact ⟨_, _, rfl, .two (c - r.size) _ (by omega) (hd.size ▸ hall), by simp, by simp, hd.size ▸ hall⟩

theorem setUpStream_long (header : StreamHeader) (unexpectedEOF : Err)
    (hpre : Prefetches r.size c maxBodySize) (henough : c ≤ r.unread.length) (hlong : readAhead c maxBodySize + r.size < c) :
    ∃ (n : Nat) (r' : Reader Byte Err), (n : Int) = readAhead c maxBodySize ∧
      setUpStream header unexpectedEOF r c maxBodySize = (.ok (.request (.new (r.unread.take n) header)), r') ∧ Drops r n r' := by
  obtain ⟨n, hn⟩ := Int.eq_ofNat_of_zero_le (readAhead_nonneg hpre hlong)
  obtain ⟨r₁, happ, hd⟩ := appendBodyFixedSize_enough r [] (n := n) (by omega)
  refine ⟨n, r₁, hn.symm, ?_, hd⟩
  unfold setUpStream
  rw [readBodyWithStreaming_eq, if_neg (by omega), hn, happ]
  rfl

theorem setUpStream_spec (header : StreamHeader) (unexpectedEOF : Err)
    (hpre : Prefetches r.size c maxBodySize) (henough : c ≤ r.unread.length) :
    SetUp header r c (setUpStream header unexpectedEOF r c maxBodySize) := by
  rcases Int.lt_or_le (readAhead c maxBodySize + r.size) c with hlong | hfit
  · obtain ⟨n, r', hn, hset, hd⟩ := setUpStream_long header unexpectedEOF hpre henough hlong
    rw [hset]
    exact .request n r' (by omega) hd
  · obtain ⟨s, r', hset, hspec, -⟩ := setUpStream_fits header unexpectedEOF henough hfit
    rw [hset]
    exact hspec

/-! ## What the streams deliver -/

def BodyStream.recorded (h : RequestHeader) : BodyStream → List ArgsKV
  | .request ⟨.request h', _, _, _⟩ => h'.h
  | _ => h.h

theorem SetUp.drains {s : BodyStream}
    (h : SetUp header r c (.ok s, r')) (hc : header.contentLength = c) (henough : c ≤ r.unread.length)
    {sizes : Nat → Nat} (hsizes : ∀ i, 0 < sizes i) {fuel : Nat} (hf : c < fuel) :
    ∃ s' r'', s.drain sizes fuel r' = (r.unread.take c, some .eof, s', r'') ∧ Leaves r (r.unread.drop c) r'' ∧
      ∀ h, header = .request h → s'.recorded h = h.h := by
  cases h with
  | bytes _ hd =>
    have hlen : (r.unread.take c).length < fuel := by rw [length_take]; omega
    obtain ⟨br, hdrain⟩ := drain_bytes hsizes (r.unread.take c) r' hlen
    exact ⟨_, r', hdrain, hd.toLeaves, fun h _ => rfl⟩
  | two n _ hn hd =>
    have happ : r.unread.take n ++ (r.unread.drop n).take r.size = r.unread.take c := by rw [← take_add, hn]
    have hlen : (r.unread.take n ++ (r.unread.drop n).take r.size).length < fuel := by
      rw [happ, length_take]
      omega
    obtain ⟨tr, hdrain⟩ := drain_two hsizes (r.unread.take n) ((r.unread.drop n).take r.size) r' hlen
    rw [happ] at hdrain
    exact ⟨_, r', hdrain, hd.toLeaves, fun h _ => rfl⟩
  | request n _ hn hd =>
    have htake : (r.unread.take n).length = n := by
      rw [length_take]
      omega
    have hfs : RequestStream.FixedStream (r.unread.take n) header := ⟨by omega, by omega⟩
    have hrest : header.contentLength ≤ (r.unread.take n).length + r'.unread.length := by
      rw [hd.unread, length_drop]
      omega
    have hfuel : header.contentLength < fuel := by omega
    obtain ⟨rs', r'', hdrain, hheader, hd'⟩ := drain_fixed hsizes hfs hrest hfuel
    rw [hc, hd.unread, take_append_drop] at hdrain
    rw [hc, Int.toNat_natCast, htake] at hd'
    have hall := hd.trans hd'
    rw [Nat.add_sub_cancel' hn] at hall
    refine ⟨_, r'', hdrain, hall.toLeaves, fun h hh => ?_⟩
    obtain ⟨header', _, _, _⟩ := rs'
    subst hh
    subst hheader
    rfl

theorem readBodyWithStreaming_short (hpre : Prefetches r.size c maxBodySize)
    (hshort : r.unread.length < c) : ∃ b all e r', readBodyWithStreaming r c maxBodySize = (b, all, some e, r') ∧
      (e = r.src.last ∨ e = .bodyTooLarge ∧ readAhead c maxBodySize + r.size < c ∧ ∃ n, b = r.unread.take n ∧ n ≤ c ∧
        Drops r n r') := by
  have hnonneg := readAhead_nonneg hpre
  have heq := readBodyWithStreaming_eq r c maxBodySize
  by_cases hfit : (c : Int) ≤ readAhead c maxBodySize + r.size
  · rw [if_pos hfit] at heq
    by_cases hbuf : c ≤ r.size
    · obtain ⟨r', hp, -⟩ := peek_short hshort hbuf
      rw [if_pos hbuf, hp] at heq
      exact ⟨_, _, _, _, heq, .inl rfl⟩
    · rw [if_neg hbuf] at heq
      rcases Nat.lt_or_ge r.unread.length (c - r.size) with hlt | hge
      · obtain ⟨r', happ, -⟩ := appendBodyFixedSize_short r [] hlt
        rw [happ] at heq
        exact ⟨_, _, _, _, heq, .inl rfl⟩
      · obtain ⟨r₁, happ, hd⟩ := appendBodyFixedSize_enough r [] hge
        have hrest : r₁.unread.length < r₁.size := by
          rw [hd.unread, length_drop, hd.size]
          omega
        obtain ⟨r₂, hp, -⟩ := peek_short hrest (Nat.le_refl _)
        rw [happ] at heq
        simp only [hp] at heq
        exact ⟨_, _, _, _, heq, .inl hd.last⟩
  · rw [if_neg hfit] at heq
    obtain ⟨n, hn⟩ := Int.eq_ofNat_of_zero_le (hnonneg (by omega))
    rw [hn] at heq
    rcases Nat.lt_or_ge r.unread.length n with hlt | hge
    · obtain ⟨r', happ, -⟩ := appendBodyFixedSize_short r [] hlt
      rw [happ] at heq
      exact ⟨_, _, _, _, heq, .inl rfl⟩
    · obtain ⟨r', happ, hd⟩ := appendBodyFixedSize_enough r [] hge
      rw [happ] at heq
      exact ⟨_, _, _, _, heq, .inr ⟨rfl, by omega, n, rfl, by omega, hd⟩⟩

theorem setUpStream_panics (header : StreamHeader) (unexpectedEOF : Err)
    (h : ¬ Prefetches r.size c maxBodySize) :
    (setUpStream header unexpectedEOF r c maxBodySize).1 = .error .sliceBounds := by
  unfold Prefetches at h
  have hneg := (readAhead_le c maxBodySize).2.2 (by omega)
  have heq := readBodyWithStreaming_eq r c maxBodySize
  have happ : appendBodyFixedSize r [] maxBodySize = ([], some .sliceBounds, r) := by
    unfold appendBodyFixedSize
    rw [if_neg (by omega), if_pos (by omega)]
  rw [hneg, if_neg (by omega), happ] at heq
  unfold setUpStream
  rw [heq]
  rfl

/-- The set-up stays in range, and without a limit its stream delivers the sent body. -/
def SetsUp (c : Nat) (maxBodySize : Int) (r : Reader Byte Err) (err : Option Err) (stream : Option BodyStream)
    (r' : Reader Byte Err) : Prop :=
  err ≠ some .sliceBounds ∧ (maxBodySize ≤ 0 → c ≤ r.unread.length → ∃ s, stream = some s ∧
    ∀ (sizes : Nat → Nat) (fuel : Nat), (∀ i, 0 < sizes i) → c < fuel →
      ∃ s' r'', s.drain sizes fuel r' = (r.unread.take c, some .eof, s', r'') ∧ r''.unread = r.unread.drop c)

theorem setsUp_setUpStream (header : StreamHeader) (unexpectedEOF : Err)
    {err : Option Err} {stream : Option BodyStream} (hc : header.contentLength = c)
    (hpre : Prefetches r.size c maxBodySize) (hlast : r.src.last ≠ .sliceBounds) (hu : unexpectedEOF ≠ .sliceBounds)
    (hok : ∀ s r₁, setUpStream header unexpectedEOF r c maxBodySize = (.ok s, r₁) → err = none ∧ stream = some s ∧ r' = r₁)
    (herr : ∀ e r₁, setUpStream header unexpectedEOF r c maxBodySize = (.error e, r₁) → err = some e) :
    SetsUp c maxBodySize r err stream r' := by
  refine ⟨?_, fun _ henough => ?_⟩
  · rcases ho : setUpStream header unexpectedEOF r c maxBodySize with ⟨e | s, r₁⟩
    · rw [herr e r₁ ho]
      rcases Nat.lt_or_ge r.unread.length c with hshort | henough
      · obtain ⟨b, all, e, r', heq, he⟩ := readBodyWithStreaming_short hpre hshort
        unfold setUpStream at ho
        grind
      · have hspec := setUpStream_spec header unexpectedEOF hpre henough
        rw [ho] at hspec
        cases hspec
    · simp [(hok s r₁ ho).1]
  · have hspec := setUpStream_spec header unexpectedEOF hpre henough
    rcases ho : setUpStream header unexpectedEOF r c maxBodySize with ⟨e | s, r₁⟩
    · rw [ho] at hspec
      cases hspec
    · rw [ho] at hspec
      obtain ⟨-, rfl, rfl⟩ := hok s r₁ ho
      refine ⟨s, rfl, fun sizes fuel hsizes hf => ?_⟩
      obtain ⟨s', r'', hd, hl, -⟩ := hspec.drains hc henough hsizes hf
      exact ⟨s', r'', hd, hl.unread⟩

def Request.SetsUpStream (req : Request) (m : MultipartParser) (r : Reader Byte Err) (c : Nat) (maxBodySize : Int)
    (preParseMultipartForm : Bool) : Prop :=
  let o := req.readBodyStream m r maxBodySize preParseMultipartForm
  if req.preParse preParseMultipartForm then o.1 ≠ some .sliceBounds
  else SetsUp c maxBodySize r o.1 o.2.1.bodyStream o.2.2

def Response.SetsUpStream (resp : Response) (r : Reader Byte Err) (c : Nat) (maxBodySize : Int) : Prop :=
  let o := resp.readBodyStream r maxBodySize
  SetsUp c maxBodySize r o.1 o.2.1.bodyStream o.2.2

theorem Request.setsUpStream {req : Request} (m : MultipartParser)
    (preParseMultipartForm : Bool) (hpos : 0 < c) (hc : req.header.contentLength = c) (hlast : r.src.last ≠ .sliceBounds)
    (hpre : Prefetches r.size c maxBodySize) : req.SetsUpStream m r c maxBodySize preParseMultipartForm := by
  have hne : (c : Int) ≠ 0 := by omega
  have hlt : (0 : Int) < c := by omega
  unfold SetsUpStream readBodyStream
  simp only [hc, hne, if_false, hlt, decide_true, Bool.true_and]
  by_cases hform : req.preParse preParseMultipartForm = true
  · simp only [hform, if_true]
    unfold readMultipartForm
    rw [if_neg (by omega)]
    simp
  · simp only [hform]
    refine setsUp_setUpStream (.request req.header) .unexpectedReqBodyEOF hc hpre hlast (by simp) ?_ ?_
    · intro s r₁ ho
      simp [ho]
    · intro e r₁ ho
      simp [ho]

theorem Response.setsUpStream {resp : Response} (hpos : 0 < c)
    (hc : resp.header.contentLength = c) (hlast : r.src.last ≠ .sliceBounds) (hpre : Prefetches r.size c maxBodySize) :
    resp.SetsUpStream r c maxBodySize := by
  have hne : (c : Int) ≠ 0 := by omega
  have hne2 : (c : Int) ≠ -2 := by omega
  unfold SetsUpStream readBodyStream
  simp only [hc, hne]
  refine setsUp_setUpStream (.response resp.header) .unexpectedRespBodyEOF hc hpre hlast (by simp) ?_ ?_
  · intro s r₁ ho
    simp [ho]
  · intro e r₁ ho
    simp [ho]

/-- Both set-ups are sound exactly if the limit is not below zero, or so little that the body
fits into the buffer besides. -/
theorem readBodyStream_sound_iff (m : MultipartParser) (req : Request) (resp : Response) (r : Reader Byte Err) (c : Nat)
    (maxBodySize : Int) (preParseMultipartForm : Bool) (hpos : 0 < c) (hreq : req.header.contentLength = c)
    (hresp : resp.header.contentLength = c) (hlast : r.src.last ≠ .sliceBounds) :
    req.SetsUpStream m r c maxBodySize preParseMultipartForm ∧ resp.SetsUpStream r c maxBodySize ↔
      0 ≤ maxBodySize ∨ c ≤ maxBodySize + r.size := by
  refine ⟨fun h => ?_, fun hpre => ⟨Request.setsUpStream m _ hpos hreq hlast hpre, Response.setsUpStream hpos hresp hlast hpre⟩⟩
  by_contra hpre
  have hpanic := setUpStream_panics (.response resp.header) .unexpectedRespBodyEOF (r := r) hpre
  have hsafe := h.2.1
  rcases ho : setUpStream (.response resp.header) .unexpectedRespBodyEOF r c maxBodySize with ⟨e | s, r₁⟩ <;> rw [ho] at hpanic
  · simp only [Except.error.injEq] at hpanic
    subst hpanic
    simp only [Response.readBodyStream, hresp, ho] at hsafe
    rw [if_neg (by omega)] at hsafe
    exact hsafe rfl
  · simp at hpanic

def noForm : MultipartParser := ⟨fun _ _ => (0, none), by simp⟩

def sizedRequest (contentLength : Int) : Request := ⟨{ RequestHeader.zero with contentLength }, [], none, false⟩

def sizedResponse (contentLength : Int) : Response := ⟨{ ResponseHeader.zero with contentLength }, none⟩

theorem readBodyStream_sound_abc : (sizedRequest 3).SetsUpStream noForm (wire ["abc"]) 3 0 false ∧
    (sizedResponse 3).SetsUpStream (wire ["abc"]) 3 0 :=
  (readBodyStream_sound_iff noForm (sizedRequest 3) (sizedResponse 3) (wire ["abc"]) 3 0 false (by decide) rfl rfl
    (by decide)).mpr (.inl (by decide))

/-- Without a limit, written as a limit below zero, a long body makes the set-up slice out of
range. -/
theorem readBodyStream_panics : ¬ (sizedRequest 10000).SetsUpStream noForm (wire ["abc"]) 10000 (-1) false := by
  unfold Request.SetsUpStream
  rw [if_neg (by decide +kernel)]
  exact fun h => h.1 (by decide +kernel)

end Fasthttp
