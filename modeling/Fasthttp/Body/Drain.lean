import Fasthttp.Body.Ending
import Fasthttp.Body.Message

/-!
# Streams that are read to their end

One rule for all kinds of streams: what a stream is to deliver is an invariant, and every read of a slice that is not
empty takes some of it from the front.
-/

namespace Fasthttp

open Bufio Reader List

namespace BodyStream

variable {fuel : Nat}

inductive ReadsOn (I : Bytes → BodyStream → Reader Byte Err → Prop) (Q : Err → BodyStream → Reader Byte Err → Prop) (t : Bytes) :
    Bytes × Option Err × BodyStream × Reader Byte Err → Prop
  | data (bs t' : Bytes) (s : BodyStream) (r : Reader Byte Err) : bs ≠ [] → t = bs ++ t' → I t' s r →
      ReadsOn I Q t (bs, none, s, r)
  | done (e : Err) (s : BodyStream) (r : Reader Byte Err) : t = [] → Q e s r → ReadsOn I Q t ([], some e, s, r)

variable {I : Bytes → BodyStream → Reader Byte Err → Prop} {Q : Reader Byte Err → Err → BodyStream → Reader Byte Err → Prop}

variable {sizes : Nat → Nat}

def beforeEnd (sizes : Nat → Nat) : Nat → BodyStream → Reader Byte Err → Reader Byte Err
  | 0, _, r => r
  | fuel + 1, s, r =>
    match s.read r (sizes fuel) with
    | (_, some _, _, _) => r
    | (_, none, s', r') => beforeEnd sizes fuel s' r'

theorem drain_rule (hstep : ∀ t s r k, 0 < k → I t s r → ReadsOn I (Q r) t (s.read r k))
    (hsizes : ∀ i, 0 < sizes i) (fuel : Nat) {t : Bytes} {s : BodyStream} {r : Reader Byte Err} (hI : I t s r)
    (hf : t.length < fuel) : ∃ e s' r', s.drain sizes fuel r = (t, some e, s', r') ∧ Q (s.beforeEnd sizes fuel r) e s' r' := by
  induction fuel generalizing t s r with
  | zero => omega
  | succ fuel ih =>
    have hread := hstep t s r (sizes fuel) (hsizes fuel) hI
    generalize hout : s.read r (sizes fuel) = out at hread
    cases hread with
    | data bs t' s' r' hne ht hI' =>
      subst ht
      have hpos := length_pos_iff.mpr hne
      rw [length_append] at hf
      obtain ⟨e, s'', r'', hd, hQ⟩ := ih hI' (by omega)
      exact ⟨e, s'', r'', by simp [drain, hout, hd], by simpa [beforeEnd, hout] using hQ⟩
    | done e s' r' ht hQ => exact ⟨e, s', r', by simp [drain, hout, ht], by simpa [beforeEnd, hout] using hQ⟩

theorem take_ne_nil {l : Bytes} {k : Nat} (hl : l ≠ []) (hk : 0 < k) : l.take k ≠ [] := by
  have := length_pos_iff.mpr hl
  rw [← length_pos_iff, length_take]
  omega

theorem drop_taken (l : Bytes) (i k : Nat) : l.drop (i + ((l.drop i).take k).length) = (l.drop i).drop k := by
  rw [length_take, ← drop_drop]
  rcases Nat.le_total k (l.drop i).length with hle | hle
  · rw [Nat.min_eq_left hle]
  · rw [Nat.min_eq_right hle, drop_length, drop_eq_nil_of_le hle]

theorem drain_bytes (hsizes : ∀ i, 0 < sizes i) (b : Bytes) (r : Reader Byte Err)
    (hf : b.length < fuel) : ∃ br, (bytes (.new b)).drain sizes fuel r = (b, some .eof, bytes br, r) := by
  have hstep : ∀ t s r' k, 0 < k → (∃ br : BytesReader, s = bytes br ∧ br.s.drop br.i = t ∧ r' = r) →
      ReadsOn (fun t s r' => ∃ br : BytesReader, s = bytes br ∧ br.s.drop br.i = t ∧ r' = r)
        (fun e s' r' => e = .eof ∧ r' = r ∧ ∃ br, s' = bytes br) t (s.read r' k) := by
    rintro t s r' k hk ⟨br, rfl, rfl, rfl⟩
    unfold read BytesReader.read
    by_cases hend : br.s.length ≤ br.i
    · simp only [hend]
      exact .done _ _ _ (drop_eq_nil_of_le hend) ⟨rfl, rfl, _, rfl⟩
    · simp only [hend]
      have hne : br.s.drop br.i ≠ [] := by
        rw [← length_pos_iff, length_drop]
        omega
      exact .data _ _ _ _ (take_ne_nil hne hk) (take_append_drop k _).symm ⟨_, rfl, drop_taken _ _ _, rfl⟩
  obtain ⟨e, s', r', hd, rfl, rfl, br, rfl⟩ := drain_rule hstep hsizes fuel ⟨.new b, rfl, rfl, rfl⟩ hf
  exact ⟨br, hd⟩

def TwoInv (r₀ : Reader Byte Err) (t : Bytes) (s : BodyStream) (r : Reader Byte Err) : Prop :=
  ∃ tr : TwoBytesReader, s = two tr ∧ r = r₀ ∧
    (tr.current = 1 ∧ t = tr.second.drop tr.i ∨ tr.current = 0 ∧ tr.i ≤ tr.first.length ∧ t = tr.first.drop tr.i ++ tr.second)

theorem twoInv_second (r : Reader Byte Err) (tr : TwoBytesReader) (hc : tr.current = 1) {k : Nat} (hk : 0 < k) :
    ReadsOn (TwoInv r) (fun e s' r' => e = .eof ∧ r' = r ∧ ∃ tr, s' = two tr) (tr.second.drop tr.i)
      ((tr.readSecond k).1, (tr.readSecond k).2.1, two (tr.readSecond k).2.2, r) := by
  unfold TwoBytesReader.readSecond
  by_cases hend : tr.second.length ≤ tr.i
  · simp only [hend]
    exact .done _ _ _ (drop_eq_nil_of_le hend) ⟨rfl, rfl, _, rfl⟩
  · simp only [hend]
    have hne : tr.second.drop tr.i ≠ [] := by
      rw [← length_pos_iff, length_drop]
      omega
    exact .data _ _ _ _ (take_ne_nil hne hk) (take_append_drop k _).symm
      ⟨_, rfl, rfl, .inl ⟨hc, (drop_taken _ _ _).symm⟩⟩

theorem drain_two (hsizes : ∀ i, 0 < sizes i) (b b2 : Bytes) (r : Reader Byte Err)
    (hf : (b ++ b2).length < fuel) : ∃ tr, (two (.new b b2)).drain sizes fuel r = (b ++ b2, some .eof, two tr, r) := by
  have hstep : ∀ t s r' k, 0 < k → TwoInv r t s r' →
      ReadsOn (TwoInv r) (fun e s' r' => e = .eof ∧ r' = r ∧ ∃ tr, s' = two tr) t (s.read r' k) := by
    rintro t s r' k hk ⟨tr, rfl, rfl, ⟨hc, rfl⟩ | ⟨hc, hi, rfl⟩⟩
    · have hread : (two tr).read r' k = ((tr.readSecond k).1, (tr.readSecond k).2.1, two (tr.readSecond k).2.2, r') := by
        simp [read, TwoBytesReader.read, hc]
      rw [hread]
      exact twoInv_second r' tr hc hk
    · generalize hbs : (tr.first.drop tr.i).take k = bs
      have hsplit : tr.first.drop tr.i = bs ++ (tr.first.drop tr.i).drop k := by rw [← hbs, take_append_drop]
      have hdrop := drop_taken tr.first tr.i k
      rw [hbs] at hdrop
      have hempty : bs = [] ↔ tr.i = tr.first.length := by
        rw [← hbs, ← length_eq_zero_iff, length_take, length_drop]
        omega
      by_cases hlast : tr.i + bs.length = tr.first.length
      · -- the first slice ends here
        rw [drop_eq_nil_of_le (by omega)] at hdrop
        rw [← hdrop, append_nil] at hsplit
        rw [hsplit]
        by_cases hnil : bs = []
        · subst hnil
          have hread : (two tr).read r' k = ((TwoBytesReader.readSecond { tr with current := 1, i := 0 } k).1,
              (TwoBytesReader.readSecond { tr with current := 1, i := 0 } k).2.1,
              two (TwoBytesReader.readSecond { tr with current := 1, i := 0 } k).2.2, r') := by
            simp only [read, TwoBytesReader.read, hc]
            simp [hempty.mp rfl]
          rw [hread]
          exact twoInv_second r' { tr with current := 1, i := 0 } rfl hk
        · have hread : (two tr).read r' k = (bs, none, two { tr with current := 1, i := 0 }, r') := by
            simp only [read, TwoBytesReader.read, hc, hbs, hlast]
            simp [hnil]
          rw [hread]
          exact .data _ _ _ _ hnil rfl ⟨_, rfl, rfl, .inl ⟨rfl, rfl⟩⟩
      · have hread : (two tr).read r' k = (bs, none, two { tr with i := tr.i + bs.length }, r') := by
          simp only [read, TwoBytesReader.read, hc, hbs]
          simp [hlast]
        have hle : tr.i + bs.length ≤ tr.first.length := by
          rw [← hbs, length_take, length_drop]
          omega
        rw [hread, hsplit, append_assoc, ← hdrop]
        exact .data _ _ _ _ (fun hnil => hlast (by rw [hnil, hempty.mp hnil]; rfl)) rfl
          ⟨_, rfl, rfl, .inr ⟨hc, hle, rfl⟩⟩
  have hstart : TwoInv r (b ++ b2) (two (.new b b2)) r := ⟨.new b b2, rfl, rfl, .inr ⟨rfl, by simp [TwoBytesReader.new], rfl⟩⟩
  obtain ⟨e, s', r', hd, rfl, rfl, tr, rfl⟩ := drain_rule hstep hsizes fuel hstart hf
  exact ⟨tr, hd⟩

/-! ## Streams over the connection -/

open RequestStream

def FixedRest (b : Bytes) (h : StreamHeader) (r₀ : Reader Byte Err) (t : Bytes) (s : BodyStream) (r : Reader Byte Err) : Prop :=
  ∃ out rs, s = request rs ∧ rs.header = h ∧ FixedInv b r₀ out rs r ∧ (b ++ r₀.unread).take h.contentLength.toNat = out ++ t

theorem drain_fixed (hsizes : ∀ i, 0 < sizes i) {b : Bytes} {h : StreamHeader} {r₀ : Reader Byte Err}
    (hs : FixedStream b h) (henough : h.contentLength ≤ b.length + r₀.unread.length)
    (hf : h.contentLength < fuel) :
    ∃ rs' r', (request (.new b h)).drain sizes fuel r₀
        = ((b ++ r₀.unread).take h.contentLength.toNat, some .eof, request rs', r') ∧
      rs'.header = h ∧ Drops r₀ (h.contentLength.toNat - b.length) r' := by
  have hpos := hs.nonneg
  have hstep : ∀ t s r k, 0 < k → FixedRest b h r₀ t s r → ReadsOn (FixedRest b h r₀)
      (fun e s' r' => e = .eof ∧ ∃ rs', s' = request rs' ∧ rs'.header = h ∧
        Leaves r₀ (r₀.unread.drop (h.contentLength.toNat - b.length)) r') t (s.read r k) := by
    rintro t s r k hk ⟨out, rs, rfl, rfl, hI, ht⟩
    have hspec := readFixed_spec hs.fits hI k
    have hread : (request rs).read r k = ((rs.readFixed r k).1, (rs.readFixed r k).2.1, request (rs.readFixed r k).2.2.1,
        (rs.readFixed r k).2.2.2) := by
      simp [read, read_fixed (by omega : rs.header.contentLength ≠ -1)]
    rw [hread]
    have hlen := congrArg List.length ht
    simp only [length_take, length_append] at hlen
    generalize rs.readFixed r k = o at hspec
    cases hspec with
    | done hdone =>
      refine .done _ _ _ (length_eq_zero_iff.mp (by omega)) ⟨rfl, rs, rfl, rfl, ?_⟩
      have hl := hI.leaves
      rwa [← hdone]
    | data bs rs' r' hne hh hI' =>
      have hle := hI'.le
      rw [hh, length_append] at hle
      have hfront : out ++ bs <+: out ++ t := by
        rw [← hI'.front, ← ht]
        exact take_prefix_take_left (by rw [length_append]; omega)
      obtain ⟨t', rfl⟩ := (prefix_append_right_inj out).mp hfront
      exact .data bs t' _ _ (hne hk) rfl ⟨out ++ bs, rs', rfl, hh, hI', by rw [append_assoc]; exact ht⟩
    | cut rs' r' hall hlt =>
      have := congrArg List.length hall
      rw [length_append] at this
      omega
  have hstart : FixedRest b h r₀ ((b ++ r₀.unread).take h.contentLength.toNat) (request (.new b h)) r₀ :=
    ⟨[], .new b h, rfl, rfl, fixedInv_new b h r₀ hpos, rfl⟩
  obtain ⟨e, s', r', hd, rfl, rs', rfl, hh, hl⟩ := drain_rule hstep hsizes fuel hstart
    (by simp only [length_take]; omega)
  exact ⟨rs', r', hd, hh, hl, by omega⟩

def ChunksRest (h : StreamHeader) (r₀ : Reader Byte Err) (t : Bytes) (s : BodyStream) (r : Reader Byte Err) : Prop :=
  ∃ out rs, s = request rs ∧ ChunkInv (.new [] h) r₀ out rs r ∧ (chunks 0 r₀.unread).body = out ++ t

/-- The trailer is read behind the size of the last chunk, which the reader `r` has before it. -/
def TrailerRead (h : StreamHeader) (r₀ r : Reader Byte Err) (e : Err) (s' : BodyStream) (r' : Reader Byte Err) : Prop :=
  ∃ r₁ rs, (parseChunkSize r).2 = r₁ ∧ Leaves r₀ (r₀.unread.drop (chunks 0 r₀.unread).len) r₁ ∧
    e = (h.readTrailer r₁).1.getD .eof ∧ s' = request rs ∧ rs.header = (h.readTrailer r₁).2.1 ∧ r' = (h.readTrailer r₁).2.2

theorem drain_chunks (hsizes : ∀ i, 0 < sizes i) {h : StreamHeader} {r₀ : Reader Byte Err}
    (hc : h.contentLength = -1) (hstop : (chunks 0 r₀.unread).stop = .done)
    (hf : (chunks 0 r₀.unread).body.length < fuel) :
    ∃ e s' r', (request (.new [] h)).drain sizes fuel r₀ = ((chunks 0 r₀.unread).body, some e, s', r') ∧
      TrailerRead h r₀ ((request (.new [] h)).beforeEnd sizes fuel r₀) e s' r' := by
  have hstep : ∀ t s r k, 0 < k → ChunksRest h r₀ t s r →
      ReadsOn (ChunksRest h r₀) (TrailerRead h r₀ r) t (s.read r k) := by
    rintro t s r k hk ⟨out, rs, rfl, hI, ht⟩
    have hheader : rs.header = h := hI.header
    obtain ⟨m, hm, -⟩ := hI.ahead
    have hstop' := congrArg Walk.stop hm
    change (chunks 0 r₀.unread).stop = (rs.ahead r).stop at hstop'
    have hbody := congrArg Walk.body hm
    change (chunks 0 r₀.unread).body = out ++ (rs.ahead r).body at hbody
    obtain rfl : (rs.ahead r).body = t := append_cancel_left (hbody.symm.trans ht)
    have hspec := rs.readChunked_spec r k
    have hread : (request rs).read r k = ((rs.readChunked r k).1, (rs.readChunked r k).2.1,
        request (rs.readChunked r k).2.2.1, (rs.readChunked r k).2.2.2) := by
      simp [read, read_chunked (hheader ▸ hc : rs.header.contentLength = -1)]
    rw [hread]
    generalize rs.readChunked r k = o at hspec
    cases hspec with
    | data bs n left r' hne hbs hw hd =>
      have hbody' : (rs.ahead r).body = bs ++ (chunks left r'.unread).body := congrArg Walk.body hw
      refine .data bs (chunks left r'.unread).body _ _ (hne hk) hbody' ⟨out ++ bs, _, rfl, hI.data hw hd, ?_⟩
      rw [hbody, hbody', append_assoc]
    | done n r' hw ht' hp =>
      obtain ⟨-, -, hleave⟩ := hI.complete hw ht'
      exact .done _ _ _ (by rw [hw]) ⟨r', _, hp, hleave, by rw [hheader], rfl, by rw [hheader], by rw [hheader]⟩
    | stop bs e left r' _ he =>
      rw [← hstop', hstop] at he
      cases he
  have hstart : ChunksRest h r₀ (chunks 0 r₀.unread).body (request (.new [] h)) r₀ :=
    ⟨[], .new [] h, rfl, chunkInv_start _ _, rfl⟩
  exact drain_rule hstep hsizes fuel hstart hf

end BodyStream

end Fasthttp
