import Fasthttp.Body.Whole
import Fasthttp.Response.Write

/-!
# Chunks are read as they are written

`writeBodyChunked` against `readBodyChunked`: sizes, chunks and sequences of chunks, each in front of arbitrary bytes.
-/

namespace Fasthttp

open Bufio List

variable {fuel : Nat} {s : Source Byte Err}

theorem hexDigit_spec {n : Nat} (h : n < 16) : isHex (ch n.digitChar) = true ∧ hex2intTable (ch n.digitChar) = n := by
  revert n; decide

theorem writeHexInt_spec (n : Nat) : (∀ c ∈ writeHexInt n, isHex c = true) ∧ hexValue 0 (writeHexInt n) = n := by
  unfold writeHexInt
  induction n using Nat.strong_induction_on with
  | _ n ih =>
    by_cases hn : n < 16
    · simp [Nat.toDigits_of_lt_base hn, hexDigit_spec hn, hexValue]
    · obtain ⟨hall, hval⟩ := ih (n / 16) (by omega)
      have hd := hexDigit_spec (Nat.mod_lt n (by omega : 0 < 16))
      rw [Nat.toDigits_of_base_le (b := 16) (by omega) (Nat.le_of_not_lt hn), map_append]
      refine ⟨forall_mem_append.mpr ⟨hall, by simpa using hd.1⟩, ?_⟩
      simp only [hexValue] at hval ⊢
      rw [foldl_append]
      simp only [map_cons, map_nil, foldl_cons, foldl_nil]
      rw [← Nat.shiftLeft_add_eq_or_of_lt (by omega)]
      omega

theorem writeHexInt_ne_nil (n : Nat) : writeHexInt n ≠ [] := by simp [writeHexInt]

theorem writeHexInt_length_le_iff {n : Nat} : (writeHexInt n).length ≤ maxHexIntChars ↔ n < 16 ^ 15 := by
  rw [writeHexInt, length_map]
  exact Nat.length_toDigits_le_iff (by omega) (by decide)

theorem takeWhile_writeHexInt (n : Nat) {t : Bytes} (ht : ∀ c ∈ t.head?, hex2intTable c = 16) :
    (writeHexInt n ++ t).takeWhile isHex = writeHexInt n := by
  rw [takeWhile_append_of_pos (writeHexInt_spec n).1]
  rcases t with _ | ⟨c, t⟩
  · exact append_nil _
  · rw [takeWhile_cons_of_neg (by simpa [isHex] using ht), append_nil]

theorem sizeLine_hex {n : Nat} (hn : n < 16 ^ 15) (z : Bytes) :
    sizeLine (writeHexInt n ++ (strCRLF ++ z)) = .size n ((writeHexInt n).length + 2) := by
  have hd : (writeHexInt n ++ (strCRLF ++ z)).takeWhile isHex = writeHexInt n := takeWhile_writeHexInt n (by simp [strCRLF]; decide)
  simp only [sizeLine, hd, if_neg (writeHexInt_ne_nil n), if_neg (Nat.not_lt.mpr (writeHexInt_length_le_iff.mpr hn))]
  simp [strCRLF, crLf, (writeHexInt_spec n).2]

theorem chunks_writeChunk {b : Bytes} (hb : b ≠ []) (hlen : b.length < 16 ^ 15) (z : Bytes) :
    chunks 0 (writeChunk b ++ z) = (chunks 0 z).behind b (writeChunk b).length := by
  have hpos := length_pos_iff.mpr hb
  have hsplit : writeChunk b ++ z = writeHexInt b.length ++ (strCRLF ++ (b ++ (strCRLF ++ z))) := by simp [writeChunk]
  have hdrop : (writeHexInt b.length ++ (strCRLF ++ (b ++ (strCRLF ++ z)))).drop ((writeHexInt b.length).length + 2)
      = b ++ (strCRLF ++ z) := by
    rw [← append_assoc]
    exact drop_left' (by simp [strCRLF])
  have hend : crLf ((b ++ (strCRLF ++ z)).drop b.length) = .ok := by rw [drop_left]; rfl
  have hrest : (b ++ (strCRLF ++ z)).drop (b.length + 2) = z := by
    rw [← append_assoc]
    exact drop_left' (by simp [strCRLF])
  rw [hsplit, chunks_size (sizeLine_hex hlen _) hpos, hdrop, chunks_full hpos (by simp), hend]
  simp only [hrest, take_left]
  simp only [Walk.behind, nil_append, writeChunk, length_append, Walk.mk.injEq, true_and, strCRLF, length_cons,
    length_nil]
  omega

theorem chunks_writePieces {ps : List Bytes} (hlen : ∀ p ∈ ps, p.length < 16 ^ 15) (z : Bytes) :
    chunks 0 (writePieces ps ++ z) = ⟨ps.flatten, .done, (writePieces ps).length⟩ := by
  induction ps with
  | nil =>
    have hend : writePieces [] = writeHexInt 0 ++ strCRLF := by decide
    rw [hend, append_assoc, chunks_zero (sizeLine_hex (by decide) z)]
    simp [strCRLF]
  | cons p ps ih =>
    have hrest := ih fun q hq => hlen q (mem_cons_of_mem _ hq)
    by_cases hp : p = []
    · have heq : writePieces (p :: ps) = writePieces ps := by simp [writePieces, hp]
      rw [heq, hrest, hp, flatten_cons, nil_append]
    · have heq : writePieces (p :: ps) = writeChunk p ++ writePieces ps := by simp [writePieces, hp]
      rw [heq, append_assoc, chunks_writeChunk hp (hlen p mem_cons_self), hrest]
      simp [Walk.behind]

theorem chunks_writeChunk_long {b : Bytes} (hlen : 16 ^ 15 ≤ b.length) (z : Bytes) :
    (chunks 0 (writeChunk b ++ z)).stop ≠ .done := by
  have hsplit : writeChunk b ++ z = writeHexInt b.length ++ (strCRLF ++ (b ++ (strCRLF ++ z))) := by simp [writeChunk]
  have hd : (writeHexInt b.length ++ (strCRLF ++ (b ++ (strCRLF ++ z)))).takeWhile isHex = writeHexInt b.length :=
    takeWhile_writeHexInt b.length (by simp [strCRLF]; decide)
  have hdigits : maxHexIntChars < (writeHexInt b.length).length :=
    Nat.not_le.mp fun hle => absurd (writeHexInt_length_le_iff.mp hle) (Nat.not_lt.mpr hlen)
  have hsize : sizeLine (writeChunk b ++ z) = .broken .tooLargeHexNum (maxHexIntChars + 1) := by
    rw [hsplit]
    simp only [sizeLine, hd, if_neg (writeHexInt_ne_nil b.length), if_pos hdigits]
  rw [chunks_broken hsize]
  simp

theorem chunks_writePieces_done {ps : List Bytes} {z : Bytes} (h : (chunks 0 (writePieces ps ++ z)).stop = .done) :
    ∀ p ∈ ps, p.length < 16 ^ 15 := by
  induction ps with
  | nil => simp
  | cons p ps ih =>
    by_cases hp : p = []
    · have heq : writePieces (p :: ps) = writePieces ps := by simp [writePieces, hp]
      rw [heq] at h
      exact forall_mem_cons.mpr ⟨by simp [hp], ih h⟩
    · have heq : writePieces (p :: ps) = writeChunk p ++ writePieces ps := by simp [writePieces, hp]
      rw [heq, append_assoc] at h
      have hlen : p.length < 16 ^ 15 := by
        by_contra hlong
        exact chunks_writeChunk_long (Nat.le_of_not_lt hlong) _ h
      rw [chunks_writeChunk hp hlen] at h
      exact forall_mem_cons.mpr ⟨hlen, ih h⟩

theorem writeChunks_pieces {out : Bytes} (h : writeChunks fuel s = .ok out)
    (hf : s.items.length < fuel) :
    ∃ ps : List Bytes, out = writePieces ps ∧ ps.flatten = s.items ∧ (∀ p ∈ ps, p.length ≤ chunkBufSize) ∧ s.last = .eof := by
  induction fuel generalizing s out with
  | zero => omega
  | succ fuel ih =>
    simp only [writeChunks] at h
    have hitems := s.chunk_append_rest chunkBufSize
    rcases hc : s.chunk chunkBufSize with _ | ⟨c, b⟩ <;> simp only [hc] at h
    · split at h <;> cases h
      rename_i hlast
      refine ⟨[], by decide, ?_, by simp, hlast⟩
      have hpieces : s.pieces = [] := by
        by_contra hne
        exact cut_ne_nil (by decide) s.solid hne hc
      exact (s.items_eq_nil.mpr hpieces).symm
    · rw [hc] at hitems
      have hlen := congrArg List.length hitems
      rw [length_append, length_cons] at hlen
      rcases hw : writeChunks fuel (s.rest chunkBufSize) with e | rest
      · simp [hw, Except.map] at h
      · simp only [hw, Except.map, Except.ok.injEq] at h
        obtain ⟨ps, rfl, hps, hall, hlast⟩ := ih hw (by omega)
        have hsize : (c :: b).length ≤ chunkBufSize := hc ▸ cut_length_le _ _
        refine ⟨(c :: b) :: ps, ?_, ?_, forall_mem_cons.mpr ⟨hsize, hall⟩, hlast⟩
        · rw [← h]
          simp [writePieces]
        · rw [flatten_cons, hps, hitems]

theorem writeChunks_walk {out : Bytes} (h : writeChunks fuel s = .ok out)
    (hf : s.items.length < fuel) (z : Bytes) : chunks 0 (out ++ z) = ⟨s.items, .done, out.length⟩ := by
  obtain ⟨ps, rfl, hps, hall, -⟩ := writeChunks_pieces h hf
  rw [← hps]
  exact chunks_writePieces (fun p hp => Nat.lt_of_le_of_lt (hall p hp) (by decide)) z

/-! ## Results of a reader -/

/-- `writeBodyChunked` over the results of its reads; over those of a stream it is `writeChunks` (`writeResults_readResults`). -/
def writeResults : List (Bytes × Option Err) → Option (Except WriteErr Bytes)
  | [] => none
  | ([], none) :: rs => writeResults rs
  | ([], some e) :: _ => some (if e = .eof then .ok chunkedEnd else .error (.stream e))
  | (c :: b, _) :: rs => (writeResults rs).map (·.map (writeChunk (c :: b) ++ ·))

def readResults : Nat → Source Byte Err → List (Bytes × Option Err)
  | 0, _ => []
  | fuel + 1, s =>
    match s.chunk chunkBufSize with
    | [] => [([], some s.last)]
    | c :: b => (c :: b, none) :: readResults fuel (s.rest chunkBufSize)

theorem writeResults_readResults (hf : s.items.length < fuel) :
    writeResults (readResults fuel s) = some (writeChunks fuel s) := by
  induction fuel generalizing s with
  | zero => omega
  | succ fuel ih =>
    have hlen := congrArg List.length (s.chunk_append_rest chunkBufSize)
    rcases hc : s.chunk chunkBufSize with _ | ⟨c, b⟩
    · simp [readResults, writeChunks, hc, writeResults]
    · rw [hc, length_append, length_cons] at hlen
      simp only [readResults, writeChunks, hc, writeResults]
      rw [ih (by omega)]
      rfl

theorem writeResults_eof (results : List Bytes) :
    writeResults (results.map (·, none) ++ [([], some .eof)]) = some (.ok (writePieces results)) := by
  induction results with
  | nil => rfl
  | cons b results ih =>
    cases b with
    | nil =>
      have heq : writePieces ([] :: results) = writePieces results := by simp [writePieces]
      rw [heq, ← ih]
      rfl
    | cons c b =>
      have heq : writePieces ((c :: b) :: results) = writeChunk (c :: b) ++ writePieces results := by simp [writePieces]
      rw [heq, map_cons, cons_append, writeResults, ih]
      rfl

/-- What a reader has delivered up to its end is read back, in front of any bytes. -/
theorem chunked_round_trip (results : List Bytes) (rest : Bytes) (maxBodySize : Int) (hlen : ∀ b ∈ results, b.length < 2 ^ 60)
    (hmax : maxBodySize ≤ 0) :
    ∃ out, writeResults (results.map (·, none) ++ [([], some .eof)]) = some (.ok out) ∧
      ∀ r : Reader Byte Err, r.unread = out ++ strCRLF ++ rest →
        ∃ r', readBodyChunked r maxBodySize = (results.flatten, none, r') ∧ r'.unread = strCRLF ++ rest := by
  refine ⟨_, writeResults_eof results, fun r hr => ?_⟩
  have hwalk := chunks_writePieces (fun p hp => (hlen p hp).trans_le (by decide)) (strCRLF ++ rest)
  rw [← append_assoc, ← hr] at hwalk
  obtain ⟨r', hread, hd⟩ := readBodyChunked_done r maxBodySize (by rw [hwalk]) (.inl hmax)
  rw [hwalk] at hread hd
  refine ⟨r', hread, ?_⟩
  rw [hd.unread, hr, append_assoc]
  exact drop_left

theorem chunked_round_trip_ab :
    ∃ out, writeResults ([ascii "a", [], ascii "bc"].map (·, none) ++ [([], some .eof)]) = some (.ok out) ∧
      ∀ r : Reader Byte Err, r.unread = out ++ strCRLF ++ ascii "GET" →
        ∃ r', readBodyChunked r 0 = ([ascii "a", [], ascii "bc"].flatten, none, r') ∧ r'.unread = strCRLF ++ ascii "GET" :=
  chunked_round_trip [ascii "a", [], ascii "bc"] (ascii "GET") 0 (by decide +kernel) (by decide)

end Fasthttp
