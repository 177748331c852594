import Fasthttp.Body.Read

/-!
# The wire format of a chunked body

What the readers of a chunked body find depends only on the bytes that are unread: `sizeLine` is what they find at a
chunk size, `walk` how far they come in the whole body.
-/

namespace Fasthttp

open Bufio Reader List

variable {e : Err} {left m n size : Nat} {t : Bytes}

inductive Found
  | ok
  | cut
  | broken (e : Err) (len : Nat)
  deriving DecidableEq, Repr

def crLf : Bytes → Found
  | [] => .cut
  | c :: t =>
    if c ≠ rChar then .broken (.brokenChunk c rChar) 1
    else match t with
      | [] => .cut
      | d :: _ => if d ≠ nChar then .broken (.brokenChunk d nChar) 2 else .ok

theorem readCrLf_spec (r : Reader Byte Err) : match crLf r.unread with
    | .ok => ∃ r', readCrLf r = (none, r') ∧ Drops r 2 r'
    | .cut => ∃ r', readCrLf r = (some r.src.last, r') ∧ Leaves r [] r'
    | .broken e n => ∃ r', readCrLf r = (some e, r') ∧ Drops r n r' := by
  rcases hu : r.unread with _ | ⟨c, t⟩
  · obtain ⟨r', hb, hl⟩ := readByte_ended hu
    exact ⟨r', by simp [readCrLf, strCRLF, expectBytes, hb], hl⟩
  obtain ⟨r₁, hb, ht, -⟩ := readByte_next hu
  by_cases hc : c = rChar
  swap
  · simp only [crLf, hc, ne_eq]
    exact ⟨r₁, by simp [readCrLf, strCRLF, expectBytes, hb, hc], ht⟩
  subst hc
  have hu₁ : r₁.unread = t := by rw [ht.unread, hu]; rfl
  rcases t with _ | ⟨d, t⟩
  · obtain ⟨r₂, hb', hl⟩ := readByte_ended hu₁
    refine ⟨r₂, ?_, ht.toLeaves.trans hl⟩
    rw [← ht.last]
    simp [readCrLf, strCRLF, expectBytes, hb, hb']
  · obtain ⟨r₂, hb', ht', -⟩ := readByte_next hu₁
    have hboth : Drops r 2 r₂ := ht.trans ht'
    by_cases hd : d = nChar
    · subst hd
      exact ⟨r₂, by simp [readCrLf, strCRLF, expectBytes, hb, hb'], hboth⟩
    · simp only [crLf, hd, ne_eq]
      exact ⟨r₂, by simp [readCrLf, strCRLF, expectBytes, hb, hb', hd], hboth⟩

def isHex (c : Byte) : Bool := hex2intTable c ≠ 16

def hexValue (n : Nat) (d : Bytes) : Nat := d.foldl (fun n c => n <<< 4 ||| hex2intTable c) n

theorem readHexIntLoop_spec (fuel i n : Nat) (r : Reader Byte Err) (d : Bytes)
    (hd : r.unread.takeWhile isHex = d) (hf : fuel + i = maxHexIntChars + 1) (hpos : 0 < fuel) :
    (maxHexIntChars < i + d.length ∧ ∃ r', readHexIntLoop fuel i n r = (.error .tooLargeHexNum, r') ∧
      Drops r fuel r') ∨
    (i + d.length ≤ maxHexIntChars ∧ r.unread = d ∧ ∃ r', Leaves r [] r' ∧
      readHexIntLoop fuel i n r = (if r.src.last = .eof ∧ 0 < i + d.length then .ok (hexValue n d) else .error r.src.last, r')) ∨
    (i + d.length ≤ maxHexIntChars ∧ (∃ c t, r.unread = d ++ c :: t) ∧
      if i + d.length = 0 then ∃ r', readHexIntLoop fuel i n r = (.error .emptyHexNum, r') ∧ Drops r 1 r'
      else ∃ r', readHexIntLoop fuel i n r = (.ok (hexValue n d), r') ∧ Drops r d.length r') := by
  induction fuel generalizing i n r d with
  | zero => omega
  | succ fuel ih =>
    rcases hu : r.unread with _ | ⟨c, t⟩
    · obtain ⟨r', hb, hl⟩ := readByte_ended hu
      obtain rfl : d = [] := by rw [← hd, hu]; rfl
      refine .inr (.inl ⟨by simp only [length_nil]; omega, rfl, r', hl, ?_⟩)
      by_cases he : r.src.last = .eof ∧ 0 < i <;> simp [readHexIntLoop, hb, he, hexValue]
    obtain ⟨r₁, hb, ht, hback⟩ := readByte_next hu
    have hu₁ : r₁.unread = t := by rw [ht.unread, hu]; rfl
    by_cases hc : isHex c = true
    swap
    · have hk : hex2intTable c = 16 := by simpa [isHex] using hc
      obtain rfl : d = [] := by rw [← hd, hu, takeWhile_cons, if_neg hc]
      refine .inr (.inr ⟨by simp only [length_nil]; omega, ⟨c, t, rfl⟩, ?_⟩)
      by_cases hi : i = 0
      · exact (if_pos (by simpa using hi)).mpr ⟨r₁, by simp [readHexIntLoop, hb, hk, hi], ht⟩
      · exact (if_neg (by simpa using hi)).mpr ⟨_, by simp [readHexIntLoop, hb, hk, hi, hexValue], hback⟩
    have hk : hex2intTable c ≠ 16 := by simpa [isHex] using hc
    obtain ⟨d', rfl⟩ : ∃ d', d = c :: d' := ⟨_, by rw [← hd, hu, takeWhile_cons, if_pos hc]⟩
    have hd' : r₁.unread.takeWhile isHex = d' := by
      rw [hu, takeWhile_cons, if_pos hc, List.cons.injEq] at hd
      rw [hu₁, hd.2]
    by_cases hi : maxHexIntChars ≤ i
    · refine .inl ⟨by simp only [length_cons]; omega, r₁, by simp [readHexIntLoop, hb, hk, hi], ?_⟩
      obtain rfl : fuel = 0 := by omega
      exact ht
    have hstep : readHexIntLoop (fuel + 1) i n r = readHexIntLoop fuel (i + 1) (n <<< 4 ||| hex2intTable c) r₁ := by
      simp [readHexIntLoop, hb, hk, hi]
    have hlen : i + (c :: d').length = i + 1 + d'.length := by simp only [length_cons]; omega
    rw [hstep, hlen]
    rcases ih (i + 1) (n <<< 4 ||| hex2intTable c) r₁ d' hd' (by omega) (by omega) with
      ⟨hlong, r', hr, htr⟩ | ⟨hle, hend, r', hl, hr⟩ | ⟨hle, ⟨c', t', hct⟩, hr⟩
    · refine .inl ⟨hlong, r', hr, ?_⟩
      have := ht.trans htr
      rwa [Nat.add_comm 1 fuel] at this
    · refine .inr (.inl ⟨hle, by rw [← hu₁, hend], r', ht.toLeaves.trans hl, ?_⟩)
      rw [ht.last] at hr
      exact hr
    · refine .inr (.inr ⟨hle, ⟨c', t', by rw [← hu₁, hct]; rfl⟩, ?_⟩)
      rw [if_neg (by omega)] at hr ⊢
      obtain ⟨r', hr, htr⟩ := hr
      refine ⟨r', hr, ?_⟩
      have := ht.trans htr
      rwa [Nat.add_comm 1 d'.length] at this

theorem skipExtension_spec (fuel : Nat) (r : Reader Byte Err) (x : Bytes)
    (hx : r.unread.takeWhile (· ≠ rChar) = x) (hf : r.unread.length < fuel) :
    (r.unread = x ∧ ∃ r', skipExtension fuel r = (some r.src.last, r') ∧ Leaves r [] r') ∨
    ((∃ t, r.unread = x ++ rChar :: t) ∧ ∃ r', skipExtension fuel r = (none, r') ∧
      Drops r x.length r') := by
  induction fuel generalizing r x with
  | zero => omega
  | succ fuel ih =>
    rcases hu : r.unread with _ | ⟨c, t⟩
    · obtain ⟨r', hb, hl⟩ := readByte_ended hu
      obtain rfl : x = [] := by rw [← hx, hu]; rfl
      exact .inl ⟨rfl, r', by simp [skipExtension, hb], hl⟩
    obtain ⟨r₁, hb, ht, hback⟩ := readByte_next hu
    have hu₁ : r₁.unread = t := by rw [ht.unread, hu]; rfl
    by_cases hc : c = rChar
    · subst hc
      obtain rfl : x = [] := by rw [← hx, hu]; rfl
      exact .inr ⟨⟨t, rfl⟩, _, by simp [skipExtension, hb], hback⟩
    rw [hu, takeWhile_cons, if_pos (by simpa using hc)] at hx
    subst hx
    have hstep : skipExtension (fuel + 1) r = skipExtension fuel r₁ := by simp [skipExtension, hb, hc]
    rw [hstep]
    rcases ih r₁ _ rfl (by rw [hu₁]; rw [hu, length_cons] at hf; omega) with ⟨hend, r', hr, hl⟩ | ⟨⟨t', hct⟩, r', hr, htr⟩
    · rw [ht.last] at hr
      rw [hu₁] at hend
      exact .inl ⟨by rw [← hend], r', hr, ht.toLeaves.trans hl⟩
    · rw [hu₁] at hct htr
      refine .inr ⟨⟨t', by rw [cons_append, ← hct]⟩, r', hr, ?_⟩
      have := ht.trans htr
      rwa [Nat.add_comm 1 _] at this

inductive SizeLine
  | size (n len : Nat)
  | cut
  | broken (e : Err) (len : Nat)
  deriving DecidableEq, Repr

/-- What `parseChunkSize` finds in the unread bytes. -/
def sizeLine (t : Bytes) : SizeLine :=
  let d := t.takeWhile isHex
  let x := (t.drop d.length).takeWhile (· ≠ rChar)
  if d = [] then if t = [] then .cut else .broken .emptyHexNum 1
  else if maxHexIntChars < d.length then .broken .tooLargeHexNum (maxHexIntChars + 1)
  else match crLf (t.drop (d.length + x.length)) with
    | .ok => .size (hexValue 0 d) (d.length + x.length + 2)
    | .cut => .cut
    | .broken e n => .broken e (d.length + x.length + n)

theorem parseChunkSize_spec (r : Reader Byte Err) : match sizeLine r.unread with
    | .size n len => ∃ r', parseChunkSize r = (.ok n, r') ∧ Drops r len r'
    | .cut => ∃ r', parseChunkSize r = (.error r.src.last, r') ∧ Leaves r [] r'
    | .broken e len => ∃ r', parseChunkSize r = (.error e, r') ∧ Drops r len r' := by
  generalize hd : r.unread.takeWhile isHex = d
  generalize hx : (r.unread.drop d.length).takeWhile (· ≠ rChar) = x
  rcases readHexIntLoop_spec (maxHexIntChars + 1) 0 0 r d hd rfl (by omega) with
    ⟨hlong, r₁, hr, ht⟩ | ⟨hle, hend, r₁, hl, hr⟩ | ⟨hle, ⟨c, t, hct⟩, hr⟩
  · have hne : d ≠ [] := by rintro rfl; simp at hlong
    have hsize : sizeLine r.unread = .broken .tooLargeHexNum (maxHexIntChars + 1) := by
      simp only [sizeLine, hd, hne, if_false]
      rw [if_pos (by omega)]
    rw [hsize]
    exact ⟨r₁, by simp [parseChunkSize, readHexInt, hr], ht⟩
  · -- the bytes end with the digits
    have hsize : sizeLine r.unread = .cut := by
      simp only [sizeLine, hd]
      by_cases hne : d = []
      · simp [hne, hend]
      · rw [if_neg hne, if_neg (by omega)]
        simp [hend, crLf]
    rw [hsize]
    split_ifs at hr
    swap
    · exact ⟨r₁, by simp [parseChunkSize, readHexInt, hr], hl⟩
    · obtain ⟨r₂, hb, hl'⟩ := readByte_ended hl.unread
      rw [hl.last] at hb
      exact ⟨r₂, by simp [parseChunkSize, readHexInt, hr, skipExtension, hb], hl.trans hl'⟩
  · by_cases hne : d = []
    · subst hne
      obtain ⟨r₁, hr, ht⟩ := (if_pos (by rfl)).mp hr
      have hsize : sizeLine r.unread = .broken .emptyHexNum 1 := by
        simp only [sizeLine, hd, if_true]
        rw [if_neg (by simp [hct])]
      rw [hsize]
      exact ⟨r₁, by simp [parseChunkSize, readHexInt, hr], ht⟩
    have hpos := length_pos_iff.mpr hne
    rw [if_neg (by omega)] at hr
    obtain ⟨r₁, hr, ht⟩ := hr
    have hsize : sizeLine r.unread = match crLf (r.unread.drop (d.length + x.length)) with
        | .ok => .size (hexValue 0 d) (d.length + x.length + 2)
        | .cut => .cut
        | .broken e n => .broken e (d.length + x.length + n) := by
      simp only [sizeLine, hd, hx]
      rw [if_neg hne, if_neg (by omega)]
    rw [hsize]
    rcases skipExtension_spec (r₁.unread.length + 1) r₁ x (by rw [ht.unread]; exact hx) (by omega) with
      ⟨hend, r₂, hs, hl⟩ | ⟨-, r₂, hs, ht'⟩
    · have hcut : r.unread.drop (d.length + x.length) = [] := by
        rw [← drop_drop, ← ht.unread, hend, drop_length]
      rw [hcut]
      rw [ht.last] at hs
      exact ⟨r₂, by simp [parseChunkSize, readHexInt, hr, hs], ht.toLeaves.trans hl⟩
    · -- the line end is there, or it is looked for behind the extension
      have htake : Drops r (d.length + x.length) r₂ := ht.trans ht'
      have hrest := htake.unread
      have hcr := readCrLf_spec r₂
      rw [← hrest]
      rcases hc : crLf r₂.unread with _ | _ | ⟨e, n⟩ <;> simp only [hc] at hcr ⊢
      · obtain ⟨r₃, hcr, ht3⟩ := hcr
        exact ⟨r₃, by simp [parseChunkSize, readHexInt, hr, hs, hcr], htake.trans ht3⟩
      · obtain ⟨r₃, hcr, hl⟩ := hcr
        rw [htake.last] at hcr
        exact ⟨r₃, by simp [parseChunkSize, readHexInt, hr, hs, hcr], htake.toLeaves.trans hl⟩
      · obtain ⟨r₃, hcr, ht3⟩ := hcr
        exact ⟨r₃, by simp [parseChunkSize, readHexInt, hr, hs, hcr], htake.trans ht3⟩

/-! ## Whole bodies -/

inductive Stop
  | done
  /-- the bytes end before a chunk size or in its line -/
  | cutSize
  | cutData
  /-- the bytes end before or in the line end behind a chunk -/
  | cutEnd
  | broken (e : Err)
  deriving DecidableEq, Repr

/-- The bytes of the chunks up to the stop, and how many bytes of the wire that takes. -/
structure Walk where
  body : Bytes
  stop : Stop
  len : Nat
  deriving DecidableEq, Repr

def Walk.behind (w : Walk) (bs : Bytes) (n : Nat) : Walk := { w with body := bs ++ w.body, len := n + w.len }

/-- The chunks of `t`, when `left` bytes of the current chunk are still to come. -/
def walk : Nat → Nat → Bytes → Walk
  | 0, _, _ => ⟨[], .cutSize, 0⟩
  | fuel + 1, 0, t =>
    match sizeLine t with
    | .cut => ⟨[], .cutSize, t.length⟩
    | .broken e n => ⟨[], .broken e, n⟩
    | .size 0 n => ⟨[], .done, n⟩
    | .size (m + 1) n => (walk fuel (m + 1) (t.drop n)).behind [] n
  | fuel + 1, left + 1, t =>
    if t.length < left + 1 then ⟨t, .cutData, t.length⟩
    else match crLf (t.drop (left + 1)) with
      | .cut => ⟨t.take (left + 1), .cutEnd, t.length⟩
      | .broken e n => ⟨t.take (left + 1), .broken e, left + 1 + n⟩
      | .ok => (walk fuel 0 (t.drop (left + 1 + 2))).behind (t.take (left + 1)) (left + 1 + 2)

theorem crLf_ok (h : crLf t = .ok) : ∃ u, t = rChar :: nChar :: u := by
  unfold crLf at h
  split at h
  · simp at h
  · split at h
    · simp at h
    · rename_i c t hc
      split at h
      · simp at h
      · rename_i d u
        split at h
        · simp at h
        · rename_i hd
          simp only [Decidable.not_not] at hc hd
          exact ⟨u, by rw [hc, hd]⟩

theorem crLf_le (h : crLf t = .ok) : 2 ≤ t.length := by
  obtain ⟨u, rfl⟩ := crLf_ok h
  simp

theorem crLf_broken_le (h : crLf t = .broken e n) : 0 < n ∧ n ≤ t.length := by
  unfold crLf at h
  split at h
  · simp at h
  · split at h
    · simp only [Found.broken.injEq] at h
      simp only [length_cons]
      omega
    · split at h
      · simp at h
      · split at h
        · simp only [Found.broken.injEq] at h
          simp only [length_cons]
          omega
        · simp at h

theorem crLf_broken_ne_eof (h : crLf t = .broken e n) : e ≠ .eof := by
  rintro rfl
  unfold crLf at h
  split at h
  · simp at h
  · split at h
    · simp at h
    · split at h
      · simp at h
      · split at h <;> simp at h

theorem sizeLine_broken (h : sizeLine t = .broken e n) :
    e ≠ .eof ∧ 0 < n ∧ n ≤ t.length := by
  unfold sizeLine at h
  simp only at h
  split at h
  · split at h
    · simp at h
    · rename_i hne
      have := length_pos_iff.mpr hne
      obtain ⟨rfl, rfl⟩ := h
      exact ⟨by simp, by omega, this⟩
  · split at h
    · have := IsPrefix.length_le <| takeWhile_prefix isHex (l := t)
      obtain ⟨rfl, rfl⟩ := h
      exact ⟨by simp, by omega, by omega⟩
    · split at h
      · simp at h
      · simp at h
      · rename_i e' n' hc
        have hle := crLf_broken_le hc
        have hne := crLf_broken_ne_eof hc
        rw [length_drop] at hle
        obtain ⟨rfl, rfl⟩ := h
        exact ⟨hne, by omega, by omega⟩

theorem sizeLine_size {len : Nat} (h : sizeLine t = .size n len) : 0 < len ∧ len ≤ t.length := by
  unfold sizeLine at h
  simp only at h
  split at h
  · split at h <;> simp at h
  · split at h
    · simp at h
    · split at h
      · rename_i hc
        have := crLf_le hc
        rw [length_drop] at this
        simp only [SizeLine.size.injEq] at h
        omega
      · simp at h
      · simp at h

theorem walk_fuel (fuel fuel' left : Nat) (h : t.length < fuel) (h' : t.length < fuel') :
    walk fuel left t = walk fuel' left t := by
  induction fuel generalizing fuel' left t with
  | zero => omega
  | succ fuel ih =>
    obtain ⟨fuel', rfl⟩ : ∃ m, fuel' = m + 1 := ⟨fuel' - 1, by omega⟩
    rcases left with _ | left
    · simp only [walk]
      split
      · rfl
      · rfl
      · rfl
      · rename_i m n hs
        have := sizeLine_size hs
        rw [ih fuel' _ (by simp only [length_drop]; omega) (by simp only [length_drop]; omega)]
    · simp only [walk]
      split
      · rfl
      · split
        · rfl
        · rfl
        · rw [ih fuel' _ (by simp only [length_drop]; omega) (by simp only [length_drop]; omega)]

def chunks (left : Nat) (t : Bytes) : Walk := walk (t.length + 1) left t

theorem chunks_start (t : Bytes) : chunks 0 t = match sizeLine t with
    | .cut => ⟨[], .cutSize, t.length⟩
    | .broken e n => ⟨[], .broken e, n⟩
    | .size 0 n => ⟨[], .done, n⟩
    | .size (m + 1) n => (walk t.length (m + 1) (t.drop n)).behind [] n := by
  rw [chunks, walk]

theorem chunks_cut (h : sizeLine t = .cut) : chunks 0 t = ⟨[], .cutSize, t.length⟩ := by
  rw [chunks_start, h]

theorem chunks_broken (h : sizeLine t = .broken e n) :
    chunks 0 t = ⟨[], .broken e, n⟩ := by
  rw [chunks_start, h]

theorem chunks_zero (h : sizeLine t = .size 0 n) : chunks 0 t = ⟨[], .done, n⟩ := by
  rw [chunks_start, h]

theorem chunks_size (h : sizeLine t = .size m n) (hm : 0 < m) :
    chunks 0 t = (chunks m (t.drop n)).behind [] n := by
  obtain ⟨m, rfl⟩ : ∃ k, m = k + 1 := ⟨m - 1, by omega⟩
  have := sizeLine_size h
  rw [chunks_start, h, chunks]
  simp only
  rw [walk_fuel _ ((t.drop n).length + 1) _ (by simp only [length_drop]; omega) (by omega)]

theorem chunks_short (h : t.length < left) : chunks left t = ⟨t, .cutData, t.length⟩ := by
  obtain ⟨left, rfl⟩ : ∃ k, left = k + 1 := ⟨left - 1, by omega⟩
  rw [chunks, walk, if_pos h]

theorem chunks_full (h0 : 0 < left) (h : left ≤ t.length) :
    chunks left t = match crLf (t.drop left) with
      | .cut => ⟨t.take left, .cutEnd, t.length⟩
      | .broken e n => ⟨t.take left, .broken e, left + n⟩
      | .ok => (chunks 0 (t.drop (left + 2))).behind (t.take left) (left + 2) := by
  obtain ⟨left, rfl⟩ : ∃ k, left = k + 1 := ⟨left - 1, by omega⟩
  rw [chunks, walk, if_neg (by omega)]
  rcases hc : crLf (t.drop (left + 1)) with _ | _ | ⟨e, n⟩
  · simp only [chunks]
    rw [walk_fuel _ ((t.drop (left + 1 + 2)).length + 1) _ (by simp only [length_drop]; omega) (by omega)]
  · rfl
  · rfl

theorem chunks_part (hn : n < left) (hle : n ≤ t.length) :
    chunks left t = (chunks (left - n) (t.drop n)).behind (t.take n) n := by
  rcases Nat.lt_or_ge t.length left with hs | hs
  · rw [chunks_short hs, chunks_short (by simp only [length_drop]; omega)]
    simp only [Walk.behind, take_append_drop, length_drop]
    rw [Nat.add_sub_cancel' hle]
  · have hd : (t.drop n).drop (left - n) = t.drop left := by
      rw [drop_drop, Nat.add_sub_cancel' (by omega)]
    have hd2 : (t.drop n).drop (left - n + 2) = t.drop (left + 2) := by
      rw [drop_drop, ← Nat.add_assoc, Nat.add_sub_cancel' (by omega)]
    have htake : t.take n ++ (t.drop n).take (left - n) = t.take left := by
      rw [← take_add, Nat.add_sub_cancel' (by omega)]
    have hrest := chunks_full (by omega : 0 < left - n) (by simp only [length_drop]; omega : left - n ≤ (t.drop n).length)
    rw [chunks_full (by omega) hs, hrest, hd, hd2]
    rcases crLf (t.drop left) with _ | _ | ⟨e, m⟩
    · simp only [Walk.behind, ← append_assoc, htake, Walk.mk.injEq, true_and]
      omega
    · simp only [Walk.behind, htake, Walk.mk.injEq, true_and, length_drop]
      omega
    · simp only [Walk.behind, htake, Walk.mk.injEq, true_and]
      omega

theorem walk_broken {fuel : Nat} (h : (walk fuel left t).stop = .broken e) : e ≠ .eof := by
  induction fuel generalizing left t with
  | zero => simp [walk] at h
  | succ fuel ih =>
    rcases left with _ | left
    · simp only [walk] at h
      split at h
      · simp at h
      · rename_i hs
        simp only [Stop.broken.injEq] at h
        exact h ▸ (sizeLine_broken hs).1
      · simp at h
      · exact ih h
    · simp only [walk] at h
      split at h
      · simp at h
      · split at h
        · simp at h
        · rename_i hc
          simp only [Stop.broken.injEq] at h
          exact h ▸ crLf_broken_ne_eof hc
        · exact ih h

theorem walk_cut {fuel : Nat} (hf : t.length < fuel) :
    (walk fuel left t).stop = .done ∨ (∃ e, (walk fuel left t).stop = .broken e) ∨ (walk fuel left t).len = t.length := by
  induction fuel generalizing left t with
  | zero => omega
  | succ fuel ih =>
    have hbehind : ∀ {left n : Nat} {bs : Bytes}, 0 < n → n ≤ t.length →
        ((walk fuel left (t.drop n)).behind bs n).stop = .done ∨
        (∃ e, ((walk fuel left (t.drop n)).behind bs n).stop = .broken e) ∨
        ((walk fuel left (t.drop n)).behind bs n).len = t.length := fun {left n bs} hpos hle => by
      have hshort : (t.drop n).length < fuel := by rw [length_drop]; omega
      rcases @ih left (t.drop n) hshort with h | h | h
      · exact .inl h
      · exact .inr (.inl h)
      · rw [length_drop] at h
        simp only [Walk.behind]
        omega
    rcases left with _ | left
    · simp only [walk]
      split
      · exact .inr (.inr rfl)
      · exact .inr (.inl ⟨_, rfl⟩)
      · exact .inl rfl
      · rename_i hs
        have hlen := sizeLine_size hs
        exact hbehind hlen.1 hlen.2
    · simp only [walk]
      split
      · exact .inr (.inr rfl)
      · split
        · exact .inr (.inr rfl)
        · exact .inr (.inl ⟨_, rfl⟩)
        · rename_i hc
          have hlen := crLf_le hc
          rw [length_drop] at hlen
          exact hbehind (by omega) (by omega)

theorem chunks_cut_len (h : (chunks left t).stop = .cutSize ∨ (chunks left t).stop = .cutEnd) :
    (chunks left t).len = t.length := by
  unfold chunks at h ⊢
  have hcut := @walk_cut left _ _ (Nat.lt_succ_self t.length)
  rcases hcut with hd | ⟨e, hb⟩ | hlen
  · simp [hd] at h
  · simp [hb] at h
  · exact hlen

end Fasthttp
