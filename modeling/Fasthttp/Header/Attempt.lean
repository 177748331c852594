import Fasthttp.Header.Accept

/-!
# One attempt at a header

What one run of `parse` does with the bytes that are buffered: which bytes it takes for the header, and that it edits
the buffer in place.
-/

namespace Fasthttp

open Scanner List

variable {b : Bytes}

/-! ## The header of a stream -/

def lineEnd (b : Bytes) : Nat :=
  match indexByte b nChar with
  | some n => n + 1
  | none => 0

def headerEnd (b : Bytes) : Option Nat := (blockEnd (b.drop (lineEnd b))).map (lineEnd b + ·)

def wire (ps : List String) : Bufio.Reader Byte Err := .new 4096 (.of (ps.map ascii) .eof) (by decide)

theorem lineEnd_le (b : Bytes) : lineEnd b ≤ b.length := by
  unfold lineEnd
  split
  · rename_i h; exact FirstIndex.idxOf?_lt h
  · omega

theorem lineEnd_append (h : nChar ∈ b) (y : Bytes) : lineEnd (b ++ y) = lineEnd b := by
  obtain ⟨n, hn⟩ := Option.isSome_iff_exists.mp (isSome_idxOf?.mpr h)
  simp [lineEnd, indexByte, hn, FirstIndex.idxOf?_append hn]

theorem lineEnd_pos (h : nChar ∈ b) : 0 < lineEnd b := by
  obtain ⟨n, hn⟩ := Option.isSome_iff_exists.mp (isSome_idxOf?.mpr h)
  simp only [lineEnd, indexByte, hn]
  omega

theorem mem_take_lineEnd (h : nChar ∈ b) : nChar ∈ b.take (lineEnd b) := by
  obtain ⟨u, v, rfl, hu⟩ := eq_append_cons_of_mem h
  have : lineEnd (u ++ nChar :: v) = u.length + 1 := by
    simp [lineEnd, indexByte, FirstIndex.idxOf?_append_cons _ _ _ hu]
  rw [this, append_cons, take_left' (by simp)]
  simp

theorem lineEnd_take {b' : Bytes} (h : nChar ∈ b) (hb : b'.take (lineEnd b) = b.take (lineEnd b)) :
    lineEnd b' = lineEnd b := by
  have hm := mem_take_lineEnd h
  have h1 := lineEnd_append hm (b.drop (lineEnd b))
  have h2 := lineEnd_append (hb ▸ hm) (b'.drop (lineEnd b))
  rw [take_append_drop] at h1 h2
  rw [h1, h2, hb]

theorem nextLine_eq (b : Bytes) : (nChar ∉ b ∧ nextLine b = none) ∨
    (nChar ∈ b ∧ ∃ line, nextLine b = some (line, b.drop (lineEnd b))) := by
  by_cases hn : nChar ∈ b
  · refine .inr ⟨hn, ?_⟩
    obtain ⟨n, hn⟩ := Option.isSome_iff_exists.mp (isSome_idxOf?.mpr hn)
    simp only [nextLine, lineEnd, indexByte, hn]
    exact ⟨_, rfl⟩
  · exact .inl ⟨hn, by simp [nextLine, indexByte, List.idxOf?_eq_none_iff.mpr hn]⟩

theorem nextLine_append (hn : nChar ∈ b) (y : Bytes) : ∃ line,
    nextLine b = some (line, b.drop (lineEnd b)) ∧
      nextLine (b ++ y) = some (line, b.drop (lineEnd b) ++ y) := by
  obtain ⟨n, hx⟩ := Option.isSome_iff_exists.mp (isSome_idxOf?.mpr hn)
  have hlt := FirstIndex.idxOf?_lt hx
  refine ⟨_, by simp only [nextLine, lineEnd, indexByte, hx]; rfl, ?_⟩
  simp only [nextLine, lineEnd, indexByte, hx, FirstIndex.idxOf?_append hx, Option.map_some]
  rw [take_append_of_le_length (by omega), drop_append_of_le_length (by omega)]

theorem readRawHeaders_append {k : Nat} (h : blockEnd b = some k) (y : Bytes) :
    readRawHeaders (b ++ y) = readRawHeaders b := by
  have hk := blockEnd_append h y
  have hle := blockEnd_le h
  have hn : nChar ∈ b := by
    by_contra hn
    simp [blockEnd_noLine hn] at h
  obtain ⟨n, hx⟩ := Option.isSome_iff_exists.mp (isSome_idxOf?.mpr hn)
  unfold blockEnd at h hk
  simp only [readRawHeaders, h, hk, indexByte, hx, FirstIndex.idxOf?_append hx]
  rw [take_append_of_le_length hle]

/-! ## One attempt at a request -/

variable {mem : Bytes}

namespace RequestHeader

variable {b : Bytes} {e : Err} {h h₀ : RequestHeader}

def kept (h : RequestHeader) : Int × Bool × Bool := (h.firstLineLen, h.disableNormalizing, h.disableSpecialHeader)

theorem parseField_kept (h : RequestHeader) (k v : Bytes) : (h.parseField k v).1.kept = h.kept := by
  have hcl : (h.setContentLength v).1.kept = h.kept := by
    unfold setContentLength
    simp only
    repeat' split
    all_goals rfl
  have hco : (h.setConnection k v).kept = h.kept := by
    unfold setConnection
    split <;> rfl
  have hte : (h.setTransferEncoding v).1.kept = h.kept := by
    unfold setTransferEncoding
    split <;> rfl
  have hspecial : (h.specialField k v).1.kept = h.kept := by
    unfold specialField
    simp only
    repeat' split
    all_goals first | assumption | rfl
  unfold parseField
  repeat' split
  all_goals first | assumption | rfl

theorem parseFirstLine_error (hfirst : h.parseFirstLine b = (h₀, .error e)) : h₀ = h := by
  rcases hnext : nextLine b with _ | ⟨line, bNext⟩
  · simp only [parseFirstLine, hnext, Prod.mk.injEq] at hfirst
    exact hfirst.1.symm
  · simp only [parseFirstLine] at hfirst
    repeat' split at hfirst
    all_goals simp at hfirst
    all_goals exact hfirst.1.symm

theorem parseFirstLine_length {m : Int}
    (hfirst : h.parseFirstLine b = (h₀, .ok m)) :
    nChar ∈ b ∧ m = int32 (lineEnd b) ∧ h₀.firstLineLen = m := by
  obtain ⟨-, hnext⟩ | ⟨hn, line, hnext⟩ := nextLine_eq b
  · simp [parseFirstLine, hnext] at hfirst
  have hsub : (b.length : Int) - (b.drop (lineEnd b)).length = lineEnd b := by
    have := lineEnd_le b
    simp only [length_drop]
    omega
  simp only [parseFirstLine, hnext, hsub] at hfirst
  repeat' split at hfirst
  all_goals simp at hfirst
  have hlen := congrArg RequestHeader.firstLineLen hfirst.1
  simp only at hlen
  exact ⟨hn, hfirst.2.symm, hlen.symm.trans hfirst.2⟩

def LineKept (h : RequestHeader) (b : Bytes) : Prop :=
  h.firstLineLen = 0 ∨ (nChar ∈ b ∧ h.firstLineLen = lineEnd b)

theorem int32_small {n : Nat} (h : n < 2 ^ 31) : int32 n = n := by
  unfold int32
  rw [Int.bmod_eq_of_le] <;> omega

theorem requestLine_ok {m : Int} (hk : h.LineKept b)
    (hsmall : lineEnd b < 2 ^ 31) (hline : h.requestLine b = (h₀, .ok m)) :
    nChar ∈ b ∧ m = lineEnd b ∧ h₀.firstLineLen = lineEnd b := by
  unfold requestLine at hline
  split at hline
  · obtain ⟨hn, hm, hf⟩ := parseFirstLine_length hline
    rw [int32_small hsmall] at hm
    exact ⟨hn, hm, hf.trans hm⟩
  · rename_i h0
    obtain ⟨hn, hf⟩ := hk.resolve_left h0
    simp only [Prod.mk.injEq, Except.ok.injEq] at hline
    exact ⟨hn, hline.2.symm.trans hf, by rw [← hline.1, hf]⟩

theorem parseFirstLine_needMore (hfirst : h.parseFirstLine b = (h₀, .error .needMore)) : nChar ∉ b := by
  obtain ⟨hn, -⟩ | ⟨-, line, hnext⟩ := nextLine_eq b
  · exact hn
  · simp only [parseFirstLine, hnext] at hfirst
    repeat' split at hfirst
    all_goals simp at hfirst

theorem requestLine_definite {buf : Bytes} (hline : nChar ∈ buf)
    (hfirst : h.requestLine buf = (h₀, .error e)) : e ≠ .needMore := by
  rintro rfl
  unfold requestLine at hfirst
  split at hfirst
  · exact parseFirstLine_needMore hfirst hline
  · simp at hfirst

theorem requestLine_error (hline : h.requestLine b = (h₀, .error e)) : h₀ = h := by
  unfold requestLine at hline
  split at hline
  · exact parseFirstLine_error hline
  · simp at hline

theorem parseFirstLine_append (h : RequestHeader) (hn : nChar ∈ b) (y : Bytes) :
    h.parseFirstLine (b ++ y) = h.parseFirstLine b := by
  obtain ⟨line, h1, h2⟩ := nextLine_append hn y
  have hlen : ((b ++ y).length : Int) - (b.drop (lineEnd b) ++ y).length
      = b.length - (b.drop (lineEnd b)).length := by
    simp only [length_append]
    omega
  simp only [parseFirstLine, h1, h2, hlen]

theorem parse_incomplete (hline : h.requestLine b = (h₀, .ok (lineEnd b : Int)))
    (hblock : blockEnd (b.drop (lineEnd b)) = none) :
    h.parse b = (h₀.keepRaw (b.drop (lineEnd b)), b, .error .needMore) := by
  have hle := lineEnd_le b
  have hbound : ((lineEnd b : Int) < 0 || decide ((b.length : Int) < lineEnd b)) = false := by simp; omega
  simp only [parse, hline, hbound, Bool.false_eq_true, if_false, Int.toNat_natCast, readRawHeaders_length, hblock]

def scanBlock (h₀ : RequestHeader) (b : Bytes) : RequestHeader × Scanner × Option Err :=
  scanAll parseField (Scanner.new b h₀.disableNormalizing) (h₀.keepRaw b).start

theorem scanBlock_kept (h₀ : RequestHeader) (b : Bytes) : (h₀.scanBlock b).1.kept = h₀.kept :=
  scanAll_keeps (p := fun h' => h'.kept = h₀.kept)
    (fun h' k v hh => (parseField_kept h' k v).trans hh) _ (h₀.keepRaw b).start rfl

theorem parse_complete {k : Nat}
    (hline : h.requestLine b = (h₀, .ok (lineEnd b : Int))) (hblock : blockEnd (b.drop (lineEnd b)) = some k) :
    h.parse b = match h₀.scanBlock (b.drop (lineEnd b)) with
      | (h', s', none) => (h'.finish, b.take (lineEnd b) ++ s'.mem, .ok (lineEnd b + s'.hLen))
      | (h', s', some e) => (h', b.take (lineEnd b) ++ s'.mem, .error e) := by
  have hle := lineEnd_le b
  have hbound : ((lineEnd b : Int) < 0 || decide ((b.length : Int) < lineEnd b)) = false := by simp; omega
  simp only [parse, hline, hbound, Int.toNat_natCast, readRawHeaders_length, hblock,
    parseHeaders, scanBlock]
  have hdn : (h₀.keepRaw (b.drop (lineEnd b))).disableNormalizing = h₀.disableNormalizing := rfl
  rw [hdn]
  generalize scanAll parseField _ _ = out
  obtain ⟨h', s', _ | e⟩ := out <;> rfl

theorem parse_ok {h' : RequestHeader} {n : Nat} (hk : h.LineKept b)
    (hsmall : lineEnd b < 2 ^ 31) (hp : h.parse b = (h', mem, .ok n)) :
    ∃ h₀ h₁ s', h.requestLine b = (h₀, .ok (lineEnd b : Int)) ∧ nChar ∈ b ∧
      h₀.scanBlock (b.drop (lineEnd b)) = (h₁, s', none) ∧
      h' = h₁.finish ∧ mem = b.take (lineEnd b) ++ s'.mem ∧ n = lineEnd b + s'.hLen := by
  rcases hline : h.requestLine b with ⟨h₀, e | m⟩
  · simp [parse, hline] at hp
  obtain ⟨hn, rfl, -⟩ := requestLine_ok hk hsmall hline
  refine ⟨h₀, ?_⟩
  rcases hblock : blockEnd (b.drop (lineEnd b)) with _ | k
  · simp [parse_incomplete hline hblock] at hp
  rw [parse_complete hline hblock] at hp
  generalize h₀.scanBlock (b.drop (lineEnd b)) = out at hp
  obtain ⟨h₁, s', _ | e⟩ := out
  · simp only [Prod.mk.injEq, Except.ok.injEq] at hp
    exact ⟨h₁, s', rfl, hn, rfl, hp.1.symm, hp.2.1.symm, hp.2.2.symm⟩
  · simp at hp

theorem parse_more {h' : RequestHeader} (hk : h.LineKept b)
    (hsmall : lineEnd b < 2 ^ 31) (hp : h.parse b = (h', mem, .error .needMore)) :
    (nChar ∉ b ∧ h' = h ∧ mem = b) ∨
    ∃ h₀, h.requestLine b = (h₀, .ok (lineEnd b : Int)) ∧ nChar ∈ b ∧
      ((blockEnd (b.drop (lineEnd b)) = none ∧ h' = h₀.keepRaw (b.drop (lineEnd b)) ∧ mem = b) ∨
      ∃ k s', blockEnd (b.drop (lineEnd b)) = some k ∧
        h₀.scanBlock (b.drop (lineEnd b)) = (h', s', some .needMore) ∧
        mem = b.take (lineEnd b) ++ s'.mem) := by
  rcases hline : h.requestLine b with ⟨h₀, e | m⟩
  · simp only [parse, hline] at hp
    obtain ⟨rfl, rfl, rfl⟩ := hp
    refine .inl ⟨fun hn => requestLine_definite hn hline rfl, requestLine_error hline, rfl⟩
  obtain ⟨hn, rfl, -⟩ := requestLine_ok hk hsmall hline
  refine .inr ⟨h₀, rfl, hn, ?_⟩
  rcases hblock : blockEnd (b.drop (lineEnd b)) with _ | k
  · simp only [parse_incomplete hline hblock, Prod.mk.injEq, and_true] at hp
    exact .inl ⟨rfl, hp.1.symm, hp.2.symm⟩
  rw [parse_complete hline hblock] at hp
  generalize h₀.scanBlock (b.drop (lineEnd b)) = out at hp
  obtain ⟨h₁, s', _ | e⟩ := out
  · simp at hp
  · obtain ⟨rfl, rfl, rfl⟩ := hp
    exact .inr ⟨k, s', rfl, rfl, rfl⟩

theorem parse_inPlace : loop.InPlace := by
  intro h b
  simp only [loop, parse]
  rcases h.requestLine b with ⟨h₀, e | m⟩
  · rfl
  simp only
  split
  · rfl
  split
  · rfl
  · have hlen := scanAll_mem_length parseField (Scanner.new (b.drop m.toNat) (h₀.keepRaw (b.drop m.toNat)).disableNormalizing)
      (h₀.keepRaw (b.drop m.toNat)).start
    have hmem : ((h₀.keepRaw (b.drop m.toNat)).parseHeaders (b.drop m.toNat)).2.1.length = (b.drop m.toNat).length := by
      unfold parseHeaders
      generalize scanAll parseField _ _ = out at hlen
      obtain ⟨h', s', _ | e⟩ := out <;> simpa [Scanner.mem, Scanner.new] using hlen
    simp only [length_append, hmem, length_take, length_drop]
    omega

end RequestHeader

namespace ResponseHeader

variable {b : Bytes} {h : ResponseHeader}

theorem parseFirstLine_length {h₀ : ResponseHeader} {m : Nat}
    (hfirst : h.parseFirstLine b = (h₀, .ok m)) : nChar ∈ b ∧ m = lineEnd b := by
  obtain ⟨-, hnext⟩ | ⟨hn, line, hnext⟩ := nextLine_eq b
  · simp [parseFirstLine, hnext] at hfirst
  have hsub : b.length - (b.drop (lineEnd b)).length = lineEnd b := by
    have := lineEnd_le b
    simp only [length_drop]
    omega
  simp only [parseFirstLine, hnext, hsub] at hfirst
  repeat' split at hfirst
  all_goals simp at hfirst
  all_goals exact ⟨hn, hfirst.2.symm⟩

theorem parse_inPlace : loop.InPlace := by
  intro h b
  simp only [loop, parse]
  rcases hfirst : h.parseFirstLine b with ⟨h₀, e | m⟩
  · rfl
  · have hlen := scanAll_mem_length parseField (Scanner.new (b.drop m) h₀.disableNormalizing) h₀.start
    have hmem : (h₀.parseHeaders (b.drop m)).2.1.length = (b.drop m).length := by
      unfold parseHeaders
      generalize scanAll parseField _ _ = out at hlen
      obtain ⟨h', s', _ | e⟩ := out <;> simpa [Scanner.mem, Scanner.new] using hlen
    simp only [length_append, hmem, length_take, length_drop]
    omega

theorem parseFirstLine_needMore {h₀ : ResponseHeader}
    (hfirst : h.parseFirstLine b = (h₀, .error .needMore)) : nChar ∉ b ∧ h₀ = h := by
  obtain ⟨hn, hnext⟩ | ⟨-, line, hnext⟩ := nextLine_eq b
  · simp only [parseFirstLine, hnext, Prod.mk.injEq, and_true] at hfirst
    exact ⟨hn, hfirst.symm⟩
  · simp only [parseFirstLine, hnext] at hfirst
    repeat' split at hfirst
    all_goals simp at hfirst

theorem parse_ok {h' : ResponseHeader} {n : Nat} (hp : h.parse b = (h', mem, .ok n)) :
    ∃ h₀ h₁ s', h.parseFirstLine b = (h₀, .ok (lineEnd b)) ∧ nChar ∈ b ∧
      scanAll parseField (Scanner.new (b.drop (lineEnd b)) h₀.disableNormalizing) h₀.start = (h₁, s', none) ∧
      h' = h₁.finish ∧ mem = b.take (lineEnd b) ++ s'.mem ∧
      n = lineEnd b + ((b.drop (lineEnd b)).length - s'.b.length) := by
  unfold parse at hp
  rcases hline : h.parseFirstLine b with ⟨h₀, e | m⟩
  · simp [hline] at hp
  obtain ⟨hn, rfl⟩ := parseFirstLine_length hline
  refine ⟨h₀, ?_⟩
  simp only [hline, parseHeaders] at hp
  generalize scanAll parseField _ _ = out at hp
  obtain ⟨h₁, s', _ | e⟩ := out
  · simp only [Except.map, Prod.mk.injEq, Except.ok.injEq] at hp
    exact ⟨h₁, s', rfl, hn, rfl, hp.1.symm, hp.2.1.symm, hp.2.2.symm⟩
  · simp [Except.map] at hp

theorem parse_more {h' : ResponseHeader} (hp : h.parse b = (h', mem, .error .needMore)) :
    (nChar ∉ b ∧ h' = h ∧ mem = b) ∨
    ∃ h₀ s', h.parseFirstLine b = (h₀, .ok (lineEnd b)) ∧ nChar ∈ b ∧
      scanAll parseField (Scanner.new (b.drop (lineEnd b)) h₀.disableNormalizing) h₀.start
        = (h', s', some .needMore) ∧
      mem = b.take (lineEnd b) ++ s'.mem := by
  unfold parse at hp
  rcases hline : h.parseFirstLine b with ⟨h₀, e | m⟩
  · simp only [hline] at hp
    obtain ⟨rfl, rfl, rfl⟩ := hp
    obtain ⟨hn, rfl⟩ := parseFirstLine_needMore hline
    exact .inl ⟨hn, rfl, rfl⟩
  obtain ⟨hn, rfl⟩ := parseFirstLine_length hline
  refine .inr ⟨h₀, ?_⟩
  simp only [hline, parseHeaders] at hp
  generalize scanAll parseField _ _ = out at hp
  obtain ⟨h₁, s', _ | e⟩ := out
  · simp [Except.map] at hp
  · obtain ⟨rfl, rfl, rfl⟩ := hp
    exact ⟨s', rfl, hn, rfl, rfl⟩

end ResponseHeader

end Fasthttp
