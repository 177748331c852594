import Fasthttp.Body.Whole

/-!
# The limit of a body

A body is returned whole if it is not longer than the limit, and otherwise it is too large.
-/

namespace Fasthttp

open Bufio Reader List

variable {t : Bytes}

/-! ## What chunks announce -/

def announcedLoop : Nat → Bytes → Nat
  | 0, _ => 0
  | fuel + 1, t =>
    match sizeLine t with
    | .size m n => m + if 0 < m ∧ crLf (t.drop (n + m)) = .ok then announcedLoop fuel (t.drop (n + m + 2)) else 0
    | _ => 0

/-- The sum of the sizes up to the first chunk that is the last one or not whole -/
def announced (t : Bytes) : Nat := announcedLoop (t.length + 1) t

theorem announcedLoop_fuel (fuel fuel' : Nat) (h : t.length < fuel) (h' : t.length < fuel') :
    announcedLoop fuel t = announcedLoop fuel' t := by
  induction fuel generalizing fuel' t with
  | zero => omega
  | succ fuel ih =>
    obtain ⟨fuel', rfl⟩ : ∃ m, fuel' = m + 1 := ⟨fuel' - 1, by omega⟩
    unfold announcedLoop
    split
    · rename_i m n hs
      have hle := sizeLine_size hs
      rw [ih fuel' (by rw [length_drop]; omega) (by rw [length_drop]; omega)]
    · rfl

theorem announced_size {m n : Nat} (hs : sizeLine t = .size m n) :
    announced t = m + if 0 < m ∧ crLf (t.drop (n + m)) = .ok then announced (t.drop (n + m + 2)) else 0 := by
  have hle := sizeLine_size hs
  rw [announced, announcedLoop]
  simp only [hs]
  rw [announcedLoop_fuel _ ((t.drop (n + m + 2)).length + 1) (by rw [length_drop]; omega) (Nat.lt_succ_self _)]
  rfl

theorem announced_other (hs : ∀ m n, sizeLine t ≠ .size m n) : announced t = 0 := by
  rw [announced, announcedLoop]
  split
  · rename_i m n h
    exact absurd h (hs m n)
  · rfl

theorem announced_done (h : (chunks 0 t).stop = .done) : announced t = (chunks 0 t).body.length := by
  induction hlen : t.length using Nat.strongRecOn generalizing t with
  | ind len ih =>
    rcases hs : sizeLine t with ⟨m, n⟩ | _ | ⟨e, n⟩
    · have hle := sizeLine_size hs
      rw [announced_size hs]
      rcases Nat.eq_zero_or_pos m with rfl | hm
      · rw [chunks_zero hs]
        rfl
      · rw [chunks_size hs hm] at h ⊢
        obtain ⟨hfit, htake, hrest⟩ := chunks_done_data hm h
        have hend : crLf (t.drop (n + m)) = .ok := by
          have hcrlf := take_append_drop (m + 2) (t.drop n)
          rw [htake] at hcrlf
          rw [← drop_drop, ← hcrlf, append_assoc, drop_left' (by rw [length_take]; omega)]
          rfl
        have hwhole : (chunks 0 (t.drop (n + m + 2))).stop = .done := by
          rw [hrest, drop_drop] at h
          exact h
        rw [if_pos ⟨hm, hend⟩, ih _ (by rw [length_drop]; omega) hwhole rfl]
        simp only [Walk.behind, hrest, drop_drop, length_append, length_take, length_nil]
        rw [Nat.add_assoc]
        omega
    · rw [chunks_cut hs] at h
      cases h
    · rw [chunks_broken hs] at h
      cases h

/-! ## Chunked bodies -/

theorem appendBodyFixedSize_chunk (r : Reader Byte Err) (dst : Bytes) (m : Nat) :
    (crLf (r.unread.drop m) ≠ .ok ∧ ∃ d e r', appendBodyFixedSize r dst ((m + 2 : Nat) : Int) = (d, e, r') ∧
      (e = none → d.drop (d.length - 2) ≠ strCRLF)) ∨
    (crLf (r.unread.drop m) = .ok ∧ ∃ d r', appendBodyFixedSize r dst ((m + 2 : Nat) : Int) = (d, none, r') ∧
      d.drop (d.length - 2) = strCRLF ∧ d.take (d.length - 2) = dst ++ r.unread.take m ∧ Drops r (m + 2) r') := by
  rcases Nat.lt_or_ge r.unread.length (m + 2) with hshort | hlen
  · obtain ⟨r', happ, -⟩ := appendBodyFixedSize_short r dst hshort
    refine .inl ⟨fun hend => ?_, _, _, r', happ, by simp⟩
    have hle := crLf_le hend
    rw [length_drop] at hle
    omega
  · obtain ⟨r', happ, hd⟩ := appendBodyFixedSize_enough r dst hlen
    have htake : dst ++ r.unread.take (m + 2) = (dst ++ r.unread.take m) ++ (r.unread.drop m).take 2 := by
      rw [take_add, append_assoc]
    have hsub : (dst ++ r.unread.take (m + 2)).length - 2 = (dst ++ r.unread.take m).length := by
      rw [length_append, length_append, length_take, length_take]
      omega
    have hlast : (dst ++ r.unread.take (m + 2)).drop ((dst ++ r.unread.take (m + 2)).length - 2) = (r.unread.drop m).take 2 := by
      rw [hsub, htake, drop_left]
    by_cases hend : crLf (r.unread.drop m) = .ok
    · obtain ⟨u, hu⟩ := crLf_ok hend
      refine .inr ⟨hend, _, r', happ, ?_, ?_, hd⟩
      · rw [hlast, hu]
        rfl
      · rw [hsub, htake, take_left]
    · refine .inl ⟨hend, _, none, r', happ, fun _ htwo => hend ?_⟩
      rw [hlast] at htwo
      rw [← take_append_drop 2 (r.unread.drop m), htwo]
      rfl

theorem readChunks_data {r r₁ : Reader Byte Err} {m : Nat} (hp : parseChunkSize r = (.ok m, r₁)) (hm : 0 < m) (dst : Bytes) :
    (crLf (r₁.unread.drop m) ≠ .ok ∧ ∃ out, ∀ fuel (maxBodySize : Int), ¬ (0 < maxBodySize ∧ maxBodySize < dst.length + m) →
      readChunks (fuel + 1) r maxBodySize dst = out) ∨
    (crLf (r₁.unread.drop m) = .ok ∧ ∃ r₂, Drops r₁ (m + 2) r₂ ∧ ∀ fuel (maxBodySize : Int),
      ¬ (0 < maxBodySize ∧ maxBodySize < dst.length + m) →
        readChunks (fuel + 1) r maxBodySize dst = readChunks fuel r₂ maxBodySize (dst ++ r₁.unread.take m)) := by
  have hlimit {maxBodySize : Int} (hfits : ¬ (0 < maxBodySize ∧ maxBodySize < dst.length + m)) :
      (0 < maxBodySize && maxBodySize < dst.length + m) = false := by simpa using hfits
  have hcrlf : strCRLF.length = 2 := rfl
  have hadd : (m : Int) + (2 : Nat) = (m + 2 : Nat) := rfl
  rcases appendBodyFixedSize_chunk r₁ dst m with ⟨hend, d, e, r₂, happ, hne⟩ | ⟨hend, d, r₂, happ, hlast, htake, hd⟩
  · refine .inl ⟨hend, ?_⟩
    rcases e with _ | e
    · refine ⟨(d, some .brokenChunkEnd, r₂), fun fuel maxBodySize hfits => ?_⟩
      simp only [readChunks, hp, Nat.ne_of_gt hm, hlimit hfits, Bool.false_eq_true, if_false, hcrlf, hadd, happ]
      exact if_pos (hne rfl)
    · refine ⟨(d, some e, r₂), fun fuel maxBodySize hfits => ?_⟩
      simp only [readChunks, hp, Nat.ne_of_gt hm, hlimit hfits, Bool.false_eq_true, if_false, hcrlf, hadd, happ]
  · refine .inr ⟨hend, r₂, hd, fun fuel maxBodySize hfits => ?_⟩
    simp only [readChunks, hp, Nat.ne_of_gt hm, hlimit hfits, Bool.false_eq_true, if_false, hcrlf, hadd, happ]
    simp [hlast, htake]

theorem readChunks_limit (fuel : Nat) (r : Reader Byte Err) {maxBodySize : Int} (dst : Bytes) (hf : r.unread.length < fuel)
    (hmax : 0 < maxBodySize) (hdst : dst.length ≤ maxBodySize) :
    (maxBodySize < dst.length + announced r.unread → (readChunks fuel r maxBodySize dst).2.1 = some .bodyTooLarge) ∧
      (dst.length + announced r.unread ≤ maxBodySize → readChunks fuel r maxBodySize dst = readChunks fuel r 0 dst) := by
  induction fuel generalizing r dst with
  | zero => omega
  | succ fuel ih =>
    have hsize := parseChunkSize_spec r
    rcases hs : sizeLine r.unread with ⟨m, n⟩ | _ | ⟨e, n⟩ <;> simp only [hs] at hsize <;> obtain ⟨r₁, hp, ht⟩ := hsize
    rotate_left
    iterate 2
      rw [announced_other (by simp [hs])]
      exact ⟨by omega, fun _ => by simp [readChunks, hp]⟩
    have hann := announced_size hs
    rcases Nat.eq_zero_or_pos m with rfl | hm
    · rw [if_neg (by simp)] at hann
      exact ⟨by omega, fun _ => by simp [readChunks, hp]⟩
    by_cases hlarge : maxBodySize < dst.length + m
    · exact ⟨fun _ => by simp [readChunks, hp, Nat.ne_of_gt hm, hmax, hlarge], by omega⟩
    rw [← drop_drop, ← ht.unread] at hann
    rcases readChunks_data hp hm dst with ⟨hend, out, hout⟩ | ⟨hend, r₂, hd, hout⟩
    · rw [if_neg (by simp [hend])] at hann
      exact ⟨by omega, fun _ => by rw [hout fuel maxBodySize (by omega), hout fuel 0 (by omega)]⟩
    · rw [if_pos ⟨hm, hend⟩, Nat.add_assoc, ← drop_drop, ← ht.unread, ← hd.unread] at hann
      have hle := hd.le
      have hlen : (dst ++ r₁.unread.take m).length = dst.length + m := by
        rw [length_append, length_take]
        omega
      have hpos := sizeLine_size hs
      have hshorter : r₂.unread.length < fuel := by
        rw [hd.unread, ht.unread, length_drop, length_drop]
        omega
      obtain ⟨hlarger, hsmaller⟩ := ih r₂ (dst ++ r₁.unread.take m) hshorter (by omega)
      rw [hout fuel maxBodySize (by omega), hout fuel 0 (by omega)]
      exact ⟨fun h => hlarger (by omega), fun h => hsmaller (by omega)⟩

/-! ## Bodies up to the end of the stream -/

theorem le_roundUpForSliceCap (n : Nat) : n ≤ roundUpForSliceCap n := by
  unfold roundUpForSliceCap
  split_ifs with hzero hlarge
  · omega
  · exact Nat.le_refl n
  · -- the bits of `n - 1` stay set
    have h₁ : ∀ x k : Nat, x ≤ x ||| x >>> k := fun _ _ => Nat.left_le_or
    have hle := Nat.le_trans (h₁ (n - 1) 1) (Nat.le_trans (h₁ _ 2) (Nat.le_trans (h₁ _ 4) (Nat.le_trans (h₁ _ 8) (h₁ _ 16))))
    simp only
    omega

structure Identity where
  r : Reader Byte Err
  size : Nat
  dst : Bytes

namespace Identity

def start (r : Reader Byte Err) (cap : Nat) : Identity := ⟨r, if cap = 0 then 1024 else cap, []⟩

def grown (maxBodySize : Int) (size n : Nat) : Nat :=
  if size = n then
    let m := roundUpForSliceCap (2 * n)
    if 0 < maxBodySize && maxBodySize < m then maxBodySize.toNat + 1 else m
  else size

def round (maxBodySize : Int) (s : Identity) : (Bytes × Option Err × Reader Byte Err) ⊕ Identity :=
  match s.r.read (s.size - s.dst.length) with
  | (bs, e, r) =>
    if bs.isEmpty then
      .inl (s.dst, match e with | some .eof => none | some e => some e | none => some .emptyRead, r)
    else
      let dst := s.dst ++ bs
      if 0 < maxBodySize && maxBodySize < dst.length then .inl (dst, some .bodyTooLarge, r)
      else match e with
        | some e => .inl (dst, if e = .eof then none else some e, r)
        | none => .inr ⟨r, grown maxBodySize s.size dst.length, dst⟩

theorem readToEnd_succ (fuel : Nat) (maxBodySize : Int) (s : Identity) :
    readToEnd (fuel + 1) s.r maxBodySize s.size s.dst =
      match s.round maxBodySize with
      | .inl out => out
      | .inr s' => readToEnd fuel s'.r maxBodySize s'.size s'.dst := by
  rw [readToEnd, round]
  rcases s.r.read (s.size - s.dst.length) with ⟨bs, e, r⟩
  rcases hempty : bs.isEmpty
  · rcases hlarge : (0 < maxBodySize && maxBodySize < (s.dst ++ bs).length : Bool)
    · simp only [hempty, hlarge]
      rcases e with _ | e <;> rfl
    · simp only [hempty, hlarge, Bool.false_eq_true, if_false, if_true]
  · simp only [hempty]
    rfl

variable {maxBodySize : Int} {s s' : Identity}

structure Roomy (maxBodySize : Int) (bound : Nat) (s : Identity) : Prop where
  room : s.dst.length < s.size
  fits : s.dst.length ≤ maxBodySize
  bounded : s.size ≤ bound

theorem round_ended (maxBodySize : Int) (hroom : s.dst.length < s.size) (hend : s.r.unread = []) :
    ∃ r', s.round maxBodySize = .inl (s.dst, if s.r.src.last = .eof then none else some s.r.src.last, r') := by
  obtain ⟨r', hr, -⟩ := read_ended hend (by omega : 0 < s.size - s.dst.length)
  unfold round
  rw [hr]
  by_cases hlast : s.r.src.last = .eof
  · simp [hlast]
  · simp [hlast]

theorem round_more (maxBodySize : Int) (hroom : s.dst.length < s.size) (hmore : s.r.unread ≠ []) :
    ∃ bs r', bs ≠ [] ∧ s.r.unread = bs ++ r'.unread ∧ r'.src.last = s.r.src.last ∧ (s.dst ++ bs).length ≤ s.size ∧
      s.round maxBodySize = if 0 < maxBodySize ∧ maxBodySize < (s.dst ++ bs).length then .inl (s.dst ++ bs, some .bodyTooLarge, r')
        else .inr ⟨r', grown maxBodySize s.size (s.dst ++ bs).length, s.dst ++ bs⟩ := by
  obtain ⟨bs, r', hr, hne, hle, happ, hd⟩ := read_some hmore (by omega : 0 < s.size - s.dst.length)
  refine ⟨bs, r', hne, happ, hd.last, by rw [length_append]; omega, ?_⟩
  have hempty : bs.isEmpty = false := by simpa using hne
  unfold round
  rw [hr]
  simp [hempty]

theorem lt_grown {size n : Nat} (hpos : 0 < n) (hle : n ≤ size) (hn : n ≤ maxBodySize) : n < grown maxBodySize size n := by
  unfold grown
  have hround := le_roundUpForSliceCap (2 * n)
  dsimp only
  split_ifs <;> omega

theorem grown_le {size n : Nat} (hmax : 0 < maxBodySize) : grown maxBodySize size n ≤ max size (maxBodySize.toNat + 1) := by
  unfold grown
  dsimp only
  split_ifs with hfull hlimit
  · exact Nat.le_max_right _ _
  · simp only [hmax, decide_true, Bool.true_and, decide_eq_true_eq] at hlimit
    omega
  · exact Nat.le_max_left _ _

theorem Roomy.round {bound : Nat} (h : Roomy maxBodySize bound s) (hmax : 0 < maxBodySize) (hbound : maxBodySize.toNat + 1 ≤ bound)
    (hstep : s.round maxBodySize = .inr s') :
    Roomy maxBodySize bound s' ∧ s.dst.length < s'.dst.length ∧ s'.r.unread.length < s.r.unread.length := by
  by_cases hend : s.r.unread = []
  · obtain ⟨r', hround⟩ := round_ended maxBodySize h.room hend
    rw [hround] at hstep
    cases hstep
  · obtain ⟨bs, r', hne, happ, -, hle, hround⟩ := round_more maxBodySize h.room hend
    have hlen := length_pos_iff.mpr hne
    rw [hround] at hstep
    split_ifs at hstep with hlarge
    cases hstep
    have hfits : (s.dst ++ bs).length ≤ maxBodySize := by omega
    refine ⟨⟨lt_grown ?_ hle hfits, hfits, ?_⟩, ?_, ?_⟩
    · rw [length_append]
      omega
    · exact Nat.le_trans (grown_le hmax) (Nat.max_le.mpr ⟨h.bounded, hbound⟩)
    · rw [length_append]
      omega
    · have hlt : r'.unread.length < s.r.unread.length := by
        rw [happ, length_append]
        omega
      exact hlt

theorem Roomy.readToEnd {bound : Nat} (h : Roomy maxBodySize bound s) (hmax : 0 < maxBodySize) (hbound : maxBodySize.toNat + 1 ≤ bound)
    {fuel : Nat} (hf : s.r.unread.length < fuel) :
    (maxBodySize < s.dst.length + s.r.unread.length → (readToEnd fuel s.r maxBodySize s.size s.dst).2.1 = some .bodyTooLarge) ∧
      (s.dst.length + s.r.unread.length ≤ maxBodySize → ∃ r', readToEnd fuel s.r maxBodySize s.size s.dst =
        (s.dst ++ s.r.unread, if s.r.src.last = .eof then none else some s.r.src.last, r')) := by
  induction fuel generalizing s with
  | zero => omega
  | succ fuel ih =>
    have hfits := h.fits
    rw [readToEnd_succ]
    by_cases hend : s.r.unread = []
    · obtain ⟨r', hround⟩ := round_ended maxBodySize h.room hend
      rw [hround, hend, append_nil]
      exact ⟨fun hlt => absurd hlt (by simpa using hfits), fun _ => ⟨r', rfl⟩⟩
    · obtain ⟨bs, r', hne, happ, hlast, -, hround⟩ := round_more maxBodySize h.room hend
      have hlen : s.dst.length + s.r.unread.length = (s.dst ++ bs).length + r'.unread.length := by
        rw [happ, length_append, length_append]
        omega
      split_ifs at hround with hlarge
      · rw [hround]
        refine ⟨fun _ => rfl, fun hle => ?_⟩
        omega
      · obtain ⟨hroomy, -, hless⟩ := h.round hmax hbound hround
        obtain ⟨hlarger, hsmaller⟩ := ih hroomy (by omega)
        rw [hround]
        simp only [hlast, append_assoc, ← happ] at hlarger hsmaller ⊢
        exact ⟨fun hlt => hlarger (by omega), fun hle => hsmaller (by omega)⟩

theorem roomy_start (r : Reader Byte Err) (cap : Nat) (hmax : 0 < maxBodySize) :
    Roomy maxBodySize (max (max cap 1024) (maxBodySize.toNat + 1)) (start r cap) := by
  unfold start
  refine ⟨?_, (Int.le_of_lt hmax), ?_⟩
  · simp only [length_nil]
    split_ifs <;> omega
  · simp only
    split_ifs <;> omega

def Reached (maxBodySize : Int) (r : Reader Byte Err) (cap : Nat) : Identity → Prop :=
  Relation.ReflTransGen (fun s s' => s.round maxBodySize = .inr s') (start r cap)

theorem Reached.roomy {r : Reader Byte Err} {cap : Nat} (hmax : 0 < maxBodySize) (h : Reached maxBodySize r cap s) :
    Roomy maxBodySize (max (max cap 1024) (maxBodySize.toNat + 1)) s := by
  induction h with
  | refl => exact roomy_start r cap hmax
  | tail _ hstep ih => exact (ih.round hmax (Nat.le_max_right _ _) hstep).1

end Identity

structure LimitExact (r : Reader Byte Err) (maxBodySize : Int) (cap : Nat) : Prop where
  fixed : ∀ n : Nat, n ≤ maxBodySize → n ≤ r.unread.length →
    ∃ r', readBody r n maxBodySize [] = (r.unread.take n, none, r') ∧ Drops r n r'
  fixed_large : ∀ n : Nat, maxBodySize < n → readBody r n maxBodySize [] = ([], some .bodyTooLarge, r)
  chunked : (chunks 0 r.unread).stop = .done → (chunks 0 r.unread).body.length ≤ maxBodySize →
    ∃ r', readBodyChunked r maxBodySize = ((chunks 0 r.unread).body, none, r') ∧ Drops r (chunks 0 r.unread).len r'
  chunked_large : maxBodySize < announced r.unread → (readBodyChunked r maxBodySize).2.1 = some .bodyTooLarge
  chunked_size : (chunks 0 r.unread).stop = .done → announced r.unread = (chunks 0 r.unread).body.length
  identity : r.src.last = .eof → r.unread.length ≤ maxBodySize → ∃ r', readBodyIdentity r maxBodySize cap = (r.unread, none, r')
  identity_large : maxBodySize < r.unread.length → (readBodyIdentity r maxBodySize cap).2.1 = some .bodyTooLarge
  bounded : ∀ s, Identity.Reached maxBodySize r cap s → s.dst.length < s.size ∧ s.size ≤ max (max cap 1024) (maxBodySize.toNat + 1)
  progress : ∀ s s', Identity.Reached maxBodySize r cap s → s.round maxBodySize = .inr s' →
    s.dst.length < s'.dst.length ∧ s'.r.unread.length < s.r.unread.length

theorem bodyLimit_exact (r : Reader Byte Err) {maxBodySize : Int} (hmax : 0 < maxBodySize) (cap : Nat) :
    LimitExact r maxBodySize cap := by
  obtain ⟨hlarge, hsmall⟩ := readChunks_limit (r.unread.length + 1) r [] (Nat.lt_succ_self _) hmax (Int.le_of_lt hmax)
  obtain ⟨hpast, hwhole⟩ := (Identity.roomy_start r cap hmax).readToEnd hmax (Nat.le_max_right _ _) (Nat.lt_succ_self r.unread.length)
  constructor
  · intro n hn hlen
    obtain ⟨r', happ, hd⟩ := appendBodyFixedSize_enough r [] hlen
    refine ⟨r', ?_, hd⟩
    unfold readBody
    rw [if_neg (by simp [hn]), happ, nil_append]
  · intro n hn
    unfold readBody
    rw [if_pos (by simp [hmax, hn])]
  · intro hdone hlen
    obtain ⟨r', hr, hd⟩ := readBodyChunked_done r maxBodySize hdone (.inr hlen)
    exact ⟨r', hr, hd⟩
  · intro hann
    exact hlarge (by simpa using hann)
  · exact announced_done
  · intro hlast hlen
    obtain ⟨r', hr⟩ := hwhole (by simpa [Identity.start] using hlen)
    refine ⟨r', ?_⟩
    simpa [readBodyIdentity, Identity.start, hlast] using hr
  · intro hlen
    exact hpast (by simpa [Identity.start] using hlen)
  · intro s hs
    have hroomy := hs.roomy hmax
    exact ⟨hroomy.room, hroomy.bounded⟩
  · intro s s' hs hstep
    exact ((hs.roomy hmax).round hmax (Nat.le_max_right _ _) hstep).2

theorem bodyLimit_exact_three :
    let r : Reader Byte Err := .new 16 (.of [ascii "2\r\n", ascii "ab\r\n0\r\n"] .eof) (by decide)
    (∃ r', readBodyChunked r 3 = (ascii "ab", none, r')) ∧ (readBodyIdentity r 3 0).2.1 = some .bodyTooLarge := by
  intro r
  have hlimit := bodyLimit_exact r (by decide : (0 : Int) < 3) 0
  obtain ⟨r', hr, -⟩ := hlimit.chunked (by decide +kernel) (by decide +kernel)
  have hbody : (chunks 0 r.unread).body = ascii "ab" := by decide +kernel
  rw [hbody] at hr
  exact ⟨⟨r', hr⟩, hlimit.identity_large (by decide +kernel)⟩

end Fasthttp
