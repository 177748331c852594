import Fasthttp.Uri.Normal

/-!
# Decoded arguments

`decodeArgAppend` and `decodeArgAppendNoPlus` of `args.go`, with the destination and the reads of the source.
-/

namespace Fasthttp

open List

namespace Args

def spaced (plus : Bool) (c : Byte) : Byte := if plus = true ∧ c = ch '+' then spChar else c

/-- The slow path from the index `i` on. `none` is a read outside of `src`. -/
def decodeLoop (plus : Bool) (src : Bytes) : Nat → Nat → Bytes → Option Bytes
  | 0, _, _ => none
  | fuel + 1, i, dst =>
    if src.length ≤ i then some dst
    else src[i]?.bind fun c =>
      if c = ch '%' then
        if src.length ≤ i + 2 then some (dst ++ src.drop i)
        else src[i + 2]?.bind fun b => src[i + 1]?.bind fun a =>
          if hex2intTable a = 16 ∨ hex2intTable b = 16 then decodeLoop plus src fuel (i + 1) (dst ++ [ch '%'])
          else decodeLoop plus src fuel (i + 3) (dst ++ [UInt8.ofNat (hex2intTable a <<< 4 ||| hex2intTable b)])
      else decodeLoop plus src fuel (i + 1) (dst ++ [spaced plus c])

def decodeFrom (plus : Bool) (dst src : Bytes) (idx : Nat) : Option Bytes :=
  decodeLoop plus src (src.length + 1) idx (dst ++ src.take idx)

def decodeArgAppend (dst src : Bytes) : Option Bytes :=
  match indexByte src (ch '%'), indexByte src (ch '+') with
  | none, none => some (dst ++ src)
  | none, some idx | some idx, none => decodeFrom true dst src idx
  | some percent, some plus => decodeFrom true dst src (if percent > plus then plus else percent)

def decodeArgAppendNoPlus (dst src : Bytes) : Option Bytes :=
  match indexByte src (ch '%') with
  | none => some (dst ++ src)
  | some idx => decodeFrom false dst src idx

/-- A `%` among the last two bytes is copied with what follows. -/
def argMeaning (plus : Bool) : Bytes → Bytes
  | c :: a :: b :: rest =>
    if c = ch '%' then
      match hexOf a, hexOf b with
      | some x, some y => UInt8.ofNat (16 * x + y) :: argMeaning plus rest
      | _, _ => c :: argMeaning plus (a :: b :: rest)
    else spaced plus c :: argMeaning plus (a :: b :: rest)
  | [c, d] => if c = ch '%' then [c, d] else [spaced plus c, spaced plus d]
  | [c] => [spaced plus c]
  | [] => []

variable {plus : Bool} {src dst : Bytes} {a b c : Byte}

@[simp] theorem spaced_percent (plus : Bool) : spaced plus (ch '%') = ch '%' := by cases plus <;> rfl

@[simp] theorem spaced_false (c : Byte) : spaced false c = c := if_neg (by simp)

@[simp] theorem argMeaning_nil : argMeaning plus [] = [] := rfl

theorem argMeaning_cons (hc : c ≠ ch '%') (rest : Bytes) : argMeaning plus (c :: rest) = spaced plus c :: argMeaning plus rest := by
  match rest with
  | [] => rfl
  | [d] => simp [argMeaning, hc]
  | a :: b :: rest => simp [argMeaning, hc]

theorem argMeaning_escape {x y : Nat} (ha : hexOf a = some x) (hb : hexOf b = some y) (rest : Bytes) :
    argMeaning plus (ch '%' :: a :: b :: rest) = UInt8.ofNat (16 * x + y) :: argMeaning plus rest := by
  simp [argMeaning, ha, hb]

theorem argMeaning_percent (h : hexOf a = none ∨ hexOf b = none) (rest : Bytes) :
    argMeaning plus (ch '%' :: a :: b :: rest) = ch '%' :: argMeaning plus (a :: b :: rest) := by
  rw [argMeaning, if_pos rfl]
  rcases h with h | h
  · rw [h]
  · rw [h]
    cases hexOf a <;> rfl

theorem argMeaning_append {u : Bytes} (hu : ∀ c ∈ u, c ≠ ch '%' ∧ spaced plus c = c) (v : Bytes) :
    argMeaning plus (u ++ v) = u ++ argMeaning plus v := by
  induction u with
  | nil => rfl
  | cons c u ih =>
    obtain ⟨⟨hc, hsame⟩, hrest⟩ := forall_mem_cons.mp hu
    rw [cons_append, argMeaning_cons hc, hsame, ih hrest, cons_append]

theorem decodeLoop_eq {fuel i : Nat} (hi : i ≤ src.length) (hf : src.length < i + fuel) :
    decodeLoop plus src fuel i dst = some (dst ++ argMeaning plus (src.drop i)) := by
  induction fuel generalizing i dst with
  | zero => omega
  | succ fuel ih =>
    unfold decodeLoop
    rcases hdrop : src.drop i with _ | ⟨c, rest⟩
    · rw [if_pos (drop_eq_nil_iff.mp hdrop)]
      simp [argMeaning]
    have hlen := congrArg length hdrop
    rw [length_drop, length_cons] at hlen
    have hget : ∀ j, src[i + j]? = (c :: rest)[j]? := fun j => by rw [← hdrop, getElem?_drop]
    have hnext : ∀ j, src.drop (i + j) = (c :: rest).drop j := fun j => by rw [← hdrop, drop_drop]
    rw [if_neg (by omega), show src[i]? = some c from hget 0, Option.bind_some]
    by_cases hc : c = ch '%'
    swap
    · rw [if_neg hc, ih (by omega) (by omega), hnext 1, argMeaning_cons hc]
      simp
    subst hc
    rw [if_pos rfl]
    match rest with
    | [] | [_] =>
      rw [if_pos (by simp at hlen; omega)]
      simp [argMeaning]
    | a :: b :: rest =>
      rw [length_cons, length_cons] at hlen
      rw [if_neg (by omega), hget 2, hget 1]
      simp only [getElem?_cons_succ, getElem?_cons_zero, Option.bind_some]
      have ha := hexOf_eq a
      have hb := hexOf_eq b
      split_ifs with hhex
      · rw [ih (by omega) (by omega), hnext 1]
        have hnot : hexOf a = none ∨ hexOf b = none := by
          rcases hhex with h | h
          · exact .inl (ha.trans (if_pos h))
          · exact .inr (hb.trans (if_pos h))
        simp [argMeaning_percent hnot]
      · rw [not_or] at hhex
        rw [if_neg hhex.1] at ha
        rw [if_neg hhex.2] at hb
        have hlt : hex2intTable b < 2 ^ 4 := by
          have hle : ∀ b : Byte, hex2intTable b ≤ 16 := forall_byte (by decide +kernel)
          have := hle b
          omega
        rw [ih (by omega) (by omega), hnext 3, argMeaning_escape ha hb, ← Nat.shiftLeft_add_eq_or_of_lt hlt, Nat.shiftLeft_eq]
        simp [Nat.mul_comm]

theorem decodeFrom_eq {idx : Nat} (hidx : idx ≤ src.length) (hfree : ∀ c ∈ src.take idx, c ≠ ch '%' ∧ spaced plus c = c) :
    decodeFrom plus dst src idx = some (dst ++ argMeaning plus src) := by
  rw [decodeFrom, decodeLoop_eq hidx (by omega), append_assoc, ← argMeaning_append hfree, take_append_drop]

theorem argMeaning_free (hfree : ∀ c ∈ src, c ≠ ch '%' ∧ spaced plus c = c) : argMeaning plus src = src := by
  simpa using argMeaning_append hfree []

theorem decodeArgAppend_eq (dst src : Bytes) : decodeArgAppend dst src = some (dst ++ argMeaning true src) := by
  have hnone : ∀ {c : Byte}, indexByte src c = none → ∀ n, c ∉ src.take n := fun h n hc =>
    List.idxOf?_eq_none_iff.mp h (mem_of_mem_take hc)
  have hsome : ∀ {c : Byte} {n m : Nat}, indexByte src c = some n → m ≤ n → c ∉ src.take m := fun h hm hc =>
    FirstIndex.take_of_idxOf? h ((take_prefix_take_left hm).subset hc)
  have hfree : ∀ {n}, ch '%' ∉ src.take n → ch '+' ∉ src.take n → ∀ c ∈ src.take n, c ≠ ch '%' ∧ spaced true c = c := by
    intro n hpercent hplus c hc
    refine ⟨fun h => hpercent (h ▸ hc), if_neg ?_⟩
    rintro ⟨-, rfl⟩
    exact hplus hc
  unfold decodeArgAppend
  rcases hp : indexByte src (ch '%') with _ | percent <;> rcases hq : indexByte src (ch '+') with _ | plus
  · rw [argMeaning_free]
    simpa using hfree (hnone hp src.length) (hnone hq src.length)
  · exact decodeFrom_eq (Nat.le_of_lt (FirstIndex.idxOf?_lt hq)) (hfree (hnone hp _) (hsome hq (Nat.le_refl _)))
  · exact decodeFrom_eq (Nat.le_of_lt (FirstIndex.idxOf?_lt hp)) (hfree (hsome hp (Nat.le_refl _)) (hnone hq _))
  · have hpl := FirstIndex.idxOf?_lt hp
    exact decodeFrom_eq (by split <;> omega) (hfree (hsome hp (by split <;> omega)) (hsome hq (by split <;> omega)))

theorem decodeArgAppendNoPlus_eq (dst src : Bytes) : decodeArgAppendNoPlus dst src = some (dst ++ argMeaning false src) := by
  unfold decodeArgAppendNoPlus
  rcases hp : indexByte src (ch '%') with _ | idx
  · rw [argMeaning_free]
    intro c hc
    refine ⟨?_, spaced_false c⟩
    rintro rfl
    exact List.idxOf?_eq_none_iff.mp hp hc
  · refine decodeFrom_eq (Nat.le_of_lt (FirstIndex.idxOf?_lt hp)) fun c hc => ⟨?_, spaced_false c⟩
    rintro rfl
    exact FirstIndex.take_of_idxOf? hp hc

/-! ## The two decoders -/

def quotePlus (c : Byte) : Bytes := if c = ch '+' then ascii "%2B" else [c]

theorem argMeaning_quotePlus (hc : c ≠ ch '%') (t : Bytes) : argMeaning true (quotePlus c ++ t) = c :: argMeaning true t := by
  unfold quotePlus
  split_ifs with hplus
  · rw [hplus]
    exact argMeaning_escape (x := 2) (y := 11) (by decide) (by decide) t
  · rw [singleton_append, argMeaning_cons hc, spaced, if_neg (by simp [hplus])]

theorem argMeaning_last (c : Byte) : argMeaning true (quotePlus c) = [c] := by
  by_cases hc : c = ch '%'
  · rw [hc]
    rfl
  · simpa using argMeaning_quotePlus hc []

theorem quotePlus_hex {x : Nat} (h : hexOf a = some x) : quotePlus a = [a] := by
  refine if_neg ?_
  rintro rfl
  cases h

theorem argMeaning_flatMap (src : Bytes) : argMeaning true (src.flatMap quotePlus) = argMeaning false src := by
  have hpercent : quotePlus (ch '%') = [ch '%'] := rfl
  fun_induction argMeaning false src with
  | case1 a b rest x y hb ha ih =>
    simp only [flatMap_cons, hpercent, quotePlus_hex ha, quotePlus_hex hb, singleton_append]
    rw [argMeaning_escape ha hb, ih]
  | case2 a b rest hnot ih =>
    have hdigits : hexOf a = none ∨ hexOf b = none := by
      rcases ha : hexOf a with _ | x
      · exact .inl rfl
      · rcases hb : hexOf b with _ | y
        · exact .inr rfl
        · exact (hnot x y ha hb).elim
    rw [← ih, flatMap_cons, hpercent, singleton_append, flatMap_cons, flatMap_cons]
    -- the first two bytes are no digits, as a `+` starts with a `%` now
    by_cases ha : a = ch '+'
    · subst ha
      exact argMeaning_percent (.inl (by decide)) _
    by_cases hb : b = ch '+'
    · subst hb
      rw [quotePlus, if_neg ha]
      exact argMeaning_percent (.inr (by decide)) _
    · rw [quotePlus, if_neg ha, quotePlus, if_neg hb]
      exact argMeaning_percent hdigits _
  | case3 c a b rest hc ih =>
    rw [flatMap_cons, argMeaning_quotePlus hc, ih, spaced_false]
  | case4 d =>
    rw [flatMap_cons, hpercent, flatMap_cons, flatMap_nil, append_nil, singleton_append, quotePlus]
    split_ifs with hd
    · rw [hd]
      decide
    · simp [argMeaning]
  | case5 c d hc => simp [argMeaning_quotePlus hc, argMeaning_last]
  | case6 c => simp [argMeaning_last]
  | case7 => rfl

theorem argMeaning_noPlus (src : Bytes) : argMeaning false src = percentDecode src := by
  fun_induction argMeaning false src with
  | case1 a b rest x y hb ha ih => simp [percentDecode, ha, hb, ih]
  | case2 a b rest hnot ih =>
    rw [ih, percentDecode]
    split
    · rename_i x y ha hb
      exact (hnot x y ha hb).elim
    · rfl
  | case3 c a b rest hc ih => rw [ih, percentDecode_cons hc, spaced_false]
  | _ => simp [percentDecode]

/-- Both decoders append what the text means and read only in it. Without the `+` as a space it is the text with each `+` quoted. -/
theorem decoders_exact (dst src : Bytes) :
    decodeArgAppend dst src = some (dst ++ argMeaning true src) ∧
    decodeArgAppendNoPlus dst src = decodeArgAppend dst (src.flatMap quotePlus) ∧
    decodeArgAppendNoPlus dst src = some (dst ++ Fasthttp.decodeArgAppendNoPlus src) := by
  refine ⟨decodeArgAppend_eq dst src, ?_, ?_⟩
  · rw [decodeArgAppendNoPlus_eq, decodeArgAppend_eq, argMeaning_flatMap]
  · rw [decodeArgAppendNoPlus_eq, Fasthttp.decodeArgAppendNoPlus_eq, argMeaning_noPlus]

end Args

end Fasthttp
