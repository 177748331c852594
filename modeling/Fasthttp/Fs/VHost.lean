import Fasthttp.Fs.Root
import Fasthttp.Uri.Host

/-!
# Virtual hosts

`NewVHostPathRewriter` puts the host before a path that is decoded already, and sets the result as a path that was
sent: it is decoded and normalised a second time.
-/

namespace Fasthttp

open Segments List

variable {h : Bytes} {ss : List Bytes}

def strInvalidHost : Bytes := ascii "invalid-host"

def hostDir (host : Bytes) : Bytes :=
  let host := if (indexByte host slash).isSome then [] else host
  if host = [] then strInvalidHost else host

def newVHostPathRewriter (slashesCount : Int) (host original : Bytes) : Option Bytes := do
  let path ← stripLeadingSlashes slashesCount.toNat (uriPath original)
  return uriPath (slash :: (hostDir host ++ path))

/-! ## How deep a path leads -/

def level : Nat → List Bytes → Nat
  | d, [] => d
  | d, s :: ss =>
    if s = [] ∨ s = dot then level d ss
    else if s = dotDot then level (d - 1) ss
    else level (d + 1) ss

def moves (ss : List Bytes) : List Bytes := ss.filter fun s => s ≠ [] ∧ s ≠ dot

/-- The name `h` is entered from the root and never left again; a dot counts as a name at the end only. -/
def Stays (h : Bytes) (ss : List Bytes) : Prop :=
  (h ≠ dot ∧ h ≠ dotDot ∧
    ∃ before after, ss = before ++ h :: after ∧ level 0 before = 0 ∧ ∀ q, q <+: after → 0 < level 1 q) ∨
  (h = dot ∧ ∃ before, ss = before ++ [dot] ∧ level 0 before = 0)

theorem level_append (d : Nat) (ss ts : List Bytes) : level d (ss ++ ts) = level (level d ss) ts := by
  induction ss generalizing d with
  | nil => rfl
  | cons s ss ih =>
    simp only [cons_append, level]
    split_ifs <;> exact ih _

theorem resolve_length (st ss : List Bytes) : (resolve st (moves ss)).length = level st.length ss := by
  induction ss generalizing st with
  | nil => rfl
  | cons s ss ih =>
    by_cases hskip : s = [] ∨ s = dot
    · have hmoves : moves (s :: ss) = moves ss := filter_cons_of_neg (by simp; tauto)
      rw [hmoves, level, if_pos hskip, ih]
    · have hmoves : moves (s :: ss) = s :: moves ss := filter_cons_of_pos (by simpa using hskip)
      rw [hmoves, level, resolve]
      split_ifs
      · rw [ih, length_dropLast]
      · rw [ih, length_append, length_singleton]

theorem moves_append (ss ts : List Bytes) : moves (ss ++ ts) = moves ss ++ moves ts := filter_append ss ts

theorem resolve_concat (st ss : List Bytes) (s : Bytes) :
    resolve st (moves (ss ++ [s])) =
      if s = [] ∨ s = dot then resolve st (moves ss)
      else if s = dotDot then (resolve st (moves ss)).dropLast
      else resolve st (moves ss) ++ [s] := by
  rw [moves_append, resolve_append]
  split_ifs with hskip hup
  · have hnil : moves [s] = [] := filter_cons_of_neg (by simp; tauto)
    rw [hnil, resolve]
  · have hone : moves [s] = [s] := filter_cons_of_pos (by simpa using hskip)
    rw [hone, resolve, if_pos hup, resolve]
  · have hone : moves [s] = [s] := filter_cons_of_pos (by simpa using hskip)
    rw [hone, resolve, if_neg hup, resolve]

theorem level_concat (d : Nat) (ss : List Bytes) (s : Bytes) :
    level d (ss ++ [s]) = if s = [] ∨ s = dot then level d ss else if s = dotDot then level d ss - 1 else level d ss + 1 := by
  rw [level_append]
  simp [level]

/-! ## Who stays at the bottom -/

theorem head?_dropLast {α : Type} {l : List α} {a : α} : l.dropLast.head? = some a ↔ l.head? = some a ∧ 2 ≤ l.length := by
  match l with
  | [] => simp
  | [b] => simp
  | b :: c :: l => simp

theorem forall_prefix_concat {P : List Bytes → Prop} {s : Bytes} :
    (∀ q, q <+: ss ++ [s] → P q) ↔ (∀ q, q <+: ss → P q) ∧ P (ss ++ [s]) := by
  simp only [prefix_concat_iff]
  constructor
  · exact fun h => ⟨fun q hq => h q (.inr hq), h _ (.inl rfl)⟩
  · rintro ⟨h, hall⟩ q (rfl | hq)
    · exact hall
    · exact h q hq

theorem resolve_head {after : List Bytes} (hpos : ∀ q, q <+: after → 0 < level 1 q) :
    (resolve [h] (moves after)).head? = some h := by
  induction after using List.reverseRecOn with
  | nil => rfl
  | append_singleton after s ih =>
    rw [forall_prefix_concat] at hpos
    have hhead := ih hpos.1
    have hlen := resolve_length [h] after
    rw [resolve_concat]
    have hlast := hpos.2
    rw [level_concat] at hlast
    split_ifs at hlast ⊢
    · exact hhead
    · rw [head?_dropLast]
      simp only [length_singleton] at hlen
      exact ⟨hhead, by omega⟩
    · rw [List.head?_append, hhead]
      rfl

theorem resolve_head_iff :
    (resolve [] (moves ss)).head? = some h ↔
      (h ≠ [] ∧ h ≠ dot ∧ h ≠ dotDot) ∧
        ∃ before after, ss = before ++ h :: after ∧ level 0 before = 0 ∧ ∀ q, q <+: after → 0 < level 1 q := by
  constructor
  · induction ss using List.reverseRecOn with
    | nil => simp [moves, resolve]
    | append_singleton ss s ih =>
      intro hhead
      -- the way into `h` goes on by `s` unless `s` is the way in
      have hgo : (resolve [] (moves ss)).head? = some h →
          (∀ after, 0 < level 1 after → level 0 ss = level 1 after → 0 < level 1 (after ++ [s])) →
          (h ≠ [] ∧ h ≠ dot ∧ h ≠ dotDot) ∧
            ∃ before after, ss ++ [s] = before ++ h :: after ∧ level 0 before = 0 ∧ ∀ q, q <+: after → 0 < level 1 q := by
        intro hold hnext
        obtain ⟨hname, before, after, rfl, hbefore, hpos⟩ := ih hold
        refine ⟨hname, before, after ++ [s], by simp, hbefore, forall_prefix_concat.mpr ⟨hpos, hnext after (hpos after prefix_rfl) ?_⟩⟩
        rw [level_append, hbefore, level, if_neg (by tauto), if_neg hname.2.2]
      have hlen := resolve_length [] ss
      rw [resolve_concat] at hhead
      split_ifs at hhead with hskip hup
      · exact hgo hhead fun after hpos _ => by rwa [level_concat, if_pos hskip]
      · rw [head?_dropLast] at hhead
        refine hgo hhead.1 fun after _ heq => ?_
        rw [level_concat, if_neg hskip, if_pos hup]
        simp only [length_nil] at hlen
        omega
      · rcases hold : (resolve [] (moves ss)).head? with _ | h'
        · obtain rfl : s = h := by simpa [hold] using hhead
          have hnil := List.head?_eq_none_iff.mp hold
          rw [hnil] at hlen
          exact ⟨by tauto, ss, [], rfl, hlen.symm, by simp [level]⟩
        · obtain rfl : h' = h := by simpa [hold] using hhead
          exact hgo hold fun after _ _ => by
            rw [level_concat, if_neg hskip, if_neg hup]
            omega
  · rintro ⟨hname, before, after, rfl, hbefore, hpos⟩
    have hone : moves (h :: after) = h :: moves after := filter_cons_of_pos (by simp [hname])
    have hnil : resolve [] (moves before) = [] := length_eq_zero_iff.mp ((resolve_length [] before).trans hbefore)
    rw [moves_append, resolve_append, hnil, hone, resolve, if_neg hname.2.2]
    exact resolve_head hpos

theorem stays_iff (hne : h ≠ []) {init : List Bytes} {last : Bytes} :
    Stays h (init ++ [last]) ↔
      (resolve [] (moves (init ++ [last]))).head? = some h ∨ (h = dot ∧ last = dot ∧ resolve [] (moves init) = []) := by
  have hnil : resolve [] (moves init) = [] ↔ level 0 init = 0 := by
    rw [← length_eq_zero_iff, resolve_length]
    rfl
  rw [resolve_head_iff, hnil]
  refine or_congr ?_ (and_congr_right fun _ => ?_)
  · simp [hne, and_assoc]
  · constructor
    · rintro ⟨before, he, hlevel⟩
      obtain ⟨rfl, hlast⟩ := append_inj' he rfl
      exact ⟨(List.cons.inj hlast).1, hlevel⟩
    · rintro ⟨rfl, hlevel⟩
      exact ⟨init, rfl, hlevel⟩

theorem cleaned_head_iff (hne : h ≠ []) (hss : ss ≠ []) : (cleaned ss).head? = some h ↔ Stays h ss := by
  obtain ⟨init, last, rfl⟩ : ∃ init last, ss = init ++ [last] := ⟨_, _, (dropLast_append_getLast hss).symm⟩
  have hclean : cleaned (init ++ [last]) =
      if last = dotDot then (resolve [] (moves init)).dropLast ++ [[]] else resolve [] (moves init) ++ [last] := by
    simp [cleaned, moves]
  have hconcat : ∀ (st : List Bytes) (s : Bytes), (st ++ [s]).head? = some h ↔ st.head? = some h ∨ (st = [] ∧ s = h) := by
    intro st s
    cases st with
    | nil => simp
    | cons t st => simp
  rw [hclean, stays_iff hne, resolve_concat]
  by_cases hup : last = dotDot
  · have hskip : ¬ (last = [] ∨ last = dot) := by
      rw [hup]
      decide
    have hdot : last ≠ dot := fun h => hskip (.inr h)
    rw [if_pos hup, if_neg hskip, if_pos hup, hconcat]
    simp [hdot, Ne.symm hne]
  · rw [if_neg hup, hconcat]
    split_ifs with hskip
    · refine or_congr_right ⟨?_, ?_⟩
      · rintro ⟨hst, rfl⟩
        exact ⟨hskip.resolve_left hne, hskip.resolve_left hne, hst⟩
      · rintro ⟨rfl, hlast, hst⟩
        exact ⟨hst, hlast⟩
    · have hdot : last ≠ dot := fun h => hskip (.inr h)
      rw [hconcat]
      simp [hdot]

/-! ## The rewritten path -/

theorem stripLeadingSlashes_join (hfree : Free slash ss) (n : Nat) :
    stripLeadingSlashes n (join slash ss) = some (join slash (ss.drop n)) := by
  induction n generalizing ss with
  | zero => rfl
  | succ n ih =>
    cases ss with
    | nil => rfl
    | cons s ss =>
      obtain ⟨hs, hss⟩ := forall_mem_cons.mp hfree
      rw [join_cons, stripLeadingSlashes]
      cases ss with
      | nil =>
        have hnone : indexByte (s ++ join slash []) slash = none := by simpa [indexByte] using hs
        rw [hnone]
        simp
      | cons t ss =>
        have hsome : indexByte (s ++ join slash (t :: ss)) slash = some s.length := FirstIndex.idxOf?_append_cons slash s _ hs
        rw [hsome]
        simp only [drop_left]
        exact ih hss

theorem hostDir_cases (host : Bytes) : hostDir host = strInvalidHost ∨ (hostDir host = host ∧ host ≠ [] ∧ slash ∉ host) := by
  have hmem : (indexByte host slash).isSome ↔ slash ∈ host := isSome_idxOf?
  by_cases hslash : slash ∈ host
  · exact .inl (by simp [hostDir, hmem.mpr hslash])
  · by_cases hnil : host = []
    · exact .inl (by simp [hostDir, hnil])
    · exact .inr ⟨by simp [hostDir, hmem, hslash, hnil], hnil, hslash⟩

theorem hostDir_ne_nil (host : Bytes) : hostDir host ≠ [] := by
  rcases hostDir_cases host with h | ⟨h, hne, -⟩ <;> rw [h]
  · decide
  · exact hne

theorem slash_not_mem_hostDir (host : Bytes) : slash ∉ hostDir host := by
  rcases hostDir_cases host with h | ⟨h, -, hslash⟩ <;> rw [h]
  · decide
  · exact hslash

theorem confined_iff_head (hslash : slash ∉ h) (hfree : Free slash ss) (hup : dotDot ∉ ss) :
    Confined (slash :: h) (join slash ss) ↔ ss.head? = some h := by
  have hroot : slash :: h = join slash [h] := by simp
  constructor
  · rintro (he | ⟨hpre, -⟩)
    · rw [hroot] at he
      rw [join_inj hfree (by simpa [Free] using hslash) he]
      rfl
    · cases ss with
      | nil => simp at hpre
      | cons s ss =>
        have hs : slash ∉ s := hfree s mem_cons_self
        have hbetween := (prefix_iff_between hs hslash).mp hpre
        rw [hbetween.1]
        rfl
  · intro hhead
    cases ss with
    | nil => simp at hhead
    | cons s ss =>
      obtain rfl : s = h := by simpa using hhead
      have hin : Confined (slash :: s) (slash :: s ++ join slash ss) :=
        confined_join (hfree.of_subset (subset_cons_self s ss)) fun hm => hup (mem_cons_of_mem s hm)
      simpa using hin

/-- The path stays in the directory of the host exactly when the segments that the second decoding gives enter it and
do not leave it again. -/
theorem vhost_isolated (slashesCount : Int) (host original : Bytes) :
    (∃ path, newVHostPathRewriter slashesCount host original = some path ∧ Confined (slash :: hostDir host) path) ↔
      Stays (hostDir host) (segments (slash :: (hostDir host ++
        join slash ((cleaned (segments original)).drop slashesCount.toNat)))) := by
  have hstrip := stripLeadingSlashes_join (cleaned_free (segments_free original)) slashesCount.toNat
  have hrewrite : newVHostPathRewriter slashesCount host original = some (uriPath (slash :: (hostDir host ++
      join slash ((cleaned (segments original)).drop slashesCount.toNat)))) := by
    rw [newVHostPathRewriter, uriPath_eq, hstrip]
    rfl
  rw [hrewrite]
  simp only [Option.some.injEq, exists_eq_left']
  rw [uriPath_eq, confined_iff_head (slash_not_mem_hostDir host) (cleaned_free (segments_free _)) (dotDot_not_mem_cleaned _),
    cleaned_head_iff (hostDir_ne_nil host) (segments_ne_nil _)]

/-- The host `a.com` asks for a file of `b.com`. -/
theorem vhost_leaves_host :
    uriHost (ascii "a.com") = .ok (ascii "a.com") ∧
    newVHostPathRewriter 0 (ascii "a.com") (ascii "/%252e%252e/b.com/key") = some (ascii "/b.com/key") ∧
    ¬ Confined (ascii "/a.com") (ascii "/b.com/key") := by
  decide +kernel

end Fasthttp
