import Fasthttp.Uri.Path

/-!
# Path rewriters

The rewriters that `fs_v3.go` offers, and the root that a file handler puts before the path. A result of `none` is a
panic.
-/

namespace Fasthttp

open Segments List

def uriPath (original : Bytes) : Bytes :=
  let path := normalizePath original
  if path = [] then strSlash else path

def stripLeadingSlashes : Nat → Bytes → Option Bytes
  | 0, path => some path
  | _ + 1, [] => some []
  | n + 1, c :: rest =>
    if c ≠ slash then none
    else
      match indexByte rest slash with
      | none => some []
      | some k => stripLeadingSlashes n (rest.drop k)

inductive PathRewrite
  | absent
  | pathSlashesStripper (slashesCount : Int)
  | pathPrefixStripper (prefixSize : Int)
  deriving DecidableEq, Repr

def newPathSlashesStripper (slashesCount : Int) (path : Bytes) : Option Bytes := stripLeadingSlashes slashesCount.toNat path

def newPathPrefixStripper (prefixSize : Int) (path : Bytes) : Option Bytes :=
  if prefixSize ≤ path.length then
    -- a negative bound of a slice
    if prefixSize < 0 then none else some (path.drop prefixSize.toNat)
  else some path

def PathRewrite.apply : PathRewrite → Bytes → Option Bytes
  | absent, path => some path
  | pathSlashesStripper n, path => newPathSlashesStripper n path
  | pathPrefixStripper n, path => newPathPrefixStripper n path

/-! ## The root -/

def stripTrailingSlashes (root : Bytes) : Bytes := (root.reverse.dropWhile (· = slash)).reverse

def normalizeRoot (allowEmptyRoot : Bool) (wd : Option Bytes) (root : Bytes) : Bytes :=
  if (!allowEmptyRoot && root = []) || (root ≠ [] && root.head? ≠ some slash) then
    stripTrailingSlashes (wd.getD dot ++ strSlash ++ root)
  else stripTrailingSlashes root

/-! ## What the rewriters return -/

theorem uriPath_eq (original : Bytes) : uriPath original = join slash (cleaned (segments original)) := by
  have hne : cleaned (segments original) ≠ [] := by
    unfold cleaned
    split
    · simp
    · obtain ⟨s, hs⟩ := List.getLast?_isSome.mpr (segments_ne_nil original) |> Option.isSome_iff_exists.mp
      simp [hs]
  have hpath : normalizePath original ≠ [] := by
    rw [normalizePath_eq]
    obtain ⟨s, ss, hss⟩ := exists_cons_of_ne_nil hne
    simp [hss]
  rw [uriPath]
  simp only [hpath, if_false]
  exact normalizePath_eq original

theorem stripLeadingSlashes_suffix {n : Nat} {path path' : Bytes} (h : stripLeadingSlashes n path = some path') : path' <:+ path := by
  induction n generalizing path with
  | zero => exact Option.some.inj h ▸ suffix_rfl
  | succ n ih =>
    cases path with
    | nil => exact Option.some.inj h ▸ suffix_rfl
    | cons c rest =>
      rw [stripLeadingSlashes] at h
      split_ifs at h
      split at h
      · exact Option.some.inj h ▸ nil_suffix
      · exact (ih h).trans ((drop_suffix _ rest).trans (suffix_cons c rest))

theorem PathRewrite.apply_suffix {r : PathRewrite} {path path' : Bytes} (h : r.apply path = some path') : path' <:+ path := by
  cases r with
  | absent => exact Option.some.inj h ▸ suffix_rfl
  | pathSlashesStripper n => exact stripLeadingSlashes_suffix h
  | pathPrefixStripper n =>
    simp only [apply, newPathPrefixStripper] at h
    split_ifs at h
    · exact Option.some.inj h ▸ drop_suffix _ path
    · exact Option.some.inj h ▸ suffix_rfl

theorem tail_segments {original path : Bytes} (h : path <:+ uriPath original) (hstart : path.head? = some slash) :
    ∃ ss, path = join slash ss ∧ Free slash ss ∧ dotDot ∉ ss := by
  obtain ⟨l, rfl⟩ : ∃ l, path = slash :: l := by
    cases path with
    | nil => simp at hstart
    | cons c l => exact ⟨l, by simpa using hstart⟩
  obtain ⟨t, ht⟩ := h
  rw [uriPath_eq] at ht
  have hfree := cleaned_free (segments_free original)
  obtain ⟨pre, post, hss, hpost⟩ := join_of_suffix hfree ht
  have hsub : post ⊆ cleaned (segments original) := hss ▸ subset_append_right pre post
  exact ⟨post, hpost, hfree.of_subset hsub, fun hmem => dotDot_not_mem_cleaned _ (hsub hmem)⟩

end Fasthttp
