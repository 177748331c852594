import Fasthttp.Request.Write
import Fasthttp.Lib.Segments

/-! # The codings of an `Accept-Encoding` value -/

namespace Fasthttp

open List Segments

structure Coding where
  name : Bytes
  ne_nil : name ≠ []
  free : ch ',' ∉ name ∧ spChar ∉ name

structure AcceptItem where
  left : Nat
  coding : Coding
  right : Nat

def AcceptItem.text (i : AcceptItem) : Bytes := replicate i.left spChar ++ (i.coding.name ++ replicate i.right spChar)

def acceptEncoding : List AcceptItem → Bytes
  | [] => []
  | [i] => i.text
  | i :: items => i.text ++ ch ',' :: acceptEncoding items

def accepted (start : Bool) (name ae : Bytes) : Bool :=
  match find name ae with
  | none => false
  | some n => (ae.drop (n + name.length)).head?.all (· == ch ',') && if n = 0 then start else ae[n - 1]? == some spChar

def hasAcceptEncodingBytes (ae name : Bytes) : Bool := accepted true name ae

def OutHeader.hasAcceptEncodingBytes (h : OutHeader) (name : Bytes) : Bool :=
  Fasthttp.hasAcceptEncodingBytes (h.peek (ascii "Accept-Encoding")) name

/-- The first element with the name in it is the name, with no space behind it and with one before it unless it stands first. -/
def Neat (name : Bytes) : Bool → List AcceptItem → Prop
  | _, [] => False
  | first, i :: items =>
    if name <:+: i.coding.name then i.coding.name = name ∧ i.right = 0 ∧ (first = true ∨ 0 < i.left) else Neat name false items

theorem accepted_skip {x : Byte} {name s : Bytes} (hx : x ∉ name) (hname : name ≠ []) (hs : ¬ name <:+: s) (start : Bool) (t : Bytes) :
    accepted start name (s ++ x :: t) = accepted (x == spChar) name t := by
  have hnone : find name s = none := by rwa [← find_isSome, Option.not_isSome_iff_eq_none] at hs
  unfold accepted
  rw [find_append_sep hx hname, hnone]
  rcases find name t with _ | n
  · rfl
  · have hdrop : (s ++ x :: t).drop (n + (s.length + 1) + name.length) = t.drop (n + name.length) := by
      have hlen : n + (s.length + 1) + name.length = (s ++ [x]).length + (n + name.length) := by
        rw [length_append, length_singleton]
        omega
      rw [hlen, append_cons s x t, drop_length_add_append]
    have hprev : (s ++ x :: t)[n + (s.length + 1) - 1]? = (x :: t)[n]? := by
      rw [getElem?_append_right (by omega)]
      congr 1
      omega
    simp only [Option.none_or, Option.map_some, hdrop, hprev]
    cases n <;> simp

theorem infix_text_iff (name : Coding) (i : AcceptItem) : name.name <:+: i.text ↔ name.name <:+: i.coding.name := by
  have hleft (k : Nat) (t : Bytes) : name.name <:+: replicate k spChar ++ t ↔ name.name <:+: t := by
    induction k with
    | zero => rfl
    | succ k ih =>
      have := infix_append_sep name.free.2 name.ne_nil [] (replicate k spChar ++ t)
      simpa [replicate_succ, name.ne_nil, ih] using this
  rw [AcceptItem.text, hleft]
  rcases hr : i.right with _ | k
  · simp
  · rw [replicate_succ, infix_append_sep name.free.2 name.ne_nil]
    have := hleft k []
    simp_all [name.ne_nil]

theorem accepted_spaces (name : Coding) (start : Bool) (k : Nat) (t : Bytes) :
    accepted start name.name (replicate k spChar ++ t) = accepted (start || decide (0 < k)) name.name t := by
  induction k generalizing start with
  | zero => simp
  | succ k ih =>
    have hskip := accepted_skip name.free.2 name.ne_nil (by simp [name.ne_nil]) start (s := []) (replicate k spChar ++ t)
    rw [replicate_succ, cons_append, ← nil_append (spChar :: _), hskip, ih]
    simp

theorem accepted_coding (name c : Coding) (hin : name.name <:+: c.name) (start : Bool) {t : Bytes}
    (ht : ∀ x ∈ t.head?, x = ch ',' ∨ x = spChar) :
    accepted start name.name (c.name ++ t) = true ↔ c.name = name.name ∧ t.head?.all (· == ch ',') = true ∧ start = true := by
  obtain ⟨n, hn⟩ := Option.isSome_iff_exists.mp (find_isSome.mpr hin)
  have hfind : find name.name (c.name ++ t) = some n := by
    cases t with
    | nil => rwa [append_nil]
    | cons x t =>
      have hx : x ∉ name.name := by
        rcases ht x rfl with rfl | rfl
        · exact name.free.1
        · exact name.free.2
      rw [find_append_sep hx name.ne_nil, hn]
      rfl
  obtain ⟨u, v, hc, rfl⟩ := find_cut hn
  have hdrop : (c.name ++ t).drop (u.length + name.name.length) = v ++ t := by
    rw [hc, ← append_assoc, ← length_append, append_assoc, drop_left]
  have hlong (h : u.length + v.length ≠ 0) (heq : c.name = name.name) : False := by
    have := congrArg length heq
    simp only [hc, length_append] at this
    omega
  unfold accepted
  simp only [hfind, hdrop]
  rcases v with _ | ⟨b, v⟩
  · rcases eq_nil_or_concat' u with rfl | ⟨u, b, rfl⟩
    · simp_all
    · have hb : b ≠ spChar := fun hb => c.free.2 (by simp [hc, hb])
      refine iff_of_false (by simp [hc, hb]) (fun h => hlong (by simp) h.1)
  · have hb : b ≠ ch ',' := fun hb => c.free.1 (by simp [hc, hb])
    refine iff_of_false (by simp [hb]) (fun h => hlong (by simp) h.1)

theorem accepted_iff (name : Coding) (start : Bool) (items : List AcceptItem) :
    accepted start name.name (acceptEncoding items) = true ↔ Neat name.name start items := by
  have hcomma (t : Bytes) (i : AcceptItem) (hin : name.name <:+: i.coding.name) (start : Bool)
      (ht : t.head?.all (· == ch ',') = true) :
      accepted start name.name (i.text ++ t) = true ↔ i.coding.name = name.name ∧ i.right = 0 ∧ (start = true ∨ 0 < i.left) := by
    rw [AcceptItem.text, append_assoc, accepted_spaces, append_assoc, accepted_coding name _ hin]
    · rcases i.right with _ | k
      · simp [ht]
      · simp [replicate_succ, show (spChar == ch ',') = false by decide]
    · rcases i.right with _ | k
      · cases t <;> simp_all
      · simp [replicate_succ]
  induction items generalizing start with
  | nil => simp [acceptEncoding, accepted, find, name.ne_nil, Neat]
  | cons i items ih =>
    unfold Neat
    split
    · rename_i hin
      cases items with
      | nil => simpa [acceptEncoding] using hcomma [] i hin start rfl
      | cons j items => exact hcomma (ch ',' :: acceptEncoding (j :: items)) i hin start (by simp)
    · rename_i hnot
      have hnot : ¬ name.name <:+: i.text := by rwa [infix_text_iff]
      cases items with
      | nil =>
        have hnone : find name.name i.text = none := by rwa [← find_isSome, Option.not_isSome_iff_eq_none] at hnot
        simp [acceptEncoding, accepted, hnone, Neat]
      | cons j items =>
        rw [acceptEncoding, accepted_skip name.free.1 name.ne_nil hnot]
        · exact ih false
        · simp

theorem Neat.mem {name : Bytes} {first : Bool} {items : List AcceptItem} (h : Neat name first items) :
    name ∈ items.map (·.coding.name) := by
  induction items generalizing first with
  | nil => exact h.elim
  | cons i items ih =>
    unfold Neat at h
    split at h
    · simp [h.1]
    · exact mem_cons_of_mem _ (ih h)

/-- The answer is right exactly when the name is not in the list, or the first element with the name in it is neat. -/
theorem hasAcceptEncodingBytes_iff (h : OutHeader) (items : List AcceptItem) (name : Coding)
    (hpeek : h.peek (ascii "Accept-Encoding") = acceptEncoding items) :
    ((hasAcceptEncodingBytes (acceptEncoding items) name.name = true ↔ name.name ∈ items.map (·.coding.name)) ∧
      (h.hasAcceptEncodingBytes name.name = true ↔ name.name ∈ items.map (·.coding.name))) ↔
      (name.name ∈ items.map (·.coding.name) → Neat name.name true items) := by
  rw [OutHeader.hasAcceptEncodingBytes, hpeek, and_self, hasAcceptEncodingBytes, accepted_iff]
  exact ⟨Iff.mpr, fun hneat => ⟨Neat.mem, hneat⟩⟩

theorem hasAcceptEncodingBytes_gzip :
    let h : OutHeader := ⟨{ RequestHeader.zero with h := [⟨ascii "Accept-Encoding", ascii "br , gzip", false⟩] }, [], false, false⟩
    let br : Coding := ⟨ascii "br", by decide, by decide⟩
    let gzip : Coding := ⟨ascii "gzip", by decide, by decide⟩
    acceptEncoding [⟨0, br, 1⟩, ⟨1, gzip, 0⟩] = ascii "br , gzip" ∧ h.hasAcceptEncodingBytes gzip.name = true := by
  intro h br gzip
  have hbr : ¬ gzip.name <:+: br.name := by decide +kernel
  have hneat : Neat gzip.name true [⟨0, br, 1⟩, ⟨1, gzip, 0⟩] := by simp [Neat, hbr]
  have hiff := (hasAcceptEncodingBytes_iff h [⟨0, br, 1⟩, ⟨1, gzip, 0⟩] gzip (by decide +kernel)).mpr fun _ => hneat
  exact ⟨by decide +kernel, hiff.2.mpr (by simp)⟩

/-- An element behind a comma alone -/
theorem hasAcceptEncodingBytes_comma :
    let br : Coding := ⟨ascii "br", by decide, by decide⟩
    let gzip : Coding := ⟨ascii "gzip", by decide, by decide⟩
    hasAcceptEncodingBytes (acceptEncoding [⟨0, br, 0⟩, ⟨0, gzip, 0⟩]) gzip.name = false := by decide +kernel

end Fasthttp
