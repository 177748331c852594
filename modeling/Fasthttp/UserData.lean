import Fasthttp.Bytes

/-!
# User values

`userData` of `userdata.go`. `Remove` and `Reset` leave old slots behind the end of the slice, and `Set` takes them again.
-/

namespace Fasthttp

open List

inductive UserKey (K : Type)
  | null
  | string (s : Bytes)
  | bytes (b : Bytes)
  | other (k : K)

structure UserDataKV (K V : Type) where
  key : UserKey K
  value : Option V

/-- The slice, and the slots between its length and its capacity -/
structure UserData (K V : Type) where
  args : List (UserDataKV K V)
  spare : List (UserDataKV K V)

inductive UserCall (K V : Type)
  | set (key : UserKey K) (value : Option V)
  | remove (key : UserKey K)
  | reset

variable {K V : Type}

def UserKey.canonical : UserKey K → UserKey K
  | .bytes b => .string b
  | key => key

namespace UserData

def empty : UserData K V := ⟨[], []⟩

def resetLoop (closable : V → Bool) : List (UserDataKV K V) → List V × List (UserDataKV K V)
  | [] => ([], [])
  | kv :: args =>
    let r := resetLoop closable args
    ((kv.value.filter closable).toList ++ r.1, ⟨.null, none⟩ :: r.2)

def reset (closable : V → Bool) (d : UserData K V) : List V × UserData K V :=
  ((resetLoop closable d.args).1, ⟨[], (resetLoop closable d.args).2 ++ d.spare⟩)

theorem resetLoop_closed (closable : V → Bool) (args : List (UserDataKV K V)) :
    (resetLoop closable args).1 = args.filterMap fun kv => kv.value.filter closable := by
  induction args with
  | nil => rfl
  | cons kv args ih =>
    rw [resetLoop, filterMap_cons, ih]
    cases kv.value.filter closable <;> rfl

end UserData

variable [BEq K]

/-- `==` of two keys. A number that is not itself has no equal. -/
def UserKey.equal : UserKey K → UserKey K → Bool
  | null, null => true
  | string s, string t => s = t
  | other a, other b => a == b
  | _, _ => false

instance : BEq (UserKey K) := ⟨UserKey.equal⟩

instance [PartialEquivBEq K] : PartialEquivBEq (UserKey K) where
  symm := by
    rintro (_ | _ | _ | _) (_ | _ | _ | _) h
    all_goals simp_all [BEq.beq, UserKey.equal]
    exact BEq.symm h
  trans := by
    rintro (_ | _ | _ | _) (_ | _ | _ | _) (_ | _ | _ | _) h h'
    all_goals simp_all [BEq.beq, UserKey.equal]
    exact BEq.trans h h'

namespace UserData

/-- `append` makes an array with `grow` slots more than it needs. -/
def set (grow : Nat → Nat) (d : UserData K V) (key : UserKey K) (value : Option V) : UserData K V :=
  let key := key.canonical
  match d.args.findIdx? (·.key == key) with
  | some i => { d with args := d.args.modify i fun kv => { kv with value } }
  | none =>
    match value, d.spare with
    | none, _ => d
    | some _, kv :: spare => ⟨d.args ++ [{ kv with key, value }], spare⟩
    | some _, [] => ⟨d.args ++ [⟨key, value⟩], replicate (grow d.args.length) ⟨.null, none⟩⟩

def lookup (args : List (UserDataKV K V)) (key : UserKey K) : Option V := (args.find? (·.key == key)).bind UserDataKV.value

def get (d : UserData K V) (key : UserKey K) : Option V := lookup d.args key.canonical

def remove (d : UserData K V) (key : UserKey K) : UserData K V :=
  match d.args.findIdx? (·.key == key.canonical) with
  | none => d
  | some i =>
    match d.args[i]?, d.args.getLast? with
    | some kv, some last => ⟨(d.args.set i last).dropLast, { kv with value := none } :: d.spare⟩
    | _, _ => d

def call (grow : Nat → Nat) (closable : V → Bool) (d : UserData K V) : UserCall K V → UserData K V
  | .set key value => d.set grow key value
  | .remove key => d.remove key
  | .reset => (d.reset closable).2

def Distinct (args : List (UserDataKV K V)) : Prop := args.Pairwise fun a b => (a.key == b.key) = false

variable {a : UserDataKV K V} {args l rest : List (UserDataKV K V)} {key : UserKey K}

theorem lookup_cons (k : UserKey K) : lookup (a :: args) k = if a.key == k then a.value else lookup args k := by
  unfold lookup
  rw [find?_cons]
  cases a.key == k <;> rfl

variable [PartialEquivBEq K]

theorem lookup_absent (h : ∀ b ∈ args, (b.key == key) = false) (k : UserKey K) :
    lookup args k = if key == k then none else lookup args k := by
  split_ifs with hk
  · unfold lookup
    rw [find?_eq_none.mpr fun b hb => by rw [← BEq.congr_right hk, h b hb]; simp]
    rfl
  · rfl

theorem Distinct.perm (h : Distinct args) (hp : args ~ l) : Distinct l := (hp.pairwise_iff fun hne => BEq.comm.trans hne).mp h

theorem Distinct.lookup_perm (h : Distinct args) (hp : args ~ l) (k : UserKey K) : lookup args k = lookup l k := by
  have hmatch := hp.filter (·.key == k)
  have hpair : Distinct (args.filter (·.key == k)) := Pairwise.filter _ h
  have hfound : ∀ x ∈ args.filter (·.key == k), (x.key == k) = true := fun x hx => (mem_filter.mp hx).2
  unfold lookup
  rw [← head?_filter, ← head?_filter]
  generalize args.filter (·.key == k) = found at hmatch hpair hfound ⊢
  rcases found with _ | ⟨a, _ | ⟨b, t⟩⟩
  · rw [hmatch.nil_eq]
  · rw [perm_singleton.mp hmatch.symm]
  · -- two entries of the key are equal to each other
    have hab := (pairwise_cons.mp hpair).1 b (by simp)
    simp [BEq.trans (hfound a (by simp)) (BEq.symm (hfound b (by simp)))] at hab

theorem Distinct.replace (h : Distinct args) (hp : args ~ a :: rest) (ha : (a.key == key) = true) {e : Option (UserDataKV K V)}
    (he : ∀ x ∈ e, x.key = a.key) (hl : l ~ e.toList ++ rest) :
    Distinct l ∧ ∀ k, lookup l k = if key == k then e.bind UserDataKV.value else lookup args k := by
  obtain ⟨hne, hrest⟩ := pairwise_cons.mp (h.perm hp)
  have hnew : Distinct (e.toList ++ rest) := by
    rcases e with _ | x
    · exact hrest
    · exact pairwise_cons.mpr ⟨fun b hb => he x rfl ▸ hne b hb, hrest⟩
  refine ⟨hnew.perm hl.symm, fun k => ?_⟩
  rw [← hnew.lookup_perm hl.symm, h.lookup_perm hp, lookup_cons, BEq.congr_left ha]
  rcases e with _ | x
  · rw [Option.toList_none, nil_append, lookup_absent (fun b hb => BEq.comm.trans (BEq.congr_left ha ▸ hne b hb)) k]
    split_ifs <;> rfl
  · rw [Option.toList_some, singleton_append, lookup_cons, he x rfl, BEq.congr_left ha]
    split_ifs <;> rfl

theorem set_last {α : Type} {l : List α} {last : α} (hlast : l.getLast? = some last) {i : Nat} (hi : i < l.length) :
    (l.set i last).dropLast ~ l.eraseIdx i := by
  obtain ⟨init, rfl⟩ := getLast?_eq_some_iff.mp hlast
  have hset : (init ++ [last]).set i last = init.set i last ++ [last] := by
    rcases Nat.lt_or_ge i init.length with h | h
    · exact set_append_left _ _ h
    · obtain rfl : i = init.length := by
        rw [length_append, length_singleton] at hi
        omega
      simp [set_eq_of_length_le (Nat.le_refl _)]
  have hperm := set_perm_cons_eraseIdx hi last
  rw [hset] at hperm ⊢
  rw [dropLast_concat]
  exact ((perm_append_singleton last _).symm.trans hperm).cons_inv

def recorded (k : UserKey K) (value : Option V) : UserCall K V → Option V
  | .set key v => if key.canonical == k.canonical then v else value
  | .remove key => if key.canonical == k.canonical then none else value
  | .reset => none

variable {grow : Nat → Nat} {closable : V → Bool} {d : UserData K V}

theorem call_spec (h : Distinct d.args) (c : UserCall K V) :
    Distinct (d.call grow closable c).args ∧ ∀ k, (d.call grow closable c).get k = recorded k (d.get k) c := by
  have hsplit : ∀ {key : UserKey K} {i : Nat}, d.args.findIdx? (·.key == key) = some i →
      ∃ hi : i < d.args.length, (d.args[i].key == key) = true ∧ d.args ~ d.args[i] :: d.args.eraseIdx i := fun hfind => by
    obtain ⟨hi, hkey, -⟩ := findIdx?_eq_some_iff_getElem.mp hfind
    exact ⟨hi, hkey, (getElem_cons_eraseIdx_perm hi).symm⟩
  cases c with
  | set key value =>
    simp only [call, set, get, recorded]
    rcases hfind : d.args.findIdx? (·.key == key.canonical) with _ | i <;> simp only [hfind]
    · have hfree := findIdx?_eq_none_iff.mp hfind
      rcases value with _ | v
      · exact ⟨h, fun k => lookup_absent hfree _⟩
      · have hnew : Distinct (⟨key.canonical, some v⟩ :: d.args) := pairwise_cons.mpr ⟨fun b hb => BEq.comm.trans (hfree b hb), h⟩
        have hp := (perm_append_singleton ⟨key.canonical, some v⟩ d.args).symm
        rcases d.spare with _ | ⟨kv, spare⟩ <;> exact ⟨hnew.perm hp, fun k => (hnew.lookup_perm hp _).symm.trans (lookup_cons _)⟩
    · obtain ⟨hi, hkey, hp⟩ := hsplit hfind
      refine (h.replace hp hkey (e := some { d.args[i] with value }) (by simp) ?_).imp_right fun hget k => hget k.canonical
      rw [modify_eq_set_get _ hi]
      exact set_perm_cons_eraseIdx hi _
  | remove key =>
    simp only [call, remove, get, recorded]
    rcases hfind : d.args.findIdx? (·.key == key.canonical) with _ | i <;> simp only [hfind]
    · exact ⟨h, fun k => lookup_absent (findIdx?_eq_none_iff.mp hfind) _⟩
    · obtain ⟨hi, hkey, hp⟩ := hsplit hfind
      obtain ⟨last, hlast⟩ := Option.isSome_iff_exists.mp (getLast?_isSome.mpr (ne_nil_of_length_pos (by omega : 0 < d.args.length)))
      simp only [getElem?_eq_getElem hi, hlast]
      exact (h.replace hp hkey (e := none) (by simp) (set_last hlast hi)).imp_right fun hget k => hget k.canonical
  | reset => exact ⟨.nil, fun k => rfl⟩

theorem calls_spec (h : Distinct d.args) (calls : List (UserCall K V)) : Distinct (calls.foldl (call grow closable) d).args ∧
    ∀ k, (calls.foldl (call grow closable) d).get k = calls.foldl (recorded k) (d.get k) := by
  induction calls generalizing d with
  | nil => exact ⟨h, fun _ => rfl⟩
  | cons c calls ih =>
    obtain ⟨hd, hget⟩ := call_spec h c
    exact (ih hd).imp_right fun hall k => by rw [foldl_cons, hall k, hget k, foldl_cons]

/-- Whatever was called before, the keys of the entries are different, a key has the value that was recorded last for it, and
`Reset` closes the values of the entries. -/
theorem userData_map (grow : Nat → Nat) (closable : V → Bool) (calls : List (UserCall K V)) :
    let d := calls.foldl (call grow closable) empty
    Distinct d.args ∧ (∀ k, d.get k = calls.foldl (recorded k) none) ∧
      (∀ kv ∈ d.args, (kv.key == kv.key) = true → d.get kv.key = kv.value) ∧
      (d.reset closable).1 = d.args.filterMap (fun kv => kv.value.filter closable) ∧ (d.reset closable).2.args = [] := by
  intro d
  obtain ⟨hd, hget⟩ : Distinct d.args ∧ ∀ k, d.get k = calls.foldl (recorded k) none := calls_spec (d := empty) .nil calls
  refine ⟨hd, hget, fun kv hkv hself => ?_, resetLoop_closed closable d.args, rfl⟩
  have hkey : kv.key.canonical = kv.key := by
    cases hk : kv.key with
    | bytes b => simp [hk, BEq.beq, UserKey.equal] at hself
    | _ => rfl
  obtain ⟨s, t, hargs⟩ := append_of_mem hkv
  rw [get, hkey, hd.lookup_perm (hargs ▸ perm_middle), lookup_cons, if_pos hself]

theorem userData_map_string :
    (((empty : UserData Nat Nat).set id (.bytes [1]) (some 2)).remove (.other 3)).get (.string [1]) = some 2 :=
  (userData_map id (fun _ => true) [.set (.bytes [1]) (some 2), .remove (.other 3)]).2.1 (.string [1])

end UserData

end Fasthttp
