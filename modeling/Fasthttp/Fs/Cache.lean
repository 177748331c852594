import Fasthttp.Lib.Machine
import Fasthttp.Lib.Tally
import Fasthttp.Bytes

/-!
# The file cache

`syncMapCacheManager` of `fs_v3.go` with any number of requests and its cleaner.
-/

namespace Fasthttp

open Tally

abbrev FileKey := Nat × Bytes

/-- `key` says what the file was opened for. A released file is for nothing. -/
structure FsFile where
  readersCount : Int
  key : Option FileKey
  deriving DecidableEq, Repr

inductive FileRequest
  /-- the lookup under the lock of the path -/
  | missed (key : FileKey)
  | opens (key : FileKey)
  /-- `LoadOrStore` of `SetFileToCache` -/
  | made (key : FileKey) (f : Nat)
  /-- the `release` of `SetFileToCache`: the cache has `g` already -/
  | lost (key : FileKey) (f g : Nat)
  | found (key : FileKey) (f : Nat)
  /-- the answer is sent from the file, then `readersCount.Add(-1)` -/
  | holds (key : FileKey) (f : Nat)
  | done
  deriving DecidableEq, Repr

/-- The files are the objects that were ever made, by their numbers. -/
structure FileCache where
  map : FileKey → Option Nat
  files : Nat → FsFile
  made : Nat
  pool : List Nat
  pending : List Nat
  releasing : Option Nat
  /-- the cleaner is in `handlePendingCache` -/
  sweeping : Bool
  requests : List FileRequest

inductive CacheAction
  | arrive (key : FileKey)
  | relook (i : Nat)
  | make (i : Nat) (recycled : Option Nat)
  | fail (i : Nat)
  | store (i : Nat)
  | drop (i : Nat)
  | count (i : Nat)
  | finish (i : Nat)
  | evict (key : FileKey)
  | sweep
  | check (f : Nat)
  | release
  | leave
  deriving DecidableEq, Repr

namespace FileCache

def new : FileCache := ⟨fun _ => none, fun _ => ⟨0, none⟩, 0, [], [], none, false, []⟩

def setRequest (c : FileCache) (i : Nat) (r : FileRequest) : FileCache := { c with requests := c.requests.set i r }

def setFile (c : FileCache) (f : Nat) (v : FsFile) : FileCache := { c with files := Function.update c.files f v }

def addReaders (c : FileCache) (f : Nat) (n : Int) : FileCache :=
  c.setFile f { c.files f with readersCount := (c.files f).readersCount + n }

def releaseFile (c : FileCache) (f : Nat) : FileCache := { c.setFile f ⟨0, none⟩ with pool := f :: c.pool }

def makeFile (c : FileCache) (key : FileKey) : Option Nat → Option (FileCache × Nat)
  | some f => if f ∈ c.pool then some ({ c.setFile f { c.files f with key := some key } with pool := c.pool.erase f }, f) else none
  | none => some ({ c.setFile c.made { c.files c.made with key := some key } with made := c.made + 1 }, c.made)

/-- The file of which `handlePendingCache` loads the count. Its `prev` stays at the head of the list, so that the second
file is looked at until it is released, and the head when it is alone. -/
def looked (c : FileCache) : Option Nat :=
  match c.pending with
  | [] => none
  | [f] => some f
  | _ :: f :: _ => some f

def step (c : FileCache) : CacheAction → Option FileCache
  | .arrive key =>
    match c.map key with
    | some f => some { c with requests := c.requests ++ [.found key f] }
    | none => some { c with requests := c.requests ++ [.missed key] }
  | .relook i =>
    match c.requests[i]? with
    | some (.missed key) =>
      match c.map key with
      | some f => some (c.setRequest i (.found key f))
      | none => some (c.setRequest i (.opens key))
    | _ => none
  | .make i recycled =>
    match c.requests[i]? with
    | some (.opens key) => (c.makeFile key recycled).map fun (c', f) => c'.setRequest i (.made key f)
    | _ => none
  | .fail i =>
    match c.requests[i]? with
    | some (.opens _) => some (c.setRequest i .done)
    | _ => none
  | .store i =>
    match c.requests[i]? with
    | some (.made key f) =>
      match c.map key with
      | some g => some (c.setRequest i (.lost key f g))
      | none => some { c.setRequest i (.found key f) with map := Function.update c.map key (some f) }
    | _ => none
  | .drop i =>
    match c.requests[i]? with
    | some (.lost key f g) => some ((c.releaseFile f).setRequest i (.found key g))
    | _ => none
  | .count i =>
    match c.requests[i]? with
    | some (.found key f) => some ((c.addReaders f 1).setRequest i (.holds key f))
    | _ => none
  | .finish i =>
    match c.requests[i]? with
    | some (.holds _ f) => some ((c.addReaders f (-1)).setRequest i .done)
    | _ => none
  | .evict key =>
    match c.map key with
    | some f =>
      if c.sweeping then none else some { c with map := Function.update c.map key none, pending := f :: c.pending }
    | none => none
  | .sweep => if c.sweeping then none else some { c with sweeping := true }
  | .check f =>
    if c.sweeping ∧ c.looked = some f ∧ c.releasing = none ∧ (c.files f).readersCount = 0 then
      some { c with pending := c.pending.erase f, releasing := some f }
    else none
  | .release =>
    match c.releasing with
    | some f => some { c.releaseFile f with releasing := none }
    | none => none
  | .leave => if c.sweeping ∧ c.pending.length ≤ 1 ∧ c.releasing = none then some { c with sweeping := false } else none

def machine : Machine FileCache CacheAction := ⟨step⟩

/-! ## Who has a file -/

end FileCache

namespace FileRequest

def owns (f : Nat) : FileRequest → Nat
  | made _ g => one g f
  | lost _ g _ => one g f
  | _ => 0

def reaches (f : Nat) : FileRequest → Nat
  | found _ g => one g f
  | lost _ _ g => one g f
  | _ => 0

def reads (f : Nat) : FileRequest → Nat
  | holds _ g => one g f
  | _ => 0

def Fits (files : Nat → FsFile) : FileRequest → Prop
  | made key f => (files f).key = some key
  | lost key f g => (files f).key = some key ∧ (files g).key = some key
  | found key f => (files f).key = some key
  | holds key f => (files f).key = some key
  | _ => True

end FileRequest

namespace FileCache

variable (c : FileCache) (f : Nat)

def owned : Nat := (c.requests.map (FileRequest.owns f)).sum
def reached : Nat := (c.requests.map (FileRequest.reaches f)).sum
def readers : Nat := (c.requests.map (FileRequest.reads f)).sum

def cached : Nat :=
  match (c.files f).key with
  | some key => if c.map key = some f then 1 else 0
  | none => 0

/-- Every count is the number of the requests that use the file, and every request uses the file of its path. -/
structure Safe (c : FileCache) : Prop where
  counts : ∀ f, (c.files f).readersCount = c.readers f
  own : ∀ key f, .holds key f ∈ c.requests → (c.files f).key = some key

/-- The cleaner finds no reader of a file only when no request is on its way to it. -/
def Settled (c : FileCache) : CacheAction → Prop
  | .check f => c.reached f = 0
  | _ => True

instance (c : FileCache) : DecidablePred c.Settled
  | .check f => inferInstanceAs (Decidable (c.reached f = 0))
  | .arrive _ | .relook _ | .make _ _ | .fail _ | .store _ | .drop _ | .count _ | .finish _ | .evict _ | .sweep | .release | .leave =>
    isTrue trivial

/-- Each file is at one place: with the request that made it, in the map, pending, with the cleaner or in the pool. -/
structure Inv (c : FileCache) : Prop where
  mapped : ∀ key f, c.map key = some f → (c.files f).key = some key
  fits : ∀ r ∈ c.requests, r.Fits c.files
  places : ∀ f, c.owned f + c.cached f + c.pending.count f + c.releasing.toList.count f + c.pool.count f = below c.made f
  refs : ∀ f, 0 < c.reached f + c.readers f → 0 < c.cached f + c.pending.count f
  counts : ∀ f, (c.files f).readersCount = c.readers f

variable {c : FileCache} {i f g : Nat} {r r' : FileRequest}

@[simp] theorem setRequest_files (c : FileCache) : (c.setRequest i r).files = c.files := rfl

theorem owned_set (h : c.requests[i]? = some r) (r' : FileRequest) (f : Nat) :
    (c.setRequest i r').owned f + r.owns f = c.owned f + r'.owns f :=
  Tally.sum_set _ h r'

theorem reached_set (h : c.requests[i]? = some r) (r' : FileRequest) (f : Nat) :
    (c.setRequest i r').reached f + r.reaches f = c.reached f + r'.reaches f :=
  Tally.sum_set _ h r'

theorem readers_set (h : c.requests[i]? = some r) (r' : FileRequest) (f : Nat) :
    (c.setRequest i r').readers f + r.reads f = c.readers f + r'.reads f :=
  Tally.sum_set _ h r'

def Strange (f : Nat) (r : FileRequest) : Prop := r.owns f = 0 ∧ r.reaches f = 0 ∧ r.reads f = 0

theorem strange_of_mem (h : r ∈ c.requests) (ho : c.owned f = 0) (hr : c.reached f = 0) (hs : c.readers f = 0) : Strange f r := by
  have h₁ : r.owns f ≤ c.owned f := Tally.le_sum _ h
  have h₂ : r.reaches f ≤ c.reached f := Tally.le_sum _ h
  have h₃ : r.reads f ≤ c.readers f := Tally.le_sum _ h
  exact ⟨by omega, by omega, by omega⟩

theorem fits_update {files : Nat → FsFile} {v : FsFile} (h : Strange f r) : r.Fits (Function.update files f v) ↔ r.Fits files := by
  obtain ⟨ho, hr, hs⟩ := h
  cases r <;> simp_all [FileRequest.owns, FileRequest.reaches, FileRequest.reads, FileRequest.Fits, one_eq_zero]

theorem fits_count {files : Nat → FsFile} {n : Int} :
    r.Fits (Function.update files f { files f with readersCount := n }) ↔ r.Fits files := by
  have hkey : ∀ g, (Function.update files f { files f with readersCount := n } g).key = (files g).key := by
    intro g
    by_cases h : g = f
    · subst h
      simp
    · rw [Function.update_of_ne h]
  cases r <;> simp [FileRequest.Fits, hkey]

theorem cached_update (c : FileCache) (key : FileKey) (v : Option Nat) (f : Nat) :
    cached { c with map := Function.update c.map key v } f =
      if (c.files f).key = some key then (if v = some f then 1 else 0) else c.cached f := by
  unfold cached
  rcases hk : (c.files f).key with _ | key'
  · simp
  · by_cases he : key' = key
    · simp [he]
    · simp [he]

theorem cached_setFile_ne {v : FsFile} (h : g ≠ f) : (c.setFile f v).cached g = c.cached g := by
  have hfile : (c.setFile f v).files g = c.files g := Function.update_of_ne h _ _
  rw [cached, hfile]
  rfl

theorem fits_setFile (hfits : ∀ r ∈ c.requests, r.Fits c.files) (ho : c.owned f = 0) (hr : c.reached f = 0) (hs : c.readers f = 0)
    (v : FsFile) : ∀ r ∈ c.requests, r.Fits (c.setFile f v).files :=
  fun r hmem => (fits_update (strange_of_mem hmem ho hr hs)).mpr (hfits r hmem)

theorem fits_setRequest (hfits : ∀ r ∈ c.requests, r.Fits c.files) (hr : r'.Fits c.files) :
    ∀ r ∈ (c.setRequest i r').requests, r.Fits c.files := by
  intro r hmem
  rcases List.mem_or_eq_of_mem_set hmem with hmem | rfl
  · exact hfits r hmem
  · exact hr

theorem key_addReaders (c : FileCache) (f g : Nat) (n : Int) : ((c.addReaders f n).files g).key = (c.files g).key := by
  by_cases hgf : g = f
  · subst hgf
    simp [addReaders, setFile]
  · simp [addReaders, setFile, Function.update_of_ne hgf]

theorem cached_addReaders (c : FileCache) (f g : Nat) (n : Int) : (c.addReaders f n).cached g = c.cached g := by
  rw [cached, key_addReaders]
  rfl

theorem readersCount_addReaders (c : FileCache) (f g : Nat) (n : Int) :
    ((c.addReaders f n).files g).readersCount = (c.files g).readersCount + n * one f g := by
  by_cases hgf : f = g
  · subst hgf
    simp [addReaders, setFile]
  · simp [addReaders, setFile, Function.update_of_ne (Ne.symm hgf), one, hgf]

namespace Inv

variable {key : FileKey}

section

variable (h : c.Inv)
include h

theorem cached_of_map (hm : c.map key = some f) : c.cached f = 1 := by
  simp [cached, h.mapped key f hm, hm]

theorem unused (hp : c.cached f + c.pending.count f = 0) : c.reached f = 0 ∧ c.readers f = 0 := by
  have := h.refs f
  omega

/-! ## The steps of a request -/

theorem of_requests {l : List FileRequest} (hfits : ∀ r ∈ l, r.Fits c.files)
    (howned : ∀ f, (l.map (FileRequest.owns f)).sum = c.owned f) (hreaders : ∀ f, (l.map (FileRequest.reads f)).sum = c.readers f)
    (hreached : ∀ f, (l.map (FileRequest.reaches f)).sum ≤ c.reached f ∨ c.cached f = 1) : Inv { c with requests := l } := by
  refine ⟨h.mapped, hfits, fun f => ?_, fun f hf => ?_, fun f => ?_⟩
  · have hplaces := h.places f
    rw [← howned f] at hplaces
    exact hplaces
  · have hrefs := h.refs f
    rw [← hreaders f] at hrefs
    change 0 < (l.map (FileRequest.reaches f)).sum + (l.map (FileRequest.reads f)).sum at hf
    change 0 < c.cached f + c.pending.count f
    rcases hreached f with hle | hone <;> omega
  · have hcounts := h.counts f
    rw [← hreaders f] at hcounts
    exact hcounts

theorem reaches_found (hm : c.map key = some g) (f : Nat) : one g f = 0 ∨ c.cached f = 1 := by
  by_cases hgf : g = f
  · exact .inr (hgf ▸ h.cached_of_map hm)
  · exact .inl (one_eq_zero.mpr hgf)

theorem arrive {r : FileRequest} (hr : r = .missed key ∨ ∃ g, r = .found key g ∧ c.map key = some g) :
    Inv { c with requests := c.requests ++ [r] } := by
  refine h.of_requests (fun r' hr' => ?_) (fun f => ?_) (fun f => ?_) (fun f => ?_)
  · rcases List.mem_append.mp hr' with hr' | hr'
    · exact h.fits r' hr'
    · obtain rfl := List.mem_singleton.mp hr'
      rcases hr with rfl | ⟨g, rfl, hm⟩
      · trivial
      · exact h.mapped key g hm
  · rcases hr with rfl | ⟨g, rfl, -⟩ <;> simp [owned, FileRequest.owns]
  · rcases hr with rfl | ⟨g, rfl, -⟩ <;> simp [readers, FileRequest.reads]
  · rcases hr with rfl | ⟨g, rfl, hm⟩
    · simp [reached, FileRequest.reaches]
    · refine (h.reaches_found hm f).imp_left fun hzero => ?_
      simp [reached, FileRequest.reaches, hzero]

theorem relook (hi : c.requests[i]? = some (.missed key))
    (hr : r = .opens key ∨ ∃ g, r = .found key g ∧ c.map key = some g) : Inv (c.setRequest i r) := by
  have ho (f) := owned_set hi r f
  have hre (f) := reached_set hi r f
  have hrd (f) := readers_set hi r f
  refine h.of_requests (fits_setRequest h.fits ?_) (fun f => ?_) (fun f => ?_) (fun f => ?_)
  · rcases hr with rfl | ⟨g, rfl, hm⟩
    · trivial
    · exact h.mapped key g hm
  · rcases hr with rfl | ⟨g, rfl, -⟩ <;> exact ho f
  · rcases hr with rfl | ⟨g, rfl, -⟩ <;> exact hrd f
  · rcases hr with rfl | ⟨g, rfl, hm⟩
    · exact .inl (hre f).le
    · refine (h.reaches_found hm f).imp_left fun hzero => ?_
      have hsum := hre f
      simp only [FileRequest.reaches, hzero] at hsum
      exact hsum.le

theorem fail (hi : c.requests[i]? = some (.opens key)) : Inv (c.setRequest i .done) :=
  h.of_requests (fits_setRequest h.fits trivial) (owned_set hi _) (readers_set hi _) (fun _ => .inl (reached_set hi _ _).le)

theorem storeLost (hi : c.requests[i]? = some (.made key f)) (hm : c.map key = some g) :
    Inv (c.setRequest i (.lost key f g)) := by
  refine h.of_requests (fits_setRequest h.fits ⟨h.fits _ (List.mem_of_getElem? hi), h.mapped key g hm⟩) (fun f' => ?_)
    (readers_set hi _)
    (fun f' => ?_)
  · have hsum := owned_set hi (.lost key f g) f'
    exact Nat.add_right_cancel hsum
  · refine (h.reaches_found hm f').imp_left fun hzero => ?_
    have hsum := reached_set hi (.lost key f g) f'
    simp only [FileRequest.reaches, hzero] at hsum
    exact hsum.le

theorem storeFound (hi : c.requests[i]? = some (.made key f)) (hm : c.map key = none) :
    Inv { c.setRequest i (.found key f) with map := Function.update c.map key (some f) } := by
  have hkey : (c.files f).key = some key := h.fits _ (List.mem_of_getElem? hi)
  have hcached : ∀ g, cached { c.setRequest i (.found key f) with map := Function.update c.map key (some f) } g =
      c.cached g + one f g := by
    intro g
    have hold : (c.files g).key = some key → c.cached g = 0 := fun hg => by simp [cached, hg, hm]
    refine (cached_update (c.setRequest i (.found key f)) key (some f) g).trans ?_
    by_cases hgf : f = g
    · subst hgf
      simp [hkey, hold hkey]
    · by_cases hg : (c.files g).key = some key
      · simp [hg, hold hg, one]
      · simp only [setRequest_files, hg, one, hgf]
        rfl
  have howned (g) := owned_set hi (.found key f) g
  have hreached (g) := reached_set hi (.found key f) g
  have hreaders (g) := readers_set hi (.found key f) g
  simp only [FileRequest.owns, FileRequest.reaches, FileRequest.reads] at howned hreached hreaders
  refine ⟨?_, fits_setRequest h.fits hkey, fun g => ?_, fun g hg => ?_, fun g => ?_⟩
  · intro key' g hg
    by_cases he : key' = key
    · subst he
      obtain rfl : f = g := by simpa using hg
      exact hkey
    · exact h.mapped key' g (by simpa [Function.update_of_ne he] using hg)
  · have hplaces := h.places g
    have hcg := hcached g
    have hog := howned g
    change (c.setRequest i (.found key f)).owned g + cached _ g + c.pending.count g + c.releasing.toList.count g + c.pool.count g =
      below c.made g
    omega
  · have hrefs := h.refs g
    have hcg := hcached g
    have hrg := hreached g
    have hsg := hreaders g
    change 0 < (c.setRequest i (.found key f)).reached g + (c.setRequest i (.found key f)).readers g at hg
    change 0 < cached _ g + c.pending.count g
    omega
  · exact (h.counts g).trans (congrArg Nat.cast (hreaders g).symm)

theorem mapped_setFile (hfree : c.cached f = 0) (v : FsFile) (hm : c.map key = some g) :
    ((c.setFile f v).files g).key = some key := by
  have hne : g ≠ f := by
    rintro rfl
    rw [h.cached_of_map hm] at hfree
    omega
  simpa [setFile, Function.update_of_ne hne] using h.mapped key g hm

theorem cached_setFile (hfree : c.cached f = 0) (v : FsFile) (g : Nat) : (c.setFile f v).cached g = c.cached g := by
  by_cases hgf : g = f
  · subst hgf
    rw [hfree, cached]
    split
    · refine if_neg fun hm => ?_
      rw [h.cached_of_map hm] at hfree
      omega
    · rfl
  · exact cached_setFile_ne hgf

theorem makeAt {made : Nat} {pool : List Nat} (hi : c.requests[i]? = some (.opens key))
    (ho : c.owned f = 0) (hc : c.cached f = 0) (hp : c.pending.count f = 0)
    (hplace : ∀ g, pool.count g + one f g + below c.made g = c.pool.count g + below made g) :
    Inv ({ c.setFile f { c.files f with key := some key } with made := made, pool := pool }.setRequest i (.made key f)) := by
  obtain ⟨hr, hs⟩ := h.unused (f := f) (by omega)
  have howned (g) := owned_set hi (.made key f) g
  have hreached (g) := reached_set hi (.made key f) g
  have hreaders (g) := readers_set hi (.made key f) g
  have hcached := h.cached_setFile hc { c.files f with key := some key }
  simp only [FileRequest.owns, FileRequest.reaches, FileRequest.reads] at howned hreached hreaders
  refine ⟨fun key' g hm => h.mapped_setFile hc _ hm, ?_, fun g => ?_, fun g hg => ?_, fun g => ?_⟩
  · refine fits_setRequest (fits_setFile h.fits ho hr hs { c.files f with key := some key }) ?_
    simp [FileRequest.Fits, setFile]
  · have hplaces := h.places g
    have hog := howned g
    have hcg := hcached g
    have hpg := hplace g
    change (c.setRequest i (.made key f)).owned g + (c.setFile f { c.files f with key := some key }).cached g + c.pending.count g +
      c.releasing.toList.count g + pool.count g = below made g
    omega
  · have hrefs := h.refs g
    have hrg := hreached g
    have hsg := hreaders g
    have hcg := hcached g
    change 0 < (c.setRequest i (.made key f)).reached g + (c.setRequest i (.made key f)).readers g at hg
    change 0 < (c.setFile f { c.files f with key := some key }).cached g + c.pending.count g
    omega
  · have hcount : ((c.setFile f { c.files f with key := some key }).files g).readersCount = (c.files g).readersCount := by
      by_cases hgf : g = f
      · subst hgf
        simp [setFile]
      · simp [setFile, Function.update_of_ne hgf]
    exact hcount.trans ((h.counts g).trans (congrArg Nat.cast (hreaders g).symm))

theorem make {recycled : Option Nat} {c' : FileCache} (hi : c.requests[i]? = some (.opens key))
    (hmake : c.makeFile key recycled = some (c', f)) : Inv (c'.setRequest i (.made key f)) := by
  cases recycled with
  | some f' =>
    simp only [makeFile] at hmake
    split_ifs at hmake with hmem
    obtain ⟨rfl, rfl⟩ := Prod.mk.inj (Option.some.inj hmake)
    have hpos : 0 < c.pool.count f' := List.count_pos_iff.mpr hmem
    have hle := below_le_one c.made f'
    have hplaces := h.places f'
    refine h.makeAt hi (by omega) (by omega) (by omega) fun g => ?_
    have hcount := count_erase hmem g
    change (c.pool.erase f').count g + one f' g + below c.made g = c.pool.count g + below c.made g
    omega
  | none =>
    obtain ⟨rfl, rfl⟩ := Prod.mk.inj (Option.some.inj hmake)
    have hplaces := h.places c.made
    have hzero := below_self c.made
    refine h.makeAt hi (by omega) (by omega) (by omega) fun g => ?_
    have hone := below_succ c.made g
    change c.pool.count g + one c.made g + below c.made g = c.pool.count g + below (c.made + 1) g
    omega

theorem releaseAt (releasing : Option Nat) {l : List FileRequest} (hfits : ∀ r ∈ l, r.Fits c.files)
    (hc : c.cached f = 0) (hp : c.pending.count f = 0)
    (howned : ∀ g, (l.map (FileRequest.owns g)).sum + releasing.toList.count g + one f g =
      c.owned g + c.releasing.toList.count g)
    (hreaders : ∀ g, (l.map (FileRequest.reads g)).sum = c.readers g)
    (hreached : ∀ g, (l.map (FileRequest.reaches g)).sum = c.reached g) (hone : c.owned f + c.releasing.toList.count f = 1) :
    Inv { c.releaseFile f with releasing := releasing, requests := l } := by
  obtain ⟨hr, hs⟩ := h.unused (f := f) (by omega)
  have hcached := h.cached_setFile hc ⟨0, none⟩
  have hgone : (l.map (FileRequest.owns f)).sum = 0 := by
    have hf := howned f
    rw [one_self] at hf
    omega
  refine ⟨fun key g hm => h.mapped_setFile hc ⟨0, none⟩ hm, ?_, fun g => ?_, fun g hg => ?_, fun g => ?_⟩
  · exact fits_setFile (c := { c with requests := l }) hfits hgone ((hreached f).trans hr) ((hreaders f).trans hs) ⟨0, none⟩
  · have hplaces := h.places g
    have hog := howned g
    have hcg := hcached g
    have hpool := count_cons c.pool f g
    change (l.map (FileRequest.owns g)).sum + (c.setFile f ⟨0, none⟩).cached g + c.pending.count g + releasing.toList.count g +
      (f :: c.pool).count g = below c.made g
    omega
  · have hrefs := h.refs g
    have hrg := hreached g
    have hsg := hreaders g
    have hcg := hcached g
    change 0 < (l.map (FileRequest.reaches g)).sum + (l.map (FileRequest.reads g)).sum at hg
    change 0 < (c.setFile f ⟨0, none⟩).cached g + c.pending.count g
    omega
  · have hcounts := h.counts g
    have hsg := hreaders g
    have hread : readers { c.releaseFile f with releasing := releasing, requests := l } g = c.readers g := hsg
    rw [hread]
    by_cases hgf : g = f
    · subst hgf
      simp [releaseFile, setFile, hs]
    · simp only [releaseFile, setFile, Function.update_of_ne hgf]
      exact hcounts

theorem drop (hi : c.requests[i]? = some (.lost key f g)) :
    Inv ((c.releaseFile f).setRequest i (.found key g)) := by
  have howned (x) := owned_set hi (.found key g) x
  have hreached (x) := reached_set hi (.found key g) x
  have hreaders (x) := readers_set hi (.found key g) x
  simp only [FileRequest.owns] at howned hreached hreaders
  have hfit : (FileRequest.lost key f g).Fits c.files := h.fits _ (List.mem_of_getElem? hi)
  have hpos : 0 < c.owned f := by
    have hf := howned f
    rw [one_self] at hf
    omega
  have hle := below_le_one c.made f
  have hplaces := h.places f
  refine h.releaseAt c.releasing (fits_setRequest h.fits hfit.2) (by omega) (by omega) (fun x => ?_) hreaders
    (fun x => Nat.add_right_cancel (hreached x)) (by omega)
  have hx := howned x
  change (c.setRequest i (.found key g)).owned x + c.releasing.toList.count x + one f x = c.owned x + c.releasing.toList.count x
  omega

theorem addReaders {n : Int} (hi : c.requests[i]? = some r) (hfit : r'.Fits c.files) (ho : ∀ g, r'.owns g = r.owns g)
    (hr : ∀ g, r'.reaches g + r'.reads g ≤ r.reaches g + r.reads g)
    (hs : ∀ g, (r'.reads g : Int) = r.reads g + n * one f g) : Inv ((c.addReaders f n).setRequest i r') := by
  have howned (g) := owned_set hi r' g
  have hreached (g) := reached_set hi r' g
  have hreaders (g) := readers_set hi r' g
  refine ⟨fun key g hm => (key_addReaders c f g n).trans (h.mapped key g hm), ?_, fun g => ?_, fun g hg => ?_, fun g => ?_⟩
  · intro x hx
    exact fits_count.mpr (fits_setRequest h.fits hfit x hx)
  · have hplaces := h.places g
    have hog := howned g
    have hcg := cached_addReaders c f g n
    rw [ho g] at hog
    change (c.setRequest i r').owned g + (c.addReaders f n).cached g + c.pending.count g + c.releasing.toList.count g +
      c.pool.count g =
      below c.made g
    omega
  · have hrefs := h.refs g
    have hrg := hreached g
    have hsg := hreaders g
    have hcg := cached_addReaders c f g n
    have hdown := hr g
    change 0 < (c.setRequest i r').reached g + (c.setRequest i r').readers g at hg
    change 0 < (c.addReaders f n).cached g + c.pending.count g
    omega
  · have hcounts := h.counts g
    have hsg := hreaders g
    have hup := hs g
    have hread : ((c.addReaders f n).setRequest i r').readers g = (c.setRequest i r').readers g := rfl
    rw [setRequest_files, readersCount_addReaders]
    omega

theorem count (hi : c.requests[i]? = some (.found key f)) :
    Inv ((c.addReaders f 1).setRequest i (.holds key f)) :=
  have hfit : (FileRequest.found key f).Fits c.files := h.fits _ (List.mem_of_getElem? hi)
  h.addReaders hi hfit (fun g => rfl) (fun g => by simp [FileRequest.reaches, FileRequest.reads])
    (fun g => by simp [FileRequest.reads])

theorem finish (hi : c.requests[i]? = some (.holds key f)) :
    Inv ((c.addReaders f (-1)).setRequest i .done) :=
  h.addReaders hi trivial (fun g => rfl) (fun g => by simp [FileRequest.reaches, FileRequest.reads])
    (fun g => by simp [FileRequest.reads])

/-! ## The steps of the cleaner -/

theorem evict (hm : c.map key = some f) :
    Inv { c with map := Function.update c.map key none, pending := f :: c.pending } := by
  have hcached : ∀ g, cached { c with map := Function.update c.map key none, pending := f :: c.pending } g + one f g =
      c.cached g := by
    intro g
    have hup := cached_update c key none g
    change cached { c with map := Function.update c.map key none } g + one f g = c.cached g
    rw [hup]
    by_cases hgf : f = g
    · subst hgf
      simp [h.mapped key f hm, h.cached_of_map hm]
    · by_cases hg : (c.files g).key = some key
      · have hother : c.map key ≠ some g := by
          rw [hm]
          simpa using hgf
        simp [cached, hg, hother, one, hgf]
      · simp [hg, one, hgf]
  refine ⟨?_, h.fits, fun g => ?_, fun g hg => ?_, h.counts⟩
  · intro key' g hg
    by_cases he : key' = key
    · subst he
      simp at hg
    · exact h.mapped key' g (by simpa [Function.update_of_ne he] using hg)
  · have hplaces := h.places g
    have hcg := hcached g
    have hpending := count_cons c.pending f g
    change c.owned g + cached _ g + (f :: c.pending).count g + c.releasing.toList.count g + c.pool.count g = below c.made g
    omega
  · have hrefs := h.refs g hg
    have hcg := hcached g
    have hpending := count_cons c.pending f g
    change 0 < cached _ g + (f :: c.pending).count g
    omega

theorem check (hmem : f ∈ c.pending) (hnone : c.releasing = none) (hzero : (c.files f).readersCount = 0)
    (hsettled : c.reached f = 0) : Inv { c with pending := c.pending.erase f, releasing := some f } := by
  have hreaders : c.readers f = 0 := by
    have := h.counts f
    omega
  refine ⟨h.mapped, h.fits, fun g => ?_, fun g hg => ?_, h.counts⟩
  · have hplaces := h.places g
    have hpending := count_erase hmem g
    have hreleasing : [f].count g = one f g := (count_cons [] f g).trans (Nat.zero_add _)
    rw [hnone, Option.toList_none, List.count_nil] at hplaces
    change c.owned g + c.cached g + (c.pending.erase f).count g + [f].count g + c.pool.count g = below c.made g
    omega
  · have hpending := count_erase hmem g
    change 0 < c.reached g + c.readers g at hg
    have hne : f ≠ g := by
      rintro rfl
      omega
    have hrefs := h.refs g hg
    rw [one_eq_zero.mpr hne] at hpending
    change 0 < c.cached g + (c.pending.erase f).count g
    omega

theorem release (hsome : c.releasing = some f) : Inv { c.releaseFile f with releasing := none } := by
  have hone : c.releasing.toList.count f = 1 := by simp [hsome]
  have hle := below_le_one c.made f
  have hplaces := h.places f
  refine h.releaseAt none h.fits (by omega) (by omega) (fun g => ?_) (fun g => rfl) (fun g => rfl) (by omega)
  simp only [hsome, Option.toList_some, List.count_nil, count_cons, Nat.zero_add]
  rfl

theorem swept (sweeping : Bool) : Inv { c with sweeping := sweeping } := ⟨h.mapped, h.fits, h.places, h.refs, h.counts⟩

omit h in
theorem looked_mem (hf : c.looked = some f) : f ∈ c.pending := by
  unfold looked at hf
  split at hf <;> simp_all

theorem step {a : CacheAction} {c' : FileCache} (hs : c.Settled a) (hstep : c.step a = some c') : c'.Inv := by
  cases a <;> simp only [FileCache.step] at hstep <;> (repeat' split at hstep) <;> try cases hstep
  · exact h.arrive (.inr ⟨_, rfl, ‹_›⟩)
  · exact h.arrive (.inl rfl)
  · exact h.relook ‹_› (.inr ⟨_, rfl, ‹_›⟩)
  · exact h.relook ‹_› (.inl rfl)
  · obtain ⟨⟨c₁, f⟩, hmake, rfl⟩ := Option.map_eq_some_iff.mp hstep
    exact h.make ‹_› hmake
  · exact h.fail ‹_›
  · exact h.storeLost ‹_› ‹_›
  · exact h.storeFound ‹_› ‹_›
  · exact h.drop ‹_›
  · exact h.count ‹_›
  · exact h.finish ‹_›
  · exact h.evict ‹_›
  · exact h.swept true
  · rename_i hcheck
    exact h.check (looked_mem hcheck.2.1) hcheck.2.2.1 hcheck.2.2.2 hs
  · exact h.release ‹_›
  · exact h.swept false

theorem safe : c.Safe := ⟨h.counts, fun _ _ hmem => h.fits _ hmem⟩

end

end Inv

theorem inv_new : new.Inv := by
  refine ⟨by simp [new], by simp [new], fun f => ?_, fun f hf => ?_, fun f => ?_⟩
  · simp [new, owned, cached, below]
  · simp [new, reached, readers] at hf
  · simp [new, readers]

end FileCache

end Fasthttp
