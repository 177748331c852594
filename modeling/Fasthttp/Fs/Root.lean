import Fasthttp.Lib.Machine
import Fasthttp.Fs.Rewrite

/-!
# The files that a handler opens

`fsHandler.handleRequest` over the file system of the operating system, without compression.
-/

namespace Fasthttp

open Segments List

inductive Answer
  | notExist
  | failed
  | file
  | dir
  deriving DecidableEq, Repr

structure FileServer where
  root : Bytes
  allowEmptyRoot : Bool
  wd : Option Bytes
  pathRewrite : PathRewrite
  indexNames : List Bytes
  generateIndexPages : Bool

structure Opened where
  paths : List Bytes
  files : List Bytes

def Opened.fresh : Opened := ⟨[], []⟩

structure Visit where
  original : Bytes
  cached : Option Nat
  answer : Nat → Answer
  refound : Option Nat
  opensReader : Bool

/-! ## The handler -/

inductive IndexFile
  | absent
  | failed
  | found (filePath : Bytes)

def openIndexFile (answer : Nat → Answer) (filePath : Bytes) : Nat → List Bytes → List Bytes × IndexFile
  | _, [] => ([], .absent)
  | n, indexName :: names =>
    let filePath1 := filePath ++ strSlash ++ indexName
    match answer n with
    | .notExist =>
      let (paths, res) := openIndexFile answer filePath (n + 1) names
      (filePath1 :: paths, res)
    | .failed => ([filePath1], .failed)
    | _ => ([filePath1], .found filePath1)

/-- An empty path is opened as the working directory. -/
def openName (filePath : Bytes) : Bytes := if filePath = [] then dot else filePath

def Visit.served (v : Visit) (o : Opened) (own : Option Bytes) : Option Bytes :=
  match v.refound with
  | some k => o.files[k]?
  | none => own

def openDirectory (fs : FileServer) (o : Opened) (v : Visit) (filePath : Bytes) : List Bytes × Option Bytes :=
  match openIndexFile v.answer filePath 1 fs.indexNames with
  | (paths, .found filePath1) => (paths, v.served o (some filePath1))
  | (paths, .failed) => (paths, none)
  | (paths, .absent) =>
    if !fs.generateIndexPages then (paths, none)
    -- `createDirIndex` reads the directory
    else if v.refound = none then (paths ++ [openName filePath], none)
    else (paths, v.served o none)

def openFSFile (fs : FileServer) (o : Opened) (v : Visit) (filePath : Bytes) (endSlash : Bool) : List Bytes × Option Bytes :=
  match v.answer 0 with
  | .notExist | .failed => ([openName filePath], none)
  | .file => ([openName filePath], v.served o (some filePath))
  | .dir =>
    if !endSlash then ([openName filePath], none)
    else
      let (paths, file) := openDirectory fs o v filePath
      (openName filePath :: paths, file)

def FileServer.handlerRoot (fs : FileServer) : Bytes := normalizeRoot fs.allowEmptyRoot fs.wd fs.root

/-- The path that is looked up, or `none` where the request is refused or the rewriter panics -/
def FileServer.admitted (fs : FileServer) (original : Bytes) : Option Bytes :=
  match fs.pathRewrite.apply (uriPath original) with
  | none => none
  | some path =>
    if (0 : Byte) ∈ path then none
    else if fs.pathRewrite ≠ .absent ∧ (find strSlashDotDotSlash path).isSome then none
    else some path

def pathStr (path : Bytes) : Bytes := if path.getLast? = some slash then path.dropLast else path

def FileServer.lookup (fs : FileServer) (o : Opened) (v : Visit) (path : Bytes) : List Bytes × Option Bytes :=
  match v.cached with
  | some k => ([], o.files[k]?)
  | none => openFSFile fs o v (fs.handlerRoot ++ pathStr path) (path.getLast? = some slash)

def FileServer.handleRequest (fs : FileServer) (o : Opened) (v : Visit) : Opened :=
  match fs.admitted v.original with
  | none => o
  | some path =>
    let (paths, file) := fs.lookup o v path
    let reader := if v.opensReader then file.toList else []
    ⟨o.paths ++ paths ++ reader, o.files ++ file.toList⟩

def FileServer.machine (fs : FileServer) : Machine Opened Visit := ⟨fun o v => some (fs.handleRequest o v)⟩

/-! ## Inside the root -/

/-- The root itself, or the root, a separator and segments none of which is `..` -/
def Confined (root path : Bytes) : Prop :=
  path = root ∨ (root ++ [slash] <+: path ∧ dotDot ∉ (path.drop (root.length + 1)).splitOn slash)

instance (root path : Bytes) : Decidable (Confined root path) := inferInstanceAs (Decidable (_ ∨ _))

def Opened.Inside (o : Opened) (root : Bytes) : Prop := ∀ path ∈ o.paths, Confined root path

/-- The request is refused or answered from the cache, or its path joins the root at a slash and is not empty with it. -/
def FileServer.Joins (fs : FileServer) (v : Visit) : Prop :=
  ∀ path ∈ fs.admitted v.original, v.cached = none →
    (path = [] ∨ path.head? = some slash) ∧ fs.handlerRoot ++ pathStr path ≠ []

instance (fs : FileServer) (v : Visit) : Decidable (fs.Joins v) :=
  inferInstanceAs (Decidable (∀ path ∈ fs.admitted v.original, v.cached = none → _ ∧ _))

theorem confined_join {root : Bytes} {ss : List Bytes} (hfree : Free slash ss) (hup : dotDot ∉ ss) :
    Confined root (root ++ join slash ss) := by
  cases ss with
  | nil => exact .inl (by simp)
  | cons s ss =>
    refine .inr ⟨⟨s ++ join slash ss, by simp⟩, ?_⟩
    have hdrop : (root ++ join slash (s :: ss)).drop (root.length + 1) = s ++ join slash ss := by
      rw [← drop_drop, drop_left]
      rfl
    have hsplit : (s ++ join slash ss).splitOn slash = s :: ss :=
      join_inj (splitOn_free slash _) hfree (by rw [join_splitOn, join_cons])
    rwa [hdrop, hsplit]

theorem not_confined_append {root rest : Bytes} (hne : rest ≠ []) (hstart : rest.head? ≠ some slash) :
    ¬ Confined root (root ++ rest) := by
  rintro (h | ⟨h, -⟩)
  · exact hne (append_right_eq_self.mp h)
  · rw [prefix_append_right_inj] at h
    obtain ⟨t, rfl⟩ := h
    exact hstart rfl

theorem pathStr_join {ss : List Bytes} (hfree : Free slash ss) : ∃ ts, pathStr (join slash ss) = join slash ts ∧ ts ⊆ ss := by
  rcases eq_nil_or_concat' ss with rfl | ⟨init, last, rfl⟩
  · exact ⟨[], rfl, List.Subset.refl _⟩
  · have hlast : slash ∉ last := hfree last (by simp)
    unfold pathStr
    split_ifs with hend
    · -- the slash at the end is one of the separators, so the last segment is empty
      obtain rfl : last = [] := by
        by_contra hne
        refine hlast (mem_of_getLast? ?_)
        rw [join_append, join_cons, join_nil, append_nil, getLast?_append, getLast?_cons] at hend
        rw [getLast?_eq_some_getLast hne] at hend ⊢
        simpa using hend
      refine ⟨init, ?_, subset_append_left _ _⟩
      simp
    · exact ⟨_, rfl, List.Subset.refl _⟩

section Opens

variable {file path : Bytes}

variable {fs : FileServer} {o : Opened} {v : Visit} {filePath : Bytes}

theorem openIndexFile_paths {answer : Nat → Answer} {n : Nat} {names : List Bytes}
    (h : path ∈ (openIndexFile answer filePath n names).1) : ∃ indexName ∈ names, path = filePath ++ strSlash ++ indexName := by
  induction names generalizing n with
  | nil => simp [openIndexFile] at h
  | cons indexName names ih =>
    have hhead : path = filePath ++ strSlash ++ indexName → ∃ i ∈ indexName :: names, path = filePath ++ strSlash ++ i :=
      fun he => ⟨indexName, mem_cons_self, he⟩
    rw [openIndexFile] at h
    split at h
    · rcases mem_cons.mp h with he | h
      · exact hhead he
      · obtain ⟨i, hi, he⟩ := ih h
        exact ⟨i, mem_cons_of_mem _ hi, he⟩
    · exact hhead (mem_singleton.mp h)
    · exact hhead (mem_singleton.mp h)

theorem openIndexFile_found {answer : Nat → Answer} {n : Nat} {names : List Bytes}
    (h : (openIndexFile answer filePath n names).2 = .found path) : path ∈ (openIndexFile answer filePath n names).1 := by
  induction names generalizing n with
  | nil => simp [openIndexFile] at h
  | cons indexName names ih =>
    rw [openIndexFile] at h ⊢
    split at h
    · exact mem_cons_of_mem _ (ih h)
    · simp at h
    · simpa using h.symm

theorem openDirectory_paths (h : path ∈ (openDirectory fs o v filePath).1) :
    path = openName filePath ∨ ∃ i ∈ fs.indexNames, path = filePath ++ strSlash ++ i := by
  have hindex : path ∈ (openIndexFile v.answer filePath 1 fs.indexNames).1 →
      path = openName filePath ∨ ∃ i ∈ fs.indexNames, path = filePath ++ strSlash ++ i :=
    fun h => .inr (openIndexFile_paths h)
  unfold openDirectory at h
  split at h <;> rename_i paths _ hi <;> rw [hi] at hindex
  · exact hindex h
  · exact hindex h
  · split_ifs at h
    · exact hindex h
    · exact (mem_append.mp h).elim hindex fun h => .inl (mem_singleton.mp h)
    · exact hindex h

theorem openFSFile_paths (fs : FileServer) (o : Opened) (v : Visit) (filePath : Bytes) (endSlash : Bool) :
    ∃ rest, (openFSFile fs o v filePath endSlash).1 = openName filePath :: rest ∧
      ∀ path ∈ rest, path = openName filePath ∨ ∃ i ∈ fs.indexNames, path = filePath ++ strSlash ++ i := by
  unfold openFSFile
  split
  · exact ⟨[], rfl, by simp⟩
  · exact ⟨[], rfl, by simp⟩
  · exact ⟨[], rfl, by simp⟩
  · split_ifs
    · exact ⟨[], rfl, by simp⟩
    · exact ⟨_, rfl, fun path h => openDirectory_paths h⟩

theorem Visit.served_mem {own : Option Bytes} (h : file ∈ v.served o own) : file ∈ o.files ∨ file ∈ own := by
  unfold Visit.served at h
  split at h
  · exact .inl (mem_of_getElem? h)
  · exact .inr h

theorem openDirectory_file (h : file ∈ (openDirectory fs o v filePath).2) :
    file ∈ o.files ∨ file ∈ (openDirectory fs o v filePath).1 := by
  unfold openDirectory at h ⊢
  split at h <;> rename_i paths _ hi
  · rcases v.served_mem h with h | h
    · exact .inl h
    · cases h
      have hfound := openIndexFile_found (congrArg Prod.snd hi)
      rw [hi] at hfound
      exact .inr hfound
  · simp at h
  · split_ifs at h
    · simp at h
    · simp at h
    · exact .inl ((v.served_mem h).resolve_right (by simp))

theorem openFSFile_file {endSlash : Bool} (h : file ∈ (openFSFile fs o v filePath endSlash).2) :
    file ∈ o.files ∨ file = filePath ∨ file ∈ (openFSFile fs o v filePath endSlash).1 := by
  unfold openFSFile at h ⊢
  split at h
  · simp at h
  · simp at h
  · rcases v.served_mem h with h | h
    · exact .inl h
    · exact .inr (.inl (Option.some.inj h).symm)
  · split_ifs at h ⊢
    · simp at h
    · exact (openDirectory_file h).imp_right fun h => .inr (mem_cons_of_mem _ h)

end Opens

namespace FileServer

variable {path : Bytes}

variable {fs : FileServer} {o : Opened} {v : Visit}

def Named (fs : FileServer) (o : Opened) : Prop := ∀ file ∈ o.files, file ∈ o.paths ∨ file = fs.handlerRoot

theorem lookup_named (hn : fs.Named o) {file : Bytes} (h : file ∈ (fs.lookup o v path).2) :
    file ∈ o.paths ++ (fs.lookup o v path).1 ∨ file = fs.handlerRoot := by
  have hold : file ∈ o.files → ∀ paths, file ∈ o.paths ++ paths ∨ file = fs.handlerRoot :=
    fun hf paths => (hn file hf).imp_left (mem_append_left _)
  unfold lookup at h ⊢
  split at h
  · exact hold (mem_of_getElem? h) _
  · rcases openFSFile_file h with h | rfl | h
    · exact hold h _
    · obtain ⟨rest, hpaths, -⟩ := openFSFile_paths fs o v (fs.handlerRoot ++ pathStr path) (path.getLast? = some slash)
      by_cases hempty : fs.handlerRoot ++ pathStr path = []
      · have hroot : fs.handlerRoot = [] := (append_eq_nil_iff.mp hempty).1
        exact .inr (hempty.trans hroot.symm)
      · rw [hpaths, openName, if_neg hempty]
        simp
    · exact .inl (mem_append_right _ h)

theorem handleRequest_named (hn : fs.Named o) : fs.Named (fs.handleRequest o v) := by
  unfold handleRequest
  split
  · exact hn
  · intro file hfile
    simp only [mem_append, Option.mem_toList] at hfile
    rcases hfile with hfile | hfile
    · exact (hn file hfile).imp_left fun h => by simp [h]
    · exact (lookup_named hn hfile).imp_left (mem_append_left _)

theorem handleRequest_inside (hn : fs.Named o) (hin : o.Inside fs.handlerRoot) :
    (fs.handleRequest o v).Inside fs.handlerRoot ↔
      ∀ path ∈ fs.admitted v.original, ∀ p ∈ (fs.lookup o v path).1, Confined fs.handlerRoot p := by
  unfold handleRequest
  split
  · rename_i hnone
    simp [hnone, hin]
  · rename_i path hpath
    simp only [hpath, Option.mem_some_iff, forall_eq']
    constructor
    · exact fun h p hp => h p (by simp [hp])
    · intro h p hp
      have hlooked : p ∈ o.paths ++ (fs.lookup o v path).1 → Confined fs.handlerRoot p :=
        fun hp => (mem_append.mp hp).elim (hin p) (h p)
      rcases mem_append.mp hp with hp | hp
      · exact hlooked hp
      · split_ifs at hp
        · rcases lookup_named hn (Option.mem_toList.mp hp) with hp | hp
          · exact hlooked hp
          · exact .inl hp
        · simp at hp

/-! ## Where the path joins the root -/

theorem admitted_suffix {original : Bytes} (h : fs.admitted original = some path) : path <:+ uriPath original := by
  unfold admitted at h
  split at h
  · simp at h
  · rename_i hrewrite
    split_ifs at h
    exact Option.some.inj h ▸ PathRewrite.apply_suffix hrewrite

theorem pathStr_head (hne : path ≠ []) (hhead : path.head? ≠ some slash) :
    pathStr path ≠ [] ∧ (pathStr path).head? ≠ some slash := by
  obtain ⟨c, rest, rfl⟩ := exists_cons_of_ne_nil hne
  unfold pathStr
  split_ifs with hend
  · cases rest with
    | nil => exact absurd hend hhead
    | cons d rest => exact ⟨by simp, hhead⟩
  · exact ⟨hne, hhead⟩

theorem lookup_confined (hnames : ∀ i ∈ fs.indexNames, slash ∉ i ∧ i ≠ dotDot) (hcached : v.cached = none)
    (hsuffix : path <:+ uriPath v.original) :
    (∀ p ∈ (fs.lookup o v path).1, Confined fs.handlerRoot p) ↔
      (path = [] ∨ path.head? = some slash) ∧ fs.handlerRoot ++ pathStr path ≠ [] := by
  obtain ⟨rest, hpaths, hrest⟩ := openFSFile_paths fs o v (fs.handlerRoot ++ pathStr path) (path.getLast? = some slash)
  have hlookup : (fs.lookup o v path).1 = openName (fs.handlerRoot ++ pathStr path) :: rest := by
    rw [lookup, hcached]
    exact hpaths
  rw [hlookup]
  constructor
  · intro h
    have hfirst := h _ mem_cons_self
    have hfull : fs.handlerRoot ++ pathStr path ≠ [] := by
      intro hempty
      have hroot : fs.handlerRoot = [] := (append_eq_nil_iff.mp hempty).1
      rw [openName, if_pos hempty, hroot] at hfirst
      exact absurd hfirst (by decide)
    refine ⟨?_, hfull⟩
    by_contra hstart
    rw [not_or] at hstart
    rw [openName, if_neg hfull] at hfirst
    obtain ⟨hne, hhead⟩ := pathStr_head hstart.1 hstart.2
    exact not_confined_append hne hhead hfirst
  · rintro ⟨hstart, hfull⟩
    obtain ⟨ss, hss, hfree, hup⟩ : ∃ ss, path = join slash ss ∧ Free slash ss ∧ dotDot ∉ ss := by
      rcases hstart with rfl | hhead
      · exact ⟨[], rfl, by simp [Free], by simp⟩
      · exact tail_segments hsuffix hhead
    obtain ⟨ts, hts, hsub⟩ := pathStr_join hfree
    rw [← hss] at hts
    have hdir : Confined fs.handlerRoot (fs.handlerRoot ++ join slash ts) :=
      confined_join (hfree.of_subset hsub) fun h => hup (hsub h)
    have hindex : ∀ i ∈ fs.indexNames, Confined fs.handlerRoot (fs.handlerRoot ++ join slash ts ++ strSlash ++ i) := by
      intro i hi
      have he : fs.handlerRoot ++ join slash ts ++ strSlash ++ i = fs.handlerRoot ++ join slash (ts ++ [i]) := by
        simp [strSlash, ascii, slash]
      rw [he]
      refine confined_join (fun s hs => ?_) (fun h => ?_)
      · rcases mem_append.mp hs with hs | hs
        · exact hfree s (hsub hs)
        · exact mem_singleton.mp hs ▸ (hnames i hi).1
      · rcases mem_append.mp h with h | h
        · exact hup (hsub h)
        · exact (hnames i hi).2 (mem_singleton.mp h).symm
    rw [openName, if_neg hfull] at hrest ⊢
    rw [hts] at hrest ⊢
    intro p hp
    rcases mem_cons.mp hp with rfl | hp
    · exact hdir
    · rcases hrest p hp with rfl | ⟨i, hi, rfl⟩
      · exact hdir
      · exact hindex i hi

theorem handleRequest_joins (hnames : ∀ i ∈ fs.indexNames, slash ∉ i ∧ i ≠ dotDot) (hn : fs.Named o)
    (hin : o.Inside fs.handlerRoot) : (fs.handleRequest o v).Inside fs.handlerRoot ↔ fs.Joins v := by
  rw [handleRequest_inside hn hin]
  refine forall₂_congr fun path hpath => ?_
  rcases hcached : v.cached with _ | k
  · simpa using lookup_confined hnames hcached (admitted_suffix hpath)
  · simp [lookup, hcached]

/-- Exactly the runs whose requests join the root at a slash open nothing outside the root. -/
theorem opens_inside_root (fs : FileServer) (hnames : ∀ i ∈ fs.indexNames, slash ∉ i ∧ i ≠ dotDot) (vs : List Visit) :
    fs.machine.Always (fun o => o.Inside fs.handlerRoot) .fresh vs ↔ fs.machine.Along (fun _ v => fs.Joins v) .fresh vs := by
  refine Machine.always_iff_along (I := fs.Named) (fun o v o' hn hstep => ?_) (fun o v o' hn hin hstep => ?_) vs ?_ ?_
  · cases hstep
    exact handleRequest_named hn
  · cases hstep
    exact handleRequest_joins hnames hn hin
  · simp [Named, Opened.fresh]
  · simp [Opened.Inside, Opened.fresh]

def www (pathRewrite : PathRewrite) : FileServer :=
  ⟨ascii "/www/", false, none, pathRewrite, [ascii "index.html"], true⟩

def visitOf (original : Bytes) (answer : Answer) : Visit := ⟨original, none, fun n => if n = 0 then answer else .file, none, true⟩

theorem opens_inside_root_www :
    (∀ i ∈ (www (.pathSlashesStripper 1)).indexNames, slash ∉ i ∧ i ≠ dotDot) ∧
    (www (.pathSlashesStripper 1)).machine.Always (fun o => o.Inside (ascii "/www")) .fresh
      [visitOf (ascii "/static/../x/%2e%2e/y//img/") .dir] :=
  have hnames : ∀ i ∈ (www (.pathSlashesStripper 1)).indexNames, slash ∉ i ∧ i ≠ dotDot := by decide +kernel
  ⟨hnames, (opens_inside_root (www (.pathSlashesStripper 1)) hnames _).mpr (by decide +kernel)⟩

/-- Two bytes are cut off the path, and what is left is glued to the name of the root. -/
theorem opens_beside_root :
    ((www (.pathPrefixStripper 2)).machine.exec .fresh [visitOf (ascii "/a-private/key") .file]).paths =
      [ascii "/www-private/key", ascii "/www-private/key"] ∧
    (www (.pathPrefixStripper 2)).handlerRoot = ascii "/www" ∧ ¬ Confined (ascii "/www") (ascii "/www-private/key") := by
  decide +kernel

end FileServer

end Fasthttp
