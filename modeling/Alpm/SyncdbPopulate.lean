import Alpm.General.Components
import Alpm.Splitname
import Alpm.Syncdb

/-!
# Reading a sync database

`sync_db_populate` goes once through the archive of a repository.  The entries of one package may
stand apart, so an entry is read into the package of its name wherever the package is in the cache;
the package of the entry before is tried first.

## 1.  One entry

The packages of the cache have distinct names, and an entry changes the package of its name only
(`abstracts_populateEntry`).  The pointer to the package of the entry before makes no difference: if
it is of the name, it is the one that the search in the cache would find (`likelyPkg_or`).

## 2.  Package by package

So a package is what the entries of its name give in their order (`syncDbPopulate_eq_some_iff`),
which is the rule of `General.Components` with the packages as components.  A failing entry makes
the return value `-1` and does not end the loop.  The entries of different packages may be
interleaved in any way (`syncDbPopulate_interleaved`).

In the end the cache is sorted by names.  A sorted list with distinct names is known by what a
search finds in it (`SortedCache.unique`), so two runs that agree package by package have the same
cache.
-/

namespace Alpm.Syncdb

/-- An entry of the archive: its pathname in memory, its data in blocks, and whether a package can
be allocated and added to the cache for it. -/
structure ArchiveEntry where
  pathname : Option Memory
  isDir : Bool := false
  blocks : List CString := []
  memory : Bool := true

/-- How `load_pkg_for_entry` ends, with the package cache. -/
inductive Found where
  | undefined
  | failed
  | pkg (pkgcache : List Pkg) (pkg : Pkg)

/-- A package that `load_pkg_for_entry` makes. -/
def newPkg (treename name version : CString) : Pkg where
  name := name
  version := version
  origin := .syncdb treename

/-- `load_pkg_for_entry`.  The package of the entry before is taken if it has the name, then the
cache is searched, and then a package is made and added to the cache. -/
def loadPkgForEntry (treename : CString) (pkgcache : List Pkg) (entryname : Memory)
    (likelyPkg : Option Pkg) (memory : Bool) : Found :=
  match (splitname entryname).1 with
  | .undefined => .undefined
  | .error => .failed
  | .split pkgname pkgver pkgnameHash =>
    let likelyPkg := likelyPkg.filter fun likelyPkg =>
      pkgnameHash = likelyPkg.nameHash ∧ strcmp likelyPkg.name pkgname = 0
    match likelyPkg.or (pkgFind pkgcache pkgname) with
    | some pkg => .pkg pkgcache pkg
    | none =>
      if memory then
        let pkg := newPkg treename pkgname pkgver
        -- add to the collection
        .pkg (pkgcache ++ [pkg]) pkg
      else .failed

/-- The variables of `sync_db_populate`.  A pointer into the cache is the name of the package, of
which there is one. -/
structure Populating where
  pkgcache : List Pkg := []
  likelyPkg : Option CString := none
  ret : Int := 0

/-- What is read into a package, in the cache. -/
def storePkg (pkgcache : List Pkg) (pkg : Pkg) : List Pkg :=
  pkgcache.map fun cached => if cached.name = pkg.name then pkg else cached

/-- The body of the loop of `sync_db_populate`; `none` is an access outside of the memory.  An entry
that fails sets the return value, and the loop goes on. -/
def populateEntry (treename : CString) (s : Populating) (entry : ArchiveEntry) :
    Option Populating :=
  if entry.isDir then some s
  else
    match entry.pathname with
    | none => some { s with ret := -1 }
    | some entryname =>
      match loadPkgForEntry treename s.pkgcache entryname
        (s.likelyPkg.bind (pkgFind s.pkgcache)) entry.memory with
      | .undefined => none
      | .failed => some { s with ret := -1 }
      | .pkg pkgcache pkg =>
        match syncDbRead (fun _ => some pkg) (some entryname.target) entry.blocks with
        | none => none
        | some r =>
          some { pkgcache := storePkg pkgcache (r.pkg.getD pkg)
                 likelyPkg := if r.likely then some pkg.name else s.likelyPkg
                 ret := if r.ret ≠ 0 then -1 else s.ret }

/-- `sync_db_populate` of an archive that can be opened, with its entries and whether they end
with `ARCHIVE_EOF`: the return value and the package cache. -/
def syncDbPopulate (treename : CString) (entries : List ArchiveEntry) (eof : Bool) :
    Option (Int × List Pkg) :=
  (entries.foldlM (populateEntry treename) {}).map fun s =>
    if eof then (s.ret, listMsort pkgCmp s.pkgcache) else (-1, [])

/-! ## An entry reads into one package -/

/-- What a macro leaves behind has the property. -/
def Leaves {α : Type} (P : α → Prop) : Parsed α → Prop
  | .undefined => True
  | .error value => P value
  | .done _ value => P value

theorem leaves_readNext {P : Pkg → Prop} {s : Reading} {pkg : Pkg}
    {use : Reading → CString → Parsed Pkg} (hpkg : P pkg) (huse : ∀ s line, Leaves P (use s line)) :
    Leaves P (readNext s pkg use) := by
  rw [readNext]
  split
  · trivial
  · exact hpkg
  · split
    · trivial
    · exact huse _ _

theorem leaves_readEntries {α : Type} {P : α → Prop} {ptr : Reading → Option ℕ}
    {add : α → CString → α} (hadd : ∀ value line, P value → P (add value line)) {s : Reading}
    {value : α} (hvalue : P value) : Leaves P (readEntries ptr add s value) := by
  fun_induction readEntries ptr add s value with
  | case1 => trivial
  | case2 => exact hvalue
  | case3 => trivial
  | case4 => exact hvalue
  | case5 => trivial
  | case6 s value s' _ _ _ _ entry _ _ ih => exact ih (hadd value entry hvalue)

/-- What a section stores leaves the name of the package as it is. -/
def KeepsName (sec : SyncSection) : Prop :=
  match sec with
  | .store f => ∀ pkg line, (f pkg line).name = pkg.name
  | .storeAll f => ∀ pkg line, (f pkg line).name = pkg.name
  | .splitdep f => ∀ pkg dep, (f pkg dep).name = pkg.name
  | _ => True

theorem keepsName_of_sectionOf {line : CString} {sec : SyncSection}
    (h : sectionOf line = some sec) : KeepsName sec := by
  have hall : ∀ heading ∈ syncSections, KeepsName heading.2 := by
    simp [syncSections, KeepsName]
  obtain ⟨heading, hheading, rfl⟩ := Option.map_eq_some_iff.mp h
  exact hall heading (List.mem_of_find?_eq_some hheading)

theorem leaves_readSection {sec : SyncSection} (hsec : KeepsName sec) (name : CString)
    {s : Reading} {pkg : Pkg} (hpkg : pkg.name = name) :
    Leaves (·.name = name) (readSection sec s pkg) := by
  cases sec with
  | check => exact leaves_readNext hpkg fun _ _ => hpkg
  | store f => exact leaves_readNext hpkg fun _ line => (hsec pkg line).trans hpkg
  | filename =>
    refine leaves_readNext hpkg fun _ line => ?_
    dsimp only
    split_ifs <;> exact hpkg
  | storeAll f => exact leaves_readEntries (fun pkg line h => (hsec pkg line).trans h) hpkg
  | splitdep f => exact leaves_readEntries (fun pkg line h => (hsec pkg _).trans h) hpkg
  | files =>
    rw [readSection]
    split
    · trivial
    · exact hpkg
    · exact hpkg

theorem name_syncDbReadLoop {s : Reading} {pkg : Pkg} {r : Int × Pkg}
    (h : syncDbReadLoop s pkg = some r) : r.2.name = pkg.name := by
  fun_induction syncDbReadLoop s pkg with
  | case1 => cases h
  | case2 => rw [← Option.some.inj h]
  | case3 => cases h
  | case4 s pkg s' _ _ line _ _ ih => exact ih h
  | case5 => cases h
  | case6 s pkg s' _ _ line _ sec hsec pkg' hsection =>
    have hname := leaves_readSection (keepsName_of_sectionOf hsec) pkg.name (s := s') rfl
    rw [hsection] at hname
    rw [← Option.some.inj h]
    exact hname
  | case7 s pkg s' _ _ line _ sec hsec s'' pkg' hsection _ ih =>
    have hname := leaves_readSection (keepsName_of_sectionOf hsec) pkg.name (s := s') rfl
    rw [hsection] at hname
    exact (ih h).trans hname

/-- The package of an entry keeps its name. -/
theorem name_syncDbRead {pkg : Pkg} {entryname : CString} {blocks : List CString} {r : SyncRead}
    (h : syncDbRead (fun _ => some pkg) (some entryname) blocks = some r) :
    (r.pkg.getD pkg).name = pkg.name := by
  unfold syncDbRead at h
  dsimp only at h
  split at h
  · rw [← Option.some.inj h]
    rfl
  · split_ifs at h
    · split at h
      · cases h
      next ret read hread =>
        rw [← Option.some.inj h]
        exact name_syncDbReadLoop hread
    · rw [← Option.some.inj h]
      rfl

/-! ## The cache -/

section Cache

variable {pkgcache : List Pkg}

@[simp] theorem map_name_storePkg (pkgcache : List Pkg) (pkg : Pkg) :
    (storePkg pkgcache pkg).map Pkg.name = pkgcache.map Pkg.name := by
  rw [storePkg, List.map_map]
  refine List.map_congr_left fun cached _ => ?_
  by_cases h : cached.name = pkg.name
  · simp [h]
  · simp [h]

/-- The cache has what was read for the package. -/
theorem pkgFind_storePkg_self {pkg : Pkg} (h : pkg.name ∈ pkgcache.map Pkg.name) :
    pkgFind (storePkg pkgcache pkg) pkg.name = some pkg := by
  rw [← map_name_storePkg pkgcache pkg] at h
  obtain ⟨found, hfound⟩ := Option.isSome_iff_exists.mp (pkgFind_isSome.mpr h)
  obtain ⟨hmem, hname⟩ := pkgFind_eq_some hfound
  obtain ⟨cached, -, rfl⟩ := List.mem_map.mp hmem
  by_cases hcached : cached.name = pkg.name
  · rw [hfound, if_pos hcached]
  · rw [if_neg hcached] at hname
    exact absurd hname hcached

/-- The other packages are as they were. -/
theorem pkgFind_storePkg_of_ne {pkg : Pkg} {name : CString} (h : name ≠ pkg.name) :
    pkgFind (storePkg pkgcache pkg) name = pkgFind pkgcache name := by
  simp only [pkgFind_eq_find?]
  induction pkgcache with
  | nil => rfl
  | cons cached pkgcache ih =>
    rw [storePkg, List.map_cons, List.find?_cons, List.find?_cons, ← storePkg, ih]
    by_cases hcached : cached.name = pkg.name
    · simp [hcached, Ne.symm h]
    · rw [if_neg hcached]

/-- The package of the entry before is the one in the cache, if it is of the name. -/
theorem likelyPkg_or (hnodup : (pkgcache.map Pkg.name).Nodup) (name : CString) (hash : ℕ)
    {likelyPkg : Option Pkg} (hlikely : ∀ pkg ∈ likelyPkg, pkg ∈ pkgcache) :
    (likelyPkg.filter fun pkg => hash = pkg.nameHash ∧ strcmp pkg.name name = 0).or
      (pkgFind pkgcache name) = pkgFind pkgcache name := by
  cases hfilter : likelyPkg.filter fun pkg =>
      decide (hash = pkg.nameHash ∧ strcmp pkg.name name = 0) with
  | none => rfl
  | some pkg =>
    obtain ⟨hpkg, htest⟩ := Option.filter_eq_some_iff.mp hfilter
    have hname : pkg.name = name := strcmp_eq_zero.mp (of_decide_eq_true htest).2
    rw [← hname, pkgFind_of_mem hnodup (hlikely pkg hpkg)]
    rfl

/-- A search in a list with distinct names finds a package if it is in the list. -/
theorem pkgFind_eq_some_iff (hnodup : (pkgcache.map Pkg.name).Nodup) {name : CString} {pkg : Pkg} :
    pkgFind pkgcache name = some pkg ↔ pkg ∈ pkgcache ∧ pkg.name = name := by
  constructor
  · exact pkgFind_eq_some
  · rintro ⟨hpkg, rfl⟩
    exact pkgFind_of_mem hnodup hpkg

/-- The cache is sorted by the names, which are distinct. -/
def SortedCache (pkgcache : List Pkg) : Prop := (pkgcache.map Pkg.name).Pairwise (· < ·)

theorem SortedCache.nodup (h : SortedCache pkgcache) : (pkgcache.map Pkg.name).Nodup :=
  h.imp fun hlt => hlt.ne

theorem sortedCache_listMsort (hnodup : (pkgcache.map Pkg.name).Nodup) :
    SortedCache (listMsort pkgCmp pkgcache) := by
  have hsorted := List.pairwise_map.mpr (listMsort_sorted pkgCmp_comparesBy pkgcache)
  have hdistinct := ((listMsort_perm pkgCmp pkgcache).map Pkg.name).nodup_iff.mpr hnodup
  exact (hsorted.and hdistinct).imp fun h => lt_of_le_of_ne h.1 h.2

theorem pkgFind_listMsort (hnodup : (pkgcache.map Pkg.name).Nodup) (name : CString) :
    pkgFind (listMsort pkgCmp pkgcache) name = pkgFind pkgcache name := by
  refine Option.ext fun pkg => ?_
  rw [pkgFind_eq_some_iff (sortedCache_listMsort hnodup).nodup, pkgFind_eq_some_iff hnodup,
    (listMsort_perm pkgCmp pkgcache).mem_iff]

/-- A sorted cache is known by what a search finds in it. -/
theorem SortedCache.unique {pkgcache' : List Pkg} (h : SortedCache pkgcache)
    (h' : SortedCache pkgcache')
    (hfind : ∀ name, pkgFind pkgcache name = pkgFind pkgcache' name) : pkgcache = pkgcache' := by
  have hmem : ∀ pkg, pkg ∈ pkgcache ↔ pkg ∈ pkgcache' := by
    intro pkg
    have hleft := @pkgFind_eq_some_iff _ h.nodup pkg.name pkg
    have hright := @pkgFind_eq_some_iff _ h'.nodup pkg.name pkg
    rw [← hfind, hleft] at hright
    simpa using hright
  refine List.Perm.eq_of_pairwise (fun a b _ _ hab hba => absurd hba hab.asymm)
    (List.pairwise_map.mp h) (List.pairwise_map.mp h') ?_
  exact (List.perm_ext_iff_of_nodup h.nodup.of_map h'.nodup.of_map).mpr hmem

end Cache

theorem mem_pkgFind_likelyPkg (pkgcache : List Pkg) (likelyPkg : Option CString) :
    ∀ pkg ∈ likelyPkg.bind (pkgFind pkgcache), pkg ∈ pkgcache := by
  intro pkg hpkg
  obtain ⟨name, -, hfind⟩ := Option.bind_eq_some_iff.mp hpkg
  exact (pkgFind_eq_some hfind).1

/-! ## Package by package -/

/-- The name that an entry is read for. -/
def ArchiveEntry.pkgname (entry : ArchiveEntry) : Option CString :=
  if entry.isDir then none
  else
    match entry.pathname with
    | none => none
    | some entryname =>
      match (splitname entryname).1 with
      | .split name _ _ => some name
      | _ => none

/-- What an entry makes of the package of its name, and whether an entry of the name has failed. -/
def readEntry (treename : CString) (entry : ArchiveEntry) (x : Option Pkg × Bool) :
    Option (Option Pkg × Bool) :=
  if entry.isDir then some x
  else
    match entry.pathname with
    | none => some (x.1, true)
    | some entryname =>
      match (splitname entryname).1 with
      | .undefined => none
      | .error => some (x.1, true)
      | .split name version _ =>
        match x.1.or (if entry.memory then some (newPkg treename name version) else none) with
        | none => some (x.1, true)
        | some pkg =>
          match syncDbRead (fun _ => some pkg) (some entryname.target) entry.blocks with
          | none => none
          | some r => some (some (r.pkg.getD pkg), x.2 || r.ret ≠ 0)

/-- What the entries of a name make of its package, and whether one of them has failed. -/
def packageOf (treename : CString) (entries : List ArchiveEntry) (name : Option CString) :
    Option (Option Pkg × Bool) :=
  (eventsOf ArchiveEntry.pkgname name entries).foldlM (fun x entry => readEntry treename entry x)
    (none, false)

/-- The cache has the packages of the names, and the return value tells of the failures.  The names
are the keys of the components, and the package of a name is its component. -/
structure Abstracts (s : Populating) (σ : Option CString → Option Pkg × Bool) : Prop where
  nodup : (s.pkgcache.map Pkg.name).Nodup
  find : ∀ name, (σ name).1 = name.bind (pkgFind s.pkgcache)
  ret : s.ret = 0 ∨ s.ret = -1
  failed : s.ret = -1 ↔ ∃ k, (σ k).2 = true

section Step

variable {treename name version : CString} {s : Populating}
  {σ : Option CString → Option Pkg × Bool} {entry : ArchiveEntry}

/-- An entry of the name fails, or it does not. -/
theorem exists_failed_update (k : Option CString) (x : Option Pkg) (failed : Bool) :
    (∃ k', (Function.update σ k (x, (σ k).2 || failed) k').2 = true) ↔
      (∃ k', (σ k').2 = true) ∨ failed = true := by
  constructor
  · rintro ⟨k', hk'⟩
    by_cases h : k' = k
    · subst h
      rw [Function.update_self, Bool.or_eq_true] at hk'
      exact hk'.imp_left fun h => ⟨k', h⟩
    · rw [Function.update_of_ne h] at hk'
      exact Or.inl ⟨k', hk'⟩
  · rintro (⟨k', hk'⟩ | hfailed)
    · refine ⟨k', ?_⟩
      by_cases h : k' = k
      · subst h
        rw [Function.update_self, hk', Bool.true_or]
      · rwa [Function.update_of_ne h]
    · exact ⟨k, by rw [Function.update_self, hfailed, Bool.or_true]⟩

theorem Abstracts.setRet (h : Abstracts s σ) (k : Option CString) (x : Option Pkg)
    (failed : Bool) (ret : Int) (hret : ret = if failed then -1 else s.ret) :
    (ret = 0 ∨ ret = -1) ∧
      (ret = -1 ↔ ∃ k', (Function.update σ k (x, (σ k).2 || failed) k').2 = true) := by
  rw [exists_failed_update, ← h.failed, hret]
  cases failed with
  | true => simp
  | false => simpa using h.ret

/-- An entry that cannot be read changes no package. -/
theorem Abstracts.fail (h : Abstracts s σ) (k : Option CString) :
    Abstracts { s with ret := -1 } (Function.update σ k ((σ k).1, true)) := by
  obtain ⟨hret, hfailed⟩ := h.setRet k (σ k).1 true (-1) rfl
  rw [Bool.or_true] at hfailed
  refine ⟨h.nodup, fun name => ?_, hret, hfailed⟩
  by_cases hk : name = k
  · rw [hk, Function.update_self, h.find]
  · rw [Function.update_of_ne hk, h.find]

/-- An entry is read into the package of its name. -/
theorem Abstracts.store (h : Abstracts s σ) {pkgcache : List Pkg} {pkg : Pkg}
    {likelyPkg : Option CString} (hnodup : (pkgcache.map Pkg.name).Nodup)
    (hmem : pkg.name ∈ pkgcache.map Pkg.name)
    (hfind : ∀ name ≠ pkg.name, pkgFind pkgcache name = pkgFind s.pkgcache name) {ret : Int} :
    Abstracts { pkgcache := storePkg pkgcache pkg, likelyPkg, ret := if ret ≠ 0 then -1 else s.ret }
      (Function.update σ (some pkg.name) (some pkg, (σ (some pkg.name)).2 || ret ≠ 0)) := by
  obtain ⟨hret, hfailed⟩ := h.setRet (some pkg.name) (some pkg) (ret ≠ 0)
    (if ret ≠ 0 then -1 else s.ret) (by simp)
  refine ⟨by rwa [map_name_storePkg], fun name => ?_, hret, hfailed⟩
  by_cases hname : name = some pkg.name
  · rw [hname, Function.update_self, Option.bind_some, pkgFind_storePkg_self hmem]
  · rw [Function.update_of_ne hname, h.find]
    cases name with
    | none => rfl
    | some name =>
      have hne : name ≠ pkg.name := fun heq => hname (heq ▸ rfl)
      rw [Option.bind_some, Option.bind_some, pkgFind_storePkg_of_ne hne, hfind name hne]

/-- **The package of an entry** is the one in the cache, or a new one. -/
theorem loadPkgForEntry_split {entryname : Memory} {hash : ℕ} {memory : Bool}
    (hsplit : (splitname entryname).1 = .split name version hash)
    (hnodup : (s.pkgcache.map Pkg.name).Nodup) :
    loadPkgForEntry treename s.pkgcache entryname (s.likelyPkg.bind (pkgFind s.pkgcache)) memory =
      match pkgFind s.pkgcache name with
      | some pkg => .pkg s.pkgcache pkg
      | none =>
        if memory then
          .pkg (s.pkgcache ++ [newPkg treename name version]) (newPkg treename name version)
        else .failed := by
  rw [loadPkgForEntry, hsplit]
  dsimp only
  rw [likelyPkg_or hnodup name hash (mem_pkgFind_likelyPkg _ _)]

/-- A package of the cache is read, and put where it was. -/
theorem Abstracts.read (h : Abstracts s σ) {pkgcache : List Pkg} {pkg : Pkg}
    (hnodup : (pkgcache.map Pkg.name).Nodup) (hmem : pkg.name ∈ pkgcache.map Pkg.name)
    (hfind : ∀ name ≠ pkg.name, pkgFind pkgcache name = pkgFind s.pkgcache name)
    (entryname : CString) (blocks : List CString) :
    Option.Rel Abstracts
      (match syncDbRead (fun _ => some pkg) (some entryname) blocks with
        | none => none
        | some r =>
          some { pkgcache := storePkg pkgcache (r.pkg.getD pkg)
                 likelyPkg := if r.likely then some pkg.name else s.likelyPkg
                 ret := if r.ret ≠ 0 then -1 else s.ret })
      ((match syncDbRead (fun _ => some pkg) (some entryname) blocks with
        | none => none
        | some r => some (some (r.pkg.getD pkg), (σ (some pkg.name)).2 || r.ret ≠ 0)).map
          (Function.update σ (some pkg.name))) := by
  cases hread : syncDbRead (fun _ => some pkg) (some entryname) blocks with
  | none => exact .none
  | some r =>
    have hname : (r.pkg.getD pkg).name = pkg.name := name_syncDbRead hread
    rw [← hname] at hmem hfind
    have hstore := @Abstracts.store s σ h pkgcache (r.pkg.getD pkg)
      (if r.likely then some pkg.name else s.likelyPkg) hnodup hmem hfind r.ret
    rw [hname] at hstore
    exact .some hstore

/-- An entry that is read for a name acts on the package of the name. -/
theorem abstracts_populateEntry_split (h : Abstracts s σ) {entryname : Memory} {hash : ℕ}
    (hdir : entry.isDir = false) (hpathname : entry.pathname = some entryname)
    (hsplit : (splitname entryname).1 = .split name version hash) :
    Option.Rel Abstracts (populateEntry treename s entry)
      (componentStep ArchiveEntry.pkgname (readEntry treename) σ entry) := by
  have hkey : entry.pkgname = some name := by
    simp [ArchiveEntry.pkgname, hdir, hpathname, hsplit]
  have hload := @loadPkgForEntry_split treename name version s entryname hash entry.memory hsplit
    h.nodup
  simp only [populateEntry, componentStep, readEntry, hkey, hdir, hpathname, hsplit, hload,
    h.find (some name), Option.bind_some, Bool.false_eq_true, if_false]
  cases hfind : pkgFind s.pkgcache name with
  | some pkg =>
    obtain ⟨hmem, rfl⟩ := pkgFind_eq_some hfind
    exact h.read h.nodup (List.mem_map_of_mem hmem) (fun _ _ => rfl) _ _
  | none =>
    cases entry.memory with
    | false => 
      have hfail := h.fail (some name)
      rw [h.find, Option.bind_some, hfind] at hfail
      exact .some hfail
    | true =>
      have hnew : name ∉ s.pkgcache.map Pkg.name := pkgFind_eq_none.mp hfind
      refine @Abstracts.read s σ h _ (newPkg treename name version) ?_ ?_ ?_ _ _
      · rw [List.map_append]
        exact List.nodup_append_comm.mp (List.nodup_cons.mpr ⟨hnew, h.nodup⟩)
      · simp
      · intro other hother
        rw [pkgFind_concat, if_neg (Ne.symm hother), Option.or_none]

/-- **An entry** acts on the package of its name only.  Whether the package is there or is made, and
whether it is found through the package of the entry before or in the cache, it is the same one. -/
theorem abstracts_populateEntry (h : Abstracts s σ) (entry : ArchiveEntry) :
    Option.Rel Abstracts (populateEntry treename s entry)
      (componentStep ArchiveEntry.pkgname (readEntry treename) σ entry) := by
  cases hdir : entry.isDir with
  | true =>
    simp only [populateEntry, componentStep, readEntry, hdir, if_true, Option.map_some,
      Function.update_eq_self]
    exact .some h
  | false =>
    cases hpathname : entry.pathname with
    | none =>
      simp only [populateEntry, componentStep, readEntry, hdir, hpathname, Bool.false_eq_true,
        if_false, Option.map_some]
      exact .some (h.fail _)
    | some entryname =>
      cases hsplit : (splitname entryname).1 with
      | split name version hash =>
        exact abstracts_populateEntry_split h hdir hpathname hsplit
      | undefined =>
        simp only [populateEntry, componentStep, readEntry, loadPkgForEntry, hdir, hpathname,
          hsplit, Bool.false_eq_true, if_false, Option.map_none]
        exact .none
      | error =>
        simp only [populateEntry, componentStep, readEntry, loadPkgForEntry, hdir, hpathname,
          hsplit, Bool.false_eq_true, if_false, Option.map_some]
        exact .some (h.fail _)

/-- **The entries of an archive** act on the packages of their names. -/
theorem abstracts_populateEntries (h : Abstracts s σ) (entries : List ArchiveEntry) :
    Option.Rel Abstracts (entries.foldlM (populateEntry treename) s)
      (entries.foldlM (componentStep ArchiveEntry.pkgname (readEntry treename)) σ) := by
  induction entries generalizing s σ with
  | nil => exact .some h
  | cons entry entries ih =>
    rw [List.foldlM_cons, List.foldlM_cons]
    have hentry := @abstracts_populateEntry treename s σ h entry
    generalize populateEntry treename s entry = read at hentry ⊢
    generalize componentStep ArchiveEntry.pkgname (readEntry treename) σ entry = spec at hentry ⊢
    cases hentry with
    | none => exact .none
    | some h => exact ih h

end Step

/-- Nothing was read yet. -/
theorem abstracts_start : Abstracts {} fun _ => (none, false) where
  nodup := List.nodup_nil
  find name := by cases name <;> rfl
  ret := Or.inl rfl
  failed := by simp

/-- The loop has read what the entries make of the packages of their names. -/
theorem syncDbPopulate_abstracts (treename : CString) (entries : List ArchiveEntry) (eof : Bool) :
    match entries.foldlM (componentStep ArchiveEntry.pkgname (readEntry treename))
        fun _ => (none, false) with
      | none => syncDbPopulate treename entries eof = none
      | some σ => ∃ s, Abstracts s σ ∧ syncDbPopulate treename entries eof =
          some (if eof then (s.ret, listMsort pkgCmp s.pkgcache) else (-1, [])) := by
  have hrel := @abstracts_populateEntries treename {} _ abstracts_start entries
  unfold syncDbPopulate
  generalize entries.foldlM (populateEntry treename) {} = read at hrel ⊢
  generalize entries.foldlM (componentStep ArchiveEntry.pkgname (readEntry treename)) _ = spec
    at hrel ⊢
  cases hrel with
  | none => rfl
  | some h => exact ⟨_, h, rfl⟩

/-- What the packages are decides the return value and the sorted cache. -/
theorem Abstracts.unique {s : Populating} {σ : Option CString → Option Pkg × Bool}
    (h : Abstracts s σ) {ret : Int} {pkgcache : List Pkg} :
    s.ret = ret ∧ listMsort pkgCmp s.pkgcache = pkgcache ↔
      SortedCache pkgcache ∧ (∀ name, (σ name).1 = name.bind (pkgFind pkgcache)) ∧
        (ret = 0 ∨ ret = -1) ∧ (ret = -1 ↔ ∃ name, (σ name).2 = true) := by
  constructor
  · rintro ⟨rfl, rfl⟩
    refine ⟨sortedCache_listMsort h.nodup, fun name => ?_, h.ret, h.failed⟩
    rw [h.find, funext (pkgFind_listMsort h.nodup)]
  · rintro ⟨hsorted, hfind, hret, hfailed⟩
    constructor
    · have hsame := h.failed.trans hfailed.symm
      have hcases := h.ret
      omega
    · refine (sortedCache_listMsort h.nodup).unique hsorted fun name => ?_
      rw [pkgFind_listMsort h.nodup]
      exact (h.find (some name)).symm.trans (hfind (some name))

section Populate

variable {treename : CString} {entries entries' : List ArchiveEntry}

/-- **A sync database that is read to its end** has, sorted by their names, the packages that the
entries of each name give in their order, whatever stands between them; `0` is returned if and only
if no entry fails.  The packages are the components of the state, and an entry acts on the one of
its name. -/
theorem syncDbPopulate_eq_some_iff {ret : Int} {pkgcache : List Pkg} :
    syncDbPopulate treename entries true = some (ret, pkgcache) ↔
      SortedCache pkgcache ∧ ∃ failed : Option CString → Bool,
        (∀ name, packageOf treename entries name =
          some (name.bind (pkgFind pkgcache), failed name)) ∧
        (ret = 0 ∨ ret = -1) ∧ (ret = -1 ↔ ∃ name, failed name = true) := by
  have hrun := syncDbPopulate_abstracts treename entries true
  have hpackages := fun σ => @foldlM_componentStep_eq_some_iff _ _ _ _ ArchiveEntry.pkgname
    (readEntry treename) (fun _ => (none, false)) σ entries
  cases hspec : entries.foldlM (componentStep ArchiveEntry.pkgname (readEntry treename))
      fun _ => (none, false) with
  | none =>
    simp only [hspec] at hrun hpackages
    rw [hrun]
    constructor
    · intro h
      cases h
    · rintro ⟨-, failed, hall, -⟩
      cases (hpackages fun name => (name.bind (pkgFind pkgcache), failed name)).mpr hall
  | some σ =>
    simp only [hspec] at hrun hpackages
    obtain ⟨s, h, hrun⟩ := hrun
    have hσ : ∀ name, packageOf treename entries name = some (σ name) := (hpackages σ).mp rfl
    rw [hrun, if_true, Option.some.injEq, Prod.mk.injEq, h.unique]
    refine and_congr_right fun _ => ?_
    constructor
    · rintro ⟨hfind, hret, hfailed⟩
      refine ⟨fun name => (σ name).2, fun name => ?_, hret, hfailed⟩
      rw [hσ, ← hfind]
    · rintro ⟨failed, hall, hret, hfailed⟩
      have hsame : ∀ name, σ name = (name.bind (pkgFind pkgcache), failed name) := fun name =>
        Option.some.inj ((hσ name).symm.trans (hall name))
      refine ⟨fun name => by rw [hsame], hret, ?_⟩
      simpa only [hsame] using hfailed

/-- **Entries of different packages** may come in any order: two archives that have the same entries
for each name, in the same order, are read to the same cache with the same return value.  Entries
without a name of a package count as entries of one name of their own. -/
theorem syncDbPopulate_interleaved
    (h : ∀ name, eventsOf ArchiveEntry.pkgname name entries =
      eventsOf ArchiveEntry.pkgname name entries') (eof : Bool) :
    syncDbPopulate treename entries eof = syncDbPopulate treename entries' eof := by
  have hleft := syncDbPopulate_abstracts treename entries eof
  have hright := syncDbPopulate_abstracts treename entries' eof
  rw [foldlM_componentStep_congr h] at hleft
  cases hspec : entries'.foldlM (componentStep ArchiveEntry.pkgname (readEntry treename))
      fun _ => (none, false) with
  | none =>
    simp only [hspec] at hleft hright
    rw [hleft, hright]
  | some σ =>
    simp only [hspec] at hleft hright
    obtain ⟨s, habstracts, hleft⟩ := hleft
    obtain ⟨s', habstracts', hright⟩ := hright
    obtain ⟨hret, hcache⟩ := habstracts.unique.mpr (habstracts'.unique.mp ⟨rfl, rfl⟩)
    rw [hleft, hright, hret, hcache]

end Populate

/-- An entry for a file in the directory of a package. -/
def fooDesc : ArchiveEntry where
  pathname := some ⟨[], str "foo-1-1/desc", by decide, by decide⟩
  blocks := [str "%NAME%\nfoo\n\n%VERSION%\n1-1\n\n"]

def fooFiles : ArchiveEntry where
  pathname := some ⟨[], str "foo-1-1/files", by decide, by decide⟩
  blocks := [str "%FILES%\netc/foo.conf\n\n"]

def barDesc : ArchiveEntry where
  pathname := some ⟨[], str "bar-2-1/desc", by decide, by decide⟩
  blocks := [str "%NAME%\nbar\n\n%VERSION%\n2-1\n\n"]

theorem syncDbPopulate_interleaved_core :
    syncDbPopulate (str "core") [fooDesc, barDesc, fooFiles] true =
      syncDbPopulate (str "core") [fooDesc, fooFiles, barDesc] true := by
  have hfiles : fooFiles.pkgname = some (str "foo") := by decide
  have hbar : barDesc.pkgname = some (str "bar") := by decide
  refine syncDbPopulate_interleaved (fun name => ?_) true
  by_cases hname : name = some (str "foo")
  · subst hname
    have hne : ¬ some (str "bar") = some (str "foo") := by decide
    simp [eventsOf, List.filter_cons, hfiles, hbar, hne]
  · simp [eventsOf, List.filter_cons, hfiles, hbar, Ne.symm hname]

end Alpm.Syncdb
