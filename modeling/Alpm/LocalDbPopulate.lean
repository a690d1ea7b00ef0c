import Alpm.LocalDb
import Alpm.Pkghash
import Alpm.Splitname

/-!
# Loading the local database

`local_db_populate` of `be_local.c`, which loads a package for each directory of the database.  The
name of a directory is made by `_alpm_local_db_pkgpath` from the name and the version of a package,
with a hyphen between them, and taken apart by `_alpm_splitname` at the second-last hyphen.

The checks on a package that is loaded to be installed want a hyphen in the version, and allow more
than one.  `splitname_dirName_iff` says which of the packages that pass are found again under their
names when the database is loaded: those whose version contains just one hyphen.  A name may hold
any number of them.

The loop stores a package for a directory unless its name cannot be split, or a package of the name
was loaded before; an entry that is no directory, or of which the memory for a package is missing,
is dealt with as in the code (`populateEntry_cases`).  What is stored stays
(`populateEntries_stores`), so the package of a directory is there in the end if no entry before it
is split into the same name.
-/

namespace Alpm.LocalDb

/-! ## Directories of packages -/

/-- The directory of a package, `%s-%s`. -/
def dirName (info : Pkg) : CString := info.name ++ '-' :: info.version

/-- The checks of `_alpm_pkg_load_internal` on the name and the version that were parsed. -/
def checkPkginfo (name version : Option CString) : Except CString Unit :=
  if name.getD [] = [] then .error (str "missing package name in %s\n")
  else if version.getD [] = [] then .error (str "missing package version in %s\n")
  else if '-' ∉ version.getD [] then .error (str "invalid package version in %s\n")
  else .ok ()

/-! ## Loading -/

def infrqBase : ℕ := 1

/-- What `readdir` returns and what there is to the entry: whether `is_dir` holds of it, the
files in it, and what is allocated for its package. -/
structure Dirent where
  name : Memory
  isDir : Bool
  entry : Entry
  addr : Option ℕ
  alloc : PkghashAlloc

/-- A function that fills the package cache: an access outside of the memory, `ALPM_ERR_MEMORY`,
or the cache. -/
inductive Populated where
  | undefined
  | memory
  | cache (pkgcache : Pkghash)

/-- The loop body of `local_db_populate` once the name of the entry is split.  A second entry for a
name is passed over, and so is one that cannot be read. -/
def loadEntry (pkgcache : Pkghash) (ent : Dirent) (addr : ℕ) (name version : CString) :
    Populated :=
  -- duplicated database entries are not allowed
  match pkghashFind pkgcache name with
  | none => .undefined
  | some (some _) => .cache pkgcache
  | some none =>
    let read := localDbRead ent.entry { addr, name, version, origin := .localdb } infrqBase
    if read.1 = -1 then .cache pkgcache
    else
      match pkghashAdd ent.alloc pkgcache read.2 with
      | none => .undefined
      | some (none, _) => .memory
      | some (some _, pkgcache) => .cache pkgcache

/-- The loop body of `local_db_populate`.  A name that cannot be split is passed over; a package
that cannot be allocated ends the loop. -/
def populateEntry (pkgcache : Pkghash) (ent : Dirent) : Populated :=
  if strcmp ent.name.target (str ".") = 0 ∨ strcmp ent.name.target (str "..") = 0 then
    .cache pkgcache
  else if !ent.isDir then .cache pkgcache
  else
    match ent.addr with
    | none => .memory
    | some addr =>
      match (splitname ent.name).1 with
      | .undefined => .undefined
      | .error => .cache pkgcache
      | .split name version _ => loadEntry pkgcache ent addr name version

/-- The loop of `local_db_populate`. -/
def populateEntries (pkgcache : Pkghash) : List Dirent → Populated
  | [] => .cache pkgcache
  | ent :: ents =>
    match populateEntry pkgcache ent with
    | .cache pkgcache => populateEntries pkgcache ents
    | failed => failed

/-- `local_db_populate` of a directory that can be opened.  The size of the table is guessed from
the number of links or of entries, and the list is sorted at the end. -/
def localDbPopulate (alloc : PkghashAlloc) (nlink : ℕ) (ents : List Dirent) : Populated :=
  let estCount := if nlink ≥ 2 then nlink else ents.length
  let estCount := if estCount ≥ 2 then estCount - 2 else estCount
  match pkghashCreate alloc estCount with
  | none => .memory
  | some pkgcache =>
    match populateEntries pkgcache ents with
    | .cache pkgcache => .cache { pkgcache with
        list := pkgcache.list.mergeSort fun pkg1 pkg2 => pkgCmp pkg1 pkg2 ≤ 0 }
    | failed => failed

/-! ## What is loaded -/

theorem localDbRead_base (entry : Entry) {pkg : Pkg} (h : pkg.infolevel = 0) :
    localDbRead entry pkg infrqBase = (0, pkg) := by
  have hdesc : loadFile infrqBase infrqDesc entry.desc readDesc pkg = .ok pkg :=
    if_neg fun hreq => hreq.1 (by decide)
  have hfiles : loadFile infrqBase infrqFiles entry.files readFiles pkg = .ok pkg :=
    if_neg fun hreq => hreq.1 (by decide)
  have hload : (loadFile infrqBase infrqDesc entry.desc readDesc pkg >>=
      loadFile infrqBase infrqFiles entry.files readFiles) = .ok pkg := by
    rw [hdesc]
    exact hfiles
  rw [localDbRead, if_neg (by rw [h]; decide), if_neg (by rw [h]; decide), hload]
  exact if_neg fun hreq => hreq.1 (by decide)

/-- The name of an entry is split into a name and a version. -/
def Dirent.Splits (ent : Dirent) (name version : CString) : Prop :=
  (splitname ent.name).1 = .split name version (hashSdbm name)

theorem splitname_hash {mem : Memory} {name version : CString} {hash : ℕ}
    (h : (splitname mem).1 = .split name version hash) : hash = hashSdbm name := by
  unfold splitname at h
  simp only at h
  split at h
  · cases h
  split at h
  · cases h
  split_ifs at h
  obtain ⟨rfl, -, rfl⟩ := SplitResult.split.inj h
  rfl

section Entries

variable {pkgcache pkgcache' : Pkghash} {stored : CString → Option Pkg} {ent : Dirent}

/-- A package is loaded when none of its name was loaded before. -/
theorem loadEntry_stores {addr : ℕ} {name version : CString} (h : pkgcache.Stores stored)
    (hok : loadEntry pkgcache ent addr name version = .cache pkgcache') :
    (∃ pkg, stored name = some pkg) ∧ pkgcache' = pkgcache ∨
      stored name = none ∧ ∃ pkg, pkg.version = version ∧
        pkgcache'.Stores (Function.update stored name (some pkg)) := by
  unfold loadEntry at hok
  rw [h.find] at hok
  cases hnew : stored name with
  | some pkg =>
    rw [hnew] at hok
    exact Or.inl ⟨⟨pkg, rfl⟩, (Populated.cache.inj hok).symm⟩
  | none =>
    obtain ⟨ret, hash', hadd, hcase⟩ := @Pkghash.Stores.add _ _ h ent.alloc
      { addr, name, version, origin := .localdb } false hnew
    simp only [hnew, localDbRead_base, pkghashAdd, hadd] at hok
    rcases hcase with ⟨rfl, -⟩ | ⟨rfl, hstores, -⟩
    · cases hok
    · obtain rfl := Populated.cache.inj hok
      exact Or.inr ⟨rfl, _, rfl, hstores⟩

/-- What an entry does: nothing, or its name is split and it is loaded. -/
theorem populateEntry_cases (hok : populateEntry pkgcache ent = .cache pkgcache') :
    pkgcache' = pkgcache ∨ ∃ addr name version, ent.Splits name version ∧
      loadEntry pkgcache ent addr name version = .cache pkgcache' := by
  unfold populateEntry at hok
  split_ifs at hok
  · exact Or.inl (Populated.cache.inj hok).symm
  · exact Or.inl (Populated.cache.inj hok).symm
  split at hok
  · cases hok
  next addr _ =>
    split at hok
    · cases hok
    · exact Or.inl (Populated.cache.inj hok).symm
    next name version hash hsplit =>
      obtain rfl := splitname_hash hsplit
      exact Or.inr ⟨addr, name, version, hsplit, hok⟩

theorem populateEntry_of_splits {name version : CString}
    (hdots : ¬ (strcmp ent.name.target (str ".") = 0 ∨ strcmp ent.name.target (str "..") = 0))
    (hdir : ent.isDir) (hsplit : ent.Splits name version)
    (hok : populateEntry pkgcache ent = .cache pkgcache') :
    ∃ addr, loadEntry pkgcache ent addr name version = .cache pkgcache' := by
  rw [populateEntry, if_neg hdots, if_neg (by simp [hdir])] at hok
  split at hok
  · cases hok
  next addr _ =>
    rw [hsplit] at hok
    exact ⟨addr, hok⟩

/-- What is stored stays, and what is new is of a name of one of the entries. -/
structure Extends (stored stored' : CString → Option Pkg) (ents : List Dirent) : Prop where
  kept : ∀ name pkg, stored name = some pkg → stored' name = some pkg
  new : ∀ name, (∀ ent ∈ ents, ∀ version, ¬ ent.Splits name version) →
    stored' name = stored name

theorem populateEntry_stores (h : pkgcache.Stores stored)
    (hok : populateEntry pkgcache ent = .cache pkgcache') :
    ∃ stored', pkgcache'.Stores stored' ∧ Extends stored stored' [ent] := by
  have hsame : Extends stored stored [ent] := ⟨fun _ _ h => h, fun _ _ => rfl⟩
  obtain rfl | ⟨addr, name, version, hsplit, hload⟩ := populateEntry_cases hok
  · exact ⟨stored, h, hsame⟩
  obtain ⟨-, rfl⟩ | ⟨hnew, pkg, -, hstores⟩ := loadEntry_stores h hload
  · exact ⟨stored, h, hsame⟩
  refine ⟨_, hstores, fun name' pkg' hpkg' => ?_, fun name' hname' => ?_⟩
  · rw [Function.update_of_ne, hpkg']
    rintro rfl
    rw [hnew] at hpkg'
    cases hpkg'
  · rw [Function.update_of_ne]
    rintro rfl
    exact hname' ent (List.mem_singleton_self _) version hsplit

end Entries

theorem populateEntries_cons {pkgcache pkgcache' : Pkghash} {ent : Dirent} {ents : List Dirent}
    (hok : populateEntries pkgcache (ent :: ents) = .cache pkgcache') :
    ∃ pkgcache₁, populateEntry pkgcache ent = .cache pkgcache₁ ∧
      populateEntries pkgcache₁ ents = .cache pkgcache' := by
  rw [populateEntries] at hok
  cases hentry : populateEntry pkgcache ent with
  | undefined =>
    rw [hentry] at hok
    cases hok
  | memory =>
    rw [hentry] at hok
    cases hok
  | cache pkgcache₁ =>
    rw [hentry] at hok
    exact ⟨pkgcache₁, rfl, hok⟩

/-- **Every run** of the loop keeps what is stored, and what is new has a name that one of the
entries is split into.  So a package that is looked for under a name can only come from these. -/
theorem populateEntries_stores {ents : List Dirent} {pkgcache pkgcache' : Pkghash}
    {stored : CString → Option Pkg} (h : pkgcache.Stores stored)
    (hok : populateEntries pkgcache ents = .cache pkgcache') :
    ∃ stored', pkgcache'.Stores stored' ∧ Extends stored stored' ents := by
  induction ents generalizing pkgcache stored with
  | nil =>
    obtain rfl := Populated.cache.inj hok
    exact ⟨stored, h, fun _ _ h => h, fun _ _ => rfl⟩
  | cons ent ents ih =>
    obtain ⟨pkgcache₁, hentry, hrun⟩ := populateEntries_cons hok
    obtain ⟨stored₁, hstores₁, hfirst⟩ := populateEntry_stores h hentry
    obtain ⟨stored', hstores', hrest⟩ := ih hstores₁ hrun
    refine ⟨stored', hstores', fun name pkg hpkg => ?_, fun name hname => ?_⟩
    · exact hrest.kept name pkg (hfirst.kept name pkg hpkg)
    · obtain ⟨hent, hents⟩ := List.forall_mem_cons.mp hname
      rw [hrest.new name hents]
      exact hfirst.new name (List.forall_mem_singleton.mpr hent)

theorem populateEntries_append {pkgcache pkgcache' : Pkghash} {ents after : List Dirent}
    (hok : populateEntries pkgcache (ents ++ after) = .cache pkgcache') :
    ∃ pkgcache₁, populateEntries pkgcache ents = .cache pkgcache₁ ∧
      populateEntries pkgcache₁ after = .cache pkgcache' := by
  induction ents generalizing pkgcache with
  | nil => exact ⟨pkgcache, rfl, hok⟩
  | cons ent ents ih =>
    obtain ⟨pkgcache₁, hentry, hrun⟩ := populateEntries_cons hok
    rw [populateEntries, hentry]
    exact ih hrun

/-- The package of a directory is found under its name when no entry before it is split into the
same name. -/
theorem localDbPopulate_find {alloc : PkghashAlloc} {nlink : ℕ} {ents after : List Dirent}
    {ent : Dirent} {name version : CString} {pkgcache : Pkghash}
    (hdots : ¬ (strcmp ent.name.target (str ".") = 0 ∨ strcmp ent.name.target (str "..") = 0))
    (hdir : ent.isDir) (hsplit : ent.Splits name version)
    (hents : ∀ ent ∈ ents, ∀ version, ¬ ent.Splits name version)
    (hok : localDbPopulate alloc nlink (ents ++ ent :: after) = .cache pkgcache) :
    ∃ pkg, pkghashFind pkgcache name = some (some pkg) ∧ pkg.version = version := by
  unfold localDbPopulate at hok
  simp only at hok
  split at hok
  · cases hok
  next empty hcreate =>
    split at hok
    next pkgcache' hrun =>
      obtain rfl := Populated.cache.inj hok
      obtain ⟨pkgcache₁, hrun₁, hrun⟩ := populateEntries_append hrun
      obtain ⟨stored₁, hstores₁, hbefore⟩ :=
        populateEntries_stores (Pkghash.Run.create hcreate).stores hrun₁
      obtain ⟨pkgcache₂, hentry, hrun₂⟩ := populateEntries_cons hrun
      obtain ⟨addr, hload⟩ := populateEntry_of_splits hdots hdir hsplit hentry
      have hnew : stored₁ name = none := hbefore.new name hents
      obtain ⟨⟨pkg, hpkg⟩, -⟩ | ⟨-, pkg, hversion, hstores₂⟩ := loadEntry_stores hstores₁ hload
      · rw [hnew] at hpkg
        cases hpkg
      obtain ⟨stored', hstores', hafter⟩ := populateEntries_stores hstores₂ hrun₂
      refine ⟨pkg, ?_, hversion⟩
      rw [← hafter.kept name pkg (Function.update_self ..)]
      exact hstores'.find name
    next failed hfailed => exact absurd hok (hfailed pkgcache)

/-! ## Which packages are found again -/

theorem not_dots_of_hyphen {name : CString} (h : '-' ∈ name) :
    ¬ (strcmp name (str ".") = 0 ∨ strcmp name (str "..") = 0) := by
  rintro (heq | heq)
  all_goals
    rw [strcmp_eq_zero.mp heq] at h
    exact absurd h (by decide)

/-- The part that is split of a path of the database. -/
theorem part_of_dirName {info : Pkg} {mem : Memory} {file : CString}
    (hname : '/' ∉ info.name) (hversion : '/' ∉ info.version)
    (htarget : mem.target = dirName info ++ file) (hfile : file = [] ∨ file.head? = some '/') :
    mem.part = info.name ++ '-' :: info.version := by
  have hdir : ∀ c ∈ dirName info, c ≠ '/' := by
    rintro c hc rfl
    simp [dirName, hname, hversion] at hc
  have hrest : file.takeWhile (· ≠ '/') = [] := by
    cases file with
    | nil => rfl
    | cons c file =>
      obtain hfile | hfile := hfile
      · cases hfile
      · obtain rfl := Option.some.inj hfile
        exact List.takeWhile_cons_of_neg (by simp)
  rw [Memory.part, htarget, List.takeWhile_append_of_pos (by simpa using hdir), hrest,
    List.append_nil]
  rfl

theorem checkPkginfo_ok {name version : CString}
    (h : checkPkginfo (some name) (some version) = .ok ()) : name ≠ [] ∧ '-' ∈ version := by
  unfold checkPkginfo at h
  split_ifs at h with hname hversion hhyphen
  exact ⟨hname, hhyphen⟩

theorem splitname_part_iff {name version : CString} {mem : Memory}
    (hpart : mem.part = name ++ '-' :: version) (hname : name ≠ []) (hversion : '-' ∈ version) :
    (splitname mem).1 = .split name version (hashSdbm name) ↔ version.count '-' = 1 := by
  have hpos := List.count_pos_iff.mpr hversion
  constructor
  · intro hsplit
    by_contra hcount
    obtain ⟨_, front, middle, last, rfl, hmiddle, hlast, -⟩ :=
      @exists_secondLastHyphen version (by omega)
    have hpart' : mem.part = (name ++ '-' :: front) ++ '-' :: (middle ++ '-' :: last) := by
      simp [hpart]
    have hresult := (splitname_of_hyphens mem hpart' hmiddle hlast).1
    rw [hsplit, if_neg (by simp)] at hresult
    have hlength := congrArg List.length (SplitResult.split.inj hresult).1
    rw [List.length_append, List.length_cons] at hlength
    omega
  · intro hcount
    obtain ⟨middle, last, rfl, hmiddle⟩ := List.eq_append_cons_of_mem hversion
    rw [List.count_append, List.count_cons_self, List.count_eq_zero.mpr hmiddle] at hcount
    have hlast : '-' ∉ last := List.count_eq_zero.mp (by omega)
    rw [(splitname_of_hyphens mem hpart hmiddle hlast).1, if_neg hname]

/-- **The directory of a package** that is accepted is split into its name and version, and the
package found when the database is loaded, if and only if the version contains one hyphen.  The
second-last hyphen of the directory's name is the one between the two parts exactly then, since
hyphens in the name come before it. -/
theorem splitname_dirName_iff {info : Pkg} {mem : Memory} {file : CString}
    (haccept : checkPkginfo (some info.name) (some info.version) = .ok ())
    (hname : '/' ∉ info.name) (hversion : '/' ∉ info.version)
    (htarget : mem.target = dirName info ++ file) (hfile : file = [] ∨ file.head? = some '/') :
    ((splitname mem).1 = .split info.name info.version (hashSdbm info.name) ∧
      ∀ alloc nlink ents ent after pkgcache, ent.isDir → ent.name.target = dirName info →
        (∀ ent ∈ ents, ∀ version, ¬ ent.Splits info.name version) →
        localDbPopulate alloc nlink (ents ++ ent :: after) = .cache pkgcache →
        ∃ pkg, pkghashFind pkgcache info.name = some (some pkg) ∧ pkg.version = info.version) ↔
      info.version.count '-' = 1 := by
  obtain ⟨hne, hhyphen⟩ := checkPkginfo_ok haccept
  have hpart := part_of_dirName hname hversion htarget hfile
  rw [splitname_part_iff hpart hne hhyphen, and_iff_left_iff_imp]
  intro hcount alloc nlink ents ent after pkgcache hdir hent hents hok
  have hpartEnt : ent.name.part = info.name ++ '-' :: info.version :=
    part_of_dirName hname hversion (by rw [hent, List.append_nil]) (Or.inl rfl)
  have hdots : '-' ∈ ent.name.target := by simp [hent, dirName]
  exact localDbPopulate_find (not_dots_of_hyphen hdots) hdir
    ((splitname_part_iff hpartEnt hne hhyphen).mpr hcount) hents hok

/-- The directory of the package `linux`, in memory. -/
def linuxDir : Memory where
  before := []
  target := str "linux-4.20.arch1-1"
  terminated := by decide
  addressable := by decide

theorem splitname_dirName_linux :
    ((splitname linuxDir).1 = .split (str "linux") (str "4.20.arch1-1") (hashSdbm (str "linux")) ∧
      ∀ alloc nlink ents ent after pkgcache, ent.isDir →
        ent.name.target = str "linux-4.20.arch1-1" →
        (∀ ent ∈ ents, ∀ version, ¬ ent.Splits (str "linux") version) →
        localDbPopulate alloc nlink (ents ++ ent :: after) = .cache pkgcache →
        ∃ pkg, pkghashFind pkgcache (str "linux") = some (some pkg) ∧
          pkg.version = str "4.20.arch1-1") ↔ (str "4.20.arch1-1").count '-' = 1 :=
  @splitname_dirName_iff { name := str "linux", version := str "4.20.arch1-1" } linuxDir [] rfl
    (by decide) (by decide) rfl (Or.inl rfl)

/-- The directory of a package with the version `1-2-3`. -/
def hyphensDir : Memory where
  before := []
  target := str "foo-1-2-3"
  terminated := by decide
  addressable := by decide

theorem splitname_hyphensDir :
    checkPkginfo (some (str "foo")) (some (str "1-2-3")) = .ok () ∧
      hyphensDir.target = dirName { name := str "foo", version := str "1-2-3" } ∧
      (splitname hyphensDir).1 = .split (str "foo-1") (str "2-3") (hashSdbm (str "foo-1")) := by
  decide

end Alpm.LocalDb
