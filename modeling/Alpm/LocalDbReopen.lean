import Alpm.General.Execution
import Alpm.Groupcache
import Alpm.LocalDbPopulate
import Alpm.LocalDbRoundTrip

/-!
# The local database on the disk

The directory of the local database and the package cache of a handle are two records of the
same packages.

## 1.  The two records

`commit_single_pkg` and `_alpm_remove_single_package` change both of them, and `local_db_populate`
makes a new cache from the directory when a handle is opened again; this cache only has the names
and versions, and `local_db_read` has the rest.

## 2.  Commits that fail

A commit makes the directory of its entry first, extracts the files of the package, and writes the
entry at the end.  When the package file cannot be opened, or `chdir` or one of the `fopen` fails,
it returns with the directory made and the entry not written, and nobody takes the directory away:
a commit of the same version fails from then on, in `mkdir`.  The same comes of an old version whose
files cannot all be removed.  The names of these directories are kept beside the model, in `torn`.

## 3.  What holds of every run

`database_of_execution` says that through every run of commits, removals and reopenings, whichever
of their steps fail, the cache and the directory have the packages that were committed last, and the
directory has nothing else but what was torn.  The invariant is `Holds`, with one lemma for each of
the operations.
-/

namespace Alpm.LocalDb

open Groupcache (addPkgincache removePkgfromcache freeGroupcache)

/-! ## The operations -/

/-- `INFRQ_ALL`. -/
def infrqAll : ℕ := 31

/-- The directories of the entries by their names, and the database of a handle. -/
structure Database where
  dirs : CString → Option Entry
  db : Groupcache.Db

/-- `_alpm_local_db_prepare`, where `mkdir` fails when the directory is there, and may fail for
other reasons, as `checkdbdir` may (`ok`). -/
def localDbPrepare (ok : Bool) (dirs : CString → Option Entry) (info : Pkg) :
    Int × (CString → Option Entry) :=
  if !ok || (dirs (dirName info)).isSome then (-1, dirs)
  else (0, Function.update dirs (dirName info) (some {}))

/-- `_alpm_local_db_remove`, where `opendir` fails when the directory is not there.  When an
`unlink` or the `rmdir` fails, there is something left of the entry. -/
def localDbRemove (left : Option Entry) (dirs : CString → Option Entry) (info : Pkg) :
    Int × (CString → Option Entry) :=
  if (dirs (dirName info)).isSome then
    (if left.isSome then -1 else 0, Function.update dirs (dirName info) left)
  else (-1, dirs)

/-- What `extract_db_file` does to the entry of a package with a scriptlet or without one. -/
def extractDbFiles (dirs : CString → Option Entry) (info : Pkg) (scriptlet : Bool) :
    CString → Option Entry :=
  Function.update dirs (dirName info)
    ((dirs (dirName info)).map fun entry => { entry with install := entry.install || scriptlet })

/-- The end of `_alpm_remove_single_package`, which only logs errors. -/
def removeEntry (left : Option Entry) (oldpkg : Pkg) (d : Database) : Option Database :=
  (removePkgfromcache d.db oldpkg).map fun (_, db) => ⟨(localDbRemove left d.dirs oldpkg).2, db⟩

/-- What a commit of a package meets. -/
structure CommitEnv where
  alldeps : Bool := false
  allexplicit : Bool := false
  /-- what is left of the entry of the old version, if it cannot be removed -/
  left : Option Entry := none
  /-- `checkdbdir` and `mkdir` succeed -/
  prepares : Bool := true
  /-- `_alpm_open_archive` and `chdir` succeed -/
  enters : Bool := true
  /-- there is `.INSTALL` in the archive, and it is extracted -/
  scriptlet : Bool
  /-- all the files of the package are extracted -/
  extracts : Bool := true
  time : Int
  /-- `fopen` opens `desc` and `files` -/
  descOpens : Bool := true
  filesOpens : Bool := true
  /-- what is in the entry in the end, if a call that writes to the open files fails -/
  short : Option Entry := none
  outcome : DupOutcome
  alloc : PkghashAlloc

/-- The return value of `commit_single_pkg`, that of `_alpm_db_add_pkgincache` if it gets there, and
the database. -/
structure Committed where
  ret : Int
  added : Option Int
  database : Database

/-- `newpkg` with the reason and the date that `commit_single_pkg` gives it. -/
def installedAs (env : CommitEnv) (newpkg : Pkg) (oldpkg : Option Pkg) : Pkg :=
  { newpkg with
    reason := if env.alldeps then .depend else if env.allexplicit then .explicit
      else (oldpkg.map Pkg.reason).getD newpkg.reason
    installdate := env.time }

@[simp] theorem installedAs_name (env : CommitEnv) (newpkg : Pkg) (oldpkg : Option Pkg) :
    (installedAs env newpkg oldpkg).name = newpkg.name := rfl

@[simp] theorem dirName_installedAs (env : CommitEnv) (newpkg : Pkg) (oldpkg : Option Pkg) :
    dirName (installedAs env newpkg oldpkg) = dirName newpkg := rfl

/-- `_alpm_local_db_write` of a whole entry: the return value and the entry.  What `fprintf`,
`fputs` and `fclose` return is not looked at. -/
def writeEntry (env : CommitEnv) (info : Pkg) (entry : Entry) : Int × Entry :=
  if !env.descOpens then (-1, entry)
  else if !env.filesOpens then (-1, localDbWrite entry info infrqDesc)
  else (0, env.short.getD (localDbWrite entry info infrqAll))

/-- `commit_single_pkg` after `_alpm_local_db_prepare`. -/
def fillEntry (env : CommitEnv) (newpkg : Pkg) (d : Database) : Option Committed :=
  if !env.enters then some ⟨-1, none, d⟩
  else
    let dirs := extractDbFiles d.dirs newpkg env.scriptlet
    let (ret, entry) := writeEntry env newpkg ((dirs (dirName newpkg)).getD {})
    let dirs := Function.update dirs (dirName newpkg) (some entry)
    if ret ≠ 0 then some ⟨-1, none, dirs, d.db⟩
    else
      (addPkgincache env.outcome env.alloc d.db newpkg).map fun (added, db) =>
        ⟨if env.extracts then 0 else -1, some added, dirs, db⟩

/-- `commit_single_pkg` after the old version was removed. -/
def addEntry (env : CommitEnv) (newpkg : Pkg) (d : Database) : Option Committed :=
  let (ret, dirs) := localDbPrepare env.prepares d.dirs newpkg
  if ret ≠ 0 then some ⟨-1, none, d⟩ else fillEntry env newpkg ⟨dirs, d.db⟩

/-- What `commit_single_pkg` does to the database. -/
def commitEntry (env : CommitEnv) (newpkg : Pkg) (oldpkg : Option Pkg) (d : Database) :
    Option Committed :=
  match pkghashFind d.db.pkgcache newpkg.name, oldpkg with
  | none, _ => none
  | some (some _), some oldpkg =>
    (removeEntry env.left oldpkg d).bind (addEntry env (installedAs env newpkg (some oldpkg)))
  | _, _ => addEntry env (installedAs env newpkg none) d

/-- A handle that is opened on the directory. -/
def reopen (alloc : PkghashAlloc) (nlink : ℕ) (ents : List Dirent) (d : Database) :
    Option Database :=
  match localDbPopulate alloc nlink ents with
  | .cache pkgcache => some ⟨d.dirs, { treename := d.db.treename, isLocal := true, pkgcache }⟩
  | _ => none

/-! ## Runs -/

/-- A database, with the packages that were committed last and not removed since, and the
directories that a commit or a removal has left behind.  Both are there for the statements only. -/
structure Recorded where
  database : Database
  committed : CString → Option Pkg
  torn : List CString := []

inductive Event where
  | commit (env : CommitEnv) (newpkg : Pkg) (oldpkg : Option Pkg)
  | remove (left : Option Entry) (pkg : Pkg)
  | reopen (alloc : PkghashAlloc) (nlink : ℕ) (ents : List Dirent)

namespace Recorded

/-- The version that a commit takes the reason from. -/
def oldVersion (s : Recorded) (newpkg : Pkg) (oldpkg : Option Pkg) : Option Pkg :=
  (s.committed newpkg.name).bind fun _ => oldpkg

/-- The package that is recorded by a commit that gets to its end. -/
def recordedBy (s : Recorded) (env : CommitEnv) (newpkg : Pkg) (oldpkg : Option Pkg)
    (c : Committed) : Option Pkg :=
  if c.added = some 0 then some (installedAs env newpkg (s.oldVersion newpkg oldpkg)) else none

/-- The directories that a commit leaves behind: that of the old version if it is not removed, and
its own if there is one and the commit does not get to its end. -/
def tornBy (s : Recorded) (env : CommitEnv) (newpkg : Pkg) (oldpkg : Option Pkg)
    (c : Committed) : List CString :=
  (if c.added = some 0 then []
    else if (c.database.dirs (dirName newpkg)).isSome then [dirName newpkg] else []) ++
    if env.left.isSome then ((s.oldVersion newpkg oldpkg).map dirName).toList else []

def step (s : Recorded) : Event → Option Recorded
  | .commit env newpkg oldpkg =>
    (commitEntry env newpkg oldpkg s.database).map fun c =>
      ⟨c.database, Function.update s.committed newpkg.name (s.recordedBy env newpkg oldpkg c),
        s.tornBy env newpkg oldpkg c ++ s.torn⟩
  | .remove left pkg =>
    (removeEntry left pkg s.database).map fun d =>
      ⟨d, Function.update s.committed pkg.name none,
        if left.isSome then dirName pkg :: s.torn else s.torn⟩
  | .reopen alloc nlink ents =>
    (LocalDb.reopen alloc nlink ents s.database).map (⟨·, s.committed, s.torn⟩)

end Recorded

/-! ## Names of entries -/

theorem append_hyphen_inj {name name' version version' : CString}
    (h : name ++ '-' :: version = name' ++ '-' :: version')
    (hcount : version.count '-' = version'.count '-') : name = name' ∧ version = version' := by
  have key : ∀ {a a' b b' : CString}, a ++ '-' :: b = a' ++ '-' :: b' →
      b.count '-' = b'.count '-' → a'.length ≤ a.length → a = a' ∧ b = b' := by
    intro a a' b b' h hcount hle
    obtain ⟨middle, rfl⟩ := List.prefix_of_prefix_length_le
      ⟨_, h.symm⟩ (List.prefix_append a ('-' :: b)) hle
    rw [List.append_assoc] at h
    have htail := List.append_cancel_left h
    cases middle with
    | nil => exact ⟨List.append_nil _, (List.cons.inj htail).2⟩
    | cons c middle =>
      obtain ⟨rfl, hb⟩ := List.cons.inj (show c :: (middle ++ '-' :: b) = '-' :: b' from htail)
      rw [← hb, List.count_append, List.count_cons_self] at hcount
      omega
  rcases Nat.le_total name'.length name.length with hle | hle
  · exact key h hcount hle
  · obtain ⟨hname, hversion⟩ := key h.symm hcount.symm hle
    exact ⟨hname.symm, hversion.symm⟩

/-- A package whose entry is found and read again: its directory is split into its name and its
version, and its record is written so that it can be read. -/
structure Loadable (info : Pkg) : Prop where
  named : info.name ≠ []
  name : '/' ∉ info.name
  version : '/' ∉ info.version
  hyphen : info.version.count '-' = 1
  writable : Writable info

theorem Loadable.dirName_inj {p q : Pkg} (hp : Loadable p) (hq : Loadable q)
    (h : dirName p = dirName q) : p.name = q.name ∧ p.version = q.version :=
  append_hyphen_inj h (hp.hyphen.trans hq.hyphen.symm)

/-! ## What is loaded from the directory -/

/-- What `local_db_populate` makes of a directory. -/
def namedPkg (addr : ℕ) (name version : CString) : Pkg :=
  { addr, name, version, origin := .localdb }

/-- The entry of the directory is one of a package. -/
structure Dirent.Loads (ent : Dirent) (name version : CString) : Prop where
  isDir : ent.isDir
  dots : ¬ (strcmp ent.name.target (str ".") = 0 ∨ strcmp ent.name.target (str "..") = 0)
  splits : ent.Splits name version

theorem Dirent.Loads.unique {ent : Dirent} {name version name' version' : CString}
    (h : ent.Loads name version) (h' : ent.Loads name' version') :
    name = name' ∧ version = version' := by
  have heq := h.splits.symm.trans h'.splits
  obtain ⟨hname, hversion, -⟩ := SplitResult.split.inj heq
  exact ⟨hname, hversion⟩

section

variable {pkgcache pkgcache' : Pkghash} {m : CString → Option Pkg}

/-- One round of the loop. -/
theorem populateEntry_spec {ent : Dirent} (h : pkgcache.Stores m)
    (hok : populateEntry pkgcache ent = .cache pkgcache') :
    (∀ name version, ¬ ent.Loads name version) ∧ pkgcache' = pkgcache ∨
      ∃ name version, ent.Loads name version ∧
        ((∃ p, m name = some p) ∧ pkgcache' = pkgcache ∨ m name = none ∧ ∃ addr,
          pkgcache'.Stores (Function.update m name (some (namedPkg addr name version)))) := by
  unfold populateEntry at hok
  split_ifs at hok with hdots hdir
  · exact Or.inl ⟨fun name version hloads => hloads.dots hdots, (Populated.cache.inj hok).symm⟩
  · refine Or.inl ⟨fun name version hloads => ?_, (Populated.cache.inj hok).symm⟩
    simp [hloads.isDir] at hdir
  split at hok
  · cases hok
  next addr _ =>
    split at hok
    · cases hok
    next herror =>
      refine Or.inl ⟨fun name version hloads => ?_, (Populated.cache.inj hok).symm⟩
      rw [hloads.splits] at herror
      cases herror
    next name version hash hsplit =>
      obtain rfl := splitname_hash hsplit
      refine Or.inr ⟨name, version, ⟨by simpa using hdir, hdots, hsplit⟩, ?_⟩
      unfold loadEntry at hok
      rw [h.find] at hok
      cases hnew : m name with
      | some p =>
        rw [hnew] at hok
        exact Or.inl ⟨⟨p, rfl⟩, (Populated.cache.inj hok).symm⟩
      | none =>
        obtain ⟨ret, hash', hadd, hcase⟩ :=
          @Pkghash.Stores.add _ _ h ent.alloc (namedPkg addr name version) false hnew
        have hread : localDbRead ent.entry { addr, name, version, origin := .localdb } infrqBase =
            (0, namedPkg addr name version) := localDbRead_base ent.entry rfl
        simp only [hnew, hread, pkghashAdd, hadd] at hok
        rcases hcase with ⟨rfl, -⟩ | ⟨rfl, hstores, -⟩
        · cases hok
        · obtain rfl := Populated.cache.inj hok
          exact Or.inr ⟨rfl, addr, hstores⟩

/-- What the loop has stored after these entries. -/
structure Loaded (m m' : CString → Option Pkg) (ents : List Dirent) : Prop where
  kept : ∀ name p, m name = some p → m' name = some p
  new : ∀ name p, m' name = some p → m name = some p ∨
    ∃ ent ∈ ents, ∃ version, ent.Loads name version ∧ ∃ addr, p = namedPkg addr name version
  all : ∀ ent ∈ ents, ∀ name version, ent.Loads name version → ∃ p, m' name = some p

theorem populateEntry_loaded {ent : Dirent} (h : pkgcache.Stores m)
    (hok : populateEntry pkgcache ent = .cache pkgcache') :
    ∃ m', pkgcache'.Stores m' ∧ Loaded m m' [ent] := by
  rcases populateEntry_spec h hok with ⟨hskip, rfl⟩ |
    ⟨name, version, hloads, ⟨hold, rfl⟩ | ⟨hnew, addr, hstores⟩⟩
  · refine ⟨m, h, fun _ _ hp => hp, fun _ _ => Or.inl, fun ent' hent' name version hloads => ?_⟩
    exact absurd (List.mem_singleton.mp hent' ▸ hloads) (hskip name version)
  · refine ⟨m, h, fun _ _ hp => hp, fun _ _ => Or.inl, fun ent' hent' name' v' hloads' => ?_⟩
    obtain ⟨rfl, -⟩ := hloads.unique (List.mem_singleton.mp hent' ▸ hloads')
    exact hold
  · refine ⟨_, hstores, fun name' p hp => ?_, fun name' p hp => ?_,
      fun ent' hent' name' v' hl => ?_⟩
    · rw [Function.update_of_ne, hp]
      rintro rfl
      rw [hnew] at hp
      cases hp
    · by_cases hname : name' = name
      · subst hname
        rw [Function.update_self] at hp
        exact Or.inr ⟨ent, List.mem_singleton_self _, version, hloads, addr,
          (Option.some.inj hp).symm⟩
      · rw [Function.update_of_ne hname] at hp
        exact Or.inl hp
    · obtain ⟨rfl, -⟩ := hloads.unique (List.mem_singleton.mp hent' ▸ hl)
      exact ⟨_, Function.update_self ..⟩

theorem populateEntries_loaded {ents : List Dirent} (h : pkgcache.Stores m)
    (hok : populateEntries pkgcache ents = .cache pkgcache') :
    ∃ m', pkgcache'.Stores m' ∧ Loaded m m' ents := by
  induction ents generalizing pkgcache m with
  | nil =>
    obtain rfl := Populated.cache.inj hok
    exact ⟨m, h, fun _ _ hp => hp, fun _ _ => Or.inl, fun ent hent => absurd hent List.not_mem_nil⟩
  | cons ent ents ih =>
    obtain ⟨pkgcache₁, hentry, hrun⟩ := populateEntries_cons hok
    obtain ⟨m₁, hstores₁, hfirst⟩ := populateEntry_loaded h hentry
    obtain ⟨m', hstores', hrest⟩ := ih hstores₁ hrun
    refine ⟨m', hstores', fun name p hp => hrest.kept name p (hfirst.kept name p hp),
      fun name p hp => ?_, fun ent' hent' name version hloads => ?_⟩
    · rcases hrest.new name p hp with hp | ⟨ent', hent', hnew⟩
      · refine (hfirst.new name p hp).imp_right ?_
        rintro ⟨ent', hent', hnew⟩
        exact ⟨ent', List.mem_singleton.mp hent' ▸ List.mem_cons_self .., hnew⟩
      · exact Or.inr ⟨ent', List.mem_cons_of_mem _ hent', hnew⟩
    · rcases List.mem_cons.mp hent' with rfl | hent'
      · obtain ⟨p, hp⟩ := hfirst.all _ (List.mem_singleton_self _) name version hloads
        exact ⟨p, hrest.kept name p hp⟩
      · exact hrest.all ent' hent' name version hloads

theorem Stores.relist {hash : Pkghash} (h : hash.Stores m) {list : List Pkg}
    (hperm : list.Perm hash.list) : Pkghash.Stores { hash with list } m where
  buckets_pos := h.buckets_pos
  limit_eq := h.limit_eq
  perm := h.perm.trans hperm.symm
  nodup := ((hperm.map Pkg.name).nodup_iff).mpr h.nodup
  entries_eq := h.entries_eq.trans hperm.length_eq.symm
  entries_le := h.entries_le
  reachable := h.reachable
  mem_iff p := hperm.mem_iff.trans (h.mem_iff p)
  name_eq := h.name_eq

theorem localDbPopulate_loaded {alloc : PkghashAlloc} {nlink : ℕ} {ents : List Dirent}
    (hok : localDbPopulate alloc nlink ents = .cache pkgcache) :
    ∃ m, pkgcache.Stores m ∧ Loaded (fun _ => none) m ents := by
  unfold localDbPopulate at hok
  simp only at hok
  split at hok
  · cases hok
  next empty hcreate =>
    split at hok
    next pkgcache' hrun =>
      obtain rfl := Populated.cache.inj hok
      obtain ⟨m, hstores, hloaded⟩ :=
        populateEntries_loaded (Pkghash.Run.create hcreate).stores hrun
      exact ⟨m, Stores.relist hstores (List.mergeSort_perm ..), hloaded⟩
    next failed hfailed => exact absurd hok (hfailed pkgcache)

end

/-! ## The invariant -/

/-- The copy that `_alpm_db_add_pkgincache` adds. -/
def cacheCopy (addr : ℕ) (info : Pkg) : Pkg := { info.copyAt addr with origin := .localdb }

/-- The files of the entry are those of the package, as `_alpm_local_db_write` writes them, with a
scriptlet if the package has one. -/
structure Records (entry : Entry) (info : Pkg) : Prop where
  desc : entry.desc = some (writeDesc info)
  files : entry.files = some (writeFiles info)
  install : entry.install = info.scriptlet

/-- What was written for a package is read back. -/
theorem localDbRead_of_records {entry : Entry} {info : Pkg} (h : Records entry info)
    (hwritable : Writable info) (addr : ℕ) :
    localDbRead entry (namedPkg addr info.name info.version) (infrqDesc ||| infrqFiles) =
      (0, stored info addr) := by
  have hsize : storedSize info.isize = info.isize := if_neg (not_lt.mpr hwritable.isize.1)
  have hdesc : readDesc { text := writeDesc info } (namedPkg addr info.name info.version) =
      readDepends info addr := by
    show readDesc _ { addr, name := info.name, version := info.version } = _
    rw [(hwritable.descWritable.reads_writeDesc addr).readDesc, hsize]
    rfl
  have hfiles := @readFiles_writeFiles info
    { readDepends info addr with infolevel := infrqDesc } hwritable rfl rfl
  exact localDbRead_of_read ⟨h.desc, h.files⟩ rfl hdesc rfl hfiles rfl

/-- The cache has the packages that were committed: copies of them, or what `local_db_populate`
makes of their directories. -/
def Caches (pkgcache : Pkghash) (committed : CString → Option Pkg) : Prop :=
  ∃ cached, pkgcache.Stores cached ∧ (∀ name, cached name = none ↔ committed name = none) ∧
    ∀ name p q, cached name = some p → committed name = some q →
      ∃ addr, p = namedPkg addr q.name q.version ∨ p = cacheCopy addr q

/-- **The invariant.**  The cache and the directory have the packages that were committed, and every
other entry of the directory is torn. -/
structure Holds (dirs : CString → Option Entry) (db : Groupcache.Db)
    (committed : CString → Option Pkg) (torn : List CString) : Prop where
  isLocal : db.isLocal
  loadable : ∀ name q, committed name = some q → q.name = name ∧ Loadable q
  owned : ∀ dir, dirs dir ≠ none →
    dir ∈ torn ∨ ∃ name q, committed name = some q ∧ dir = dirName q
  entry : ∀ name q, committed name = some q →
    ∃ entry, dirs (dirName q) = some entry ∧ Records entry q
  cache : Caches db.pkgcache committed

theorem update_none_eq_some {α : Type} {f : CString → Option α} {a b : CString} {c : α} :
    Function.update f a none b = some c ↔ b ≠ a ∧ f b = some c := by
  by_cases h : b = a
  · simp [h]
  · simp [h]

theorem update_some_eq_some {α : Type} {f : CString → Option α} {a b : CString} {v c : α} :
    Function.update f a (some v) b = some c ↔ b = a ∧ v = c ∨ b ≠ a ∧ f b = some c := by
  by_cases h : b = a
  · simp [h]
  · simp [h]

/-- Two maps that are undefined at the same names still are when they change at one name. -/
theorem update_eq_none_congr {α : Type} {f g : CString → Option α} {u v : Option α}
    (h : ∀ name, f name = none ↔ g name = none) (huv : u = none ↔ v = none) (a name : CString) :
    Function.update f a u name = none ↔ Function.update g a v name = none := by
  by_cases hname : name = a
  · subst hname
    rwa [Function.update_self, Function.update_self]
  · rw [Function.update_of_ne hname, Function.update_of_ne hname]
    exact h name

section

variable {dirs : CString → Option Entry} {db : Groupcache.Db} {committed : CString → Option Pkg}
  {torn : List CString} {d : Database}

theorem freeGroupcache_pkgcache (db : Groupcache.Db) :
    (freeGroupcache db).pkgcache = db.pkgcache ∧ (freeGroupcache db).isLocal = db.isLocal := by
  unfold freeGroupcache
  split_ifs <;> exact ⟨rfl, rfl⟩

theorem exists_cached {name : CString} {q : Pkg} (hq : committed name = some q)
    {cached : CString → Option Pkg}
    (hsame : ∀ name, cached name = none ↔ committed name = none) : ∃ p, cached name = some p := by
  refine Option.ne_none_iff_exists'.mp fun hnone => ?_
  rw [(hsame name).mp hnone] at hq
  cases hq

/-- Packages of different names have different directories. -/
theorem Holds.name_eq (h : Holds dirs db committed torn) {name name' : CString} {q q' : Pkg}
    (hq : committed name = some q) (hq' : committed name' = some q')
    (heq : dirName q = dirName q') : name = name' := by
  obtain ⟨rfl, hloadable⟩ := h.loadable name q hq
  obtain ⟨rfl, hloadable'⟩ := h.loadable name' q' hq'
  exact (hloadable.dirName_inj hloadable' heq).1

/-- **A removal** takes the cached package of the name out, and its entry or what can be removed of
it. What cannot be removed stays as a directory of no package, which the invariant counts as torn.
-/
theorem Holds.removeEntry (h : Holds dirs db committed torn) {left : Option Entry} {pkg q : Pkg}
    (hq : committed pkg.name = some q) (hversion : pkg.version = q.version)
    (hremove : LocalDb.removeEntry left pkg ⟨dirs, db⟩ = some d) :
    Holds d.dirs d.db (Function.update committed pkg.name none)
      (if left.isSome then dirName pkg :: torn else torn) := by
  obtain ⟨cached, hstores, hsame, hcopies⟩ := h.cache
  obtain ⟨pkgcache, hpkgcache, -, hstores'⟩ := hstores.remove pkg
  obtain ⟨p, hp⟩ := exists_cached hq hsame
  obtain ⟨⟨ret, db'⟩, hdb, rfl⟩ := Option.map_eq_some_iff.mp hremove
  obtain ⟨hcache, hisLocal⟩ : db'.pkgcache = pkgcache ∧ db'.isLocal = db.isLocal := by
    simp only [removePkgfromcache, hpkgcache, hp, Option.some.injEq, Prod.mk.injEq] at hdb
    rw [← hdb.2]
    exact freeGroupcache_pkgcache _
  -- the directory that goes
  have hdir : dirName pkg = dirName q := by
    unfold dirName
    rw [(h.loadable _ q hq).1, hversion]
  obtain ⟨entry, hentry, -⟩ := h.entry _ q hq
  have hdirs : (localDbRemove left dirs pkg).2 = Function.update dirs (dirName q) left := by
    unfold localDbRemove
    rw [hdir, hentry]
    rfl
  show Holds (localDbRemove left dirs pkg).2 db' _ _
  rw [hdirs, hdir]
  refine ⟨hisLocal.trans h.isLocal, fun name q' hq' => ?_, fun dir hthere => ?_,
    fun name q' hq' => ?_, _, hcache ▸ hstores', update_eq_none_congr hsame Iff.rfl _, ?_⟩
  · exact h.loadable name q' (update_none_eq_some.mp hq').2
  · have hmono : torn ⊆ if left.isSome then dirName q :: torn else torn := by
      split_ifs
      · exact List.subset_cons_self _ _
      · exact List.Subset.refl _
    by_cases hsame : dir = dirName q
    · -- what is left of the entry
      subst hsame
      rw [Function.update_self] at hthere
      rw [if_pos (Option.isSome_iff_ne_none.mpr hthere)]
      exact Or.inl (List.mem_cons_self ..)
    · rw [Function.update_of_ne hsame] at hthere
      refine (h.owned dir hthere).imp (fun htorn => hmono htorn) ?_
      rintro ⟨name, q', hq', rfl⟩
      refine ⟨name, q', update_none_eq_some.mpr ⟨?_, hq'⟩, rfl⟩
      rintro rfl
      exact hsame (congrArg dirName (Option.some.inj (hq'.symm.trans hq)))
  · obtain ⟨hname, hold⟩ := update_none_eq_some.mp hq'
    obtain ⟨entry', hentry', hrecords⟩ := h.entry name q' hold
    refine ⟨entry', ?_, hrecords⟩
    rw [Function.update_of_ne fun heq => hname (h.name_eq hold hq heq)]
    exact hentry'
  · exact fun name p' q' hp' hq' => hcopies name p' q' (update_none_eq_some.mp hp').2
      (update_none_eq_some.mp hq').2

theorem Holds.exists_removeEntry (h : Holds dirs db committed torn) (left : Option Entry)
    (pkg : Pkg) : ∃ d, LocalDb.removeEntry left pkg ⟨dirs, db⟩ = some d ∧
      d.db.pkgcache.buckets = db.pkgcache.buckets := by
  obtain ⟨cached, hstores, -⟩ := h.cache
  obtain ⟨pkgcache, hpkgcache, hbuckets, -⟩ := hstores.remove pkg
  unfold LocalDb.removeEntry removePkgfromcache
  rw [hpkgcache]
  cases cached pkg.name with
  | none => exact ⟨_, rfl, hbuckets⟩
  | some p => exact ⟨_, rfl, by rw [(freeGroupcache_pkgcache _).1]; exact hbuckets⟩

/-- What `_alpm_db_add_pkgincache` does to the cache of the local database, if the name is new. -/
theorem addPkgincache_spec {cached : CString → Option Pkg} {pkg : Pkg} (hlocal : db.isLocal)
    (hstores : db.pkgcache.Stores cached) (hnone : cached pkg.name = none) (outcome : DupOutcome)
    (alloc : PkghashAlloc) :
    ∃ ret db', addPkgincache outcome alloc db pkg = some (ret, db') ∧ db'.isLocal ∧
      (ret = -1 ∧ db'.pkgcache.Stores cached ∧
          ¬ ((∃ addr, outcome = .success addr) ∧ db.pkgcache.Roomy alloc) ∨
        ret = 0 ∧ ∃ addr,
          db'.pkgcache.Stores (Function.update cached pkg.name (some (cacheCopy addr pkg)))) := by
  unfold addPkgincache
  cases outcome with
  | fatal => exact ⟨_, _, rfl, hlocal, Or.inl ⟨rfl, hstores, by simp⟩⟩
  | nonfatal addr => exact ⟨_, _, rfl, hlocal, Or.inl ⟨rfl, hstores, by simp⟩⟩
  | success addr =>
    obtain ⟨ret, hash, hpkghash, hcase⟩ :=
      @Pkghash.Stores.add _ _ hstores alloc (cacheCopy addr pkg) true hnone
    replace hpkghash : pkghashAddSorted alloc db.pkgcache
        { pkg.copyAt addr with origin := .localdb } = some (ret, hash) := hpkghash
    simp only [pkgDup, if_pos hlocal]
    rw [hpkghash]
    rcases hcase with ⟨rfl, hkept, hfull⟩ | ⟨rfl, hadded, -⟩
    · exact ⟨_, _, rfl, hlocal, Or.inl ⟨rfl, hkept, fun h => hfull h.2⟩⟩
    · obtain ⟨hpkgcache, hisLocal⟩ := freeGroupcache_pkgcache { db with pkgcache := hash }
      refine ⟨_, _, rfl, hisLocal.trans hlocal, Or.inr ⟨rfl, addr, ?_⟩⟩
      rw [hpkgcache]
      exact hadded

theorem Holds.mono (h : Holds dirs db committed torn) {torn' : List CString}
    (hsub : torn ⊆ torn') : Holds dirs db committed torn' :=
  { h with owned := fun dir hthere => (h.owned dir hthere).imp_left fun htorn => hsub htorn }

/-- The directory of a package of a new name is not that of another package. -/
theorem Holds.dirName_ne (h : Holds dirs db committed torn) {newpkg : Pkg}
    (hnew : committed newpkg.name = none) (hloadable : Loadable newpkg) {name : CString} {q : Pkg}
    (hq : committed name = some q) : dirName q ≠ dirName newpkg := by
  intro heq
  obtain ⟨rfl, hloadable'⟩ := h.loadable name q hq
  rw [(hloadable'.dirName_inj hloadable heq).1, hnew] at hq
  cases hq

/-- **A commit that does not get to its end** leaves its directory behind, and no package of its
name in the cache. -/
theorem Holds.tear (h : Holds dirs db committed torn) {newpkg : Pkg}
    (hnew : committed newpkg.name = none) (hloadable : Loadable newpkg) (entry : Entry)
    {db' : Groupcache.Db} (hisLocal : db'.isLocal) (hcache : Caches db'.pkgcache committed) :
    Holds (Function.update dirs (dirName newpkg) (some entry)) db' committed
      (dirName newpkg :: torn) := by
  refine ⟨hisLocal, h.loadable, fun dir hthere => ?_, fun name q hq => ?_, hcache⟩
  · by_cases hdir : dir = dirName newpkg
    · exact Or.inl (hdir ▸ List.mem_cons_self ..)
    · rw [Function.update_of_ne hdir] at hthere
      exact (h.owned dir hthere).imp_left (List.mem_cons_of_mem _)
  · obtain ⟨entry', hentry', hrecords⟩ := h.entry name q hq
    refine ⟨entry', ?_, hrecords⟩
    rw [Function.update_of_ne (h.dirName_ne hnew hloadable hq)]
    exact hentry'

/-- **A commit that gets to its end** adds an entry and a cached package, and both have what was
committed. -/
theorem Holds.record (h : Holds dirs db committed torn) {newpkg : Pkg}
    (hnew : committed newpkg.name = none) (hloadable : Loadable newpkg) {entry : Entry}
    (hrecords : Records entry newpkg) {db' : Groupcache.Db} (hisLocal : db'.isLocal)
    (hcache : Caches db'.pkgcache (Function.update committed newpkg.name (some newpkg))) :
    Holds (Function.update dirs (dirName newpkg) (some entry)) db'
      (Function.update committed newpkg.name (some newpkg)) torn := by
  refine ⟨hisLocal, fun name q hq => ?_, fun dir hthere => ?_, fun name q hq => ?_, hcache⟩
  · rcases update_some_eq_some.mp hq with ⟨rfl, rfl⟩ | ⟨-, hold⟩
    · exact ⟨rfl, hloadable⟩
    · exact h.loadable name q hold
  · by_cases hdir : dir = dirName newpkg
    · exact Or.inr ⟨newpkg.name, newpkg, Function.update_self .., hdir⟩
    · rw [Function.update_of_ne hdir] at hthere
      refine (h.owned dir hthere).imp_right ?_
      rintro ⟨name, q, hq, rfl⟩
      refine ⟨name, q, update_some_eq_some.mpr (Or.inr ⟨?_, hq⟩), rfl⟩
      rintro rfl
      rw [hnew] at hq
      cases hq
  · rcases update_some_eq_some.mp hq with ⟨rfl, rfl⟩ | ⟨-, hold⟩
    · exact ⟨_, Function.update_self .., hrecords⟩
    · obtain ⟨entry', hentry', hrecords'⟩ := h.entry name q hold
      refine ⟨entry', ?_, hrecords'⟩
      rw [Function.update_of_ne (h.dirName_ne hnew hloadable hold)]
      exact hentry'

/-- None of the steps of a commit fails. -/
structure CommitEnv.Succeeds (env : CommitEnv) (buckets : ℕ) : Prop where
  left : env.left = none
  prepares : env.prepares
  enters : env.enters
  extracts : env.extracts
  descOpens : env.descOpens
  filesOpens : env.filesOpens
  copies : ∃ addr, env.outcome = .success addr
  alloc : env.alloc.hash ∧ env.alloc.table ∧ env.alloc.node
  /-- there is a prime for the table if it has to grow -/
  prime : rehashSize buckets * 100 / 58 + 1 < 976369

theorem CommitEnv.Succeeds.roomy {env : CommitEnv} {hash : Pkghash}
    (h : env.Succeeds hash.buckets) : hash.Roomy env.alloc :=
  ⟨h.alloc.2.2, fun _ => ⟨h.alloc.1, h.alloc.2.1, h.prime⟩⟩

/-- A commit stops with some entry in its new directory, or writes the entry and goes on. -/
theorem fillEntry_spec {env : CommitEnv} {newpkg : Pkg} (hshort : env.short = none)
    (dirs : CString → Option Entry) (db : Groupcache.Db) :
    (∃ entry, fillEntry env newpkg ⟨Function.update dirs (dirName newpkg) (some {}), db⟩ =
        some ⟨-1, none, Function.update dirs (dirName newpkg) (some entry), db⟩ ∧
      ¬ (env.enters ∧ env.descOpens ∧ env.filesOpens)) ∨
    ∃ entry, (env.scriptlet = newpkg.scriptlet → Records entry newpkg) ∧
      fillEntry env newpkg ⟨Function.update dirs (dirName newpkg) (some {}), db⟩ =
        (addPkgincache env.outcome env.alloc db newpkg).map fun added =>
          ⟨if env.extracts then 0 else -1, some added.1,
            Function.update dirs (dirName newpkg) (some entry), added.2⟩ := by
  unfold fillEntry writeEntry extractDbFiles
  simp only [Function.update_self, Option.map_some, Function.update_idem, Option.getD_some,
    Bool.false_or]
  cases henters : env.enters with
  | false => exact Or.inl ⟨_, rfl, by simp⟩
  | true =>
    cases hdesc : env.descOpens with
    | false => exact Or.inl ⟨_, rfl, by simp⟩
    | true =>
      cases hfiles : env.filesOpens with
      | false => exact Or.inl ⟨_, rfl, by simp⟩
      | true =>
        refine Or.inr ⟨localDbWrite { install := env.scriptlet } newpkg infrqAll,
          fun hscriptlet => ⟨rfl, rfl, hscriptlet⟩, ?_⟩
        rw [hshort]
        rfl

/-- **A commit of a new name** either records the package or leaves its directory behind, and it
records it if none of its steps fails and there is no such directory yet. -/
theorem Holds.addEntry (h : Holds dirs db committed torn) {env : CommitEnv} {newpkg : Pkg}
    (hnew : committed newpkg.name = none) (hloadable : Loadable newpkg)
    (hscriptlet : env.scriptlet = newpkg.scriptlet) (hshort : env.short = none) :
    ∃ c, LocalDb.addEntry env newpkg ⟨dirs, db⟩ = some c ∧
      (c.added = some 0 → Holds c.database.dirs c.database.db
        (Function.update committed newpkg.name (some newpkg)) torn) ∧
      (c.added ≠ some 0 → Holds c.database.dirs c.database.db committed
        ((if (c.database.dirs (dirName newpkg)).isSome then [dirName newpkg] else []) ++ torn)) ∧
      (env.Succeeds db.pkgcache.buckets → dirName newpkg ∉ torn →
        c.ret = 0 ∧ c.added = some 0) := by
  unfold LocalDb.addEntry localDbPrepare
  by_cases hprepare : (!env.prepares || (dirs (dirName newpkg)).isSome) = true
  · -- there is no new directory
    simp only [if_pos hprepare]
    refine ⟨⟨-1, none, dirs, db⟩, rfl, fun hadded => by simp at hadded,
      fun _ => h.mono (List.subset_append_right _ _), fun hsucceeds htorn => ?_⟩
    have hthere : dirs (dirName newpkg) ≠ none := by
      simpa [hsucceeds.prepares, Option.isSome_iff_ne_none] using hprepare
    obtain ⟨name, q, hq, heq⟩ := (h.owned _ hthere).resolve_left htorn
    exact absurd heq.symm (h.dirName_ne hnew hloadable hq)
  simp only [if_neg hprepare, ne_eq, not_true, if_false]
  rcases @fillEntry_spec env newpkg hshort dirs db with
    ⟨entry, hfill, hstops⟩ | ⟨entry, hrecords, hfill⟩
  · rw [hfill]
    refine ⟨_, rfl, fun hadded => by simp at hadded, fun _ => ?_, fun hsucceeds _ =>
      absurd ⟨hsucceeds.enters, hsucceeds.descOpens, hsucceeds.filesOpens⟩ hstops⟩
    simpa using h.tear hnew hloadable entry h.isLocal h.cache
  · obtain ⟨cached, hstores, hsame, hcopies⟩ := h.cache
    obtain ⟨ret, db', hadd, hisLocal, hcase⟩ := @addPkgincache_spec db cached newpkg h.isLocal
      hstores ((hsame _).mpr hnew) env.outcome env.alloc
    rw [hfill, hadd, Option.map_some]
    rcases hcase with ⟨rfl, hkept, hfull⟩ | ⟨rfl, addr, hadded⟩
    · refine ⟨_, rfl, fun hadded => by simp at hadded, fun _ => ?_, fun hsucceeds _ =>
        absurd ⟨hsucceeds.copies, hsucceeds.roomy⟩ hfull⟩
      simpa using h.tear hnew hloadable entry hisLocal ⟨cached, hkept, hsame, hcopies⟩
    · have hcache : Caches db'.pkgcache
          (Function.update committed newpkg.name (some newpkg)) := by
        refine ⟨_, hadded, update_eq_none_congr hsame (by simp) _, fun name p q hp hq => ?_⟩
        rcases update_some_eq_some.mp hp with ⟨rfl, rfl⟩ | ⟨hname, hp⟩
        · rw [Function.update_self] at hq
          rw [← Option.some.inj hq]
          exact ⟨addr, Or.inr rfl⟩
        · rw [Function.update_of_ne hname] at hq
          exact hcopies name p q hp hq
      exact ⟨_, rfl, fun _ => h.record hnew hloadable (hrecords hscriptlet) hisLocal hcache,
        fun hnot => absurd rfl hnot, fun hsucceeds _ => ⟨if_pos hsucceeds.extracts, rfl⟩⟩

/-! ## Reopening -/

/-- What `readdir` returns: an entry for every directory, besides others that are none.  The order
is any, and files and the two dots may stand anywhere. -/
structure Lists (dirs : CString → Option Entry) (ents : List Dirent) : Prop where
  dirent : ∀ ent ∈ ents, ent.isDir →
    ¬ (strcmp ent.name.target (str ".") = 0 ∨ strcmp ent.name.target (str "..") = 0) →
    dirs ent.name.target = some ent.entry
  all : ∀ dir, dirs dir ≠ none → ∃ ent ∈ ents, ent.isDir ∧ ent.name.target = dir

/-- The entry of the directory of a package that was committed is loaded as that package. -/
theorem loads_of_dirName {ent : Dirent} {q : Pkg} (hq : Loadable q) (hdir : ent.isDir)
    (hname : ent.name.target = dirName q) : ent.Loads q.name q.version := by
  have hpart : ent.name.part = q.name ++ '-' :: q.version :=
    part_of_dirName hq.name hq.version (by rw [hname, List.append_nil]) (Or.inl rfl)
  have hhyphen : '-' ∈ q.version := List.count_pos_iff.mp (by rw [hq.hyphen]; decide)
  refine ⟨hdir, not_dots_of_hyphen ?_, (splitname_part_iff hpart hq.named hhyphen).mpr hq.hyphen⟩
  rw [hname]
  simp [dirName]

/-- **A handle that is opened** has the packages that were committed, with their names and versions
only, when no directory was left behind: one that was would be loaded like any other. -/
theorem Holds.reopen (h : Holds dirs db committed torn) {alloc : PkghashAlloc} {nlink : ℕ}
    {ents : List Dirent} (hlists : Lists dirs ents) (hclean : ∀ dir ∈ torn, dirs dir = none)
    (hreopen : LocalDb.reopen alloc nlink ents ⟨dirs, db⟩ = some d) :
    Holds d.dirs d.db committed torn := by
  unfold LocalDb.reopen at hreopen
  split at hreopen
  next pkgcache hok =>
    obtain rfl := Option.some.inj hreopen
    obtain ⟨m, hstores, hloaded⟩ := localDbPopulate_loaded hok
    -- an entry that is loaded is one of a package
    have hentry : ∀ ent ∈ ents, ∀ name version, ent.Loads name version →
        ∃ q, committed name = some q ∧ q.name = name ∧ q.version = version := by
      intro ent hent name version hloads
      have hthere := hlists.dirent ent hent hloads.isDir hloads.dots
      obtain ⟨name', q, hq, heq⟩ := (h.owned ent.name.target (by simp [hthere])).resolve_left
        fun htorn => by simp [hclean _ htorn] at hthere
      obtain ⟨rfl, hq'⟩ := h.loadable name' q hq
      obtain ⟨rfl, rfl⟩ := hloads.unique (loads_of_dirName hq' hloads.isDir heq)
      exact ⟨q, hq, rfl, rfl⟩
    refine ⟨rfl, h.loadable, h.owned, h.entry, m, hstores,
      fun name => ⟨fun hnone => ?_, fun hnone => ?_⟩, fun name p q hp hq => ?_⟩
    · by_contra hsome
      obtain ⟨q, hq⟩ := Option.ne_none_iff_exists'.mp hsome
      obtain ⟨rfl, hq'⟩ := h.loadable name q hq
      obtain ⟨entry, hthere, -⟩ := h.entry _ q hq
      obtain ⟨ent, hent, hdir, heq⟩ := hlists.all (dirName q) (by simp [hthere])
      obtain ⟨p, hp⟩ := hloaded.all ent hent _ _ (loads_of_dirName hq' hdir heq)
      rw [hnone] at hp
      cases hp
    · by_contra hsome
      obtain ⟨p, hp⟩ := Option.ne_none_iff_exists'.mp hsome
      rcases hloaded.new name p hp with hp | ⟨ent, hent, version, hloads, -⟩
      · cases hp
      · obtain ⟨q, hq, -⟩ := hentry ent hent name version hloads
        rw [hnone] at hq
        cases hq
    · rcases hloaded.new name p hp with hp | ⟨ent, hent, version, hloads, addr, rfl⟩
      · cases hp
      · obtain ⟨q', hq', rfl, rfl⟩ := hentry ent hent name version hloads
        obtain rfl := Option.some.inj (hq.symm.trans hq')
        exact ⟨addr, Or.inl rfl⟩
  next => cases hreopen

end

/-! ## Every run -/

namespace Recorded

variable {s s' start : Recorded}

/-- The calls that transactions make.  What is written to a file that was opened gets there, and the
handle is not opened again when there is a directory that was left behind. -/
def Allowed (s : Recorded) : Event → Prop
  | .commit env newpkg oldpkg =>
    Loadable (installedAs env newpkg (s.oldVersion newpkg oldpkg)) ∧
      env.scriptlet = newpkg.scriptlet ∧ env.short = none ∧
      -- `oldpkg` is a copy of the installed package
      ∀ q, s.committed newpkg.name = some q →
        ∃ old, oldpkg = some old ∧ old.name = q.name ∧ old.version = q.version
  | .remove _ pkg => ∃ q, s.committed pkg.name = some q ∧ pkg.version = q.version
  | .reopen _ _ ents => Lists s.database.dirs ents ∧ ∀ dir ∈ s.torn, s.database.dirs dir = none

/-- The invariant of a run. -/
def Sound (s : Recorded) : Prop := Holds s.database.dirs s.database.db s.committed s.torn

/-- **A commit** records the package in the place of the one of its name, or leaves its directory
behind; and none of its steps fails for a reason that is in the database. -/
theorem Sound.commit (h : s.Sound) {env : CommitEnv} {newpkg : Pkg} {oldpkg : Option Pkg}
    (hallowed : s.Allowed (.commit env newpkg oldpkg)) :
    ∃ c, commitEntry env newpkg oldpkg s.database = some c ∧
      Holds c.database.dirs c.database.db
        (Function.update s.committed newpkg.name (s.recordedBy env newpkg oldpkg c))
        (s.tornBy env newpkg oldpkg c ++ s.torn) ∧
      (env.Succeeds s.database.db.pkgcache.buckets → dirName newpkg ∉ s.torn →
        c.ret = 0 ∧ c.added = some 0) := by
  obtain ⟨hloadable, hscriptlet, hshort, hold⟩ := hallowed
  obtain ⟨cached, hstores, hsame, -⟩ := h.cache
  unfold commitEntry recordedBy tornBy
  rw [hstores.find]
  cases hq : s.committed newpkg.name with
  | none =>
    rw [(hsame _).mpr hq]
    rw [show s.oldVersion newpkg oldpkg = none by rw [oldVersion, hq, Option.bind_none]]
      at hloadable ⊢
    obtain ⟨c, hadd, hrecorded, htorn, hsucceeds⟩ :=
      @Holds.addEntry _ _ _ _ h env (installedAs env newpkg none) hq hloadable hscriptlet hshort
    refine ⟨c, hadd, ?_, hsucceeds⟩
    simp only [Option.map_none, Option.toList_none, ite_self, List.append_nil]
    by_cases hadded : c.added = some 0
    · rw [if_pos hadded, if_pos hadded]
      exact hrecorded hadded
    · have hkept : Function.update s.committed newpkg.name none = s.committed := by
        rw [← hq, Function.update_eq_self]
      rw [if_neg hadded, if_neg hadded, hkept]
      exact htorn hadded
  | some q =>
    obtain ⟨old, rfl, hname, hversion⟩ := hold q hq
    rw [show s.oldVersion newpkg (some old) = some old by rw [oldVersion, hq, Option.bind_some]]
      at hloadable ⊢
    obtain ⟨p, hp⟩ := exists_cached hq hsame
    rw [hp]
    have hold' : old.name = newpkg.name := hname.trans (h.loadable _ q hq).1
    -- the old version goes first
    obtain ⟨d, hremove, hbuckets⟩ := h.exists_removeEntry env.left old
    have hgone := Holds.removeEntry h (hold' ▸ hq) hversion hremove
    rw [hold'] at hgone
    have hnew : Function.update s.committed newpkg.name none newpkg.name = none :=
      Function.update_self ..
    obtain ⟨c, hadd, hrecorded, htorn, hsucceeds⟩ :=
      @Holds.addEntry _ _ _ _ hgone env (installedAs env newpkg (some old)) hnew hloadable
        hscriptlet hshort
    rw [installedAs_name, Function.update_idem] at hrecorded
    have hall : (if env.left.isSome then dirName old :: s.torn else s.torn) =
        (if env.left.isSome then ((some old).map dirName).toList else []) ++ s.torn := by
      split_ifs <;> rfl
    rw [hall] at hrecorded htorn hsucceeds
    have hcommit : (LocalDb.removeEntry env.left old s.database).bind
        (LocalDb.addEntry env (installedAs env newpkg (some old))) = some c := by
      rw [show LocalDb.removeEntry env.left old s.database = some d from hremove]
      exact hadd
    refine ⟨c, hcommit, ?_, fun hall hdir => ?_⟩
    · by_cases hadded : c.added = some 0
      · rw [if_pos hadded, if_pos hadded]
        exact hrecorded hadded
      · rw [if_neg hadded, if_neg hadded, List.append_assoc]
        exact htorn hadded
    · rw [hbuckets] at hsucceeds
      refine hsucceeds hall ?_
      rw [hall.left]
      exact hdir

theorem Sound.step (h : s.Sound) {event : Event} (hallowed : s.Allowed event)
    (hstep : s.step event = some s') : s'.Sound := by
  cases event with
  | commit env newpkg oldpkg =>
    obtain ⟨c, hcommit, rfl⟩ := Option.map_eq_some_iff.mp hstep
    obtain ⟨c', hcommit', hholds, -⟩ := h.commit hallowed
    obtain rfl := Option.some.inj (hcommit.symm.trans hcommit')
    exact hholds
  | remove left pkg =>
    obtain ⟨d, hremove, rfl⟩ := Option.map_eq_some_iff.mp hstep
    obtain ⟨q, hq, hversion⟩ := hallowed
    exact Holds.removeEntry h hq hversion hremove
  | reopen alloc nlink ents =>
    obtain ⟨d, hreopen, rfl⟩ := Option.map_eq_some_iff.mp hstep
    exact Holds.reopen h hallowed.1 hallowed.2 hreopen

/-- **The database survives.**  After every run of commits, removals and reopenings on an empty
database, whichever of their steps fail, a package is found under a name if and only if one was
committed last.  What is found is a copy of it or just has its name and version; its entry in the
directory is read as what was committed; and what else is in the directory was left there by a
commit or a removal that failed.  The next commit records its package if none of its steps fails
and there is no such directory of its own. -/
theorem database_of_execution {alloc : PkghashAlloc} {size : ℕ}
    (hlocal : start.database.db.isLocal)
    (hcreate : pkghashCreate alloc size = some start.database.db.pkgcache)
    (hdirs : ∀ dir, start.database.dirs dir = none) (hempty : ∀ name, start.committed name = none)
    (hrun : Execution Recorded.step Allowed start s) :
    (∀ name, s.committed name = none → pkghashFind s.database.db.pkgcache name = some none) ∧
      (∀ name q, s.committed name = some q → ∃ p addr entry,
        pkghashFind s.database.db.pkgcache name = some (some p) ∧
        (p = namedPkg addr q.name q.version ∨ p = cacheCopy addr q) ∧
        s.database.dirs (dirName p) = some entry ∧ entry.install = q.scriptlet ∧
        localDbRead entry (namedPkg addr q.name q.version) (infrqDesc ||| infrqFiles) =
          (0, stored q addr)) ∧
      (∀ dir, s.database.dirs dir ≠ none →
        dir ∈ s.torn ∨ ∃ name q, s.committed name = some q ∧ dir = dirName q) ∧
      ∀ env newpkg oldpkg, s.Allowed (.commit env newpkg oldpkg) →
        env.Succeeds s.database.db.pkgcache.buckets → dirName newpkg ∉ s.torn →
          ∃ c, commitEntry env newpkg oldpkg s.database = some c ∧ c.ret = 0 ∧
            c.added = some 0 := by
  have hstart : start.Sound :=
    ⟨hlocal, by simp [hempty], by simp [hdirs], by simp [hempty], fun _ => none,
      (Pkghash.Run.create hcreate).stores, by simp [hempty], by simp⟩
  have h : s.Sound := hrun.invariant hstart fun _ _ _ h hallowed hstep => h.step hallowed hstep
  obtain ⟨cached, hstores, hsame, hcopies⟩ := h.cache
  refine ⟨fun name hnone => ?_, fun name q hq => ?_, h.owned,
    fun env newpkg oldpkg hallowed hsucceeds hdir => ?_⟩
  · rw [hstores.find, (hsame name).mpr hnone]
  · obtain ⟨p, hp⟩ := exists_cached hq hsame
    obtain ⟨entry, hentry, hrecords⟩ := h.entry name q hq
    obtain ⟨addr, hcase⟩ := hcopies name p q hp hq
    have hdir : dirName p = dirName q := by
      rcases hcase with rfl | rfl <;> rfl
    exact ⟨p, addr, entry, by rw [hstores.find, hp], hcase, hdir ▸ hentry, hrecords.install,
      localDbRead_of_records hrecords (h.loadable name q hq).2.writable addr⟩
  · obtain ⟨c, hcommit, -, hdone⟩ := h.commit hallowed
    exact ⟨c, hcommit, hdone hsucceeds hdir⟩

/-- A package cache with nothing in it. -/
def emptyCache : Pkghash := ((pkghashCreate ⟨true, true, true⟩ 0).getD
  ⟨fun _ => none, [], 0, 0, 0⟩)

/-- A database with nothing in it. -/
def emptyDatabase : Recorded where
  database := ⟨fun _ => none, { treename := str "local", isLocal := true, pkgcache := emptyCache }⟩
  committed _ := none

/-- The commit of `filesystem`. -/
def filesystemEnv : CommitEnv where
  scriptlet := false
  time := 1545000001
  outcome := .success 1
  alloc := ⟨true, true, true⟩

/-- The directory of the package `filesystem`, in memory. -/
def filesystemDir : Memory where
  before := []
  target := str "filesystem-2018.12-2"
  terminated := by decide
  addressable := by decide

theorem loadable_filesystem : Loadable filesystem :=
  ⟨by decide, by decide, by decide, by decide, writable_filesystem⟩

/-- What `readdir` returns after the commit. -/
def filesystemDirent : Dirent :=
  ⟨filesystemDir, true, localDbWrite {} filesystem infrqAll, some 2, ⟨true, true, true⟩⟩

/-- A newer version of `filesystem`. -/
def newerFilesystem : Pkg := { filesystem with version := str "2019.1-1" }

theorem loadable_newerFilesystem : Loadable newerFilesystem :=
  ⟨by decide, by decide, by decide, by decide,
    { writable_filesystem with
      strings := by decide +kernel
      fits_desc := Fits.of_length (by decide +kernel) }⟩

/-- `filesystem` is committed, and the handle opened again; or it is upgraded, and the `desc` file
of the new version cannot be opened. -/
theorem database_of_execution_filesystem :
    (∃ s : Recorded, Execution Recorded.step Allowed emptyDatabase s ∧
      ∃ p addr entry, pkghashFind s.database.db.pkgcache filesystem.name = some (some p) ∧
        (p = namedPkg addr filesystem.name filesystem.version ∨ p = cacheCopy addr filesystem) ∧
        s.database.dirs (dirName p) = some entry ∧ entry.install = filesystem.scriptlet ∧
        localDbRead entry (namedPkg addr filesystem.name filesystem.version)
          (infrqDesc ||| infrqFiles) = (0, stored filesystem addr)) ∧
    ∃ s : Recorded, Execution Recorded.step Allowed emptyDatabase s ∧
      s.torn = [dirName newerFilesystem] ∧
      s.database.dirs (dirName newerFilesystem) = some {} ∧
      pkghashFind s.database.db.pkgcache filesystem.name = some none := by
  have hcreate : pkghashCreate ⟨true, true, true⟩ 0 = some emptyCache := by
    have hsome : (pkghashCreate ⟨true, true, true⟩ 0).isSome := by decide +kernel
    obtain ⟨hash, hhash⟩ := Option.isSome_iff_exists.mp hsome
    rw [emptyCache, hhash, Option.getD_some]
  -- the commit
  have hends : (commitEntry filesystemEnv filesystem none emptyDatabase.database).map
      (fun c => (c.ret, c.added, c.database.dirs (dirName filesystem))) =
        some (0, some 0, some (localDbWrite {} filesystem infrqAll)) := by decide +kernel
  obtain ⟨c, hcommit, hc⟩ := Option.map_eq_some_iff.mp hends
  obtain ⟨-, hadded, hentry⟩ : c.ret = 0 ∧ c.added = some 0 ∧
      c.database.dirs (dirName filesystem) = some (localDbWrite {} filesystem infrqAll) := by
    simpa using hc
  have hallowed : emptyDatabase.Allowed (.commit filesystemEnv filesystem none) :=
    ⟨loadable_filesystem, rfl, rfl, fun q hq => absurd hq (by simp [emptyDatabase])⟩
  let committed := Function.update emptyDatabase.committed filesystem.name (some filesystem)
  have hstep : emptyDatabase.step (.commit filesystemEnv filesystem none) =
      some ⟨c.database, committed, []⟩ := by
    unfold Recorded.step
    simp only
    rw [hcommit, Option.map_some, recordedBy, if_pos hadded, tornBy, if_pos hadded]
    rfl
  have hrun := Execution.start.next hallowed hstep
  -- the directory is listed
  have hlists : Lists c.database.dirs [filesystemDirent] := by
    refine ⟨fun ent hent _ _ => ?_, fun dir hdir => ?_⟩
    · obtain rfl := List.mem_singleton.mp hent
      exact hentry
    · obtain ⟨-, -, howned, -⟩ :=
        database_of_execution rfl hcreate (fun _ => rfl) (fun _ => rfl) hrun
      obtain ⟨name, q, hq, rfl⟩ := (howned dir hdir).resolve_left List.not_mem_nil
      rcases update_some_eq_some.mp hq with ⟨-, rfl⟩ | ⟨-, hq⟩
      · exact ⟨_, List.mem_singleton.mpr rfl, rfl, rfl⟩
      · cases hq
  obtain ⟨pkgcache, hpopulate⟩ : ∃ pkgcache,
      localDbPopulate ⟨true, true, true⟩ 3 [filesystemDirent] = .cache pkgcache := by
    have hcache : (match localDbPopulate ⟨true, true, true⟩ 3 [filesystemDirent] with
      | .cache _ => true
      | _ => false) = true := by decide +kernel
    split at hcache
    next pkgcache hpopulate => exact ⟨pkgcache, hpopulate⟩
    next => cases hcache
  have hreopen : Recorded.step ⟨c.database, committed, []⟩
      (.reopen ⟨true, true, true⟩ 3 [filesystemDirent]) =
        some ⟨⟨c.database.dirs, ⟨c.database.db.treename, true, true, pkgcache, false, []⟩⟩,
          committed, []⟩ := by
    unfold Recorded.step LocalDb.reopen
    simp only [hpopulate, Option.map_some]
  have hallowed' : Recorded.Allowed ⟨c.database, committed, []⟩
      (.reopen ⟨true, true, true⟩ 3 [filesystemDirent]) := ⟨hlists, by simp⟩
  have hrun' := hrun.next hallowed' hreopen
  have hcommitted : committed filesystem.name = some filesystem := Function.update_self ..
  obtain ⟨-, hfound, -, -⟩ :=
    database_of_execution rfl hcreate (fun _ => rfl) (fun _ => rfl) hrun'
  refine ⟨⟨_, hrun', hfound filesystem.name filesystem hcommitted⟩, ?_⟩
  -- the upgrade that fails
  let env : CommitEnv := { filesystemEnv with descOpens := false }
  have hends : ((commitEntry filesystemEnv filesystem none emptyDatabase.database).bind fun c =>
      commitEntry env newerFilesystem (some filesystem) c.database).map
      (fun c => (c.ret, c.added, c.database.dirs (dirName newerFilesystem))) =
        some (-1, none, some {}) := by decide +kernel
  rw [hcommit, Option.bind_some] at hends
  obtain ⟨torn, htears, htorn⟩ := Option.map_eq_some_iff.mp hends
  obtain ⟨-, hadded', hentry'⟩ : torn.ret = -1 ∧ torn.added = none ∧
      torn.database.dirs (dirName newerFilesystem) = some {} := by
    simpa using htorn
  have hupgrade : Recorded.Allowed ⟨c.database, committed, []⟩
      (.commit env newerFilesystem (some filesystem)) := by
    refine ⟨loadable_newerFilesystem, rfl, rfl, fun q hq => ?_⟩
    obtain rfl := Option.some.inj (hcommitted.symm.trans hq)
    exact ⟨filesystem, rfl, rfl, rfl⟩
  have hstep' : Recorded.step ⟨c.database, committed, []⟩
      (.commit env newerFilesystem (some filesystem)) =
        some ⟨torn.database, Function.update committed filesystem.name none,
          [dirName newerFilesystem]⟩ := by
    unfold Recorded.step
    simp only
    have hnot : ¬ torn.added = some 0 := by simp [hadded']
    rw [htears, Option.map_some, recordedBy, if_neg hnot, tornBy, if_neg hnot,
      if_pos (by rw [hentry']; rfl)]
    rfl
  have hrun'' := hrun.next hupgrade hstep'
  obtain ⟨hgone, -⟩ := database_of_execution rfl hcreate (fun _ => rfl) (fun _ => rfl) hrun''
  have hnone : Function.update committed filesystem.name none filesystem.name = none :=
    Function.update_self ..
  exact ⟨_, hrun'', rfl, hentry', hgone filesystem.name hnone⟩

end Recorded

end Alpm.LocalDb
