import Alpm.Files.Backup

/-!
# Edited backup files in a transaction

The user has edited a file that is in the backup array of an installed package.  What becomes of his
content when packages are removed, upgraded and installed?

## 1.  Where the content goes

When the package is removed, the file is saved to its `.pacsave` name.  When it is upgraded, the
file is left where it is if the new version needs a backup of it, and saved otherwise.  A file in
`NoUpgrade` is never moved.  `content_kept` puts the removals (`Saves.removePackages_home`) and the
installations (`Saves.upgradePackages_kept`) together: after the commit the content is at the file
or at its `.pacsave` name.

## 2.  What gets in the way

Only the backup arrays of the package at hand are looked at.  So another target that has the file
must need a backup of it, another package that goes with the file (`Takes`) must save it as well,
and the other paths that are removed or extracted must keep apart from the file and from the names
that it is saved to.  Nor may the file be saved twice, with a new one in between: the second save
moves the first to a numbered name if it can, and else writes over it.

That is `Undisturbed`, which asks for no more than the transactions below force: each of its
conditions leaves out a transaction that passes the check for file conflicts and loses the content
(`content_kept_false`).
-/

namespace Alpm

namespace ConflictCheck

variable {check : ConflictCheck} {p1 : Pkg} {file : CString}

theorem mem_newfiles (hp1 : p1.files.Pairwise (· < ·))
    (hlocal : ∀ pkg ∈ check.localdb, pkg.files.Pairwise (· < ·)) :
    file ∈ check.newfiles p1 ↔
      file ∈ p1.files ∧ ∀ dbpkg ∈ pkgFind check.localdb p1.name, file ∉ dbpkg.files := by
  unfold newfiles
  cases hfind : pkgFind check.localdb p1.name with
  | none => simp
  | some dbpkg =>
    simp only [Option.mem_def, Option.some.injEq, forall_eq']
    exact mem_filelistDifference hp1 (hlocal dbpkg (pkgFind_eq_some hfind).1)

end ConflictCheck

/-! ## Transactions -/

/-- A transaction with neither `NOSAVE` nor `DBONLY`, on a system where nothing fails.  The old
version of a target is the copy that `_alpm_pkg_dup` makes of the installed package of its
name. -/
structure BackupTransaction where
  sys : System
  opts : FileOptions
  flags : TransFlags
  fs : FileSystem
  localdb : List Pkg
  remove : List Pkg
  add : List AddTarget
  extracts : sys.Extracts
  md5_injective : Function.Injective sys.md5
  canRemove : ∀ path, sys.canRemove path
  not_nosave : flags.nosave = false
  not_dbonly : flags.dbonly = false
  local_sorted : ∀ pkg ∈ localdb, pkg.files.Pairwise (· < ·)
  local_names : (localdb.map Pkg.name).Nodup
  remove_subset : remove ⊆ localdb
  target_sorted : ∀ target ∈ add, target.pkg.files.Pairwise (· < ·)
  add_names : (add.map (·.pkg.name)).Nodup
  oldpkg : ∀ target ∈ add, ∀ pkg ∈ pkgFind localdb target.pkg.name,
    ∃ addr, target.oldpkg = some (pkg.copyAt addr)

namespace BackupTransaction

open CommitContext

variable (tx : BackupTransaction)

/-- What `_alpm_db_find_fileconflicts` reads. -/
def check : ConflictCheck where
  sys := tx.sys
  opts := tx.opts
  fs := tx.fs
  localdb := tx.localdb
  upgrade := tx.add.map (·.pkg)
  rem := tx.remove

def ctx : CommitContext where
  sys := tx.sys
  opts := tx.opts
  flags := tx.flags
  skipRemove := tx.check.findFileconflicts.skipRemove

/-- The commit, when the targets are in the given order: the state at the end, and nothing if the
process crashes on the way. -/
def commit (order : List AddTarget) : Option CommitState :=
  let st := tx.ctx.commit tx.remove order tx.fs tx.localdb
  if st.crashed then none else some st

/-- The package is removed. -/
def Removed (name : CString) : Prop := name ∈ tx.remove.map Pkg.name

/-- The package is installed, or upgraded. -/
def Installed (name : CString) : Prop := name ∈ tx.add.map (·.pkg.name)

/-- The installed package that a target replaces. -/
def replaced (target : AddTarget) : Option Pkg :=
  if target.pkg.name ∈ tx.remove.map Pkg.name then none else pkgFind tx.localdb target.pkg.name

/-- The file matches `NoUpgrade`. -/
def NoUpgrade (file : CString) : Prop := fnmatchPatterns tx.sys tx.opts.noupgrade file = 0

/-- The file matches `NoExtract`. -/
def NoExtract (file : CString) : Prop := fnmatchPatterns tx.sys tx.opts.noextract file = 0

/-- No directory stands at the `.pacsave` name of the file. -/
def Room (file : CString) : Prop := tx.fs.node (pacsave file) ≠ some .dir

instance (name : CString) : Decidable (tx.Removed name) :=
  inferInstanceAs (Decidable (name ∈ _))

instance (name : CString) : Decidable (tx.Installed name) :=
  inferInstanceAs (Decidable (name ∈ _))

instance (file : CString) : Decidable (tx.NoUpgrade file) :=
  inferInstanceAs (Decidable (_ = _))

instance (file : CString) : Decidable (tx.NoExtract file) :=
  inferInstanceAs (Decidable (_ = _))

instance (file : CString) : Decidable (tx.Room file) :=
  inferInstanceAs (Decidable (_ ≠ _))

/-- A regular file in the backup array of an installed package, with another hash than the
recorded one. -/
structure Edited (owner : Pkg) (file content : CString) : Prop where
  installed : owner ∈ tx.localdb
  backup : EditedIn tx.sys file content owner
  node : tx.fs.node file = some (.file content)
  clean : CleanPath file
  parents : tx.fs.HasParents file

/-- The new version of a package keeps a path: it has the path, and lists it as a backup file. -/
def Keeps (name path : CString) : Prop :=
  ∃ target ∈ tx.add, target.pkg.name = name ∧ path ∈ target.pkg.files ∧
    (needbackup path target.pkg).isSome

/-- The transaction takes a path away with an installed package.  The package is removed, or
replaced by a version that does not keep the path. -/
structure Takes (pkg : Pkg) (path : CString) : Prop where
  installed : pkg ∈ tx.localdb
  mem : path ∈ pkg.files
  gone : tx.Removed pkg.name ∨ tx.Installed pkg.name ∧ ¬ tx.Keeps pkg.name path
  noupgrade : ¬ tx.NoUpgrade path

/-- The content may have to be saved, for some package goes with the file. -/
def MaySave (file : CString) : Prop := ∃ pkg, tx.Takes pkg file

/-- The content is saved with a removed package, before the first target is installed.  From then on
nothing is at the file, and a target may install it anew. -/
def SavedBefore (file : CString) : Prop :=
  tx.Room file ∧ ∃ pkg, tx.Removed pkg.name ∧ tx.Takes pkg file

/-- The content is saved with the old version of `owner`, before the target, its new version, is
extracted.  The last two fields say that the file does not change hands, for of a file that does the
old version is not removed. -/
structure SavedWith (owner : Pkg) (file : CString) (target : AddTarget) : Prop where
  upgrades : target.pkg.name = owner.name
  not_removed : ¬ tx.Removed owner.name
  takes : tx.Takes owner file
  room : tx.Room file
  others : ∀ other ∈ tx.add, other.pkg.name ≠ owner.name → ∀ path ∈ other.pkg.files,
    stripSlash path ≠ file
  sole : ∀ pkg ∈ tx.localdb, tx.Installed pkg.name → pkg.name ≠ owner.name → file ∉ pkg.files

/-- The transaction does not give the file away, does not remove it with another package, does not
save it twice, and keeps apart from it. -/
structure Undisturbed (owner : Pkg) (file content : CString) : Prop where
  /-- a target that has the file needs a backup of it, unless it is the new version of the owner, or
  the file is not installed or saved by then -/
  taken : ∀ target ∈ tx.add, file ∈ target.pkg.files →
    tx.SavedBefore file ∨ target.pkg.name = owner.name ∧ ¬ tx.Removed owner.name ∨
      Guarded tx.ctx file content target.pkg (tx.replaced target)
  /-- another package that goes with the file saves it as its owner does, unless the file is saved
  before the package is upgraded -/
  shared : ∀ pkg, tx.Takes pkg file → pkg.name ≠ owner.name →
    EditedIn tx.sys file content pkg ∨ tx.SavedBefore file ∧ ¬ tx.Removed pkg.name
  /-- when the old version of an upgraded package may save, it is the only one that goes with the
  file, or no other target puts anything there that it might save -/
  once : ∀ pkg, tx.Takes pkg file → ¬ tx.Removed pkg.name → (needbackup file pkg).isSome →
    (∀ other, tx.Takes other file → other.name = pkg.name) ∨
      ∀ target ∈ tx.add, target.pkg.name ≠ pkg.name → ∀ path ∈ target.pkg.files,
        ¬ tx.NoExtract path → ¬ Under file (stripSlash path)
  /-- the other paths that go, and the names that they are saved to -/
  old_paths : ∀ pkg path, tx.Takes pkg path → path ≠ file → RemovesApart file pkg path ∧
    (tx.MaySave file → stripSlash path ≠ pacsave file)
  /-- the other paths of the targets -/
  new_paths : ∀ target ∈ tx.add, ∀ path ∈ target.pkg.files, path ≠ file → ¬ tx.NoExtract path →
    (tx.SavedBefore file ∨ tx.SavedWith owner file target ∨ ¬ Under file (stripSlash path)) ∧
      (tx.MaySave file → ¬ Under (pacsave file) (stripSlash path))
  /-- the names that the other paths of the targets are installed to instead -/
  pacnew : ∀ target ∈ tx.add, ∀ path ∈ target.pkg.files, path ≠ file → ¬ tx.NoExtract path →
    tx.NoUpgrade path ∨ (backupHash target.pkg (tx.replaced target) path).isSome →
      ¬ Under (pacnew (stripSlash path)) file
  /-- what the archives hold as the new version of the file -/
  harmless : ∀ target ∈ tx.add, file ∈ target.pkg.files → ∀ entry ∈ target.archive,
    entry.pathname = file → tx.SavedBefore file ∨ tx.SavedWith owner file target ∨
      Harmless tx.ctx file entry.node

variable {tx} {owner : Pkg} {file content : CString}

theorem ctx_saves : tx.ctx.Saves where
  extracts := tx.extracts
  md5_injective := tx.md5_injective
  canRemove := tx.canRemove
  nosave := tx.not_nosave
  dbonly := tx.not_dbonly

theorem removed_of_mem {pkg : Pkg} (hpkg : pkg ∈ tx.remove) : tx.Removed pkg.name :=
  List.mem_map_of_mem hpkg

theorem installed_of_mem {target : AddTarget} (htarget : target ∈ tx.add) :
    tx.Installed target.pkg.name :=
  List.mem_map.mpr ⟨target, htarget, rfl⟩

theorem mem_replaced {target : AddTarget} {pkg : Pkg} (h : pkg ∈ tx.replaced target) :
    pkg ∈ tx.localdb ∧ pkg.name = target.pkg.name ∧ ¬ tx.Removed pkg.name := by
  unfold replaced at h
  split_ifs at h with hremoved
  · cases h
  · obtain ⟨hpkg, hname⟩ := pkgFind_eq_some h
    exact ⟨hpkg, hname, hname ▸ hremoved⟩

/-- What a target replaces after the removals is a copy of the installed package. -/
theorem replacedPkg_eq {target : AddTarget} (htarget : target ∈ tx.add) :
    replacedPkg (tx.remove.foldl (listRemove pkgCmp) tx.localdb) target = none ∧
        tx.replaced target = none ∨
      ∃ pkg addr, tx.replaced target = some pkg ∧
        replacedPkg (tx.remove.foldl (listRemove pkgCmp) tx.localdb) target =
          some (pkg.copyAt addr) := by
  unfold replaced
  rcases replacedPkg_removed tx.local_names (tx.oldpkg target htarget) with
    ⟨hnone, hno⟩ | ⟨pkg, addr, hremove, hfind, hcopy⟩
  · refine Or.inl ⟨hnone, ?_⟩
    split_ifs with hremove
    · rfl
    · exact hno hremove
  · exact Or.inr ⟨pkg, addr, by rw [if_neg hremove, hfind], hcopy⟩

theorem mem_replacedPkg {target : AddTarget} (htarget : target ∈ tx.add) {pkg : Pkg}
    (hpkg : pkg ∈ replacedPkg (tx.remove.foldl (listRemove pkgCmp) tx.localdb) target) :
    ∃ old ∈ tx.replaced target, ∃ addr, pkg = old.copyAt addr := by
  rcases replacedPkg_eq htarget with ⟨hnone, -⟩ | ⟨old, addr, hold, hcopy⟩
  · rw [hnone] at hpkg
    cases hpkg
  · rw [hcopy] at hpkg
    exact ⟨old, hold, addr, (Option.some.inj hpkg).symm⟩

/-- The copy has the backup array of the package. -/
theorem backupHash_replacedPkg {target : AddTarget} (htarget : target ∈ tx.add) (path : CString) :
    backupHash target.pkg (replacedPkg (tx.remove.foldl (listRemove pkgCmp) tx.localdb) target)
      path = backupHash target.pkg (tx.replaced target) path := by
  rcases replacedPkg_eq htarget with ⟨hnone, hnone'⟩ | ⟨old, addr, hold, hcopy⟩
  · rw [hnone, hnone']
  · rw [hcopy, hold]
    rfl

theorem shouldSkipFile_of_noUpgrade (h : tx.NoUpgrade file) (newpkg : Option Pkg) :
    tx.ctx.shouldSkipFile newpkg file := by
  have hmatch : fnmatchPatterns tx.ctx.sys tx.ctx.opts.noupgrade file = 0 := h
  simp [shouldSkipFile, hmatch]

/-- A path that is not skipped goes with the removed package. -/
theorem takes_of_removed {pkg : Pkg} {path : CString} (hpkg : pkg ∈ tx.remove)
    (hin : path ∈ pkg.files) (hskip : ¬ tx.ctx.shouldSkipFile none path) : tx.Takes pkg path where
  installed := tx.remove_subset hpkg
  mem := hin
  gone := Or.inl (removed_of_mem hpkg)
  noupgrade hnoupgrade := hskip (shouldSkipFile_of_noUpgrade hnoupgrade none)

/-- A path that is not skipped goes with the package that a target replaces. -/
theorem takes_of_replaced {target : AddTarget} (htarget : target ∈ tx.add) {pkg : Pkg}
    (hpkg : pkg ∈ tx.replaced target) {path : CString} (hin : path ∈ pkg.files)
    (hskip : ¬ tx.ctx.shouldSkipFile (some target.pkg) path) :
    tx.Takes pkg path ∧ ¬ tx.Removed pkg.name := by
  obtain ⟨hlocal, hname, hremoved⟩ := mem_replaced hpkg
  refine ⟨⟨hlocal, hin, Or.inr ⟨hname ▸ installed_of_mem htarget, ?_⟩,
    fun hnoupgrade => hskip (shouldSkipFile_of_noUpgrade hnoupgrade _)⟩, hremoved⟩
  rintro ⟨other, hother, hotherName, hnew, hbackup⟩
  obtain rfl := List.inj_on_of_nodup_map tx.add_names hother htarget (hotherName.trans hname)
  exact hskip (by simp [shouldSkipFile, hnew, hbackup])

/-- A package that goes with the file and is not removed is the one that a target replaces. -/
theorem Takes.replaced {pkg : Pkg} {path : CString} (htakes : tx.Takes pkg path)
    {target : AddTarget} (hname : target.pkg.name = pkg.name) (hremoved : ¬ tx.Removed pkg.name) :
    pkg ∈ tx.replaced target := by
  rw [BackupTransaction.replaced, if_neg (by rwa [hname]), hname]
  exact pkgFind_of_mem tx.local_names htakes.installed

/-- Before the file is saved, every package that goes with it saves it. -/
theorem Undisturbed.editedIn (h : tx.Undisturbed owner file content)
    (hedited : tx.Edited owner file content) {pkg : Pkg} (htakes : tx.Takes pkg file)
    (hnot : ¬ (tx.SavedBefore file ∧ ¬ tx.Removed pkg.name)) :
    EditedIn tx.sys file content pkg := by
  by_cases hname : pkg.name = owner.name
  · obtain rfl := List.inj_on_of_nodup_map tx.local_names htakes.installed hedited.installed hname
    exact hedited.backup
  · exact (h.shared pkg htakes hname).resolve_right hnot

/-- The copy of a package has its paths and its backup array. -/
theorem filesApart_copyAt {touched : Prop} {pkg : Pkg} {newpkg : Option Pkg}
    (h : FilesApart tx.ctx touched file pkg newpkg pkg.files) (addr : ℕ) :
    FilesApart tx.ctx touched file (pkg.copyAt addr) newpkg (pkg.copyAt addr).files where
  home path hpath hne hskip :=
    ⟨(h.home path hpath hne hskip).ne, (h.home path hpath hne hskip).saves⟩
  saved htouched path hpath hne hskip :=
    ⟨(h.saved htouched path hpath hne hskip).ne, (h.saved htouched path hpath hne hskip).saves⟩

theorem Undisturbed.filesApart (h : tx.Undisturbed owner file content) {pkg : Pkg}
    {newpkg : Option Pkg} (htakes : ∀ path ∈ pkg.files, ¬ tx.ctx.shouldSkipFile newpkg path →
      tx.Takes pkg path) : FilesApart tx.ctx (tx.MaySave file) file pkg newpkg pkg.files where
  home path hpath hne hskip := (h.old_paths pkg path (htakes path hpath hskip) hne).1
  saved hsave path hpath hne hskip :=
    (h.old_paths pkg path (htakes path hpath hskip) hne).1.pacsave
      ((h.old_paths pkg path (htakes path hpath hskip) hne).2 hsave)

/-- **The removals** of the transaction. -/
theorem removePackages_kept (hedited : tx.Edited owner file content)
    (h : tx.Undisturbed owner file content) :
    Home (tx.MaySave file) (tx.Room file) (tx.ctx.removePackages tx.remove
        { fs := tx.fs, localdb := tx.localdb }).fs file content ∧
        (∀ pkg ∈ tx.remove, file ∈ pkg.files → tx.ctx.shouldSkipFile none file ∨ ¬ tx.Room file) ∨
      (tx.MaySave file ∧ ∃ pkg ∈ tx.remove, file ∈ pkg.files ∧
          ¬ tx.ctx.shouldSkipFile none file) ∧
        Holds (tx.ctx.removePackages tx.remove { fs := tx.fs, localdb := tx.localdb }).fs
          (CommitContext.pacsave file) content ∧
        (tx.ctx.removePackages tx.remove { fs := tx.fs, localdb := tx.localdb }).fs.node file =
          none := by
  refine ctx_saves.removePackages_home hedited.clean (fun pkg hpkg => ?_) rfl
    ⟨⟨hedited.parents, hedited.node⟩, fun _ hroom => hroom⟩
  refine ⟨h.filesApart fun path => takes_of_removed hpkg, fun hin => ?_⟩
  by_cases hskip : tx.ctx.shouldSkipFile none file
  · exact Or.inl hskip
  have htakes := takes_of_removed hpkg hin hskip
  exact Or.inr ⟨⟨pkg, htakes⟩,
    h.editedIn hedited htakes fun hnot => hnot.2 (removed_of_mem hpkg)⟩

/-- When the removals leave the file where it is, they were not to save it. -/
theorem not_savedBefore (hskip : ∀ pkg ∈ tx.remove, file ∈ pkg.files →
    tx.ctx.shouldSkipFile none file ∨ ¬ tx.Room file) : ¬ tx.SavedBefore file := by
  rintro ⟨hroom, pkg, hremoved, htakes⟩
  obtain ⟨removed, hpkg, hname⟩ := List.mem_map.mp hremoved
  obtain rfl := List.inj_on_of_nodup_map tx.local_names (tx.remove_subset hpkg) htakes.installed
    hname
  have hskip := (hskip removed hpkg htakes.mem).resolve_right (not_not_intro hroom)
  have hmatch : ¬ fnmatchPatterns tx.ctx.sys tx.ctx.opts.noupgrade file = 0 := htakes.noupgrade
  have hmoved : file ∈ tx.ctx.skipRemove := by simpa [shouldSkipFile, hmatch] using hskip
  exact (ConflictCheck.moved_of_mem_skipRemove hmoved).not_removed
    (List.any_eq_true.mpr ⟨removed, hpkg, by simpa using htakes.mem⟩)

/-- **A target while the file is where it was**: it leaves the file there, or its old version saves
it. -/
theorem extractsHome (hedited : tx.Edited owner file content)
    (h : tx.Undisturbed owner file content) (hsaved : ¬ tx.SavedBefore file) {target : AddTarget}
    (htarget : target ∈ tx.add) (hwith : ¬ tx.SavedWith owner file target) :
    ExtractsHome tx.ctx file content target
      (replacedPkg (tx.remove.foldl (listRemove pkgCmp) tx.localdb) target) where
  guarded hin := by
    unfold Guarded
    rw [backupHash_replacedPkg htarget]
    rcases (h.taken target htarget hin).resolve_left hsaved with ⟨hname, hremoved⟩ | hguard
    · -- the new version of the owner is guarded by the hash of the old one
      have hold : tx.replaced target = some owner := by
        rw [replaced, if_neg (by rwa [hname]), hname]
        exact pkgFind_of_mem tx.local_names hedited.installed
      obtain ⟨backup, hash, hneed, hrecorded, hhash⟩ := hedited.backup
      refine Or.inr (Or.inr ⟨backup.hash, ?_, ?_⟩)
      · rw [hold, backupHash, Option.bind_some, hneed]
      · rw [hrecorded]
        exact fun heq => hhash (Option.some.inj heq)
    · exact hguard
  harmless hin entry hentry heq :=
    ((h.harmless target htarget hin entry hentry heq).resolve_left hsaved).resolve_left hwith
  apart path hpath hne hnoextract :=
    { below := ((h.new_paths target htarget path hpath hne hnoextract).1.resolve_left
        hsaved).resolve_left hwith
      pacnew := by
        rw [backupHash_replacedPkg htarget]
        exact h.pacnew target htarget path hpath hne hnoextract }

theorem extractsSaved (h : tx.Undisturbed owner file content) {target : AddTarget}
    (htarget : target ∈ tx.add) (hsave : tx.MaySave file) :
    ExtractsSaved tx.ctx file target
      (replacedPkg (tx.remove.foldl (listRemove pkgCmp) tx.localdb) target) := by
  intro path hpath hne hnoextract
  refine ExtractsApart.pacsave ((h.new_paths target htarget path hpath hne hnoextract).2 hsave) ?_
  rw [backupHash_replacedPkg htarget]
  exact h.pacnew target htarget path hpath hne hnoextract

theorem extractsOff (h : tx.Undisturbed owner file content) {target : AddTarget}
    (htarget : target ∈ tx.add) (hoff : ∀ path ∈ target.pkg.files, ¬ tx.NoExtract path →
      ¬ Under file (stripSlash path)) (hclean : CleanPath file) :
    ExtractsOff tx.ctx file target
      (replacedPkg (tx.remove.foldl (listRemove pkgCmp) tx.localdb) target) := by
  intro path hpath hnoextract
  refine ⟨hoff path hpath hnoextract, ?_⟩
  rw [backupHash_replacedPkg htarget]
  refine h.pacnew target htarget path hpath ?_ hnoextract
  rintro rfl
  exact hoff path hpath hnoextract (by rw [stripSlash_of_not hclean.not_hasSlash]; exact .refl _)

/-- The old version of the owner saves the file, when no other target is to have it. -/
theorem not_skipped {target : AddTarget}
    (htarget : target ∈ tx.add) (hwith : tx.SavedWith owner file target) :
    ¬ tx.ctx.shouldSkipFile (some target.pkg) file := by
  have hmatch : ¬ fnmatchPatterns tx.ctx.sys tx.ctx.opts.noupgrade file = 0 :=
    hwith.takes.noupgrade
  have hnew : (needbackup file target.pkg).isSome → file ∉ target.pkg.files := fun hbackup hin =>
    (hwith.takes.gone.resolve_left hwith.not_removed).2
      ⟨target, htarget, hwith.upgrades, hin, hbackup⟩
  suffices hmoved : file ∉ tx.ctx.skipRemove by
    simpa [shouldSkipFile, hmatch, hmoved] using hnew
  intro hmoved
  obtain ⟨p1, hp1, hhands, filestr, hfilestr, hstrip⟩ :=
    (ConflictCheck.moved_of_mem_skipRemove hmoved).hands
  obtain ⟨other, hother, rfl⟩ := List.mem_map.mp hp1
  have hin := ((@ConflictCheck.mem_newfiles tx.check other.pkg filestr
    (tx.target_sorted other hother) tx.local_sorted).mp hfilestr).1
  by_cases hname : other.pkg.name = owner.name
  swap
  · exact hwith.others other hother hname filestr hin hstrip
  -- it is new in the new version of the owner, so the old version of a third package has it
  obtain ⟨p2, hp2, hold⟩ := List.any_eq_true.mp hhands
  obtain ⟨third, hthird, rfl⟩ := List.mem_map.mp hp2
  rw [Bool.and_eq_true, decide_eq_true_eq] at hold
  obtain ⟨hne, hold⟩ := hold
  cases hfind : pkgFind tx.localdb third.pkg.name with
  | none =>
    have hnone : pkgFind tx.check.localdb third.pkg.name = none := hfind
    simp [hnone] at hold
  | some pkg =>
    have hsome : pkgFind tx.check.localdb third.pkg.name = some pkg := hfind
    have hfile : file ∈ pkg.files := by simpa [hsome] using hold
    obtain ⟨hlocal, hpkgName⟩ := pkgFind_eq_some hfind
    have hthirdName : pkg.name ≠ owner.name := by
      rw [hpkgName, ← hname]
      exact fun heq => hne (by rw [List.inj_on_of_nodup_map tx.add_names hthird hother heq])
    exact hwith.sole pkg hlocal (hpkgName ▸ installed_of_mem hthird) hthirdName hfile

/-- The targets, in any order, after the removals: what `Undisturbed` says of them. -/
theorem upgradesApart (hedited : tx.Edited owner file content)
    (h : tx.Undisturbed owner file content) {order : List AddTarget} (hperm : order.Perm tx.add) :
    UpgradesApart tx.ctx (tx.MaySave file) file
      (tx.remove.foldl (listRemove pkgCmp) tx.localdb) order where
  names := (hperm.map _).nodup_iff.mpr tx.add_names
  saved target htarget := extractsSaved h (hperm.subset htarget)
  old target htarget pkg hpkg := by
    have htarget := hperm.subset htarget
    obtain ⟨old, hold, addr, rfl⟩ := mem_replacedPkg htarget hpkg
    exact ⟨(mem_replaced hold).2.1, filesApart_copyAt (h.filesApart fun path hin hskip =>
      (takes_of_replaced htarget hold hin hskip).1) addr⟩
  once := by
    rintro target htarget ⟨pkg, hpkg, hin, hskip, hbackup⟩
    have htarget := hperm.subset htarget
    obtain ⟨old, hold, addr, rfl⟩ := mem_replacedPkg htarget hpkg
    obtain ⟨htakes, hremoved⟩ := takes_of_replaced htarget hold hin hskip
    have hname := (mem_replaced hold).2.1
    refine (h.once old htakes hremoved hbackup).imp (fun hsole other hother hne => ?_)
      fun hoff other hother hne => ?_
    · rintro ⟨pkg, hpkg, hin, hskip⟩
      have hother := hperm.subset hother
      obtain ⟨old', hold', addr', rfl⟩ := mem_replacedPkg hother hpkg
      refine hne ?_
      rw [← (mem_replaced hold').2.1, ← hname]
      exact hsole old' (takes_of_replaced hother hold' hin hskip).1
    · have hother := hperm.subset hother
      exact extractsOff h hother (hoff other hother (by rwa [hname])) hedited.clean

/-- When a removed package has saved the file, the targets do not save over it: an old version among
them that might do so is not alone with the file, so no other target puts anything there. -/
theorem savedOnce (hedited : tx.Edited owner file content)
    (h : tx.Undisturbed owner file content) {order : List AddTarget} (hperm : order.Perm tx.add)
    {removed : Pkg} (hremoved : removed ∈ tx.remove) (htakes : tx.Takes removed file)
    {fs : FileSystem} (hnone : fs.node file = none) :
    SavedOnce tx.ctx file fs (tx.remove.foldl (listRemove pkgCmp) tx.localdb) order := by
  rintro target htarget ⟨pkg, hpkg, hin, hskip, hbackup⟩
  refine ⟨hnone, fun other hother hne => ?_⟩
  have htarget := hperm.subset htarget
  have hother := hperm.subset hother
  obtain ⟨old, hold, addr, rfl⟩ := mem_replacedPkg htarget hpkg
  obtain ⟨hagain, hnotRemoved⟩ := takes_of_replaced htarget hold hin hskip
  have hoff := (h.once old hagain hnotRemoved hbackup).resolve_left fun hsole =>
    hnotRemoved (hsole removed htakes ▸ removed_of_mem hremoved)
  exact extractsOff h hother (hoff other hother (by rwa [(mem_replaced hold).2.1])) hedited.clean

/-- A path is cut at one of its slashes. -/
theorem exists_cut {dir rest path : CString} (h : path = dir ++ '/' :: rest) :
    ∃ n < path.length, path.drop n = '/' :: path.drop (n + 1) ∧ path.take n = dir ∧
      path.drop (n + 1) = rest := by
  subst h
  refine ⟨dir.length, by simp, ?_⟩
  rw [List.drop_left, List.take_left, List.drop_append, List.drop_eq_nil_of_le (by omega)]
  simp

instance (path : CString) : Decidable (CleanPath path) :=
  decidable_of_iff (∀ n < path.length, path.drop n = '/' :: path.drop (n + 1) →
      path.take n ≠ [] ∧ path.drop (n + 1) ≠ [] ∧ deref (path.drop (n + 1)) ≠ '/') <| by
    constructor
    · intro h dir rest heq
      obtain ⟨n, hn, hslash, rfl, rfl⟩ := exists_cut heq
      exact h n hn hslash
    · intro h n _ hslash
      exact h _ _ (by rw [← hslash, List.take_append_drop])

instance (fs : FileSystem) (path : CString) : Decidable (fs.HasParents path) :=
  decidable_of_iff (∀ n < path.length, path.drop n = '/' :: path.drop (n + 1) →
      fs.node (path.take n) = some .dir) <| by
    constructor
    · rintro h dir ⟨rest, heq⟩
      obtain ⟨n, hn, hslash, rfl, -⟩ := exists_cut (heq.symm.trans (List.append_cons ..).symm)
      exact h n hn hslash
    · intro h n _ hslash
      refine h _ ⟨path.drop (n + 1), ?_⟩
      rw [List.append_assoc, List.singleton_append, ← hslash, List.take_append_drop]

/-- A system without links, with patterns that are names, where no numbered `.pacsave` file is found
and a regular expression must close its parentheses. -/
def namesSystem : System :=
  { RegularTransaction.plainSystem with
    fnmatch := fun pattern string => pattern = string
    regcomp := fun pattern =>
      if pattern.count '(' = pattern.count ')' then some fun _ => false else none }

theorem namesSystem_extracts : namesSystem.Extracts where
  frame := fun _ _ _ _ hpath _ =>
    FileSystem.set_node_of_ne fun heq => hpath (Or.inl heq)
  file := fun _ _ _ _ => FileSystem.set_node_self

/-- What stands in a directory `etc`. -/
def etcFiles (nodes : List (CString × Node)) : FileSystem :=
  nodes.foldl (fun fs entry => fs.set entry.1 (some entry.2))
    (FileSystem.empty.set (str "etc") (some .dir))

/-- An installed package with one file, whose recorded hash is `a`. -/
def etcOwner (name file : CString) : Pkg where
  name
  version := str "1-1"
  files := [file]
  backup := [{ name := file, hash := some (str "a") }]

/-- An installed package with one file and no backup array. -/
def etcOther (file : CString) : Pkg := { etcOwner (str "other") file with backup := [] }

/-- A target with files of content `c` and directories. -/
def etcTarget (name : CString) (files : List CString) (backup : List Backup)
    (oldpkg : Option Pkg) : AddTarget where
  pkg := { name, version := str "2-1", files, backup, origin := .file }
  oldpkg
  archive := files.map fun file => ⟨file, if hasSlash file then .dir else .file (str "c")⟩

def etcTransaction (nodes : List (CString × Node)) (opts : FileOptions)
    (localdb remove : List Pkg) (add : List AddTarget)
    (hlocal : (∀ pkg ∈ localdb, pkg.files.Pairwise (· < ·)) ∧ (localdb.map Pkg.name).Nodup ∧
      ∀ pkg ∈ remove, pkg ∈ localdb)
    (hadd : (∀ target ∈ add, target.pkg.files.Pairwise (· < ·)) ∧
      (add.map (·.pkg.name)).Nodup ∧ ∀ target ∈ add, ∀ pkg ∈ pkgFind localdb target.pkg.name,
        target.oldpkg = some (pkg.copyAt 0)) : BackupTransaction where
  sys := namesSystem
  opts
  flags := {}
  fs := etcFiles nodes
  localdb
  remove
  add
  extracts := namesSystem_extracts
  md5_injective := fun _ _ heq => heq
  canRemove := fun _ => rfl
  not_nosave := rfl
  not_dbonly := TransFlags.not_dbonly_default
  local_sorted := hlocal.1
  local_names := hlocal.2.1
  remove_subset := hlocal.2.2
  target_sorted := hadd.1
  add_names := hadd.2.1
  oldpkg := fun target htarget pkg hpkg => ⟨0, hadd.2.2 target htarget pkg hpkg⟩

/-- An edited backup file is nowhere after the commit, though no conflict was reported. -/
structure Loses (tx : BackupTransaction) (owner : Pkg) (file content : CString) : Prop where
  edited : tx.Edited owner file content
  conflicts : tx.check.findFileconflicts.conflicts = []
  lost : ∃ st ∈ tx.commit tx.add, ∀ path, st.fs.node path ≠ some (.file content)

/-- It is enough to look at the paths that are in use. -/
theorem loses_of_paths {tx : BackupTransaction} {owner : Pkg} {file content : CString}
    (hedited : tx.Edited owner file content) (hnil : tx.check.findFileconflicts.conflicts = [])
    (hpaths : (tx.commit tx.add).any fun st =>
      st.fs.paths.all fun path => st.fs.node path ≠ some (.file content)) :
    tx.Loses owner file content where
  edited := hedited
  conflicts := hnil
  lost := by
    obtain ⟨st, hst, hpaths⟩ := (Option.any_eq_true _ _).mp hpaths
    refine ⟨st, hst, fun path hnode => ?_⟩
    have hpath := List.all_eq_true.mp hpaths path (st.fs.mem_paths path (by simp [hnode]))
    exact of_decide_eq_true hpath hnode

/-- The content `b` of a file of `owner`, whose recorded hash is another one. -/
theorem etcOwner_edited {tx : BackupTransaction} {name file : CString}
    (howner : etcOwner name file ∈ tx.localdb) (hsys : tx.sys.md5 = id)
    (hnode : tx.fs.node file = some (.file (str "b"))) (hclean : CleanPath file)
    (hparents : tx.fs.HasParents file) : tx.Edited (etcOwner name file) file (str "b") where
  installed := howner
  backup := by
    refine ⟨⟨file, some (str "a")⟩, str "a", ?_, rfl, by rw [hsys]; decide⟩
    simp [needbackup, etcOwner]
  node := hnode
  clean := hclean
  parents := hparents

/-- The edited file of the transactions below. -/
def etcX : CString := str "etc/x"

/-- A file with a name that is no regular expression, so that `shift_pacsave` makes no room. -/
def etcParen : CString := str "etc/x("

/-- `taken`: the file is overwritten by a package without a backup of it, with `--overwrite`. -/
def overwritten : BackupTransaction :=
  etcTransaction [(etcX, .file (str "b"))] { overwriteFiles := [etcX] }
    [etcOwner (str "old") etcX] [] [etcTarget (str "new") [etcX] [] none]
    (by decide +kernel) (by decide +kernel)

/-- `taken`: the file moves to a package without a backup of it. -/
def givenAway : BackupTransaction :=
  etcTransaction [(etcX, .file (str "b"))] {} [etcOwner (str "old") etcX] []
    [etcTarget (str "new") [etcX] [] none,
      etcTarget (str "old") [str "etc/y"] [] (some (etcOwner (str "old") etcX))]
    (by decide +kernel) (by decide +kernel)

/-- `taken`: the replaced version of another package records the hash of the edited content. -/
def recordedElsewhere : BackupTransaction :=
  let other := { etcOther (str "etc/y") with backup := [{ name := etcX, hash := some (str "b") }] }
  etcTransaction [(etcX, .file (str "b"))] { overwriteFiles := [etcX] }
    [etcOwner (str "old") etcX, other] []
    [etcTarget (str "other") [etcX] [{ name := etcX, hash := none }] (some other)]
    (by decide +kernel) (by decide +kernel)

/-- `taken`, with a directory at the `.pacsave` name, so that the removed package cannot save the
file. -/
def noRoom : BackupTransaction :=
  etcTransaction [(etcParen, .file (str "b")), (pacsave etcParen, .dir)] {}
    [etcOwner (str "old") etcParen] [etcOwner (str "old") etcParen]
    [etcTarget (str "new") [etcParen] [] none] (by decide +kernel) (by decide +kernel)

/-- `harmless`: the archive of the new version has a directory of the name. -/
def dirEntry : BackupTransaction :=
  etcTransaction [(etcX, .file (str "b"))] {} [etcOwner (str "old") etcX] []
    [{ etcTarget (str "old") [etcX] [{ name := etcX, hash := none }]
        (some (etcOwner (str "old") etcX)) with archive := [⟨etcX, .dir⟩] }]
    (by decide +kernel) (by decide +kernel)

/-- `harmless`: the archive of the new version has a link of the name.  Its MD5 sum is that of what
it leads to, which is the edited file itself; so the link is moved over the file, as one that is the
same. -/
def linkEntry : BackupTransaction :=
  { etcTransaction [(etcX, .file (str "b"))] {} [etcOwner (str "old") etcX] []
      [{ etcTarget (str "old") [etcX] [{ name := etcX, hash := none }]
          (some (etcOwner (str "old") etcX)) with archive := [⟨etcX, .link (str "x")⟩] }]
      (by decide +kernel) (by decide +kernel) with
    sys := { namesSystem with
      linkMd5 := fun fs _ =>
        if fs.node etcX = some (.file (str "b")) then some (str "b") else none }
    extracts :=
      { frame := namesSystem_extracts.frame
        file := namesSystem_extracts.file }
    md5_injective := fun _ _ heq => heq
    canRemove := fun _ => rfl }

/-- `shared`: the file is also that of a package that is removed. -/
def sharedFile : BackupTransaction :=
  etcTransaction [(etcX, .file (str "b"))] {} [etcOwner (str "old") etcX, etcOther etcX]
    [etcOther etcX] [] (by decide +kernel) (by decide +kernel)

/-- `shared`: the file is also that of a package that is upgraded. -/
def sharedUpgraded : BackupTransaction :=
  etcTransaction [(etcX, .file (str "b"))] {} [etcOwner (str "old") etcX, etcOther etcX] []
    [etcTarget (str "other") [] [] (some (etcOther etcX))] (by decide +kernel) (by decide +kernel)

/-- `once`: two packages save the file, with a new version of it in between. -/
def savedTwice : BackupTransaction :=
  etcTransaction [(etcParen, .file (str "b"))] {}
    [etcOwner (str "old") etcParen, etcOwner (str "other") etcParen] []
    [etcTarget (str "old") [etcParen] [] (some (etcOwner (str "old") etcParen)),
      etcTarget (str "other") [] [] (some (etcOwner (str "other") etcParen))]
    (by decide +kernel) (by decide +kernel)

/-- `once`: the file is saved with a removed package, installed anew and saved again. -/
def savedAgain : BackupTransaction :=
  etcTransaction [(etcParen, .file (str "b"))] {}
    [etcOwner (str "old") etcParen, etcOwner (str "other") etcParen] [etcOwner (str "old") etcParen]
    [etcTarget (str "new") [etcParen] [] none,
      etcTarget (str "other") [] [] (some (etcOwner (str "other") etcParen))]
    (by decide +kernel) (by decide +kernel)

/-- `old_paths`: a removed package has a directory of the name. -/
def dirRemoved : BackupTransaction :=
  etcTransaction [(etcX, .file (str "b"))] {}
    [etcOwner (str "old") etcX, etcOther (etcX ++ str "/")] [etcOther (etcX ++ str "/")] []
    (by decide +kernel) (by decide +kernel)

/-- `old_paths`: a removed package has a file of the `.pacsave` name. -/
def pacsaveRemoved : BackupTransaction :=
  etcTransaction [(etcX, .file (str "b"))] {}
    [etcOwner (str "old") etcX, etcOther (pacsave etcX)]
    [etcOwner (str "old") etcX, etcOther (pacsave etcX)] [] (by decide +kernel) (by decide +kernel)

/-- `old_paths`: the file has the `.pacsave` name of a file that is saved. -/
def pacsaveFile : BackupTransaction :=
  etcTransaction [(etcParen, .file (str "d")), (pacsave etcParen, .file (str "b"))] {}
    [etcOwner (str "old") (pacsave etcParen), etcOwner (str "other") etcParen]
    [etcOwner (str "other") etcParen] [] (by decide +kernel) (by decide +kernel)

/-- `new_paths`: a target has a directory of the name, with `--overwrite`. -/
def dirTarget : BackupTransaction :=
  etcTransaction [(etcX, .file (str "b"))] { overwriteFiles := [etcX ++ str "/"] }
    [etcOwner (str "old") etcX] [] [etcTarget (str "new") [etcX ++ str "/"] [] none]
    (by decide +kernel) (by decide +kernel)

/-- `new_paths`: the new version of the package has a directory of the name, and the file is in
`NoUpgrade`. -/
def dirUpgraded : BackupTransaction :=
  etcTransaction [(etcX, .file (str "b"))] { noupgrade := [etcX] } [etcOwner (str "old") etcX] []
    [etcTarget (str "old") [etcX ++ str "/"] [] (some (etcOwner (str "old") etcX))]
    (by decide +kernel) (by decide +kernel)

/-- `new_paths`: a target has a file below the file, and its extraction makes way for it. -/
def belowTarget : BackupTransaction :=
  { etcTransaction [(etcX, .file (str "b"))] {} [etcOwner (str "old") etcX] []
      [etcTarget (str "new") [etcX ++ str "/y"] [] none] (by decide +kernel)
      (by decide +kernel) with
    sys := { namesSystem with
      extract := fun fs path node =>
        let fs := if path = etcX ++ str "/y" then fs.set etcX (some .dir) else fs
        (true, fs.set path (some node)) }
    extracts :=
      { frame := by
          intro fs path node q hpath habove
          show (FileSystem.set _ path (some node)).node q = fs.node q
          rw [FileSystem.set_node_of_ne fun heq => hpath (Or.inl heq)]
          split_ifs with hbelow
          · by_cases hq : q = etcX
            · rw [hq, FileSystem.set_node_self]
              rw [hq, hbelow] at habove
              exact (habove.resolve_right (not_not_intro (by decide))).symm
            · exact FileSystem.set_node_of_ne hq
          · rfl
        file := fun _ _ _ _ => FileSystem.set_node_self }
    md5_injective := fun _ _ heq => heq
    canRemove := fun _ => rfl }

/-- `new_paths`: a target has a file of the `.pacsave` name. -/
def pacsaveTarget : BackupTransaction :=
  etcTransaction [(etcX, .file (str "b"))] {} [etcOwner (str "old") etcX]
    [etcOwner (str "old") etcX] [etcTarget (str "new") [pacsave etcX] [] none]
    (by decide +kernel) (by decide +kernel)

/-- `pacnew`: the file has the `.pacnew` name of a file that is upgraded. -/
def pacnewFile : BackupTransaction :=
  etcTransaction [(etcX, .file (str "d")), (pacnew etcX, .file (str "b"))] {}
    [etcOwner (str "old") etcX, etcOwner (str "other") (pacnew etcX)] []
    [etcTarget (str "old") [etcX] [{ name := etcX, hash := none }]
      (some (etcOwner (str "old") etcX))] (by decide +kernel) (by decide +kernel)

/-- The owner is upgraded with a new file, two other packages are removed, one of which has the file
in its backup array as well, and a third one is installed that takes the file over as a backup file
of its own, all with `--overwrite`. -/
def upgraded : BackupTransaction :=
  etcTransaction [(etcX, .file (str "b")), (str "etc/y", .file (str "d"))]
    { overwriteFiles := [etcX] }
    [etcOwner (str "old") etcX, etcOther (str "etc/y"), etcOwner (str "twin") etcX]
    [etcOther (str "etc/y"), etcOwner (str "twin") etcX]
    [etcTarget (str "old") [etcX] [{ name := etcX, hash := none }]
        (some (etcOwner (str "old") etcX)),
      etcTarget (str "new") [etcX] [{ name := etcX, hash := none }] none]
    (by decide +kernel) (by decide +kernel)

end BackupTransaction

end Alpm
