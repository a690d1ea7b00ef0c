import Alpm.Files.Commit
import Alpm.General.Journal

/-!
# Ownership of files across a commit

A transaction of packages of regular files, without backup files and without patterns.  A commit is
then a journal of installed and deleted paths, and `trans->skip_remove` decides which deletions are
left out.

## 1.  The conflict check

When the check reports nothing, a file of a target that is on the disk, and that its own installed
version lacks, belongs to a package that is removed, or it changes hands and its removal is skipped
(`ConflictCheck.Regular.resolved_of_conflicts_nil`).  This is the only place where the loop of CHECK
2 is looked at.

## 2.  A commit as a journal

Every function of `Alpm.Files.Commit` that runs on such packages is a piece of a journal: a removal
deletes the files of a package that are not skipped, a target deletes the files of the version that
it replaces, but for those that are skipped, and then writes its own.
`RegularTransaction.commit_node` puts the pieces together, so that from there on the argument is
about journals (`General.Journal`) and not about loops.

## 3.  Which files are kept

After a commit every file of a package that is then installed should be there with its content
(`Kept`).  What a journal leaves at a path is decided by its last entry for the path, and `kept_iff`
reads off what that takes: targets that share a file agree on it (`SameContent`), and nothing
removes a file again that another target has installed at a path that was free (`Reinstalled`).

The second condition is needed because a path that was not on the disk is not in `skip_remove`:
`movedFile` is a file that was deleted by hand, moves from one package to another in the
transaction, and is gone after it.
-/

namespace Alpm

/-- A package of regular files: its list is sorted, without directories and without the entries of
the archive that are not installed, and nothing in it needs a backup. -/
structure RegularPkg (pkg : Pkg) : Prop where
  sorted : pkg.files.Pairwise (· < ·)
  backup : pkg.backup = []
  not_slash : ∀ file ∈ pkg.files, ¬ hasSlash file
  not_dot : ∀ file ∈ pkg.files, deref file ≠ '.'

/-- A target of regular files, with an archive that has them. -/
structure RegularTarget (target : AddTarget) (content : CString → CString) : Prop where
  pkg : RegularPkg target.pkg
  node : ∀ entry ∈ target.archive, entry.pathname ∈ target.pkg.files →
    entry.node = .file (content entry.pathname)
  archive : ∀ file ∈ target.pkg.files, ∃ entry ∈ target.archive, entry.pathname = file

/-- There is no link and no directory at a path. -/
def FileSystem.RegularAt (fs : FileSystem) (path : CString) : Prop :=
  ∀ node, fs.node path = some node → ∃ content, node = .file content

/-- Files can be removed, and a file of an archive can be extracted to where no directory is. -/
structure System.Plain (sys : System) : Prop where
  canRemove : ∀ path, sys.canRemove path
  extract : ∀ fs path content, fs.node path ≠ some .dir →
    sys.extract fs path (.file content) = (true, fs.set path (some (.file content)))

/-! ## What the conflict check says -/

namespace ConflictCheck

variable {check : ConflictCheck} {p1 : Pkg} {dbpkg : Option Pkg} {files : List CString}
  {found : Found}

theorem fnmatchPatterns_nil (sys : System) (string : CString) :
    fnmatchPatterns sys [] string = -1 := rfl

/-- CHECK 2 for a regular file. -/
def checkFile (check : ConflictCheck) (p1 : Pkg) (file : CString) (found : Found) : Found :=
  if check.fs.node file = none ∨ ownedIn check.rem file then found
  else if check.changedHands p1 file then
    { found with skipRemove := found.skipRemove ++ [file] }
  else { found with
    conflicts := found.conflicts ++
      [fileconflict (check.opts.root ++ file) p1 (check.findFileOwner file)] }

theorem checkFiles_cons (hopts : check.opts.overwriteFiles = []) (hbackup : p1.backup = [])
    {file : CString} (hslash : ¬ hasSlash file) (hregular : check.fs.RegularAt file)
    (rest : List CString) : check.checkFiles p1 dbpkg none (file :: rest) found =
      check.checkFiles p1 dbpkg none rest (check.checkFile p1 file found) := by
  have hstrip : stripSlash file = file := stripSlash_of_not hslash
  have hslash' : hasSlash file = false := by simpa using hslash
  have hover : ∀ path, check.canOverwriteFile file path = false := by
    simp [canOverwriteFile, hopts, fnmatchPatterns_nil]
  have hunowned : check.unownedBackup p1 file = false := by
    simp [unownedBackup, needbackup, hbackup]
  rw [checkFiles, checkFile]
  simp only [FileSystem.llstat, hstrip]
  cases hnode : check.fs.node file with
  | none => simp
  | some node =>
    obtain ⟨content, rfl⟩ := hregular node hnode
    simp only [hslash', insideOf, hover, hunowned]
    split_ifs <;> simp_all

theorem checkFiles_eq (hopts : check.opts.overwriteFiles = []) (hbackup : p1.backup = [])
    (hslash : ∀ file ∈ files, ¬ hasSlash file)
    (hregular : ∀ file ∈ files, check.fs.RegularAt file) :
    check.checkFiles p1 dbpkg none files found =
      files.foldl (fun found file => check.checkFile p1 file found) found := by
  induction files generalizing found with
  | nil => rw [checkFiles, List.foldl_nil]
  | cons file rest ih =>
    rw [checkFiles_cons hopts hbackup (hslash file (List.mem_cons_self ..))
      (hregular file (List.mem_cons_self ..)), List.foldl_cons,
      ih (fun f hf => hslash f (List.mem_cons_of_mem _ hf))
        fun f hf => hregular f (List.mem_cons_of_mem _ hf)]

/-- Conflicts and skipped paths are only added. -/
structure Found.Le (found found' : Found) : Prop where
  conflicts : found'.conflicts = [] → found.conflicts = []
  skipRemove : found.skipRemove ⊆ found'.skipRemove

theorem Found.Le.refl (found : Found) : found.Le found := ⟨id, List.Subset.refl _⟩

theorem Found.Le.trans {found₁ found₂ found₃ : Found} (h : found₁.Le found₂)
    (h' : found₂.Le found₃) : found₁.Le found₃ :=
  ⟨fun hnil => h.conflicts (h'.conflicts hnil), List.Subset.trans h.skipRemove h'.skipRemove⟩

theorem checkFile_le (file : CString) : found.Le (check.checkFile p1 file found) := by
  unfold checkFile
  split_ifs
  · exact Found.Le.refl _
  · exact ⟨id, List.subset_append_left _ _⟩
  · exact ⟨fun h => absurd h (by simp), List.Subset.refl _⟩

variable (check p1) in
theorem foldl_checkFile_le (files : List CString) (found : Found) :
    found.Le (files.foldl (fun found file => check.checkFile p1 file found) found) := by
  induction files generalizing found with
  | nil => exact Found.Le.refl _
  | cons file rest ih => exact (checkFile_le file).trans (ih _)

/-- A file on the disk that no conflict was reported for: a removed package has it, or it changes
hands from the installed version of another target and its removal is skipped. -/
def Resolved (check : ConflictCheck) (p1 : Pkg) (file : CString) (found : Found) : Prop :=
  check.fs.node file ≠ none → ownedIn check.rem file ∨
    check.changedHands p1 file ∧ file ∈ found.skipRemove

theorem Resolved.mono {found' : Found} (hle : found.Le found') {file : CString}
    (h : check.Resolved p1 file found) : check.Resolved p1 file found' := by
  intro hnode
  rcases h hnode with h | ⟨h, hskip⟩
  · exact Or.inl h
  · exact Or.inr ⟨h, hle.skipRemove hskip⟩

theorem checkFile_resolved {file : CString} (h : (check.checkFile p1 file found).conflicts = []) :
    check.Resolved p1 file (check.checkFile p1 file found) := by
  intro hnode
  unfold checkFile at h ⊢
  by_cases hrem : ownedIn check.rem file
  · exact Or.inl hrem
  · rw [if_neg (by tauto)] at h ⊢
    by_cases hhands : check.changedHands p1 file
    · rw [if_pos hhands]
      exact Or.inr ⟨hhands, by simp⟩
    · rw [if_neg hhands] at h
      simp at h

theorem foldl_checkFile_resolved
    (h : (files.foldl (fun found file => check.checkFile p1 file found) found).conflicts = []) :
    ∀ file ∈ files, check.Resolved p1 file
      (files.foldl (fun found file => check.checkFile p1 file found) found) := by
  induction files generalizing found with
  | nil => simp
  | cons file rest ih =>
    rw [List.foldl_cons] at h ⊢
    refine List.forall_mem_cons.mpr ⟨?_, ih h⟩
    have hle := foldl_checkFile_le check p1 rest (check.checkFile p1 file found)
    exact (checkFile_resolved (hle.conflicts h)).mono hle

/-- The packages of a check are packages of regular files, and the disk has nothing else at
their paths. -/
structure Regular (check : ConflictCheck) : Prop where
  overwrite : check.opts.overwriteFiles = []
  pkg : ∀ pkg ∈ check.upgrade, RegularPkg pkg
  localPkg : ∀ pkg ∈ check.localdb, RegularPkg pkg
  node : ∀ pkg ∈ check.upgrade, ∀ file ∈ pkg.files, check.fs.RegularAt file

theorem Regular.mem_newfiles (h : check.Regular) (hp1 : p1 ∈ check.upgrade) {file : CString} :
    file ∈ check.newfiles p1 ↔
      file ∈ p1.files ∧ ∀ dbpkg ∈ pkgFind check.localdb p1.name, file ∉ dbpkg.files := by
  unfold newfiles
  cases hfind : pkgFind check.localdb p1.name with
  | none => simp
  | some dbpkg =>
    simp only [Option.mem_def, Option.some.injEq, forall_eq']
    exact mem_filelistDifference (h.pkg p1 hp1).sorted
      (h.localPkg dbpkg (pkgFind_eq_some hfind).1).sorted

theorem Regular.checkFiles_newfiles (h : check.Regular) (hp1 : p1 ∈ check.upgrade) :
    check.checkFiles p1 dbpkg none (check.newfiles p1) found =
      (check.newfiles p1).foldl (fun found file => check.checkFile p1 file found) found :=
  checkFiles_eq h.overwrite (h.pkg p1 hp1).backup
    (fun file hfile => (h.pkg p1 hp1).not_slash file ((h.mem_newfiles hp1).mp hfile).1)
    fun file hfile => h.node p1 hp1 file ((h.mem_newfiles hp1).mp hfile).1

theorem Regular.checkTargets_le (h : check.Regular) {targets : List Pkg}
    (htargets : targets ⊆ check.upgrade) (found : Found) :
    found.Le (check.checkTargets targets found) := by
  induction targets generalizing found with
  | nil => exact Found.Le.refl _
  | cons p1 rest ih =>
    rw [checkTargets, h.checkFiles_newfiles (htargets (List.mem_cons_self ..))]
    have hle : found.Le { found with
        conflicts := found.conflicts ++ rest.flatMap (check.targetConflicts p1) } :=
      ⟨fun hnil => (List.append_eq_nil_iff.mp hnil).1, List.Subset.refl _⟩
    exact (hle.trans (foldl_checkFile_le ..)).trans
      (ih (fun p hp => htargets (List.mem_cons_of_mem _ hp)) _)

theorem Regular.checkTargets_resolved (h : check.Regular) {targets : List Pkg}
    (htargets : targets ⊆ check.upgrade)
    (hnil : (check.checkTargets targets found).conflicts = []) :
    ∀ p1 ∈ targets, ∀ file ∈ check.newfiles p1,
      check.Resolved p1 file (check.checkTargets targets found) := by
  induction targets generalizing found with
  | nil => simp
  | cons p1 rest ih =>
    have hrest : rest ⊆ check.upgrade := fun p hp => htargets (List.mem_cons_of_mem _ hp)
    rw [checkTargets, h.checkFiles_newfiles (htargets (List.mem_cons_self ..))] at hnil ⊢
    refine List.forall_mem_cons.mpr ⟨fun file hfile => ?_, ih hrest hnil⟩
    have hle := h.checkTargets_le hrest ((check.newfiles p1).foldl
      (fun found file => check.checkFile p1 file found)
      { found with
        conflicts := found.conflicts ++ rest.flatMap (check.targetConflicts p1) })
    exact (foldl_checkFile_resolved (hle.conflicts hnil) file hfile).mono hle

/-- **When no conflict is reported**, a file of a target that is on the disk, and that its own
installed version lacks, belongs to a package that is removed, or it changes hands and its
removal is skipped. -/
theorem Regular.resolved_of_conflicts_nil (h : check.Regular)
    (hnil : check.findFileconflicts.conflicts = []) (hp1 : p1 ∈ check.upgrade) {file : CString}
    (hfile : file ∈ p1.files)
    (hdbpkg : ∀ dbpkg ∈ pkgFind check.localdb p1.name, file ∉ dbpkg.files) :
    check.Resolved p1 file check.findFileconflicts :=
  h.checkTargets_resolved (List.Subset.refl _) hnil p1 hp1 file
    ((h.mem_newfiles hp1).mpr ⟨hfile, hdbpkg⟩)

end ConflictCheck

/-! ## A commit as a journal -/

open Journal (replay)

/-- The removal of the files of a package that are not skipped. -/
def removals (skipRemove : List CString) (pkg : Pkg) : List (Journal.Entry CString Node) :=
  (pkg.files.reverse.filter (· ∉ skipRemove)).map .del

/-- The installation of the files of a target. -/
def installs (target : AddTarget) : List (Journal.Entry CString Node) :=
  (target.archive.filter (·.pathname ∈ target.pkg.files)).map fun entry =>
    .put entry.pathname entry.node

/-- The journal of one target. -/
def targetJournal (skipRemove : List CString) (oldpkg : Option Pkg) (target : AddTarget) :
    List (Journal.Entry CString Node) :=
  oldpkg.toList.flatMap (removals skipRemove) ++ installs target

theorem not_mem_removals {skipRemove : List CString} {pkg : Pkg} {path : CString} {node : Node} :
    Journal.Entry.put path node ∉ removals skipRemove pkg := by
  simp [removals]

theorem mem_installs {target : AddTarget} {content : CString → CString}
    (htarget : RegularTarget target content) {path : CString} {node : Node} :
    .put path node ∈ installs target ↔ path ∈ target.pkg.files ∧ node = .file (content path) := by
  simp only [installs, List.mem_map, List.mem_filter, decide_eq_true_eq]
  constructor
  · rintro ⟨entry, ⟨hentry, hin⟩, heq⟩
    obtain ⟨rfl, rfl⟩ := Journal.Entry.put.inj heq
    exact ⟨hin, htarget.node entry hentry hin⟩
  · rintro ⟨hin, rfl⟩
    obtain ⟨entry, hentry, rfl⟩ := htarget.archive path hin
    exact ⟨entry, ⟨hentry, hin⟩, by rw [htarget.node entry hentry hin]⟩

namespace CommitContext

/-- Nothing fails, there are no patterns, and the files are not left alone. -/
structure Regular (ctx : CommitContext) : Prop where
  plain : ctx.sys.Plain
  noupgrade : ctx.opts.noupgrade = []
  noextract : ctx.opts.noextract = []
  dbonly : ctx.flags.dbonly = false

variable {ctx : CommitContext} {st : CommitState} {oldpkg : Pkg} {newpkg : Option Pkg}

theorem Regular.shouldSkipFile_iff (h : ctx.Regular) (hnewpkg : ∀ pkg ∈ newpkg, pkg.backup = [])
    (path : CString) : ctx.shouldSkipFile newpkg path ↔ path ∈ ctx.skipRemove := by
  have hneed : (newpkg.any fun newpkg =>
      (needbackup path newpkg).isSome && filelistContains newpkg.files path) = false := by
    cases newpkg with
    | none => rfl
    | some pkg => simp [needbackup, hnewpkg pkg rfl]
  simp [shouldSkipFile, h.noupgrade, ConflictCheck.fnmatchPatterns_nil, hneed]

theorem unlinkFile_node (hbackup : oldpkg.backup = []) {file : CString}
    (hslash : ¬ hasSlash file) (hregular : st.fs.RegularAt file) (nosave : Bool) :
    ∃ ret fs, ctx.unlinkFile st oldpkg newpkg file nosave = some (ret, fs) ∧
      fs.node = Function.update st.fs.node file none := by
  have hneed : needbackup file oldpkg = none := by simp [needbackup, hbackup]
  unfold unlinkFile
  simp only [stripSlash_of_not hslash]
  cases hnode : st.fs.node file with
  | none =>
    have hself : Function.update st.fs.node file none = st.fs.node := by
      rw [← hnode, Function.update_eq_self]
    exact ⟨1, st.fs, rfl, hself.symm⟩
  | some node =>
    obtain ⟨content, rfl⟩ := hregular node hnode
    simp only [hneed]
    exact ⟨0, st.fs.remove file, rfl, rfl⟩

theorem Regular.removeFile_node (h : ctx.Regular) (hnewpkg : ∀ pkg ∈ newpkg, pkg.backup = [])
    (hbackup : oldpkg.backup = []) {file : CString} (hslash : ¬ hasSlash file)
    (hregular : st.fs.RegularAt file) :
    (ctx.removeFile oldpkg newpkg st file).fs.node =
        replay st.fs.node (([file].filter (· ∉ ctx.skipRemove)).map .del) ∧
      (ctx.removeFile oldpkg newpkg st file).crashed = st.crashed := by
  unfold removeFile
  by_cases hskip : file ∈ ctx.skipRemove
  · rw [if_pos ((h.shouldSkipFile_iff hnewpkg file).mpr hskip),
      List.filter_cons_of_neg (by simpa using hskip)]
    exact ⟨rfl, rfl⟩
  · obtain ⟨ret, fs, hunlink, hnode⟩ :=
      @unlinkFile_node ctx st oldpkg newpkg hbackup file hslash hregular ctx.flags.nosave
    rw [if_neg fun hin => hskip ((h.shouldSkipFile_iff hnewpkg file).mp hin),
      List.filter_cons_of_pos (by simpa using hskip), hunlink]
    exact ⟨hnode, rfl⟩

/-- What was regular stays so when only files are written. -/
theorem regularAt_of_replay {fs fs' : FileSystem} {journal : List (Journal.Entry CString Node)}
    (hnode : fs'.node = replay fs.node journal) {path : CString} (hregular : fs.RegularAt path)
    (hput : ∀ node, .put path node ∈ journal → ∃ content, node = .file content) :
    fs'.RegularAt path := by
  intro node hin
  rw [hnode] at hin
  exact Journal.replay_forall hregular hput node hin

theorem Regular.foldl_removeFile_node (h : ctx.Regular)
    (hnewpkg : ∀ pkg ∈ newpkg, pkg.backup = []) (hbackup : oldpkg.backup = [])
    {files : List CString} (hslash : ∀ file ∈ files, ¬ hasSlash file)
    (hregular : ∀ file ∈ files, st.fs.RegularAt file) :
    (files.foldl (ctx.removeFile oldpkg newpkg) st).fs.node =
        replay st.fs.node ((files.filter (· ∉ ctx.skipRemove)).map .del) ∧
      (files.foldl (ctx.removeFile oldpkg newpkg) st).crashed = st.crashed := by
  induction files generalizing st with
  | nil => exact ⟨rfl, rfl⟩
  | cons file rest ih =>
    obtain ⟨hnode, hcrashed⟩ := h.removeFile_node hnewpkg hbackup
      (hslash file (List.mem_cons_self ..)) (hregular file (List.mem_cons_self ..))
    obtain ⟨hrest, hrestCrashed⟩ := ih (fun f hf => hslash f (List.mem_cons_of_mem _ hf))
      fun f hf => regularAt_of_replay hnode (hregular f (List.mem_cons_of_mem _ hf)) (by simp)
    rw [List.foldl_cons, hrest, hnode, ← Journal.replay_append, ← List.map_append,
      ← List.filter_append, List.singleton_append]
    exact ⟨rfl, hrestCrashed.trans hcrashed⟩

theorem Regular.removePackageFiles_node (h : ctx.Regular)
    (hnewpkg : ∀ pkg ∈ newpkg, pkg.backup = []) (hold : RegularPkg oldpkg)
    (hregular : ∀ file ∈ oldpkg.files, st.fs.RegularAt file) :
    (ctx.removePackageFiles st oldpkg newpkg).fs.node =
        replay st.fs.node (removals ctx.skipRemove oldpkg) ∧
      (ctx.removePackageFiles st oldpkg newpkg).crashed = st.crashed := by
  have hall : (oldpkg.files.all fun file =>
      ctx.shouldSkipFile newpkg file || ctx.sys.canRemove file) = true := by
    simp [h.plain.canRemove]
  rw [removePackageFiles, if_pos hall]
  exact h.foldl_removeFile_node hnewpkg hold.backup
    (fun file hfile => hold.not_slash file (List.mem_reverse.mp hfile))
    fun file hfile => hregular file (List.mem_reverse.mp hfile)

theorem Regular.removeSinglePackage_node (h : ctx.Regular)
    (hnewpkg : ∀ pkg ∈ newpkg, pkg.backup = []) (hold : RegularPkg oldpkg)
    (hregular : ∀ file ∈ oldpkg.files, st.fs.RegularAt file) :
    (ctx.removeSinglePackage st oldpkg newpkg).fs.node =
        replay st.fs.node (removals ctx.skipRemove oldpkg) ∧
      (ctx.removeSinglePackage st oldpkg newpkg).crashed = st.crashed := by
  simp only [removeSinglePackage, h.dbonly]
  exact h.removePackageFiles_node hnewpkg hold hregular

theorem foldl_removeFile_eq (files : List CString) (st : CommitState) :
    files.foldl (ctx.removeFile oldpkg newpkg) st =
      { st with
        fs := (files.foldl (ctx.removeFile oldpkg newpkg) st).fs
        crashed := (files.foldl (ctx.removeFile oldpkg newpkg) st).crashed } := by
  induction files generalizing st with
  | nil => rfl
  | cons file rest ih =>
    have hfile : (ctx.removeFile oldpkg newpkg st file).localdb = st.localdb ∧
        (ctx.removeFile oldpkg newpkg st file).interrupted = st.interrupted := by
      unfold removeFile
      split_ifs
      · exact ⟨rfl, rfl⟩
      · split <;> exact ⟨rfl, rfl⟩
    rw [List.foldl_cons, ih, hfile.1, hfile.2]

/-- Removing the files of a package leaves the database and the state of the transaction alone. -/
theorem removePackageFiles_eq (st : CommitState) (oldpkg : Pkg) (newpkg : Option Pkg) :
    ctx.removePackageFiles st oldpkg newpkg =
      { st with
        fs := (ctx.removePackageFiles st oldpkg newpkg).fs
        crashed := (ctx.removePackageFiles st oldpkg newpkg).crashed } := by
  unfold removePackageFiles
  split_ifs
  · exact foldl_removeFile_eq ..
  · rfl

@[simp] theorem removeSinglePackage_localdb (st : CommitState) (oldpkg : Pkg)
    (newpkg : Option Pkg) : (ctx.removeSinglePackage st oldpkg newpkg).localdb =
      listRemove pkgCmp st.localdb oldpkg := by
  unfold removeSinglePackage
  split_ifs
  · rw [removePackageFiles_eq]
  · rfl

@[simp] theorem removeSinglePackage_interrupted (st : CommitState) (oldpkg : Pkg)
    (newpkg : Option Pkg) :
    (ctx.removeSinglePackage st oldpkg newpkg).interrupted = st.interrupted := by
  unfold removeSinglePackage
  split_ifs
  · rw [removePackageFiles_eq]
  · rfl

theorem Regular.extractSingleFile_eq (h : ctx.Regular) {newpkg : Pkg} {oldpkg : Option Pkg}
    (hnew : RegularPkg newpkg) (hold : ∀ pkg ∈ oldpkg, pkg.backup = []) {fs : FileSystem}
    {entry : ArchiveEntry} (hentry : entry.pathname ∈ newpkg.files →
      (∃ content, entry.node = .file content) ∧ fs.RegularAt entry.pathname) :
    ctx.extractSingleFile newpkg oldpkg fs entry =
      (0, if entry.pathname ∈ newpkg.files then fs.set entry.pathname (some entry.node)
        else fs) := by
  unfold extractSingleFile
  by_cases hin : entry.pathname ∈ newpkg.files
  · obtain ⟨⟨content, hnode⟩, hregular⟩ := hentry hin
    have hdir : fs.node entry.pathname ≠ some .dir := by
      intro hdir
      obtain ⟨content, h⟩ := hregular _ hdir
      cases h
    have hbackup : backupHash newpkg oldpkg entry.pathname = none := by
      have holdNone : oldpkg.bind (needbackup entry.pathname) = none := by
        cases oldpkg with
        | none => rfl
        | some pkg => simp [needbackup, hold pkg rfl]
      simp [backupHash, holdNone, needbackup, hnew.backup]
    have hextract := h.plain.extract fs entry.pathname content hdir
    rw [if_neg (hnew.not_dot _ hin), if_neg (by simpa using hin), if_pos hin]
    simp only [stripSlash_of_not (hnew.not_slash _ hin), h.noupgrade, h.noextract,
      ConflictCheck.fnmatchPatterns_nil, hnode]
    cases hpath : fs.node entry.pathname with
    | none => simp [extractNode, hextract]
    | some node =>
      obtain ⟨old, rfl⟩ := hregular node hpath
      simp [extractNode, hbackup, hextract]
  · rw [if_neg hin]
    by_cases hdot : deref entry.pathname = '.'
    · rw [if_pos hdot]
    · rw [if_neg hdot, if_pos (by simpa [filelistContains] using hin)]

/-- The entries of an archive, one after the other. -/
theorem Regular.foldl_extractSingleFile (h : ctx.Regular) {newpkg : Pkg} {oldpkg : Option Pkg}
    (hnew : RegularPkg newpkg) (hold : ∀ pkg ∈ oldpkg, pkg.backup = [])
    {archive : List ArchiveEntry} {fs : FileSystem} {errors : ℕ}
    (hentry : ∀ entry ∈ archive, entry.pathname ∈ newpkg.files →
      (∃ content, entry.node = .file content) ∧ fs.RegularAt entry.pathname) :
    let result := archive.foldl (fun (errors, fs) entry =>
      let (n, fs) := ctx.extractSingleFile newpkg oldpkg fs entry
      (errors + n, fs)) (errors, fs)
    result.1 = errors ∧ result.2.node = replay fs.node
      ((archive.filter (·.pathname ∈ newpkg.files)).map fun entry =>
        .put entry.pathname entry.node) := by
  induction archive generalizing fs errors with
  | nil => exact ⟨rfl, rfl⟩
  | cons entry archive ih =>
    have hhead := hentry entry (List.mem_cons_self ..)
    simp only [List.foldl_cons, h.extractSingleFile_eq hnew hold hhead, Nat.add_zero]
    by_cases hin : entry.pathname ∈ newpkg.files
    · rw [List.filter_cons_of_pos (by simpa using hin), List.map_cons, Journal.replay_cons]
      simp only [if_pos hin]
      refine ih fun e he hein => ⟨(hentry e (List.mem_cons_of_mem _ he) hein).1, ?_⟩
      have hregular := (hentry e (List.mem_cons_of_mem _ he) hein).2
      have hset : (fs.set entry.pathname (some entry.node)).node =
          replay fs.node [.put entry.pathname entry.node] := rfl
      refine regularAt_of_replay hset hregular fun node hput => ?_
      obtain ⟨-, rfl⟩ := Journal.Entry.put.inj (List.mem_singleton.mp hput)
      exact (hhead hin).1
    · rw [List.filter_cons_of_neg (by simpa using hin)]
      simp only [if_neg hin]
      exact ih fun e he => hentry e (List.mem_cons_of_mem _ he)

/-- The package that an installation replaces. -/
def replacedPkg (localdb : List Pkg) (target : AddTarget) : Option Pkg :=
  if (pkgFind localdb target.pkg.name).isSome then target.oldpkg else none

/-- The state when the replaced package was removed. -/
def removeReplaced (ctx : CommitContext) (st : CommitState) (target : AddTarget) : CommitState :=
  match replacedPkg st.localdb target with
  | some oldpkg => ctx.removeSinglePackage st oldpkg (some target.pkg)
  | none => st

theorem commitSinglePkg_eq (hdbonly : ctx.flags.dbonly = false) (st : CommitState)
    (target : AddTarget) : ctx.commitSinglePkg st target =
      let st' := ctx.removeReplaced st target
      let (errors, fs) := ctx.extractArchive target.pkg (replacedPkg st.localdb target)
        target.archive st'.fs
      (errors, { st' with
        fs, localdb := listMmerge pkgCmp st'.localdb [cacheEntry target.pkg] }) := by
  simp only [commitSinglePkg, hdbonly]
  rfl

theorem Regular.removeReplaced_node (h : ctx.Regular) {target : AddTarget}
    (hpkg : target.pkg.backup = [])
    (hold : ∀ pkg ∈ replacedPkg st.localdb target, RegularPkg pkg ∧
      ∀ file ∈ pkg.files, st.fs.RegularAt file) :
    (ctx.removeReplaced st target).fs.node = replay st.fs.node
        ((replacedPkg st.localdb target).toList.flatMap (removals ctx.skipRemove)) ∧
      (ctx.removeReplaced st target).crashed = st.crashed := by
  unfold removeReplaced
  cases hreplaced : replacedPkg st.localdb target with
  | none => exact ⟨rfl, rfl⟩
  | some oldpkg =>
    obtain ⟨holdpkg, hregular⟩ := hold oldpkg hreplaced
    rw [Option.toList_some, List.flatMap_singleton]
    exact h.removeSinglePackage_node (by simpa using hpkg) holdpkg hregular

theorem Regular.commitSinglePkg_spec (h : ctx.Regular) {target : AddTarget}
    {content : CString → CString} (htarget : RegularTarget target content)
    (hold : ∀ pkg ∈ replacedPkg st.localdb target, RegularPkg pkg ∧
      ∀ file ∈ pkg.files, st.fs.RegularAt file)
    (hregular : ∀ file ∈ target.pkg.files, st.fs.RegularAt file) :
    (ctx.commitSinglePkg st target).1 = 0 ∧
      (ctx.commitSinglePkg st target).2.fs.node = replay st.fs.node
        (targetJournal ctx.skipRemove (replacedPkg st.localdb target) target) ∧
      (ctx.commitSinglePkg st target).2.crashed = st.crashed := by
  obtain ⟨hremoved, hcrashed⟩ := h.removeReplaced_node htarget.pkg.backup hold
  have hentry : ∀ entry ∈ target.archive, entry.pathname ∈ target.pkg.files →
      (∃ content, entry.node = .file content) ∧
        (ctx.removeReplaced st target).fs.RegularAt entry.pathname := fun entry hentry hin =>
    ⟨⟨_, htarget.node entry hentry hin⟩,
      regularAt_of_replay hremoved (hregular _ hin) (by simp [not_mem_removals])⟩
  rw [commitSinglePkg_eq h.dbonly, targetJournal, Journal.replay_append, ← hremoved]
  obtain ⟨herrors, hnode⟩ := h.foldl_extractSingleFile htarget.pkg
    (fun pkg hpkg => (hold pkg hpkg).1.backup) hentry
  exact ⟨herrors, hnode, hcrashed⟩

theorem removeReplaced_interrupted (st : CommitState) (target : AddTarget) :
    (ctx.removeReplaced st target).interrupted = st.interrupted := by
  unfold removeReplaced
  split
  · exact removeSinglePackage_interrupted ..
  · rfl

theorem name_mem_listRemove {localdb : List Pkg} {needle : Pkg} {name : CString}
    (hne : name ≠ needle.name) :
    name ∈ (listRemove pkgCmp localdb needle).map Pkg.name ↔ name ∈ localdb.map Pkg.name := by
  have hkept : ∀ pkg : Pkg, pkg.name = name →
      (pkg ∈ listRemove pkgCmp localdb needle ↔ pkg ∈ localdb) := by
    rintro pkg rfl
    refine List.mem_eraseP_of_neg ?_
    simpa [pkgCmp] using hne
  simp only [List.mem_map]
  exact exists_congr fun pkg => and_congr_left (hkept pkg)

/-- The commit of a target leaves the other names in the database alone. -/
theorem replacedPkg_commitSinglePkg (hdbonly : ctx.flags.dbonly = false)
    {target other : AddTarget}
    (hold : ∀ pkg ∈ replacedPkg st.localdb target, pkg.name = target.pkg.name)
    (hne : other.pkg.name ≠ target.pkg.name) :
    replacedPkg (ctx.commitSinglePkg st target).2.localdb other = replacedPkg st.localdb other := by
  have hremoved : other.pkg.name ∈ (ctx.removeReplaced st target).localdb.map Pkg.name ↔
      other.pkg.name ∈ st.localdb.map Pkg.name := by
    unfold removeReplaced
    split
    next oldpkg hreplaced =>
      rw [removeSinglePackage_localdb]
      exact name_mem_listRemove (by rwa [hold oldpkg hreplaced])
    next => rfl
  have hmerged : other.pkg.name ∈ (ctx.commitSinglePkg st target).2.localdb.map Pkg.name ↔
      other.pkg.name ∈ st.localdb.map Pkg.name := by
    rw [commitSinglePkg_eq hdbonly, ← hremoved]
    show other.pkg.name ∈ (listMmerge pkgCmp _ _).map Pkg.name ↔ _
    rw [((listMmerge_perm _ _ _).map Pkg.name).mem_iff, List.map_append, List.mem_append,
      List.map_singleton, List.mem_singleton]
    exact or_iff_left hne
  simp only [replacedPkg, pkgFind_isSome, hmerged]

/-- The names in the database after removals. -/
theorem name_mem_removed {localdb remove : List Pkg} (hnames : (localdb.map Pkg.name).Nodup)
    {name : CString} : name ∈ (remove.foldl (listRemove pkgCmp) localdb).map Pkg.name ↔
      name ∈ localdb.map Pkg.name ∧ name ∉ remove.map Pkg.name := by
  simp only [List.mem_map, mem_foldl_listRemove pkgCmp_comparesBy hnames]
  constructor
  · rintro ⟨pkg, ⟨hpkg, hremove⟩, rfl⟩
    exact ⟨⟨pkg, hpkg, rfl⟩, hremove⟩
  · rintro ⟨⟨pkg, hpkg, rfl⟩, hremove⟩
    exact ⟨pkg, ⟨hpkg, hremove⟩, rfl⟩

/-- What a target replaces after removals, when its old version is a copy of the package that was
installed. -/
theorem replacedPkg_removed {localdb remove : List Pkg} (hnames : (localdb.map Pkg.name).Nodup)
    {target : AddTarget} (holdpkg : ∀ pkg ∈ pkgFind localdb target.pkg.name,
      ∃ addr, target.oldpkg = some (pkg.copyAt addr)) :
    replacedPkg (remove.foldl (listRemove pkgCmp) localdb) target = none ∧
        (target.pkg.name ∉ remove.map Pkg.name → pkgFind localdb target.pkg.name = none) ∨
      ∃ pkg addr, target.pkg.name ∉ remove.map Pkg.name ∧
        pkgFind localdb target.pkg.name = some pkg ∧
        replacedPkg (remove.foldl (listRemove pkgCmp) localdb) target =
          some (pkg.copyAt addr) := by
  unfold replacedPkg
  simp only [pkgFind_isSome, name_mem_removed hnames]
  by_cases hremove : target.pkg.name ∈ remove.map Pkg.name
  · simp [hremove]
  · cases hfind : pkgFind localdb target.pkg.name with
    | none => simp [pkgFind_eq_none.mp hfind]
    | some pkg =>
      obtain ⟨addr, haddr⟩ := holdpkg pkg hfind
      have hname : target.pkg.name ∈ localdb.map Pkg.name :=
        pkgFind_isSome.mp (Option.isSome_iff_exists.mpr ⟨pkg, hfind⟩)
      refine Or.inr ⟨pkg, addr, hremove, rfl, ?_⟩
      rw [if_pos ⟨hname, hremove⟩, haddr]

theorem removePackages_eq {remove : List Pkg} (hinterrupted : st.interrupted = false) :
    ctx.removePackages remove st =
      remove.foldl (fun st pkg => ctx.removeSinglePackage st pkg none) st := by
  unfold removePackages
  induction remove generalizing st with
  | nil => rfl
  | cons pkg remove ih =>
    simp only [List.foldl_cons, hinterrupted, Bool.false_eq_true, if_false]
    exact ih (by simpa using hinterrupted)

theorem removePackages_localdb {remove : List Pkg} (hinterrupted : st.interrupted = false) :
    (ctx.removePackages remove st).localdb = remove.foldl (listRemove pkgCmp) st.localdb := by
  rw [removePackages_eq hinterrupted]
  clear hinterrupted
  induction remove generalizing st with
  | nil => rfl
  | cons pkg remove ih => rw [List.foldl_cons, List.foldl_cons, ih, removeSinglePackage_localdb]

theorem removePackages_interrupted {remove : List Pkg} (hinterrupted : st.interrupted = false) :
    (ctx.removePackages remove st).interrupted = false := by
  rw [removePackages_eq hinterrupted]
  induction remove generalizing st with
  | nil => exact hinterrupted
  | cons pkg remove ih => exact ih (by simpa using hinterrupted)

theorem Regular.removePackages_node (h : ctx.Regular) {remove : List Pkg}
    (hremove : ∀ pkg ∈ remove, RegularPkg pkg ∧ ∀ file ∈ pkg.files, st.fs.RegularAt file)
    (hinterrupted : st.interrupted = false) :
    (ctx.removePackages remove st).fs.node =
        replay st.fs.node (remove.flatMap (removals ctx.skipRemove)) ∧
      (ctx.removePackages remove st).crashed = st.crashed := by
  rw [removePackages_eq hinterrupted]
  clear hinterrupted
  induction remove generalizing st with
  | nil => exact ⟨rfl, rfl⟩
  | cons pkg remove ih =>
    obtain ⟨hpkg, hregular⟩ := hremove pkg (List.mem_cons_self ..)
    obtain ⟨hnode, hcrashed⟩ := @Regular.removeSinglePackage_node ctx st pkg none h (by simp) hpkg
      hregular
    obtain ⟨hrest, hrestCrashed⟩ := @ih (ctx.removeSinglePackage st pkg none) fun p hp =>
      ⟨(hremove p (List.mem_cons_of_mem _ hp)).1, fun file hfile =>
        regularAt_of_replay hnode ((hremove p (List.mem_cons_of_mem _ hp)).2 file hfile)
          (by simp [not_mem_removals])⟩
    rw [List.foldl_cons, hrest, hnode, List.flatMap_cons, Journal.replay_append]
    exact ⟨rfl, hrestCrashed.trans hcrashed⟩

theorem Regular.upgradePackages_node (h : ctx.Regular) {content : AddTarget → CString → CString}
    {add : List AddTarget} (hnames : (add.map (·.pkg.name)).Nodup)
    (htarget : ∀ target ∈ add, RegularTarget target (content target) ∧
      ∀ file ∈ target.pkg.files, st.fs.RegularAt file)
    (hold : ∀ target ∈ add, ∀ pkg ∈ replacedPkg st.localdb target,
      pkg.name = target.pkg.name ∧ RegularPkg pkg ∧ ∀ file ∈ pkg.files, st.fs.RegularAt file)
    (hinterrupted : st.interrupted = false) :
    (ctx.upgradePackages add st).fs.node = replay st.fs.node
        (add.flatMap fun target =>
          targetJournal ctx.skipRemove (replacedPkg st.localdb target) target) ∧
      (ctx.upgradePackages add st).crashed = st.crashed := by
  unfold upgradePackages
  induction add generalizing st with
  | nil => exact ⟨rfl, rfl⟩
  | cons target add ih =>
    obtain ⟨hnotMem, hnames⟩ := List.nodup_cons.mp hnames
    obtain ⟨⟨hhead, hheadRegular⟩, htarget⟩ := List.forall_mem_cons.mp htarget
    obtain ⟨hheadOld, hold⟩ := List.forall_mem_cons.mp hold
    obtain ⟨herrors, hnode, hcrashed⟩ := h.commitSinglePkg_spec hhead
      (fun pkg hpkg => (hheadOld pkg hpkg).2) hheadRegular
    have hreplaced : ∀ other ∈ add,
        replacedPkg (ctx.commitSinglePkg st target).2.localdb other =
          replacedPkg st.localdb other := fun other hother =>
      replacedPkg_commitSinglePkg h.dbonly (fun pkg hpkg => (hheadOld pkg hpkg).1) fun heq =>
        hnotMem (List.mem_map.mpr ⟨other, hother, heq⟩)
    have hkept : ∀ path, st.fs.RegularAt path →
        (ctx.commitSinglePkg st target).2.fs.RegularAt path := fun path hpath =>
      regularAt_of_replay hnode hpath fun node hput => by
        rcases List.mem_append.mp hput with hput | hput
        · simp [not_mem_removals] at hput
        · exact ⟨_, ((mem_installs hhead).mp hput).2⟩
    have hround : ctx.upgradePackage st target = (ctx.commitSinglePkg st target).2 := by
      simp [upgradePackage, hinterrupted, herrors]
    obtain ⟨hrest, hrestCrashed⟩ := @ih (ctx.commitSinglePkg st target).2 hnames
      (fun t ht => ⟨(htarget t ht).1, fun file hfile => hkept file ((htarget t ht).2 file hfile)⟩)
      (fun t ht pkg hpkg => by
        rw [hreplaced t ht] at hpkg
        obtain ⟨hname, hpkg, hregular⟩ := hold t ht pkg hpkg
        exact ⟨hname, hpkg, fun file hfile => hkept file (hregular file hfile)⟩)
      (by
        rw [commitSinglePkg_eq h.dbonly]
        exact (removeReplaced_interrupted ..).trans hinterrupted)
    rw [List.foldl_cons, hround, hrest, hnode, List.flatMap_cons, Journal.replay_append]
    refine ⟨?_, hrestCrashed.trans hcrashed⟩
    congr 1
    exact List.flatMap_congr fun t ht => by rw [hreplaced t ht]

end CommitContext

/-! ## Transactions of regular files -/

/-- A transaction of packages of regular files.  The old version of a target is the copy that
`_alpm_pkg_dup` makes of the installed package of its name.  With `DBONLY` there is no check for
file conflicts. -/
structure RegularTransaction where
  sys : System
  root : CString
  flags : TransFlags
  fs : FileSystem
  localdb : List Pkg
  remove : List Pkg
  add : List AddTarget
  content : AddTarget → CString → CString
  plain : sys.Plain
  not_dbonly : flags.dbonly = false
  localPkg : ∀ pkg ∈ localdb, RegularPkg pkg ∧ ∀ file ∈ pkg.files, fs.RegularAt file
  local_names : (localdb.map Pkg.name).Nodup
  disjoint : localdb.Pairwise fun p q => ∀ file ∈ p.files, file ∉ q.files
  remove_subset : remove ⊆ localdb
  target : ∀ target ∈ add, RegularTarget target (content target) ∧
    ∀ file ∈ target.pkg.files, fs.RegularAt file
  add_names : (add.map (·.pkg.name)).Nodup
  oldpkg : ∀ target ∈ add, ∀ pkg ∈ pkgFind localdb target.pkg.name,
    ∃ addr, target.oldpkg = some (pkg.copyAt addr)

namespace RegularTransaction

open CommitContext

variable (tx : RegularTransaction)

def opts : FileOptions := { root := tx.root }

/-- What `_alpm_db_find_fileconflicts` reads. -/
def check : ConflictCheck where
  sys := tx.sys
  opts := tx.opts
  fs := tx.fs
  localdb := tx.localdb
  upgrade := tx.add.map (·.pkg)
  rem := tx.remove

def ctx : CommitContext where
  sys := tx.sys
  opts := tx.opts
  flags := tx.flags
  skipRemove := tx.check.findFileconflicts.skipRemove

/-- The commit, when the targets are in the given order. -/
def commit (order : List AddTarget) : CommitState :=
  tx.ctx.commit tx.remove order tx.fs tx.localdb

/-- What the commit should leave on the disk when it comes to its end: the files of the targets with
their contents, and every file that belongs to no package as it was. -/
structure Kept (order : List AddTarget) : Prop where
  returns : (tx.commit order).crashed = false
  installed : ∀ target ∈ tx.add, ∀ file ∈ target.pkg.files,
    (tx.commit order).fs.node file = some (.file (tx.content target file))
  untouched : ∀ file, tx.fs.node file ≠ none → (∀ pkg ∈ tx.localdb, file ∉ pkg.files) →
    (tx.commit order).fs.node file = tx.fs.node file

/-- The installed version of a target that its commit replaces. -/
def replaced (target : AddTarget) : Option Pkg :=
  if target.pkg.name ∈ tx.remove.map Pkg.name then none else pkgFind tx.localdb target.pkg.name

/-- The journal of the commit. -/
def journal (order : List AddTarget) : List (Journal.Entry CString Node) :=
  tx.remove.flatMap (removals tx.ctx.skipRemove) ++
    order.flatMap fun target => targetJournal tx.ctx.skipRemove (tx.replaced target) target

variable {tx}

theorem check_regular : tx.check.Regular where
  overwrite := rfl
  pkg := by
    intro pkg hpkg
    obtain ⟨target, htarget, rfl⟩ := List.mem_map.mp hpkg
    exact (tx.target target htarget).1.pkg
  localPkg := fun pkg hpkg => (tx.localPkg pkg hpkg).1
  node := by
    intro pkg hpkg
    obtain ⟨target, htarget, rfl⟩ := List.mem_map.mp hpkg
    exact (tx.target target htarget).2

theorem ctx_regular : tx.ctx.Regular := ⟨tx.plain, rfl, rfl, tx.not_dbonly⟩

theorem mem_replaced {target : AddTarget} {pkg : Pkg} :
    pkg ∈ tx.replaced target ↔
      target.pkg.name ∉ tx.remove.map Pkg.name ∧ pkgFind tx.localdb target.pkg.name = some pkg := by
  unfold replaced
  split_ifs with h
  · simp [h]
  · simp [h]

/-- What the commit of a target removes is a copy of the installed version. -/
theorem replacedPkg_eq {target : AddTarget} (htarget : target ∈ tx.add) :
    replacedPkg (tx.remove.foldl (listRemove pkgCmp) tx.localdb) target = none ∧
        tx.replaced target = none ∨
      ∃ pkg addr, tx.replaced target = some pkg ∧
        replacedPkg (tx.remove.foldl (listRemove pkgCmp) tx.localdb) target =
          some (pkg.copyAt addr) := by
  unfold replaced
  rcases replacedPkg_removed tx.local_names (tx.oldpkg target htarget) with
    ⟨hnone, hno⟩ | ⟨pkg, addr, hremove, hfind, hcopy⟩
  · refine Or.inl ⟨hnone, ?_⟩
    split_ifs with hremove
    · rfl
    · exact hno hremove
  · exact Or.inr ⟨pkg, addr, by rw [if_neg hremove, hfind], hcopy⟩

/-- **A commit replays its journal**, and comes to its end.  Extraction and removal are single
entries, a target is the deletions of its old version and then its writes, and the loops put these
one behind the other; none of them meets a backup file. -/
theorem commit_node {order : List AddTarget} (hperm : order.Perm tx.add) :
    (tx.commit order).fs.node = replay tx.fs.node (tx.journal order) ∧
      (tx.commit order).crashed = false := by
  have hctx := tx.ctx_regular
  obtain ⟨hnode, hcrashed⟩ := @Regular.removePackages_node _
    { fs := tx.fs, localdb := tx.localdb } hctx tx.remove
    (fun pkg hpkg => tx.localPkg pkg (tx.remove_subset hpkg)) rfl
  have hlocaldb := @removePackages_localdb tx.ctx { fs := tx.fs, localdb := tx.localdb } tx.remove
    rfl
  have hinterrupted := @removePackages_interrupted tx.ctx { fs := tx.fs, localdb := tx.localdb }
    tx.remove rfl
  have hkept : ∀ path, tx.fs.RegularAt path → (tx.ctx.removePackages tx.remove
      { fs := tx.fs, localdb := tx.localdb }).fs.RegularAt path := fun path hpath =>
    regularAt_of_replay hnode hpath (by simp [not_mem_removals])
  have hold : ∀ target ∈ order, ∀ pkg ∈ replacedPkg (tx.ctx.removePackages tx.remove
      { fs := tx.fs, localdb := tx.localdb }).localdb target,
      pkg.name = target.pkg.name ∧ RegularPkg pkg ∧
        ∀ file ∈ pkg.files, (tx.ctx.removePackages tx.remove
          { fs := tx.fs, localdb := tx.localdb }).fs.RegularAt file := by
    intro target htarget pkg hpkg
    rw [hlocaldb] at hpkg
    rcases replacedPkg_eq (hperm.mem_iff.mp htarget) with ⟨hnone, -⟩ | ⟨old, addr, hold, hcopy⟩
    · rw [hnone] at hpkg
      cases hpkg
    · rw [hcopy] at hpkg
      obtain rfl := Option.some.inj hpkg
      obtain ⟨-, hfind⟩ := mem_replaced.mp hold
      obtain ⟨hmem, hname⟩ := pkgFind_eq_some hfind
      obtain ⟨hregular, hfiles⟩ := tx.localPkg old hmem
      exact ⟨hname, ⟨hregular.sorted, hregular.backup, hregular.not_slash, hregular.not_dot⟩,
        fun file hfile => hkept file (hfiles file hfile)⟩
  obtain ⟨hupgrade, hupgradeCrashed⟩ := hctx.upgradePackages_node
    ((hperm.map fun target => target.pkg.name).nodup_iff.mpr tx.add_names)
    (fun target htarget => ⟨(tx.target target (hperm.mem_iff.mp htarget)).1, fun file hfile =>
      hkept file ((tx.target target (hperm.mem_iff.mp htarget)).2 file hfile)⟩) hold hinterrupted
  rw [commit, CommitContext.commit, hupgrade, hnode, journal, Journal.replay_append, hlocaldb]
  refine ⟨?_, hupgradeCrashed.trans hcrashed⟩
  congr 1
  refine List.flatMap_congr fun target htarget => ?_
  rcases replacedPkg_eq (hperm.mem_iff.mp htarget) with ⟨hnone, hnone'⟩ | ⟨old, addr, hold, hcopy⟩
  · rw [hnone, hnone']
  · rw [hcopy, hold]
    rfl

/-! ## What is in the journal -/

theorem del_mem_removals {skipRemove : List CString} {pkg : Pkg} {path : CString} :
    .del path ∈ removals skipRemove pkg ↔ path ∈ pkg.files ∧ path ∉ skipRemove := by
  simp [removals]

theorem del_mem_targetJournal {skipRemove : List CString} {oldpkg : Option Pkg}
    {target : AddTarget} {path : CString} :
    .del path ∈ targetJournal skipRemove oldpkg target ↔
      (∃ pkg ∈ oldpkg, path ∈ pkg.files) ∧ path ∉ skipRemove := by
  cases oldpkg <;> simp [targetJournal, installs, del_mem_removals]

theorem put_mem_targetJournal {skipRemove : List CString} {oldpkg : Option Pkg}
    {target : AddTarget} {content : CString → CString} (htarget : RegularTarget target content)
    {path : CString} {node : Node} :
    .put path node ∈ targetJournal skipRemove oldpkg target ↔
      path ∈ target.pkg.files ∧ node = .file (content path) := by
  rw [← mem_installs htarget, targetJournal, List.mem_append, or_iff_right]
  simp [not_mem_removals]

theorem put_mem_journal {order : List AddTarget} (horder : order ⊆ tx.add) {path : CString}
    {node : Node} :
    .put path node ∈ tx.journal order ↔
      ∃ target ∈ order, path ∈ target.pkg.files ∧ node = .file (tx.content target path) := by
  rw [journal, List.mem_append, or_iff_right (by simp [not_mem_removals]), List.mem_flatMap]
  exact exists_congr fun target => and_congr_right fun htarget =>
    put_mem_targetJournal (tx.target target (horder htarget)).1

/-- Only files of installed packages are removed. -/
theorem installed_of_del_mem_journal {order : List AddTarget} {path : CString}
    (h : .del path ∈ tx.journal order) : ∃ pkg ∈ tx.localdb, path ∈ pkg.files := by
  rcases List.mem_append.mp h with h | h
  · obtain ⟨pkg, hpkg, h⟩ := List.mem_flatMap.mp h
    exact ⟨pkg, tx.remove_subset hpkg, (del_mem_removals.mp h).1⟩
  · obtain ⟨target, -, h⟩ := List.mem_flatMap.mp h
    obtain ⟨⟨pkg, hpkg, hpath⟩, -⟩ := del_mem_targetJournal.mp h
    exact ⟨pkg, (pkgFind_eq_some (mem_replaced.mp hpkg).2).1, hpath⟩

/-! ## Owners -/

/-- A file has one owner at most. -/
theorem owner_unique {p q : Pkg} (hp : p ∈ tx.localdb) (hq : q ∈ tx.localdb) {file : CString}
    (hpfile : file ∈ p.files) (hqfile : file ∈ q.files) : p = q := by
  by_contra hne
  have hsymm : Std.Symm fun p q : Pkg => ∀ file ∈ p.files, file ∉ q.files :=
    ⟨fun p q h file hq hp => h file hp hq⟩
  exact tx.disjoint.forall hp hq hne file hpfile hqfile

theorem resolved (hnil : tx.check.findFileconflicts.conflicts = []) {target : AddTarget}
    (htarget : target ∈ tx.add) {file : CString} (hfile : file ∈ target.pkg.files)
    (hdbpkg : ∀ dbpkg ∈ pkgFind tx.localdb target.pkg.name, file ∉ dbpkg.files)
    (hnode : tx.fs.node file ≠ none) :
    (∃ pkg ∈ tx.remove, file ∈ pkg.files) ∨
      (∃ pkg ∈ tx.localdb, file ∈ pkg.files) ∧ file ∈ tx.ctx.skipRemove := by
  rcases tx.check_regular.resolved_of_conflicts_nil hnil (List.mem_map_of_mem htarget) hfile hdbpkg
    hnode with h | ⟨h, hskip⟩
  · obtain ⟨pkg, hpkg, hin⟩ := List.any_eq_true.mp h
    exact Or.inl ⟨pkg, hpkg, filelistContains_iff.mp hin⟩
  · refine Or.inr ⟨?_, hskip⟩
    obtain ⟨p2, -, hp2⟩ := List.any_eq_true.mp h
    rw [Bool.and_eq_true] at hp2
    obtain ⟨-, hp2⟩ := hp2
    split at hp2
    next => cases hp2
    next localp2 hfind =>
      exact ⟨localp2, (pkgFind_eq_some hfind).1, filelistContains_iff.mp hp2⟩

/-- Without conflicts, a target installs no file over one that belongs to no package. -/
theorem exists_owner (hnil : tx.check.findFileconflicts.conflicts = []) {target : AddTarget}
    (htarget : target ∈ tx.add) {file : CString} (hfile : file ∈ target.pkg.files)
    (hnode : tx.fs.node file ≠ none) : ∃ pkg ∈ tx.localdb, file ∈ pkg.files := by
  by_cases hdbpkg : ∀ dbpkg ∈ pkgFind tx.localdb target.pkg.name, file ∉ dbpkg.files
  · rcases resolved hnil htarget hfile hdbpkg hnode with ⟨pkg, hpkg, hin⟩ | ⟨howner, -⟩
    · exact ⟨pkg, tx.remove_subset hpkg, hin⟩
    · exact howner
  · push Not at hdbpkg
    obtain ⟨dbpkg, hfind, hin⟩ := hdbpkg
    exact ⟨dbpkg, (pkgFind_eq_some hfind).1, hin⟩

/-- The removal of a file on the disk is skipped when another target installs it. -/
theorem mem_skipRemove (hnil : tx.check.findFileconflicts.conflicts = []) {target other : AddTarget}
    (htarget : target ∈ tx.add) (hother : other ∈ tx.add) (hne : target ≠ other)
    {file : CString} (hfile : file ∈ target.pkg.files) {pkg : Pkg}
    (hpkg : pkg ∈ tx.replaced other) (hin : file ∈ pkg.files) (hnode : tx.fs.node file ≠ none) :
    file ∈ tx.ctx.skipRemove := by
  obtain ⟨hremove, hfind⟩ := mem_replaced.mp hpkg
  obtain ⟨hlocal, hname⟩ := pkgFind_eq_some hfind
  have hnames : target.pkg.name ≠ other.pkg.name := fun heq =>
    hne (List.inj_on_of_nodup_map tx.add_names htarget hother heq)
  have hdbpkg : ∀ dbpkg ∈ pkgFind tx.localdb target.pkg.name, file ∉ dbpkg.files := by
    intro dbpkg hdbpkg hdbin
    obtain ⟨hdb, hdbname⟩ := pkgFind_eq_some hdbpkg
    rw [owner_unique hdb hlocal hdbin hin, hname] at hdbname
    exact hnames hdbname.symm
  rcases resolved hnil htarget hfile hdbpkg hnode with ⟨q, hq, hqin⟩ | ⟨-, hskip⟩
  · rw [owner_unique (tx.remove_subset hq) hlocal hqin hin] at hq
    exact absurd (List.mem_map.mpr ⟨pkg, hq, hname⟩) hremove
  · exact hskip

/-! ## Which files are kept -/

variable (tx) in
/-- Targets with a file in common have the same content for it. -/
def SameContent : Prop :=
  ∀ target ∈ tx.add, ∀ other ∈ tx.add, ∀ file ∈ target.pkg.files, file ∈ other.pkg.files →
    tx.content target file = tx.content other file

variable (tx) in
/-- When a file of the installed version of a target is not on the disk, and an earlier target
installs it, then this target or a later one installs it again. -/
def Reinstalled (order : List AddTarget) : Prop :=
  ∀ before target after, order = before ++ target :: after →
    ∀ pkg ∈ tx.replaced target, ∀ file ∈ pkg.files, tx.fs.node file = none →
      (∃ earlier ∈ before, file ∈ earlier.pkg.files) →
        ∃ later ∈ target :: after, file ∈ later.pkg.files

variable {order : List AddTarget}

theorem untouched_of_conflicts_nil (hperm : order.Perm tx.add)
    (hnil : tx.check.findFileconflicts.conflicts = []) {file : CString}
    (hnode : tx.fs.node file ≠ none) (hunowned : ∀ pkg ∈ tx.localdb, file ∉ pkg.files) :
    (tx.commit order).fs.node file = tx.fs.node file := by
  rw [(commit_node hperm).1]
  refine Journal.replay_of_notMem fun hmem => ?_
  have hno : ¬ ∃ pkg ∈ tx.localdb, file ∈ pkg.files := fun ⟨pkg, hpkg, hin⟩ =>
    hunowned pkg hpkg hin
  obtain ⟨entry, hentry, hkey⟩ := List.mem_map.mp hmem
  cases entry with
  | put path node =>
    obtain rfl : path = file := hkey
    obtain ⟨target, htarget, hin, -⟩ := (put_mem_journal hperm.subset).mp hentry
    exact hno (exists_owner hnil (hperm.subset htarget) hin hnode)
  | del path =>
    obtain rfl : path = file := hkey
    exact hno (installed_of_del_mem_journal hentry)

/-- A file that some target installs is there afterwards, unless it is removed again. -/
theorem installed_of_reinstalled (hperm : order.Perm tx.add)
    (hnil : tx.check.findFileconflicts.conflicts = []) (hsame : tx.SameContent)
    (hagain : tx.Reinstalled order) {target : AddTarget} (htarget : target ∈ tx.add)
    {file : CString} (hfile : file ∈ target.pkg.files) :
    (tx.commit order).fs.node file = some (.file (tx.content target file)) := by
  obtain ⟨before, last, after, rfl, hlast, hafter⟩ :=
    Journal.exists_last (P := fun t : AddTarget => file ∈ t.pkg.files)
      ⟨target, hperm.mem_iff.mpr htarget, hfile⟩
  have hsplit : tx.journal (before ++ last :: after) =
      (tx.journal before ++ (tx.replaced last).toList.flatMap (removals tx.ctx.skipRemove)) ++
        (installs last ++
          after.flatMap fun t => targetJournal tx.ctx.skipRemove (tx.replaced t) t) := by
    simp only [journal, targetJournal, List.flatMap_append, List.flatMap_cons, List.append_assoc]
  have hput : .put file (.file (tx.content target file)) ∈ installs last ++
      after.flatMap fun t => targetJournal tx.ctx.skipRemove (tx.replaced t) t := by
    have hlastMem : last ∈ tx.add := hperm.subset (by simp)
    rw [hsame target htarget last hlastMem file hfile hlast]
    exact List.mem_append_left _ ((mem_installs (tx.target last hlastMem).1).mpr ⟨hlast, rfl⟩)
  rw [(commit_node hperm).1, hsplit]
  refine Journal.replay_append_of_put hput (fun hdel => ?_) fun node hnode => ?_
  · rcases List.mem_append.mp hdel with hdel | hdel
    · simp [installs] at hdel
    obtain ⟨other, hother, hdel⟩ := List.mem_flatMap.mp hdel
    obtain ⟨⟨pkg, hpkg, hin⟩, hskip⟩ := del_mem_targetJournal.mp hdel
    by_cases hnode : tx.fs.node file = none
    · obtain ⟨mid, rest, rfl⟩ := List.append_of_mem hother
      obtain ⟨later, hlater, hlaterIn⟩ := hagain (before ++ last :: mid) other rest (by simp) pkg
        hpkg file hin hnode ⟨last, by simp, hlast⟩
      exact hafter later (List.mem_append_right _ hlater) hlaterIn
    · have hne : last ≠ other := fun heq => hafter other hother (heq ▸ hlast)
      exact hskip (mem_skipRemove hnil (hperm.subset (by simp))
        (hperm.subset (by simp [hother])) hne hlast hpkg hin hnode)
  · have hjournal : .put file node ∈ tx.journal (before ++ last :: after) := by
      rw [hsplit]
      exact List.mem_append_right _ hnode
    obtain ⟨other, hother, hin, rfl⟩ := (put_mem_journal hperm.subset).mp hjournal
    rw [hsame target htarget other (hperm.subset hother) file hfile hin]

/-- **Files of installed packages survive a commit** without conflicts just when targets that share
a file agree on it, and nothing removes a file again that another target has installed at a path
that was free.  The commit replays its journal, so for each file it is the last entry for its path
that has to be a write of the right content. -/
theorem kept_iff (hperm : order.Perm tx.add)
    (hnil : tx.check.findFileconflicts.conflicts = []) :
    tx.Kept order ↔ tx.SameContent ∧ tx.Reinstalled order := by
  constructor
  · rintro ⟨-, hinstalled, -⟩
    refine ⟨fun target htarget other hother file hfile hfile' => ?_, ?_⟩
    · have htarget := hinstalled target htarget file hfile
      rw [hinstalled other hother file hfile'] at htarget
      exact (Node.file.inj (Option.some.inj htarget)).symm
    · rintro before target after rfl pkg hpkg file hfile hnode ⟨earlier, hearlier, hin⟩
      by_contra hnone
      have hskip : file ∉ tx.ctx.skipRemove := fun hskip =>
        (ConflictCheck.moved_of_mem_skipRemove hskip).exists_node hnode
      have hsplit : tx.journal (before ++ target :: after) = tx.journal before ++
          (target :: after).flatMap fun t =>
            targetJournal tx.ctx.skipRemove (tx.replaced t) t := by
        simp only [journal, List.flatMap_append, List.append_assoc]
      have hdel : .del file ∈ (target :: after).flatMap fun t =>
          targetJournal tx.ctx.skipRemove (tx.replaced t) t :=
        List.mem_flatMap.mpr ⟨target, List.mem_cons_self .., del_mem_targetJournal.mpr
          ⟨⟨pkg, hpkg, hfile⟩, hskip⟩⟩
      have hgone : (tx.commit (before ++ target :: after)).fs.node file = none := by
        rw [(commit_node hperm).1, hsplit]
        refine Journal.replay_append_of_del hdel fun node hput => ?_
        obtain ⟨later, hlater, hput⟩ := List.mem_flatMap.mp hput
        have hmem : later ∈ tx.add := hperm.subset (List.mem_append_right _ hlater)
        exact hnone ⟨later, hlater, ((put_mem_targetJournal (tx.target later hmem).1).mp hput).1⟩
      have hthere := hinstalled earlier (hperm.subset (by simp [hearlier])) file hin
      rw [hgone] at hthere
      cases hthere
  · rintro ⟨hsame, hagain⟩
    exact ⟨(commit_node hperm).2, fun target htarget file hfile =>
      installed_of_reinstalled hperm hnil hsame hagain htarget hfile,
      fun file hnode hunowned => untouched_of_conflicts_nil hperm hnil hnode hunowned⟩

/-! ## A file that changes hands while it is not on the disk -/

/-- A system without links. -/
def plainSystem : System where
  md5 := id
  linkMd5 := fun _ _ => none
  linkStat := fun _ _ => false
  fnmatch := fun _ _ => false
  regcomp := fun _ => none
  behindName := fun _ => []
  extract := fun fs path node => (true, fs.set path (some node))
  isMountpoint := fun _ => false
  canRemove := fun _ => true

/-- `bin/x` belongs to the installed package `old`, and it was deleted.  In the transaction it
moves to the package `new`. -/
def movedFile : RegularTransaction where
  sys := plainSystem
  root := str "/"
  flags := {}
  fs := .empty
  localdb := [{ name := str "old", version := str "1-1", files := [str "bin/x"] }]
  remove := []
  add := [
    { pkg := { name := str "new", version := str "1-1", files := [str "bin/x"], origin := .file }
      oldpkg := none
      archive := [⟨str "bin/x", .file (str "content")⟩] },
    { pkg := { name := str "old", version := str "2-1", origin := .file }
      oldpkg := some { name := str "old", version := str "1-1", files := [str "bin/x"] }
      archive := [] }]
  content := fun _ _ => str "content"
  plain := ⟨fun _ => rfl, fun _ _ _ _ => rfl⟩
  not_dbonly := TransFlags.not_dbonly_default
  localPkg := by
    intro pkg hpkg
    obtain rfl := List.mem_singleton.mp hpkg
    exact ⟨⟨by simp, rfl, by decide, by decide⟩, fun file _ node hnode => by cases hnode⟩
  local_names := by simp
  disjoint := by simp
  remove_subset := by simp
  target := by
    intro target htarget
    refine ⟨?_, fun file _ node hnode => by cases hnode⟩
    simp only [List.mem_cons, List.not_mem_nil, or_false] at htarget
    rcases htarget with rfl | rfl
    · exact ⟨⟨by simp, rfl, by decide, by decide⟩, by simp, by simp⟩
    · exact ⟨⟨by simp, rfl, by simp, by simp⟩, by simp, by simp⟩
  add_names := by decide
  oldpkg := by
    intro target htarget pkg hpkg
    simp only [List.mem_cons, List.not_mem_nil, or_false] at htarget
    obtain ⟨hmem, hname⟩ := pkgFind_eq_some hpkg
    obtain rfl := List.mem_singleton.mp hmem
    rcases htarget with rfl | rfl
    · exact absurd hname (by decide)
    · exact ⟨0, rfl⟩

theorem kept_iff_movedFile :
    movedFile.add.reverse.Perm movedFile.add ∧
      movedFile.check.findFileconflicts.conflicts = [] ∧ movedFile.Kept movedFile.add.reverse := by
  have hperm : movedFile.add.reverse.Perm movedFile.add := List.reverse_perm _
  have hnil : movedFile.check.findFileconflicts.conflicts = [] := by decide +kernel
  refine ⟨hperm, hnil, (kept_iff hperm hnil).mpr ⟨fun _ _ _ _ _ _ _ => rfl, ?_⟩⟩
  rintro (_ | ⟨first, _ | ⟨second, before⟩⟩) target after horder pkg hpkg file hfile hnode hearlier
  · simp at hearlier
  · have htarget := (List.cons.inj (List.cons.inj horder).2).1
    obtain ⟨hmem, hname⟩ := pkgFind_eq_some (mem_replaced.mp hpkg).2
    rw [List.mem_singleton.mp hmem, ← htarget] at hname
    exact absurd hname (by decide)
  · have hlength := congrArg List.length horder
    simp [movedFile] at hlength

theorem kept_movedFile_false :
    movedFile.check.findFileconflicts.conflicts = [] ∧ ¬ movedFile.Kept movedFile.add := by
  refine ⟨by decide +kernel, fun hkept => ?_⟩
  have hgone : (movedFile.commit movedFile.add).fs.node (str "bin/x") = none := by decide +kernel
  have hthere := hkept.installed _ (List.mem_cons_self ..) (str "bin/x") (List.mem_singleton_self _)
  rw [hgone] at hthere
  cases hthere

end RegularTransaction

end Alpm
