import Alpm.Files.Filelist

/-!
# File conflicts

`_alpm_db_find_fileconflicts`: the files of every target are compared with those of the later
targets (CHECK 1) and with what is on the disk (CHECK 2).

A file that stands in the way is no conflict if it goes away with a removed package, or if another
target's installed version owns it.  In the second case its path is added to `trans->skip_remove`,
so that the upgrade of the old owner does not remove what the new owner has installed.  A path that
is not on the disk is passed over before that question is asked; `moved_of_mem_skipRemove` has this
as a fact about every skipped path, and what comes of it is in `Alpm.Files.Ownership`.

When a directory of the target takes the place of a file, the files inside it can not be on the
disk; their paths are passed over, and `insideOf` is the path that is remembered for that.

The loop over the files of a target is a recursion on the paths that are left, with this path as an
argument, and the recursion through a directory tree has a depth, which no tree that fits in
`PATH_MAX` exceeds.  Paths are taken to be shorter than `PATH_MAX`.
-/

namespace Alpm

/-- The options of a handle that are about files. -/
structure FileOptions where
  root : CString := str "/"
  noupgrade : List CString := []
  noextract : List CString := []
  overwriteFiles : List CString := []
  deriving DecidableEq, Repr

/-- The pattern is one that inverts matches. -/
def isInverted (pattern : CString) : Bool := deref pattern = '!'

/-- The pattern without its leading exclamation mark or backslash. -/
def patternBody (pattern : CString) : CString :=
  if isInverted pattern || deref pattern = '\\' then pattern.tail else pattern

/-- `_alpm_fnmatch_patterns`: the last pattern that matches decides. -/
def fnmatchPatterns (sys : System) (patterns : List CString) (string : CString) : Int :=
  match patterns.reverse.find? fun pattern => sys.fnmatch (patternBody pattern) string with
  | some pattern => if isInverted pattern then 1 else 0
  | none => -1

/-- `_alpm_needbackup`. -/
def needbackup (file : CString) (pkg : Pkg) : Option Backup :=
  pkg.backup.find? fun backup => strcmp file backup.name = 0

/-- `alpm_fileconflicttype_t`. -/
inductive FileconflictType where
  | target
  | filesystem
  deriving DecidableEq, Repr

/-- `alpm_fileconflict_t`. -/
structure Fileconflict where
  target : CString
  file : CString
  type : FileconflictType
  ctarget : CString
  deriving DecidableEq, Repr

/-- The conflict that `add_fileconflict` appends. -/
def fileconflict (filestr : CString) (pkg1 : Pkg) (pkg2 : Option Pkg) : Fileconflict :=
  match pkg2 with
  | none => { target := pkg1.name, file := filestr, type := .filesystem, ctarget := [] }
  | some pkg2 =>
    { target := pkg1.name, file := filestr,
      type := if pkg2.origin = .localdb then .filesystem else .target, ctarget := pkg2.name }

/-- What `_alpm_db_find_fileconflicts` reads. -/
structure ConflictCheck where
  sys : System
  opts : FileOptions
  fs : FileSystem
  localdb : List Pkg
  upgrade : List Pkg
  rem : List Pkg

namespace ConflictCheck

variable (check : ConflictCheck)

/-- `_alpm_can_overwrite_file`. -/
def canOverwriteFile (path rootedpath : CString) : Bool :=
  fnmatchPatterns check.sys check.opts.overwriteFiles path = 0 ||
    fnmatchPatterns check.sys check.opts.overwriteFiles rootedpath = 0

/-- Some package of the list contains the path. -/
def ownedIn (pkgs : List Pkg) (path : CString) : Bool :=
  pkgs.any fun pkg => filelistContains pkg.files path

/-- `alpm_db_find_file_owners`. -/
def findFileOwners (path : CString) : List Pkg :=
  check.localdb.filter fun pkg => filelistContains pkg.files path

/-- `_alpm_find_file_owner`. -/
def findFileOwner (path : CString) : Option Pkg :=
  check.localdb.find? fun pkg => filelistContains pkg.files path

/-- `dir_belongsto_pkgs`, down to a given depth: everything below the directory is in one of the
packages. -/
def dirBelongstoPkgs (pkgs : List Pkg) : ℕ → CString → Bool
  | 0, _ => false
  | depth + 1, dirpath =>
    check.fs.llstat dirpath = some .dir &&
      (check.fs.readdir (stripSlash dirpath)).all fun name =>
        match check.fs.node (dirpath ++ name) with
        | none => false
        | some node =>
          let isDir := node = .dir
          let path := dirpath ++ name ++ if isDir then str "/" else []
          let owned := ownedIn pkgs path
          if owned && isDir then dirBelongstoPkgs pkgs depth path else owned

/-- The longest path, which no directory tree is deeper than. -/
def maxDepth : ℕ := (check.fs.paths.map List.length).foldr max 0 + 1

/-- CHECK 1 for two targets. -/
def targetConflicts (p1 p2 : Pkg) : List Fileconflict :=
  (filelistIntersection p1.files p2.files).filterMap fun filename =>
    let path := check.opts.root ++ filename
    if check.canOverwriteFile filename path && filelistContains p2.files filename then none
    else some (fileconflict path p1 (some p2))

/-- The file belongs to the installed version of another target. -/
def changedHands (p1 : Pkg) (relativePath : CString) : Bool :=
  check.upgrade.any fun p2 =>
    p2 ≠ p1 && match pkgFind check.localdb p2.name with
      | none => false
      | some localp2 => filelistContains localp2.files relativePath

/-- "check if all files of the dir belong to the installed pkg" -/
def dirResolved (dbpkg : Option Pkg) (relativePath : CString) : Bool :=
  let dir := relativePath ++ str "/"
  let owners := check.findFileOwners dir
  let pkgs := dbpkg.toList ++ check.rem
  !owners.isEmpty && (listDiff pkgCmp owners pkgs).isEmpty &&
    check.dirBelongstoPkgs owners check.maxDepth dir

/-- "is the file unowned and in the backup list of the new package?" -/
def unownedBackup (p1 : Pkg) (relativePath : CString) : Bool :=
  (needbackup relativePath p1).isSome && !ownedIn check.localdb relativePath

/-- The conflicts that were found and `trans->skip_remove`. -/
structure Found where
  conflicts : List Fileconflict := []
  skipRemove : List CString := []
  deriving DecidableEq, Repr

/-- Below which path files are passed over once a conflict at `filestr` is resolved. -/
def insideOf (filestr : CString) : Option CString :=
  if hasSlash filestr then some filestr else none

/-- CHECK 2 for the paths of `newfiles` that are left.  In `inside` is the path of a
directory that was resolved by replacing a file; the files inside it are passed over. -/
def checkFiles (p1 : Pkg) (dbpkg : Option Pkg) : Option CString → List CString → Found → Found
  | _, [], found => found
  | inside, filestr :: rest, found =>
    if inside.any (·.isPrefixOf filestr) then checkFiles p1 dbpkg inside rest found
    else
      match check.fs.llstat filestr with
      | none => checkFiles p1 dbpkg none rest found
      | some node =>
        let pfileIsdir := hasSlash filestr
        if pfileIsdir && node = .dir then checkFiles p1 dbpkg none rest found
        else
          let relativePath := stripSlash filestr
          let path := check.opts.root ++ relativePath
          let inside := insideOf filestr
          if pfileIsdir && dbpkg.any (filelistContains ·.files relativePath) then
            checkFiles p1 dbpkg inside rest found
          else if ownedIn check.rem relativePath then checkFiles p1 dbpkg inside rest found
          else if check.changedHands p1 relativePath then
            checkFiles p1 dbpkg inside rest
              { found with skipRemove := found.skipRemove ++ [relativePath] }
          else if node = .dir && check.dirResolved dbpkg relativePath ||
              check.unownedBackup p1 relativePath ||
              node ≠ .dir && check.canOverwriteFile filestr path then
            checkFiles p1 dbpkg none rest found
          else
            checkFiles p1 dbpkg none rest { found with
              conflicts := found.conflicts ++
                [fileconflict path p1 (check.findFileOwner relativePath)] }

/-- The paths of a target that CHECK 2 looks at: those that its installed version lacks. -/
def newfiles (p1 : Pkg) : List CString :=
  match pkgFind check.localdb p1.name with
  | some dbpkg => filelistDifference p1.files dbpkg.files
  | none => p1.files

/-- The loop of `_alpm_db_find_fileconflicts` over the targets that are left. -/
def checkTargets : List Pkg → Found → Found
  | [], found => found
  | p1 :: rest, found =>
    let found := { found with
      conflicts := found.conflicts ++ rest.flatMap (check.targetConflicts p1) }
    checkTargets rest (check.checkFiles p1 (pkgFind check.localdb p1.name) none
      (check.newfiles p1) found)

/-- `_alpm_db_find_fileconflicts`: the conflicts, and `trans->skip_remove` afterwards. -/
def findFileconflicts : Found := check.checkTargets check.upgrade {}

/-! ## What is on the disk and what is skipped -/

variable {check} {p1 : Pkg} {dbpkg : Option Pkg} {inside : Option CString}
  {files : List CString} {found : Found}

/-- A path that CHECK 2 adds to `skip_remove` is on the disk, belongs to no removed package
and changes hands, to a target in which it is new. -/
structure Moved (check : ConflictCheck) (path : CString) : Prop where
  exists_node : check.fs.node path ≠ none
  not_removed : ¬ ownedIn check.rem path
  hands : ∃ p1 ∈ check.upgrade, check.changedHands p1 path ∧
    ∃ filestr ∈ check.newfiles p1, stripSlash filestr = path

theorem checkFiles_skipRemove (hp1 : p1 ∈ check.upgrade) (hfiles : files ⊆ check.newfiles p1)
    {path : CString} (h : path ∈ (check.checkFiles p1 dbpkg inside files found).skipRemove) :
    path ∈ found.skipRemove ∨ check.Moved path := by
  induction files generalizing inside found with
  | nil => exact Or.inl h
  | cons filestr rest ih =>
    obtain ⟨hhead, hrest⟩ := List.cons_subset.mp hfiles
    rw [checkFiles] at h
    split_ifs at h with hinside
    · exact ih hrest h
    · split at h
      · exact ih hrest h
      · next node hnode =>
        dsimp only at h
        split_ifs at h with hdir hdb hrem hhands hother
        · exact ih hrest h
        · exact ih hrest h
        · exact ih hrest h
        · rcases ih hrest h with h | h
          · rcases List.mem_append.mp h with h | h
            · exact Or.inl h
            · obtain rfl := List.mem_singleton.mp h
              refine Or.inr ⟨?_, hrem, p1, hp1, hhands, filestr, hhead, rfl⟩
              rw [show check.fs.node (stripSlash filestr) = some node from hnode]
              simp
          · exact Or.inr h
        · exact ih hrest h
        · have hleft := ih hrest h
          exact hleft

theorem checkTargets_skipRemove {targets : List Pkg} (htargets : targets ⊆ check.upgrade)
    {path : CString} (h : path ∈ (check.checkTargets targets found).skipRemove) :
    path ∈ found.skipRemove ∨ check.Moved path := by
  induction targets generalizing found with
  | nil => exact Or.inl h
  | cons p1 rest ih =>
    rw [checkTargets] at h
    rcases ih (fun p hp => htargets (List.mem_cons_of_mem _ hp)) h with h | h
    · have hp1 := checkFiles_skipRemove (htargets (List.mem_cons_self ..)) (List.Subset.refl _) h
      exact hp1
    · exact Or.inr h

/-- **Skipped paths** are on the disk and move from one target's package to another.  This is an
invariant of the loops, which add a path to `skip_remove` in one branch only. -/
theorem moved_of_mem_skipRemove {path : CString}
    (h : path ∈ check.findFileconflicts.skipRemove) : check.Moved path := by
  rcases checkTargets_skipRemove (List.Subset.refl _) h with h | h
  · cases h
  · exact h

end ConflictCheck

end Alpm
