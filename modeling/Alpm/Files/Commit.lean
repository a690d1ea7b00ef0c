import Alpm.Files.Fileconflicts
import Alpm.Util

/-!
# Removing and installing packages

The parts of `remove.c` and `add.c` that change files, in `_alpm_remove_packages` and
`_alpm_upgrade_packages`.

## 1.  Removing

A file of a removed package is unlinked, and a directory goes when nothing is in it, no other
package has it and it is no mount point.  Unless the flag `NOSAVE` is set, a modified backup file is
renamed to its `.pacsave` name instead, and the saved files of earlier removals are shifted before
that (`shiftPacsave`).  Whether a file was modified is a comparison of its MD5 sum with the hash of
the backup entry; an entry of which the record has no hash is compared all the same, as a `NULL`
argument of `strcmp`.  There the process dies, so `unlinkFile` has no result, and the state after it
is marked as `crashed`.

## 2.  Installing

An entry of the archive goes to its path, or first to its `.pacnew` name when what is at the path
may have to stay.  `chooseFile` decides between the file on the disk, the new one and the hash
recorded for the old one, and leaves one of the two names.

## 3.  What is left out

Scriptlets and hooks are left out, and so are the files of the database, which are not in the file
system of the model, with the failures of creating them, of opening the archive and of changing to
the root directory.  Reading, renaming and unlinking do not fail, and paths are shorter than
`PATH_MAX`.
-/

namespace Alpm

/-- An entry of a package archive. -/
structure ArchiveEntry where
  pathname : CString
  node : Node
  deriving DecidableEq, Repr

/-- A package of `trans->add`, with its `oldpkg` field and its archive. -/
structure AddTarget where
  pkg : Pkg
  oldpkg : Option Pkg
  archive : List ArchiveEntry
  deriving DecidableEq, Repr

/-- What a commit reads from the handle and the transaction. -/
structure CommitContext where
  sys : System
  opts : FileOptions
  flags : TransFlags
  skipRemove : List CString

/-- What a commit changes: the files, the package cache of the local database and whether
`trans->state` is `STATE_INTERRUPTED`.  When `crashed` is set the process is dead, in a `strcmp`
with `NULL`; the flag is never taken back, and a state with it says only that there is no result. -/
structure CommitState where
  fs : FileSystem
  localdb : List Pkg
  interrupted : Bool := false
  crashed : Bool := false

namespace CommitContext

variable (ctx : CommitContext)

/-! ## Removing -/

/-- The `.pacsave` name of a file. -/
def pacsave (file : CString) : CString := file ++ str ".pacsave"

/-- `snprintf("%s.pacsave.%lu", file, i)`. -/
def numberedPacsave (file : CString) (i : ℕ) : CString :=
  pacsave file ++ str "." ++ (Nat.toDigits 10 i)

/-- `mdirname`, for a path relative to the root. -/
def mdirname (file : CString) : CString :=
  match strrchr file '/' with
  | some (dir, _) => dir
  | none => []

/-- `mbasename`. -/
def mbasename (file : CString) : CString :=
  match strrchr file '/' with
  | some (_, base) => base
  | none => file

/-- `strtoul(s, NULL, 10)`. -/
def strtoul (s : CString) : ℕ :=
  let s := s.dropWhile isspace
  let negative := deref s = '-'
  let s := if deref s = '-' ∨ deref s = '+' then s.tail else s
  let n := digitsValue (s.takeWhile isdigit)
  if 2 ^ 64 ≤ n then 2 ^ 64 - 1
  else if negative then (2 ^ 64 - n) % 2 ^ 64
  else n

/-- The regular expression for the names of saved files. -/
def regstr (basename : CString) : CString :=
  str "^" ++ basename ++ str "\\.pacsave\\.([[:digit:]]+)$"

/-- `cur_log`, read behind as many bytes of `d_name` as a saved file has before its number. -/
def curLog (basename name : CString) : ℕ :=
  strtoul ((name ++ '\x00' :: ctx.sys.behindName name).drop
    (basename.length + (str ".pacsave.").length))

/-- The highest number of a saved file, in the names of its directory. -/
def logMax (reg : CString → Bool) (fs : FileSystem) (file : CString) : ℕ :=
  let basename := mbasename file
  (fs.readdir (mdirname file)).foldl (fun logMax name =>
    if reg name then max logMax (ctx.curLog basename name) else logMax) 0

/-- The loop of `shift_pacsave` that counts `i` down to `2`. -/
def shiftNumbered (file : CString) : ℕ → FileSystem → FileSystem
  | 0, fs => fs
  | i + 1, fs =>
    if i + 1 > 1 then
      shiftNumbered file i (fs.rename (numberedPacsave file i) (numberedPacsave file (i + 1))).2
    else fs

/-- `shift_pacsave`: the numbered files go up by one from the highest number that was found, and the
file without a number becomes the first.  If the directory cannot be read nothing is moved. -/
def shiftPacsave (fs : FileSystem) (file : CString) : FileSystem :=
  let dirname := mdirname file
  match ctx.sys.regcomp (regstr (mbasename file)) with
  | none => fs
  | some reg =>
    -- `opendir`
    if dirname ≠ [] ∧ fs.node dirname ≠ some .dir then fs
    else
      let fs := shiftNumbered file ((ctx.logMax reg fs file + 1) % 2 ^ 64) fs
      if statOk ctx.sys fs (pacsave file) then
        (fs.rename (pacsave file) (numberedPacsave file 1)).2
      else fs

/-- `unlink_file`: the return value and the file system afterwards, and nothing when it compares
the hash of the file with that of an entry that has none. -/
def unlinkFile (st : CommitState) (oldpkg : Pkg) (newpkg : Option Pkg) (fileobj : CString)
    (nosave : Bool) : Option (Int × FileSystem) :=
  let fs := st.fs
  let file := stripSlash fileobj
  match fs.node file with
  | none => some (1, fs)
  | some .dir =>
    -- keep it if it contains files, is in the new package, is a mount point or is owned
    if fs.readdir file ≠ [] || newpkg.any (filelistContains ·.files fileobj) ||
        ctx.sys.isMountpoint file ||
        st.localdb.any (fun localPkg => !(oldpkg.nameHash = localPkg.nameHash ∧
            strcmp oldpkg.name localPkg.name = 0) && filelistContains localPkg.files fileobj) then
      some (0, fs)
    else some (0, fs.remove file)
  | some _ =>
    match needbackup fileobj oldpkg with
    | none => some (0, fs.remove file)
    | some backup =>
      if nosave then some (0, fs.remove file)
      else
        match computeMd5sum ctx.sys fs file, backup.hash with
        | none, _ => some (0, fs.remove file)
        -- `strcmp(filehash, NULL)`
        | some _, none => none
        | some filehash, some hash =>
          if filehash = hash then some (0, fs.remove file)
          else
            let fs := ctx.shiftPacsave fs file
            let (ok, fs) := fs.rename file (pacsave file)
            some (if ok then 0 else -1, fs)

/-- `should_skip_file`. -/
def shouldSkipFile (newpkg : Option Pkg) (path : CString) : Bool :=
  fnmatchPatterns ctx.sys ctx.opts.noupgrade path = 0 || path ∈ ctx.skipRemove ||
    newpkg.any fun newpkg =>
      (needbackup path newpkg).isSome && filelistContains newpkg.files path

/-- One round of the loop of `remove_package_files`. -/
def removeFile (oldpkg : Pkg) (newpkg : Option Pkg) (st : CommitState) (file : CString) :
    CommitState :=
  if ctx.shouldSkipFile newpkg file then st
  else
    match ctx.unlinkFile st oldpkg newpkg file ctx.flags.nosave with
    | some (_, fs) => { st with fs }
    | none => { st with crashed := true }

/-- `remove_package_files`.  The caller does not look at the return value. -/
def removePackageFiles (st : CommitState) (oldpkg : Pkg) (newpkg : Option Pkg) : CommitState :=
  if oldpkg.files.all fun file => ctx.shouldSkipFile newpkg file || ctx.sys.canRemove file then
    oldpkg.files.reverse.foldl (ctx.removeFile oldpkg newpkg) st
  else st

/-- `_alpm_remove_single_package`. -/
def removeSinglePackage (st : CommitState) (oldpkg : Pkg) (newpkg : Option Pkg) : CommitState :=
  let st := if !ctx.flags.dbonly then ctx.removePackageFiles st oldpkg newpkg else st
  { st with localdb := listRemove pkgCmp st.localdb oldpkg }

/-- `_alpm_remove_packages`. -/
def removePackages (remove : List Pkg) (st : CommitState) : CommitState :=
  remove.foldl (fun st pkg =>
    if st.interrupted then st else ctx.removeSinglePackage st pkg none) st

/-! ## Installing -/

/-- The `.pacnew` name of a file. -/
def pacnew (file : CString) : CString := file ++ str ".pacnew"

/-- `try_rename`: the number of errors, and the file system afterwards. -/
def tryRename (fs : FileSystem) (src dest : CString) : ℕ × FileSystem :=
  let (ok, fs) := fs.rename src dest
  (if ok then 0 else 1, fs)

/-- The end of `extract_single_file` when the entry was extracted to the `.pacnew` name of
`origfile`: the decision by the three hashes. -/
def chooseFile (fs : FileSystem) (origfile : CString) (hashOrig : Option CString)
    (isnewfile : Bool) : ℕ × FileSystem :=
  let hashLocal := computeMd5sum ctx.sys fs origfile
  let hashPkg := computeMd5sum ctx.sys fs (pacnew origfile)
  if hashLocal.isSome && hashPkg.isSome && hashLocal = hashPkg then
    -- local and new files are the same, updating anyway to get correct timestamps
    tryRename fs (pacnew origfile) origfile
  else if hashOrig.isSome && hashPkg.isSome && hashOrig = hashPkg then
    -- original and new files are the same, leave the local version alone
    (0, if isnewfile then fs.remove (pacnew origfile) else fs)
  else if hashOrig.isSome && hashLocal.isSome && hashOrig = hashLocal then
    -- installed file has NOT been changed by user, update to the new version
    tryRename fs (pacnew origfile) origfile
  -- none of the three files matched another
  else (0, fs)

/-- `perform_extraction` and what follows it in `extract_single_file`; in `needbackup` is
`hash_orig` if the file needs a backup. -/
def extractNode (fs : FileSystem) (filename : CString) (node : Node) (notouch : Bool)
    (needbackup : Option (Option CString)) : ℕ × FileSystem :=
  if notouch then
    let (ok, fs) := ctx.sys.extract fs (pacnew filename) node
    (if ok then 0 else 1, fs)
  else
    match needbackup with
    | some hashOrig =>
      let isnewfile := fs.node (pacnew filename) = none
      let (ok, fs) := ctx.sys.extract fs (pacnew filename) node
      if ok then ctx.chooseFile fs filename hashOrig isnewfile else (1, fs)
    | none =>
      let (ok, fs) := ctx.sys.extract fs filename node
      (if ok then 0 else 1, fs)

/-- Whether the file on the disk is backed up, and with which `hash_orig`. -/
def backupHash (newpkg : Pkg) (oldpkg : Option Pkg) (entryname : CString) :
    Option (Option CString) :=
  match oldpkg.bind (needbackup entryname) with
  | some oldbackup => some oldbackup.hash
  | none => if (needbackup entryname newpkg).isSome then some none else none

/-- `extract_single_file`: the number of errors, and the file system afterwards.  The cases are
those of the source, by what is at the path and what is to be there; only a file over a file can
need a backup. -/
def extractSingleFile (newpkg : Pkg) (oldpkg : Option Pkg) (fs : FileSystem)
    (entry : ArchiveEntry) : ℕ × FileSystem :=
  let entryname := entry.pathname
  -- `extract_db_file`
  if deref entryname = '.' then (0, fs)
  else if !filelistContains newpkg.files entryname then (0, fs)
  else if fnmatchPatterns ctx.sys ctx.opts.noextract entryname = 0 then (0, fs)
  else
    let filename := stripSlash entryname
    match fs.node filename with
    -- cases 1,2: file doesn't exist, skip all backup checks
    | none => ctx.extractNode fs filename entry.node false none
    | some .dir =>
      -- case 6: existing dir, ignore it; case 5: don't overwrite it with a file
      if entry.node = .dir then (0, fs) else (1, fs)
    | some _ =>
      -- case 4: trying to overwrite file with dir
      if entry.node = .dir then ctx.extractNode fs filename entry.node false none
      -- case 3: trying to overwrite file with file
      else if fnmatchPatterns ctx.sys ctx.opts.noupgrade entryname = 0 then
        ctx.extractNode fs filename entry.node true none
      else
        ctx.extractNode fs filename entry.node false (backupHash newpkg oldpkg entryname)

/-- The loop of `commit_single_pkg` over the archive: the number of errors, and the file
system afterwards. -/
def extractArchive (newpkg : Pkg) (oldpkg : Option Pkg) (archive : List ArchiveEntry)
    (fs : FileSystem) : ℕ × FileSystem :=
  archive.foldl (fun (errors, fs) entry =>
    let (n, fs) := ctx.extractSingleFile newpkg oldpkg fs entry
    (errors + n, fs)) (0, fs)

/-- The entry that `_alpm_db_add_pkgincache` adds. -/
def cacheEntry (newpkg : Pkg) : Pkg := { newpkg.copyAt newpkg.addr with origin := .localdb }

/-- `commit_single_pkg`: the number of errors, and the state afterwards.  The old version is removed
before the archive is extracted, and the entry in the cache is made whether there were errors or
not. -/
def commitSinglePkg (st : CommitState) (target : AddTarget) : ℕ × CommitState :=
  let newpkg := target.pkg
  let oldpkg := if (pkgFind st.localdb newpkg.name).isSome then target.oldpkg else none
  let st := match oldpkg with
    | some oldpkg => ctx.removeSinglePackage st oldpkg (some newpkg)
    | none => st
  let (errors, fs) :=
    if ctx.flags.dbonly then (0, st.fs)
    else ctx.extractArchive newpkg oldpkg target.archive st.fs
  (errors, { st with
    fs, localdb := listMmerge pkgCmp st.localdb [cacheEntry newpkg] })

/-- One round of the loop of `_alpm_upgrade_packages`. -/
def upgradePackage (st : CommitState) (target : AddTarget) : CommitState :=
  if st.interrupted then st
  else
    let (errors, st) := ctx.commitSinglePkg st target
    if errors ≠ 0 then { st with interrupted := true } else st

/-- `_alpm_upgrade_packages`. -/
def upgradePackages (add : List AddTarget) (st : CommitState) : CommitState :=
  add.foldl ctx.upgradePackage st

/-- The part of `_alpm_sync_commit` that changes files. -/
def commit (remove : List Pkg) (add : List AddTarget) (fs : FileSystem) (localdb : List Pkg) :
    CommitState :=
  ctx.upgradePackages add (ctx.removePackages remove { fs, localdb })

end CommitContext

end Alpm
