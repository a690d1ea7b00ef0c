import Alpm.LocalDbPopulate
import Alpm.PkgFile.Pkginfo

/-!
# Loading a package file

`_alpm_pkg_load_internal` walks through the archive of a package once.  The description is parsed
where it stands, and the list of files is built on the way, from the entries themselves or, if there
is one, from the mtree.

## 1.  The array of the list

The array is grown by `_alpm_greedy_grow`, which doubles it, with its size in a variable of its own;
`realloc` says which sizes can be allocated, and the copies of single names are taken to succeed.
An access outside of the array, or before the beginning of a path, is the result `undefined`.

## 2.  What goes wrong

An mtree replaces the array and leaves the variable of its size as it is.  This does no harm as long
as the entries after the mtree are not added, and they are if a second mtree is broken:
`pkgLoad_overflow`.  For a directory the last byte of its path is looked at, and a path without a
byte has none: `pkgLoad_unnamed`.

## 3.  What holds otherwise

With one mtree at most and names for all directories, the walk keeps `Walk.Sound`: before every
entry the elements of the list are whole, and each of them comes from an entry of the archive or of
the mtree.  `Walk.Sound.loadEntry` is the step and `Walk.Sound.loadLoop` the run, and
`pkgLoadInternal_spec` reads off what a package has that was loaded.
-/

namespace Alpm.PkgFile

/-! ## What libarchive delivers -/

/-- `struct archive_entry`. -/
structure ArchiveEntry where
  pathname : CString
  isDir : Bool
  size : Int
  mode : ℕ
  deriving DecidableEq, Repr

/-- What libarchive makes of the data of an entry as an mtree. -/
inductive Mtree where
  /-- The data cannot be read, or not be opened as an mtree. -/
  | unreadable
  | entries (entries : List ArchiveEntry) (eof : Bool)

/-- An entry of the package with its data.  `skips` is whether `archive_read_data_skip`
succeeds. -/
structure PkgEntry extends ArchiveEntry where
  blocks : List CString
  broken : Bool
  mtree : Mtree
  skips : Bool

/-- The package as an archive: `st_size`, the entries and whether the last header is followed by
the end of the archive. -/
structure Archive where
  size : Int
  entries : List PkgEntry
  eof : Bool

/-! ## The list of files -/

/-- `alpm_file_t`.  Memory that was only zeroed has no name in it. -/
structure AlpmFile where
  name : Option CString := none
  size : Int := 0
  mode : ℕ := 0
  deriving DecidableEq, Repr

def zeroed : AlpmFile := {}

/-- `alpm_filelist_t`: `count`, and the array that was allocated for `files`. -/
structure AlpmFilelist where
  count : ℕ := 0
  files : List AlpmFile := []
  deriving DecidableEq, Repr

/-- `_alpm_greedy_grow`, with sizes counted in elements of the array: the array and `*current`,
or `NULL`.  `realloc` says which sizes can be allocated. -/
def greedyGrow (realloc : ℕ → Bool) (files : List AlpmFile) (current required : ℕ) :
    Option (List AlpmFile × ℕ) :=
  if current ≥ required then some (files, current)
  else
    let newsize := if current = 0 then required else current * 2
    if newsize < required then none
    else if realloc newsize then
      -- the new memory is zeroed from `*current` on
      some (files.take current ++ List.replicate (newsize - current) zeroed, newsize)
    else none

/-- What an access leads to: one outside of the memory, an error or a value. -/
inductive Access (α : Type) where
  | undefined
  | error
  | done (value : α)

/-- `path[pathlen - 1]`, with what stands in the memory before the path. -/
def lastByte (before : Option Char) (path : CString) : Option Char := path.getLast? <|> before

/-- The element for an entry. -/
def fileOf (entry : ArchiveEntry) (slash : Bool) (path : CString) : AlpmFile :=
  { name := some (if slash then path ++ ['/'] else path), size := entry.size, mode := entry.mode }

/-- `add_entry_to_files_list`.  The array is enlarged if it is full; the name of a directory gets a
slash at its end, unless its last character is one. -/
def addEntryToFilesList (realloc : ℕ → Bool) (filelist : AlpmFilelist) (filesSize : ℕ)
    (entry : ArchiveEntry) (before : Option Char) (path : CString) :
    Access (AlpmFilelist × ℕ) :=
  match greedyGrow realloc filelist.files filesSize (filelist.count + 1) with
  | none => .error
  | some (files, filesSize) =>
    let store (slash : Bool) : Access (AlpmFilelist × ℕ) :=
      if filelist.count < files.length then
        .done (⟨filelist.count + 1, files.set filelist.count (fileOf entry slash path)⟩, filesSize)
      else .undefined
    if entry.isDir then
      match lastByte before path with
      | none => .undefined
      | some last => store (last ≠ '/')
    else store false

/-- `handle_simple_path`: the package, if the path is handled. -/
def handleSimplePath (pkg : Pkg) (path : CString) : Option Pkg :=
  if strcmp path (str ".INSTALL") = 0 then some { pkg with scriptlet := true }
  else if deref path = '.' then some pkg
  else none

/-! ## The mtree -/

/-- The path without a leading `./`, and what stands before it. -/
def stripDot (pathname : CString) : Option Char × CString :=
  match pathname with
  | '.' :: '/' :: path => (some '/', path)
  | path => (none, path)

/-- What `build_filelist_from_mtree` returns: the package, and the list unless there was an
error. -/
structure Built where
  pkg : Pkg
  filelist : Option (AlpmFilelist × ℕ)

/-- The loop of `build_filelist_from_mtree`; `none` for an access outside of the memory.  When the
mtree breaks off or an entry cannot be added there is no list. -/
def mtreeLoop (realloc : ℕ → Bool) (eof : Bool) :
    List ArchiveEntry → Pkg → AlpmFilelist → ℕ → Option Built
  | [], pkg, filelist, filesSize => some ⟨pkg, if eof then some (filelist, filesSize) else none⟩
  | entry :: entries, pkg, filelist, filesSize =>
    let (before, path) := stripDot entry.pathname
    match handleSimplePath pkg path with
    | some pkg => mtreeLoop realloc eof entries pkg filelist filesSize
    | none =>
      match addEntryToFilesList realloc filelist filesSize entry before path with
      | .undefined => none
      | .error => some ⟨pkg, none⟩
      | .done (filelist, filesSize) => mtreeLoop realloc eof entries pkg filelist filesSize

/-- `build_filelist_from_mtree`. -/
def buildFilelistFromMtree (realloc : ℕ → Bool) (pkg : Pkg) (mtree : Mtree) : Option Built :=
  match mtree with
  | .unreadable => some ⟨pkg, none⟩
  | .entries entries eof => mtreeLoop realloc eof entries pkg {} 0

/-! ## The walk through the archive -/

/-- The variables of `_alpm_pkg_load_internal`. -/
structure Walk where
  newpkg : Pkg
  files : AlpmFilelist := {}
  filesSize : ℕ := 0
  config : Bool := false
  hitMtree : Bool := false

/-- How a load fails. -/
inductive LoadError where
  | wrongArgs
  | pkgOpen
  | pkgInvalid
  | libarchive
  /-- `goto error` without an error code -/
  | memory
  deriving DecidableEq, Repr

/-- Where the loop goes after an entry. -/
inductive Pass where
  | undefined
  | error (err : LoadError)
  | next (s : Walk)
  | stop (s : Walk)

/-- `.PKGINFO`: the description is read into the package, and its name and version are checked. -/
def loadPkginfo (s : Walk) (entry : PkgEntry) : Pass :=
  match parseDescfile { Reading.start maxLineSize entry.blocks with broken := entry.broken }
    s.newpkg with
  | none => .undefined
  | some (ret, newpkg) =>
    if ret ≠ 0 then .error .pkgInvalid
    else
      match LocalDb.checkPkginfo (some newpkg.name) (some newpkg.version) with
      | .error _ => .error .pkgInvalid
      | .ok () => .next { s with newpkg, config := true }

/-- `.MTREE`. -/
def loadMtree (realloc : ℕ → Bool) (s : Walk) (entry : PkgEntry) : Pass :=
  match buildFilelistFromMtree realloc s.newpkg entry.mtree with
  | none => .undefined
  | some ⟨newpkg, some (files, _)⟩ => .next { s with newpkg, files, hitMtree := true }
  | some ⟨newpkg, none⟩ => .next { s with newpkg, hitMtree := false }

/-- An entry that is not handled by its name.  It is listed on the expensive way only; and a walk
that needs no list, or has that of an mtree, stops here if it has the description. -/
def loadFile (realloc : ℕ → Bool) (full : Bool) (s : Walk) (entry : PkgEntry) : Pass :=
  let added : Access (AlpmFilelist × ℕ) :=
    -- the expensive way
    if full && !s.hitMtree then
      addEntryToFilesList realloc s.files s.filesSize entry.toArchiveEntry none entry.pathname
    else .done (s.files, s.filesSize)
  match added with
  | .undefined => .undefined
  | .error => .error .memory
  | .done (files, filesSize) =>
    let s := { s with files, filesSize }
    if !entry.skips then .error .libarchive
    else if (!full || s.hitMtree) && s.config then .stop s
    else .next s

/-- The loop body of `_alpm_pkg_load_internal`. -/
def loadEntry (realloc : ℕ → Bool) (full : Bool) (s : Walk) (entry : PkgEntry) : Pass :=
  if strcmp entry.pathname (str ".PKGINFO") = 0 then loadPkginfo s entry
  else if full && strcmp entry.pathname (str ".MTREE") = 0 then loadMtree realloc s entry
  else
    match handleSimplePath s.newpkg entry.pathname with
    | some newpkg => .next { s with newpkg }
    | none => loadFile realloc full s entry

/-- The loop of `_alpm_pkg_load_internal`; it ends with `stop`. -/
def loadLoop (realloc : ℕ → Bool) (full eof : Bool) : List PkgEntry → Walk → Pass
  | [], s => if eof then .stop s else .error .libarchive
  | entry :: entries, s =>
    match loadEntry realloc full s entry with
    | .next s => loadLoop realloc full eof entries s
    | pass => pass

/-- `_alpm_filelist_sort`, for elements that have names. -/
def sortFilelist (files : List AlpmFile) : List AlpmFile :=
  if (files.zip files.tail).any fun (file, next) =>
      strcmp (file.name.getD []) (next.name.getD []) > 0 then
    files.mergeSort fun f1 f2 => strcmp (f1.name.getD []) (f2.name.getD []) ≤ 0
  else files

/-- What `_alpm_pkg_load_internal` returns: the package with its list of files. -/
inductive Loaded where
  | undefined
  | error (err : LoadError)
  | pkg (newpkg : Pkg) (files : List AlpmFile)
  deriving DecidableEq, Repr

/-- The end of `_alpm_pkg_load_internal`, after the loop.  There has to be a description, and the
list of a full load is sorted. -/
def finishLoad (full : Bool) (s : Walk) : Loaded :=
  if !s.config then .error .pkgInvalid
  else
    let infolevel := LocalDb.infrqBase ||| LocalDb.infrqDesc ||| LocalDb.infrqScriptlet
    let newpkg := { s.newpkg with origin := .file, validation := 1, infolevel }
    if !full then .pkg { newpkg with files := [] } []
    else
      let files := s.files.files.take s.files.count
      -- `strcmp` reads the names if there are two elements or more
      if files.length > 1 ∧ files.any (·.name.isNone) then .undefined
      else
        let files := sortFilelist files
        .pkg { newpkg with
          infolevel := infolevel ||| LocalDb.infrqFiles
          files := files.map fun file => file.name.getD [] } files

/-- The package before the walk, allocated at `addr`. -/
def newPkg (addr : ℕ) (pkgfile : CString) (size : Int) : Pkg :=
  { addr, name := [], version := [], filename := some pkgfile, size }

/-- `_alpm_pkg_load_internal`; there is no archive where `_alpm_open_archive` fails.  The loop over
the entries begins with a package that has nothing but its file and the size of it. -/
def pkgLoadInternal (realloc : ℕ → Bool) (addr : ℕ) (pkgfile : CString) (full : Bool)
    (archive : Option Archive) : Loaded :=
  if pkgfile.length = 0 then .error .wrongArgs
  else
    match archive with
    | none => .error .pkgOpen
    | some archive =>
      match loadLoop realloc full archive.eof archive.entries
        { newpkg := newPkg addr pkgfile archive.size } with
      | .undefined => .undefined
      | .error err => .error err
      | .next s | .stop s => finishLoad full s

/-! ## The array -/

/-- The array has the elements `kept` at its beginning, and the size in the variable.  This is what
every write to the array relies on: the count is not above the size that was allocated. -/
structure Filled (filelist : AlpmFilelist) (filesSize : ℕ) (kept : List AlpmFile) : Prop where
  length : filelist.files.length = filesSize
  count : filelist.count = kept.length
  kept : kept <+: filelist.files

theorem filled_nil : Filled {} 0 [] := ⟨rfl, rfl, List.prefix_rfl⟩

theorem Filled.take {filelist : AlpmFilelist} {filesSize : ℕ} {kept : List AlpmFile}
    (h : Filled filelist filesSize kept) : filelist.files.take filelist.count = kept := by
  rw [h.count]
  exact (List.prefix_iff_eq_take.mp h.kept).symm

/-- An array whose size is known grows without a loss. -/
theorem greedyGrow_spec {realloc : ℕ → Bool} {files files' : List AlpmFile} {required size : ℕ}
    (h : greedyGrow realloc files files.length required = some (files', size)) :
    files'.length = size ∧ required ≤ size ∧ files <+: files' := by
  unfold greedyGrow at h
  dsimp only at h
  split_ifs at h with henough hzero hless hrealloc hless hrealloc
  · obtain ⟨rfl, rfl⟩ := Prod.mk.inj (Option.some.inj h)
    exact ⟨rfl, henough, List.prefix_rfl⟩
  · obtain ⟨rfl, rfl⟩ := Prod.mk.inj (Option.some.inj h)
    have hnil : files = [] := List.eq_nil_of_length_eq_zero hzero
    simp [hnil]
  · obtain ⟨rfl, rfl⟩ := Prod.mk.inj (Option.some.inj h)
    refine ⟨?_, by omega, ?_⟩
    · rw [List.take_length, List.length_append, List.length_replicate]
      omega
    · rw [List.take_length]
      exact List.prefix_append _ _

/-- With memory for everything an array grows by one element. -/
theorem greedyGrow_isSome {realloc : ℕ → Bool} (hrealloc : ∀ n, realloc n) (files : List AlpmFile)
    {current required : ℕ} (h : required ≤ current + 1) :
    (greedyGrow realloc files current required).isSome := by
  unfold greedyGrow
  dsimp only
  by_cases henough : current ≥ required
  · rw [if_pos henough]
    rfl
  · have hgrow : ¬(if current = 0 then required else current * 2) < required := by
      split_ifs <;> omega
    rw [if_neg henough, if_neg hgrow, if_pos (hrealloc _)]
    rfl

/-- The element that is added for an entry under a path. -/
def fileFor (entry : ArchiveEntry) (before : Option Char) (path : CString) : AlpmFile :=
  fileOf entry (entry.isDir && lastByte before path ≠ some '/') path

/-- The byte that a directory is asked for is in the memory. -/
def HasLast (entry : ArchiveEntry) (before : Option Char) (path : CString) : Prop :=
  entry.isDir → lastByte before path ≠ none

theorem addEntry_spec {realloc : ℕ → Bool} {filelist : AlpmFilelist} {filesSize : ℕ}
    {kept : List AlpmFile} (h : Filled filelist filesSize kept) {entry : ArchiveEntry}
    {before : Option Char} {path : CString} (hlast : HasLast entry before path) :
    (addEntryToFilesList realloc filelist filesSize entry before path = .error ∧
        ¬∀ n, realloc n) ∨
      ∃ filelist' filesSize',
        addEntryToFilesList realloc filelist filesSize entry before path =
          .done (filelist', filesSize') ∧
        Filled filelist' filesSize' (kept ++ [fileFor entry before path]) := by
  unfold addEntryToFilesList
  have hle : kept.length ≤ filesSize := h.length ▸ h.kept.length_le
  cases hgrow : greedyGrow realloc filelist.files filesSize (filelist.count + 1) with
  | none =>
    refine Or.inl ⟨rfl, fun hrealloc => ?_⟩
    have hsome := greedyGrow_isSome hrealloc filelist.files
      (show filelist.count + 1 ≤ filesSize + 1 by rw [h.count]; omega)
    rw [hgrow] at hsome
    cases hsome
  | some grown =>
    obtain ⟨files, size⟩ := grown
    rw [← h.length] at hgrow
    obtain ⟨hlength, hrequired, hprefix⟩ := greedyGrow_spec hgrow
    have hroom : filelist.count < files.length := by omega
    have hfilled (slash : Bool) : Filled ⟨filelist.count + 1,
        files.set filelist.count (fileOf entry slash path)⟩ size
        (kept ++ [fileOf entry slash path]) := by
      refine ⟨by rw [List.length_set, hlength], by simp [h.count], ?_⟩
      obtain ⟨rest, hrest⟩ := h.kept.trans hprefix
      cases rest with
      | nil =>
        rw [List.append_nil] at hrest
        rw [← hrest, h.count] at hroom
        omega
      | cons file rest =>
        rw [← hrest, h.count, List.set_append_right _ _ le_rfl, Nat.sub_self, List.set_cons_zero]
        exact ⟨rest, (List.append_cons ..).symm⟩
    right
    by_cases hdir : entry.isDir
    · obtain ⟨last, hsome⟩ := Option.ne_none_iff_exists'.mp (hlast hdir)
      refine ⟨_, _, ?_, hfilled (entry.isDir && lastByte before path ≠ some '/')⟩
      simp [hdir, hsome, hroom]
    · refine ⟨_, _, ?_, hfilled (entry.isDir && lastByte before path ≠ some '/')⟩
      simp [hdir, hroom]

/-! ## Simple paths -/

theorem handleSimplePath_eq_none {pkg : Pkg} {path : CString} :
    handleSimplePath pkg path = none ↔ deref path ≠ '.' := by
  unfold handleSimplePath
  split_ifs with hinstall hdot
  · rw [strcmp_eq_zero] at hinstall
    simp [hinstall, str]
  · simp [hdot]
  · simp [hdot]

/-- A path that is handled only says whether there is a scriptlet. -/
theorem handleSimplePath_eq_some {pkg pkg' : Pkg} {path : CString}
    (h : handleSimplePath pkg path = some pkg') :
    pkg' = { pkg with scriptlet := pkg.scriptlet || decide (path = str ".INSTALL") } := by
  unfold handleSimplePath at h
  split_ifs at h with hinstall hdot
  · obtain rfl := Option.some.inj h
    simp [strcmp_eq_zero.mp hinstall]
  · obtain rfl := Option.some.inj h
    simp [mt strcmp_eq_zero.mpr hinstall]

/-! ## The list of an mtree -/

/-- The elements for the entries of an mtree. -/
def mtreeFiles (entries : List ArchiveEntry) : List AlpmFile :=
  entries.filterMap fun entry =>
    if deref (stripDot entry.pathname).2 = '.' then none
    else some (fileFor entry (stripDot entry.pathname).1 (stripDot entry.pathname).2)

/-- There is a scriptlet among the entries of an mtree. -/
def mtreeInstalls (entries : List ArchiveEntry) : Bool :=
  entries.any fun entry => (stripDot entry.pathname).2 = str ".INSTALL"

/-- The directories have names. -/
def DirsNamed (entries : List ArchiveEntry) : Prop :=
  ∀ entry ∈ entries, entry.isDir → entry.pathname ≠ []

theorem hasLast_of_ne_nil {entry : ArchiveEntry} {before : Option Char} {path : CString}
    (h : entry.isDir → path ≠ []) : HasLast entry before path := by
  intro hdir hnone
  rw [lastByte, Option.orElse_eq_none] at hnone
  exact h hdir (List.getLast?_eq_none_iff.mp hnone.1)

theorem hasLast_stripDot {entry : ArchiveEntry} (h : entry.isDir → entry.pathname ≠ []) :
    HasLast entry (stripDot entry.pathname).1 (stripDot entry.pathname).2 := by
  unfold stripDot
  split
  next path hpath => simp [HasLast, lastByte]
  next path hpath => exact hasLast_of_ne_nil h

/-- An mtree says nothing about the package but that there is a scriptlet. -/
theorem mtreeLoop_pkg {realloc : ℕ → Bool} {eof : Bool} {entries : List ArchiveEntry} {pkg : Pkg}
    {filelist : AlpmFilelist} {filesSize : ℕ} {built : Built}
    (h : mtreeLoop realloc eof entries pkg filelist filesSize = some built) :
    ∃ scriptlet, built.pkg = { pkg with scriptlet } ∧ (pkg.scriptlet → scriptlet) := by
  induction entries generalizing pkg filelist filesSize with
  | nil =>
    obtain rfl := Option.some.inj h
    exact ⟨pkg.scriptlet, rfl, id⟩
  | cons entry entries ih =>
    rw [mtreeLoop] at h
    generalize stripDot entry.pathname = stripped at h
    obtain ⟨before, path⟩ := stripped
    dsimp only at h
    split at h
    next pkg' hsimple =>
      obtain rfl := handleSimplePath_eq_some hsimple
      obtain ⟨scriptlet, hbuilt, hmono⟩ := ih h
      exact ⟨scriptlet, hbuilt, fun hpkg => hmono (by simp [hpkg])⟩
    next =>
      split at h
      · cases h
      · obtain rfl := Option.some.inj h
        exact ⟨pkg.scriptlet, rfl, id⟩
      · exact ih h

/-- **The loop over an mtree** stays inside the array, and lists the entries in their order.  It
gives no list when the mtree breaks off or when the array cannot be enlarged, and only then. -/
theorem mtreeLoop_spec {realloc : ℕ → Bool} {eof : Bool} {entries : List ArchiveEntry}
    (hdirs : DirsNamed entries) {pkg : Pkg} {filelist : AlpmFilelist} {filesSize : ℕ}
    {kept : List AlpmFile} (h : Filled filelist filesSize kept) :
    ∃ built, mtreeLoop realloc eof entries pkg filelist filesSize = some built ∧
      (∀ filelist' filesSize', built.filelist = some (filelist', filesSize') →
        eof ∧ Filled filelist' filesSize' (kept ++ mtreeFiles entries) ∧
          built.pkg = { pkg with scriptlet := pkg.scriptlet || mtreeInstalls entries }) ∧
      (built.filelist = none → eof → ¬∀ n, realloc n) := by
  induction entries generalizing pkg filelist filesSize kept with
  | nil =>
    cases eof with
    | false => exact ⟨_, rfl, by simp, by simp⟩
    | true =>
      refine ⟨_, rfl, ?_, by simp⟩
      rintro filelist' filesSize' hbuilt
      obtain ⟨rfl, rfl⟩ := Prod.mk.inj (Option.some.inj hbuilt)
      exact ⟨rfl, by simpa [mtreeFiles] using h, by simp [mtreeInstalls]⟩
  | cons entry entries ih =>
    obtain ⟨hdir, hdirs⟩ := List.forall_mem_cons.mp hdirs
    have hlast := hasLast_stripDot hdir
    have hfiles : mtreeFiles (entry :: entries) =
        (if deref (stripDot entry.pathname).2 = '.' then []
          else [fileFor entry (stripDot entry.pathname).1 (stripDot entry.pathname).2]) ++
          mtreeFiles entries := by
      rw [mtreeFiles, List.filterMap_cons]
      split_ifs <;> rfl
    have hinstalls : mtreeInstalls (entry :: entries) =
        (decide ((stripDot entry.pathname).2 = str ".INSTALL") || mtreeInstalls entries) := rfl
    rw [mtreeLoop]
    generalize stripDot entry.pathname = stripped at hlast hfiles hinstalls ⊢
    obtain ⟨before, path⟩ := stripped
    dsimp only at hlast hfiles hinstalls ⊢
    cases hsimple : handleSimplePath pkg path with
    | some pkg' =>
      have hdot : deref path = '.' :=
        not_not.mp (mt handleSimplePath_eq_none.mpr (by rw [hsimple]; simp))
      rw [if_pos hdot, List.nil_append] at hfiles
      obtain rfl := handleSimplePath_eq_some hsimple
      obtain ⟨built, hloop, hsome, hnone⟩ := ih hdirs h
      refine ⟨built, hloop, fun filelist' filesSize' hbuilt => ?_, hnone⟩
      obtain ⟨heof, hfilled, hscriptlet⟩ := hsome filelist' filesSize' hbuilt
      exact ⟨heof, hfiles ▸ hfilled, by rw [hscriptlet, hinstalls, Bool.or_assoc]⟩
    | none =>
      have hdot : deref path ≠ '.' := handleSimplePath_eq_none.mp hsimple
      have hinstall : path ≠ str ".INSTALL" := by
        rintro rfl
        exact hdot rfl
      rw [if_neg hdot] at hfiles
      rw [decide_eq_false hinstall, Bool.false_or] at hinstalls
      rcases addEntry_spec h hlast with ⟨herror, hmemory⟩ | ⟨filelist₁, size₁, hadd, hfilled₁⟩
      · rw [herror]
        exact ⟨_, rfl, by simp, fun _ _ => hmemory⟩
      · rw [hadd]
        obtain ⟨built, hloop, hsome, hnone⟩ := ih hdirs hfilled₁
        refine ⟨built, hloop, fun filelist' filesSize' hbuilt => ?_, hnone⟩
        obtain ⟨heof, hfilled, hscriptlet⟩ := hsome filelist' filesSize' hbuilt
        rw [List.append_assoc] at hfilled
        exact ⟨heof, hfiles ▸ hfilled, by rw [hscriptlet, hinstalls]⟩

/-! ## Sorting -/

/-- The name that the elements are compared by. -/
def AlpmFile.key (file : AlpmFile) : CString := file.name.getD []

theorem isChain_of_zip {α : Type} {r : α → α → Prop} {l : List α}
    (h : ∀ pair ∈ l.zip l.tail, r pair.1 pair.2) : l.IsChain r := by
  induction l with
  | nil => exact .nil
  | cons a l ih =>
    cases l with
    | nil => exact .singleton a
    | cons b l =>
      rw [List.tail_cons, List.zip_cons_cons] at h
      obtain ⟨hab, hrest⟩ := List.forall_mem_cons.mp h
      exact List.isChain_cons_cons.mpr ⟨hab, ih hrest⟩

theorem sortFilelist_perm (files : List AlpmFile) : (sortFilelist files).Perm files := by
  unfold sortFilelist
  split_ifs
  · exact List.mergeSort_perm _ _
  · exact List.Perm.refl _

theorem sortFilelist_sorted (files : List AlpmFile) :
    (sortFilelist files).Pairwise fun f1 f2 => f1.key ≤ f2.key := by
  unfold sortFilelist
  split_ifs with hany
  · refine (List.pairwise_mergeSort ?_ ?_ files).imp fun h => ?_
    · intro a b c hab hbc
      simp only [decide_eq_true_eq, strcmp_le_zero] at hab hbc ⊢
      exact hab.trans hbc
    · intro a b
      simp only [Bool.or_eq_true, decide_eq_true_eq, strcmp_le_zero]
      exact le_total _ _
    · exact strcmp_le_zero.mp (of_decide_eq_true h)
  · have hchain : files.IsChain fun f1 f2 => f1.key ≤ f2.key := by
      refine isChain_of_zip fun pair hpair => ?_
      have hle := mt (fun h => List.any_eq_true.mpr ⟨pair, hpair, h⟩) hany
      rw [decide_eq_true_eq, not_lt] at hle
      exact strcmp_le_zero.mp hle
    have htrans : IsTrans AlpmFile fun f1 f2 => f1.key ≤ f2.key := ⟨fun _ _ _ => le_trans⟩
    exact List.isChain_iff_pairwise.mp hchain

/-! ## What an entry does -/

theorem parseLine_keeps {P : Pkg → Prop}
    (h : ∀ entry ∈ pkginfoKeys, ∀ newpkg ptr, P newpkg → P (entry.2 newpkg ptr)) {newpkg : Pkg}
    (hpkg : P newpkg) (line : CString) : P (parseLine newpkg line) := by
  unfold parseLine
  split_ifs
  · exact hpkg
  split
  · exact hpkg
  next key ptr _ =>
    unfold storeKey
    split
    next store hfind => exact h _ (List.mem_of_find?_eq_some hfind) newpkg ptr hpkg
    · exact hpkg

theorem foldl_parseLine_keeps {P : Pkg → Prop}
    (h : ∀ entry ∈ pkginfoKeys, ∀ newpkg ptr, P newpkg → P (entry.2 newpkg ptr)) {newpkg : Pkg}
    (hpkg : P newpkg) (lines : List CString) : P (lines.foldl parseLine newpkg) := by
  induction lines generalizing newpkg with
  | nil => exact hpkg
  | cons line lines ih => exact ih (parseLine_keeps h hpkg line)

/-- What `_alpm_pkg_load_internal` asks of the description. -/
structure Described (pkg : Pkg) : Prop where
  name : pkg.name ≠ []
  version : '-' ∈ pkg.version

theorem checkPkginfo_eq_ok {name version : CString} :
    LocalDb.checkPkginfo (some name) (some version) = .ok () ↔ name ≠ [] ∧ '-' ∈ version := by
  unfold LocalDb.checkPkginfo
  split_ifs with hname hversion hhyphen
  · simp_all
  · simp_all
  · simp_all
  · simp_all

/-- The entry `.PKGINFO`. -/
theorem loadPkginfo_cases (s : Walk) (entry : PkgEntry) :
    loadPkginfo s entry = .error .pkgInvalid ∨
      ∃ lines : List CString, (∀ line ∈ lines, '\n' ∉ line) ∧
        parseDescfile { Reading.start maxLineSize entry.blocks with broken := entry.broken }
          s.newpkg = some (0, lines.foldl parseLine s.newpkg) ∧
        Described (lines.foldl parseLine s.newpkg) ∧
        loadPkginfo s entry =
          .next { s with newpkg := lines.foldl parseLine s.newpkg, config := true } := by
  obtain ⟨ret, lines, hparse, hlines⟩ := parseDescfile_spec
    { Reading.start maxLineSize entry.blocks with broken := entry.broken } s.newpkg
  unfold loadPkginfo
  rw [hparse]
  dsimp only
  split_ifs with hret
  · exact Or.inl rfl
  · rw [not_not] at hret
    subst hret
    cases hcheck : LocalDb.checkPkginfo (some (lines.foldl parseLine s.newpkg).name)
        (some (lines.foldl parseLine s.newpkg).version) with
    | error msg => exact Or.inl rfl
    | ok =>
      obtain ⟨hname, hversion⟩ := checkPkginfo_eq_ok.mp hcheck
      exact Or.inr ⟨lines, hlines, rfl, ⟨hname, hversion⟩, rfl⟩

/-- The entry is the mtree. -/
def PkgEntry.IsMtree (entry : PkgEntry) : Prop := entry.pathname = str ".MTREE"

instance (entry : PkgEntry) : Decidable entry.IsMtree :=
  inferInstanceAs (Decidable (entry.pathname = str ".MTREE"))

/-- The four kinds of entries. -/
theorem loadEntry_cases (realloc : ℕ → Bool) (full : Bool) (s : Walk) (entry : PkgEntry) :
    (entry.pathname = str ".PKGINFO" ∧ loadEntry realloc full s entry = loadPkginfo s entry) ∨
    (full ∧ entry.IsMtree ∧ loadEntry realloc full s entry = loadMtree realloc s entry) ∨
    (entry.pathname ≠ str ".PKGINFO" ∧ (full → ¬entry.IsMtree) ∧ deref entry.pathname = '.' ∧
      loadEntry realloc full s entry = .next { s with newpkg :=
        { s.newpkg with
          scriptlet := s.newpkg.scriptlet || decide (entry.pathname = str ".INSTALL") } }) ∨
    (deref entry.pathname ≠ '.' ∧
      loadEntry realloc full s entry = loadFile realloc full s entry) := by
  unfold loadEntry
  simp only [strcmp_eq_zero]
  by_cases hpkginfo : entry.pathname = str ".PKGINFO"
  · exact Or.inl ⟨hpkginfo, if_pos hpkginfo⟩
  · rw [if_neg hpkginfo]
    by_cases hmtree : full ∧ entry.IsMtree
    · exact Or.inr (Or.inl ⟨hmtree.1, hmtree.2, if_pos (by simpa [PkgEntry.IsMtree] using hmtree)⟩)
    · rw [if_neg (by simpa [PkgEntry.IsMtree] using hmtree)]
      cases hsimple : handleSimplePath s.newpkg entry.pathname with
      | some newpkg =>
        have hdot : deref entry.pathname = '.' :=
          not_not.mp (mt handleSimplePath_eq_none.mpr (by rw [hsimple]; simp))
        obtain rfl := handleSimplePath_eq_some hsimple
        exact Or.inr (Or.inr (Or.inl ⟨hpkginfo, fun hfull h => hmtree ⟨hfull, h⟩, hdot, rfl⟩))
      | none => exact Or.inr (Or.inr (Or.inr ⟨handleSimplePath_eq_none.mp hsimple, rfl⟩))

/-- An entry without a dot at the beginning is a file of the package. -/
theorem loadEntry_file {realloc : ℕ → Bool} {full : Bool} (s : Walk) {entry : PkgEntry}
    (hdot : deref entry.pathname ≠ '.') :
    loadEntry realloc full s entry = loadFile realloc full s entry := by
  rcases loadEntry_cases realloc full s entry with ⟨hpkginfo, -⟩ | ⟨-, hmtree, -⟩ |
    ⟨-, -, hdot', -⟩ | ⟨-, heq⟩
  · rw [hpkginfo] at hdot
    exact absurd rfl hdot
  · rw [hmtree] at hdot
    exact absurd rfl hdot
  · exact absurd hdot' hdot
  · exact heq

/-! ## The invariant of the walk -/

/-- What holds before every entry.  The size in the variable is that of the array as long as the
list is not that of an mtree. -/
structure Walk.Sound (source : AlpmFile → Prop) (s : Walk) : Prop where
  described : s.config → Described s.newpkg
  kept : ∃ kept, (∀ file ∈ kept, source file) ∧ s.files.files.take s.files.count = kept ∧
    (s.hitMtree = false → Filled s.files s.filesSize kept)

/-- The entries whose files are listed: those of the archive that do not begin with a dot, and those
of an mtree in it that was read to its end. -/
def Source (entries : List PkgEntry) (file : AlpmFile) : Prop :=
  (∃ entry ∈ entries, deref entry.pathname ≠ '.' ∧
      file = fileFor entry.toArchiveEntry none entry.pathname) ∨
    ∃ entry ∈ entries, entry.IsMtree ∧ ∃ listed, entry.mtree = .entries listed true ∧
      file ∈ mtreeFiles listed

/-- All the directories have names, also those in an mtree.  The last character of such a name is
looked at, and that of an empty name would be the byte before it. -/
def AllNamed (entries : List PkgEntry) : Prop :=
  DirsNamed (entries.map PkgEntry.toArchiveEntry) ∧
    ∀ entry ∈ entries, ∀ listed eof, entry.mtree = .entries listed eof → DirsNamed listed

variable {realloc : ℕ → Bool} {full : Bool} {source : AlpmFile → Prop} {s : Walk}

theorem buildFilelistFromMtree_pkg {pkg : Pkg} {mtree : Mtree} {built : Built}
    (h : buildFilelistFromMtree realloc pkg mtree = some built) :
    ∃ scriptlet, built.pkg = { pkg with scriptlet } ∧ (pkg.scriptlet → scriptlet) := by
  cases mtree with
  | unreadable =>
    obtain rfl := Option.some.inj h
    exact ⟨pkg.scriptlet, rfl, id⟩
  | entries listed eof => exact mtreeLoop_pkg h

theorem buildFilelistFromMtree_spec {mtree : Mtree} (pkg : Pkg)
    (hdirs : ∀ listed eof, mtree = .entries listed eof → DirsNamed listed) :
    ∃ built, buildFilelistFromMtree realloc pkg mtree = some built ∧
      (∀ filelist filesSize, built.filelist = some (filelist, filesSize) →
        ∃ listed, mtree = .entries listed true ∧ Filled filelist filesSize (mtreeFiles listed) ∧
          built.pkg = { pkg with scriptlet := pkg.scriptlet || mtreeInstalls listed }) ∧
      (built.filelist = none → (∀ listed, mtree ≠ .entries listed true) ∨ ¬∀ n, realloc n) := by
  cases mtree with
  | unreadable => exact ⟨_, rfl, by simp, by simp⟩
  | entries listed eof =>
    obtain ⟨built, hloop, hsome, hnone⟩ :=
      @mtreeLoop_spec realloc eof listed (hdirs listed eof rfl) pkg _ _ _ filled_nil
    refine ⟨built, hloop, fun filelist filesSize hbuilt => ?_, fun hbuilt => ?_⟩
    · obtain ⟨rfl, hfilled, hscriptlet⟩ := hsome filelist filesSize hbuilt
      exact ⟨listed, rfl, hfilled, hscriptlet⟩
    · by_cases heof : eof
      · exact Or.inr (hnone hbuilt heof)
      · exact Or.inl fun _ heq => heof (Mtree.entries.inj heq).2

/-- An entry that is added to the list, or not because there is already the list of an mtree. -/
theorem loadFile_cases (h : s.Sound source) {entry : PkgEntry}
    (hlast : HasLast entry.toArchiveEntry none entry.pathname)
    (hsource : source (fileFor entry.toArchiveEntry none entry.pathname)) :
    (loadFile realloc full s entry = .error .memory ∧ ¬∀ n, realloc n) ∨
      loadFile realloc full s entry = .error .libarchive ∧ entry.skips = false ∨
      ∃ files filesSize, ({ s with files, filesSize } : Walk).Sound source ∧
        loadFile realloc full s entry =
          if (!full || s.hitMtree) && s.config then .stop { s with files, filesSize }
          else .next { s with files, filesSize } := by
  obtain ⟨kept, hkept, htake, hfilled⟩ := h.kept
  unfold loadFile
  by_cases hadd : full && !s.hitMtree
  · rw [if_pos hadd]
    have hhit : s.hitMtree = false := by
      rw [Bool.and_eq_true, Bool.not_eq_true'] at hadd
      exact hadd.2
    rcases addEntry_spec (hfilled hhit) hlast with ⟨herror, hmemory⟩ | ⟨files, size, hdone, hnew⟩
    · rw [herror]
      exact Or.inl ⟨rfl, hmemory⟩
    · rw [hdone]
      cases hskips : entry.skips with
      | false => exact Or.inr (Or.inl ⟨rfl, rfl⟩)
      | true =>
        refine Or.inr (Or.inr ⟨files, size, ⟨h.described, _, ?_, hnew.take, fun _ => hnew⟩, rfl⟩)
        exact List.forall_mem_append.mpr ⟨hkept, List.forall_mem_singleton.mpr hsource⟩
  · rw [if_neg hadd]
    cases hskips : entry.skips with
    | false => exact Or.inr (Or.inl ⟨rfl, rfl⟩)
    | true => exact Or.inr (Or.inr ⟨s.files, s.filesSize, h, rfl⟩)

/-- **One entry** keeps the invariant, and no access is outside of the memory, unless an mtree comes
after another.  Where the second one cannot be read the walk goes on as if there had been none, with
a size in the variable that is not that of the array. -/
theorem Walk.Sound.loadEntry (h : s.Sound source) {entries : List PkgEntry}
    (hnamed : AllNamed entries) (hsource : ∀ file, Source entries file → source file)
    {entry : PkgEntry} (hmem : entry ∈ entries) (hone : s.hitMtree → ¬entry.IsMtree) :
    (∃ err, loadEntry realloc full s entry = .error err) ∨
    (∃ s', loadEntry realloc full s entry = .next s' ∧ s'.Sound source ∧
      (s'.hitMtree → s.hitMtree ∨ entry.IsMtree)) ∨
    ∃ s', loadEntry realloc full s entry = .stop s' ∧ s'.Sound source := by
  obtain ⟨kept, hkept, htake, hfilled⟩ := h.kept
  rcases loadEntry_cases realloc full s entry with ⟨-, heq⟩ | ⟨-, hmtree, heq⟩ |
    ⟨-, -, -, heq⟩ | ⟨hdot, heq⟩ <;> rw [heq]
  · rcases loadPkginfo_cases s entry with herror | ⟨lines, -, -, hdescribed, hnext⟩
    · exact Or.inl ⟨_, herror⟩
    · exact Or.inr (Or.inl ⟨_, hnext, ⟨fun _ => hdescribed, h.kept⟩, Or.inl⟩)
  · obtain ⟨⟨newpkg, filelist⟩, hbuild, hsome, -⟩ :=
      @buildFilelistFromMtree_spec realloc entry.mtree s.newpkg (hnamed.2 entry hmem)
    obtain ⟨scriptlet, hpkg, -⟩ := buildFilelistFromMtree_pkg hbuild
    dsimp only at hpkg
    subst hpkg
    have hdescribed : s.config → Described { s.newpkg with scriptlet } := fun hconfig =>
      ⟨(h.described hconfig).name, (h.described hconfig).version⟩
    rw [loadMtree, hbuild]
    cases filelist with
    | none =>
      refine Or.inr (Or.inl ⟨_, rfl, ⟨hdescribed, kept, hkept, htake, fun _ => ?_⟩, nofun⟩)
      exact hfilled (Bool.eq_false_iff.mpr fun hhit => hone hhit hmtree)
    | some built =>
      obtain ⟨files, filesSize⟩ := built
      obtain ⟨listed, hlisted, hnew, -⟩ := hsome files filesSize rfl
      refine Or.inr (Or.inl ⟨_, rfl, ⟨hdescribed, mtreeFiles listed, fun file hfile => ?_,
        hnew.take, nofun⟩, fun _ => Or.inr hmtree⟩)
      exact hsource file (Or.inr ⟨entry, hmem, hmtree, listed, hlisted, hfile⟩)
  · refine Or.inr (Or.inl ⟨_, rfl, ⟨fun hconfig => ?_, h.kept⟩, Or.inl⟩)
    exact ⟨(h.described hconfig).name, (h.described hconfig).version⟩
  · have hlast : HasLast entry.toArchiveEntry none entry.pathname :=
      hasLast_of_ne_nil (hnamed.1 _ (List.mem_map_of_mem hmem))
    have hfile := hsource _ (Or.inl ⟨entry, hmem, hdot, rfl⟩)
    rcases loadFile_cases h hlast hfile with ⟨herror, -⟩ | ⟨herror, -⟩ |
      ⟨files, filesSize, hsound, hload⟩
    · exact Or.inl ⟨_, herror⟩
    · exact Or.inl ⟨_, herror⟩
    · rw [hload]
      split_ifs
      · exact Or.inr (Or.inr ⟨_, rfl, hsound⟩)
      · exact Or.inr (Or.inl ⟨_, rfl, hsound, Or.inl⟩)

/-- **The walk** through entries of which one at most is an mtree. -/
theorem Walk.Sound.loadLoop {eof : Bool} {all entries : List PkgEntry} (h : s.Sound source)
    (hnamed : AllNamed all) (hsource : ∀ file, Source all file → source file)
    (hmem : entries ⊆ all) (hcount : entries.countP (·.IsMtree) ≤ if s.hitMtree then 0 else 1) :
    (∃ err, loadLoop realloc full eof entries s = .error err) ∨
      ∃ s', loadLoop realloc full eof entries s = .stop s' ∧ s'.Sound source := by
  induction entries generalizing s with
  | nil =>
    cases eof with
    | false => exact Or.inl ⟨_, rfl⟩
    | true => exact Or.inr ⟨s, rfl, h⟩
  | cons entry entries ih =>
    obtain ⟨hentry, hrest⟩ := List.cons_subset.mp hmem
    rw [List.countP_cons] at hcount
    have hone : s.hitMtree → ¬entry.IsMtree := by
      intro hhit hmtree
      simp [hhit, hmtree] at hcount
    rcases h.loadEntry hnamed hsource hentry hone with ⟨err, herror⟩ |
      ⟨s', hnext, hsound, hhit⟩ | ⟨s', hstop, hsound⟩
    · exact Or.inl ⟨err, by rw [PkgFile.loadLoop, herror]⟩
    · rw [PkgFile.loadLoop, hnext]
      refine ih hsound hrest ?_
      by_cases hhit' : s'.hitMtree
      · rw [if_pos hhit']
        rcases hhit hhit' with hbefore | hmtree
        · rw [if_pos hbefore] at hcount
          omega
        · simp only [hmtree, decide_true, if_true] at hcount
          split_ifs at hcount <;> omega
      · rw [if_neg hhit']
        split_ifs at hcount <;> omega
    · exact Or.inr ⟨s', by rw [PkgFile.loadLoop, hstop], hsound⟩

theorem fileFor_named (entry : ArchiveEntry) (before : Option Char) {path : CString}
    (hdot : deref path ≠ '.') : (fileFor entry before path).name.isSome ∧
      deref (fileFor entry before path).key ≠ '.' := by
  refine ⟨rfl, ?_⟩
  simp only [fileFor, fileOf, AlpmFile.key, Option.getD_some]
  split_ifs
  · cases path with
    | nil => decide
    | cons c path => exact hdot
  · exact hdot

theorem mtreeFiles_named {listed : List ArchiveEntry} {file : AlpmFile}
    (h : file ∈ mtreeFiles listed) : file.name.isSome ∧ deref file.key ≠ '.' := by
  obtain ⟨entry, -, hsome⟩ := List.mem_filterMap.mp h
  split_ifs at hsome with hdot
  obtain rfl := Option.some.inj hsome
  exact fileFor_named _ _ hdot

theorem Source.named {entries : List PkgEntry} {file : AlpmFile} (h : Source entries file) :
    file.name.isSome ∧ deref file.key ≠ '.' := by
  rcases h with ⟨entry, -, hdot, rfl⟩ | ⟨entry, -, -, listed, -, hfile⟩
  · exact fileFor_named _ _ hdot
  · exact mtreeFiles_named hfile

theorem sound_start (newpkg : Pkg) : ({ newpkg } : Walk).Sound source :=
  ⟨nofun, [], by simp, rfl, fun _ => filled_nil⟩

/-- The files that a walk has listed. -/
def Walk.listed (s : Walk) : List AlpmFile := s.files.files.take s.files.count

/-- The package that is returned after a walk. -/
def finished (full : Bool) (s : Walk) : Pkg :=
  { s.newpkg with
    origin := .file
    validation := 1
    infolevel := if full then 15 else 11
    files := if full then (sortFilelist s.listed).map AlpmFile.key else [] }

theorem finishLoad_of_named (hnamed : ∀ file ∈ s.listed, file.name.isSome) :
    finishLoad full s = if s.config = false then .error .pkgInvalid
      else .pkg (finished full s) (if full then sortFilelist s.listed else []) := by
  have hall : ¬(s.listed.length > 1 ∧ s.listed.any (·.name.isNone)) := by
    rintro ⟨-, hany⟩
    obtain ⟨file, hfile, hnone⟩ := List.any_eq_true.mp hany
    have hsome := hnamed file hfile
    rw [Option.isNone_iff_eq_none.mp hnone] at hsome
    cases hsome
  rw [Walk.listed] at hall
  unfold finishLoad
  cases s.config with
  | false => rfl
  | true =>
    cases full with
    | false => rfl
    | true =>
      simp only [Bool.not_true, Bool.false_eq_true, if_false, if_neg hall]
      rfl

/-- **A package file** with one mtree at most is loaded without an access outside of the memory.
If it is loaded, it has a name and a version with a hyphen, and its files are sorted and listed
in the archive, none of them with a dot at its beginning. -/
theorem pkgLoadInternal_spec {addr : ℕ} {pkgfile : CString} {archive : Archive}
    (hnamed : AllNamed archive.entries) (hcount : archive.entries.countP (·.IsMtree) ≤ 1) :
    pkgLoadInternal realloc addr pkgfile full (some archive) ≠ .undefined ∧
      ∀ newpkg files, pkgLoadInternal realloc addr pkgfile full (some archive) =
          .pkg newpkg files →
        Described newpkg ∧ newpkg.origin = .file ∧ newpkg.files = files.map AlpmFile.key ∧
          files.Pairwise (fun f1 f2 => f1.key ≤ f2.key) ∧ (full = false → files = []) ∧
          ∀ file ∈ files, file.name.isSome ∧ deref file.key ≠ '.' ∧
            Source archive.entries file := by
  unfold pkgLoadInternal
  by_cases hpath : pkgfile.length = 0
  · rw [if_pos hpath]
    exact ⟨by simp, by simp⟩
  rw [if_neg hpath]
  dsimp only
  have hloop := @Walk.Sound.loadLoop realloc full (Source archive.entries)
    { newpkg := newPkg addr pkgfile archive.size } archive.eof archive.entries archive.entries
    (sound_start _) hnamed (fun _ => id) (List.Subset.refl _) hcount
  rcases hloop with ⟨err, herror⟩ | ⟨s', hstop, hsound⟩
  · rw [herror]
    exact ⟨by simp, by simp⟩
  · rw [hstop]
    dsimp only
    obtain ⟨kept, hkept, rfl, -⟩ := hsound.kept
    rw [finishLoad_of_named fun file hfile => (hkept file hfile).named.1]
    split_ifs with hconfig hfull
    · exact ⟨by simp, by simp⟩
    · refine ⟨by simp, fun newpkg files heq => ?_⟩
      obtain ⟨rfl, rfl⟩ := Loaded.pkg.inj heq
      obtain ⟨hname, hversion⟩ := hsound.described (by simpa using hconfig)
      refine ⟨⟨hname, hversion⟩, rfl, ?_, sortFilelist_sorted _, ?_, fun file hfile => ?_⟩
      · simp [finished, hfull]
      · simp [hfull]
      · have hsource := hkept file ((sortFilelist_perm _).mem_iff.mp hfile)
        exact ⟨hsource.named.1, hsource.named.2, hsource⟩
    · refine ⟨by simp, fun newpkg files heq => ?_⟩
      obtain ⟨rfl, rfl⟩ := Loaded.pkg.inj heq
      obtain ⟨hname, hversion⟩ := hsound.described (by simpa using hconfig)
      exact ⟨⟨hname, hversion⟩, rfl, by simp [finished, hfull], List.Pairwise.nil, fun _ => rfl,
        by simp⟩

/-! ## A package -/

def directory (pathname : CString) : ArchiveEntry := ⟨pathname, true, 0, 493⟩

def regular (pathname : CString) (size : Int) : ArchiveEntry := ⟨pathname, false, size, 420⟩

/-- An entry of the package that can be read. -/
def packed (entry : ArchiveEntry) (blocks : List CString) (mtree : Mtree) : PkgEntry :=
  { entry with blocks, broken := false, mtree, skips := true }

def pkginfoText : CString := str "pkgname = hello\npkgver = 2.12-1\n"

def helloPkginfo : PkgEntry := packed (regular (str ".PKGINFO") 34) [pkginfoText] .unreadable

def helloMtree : PkgEntry :=
  packed (regular (str ".MTREE") 90) []
    (.entries [regular (str "./.PKGINFO") 34, directory (str "./usr"),
      regular (str "./usr/hello") 7] true)

def helloFiles : List PkgEntry :=
  [packed (directory (str "usr/")) [] .unreadable,
    packed (regular (str "usr/hello") 7) [] .unreadable]

/-- `hello`, with an mtree. -/
def hello : Archive := ⟨4096, helloPkginfo :: helloMtree :: helloFiles, true⟩

theorem allNamed_hello : AllNamed hello.entries := by
  unfold AllNamed DirsNamed
  refine ⟨by decide +kernel, ?_⟩
  intro entry hentry listed eof hmtree
  simp only [hello, helloFiles, List.mem_cons, List.not_mem_nil, or_false] at hentry
  rcases hentry with rfl | rfl | rfl | rfl
  · cases hmtree
  · obtain ⟨rfl, rfl⟩ := Mtree.entries.inj hmtree
    decide +kernel
  · cases hmtree
  · cases hmtree

/-- What is read from the description of `hello`. -/
def described (newpkg : Pkg) : Pkg := { newpkg with name := str "hello", version := str "2.12-1" }

theorem loadEntry_helloPkginfo (newpkg : Pkg) :
    loadEntry realloc full { newpkg } helloPkginfo =
      .next { newpkg := described newpkg, config := true } := by
  have hlines := parseDescfile_lines (@cuts_single pkginfoText (by decide))
    (by decide) (by decide +kernel) newpkg
  have hparse : parseDescfile
      { Reading.start maxLineSize helloPkginfo.blocks with broken := helloPkginfo.broken } newpkg =
        some (0, described newpkg) := hlines
  show loadPkginfo _ helloPkginfo = _
  rw [loadPkginfo, hparse]
  rfl

theorem pkgLoadInternal_hello : pkgLoadInternal (fun _ => true) 1 (str "hello.pkg") true
    (some hello) = .pkg { described (newPkg 1 (str "hello.pkg") 4096) with
      origin := .file
      validation := 1
      infolevel := 15
      files := [str "usr/", str "usr/hello"] }
    [⟨some (str "usr/"), 0, 493⟩, ⟨some (str "usr/hello"), 7, 420⟩] := by
  rw [pkgLoadInternal, if_neg (by decide)]
  dsimp only
  rw [hello, loadLoop, loadEntry_helloPkginfo]
  decide +kernel

theorem pkgLoadInternal_spec_hello : ∃ newpkg files,
    pkgLoadInternal (fun _ => true) 1 (str "hello.pkg") true (some hello) = .pkg newpkg files ∧
      Described newpkg ∧ files.length = 2 ∧ ∀ file ∈ files, Source hello.entries file := by
  obtain ⟨hdescribed, -, -, -, -, hfiles⟩ :=
    (pkgLoadInternal_spec allNamed_hello (by decide +kernel)).2 _ _ pkgLoadInternal_hello
  exact ⟨_, _, pkgLoadInternal_hello, hdescribed, rfl, fun file hfile => (hfiles file hfile).2.2⟩

/-- A directory without a name at the beginning of the archive: `path[pathlen - 1]` is the byte
before it. -/
theorem pkgLoad_unnamed {addr : ℕ} {pkgfile : CString} {size : Int} {eof : Bool} {entry : PkgEntry}
    {entries : List PkgEntry} (hpath : pkgfile ≠ []) (hrealloc : realloc 1) (hdir : entry.isDir)
    (hpathname : entry.pathname = []) :
    pkgLoadInternal realloc addr pkgfile true (some ⟨size, entry :: entries, eof⟩) =
      .undefined := by
  have hadd : addEntryToFilesList realloc {} 0 entry.toArchiveEntry none entry.pathname =
      .undefined := by
    simp [addEntryToFilesList, greedyGrow, hrealloc, hdir, hpathname, lastByte]
  have hload : loadEntry realloc true { newpkg := newPkg addr pkgfile size } entry =
      .undefined := by
    have hfile : deref entry.pathname ≠ '.' := by rw [hpathname]; decide
    rw [loadEntry_file _ hfile]
    simp [loadFile, hadd]
  rw [pkgLoadInternal, if_neg (by simpa using hpath)]
  simp only [loadLoop, hload]

/-- Two mtrees, of which the second is broken. -/
def brokenMtrees : List PkgEntry :=
  [packed (regular (str ".MTREE") 9) [] (.entries [regular (str "./usr") 0] true),
    packed (regular (str ".MTREE") 9) [] .unreadable]

/-- After a second mtree that is broken the files are written behind the array. -/
theorem pkgLoad_overflow : pkgLoadInternal (fun _ => true) 1 (str "hello.pkg") true
    (some { hello with entries := helloFiles ++ brokenMtrees ++ helloFiles }) = .undefined := by
  decide +kernel

end Alpm.PkgFile
