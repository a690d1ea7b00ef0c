import Alpm.LocalDbReason
import Alpm.PkgFile.Ways

/-!
# From a package file to the local database

The description of a package that was loaded is written to the local database when the package is
installed, and read from there ever after.  The two formats do not have the same limits.

## 1.  What the database cannot hold

A line of the description may be much longer than the line buffer of the local database, and an
element of a list may be empty, which ends the list when it is read.  `Recordable` excludes both,
and `RecordableLine` is the condition on a line of the description.  The dependencies that are
needed to make and to check a package are not written, and a size below zero is read back as `-1`.

## 2.  The way through

Every line of the description keeps `Recordable`: there is one case for each key of `pkginfoKeys`.
The walk through the archive keeps it from the description on, and the round trip of the local
database does the rest: `recorded_of_loaded`.
-/

namespace Alpm.PkgFile

open LocalDb (lineSize Line Legible InRange ParsedLines Lines written bare)

variable {realloc : ℕ → Bool} {full : Bool}

/-! ## Values that can be recorded -/

/-- The value fits the line buffer of the local database with its newline. -/
def Short (text : CString) : Prop := '\n' ∉ text ∧ text.length + 2 ≤ lineSize

theorem Short.line {text : CString} (h : Short text) : Line text :=
  ⟨h.1, Nat.le_of_succ_le h.2⟩

/-- An element of a list. -/
def Item (text : CString) : Prop := text ≠ [] ∧ Short text

/-- Dependencies that were parsed from elements of a list. -/
def Items (deplist : List Depend) : Prop :=
  ∃ lines : List CString, (∀ line ∈ lines, Item line) ∧ deplist = lines.map depFromString

theorem Items.concat {deplist : List Depend} (h : Items deplist) {ptr : CString} (hptr : Item ptr) :
    Items (deplist ++ [depFromString ptr]) := by
  obtain ⟨lines, hlines, rfl⟩ := h
  refine ⟨lines ++ [ptr], ?_, by simp⟩
  exact List.forall_mem_append.mpr ⟨hlines, List.forall_mem_singleton.mpr hptr⟩

theorem Items.printed {deplist : List Depend} (h : Items deplist) :
    ∀ line ∈ deplist.map depComputeString, line.length + 2 ≤ lineSize := by
  obtain ⟨lines, hlines, rfl⟩ := h
  intro line hline
  obtain ⟨dep, hdep, rfl⟩ := List.mem_map.mp hline
  obtain ⟨text, htext, rfl⟩ := List.mem_map.mp hdep
  rw [depComputeString_depFromString]
  exact (hlines text htext).2.2

theorem Items.parsedLines {deplist : List Depend} (h : Items deplist) : ParsedLines deplist := by
  obtain ⟨lines, hlines, rfl⟩ := h
  exact ⟨lines, fun line hline => ⟨(hlines line hline).1, (hlines line hline).2.line⟩, rfl⟩

/-- A package whose description can be recorded. -/
structure Recordable (pkg : Pkg) : Prop where
  name : Short pkg.name
  version : Short pkg.version
  base : ∀ line ∈ pkg.base, Line line
  desc : ∀ line ∈ pkg.desc, Line line
  url : ∀ line ∈ pkg.url, Line line
  arch : ∀ line ∈ pkg.arch, Line line
  packager : ∀ line ∈ pkg.packager, Line line
  builddate : InRange pkg.builddate
  installdate : InRange pkg.installdate
  isize : InRange pkg.isize
  validation : pkg.validation < 16
  groups : ∀ line ∈ pkg.groups, Item line
  licenses : ∀ line ∈ pkg.licenses, Item line
  replaces : Items pkg.replaces
  depends : Items pkg.depends
  optdepends : Items pkg.optdepends
  conflicts : Items pkg.conflicts
  provides : Items pkg.provides

theorem Recordable.legible {pkg : Pkg} (h : Recordable pkg) : Legible pkg :=
  { h with
    groups := fun line hline => ⟨(h.groups line hline).1, (h.groups line hline).2.line⟩
    licenses := fun line hline => ⟨(h.licenses line hline).1, (h.licenses line hline).2.line⟩
    replaces := h.replaces.parsedLines
    depends := h.depends.parsedLines
    optdepends := h.optdepends.parsedLines
    conflicts := h.conflicts.parsedLines
    provides := h.provides.parsedLines }

theorem Recordable.readable {pkg : Pkg} (h : Recordable pkg) :
    ∀ list ∈ LocalDb.descLists pkg, LocalDb.Readable list := by
  simp only [LocalDb.descLists, List.forall_mem_cons]
  exact ⟨LocalDb.readable_of_lt fun line hline => (h.groups line hline).2.2,
    LocalDb.readable_of_lt fun line hline => (h.licenses line hline).2.2,
    LocalDb.readable_of_lt h.replaces.printed, LocalDb.readable_of_lt h.depends.printed,
    LocalDb.readable_of_lt h.optdepends.printed, LocalDb.readable_of_lt h.conflicts.printed,
    LocalDb.readable_of_lt h.provides.printed, by simp⟩

/-- What can be recorded is read back. -/
theorem Recordable.readDesc {pkg : Pkg} (h : Recordable pkg) :
    LocalDb.readDesc { text := LocalDb.writeDesc pkg } (bare pkg) = written pkg :=
  ((h.legible.descWritable h.name.line h.version.line h.readable).reads_writeDesc 0).readDesc

/-! ## Descriptions that can be recorded -/

/-- The keys whose values are elements of lists that are recorded. -/
def listKeys : List CString :=
  [str "group", str "license", str "depend", str "optdepend", str "conflict", str "replaces",
    str "provides"]

/-- The value of the line is short, and not empty if it is an element of a list. -/
def RecordableLine (line : CString) : Prop :=
  ∀ pair ∈ splitKey line, pair.2.length + 2 ≤ lineSize ∧ (pair.1 ∈ listKeys → pair.2 ≠ [])

instance (line : CString) : Decidable (RecordableLine line) :=
  inferInstanceAs (Decidable (∀ pair ∈ splitKey line, _ ∧ _))

theorem recordable_store : ∀ entry ∈ pkginfoKeys, ∀ (pkg : Pkg) (ptr : CString), Recordable pkg →
    Short ptr → (entry.1 ∈ listKeys → ptr ≠ []) → Recordable (entry.2 pkg ptr) := by
  have hsome {ptr : CString} (h : Short ptr) : ∀ line ∈ some ptr, Line line := 
    LocalDb.forall_mem_some_line h.line
  have hconcat {lines : List CString} {ptr : CString} (h : ∀ line ∈ lines, Item line)
      (hptr : Item ptr) : ∀ line ∈ lines ++ [ptr], Item line :=
    List.forall_mem_append.mpr ⟨h, List.forall_mem_singleton.mpr hptr⟩
  simp only [pkginfoKeys, List.forall_mem_cons]
  exact ⟨fun pkg ptr h hptr _ => { h with name := hptr },
    fun pkg ptr h hptr _ => { h with base := hsome hptr },
    fun pkg ptr h hptr _ => { h with version := hptr },
    fun pkg ptr h _ _ => h,
    fun pkg ptr h hptr _ => { h with desc := hsome hptr },
    fun pkg ptr h hptr hne => { h with groups := hconcat h.groups ⟨hne (by decide), hptr⟩ },
    fun pkg ptr h hptr _ => { h with url := hsome hptr },
    fun pkg ptr h hptr hne => { h with licenses := hconcat h.licenses ⟨hne (by decide), hptr⟩ },
    fun pkg ptr h _ _ => { h with builddate := LocalDb.inRange_parsedate ptr },
    fun pkg ptr h hptr _ => { h with packager := hsome hptr },
    fun pkg ptr h hptr _ => { h with arch := hsome hptr },
    fun pkg ptr h _ _ => { h with isize := LocalDb.inRange_strtoofft ptr },
    fun pkg ptr h hptr hne => { h with depends := h.depends.concat ⟨hne (by decide), hptr⟩ },
    fun pkg ptr h hptr hne => { h with optdepends := h.optdepends.concat ⟨hne (by decide), hptr⟩ },
    fun pkg ptr h _ _ => { h with },
    fun pkg ptr h _ _ => { h with },
    fun pkg ptr h hptr hne => { h with conflicts := h.conflicts.concat ⟨hne (by decide), hptr⟩ },
    fun pkg ptr h hptr hne => { h with replaces := h.replaces.concat ⟨hne (by decide), hptr⟩ },
    fun pkg ptr h hptr hne => { h with provides := h.provides.concat ⟨hne (by decide), hptr⟩ },
    fun pkg ptr h _ _ => { h with },
    fun pkg ptr h _ _ => h,
    fun pkg ptr h _ _ => h,
    by simp⟩

theorem splitKey_value {line key ptr : CString} (h : splitKey line = some (key, ptr)) :
    ptr ⊆ line := by
  unfold splitKey at h
  split at h
  · cases h
  · split_ifs at h
    obtain ⟨-, rfl⟩ := Prod.mk.inj (Option.some.inj h)
    exact fun c hc => List.mem_of_mem_drop ((List.takeWhile_sublist _).subset hc)

theorem recordable_parseLine {pkg : Pkg} (h : Recordable pkg) {line : CString}
    (hnewline : '\n' ∉ line) (hline : RecordableLine line) : Recordable (parseLine pkg line) := by
  unfold parseLine
  split_ifs
  · exact h
  split
  · exact h
  next key ptr hsplit =>
    obtain ⟨hlength, hitem⟩ := hline (key, ptr) hsplit
    have hptr : Short ptr := ⟨fun hmem => hnewline (splitKey_value hsplit hmem), hlength⟩
    unfold storeKey
    split
    next name store hfind =>
      have hkey : key = name := by
        have heq := List.find?_some hfind
        rwa [decide_eq_true_eq, strcmp_eq_zero] at heq
      exact recordable_store _ (List.mem_of_find?_eq_some hfind) pkg ptr h hptr (hkey ▸ hitem)
    · exact h

theorem recordable_foldl {pkg : Pkg} (h : Recordable pkg) {lines : List CString}
    (hnewline : ∀ line ∈ lines, '\n' ∉ line) (hlines : ∀ line ∈ lines, RecordableLine line) :
    Recordable (lines.foldl parseLine pkg) := by
  induction lines generalizing pkg with
  | nil => exact h
  | cons line lines ih =>
    obtain ⟨hnewlineHead, hnewline⟩ := List.forall_mem_cons.mp hnewline
    obtain ⟨hline, hlines⟩ := List.forall_mem_cons.mp hlines
    exact ih (recordable_parseLine h hnewlineHead hline) hnewline hlines

/-- The data of the entry is a text without a NUL, with lines that can be recorded. -/
def RecordableEntry (entry : PkgEntry) : Prop :=
  entry.broken = false ∧ (∀ block ∈ entry.blocks, block ≠ []) ∧ '\x00' ∉ entry.blocks.flatten ∧
    ∀ line ∈ entry.blocks.flatten.splitOn '\n', RecordableLine line

theorem recordable_parseDescfile {entry : PkgEntry} (hentry : RecordableEntry entry)
    {pkg pkg' : Pkg} (h : Recordable pkg) (hparse : parseDescfile
      { Reading.start maxLineSize entry.blocks with broken := entry.broken } pkg =
        some (0, pkg')) : Recordable pkg' := by
  obtain ⟨hbroken, hblocks, hnul, hlines⟩ := hentry
  rw [hbroken] at hparse
  have hstart := parseDescfile_start ⟨rfl, hblocks⟩ hnul pkg
  have hread : parseDescfile (.start maxLineSize entry.blocks) pkg = some (0, pkg') := hparse
  rw [hread] at hstart
  rcases hstart with hsame | ⟨⟨newpkg', herror⟩, -⟩
  · obtain ⟨-, rfl⟩ := Prod.mk.inj (Option.some.inj hsame)
    exact recordable_foldl h (fun line hline => Reading.newline_notMem_line hline) hlines
  · cases herror

instance (entry : PkgEntry) : Decidable (RecordableEntry entry) :=
  inferInstanceAs (Decidable (_ ∧ _ ∧ _ ∧ _))

/-- The walk keeps what the descriptions keep, apart from the scriptlet. -/
theorem recordable_loadLoop {eof : Bool} {entries : List PkgEntry} {s s' : Walk}
    (hentries : ∀ entry ∈ entries, entry.IsPkginfo → RecordableEntry entry)
    (h : Recordable s.newpkg) (hloop : loadLoop realloc full eof entries s = .stop s') :
    Recordable s'.newpkg := by
  have hbehind {s₁ s₂ : Walk} (hsame : Behind False s₁ s₂) (h : Recordable s₂.newpkg) :
      Recordable s₁.newpkg := by
    obtain ⟨⟨scriptlet, hnewpkg, -⟩, -⟩ := hsame
    rw [hnewpkg] at h
    exact { h with }
  induction entries generalizing s with
  | nil =>
    rw [loadLoop] at hloop
    split_ifs at hloop
    exact Pass.stop.inj hloop ▸ h
  | cons entry entries ih =>
    obtain ⟨hentry, hentries⟩ := List.forall_mem_cons.mp hentries
    by_cases hpkginfo : entry.IsPkginfo
    · rcases loadLoop_cons_stop hloop with hstop | ⟨s₁, hnext, hloop⟩
      · exact absurd hstop (loadEntry_dot_ne_stop s s' (by rw [hpkginfo]; rfl))
      · rw [loadEntry_pkginfo s hpkginfo] at hnext
        rcases loadPkginfo_cases s entry with herror | ⟨lines, -, hparse, -, hload⟩
        · cases herror.symm.trans hnext
        · obtain rfl := Pass.next.inj (hload.symm.trans hnext)
          exact ih hentries (recordable_parseDescfile (hentry hpkginfo) h hparse) hloop
    · rcases loadLoop_cons_stop hloop with hstop | ⟨s₁, hnext, hloop⟩
      · exact hbehind (loadEntry_behind hpkginfo (Or.inr hstop)) h
      · exact ih hentries (hbehind (loadEntry_behind hpkginfo (Or.inl hnext)) h) hloop

theorem recordable_newPkg (addr : ℕ) (pkgfile : CString) (size : Int) :
    Recordable (newPkg addr pkgfile size) where
  name := ⟨List.not_mem_nil, (by decide : 0 + 2 ≤ lineSize)⟩
  version := ⟨List.not_mem_nil, (by decide : 0 + 2 ≤ lineSize)⟩
  base := nofun
  desc := nofun
  url := nofun
  arch := nofun
  packager := nofun
  builddate := LocalDb.inRange_zero
  installdate := LocalDb.inRange_zero
  isize := LocalDb.inRange_zero
  validation := (by decide : 0 < 16)
  groups := nofun
  licenses := nofun
  replaces := ⟨[], by simp, rfl⟩
  depends := ⟨[], by simp, rfl⟩
  optdepends := ⟨[], by simp, rfl⟩
  conflicts := ⟨[], by simp, rfl⟩
  provides := ⟨[], by simp, rfl⟩

/-- The fields that the database has of a package, all as they are in the package. -/
def recordedPart (info : Pkg) : Pkg :=
  { LocalDb.descPart info with makedepends := [], checkdepends := [] }

theorem written_eq_recordedPart_iff (info : Pkg) :
    written info = recordedPart info ↔ -1 ≤ info.isize := by
  rw [← LocalDb.storedSize_eq_iff]
  refine ⟨congrArg Pkg.isize, fun heq => ?_⟩
  show { recordedPart info with isize := LocalDb.storedSize info.isize } = recordedPart info
  rw [heq]
  rfl

/-- **From the file to the database.**  The description of a package that was loaded is read back
from the database with the validation, the date and the reason that it is given when it is
validated and installed, and every field that is recorded is as it was, if the size is not below
`-1`.  It is below for a `size` of more digits than an `off_t` has room for: the digits wrap when
they are read, and a number with a sign is not read back. -/
theorem recorded_of_loaded {addr : ℕ} {pkgfile : CString} {archive : Archive} {newpkg : Pkg}
    {files : List AlpmFile} {validation : ℕ} {installdate : Int} (reason : PkgReason)
    (hentries : ∀ entry ∈ archive.entries, entry.IsPkginfo → RecordableEntry entry)
    (hload : pkgLoadInternal realloc addr pkgfile full (some archive) = .pkg newpkg files)
    (hvalidation : validation < 16) (hdate : InRange installdate) :
    LocalDb.readDesc
        { text := LocalDb.writeDesc { newpkg with validation, installdate, reason } }
        (bare newpkg) =
      written { newpkg with validation, installdate, reason } ∧
    (written { newpkg with validation, installdate, reason } =
      recordedPart { newpkg with validation, installdate, reason } ↔ -1 ≤ newpkg.isize) := by
  obtain ⟨-, s, hloop, hfinish⟩ := pkgLoadInternal_eq_pkg hload
  obtain ⟨-, rfl, -⟩ := finishLoad_eq_pkg hfinish
  have h := recordable_loadLoop hentries (recordable_newPkg addr pkgfile archive.size) hloop
  exact ⟨Recordable.readDesc { h with installdate := hdate, validation := hvalidation },
    written_eq_recordedPart_iff _⟩

theorem recorded_of_loaded_hello : ∃ newpkg files installed,
    pkgLoadInternal (fun _ => true) 1 (str "hello.pkg") true (some hello) = .pkg newpkg files ∧
      installed = { newpkg with validation := 8, installdate := 1545000000 } ∧
      LocalDb.readDesc { text := LocalDb.writeDesc installed } (bare newpkg) =
        recordedPart installed := by
  obtain ⟨hread, hsame⟩ := recorded_of_loaded .explicit (by decide +kernel)
    pkgLoadInternal_hello (show 8 < 16 by decide)
    (show InRange 1545000000 from ⟨by decide, by decide⟩)
  exact ⟨_, _, _, pkgLoadInternal_hello, rfl, hread.trans (hsame.mpr (by decide))⟩

end Alpm.PkgFile
