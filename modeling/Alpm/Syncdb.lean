import Alpm.Archive
import Alpm.Files.Filelist
import Alpm.Package

/-!
# Reading an entry of a sync database

`sync_db_read` of `be_sync.c`.

## 1.  A stale pointer

The macro for dependency lists takes the text from `line`, a pointer to the line buffer at the
heading of the section, and not from `buf.line`; when the buffer has been moved since the heading,
that is a read of freed memory.  As long as the buffer stays where it is the two are one, and the
code works.

## 2.  Lines instead of blocks

`readLines` is the reading on the lines of the content, with the size of the buffer as its only
memory of the blocks.  `syncDbRead_eq` says that the two agree, and from there on it is a matter of
lines when the blocks make no difference.

## 3.  The condition

Freed memory is read when an entry of a dependency section is longer than every line before it and
does not fit in the buffer (`readLines_eq_none`), and whether it fits depends on the first block.
So no such entry may be there.  A first line that does not fit in the limit is an exception of its
own, because the first call makes room for the whole first block without a look at the limit.
`syncDbRead_blocks` has the condition for both, on the lines of the content.

That the condition is necessary is seen from two ways of cutting.  With single bytes as blocks the
buffer is as small as it can be, so an entry of that kind is read from freed memory, which is no
result at all.  And where the first line is too long single bytes end in an error at once, while one
block is read on; they leave the same package for every package that was there before only if the
rest ends in an error before anything is stored (`failsUnstored_iff`).
-/

namespace Alpm

/-- `buf.max_line_size`. -/
def maxLineSize : ℕ := 512 * 1024

/-- `PATH_MAX`. -/
def pathMax : ℕ := 4096

/-- `_alpm_validate_filename`. -/
def validateFilename (filename : CString) : Int :=
  if deref filename = '.' then -1
  else if (memchr filename '/' filename.length).isSome then -1
  else if filename.length > pathMax then -1
  else 0

/-- `_alpm_filelist_sort`. -/
def filelistSort (files : List CString) : List CString :=
  if (files.zip files.tail).any fun (name, next) => strcmp name next > 0 then
    files.mergeSort fun a b => strcmp a b ≤ 0
  else files

/-! ## The sections -/

/-- What `sync_db_read` does after the heading of a section. -/
inductive SyncSection where
  /-- The next line is compared with the package; a difference is only logged. -/
  | check
  /-- `READ_AND_STORE`, or `READ_NEXT` and a conversion. -/
  | store (f : Pkg → CString → Pkg)
  /-- `READ_AND_STORE` and `_alpm_validate_filename`. -/
  | filename
  /-- `READ_AND_STORE_ALL`. -/
  | storeAll (f : Pkg → CString → Pkg)
  /-- `READ_AND_SPLITDEP`. -/
  | splitdep (f : Pkg → Depend → Pkg)
  /-- The file list, which is stored when it is complete. -/
  | files

/-- The headings that `sync_db_read` compares a line with. -/
def syncSections : List (CString × SyncSection) :=
  [(str "%NAME%", .check),
    (str "%VERSION%", .check),
    (str "%FILENAME%", .filename),
    (str "%BASE%", .store fun pkg line => { pkg with base := some line }),
    (str "%DESC%", .store fun pkg line => { pkg with desc := some line }),
    (str "%GROUPS%", .storeAll fun pkg line => { pkg with groups := pkg.groups ++ [line] }),
    (str "%URL%", .store fun pkg line => { pkg with url := some line }),
    (str "%LICENSE%", .storeAll fun pkg line => { pkg with licenses := pkg.licenses ++ [line] }),
    (str "%ARCH%", .store fun pkg line => { pkg with arch := some line }),
    (str "%BUILDDATE%", .store fun pkg line => { pkg with builddate := parsedate line }),
    (str "%PACKAGER%", .store fun pkg line => { pkg with packager := some line }),
    (str "%CSIZE%", .store fun pkg line => { pkg with size := strtoofft line }),
    (str "%ISIZE%", .store fun pkg line => { pkg with isize := strtoofft line }),
    (str "%MD5SUM%", .store fun pkg line => { pkg with md5sum := some line }),
    (str "%SHA256SUM%", .store fun pkg line => { pkg with sha256sum := some line }),
    (str "%PGPSIG%", .store fun pkg line => { pkg with base64Sig := some line }),
    (str "%REPLACES%", .splitdep fun pkg dep => { pkg with replaces := pkg.replaces ++ [dep] }),
    (str "%DEPENDS%", .splitdep fun pkg dep => { pkg with depends := pkg.depends ++ [dep] }),
    (str "%OPTDEPENDS%",
      .splitdep fun pkg dep => { pkg with optdepends := pkg.optdepends ++ [dep] }),
    (str "%MAKEDEPENDS%",
      .splitdep fun pkg dep => { pkg with makedepends := pkg.makedepends ++ [dep] }),
    (str "%CHECKDEPENDS%",
      .splitdep fun pkg dep => { pkg with checkdepends := pkg.checkdepends ++ [dep] }),
    (str "%CONFLICTS%",
      .splitdep fun pkg dep => { pkg with conflicts := pkg.conflicts ++ [dep] }),
    (str "%PROVIDES%", .splitdep fun pkg dep => { pkg with provides := pkg.provides ++ [dep] }),
    (str "%FILES%", .files)]

/-- The section that a line begins; an empty line begins none. -/
def sectionOf (line : CString) : Option SyncSection :=
  (syncSections.find? fun heading => strcmp line heading.1 = 0).map (·.2)

/-! ## The macros -/

/-- A call of `_alpm_archive_fgets` and of `_alpm_strip_newline`, on the buffer. -/
inductive NextLine where
  | undefined
  | stopped (ret : ArchiveRet)
  | line (s : Reading)

def nextLine (s : Reading) : NextLine :=
  match archiveFgets s with
  | (.ok, s') =>
    match s'.text s'.buf.line with
    | none => .undefined
    | some str => .line (s'.write s'.buf.line (stripNewline str))
  | (ret, _) => .stopped ret

/-- What a macro leaves behind: a read of freed memory, `goto error`, or neither, with the
value of what it fills in. -/
inductive Parsed (α : Type) where
  | undefined
  | error (value : α)
  | done (s : Reading) (value : α)

/-- `READ_NEXT`, and what is done with the line. -/
def readNext (s : Reading) (pkg : Pkg) (use : Reading → CString → Parsed Pkg) : Parsed Pkg :=
  match nextLine s with
  | .undefined => .undefined
  | .stopped _ => .error pkg
  | .line s' =>
    match s'.text s'.buf.line with
    | none => .undefined
    | some line => use s' line

theorem nextLine_todo {s s' : Reading} (h : nextLine s = .line s') : s'.todo < s.todo := by
  unfold nextLine at h
  split at h
  next s₁ hfgets =>
    split at h
    · cases h
    · obtain rfl := NextLine.line.inj h
      rw [Reading.write_todo]
      exact archiveFgets_todo hfgets
  next => cases h

/-- The loop of `READ_AND_STORE_ALL`, `READ_AND_SPLITDEP` and the file list.  The text of an
entry is read through `ptr`. -/
def readEntries {α : Type} (ptr : Reading → Option ℕ) (add : α → CString → α) (s : Reading)
    (value : α) : Parsed α :=
  match h : nextLine s with
  | .undefined => .undefined
  | .stopped _ => .error value
  | .line s' =>
    match s'.text s'.buf.line with
    | none => .undefined
    | some [] => .done s' value
    | some (_ :: _) =>
      match s'.text (ptr s') with
      | none => .undefined
      | some entry =>
        have := nextLine_todo h
        readEntries ptr add s' (add value entry)
  termination_by s.todo

/-- The section after its heading; `buf.line` is where `line` points to. -/
def readSection (sec : SyncSection) (s : Reading) (pkg : Pkg) : Parsed Pkg :=
  match sec with
  | .check => readNext s pkg fun s _ => .done s pkg
  | .store f => readNext s pkg fun s line => .done s (f pkg line)
  | .filename =>
    readNext s pkg fun s line =>
      let pkg := { pkg with filename := some line }
      if validateFilename line < 0 then .error pkg else .done s pkg
  | .storeAll f => readEntries (fun s => s.buf.line) f s pkg
  | .splitdep f =>
    let line := s.buf.line
    readEntries (fun _ => line) (fun pkg entry => f pkg (depFromString entry)) s pkg
  | .files =>
    match readEntries (fun s => s.buf.line) (fun files line => files ++ [line]) s [] with
    | .undefined => .undefined
    | .error _ => .error pkg
    | .done s files => .done s { pkg with files := filelistSort files }

theorem readNext_todo {s s' : Reading} {pkg pkg' : Pkg} {use : Reading → CString → Parsed Pkg}
    (huse : ∀ s line, ∀ s' pkg', use s line = .done s' pkg' → s' = s)
    (h : readNext s pkg use = .done s' pkg') : s'.todo < s.todo := by
  unfold readNext at h
  split at h
  · cases h
  · cases h
  next s₁ hnext =>
    split at h
    · cases h
    · rw [huse _ _ _ _ h]
      exact nextLine_todo hnext

theorem readEntries_todo {α : Type} {ptr : Reading → Option ℕ} {add : α → CString → α}
    {s s' : Reading} {value value' : α} (h : readEntries ptr add s value = .done s' value') :
    s'.todo < s.todo := by
  fun_induction readEntries ptr add s value with
  | case1 => cases h
  | case2 => cases h
  | case3 => cases h
  | case4 s value s₁ hnext =>
    obtain ⟨rfl, -⟩ := Parsed.done.inj h
    exact nextLine_todo hnext
  | case5 => cases h
  | case6 s value s₁ hnext _ _ _ _ _ hless ih => exact (ih h).trans hless

theorem readSection_todo {sec : SyncSection} {s s' : Reading} {pkg pkg' : Pkg}
    (h : readSection sec s pkg = .done s' pkg') : s'.todo < s.todo := by
  cases sec with
  | check => exact readNext_todo (fun _ _ _ _ h => (Parsed.done.inj h).1.symm) h
  | store f => exact readNext_todo (fun _ _ _ _ h => (Parsed.done.inj h).1.symm) h
  | filename =>
    refine readNext_todo (fun s line s' pkg' h => ?_) h
    dsimp only at h
    split_ifs at h
    exact (Parsed.done.inj h).1.symm
  | storeAll f => exact readEntries_todo h
  | splitdep f => exact readEntries_todo h
  | files =>
    rw [readSection] at h
    split at h
    · cases h
    · cases h
    next hentries =>
      obtain ⟨rfl, -⟩ := Parsed.done.inj h
      exact readEntries_todo hentries

/-- The loop of `sync_db_read`: the return value and the package, or a read of freed
memory. -/
def syncDbReadLoop (s : Reading) (pkg : Pkg) : Option (Int × Pkg) :=
  match hnext : nextLine s with
  | .undefined => none
  | .stopped ret => some (if ret = .eof then 0 else -1, pkg)
  | .line s' =>
    have := nextLine_todo hnext
    match s'.text s'.buf.line with
    | none => none
    | some line =>
      match sectionOf line with
      | none => syncDbReadLoop s' pkg
      | some sec =>
        match hsection : readSection sec s' pkg with
        | .undefined => none
        | .error pkg => some (-1, pkg)
        | .done s'' pkg =>
          have := readSection_todo hsection
          syncDbReadLoop s'' pkg
  termination_by s.todo

/-- What `sync_db_read` leaves behind: the package, if there is one, and whether
`*likely_pkg` is set to it. -/
structure SyncRead where
  ret : Int
  pkg : Option Pkg
  likely : Bool := false
  deriving DecidableEq

/-- `sync_db_read`, for an entry with its data in `blocks`.  `loadPkg` is the package that
`load_pkg_for_entry` finds or makes for the name of an entry. -/
def syncDbRead (loadPkg : CString → Option Pkg) (entryname : Option CString)
    (blocks : List CString) : Option SyncRead :=
  match entryname with
  | none => some { ret := -1, pkg := none }
  | some entryname =>
    match loadPkg entryname with
    | none => some { ret := -1, pkg := none }
    | some pkg =>
      match (strrchr entryname '/').map (·.2) with
      | none => some { ret := 0, pkg := some pkg }
      | some filename =>
        if strcmp filename (str "desc") = 0 ∨ strcmp filename (str "depends") = 0 ∨
            strcmp filename (str "files") = 0 then
          match syncDbReadLoop (.start maxLineSize blocks) pkg with
          | none => none
          | some (ret, pkg) => some { ret, pkg := some pkg, likely := ret = 0 }
        else some { ret := 0, pkg := some pkg }

/-! ## The reading line by line -/

abbrev TooLong (line : CString) : Prop := maxLineSize < line.length + 1

/-- The reading of the lines after a heading, or of the lines between two sections, with
`files` read so far and a buffer of `room` bytes.  An entry that does not fit in the buffer
moves it, and `READ_AND_SPLITDEP` reads the old one. -/
def readLines : Option SyncSection → List CString → ℕ → Pkg → List CString → Option (Int × Pkg)
  | none, _, _, pkg, [] => some (0, pkg)
  | some _, _, _, pkg, [] => some (-1, pkg)
  | sec, files, room, pkg, line :: lines =>
    if TooLong line then some (-1, pkg)
    else
      let room' := max room (line.length + 1)
      match sec with
      | none => readLines (sectionOf line) [] room' pkg lines
      | some .check => readLines none [] room' pkg lines
      | some (.store f) => readLines none [] room' (f pkg line) lines
      | some .filename =>
        let pkg := { pkg with filename := some line }
        if validateFilename line < 0 then some (-1, pkg) else readLines none [] room' pkg lines
      | some (.storeAll f) =>
        if line = [] then readLines none [] room' pkg lines
        else readLines (some (.storeAll f)) [] room' (f pkg line) lines
      | some (.splitdep f) =>
        if line = [] then readLines none [] room' pkg lines
        else if room < line.length + 1 then none
        else readLines (some (.splitdep f)) [] room' (f pkg (depFromString line)) lines
      | some .files =>
        if line = [] then
          readLines none [] room' { pkg with files := filelistSort files } lines
        else readLines (some .files) (files ++ [line]) room' pkg lines

/-- A reading that has got to a line, with the size of its buffer. -/
structure At (s : Reading) (line : CString) (lines : List CString) (room : ℕ) : Prop where
  atLine : s.AtLine maxLineSize line lines
  room : s.buf.lineSize = room

theorem nextLine_of_fgets {s s' : Reading} {p : CString} {ps : List CString}
    (hok : archiveFgets s = (.ok, s')) (hat : s'.AtLine maxLineSize p ps) (hp : '\n' ∉ p) :
    nextLine s = .line s' := by
  obtain ⟨a, ha, hline, hmemory⟩ := hat.ptr
  have hsame : s'.write s'.buf.line p = s' := by
    simp only [hline, Reading.write, ← hmemory, Function.update_eq_self]
  simp [nextLine, hok, hat.text_line, stripNewline_of_notMem hp, hsame]

theorem nextLine_of_stopped {s : Reading} {ret : ArchiveRet} (h : (archiveFgets s).1 = ret)
    (hret : ret ≠ .ok) : nextLine s = .stopped ret := by
  subst h
  unfold nextLine
  split
  next hok => simp [hok] at hret
  next hstopped => rw [hstopped]

theorem At.nextLine {s : Reading} {line p : CString} {ps : List CString} {room : ℕ}
    (h : At s line (p :: ps) room) :
    if TooLong p then nextLine s = .stopped .erange
    else ∃ s', nextLine s = .line s' ∧ At s' p ps (max room (p.length + 1)) ∧
      (p.length + 1 ≤ room → s'.buf.line = s.buf.line) ∧
      (room < p.length + 1 → s'.text s.buf.line = none) := by
  have hfgets := h.atLine.fgets
  rw [h.room] at hfgets
  by_cases hlong : TooLong p
  · rw [if_pos hlong] at hfgets ⊢
    exact nextLine_of_stopped hfgets (by decide)
  · rw [if_neg hlong] at hfgets ⊢
    obtain ⟨s', hok, hat, hsize, hline'⟩ := hfgets
    exact ⟨s', nextLine_of_fgets hok hat h.atLine.newline_notMem, ⟨hat, hsize⟩, hline'⟩

theorem At.nextLine_nil {s : Reading} {line : CString} {room : ℕ} (h : At s line [] room) :
    Alpm.nextLine s = .stopped .eof :=
  nextLine_of_stopped h.atLine.fgets_nil (by decide)

theorem readEntries_stopped {α : Type} {ptr : Reading → Option ℕ} {add : α → CString → α}
    {s : Reading} {value : α} {ret : ArchiveRet} (hnext : nextLine s = .stopped ret) :
    readEntries ptr add s value = .error value := by
  rw [readEntries]
  split
  next h => cases hnext.symm.trans h
  next => rfl
  next h => cases hnext.symm.trans h

theorem readEntries_line {α : Type} {ptr : Reading → Option ℕ} {add : α → CString → α}
    {s s' : Reading} {value : α} {line : CString} (hnext : nextLine s = .line s')
    (htext : s'.text s'.buf.line = some line) :
    readEntries ptr add s value =
      if line = [] then .done s' value
      else
        match s'.text (ptr s') with
        | none => .undefined
        | some entry => readEntries ptr add s' (add value entry) := by
  rw [readEntries]
  split
  next h => cases hnext.symm.trans h
  next h => cases hnext.symm.trans h
  next h =>
    obtain rfl := NextLine.line.inj (hnext.symm.trans h)
    cases line <;> simp [htext]

/-- The outcome of a macro, against the reading line by line from there. -/
def FollowsLines (r : Parsed Pkg) (result : Option (Int × Pkg)) (lines : List CString) : Prop :=
  match r with
  | .undefined => result = none
  | .error pkg => result = some (-1, pkg)
  | .done s pkg => ∃ line lines' room, lines'.length < lines.length ∧ At s line lines' room ∧
      result = readLines none [] room pkg lines'

theorem FollowsLines.done {s : Reading} {line : CString} {lines lines' : List CString} {room : ℕ}
    {pkg : Pkg} {result : Option (Int × Pkg)} (h : At s line lines room)
    (hlt : lines.length < lines'.length) (hresult : result = readLines none [] room pkg lines) :
    FollowsLines (.done s pkg) result lines' :=
  ⟨line, lines, room, hlt, h, hresult⟩

theorem FollowsLines.mono {r : Parsed Pkg} {result : Option (Int × Pkg)}
    {lines lines' : List CString} (h : FollowsLines r result lines)
    (hlt : lines.length < lines'.length) : FollowsLines r result lines' := by
  cases r with
  | undefined => exact h
  | error pkg => exact h
  | done s pkg =>
    obtain ⟨line, rest, room, hrest, hat, hresult⟩ := h
    exact ⟨line, rest, room, hrest.trans hlt, hat, hresult⟩

/-- The package that a loop over entries leaves behind. -/
def Parsed.toPkg {α : Type} (onError onDone : α → Pkg) : Parsed α → Parsed Pkg
  | .undefined => .undefined
  | .error value => .error (onError value)
  | .done s value => .done s (onDone value)

theorem Parsed.toPkg_id (r : Parsed Pkg) : r.toPkg id id = r := by
  cases r <;> rfl

/-- A loop over entries, against a reading of the lines with the same equations; `stale`
tells whether the entries are read through the pointer at the heading. -/
theorem readEntries_agrees {α : Type} (ptr : Reading → Option ℕ) (add : α → CString → α)
    (result : α → ℕ → List CString → Option (Int × Pkg)) (onError onDone : α → Pkg)
    (stale : Prop) [Decidable stale] (heading : Option ℕ)
    (hptr : ∀ s, ptr s = if stale then heading else s.buf.line)
    (hnil : ∀ value room, result value room [] = some (-1, onError value))
    (hcons : ∀ value room p ps, result value room (p :: ps) =
      if TooLong p then some (-1, onError value)
      else if p = [] then readLines none [] (max room (p.length + 1)) (onDone value) ps
      else if stale ∧ room < p.length + 1 then none
      else result (add value p) (max room (p.length + 1)) ps)
    {s : Reading} {line : CString} {lines : List CString} {room : ℕ}
    (h : At s line lines room) (hheading : stale → s.buf.line = heading) (value : α) :
    FollowsLines ((readEntries ptr add s value).toPkg onError onDone) (result value room lines)
      lines := by
  induction lines generalizing s line room value with
  | nil =>
    rw [readEntries_stopped h.nextLine_nil]
    exact hnil value room
  | cons p ps ih =>
    have hnext := h.nextLine
    rw [hcons]
    by_cases hlong : TooLong p
    · rw [if_pos hlong] at hnext ⊢
      rw [readEntries_stopped hnext]
      rfl
    rw [if_neg hlong] at hnext ⊢
    obtain ⟨s', hline, hat, hstays, hmoves⟩ := hnext
    rw [readEntries_line hline hat.atLine.text_line]
    by_cases hempty : p = []
    · rw [if_pos hempty, if_pos hempty]
      exact .done hat (Nat.lt_succ_self _) rfl
    rw [if_neg hempty, if_neg hempty, hptr]
    by_cases hmoved : stale ∧ room < p.length + 1
    · rw [if_pos hmoved, if_pos hmoved.1, ← hheading hmoved.1, hmoves hmoved.2]
      rfl
    -- the pointer is the one to the buffer, whichever it is
    have hcurrent : (if stale then heading else s'.buf.line) = s'.buf.line := by
      split_ifs with hstale
      · rw [← hheading hstale, hstays (not_lt.mp fun hroom => hmoved ⟨hstale, hroom⟩)]
      · rfl
    rw [if_neg hmoved, hcurrent, hat.atLine.text_line]
    have hrec := ih hat (fun hstale => by rw [← hcurrent, if_pos hstale]) (add value p)
    exact hrec.mono (Nat.lt_succ_self _)

/-- `READ_NEXT`, where the reading line by line has a single line too. -/
theorem readNext_agrees {sec : SyncSection} {s : Reading} {line : CString}
    {lines : List CString} {room : ℕ} {pkg : Pkg} {use : Reading → CString → Parsed Pkg}
    (h : At s line lines room)
    (huse : ∀ s' p ps, lines = p :: ps → ¬ TooLong p → At s' p ps (max room (p.length + 1)) →
      FollowsLines (use s' p) (readLines (some sec) [] room pkg lines) lines) :
    FollowsLines (readNext s pkg use) (readLines (some sec) [] room pkg lines) lines := by
  unfold readNext
  cases lines with
  | nil =>
    rw [h.nextLine_nil]
    simp [FollowsLines, readLines]
  | cons p ps =>
    have hnext := h.nextLine
    by_cases hlong : TooLong p
    · rw [if_pos hlong] at hnext
      rw [hnext]
      show readLines _ _ _ _ _ = _
      rw [readLines, if_pos hlong]
    · rw [if_neg hlong] at hnext
      obtain ⟨s', hline, hat, -⟩ := hnext
      simp only [hline, hat.atLine.text_line]
      exact huse s' p ps rfl hlong hat

theorem readSection_agrees (sec : SyncSection) {s : Reading} {line : CString}
    {lines : List CString} {room : ℕ} (h : At s line lines room) (pkg : Pkg) :
    FollowsLines (readSection sec s pkg) (readLines (some sec) [] room pkg lines) lines := by
  cases sec with
  | check =>
    refine readNext_agrees h fun s' p ps hlines hlong hat => ?_
    subst hlines
    exact .done hat (Nat.lt_succ_self _) (by rw [readLines, if_neg hlong])
  | store f =>
    refine readNext_agrees h fun s' p ps hlines hlong hat => ?_
    subst hlines
    exact .done hat (Nat.lt_succ_self _) (by rw [readLines, if_neg hlong])
  | filename =>
    refine readNext_agrees h fun s' p ps hlines hlong hat => ?_
    subst hlines
    rw [readLines, if_neg hlong]
    dsimp only
    split_ifs with hvalid
    · rfl
    · exact .done hat (Nat.lt_succ_self _) rfl
  | storeAll f =>
    have hentries := readEntries_agrees (fun s => s.buf.line) f
      (fun pkg room lines => readLines (some (.storeAll f)) [] room pkg lines) id id False none
      (fun _ => rfl) (fun _ _ => rfl) (fun _ _ _ _ => by rw [readLines]; simp) h
      (fun h => h.elim) pkg
    rwa [Parsed.toPkg_id] at hentries
  | splitdep f =>
    have hentries := readEntries_agrees (fun _ => s.buf.line)
      (fun pkg entry => f pkg (depFromString entry))
      (fun pkg room lines => readLines (some (.splitdep f)) [] room pkg lines) id id True
      s.buf.line (fun _ => rfl) (fun _ _ => rfl) (fun _ _ _ _ => by rw [readLines]; simp) h
      (fun _ => rfl) pkg
    rwa [Parsed.toPkg_id] at hentries
  | files =>
    have hentries := readEntries_agrees (fun s => s.buf.line)
      (fun files line => files ++ [line])
      (fun files room lines => readLines (some .files) files room pkg lines) (fun _ => pkg)
      (fun files => { pkg with files := filelistSort files }) False none
      (fun _ => rfl) (fun _ _ => rfl) (fun _ _ _ _ => by rw [readLines]; simp) h
      (fun h => h.elim) []
    rw [readSection]
    cases hread : readEntries (fun s => s.buf.line) (fun files line => files ++ [line]) s [] <;>
    · rw [hread] at hentries
      exact hentries

theorem syncDbReadLoop_stopped {s : Reading} {ret : ArchiveRet} {pkg : Pkg}
    (hnext : nextLine s = .stopped ret) :
    syncDbReadLoop s pkg = some (if ret = .eof then 0 else -1, pkg) := by
  rw [syncDbReadLoop]
  split
  next h => cases hnext.symm.trans h
  next h =>
    obtain rfl := NextLine.stopped.inj (hnext.symm.trans h)
    rfl
  next h => cases hnext.symm.trans h

theorem syncDbReadLoop_line {s s' : Reading} {line : CString} {pkg : Pkg}
    (hnext : nextLine s = .line s') (htext : s'.text s'.buf.line = some line) :
    syncDbReadLoop s pkg =
      match sectionOf line with
      | none => syncDbReadLoop s' pkg
      | some sec =>
        match readSection sec s' pkg with
        | .undefined => none
        | .error pkg => some (-1, pkg)
        | .done s'' pkg => syncDbReadLoop s'' pkg := by
  rw [syncDbReadLoop]
  split
  next h => cases hnext.symm.trans h
  next h => cases hnext.symm.trans h
  next h =>
    obtain rfl := NextLine.line.inj (hnext.symm.trans h)
    simp only [htext]
    cases sectionOf line with
    | none => rfl
    | some sec =>
      dsimp only
      split <;> simp [*]

/-- A heading has been read; the sections after it are read as the induction hypothesis
says. -/
theorem syncDbReadLoop_of_line {s s' : Reading} {p : CString} {ps : List CString} {room : ℕ}
    {pkg : Pkg} (hnext : nextLine s = .line s') (hat : At s' p ps room)
    (ih : ∀ s line lines room pkg, lines.length ≤ ps.length → At s line lines room →
      syncDbReadLoop s pkg = readLines none [] room pkg lines) :
    syncDbReadLoop s pkg = readLines (sectionOf p) [] room pkg ps := by
  rw [syncDbReadLoop_line hnext hat.atLine.text_line]
  cases sectionOf p with
  | none => exact ih s' p ps room pkg le_rfl hat
  | some sec =>
    have hagrees := readSection_agrees sec hat pkg
    cases hsection : readSection sec s' pkg with
    | undefined =>
      rw [hsection] at hagrees
      simpa only [hsection] using hagrees.symm
    | error pkg' =>
      rw [hsection] at hagrees
      simpa only [hsection] using hagrees.symm
    | done s'' pkg' =>
      rw [hsection] at hagrees
      obtain ⟨line, lines, room', hlt, hat', hresult⟩ := hagrees
      simpa only [hsection] using (ih s'' line lines room' pkg' hlt.le hat').trans hresult.symm

theorem At.syncDbReadLoop {s : Reading} {line : CString} {lines : List CString} {room : ℕ}
    (h : At s line lines room) (pkg : Pkg) :
    syncDbReadLoop s pkg = readLines none [] room pkg lines := by
  induction hn : lines.length using Nat.strong_induction_on generalizing s line lines room pkg with
  | _ n ih =>
  cases lines with
  | nil =>
    rw [syncDbReadLoop_stopped h.nextLine_nil]
    rfl
  | cons p ps =>
    have hnext := h.nextLine
    by_cases hlong : TooLong p
    · rw [if_pos hlong] at hnext
      rw [syncDbReadLoop_stopped hnext, readLines, if_pos hlong]
      rfl
    · rw [if_neg hlong] at hnext
      obtain ⟨s', hline, hat, -⟩ := hnext
      rw [readLines, if_neg hlong]
      refine syncDbReadLoop_of_line hline hat fun s line lines room pkg hle hat' => ?_
      exact ih lines.length (by rw [← hn]; exact Nat.lt_succ_of_le hle) hat' pkg rfl

/-- **The reading of the blocks is the reading of the lines.**  The first line decides with
the size of the first block how big the buffer is, and it may be too long only if it ends in
the first block. -/
theorem syncDbReadLoop_start {blocks : List CString} {p : CString} {ps : List CString}
    (hblocks : ∀ block ∈ blocks, block ≠ []) (hnul : '\x00' ∉ blocks.flatten)
    (hlines : blocks.flatten.splitOn '\n' = p :: ps) (pkg : Pkg) :
    syncDbReadLoop (.start maxLineSize blocks) pkg =
      if p.length < (blocks.headD []).length ∨ ¬ TooLong p then
        readLines (sectionOf p) [] (max ((blocks.headD []).length + 1) (p.length + 1)) pkg ps
      else some (-1, pkg) := by
  have hlimit : 0 < maxLineSize := by decide
  have hfgets := Reading.fgets_start hlimit hblocks hnul hlines
  have hp : '\n' ∉ p := Reading.newline_notMem_line (hlines ▸ List.mem_cons_self)
  have hfits : ¬ TooLong p ↔ p.length < maxLineSize := by
    unfold TooLong
    omega
  simp only [hfits]
  by_cases hok : p.length < (blocks.headD []).length ∨ p.length < maxLineSize
  · rw [if_pos hok] at hfgets ⊢
    obtain ⟨s', hfgets, hat, hsize⟩ := hfgets
    refine syncDbReadLoop_of_line (nextLine_of_fgets hfgets hat hp) ⟨hat, hsize⟩ ?_
    exact fun s line lines room pkg _ hat' => hat'.syncDbReadLoop pkg
  · rw [if_neg hok] at hfgets ⊢
    rw [syncDbReadLoop_stopped (nextLine_of_stopped hfgets (by decide))]
    rfl

/-! ## The conditions on the lines -/

/-- The section after a line, without what is stored; `none` when the reading stops. -/
def scanLine (sec : Option SyncSection) (line : CString) : Option (Option SyncSection) :=
  if TooLong line then none
  else
    match sec with
    | none => some (sectionOf line)
    | some .check => some none
    | some (.store _) => some none
    | some .filename => if validateFilename line < 0 then none else some none
    | some sec => if line = [] then some none else some (some sec)

/-- The section after some lines. -/
def scanLines (sec : Option SyncSection) (lines : List CString) : Option (Option SyncSection) :=
  lines.foldlM scanLine sec

/-- The section is read with `READ_AND_SPLITDEP`. -/
def inSplitdep : Option SyncSection → Bool
  | some (.splitdep _) => true
  | _ => false

/-- Some entry of a dependency section is longer than every line before it, and does not fit
in `room` bytes. -/
def LongEntry (sec : Option SyncSection) (room : ℕ) (lines : List CString) : Prop :=
  ∃ before entry after sec', lines = before ++ entry :: after ∧
    scanLines sec before = some sec' ∧ inSplitdep sec' ∧ entry ≠ [] ∧ ¬ TooLong entry ∧
    room < entry.length + 1 ∧ ∀ line ∈ before, line.length < entry.length

theorem not_longEntry_nil (sec : Option SyncSection) (room : ℕ) : ¬ LongEntry sec room [] := by
  rintro ⟨before, entry, after, sec', hlines, -⟩
  simp at hlines

theorem longEntry_cons {sec : Option SyncSection} {room : ℕ} {line : CString}
    {lines : List CString} :
    LongEntry sec room (line :: lines) ↔
      (inSplitdep sec ∧ line ≠ [] ∧ ¬ TooLong line ∧ room < line.length + 1) ∨
        ∃ sec', scanLine sec line = some sec' ∧
          LongEntry sec' (max room (line.length + 1)) lines := by
  constructor
  · rintro ⟨before, entry, after, sec', hlines, hscan, hsplitdep, hne, hlong, hroom, hbefore⟩
    cases before with
    | nil =>
      obtain ⟨rfl, rfl⟩ := List.cons.inj hlines
      obtain rfl := Option.some.inj hscan
      exact Or.inl ⟨hsplitdep, hne, hlong, hroom⟩
    | cons first before =>
      obtain ⟨rfl, rfl⟩ := List.cons.inj hlines
      rw [scanLines, List.foldlM_cons] at hscan
      obtain ⟨sec₁, hsec₁, hscan⟩ := Option.bind_eq_some_iff.mp hscan
      have hfirst := hbefore line List.mem_cons_self
      exact Or.inr ⟨sec₁, hsec₁, before, entry, after, sec', rfl, hscan, hsplitdep, hne, hlong,
        by omega, fun l hl => hbefore l (List.mem_cons_of_mem _ hl)⟩
  · rintro (⟨hsplitdep, hne, hlong, hroom⟩ |
      ⟨sec₁, hsec₁, before, entry, after, sec', rfl, hscan, hsplitdep, hne, hlong, hroom, hbefore⟩)
    · exact ⟨[], line, lines, sec, rfl, rfl, hsplitdep, hne, hlong, hroom, by simp⟩
    · refine ⟨line :: before, entry, after, sec', rfl, ?_, hsplitdep, hne, hlong, by omega,
        fun l hl => ?_⟩
      · rw [scanLines, List.foldlM_cons, hsec₁]
        exact hscan
      · rcases List.mem_cons.mp hl with rfl | hl
        · omega
        · exact hbefore l hl

/-- What a line that does not stop the reading does to the package and the file list. -/
def storeLine (sec : Option SyncSection) (files : List CString) (pkg : Pkg) (line : CString) :
    List CString × Pkg :=
  match sec with
  | none => ([], pkg)
  | some .check => ([], pkg)
  | some (.store f) => ([], f pkg line)
  | some .filename => ([], { pkg with filename := some line })
  | some (.storeAll f) => ([], if line = [] then pkg else f pkg line)
  | some (.splitdep f) => ([], if line = [] then pkg else f pkg (depFromString line))
  | some .files =>
    if line = [] then ([], { pkg with files := filelistSort files }) else (files ++ [line], pkg)

/-- The reading, line after line. -/
theorem readLines_cons (sec : Option SyncSection) (files : List CString) (room : ℕ) (pkg : Pkg)
    (line : CString) (lines : List CString) :
    readLines sec files room pkg (line :: lines) =
      if TooLong line then some (-1, pkg)
      else if inSplitdep sec ∧ line ≠ [] ∧ room < line.length + 1 then none
      else
        match scanLine sec line with
        | none => some (-1, (storeLine sec files pkg line).2)
        | some sec' =>
          readLines sec' (storeLine sec files pkg line).1 (max room (line.length + 1))
            (storeLine sec files pkg line).2 lines := by
  rw [readLines.eq_def]
  by_cases hlong : TooLong line
  · simp [hlong]
  · simp only [scanLine, if_neg hlong]
    rcases sec with _ | _ | f | _ | f | f | _
    · rfl
    · rfl
    · rfl
    · by_cases hvalid : validateFilename line < 0 <;> simp [hvalid, inSplitdep, storeLine]
    · by_cases hempty : line = [] <;> simp only [hempty, inSplitdep, storeLine] <;> rfl
    · by_cases hempty : line = []
      · simp only [hempty, inSplitdep, storeLine]
        rfl
      · by_cases hroom : room < line.length + 1 <;>
          simp [hempty, hroom, inSplitdep, storeLine]
    · by_cases hempty : line = [] <;> simp only [hempty, inSplitdep, storeLine] <;> rfl

/-- **Freed memory is read** when an entry of a dependency section does not fit in the buffer.  The
call that reads the entry moves the buffer, and the text is then taken from where it was; after the
first such entry nothing that follows matters. -/
theorem readLines_eq_none {sec : Option SyncSection} {files : List CString} {room : ℕ}
    {pkg : Pkg} {lines : List CString} :
    readLines sec files room pkg lines = none ↔ LongEntry sec room lines := by
  induction lines generalizing sec files room pkg with
  | nil =>
    cases sec <;> simp [readLines, not_longEntry_nil]
  | cons line lines ih =>
    rw [readLines_cons, longEntry_cons]
    by_cases hlong : TooLong line
    · simp [hlong, scanLine]
    rw [if_neg hlong]
    split_ifs with hstale
    · exact iff_of_true rfl (Or.inl ⟨hstale.1, hstale.2.1, hlong, hstale.2.2⟩)
    · rw [or_iff_right (fun h => hstale ⟨h.1, h.2.1, h.2.2.2⟩)]
      cases hscan : scanLine sec line with
      | none => simp
      | some sec' => simpa using ih

/-- Apart from that, the size of the buffer makes no difference. -/
theorem readLines_room {sec : Option SyncSection} {files : List CString} {room room' : ℕ}
    {pkg : Pkg} {lines : List CString} (hle : room ≤ room')
    (h : ¬ LongEntry sec room lines) :
    readLines sec files room' pkg lines = readLines sec files room pkg lines := by
  induction lines generalizing sec files room room' pkg with
  | nil => cases sec <;> rfl
  | cons line lines ih =>
    rw [longEntry_cons, not_or] at h
    rw [readLines_cons, readLines_cons]
    by_cases hlong : TooLong line
    · rw [if_pos hlong, if_pos hlong]
    rw [if_neg hlong, if_neg hlong,
      if_neg (fun hs => h.1 ⟨hs.1, hs.2.1, hlong, lt_of_le_of_lt hle hs.2.2⟩),
      if_neg (fun hs => h.1 ⟨hs.1, hs.2.1, hlong, hs.2.2⟩)]
    cases hscan : scanLine sec line with
    | none => rfl
    | some sec' => exact ih (by omega) fun hentry => h.2 ⟨sec', hscan, hentry⟩

/-! ## Lines that store nothing -/

/-- The line changes a package. -/
def Stores (sec : Option SyncSection) (line : CString) : Prop :=
  match sec with
  | none => False
  | some .check => False
  | some (.store _) => True
  | some .filename => True
  | some (.storeAll _) => line ≠ []
  | some (.splitdep _) => line ≠ []
  | some .files => line = []

/-- The reading ends in an error, and before that no line is stored. -/
def FailsUnstored (sec : Option SyncSection) : List CString → Prop
  | [] => sec.isSome
  | line :: lines =>
    TooLong line ∨
      ¬ Stores sec line ∧ ∃ sec', scanLine sec line = some sec' ∧ FailsUnstored sec' lines

theorem storeLine_of_not_stores {sec : Option SyncSection} {line : CString}
    (h : ¬ Stores sec line) (files : List CString) (pkg : Pkg) :
    (storeLine sec files pkg line).2 = pkg := by
  rcases sec with _ | _ | f | _ | f | f | _
  · rfl
  · rfl
  · exact absurd trivial h
  · exact absurd trivial h
  · rw [storeLine, if_pos (not_not.mp h)]
  · rw [storeLine, if_pos (not_not.mp h)]
  · have hne : line ≠ [] := h
    rw [storeLine, if_neg hne]

theorem stores_of_inSplitdep {sec : Option SyncSection} {line : CString} (h : inSplitdep sec)
    (hne : line ≠ []) : Stores sec line := by
  rcases sec with _ | _ | f | _ | f | f | _
  all_goals first | exact hne | cases h

/-- Only an illegal file name and a line that is too long stop the reading. -/
theorem stores_of_scanLine {sec : Option SyncSection} {line : CString}
    (h : scanLine sec line = none) (hlong : ¬ TooLong line) : Stores sec line := by
  unfold scanLine at h
  rw [if_neg hlong] at h
  rcases sec with _ | _ | f | _ | f | f | _
  · cases h
  · cases h
  · cases h
  · trivial
  all_goals
    dsimp only at h
    split_ifs at h

theorem storeLine_files (sec : Option SyncSection) (files : List CString) (pkg pkg' : Pkg)
    (line : CString) : (storeLine sec files pkg line).1 = (storeLine sec files pkg' line).1 := by
  rcases sec with _ | _ | f | _ | f | f | _ <;> try rfl
  by_cases h : line = [] <;> simp [storeLine, h]

theorem FailsUnstored.readLines {sec : Option SyncSection} {lines : List CString}
    (h : FailsUnstored sec lines) (files : List CString) (room : ℕ) (pkg : Pkg) :
    readLines sec files room pkg lines = some (-1, pkg) := by
  induction lines generalizing sec files room with
  | nil =>
    cases sec with
    | none => exact absurd h Bool.false_ne_true
    | some sec => rfl
  | cons line lines ih =>
    rw [readLines_cons]
    rcases h with hlong | ⟨hstores, sec', hscan, hrest⟩
    · rw [if_pos hlong]
    · have hlong : ¬ TooLong line := by
        intro hlong
        simp [scanLine, hlong] at hscan
      rw [if_neg hlong, if_neg (fun hs => hstores (stores_of_inSplitdep hs.1 hs.2.1)), hscan,
        storeLine_of_not_stores hstores]
      exact ih hrest _ _

/-- The two packages have come together in some field, or an entry was added to a list. -/
def Merged (p q : Pkg) : Prop :=
  p.filename = q.filename ∨ p.base = q.base ∨ p.desc = q.desc ∨ p.url = q.url ∨
    p.arch = q.arch ∨ p.packager = q.packager ∨ p.md5sum = q.md5sum ∨
    p.sha256sum = q.sha256sum ∨ p.base64Sig = q.base64Sig ∨ p.builddate = q.builddate ∨
    p.size = q.size ∨ p.isize = q.isize ∨ p.files = q.files ∨ p.groups ≠ [] ∨
    p.licenses ≠ [] ∨ p.replaces ≠ [] ∨ p.depends ≠ [] ∨ p.optdepends ≠ [] ∨
    p.makedepends ≠ [] ∨ p.checkdepends ≠ [] ∨ p.conflicts ≠ [] ∨ p.provides ≠ []

/-- Whatever is stored merges the packages. -/
theorem merged_storeLine {heading : CString × SyncSection} (h : heading ∈ syncSections)
    {line : CString} (hstores : Stores (some heading.2) line) (files : List CString)
    (p q : Pkg) :
    Merged (storeLine (some heading.2) files p line).2
      (storeLine (some heading.2) files q line).2 := by
  simp only [syncSections, List.mem_cons, List.not_mem_nil, or_false] at h
  rcases h with rfl | rfl | rfl | rfl | rfl | rfl | rfl | rfl | rfl | rfl | rfl | rfl | rfl | rfl |
    rfl | rfl | rfl | rfl | rfl | rfl | rfl | rfl | rfl | rfl
  all_goals first
    | exact absurd hstores id
    | (simp only [Stores] at hstores
       simp [storeLine, hstores, Merged])

/-- A section that a heading of the source begins. -/
def FromHeading (sec : Option SyncSection) : Prop :=
  ∀ s, sec = some s → ∃ heading ∈ syncSections, heading.2 = s

theorem fromHeading_none : FromHeading none := by
  intro s h
  cases h

theorem fromHeading_sectionOf (line : CString) : FromHeading (sectionOf line) := by
  intro s h
  obtain ⟨heading, hfind, rfl⟩ := Option.map_eq_some_iff.mp h
  exact ⟨heading, List.mem_of_find?_eq_some hfind, rfl⟩

theorem scanLine_cases {sec sec' : Option SyncSection} {line : CString}
    (h : scanLine sec line = some sec') :
    sec' = none ∨ sec' = sec ∨ (sec = none ∧ sec' = sectionOf line) := by
  unfold scanLine at h
  by_cases hlong : TooLong line
  · rw [if_pos hlong] at h
    cases h
  rw [if_neg hlong] at h
  rcases sec with _ | _ | f | _ | f | f | _ <;> dsimp only at h
  · exact Or.inr (Or.inr ⟨rfl, (Option.some.inj h).symm⟩)
  · exact Or.inl (Option.some.inj h).symm
  · exact Or.inl (Option.some.inj h).symm
  all_goals split_ifs at h
  all_goals first
    | exact Or.inl (Option.some.inj h).symm
    | exact Or.inr (Or.inl (Option.some.inj h).symm)

theorem FromHeading.scanLine {sec sec' : Option SyncSection} {line : CString}
    (h : FromHeading sec) (hscan : scanLine sec line = some sec') : FromHeading sec' := by
  rcases scanLine_cases hscan with rfl | rfl | ⟨-, rfl⟩
  · exact fromHeading_none
  · exact h
  · exact fromHeading_sectionOf line

/-- Two readings of the same lines, for packages that have nothing in common: if both end in
an error, either nothing was stored or the packages have come together. -/
theorem merged_of_readLines {sec : Option SyncSection} {lines : List CString}
    (hsec : FromHeading sec) {files : List CString} {room : ℕ} {p q p' q' : Pkg}
    (hp : readLines sec files room p lines = some (-1, p'))
    (hq : readLines sec files room q lines = some (-1, q'))
    (h : Merged p q ∨ ¬ FailsUnstored sec lines) : Merged p' q' := by
  induction lines generalizing sec files room p q with
  | nil =>
    cases sec with
    | none => simp [readLines] at hp
    | some sec =>
      obtain ⟨-, rfl⟩ := Prod.mk.inj (Option.some.inj hp)
      obtain ⟨-, rfl⟩ := Prod.mk.inj (Option.some.inj hq)
      exact h.resolve_right (fun hfails => hfails rfl)
  | cons line lines ih =>
    rw [readLines_cons] at hp hq
    by_cases hlong : TooLong line
    · rw [if_pos hlong] at hp hq
      obtain ⟨-, rfl⟩ := Prod.mk.inj (Option.some.inj hp)
      obtain ⟨-, rfl⟩ := Prod.mk.inj (Option.some.inj hq)
      exact h.resolve_right (fun hfails => hfails (Or.inl hlong))
    rw [if_neg hlong] at hp hq
    split_ifs at hp hq
    have hmerged (hstores : Stores sec line) :
        Merged (storeLine sec files p line).2 (storeLine sec files q line).2 := by
      cases sec with
      | none => exact absurd hstores id
      | some s =>
        obtain ⟨heading, hheading, rfl⟩ := hsec s rfl
        exact merged_storeLine hheading hstores files p q
    cases hscan : scanLine sec line with
    | none =>
      rw [hscan] at hp hq
      obtain ⟨-, rfl⟩ := Prod.mk.inj (Option.some.inj hp)
      obtain ⟨-, rfl⟩ := Prod.mk.inj (Option.some.inj hq)
      exact hmerged (stores_of_scanLine hscan hlong)
    | some sec' =>
      rw [hscan] at hp hq
      rw [storeLine_files sec files q p] at hq
      refine ih (hsec.scanLine hscan) hp hq ?_
      by_cases hstores : Stores sec line
      · exact Or.inl (hmerged hstores)
      · rw [storeLine_of_not_stores hstores, storeLine_of_not_stores hstores]
        exact h.imp_right fun hfails hrest => hfails (Or.inr ⟨hstores, sec', hscan, hrest⟩)

/-- **A reading that leaves every package as it is** and reports an error stores nothing.  Two
packages that have nothing in common are read from the same lines: what is stored by one line would
be in both. -/
theorem failsUnstored_iff {lines : List CString} {room : ℕ} :
    FailsUnstored none lines ↔ ∀ pkg, readLines none [] room pkg lines = some (-1, pkg) := by
  refine ⟨fun h => h.readLines [] room, fun h => ?_⟩
  by_contra hfails
  let p : Pkg := { name := [], version := [] }
  let q : Pkg :=
    { name := []
      version := []
      filename := some []
      base := some []
      desc := some []
      url := some []
      arch := some []
      packager := some []
      md5sum := some []
      sha256sum := some []
      base64Sig := some []
      builddate := 1
      size := 1
      isize := 1
      files := [[]] }
  have hmerged : Merged p q := merged_of_readLines fromHeading_none (h p) (h q) (Or.inr hfails)
  simp [Merged, p, q] at hmerged

/-! ## Two ways of cutting the content -/

/-- `blocks` is `content` cut into blocks that are not empty. -/
def Cuts (content : CString) (blocks : List CString) : Prop :=
  blocks.flatten = content ∧ ∀ block ∈ blocks, block ≠ []

/-- The status of `sync_db_read` and the package it leaves behind are the same for any two
ways of cutting the content. -/
def BlockIndependent (content : CString) : Prop :=
  ∀ (loadPkg : CString → Option Pkg) (entryname : Option CString) (blocks blocks' : List CString),
    Cuts content blocks → Cuts content blocks' →
      ∃ result, syncDbRead loadPkg entryname blocks = some result ∧
        syncDbRead loadPkg entryname blocks' = some result

/-- The lines for which the blocks make no difference.  If the first line fits in the limit no
dependency may be longer than all lines before it; if not, nothing may be stored of what follows. -/
def BlockSafe (content : CString) : Prop :=
  ∀ first rest, content.splitOn '\n' = first :: rest →
    if TooLong first then rest = [] ∨ FailsUnstored none rest
    else ¬ LongEntry none 0 (first :: rest)

theorem heading_length {heading : CString × SyncSection} (h : heading ∈ syncSections) :
    2 ≤ heading.1.length ∧ heading.1.length < maxLineSize := by
  have hall : ∀ heading ∈ syncSections,
      2 ≤ heading.1.length ∧ heading.1.length < maxLineSize := by
    decide +kernel
  exact hall heading h

theorem length_of_sectionOf {line : CString} {sec : SyncSection} (h : sectionOf line = some sec) :
    2 ≤ line.length ∧ ¬ TooLong line := by
  obtain ⟨heading, hfind, -⟩ := Option.map_eq_some_iff.mp h
  obtain rfl : line = heading.1 := by simpa using List.find?_some hfind
  have hlength := heading_length (List.mem_of_find?_eq_some hfind)
  refine ⟨hlength.1, ?_⟩
  unfold TooLong
  omega

theorem sectionOf_of_tooLong {line : CString} (h : TooLong line) : sectionOf line = none := by
  cases hsec : sectionOf line with
  | none => rfl
  | some sec => exact absurd h (length_of_sectionOf hsec).2

/-- A dependency section has a heading before it. -/
theorem heading_of_scanLines {sec sec' : Option SyncSection} {before : List CString}
    (h : scanLines sec before = some sec') (hsec : ¬ inSplitdep sec) (hsec' : inSplitdep sec') :
    ∃ line ∈ before, 2 ≤ line.length := by
  induction before generalizing sec with
  | nil =>
    obtain rfl := Option.some.inj h
    exact absurd hsec' hsec
  | cons line before ih =>
    rw [scanLines, List.foldlM_cons] at h
    obtain ⟨sec₁, hsec₁, hrest⟩ := Option.bind_eq_some_iff.mp h
    by_cases hdep : inSplitdep sec₁
    · rcases scanLine_cases hsec₁ with rfl | rfl | ⟨-, rfl⟩
      · cases hdep
      · exact absurd hdep hsec
      · refine ⟨line, List.mem_cons_self, ?_⟩
        cases hline : sectionOf line with
        | none => simp [hline, inSplitdep] at hdep
        | some sec => exact (length_of_sectionOf hline).1
    · obtain ⟨l, hl, hlength⟩ := ih hrest hdep
      exact ⟨l, List.mem_cons_of_mem _ hl, hlength⟩

theorem LongEntry.anti {sec : Option SyncSection} {room room' : ℕ} {lines : List CString}
    (h : LongEntry sec room' lines) (hle : room ≤ room') : LongEntry sec room lines := by
  obtain ⟨before, entry, after, sec', hlines, hscan, hsec', hne, hlong, hroom, hbefore⟩ := h
  exact ⟨before, entry, after, sec', hlines, hscan, hsec', hne, hlong, by omega, hbefore⟩

theorem LongEntry.two_le {lines : List CString} {room : ℕ} (h : LongEntry none room lines) :
    LongEntry none (max room 2) lines := by
  obtain ⟨before, entry, after, sec', hlines, hscan, hsec', hne, hlong, hroom, hbefore⟩ := h
  obtain ⟨line, hline, hlength⟩ := heading_of_scanLines hscan Bool.false_ne_true hsec'
  have hlt := hbefore line hline
  exact ⟨before, entry, after, sec', hlines, hscan, hsec', hne, hlong, by omega, hbefore⟩

/-- Single bytes are one way to cut the content. -/
theorem cuts_singletons (content : CString) : Cuts content (content.map fun c => [c]) := by
  refine ⟨?_, by simp⟩
  induction content with
  | nil => rfl
  | cons c content ih => simpa using ih

theorem cuts_single {content : CString} (h : content ≠ []) : Cuts content [content] :=
  ⟨by simp, by simpa using h⟩

theorem headD_length_le {content : CString} {blocks : List CString} (h : Cuts content blocks) :
    (blocks.headD []).length ≤ content.length := by
  rw [← h.1]
  cases blocks <;> simp

theorem length_of_splitOn {content first : CString} {rest : List CString}
    (h : content.splitOn '\n' = first :: rest) :
    if rest = [] then content = first else first.length < content.length := by
  have hcontent := @List.intercalate_splitOn _ content _ _ '\n'
  rw [h] at hcontent
  cases rest with
  | nil => simpa using hcontent.symm
  | cons second rest =>
    rw [if_neg (by simp), ← hcontent]
    simp [List.intercalate]

/-- The reading of a description file. -/
theorem syncDbRead_desc (pkg : Pkg) (blocks : List CString) :
    syncDbRead (fun _ => some pkg) (some (str "a-1-1/desc")) blocks =
      (syncDbReadLoop (.start maxLineSize blocks) pkg).map fun result =>
        { ret := result.1, pkg := some result.2, likely := result.1 = 0 } := by
  have hname : (strrchr (str "a-1-1/desc") '/').map (·.2) = some (str "desc") := by decide
  simp only [syncDbRead, hname]
  cases syncDbReadLoop (.start maxLineSize blocks) pkg <;> simp

/-- If the loop does not depend on the blocks, neither does the reading. -/
theorem blockIndependent_of_loop {content : CString}
    (h : ∀ pkg, ∃ result, ∀ blocks, Cuts content blocks →
      syncDbReadLoop (.start maxLineSize blocks) pkg = some result) :
    BlockIndependent content := by
  intro loadPkg entryname blocks blocks' hblocks hblocks'
  unfold syncDbRead
  cases entryname with
  | none => exact ⟨_, rfl, rfl⟩
  | some entryname =>
    dsimp only
    cases loadPkg entryname with
    | none => exact ⟨_, rfl, rfl⟩
    | some pkg =>
      obtain ⟨⟨ret, pkg'⟩, hresult⟩ := h pkg
      cases (strrchr entryname '/').map (·.2) with
      | none => exact ⟨_, rfl, rfl⟩
      | some filename =>
        dsimp only
        rw [hresult blocks hblocks, hresult blocks' hblocks']
        split_ifs <;> exact ⟨_, rfl, rfl⟩

theorem loop_eq {content first : CString} {rest : List CString} {blocks : List CString}
    (hnul : '\x00' ∉ content) (hlines : content.splitOn '\n' = first :: rest)
    (h : Cuts content blocks) (pkg : Pkg) :
    syncDbReadLoop (.start maxLineSize blocks) pkg =
      if first.length < (blocks.headD []).length ∨ ¬ TooLong first then
        readLines (sectionOf first) [] (max ((blocks.headD []).length + 1) (first.length + 1)) pkg
          rest
      else some (-1, pkg) := by
  obtain ⟨rfl, hblocks⟩ := h
  exact syncDbReadLoop_start hblocks hnul hlines pkg

theorem BlockSafe.blockIndependent {content : CString} (hnul : '\x00' ∉ content)
    (h : BlockSafe content) : BlockIndependent content := by
  obtain ⟨first, rest, hlines⟩ : ∃ first rest, content.splitOn '\n' = first :: rest :=
    List.exists_cons_of_ne_nil (List.splitOn_ne_nil _ _)
  have hsafe := h first rest hlines
  refine blockIndependent_of_loop fun pkg => ?_
  by_cases hlong : TooLong first
  · rw [if_pos hlong] at hsafe
    refine ⟨(-1, pkg), fun blocks hblocks => ?_⟩
    rw [loop_eq hnul hlines hblocks]
    split_ifs with hfits
    · have hfirst := hfits.resolve_right (not_not.mpr hlong)
      have hlength := length_of_splitOn hlines
      have hle := headD_length_le hblocks
      rcases hsafe with rfl | hfails
      · rw [if_pos rfl] at hlength
        subst hlength
        omega
      · rw [sectionOf_of_tooLong hlong]
        exact hfails.readLines _ _ _
    · rfl
  · rw [if_neg hlong] at hsafe
    have hrest : ¬ LongEntry (sectionOf first) (first.length + 1) rest := by
      intro hentry
      refine hsafe (longEntry_cons.mpr (Or.inr ⟨sectionOf first, ?_, ?_⟩))
      · simp [scanLine, hlong]
      · simpa using hentry
    obtain ⟨result, hresult⟩ :=
      Option.ne_none_iff_exists'.mp (mt (@readLines_eq_none _ [] _ pkg _).mp hrest)
    refine ⟨result, fun blocks hblocks => ?_⟩
    rw [loop_eq hnul hlines hblocks, if_pos (Or.inr hlong), readLines_room (by omega) hrest,
      hresult]

theorem BlockIndependent.loop {content : CString} (h : BlockIndependent content) (pkg : Pkg)
    {blocks blocks' : List CString} (hblocks : Cuts content blocks)
    (hblocks' : Cuts content blocks') :
    ∃ result, syncDbReadLoop (.start maxLineSize blocks) pkg = some result ∧
      syncDbReadLoop (.start maxLineSize blocks') pkg = some result := by
  obtain ⟨read, hread, hread'⟩ :=
    h (fun _ => some pkg) (some (str "a-1-1/desc")) blocks blocks' hblocks hblocks'
  rw [syncDbRead_desc] at hread hread'
  obtain ⟨result, hresult, rfl⟩ := Option.map_eq_some_iff.mp hread
  obtain ⟨result', hresult', heq⟩ := Option.map_eq_some_iff.mp hread'
  rw [SyncRead.mk.injEq] at heq
  have hsame : result' = result := Prod.ext heq.1 (Option.some.inj heq.2.1)
  exact ⟨result, hresult, hsame ▸ hresult'⟩

theorem BlockIndependent.blockSafe {content : CString} (hnul : '\x00' ∉ content)
    (h : BlockIndependent content) : BlockSafe content := by
  intro first rest hlines
  have hsingle := cuts_singletons content
  have hhead : ((content.map fun c => [c]).headD []).length ≤ 1 := by
    cases content <;> simp
  have hlength := length_of_splitOn hlines
  by_cases hlong : TooLong first
  · rw [if_pos hlong]
    refine or_iff_not_imp_left.mpr fun hrest => ?_
    rw [if_neg hrest] at hlength
    have hne : content ≠ [] := List.ne_nil_of_length_pos (by omega)
    -- one block holds the first line, single bytes do not
    refine (@failsUnstored_iff _ (max (content.length + 1) (first.length + 1))).mpr
      fun pkg => ?_
    obtain ⟨result, hone, hmany⟩ := h.loop pkg (cuts_single hne) hsingle
    have hlong' : maxLineSize < first.length + 1 := hlong
    have hpos : 1 < maxLineSize := by decide
    rw [loop_eq hnul hlines hsingle, if_neg (by
      rintro (hlt | hfits)
      · omega
      · exact hfits hlong)] at hmany
    rw [loop_eq hnul hlines (cuts_single hne), List.headD_cons, if_pos (Or.inl hlength),
      sectionOf_of_tooLong hlong] at hone
    rw [hone, hmany]
  · rw [if_neg hlong]
    intro hentry
    obtain ⟨result, hresult, -⟩ := h.loop { name := [], version := [] } hsingle hsingle
    rw [loop_eq hnul hlines hsingle, if_pos (Or.inr hlong)] at hresult
    have hentry₂ := hentry.two_le
    rcases longEntry_cons.mp hentry₂ with ⟨hdep, -⟩ | ⟨sec, hscan, hrest⟩
    · cases hdep
    · simp only [scanLine, if_neg hlong] at hscan
      obtain rfl := Option.some.inj hscan
      rw [readLines_eq_none.mpr (hrest.anti (by omega))] at hresult
      cases hresult

/-- **The reading of an entry does not depend on the blocks** exactly if the first line fits
in the limit and every entry of a dependency section is at most as long as some line before
it, or the first line does not fit and is the only one, or the lines after it end in an error
before anything is stored. -/
theorem syncDbRead_blocks {content : CString} (hnul : '\x00' ∉ content) :
    BlockIndependent content ↔ BlockSafe content :=
  ⟨fun h => h.blockSafe hnul, fun h => h.blockIndependent hnul⟩

theorem syncDbRead_blocks_glibc :
    '\x00' ∉ str "%DEPENDS%\nglibc\n\n" ∧
      (BlockIndependent (str "%DEPENDS%\nglibc\n\n") ↔
        BlockSafe (str "%DEPENDS%\nglibc\n\n")) :=
  ⟨by decide, syncDbRead_blocks (by decide)⟩

/-- A dependency longer than the heading, with a block that ends after the heading. -/
theorem syncDbRead_stale_line :
    ¬ ∀ content : CString, '\x00' ∉ content → BlockIndependent content := by
  intro h
  have hcontent := h (str "%DEPENDS%\nlibfoo>=1.0.0\n\n") (by decide)
  obtain ⟨result, -, hresult⟩ := hcontent (fun _ => some { name := str "a", version := str "1-1" })
    (some (str "a-1-1/desc")) [str "%DEPENDS%\nlibfoo>=1.0.0\n\n"]
    [str "%DEPENDS%\n", str "libfoo>=1.0.0\n\n"] ⟨by decide, by decide⟩ ⟨by decide, by decide⟩
  have hundefined : syncDbRead (fun _ => some { name := str "a", version := str "1-1" })
      (some (str "a-1-1/desc")) [str "%DEPENDS%\n", str "libfoo>=1.0.0\n\n"] = none := by
    decide +kernel
  rw [hundefined] at hresult
  cases hresult

end Alpm
