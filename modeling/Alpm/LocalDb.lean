import Alpm.Deps.Depstring
import Alpm.Signing
import Alpm.Syncdb

/-!
# The local database

`local_db_read` and `_alpm_local_db_write` of `be_local.c`, on the texts of the files of an entry.
A file that exists can be opened, and reading and writing do not fail.

## 1.  Reading

The files are read with `fgets` into a buffer of fixed size, so the model of a stream keeps what is
left of the text, `feof` and the buffer.  A line that does not fit comes in pieces, and a piece is
treated like a line; nothing in the functions asks whether a line was complete.  A table gives for
each heading what is done with the lines after it.

The numbers are read as the code reads them, with `_alpm_strtoofft`, `_alpm_parsedate` and `atoi`;
the last is `strtol` converted to `int`, also where the number fits in neither.

## 2.  Writing

`writeDesc` and `writeFiles` are the texts of the two files.  A field that is `NULL` or zero is not
written, and neither is an empty list; a list is written line by line and ended by an empty line.

What is written and read back is the subject of `Alpm.LocalDbRoundTrip`; when lines are too long for
the buffer, that of `Alpm.LocalDbFiles` and `Alpm.LocalDbDesc`.
-/

namespace Alpm.LocalDb

/-! ## Lines of a stream -/

/-- The size of the line buffer. -/
def lineSize : ℕ := 1024

/-- A stream that is read: what is left of its text, `feof`, and the line buffer. -/
structure Input where
  text : CString
  eof : Bool := false
  line : CString := []
  deriving DecidableEq, Repr

/-- `fgets`: whether it returns a line, and the stream afterwards.  A line that does not fit in the
buffer is returned up to where the buffer is full. -/
def fgets (fp : Input) : Bool × Input :=
  if fp.text = [] then (false, { fp with eof := true })
  else
    match memchr fp.text '\n' (lineSize - 1) with
    | some newline => (true, { fp with
        text := fp.text.drop (newline + 1)
        line := fp.text.take (newline + 1) })
    | none => (true, { fp with
        text := fp.text.drop (lineSize - 1)
        eof := fp.text.length < lineSize - 1
        line := fp.text.take (lineSize - 1) })

/-- `_alpm_strip_newline` of the line buffer. -/
def Input.strip (fp : Input) : Input := { fp with line := stripNewline fp.line }

/-- `READ_NEXT`. -/
def readNext (fp : Input) : Input := (fgets fp).2.strip

/-- What a loop that runs until the end of the stream has left. -/
def Input.left (fp : Input) : ℕ := fp.text.length + if fp.eof then 0 else 1

theorem fgets_of_nil {fp : Input} (h : fp.text = []) :
    fgets fp = (false, { fp with eof := true }) :=
  if_pos h

theorem fgets_of_ne_nil {fp : Input} (h : fp.text ≠ []) :
    (fgets fp).1 = true ∧ (fgets fp).2.text.length < fp.text.length := by
  have hpos := List.length_pos_of_ne_nil h
  rw [fgets, if_neg h]
  split
  all_goals
    refine ⟨rfl, ?_⟩
    simp only [List.length_drop, lineSize]
    omega

theorem fgets_length_lt {fp fp' : Input} (h : fgets fp = (true, fp')) :
    fp'.text.length < fp.text.length := by
  by_cases hnil : fp.text = []
  · rw [fgets_of_nil hnil] at h
    cases h
  · have hlt := (fgets_of_ne_nil hnil).2
    rwa [h] at hlt

theorem eq_of_fgets_false {fp fp' : Input} (h : fgets fp = (false, fp')) :
    fp' = { fp with eof := true } := by
  by_cases hnil : fp.text = []
  · rw [fgets_of_nil hnil] at h
    exact (Prod.mk.inj h).2.symm
  · have hok := (fgets_of_ne_nil hnil).1
    rw [h] at hok
    cases hok

theorem fgets_left_le (fp : Input) : (fgets fp).2.left ≤ fp.left := by
  unfold Input.left
  by_cases hnil : fp.text = []
  · rw [fgets_of_nil hnil]
    simp [hnil]
  · have hlt := (fgets_of_ne_nil hnil).2
    split_ifs <;> omega

theorem fgets_left_lt {fp : Input} (heof : fp.eof = false) : (fgets fp).2.left < fp.left := by
  unfold Input.left
  rw [heof]
  by_cases hnil : fp.text = []
  · rw [fgets_of_nil hnil]
    simp [hnil]
  · have hlt := (fgets_of_ne_nil hnil).2
    simp only [Bool.false_eq_true, if_false]
    split_ifs <;> omega

@[simp] theorem Input.strip_left (fp : Input) : fp.strip.left = fp.left := rfl

/-- The lines up to an empty one or the end of the stream, as `READ_AND_STORE_ALL` reads them. -/
def readAll (fp : Input) : List CString × Input :=
  match h : fgets fp with
  | (false, fp') => ([], fp')
  | (true, fp') =>
    have := fgets_length_lt h
    if fp'.strip.line = [] then ([], fp'.strip)
    else
      let (lines, fp'') := readAll fp'.strip
      (fp'.strip.line :: lines, fp'')
  termination_by fp.text.length

theorem readAll_left_le (fp : Input) : (readAll fp).2.left ≤ fp.left := by
  fun_induction readAll fp with
  | case1 fp fp' h =>
    have hle := fgets_left_le fp
    rwa [h] at hle
  | case2 fp fp' h _ hline =>
    have hle := fgets_left_le fp
    rwa [h] at hle
  | case3 fp fp' h _ hline lines fp'' hrest ih =>
    have hle := fgets_left_le fp
    rw [h] at hle
    rw [hrest] at ih
    exact ih.trans hle

theorem readAll_length_le (fp : Input) : (readAll fp).2.text.length ≤ fp.text.length := by
  fun_induction readAll fp with
  | case1 fp fp' h =>
    rw [eq_of_fgets_false h]
  | case2 fp fp' h _ hline => exact (fgets_length_lt h).le
  | case3 fp fp' h _ hline lines fp'' hrest ih =>
    rw [hrest] at ih
    exact ih.trans (fgets_length_lt h).le

/-! ## Reading an entry -/

/-- What `local_db_read` does after a heading of the `desc` file. -/
inductive DescSection where
  /-- The next line is compared with the package; a difference is only logged. -/
  | check
  /-- `READ_AND_STORE`, or `READ_NEXT` and a conversion. -/
  | store (f : Pkg → CString → Pkg)
  /-- `READ_AND_STORE_ALL` or `READ_AND_SPLITDEP`. -/
  | storeAll (f : Pkg → List CString → Pkg)

/-- The bit of a word of `%VALIDATION%`; a word that is not known is only logged. -/
def validationBit (word : CString) : ℕ :=
  if strcmp word (str "none") = 0 then validationNone
  else if strcmp word (str "md5") = 0 then validationMd5sum
  else if strcmp word (str "sha256") = 0 then validationSha256sum
  else if strcmp word (str "pgp") = 0 then validationSignature
  else 0

/-- `strtol` in base 10: a value that does not fit in `long` is the largest or the smallest that
does. -/
def strtol (line : CString) : Int :=
  (strtoll line).1.getD (if deref (line.dropWhile isspace) = '-' then -2 ^ 63 else 2 ^ 63 - 1)

/-- `atoi`, which is `strtol` converted to `int`. -/
def atoi (line : CString) : Int := (strtol line).bmod (2 ^ 32)

/-- The reason with a number, which is converted to 32 bits. -/
def reasonOf (n : Int) : PkgReason := UInt32.ofInt n

/-- A number that does not fit in `long` is the reason `-1`, and below zero the reason `0`. -/
example : UInt32.toNat (reasonOf (atoi (str "9223372036854775808"))) = 2 ^ 32 - 1 ∧
    UInt32.toNat (reasonOf (atoi (str "-9223372036854775809"))) = 0 := by decide +kernel

/-- The headings that `local_db_read` compares a line with. -/
def descSections : List (CString × DescSection) :=
  [(str "%NAME%", .check),
    (str "%VERSION%", .check),
    (str "%BASE%", .store fun pkg line => { pkg with base := some line }),
    (str "%DESC%", .store fun pkg line => { pkg with desc := some line }),
    (str "%GROUPS%", .storeAll fun pkg lines => { pkg with groups := pkg.groups ++ lines }),
    (str "%URL%", .store fun pkg line => { pkg with url := some line }),
    (str "%LICENSE%", .storeAll fun pkg lines => { pkg with licenses := pkg.licenses ++ lines }),
    (str "%ARCH%", .store fun pkg line => { pkg with arch := some line }),
    (str "%BUILDDATE%", .store fun pkg line => { pkg with builddate := parsedate line }),
    (str "%INSTALLDATE%", .store fun pkg line => { pkg with installdate := parsedate line }),
    (str "%PACKAGER%", .store fun pkg line => { pkg with packager := some line }),
    (str "%REASON%", .store fun pkg line => { pkg with reason := reasonOf (atoi line) }),
    (str "%VALIDATION%", .storeAll fun pkg lines => { pkg with
      validation := lines.foldl (fun validation word => validation ||| validationBit word)
        pkg.validation }),
    (str "%SIZE%", .store fun pkg line => { pkg with isize := strtoofft line }),
    (str "%REPLACES%", .storeAll fun pkg lines => { pkg with
      replaces := pkg.replaces ++ lines.map depFromString }),
    (str "%DEPENDS%", .storeAll fun pkg lines => { pkg with
      depends := pkg.depends ++ lines.map depFromString }),
    (str "%OPTDEPENDS%", .storeAll fun pkg lines => { pkg with
      optdepends := pkg.optdepends ++ lines.map depFromString }),
    (str "%MAKEDEPENDS%", .storeAll fun pkg lines => { pkg with
      makedepends := pkg.makedepends ++ lines.map depFromString }),
    (str "%CHECKDEPENDS%", .storeAll fun pkg lines => { pkg with
      checkdepends := pkg.checkdepends ++ lines.map depFromString }),
    (str "%CONFLICTS%", .storeAll fun pkg lines => { pkg with
      conflicts := pkg.conflicts ++ lines.map depFromString }),
    (str "%PROVIDES%", .storeAll fun pkg lines => { pkg with
      provides := pkg.provides ++ lines.map depFromString })]

/-- The section that a line begins. -/
def sectionOf (line : CString) : Option DescSection :=
  (descSections.find? fun heading => strcmp line heading.1 = 0).map (·.2)

/-- What is read after a heading. -/
def readSection (sec : DescSection) (fp : Input) (pkg : Pkg) : Input × Pkg :=
  match sec with
  | .check => (readNext fp, pkg)
  | .store f => (readNext fp, f pkg (readNext fp).line)
  | .storeAll f => ((readAll fp).2, f pkg (readAll fp).1)

theorem readSection_left_le (sec : DescSection) (fp : Input) (pkg : Pkg) :
    (readSection sec fp pkg).1.left ≤ fp.left := by
  cases sec with
  | check => exact fgets_left_le fp
  | store f => exact fgets_left_le fp
  | storeAll f => exact readAll_left_le fp

/-- The loop over the `desc` file: a line that is a heading is followed by its section, and any
other line is passed over. -/
def readDesc (fp : Input) (pkg : Pkg) : Pkg :=
  if heof : fp.eof then pkg
  else
    have hlt : (readNext fp).left < fp.left := fgets_left_lt (by simpa using heof)
    if (readNext fp).line = [] then readDesc (readNext fp) pkg
    else
      match sectionOf (readNext fp).line with
      | none => readDesc (readNext fp) pkg
      | some sec =>
        have := (readSection_left_le sec (readNext fp) pkg).trans_lt hlt
        readDesc (readSection sec (readNext fp) pkg).1 (readSection sec (readNext fp) pkg).2
  termination_by fp.left

/-- `_alpm_split_backup`. -/
def splitBackup (string : CString) : Backup :=
  match memchr string '\t' string.length with
  | none => { name := string, hash := none }
  | some tab => { name := string.take tab, hash := some (string.drop (tab + 1)) }

/-- The loop over the `files` file, with the list of paths and that of the backup entries. -/
def readFiles (fp : Input) (pkg : Pkg) : Pkg :=
  match h : fgets fp with
  | (false, _) => pkg
  | (true, fp') =>
    have hlt := fgets_length_lt h
    have := (readAll_length_le fp'.strip).trans_lt hlt
    if strcmp fp'.strip.line (str "%FILES%") = 0 then
      readFiles (readAll fp'.strip).2 { pkg with files := filelistSort (readAll fp'.strip).1 }
    else if strcmp fp'.strip.line (str "%BACKUP%") = 0 then
      readFiles (readAll fp'.strip).2
        { pkg with backup := pkg.backup ++ (readAll fp'.strip).1.map splitBackup }
    else readFiles fp'.strip pkg
  termination_by fp.text.length

/-- The files of an entry, as far as they are there. -/
structure Entry where
  desc : Option CString := none
  files : Option CString := none
  install : Bool := false
  deriving DecidableEq, Repr

/-! `alpm_dbinfrq_t` -/

def infrqDesc : ℕ := 2

def infrqFiles : ℕ := 4

def infrqScriptlet : ℕ := 8

def infrqError : ℕ := 2 ^ 30

/-- The part of `local_db_read` for one file.  An error is what jumps to `error`. -/
def loadFile (inforeq bit : ℕ) (file : Option CString) (read : Input → Pkg → Pkg) (info : Pkg) :
    Except Pkg Pkg :=
  if inforeq &&& bit ≠ 0 ∧ info.infolevel &&& bit = 0 then
    match file with
    | none => .error { info with infolevel := info.infolevel ||| infrqError }
    | some text =>
      let info := read { text } info
      .ok { info with infolevel := info.infolevel ||| bit }
  else .ok info

/-- `local_db_read`: the parts that are asked for and were not read yet.  A file that is missing
sets the bit for an error, and from then on no call reads anything. -/
def localDbRead (entry : Entry) (info : Pkg) (inforeq : ℕ) : Int × Pkg :=
  if info.infolevel &&& inforeq = inforeq then (0, info)
  else if info.infolevel &&& infrqError ≠ 0 then (-1, info)
  else
    match loadFile inforeq infrqDesc entry.desc readDesc info >>=
      loadFile inforeq infrqFiles entry.files readFiles with
    | .error info => (-1, info)
    | .ok info =>
      if inforeq &&& infrqScriptlet ≠ 0 ∧ info.infolevel &&& infrqScriptlet = 0 then
        (0, { info with
          scriptlet := info.scriptlet || entry.install
          infolevel := info.infolevel ||| infrqScriptlet })
      else (0, info)

/-! ## Writing an entry -/

/-- `%jd` and `%u`. -/
def decimal (n : Int) : CString :=
  if n < 0 then '-' :: Nat.toDigits 10 n.natAbs else Nat.toDigits 10 n.natAbs

/-- A heading with one line, if there is a value. -/
def writeField (header : CString) : Option CString → CString
  | none => []
  | some value => header ++ '\n' :: value ++ str "\n\n"

/-- A heading with lines. -/
def writeLines (header : CString) (lines : List CString) : CString :=
  header ++ '\n' :: (lines.flatMap (· ++ ['\n']) ++ ['\n'])

/-- A heading with the entries of a list, if there are any. -/
def writeList (header : CString) (lines : List CString) : CString :=
  if lines = [] then [] else writeLines header lines

/-- `write_deps`. -/
def writeDeps (header : CString) (deplist : List Depend) : CString :=
  writeList header (deplist.map depComputeString)

/-- The words of `%VALIDATION%`. -/
def validationWords (validation : ℕ) : List CString :=
  (if validation &&& validationNone ≠ 0 then [str "none"] else []) ++
    (if validation &&& validationMd5sum ≠ 0 then [str "md5"] else []) ++
    (if validation &&& validationSha256sum ≠ 0 then [str "sha256"] else []) ++
    (if validation &&& validationSignature ≠ 0 then [str "pgp"] else [])

/-- The value of a number field, which is written if it is not zero. -/
def numberField (n : Int) : Option CString := if n ≠ 0 then some (decimal n) else none

def reasonNumber (reason : PkgReason) : Int := UInt32.toNat reason

/-- The `desc` file: the name and the version, and then every other field that has a value, in this
order. -/
def writeDesc (info : Pkg) : CString :=
  writeField (str "%NAME%") info.name ++
  writeField (str "%VERSION%") info.version ++
  writeField (str "%BASE%") info.base ++
  writeField (str "%DESC%") info.desc ++
  writeField (str "%URL%") info.url ++
  writeField (str "%ARCH%") info.arch ++
  writeField (str "%BUILDDATE%") (numberField info.builddate) ++
  writeField (str "%INSTALLDATE%") (numberField info.installdate) ++
  writeField (str "%PACKAGER%") info.packager ++
  -- only write installed size, csize is irrelevant once installed
  writeField (str "%SIZE%") (numberField info.isize) ++
  writeField (str "%REASON%") (numberField (reasonNumber info.reason)) ++
  writeList (str "%GROUPS%") info.groups ++
  writeList (str "%LICENSE%") info.licenses ++
  (if info.validation ≠ 0 then
    writeLines (str "%VALIDATION%") (validationWords info.validation) else []) ++
  writeDeps (str "%REPLACES%") info.replaces ++
  writeDeps (str "%DEPENDS%") info.depends ++
  writeDeps (str "%OPTDEPENDS%") info.optdepends ++
  writeDeps (str "%CONFLICTS%") info.conflicts ++
  writeDeps (str "%PROVIDES%") info.provides

/-- `fprintf(fp, "%s\t%s\n", backup->name, backup->hash)`, without the newline. -/
def backupLine (backup : Backup) : CString :=
  backup.name ++ '\t' :: backup.hash.getD (str "(null)")

/-- The `files` file. -/
def writeFiles (info : Pkg) : CString :=
  writeList (str "%FILES%") info.files ++
  writeList (str "%BACKUP%") (info.backup.map backupLine)

/-- `_alpm_local_db_write`. -/
def localDbWrite (entry : Entry) (info : Pkg) (inforeq : ℕ) : Entry :=
  { entry with
    desc := if inforeq &&& infrqDesc ≠ 0 then some (writeDesc info) else entry.desc
    files := if inforeq &&& infrqFiles ≠ 0 then some (writeFiles info) else entry.files }

end Alpm.LocalDb
