import Alpm.LocalDbLines

/-!
# Writing and reading an entry of the local database

What `_alpm_local_db_write` writes is read back by `local_db_read` (`localDbRead_localDbWrite`).

Each section is read on its own: `Reads` says that a text, whatever comes after it, is read by the
loop over the headings as a change of the record, and `Reads.append` that one section after the
other makes one change after the other.  So there is a lemma for each kind of section (a field that
may be missing, a number, a list, a list of dependencies) and none for a position in the file, and a
new field would be one more step of the same kind.

`Writable` is what can stand in the record so that it is read back: lines that fit the buffer and
are not empty, numbers in their ranges, dependencies that were parsed from a line.  What is read is
`stored`: the record without the fields that are not written, with the size as `_alpm_strtoofft`
reads it, which knows no sign.
-/

namespace Alpm.LocalDb

/-! ## Numbers -/

theorem isdigit_of_mem_toDigits {n : ℕ} {c : Char} (h : c ∈ Nat.toDigits 10 n) : isdigit c :=
  Nat.isDigit_of_mem_toDigits (by omega) (by omega) h

theorem takeWhile_toDigits (n : ℕ) : (Nat.toDigits 10 n).takeWhile isdigit = Nat.toDigits 10 n :=
  List.takeWhile_eq_self_iff.mpr fun _ hc => isdigit_of_mem_toDigits hc

theorem dropWhile_toDigits (n : ℕ) : (Nat.toDigits 10 n).dropWhile isdigit = [] :=
  List.dropWhile_eq_nil_iff.mpr fun _ hc => isdigit_of_mem_toDigits hc

theorem exists_toDigits (n : ℕ) : ∃ c digits, Nat.toDigits 10 n = c :: digits ∧ isdigit c := by
  cases h : Nat.toDigits 10 n with
  | nil => exact absurd h Nat.toDigits_ne_nil
  | cons c digits =>
    have hmem : c ∈ Nat.toDigits 10 n := h ▸ List.mem_cons_self ..
    exact ⟨c, digits, rfl, isdigit_of_mem_toDigits hmem⟩

theorem digitsValue_toDigits (n : ℕ) : digitsValue (Nat.toDigits 10 n) = n :=
  Nat.ofDigitChars_ten_toDigits

theorem strtoofft_decimal {n : Int} (hpos : 0 ≤ n) (hlt : n < 2 ^ 63) :
    strtoofft (decimal n) = n := by
  obtain ⟨c, digits, hdigits, hc⟩ := exists_toDigits n.natAbs
  have hvalue : n.natAbs < 2 ^ 64 := by omega
  rw [decimal, if_neg (not_lt.mpr hpos), strtoofft, strtoull, takeWhile_toDigits,
    dropWhile_toDigits, digitsValue_toDigits, if_pos hvalue]
  rw [if_neg (by rw [hdigits]; simpa using hc)]
  simp only
  omega

theorem isspace_of_isdigit {c : Char} (h : isdigit c) : isspace c = false := by
  by_contra hspace
  simp only [isspace, Bool.not_eq_false, Bool.or_eq_true, decide_eq_true_eq] at hspace
  rcases hspace with ((((rfl | rfl) | rfl) | rfl) | rfl) | rfl <;> exact absurd h (by decide)

theorem strtoll_decimal {n : Int} (hle : -2 ^ 63 ≤ n) (hlt : n < 2 ^ 63) :
    strtoll (decimal n) = (some n, []) := by
  obtain ⟨c, digits, hdigits, hc⟩ := exists_toDigits n.natAbs
  have htake := takeWhile_toDigits n.natAbs
  have hdrop := dropWhile_toDigits n.natAbs
  have hvalue := digitsValue_toDigits n.natAbs
  rw [decimal]
  rw [hdigits] at htake hdrop hvalue ⊢
  split_ifs with hneg
  · have hspace : (List.dropWhile isspace ('-' :: c :: digits)) = '-' :: c :: digits :=
      List.dropWhile_cons_of_neg (by decide)
    rw [strtoll, hspace]
    have hresult : -(n.natAbs : Int) = n := by omega
    simp only [htake, hdrop, hvalue, if_true, hresult, if_neg (List.cons_ne_nil c digits),
      if_pos (And.intro hle hlt)]
  · have hspace : (List.dropWhile isspace (c :: digits)) = c :: digits :=
      List.dropWhile_cons_of_neg (by simp [isspace_of_isdigit hc])
    have hminus : c ≠ '-' := by
      rintro rfl
      exact absurd hc (by decide)
    have hplus : c ≠ '+' := by
      rintro rfl
      exact absurd hc (by decide)
    have hresult : (n.natAbs : Int) = n := by omega
    rw [strtoll, hspace]
    split
    next negative number hsign =>
      split at hsign
      next heq => exact absurd (List.cons.inj heq).1 hminus
      next heq => exact absurd (List.cons.inj heq).1 hplus
      obtain ⟨rfl, rfl⟩ := Prod.mk.inj hsign
      simp only [htake, hdrop, hvalue, Bool.false_eq_true, if_false, hresult,
        if_neg (List.cons_ne_nil c digits), if_pos (And.intro hle hlt)]

theorem parsedate_decimal {n : Int} (hle : -2 ^ 63 ≤ n) (hlt : n < 2 ^ 63) :
    parsedate (decimal n) = n := by
  rw [parsedate, strtoll_decimal hle hlt]

/-! ## Sections of the `desc` file -/

theorem readDesc_of_not_eof {fp : Input} (heof : fp.eof = false) (pkg : Pkg) :
    readDesc fp pkg =
      if (readNext fp).line = [] then readDesc (readNext fp) pkg
      else
        match sectionOf (readNext fp).line with
        | none => readDesc (readNext fp) pkg
        | some sec =>
          readDesc (readSection sec (readNext fp) pkg).1 (readSection sec (readNext fp) pkg).2 := by
  rw [readDesc]
  exact dif_neg (by simp [heof])

theorem readDesc_nil (pkg : Pkg) : readDesc { text := [] } pkg = pkg := by
  have hnext : readNext { text := [] } = { text := [], eof := true } := rfl
  rw [readDesc_of_not_eof rfl, hnext, if_pos rfl, readDesc, dif_pos rfl]

theorem readDesc_blank {rest old : CString} (pkg : Pkg) :
    readDesc { text := '\n' :: rest, line := old } pkg = readDesc { text := rest } pkg := by
  have hnext : readNext { text := '\n' :: rest, line := old } = { text := rest } :=
    @readNext_line [] rest old ⟨List.not_mem_nil, by decide⟩
  rw [readDesc_of_not_eof rfl, hnext, if_pos rfl]

theorem readDesc_behind {line rest old : CString} (pkg : Pkg) :
    readDesc { text := behind line ('\n' :: rest), line := old } pkg =
      readDesc { text := rest } pkg := by
  unfold behind
  split_ifs
  · rw [readDesc_blank, readDesc_blank]
  · rw [readDesc_blank]

/-- A heading is a short line of the file. -/
theorem heading_line {header : CString} {sec : DescSection} (h : sectionOf header = some sec) :
    header ≠ [] ∧ '\n' ∉ header ∧ header.length + 1 < lineSize := by
  have hall : ∀ heading ∈ descSections,
      heading.1 ≠ [] ∧ '\n' ∉ heading.1 ∧ heading.1.length + 1 < lineSize := by decide
  obtain ⟨heading, hfind, -⟩ := Option.map_eq_some_iff.mp h
  have heq := List.find?_some hfind
  rw [decide_eq_true_eq, strcmp_eq_zero] at heq
  rw [heq]
  exact hall heading (List.mem_of_find?_eq_some hfind)

theorem readDesc_heading {header rest old : CString} {sec : DescSection}
    (hsec : sectionOf header = some sec) (pkg : Pkg) :
    readDesc { text := header ++ '\n' :: rest, line := old } pkg =
      readDesc (readSection sec { text := rest, line := header } pkg).1
        (readSection sec { text := rest, line := header } pkg).2 := by
  obtain ⟨hne, hline, hlength⟩ := heading_line hsec
  rw [readDesc_of_not_eof rfl, readNext_line ⟨hline, hlength.le⟩, behind_of_lt hlength, if_neg hne,
    hsec]

/-- The text is read, whatever comes after it: the loop over the headings comes behind it, and has
changed the record in the given way. -/
def Reads (text : CString) (pkg pkg' : Pkg) : Prop :=
  ∀ rest, readDesc { text := text ++ rest } pkg = readDesc { text := rest } pkg'

theorem Reads.append {text text' : CString} {pkg pkg' pkg'' : Pkg} (h : Reads text pkg pkg')
    (h' : Reads text' pkg' pkg'') : Reads (text ++ text') pkg pkg'' := by
  intro rest
  rw [List.append_assoc, h, h']

theorem Reads.nil (pkg : Pkg) : Reads [] pkg pkg := fun _ => rfl

/-- A file of nothing but sections. -/
theorem Reads.readDesc {text : CString} {pkg pkg' : Pkg} (h : Reads text pkg pkg') :
    readDesc { text } pkg = pkg' := by
  have hread := h []
  rwa [List.append_nil, readDesc_nil] at hread

variable {pkg : Pkg} (header : CString)

theorem reads_value {sec : DescSection} {f : Pkg → CString → Pkg} {value : CString}
    (hsec : sectionOf header = some sec)
    (hread : ∀ fp, readSection sec fp pkg = (readNext fp, f pkg (readNext fp).line))
    (hvalue : Line value) : Reads (writeField header (some value)) pkg (f pkg value) := by
  intro rest
  have htext : writeField header (some value) ++ rest =
      header ++ '\n' :: (value ++ '\n' :: '\n' :: rest) := by simp [writeField, str]
  rw [htext, readDesc_heading hsec]
  simp only [hread, readNext_line hvalue]
  exact readDesc_behind _

theorem reads_check {value : CString} (hsec : sectionOf header = some .check)
    (hvalue : Line value) : Reads (writeField header (some value)) pkg pkg :=
  @reads_value pkg header _ (fun pkg _ => pkg) _ hsec (fun _ => rfl) hvalue

theorem reads_store {f : Pkg → CString → Pkg} {value : CString}
    (hsec : sectionOf header = some (.store f)) (hvalue : Line value) :
    Reads (writeField header (some value)) pkg (f pkg value) :=
  reads_value header hsec (fun _ => rfl) hvalue

/-- A field that may be missing. -/
theorem reads_field (f : Pkg → Option CString → Pkg) (value : Option CString)
    (hsec : sectionOf header = some (.store fun pkg line => f pkg (some line)))
    (hnone : f pkg none = pkg) (hvalue : ∀ line ∈ value, Line line) :
    Reads (writeField header value) pkg (f pkg value) := by
  cases value with
  | none =>
    rw [hnone]
    exact Reads.nil pkg
  | some line => exact reads_store header hsec (hvalue line rfl)

theorem not_mem_decimal (n : Int) : '\n' ∉ decimal n := by
  have hdigits : ∀ m : ℕ, '\n' ∉ Nat.toDigits 10 m := fun m hmem =>
    absurd (isdigit_of_mem_toDigits hmem) (by decide)
  unfold decimal
  split_ifs
  · simpa using hdigits _
  · exact hdigits _

/-- A number of 64 bits. -/
def InRange (n : Int) : Prop := -2 ^ 63 ≤ n ∧ n < 2 ^ 63

theorem InRange.line {n : Int} (h : InRange n) : Line (decimal n) := by
  obtain ⟨hle, hlt⟩ := h
  refine ⟨not_mem_decimal n, ?_⟩
  have hdigits : (Nat.toDigits 10 n.natAbs).length ≤ 20 :=
    (Nat.length_toDigits_le_iff (by omega) (by omega)).mpr (by omega)
  unfold decimal lineSize
  split_ifs
  · rw [List.length_cons]
    omega
  · omega

/-- A number that is written if it is not zero. -/
theorem reads_number (f : Pkg → Int → Pkg) (parse : CString → Int) {n m : Int} (hn : InRange n)
    (hsec : sectionOf header = some (.store fun pkg line => f pkg (parse line)))
    (hnone : f pkg 0 = pkg) (hzero : n = 0 → m = 0) (hparse : parse (decimal n) = m) :
    Reads (writeField header (numberField n)) pkg (f pkg m) := by
  unfold numberField
  split_ifs with hne
  · have hread := @reads_store pkg header _ _ hsec hn.line
    rwa [hparse] at hread
  · rw [hzero (not_ne_iff.mp hne), hnone]
    exact Reads.nil pkg

/-- The size that is read back: `_alpm_strtoofft` reads no sign. -/
def storedSize (isize : Int) : Int := if isize < 0 then -1 else isize

theorem storedSize_eq_iff {isize : Int} : storedSize isize = isize ↔ -1 ≤ isize := by
  unfold storedSize
  split_ifs <;> omega

theorem strtoofft_storedSize {isize : Int} (h : InRange isize) :
    strtoofft (decimal isize) = storedSize isize := by
  unfold storedSize
  split_ifs with hneg
  · rw [decimal, if_pos hneg]
    rfl
  · exact strtoofft_decimal (not_lt.mp hneg) h.2

theorem reads_lines (f : Pkg → List CString → Pkg) (lines : List CString)
    (hsec : sectionOf header = some (.storeAll f)) (hnil : lines ≠ []) (hreadable : Readable lines)
    (hlines : ∀ line ∈ lines, line ≠ [] ∧ '\n' ∉ line) :
    Reads (writeLines header lines) pkg (f pkg lines) := by
  intro rest
  obtain ⟨left, hread, hleft⟩ := @readAll_of_readable lines rest header hnil hreadable hlines
  rw [writeLines_append, readDesc_heading hsec]
  simp only [readSection, hread]
  rcases hleft with rfl | rfl
  · rfl
  · exact readDesc_blank _

theorem reads_list (f : Pkg → List CString → Pkg) (lines : List CString)
    (hsec : sectionOf header = some (.storeAll f)) (hnil : f pkg [] = pkg)
    (hreadable : Readable lines) (hlines : ∀ line ∈ lines, line ≠ [] ∧ '\n' ∉ line) :
    Reads (writeList header lines) pkg (f pkg lines) := by
  unfold writeList
  split_ifs with h
  · rw [h, hnil]
    exact Reads.nil pkg
  · exact reads_lines header f lines hsec h hreadable hlines

/-- A dependency that was parsed from a line. -/
def Parsed (dep : Depend) : Prop := ∃ s, s ≠ [] ∧ '\n' ∉ s ∧ dep = depFromString s

theorem Parsed.print {dep : Depend} (h : Parsed dep) :
    depComputeString dep ≠ [] ∧ '\n' ∉ depComputeString dep ∧
      depFromString (depComputeString dep) = dep := by
  obtain ⟨s, hne, hline, rfl⟩ := h
  rw [depComputeString_depFromString]
  exact ⟨hne, hline, rfl⟩

theorem reads_deps (f : Pkg → List Depend → Pkg) (deplist : List Depend)
    (hsec : sectionOf header = some (.storeAll fun pkg lines => f pkg (lines.map depFromString)))
    (hnil : f pkg [] = pkg) (hreadable : Readable (deplist.map depComputeString))
    (hdeps : ∀ dep ∈ deplist, Parsed dep) :
    Reads (writeDeps header deplist) pkg (f pkg deplist) := by
  have hback : (deplist.map depComputeString).map depFromString = deplist := by
    rw [List.map_map]
    exact (List.map_congr_left fun dep hdep => (hdeps dep hdep).print.2.2).trans
      (List.map_id deplist)
  have hlines : ∀ line ∈ deplist.map depComputeString, line ≠ [] ∧ '\n' ∉ line := by
    intro line hline
    obtain ⟨dep, hdep, rfl⟩ := List.mem_map.mp hline
    exact ⟨(hdeps dep hdep).print.1, (hdeps dep hdep).print.2.1⟩
  have hread := @reads_list pkg header _ _ hsec hnil hreadable hlines
  rwa [hback] at hread

theorem validation_words {validation : ℕ} (h : validation < 16) :
    (validationWords validation).foldl (fun validation word => validation ||| validationBit word)
      0 = validation := by
  interval_cases validation <;> decide

theorem validationWords_ne_nil {validation : ℕ} (h : validation < 16) (hne : validation ≠ 0) :
    validationWords validation ≠ [] := by
  interval_cases validation
  · exact absurd rfl hne
  all_goals decide

theorem mem_validationWords {validation : ℕ} {word : CString}
    (h : word ∈ validationWords validation) :
    word.length + 2 ≤ lineSize ∧ word ≠ [] ∧ '\n' ∉ word := by
  have hwords : ∀ word ∈ [str "none", str "md5", str "sha256", str "pgp"],
      word.length + 2 ≤ lineSize ∧ word ≠ [] ∧ '\n' ∉ word := by decide
  refine hwords word ?_
  unfold validationWords at h
  simp only [List.mem_append, List.mem_ite_nil_right, List.mem_singleton] at h
  simp only [List.mem_cons, List.not_mem_nil, or_false]
  tauto

theorem readable_validationWords {validation : ℕ} : Readable (validationWords validation) :=
  readable_of_lt fun _ hword => (mem_validationWords hword).1

theorem reads_validation {pkg : Pkg} (hpkg : pkg.validation = 0) {validation : ℕ}
    (h : validation < 16) :
    Reads (if validation ≠ 0 then writeLines (str "%VALIDATION%") (validationWords validation)
      else []) pkg { pkg with validation } := by
  split_ifs with hne
  · have hread := @reads_lines pkg (str "%VALIDATION%") _ (validationWords validation) rfl
      (validationWords_ne_nil h hne) readable_validationWords
      fun word hword => (mem_validationWords hword).2
    rwa [hpkg, validation_words h] at hread
  · rw [not_ne_iff.mp hne, ← hpkg]
    exact Reads.nil pkg

theorem reasonNumber_inRange (reason : PkgReason) : InRange (reasonNumber reason) := by
  have hlt : UInt32.toNat reason < 2 ^ 32 := UInt32.toNat_lt reason
  unfold InRange reasonNumber
  omega

theorem strtol_decimal {n : Int} (h : InRange n) : strtol (decimal n) = n := by
  rw [strtol, strtoll_decimal h.1 h.2]
  rfl

/-- The reason is an unsigned number, and the conversion to `int` in between does not matter. -/
theorem reasonOf_bmod_reasonNumber (reason : PkgReason) :
    reasonOf ((reasonNumber reason).bmod (2 ^ 32)) = reason := by
  have hlt : UInt32.toNat reason < 2 ^ 32 := UInt32.toNat_lt reason
  have hmod : (reasonNumber reason).bmod (2 ^ 32) % 2 ^ 32 = UInt32.toNat reason := by
    have hsame := @Int.bmod_emod (reasonNumber reason) (2 ^ 32)
    rw [Nat.cast_pow, Nat.cast_ofNat] at hsame
    refine hsame.trans (Int.emod_eq_of_lt (Int.natCast_nonneg _) ?_)
    show (UInt32.toNat reason : Int) < 2 ^ 32
    exact_mod_cast hlt
  rw [reasonOf, UInt32.ofInt, hmod, Int.toNat_natCast]
  exact UInt32.ofNat_toNat

theorem reads_reason {pkg : Pkg} (hpkg : pkg.reason = .explicit) (reason : PkgReason) :
    Reads (writeField (str "%REASON%") (numberField (reasonNumber reason))) pkg
      { pkg with reason } := by
  have hzero : { pkg with reason := reasonOf 0 } = pkg := by
    show { pkg with reason := .explicit } = pkg
    rw [← hpkg]
  have hread := reads_number (str "%REASON%") (fun pkg n => { pkg with reason := reasonOf n }) atoi
    (reasonNumber_inRange reason) rfl hzero (fun h => by rw [h, Int.zero_bmod])
    (congrArg (·.bmod (2 ^ 32)) (strtol_decimal (reasonNumber_inRange reason)))
  rwa [reasonOf_bmod_reasonNumber] at hread

/-! ## Sections of the `files` file -/

theorem readFiles_of_fgets {fp fp' : Input} (h : fgets fp = (true, fp')) (pkg : Pkg) :
    readFiles fp pkg =
      if strcmp fp'.strip.line (str "%FILES%") = 0 then
        readFiles (readAll fp'.strip).2 { pkg with files := filelistSort (readAll fp'.strip).1 }
      else if strcmp fp'.strip.line (str "%BACKUP%") = 0 then
        readFiles (readAll fp'.strip).2
          { pkg with backup := pkg.backup ++ (readAll fp'.strip).1.map splitBackup }
      else readFiles fp'.strip pkg := by
  rw [readFiles]
  split
  next h' => cases h.symm.trans h'
  next h' =>
    obtain ⟨-, rfl⟩ := Prod.mk.inj (h.symm.trans h')
    rfl

theorem readFiles_nil (pkg : Pkg) : readFiles { text := [] } pkg = pkg := by
  rw [readFiles]
  rfl

theorem filelistSort_sorted {files : List CString} (h : files.Pairwise (· ≤ ·)) :
    filelistSort files = files := by
  have hpairs : ∀ pair ∈ files.zip files.tail, pair.1 ≤ pair.2 := by
    induction files with
    | nil => simp
    | cons name files ih =>
      obtain ⟨hle, hfiles⟩ := List.pairwise_cons.mp h
      cases files with
      | nil => simp
      | cons next files =>
        rintro pair (_ | ⟨_, hpair⟩)
        · exact hle next (List.mem_cons_self ..)
        · exact ih hfiles pair hpair
  refine if_neg fun hany => ?_
  obtain ⟨⟨name, next⟩, hpair, hgt⟩ := List.any_eq_true.mp hany
  rw [decide_eq_true_eq, gt_iff_lt, strcmp_gt_zero] at hgt
  exact absurd (hpairs _ hpair) (not_le.mpr hgt)

/-- A backup entry of an installed package. -/
def WritableBackup (backup : Backup) : Prop :=
  '\t' ∉ backup.name ∧ '\n' ∉ backup.name ∧ ∃ hash, backup.hash = some hash ∧ '\n' ∉ hash

theorem splitBackup_backupLine {backup : Backup} (h : WritableBackup backup) :
    splitBackup (backupLine backup) = backup := by
  obtain ⟨name, hash⟩ := backup
  obtain ⟨htab, -, hash, rfl, -⟩ := h
  have hmemchr : memchr (name ++ '\t' :: hash) '\t' (name ++ '\t' :: hash).length =
      some name.length := memchr_append htab (by simp)
  show splitBackup (name ++ '\t' :: hash) = _
  rw [splitBackup, hmemchr]
  simp

theorem backupLine_line {backup : Backup} (h : WritableBackup backup) :
    backupLine backup ≠ [] ∧ '\n' ∉ backupLine backup := by
  obtain ⟨-, hname, hash, hhash, hline⟩ := h
  simp [backupLine, hhash, hname, hline]

/-- A list of the `files` file, up to the empty line after it. -/
theorem readAll_writeLines {header rest : CString} {lines : List CString}
    (hfits : Fits (writeLines header lines ++ rest)) (hheader : '\n' ∉ header)
    (hlines : ∀ line ∈ lines, line ≠ [] ∧ '\n' ∉ line) :
    ∃ fp', fgets { text := writeLines header lines ++ rest } = (true, fp') ∧
      fp'.strip.line = header ∧ readAll fp'.strip = (lines, { text := rest }) := by
  rw [writeLines_append] at hfits ⊢
  refine ⟨_, fgets_line (hfits.head hheader) hheader, ?_, ?_⟩
  · rw [strip_line hheader]
  · rw [strip_line hheader]
    exact readAll_lines (hfits.tail.lines hlines) hlines

theorem readFiles_files {files : List CString} {rest : CString} {pkg : Pkg}
    (hfits : Fits (writeList (str "%FILES%") files ++ rest)) (hpkg : pkg.files = [])
    (hfiles : ∀ file ∈ files, file ≠ [] ∧ '\n' ∉ file) (hsorted : files.Pairwise (· ≤ ·)) :
    readFiles { text := writeList (str "%FILES%") files ++ rest } pkg =
      readFiles { text := rest } { pkg with files } := by
  unfold writeList at hfits ⊢
  split_ifs at hfits ⊢ with hnil
  · rw [hnil, ← hpkg]
    rfl
  · obtain ⟨fp', hget, hline, hread⟩ := readAll_writeLines hfits (by decide) hfiles
    rw [readFiles_of_fgets hget, hline, if_pos (by decide), hread, filelistSort_sorted hsorted]

theorem readFiles_backup {backup : List Backup} {rest : CString} {pkg : Pkg}
    (hfits : Fits (writeList (str "%BACKUP%") (backup.map backupLine) ++ rest))
    (hpkg : pkg.backup = []) (hbackup : ∀ b ∈ backup, WritableBackup b) :
    readFiles { text := writeList (str "%BACKUP%") (backup.map backupLine) ++ rest } pkg =
      readFiles { text := rest } { pkg with backup } := by
  have hlines : ∀ line ∈ backup.map backupLine, line ≠ [] ∧ '\n' ∉ line := by
    intro line hline
    obtain ⟨b, hb, rfl⟩ := List.mem_map.mp hline
    exact backupLine_line (hbackup b hb)
  have hback : (backup.map backupLine).map splitBackup = backup := by
    rw [List.map_map]
    exact (List.map_congr_left fun b hb => splitBackup_backupLine (hbackup b hb)).trans
      (List.map_id backup)
  unfold writeList at hfits ⊢
  split_ifs at hfits ⊢ with hnil
  · rw [List.map_eq_nil_iff.mp hnil, ← hpkg]
    rfl
  · obtain ⟨fp', hget, hline, hread⟩ := readAll_writeLines hfits (by decide) hlines
    rw [readFiles_of_fgets hget, hline, if_neg (by decide), if_pos (by decide), hread, hback, hpkg]
    rfl

/-! ## The round trip -/

/-- The lists of the `desc` file, as they are written. -/
def descLists (info : Pkg) : List (List CString) :=
  [info.groups, info.licenses, info.replaces.map depComputeString,
    info.depends.map depComputeString, info.optdepends.map depComputeString,
    info.conflicts.map depComputeString, info.provides.map depComputeString]

/-- What can stand in the `desc` file so that it is read back. -/
structure DescWritable (info : Pkg) : Prop where
  strings : ∀ s ∈ [some info.name, some info.version, info.base, info.desc, info.url, info.arch,
    info.packager], ∀ line ∈ s, Line line
  lists : ∀ list ∈ descLists info, Readable list
  lines : ∀ line ∈ info.groups ++ info.licenses, line ≠ [] ∧ '\n' ∉ line
  deps : ∀ dep ∈ info.replaces ++ info.depends ++ info.optdepends ++ info.conflicts ++
    info.provides, Parsed dep
  numbers : ∀ n ∈ [info.builddate, info.installdate, info.isize], InRange n
  validation : info.validation < 16

/-- What `_alpm_local_db_write` can write so that it is read back.  These are conditions on lines,
numbers and dependencies; none of them is about the order or the presence of the fields. -/
structure Writable (info : Pkg) : Prop where
  strings : ∀ s ∈ [some info.name, some info.version, info.base, info.desc, info.url, info.arch,
    info.packager], ∀ line ∈ s, '\n' ∉ line
  lists : ∀ line ∈ info.groups ++ info.licenses ++ info.files, line ≠ [] ∧ '\n' ∉ line
  deps : ∀ dep ∈ info.replaces ++ info.depends ++ info.optdepends ++ info.conflicts ++
    info.provides, Parsed dep
  dates : ∀ date ∈ [info.builddate, info.installdate], -2 ^ 63 ≤ date ∧ date < 2 ^ 63
  isize : 0 ≤ info.isize ∧ info.isize < 2 ^ 63
  validation : info.validation < 16
  backup : ∀ backup ∈ info.backup, WritableBackup backup
  sorted : info.files.Pairwise (· ≤ ·)
  fits_desc : Fits (writeDesc info)
  fits_files : Fits (writeFiles info)

theorem line_of_fits {header : CString} {value : Option CString}
    (h : Fits (writeField header value)) (hvalue : ∀ line ∈ value, '\n' ∉ line) :
    ∀ line ∈ value, Line line := by
  rintro line rfl
  have hlength := h (header ++ ['\n']) line ['\n'] (by simp [writeField, str]) (hvalue line rfl)
  exact ⟨hvalue line rfl, Nat.le_of_succ_le hlength⟩

theorem readable_of_fits {header : CString} {lines : List CString}
    (h : Fits (writeList header lines)) (hlines : ∀ line ∈ lines, line ≠ [] ∧ '\n' ∉ line) :
    Readable lines := by
  by_cases hnil : lines = []
  · rw [hnil]
    exact readable_of_lt (by simp)
  · rw [writeList, if_neg hnil, ← List.append_nil (writeLines _ _), writeLines_append,
      List.append_cons] at h
    exact readable_of_lt (h.suffix.lines hlines)

/-- The lines of a package that fit the buffer with their newlines. -/
theorem Writable.descWritable {info : Pkg} (h : Writable info) : DescWritable info := by
  have hfits := h.fits_desc
  unfold writeDesc at hfits
  obtain ⟨hfits, hprovides⟩ := hfits.append
  obtain ⟨hfits, hconflicts⟩ := hfits.append
  obtain ⟨hfits, hoptdepends⟩ := hfits.append
  obtain ⟨hfits, hdepends⟩ := hfits.append
  obtain ⟨hfits, hreplaces⟩ := hfits.append
  obtain ⟨hfits, -⟩ := hfits.append
  obtain ⟨hfits, hlicenses⟩ := hfits.append
  obtain ⟨hfits, hgroups⟩ := hfits.append
  obtain ⟨hfits, -⟩ := hfits.append
  obtain ⟨hfits, -⟩ := hfits.append
  obtain ⟨hfits, hpackager⟩ := hfits.append
  obtain ⟨hfits, -⟩ := hfits.append
  obtain ⟨hfits, -⟩ := hfits.append
  obtain ⟨hfits, harch⟩ := hfits.append
  obtain ⟨hfits, hurl⟩ := hfits.append
  obtain ⟨hfits, hdesc⟩ := hfits.append
  obtain ⟨hfits, hbase⟩ := hfits.append
  obtain ⟨hname, hversion⟩ := hfits.append
  have hlists : ∀ line ∈ info.groups ++ info.licenses, line ≠ [] ∧ '\n' ∉ line :=
    fun line hline => h.lists line (List.mem_append_left _ hline)
  have hstrings := h.strings
  have hdeps := h.deps
  simp only [List.forall_mem_cons, List.forall_mem_append] at hstrings hdeps hlists
  obtain ⟨sname, sversion, sbase, sdesc, surl, sarch, spackager, -⟩ := hstrings
  obtain ⟨⟨⟨⟨dreplaces, ddepends⟩, doptdepends⟩, dconflicts⟩, dprovides⟩ := hdeps
  have hprinted : ∀ {header : CString} {deplist : List Depend},
      Fits (writeDeps header deplist) → (∀ dep ∈ deplist, Parsed dep) →
      Readable (deplist.map depComputeString) := by
    intro header deplist hfits hdeps
    refine readable_of_fits hfits fun line hline => ?_
    obtain ⟨dep, hdep, rfl⟩ := List.mem_map.mp hline
    exact ⟨(hdeps dep hdep).print.1, (hdeps dep hdep).print.2.1⟩
  exact
    { strings := by
        simp only [List.forall_mem_cons]
        exact ⟨line_of_fits hname sname, line_of_fits hversion sversion, line_of_fits hbase sbase,
          line_of_fits hdesc sdesc, line_of_fits hurl surl, line_of_fits harch sarch,
          line_of_fits hpackager spackager, by simp⟩
      lists := by
        simp only [descLists, List.forall_mem_cons]
        exact ⟨readable_of_fits hgroups hlists.1, readable_of_fits hlicenses hlists.2,
          hprinted hreplaces dreplaces, hprinted hdepends ddepends,
          hprinted hoptdepends doptdepends, hprinted hconflicts dconflicts,
          hprinted hprovides dprovides, by simp⟩
      lines := fun line hline => h.lists line (List.mem_append_left _ hline)
      deps := h.deps
      numbers := by
        simp only [List.forall_mem_cons]
        have hisize : InRange info.isize := ⟨by linarith [h.isize.1], h.isize.2⟩
        exact ⟨h.dates _ (by simp), h.dates _ (by simp), hisize, by simp⟩
      validation := h.validation }

/-! The sections of the `desc` file in the order in which they are written. -/

/-- The package after the sections of `reads_strings`. -/
def readStrings (info : Pkg) (addr : ℕ) : Pkg where
  addr
  name := info.name
  version := info.version
  base := info.base
  desc := info.desc
  url := info.url
  arch := info.arch

def readNumbers (info : Pkg) (addr : ℕ) : Pkg :=
  { readStrings info addr with
    builddate := info.builddate
    installdate := info.installdate
    packager := info.packager
    isize := info.isize
    reason := info.reason }

def readLists (info : Pkg) (addr : ℕ) : Pkg :=
  { readNumbers info addr with
    groups := info.groups
    licenses := info.licenses
    validation := info.validation }

def readDepends (info : Pkg) (addr : ℕ) : Pkg :=
  { readLists info addr with
    replaces := info.replaces
    depends := info.depends
    optdepends := info.optdepends
    conflicts := info.conflicts
    provides := info.provides }

section Sections

variable {info : Pkg} (h : DescWritable info) (addr : ℕ)
include h

theorem DescWritable.reads_strings :
    Reads (writeField (str "%NAME%") info.name ++
        writeField (str "%VERSION%") info.version ++
        writeField (str "%BASE%") info.base ++
        writeField (str "%DESC%") info.desc ++
        writeField (str "%URL%") info.url ++
        writeField (str "%ARCH%") info.arch)
      { addr, name := info.name, version := info.version }
      (readStrings info addr) := by
  have hname : Line info.name := h.strings _ (by simp) _ rfl
  have hversion : Line info.version := h.strings _ (by simp) _ rfl
  exact (reads_check (str "%NAME%") rfl hname)
    |>.append (reads_check (str "%VERSION%") rfl hversion)
    |>.append (reads_field (str "%BASE%") (fun pkg base => { pkg with base }) info.base
        rfl rfl (h.strings info.base (by simp)))
    |>.append (reads_field (str "%DESC%") (fun pkg desc => { pkg with desc }) info.desc
        rfl rfl (h.strings info.desc (by simp)))
    |>.append (reads_field (str "%URL%") (fun pkg url => { pkg with url }) info.url
        rfl rfl (h.strings info.url (by simp)))
    |>.append (reads_field (str "%ARCH%") (fun pkg arch => { pkg with arch }) info.arch
        rfl rfl (h.strings info.arch (by simp)))

theorem DescWritable.reads_numbers :
    Reads (writeField (str "%BUILDDATE%") (numberField info.builddate) ++
        writeField (str "%INSTALLDATE%") (numberField info.installdate) ++
        writeField (str "%PACKAGER%") info.packager ++
        writeField (str "%SIZE%") (numberField info.isize) ++
        writeField (str "%REASON%") (numberField (reasonNumber info.reason)))
      (readStrings info addr)
      { readNumbers info addr with isize := storedSize info.isize } := by
  have hbuilddate : InRange info.builddate := h.numbers _ (by simp)
  have hinstalldate : InRange info.installdate := h.numbers _ (by simp)
  have hisize : InRange info.isize := h.numbers _ (by simp)
  have hzero : info.isize = 0 → storedSize info.isize = 0 := fun hzero => by
    rw [hzero]
    rfl
  exact (@reads_number (readStrings info addr) (str "%BUILDDATE%")
        (fun pkg builddate => { pkg with builddate })
        parsedate _ _ hbuilddate rfl rfl id (parsedate_decimal hbuilddate.1 hbuilddate.2))
    |>.append (reads_number (str "%INSTALLDATE%") (fun pkg installdate => { pkg with installdate })
        parsedate hinstalldate rfl rfl id (parsedate_decimal hinstalldate.1 hinstalldate.2))
    |>.append (reads_field (str "%PACKAGER%") (fun pkg packager => { pkg with packager })
        info.packager rfl rfl (h.strings info.packager (by simp)))
    |>.append (reads_number (str "%SIZE%") (fun pkg isize => { pkg with isize }) strtoofft
        hisize rfl rfl hzero (strtoofft_storedSize hisize))
    |>.append (reads_reason rfl info.reason)

theorem DescWritable.reads_lists :
    Reads (writeList (str "%GROUPS%") info.groups ++
        writeList (str "%LICENSE%") info.licenses ++
        (if info.validation ≠ 0 then
          writeLines (str "%VALIDATION%") (validationWords info.validation) else []))
      { readNumbers info addr with isize := storedSize info.isize }
      { readLists info addr with isize := storedSize info.isize } := by
  have hgroups : ∀ line ∈ info.groups, line ≠ [] ∧ '\n' ∉ line :=
    fun line hline => h.lines line (by simp [hline])
  have hlicenses : ∀ line ∈ info.licenses, line ≠ [] ∧ '\n' ∉ line :=
    fun line hline => h.lines line (by simp [hline])
  have hreadable : ∀ list ∈ descLists info, Readable list := h.lists
  exact (@reads_list { readNumbers info addr with isize := storedSize info.isize } (str "%GROUPS%")
        (fun pkg lines => { pkg with groups := pkg.groups ++ lines }) info.groups rfl rfl
        (hreadable _ (by simp [descLists])) hgroups)
    |>.append (reads_list (str "%LICENSE%")
        (fun pkg lines => { pkg with licenses := pkg.licenses ++ lines }) info.licenses
        rfl rfl (hreadable _ (by simp [descLists])) hlicenses)
    |>.append (reads_validation rfl h.validation)

theorem DescWritable.reads_depends :
    Reads (writeDeps (str "%REPLACES%") info.replaces ++
        writeDeps (str "%DEPENDS%") info.depends ++
        writeDeps (str "%OPTDEPENDS%") info.optdepends ++
        writeDeps (str "%CONFLICTS%") info.conflicts ++
        writeDeps (str "%PROVIDES%") info.provides)
      { readLists info addr with isize := storedSize info.isize }
      { readDepends info addr with isize := storedSize info.isize } := by
  have hdeps : ∀ deplist ∈ [info.replaces, info.depends, info.optdepends, info.conflicts,
      info.provides], ∀ dep ∈ deplist, Parsed dep := by
    intro deplist hmem dep hdep
    refine h.deps dep ?_
    simp only [List.mem_cons, List.not_mem_nil, or_false] at hmem
    rcases hmem with rfl | rfl | rfl | rfl | rfl <;> simp [hdep]
  have hreadable : ∀ list ∈ descLists info, Readable list := h.lists
  exact (@reads_deps { readLists info addr with isize := storedSize info.isize } (str "%REPLACES%")
        (fun pkg deps => { pkg with replaces := pkg.replaces ++ deps }) info.replaces
        rfl rfl (hreadable _ (by simp [descLists])) (hdeps info.replaces (by simp)))
    |>.append (reads_deps (str "%DEPENDS%")
        (fun pkg deps => { pkg with depends := pkg.depends ++ deps }) info.depends
        rfl rfl (hreadable _ (by simp [descLists])) (hdeps info.depends (by simp)))
    |>.append (reads_deps (str "%OPTDEPENDS%")
        (fun pkg deps => { pkg with optdepends := pkg.optdepends ++ deps }) info.optdepends
        rfl rfl (hreadable _ (by simp [descLists])) (hdeps info.optdepends (by simp)))
    |>.append (reads_deps (str "%CONFLICTS%")
        (fun pkg deps => { pkg with conflicts := pkg.conflicts ++ deps }) info.conflicts
        rfl rfl (hreadable _ (by simp [descLists])) (hdeps info.conflicts (by simp)))
    |>.append (reads_deps (str "%PROVIDES%")
        (fun pkg deps => { pkg with provides := pkg.provides ++ deps }) info.provides
        rfl rfl (hreadable _ (by simp [descLists])) (hdeps info.provides (by simp)))

theorem DescWritable.reads_writeDesc :
    Reads (writeDesc info) { addr, name := info.name, version := info.version }
      { readDepends info addr with isize := storedSize info.isize } := by
  have hread := ((h.reads_strings addr).append (h.reads_numbers addr)).append
    ((h.reads_lists addr).append (h.reads_depends addr))
  unfold writeDesc
  simp only [List.append_assoc] at hread ⊢
  exact hread

end Sections

/-- What is read back of a package. -/
def stored (info : Pkg) (addr : ℕ) : Pkg where
  addr
  name := info.name
  version := info.version
  base := info.base
  desc := info.desc
  url := info.url
  packager := info.packager
  arch := info.arch
  builddate := info.builddate
  installdate := info.installdate
  isize := info.isize
  licenses := info.licenses
  groups := info.groups
  replaces := info.replaces
  depends := info.depends
  optdepends := info.optdepends
  conflicts := info.conflicts
  provides := info.provides
  files := info.files
  backup := info.backup
  reason := info.reason
  validation := info.validation
  infolevel := infrqDesc ||| infrqFiles

theorem readFiles_writeFiles {info pkg : Pkg} (h : Writable info) (hfiles : pkg.files = [])
    (hbackup : pkg.backup = []) :
    readFiles { text := writeFiles info } pkg =
      { pkg with
        files := info.files
        backup := info.backup } := by
  have hfits := h.fits_files
  unfold writeFiles at hfits ⊢
  rw [readFiles_files hfits hfiles (fun file hfile => h.lists file (by simp [hfile])) h.sorted]
  have hread := @readFiles_backup info.backup [] { pkg with files := info.files }
    (by simpa using hfits.suffix) hbackup h.backup
  rw [List.append_nil] at hread
  rw [hread, readFiles_nil]

theorem loadFile_some {inforeq bit : ℕ} {text : CString} {read : Input → Pkg → Pkg} {info : Pkg}
    (hreq : inforeq &&& bit ≠ 0) (hlevel : info.infolevel &&& bit = 0) :
    loadFile inforeq bit (some text) read info =
      .ok { read { text } info with infolevel := (read { text } info).infolevel ||| bit } :=
  if_pos ⟨hreq, hlevel⟩

/-- Both files are read when nothing of the package was read before. -/
theorem localDbRead_of_read {entry : Entry} {desc files : CString} {pkg pkg' pkg'' : Pkg}
    (hentry : entry.desc = some desc ∧ entry.files = some files) (hpkg : pkg.infolevel = 0)
    (hdesc : readDesc { text := desc } pkg = pkg') (hpkg' : pkg'.infolevel = 0)
    (hfiles : readFiles { text := files } { pkg' with infolevel := infrqDesc } = pkg'')
    (hpkg'' : pkg''.infolevel = infrqDesc) :
    localDbRead entry pkg (infrqDesc ||| infrqFiles) =
      (0, { pkg'' with infolevel := infrqDesc ||| infrqFiles }) := by
  have hloadDesc : loadFile (infrqDesc ||| infrqFiles) infrqDesc entry.desc readDesc pkg =
      .ok { pkg' with infolevel := infrqDesc } := by
    rw [hentry.1, loadFile_some (by decide) (by rw [hpkg]; decide), hdesc, hpkg', Nat.zero_or]
  have hloadFiles : loadFile (infrqDesc ||| infrqFiles) infrqFiles entry.files readFiles
      { pkg' with infolevel := infrqDesc } =
        .ok { pkg'' with infolevel := infrqDesc ||| infrqFiles } := by
    rw [hentry.2, loadFile_some (by decide) (show infrqDesc &&& infrqFiles = 0 by decide), hfiles,
      hpkg'']
  have hload : (loadFile (infrqDesc ||| infrqFiles) infrqDesc entry.desc readDesc pkg >>=
      loadFile (infrqDesc ||| infrqFiles) infrqFiles entry.files readFiles) =
        .ok { pkg'' with infolevel := infrqDesc ||| infrqFiles } := by
    rw [hloadDesc]
    exact hloadFiles
  rw [localDbRead, if_neg (by rw [hpkg]; decide), if_neg (by rw [hpkg]; decide), hload]
  exact if_neg fun hscriptlet => hscriptlet.1 (by decide)

/-- **What is written is read back.**  Reading a package that carries only its name and version
gives back what was written, both files and the flags that say so.  The sections are read one after
the other, each from the record that the ones before it have left. -/
theorem localDbRead_localDbWrite {info : Pkg} (h : Writable info) (entry : Entry) (addr : ℕ) :
    localDbRead (localDbWrite entry info (infrqDesc ||| infrqFiles))
        { addr, name := info.name, version := info.version } (infrqDesc ||| infrqFiles) =
      (0, stored info addr) := by
  have hsize : storedSize info.isize = info.isize := if_neg (not_lt.mpr h.isize.1)
  have hdesc : readDesc { text := writeDesc info }
      { addr, name := info.name, version := info.version } = readDepends info addr := by
    rw [(h.descWritable.reads_writeDesc addr).readDesc, hsize]
    rfl
  have hfiles := @readFiles_writeFiles info
    { readDepends info addr with infolevel := infrqDesc } h rfl rfl
  exact localDbRead_of_read ⟨rfl, rfl⟩ rfl hdesc rfl hfiles rfl

theorem Fits.of_length {text : CString} (h : text.length < lineSize) : Fits text := by
  rintro before line after rfl -
  simp only [List.length_append, List.length_cons] at h
  omega

/-- An installed package. -/
def filesystem : Pkg where
  name := str "filesystem"
  version := str "2018.12-2"
  base := some (str "filesystem")
  desc := some (str "Base Arch Linux files")
  url := some []
  arch := some (str "any")
  builddate := 1545000000
  installdate := 1545000001
  isize := 24576
  groups := [str "base"]
  validation := validationMd5sum ||| validationSignature
  reason := .depend
  depends := [depFromString (str "iana-etc>=1"), depFromString (str "glibc")]
  optdepends := [depFromString (str "shadow: for users")]
  files := [str "etc/", str "etc/fstab"]
  backup := [{ name := str "etc/fstab", hash := some (str "43a0a6bc") }]

theorem writable_filesystem : Writable filesystem := by
  have hparsed : ∀ s ∈ [str "iana-etc>=1", str "glibc", str "shadow: for users"],
      Parsed (depFromString s) := fun s hs =>
    have hline : ∀ s ∈ [str "iana-etc>=1", str "glibc", str "shadow: for users"],
      s ≠ [] ∧ '\n' ∉ s := by decide
    ⟨s, (hline s hs).1, (hline s hs).2, rfl⟩
  exact
    { strings := by decide +kernel
      lists := by decide +kernel
      deps := List.forall_mem_map.mpr hparsed
      dates := by decide
      isize := by decide
      validation := by decide
      backup := by
        rintro backup (_ | ⟨_, ⟨⟩⟩)
        exact ⟨by decide +kernel, by decide +kernel, _, rfl, by decide +kernel⟩
      sorted := by decide +kernel
      fits_desc := Fits.of_length (by decide +kernel)
      fits_files := Fits.of_length (by decide +kernel) }

theorem localDbRead_localDbWrite_filesystem :
    localDbRead (localDbWrite {} filesystem (infrqDesc ||| infrqFiles))
        { addr := 7, name := filesystem.name, version := filesystem.version }
        (infrqDesc ||| infrqFiles) = (0, stored filesystem 7) :=
  localDbRead_localDbWrite writable_filesystem {} 7

end Alpm.LocalDb
