import Alpm.LocalDbRoundTrip

/-!
# Long paths in the local database

`_alpm_local_db_write` puts no bound on the line of a path, and `local_db_read` reads lines of a
bounded length.  `localDbRead_files_iff` says which file lists are read back: those that fit the
line buffer (`Readable`).

A path of as many characters as `fgets` reads is itself read whole, and its newline ends the list;
so such a path may stand at the end of the list and nowhere else.  A longer one is cut.  The text
behind the cut is then searched for headings, and could hold one, since the end of a path may be the
text of a heading.  That nothing read from there makes up for what was lost follows from the number
of entries (`readFiles_listText_length`), and for the backup section behind the list from the fact
that none of its lines can be taken for a heading (`PlainBackup`).

`deepPath` is a package that has such a path before another one, made of components that a file
system allows.
-/

namespace Alpm.LocalDb

theorem filelistSort_perm (files : List CString) : (filelistSort files).Perm files := by
  unfold filelistSort
  split_ifs
  · exact List.mergeSort_perm ..
  · exact List.Perm.refl _

/-- No path is read that is longer than the buffer. -/
theorem readFiles_length {fp : Input} {pkg : Pkg}
    (hpkg : ∀ file ∈ pkg.files, file.length + 1 ≤ lineSize) :
    ∀ file ∈ (readFiles fp pkg).files, file.length + 1 ≤ lineSize := by
  fun_induction readFiles fp pkg with
  | case1 => exact hpkg
  | case2 fp pkg fp' h _ _ hfiles ih =>
    refine ih fun file hfile => (line_of_mem_readAll fp'.strip file ?_).2.2
    exact (filelistSort_perm _).mem_iff.mp hfile
  | case3 fp pkg fp' h _ _ hfiles hbackup ih => exact ih hpkg
  | case4 fp pkg fp' h _ _ hfiles hbackup ih => exact ih hpkg

/-! ## Texts without the heading of the list -/

/-- No line of the text ends with a percent sign, as headings do, and the last line is
complete. -/
structure Unmarked (text : CString) : Prop where
  lines : text.IsChain fun a b => ¬ (a = '%' ∧ b = '\n')
  complete : ∀ c ∈ text.getLast?, c = '\n'

theorem Unmarked.suffix {text left : CString} (h : Unmarked text) (hsuffix : left <:+ text) :
    Unmarked left where
  lines := h.lines.suffix hsuffix
  complete := by
    obtain ⟨front, rfl⟩ := hsuffix
    intro c hc
    refine h.complete c ?_
    rw [List.getLast?_append]
    simp [Option.mem_def.mp hc]

theorem fgets_suffix (fp : Input) : (fgets fp).2.text <:+ fp.text := by
  unfold fgets
  split_ifs
  · exact List.suffix_refl _
  split
  · exact List.drop_suffix _ _
  · exact List.drop_suffix _ _

theorem readAll_suffix (fp : Input) : (readAll fp).2.text <:+ fp.text := by
  fun_induction readAll fp with
  | case1 fp fp' h =>
    have hsuffix := fgets_suffix fp
    rwa [h] at hsuffix
  | case2 fp fp' h _ hline =>
    have hsuffix := fgets_suffix fp
    rwa [h] at hsuffix
  | case3 fp fp' h _ hline lines fp'' hrest ih =>
    have hsuffix := fgets_suffix fp
    rw [h] at hsuffix
    rw [hrest] at ih
    exact ih.trans hsuffix

/-- A line that is read is the beginning of the text, up to its newline if that is found. -/
theorem fgets_text {fp fp' : Input} (h : fgets fp = (true, fp')) :
    fp.text = fp'.line ++ fp'.text ∧
      (fp'.line.getLast? = some '\n' ∨ fp'.line.length = min fp.text.length (lineSize - 1)) := by
  unfold fgets at h
  split_ifs at h with hnil
  · cases h
  split at h
  next newline hnewline =>
    obtain ⟨-, rfl⟩ := Prod.mk.inj h
    refine ⟨(List.take_append_drop ..).symm, Or.inl ?_⟩
    have hdrop := (memchr_eq_some hnewline).2
    show (fp.text.take (newline + 1)).getLast? = _
    rw [List.take_add_one, ← List.head?_drop, hdrop]
    simp
  next hnone =>
    obtain ⟨-, rfl⟩ := Prod.mk.inj h
    refine ⟨(List.take_append_drop ..).symm, Or.inr ?_⟩
    simp only [List.length_take]
    omega

theorem not_heading_of_unmarked {fp fp' : Input} (h : fgets fp = (true, fp'))
    (hunmarked : Unmarked fp.text) {header : CString} (hheader : header.getLast? = some '%')
    (hlength : header.length + 1 < lineSize) : fp'.strip.line ≠ header := by
  intro hstrip
  obtain ⟨htext, hend⟩ := fgets_text h
  have hline : header ++ fp'.line.rtakeWhile (· = '\n') = fp'.line := by
    rw [← hstrip]
    exact List.rdropWhile_append_rtakeWhile
  cases hnewlines : fp'.line.rtakeWhile (· = '\n') with
  | nil =>
    -- the line is the heading without a newline
    rw [hnewlines, List.append_nil] at hline
    rw [← hline] at hend htext
    rcases hend with hlast | hlast
    · rw [hheader] at hlast
      exact absurd hlast (by decide)
    · have hnil : fp'.text = [] := by
        rw [htext, List.length_append] at hlast
        exact List.length_eq_zero_iff.mp (by omega)
      rw [hnil, List.append_nil] at htext
      exact absurd (hunmarked.complete '%' (htext ▸ hheader)) (by decide)
  | cons c newlines =>
    have hc : c = '\n' := by
      have hmem : c ∈ fp'.line.rtakeWhile (· = '\n') := hnewlines ▸ List.mem_cons_self ..
      simpa using List.mem_rtakeWhile_imp hmem
    obtain ⟨name, rfl⟩ := List.getLast?_eq_some_iff.mp hheader
    rw [hnewlines, hc] at hline
    have hlines := hunmarked.lines
    rw [htext, ← hline] at hlines
    have hinfix : ['%', '\n'] <:+: (name ++ ['%'] ++ '\n' :: newlines) ++ fp'.text :=
      ⟨name, newlines ++ fp'.text, by simp⟩
    exact absurd ( List.IsChain.infix hlines hinfix) (by decide)

theorem readFiles_unmarked {fp : Input} {pkg : Pkg} (h : Unmarked fp.text) :
    (readFiles fp pkg).files = pkg.files := by
  fun_induction readFiles fp pkg with
  | case1 => rfl
  | case2 fp pkg fp' hget _ _ hfiles ih =>
    exact absurd (strcmp_eq_zero.mp hfiles)
      (not_heading_of_unmarked hget h (by decide) (by decide))
  | case3 fp pkg fp' hget _ _ hfiles hbackup ih =>
    exact absurd (strcmp_eq_zero.mp hbackup)
      (not_heading_of_unmarked hget h (by decide) (by decide))
  | case4 fp pkg fp' hget _ _ hfiles hbackup ih =>
    have hsuffix := fgets_suffix fp
    rw [hget] at hsuffix
    exact ih (h.suffix hsuffix)

/-! ## The backup section -/

/-- A backup line that cannot be taken for a heading, wherever it is cut. -/
def PlainBackup (backup : Backup) : Prop :=
  '\n' ∉ backupLine backup ∧ (backupLine backup).getLast? ≠ some '%'

theorem unmarked_listText {lines : List CString} {rest : CString} (hrest : Unmarked rest)
    (hlines : ∀ line ∈ lines, '\n' ∉ line ∧ line.getLast? ≠ some '%') :
    Unmarked (listText lines rest) := by
  induction lines with
  | nil =>
    rw [listText_nil]
    refine ⟨List.isChain_cons.mpr ⟨by simp, hrest.lines⟩, fun c hc => ?_⟩
    cases hlast : rest.getLast? with
    | none =>
      rw [List.getLast?_eq_none_iff.mp hlast] at hc
      simpa using hc.symm
    | some last =>
      rw [List.getLast?_cons, hlast] at hc
      exact hrest.complete c (by simpa [hlast] using hc)
  | cons line lines ih =>
    obtain ⟨⟨hline, hlast⟩, hlines⟩ := List.forall_mem_cons.mp hlines
    have hrest := ih hlines
    rw [listText_cons]
    refine ⟨List.isChain_append.mpr ⟨?_, List.isChain_cons.mpr ⟨by simp, hrest.lines⟩, ?_⟩, ?_⟩
    · refine (List.pairwise_of_forall_mem_list ?_).isChain
      intro a _ b hb hab
      exact hline (hab.2 ▸ hb)
    · rintro a ha b - ⟨rfl, -⟩
      exact hlast ha
    · intro c hc
      refine hrest.complete c ?_
      have hne : listText lines rest ≠ [] := by simp [listText]
      rw [List.getLast?_append, List.getLast?_cons] at hc
      cases htail : (listText lines rest).getLast? with
      | none => exact absurd (List.getLast?_eq_none_iff.mp htail) hne
      | some last => simpa [htail] using hc

/-- The list of paths is not read from the section after it. -/
theorem readFiles_backup_files {backup : List Backup} (hbackup : ∀ b ∈ backup, PlainBackup b)
    (old : CString) (pkg : Pkg) :
    (readFiles { text := writeList (str "%BACKUP%") (backup.map backupLine), line := old }
      pkg).files = pkg.files := by
  unfold writeList
  split_ifs
  · exact readFiles_unmarked ⟨by simp, by simp⟩
  have htext := writeLines_append (str "%BACKUP%") (backup.map backupLine) []
  rw [List.append_nil] at htext
  have hheader : '\n' ∉ str "%BACKUP%" := by decide
  have hfiles : strcmp (str "%BACKUP%") (str "%FILES%") ≠ 0 := by decide
  rw [htext, readFiles_of_fgets (fgets_line (by decide) hheader), strip_line hheader,
    if_neg hfiles, if_pos (strcmp_eq_zero.mpr rfl)]
  have hunmarked : Unmarked (listText (backup.map backupLine) []) := by
    refine unmarked_listText ⟨by simp, by simp⟩ fun line hline => ?_
    obtain ⟨b, hb, rfl⟩ := List.mem_map.mp hline
    exact hbackup b hb
  rw [readFiles_unmarked (hunmarked.suffix (readAll_suffix _))]

/-! ## Which lists are read back -/

theorem readFiles_blank (text old : CString) (pkg : Pkg) :
    readFiles { text := '\n' :: text, line := old } pkg = readFiles { text } pkg := by
  have hget : fgets { text := [] ++ '\n' :: text, line := old } = _ :=
    fgets_line (by decide) List.not_mem_nil
  show readFiles { text := [] ++ '\n' :: text, line := old } pkg = _
  rw [readFiles_of_fgets hget, strip_line List.not_mem_nil]
  rfl

/-- Whatever is taken for a list in the text of a list has no more entries than it. -/
theorem readFiles_listText_length {n : ℕ} {rest : CString}
    (hrest : ∀ old pkg, (readFiles { text := rest, line := old } pkg).files = pkg.files)
    (lines : List CString) (old : CString) (pkg : Pkg)
    (hlines : ∀ line ∈ lines, line.length + 1 ≤ lineSize ∧ '\n' ∉ line) (hn : lines.length ≤ n)
    (hpkg : pkg.files.length ≤ n) :
    (readFiles { text := listText lines rest, line := old } pkg).files.length ≤ n := by
  induction hcount : lines.length using Nat.strong_induction_on generalizing lines old pkg with
  | _ count ih =>
  subst hcount
  cases lines with
  | nil =>
    rw [listText_nil, readFiles_blank, hrest]
    exact hpkg
  | cons line lines =>
    obtain ⟨⟨hlength, hline⟩, hlines⟩ := List.forall_mem_cons.mp hlines
    rw [List.length_cons] at hn ih
    have hskip : ∀ old pkg, pkg.files.length ≤ n →
        (readFiles { text := listText lines rest, line := old } pkg).files.length ≤ n :=
      fun old pkg hpkg => ih lines.length (by omega) lines old pkg hlines (by omega) hpkg rfl
    rw [listText_cons]
    by_cases hcut : line.length + 1 = lineSize
    · have hheading : ∀ header : CString, header.length + 1 < lineSize →
          ¬ strcmp line header = 0 := by
        intro header hheader heq
        rw [strcmp_eq_zero.mp heq] at hcut
        omega
      rw [readFiles_of_fgets (fgets_cut hcut hline), strip_cut hline,
        if_neg (hheading _ (by decide)), if_neg (hheading _ (by decide)), readFiles_blank]
      exact hskip [] pkg hpkg
    · -- the line may be a heading, and a list may begin after it
      obtain ⟨list, left, hread, hlist, hleft⟩ := @readAll_listText lines rest line hlines
      have hafter : ∀ pkg, pkg.files.length ≤ n →
          (readFiles { text := left } pkg).files.length ≤ n := by
        intro pkg hpkg
        obtain rfl | ⟨after, hsuffix, rfl, -⟩ := hleft
        · rw [hrest]
          exact hpkg
        · have hle := hsuffix.length_le
          exact ih after.length (by omega) after [] pkg
            (fun line hmem => hlines line (hsuffix.mem hmem)) (by omega) hpkg rfl
      rw [readFiles_of_fgets (fgets_line (by omega) hline), strip_line hline, hread]
      split_ifs
      · refine hafter _ ?_
        rw [(filelistSort_perm list).length_eq]
        omega
      · exact hafter _ hpkg
      · exact hskip line pkg hpkg

theorem readFiles_writeFiles_of_readAll {info : Pkg} (hnil : info.files ≠ [])
    {files : List CString} {left : CString}
    (hread : readAll
        { text := listText info.files
            (writeList (str "%BACKUP%") (info.backup.map backupLine))
          line := str "%FILES%" } = (files, { text := left })) (pkg : Pkg) :
    readFiles { text := writeFiles info } pkg =
      readFiles { text := left } { pkg with files := filelistSort files } := by
  have hheader : '\n' ∉ str "%FILES%" := by decide
  rw [writeFiles, writeList, if_neg hnil, writeLines_append,
    readFiles_of_fgets (fgets_line (by decide) hheader), strip_line hheader,
    if_pos (strcmp_eq_zero.mpr rfl), hread]

theorem readFiles_writeFiles_iff {info pkg : Pkg} (hpkg : pkg.files = [])
    (hfiles : ∀ file ∈ info.files, file ≠ [] ∧ '\n' ∉ file)
    (hsorted : info.files.Pairwise (· ≤ ·)) (hbackup : ∀ b ∈ info.backup, PlainBackup b) :
    (readFiles { text := writeFiles info } pkg).files = info.files ↔ Readable info.files := by
  have hrest := readFiles_backup_files hbackup
  by_cases hnil : info.files = []
  · rw [writeFiles, hnil]
    exact iff_of_true ((hrest [] pkg).trans hpkg) (by decide)
  by_cases hlength : ∀ file ∈ info.files, file.length + 1 ≤ lineSize
  swap
  · refine iff_of_false (fun heq => hlength ?_) fun h => hlength h.1
    rw [← heq]
    exact readFiles_length (by simp [hpkg])
  by_cases h : Readable info.files
  · refine iff_of_true ?_ h
    obtain ⟨left, hread, rfl | rfl⟩ := readAll_of_readable hnil h hfiles
    · rw [readFiles_writeFiles_of_readAll hnil hread, hrest, filelistSort_sorted hsorted]
    · rw [readFiles_writeFiles_of_readAll hnil hread, readFiles_blank, hrest,
        filelistSort_sorted hsorted]
  · refine iff_of_false (fun heq => ?_) h
    obtain ⟨front, file, after, hcut, hafter, hfront, hfile⟩ := exists_cut hlength h
    have hread := @readAll_before front after file
      (writeList (str "%BACKUP%") (info.backup.map backupLine)) (str "%FILES%") hfront
      (fun line hline => hfiles line (by simp [hcut, hline])) hfile
      (hfiles file (by simp [hcut])).2
    rw [← hcut] at hread
    rw [readFiles_writeFiles_of_readAll hnil hread] at heq
    -- no list that is read has as many paths as were written
    have hpos := List.length_pos_of_ne_nil hafter
    have hcount := congrArg List.length hcut
    rw [List.length_append, List.length_cons] at hcount
    have hlines : ∀ line ∈ after, line.length + 1 ≤ lineSize ∧ '\n' ∉ line := by
      intro line hline
      have hmem : line ∈ info.files := by simp [hcut, hline]
      exact ⟨hlength line hmem, (hfiles line hmem).2⟩
    have hread : (filelistSort (front ++ [file])).length ≤ info.files.length - 1 := by
      rw [(filelistSort_perm _).length_eq, List.length_append, List.length_singleton]
      omega
    have hle := readFiles_listText_length hrest after []
      { pkg with files := filelistSort (front ++ [file]) } hlines (by omega) hread
    rw [heq] at hle
    omega

theorem localDbRead_files {info pkg : Pkg} (entry : Entry) (hlevel : pkg.infolevel = 0) :
    (localDbRead (localDbWrite entry info infrqFiles) pkg infrqFiles).2.files =
      (readFiles { text := writeFiles info } pkg).files := by
  have hload : (loadFile infrqFiles infrqDesc (localDbWrite entry info infrqFiles).desc readDesc
      pkg >>= loadFile infrqFiles infrqFiles (localDbWrite entry info infrqFiles).files readFiles) =
        .ok { readFiles { text := writeFiles info } pkg with
          infolevel := (readFiles { text := writeFiles info } pkg).infolevel ||| infrqFiles } := by
    have hdesc : loadFile infrqFiles infrqDesc (localDbWrite entry info infrqFiles).desc readDesc
        pkg = .ok pkg := if_neg fun h => h.1 (by decide)
    rw [hdesc]
    exact loadFile_some (by decide) (by rw [hlevel]; decide)
  rw [localDbRead, if_neg (by rw [hlevel]; decide), if_neg (by rw [hlevel]; decide), hload]
  simp only
  rw [if_neg fun h => h.1 (by decide)]

/-- **Long paths.**  Reading an entry of the local database gives back the paths that were written
if and only if they fit the line buffer.  A list that is cut is read back with fewer entries than it
had, whatever the text behind the cut is taken for. -/
theorem localDbRead_files_iff {info pkg : Pkg} (entry : Entry) (hlevel : pkg.infolevel = 0)
    (hpkg : pkg.files = []) (hfiles : ∀ file ∈ info.files, file ≠ [] ∧ '\n' ∉ file)
    (hsorted : info.files.Pairwise (· ≤ ·)) (hbackup : ∀ b ∈ info.backup, PlainBackup b) :
    (localDbRead (localDbWrite entry info infrqFiles) pkg infrqFiles).2.files = info.files ↔
      Readable info.files := by
  rw [localDbRead_files entry hlevel]
  exact readFiles_writeFiles_iff hpkg hfiles hsorted hbackup

theorem localDbRead_files_iff_filesystem :
    (localDbRead (localDbWrite {} filesystem infrqFiles)
      { name := filesystem.name, version := filesystem.version } infrqFiles).2.files =
        filesystem.files ↔ Readable filesystem.files :=
  localDbRead_files_iff {} rfl rfl (by decide) (by decide +kernel) (by
    rintro backup (_ | ⟨_, ⟨⟩⟩)
    exact ⟨by decide, by decide⟩)

/-- A directory in `usr/` with `n` levels, each of a name of 203 characters. -/
def deepDir (n : ℕ) : CString :=
  str "usr/" ++ (List.replicate n (List.replicate 203 'a' ++ ['/'])).flatten

/-- A package with a path of 1023 characters before another one. -/
def deepPath : Pkg where
  name := str "filesystem"
  version := str "2018.12-2"
  files := (List.range 5).map deepDir ++ [deepDir 4 ++ List.replicate 203 'a', str "usr/b"]

theorem localDbRead_files_deepPath :
    (∀ file ∈ deepPath.files, file ≠ [] ∧ '\n' ∉ file ∧ file.length < 4096) ∧
      (∀ file ∈ deepPath.files, ∀ name ∈ file.splitOn '/', name.length ≤ 255) ∧
      deepPath.files.Pairwise (· ≤ ·) ∧
      (localDbRead (localDbWrite {} deepPath infrqFiles)
        { name := deepPath.name, version := deepPath.version } infrqFiles).2.files ≠
          deepPath.files := by
  have hfiles : ∀ file ∈ deepPath.files, file ≠ [] ∧ '\n' ∉ file ∧ file.length < 4096 := by
    decide +kernel
  have hsorted : deepPath.files.Pairwise (· ≤ ·) := by decide +kernel
  refine ⟨hfiles, by decide +kernel, hsorted, ?_⟩
  rw [localDbRead_files {} rfl]
  exact mt (readFiles_writeFiles_iff rfl (fun file hfile => ⟨(hfiles file hfile).1,
    (hfiles file hfile).2.1⟩) hsorted (List.forall_mem_nil _)).mp (by decide +kernel)

end Alpm.LocalDb
