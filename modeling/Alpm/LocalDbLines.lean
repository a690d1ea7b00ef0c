import Alpm.LocalDb

/-!
# Lines of the local database

What `fgets` and the loops of `local_db_read` make of lines that fit the line buffer, and of those
that fill it.

A line that fits together with its newline is read as it is (`fgets_line`).  A line that fills the
buffer is read without its newline, and the newline is what the next call reads: an empty line,
which ends a list (`fgets_cut`, `readAll_cut`).  So a list with such a line anywhere but at its end
is read up to that line, and the rest of its text is taken for whatever the caller looks for next.

`Readable` is the condition on a list: no line is longer than the buffer, and only the last one may
fill it.  A list that is not readable has a first line that is cut (`exists_cut`), and
`readAll_listText` bounds what can be read as a list from what is left, which is what the converse
of a round trip needs.
-/

namespace Alpm.LocalDb

/-! ## Lines -/

/-- Every line of a text fits the line buffer, with its newline and the terminating NUL. -/
def Fits (text : CString) : Prop :=
  ∀ before line after, text = before ++ (line ++ '\n' :: after) → '\n' ∉ line →
    line.length + 2 ≤ lineSize

theorem Fits.suffix {before text : CString} (h : Fits (before ++ text)) : Fits text := by
  rintro front line after rfl hline
  exact h (before ++ front) line after (List.append_assoc ..).symm hline

theorem Fits.head {line rest : CString} (h : Fits (line ++ '\n' :: rest)) (hline : '\n' ∉ line) :
    line.length + 2 ≤ lineSize :=
  h [] line rest rfl hline

theorem Fits.tail {line rest : CString} (h : Fits (line ++ '\n' :: rest)) : Fits rest := by
  rw [List.append_cons] at h
  exact h.suffix

theorem Fits.append {text text' : CString} (h : Fits (text ++ text')) : Fits text ∧ Fits text' := by
  refine ⟨?_, h.suffix⟩
  rintro before line after rfl hline
  exact h before line (after ++ text') (by simp) hline

/-- `fgets` reads a line that fits, and leaves the rest. -/
theorem fgets_line {line rest old : CString} (hlength : line.length + 2 ≤ lineSize)
    (hline : '\n' ∉ line) : fgets { text := line ++ '\n' :: rest, line := old } =
      (true, { text := rest, line := line ++ ['\n'] }) := by
  have hnewline : memchr (line ++ '\n' :: rest) '\n' (lineSize - 1) = some line.length :=
    memchr_append hline (by omega)
  rw [fgets, if_neg (by simp), hnewline]
  simp [List.drop_append, List.take_append]

theorem stripNewline_concat {line : CString} (hline : '\n' ∉ line) :
    stripNewline (line ++ ['\n']) = line := by
  rw [stripNewline, List.rdropWhile_concat_pos _ _ _ (by simp)]
  exact stripNewline_of_notMem hline

theorem strip_line {line rest : CString} (hline : '\n' ∉ line) :
    Input.strip { text := rest, line := line ++ ['\n'] } = { text := rest, line } := by
  rw [Input.strip, stripNewline_concat hline]

theorem readAll_of_fgets {fp fp' : Input} (h : fgets fp = (true, fp')) :
    readAll fp = if fp'.strip.line = [] then ([], fp'.strip)
      else (fp'.strip.line :: (readAll fp'.strip).1, (readAll fp'.strip).2) := by
  rw [readAll]
  split
  next h' => cases h.symm.trans h'
  next h' =>
    obtain ⟨-, rfl⟩ := Prod.mk.inj (h.symm.trans h')
    rfl

/-- The lines of a list, each with its newline, and the empty line that ends it. -/
def listText (lines : List CString) (rest : CString) : CString :=
  lines.flatMap (· ++ ['\n']) ++ '\n' :: rest

@[simp] theorem listText_nil (rest : CString) : listText [] rest = '\n' :: rest := rfl

@[simp] theorem listText_cons (line : CString) (lines : List CString) (rest : CString) :
    listText (line :: lines) rest = line ++ '\n' :: listText lines rest := by
  simp [listText]

theorem readAll_blank {rest old : CString} :
    readAll { text := '\n' :: rest, line := old } = ([], { text := rest }) := by
  have hget : fgets { text := [] ++ '\n' :: rest, line := old } = _ :=
    fgets_line (by decide) List.not_mem_nil
  show readAll { text := [] ++ '\n' :: rest, line := old } = _
  rw [readAll_of_fgets hget, strip_line List.not_mem_nil]
  rfl

theorem readAll_line {line rest old : CString} (hlength : line.length + 2 ≤ lineSize)
    (hne : line ≠ []) (hline : '\n' ∉ line) :
    readAll { text := line ++ '\n' :: rest, line := old } =
      (line :: (readAll { text := rest, line }).1, (readAll { text := rest, line }).2) := by
  rw [readAll_of_fgets (fgets_line hlength hline), strip_line hline, if_neg hne]

/-- A list ends with an empty line. -/
theorem readAll_lines {lines : List CString} {rest old : CString}
    (hfits : ∀ line ∈ lines, line.length + 2 ≤ lineSize)
    (hlines : ∀ line ∈ lines, line ≠ [] ∧ '\n' ∉ line) :
    readAll { text := listText lines rest, line := old } = (lines, { text := rest }) := by
  induction lines generalizing old with
  | nil => exact readAll_blank
  | cons line lines ih =>
    obtain ⟨hlength, hfits⟩ := List.forall_mem_cons.mp hfits
    obtain ⟨⟨hne, hline⟩, hlines⟩ := List.forall_mem_cons.mp hlines
    rw [listText_cons, readAll_line hlength hne hline, ih hfits hlines]

theorem Fits.lines {lines : List CString} {rest : CString} (h : Fits (listText lines rest))
    (hlines : ∀ line ∈ lines, line ≠ [] ∧ '\n' ∉ line) :
    ∀ line ∈ lines, line.length + 2 ≤ lineSize := by
  induction lines with
  | nil => simp
  | cons line lines ih =>
    obtain ⟨⟨hne, hline⟩, hlines⟩ := List.forall_mem_cons.mp hlines
    rw [listText_cons] at h
    exact List.forall_mem_cons.mpr ⟨h.head hline, ih h.tail hlines⟩

theorem writeLines_append (header : CString) (lines : List CString) (rest : CString) :
    writeLines header lines ++ rest = header ++ '\n' :: listText lines rest := by
  simp [writeLines, listText]

/-! ## Lines that do not fit -/

/-- Of a line that fills the buffer, the newline is not read. -/
theorem fgets_cut {line rest old : CString} (hlength : line.length + 1 = lineSize)
    (hline : '\n' ∉ line) : fgets { text := line ++ '\n' :: rest, line := old } =
      (true, { text := '\n' :: rest, line }) := by
  have hread : line.length = lineSize - 1 := by omega
  have hnewline : memchr (line ++ '\n' :: rest) '\n' (lineSize - 1) = none := by
    refine memchr_eq_none ?_
    rwa [← hread, List.take_left]
  rw [fgets, if_neg (by simp), hnewline, ← hread]
  simp

theorem strip_cut {line rest : CString} (hline : '\n' ∉ line) :
    Input.strip { text := rest, line } = { text := rest, line } := by
  rw [Input.strip, stripNewline_of_notMem hline]

/-- A line that fits the buffer, if not together with its newline. -/
def Line (line : CString) : Prop := '\n' ∉ line ∧ line.length + 1 ≤ lineSize

/-- What is left of the text after a line is read: its newline, if the line fills the buffer. -/
def behind (line rest : CString) : CString :=
  if line.length + 1 = lineSize then '\n' :: rest else rest

theorem behind_of_lt {line : CString} (h : line.length + 1 < lineSize) (rest : CString) :
    behind line rest = rest := if_neg h.ne

theorem readNext_line {line rest old : CString} (h : Line line) :
    readNext { text := line ++ '\n' :: rest, line := old } =
      { text := behind line rest, line } := by
  obtain ⟨hline, hlength⟩ := h
  unfold behind
  split_ifs with hcut
  · rw [readNext, fgets_cut hcut hline, strip_cut hline]
  · rw [readNext, fgets_line (by omega) hline, strip_line hline]

/-- The newline of such a line looks like the empty line after a list. -/
theorem readAll_cut {line rest old : CString} (hlength : line.length + 1 = lineSize)
    (hline : '\n' ∉ line) :
    readAll { text := line ++ '\n' :: rest, line := old } = ([line], { text := rest }) := by
  have hne : line ≠ [] := by
    rintro rfl
    exact absurd hlength (by decide)
  rw [readAll_of_fgets (fgets_cut hlength hline), strip_cut hline, if_neg hne, readAll_blank]

/-- A list is read up to its first line that is cut. -/
theorem readAll_before {lines after : List CString} {line rest old : CString}
    (hfits : ∀ line ∈ lines, line.length + 2 ≤ lineSize)
    (hlines : ∀ line ∈ lines, line ≠ [] ∧ '\n' ∉ line) (hcut : line.length + 1 = lineSize)
    (hline : '\n' ∉ line) :
    readAll { text := listText (lines ++ line :: after) rest, line := old } =
      (lines ++ [line], { text := listText after rest }) := by
  induction lines generalizing old with
  | nil => rw [List.nil_append, listText_cons, readAll_cut hcut hline, List.nil_append]
  | cons first lines ih =>
    obtain ⟨hlength, hfits⟩ := List.forall_mem_cons.mp hfits
    obtain ⟨⟨hne, hfirst⟩, hlines⟩ := List.forall_mem_cons.mp hlines
    rw [List.cons_append, listText_cons, readAll_line hlength hne hfirst, ih hfits hlines,
      List.cons_append]

/-- What is read as a list from the text of a list has no more lines than it, and what is left is
the rest or the text of its last lines, none of which was read. -/
theorem readAll_listText {lines : List CString} {rest old : CString}
    (hlines : ∀ line ∈ lines, line.length + 1 ≤ lineSize ∧ '\n' ∉ line) :
    ∃ list left, readAll { text := listText lines rest, line := old } = (list, { text := left }) ∧
      list.length ≤ lines.length ∧
      (left = rest ∨ ∃ after, after <:+ lines ∧ left = listText after rest ∧
        list.length + after.length ≤ lines.length) := by
  induction lines generalizing old with
  | nil =>
    rw [listText_nil, readAll_blank]
    exact ⟨[], rest, rfl, le_rfl, Or.inl rfl⟩
  | cons line lines ih =>
    obtain ⟨⟨hlength, hline⟩, hlines⟩ := List.forall_mem_cons.mp hlines
    have hsuffix : lines <:+ line :: lines := List.suffix_cons ..
    rw [listText_cons]
    by_cases hne : line = []
    · rw [hne, List.nil_append, readAll_blank]
      exact ⟨[], _, rfl, by simp, Or.inr ⟨lines, List.suffix_cons .., rfl, by simp⟩⟩
    by_cases hcut : line.length + 1 = lineSize
    · rw [readAll_cut hcut hline]
      exact ⟨[line], _, rfl, by simp, Or.inr ⟨lines, hsuffix, rfl, by simp [Nat.add_comm]⟩⟩
    · obtain ⟨list, left, hread, hle, hleft⟩ := @ih line hlines
      rw [readAll_line (by omega) hne hline, hread]
      refine ⟨line :: list, left, rfl, by simpa using hle, hleft.imp_right ?_⟩
      rintro ⟨after, hafter, hleft, hcount⟩
      refine ⟨after, hafter.trans hsuffix, hleft, ?_⟩
      simp only [List.length_cons]
      omega

/-! ## What the buffer holds -/

theorem line_of_fgets {fp fp' : Input} (h : fgets fp = (true, fp')) : Line fp'.strip.line := by
  have hnil : fp.text ≠ [] := by
    intro hnil
    rw [fgets_of_nil hnil] at h
    cases h
  rw [fgets, if_neg hnil] at h
  by_cases hmem : '\n' ∈ fp.text.take (lineSize - 1)
  · obtain ⟨line, rest, htake, hline⟩ := List.eq_append_cons_of_mem hmem
    have htext : fp.text = line ++ '\n' :: (rest ++ fp.text.drop (lineSize - 1)) := by
      conv_lhs => rw [← List.take_append_drop (lineSize - 1) fp.text, htake]
      simp
    have hlength : line.length < lineSize - 1 := by
      have hle := fp.text.length_take_le (lineSize - 1)
      rw [htake, List.length_append, List.length_cons] at hle
      omega
    rw [htext, memchr_append hline hlength] at h
    obtain ⟨-, rfl⟩ := Prod.mk.inj h
    have hfirst : (line ++ '\n' :: (rest ++ fp.text.drop (lineSize - 1))).take (line.length + 1) =
        line ++ ['\n'] := by
      simp [List.take_append]
    rw [hfirst]
    refine ⟨?_, ?_⟩
    · show '\n' ∉ stripNewline (line ++ ['\n'])
      rwa [stripNewline_concat hline]
    · show (stripNewline (line ++ ['\n'])).length + 1 ≤ lineSize
      rw [stripNewline_concat hline]
      omega
  · rw [memchr_eq_none hmem] at h
    obtain ⟨-, rfl⟩ := Prod.mk.inj h
    refine ⟨?_, ?_⟩
    · show '\n' ∉ stripNewline (fp.text.take (lineSize - 1))
      rwa [stripNewline_of_notMem hmem]
    · show (stripNewline (fp.text.take (lineSize - 1))).length + 1 ≤ lineSize
      rw [stripNewline_of_notMem hmem, List.length_take, lineSize]
      omega

theorem line_readNext {fp : Input} (h : Line fp.line) : Line (readNext fp).line := by
  by_cases hnil : fp.text = []
  · rw [readNext, fgets_of_nil hnil]
    show Line (stripNewline fp.line)
    rwa [stripNewline_of_notMem h.1]
  · exact line_of_fgets (Prod.ext (fgets_of_ne_nil hnil).1 rfl)

theorem line_of_mem_readAll (fp : Input) : ∀ line ∈ (readAll fp).1, line ≠ [] ∧ Line line := by
  fun_induction readAll fp with
  | case1 => simp
  | case2 => simp
  | case3 fp fp' h _ hline lines fp'' hrest ih =>
    rw [hrest] at ih
    exact List.forall_mem_cons.mpr ⟨⟨hline, line_of_fgets h⟩, ih⟩

theorem line_readAll {fp : Input} (hfp : Line fp.line) : Line (readAll fp).2.line := by
  fun_induction readAll fp with
  | case1 fp fp' h => rwa [eq_of_fgets_false h]
  | case2 fp fp' h _ hline => exact line_of_fgets h
  | case3 fp fp' h _ hline lines fp'' hrest ih =>
    rw [hrest] at ih
    exact ih (line_of_fgets h)

/-- The paths that are read back: a path of as many characters as `fgets` reads ends the list,
because its newline is taken for the empty line, and a longer one is cut. -/
def Readable (files : List CString) : Prop :=
  (∀ file ∈ files, file.length + 1 ≤ lineSize) ∧
    ∀ file ∈ files.dropLast, file.length + 2 ≤ lineSize

instance (files : List CString) : Decidable (Readable files) :=
  inferInstanceAs (Decidable (_ ∧ _))

theorem readable_of_lt {files : List CString} (h : ∀ file ∈ files, file.length + 2 ≤ lineSize) :
    Readable files :=
  ⟨fun file hfile => Nat.le_of_succ_le (h file hfile),
    fun file hfile => h file (List.mem_of_mem_dropLast hfile)⟩

theorem readAll_of_readable {files : List CString} {rest old : CString} (hnil : files ≠ [])
    (h : Readable files) (hfiles : ∀ file ∈ files, file ≠ [] ∧ '\n' ∉ file) :
    ∃ left, readAll { text := listText files rest, line := old } = (files, { text := left }) ∧
      (left = rest ∨ left = '\n' :: rest) := by
  obtain ⟨front, last, rfl⟩ : ∃ front last, files = front ++ [last] :=
    ⟨_, _, (List.dropLast_append_getLast hnil).symm⟩
  obtain ⟨hlast, hfront⟩ := h
  rw [List.dropLast_concat] at hfront
  have hlines := fun file hfile => hfiles file (List.mem_append_left [last] hfile)
  obtain ⟨hne, hline⟩ := hfiles last (by simp)
  by_cases hcut : last.length + 1 = lineSize
  · exact ⟨'\n' :: rest, readAll_before hfront hlines hcut hline, Or.inr rfl⟩
  · refine ⟨rest, readAll_lines ?_ hfiles, Or.inl rfl⟩
    intro file hfile
    obtain hfile | hfile := List.mem_append.mp hfile
    · exact hfront file hfile
    · have hle := hlast last (by simp)
      rw [List.mem_singleton.mp hfile]
      omega

/-- A list with a path too long for the buffer before its end is cut off there. -/
theorem exists_cut {files : List CString} (hlength : ∀ file ∈ files, file.length + 1 ≤ lineSize)
    (h : ¬ Readable files) : ∃ front file after, files = front ++ file :: after ∧ after ≠ [] ∧
      (∀ file ∈ front, file.length + 2 ≤ lineSize) ∧ file.length + 1 = lineSize := by
  induction files with
  | nil => exact absurd ⟨by simp, by simp⟩ h
  | cons file files ih =>
    obtain ⟨hfile, hfiles⟩ := List.forall_mem_cons.mp hlength
    have hnil : files ≠ [] := by
      rintro rfl
      exact h ⟨hlength, by simp⟩
    by_cases hcut : file.length + 1 = lineSize
    · exact ⟨[], file, files, rfl, hnil, by simp, hcut⟩
    · have hrest : ¬ Readable files := fun hrest => h ⟨hlength, by
        rw [List.dropLast_cons_of_ne_nil hnil]
        exact List.forall_mem_cons.mpr ⟨by omega, hrest.2⟩⟩
      obtain ⟨front, cut, after, rfl, hafter, hfront, hcut⟩ := ih hfiles hrest
      exact ⟨file :: front, cut, after, rfl, hafter,
        List.forall_mem_cons.mpr ⟨by omega, hfront⟩, hcut⟩

end Alpm.LocalDb
