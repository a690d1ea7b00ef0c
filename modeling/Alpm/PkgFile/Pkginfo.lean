import Alpm.Syncdb

/-!
# The description in a package file

`parse_descfile` of `be_package.c`, which reads `.PKGINFO` line by line.  A line holds one key and
one value, so that a key of a list stands on a line for each element; a line that starts with `#` is
a comment, and an unknown key is only logged.

The lines come from `_alpm_archive_fgets`, and every line is used before the next call is made, so
the buffer may move without harm.  What is read depends on the content alone and not on the blocks
in which it comes (`parseDescfile_lines`), in contrast to a `desc` file of a sync database.

`parseDescfile_spec` says more than that for archives that break off: reading a description is
always defined, and its result is that of some lines.
-/

namespace Alpm.PkgFile

/-- A buffer as a C string. -/
def cString (text : CString) : CString := text.takeWhile (· ≠ '\x00')

/-- What `parse_descfile` does with the value of a key. -/
def pkginfoKeys : List (CString × (Pkg → CString → Pkg)) :=
  [(str "pkgname", fun newpkg ptr => { newpkg with name := ptr }),
    (str "pkgbase", fun newpkg ptr => { newpkg with base := some ptr }),
    (str "pkgver", fun newpkg ptr => { newpkg with version := ptr }),
    -- not used
    (str "basever", fun newpkg _ => newpkg),
    (str "pkgdesc", fun newpkg ptr => { newpkg with desc := some ptr }),
    (str "group", fun newpkg ptr => { newpkg with groups := newpkg.groups ++ [ptr] }),
    (str "url", fun newpkg ptr => { newpkg with url := some ptr }),
    (str "license", fun newpkg ptr => { newpkg with licenses := newpkg.licenses ++ [ptr] }),
    (str "builddate", fun newpkg ptr => { newpkg with builddate := parsedate ptr }),
    (str "packager", fun newpkg ptr => { newpkg with packager := some ptr }),
    (str "arch", fun newpkg ptr => { newpkg with arch := some ptr }),
    (str "size", fun newpkg ptr => { newpkg with isize := strtoofft ptr }),
    (str "depend", fun newpkg ptr =>
      { newpkg with depends := newpkg.depends ++ [depFromString ptr] }),
    (str "optdepend", fun newpkg ptr =>
      { newpkg with optdepends := newpkg.optdepends ++ [depFromString ptr] }),
    (str "makedepend", fun newpkg ptr =>
      { newpkg with makedepends := newpkg.makedepends ++ [depFromString ptr] }),
    (str "checkdepend", fun newpkg ptr =>
      { newpkg with checkdepends := newpkg.checkdepends ++ [depFromString ptr] }),
    (str "conflict", fun newpkg ptr =>
      { newpkg with conflicts := newpkg.conflicts ++ [depFromString ptr] }),
    (str "replaces", fun newpkg ptr =>
      { newpkg with replaces := newpkg.replaces ++ [depFromString ptr] }),
    (str "provides", fun newpkg ptr =>
      { newpkg with provides := newpkg.provides ++ [depFromString ptr] }),
    (str "backup", fun newpkg ptr =>
      { newpkg with backup := newpkg.backup ++ [{ name := ptr, hash := none }] }),
    -- deprecated, skipped
    (str "force", fun newpkg _ => newpkg),
    -- not used
    (str "makepkgopt", fun newpkg _ => newpkg)]

/-- What follows the tests for a syntax error; an unknown key is only logged. -/
def storeKey (newpkg : Pkg) (key ptr : CString) : Pkg :=
  match pkginfoKeys.find? fun entry => strcmp key entry.1 = 0 with
  | some (_, store) => store newpkg ptr
  | none => newpkg

/-- The key and the value of a line, unless there is a syntax error in it. -/
def splitKey (line : CString) : Option (CString × CString) :=
  match memchr line ' ' line.length with
  | none => none
  | some ptr =>
    if ptr + 2 > line.length ∨ (line.drop ptr).take 3 ≠ str " = " then none
    else some (cString (line.take ptr), cString (line.drop (ptr + 3)))

/-- The loop body of `parse_descfile`.  The length of a line that begins with a NUL is zero. -/
def parseLine (newpkg : Pkg) (line : CString) : Pkg :=
  if deref line = '\x00' ∨ deref line = '#' then newpkg
  else
    match splitKey line with
    | none => newpkg
    | some (key, ptr) => storeKey newpkg key ptr

/-- `parse_descfile`: a read of freed memory, or the return value and the package. -/
def parseDescfile (s : Reading) (newpkg : Pkg) : Option (Int × Pkg) :=
  match h : nextLine s with
  | .undefined => none
  | .stopped ret => some (if ret ≠ .eof then -1 else 0, newpkg)
  | .line s' =>
    match s'.text s'.buf.line with
    | none => none
    | some line =>
      have := nextLine_todo h
      parseDescfile s' (parseLine newpkg line)
  termination_by s.todo

/-! ## Every line is read where it was written -/

theorem newline_notMem_eol {s : Reading} :
    '\n' ∉ s.buf.block.take (s.eol.getD s.buf.block.length) := by
  unfold Reading.eol
  cases hnewline : memchr s.buf.block '\n' s.buf.block.length with
  | some n =>
    rw [memchr, List.take_length] at hnewline
    obtain ⟨hn, -, hbefore⟩ := List.findIdx?_eq_some_iff_getElem.mp hnewline
    intro hmem
    obtain ⟨i, hi, hget⟩ := List.getElem_of_mem hmem
    rw [List.length_take] at hi
    rw [List.getElem_take] at hget
    exact hbefore i (by simp at hi; omega) (by simp [hget])
  | none =>
    rw [memchr, List.take_length, List.findIdx?_eq_none_iff] at hnewline
    intro hmem
    have hne := hnewline _ (List.mem_of_mem_take hmem)
    simp at hne

theorem growLine_ptr {s s' : Reading} {lineOffset new : ℕ}
    (h : s.growLine lineOffset new = .ok s') : s'.buf.line ≠ none := by
  unfold Reading.growLine at h
  cases hline : s.buf.line with
  | none =>
    rw [hline] at h
    obtain rfl := Except.ok.inj h
    simp [Reading.callocLine]
  | some line =>
    rw [hline] at h
    dsimp only at h
    split_ifs at h
    · obtain rfl := Except.ok.inj h
      simp [Reading.free, Reading.callocLine]
    · obtain rfl := Except.ok.inj h
      simp [hline]

theorem fgetsPass_spec {s : Reading} {line : CString} (hline : '\n' ∉ line) :
    (∀ s', s.fgetsPass line = .inl (.ok, s') →
      ∃ line, s'.text s'.buf.line = some line ∧ '\n' ∉ line) ∧
    ∀ s' line', s.fgetsPass line = .inr (s', line') → '\n' ∉ line' := by
  unfold Reading.fgetsPass
  split
  next s₁ hnext => 
    refine ⟨fun s' h => ?_, fun _ _ h => by cases h⟩
    exact absurd (Prod.mk.inj (Sum.inl.inj h)).1 (Reading.nextBlock_error hnext)
  next s₁ hnext =>
    dsimp only
    split
    next s₂ hgrow =>
      refine ⟨fun s' h => ?_, fun _ _ h => by cases h⟩
      exact absurd (Prod.mk.inj (Sum.inl.inj h)).1 (Reading.growLine_error hgrow)
    next s₂ hgrow =>
      have hblock := (Reading.growLine_frame hgrow).1
      have hlonger : '\n' ∉ line ++ s₂.buf.block.take (s₁.eol.getD s₁.buf.block.length) := by
        rw [hblock]
        exact fun hmem => (List.mem_append.mp hmem).elim hline newline_notMem_eol
      obtain ⟨a, ha⟩ := Option.ne_none_iff_exists'.mp (growLine_ptr hgrow)
      simp only [ha, Reading.write, Reading.text]
      split
      next eol heol =>
        refine ⟨fun s' h => ?_, fun _ _ h => by cases h⟩
        obtain ⟨-, rfl⟩ := Prod.mk.inj (Sum.inl.inj h)
        exact ⟨_, by simp, hlonger⟩
      next heol =>
        split_ifs with hempty
        · refine ⟨fun s' h => ?_, fun _ _ h => by cases h⟩
          obtain ⟨-, rfl⟩ := Prod.mk.inj (Sum.inl.inj h)
          exact ⟨_, by simp, hlonger⟩
        · refine ⟨fun s' h => (by cases h), fun s' line' h => ?_⟩
          obtain ⟨-, rfl⟩ := Prod.mk.inj (Sum.inr.inj h)
          exact hlonger

/-- A line that is returned is in the buffer, and ends before its newline. -/
theorem archiveFgets_ok {s s' : Reading} (h : archiveFgets s = (.ok, s')) :
    ∃ line, s'.text s'.buf.line = some line ∧ '\n' ∉ line := by
  have hloop : ∀ s line, '\n' ∉ line → archiveFgetsLoop s line = (.ok, s') →
      ∃ line, s'.text s'.buf.line = some line ∧ '\n' ∉ line := by
    intro s line
    induction s, line using archiveFgetsLoop.induct with
    | case1 s line result hpass =>
      intro hline h
      rw [archiveFgetsLoop_inl hpass] at h
      exact (fgetsPass_spec hline).1 s' (h ▸ hpass)
    | case2 s line s₁ line₁ hpass hlt ih =>
      intro hline h
      rw [archiveFgetsLoop_inr hpass] at h
      exact ih ((fgetsPass_spec hline).2 s₁ line₁ hpass) h
  exact hloop s [] List.not_mem_nil h

theorem nextLine_cases (s : Reading) :
    (∃ ret ≠ .ok, nextLine s = .stopped ret) ∨
      ∃ s' line, nextLine s = .line s' ∧ s'.text s'.buf.line = some line ∧ '\n' ∉ line := by
  cases hret : (archiveFgets s).1 with
  | ok =>
    have hok : archiveFgets s = (.ok, (archiveFgets s).2) := Prod.ext hret rfl
    obtain ⟨line, htext, hline⟩ := archiveFgets_ok hok
    obtain ⟨a, ha, -⟩ := Option.bind_eq_some_iff.mp htext
    refine Or.inr ⟨(archiveFgets s).2.write (archiveFgets s).2.buf.line line, line, ?_, ?_, hline⟩
    · rw [nextLine, hok]
      simp only [htext, stripNewline_of_notMem hline]
    · simp [Reading.text, Reading.write, ha]
  | eof => exact Or.inl ⟨.eof, by decide, nextLine_of_stopped hret (by decide)⟩
  | fatal => exact Or.inl ⟨.fatal, by decide, nextLine_of_stopped hret (by decide)⟩
  | erange => exact Or.inl ⟨.erange, by decide, nextLine_of_stopped hret (by decide)⟩

theorem parseDescfile_stopped {s : Reading} {ret : ArchiveRet} (h : nextLine s = .stopped ret)
    (newpkg : Pkg) : parseDescfile s newpkg = some (if ret ≠ .eof then -1 else 0, newpkg) := by
  rw [parseDescfile]
  split
  next h' => cases h'.symm.trans h
  next h' =>
    obtain rfl := NextLine.stopped.inj (h'.symm.trans h)
    rfl
  next h' => cases h'.symm.trans h

theorem parseDescfile_line {s s' : Reading} {line : CString} (h : nextLine s = .line s')
    (htext : s'.text s'.buf.line = some line) (newpkg : Pkg) :
    parseDescfile s newpkg = parseDescfile s' (parseLine newpkg line) := by
  rw [parseDescfile]
  split
  next h' => cases h'.symm.trans h
  next h' => cases h'.symm.trans h
  next h' =>
    obtain rfl := NextLine.line.inj (h'.symm.trans h)
    simp only [htext]

/-- **Reading a description** is always defined, and its result is that of some lines, whether the
archive breaks off or not.  A line is read where it was written, because nothing moves the buffer
between the call that returns it and its use. -/
theorem parseDescfile_spec (s : Reading) (newpkg : Pkg) :
    ∃ (ret : Int) (lines : List CString),
      parseDescfile s newpkg = some (ret, lines.foldl parseLine newpkg) ∧
        ∀ line ∈ lines, '\n' ∉ line := by
  induction htodo : s.todo using Nat.strong_induction_on generalizing s newpkg with
  | _ n ih =>
  rcases nextLine_cases s with ⟨ret, -, hstop⟩ | ⟨s', line, hnext, htext, hline⟩
  · exact ⟨_, [], parseDescfile_stopped hstop newpkg, by simp⟩
  · obtain ⟨ret, lines, hparse, hlines⟩ :=
      ih s'.todo (htodo ▸ nextLine_todo hnext) s' (parseLine newpkg line) rfl
    refine ⟨ret, line :: lines, ?_, List.forall_mem_cons.mpr ⟨hline, hlines⟩⟩
    rw [parseDescfile_line hnext htext, hparse, List.foldl_cons]

/-! ## The blocks do not matter -/

theorem At.parseDescfile {s : Reading} {line : CString} {lines : List CString} {room : ℕ}
    (h : At s line lines room) (newpkg : Pkg) :
    parseDescfile s newpkg = some (0, lines.foldl parseLine newpkg) ∨
      (∃ newpkg', parseDescfile s newpkg = some (-1, newpkg')) ∧
        ∃ line ∈ lines, TooLong line := by
  induction lines generalizing s line room newpkg with
  | nil => exact Or.inl (parseDescfile_stopped h.nextLine_nil newpkg)
  | cons p ps ih =>
    have hnext := h.nextLine
    split_ifs at hnext with hp
    · exact Or.inr ⟨⟨newpkg, parseDescfile_stopped hnext newpkg⟩, p, List.mem_cons_self, hp⟩
    · obtain ⟨s', hnext, hat, -, -⟩ := hnext
      rw [parseDescfile_line hnext hat.atLine.text_line]
      refine (ih hat (parseLine newpkg p)).imp_right fun ⟨herror, line, hline, hlong⟩ => ?_
      exact ⟨herror, line, List.mem_cons_of_mem p hline, hlong⟩

/-- A description is read as its lines, or there is a line that is too long. -/
theorem parseDescfile_start {content : CString} {blocks : List CString}
    (hcuts : Cuts content blocks) (hnul : '\x00' ∉ content) (newpkg : Pkg) :
    parseDescfile (.start maxLineSize blocks) newpkg =
        some (0, (content.splitOn '\n').foldl parseLine newpkg) ∨
      (∃ newpkg', parseDescfile (.start maxLineSize blocks) newpkg = some (-1, newpkg')) ∧
        ∃ line ∈ content.splitOn '\n', TooLong line := by
  obtain ⟨rfl, hblocks⟩ := hcuts
  obtain ⟨p, ps, hlines⟩ : ∃ p ps, blocks.flatten.splitOn '\n' = p :: ps :=
    List.exists_cons_of_ne_nil (List.splitOn_ne_nil _ _)
  have hlimit : 0 < maxLineSize := by decide
  have hfgets := Reading.fgets_start hlimit hblocks hnul hlines
  rw [hlines]
  split_ifs at hfgets with hfits
  · obtain ⟨s', hfgets, hat, -⟩ := hfgets
    have hnewline : '\n' ∉ p := Reading.newline_notMem_line (hlines ▸ List.mem_cons_self)
    rw [parseDescfile_line (nextLine_of_fgets hfgets hat hnewline) hat.text_line]
    have hrest := At.parseDescfile ⟨hat, rfl⟩ (parseLine newpkg p)
    refine hrest.imp_right fun ⟨herror, line, hline, hlong⟩ => ?_
    exact ⟨herror, line, List.mem_cons_of_mem p hline, hlong⟩
  · have hlong : TooLong p := by
      rw [not_or] at hfits
      exact Nat.lt_succ_of_le (not_lt.mp hfits.2)
    exact Or.inr ⟨⟨newpkg, parseDescfile_stopped (nextLine_of_stopped hfgets (by decide)) newpkg⟩,
      p, List.mem_cons_self, hlong⟩

/-- A description with lines that are not too long is read as its lines, however the archive
delivers it. -/
theorem parseDescfile_lines {content : CString} {blocks : List CString}
    (hcuts : Cuts content blocks) (hnul : '\x00' ∉ content)
    (hfit : ∀ line ∈ content.splitOn '\n', ¬TooLong line) (newpkg : Pkg) :
    parseDescfile (.start maxLineSize blocks) newpkg =
      some (0, (content.splitOn '\n').foldl parseLine newpkg) :=
  (parseDescfile_start hcuts hnul newpkg).resolve_right fun ⟨_, line, hline, hlong⟩ =>
    hfit line hline hlong

end Alpm.PkgFile
