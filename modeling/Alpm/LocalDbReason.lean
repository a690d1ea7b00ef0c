import Alpm.LocalDbDesc

/-!
# Setting the install reason

`alpm_pkg_set_reason` of `be_local.c`, which reads the `desc` file of a package if that is not done
yet, changes the reason in the record and writes the whole file from the record.  Every call that
reads or writes the file may fail, and a failing `fgets` or a full disk may come at any point;
`Outcome` says what the calls come to.

## 1.  What can go wrong

Whether the file was read is not looked at: where it could not be, the record has the reason `0`,
which is that of a package that was installed explicitly, and if that is the reason to be set
nothing is written and the call succeeds.  A record of which a part was read is written back as the
whole file.  And the record is changed before the file is, so a call that cannot open the file to
write it fails with the reason changed.

## 2.  When the call is atomic

`Atomic` is what the documentation promises: if the call fails the cached reason and the file are as
before, and if it does not the file gives the new reason and the other fields as before.  `Kept` is
the condition for it, on what the calls come to, the text of the file and the record before the
call: `known` are the fields that the call has when it compares the reasons, and it computes them
from these.  `pkgSetReason_atomic_iff` says that the condition is enough, and that it is necessary
where no call that writes the file fails.

## 3.  Reading what is written

The text that is written gives the record back if and only if no list in it is cut and the fields
are ones that are written (`readDesc_writeDesc_iff`), which is the round trip of
`Alpm.LocalDbRoundTrip` with its converse from `Alpm.LocalDbDesc`.
-/

namespace Alpm.LocalDb

/-! ## Reading up to an error -/

/-- `READ_AND_STORE_ALL` where `fgets` fails after `n` calls: the lines, and what is left of the
calls and of the stream, unless it came to that. -/
def readAllN : ℕ → Input → List CString × Option (ℕ × Input)
  | 0, _ => ([], none)
  | n + 1, fp =>
    if (fgets fp).1 = false then ([], some (n, (fgets fp).2))
    else if (readNext fp).line = [] then ([], some (n, readNext fp))
    else ((readNext fp).line :: (readAllN n (readNext fp)).1, (readAllN n (readNext fp)).2)

/-- What is read after a heading. -/
def readSectionN (n : ℕ) (sec : DescSection) (fp : Input) (pkg : Pkg) :
    Pkg × Option (ℕ × Input) :=
  match sec, n with
  | .check, 0 => (pkg, none)
  | .check, n + 1 => (pkg, some (n, readNext fp))
  | .store _, 0 => (pkg, none)
  | .store f, n + 1 => (f pkg (readNext fp).line, some (n, readNext fp))
  | .storeAll f, n =>
    match (readAllN n fp).2 with
    -- the words of `%VALIDATION%` are in a list of their own until they are all read
    | none => (if strcmp fp.line (str "%VALIDATION%") = 0 then pkg
        else f pkg (readAllN n fp).1, none)
    | some next => (f pkg (readAllN n fp).1, some next)

theorem readAll_of_false {fp : Input} (h : (fgets fp).1 = false) :
    readAll fp = ([], (fgets fp).2) := by
  have hfgets : fgets fp = (false, (fgets fp).2) := Prod.ext h rfl
  rw [readAll]
  split
  next h' => rw [h']
  next h' => cases hfgets.symm.trans h'

theorem readAll_of_true {fp : Input} (h : ¬ (fgets fp).1 = false) :
    readAll fp = if (readNext fp).line = [] then ([], readNext fp)
      else ((readNext fp).line :: (readAll (readNext fp)).1, (readAll (readNext fp)).2) :=
  readAll_of_fgets (Prod.ext (by simpa using h) rfl)

/-- The part of a list that was read before an error. -/
theorem readAllN_prefix (n : ℕ) (fp : Input) : (readAllN n fp).1 <+: (readAll fp).1 := by
  induction n generalizing fp with
  | zero => exact List.nil_prefix
  | succ n ih =>
    unfold readAllN
    split_ifs with hget hline
    · exact List.nil_prefix
    · exact List.nil_prefix
    · rw [readAll_of_true hget, if_neg hline]
      exact (List.prefix_cons_inj _).mpr (ih (readNext fp))

theorem readAllN_eq_some {n m : ℕ} {fp fp' : Input} (h : (readAllN n fp).2 = some (m, fp')) :
    m ≤ n ∧ readAll fp = ((readAllN n fp).1, fp') := by
  induction n generalizing fp with
  | zero => cases h
  | succ n ih =>
    unfold readAllN at h ⊢
    split_ifs at h ⊢ with hget hline
    · obtain ⟨rfl, rfl⟩ := Prod.mk.inj (Option.some.inj h)
      exact ⟨Nat.le_succ _, readAll_of_false hget⟩
    · obtain ⟨rfl, rfl⟩ := Prod.mk.inj (Option.some.inj h)
      rw [readAll_of_true hget, if_pos hline]
      exact ⟨Nat.le_succ _, rfl⟩
    · obtain ⟨hle, hread⟩ := ih h
      rw [readAll_of_true hget, if_neg hline, hread]
      exact ⟨hle.trans (Nat.le_succ _), rfl⟩

theorem readSectionN_eq_some {n m : ℕ} {sec : DescSection} {fp fp' : Input} {pkg pkg' : Pkg}
    (h : readSectionN n sec fp pkg = (pkg', some (m, fp'))) :
    m ≤ n ∧ readSection sec fp pkg = (fp', pkg') := by
  cases sec with
  | check =>
    cases n with
    | zero => cases h
    | succ n =>
      cases h
      exact ⟨Nat.le_succ _, rfl⟩
  | store f =>
    cases n with
    | zero => cases h
    | succ n =>
      cases h
      exact ⟨Nat.le_succ _, rfl⟩
  | storeAll f =>
    unfold readSectionN at h
    dsimp only at h
    split at h
    · cases h
    next next hnext =>
      cases h
      obtain ⟨hle, hread⟩ := readAllN_eq_some hnext
      refine ⟨hle, ?_⟩
      rw [readSection, hread]

theorem readSectionN_eq_none {n : ℕ} {sec : DescSection} {fp : Input} {pkg pkg' : Pkg}
    (h : readSectionN n sec fp pkg = (pkg', none)) :
    pkg' = pkg ∨ ∃ f lines, sec = .storeAll f ∧ lines <+: (readAll fp).1 ∧ pkg' = f pkg lines := by
  cases sec with
  | check =>
    cases n with
    | zero =>
      cases h
      exact Or.inl rfl
    | succ n => cases h
  | store f =>
    cases n with
    | zero =>
      cases h
      exact Or.inl rfl
    | succ n => cases h
  | storeAll f =>
    unfold readSectionN at h
    dsimp only at h
    split at h
    · obtain ⟨rfl, -⟩ := Prod.mk.inj h
      split_ifs
      · exact Or.inl rfl
      · exact Or.inr ⟨f, _, rfl, readAllN_prefix n fp, rfl⟩
    · cases h

/-- The loop over the `desc` file, where `fgets` fails after `n` calls: whether the end was reached
before, and the record. -/
def readDescN (n : ℕ) (fp : Input) (pkg : Pkg) : Bool × Pkg :=
  if fp.eof then (true, pkg)
  else
    match n with
    | 0 => (false, pkg)
    | n + 1 =>
      if (readNext fp).line = [] then readDescN n (readNext fp) pkg
      else
        match sectionOf (readNext fp).line with
        | none => readDescN n (readNext fp) pkg
        | some sec =>
          match h : readSectionN n sec (readNext fp) pkg with
          | (pkg, none) => (false, pkg)
          | (pkg, some (m, fp)) =>
            have := (readSectionN_eq_some h).1
            readDescN m fp pkg
  termination_by n

theorem readDesc_eof {fp : Input} (h : fp.eof = true) (pkg : Pkg) : readDesc fp pkg = pkg := by
  rw [readDesc]
  exact dif_pos h

/-- A loop that reaches the end has read the file. -/
theorem readDescN_true {n : ℕ} {fp : Input} {pkg : Pkg} (h : (readDescN n fp pkg).1 = true) :
    (readDescN n fp pkg).2 = readDesc fp pkg := by
  fun_induction readDescN n fp pkg with
  | case1 n fp pkg heof => exact (readDesc_eof heof pkg).symm
  | case2 => cases h
  | case3 fp pkg heof n hline ih =>
    rw [readDesc_of_not_eof (by simpa using heof), if_pos hline]
    exact ih h
  | case4 fp pkg heof n hline hsec ih =>
    rw [readDesc_of_not_eof (by simpa using heof), if_neg hline, hsec]
    exact ih h
  | case5 => cases h
  | case6 fp pkg heof n hline sec hsec pkg' m fp' hread hle ih =>
    rw [readDesc_of_not_eof (by simpa using heof), if_neg hline, hsec]
    simp only [(readSectionN_eq_some hread).2]
    exact ih h

theorem readDescN_keeps {P : Pkg → Prop}
    (hkeeps : ∀ line sec, sectionOf line = some sec → sec.Keeps P) {n : ℕ} {fp : Input} {pkg : Pkg}
    (hfp : Line fp.line) (hpkg : P pkg) : P (readDescN n fp pkg).2 := by
  fun_induction readDescN n fp pkg with
  | case1 => exact hpkg
  | case2 => exact hpkg
  | case3 fp pkg heof n hline ih => exact ih (line_readNext hfp) hpkg
  | case4 fp pkg heof n hline hsec ih => exact ih (line_readNext hfp) hpkg
  | case5 fp pkg heof n hline sec hsec pkg' hread =>
    rcases readSectionN_eq_none hread with rfl | ⟨f, lines, rfl, hpart, rfl⟩
    · exact hpkg
    · exact hkeeps _ _ hsec pkg lines hpkg fun line hline =>
        line_of_mem_readAll _ line (hpart.subset hline)
  | case6 fp pkg heof n hline sec hsec pkg' m fp' hread hle ih =>
    have hnext := line_readNext hfp
    have hfp' := line_readSection hnext sec pkg
    have hpkg' := (hkeeps _ sec hsec).readSection hnext hpkg
    rw [(readSectionN_eq_some hread).2] at hfp' hpkg'
    exact ih hfp' hpkg'

/-- What was read before an error has no more elements than the file. -/
theorem weight_readDescN_le {n : ℕ} {fp : Input} (hfp : Line fp.line) (pkg : Pkg) :
    weight (readDescN n fp pkg).2 ≤ weight (readDesc fp pkg) := by
  fun_induction readDescN n fp pkg with
  | case1 => exact weight_readDesc hfp _
  | case2 => exact weight_readDesc hfp _
  | case3 fp pkg heof n hline ih =>
    rw [readDesc_of_not_eof (by simpa using heof), if_pos hline]
    exact ih (line_readNext hfp)
  | case4 fp pkg heof n hline hsec ih =>
    rw [readDesc_of_not_eof (by simpa using heof), if_neg hline, hsec]
    exact ih (line_readNext hfp)
  | case5 fp pkg heof n hline sec hsec pkg' hread =>
    rw [readDesc_of_not_eof (by simpa using heof), if_neg hline, hsec]
    have hnext := line_readNext hfp
    refine le_trans ?_ (weight_readDesc (line_readSection hnext sec pkg) _)
    have hweighted := weighted_of_sectionOf hsec
    rcases readSectionN_eq_none hread with rfl | ⟨f, lines, rfl, hpart, rfl⟩
    · exact (hweighted.keeps _).readSection hnext le_rfl
    · obtain ⟨c, -, hf⟩ := hweighted
      rw [readSection, hf, hf]
      exact Nat.add_le_add_left (Nat.mul_le_mul_left c hpart.length_le) _
  | case6 fp pkg heof n hline sec hsec pkg' m fp' hread hle ih =>
    rw [readDesc_of_not_eof (by simpa using heof), if_neg hline, hsec]
    have hfp' := line_readSection (line_readNext hfp) sec pkg
    simp only [(readSectionN_eq_some hread).2] at hfp' ⊢
    exact ih hfp'

/-! ## The fields of the `desc` file -/

/-- The fields that `local_db_read` fills in from the `desc` file, and the name and the version. -/
def descPart (info : Pkg) : Pkg where
  name := info.name
  version := info.version
  base := info.base
  desc := info.desc
  url := info.url
  packager := info.packager
  arch := info.arch
  builddate := info.builddate
  installdate := info.installdate
  isize := info.isize
  licenses := info.licenses
  groups := info.groups
  replaces := info.replaces
  depends := info.depends
  optdepends := info.optdepends
  makedepends := info.makedepends
  checkdepends := info.checkdepends
  conflicts := info.conflicts
  provides := info.provides
  reason := info.reason
  validation := info.validation

/-- A section fills in fields of the `desc` file from what they were before. -/
def DescSection.OfDescPart : DescSection → Prop
  | .check => True
  | .store f => ∀ pkg line, descPart (f pkg line) = f (descPart pkg) line
  | .storeAll f => ∀ pkg lines, descPart (f pkg lines) = f (descPart pkg) lines

theorem ofDescPart_of_sectionOf {line : CString} {sec : DescSection}
    (h : sectionOf line = some sec) : sec.OfDescPart := by
  have hall : ∀ heading ∈ descSections, heading.2.OfDescPart := by
    simp only [descSections, List.forall_mem_cons]
    refine ⟨trivial, trivial, ?_⟩
    repeat' apply And.intro
    all_goals first | exact fun _ _ => rfl | simp
  exact hall _ (mem_of_sectionOf h)

theorem readSection_descPart {sec : DescSection} (h : sec.OfDescPart) (fp : Input) (pkg : Pkg) :
    readSection sec fp (descPart pkg) =
      ((readSection sec fp pkg).1, descPart (readSection sec fp pkg).2) := by
  cases sec with
  | check => rfl
  | store f => exact Prod.ext rfl (h pkg _).symm
  | storeAll f => exact Prod.ext rfl (h pkg _).symm

theorem readDesc_descPart (fp : Input) (pkg : Pkg) :
    readDesc fp (descPart pkg) = descPart (readDesc fp pkg) := by
  fun_induction readDesc fp pkg with
  | case1 fp pkg heof => exact readDesc_eof heof _
  | case2 fp pkg heof hlt hline ih =>
    rw [readDesc_of_not_eof (by simpa using heof), if_pos hline]
    exact ih
  | case3 fp pkg heof hlt hline hsec ih =>
    rw [readDesc_of_not_eof (by simpa using heof), if_neg hline, hsec]
    exact ih
  | case4 fp pkg heof hlt hline sec hsec _ ih =>
    rw [readDesc_of_not_eof (by simpa using heof), if_neg hline, hsec]
    simp only [readSection_descPart (ofDescPart_of_sectionOf hsec)]
    exact ih

theorem readSectionN_descPart {sec : DescSection} (h : sec.OfDescPart) (n : ℕ) (fp : Input)
    (pkg : Pkg) :
    readSectionN n sec fp (descPart pkg) =
      (descPart (readSectionN n sec fp pkg).1, (readSectionN n sec fp pkg).2) := by
  cases sec with
  | check => cases n <;> rfl
  | store f =>
    cases n with
    | zero => rfl
    | succ n => exact Prod.ext (h pkg _).symm rfl
  | storeAll f =>
    unfold readSectionN
    dsimp only
    split
    · split_ifs
      · rfl
      · exact Prod.ext (h pkg _).symm rfl
    · exact Prod.ext (h pkg _).symm rfl

theorem readDescN_descPart (n : ℕ) (fp : Input) (pkg : Pkg) :
    readDescN n fp (descPart pkg) =
      ((readDescN n fp pkg).1, descPart (readDescN n fp pkg).2) := by
  fun_induction readDescN n fp pkg with
  | case1 n fp pkg heof =>
    rw [readDescN.eq_def]
    exact if_pos heof
  | case2 fp pkg heof =>
    rw [readDescN]
    exact if_neg heof
  | case3 fp pkg heof n hline ih =>
    rw [readDescN, if_neg heof]
    exact (if_pos hline).trans ih
  | case4 fp pkg heof n hline hsec ih =>
    rw [readDescN, if_neg heof]
    simp only [if_neg hline, hsec]
    exact ih
  | case5 fp pkg heof n hline sec hsec pkg' hread =>
    have hpart := readSectionN_descPart (ofDescPart_of_sectionOf hsec) n (readNext fp) pkg
    rw [hread] at hpart
    rw [readDescN, if_neg heof]
    simp only [if_neg hline, hsec]
    split
    next h =>
      cases hpart.symm.trans h
      rfl
    next h => cases hpart.symm.trans h
  | case6 fp pkg heof n hline sec hsec pkg' m fp' hread hle ih =>
    have hpart := readSectionN_descPart (ofDescPart_of_sectionOf hsec) n (readNext fp) pkg
    rw [hread] at hpart
    rw [readDescN, if_neg heof]
    simp only [if_neg hline, hsec]
    split
    next h => cases hpart.symm.trans h
    next h =>
      cases hpart.symm.trans h
      exact ih

/-- The record of a package of which nothing is read yet. -/
def bare (info : Pkg) : Pkg where
  name := info.name
  version := info.version

/-- The fields of the `desc` file that is written: the dependencies that are needed to make and to
check the package are left out, and a size below zero is read back as an error. -/
def written (info : Pkg) : Pkg :=
  { descPart info with
    makedepends := []
    checkdepends := []
    isize := storedSize info.isize }

theorem descLists_descPart (info : Pkg) : descLists (descPart info) = descLists info := rfl

theorem written_descPart (info : Pkg) : written (descPart info) = written info := rfl

theorem writeDesc_descPart (info : Pkg) (reason : PkgReason) :
    writeDesc { descPart info with reason } = writeDesc { info with reason } := rfl

/-- The text that is written gives the record `stored` just if no list is cut and the fields that
are written are its fields. -/
theorem readDesc_writeDesc_iff {info stored : Pkg} (h : Legible info) (hname : Line info.name)
    (hversion : Line info.version) (hweight : weight info ≤ weight stored) :
    readDesc { text := writeDesc info } (bare info) = stored ↔
      (∀ list ∈ descLists info, Readable list) ∧ written info = stored := by
  constructor
  · intro hread
    have hlists : ∀ list ∈ descLists info, Readable list := by
      by_contra hlists
      have hlt := weight_readDesc_writeDesc_lt h hname hversion hlists (bare info)
      have hbare : weight (bare info) = 0 := rfl
      rw [hread] at hlt
      omega
    have hback := ((h.descWritable hname hversion hlists).reads_writeDesc 0).readDesc
    exact ⟨hlists, hback.symm.trans hread⟩
  · rintro ⟨hlists, rfl⟩
    exact ((h.descWritable hname hversion hlists).reads_writeDesc 0).readDesc

/-! ## The functions -/

/-- What the calls that read and write the file come to. -/
structure Outcome where
  /-- `fopen` opens the file to read it. -/
  readOpen : Bool := true
  /-- The number of calls of `fgets` before one that fails, if there is one. -/
  reads : Option ℕ := none
  /-- `fopen` opens the file to write it. -/
  writeOpen : Bool := true
  /-- What is in the file in the end, if a call that writes it fails. -/
  left : Option CString := none

/-- The part of `local_db_read` for the `desc` file: whether it is read, and the record. -/
def readDescFile (io : Outcome) (text : CString) (info : Pkg) : Bool × Pkg :=
  if io.readOpen = false then (false, info)
  else
    match io.reads with
    | none => (true, readDesc { text } info)
    | some n => readDescN n { text } info

/-- `local_db_read` of the `desc` file. -/
def localDbReadDesc (io : Outcome) (text : CString) (info : Pkg) : Int × Pkg :=
  if info.infolevel &&& infrqDesc = infrqDesc then (0, info)
  else if info.infolevel &&& infrqError ≠ 0 then (-1, info)
  else
    match readDescFile io text info with
    | (true, info) => (0, { info with infolevel := info.infolevel ||| infrqDesc })
    | (false, info) => (-1, { info with infolevel := info.infolevel ||| infrqError })

/-- `_cache_get_reason`, with the package afterwards. -/
def cacheGetReason (io : Outcome) (text : CString) (pkg : Pkg) : PkgReason × Pkg :=
  let pkg := if pkg.infolevel &&& infrqDesc = 0 then (localDbReadDesc io text pkg).2 else pkg
  (pkg.reason, pkg)

/-- `alpm_pkg_get_reason`, with the package afterwards. -/
def pkgGetReason (io : Outcome) (text : CString) (pkg : Pkg) : PkgReason × Pkg :=
  if pkg.origin = .localdb then cacheGetReason io text pkg else (pkg.reason, pkg)

/-- `_alpm_local_db_write` of the `desc` file, with the text of the file afterwards.  What
`fprintf`, `fputs` and `fclose` return is not looked at. -/
def localDbWriteDesc (io : Outcome) (text : CString) (info : Pkg) : Int × CString :=
  if io.writeOpen = false then (-1, text) else (0, io.left.getD (writeDesc info))

/-- `alpm_pkg_set_reason`, with the package and the text of its `desc` file afterwards.  A package
of the local database belongs to that of its handle. -/
def pkgSetReason (io : Outcome) (text : CString) (pkg : Pkg) (reason : PkgReason) :
    Int × Pkg × CString :=
  if pkg.origin ≠ .localdb then (-1, pkg, text)
  else
    let (oldReason, pkg) := pkgGetReason io text pkg
    if oldReason = reason then
      -- we are done
      (0, pkg, text)
    else
      -- set reason (in pkgcache)
      let pkg := { pkg with reason }
      -- write DESC
      let (ret, text) := localDbWriteDesc io text pkg
      if ret ≠ 0 then (-1, pkg, text) else (0, pkg, text)

theorem and_infrqDesc (level : ℕ) : level &&& infrqDesc = 0 ∨ level &&& infrqDesc = infrqDesc := by
  have hbit : level &&& infrqDesc = (level.testBit 1).toNat * infrqDesc := Nat.and_two_pow level 1
  rw [hbit]
  cases level.testBit 1
  · exact Or.inl (Nat.zero_mul _)
  · exact Or.inr (Nat.one_mul _)

/-- With calls that do not fail this is what `localDbRead` does. -/
theorem localDbReadDesc_eq_localDbRead (text : CString) (info : Pkg) :
    localDbReadDesc {} text info = localDbRead { desc := some text } info infrqDesc := by
  unfold localDbReadDesc localDbRead
  split_ifs with hdone herror
  · rfl
  · rfl
  · have hlevel := (and_infrqDesc info.infolevel).resolve_right hdone
    have hload : (loadFile infrqDesc infrqDesc (some text) readDesc info >>=
        loadFile infrqDesc infrqFiles none readFiles) =
          .ok { readDesc { text } info with
            infolevel := (readDesc { text } info).infolevel ||| infrqDesc } := by
      rw [loadFile_some (by decide) hlevel]
      show loadFile infrqDesc infrqFiles none readFiles _ = _
      rw [loadFile, if_neg]
      rintro ⟨hreq, -⟩
      exact hreq (by decide)
    simp only [hload]
    show _ = if infrqDesc &&& infrqScriptlet ≠ 0 ∧ _ then _ else _
    rw [if_neg]
    · rfl
    · rintro ⟨hreq, -⟩
      exact hreq (by decide)

/-! ## What the record holds of the file -/

/-- Fields that no section of the `desc` file changes. -/
def frame (pkg : Pkg) : CString × CString × PkgFrom × ℕ :=
  (pkg.name, pkg.version, pkg.origin, pkg.infolevel)

theorem keeps_frame {line : CString} {sec : DescSection} (h : sectionOf line = some sec)
    (pkg : Pkg) : sec.Keeps (frame · = frame pkg) := by
  have hall : ∀ heading ∈ descSections, heading.2.Keeps (frame · = frame pkg) := by
    simp only [descSections, List.forall_mem_cons]
    refine ⟨trivial, trivial, ?_⟩
    repeat' apply And.intro
    all_goals first | exact fun _ _ hpkg _ => hpkg | simp
  exact hall _ (mem_of_sectionOf h)

theorem frame_readDescFile (io : Outcome) (text : CString) (info : Pkg) :
    frame (readDescFile io text info).2 = frame info := by
  unfold readDescFile
  split_ifs
  · rfl
  split
  · exact readDesc_keeps (P := (frame · = frame info)) (fun _ _ hsec => keeps_frame hsec info)
      line_nil rfl
  · exact readDescN_keeps (P := (frame · = frame info)) (fun _ _ hsec => keeps_frame hsec info)
      line_nil rfl

/-- What is in the record of the `desc` file with the text: nothing, all of it, or what was read
before an error. -/
inductive Cached (text : CString) (pkg : Pkg) : Prop where
  | unread (hlevel : pkg.infolevel &&& infrqDesc = 0) (herror : pkg.infolevel &&& infrqError = 0)
      (hpart : descPart pkg = bare pkg)
  | read (hlevel : pkg.infolevel &&& infrqDesc = infrqDesc)
      (hpart : descPart pkg = readDesc { text } (bare pkg))
  | failed (hlevel : pkg.infolevel &&& infrqDesc = 0) (herror : pkg.infolevel &&& infrqError ≠ 0)
      (n : ℕ) (hpart : descPart pkg = (readDescN n { text } (bare pkg)).2)

theorem bare_of_frame {pkg pkg' : Pkg} (h : frame pkg' = frame pkg) : bare pkg' = bare pkg := by
  obtain ⟨hname, hversion, -⟩ := Prod.mk.inj h |>.imp_right Prod.mk.inj
  rw [bare, bare, hname, hversion]

theorem readDescFile_true {io : Outcome} {text : CString} {info : Pkg}
    (h : (readDescFile io text info).1 = true) :
    (readDescFile io text info).2 = readDesc { text } info := by
  unfold readDescFile at h ⊢
  split_ifs at h ⊢
  split at h
  · rfl
  · exact readDescN_true h

theorem readDescFile_false {io : Outcome} {text : CString} {info : Pkg}
    (h : (readDescFile io text info).1 = false) :
    ∃ n, (readDescFile io text info).2 = (readDescN n { text } info).2 := by
  unfold readDescFile at h ⊢
  split_ifs at h ⊢
  · refine ⟨0, ?_⟩
    rw [readDescN, if_neg Bool.false_ne_true]
  · split at h
    · cases h
    next n _ => exact ⟨n, rfl⟩

/-- Reading the file again leaves a record that holds something of the file. -/
theorem Cached.pkgGetReason {text : CString} {pkg : Pkg} (h : Cached text pkg) (io : Outcome) :
    Cached text (pkgGetReason io text pkg).2 := by
  unfold LocalDb.pkgGetReason
  split_ifs
  swap
  · exact h
  unfold cacheGetReason localDbReadDesc
  cases h with
  | read hlevel hpart =>
    rw [if_neg (by rw [hlevel]; decide)]
    exact .read hlevel hpart
  | failed hlevel herror n hpart =>
    rw [if_pos hlevel, if_neg (by rw [hlevel]; decide), if_pos herror]
    exact .failed hlevel herror n hpart
  | unread hlevel herror hpart =>
    rw [if_pos hlevel, if_neg (by rw [hlevel]; decide), if_neg (not_not.mpr herror)]
    have hframe := frame_readDescFile io text pkg
    split
    next info hread =>
      have hfile := readDescFile_true (congrArg Prod.fst hread)
      rw [hread] at hframe hfile
      refine .read ?_ ?_
      · show (info.infolevel ||| infrqDesc) &&& infrqDesc = infrqDesc
        rw [Nat.and_or_distrib_right, Nat.and_self]
        rcases and_infrqDesc info.infolevel with hinfo | hinfo <;> rw [hinfo] <;> rfl
      · show descPart info = readDesc { text } (bare info)
        rw [bare_of_frame hframe, ← hpart, readDesc_descPart]
        exact congrArg descPart hfile
    next info hread =>
      obtain ⟨n, hfile⟩ := readDescFile_false (congrArg Prod.fst hread)
      rw [hread] at hframe hfile
      have hinfo : info.infolevel = pkg.infolevel := congrArg (·.2.2.2) hframe
      refine .failed ?_ ?_ n ?_
      · show (info.infolevel ||| infrqError) &&& infrqDesc = 0
        rw [Nat.and_or_distrib_right, hinfo, hlevel]
        rfl
      · show (info.infolevel ||| infrqError) &&& infrqError ≠ 0
        rw [Nat.and_or_distrib_right, hinfo, herror]
        decide
      · show descPart info = (readDescN n { text } (bare info)).2
        rw [bare_of_frame hframe, ← hpart, readDescN_descPart]
        exact congrArg descPart hfile

theorem legible_bare (pkg : Pkg) : Legible (bare pkg) where
  base := by simp [bare]
  desc := by simp [bare]
  url := by simp [bare]
  arch := by simp [bare]
  packager := by simp [bare]
  builddate := inRange_zero
  installdate := inRange_zero
  isize := inRange_zero
  validation := Nat.zero_lt_succ 15
  groups := by simp [bare, Lines]
  licenses := by simp [bare, Lines]
  replaces := ⟨[], by simp [Lines], rfl⟩
  depends := ⟨[], by simp [Lines], rfl⟩
  optdepends := ⟨[], by simp [Lines], rfl⟩
  conflicts := ⟨[], by simp [Lines], rfl⟩
  provides := ⟨[], by simp [Lines], rfl⟩

theorem legible_of_descPart {pkg : Pkg} (h : Legible (descPart pkg)) : Legible pkg where
  base := h.base
  desc := h.desc
  url := h.url
  arch := h.arch
  packager := h.packager
  builddate := h.builddate
  installdate := h.installdate
  isize := h.isize
  validation := h.validation
  groups := h.groups
  licenses := h.licenses
  replaces := h.replaces
  depends := h.depends
  optdepends := h.optdepends
  conflicts := h.conflicts
  provides := h.provides

theorem Cached.legible {text : CString} {pkg : Pkg} (h : Cached text pkg) : Legible pkg := by
  refine legible_of_descPart ?_
  cases h with
  | unread _ _ hpart =>
    rw [hpart]
    exact legible_bare pkg
  | read _ hpart =>
    rw [hpart]
    exact (legible_bare pkg).readDesc text
  | failed _ _ n hpart =>
    rw [hpart]
    exact readDescN_keeps (fun _ _ => legible_keeps) line_nil (legible_bare pkg)

theorem Cached.weight_le {text : CString} {pkg : Pkg} (h : Cached text pkg) :
    weight (descPart pkg) ≤ weight (readDesc { text } (bare pkg)) := by
  cases h with
  | unread _ _ hpart =>
    rw [hpart]
    exact weight_readDesc line_nil _
  | read _ hpart => rw [hpart]
  | failed _ _ n hpart =>
    rw [hpart]
    exact weight_readDescN_le line_nil _

/-- Writing a record of which something was read, with a new reason. -/
theorem Cached.readDesc_writeDesc_iff {text : CString} {pkg : Pkg} (h : Cached text pkg)
    (hname : Line pkg.name) (hversion : Line pkg.version) (reason : PkgReason) :
    readDesc { text := writeDesc { pkg with reason } } (bare pkg) =
        { readDesc { text } (bare pkg) with reason } ↔
      (∀ list ∈ descLists pkg, Readable list) ∧
        { written pkg with reason } = { readDesc { text } (bare pkg) with reason } :=
  have hlegible : Legible { pkg with reason } := { h.legible with }
  LocalDb.readDesc_writeDesc_iff hlegible hname hversion h.weight_le

/-! ## Atomicity -/

/-- If the call fails, the cached reason, which is read from the file if it was not before, and the
text of the file are as before; if it does not, the text gives the new reason and the other fields
of the `desc` file as before. -/
structure Atomic (io : Outcome) (text : CString) (pkg : Pkg) (reason : PkgReason) : Prop where
  failed : (pkgSetReason io text pkg reason).1 = -1 →
    (pkgSetReason io text pkg reason).2.1.reason = (pkgGetReason io text pkg).1 ∧
      (pkgSetReason io text pkg reason).2.2 = text
  done : (pkgSetReason io text pkg reason).1 = 0 →
    readDesc { text := (pkgSetReason io text pkg reason).2.2 } (bare pkg) =
      { readDesc { text } (bare pkg) with reason }

/-- **The fields that the call knows** when it compares the reasons: those of a record that was read
before, or that could not be, and else those of the file, or of the part of it before the call of
`fgets` that fails. -/
def known (io : Outcome) (text : CString) (pkg : Pkg) : Pkg :=
  if pkg.infolevel &&& infrqDesc ≠ 0 ∨ pkg.infolevel &&& infrqError ≠ 0 then descPart pkg
  else if io.readOpen = false then bare pkg
  else
    match io.reads with
    | none => readDesc { text } (bare pkg)
    | some n => (readDescN n { text } (bare pkg)).2

/-- What it takes for the call to be atomic.  If the reason that is known is the new one, the stored
one must be too, for then nothing is written.  Else the file must open, no list that is known may be
cut when it is read back, the fields that are known must be those of the file as far as they are
written, the reason apart, and if a call that writes the file fails, all of the text must have come
to the file all the same. -/
def Kept (io : Outcome) (text : CString) (pkg : Pkg) (reason : PkgReason) : Prop :=
  pkg.origin = .localdb →
    let known := known io text pkg
    let stored := readDesc { text } (bare pkg)
    (known.reason = reason → stored.reason = reason) ∧
      (known.reason ≠ reason → io.writeOpen = true ∧ (∀ list ∈ descLists known, Readable list) ∧
        { written known with reason } = { stored with reason } ∧
        ∀ left ∈ io.left, left = writeDesc { known with reason })

section Run

variable {io : Outcome} {text : CString} {pkg : Pkg} {reason : PkgReason}

theorem pkgSetReason_of_origin (h : pkg.origin ≠ .localdb) :
    pkgSetReason io text pkg reason = (-1, pkg, text) := if_pos h

theorem pkgSetReason_of_eq (h : pkg.origin = .localdb)
    (hreason : (pkgGetReason io text pkg).1 = reason) :
    pkgSetReason io text pkg reason = (0, (pkgGetReason io text pkg).2, text) := by
  rw [pkgSetReason, if_neg (not_not.mpr h)]
  exact if_pos hreason

theorem pkgSetReason_of_writeOpen_false (h : pkg.origin = .localdb)
    (hreason : (pkgGetReason io text pkg).1 ≠ reason) (hopen : io.writeOpen = false) :
    pkgSetReason io text pkg reason = (-1, { (pkgGetReason io text pkg).2 with reason }, text) := by
  rw [pkgSetReason, if_neg (not_not.mpr h)]
  simp only [if_neg hreason, localDbWriteDesc, if_pos hopen]
  rfl

theorem pkgSetReason_of_writeOpen (h : pkg.origin = .localdb)
    (hreason : (pkgGetReason io text pkg).1 ≠ reason) (hopen : io.writeOpen = true) :
    pkgSetReason io text pkg reason = (0, { (pkgGetReason io text pkg).2 with reason },
      io.left.getD (writeDesc { (pkgGetReason io text pkg).2 with reason })) := by
  have hopened : ¬ io.writeOpen = false := by
    rw [hopen]
    decide
  rw [pkgSetReason, if_neg (not_not.mpr h)]
  simp only [if_neg hreason, localDbWriteDesc, if_neg hopened]
  rfl

theorem pkgGetReason_fst (h : pkg.origin = .localdb) :
    (pkgGetReason io text pkg).1 = (pkgGetReason io text pkg).2.reason := by
  rw [pkgGetReason, if_pos h]
  rfl

theorem bare_pkgGetReason : bare (pkgGetReason io text pkg).2 = bare pkg := by
  unfold pkgGetReason cacheGetReason localDbReadDesc
  split_ifs
  all_goals try rfl
  have hframe := frame_readDescFile io text pkg
  split
  all_goals
    next info hread =>
      rw [hread] at hframe
      show bare info = bare pkg
      exact bare_of_frame hframe

theorem atomic_of_origin (h : pkg.origin ≠ .localdb) : Atomic io text pkg reason where
  failed _ := by
    rw [pkgSetReason_of_origin h, pkgGetReason, if_neg h]
    exact ⟨rfl, rfl⟩
  done hdone := by
    rw [pkgSetReason_of_origin h] at hdone
    cases hdone

theorem atomic_iff_of_eq (h : pkg.origin = .localdb)
    (hreason : (pkgGetReason io text pkg).1 = reason) :
    Atomic io text pkg reason ↔ (readDesc { text } (bare pkg)).reason = reason := by
  have hrun := pkgSetReason_of_eq h hreason
  constructor
  · intro hatomic
    have hdone := hatomic.done (by rw [hrun])
    rw [hrun] at hdone
    rw [hdone]
  · intro hstored
    refine ⟨fun hfailed => ?_, fun _ => ?_⟩
    · rw [hrun] at hfailed
      cases hfailed
    · rw [hrun, ← hstored]

theorem not_atomic_of_writeOpen (h : pkg.origin = .localdb)
    (hreason : (pkgGetReason io text pkg).1 ≠ reason) (hopen : io.writeOpen = false) :
    ¬ Atomic io text pkg reason := by
  have hrun := pkgSetReason_of_writeOpen_false h hreason hopen
  intro hatomic
  have hfailed := hatomic.failed (by rw [hrun])
  rw [hrun] at hfailed
  exact hreason hfailed.1.symm

theorem atomic_iff_of_ne (h : pkg.origin = .localdb)
    (hreason : (pkgGetReason io text pkg).1 ≠ reason) (hopen : io.writeOpen = true) :
    Atomic io text pkg reason ↔
      readDesc { text := io.left.getD (writeDesc { (pkgGetReason io text pkg).2 with reason }) }
          (bare pkg) = { readDesc { text } (bare pkg) with reason } := by
  have hrun := pkgSetReason_of_writeOpen h hreason hopen
  constructor
  · intro hatomic
    have hdone := hatomic.done (by rw [hrun])
    rwa [hrun] at hdone
  · intro hread
    refine ⟨fun hfailed => ?_, fun _ => ?_⟩
    · rw [hrun] at hfailed
      cases hfailed
    · rw [hrun]
      exact hread

end Run

theorem Cached.descPart_pkgGetReason {io : Outcome} {text : CString} {pkg : Pkg}
    (h : Cached text pkg) (horigin : pkg.origin = .localdb) :
    descPart (LocalDb.pkgGetReason io text pkg).2 = known io text pkg := by
  unfold LocalDb.pkgGetReason cacheGetReason localDbReadDesc known
  rw [if_pos horigin]
  cases h with
  | read hlevel hpart =>
    have hset : pkg.infolevel &&& infrqDesc ≠ 0 := by
      rw [hlevel]
      decide
    rw [if_neg hset, if_pos (Or.inl hset)]
  | failed hlevel herror n hpart =>
    rw [if_pos hlevel, if_neg (by rw [hlevel]; decide), if_pos herror, if_pos (Or.inr herror)]
  | unread hlevel herror hpart =>
    have hclear : ¬ (pkg.infolevel &&& infrqDesc ≠ 0 ∨ pkg.infolevel &&& infrqError ≠ 0) := by
      simp [hlevel, herror]
    rw [if_pos hlevel, if_neg (by rw [hlevel]; decide), if_neg (not_not.mpr herror), if_neg hclear]
    have hfile : descPart (readDescFile io text pkg).2 =
        if io.readOpen = false then bare pkg
        else match io.reads with
          | none => readDesc { text } (bare pkg)
          | some n => (readDescN n { text } (bare pkg)).2 := by
      unfold readDescFile
      split_ifs
      · exact hpart
      · rw [← hpart]
        split
        · exact (readDesc_descPart _ pkg).symm
        · rw [readDescN_descPart]
    rw [← hfile]
    split <;>
      next info hread =>
        rw [hread]
        rfl

/-- **Setting the reason is atomic** under `Kept`, and, where no call that writes the file fails,
only under it.  There are three ways through the function: nothing is written because the reason
that is known is the new one, the file cannot be opened, or it is written; the last one is a
question of what is read back of the text. -/
theorem pkgSetReason_atomic_iff {io : Outcome} {text : CString} {pkg : Pkg} {reason : PkgReason}
    (hname : Line pkg.name) (hversion : Line pkg.version) (hcached : Cached text pkg) :
    (Kept io text pkg reason → Atomic io text pkg reason) ∧
      (io.left = none → (Atomic io text pkg reason ↔ Kept io text pkg reason)) := by
  by_cases horigin : pkg.origin = .localdb
  swap
  · have hatomic : Atomic io text pkg reason := atomic_of_origin horigin
    exact ⟨fun _ => hatomic, fun _ => iff_of_true hatomic fun h => absurd h horigin⟩
  have hknown := @Cached.descPart_pkgGetReason io text pkg hcached horigin
  have hreasonKnown : (pkgGetReason io text pkg).1 = (known io text pkg).reason := by
    rw [pkgGetReason_fst horigin, ← hknown]
    rfl
  unfold Kept
  rw [forall_prop_of_true horigin]
  dsimp only
  by_cases hreason : (known io text pkg).reason = reason
  · have hiff := @atomic_iff_of_eq io text pkg reason horigin (hreasonKnown.trans hreason)
    exact ⟨fun h => hiff.mpr (h.1 hreason), fun _ => hiff.trans
      ⟨fun h => ⟨fun _ => h, fun hne => absurd hreason hne⟩, fun h => h.1 hreason⟩⟩
  rw [and_iff_right fun h => absurd h hreason, forall_prop_of_true hreason]
  have hne : (pkgGetReason io text pkg).1 ≠ reason := by rwa [hreasonKnown]
  by_cases hopen : io.writeOpen = true
  swap
  · have hclosed : io.writeOpen = false := by simpa using hopen
    exact ⟨fun h => absurd h.1 hopen,
      fun _ => iff_of_false (not_atomic_of_writeOpen horigin hne hclosed) fun h => hopen h.1⟩
  rw [atomic_iff_of_ne horigin hne hopen, and_iff_right hopen]
  -- what the call knows is what it writes, and what is read of it again
  have hbare := @bare_pkgGetReason io text pkg
  have hname' : Line (bare (pkgGetReason io text pkg).2).name := by rwa [hbare]
  have hversion' : Line (bare (pkgGetReason io text pkg).2).version := by rwa [hbare]
  have hwrite := (hcached.pkgGetReason io).readDesc_writeDesc_iff hname' hversion' reason
  rw [← hknown, descLists_descPart, written_descPart, writeDesc_descPart]
  rw [hbare] at hwrite
  constructor
  · rintro ⟨hlists, hwritten, hleft⟩
    have hall : io.left.getD (writeDesc { (pkgGetReason io text pkg).2 with reason }) =
        writeDesc { (pkgGetReason io text pkg).2 with reason } := by
      cases hio : io.left with
      | none => rfl
      | some left => exact hleft left hio
    rw [hall]
    exact hwrite.mpr ⟨hlists, hwritten⟩
  · intro hnone
    rw [hnone, Option.getD_none, hwrite]
    simp

/-- Of a record that was read to the end, the fields are kept unless there are dependencies that are
needed to make or to check the package, or a size below `-1`. -/
theorem written_eq_iff {cached stored : Pkg} (h : descPart cached = stored) (reason : PkgReason) :
    { written cached with reason } = { stored with reason } ↔
      stored.makedepends = [] ∧ stored.checkdepends = [] ∧ -1 ≤ stored.isize := by
  subst h
  constructor
  · intro heq
    have hmake : [] = cached.makedepends := congrArg (·.makedepends) heq
    have hcheck : [] = cached.checkdepends := congrArg (·.checkdepends) heq
    exact ⟨hmake.symm, hcheck.symm, storedSize_eq_iff.mp (congrArg (·.isize) heq)⟩
  · rintro ⟨hmake, hcheck, hisize⟩
    have hmake : cached.makedepends = [] := hmake
    have hcheck : cached.checkdepends = [] := hcheck
    have hsize : storedSize cached.isize = cached.isize := storedSize_eq_iff.mpr hisize
    simp only [written, descPart, hmake, hcheck, hsize]

theorem readDesc_filesystem :
    readDesc { text := writeDesc filesystem } (bare filesystem) = written filesystem :=
  (writable_filesystem.descWritable.reads_writeDesc 0).readDesc

theorem pkgSetReason_atomic_iff_filesystem :
    Atomic {} (writeDesc filesystem) (bare filesystem) .explicit := by
  have hread : readDesc { text := writeDesc filesystem } (bare (bare filesystem)) =
      written filesystem := readDesc_filesystem
  have hknown : known {} (writeDesc filesystem) (bare filesystem) = written filesystem := by
    rw [known, if_neg (by decide), if_neg (by decide)]
    exact hread
  refine (pkgSetReason_atomic_iff ⟨by decide, by decide⟩ ⟨by decide, by decide⟩
    (.unread rfl rfl rfl)).1 fun _ => ?_
  dsimp only
  rw [hknown, hread]
  exact ⟨fun h => absurd h (by decide), fun _ => ⟨rfl, by decide +kernel, rfl, by simp⟩⟩

/-- If the file cannot be opened to read it, the record has the reason of a package that was
installed explicitly, and nothing is written.  If it cannot be opened to write it, the call fails
and the record keeps the new reason. -/
theorem pkgSetReason_not_atomic_filesystem :
    (Cached (writeDesc filesystem) (bare filesystem) ∧
      ¬ Atomic { readOpen := false } (writeDesc filesystem) (bare filesystem) .explicit) ∧
    Cached (writeDesc filesystem) { filesystem with infolevel := infrqDesc } ∧
      ¬ Atomic { writeOpen := false } (writeDesc filesystem)
        { filesystem with infolevel := infrqDesc } .explicit := by
  have hstored : (readDesc { text := writeDesc filesystem } (bare (bare filesystem))).reason =
      .depend := congrArg Pkg.reason readDesc_filesystem
  refine ⟨⟨.unread rfl rfl rfl, fun hatomic => ?_⟩, .read rfl readDesc_filesystem.symm,
    not_atomic_of_writeOpen rfl (by decide) rfl⟩
  have hreason := (atomic_iff_of_eq rfl rfl).mp hatomic
  rw [hstored] at hreason
  exact absurd hreason (by decide)

end Alpm.LocalDb
