import Alpm.Files.Ownership

/-!
# Edited backup files

A backup file that the user has edited must not be lost when its package is removed or upgraded.
This module says what the single steps of a commit do to such a file: the removal of a path by
`unlink_file`, the extraction of an entry by `extract_single_file`, and then the removal, the
upgrade and the installation of whole packages.

## 1.  What is kept

The user's content stands at one of two paths: at the file itself, or, once the file was removed,
at its `.pacsave` name.  Either way the argument about the other paths is the same, so it is made
for a path `keep` that holds the content (`Holds`).  A step at a path that keeps apart from it
(`RemovesApart`, `ExtractsApart`) changes neither it nor a directory above it (`SameKept`): a
directory above it is not empty, so `unlink_file` leaves it alone, and `rename` and the extraction
only reach what is below their two paths.

## 2.  What happens to the file itself

Its removal saves it, unless a directory stands at the `.pacsave` name that could not be moved away
(`unlinkFile_home`).  The extraction of a new version leaves it where it is when the file needs a
backup and the recorded hash is not that of the content (`extractSingleFile_home`).

## 3.  Packages

`Home` is the invariant of a commit while the content stands at the file, and `Holds` of the
`.pacsave` name with `SavedOnce` the one afterwards.  A package whose removal is to save the file
must find room there, which `Home` carries along; and one that might save a second time must find
nothing at the file, which `SavedOnce` says.  `Saves.removePackages_home` is the run of the
removals, and `Saves.upgradePackages_kept` that of the installations.
-/

namespace Alpm

open CommitContext

/-! ## Paths -/

theorem Under.trans {name dir path : CString} (h : Under name dir) (h' : Under dir path) :
    Under name path := by
  rcases h' with rfl | hdir
  · exact h
  rcases h with rfl | h
  · exact Or.inr hdir
  · exact Or.inr ((h.trans (List.prefix_append dir ['/'])).trans hdir)

/-- A suffix without slashes does not add a directory. -/
theorem dir_prefix_of_append {name path suffix : CString} (hsuffix : '/' ∉ suffix)
    (h : name ++ ['/'] <+: path ++ suffix) : name ++ ['/'] <+: path := by
  rcases List.prefix_or_prefix_of_prefix h (List.prefix_append path suffix) with h' | h'
  · exact h'
  rcases List.prefix_concat_iff.mp h' with rfl | ⟨rest, rfl⟩
  · exact List.prefix_refl _
  · rw [List.append_assoc, List.prefix_append_right_inj] at h
    exact absurd (h.subset (by simp)) hsuffix

theorem not_under_append {path suffix : CString} (hsuffix : '/' ∉ suffix) (hne : suffix ≠ []) :
    ¬ Under path (path ++ suffix) := by
  rintro (h | h)
  · exact hne (List.append_right_eq_self.mp h)
  · have hlength := (dir_prefix_of_append hsuffix h).length_le
    simp at hlength

theorem not_under_of_append {path suffix : CString} (hne : suffix ≠ []) :
    ¬ Under (path ++ suffix) path := by
  intro h
  have hlength := h.length_le
  have hpos := List.length_pos_of_ne_nil hne
  rw [List.length_append] at hlength
  omega

theorem not_under_append_append {path suffix suffix' : CString} (hsuffix : '/' ∉ suffix')
    (hne : suffix ≠ suffix') : ¬ Under (path ++ suffix) (path ++ suffix') := by
  rintro (h | h)
  · exact hne (List.append_cancel_left h).symm
  · have hlength := (dir_prefix_of_append hsuffix h).length_le
    simp at hlength

theorem numberedPacsave_eq_append (file : CString) (i : ℕ) :
    numberedPacsave file i = file ++ (str ".pacsave" ++ (str "." ++ Nat.toDigits 10 i)) := by
  simp [numberedPacsave, pacsave]

/-- A name that the removal of `path` writes to besides `path`. -/
def SaveName (path name : CString) : Prop :=
  name = pacsave path ∨ ∃ i, name = numberedPacsave path i

theorem SaveName.exists_suffix {path name : CString} (h : SaveName path name) :
    ∃ suffix, suffix ≠ [] ∧ '/' ∉ suffix ∧ name = path ++ suffix := by
  rcases h with rfl | ⟨i, rfl⟩
  · exact ⟨str ".pacsave", by decide, by decide, rfl⟩
  · refine ⟨_, List.append_ne_nil_of_left_ne_nil (by decide) _, ?_, numberedPacsave_eq_append ..⟩
    have hdigits : '/' ∉ Nat.toDigits 10 i := fun hmem =>
      absurd (Nat.isDigit_of_mem_toDigits (by omega) (by omega) hmem) (by decide)
    have hdot : '/' ∉ str ".pacsave" ∧ '/' ∉ str "." := by decide
    simp [hdigits, hdot]

/-- The last character tells a `.pacsave` name from the numbered ones. -/
theorem SaveName.eq_of_pacsave {path file : CString} (h : SaveName path (pacsave file)) :
    path = file := by
  rcases h with h | ⟨i, h⟩
  · exact List.append_cancel_right h.symm
  · have hlast := congrArg List.getLast? h
    cases hdigits : (Nat.toDigits 10 i).getLast? with
    | none => exact absurd (List.getLast?_eq_none_iff.mp hdigits) Nat.toDigits_ne_nil
    | some c =>
      have hdigit := Nat.isDigit_of_mem_toDigits (by omega) (by omega)
        (List.mem_of_getLast? hdigits)
      rw [numberedPacsave, List.getLast?_append, hdigits] at hlast
      obtain rfl : 'e' = c := by simpa [pacsave, str] using hlast
      exact absurd hdigit (by decide)

theorem pacnew_ne_pacsave (path file : CString) : pacnew path ≠ pacsave file := by
  intro h
  have hlast := congrArg List.getLast? h
  simp [pacsave, pacnew, str] at hlast

/-- A path with nothing empty between its slashes, as those in the file lists of packages are.  On
such a path the base name and the directory name put together give the path again. -/
def CleanPath (path : CString) : Prop :=
  ∀ dir rest, path = dir ++ '/' :: rest → dir ≠ [] ∧ rest ≠ [] ∧ deref rest ≠ '/'

theorem CleanPath.not_hasSlash {file : CString} (h : CleanPath file) : ¬ hasSlash file := by
  intro hslash
  obtain ⟨dir, rfl⟩ := List.getLast?_eq_some_iff.mp (of_decide_eq_true hslash)
  exact (h dir [] rfl).2.1 rfl

theorem CleanPath.pacsave {file : CString} (h : CleanPath file) :
    CleanPath (CommitContext.pacsave file) := by
  intro dir rest heq
  have hprefix : dir ++ ['/'] <+: file ++ str ".pacsave" := ⟨rest, by
    rw [List.append_assoc, List.singleton_append]
    exact heq.symm⟩
  obtain ⟨rest', rfl⟩ := dir_prefix_of_append (by decide) hprefix
  obtain rfl : rest = rest' ++ str ".pacsave" := by
    have heq' : dir ++ '/' :: (rest' ++ str ".pacsave") = dir ++ '/' :: rest := by
      rw [← heq]
      simp [CommitContext.pacsave]
    simpa using (List.append_cancel_left heq').symm
  obtain ⟨hdir, hrest, hderef⟩ := h dir rest' (by simp)
  obtain ⟨c, tail, rfl⟩ := List.exists_cons_of_ne_nil hrest
  exact ⟨hdir, by simp, hderef⟩

/-- The directories above a path. -/
def FileSystem.HasParents (fs : FileSystem) (path : CString) : Prop :=
  ∀ dir, dir ++ ['/'] <+: path → fs.node dir = some .dir

theorem FileSystem.hasParents_pacsave {fs : FileSystem} {file : CString} :
    fs.HasParents (pacsave file) ↔ fs.HasParents file :=
  ⟨fun h dir hdir => h dir (hdir.trans (List.prefix_append _ _)),
    fun h dir hdir => h dir (dir_prefix_of_append (by decide) hdir)⟩

/-! ## What a step leaves alone -/

/-- The file system holds the user's content at a path, and the directories above the path are
there. The second half is part of the notion because the content is moved and a directory above it
must not go meanwhile. -/
structure Holds (fs : FileSystem) (keep content : CString) : Prop where
  parents : fs.HasParents keep
  node : fs.node keep = some (.file content)

/-- A path and the directories above it are as before. -/
def SameKept (keep : CString) (fs fs' : FileSystem) : Prop :=
  ∀ q, Under q keep → fs'.node q = fs.node q

/-- The removal of a path of `pkg` writes neither to `keep` nor to a directory above it.  If the
path needs a backup its save names count as well, the numbered ones included. -/
structure RemovesApart (keep : CString) (pkg : Pkg) (path : CString) : Prop where
  ne : stripSlash path ≠ keep
  saves : (needbackup path pkg).isSome → ∀ name, SaveName (stripSlash path) name →
    ¬ Under name keep

/-- The extraction of a path of `newpkg` over `oldpkg` writes neither to `keep` nor to a directory
above it, nor does it need one at `keep`. -/
structure ExtractsApart (ctx : CommitContext) (keep : CString) (newpkg : Pkg) (oldpkg : Option Pkg)
    (path : CString) : Prop where
  below : ¬ Under keep (stripSlash path)
  pacnew : fnmatchPatterns ctx.sys ctx.opts.noupgrade path = 0 ∨
    (backupHash newpkg oldpkg path).isSome → ¬ Under (pacnew (stripSlash path)) keep

section Same

variable {fs fs' fs'' : FileSystem} {keep content : CString}

theorem SameKept.refl (keep : CString) (fs : FileSystem) : SameKept keep fs fs := fun _ _ => rfl

theorem SameKept.trans (h : SameKept keep fs fs') (h' : SameKept keep fs' fs'') :
    SameKept keep fs fs'' := fun q hq => (h' q hq).trans (h q hq)

theorem SameKept.holds (h : SameKept keep fs fs') (hholds : Holds fs keep content) :
    Holds fs' keep content where
  parents dir hdir := (h dir (Or.inr hdir)).trans (hholds.parents dir hdir)
  node := (h keep (Under.refl keep)).trans hholds.node

/-- What is no directory is not above the kept path. -/
theorem FileSystem.HasParents.not_under {path : CString} (hparents : fs.HasParents keep)
    (hne : path ≠ keep) (hdir : fs.node path ≠ some .dir) : ¬ Under path keep := by
  rintro (rfl | h)
  · exact hne rfl
  · exact hdir (hparents _ h)

/-- An edited file that is saved elsewhere than its package says is none of the other packages'. -/
theorem RemovesApart.pacsave {pkg : Pkg} {file path : CString} (h : RemovesApart file pkg path)
    (hne : stripSlash path ≠ CommitContext.pacsave file) :
    RemovesApart (CommitContext.pacsave file) pkg path where
  ne := hne
  saves := by
    rintro hbackup name hname (rfl | hdir)
    · exact h.ne hname.eq_of_pacsave
    · exact h.saves hbackup name hname (Or.inr (dir_prefix_of_append (by decide) hdir))

theorem ExtractsApart.pacsave {ctx : CommitContext} {newpkg : Pkg} {oldpkg : Option Pkg}
    {file path : CString} (hbelow : ¬ Under (CommitContext.pacsave file) (stripSlash path))
    (hpacnew : fnmatchPatterns ctx.sys ctx.opts.noupgrade path = 0 ∨
      (backupHash newpkg oldpkg path).isSome →
        ¬ Under (CommitContext.pacnew (stripSlash path)) file) :
    ExtractsApart ctx (CommitContext.pacsave file) newpkg oldpkg path where
  below := hbelow
  pacnew := by
    rintro hneed (heq | hdir)
    · exact pacnew_ne_pacsave _ _ heq.symm
    · exact hpacnew hneed (Or.inr (dir_prefix_of_append (by decide) hdir))

/-- The new version of the file itself does not touch the saved copy. -/
theorem ExtractsApart.self {ctx : CommitContext} {newpkg : Pkg} {oldpkg : Option Pkg}
    {file : CString} (hclean : CleanPath file) :
    ExtractsApart ctx (CommitContext.pacsave file) newpkg oldpkg file where
  below := by
    rw [stripSlash_of_not hclean.not_hasSlash]
    exact not_under_of_append (by decide)
  pacnew := by
    rw [stripSlash_of_not hclean.not_hasSlash]
    exact fun _ => not_under_append_append (by decide) (by decide)

end Same

namespace CommitContext

variable {ctx : CommitContext} {st : CommitState} {fs : FileSystem}
  {file keep path q content : CString} {oldpkg : Pkg} {newpkg : Option Pkg}

theorem shiftNumbered_node {n : ℕ}
    (hq : ∀ i, 1 ≤ i → i ≤ n → ¬ Under (numberedPacsave path i) q) :
    (shiftNumbered path n fs).node q = fs.node q := by
  induction n generalizing fs with
  | zero => rfl
  | succ i ih =>
    rw [shiftNumbered]
    split_ifs with hi
    · rw [ih fun j hj hle => hq j hj (Nat.le_succ_of_le hle),
        FileSystem.rename_node_of_not_under (hq i (Nat.lt_succ_iff.mp hi) (Nat.le_succ i))
          (hq (i + 1) (Nat.succ_pos i) le_rfl)]
    · rfl

theorem shiftPacsave_node (hnames : ∀ name, SaveName path name → ¬ Under name q) :
    (ctx.shiftPacsave fs path).node q = fs.node q := by
  have hnumbered : ∀ i, ¬ Under (numberedPacsave path i) q := fun i => hnames _ (Or.inr ⟨i, rfl⟩)
  unfold shiftPacsave
  dsimp only
  split
  · rfl
  split_ifs
  · rfl
  · rw [FileSystem.rename_node_of_not_under (hnames _ (Or.inl rfl)) (hnumbered 1),
      shiftNumbered_node fun i _ _ => hnumbered i]
  · exact shiftNumbered_node fun i _ _ => hnumbered i

theorem mem_readdir {dir name : CString} (hdir : dir ≠ []) (hname : name ≠ [])
    (hslash : '/' ∉ name) (h : fs.node (dir ++ '/' :: name) ≠ none) : name ∈ fs.readdir dir := by
  have hpath : dir ++ '/' :: name = (dir ++ ['/']) ++ name := by simp
  rw [hpath] at h
  refine List.mem_filterMap.mpr ⟨_, List.mem_filter.mpr ⟨fs.mem_paths _ h, ?_⟩, ?_⟩
  · exact Option.isSome_iff_ne_none.mpr h
  · rw [FileSystem.nameIn, if_neg hdir, List.drop_left]
    exact if_pos ⟨List.prefix_append _ _, hname, hslash⟩

/-- A directory above a path that holds something is not empty. -/
theorem readdir_ne_nil (hclean : CleanPath keep) (hholds : Holds fs keep content) {dir : CString}
    (hdir : dir ++ ['/'] <+: keep) : fs.readdir dir ≠ [] := by
  suffices hname : ∃ name, name ≠ [] ∧ '/' ∉ name ∧ fs.node (dir ++ '/' :: name) ≠ none by
    obtain ⟨name, hne, hslash, hnode⟩ := hname
    obtain ⟨rest, rfl⟩ := hdir
    have hdirNe : dir ≠ [] := (hclean dir rest (by simp)).1
    exact List.ne_nil_of_mem (mem_readdir hdirNe hne hslash hnode)
  obtain ⟨rest, rfl⟩ := hdir
  obtain ⟨-, hrestNe, hderef⟩ := hclean dir rest (by simp)
  by_cases hslash : '/' ∈ rest
  · -- the next directory on the way to the path
    obtain ⟨name, tail, rfl, hname⟩ := List.eq_append_cons_of_mem hslash
    refine ⟨name, ?_, hname, ?_⟩
    · rintro rfl
      exact hderef rfl
    · rw [hholds.parents (dir ++ '/' :: name) ⟨tail, by simp⟩]
      simp
  · have hnode := hholds.node
    rw [List.append_assoc, List.singleton_append] at hnode
    exact ⟨rest, hrestNe, hslash, by simp [hnode]⟩

/-- What the removal of a path comes to, as far as other paths are concerned. -/
theorem unlinkFile_cases {fileobj : CString} {nosave : Bool} {ret : Int} {fs : FileSystem}
    (hunlink : ctx.unlinkFile st oldpkg newpkg fileobj nosave = some (ret, fs)) :
    fs = st.fs ∨
      fs = st.fs.remove (stripSlash fileobj) ∧
        (st.fs.node (stripSlash fileobj) = some .dir → st.fs.readdir (stripSlash fileobj) = []) ∨
      (needbackup fileobj oldpkg).isSome ∧ st.fs.node (stripSlash fileobj) ≠ some .dir ∧
        fs = ((ctx.shiftPacsave st.fs (stripSlash fileobj)).rename (stripSlash fileobj)
          (pacsave (stripSlash fileobj))).2 := by
  unfold unlinkFile at hunlink
  dsimp only at hunlink
  split at hunlink
  · exact Or.inl (Prod.mk.inj (Option.some.inj hunlink)).2.symm
  next hnode =>
    split_ifs at hunlink with hkeep
    · exact Or.inl (Prod.mk.inj (Option.some.inj hunlink)).2.symm
    · refine Or.inr (Or.inl ⟨(Prod.mk.inj (Option.some.inj hunlink)).2.symm, fun _ => ?_⟩)
      by_contra hfull
      exact hkeep (by simp [hfull])
  next node hdir hnode =>
    have hne : st.fs.node (stripSlash fileobj) ≠ some .dir := fun h =>
      hdir (Option.some.inj (hnode.symm.trans h))
    have hremove : ∀ {ret'}, some (ret', st.fs.remove (stripSlash fileobj)) = some (ret, fs) →
        fs = st.fs.remove (stripSlash fileobj) ∧ (st.fs.node (stripSlash fileobj) = some .dir →
          st.fs.readdir (stripSlash fileobj) = []) := fun h =>
      ⟨(Prod.mk.inj (Option.some.inj h)).2.symm, fun h => absurd h hne⟩
    split at hunlink
    · exact Or.inr (Or.inl (hremove hunlink))
    next backup hbackup =>
      cases nosave with
      | true => exact Or.inr (Or.inl (hremove hunlink))
      | false =>
        rw [if_neg Bool.false_ne_true] at hunlink
        split at hunlink
        · exact Or.inr (Or.inl (hremove hunlink))
        · cases hunlink
        next filehash hash _ _ =>
          by_cases hsame : filehash = hash
          · rw [if_pos hsame] at hunlink
            exact Or.inr (Or.inl (hremove hunlink))
          · rw [if_neg hsame] at hunlink
            exact Or.inr (Or.inr ⟨by simp [hbackup], hne,
              (Prod.mk.inj (Option.some.inj hunlink)).2.symm⟩)

/-- **A path apart from the kept one**: its removal does not touch the kept path, and neither a
directory above that is not empty. -/
theorem unlinkFile_kept {fileobj : CString} {nosave : Bool} {ret : Int} {fs : FileSystem}
    (hparents : st.fs.HasParents keep) (hapart : RemovesApart keep oldpkg fileobj)
    (hunlink : ctx.unlinkFile st oldpkg newpkg fileobj nosave = some (ret, fs))
    (hq : q = keep ∨ q ++ ['/'] <+: keep ∧ st.fs.readdir q ≠ []) :
    fs.node q = st.fs.node q := by
  have hunderKeep : Under q keep := hq.imp Eq.symm And.left
  rcases unlinkFile_cases hunlink with rfl | ⟨rfl, hempty⟩ | ⟨hbackup, hdir, rfl⟩
  · rfl
  · refine FileSystem.remove_node_of_ne ?_
    rintro rfl
    rcases hq with heq | ⟨habove, hfull⟩
    · exact hapart.ne heq
    · exact hfull (hempty (hparents _ habove))
  · have hunder : ¬ Under (stripSlash fileobj) q := fun h =>
      hparents.not_under hapart.ne hdir (h.trans hunderKeep)
    have hnames : ∀ name, SaveName (stripSlash fileobj) name → ¬ Under name q :=
      fun name hname h => hapart.saves hbackup name hname (h.trans hunderKeep)
    rw [FileSystem.rename_node_of_not_under hunder (hnames _ (Or.inl rfl)),
      shiftPacsave_node hnames]

/-! ## Removing the file itself -/

theorem rename_src_ne_dir {src dst : CString} (h : fs.node src ≠ some .dir) :
    (fs.rename src dst).2.node src ≠ some .dir := by
  unfold FileSystem.rename
  split
  · exact h
  next hdir => exact absurd hdir h
  · split_ifs
    · exact h
    · exact h
    · simp

theorem SaveName.not_under (name : CString) (hname : SaveName file name) (hq : Under q file) :
    ¬ Under name q := by
  intro hunder
  obtain ⟨suffix, hne, -, rfl⟩ := hname.exists_suffix
  have hlength := (hunder.trans hq).length_le
  have hpos := List.length_pos_of_ne_nil hne
  rw [List.length_append] at hlength
  omega

/-- Making room for the saved copy leaves the file where it is. -/
theorem shiftPacsave_same (ctx : CommitContext) (fs : FileSystem) (file : CString) :
    SameKept file fs (ctx.shiftPacsave fs file) := fun _ hq =>
  shiftPacsave_node fun name hname => SaveName.not_under name hname hq

/-- Where no directory stands at the `.pacsave` name, none is put there. -/
theorem shiftPacsave_pacsave (h : fs.node (pacsave file) ≠ some .dir) :
    (ctx.shiftPacsave fs file).node (pacsave file) ≠ some .dir := by
  have hnumbered : ∀ i, ¬ Under (numberedPacsave file i) (pacsave file) := fun i => by
    rw [numberedPacsave, List.append_assoc]
    exact not_under_of_append (List.append_ne_nil_of_left_ne_nil (by decide) _)
  have hshift : ∀ n, (shiftNumbered file n fs).node (pacsave file) ≠ some .dir := fun n => by
    rw [shiftNumbered_node fun i _ _ => hnumbered i]
    exact h
  unfold shiftPacsave
  dsimp only
  split
  · exact h
  split_ifs
  · exact h
  · exact rename_src_ne_dir (hshift _)
  · exact hshift _

/-- **An edited backup file** is saved when it is removed, or left where it is because of a
directory at its `.pacsave` name.  In either case the content is there afterwards, at one name or
the other. -/
theorem unlinkFile_home (hclean : CleanPath file) (h : Holds st.fs file content) {backup : Backup}
    {hash : CString} (hbackup : needbackup file oldpkg = some backup)
    (hrecorded : backup.hash = some hash) (hhash : hash ≠ ctx.sys.md5 content) :
    ∃ ret fs, ctx.unlinkFile st oldpkg newpkg file false = some (ret, fs) ∧
      (Holds fs file content ∧ st.fs.node (pacsave file) = some .dir ∨
        Holds fs (pacsave file) content ∧ fs.node file = none) := by
  have hsame := (shiftPacsave_same ctx st.fs file).holds h
  have hne : file ≠ pacsave file := fun heq =>
    @not_under_append file (str ".pacsave") (by decide) (by decide) (Or.inl heq.symm)
  obtain ⟨ret, hunlink⟩ : ∃ ret, ctx.unlinkFile st oldpkg newpkg file false = some (ret,
      ((ctx.shiftPacsave st.fs file).rename file (pacsave file)).2) := by
    have hmd5 : computeMd5sum ctx.sys st.fs file = some (ctx.sys.md5 content) := by
      rw [computeMd5sum, h.node]
    unfold unlinkFile
    simp only [stripSlash_of_not hclean.not_hasSlash, h.node, hbackup, hmd5, hrecorded]
    rw [if_neg Bool.false_ne_true, if_neg hhash.symm]
    exact ⟨_, rfl⟩
  refine ⟨ret, _, hunlink, ?_⟩
  by_cases hdir : (ctx.shiftPacsave st.fs file).node (pacsave file) = some .dir
  · refine Or.inl ⟨?_, ?_⟩
    · have hfail : ((ctx.shiftPacsave st.fs file).rename file (pacsave file)).2 =
          ctx.shiftPacsave st.fs file := by
        unfold FileSystem.rename
        rw [hsame.node]
        dsimp only
        rw [if_neg hne, if_pos hdir]
      rwa [hfail]
    · by_contra hroom
      exact shiftPacsave_pacsave hroom hdir
  · rw [FileSystem.rename_node_of_node hsame.node (by simp) hdir hne]
    refine Or.inr ⟨⟨fun dir habove => ?_, ?_⟩, FileSystem.remove_node_self⟩
    · have habove : dir ++ ['/'] <+: file := dir_prefix_of_append (by decide) habove
      have hdirFile : dir ≠ file := by
        rintro rfl
        have hlength := habove.length_le
        simp at hlength
      have hdirPacsave : dir ≠ pacsave file := fun heq =>
        SaveName.not_under _ (Or.inl rfl) (Or.inr habove) (Or.inl heq)
      rw [FileSystem.remove_node_of_ne hdirFile, FileSystem.set_node_of_ne hdirPacsave]
      exact hsame.parents dir habove
    · rw [FileSystem.remove_node_of_ne hne.symm, FileSystem.set_node_self]

end CommitContext

/-! ## Extracting -/

/-- An extraction changes what is at the path or below it, and what stands where a directory
above the path should be.  A file that was extracted is at the path. -/
structure System.Extracts (sys : System) : Prop where
  frame : ∀ fs path node q, ¬ Under path q → fs.node q = some .dir ∨ ¬ Under q path →
    (sys.extract fs path node).2.node q = fs.node q
  file : ∀ fs path content, (sys.extract fs path (.file content)).1 →
    (sys.extract fs path (.file content)).2.node path = some (.file content)

namespace CommitContext

variable {ctx : CommitContext} {st : CommitState} {fs : FileSystem}
  {file keep path q content : CString} {newpkg : Pkg} {oldpkg : Option Pkg} {entry : ArchiveEntry}

theorem tryRename_node {src dst : CString} (hsrc : ¬ Under src q) (hdst : ¬ Under dst q) :
    (tryRename fs src dst).2.node q = fs.node q :=
  FileSystem.rename_node_of_not_under hsrc hdst

theorem chooseFile_node {hashOrig : Option CString} {isnewfile : Bool} (hpath : ¬ Under path q)
    (hpacnew : ¬ Under (pacnew path) q) :
    (ctx.chooseFile fs path hashOrig isnewfile).2.node q = fs.node q := by
  have hremove : (fs.remove (pacnew path)).node q = fs.node q :=
    FileSystem.remove_node_of_ne fun h => hpacnew (Or.inl h)
  unfold chooseFile
  dsimp only
  split_ifs
  · exact tryRename_node hpacnew hpath
  · exact hremove
  · rfl
  · exact tryRename_node hpacnew hpath
  · rfl

theorem extractNode_node (hextracts : ctx.sys.Extracts) {node : Node} {notouch : Bool}
    {hash : Option (Option CString)} (hpath : ¬ Under path q)
    (habove : fs.node q = some .dir ∨ ¬ Under q path)
    (hpacnew : notouch = true ∨ hash.isSome → ¬ Under (pacnew path) q ∧
      (fs.node q = some .dir ∨ ¬ Under q (pacnew path))) :
    (ctx.extractNode fs path node notouch hash).2.node q = fs.node q := by
  have hframe := hextracts.frame fs path node q hpath habove
  have hframePacnew : notouch = true ∨ hash.isSome →
      (ctx.sys.extract fs (pacnew path) node).2.node q = fs.node q := fun h =>
    hextracts.frame fs (pacnew path) node q (hpacnew h).1 (hpacnew h).2
  cases notouch with
  | true => exact hframePacnew (Or.inl rfl)
  | false =>
    cases hash with
    | none => exact hframe
    | some hashOrig =>
      show (if (ctx.sys.extract fs (pacnew path) node).1 then
        ctx.chooseFile (ctx.sys.extract fs (pacnew path) node).2 path hashOrig _
        else (1, (ctx.sys.extract fs (pacnew path) node).2)).2.node q = _
      by_cases hok : (ctx.sys.extract fs (pacnew path) node).1
      · rw [if_pos hok, chooseFile_node hpath (hpacnew (Or.inr rfl)).1, hframePacnew (Or.inr rfl)]
      · rw [if_neg hok]
        exact hframePacnew (Or.inr rfl)

/-- What the extraction of an entry comes to. -/
theorem extractSingleFile_cases (ctx : CommitContext) (newpkg : Pkg) (oldpkg : Option Pkg)
    (fs : FileSystem) (entry : ArchiveEntry) :
    (ctx.extractSingleFile newpkg oldpkg fs entry).2 = fs ∨
      entry.pathname ∈ newpkg.files ∧ fs.node (stripSlash entry.pathname) ≠ some .dir ∧
        fnmatchPatterns ctx.sys ctx.opts.noextract entry.pathname ≠ 0 ∧
        ∃ notouch hash, ctx.extractSingleFile newpkg oldpkg fs entry =
            ctx.extractNode fs (stripSlash entry.pathname) entry.node notouch hash ∧
          ((fs.node (stripSlash entry.pathname) = none ∨ entry.node = .dir) ∧
              notouch = false ∧ hash = none ∨
            notouch = true ∧ fnmatchPatterns ctx.sys ctx.opts.noupgrade entry.pathname = 0 ∧
              hash = none ∨
            notouch = false ∧ fnmatchPatterns ctx.sys ctx.opts.noupgrade entry.pathname ≠ 0 ∧
              hash = backupHash newpkg oldpkg entry.pathname) := by
  unfold extractSingleFile
  dsimp only
  by_cases hdb : deref entry.pathname = '.'
  · exact Or.inl (by rw [if_pos hdb])
  by_cases hfiles : entry.pathname ∈ newpkg.files
  swap
  · exact Or.inl (by rw [if_neg hdb, if_pos (by simpa [filelistContains] using hfiles)])
  by_cases hnoextract : fnmatchPatterns ctx.sys ctx.opts.noextract entry.pathname = 0
  · exact Or.inl (by rw [if_neg hdb, if_neg (by simpa using hfiles), if_pos hnoextract])
  rw [if_neg hdb, if_neg (by simpa using hfiles), if_neg hnoextract]
  split
  next hnone =>
    exact Or.inr ⟨hfiles, by simp [hnone], hnoextract, false, none, rfl,
      Or.inl ⟨Or.inl hnone, rfl, rfl⟩⟩
  · exact Or.inl (by split_ifs <;> rfl)
  next node hdir hnode =>
    refine Or.inr ⟨hfiles, fun h => hdir (Option.some.inj (hnode.symm.trans h)), hnoextract, ?_⟩
    by_cases hentry : entry.node = .dir
    · rw [if_pos hentry]
      exact ⟨false, none, rfl, Or.inl ⟨Or.inr hentry, rfl, rfl⟩⟩
    rw [if_neg hentry]
    by_cases hnoupgrade : fnmatchPatterns ctx.sys ctx.opts.noupgrade entry.pathname = 0
    · rw [if_pos hnoupgrade]
      exact ⟨true, none, rfl, Or.inr (Or.inl ⟨rfl, hnoupgrade, rfl⟩)⟩
    · rw [if_neg hnoupgrade]
      exact ⟨false, _, rfl, Or.inr (Or.inr ⟨rfl, hnoupgrade, rfl⟩)⟩

/-- **A path apart from the kept one**: its extraction does not touch the kept path, and neither a
directory above it. -/
theorem extractSingleFile_same (hextracts : ctx.sys.Extracts) (hparents : fs.HasParents keep)
    (hapart : entry.pathname ∈ newpkg.files →
      fnmatchPatterns ctx.sys ctx.opts.noextract entry.pathname ≠ 0 →
        ExtractsApart ctx keep newpkg oldpkg entry.pathname) :
    SameKept keep fs (ctx.extractSingleFile newpkg oldpkg fs entry).2 := by
  intro q hq
  rcases extractSingleFile_cases ctx newpkg oldpkg fs entry with
    hsame | ⟨hfiles, hdir, hnoextract, notouch, hash, hextract, hcase⟩
  · rw [hsame]
  have hapart := hapart hfiles hnoextract
  have hne : stripSlash entry.pathname ≠ keep := fun heq =>
    hapart.below (Or.inl heq)
  have habove : fs.node q = some .dir ∨ q = keep := by
    rcases hq with rfl | hdir
    · exact Or.inr rfl
    · exact Or.inl (hparents q hdir)
  have hneed : notouch = true ∨ hash.isSome →
      fnmatchPatterns ctx.sys ctx.opts.noupgrade entry.pathname = 0 ∨
        (backupHash newpkg oldpkg entry.pathname).isSome := by
    rcases hcase with ⟨-, rfl, rfl⟩ | ⟨-, hnoupgrade, -⟩ | ⟨rfl, -, rfl⟩
    · simp
    · exact fun _ => Or.inl hnoupgrade
    · exact fun h => Or.inr (h.resolve_left Bool.false_ne_true)
  have hbelow : fs.node q = some .dir ∨ ¬ Under q (stripSlash entry.pathname) :=
    habove.imp_right fun heq => by
      rw [heq]
      exact hapart.below
  rw [hextract]
  refine extractNode_node hextracts (fun h => hparents.not_under hne hdir (h.trans hq)) hbelow
    fun hused => ?_
  have hpacnew := hapart.pacnew (hneed hused)
  refine ⟨fun h => hpacnew (h.trans hq), habove.imp_right ?_⟩
  rintro rfl (heq | hdir)
  · exact hpacnew (Or.inl heq.symm)
  · exact hapart.below (Or.inr (dir_prefix_of_append (by decide) hdir))

/-- **The three hashes** decide for the edited file, which is neither what was installed nor, unless
it is the same, what is in the new package.  So the edited file stays, and the new one is left under
its `.pacnew` name or dropped. -/
theorem chooseFile_same (hinj : Function.Injective ctx.sys.md5) {new : CString}
    (hpacnew : fs.node (pacnew file) = some (.file new)) {hashOrig : Option CString}
    (hhash : hashOrig ≠ some (ctx.sys.md5 content)) (isnewfile : Bool)
    (h : fs.node file = some (.file content)) (hq : ¬ Under (pacnew file) q) :
    (ctx.chooseFile fs file hashOrig isnewfile).2.node q = fs.node q := by
  have hlocal : computeMd5sum ctx.sys fs file = some (ctx.sys.md5 content) := by
    rw [computeMd5sum, h]
  have hpkg : computeMd5sum ctx.sys fs (pacnew file) = some (ctx.sys.md5 new) := by
    rw [computeMd5sum, hpacnew]
  have hqne : q ≠ pacnew file := fun heq => hq (Or.inl heq)
  unfold chooseFile
  dsimp only
  rw [hlocal, hpkg]
  split_ifs with hsame horig hnew hunchanged
  · -- the new file has the user's content
    obtain rfl : content = new := by simpa using hinj.eq_iff.mp (by simpa using hsame)
    have hne : pacnew file ≠ file := fun heq =>
      @not_under_append file (str ".pacnew") (by decide) (by decide) (Or.inl heq)
    have hrename : (tryRename fs (pacnew file) file).2 =
        (fs.set file (some (.file content))).remove (pacnew file) := by
      rw [tryRename, FileSystem.rename_node_of_node hpacnew (by simp) (by simp [h]) hne]
    rw [hrename, FileSystem.remove_node_of_ne hqne]
    by_cases hqfile : q = file
    · rw [hqfile, FileSystem.set_node_self, h]
    · exact FileSystem.set_node_of_ne hqfile
  · exact FileSystem.remove_node_of_ne hqne
  · rfl
  · have hlocal : hashOrig.isSome ∧ hashOrig = some (ctx.sys.md5 content) := by
      simpa using hunchanged
    exact absurd hlocal.2 hhash
  · rfl

/-- The new version of a file leaves the edited one alone: the file is not to be upgraded, not to be
extracted, or a backup of it is needed and the recorded hash is not that of the content. -/
def Guarded (ctx : CommitContext) (file content : CString) (newpkg : Pkg) (oldpkg : Option Pkg) :
    Prop :=
  fnmatchPatterns ctx.sys ctx.opts.noupgrade file = 0 ∨
    fnmatchPatterns ctx.sys ctx.opts.noextract file = 0 ∨
      ∃ hash, backupHash newpkg oldpkg file = some hash ∧ hash ≠ some (ctx.sys.md5 content)

/-- What an archive may hold as the new version of a file that is to stay: a regular file.  It is
never looked at if the file is not to be extracted, and if it is not to be upgraded a link will do,
for only a directory is extracted over the file then. -/
def Harmless (ctx : CommitContext) (file : CString) (node : Node) : Prop :=
  (∃ new, node = .file new) ∨ fnmatchPatterns ctx.sys ctx.opts.noextract file = 0 ∨
    fnmatchPatterns ctx.sys ctx.opts.noupgrade file = 0 ∧ node ≠ .dir

/-- **A new version of the file** leaves the edited one alone, and what is neither its `.pacnew`
name nor below that. -/
theorem extractSingleFile_home (hextracts : ctx.sys.Extracts)
    (hinj : Function.Injective ctx.sys.md5) (hclean : CleanPath file)
    (hfile : entry.pathname = file) (hnode : Harmless ctx file entry.node)
    (hguard : file ∈ newpkg.files → Guarded ctx file content newpkg oldpkg)
    (h : fs.node file = some (.file content)) (hq : ¬ Under (pacnew file) q)
    (habove : fs.node q = some .dir ∨ ¬ Under q (pacnew file)) :
    (ctx.extractSingleFile newpkg oldpkg fs entry).2.node q = fs.node q := by
  subst hfile
  have hstrip := stripSlash_of_not hclean.not_hasSlash
  have hpacnew := hextracts.frame fs (pacnew entry.pathname) entry.node q hq habove
  rcases extractSingleFile_cases ctx newpkg oldpkg fs entry with
    hsame | ⟨hfiles, -, hnoextract, notouch, hash, hextract, hcase⟩
  · rw [hsame]
  rw [hstrip] at hextract hcase
  have hnode := hnode.imp_right fun hharmless => hharmless.resolve_left hnoextract
  rw [hextract]
  rcases hcase with ⟨hnone | hdir, -, -⟩ | ⟨rfl, -, -⟩ | ⟨rfl, hnoupgrade, rfl⟩
  · rw [h] at hnone
    cases hnone
  · rcases hnode with ⟨new, hnew⟩ | ⟨-, hnotDir⟩
    · rw [hnew] at hdir
      cases hdir
    · exact absurd hdir hnotDir
  · exact hpacnew
  · obtain ⟨new, hnew⟩ := hnode.resolve_right fun hmatch => hnoupgrade hmatch.1
    rw [hnew] at hpacnew ⊢
    obtain ⟨hashOrig, hbackup, hhash⟩ :=
      ((hguard hfiles).resolve_left hnoupgrade).resolve_left hnoextract
    have hfileNode := hextracts.frame fs (pacnew entry.pathname) (.file new) entry.pathname
      (not_under_of_append (by decide)) (Or.inr (not_under_append (by decide) (by decide)))
    rw [hbackup]
    show (if (ctx.sys.extract fs (pacnew entry.pathname) (.file new)).1 then
      ctx.chooseFile (ctx.sys.extract fs (pacnew entry.pathname) (.file new)).2 entry.pathname
        hashOrig _
      else (1, (ctx.sys.extract fs (pacnew entry.pathname) (.file new)).2)).2.node q = _
    by_cases hok : (ctx.sys.extract fs (pacnew entry.pathname) (.file new)).1
    · rw [if_pos hok, chooseFile_same hinj (hextracts.file _ _ _ hok) hhash _
        (hfileNode.trans h) hq, hpacnew]
    · rw [if_neg hok]
      exact hpacnew

end CommitContext

/-! ## Packages -/

/-- The package has a hash for the file, and it is not that of the edited content.  An entry without
a hash is no case of this: on such an entry the process dies. -/
def EditedIn (sys : System) (file content : CString) (pkg : Pkg) : Prop :=
  ∃ backup hash, needbackup file pkg = some backup ∧ backup.hash = some hash ∧
    hash ≠ sys.md5 content

/-- Nothing fails, and the flags are those of a commit that saves edited files. -/
structure CommitContext.Saves (ctx : CommitContext) : Prop where
  extracts : ctx.sys.Extracts
  md5_injective : Function.Injective ctx.sys.md5
  canRemove : ∀ path, ctx.sys.canRemove path
  nosave : ctx.flags.nosave = false
  dbonly : ctx.flags.dbonly = false

/-- **The content stands at the file.**  When the file may have to be saved (`touched`) and there
was room for that at its `.pacsave` name (`room`), there still is. -/
structure Home (touched room : Prop) (fs : FileSystem) (file content : CString) : Prop where
  holds : Holds fs file content
  pacsave : touched → room → fs.node (pacsave file) ≠ some .dir

/-- The other paths that go with a package keep apart from the file, and when it may have to be
saved from its `.pacsave` name.  `newpkg` is the package that replaces it, if there is one. -/
structure FilesApart (ctx : CommitContext) (touched : Prop) (file : CString) (pkg : Pkg)
    (newpkg : Option Pkg) (files : List CString) : Prop where
  home : ∀ path ∈ files, path ≠ file → ¬ ctx.shouldSkipFile newpkg path →
    RemovesApart file pkg path
  saved : touched → ∀ path ∈ files, path ≠ file → ¬ ctx.shouldSkipFile newpkg path →
    RemovesApart (pacsave file) pkg path

/-- The other paths of a target keep apart from the `.pacsave` name of the file, so that what was
saved there is not written over. -/
def ExtractsSaved (ctx : CommitContext) (file : CString) (target : AddTarget)
    (oldpkg : Option Pkg) : Prop :=
  ∀ path ∈ target.pkg.files, path ≠ file →
    fnmatchPatterns ctx.sys ctx.opts.noextract path ≠ 0 →
      ExtractsApart ctx (pacsave file) target.pkg oldpkg path

/-- The target keeps apart from the file altogether: it does not have it either. -/
def ExtractsOff (ctx : CommitContext) (file : CString) (target : AddTarget) (oldpkg : Option Pkg) :
    Prop :=
  ∀ path ∈ target.pkg.files, fnmatchPatterns ctx.sys ctx.opts.noextract path ≠ 0 →
    ExtractsApart ctx file target.pkg oldpkg path

/-- The other paths of a target keep apart from the file, and its new version, if it has one, leaves
the edited one alone. -/
structure ExtractsHome (ctx : CommitContext) (file content : CString) (target : AddTarget)
    (oldpkg : Option Pkg) : Prop where
  guarded : file ∈ target.pkg.files → Guarded ctx file content target.pkg oldpkg
  harmless : file ∈ target.pkg.files → ∀ entry ∈ target.archive, entry.pathname = file →
    Harmless ctx file entry.node
  apart : ∀ path ∈ target.pkg.files, path ≠ file →
    fnmatchPatterns ctx.sys ctx.opts.noextract path ≠ 0 →
      ExtractsApart ctx file target.pkg oldpkg path

/-- The old version of a target takes the file away. -/
def TakesFile (ctx : CommitContext) (file : CString) (target : AddTarget) (oldpkg : Option Pkg) :
    Prop :=
  ∃ pkg ∈ oldpkg, file ∈ pkg.files ∧ ¬ ctx.shouldSkipFile (some target.pkg) file

/-- The old version of a target takes the file away and has an entry for it in its backup array, so
it may save what it finds at the file over what was saved before. -/
def TakesBackup (ctx : CommitContext) (file : CString) (target : AddTarget)
    (oldpkg : Option Pkg) : Prop :=
  ∃ pkg ∈ oldpkg, file ∈ pkg.files ∧ ¬ ctx.shouldSkipFile (some target.pkg) file ∧
    (needbackup file pkg).isSome

/-- What is saved once is not saved over by the targets that are left: when the old version of one
of them might do so, there is nothing at the file, and no other one puts anything there. -/
def SavedOnce (ctx : CommitContext) (file : CString) (fs : FileSystem) (localdb : List Pkg)
    (add : List AddTarget) : Prop :=
  ∀ target ∈ add, TakesBackup ctx file target (replacedPkg localdb target) →
    fs.node file = none ∧ ∀ other ∈ add, other.pkg.name ≠ target.pkg.name →
      ExtractsOff ctx file other (replacedPkg localdb other)

/-- What the targets must be like for the installations to keep the file.  The old versions keep
apart from it; and when one of them might save a second time, no other takes the file away or no
other target puts anything there. -/
structure UpgradesApart (ctx : CommitContext) (touched : Prop) (file : CString)
    (localdb : List Pkg) (add : List AddTarget) : Prop where
  names : (add.map (·.pkg.name)).Nodup
  saved : ∀ target ∈ add, touched → ExtractsSaved ctx file target (replacedPkg localdb target)
  old : ∀ target ∈ add, ∀ pkg ∈ replacedPkg localdb target, pkg.name = target.pkg.name ∧
    FilesApart ctx touched file pkg (some target.pkg) pkg.files
  once : ∀ target ∈ add, TakesBackup ctx file target (replacedPkg localdb target) →
    (∀ other ∈ add, other.pkg.name ≠ target.pkg.name →
      ¬ TakesFile ctx file other (replacedPkg localdb other)) ∨
    ∀ other ∈ add, other.pkg.name ≠ target.pkg.name →
      ExtractsOff ctx file other (replacedPkg localdb other)

theorem FilesApart.mono {ctx : CommitContext} {touched : Prop} {file : CString} {pkg : Pkg}
    {newpkg : Option Pkg} {files files' : List CString}
    (h : FilesApart ctx touched file pkg newpkg files) (hsub : files' ⊆ files) :
    FilesApart ctx touched file pkg newpkg files' where
  home path hpath := h.home path (hsub hpath)
  saved htouched path hpath := h.saved htouched path (hsub hpath)

namespace CommitContext.Saves

variable {ctx : CommitContext} {st : CommitState} {file keep content : CString} {oldpkg : Pkg}
  {newpkg : Option Pkg} {files : List CString} {touched room : Prop}

theorem removeFile_kept {path q : CString} (hparents : st.fs.HasParents keep)
    (hapart : ¬ ctx.shouldSkipFile newpkg path → RemovesApart keep oldpkg path)
    (hq : q = keep ∨ q ++ ['/'] <+: keep ∧ st.fs.readdir q ≠ []) :
    (ctx.removeFile oldpkg newpkg st path).fs.node q = st.fs.node q := by
  unfold removeFile
  split_ifs with hskip
  · rfl
  cases hunlink : ctx.unlinkFile st oldpkg newpkg path ctx.flags.nosave with
  | none => rfl
  | some result => exact unlinkFile_kept hparents (hapart hskip) hunlink hq

theorem removeFile_same (hclean : CleanPath keep) (hholds : Holds st.fs keep content)
    {path : CString} (hapart : ¬ ctx.shouldSkipFile newpkg path → RemovesApart keep oldpkg path) :
    SameKept keep st.fs (ctx.removeFile oldpkg newpkg st path).fs := fun _ hq =>
  removeFile_kept hholds.parents hapart
    (hq.imp Eq.symm fun h => ⟨h, readdir_ne_nil hclean hholds h⟩)

theorem removeFile_home (hclean : CleanPath file) {path : CString} (hne : path ≠ file)
    (hmem : path ∈ files) (hapart : FilesApart ctx touched file oldpkg newpkg files)
    (hhome : Home touched room st.fs file content) :
    Home touched room (ctx.removeFile oldpkg newpkg st path).fs file content where
  holds := (removeFile_same hclean hhome.holds (hapart.home path hmem hne)).holds hhome.holds
  pacsave htouched hroom := by
    rw [removeFile_kept (FileSystem.hasParents_pacsave.mpr hhome.holds.parents)
      (hapart.saved htouched path hmem hne) (Or.inl rfl)]
    exact hhome.pacsave htouched hroom

theorem removeFile_of_skip {path : CString} (hskip : ctx.shouldSkipFile newpkg path) :
    ctx.removeFile oldpkg newpkg st path = st := by
  rw [removeFile, if_pos hskip]

/-- Once the file is saved there is nothing left to remove. -/
theorem removeFile_of_none (hclean : CleanPath file) (hnone : st.fs.node file = none) :
    ctx.removeFile oldpkg newpkg st file = st := by
  unfold removeFile unlinkFile
  simp only [stripSlash_of_not hclean.not_hasSlash, hnone]
  split_ifs <;> rfl

/-- **The file itself, after it was saved**: what stands there now may go, but the saved copy stays,
for a package without an entry for the file in its backup array saves nothing over it. -/
theorem removeFile_saved (hclean : CleanPath file)
    (hgone : ctx.shouldSkipFile newpkg file ∨ st.fs.node file = none ∨
      needbackup file oldpkg = none) (hsaved : Holds st.fs (pacsave file) content) :
    Holds (ctx.removeFile oldpkg newpkg st file).fs (pacsave file) content ∧
      (st.fs.node file = none → (ctx.removeFile oldpkg newpkg st file).fs.node file = none) := by
  rcases hgone with hskip | hnone | hbackup
  · rw [removeFile_of_skip hskip]
    exact ⟨hsaved, id⟩
  · rw [removeFile_of_none hclean hnone]
    exact ⟨hsaved, id⟩
  refine ⟨?_, fun hnone => by rw [removeFile_of_none hclean hnone, hnone]⟩
  unfold removeFile
  split_ifs
  · exact hsaved
  split
  next ret fs hunlink =>
    rcases unlinkFile_cases hunlink with hfs | ⟨hfs, -⟩ | ⟨hsome, -⟩
    · rwa [hfs]
    · refine SameKept.holds (fun q hq => ?_) hsaved
      rw [hfs, stripSlash_of_not hclean.not_hasSlash]
      refine FileSystem.remove_node_of_ne ?_
      rintro rfl
      exact not_under_append (by decide) (by decide) hq
    · rw [hbackup] at hsome
      cases hsome
  · exact hsaved

theorem foldl_removeFile_saved (hclean : CleanPath file) (htouched : touched)
    (hapart : FilesApart ctx touched file oldpkg newpkg files)
    (hgone : file ∈ files → ctx.shouldSkipFile newpkg file ∨ st.fs.node file = none ∨
      needbackup file oldpkg = none) (hsaved : Holds st.fs (pacsave file) content) :
    Holds (files.foldl (ctx.removeFile oldpkg newpkg) st).fs (pacsave file) content ∧
      (st.fs.node file = none →
        (files.foldl (ctx.removeFile oldpkg newpkg) st).fs.node file = none) := by
  induction files generalizing st with
  | nil => exact ⟨hsaved, id⟩
  | cons path files ih =>
    have hrest := hapart.mono (List.subset_cons_self path files)
    rw [List.foldl_cons]
    suffices hstep : Holds (ctx.removeFile oldpkg newpkg st path).fs (pacsave file) content ∧
        (st.fs.node file = none →
          (ctx.removeFile oldpkg newpkg st path).fs.node file = none) by
      obtain ⟨hsaved, hnone⟩ := @ih (ctx.removeFile oldpkg newpkg st path) hrest (fun hin =>
        (hgone (List.mem_cons_of_mem _ hin)).imp_right (Or.imp_left hstep.2)) hstep.1
      exact ⟨hsaved, fun h => hnone (hstep.2 h)⟩
    by_cases hpath : path = file
    · subst hpath
      exact removeFile_saved hclean (hgone (List.mem_cons_self ..)) hsaved
    · have hmem := List.mem_cons_self (a := path) (l := files)
      have hsame := @removeFile_same ctx st _ content oldpkg newpkg hclean.pacsave hsaved path
        (hapart.saved htouched path hmem hpath)
      refine ⟨hsame.holds hsaved, fun hnone => ?_⟩
      rw [removeFile_kept (FileSystem.hasParents_pacsave.mp hsaved.parents)
        (hapart.home path hmem hpath) (Or.inl rfl), hnone]

/-- **Removing a package** with the file saves it, unless the file is skipped or there is no room
for it. -/
theorem foldl_removeFile_home (h : ctx.Saves) (hclean : CleanPath file)
    (hapart : FilesApart ctx touched file oldpkg newpkg files)
    (hedited : file ∈ files → ctx.shouldSkipFile newpkg file ∨
      touched ∧ EditedIn ctx.sys file content oldpkg)
    (hhome : Home touched room st.fs file content) :
    Home touched room (files.foldl (ctx.removeFile oldpkg newpkg) st).fs file content ∧
        (file ∈ files → ctx.shouldSkipFile newpkg file ∨ ¬ room) ∨
      (touched ∧ file ∈ files ∧ ¬ ctx.shouldSkipFile newpkg file) ∧
        Holds (files.foldl (ctx.removeFile oldpkg newpkg) st).fs (pacsave file) content ∧
          (files.foldl (ctx.removeFile oldpkg newpkg) st).fs.node file = none := by
  induction files generalizing st with
  | nil => exact Or.inl ⟨hhome, by simp⟩
  | cons path files ih =>
    have hrest := hapart.mono (List.subset_cons_self path files)
    have hlater := fun hin => hedited (List.mem_cons_of_mem path hin)
    rw [List.foldl_cons]
    by_cases hpath : path = file
    swap
    · have hnext := @removeFile_home ctx st file content oldpkg newpkg _ touched room hclean path
        hpath (List.mem_cons_self ..) hapart hhome
      refine (ih hrest hlater hnext).imp
        (And.imp_right fun hflag hin => hflag ((List.mem_cons.mp hin).resolve_left (Ne.symm hpath)))
        (And.imp_left fun hsaved => ⟨hsaved.1, List.mem_cons_of_mem _ hsaved.2.1, hsaved.2.2⟩)
    subst hpath
    by_cases hskip : ctx.shouldSkipFile newpkg path
    · rw [removeFile_of_skip hskip]
      exact (ih hrest hlater hhome).imp (And.imp_right fun _ _ => Or.inl hskip)
        fun hsaved => absurd hskip hsaved.1.2.2
    obtain ⟨htouched, backup, hash, hbackup, hrecorded, hhash⟩ :=
      (hedited (List.mem_cons_self ..)).resolve_left hskip
    obtain ⟨ret, fs, hunlink, hend⟩ := @unlinkFile_home ctx st path content oldpkg newpkg hclean
      hhome.holds backup hash hbackup hrecorded hhash
    have hround : ctx.removeFile oldpkg newpkg st path = { st with fs } := by
      rw [removeFile, if_neg hskip, h.nosave, hunlink]
    rw [hround]
    rcases hend with ⟨hholds, hdir⟩ | ⟨hsaved, hnone⟩
    · have hfull : ¬ room := fun hroom => hhome.pacsave htouched hroom hdir
      have hnext : Home touched room fs path content := ⟨hholds, fun _ hroom => absurd hroom hfull⟩
      exact (ih hrest hlater hnext).imp (And.imp_right fun _ _ => Or.inr hfull)
        (And.imp_left fun hsaved => ⟨hsaved.1, List.mem_cons_self .., hskip⟩)
    · have hgone := @foldl_removeFile_saved ctx { st with fs } path content oldpkg newpkg files
        touched hclean htouched hrest (fun _ => Or.inr (Or.inl hnone)) hsaved
      exact Or.inr ⟨⟨htouched, List.mem_cons_self .., hskip⟩, hgone.1, hgone.2 hnone⟩

theorem removeSinglePackage_fs (h : ctx.Saves) (st : CommitState) (oldpkg : Pkg)
    (newpkg : Option Pkg) : (ctx.removeSinglePackage st oldpkg newpkg).fs =
      (oldpkg.files.reverse.foldl (ctx.removeFile oldpkg newpkg) st).fs := by
  have hall : (oldpkg.files.all fun file =>
      ctx.shouldSkipFile newpkg file || ctx.sys.canRemove file) = true := by
    simp [h.canRemove]
  simp only [removeSinglePackage, h.dbonly, removePackageFiles, if_pos hall]
  rfl

theorem removeSinglePackage_home (h : ctx.Saves) (hclean : CleanPath file)
    (hapart : FilesApart ctx touched file oldpkg newpkg oldpkg.files)
    (hedited : file ∈ oldpkg.files → ctx.shouldSkipFile newpkg file ∨
      touched ∧ EditedIn ctx.sys file content oldpkg)
    (hhome : Home touched room st.fs file content) :
    Home touched room (ctx.removeSinglePackage st oldpkg newpkg).fs file content ∧
        (file ∈ oldpkg.files → ctx.shouldSkipFile newpkg file ∨ ¬ room) ∨
      (touched ∧ file ∈ oldpkg.files ∧ ¬ ctx.shouldSkipFile newpkg file) ∧
        Holds (ctx.removeSinglePackage st oldpkg newpkg).fs (pacsave file) content ∧
          (ctx.removeSinglePackage st oldpkg newpkg).fs.node file = none := by
  rw [h.removeSinglePackage_fs]
  have hfold := @foldl_removeFile_home ctx st file content oldpkg newpkg oldpkg.files.reverse
    touched room h hclean (hapart.mono fun path hpath => List.mem_reverse.mp hpath)
    (fun hin => hedited (List.mem_reverse.mp hin)) hhome
  rwa [List.mem_reverse] at hfold

theorem removeSinglePackage_saved (h : ctx.Saves) (hclean : CleanPath file)
    (htouched : touched) (hapart : FilesApart ctx touched file oldpkg newpkg oldpkg.files)
    (hgone : file ∈ oldpkg.files → ctx.shouldSkipFile newpkg file ∨ st.fs.node file = none ∨
      needbackup file oldpkg = none)
    (hsaved : Holds st.fs (pacsave file) content) :
    Holds (ctx.removeSinglePackage st oldpkg newpkg).fs (pacsave file) content ∧
      (st.fs.node file = none →
        (ctx.removeSinglePackage st oldpkg newpkg).fs.node file = none) := by
  rw [h.removeSinglePackage_fs]
  exact foldl_removeFile_saved hclean htouched
    (hapart.mono fun path hpath => List.mem_reverse.mp hpath)
    (fun hin => hgone (List.mem_reverse.mp hin)) hsaved

theorem foldl_removeSinglePackage_saved (h : ctx.Saves) (hclean : CleanPath file)
    (htouched : touched) {remove : List Pkg}
    (hremove : ∀ pkg ∈ remove, FilesApart ctx touched file pkg none pkg.files)
    (hsaved : Holds st.fs (pacsave file) content) (hnode : st.fs.node file = none) :
    Holds (remove.foldl (fun st pkg => ctx.removeSinglePackage st pkg none) st).fs (pacsave file)
        content ∧
      (remove.foldl (fun st pkg => ctx.removeSinglePackage st pkg none) st).fs.node file =
        none := by
  induction remove generalizing st with
  | nil => exact ⟨hsaved, hnode⟩
  | cons pkg remove ih =>
    obtain ⟨hapart, hremove⟩ := List.forall_mem_cons.mp hremove
    obtain ⟨hnext, hnextNode⟩ := @removeSinglePackage_saved ctx st file content pkg none touched h
      hclean htouched hapart (fun _ => Or.inr (Or.inl hnode)) hsaved
    exact ih hremove hnext (hnextNode hnode)

/-- **The removals** of a transaction leave the file alone or save it.  Once it is saved the
packages that are still to be removed find nothing at the file, and keep apart from the name that it
is saved to. -/
theorem removePackages_home (h : ctx.Saves) (hclean : CleanPath file) {remove : List Pkg}
    (hremove : ∀ pkg ∈ remove, FilesApart ctx touched file pkg none pkg.files ∧
      (file ∈ pkg.files → ctx.shouldSkipFile none file ∨
        touched ∧ EditedIn ctx.sys file content pkg))
    (hinterrupted : st.interrupted = false) (hhome : Home touched room st.fs file content) :
    Home touched room (ctx.removePackages remove st).fs file content ∧
        (∀ pkg ∈ remove, file ∈ pkg.files → ctx.shouldSkipFile none file ∨ ¬ room) ∨
      (touched ∧ ∃ pkg ∈ remove, file ∈ pkg.files ∧ ¬ ctx.shouldSkipFile none file) ∧
        Holds (ctx.removePackages remove st).fs (pacsave file) content ∧
          (ctx.removePackages remove st).fs.node file = none := by
  rw [removePackages_eq hinterrupted]
  clear hinterrupted
  induction remove generalizing st with
  | nil => exact Or.inl ⟨hhome, by simp⟩
  | cons pkg remove ih =>
    obtain ⟨⟨hapart, hedited⟩, hremove⟩ := List.forall_mem_cons.mp hremove
    rw [List.foldl_cons]
    rcases @removeSinglePackage_home ctx st file content pkg none touched room h hclean hapart
      hedited hhome with ⟨hnext, hflag⟩ | ⟨⟨htouched, htakes⟩, hsaved, hgone⟩
    · exact (ih hremove hnext).imp
        (And.imp_right fun hrest => List.forall_mem_cons.mpr ⟨hflag, hrest⟩)
        (And.imp_left (And.imp_right
          (Exists.imp fun _ => And.imp_left (List.mem_cons_of_mem pkg))))
    · exact Or.inr ⟨⟨htouched, pkg, List.mem_cons_self .., htakes⟩,
        h.foldl_removeSinglePackage_saved hclean htouched (fun p hp => (hremove p hp).1) hsaved
          hgone⟩

/-- What every entry of an archive keeps, the archive keeps. -/
theorem extractArchive_induction {P : FileSystem → Prop} {newpkg : Pkg} {oldpkg : Option Pkg}
    {archive : List ArchiveEntry} {fs : FileSystem}
    (hstep : ∀ entry ∈ archive, ∀ fs, P fs → P (ctx.extractSingleFile newpkg oldpkg fs entry).2)
    (hfs : P fs) : P (ctx.extractArchive newpkg oldpkg archive fs).2 := by
  unfold extractArchive
  generalize 0 = errors
  induction archive generalizing fs errors with
  | nil => exact hfs
  | cons entry archive ih =>
    obtain ⟨hentry, harchive⟩ := List.forall_mem_cons.mp hstep
    exact ih harchive (hentry fs hfs) _

/-- A target that keeps apart from the file leaves what is there, if only nothing. -/
theorem extractArchive_off (h : ctx.Saves) {target : AddTarget} {oldpkg : Option Pkg}
    {fs : FileSystem} (htarget : ExtractsOff ctx file target oldpkg)
    (hparents : fs.HasParents file) :
    (ctx.extractArchive target.pkg oldpkg target.archive fs).2.node file = fs.node file := by
  refine (extractArchive_induction
    (P := fun fs' => fs'.HasParents file ∧ fs'.node file = fs.node file) ?_ ⟨hparents, rfl⟩).2
  rintro entry - fs' ⟨hparents, hnode⟩
  have hsame := @extractSingleFile_same ctx fs' file target.pkg oldpkg entry h.extracts hparents
    (htarget entry.pathname)
  exact ⟨fun dir hdir => (hsame dir (Or.inr hdir)).trans (hparents dir hdir),
    (hsame file (Under.refl file)).trans hnode⟩

theorem extractArchive_saved (h : ctx.Saves) (hclean : CleanPath file) {target : AddTarget}
    {oldpkg : Option Pkg} {fs : FileSystem} (htarget : ExtractsSaved ctx file target oldpkg)
    (hsaved : Holds fs (pacsave file) content) :
    Holds (ctx.extractArchive target.pkg oldpkg target.archive fs).2 (pacsave file) content := by
  refine extractArchive_induction (P := fun fs => Holds fs (pacsave file) content)
    (fun entry _ fs hsaved => ?_) hsaved
  refine (extractSingleFile_same h.extracts hsaved.parents fun hin hnoextract => ?_).holds hsaved
  by_cases heq : entry.pathname = file
  · rw [heq]
    exact ExtractsApart.self hclean
  · exact htarget _ hin heq hnoextract

theorem extractArchive_home (h : ctx.Saves) (hclean : CleanPath file) {target : AddTarget}
    {oldpkg : Option Pkg} {fs : FileSystem} (htarget : ExtractsHome ctx file content target oldpkg)
    (hsave : touched → ExtractsSaved ctx file target oldpkg)
    (hhome : Home touched room fs file content) :
    Home touched room (ctx.extractArchive target.pkg oldpkg target.archive fs).2 file content := by
  refine extractArchive_induction (P := fun fs => Home touched room fs file content)
    (fun entry hentry fs hhome => ?_) hhome
  have hparents := FileSystem.hasParents_pacsave.mpr hhome.holds.parents
  by_cases heq : entry.pathname = file
  swap
  · refine ⟨(extractSingleFile_same h.extracts hhome.holds.parents fun hin =>
      htarget.apart _ hin heq).holds hhome.holds, fun htouched hroom => ?_⟩
    rw [extractSingleFile_same h.extracts hparents (fun hin => hsave htouched _ hin heq) _
      (Under.refl _)]
    exact hhome.pacsave htouched hroom
  by_cases hin : file ∈ target.pkg.files
  swap
  · have hsame : (ctx.extractSingleFile target.pkg oldpkg fs entry).2 = fs :=
      (extractSingleFile_cases ctx target.pkg oldpkg fs entry).resolve_right fun hcase =>
        hin (heq ▸ hcase.1)
    rwa [hsame]
  -- the new version of the file, which writes to the `.pacnew` name at most
  have hstep : ∀ q, ¬ Under (pacnew file) q → fs.node q = some .dir ∨ ¬ Under q (pacnew file) →
      (ctx.extractSingleFile target.pkg oldpkg fs entry).2.node q = fs.node q := by
    intro q hq habove
    exact extractSingleFile_home h.extracts h.md5_injective hclean heq
      (htarget.harmless hin entry hentry heq) htarget.guarded hhome.holds.node hq habove
  refine ⟨SameKept.holds (fun q hq => hstep q (fun hunder => ?_) ?_) hhome.holds,
    fun htouched hroom => ?_⟩
  · exact not_under_of_append (by decide) (hunder.trans hq)
  · rcases hq with rfl | hdir
    · exact Or.inr (not_under_append (by decide) (by decide))
    · exact Or.inl (hhome.holds.parents q hdir)
  · rw [hstep (pacsave file) (not_under_append_append (by decide) (by decide))
      (Or.inr (not_under_append_append (by decide) (by decide)))]
    exact hhome.pacsave htouched hroom

theorem commitSinglePkg_fs (h : ctx.Saves) (st : CommitState) (target : AddTarget) :
    (ctx.commitSinglePkg st target).2.fs =
      (ctx.extractArchive target.pkg (replacedPkg st.localdb target) target.archive
        (ctx.removeReplaced st target).fs).2 := by
  rw [commitSinglePkg_eq h.dbonly]

/-- **The commit of a target, after the file was saved**: the saved copy stays, and if there is
nothing at the file and the target keeps apart from it there is nothing afterwards. -/
theorem commitSinglePkg_saved (h : ctx.Saves) (hclean : CleanPath file) (htouched : touched)
    {target : AddTarget} (htarget : ExtractsSaved ctx file target (replacedPkg st.localdb target))
    (hold : ∀ pkg ∈ replacedPkg st.localdb target,
      FilesApart ctx touched file pkg (some target.pkg) pkg.files)
    (hgone : TakesBackup ctx file target (replacedPkg st.localdb target) →
      st.fs.node file = none)
    (hsaved : Holds st.fs (pacsave file) content) :
    Holds (ctx.commitSinglePkg st target).2.fs (pacsave file) content ∧
      (ExtractsOff ctx file target (replacedPkg st.localdb target) → st.fs.node file = none →
        (ctx.commitSinglePkg st target).2.fs.node file = none) := by
  rw [h.commitSinglePkg_fs]
  suffices hremoved : Holds (ctx.removeReplaced st target).fs (pacsave file) content ∧
      (st.fs.node file = none → (ctx.removeReplaced st target).fs.node file = none) by
    refine ⟨h.extractArchive_saved hclean htarget hremoved.1, fun hoff hnone => ?_⟩
    rw [h.extractArchive_off hoff (FileSystem.hasParents_pacsave.mp hremoved.1.parents)]
    exact hremoved.2 hnone
  unfold removeReplaced
  split
  next oldpkg hreplaced =>
    refine h.removeSinglePackage_saved hclean htouched (hold oldpkg hreplaced) (fun hin => ?_)
      hsaved
    by_cases hskip : ctx.shouldSkipFile (some target.pkg) file
    · exact Or.inl hskip
    cases hbackup : needbackup file oldpkg with
    | none => exact Or.inr (Or.inr rfl)
    | some backup =>
      exact Or.inr (Or.inl (hgone ⟨oldpkg, hreplaced, hin, hskip, by rw [hbackup]; rfl⟩))
  · exact ⟨hsaved, id⟩

/-- **The commit of a target** leaves the file alone, or saves it with the package that it replaces.
The old package is removed first, but for the files that are skipped, and then the new files are
extracted. -/
theorem commitSinglePkg_home (h : ctx.Saves) (hclean : CleanPath file) {target : AddTarget}
    (hsave : touched → ExtractsSaved ctx file target (replacedPkg st.localdb target))
    (hold : ∀ pkg ∈ replacedPkg st.localdb target,
      FilesApart ctx touched file pkg (some target.pkg) pkg.files)
    (hedited : ∀ pkg ∈ replacedPkg st.localdb target, file ∈ pkg.files →
      ctx.shouldSkipFile (some target.pkg) file ∨ touched ∧ EditedIn ctx.sys file content pkg)
    (htarget : ExtractsHome ctx file content target (replacedPkg st.localdb target) ∨
      room ∧ TakesFile ctx file target (replacedPkg st.localdb target))
    (hhome : Home touched room st.fs file content) :
    Home touched room (ctx.commitSinglePkg st target).2.fs file content ∨
      (touched ∧ TakesFile ctx file target (replacedPkg st.localdb target)) ∧
        Holds (ctx.commitSinglePkg st target).2.fs (pacsave file) content ∧
          (ExtractsOff ctx file target (replacedPkg st.localdb target) →
            (ctx.commitSinglePkg st target).2.fs.node file = none) := by
  rw [h.commitSinglePkg_fs]
  have hremoved : Home touched room (ctx.removeReplaced st target).fs file content ∧
        (TakesFile ctx file target (replacedPkg st.localdb target) → ¬ room) ∨
      (touched ∧ TakesFile ctx file target (replacedPkg st.localdb target)) ∧
        Holds (ctx.removeReplaced st target).fs (pacsave file) content ∧
          (ctx.removeReplaced st target).fs.node file = none := by
    unfold removeReplaced
    split
    next oldpkg hreplaced =>
      refine (h.removeSinglePackage_home hclean (hold oldpkg hreplaced) (hedited oldpkg hreplaced)
        hhome).imp (And.imp_right ?_) (And.imp_left (And.imp_right fun htakes =>
          ⟨oldpkg, hreplaced, htakes⟩))
      rintro hflag ⟨pkg, hpkg, hin, hskip⟩
      obtain rfl := Option.some.inj (hreplaced.symm.trans hpkg)
      exact (hflag hin).resolve_left hskip
    next hnone =>
      refine Or.inl ⟨hhome, ?_⟩
      rintro ⟨pkg, hpkg, -⟩
      cases hnone.symm.trans hpkg
  rcases hremoved with ⟨hhome, hflag⟩ | ⟨⟨htouched, htakes⟩, hsaved, hnone⟩
  · rcases htarget with htarget | ⟨hroom, htakes⟩
    · exact Or.inl (h.extractArchive_home hclean htarget hsave hhome)
    · exact absurd hroom (hflag htakes)
  · refine Or.inr ⟨⟨htouched, htakes⟩, h.extractArchive_saved hclean (hsave htouched) hsaved,
      fun hoff => ?_⟩
    rw [h.extractArchive_off hoff (FileSystem.hasParents_pacsave.mp hsaved.parents), hnone]

theorem foldl_upgradePackage_interrupted {add : List AddTarget}
    (hinterrupted : st.interrupted = true) : add.foldl ctx.upgradePackage st = st := by
  induction add with
  | nil => rfl
  | cons target add ih => rw [List.foldl_cons, upgradePackage, if_pos hinterrupted, ih]

theorem upgradePackage_eq (hinterrupted : st.interrupted = false) (target : AddTarget) :
    (ctx.upgradePackage st target).fs = (ctx.commitSinglePkg st target).2.fs ∧
      (ctx.upgradePackage st target).localdb = (ctx.commitSinglePkg st target).2.localdb := by
  unfold upgradePackage
  rw [hinterrupted, if_neg Bool.false_ne_true]
  dsimp only
  split_ifs <;> exact ⟨rfl, rfl⟩

/-- The rest of the targets, in the database after the first one. -/
theorem upgradesApart_tail (h : ctx.Saves) {target : AddTarget} {add : List AddTarget}
    (hadd : UpgradesApart ctx touched file st.localdb (target :: add))
    (hinterrupted : st.interrupted = false) :
    UpgradesApart ctx touched file (ctx.upgradePackage st target).localdb add ∧
      ∀ other ∈ add, replacedPkg (ctx.upgradePackage st target).localdb other =
        replacedPkg st.localdb other := by
  obtain ⟨hnotMem, hnames⟩ := List.nodup_cons.mp hadd.names
  have hreplaced : ∀ other ∈ add, replacedPkg (ctx.upgradePackage st target).localdb other =
      replacedPkg st.localdb other := fun other hother => by
    rw [(upgradePackage_eq hinterrupted target).2]
    exact replacedPkg_commitSinglePkg h.dbonly
      (fun pkg hpkg => (hadd.old target (List.mem_cons_self ..) pkg hpkg).1)
      fun heq => hnotMem (List.mem_map.mpr ⟨other, hother, heq⟩)
  refine ⟨⟨hnames, fun other hother => ?_, fun other hother => ?_, fun other hother htakes => ?_⟩,
    hreplaced⟩
  · rw [hreplaced other hother]
    exact hadd.saved other (List.mem_cons_of_mem _ hother)
  · rw [hreplaced other hother]
    exact hadd.old other (List.mem_cons_of_mem _ hother)
  · rw [hreplaced other hother] at htakes
    refine (hadd.once other (List.mem_cons_of_mem _ hother) htakes).imp
      (fun hsole third hthird => ?_) fun hoff third hthird => ?_
    · rw [hreplaced third hthird]
      exact hsole third (List.mem_cons_of_mem _ hthird)
    · rw [hreplaced third hthird]
      exact hoff third (List.mem_cons_of_mem _ hthird)

/-- **The installations** of a transaction leave the file alone or save it, and once it is saved
they leave the saved copy alone. -/
theorem upgradePackages_kept (h : ctx.Saves) (hclean : CleanPath file) {add : List AddTarget}
    (hadd : UpgradesApart ctx touched file st.localdb add)
    (hstart : Home touched room st.fs file content ∧ (∀ target ∈ add,
          (∀ pkg ∈ replacedPkg st.localdb target, file ∈ pkg.files →
            ctx.shouldSkipFile (some target.pkg) file ∨
              touched ∧ EditedIn ctx.sys file content pkg) ∧
          (ExtractsHome ctx file content target (replacedPkg st.localdb target) ∨
            room ∧ TakesFile ctx file target (replacedPkg st.localdb target))) ∨
      (touched ∧ SavedOnce ctx file st.fs st.localdb add) ∧
        Holds st.fs (pacsave file) content) :
    Holds (ctx.upgradePackages add st).fs file content ∨
      Holds (ctx.upgradePackages add st).fs (pacsave file) content := by
  unfold upgradePackages
  induction add generalizing st with
  | nil => exact hstart.imp (fun hhome => hhome.1.holds) And.right
  | cons target add ih =>
    cases hinterrupted : st.interrupted with
    | true =>
      rw [foldl_upgradePackage_interrupted hinterrupted]
      exact hstart.imp (fun hhome => hhome.1.holds) And.right
    | false =>
    have hmem := List.mem_cons_self (a := target) (l := add)
    have hnotMem := (List.nodup_cons.mp hadd.names).1
    obtain ⟨hrest, hreplaced⟩ := h.upgradesApart_tail hadd hinterrupted
    have hold := fun pkg hpkg => (hadd.old target hmem pkg hpkg).2
    have hne : ∀ other ∈ add, target.pkg.name ≠ other.pkg.name := fun other hother heq =>
      hnotMem (List.mem_map.mpr ⟨other, hother, heq.symm⟩)
    refine @ih (ctx.upgradePackage st target) hrest ?_
    rw [(upgradePackage_eq hinterrupted target).1]
    -- what is left to show of the targets after this one, when the file is saved by now
    have hlater : (∀ other ∈ add, TakesBackup ctx file other (replacedPkg st.localdb other) →
        (ctx.commitSinglePkg st target).2.fs.node file = none ∧
          ∀ third ∈ add, third.pkg.name ≠ other.pkg.name →
            ExtractsOff ctx file third (replacedPkg st.localdb third)) →
        SavedOnce ctx file (ctx.commitSinglePkg st target).2.fs
          (ctx.upgradePackage st target).localdb add := by
      intro hlater other hother htakes
      rw [hreplaced other hother] at htakes
      refine ⟨(hlater other hother htakes).1, fun third hthird hthirdNe => ?_⟩
      rw [hreplaced third hthird]
      exact (hlater other hother htakes).2 third hthird hthirdNe
    rcases hstart with ⟨hhome, htargets⟩ | ⟨⟨htouched, honce⟩, hsaved⟩
    · obtain ⟨⟨hedited, hhead⟩, htargets⟩ := List.forall_mem_cons.mp htargets
      rcases h.commitSinglePkg_home hclean (hadd.saved target hmem) hold hedited hhead hhome with
        hnext | ⟨⟨htouched, htakes⟩, hsaved, hnone⟩
      · refine Or.inl ⟨hnext, fun other hother => ?_⟩
        rw [hreplaced other hother]
        exact htargets other hother
      · -- the old version of this target has saved the file, so the other targets keep apart from
        -- it when an old version among them might save again
        refine Or.inr ⟨⟨htouched, hlater fun other hother hagain => ?_⟩, hsaved⟩
        have hoff := (hadd.once other (List.mem_cons_of_mem _ hother) hagain).resolve_left
          fun hsole => hsole target hmem (hne other hother) htakes
        exact ⟨hnone (hoff target hmem (hne other hother)), fun third hthird =>
          hoff third (List.mem_cons_of_mem _ hthird)⟩
    · obtain ⟨hnextSaved, hnone⟩ := h.commitSinglePkg_saved hclean htouched
        (hadd.saved target hmem htouched) hold (fun htakes => (honce target hmem htakes).1) hsaved
      refine Or.inr ⟨⟨htouched, hlater fun other hother hagain => ?_⟩, hnextSaved⟩
      obtain ⟨hnode, hoff⟩ := honce other (List.mem_cons_of_mem _ hother) hagain
      exact ⟨hnone (hoff target hmem (hne other hother)) hnode, fun third hthird =>
        hoff third (List.mem_cons_of_mem _ hthird)⟩

end CommitContext.Saves

end Alpm
