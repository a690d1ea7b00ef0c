import Alpm.PkgFile.Load

/-!
# Two ways to the same package

A package is loaded in full, or only as far as its description.  In full, the list of its files
comes from the mtree, the cheap way, or from the entries of the archive, the expensive one.

The ways differ in where they stop, and in which entries they look for a scriptlet: a light load
stops when it has the description and has met a file; a full load goes on to the mtree or to the
end.

`light_of_full` and `cheap_of_expensive` compare the walks entry by entry.  Up to the scriptlet,
which the mtree may list before the walk has come to it, the package is the same in both (`Behind`).
What has to be assumed is that the archive has one description, since a second one would be merged
into the package by the walk that comes to it; and, for the two ways to the list, that the mtree
lists the files of the archive.
-/

namespace Alpm.PkgFile

variable {realloc : ℕ → Bool} {full : Bool}

/-! ## The description and the scriptlet -/

theorem parseLine_scriptlet (newpkg : Pkg) (scriptlet : Bool) (line : CString) :
    parseLine { newpkg with scriptlet } line = { parseLine newpkg line with scriptlet } := by
  have hkeys : ∀ entry ∈ pkginfoKeys, ∀ newpkg ptr,
      entry.2 { newpkg with scriptlet } ptr = { entry.2 newpkg ptr with scriptlet } := by
    simp only [pkginfoKeys, List.forall_mem_cons]
    simp
  unfold parseLine
  split_ifs
  · rfl
  split
  · rfl
  next key ptr _ =>
    unfold storeKey
    split
    next store hfind => exact hkeys _ (List.mem_of_find?_eq_some hfind) newpkg ptr
    · rfl

theorem parseDescfile_scriptlet (s : Reading) (newpkg : Pkg) (scriptlet : Bool) :
    parseDescfile s { newpkg with scriptlet } =
      (parseDescfile s newpkg).map fun parsed => (parsed.1, { parsed.2 with scriptlet }) := by
  induction htodo : s.todo using Nat.strong_induction_on generalizing s newpkg with
  | _ n ih =>
  rcases nextLine_cases s with ⟨ret, -, hstop⟩ | ⟨s', line, hnext, htext, -⟩
  · rw [parseDescfile_stopped hstop, parseDescfile_stopped hstop]
    rfl
  · rw [parseDescfile_line hnext htext, parseDescfile_line hnext htext, parseLine_scriptlet,
      ih s'.todo (htodo ▸ nextLine_todo hnext) s' _ rfl]

/-- The packages of two walks are the same but for the scriptlet, which the second has only if the
first has it or there is one that the first has not come to. -/
structure Behind (extra : Prop) (s t : Walk) : Prop where
  newpkg : ∃ scriptlet, t.newpkg = { s.newpkg with scriptlet } ∧
    (scriptlet → s.newpkg.scriptlet ∨ extra)
  config : t.config = s.config

variable {extra : Prop}

theorem Behind.refl (s : Walk) : Behind extra s s := ⟨⟨s.newpkg.scriptlet, rfl, Or.inl⟩, rfl⟩

theorem Behind.trans {s t u : Walk} (h : Behind extra s t) (h' : Behind extra t u) :
    Behind extra s u := by
  obtain ⟨⟨scriptlet, hnewpkg, hmono⟩, hconfig⟩ := h
  obtain ⟨⟨scriptlet', hnewpkg', hmono'⟩, hconfig'⟩ := h'
  rw [hnewpkg] at hnewpkg' hmono'
  exact ⟨⟨scriptlet', hnewpkg', fun h => (hmono' h).elim hmono Or.inr⟩, hconfig'.trans hconfig⟩

/-- Two walks with the same scriptlet have the same package. -/
theorem Behind.newpkg_eq {s t : Walk} (h : Behind extra s t)
    (hscriptlet : t.newpkg.scriptlet = s.newpkg.scriptlet) : t.newpkg = s.newpkg := by
  obtain ⟨⟨scriptlet, hnewpkg, -⟩, -⟩ := h
  rw [hnewpkg] at hscriptlet ⊢
  dsimp only at hscriptlet
  rw [hscriptlet]

/-- The description is read alike. -/
theorem Behind.loadPkginfo {s t s' : Walk} (h : Behind extra s t) {entry : PkgEntry}
    (hnext : loadPkginfo s entry = .next s') :
    ∃ newpkg, loadPkginfo t entry = .next { t with newpkg, config := true } ∧
      Behind extra s' { t with newpkg, config := true } ∧ s'.config ∧
      newpkg.scriptlet = t.newpkg.scriptlet := by
  obtain ⟨⟨scriptlet, hnewpkg, hmono⟩, hconfig⟩ := h
  rcases loadPkginfo_cases s entry with herror | ⟨lines, -, hparse, hdescribed, hload⟩
  · cases herror.symm.trans hnext
  · obtain rfl := Pass.next.inj (hload.symm.trans hnext)
    have hother : parseDescfile
        { Reading.start maxLineSize entry.blocks with broken := entry.broken } t.newpkg =
        some (0, { lines.foldl parseLine s.newpkg with scriptlet }) := by
      rw [hnewpkg, parseDescfile_scriptlet, hparse]
      rfl
    have hcheck := checkPkginfo_eq_ok.mpr ⟨hdescribed.name, hdescribed.version⟩
    have hkeep : (lines.foldl parseLine s.newpkg).scriptlet = s.newpkg.scriptlet :=
      foldl_parseLine_keeps (P := fun pkg => pkg.scriptlet = s.newpkg.scriptlet)
        (by simp [pkginfoKeys]) rfl lines
    refine ⟨{ lines.foldl parseLine s.newpkg with scriptlet }, ?_,
      ⟨⟨scriptlet, rfl, fun h => hkeep ▸ hmono h⟩, rfl⟩, rfl, by rw [hnewpkg]⟩
    rw [PkgFile.loadPkginfo, hother]
    simp only [ne_eq, not_true_eq_false, if_false, hcheck]

/-! ## One entry -/

/-- The entry is the description. -/
def PkgEntry.IsPkginfo (entry : PkgEntry) : Prop := entry.pathname = str ".PKGINFO"

instance (entry : PkgEntry) : Decidable entry.IsPkginfo :=
  inferInstanceAs (Decidable (entry.pathname = str ".PKGINFO"))

/-- An entry that is not handled by its name changes nothing but the list. -/
theorem loadFile_spec {s s' : Walk} {entry : PkgEntry}
    (h : loadFile realloc full s entry = .next s' ∨ loadFile realloc full s entry = .stop s') :
    entry.skips ∧ (∃ files filesSize, s' = { s with files, filesSize }) ∧
      (loadFile realloc full s entry = .stop s' ↔ ((!full || s.hitMtree) && s.config) = true) := by
  unfold loadFile at h ⊢
  dsimp only at h ⊢
  generalize (if full && !s.hitMtree then addEntryToFilesList realloc s.files s.filesSize
    entry.toArchiveEntry none entry.pathname else .done (s.files, s.filesSize)) = added at h ⊢
  cases added with
  | undefined => simp at h
  | error => simp at h
  | done list =>
    obtain ⟨files, filesSize⟩ := list
    dsimp only at h ⊢
    split_ifs at h ⊢ with hskips hstop
    · simp at h
    · obtain rfl := Pass.stop.inj (h.resolve_left nofun)
      exact ⟨by simpa using hskips, ⟨files, filesSize, rfl⟩, iff_of_true rfl hstop⟩
    · obtain rfl := Pass.next.inj (h.resolve_right nofun)
      exact ⟨by simpa using hskips, ⟨files, filesSize, rfl⟩, iff_of_false nofun hstop⟩

theorem loadMtree_pkg {s s' : Walk} {entry : PkgEntry} (h : loadMtree realloc s entry = .next s') :
    Behind extra s' s := by
  unfold loadMtree at h
  split at h
  · cases h
  next newpkg files _ hbuild =>
    obtain rfl := Pass.next.inj h
    obtain ⟨scriptlet, hnewpkg, hmono⟩ := buildFilelistFromMtree_pkg hbuild
    dsimp only at hnewpkg
    subst hnewpkg
    exact ⟨⟨s.newpkg.scriptlet, rfl, fun h => Or.inl (hmono h)⟩, rfl⟩
  next newpkg hbuild =>
    obtain rfl := Pass.next.inj h
    obtain ⟨scriptlet, hnewpkg, hmono⟩ := buildFilelistFromMtree_pkg hbuild
    dsimp only at hnewpkg
    subst hnewpkg
    exact ⟨⟨s.newpkg.scriptlet, rfl, fun h => Or.inl (hmono h)⟩, rfl⟩

/-- An entry that is not the description says nothing of the package but that there is a
scriptlet. -/
theorem loadEntry_behind {s s' : Walk} {entry : PkgEntry} (hentry : ¬entry.IsPkginfo)
    (h : loadEntry realloc full s entry = .next s' ∨ loadEntry realloc full s entry = .stop s') :
    Behind extra s' s := by
  rcases loadEntry_cases realloc full s entry with ⟨hpkginfo, -⟩ | ⟨-, -, heq⟩ |
    ⟨-, -, -, heq⟩ | ⟨-, heq⟩
  · exact absurd hpkginfo hentry
  · rw [heq] at h
    have hnext : loadMtree realloc s entry = .next s' := by
      refine h.resolve_right fun hstop => ?_
      unfold loadMtree at hstop
      split at hstop <;> cases hstop
    exact loadMtree_pkg hnext
  · obtain rfl := Pass.next.inj ((heq ▸ h).resolve_right nofun)
    exact ⟨⟨s.newpkg.scriptlet, rfl, fun hscriptlet => Or.inl (by simp [hscriptlet])⟩, rfl⟩
  · rw [heq] at h
    obtain ⟨-, ⟨files, filesSize, rfl⟩, -⟩ := loadFile_spec h
    exact ⟨⟨s.newpkg.scriptlet, rfl, Or.inl⟩, rfl⟩

theorem loadLoop_cons_stop {eof : Bool} {s s' : Walk} {entry : PkgEntry} {entries : List PkgEntry}
    (h : loadLoop realloc full eof (entry :: entries) s = .stop s') :
    loadEntry realloc full s entry = .stop s' ∨
      ∃ s₁, loadEntry realloc full s entry = .next s₁ ∧
        loadLoop realloc full eof entries s₁ = .stop s' := by
  rw [loadLoop] at h
  split at h
  next s₁ hnext => exact Or.inr ⟨s₁, hnext, h⟩
  · exact Or.inl h

/-- Behind the description the package stays as it is. -/
theorem loadLoop_behind {eof : Bool} {s s' : Walk} {entries : List PkgEntry}
    (hentries : ∀ entry ∈ entries, ¬entry.IsPkginfo)
    (h : loadLoop realloc full eof entries s = .stop s') : Behind extra s' s := by
  induction entries generalizing s with
  | nil =>
    rw [loadLoop] at h
    split_ifs at h
    obtain rfl := Pass.stop.inj h
    exact Behind.refl s
  | cons entry entries ih =>
    obtain ⟨hentry, hentries⟩ := List.forall_mem_cons.mp hentries
    rcases loadLoop_cons_stop h with hstop | ⟨s₁, hnext, hloop⟩
    · exact loadEntry_behind hentry (Or.inr hstop)
    · exact (ih hentries hloop).trans (loadEntry_behind hentry (Or.inl hnext))

/-! ## A walk that adds nothing to the list -/

/-- The scriptlet is met before the first file. -/
def LeadingScriptlet (entries : List PkgEntry) : Prop :=
  ∃ entry ∈ entries.takeWhile fun entry => deref entry.pathname = '.',
    entry.pathname = str ".INSTALL"

theorem leadingScriptlet_cons {entry : PkgEntry} {entries : List PkgEntry} :
    LeadingScriptlet (entry :: entries) ↔ deref entry.pathname = '.' ∧
      (entry.pathname = str ".INSTALL" ∨ LeadingScriptlet entries) := by
  unfold LeadingScriptlet
  by_cases hdot : deref entry.pathname = '.'
  · simp [hdot]
  · simp [hdot]

/-- The walk after a simple path. -/
def Walk.afterPath (s : Walk) (path : CString) : Walk :=
  { s with newpkg :=
    { s.newpkg with scriptlet := s.newpkg.scriptlet || decide (path = str ".INSTALL") } }

theorem Behind.afterPath {s t : Walk} (h : Behind extra s t) (path : CString) :
    Behind extra (s.afterPath path) (t.afterPath path) := by
  obtain ⟨⟨scriptlet, hnewpkg, hmono⟩, hconfig⟩ := h
  refine ⟨⟨scriptlet || decide (path = str ".INSTALL"), ?_, fun h => ?_⟩, hconfig⟩
  · rw [Walk.afterPath, hnewpkg]
    rfl
  · rw [Bool.or_eq_true] at h
    simp only [Walk.afterPath, Bool.or_eq_true]
    exact h.elim (fun h => (hmono h).imp_left Or.inl) fun h => Or.inl (Or.inr h)

theorem afterPath_of_ne {s : Walk} {path : CString} (h : path ≠ str ".INSTALL") :
    s.afterPath path = s := by
  simp [Walk.afterPath, h]

theorem loadEntry_pkginfo (s : Walk) {entry : PkgEntry} (h : entry.IsPkginfo) :
    loadEntry realloc full s entry = loadPkginfo s entry := by
  rw [loadEntry, if_pos (strcmp_eq_zero.mpr h)]

/-- A name with a dot that is neither the description nor the mtree. -/
theorem loadEntry_dot (s : Walk) {entry : PkgEntry} (hentry : ¬entry.IsPkginfo)
    (hmtree : full → ¬entry.IsMtree) (hdot : deref entry.pathname = '.') :
    loadEntry realloc full s entry = .next (s.afterPath entry.pathname) := by
  rcases loadEntry_cases realloc full s entry with ⟨hpkginfo, -⟩ | ⟨hfull, hmtree', -⟩ |
    ⟨-, -, -, heq⟩ | ⟨hne, -⟩
  · exact absurd hpkginfo hentry
  · exact absurd hmtree' (hmtree hfull)
  · exact heq
  · exact absurd hdot hne

theorem loadEntry_dot_ne_stop (s s' : Walk) {entry : PkgEntry} (hdot : deref entry.pathname = '.') :
    loadEntry realloc full s entry ≠ .stop s' := by
  intro h
  rcases loadEntry_cases realloc full s entry with ⟨-, heq⟩ | ⟨-, -, heq⟩ |
    ⟨-, -, -, heq⟩ | ⟨hne, -⟩
  · rcases loadPkginfo_cases s entry with herror | ⟨lines, -, -, -, hnext⟩
    · cases herror.symm.trans (heq.symm.trans h)
    · cases hnext.symm.trans (heq.symm.trans h)
  · have hstop := heq.symm.trans h
    unfold loadMtree at hstop
    split at hstop <;> cases hstop
  · cases heq.symm.trans h
  · exact hne hdot

/-- The full walk over a name with a dot that is not the description. -/
theorem Behind.dot {s t s₁ : Walk} (h : Behind extra s t) {entry : PkgEntry}
    (hentry : ¬entry.IsPkginfo) (hdot : deref entry.pathname = '.')
    (hnext : PkgFile.loadEntry realloc full s entry = .next s₁) :
    Behind extra s₁ (t.afterPath entry.pathname) := by
  by_cases hmtree : full ∧ entry.IsMtree
  · have hname : entry.pathname ≠ str ".INSTALL" := by
      rw [hmtree.2]
      decide
    rw [afterPath_of_ne hname]
    exact (loadEntry_behind hentry (Or.inl hnext)).trans h
  · rw [loadEntry_dot s hentry (fun hfull h => hmtree ⟨hfull, h⟩) hdot] at hnext
    obtain rfl := Pass.next.inj hnext
    exact h.afterPath _

/-- The walk adds nothing to the list: the load is light, or there is the list of an mtree. -/
def Idle (full : Bool) (t : Walk) (entries : List PkgEntry) : Prop :=
  full = false ∨ t.hitMtree ∧ ∀ entry ∈ entries, ¬entry.IsMtree

theorem loadFile_idle {t : Walk} {entry : PkgEntry} (hidle : full = false ∨ t.hitMtree)
    (hskips : entry.skips) :
    loadFile realloc full t entry = if t.config then .stop t else .next t := by
  rcases hidle with rfl | hhit
  · simp [loadFile, hskips]
  · cases t
    simp_all [loadFile]

/-- **A walk that adds nothing** stops no later than a full walk, at the same description.  By
induction over the entries, with the two walks side by side; the first may stop while the other goes
on. -/
theorem Behind.loadLoop {eof : Bool} {entries : List PkgEntry} {s t s' : Walk}
    (h : Behind extra s t) (hidle : Idle full t entries)
    (hcount : entries.countP (·.IsPkginfo) ≤ if s.config then 0 else 1)
    (hloop : loadLoop realloc true eof entries s = .stop s') :
    ∃ t', loadLoop realloc full eof entries t = .stop t' ∧ Behind extra s' t' ∧
      t'.listed = t.listed ∧
      (t.newpkg.scriptlet ∨ LeadingScriptlet entries → t'.newpkg.scriptlet) := by
  induction entries generalizing s t with
  | nil =>
    rw [PkgFile.loadLoop] at hloop ⊢
    split_ifs at hloop ⊢
    obtain rfl := Pass.stop.inj hloop
    exact ⟨t, rfl, h, rfl, fun hor => hor.resolve_right (by simp [LeadingScriptlet])⟩
  | cons entry entries ih =>
    rw [List.countP_cons] at hcount
    rw [leadingScriptlet_cons]
    have hadds : full = false ∨ t.hitMtree := hidle.imp_right And.left
    have hidle' {t₁ : Walk} (hhit : t₁.hitMtree = t.hitMtree) : Idle full t₁ entries :=
      hidle.imp_right fun h => ⟨hhit ▸ h.1, fun e he => h.2 e (List.mem_cons_of_mem _ he)⟩
    by_cases hdot : deref entry.pathname = '.'
    · rcases loadLoop_cons_stop hloop with hstop | ⟨s₁, hnext, hloop⟩
      · exact absurd hstop (loadEntry_dot_ne_stop _ _ hdot)
      by_cases hpkginfo : entry.IsPkginfo
      · rw [loadEntry_pkginfo s hpkginfo] at hnext
        obtain ⟨newpkg, hother, hbehind, hconfig, hscriptlet⟩ := h.loadPkginfo hnext
        have hrest : entries.countP (·.IsPkginfo) ≤ if s₁.config then 0 else 1 := by
          rw [if_pos hconfig]
          simp only [hpkginfo, decide_true, if_true] at hcount
          split_ifs at hcount <;> omega
        obtain ⟨t', ht', hbehind', hlisted, hlast⟩ := ih hbehind (hidle' rfl) hrest hloop
        refine ⟨t', ?_, hbehind', hlisted, fun hor => hlast (hor.imp hscriptlet.trans ?_)⟩
        · rw [PkgFile.loadLoop, loadEntry_pkginfo t hpkginfo, hother]
          exact ht'
        · rintro ⟨-, hinstall | hleading⟩
          · exact absurd (hpkginfo.symm.trans hinstall) (by decide)
          · exact hleading
      · rw [if_neg (by simpa using hpkginfo), Nat.add_zero] at hcount
        have hbehind := h.dot hpkginfo hdot hnext
        have hconfig : s₁.config = s.config := hbehind.config.symm.trans h.config
        have hmtree : full → ¬entry.IsMtree := fun hfull =>
          (hidle.resolve_left (by simp [hfull])).2 entry List.mem_cons_self
        obtain ⟨t', ht', hbehind', hlisted, hlast⟩ :=
          ih hbehind (hidle' rfl) (hconfig ▸ hcount) hloop
        refine ⟨t', ?_, hbehind', hlisted, fun hor => hlast ?_⟩
        · rw [PkgFile.loadLoop, loadEntry_dot t hpkginfo hmtree hdot]
          exact ht'
        · rcases hor with hbefore | ⟨-, hinstall | hleading⟩
          · exact Or.inl (by simp [Walk.afterPath, hbefore])
          · exact Or.inl (by simp [Walk.afterPath, hinstall])
          · exact Or.inr hleading
    · have hpkginfo : ¬entry.IsPkginfo := fun h => hdot (by rw [h]; rfl)
      rw [if_neg (by simpa using hpkginfo), Nat.add_zero] at hcount
      have hother : entry.skips → PkgFile.loadEntry realloc full t entry =
          if t.config then .stop t else .next t := fun hskips =>
        (loadEntry_file t hdot).trans (loadFile_idle hadds hskips)
      -- no scriptlet leads a list that begins with a file
      have hnone : t.newpkg.scriptlet ∨ deref entry.pathname = '.' ∧
          (entry.pathname = str ".INSTALL" ∨ LeadingScriptlet entries) → t.newpkg.scriptlet :=
        fun hor => hor.resolve_right fun hleading => hdot hleading.1
      rcases loadLoop_cons_stop hloop with hstop | ⟨s₁, hnext, hloop⟩
      · rw [loadEntry_file s hdot] at hstop
        obtain ⟨hskips, ⟨files, filesSize, rfl⟩, hiff⟩ := loadFile_spec (Or.inr hstop)
        have hconfig : s.config := (Bool.and_eq_true _ _ ▸ hiff.mp hstop).2
        refine ⟨t, ?_, ⟨h.newpkg, h.config⟩, rfl, hnone⟩
        rw [PkgFile.loadLoop, hother hskips, if_pos (h.config.trans hconfig)]
      · rw [loadEntry_file s hdot] at hnext
        obtain ⟨hskips, ⟨files, filesSize, rfl⟩, -⟩ := loadFile_spec (Or.inl hnext)
        have hbehind : Behind extra { s with files, filesSize } t := ⟨h.newpkg, h.config⟩
        by_cases hconfig : s.config
        · have hentries : ∀ entry ∈ entries, ¬entry.IsPkginfo := by
            rw [if_pos hconfig, Nat.le_zero, List.countP_eq_zero] at hcount
            simpa using hcount
          refine ⟨t, ?_, (loadLoop_behind hentries hloop).trans hbehind, rfl, hnone⟩
          rw [PkgFile.loadLoop, hother hskips, if_pos (h.config.trans hconfig)]
        · obtain ⟨t', ht', hbehind', hlisted, hlast⟩ := ih hbehind (hidle' rfl) hcount hloop
          refine ⟨t', ?_, hbehind', hlisted, fun hor => hlast (Or.inl (hnone hor))⟩
          rw [PkgFile.loadLoop, hother hskips, if_neg (by rwa [h.config])]
          exact ht'

theorem loadLoop_ne_next {eof : Bool} {entries : List PkgEntry} {s s' : Walk} :
    loadLoop realloc full eof entries s ≠ .next s' := by
  induction entries generalizing s with
  | nil =>
    rw [loadLoop]
    split_ifs <;> simp
  | cons entry entries ih =>
    rw [loadLoop]
    split
    · exact ih
    next hne => exact hne s'

/-- What is returned comes from a walk that has found the description. -/
theorem finishLoad_eq_pkg {s : Walk} {newpkg : Pkg} {files : List AlpmFile}
    (h : finishLoad full s = .pkg newpkg files) : s.config ∧ newpkg = finished full s ∧
      files = if full then sortFilelist s.listed else [] := by
  unfold finishLoad at h
  cases hconfig : s.config with
  | false =>
    rw [hconfig] at h
    cases h
  | true =>
    rw [hconfig] at h
    cases full with
    | false =>
      obtain ⟨rfl, rfl⟩ := Loaded.pkg.inj h
      exact ⟨rfl, rfl, rfl⟩
    | true =>
      dsimp only at h
      split_ifs at h
      obtain ⟨rfl, rfl⟩ := Loaded.pkg.inj h
      exact ⟨rfl, rfl, rfl⟩

/-- A package that is returned comes from a walk that has stopped. -/
theorem pkgLoadInternal_eq_pkg {addr : ℕ} {pkgfile : CString} {archive : Archive} {newpkg : Pkg}
    {files : List AlpmFile}
    (h : pkgLoadInternal realloc addr pkgfile full (some archive) = .pkg newpkg files) :
    pkgfile.length ≠ 0 ∧ ∃ s, loadLoop realloc full archive.eof archive.entries
        { newpkg := newPkg addr pkgfile archive.size } = .stop s ∧
      finishLoad full s = .pkg newpkg files := by
  unfold pkgLoadInternal at h
  split_ifs at h with hpath
  dsimp only at h
  split at h
  · cases h
  · cases h
  next s hnext => exact absurd hnext loadLoop_ne_next
  next s hstop => exact ⟨hpath, s, hstop, h⟩

theorem pkgLoadInternal_of_stop {addr : ℕ} {pkgfile : CString} {archive : Archive} {s : Walk}
    (hpath : pkgfile.length ≠ 0) (h : loadLoop realloc full archive.eof archive.entries
      { newpkg := newPkg addr pkgfile archive.size } = .stop s) :
    pkgLoadInternal realloc addr pkgfile full (some archive) = finishLoad full s := by
  rw [pkgLoadInternal, if_neg hpath]
  simp only [h]

/-- **A light load** succeeds where a full one does, and returns the same package without the files.
A scriptlet behind the first file may be missed, because the light load stops at the first file
behind the description and the full one goes on. -/
theorem light_of_full {addr : ℕ} {pkgfile : CString} {archive : Archive} {newpkg : Pkg}
    {files : List AlpmFile} (hcount : archive.entries.countP (·.IsPkginfo) ≤ 1)
    (hfull : pkgLoadInternal realloc addr pkgfile true (some archive) = .pkg newpkg files) :
    ∃ scriptlet, pkgLoadInternal realloc addr pkgfile false (some archive) =
        .pkg { newpkg with infolevel := 11, files := [], scriptlet } [] ∧
      (scriptlet → newpkg.scriptlet) ∧ (LeadingScriptlet archive.entries → scriptlet) := by
  obtain ⟨hpath, s, hloop, hfinish⟩ := pkgLoadInternal_eq_pkg hfull
  obtain ⟨hconfig, rfl, -⟩ := finishLoad_eq_pkg hfinish
  obtain ⟨t, hlight, hbehind, -, hlast⟩ :=
    (@Behind.refl False _).loadLoop (Or.inl rfl) hcount hloop
  obtain ⟨⟨scriptlet, hnewpkg, hmono⟩, htconfig⟩ := hbehind
  refine ⟨scriptlet, ?_, fun h => (hmono h).resolve_right id, fun hleading => ?_⟩
  · rw [pkgLoadInternal_of_stop hpath hlight, finishLoad, htconfig, hconfig, hnewpkg]
    rfl
  · have hscriptlet := hlast (Or.inr hleading)
    rwa [hnewpkg] at hscriptlet

theorem light_of_full_hello : ∃ scriptlet, pkgLoadInternal (fun _ => true) 1 (str "hello.pkg") false
    (some hello) = .pkg { described (newPkg 1 (str "hello.pkg") 4096) with
      origin := .file, validation := 1, infolevel := 11, scriptlet } [] := by
  obtain ⟨scriptlet, hlight, -⟩ := light_of_full (by decide +kernel) pkgLoadInternal_hello
  exact ⟨scriptlet, hlight⟩

/-! ## The cheap way and the expensive way -/

/-- The elements for the entries of the archive. -/
def archiveFiles (entries : List PkgEntry) : List AlpmFile :=
  entries.filterMap fun entry =>
    if deref entry.pathname = '.' then none
    else some (fileFor entry.toArchiveEntry none entry.pathname)

/-- An entry on the expensive way. -/
theorem expensive_step {s s₁ : Walk} {kept : List AlpmFile} {entry : PkgEntry}
    (hdir : entry.isDir → entry.pathname ≠ []) (hmtree : ¬entry.IsMtree)
    (hhit : s.hitMtree = false) (hfilled : Filled s.files s.filesSize kept)
    (hnext : loadEntry realloc true s entry = .next s₁) :
    s₁.hitMtree = false ∧ Filled s₁.files s₁.filesSize (kept ++ archiveFiles [entry]) := by
  by_cases hdot : deref entry.pathname = '.'
  · have hnone : archiveFiles [entry] = [] := by simp [archiveFiles, hdot]
    rw [hnone, List.append_nil]
    by_cases hpkginfo : entry.IsPkginfo
    · rw [loadEntry_pkginfo s hpkginfo] at hnext
      rcases loadPkginfo_cases s entry with herror | ⟨lines, -, -, -, hload⟩
      · cases herror.symm.trans hnext
      · obtain rfl := Pass.next.inj (hload.symm.trans hnext)
        exact ⟨hhit, hfilled⟩
    · rw [loadEntry_dot s hpkginfo (fun _ => hmtree) hdot] at hnext
      obtain rfl := Pass.next.inj hnext
      exact ⟨hhit, hfilled⟩
  · have hone : archiveFiles [entry] = [fileFor entry.toArchiveEntry none entry.pathname] := by
      simp [archiveFiles, hdot]
    rw [hone]
    rw [loadEntry_file s hdot, loadFile, if_pos (by simp [hhit])] at hnext
    have hlast := @hasLast_of_ne_nil entry.toArchiveEntry none entry.pathname hdir
    rcases @addEntry_spec realloc _ _ _ hfilled _ _ _ hlast with ⟨herror, -⟩ |
      ⟨files, size, hdone, hnew⟩
    · rw [herror] at hnext
      cases hnext
    · rw [hdone] at hnext
      dsimp only at hnext
      split_ifs at hnext
      obtain rfl := Pass.next.inj hnext
      exact ⟨hhit, hnew⟩

/-- The expensive way does not stop before the end. -/
theorem expensive_ne_stop {s s' : Walk} {entry : PkgEntry} (hhit : s.hitMtree = false) :
    loadEntry realloc true s entry ≠ .stop s' := by
  intro hstop
  by_cases hdot : deref entry.pathname = '.'
  · exact loadEntry_dot_ne_stop s s' hdot hstop
  · rw [loadEntry_file s hdot] at hstop
    have hearly := (loadFile_spec (Or.inr hstop)).2.2.mp hstop
    simp [hhit] at hearly

/-- **The expensive way** lists the entries of the archive. -/
theorem expensive_listed {eof : Bool} {entries : List PkgEntry} {s s' : Walk}
    {kept : List AlpmFile} (hnamed : ∀ entry ∈ entries, entry.isDir → entry.pathname ≠ [])
    (hmtree : ∀ entry ∈ entries, ¬entry.IsMtree) (hhit : s.hitMtree = false)
    (hfilled : Filled s.files s.filesSize kept)
    (hloop : loadLoop realloc true eof entries s = .stop s') :
    s'.listed = kept ++ archiveFiles entries := by
  induction entries generalizing s kept with
  | nil =>
    rw [loadLoop] at hloop
    split_ifs at hloop
    obtain rfl := Pass.stop.inj hloop
    exact hfilled.take.trans (List.append_nil kept).symm
  | cons entry entries ih =>
    obtain ⟨hdir, hnamed⟩ := List.forall_mem_cons.mp hnamed
    obtain ⟨hentry, hmtree⟩ := List.forall_mem_cons.mp hmtree
    rcases loadLoop_cons_stop hloop with hstop | ⟨s₁, hnext, hloop⟩
    · exact absurd hstop (expensive_ne_stop hhit)
    · obtain ⟨hhit₁, hfilled₁⟩ := expensive_step hdir hentry hhit hfilled hnext
      rw [ih hnamed hmtree hhit₁ hfilled₁ hloop, List.append_assoc]
      exact congrArg (kept ++ ·) List.filterMap_append.symm

/-- The walk up to an entry of the archive. -/
theorem expensive_front {eof : Bool} {front rest : List PkgEntry} {s s' : Walk}
    {kept : List AlpmFile} (hnamed : ∀ entry ∈ front, entry.isDir → entry.pathname ≠ [])
    (hmtree : ∀ entry ∈ front, ¬entry.IsMtree) (hhit : s.hitMtree = false)
    (hfilled : Filled s.files s.filesSize kept)
    (hcount : (front ++ rest).countP (·.IsPkginfo) ≤ if s.config then 0 else 1)
    (hloop : loadLoop realloc true eof (front ++ rest) s = .stop s') :
    ∃ s₁, s₁.hitMtree = false ∧
      (∀ others, loadLoop realloc true eof (front ++ others) s =
        loadLoop realloc true eof others s₁) ∧
      rest.countP (·.IsPkginfo) ≤ if s₁.config then 0 else 1 := by
  induction front generalizing s kept with
  | nil => exact ⟨s, hhit, fun _ => rfl, hcount⟩
  | cons entry front ih =>
    obtain ⟨hdir, hnamed⟩ := List.forall_mem_cons.mp hnamed
    obtain ⟨hentry, hmtree⟩ := List.forall_mem_cons.mp hmtree
    rw [List.cons_append] at hloop hcount
    rcases loadLoop_cons_stop hloop with hstop | ⟨s₁, hnext, hloop⟩
    · exact absurd hstop (expensive_ne_stop hhit)
    · obtain ⟨hhit₁, hfilled₁⟩ := expensive_step hdir hentry hhit hfilled hnext
      have hcount₁ : (front ++ rest).countP (·.IsPkginfo) ≤ if s₁.config then 0 else 1 := by
        rw [List.countP_cons] at hcount
        by_cases hpkginfo : entry.IsPkginfo
        · simp only [hpkginfo, decide_true, if_true] at hcount
          split_ifs at hcount ⊢ <;> omega
        · have hbehind : Behind False s₁ s := loadEntry_behind hpkginfo (Or.inl hnext)
          rw [← hbehind.config]
          split_ifs at hcount ⊢ <;> omega
      obtain ⟨s₂, hhit₂, hothers, hcount₂⟩ := ih hnamed hmtree hhit₁ hfilled₁ hcount₁ hloop
      refine ⟨s₂, hhit₂, fun others => ?_, hcount₂⟩
      rw [List.cons_append, loadLoop, hnext]
      exact hothers others

/-- Lists of the same elements with different names are sorted alike. -/
theorem sortFilelist_congr {files files' : List AlpmFile} (hperm : files.Perm files')
    (hnodup : (files.map AlpmFile.key).Nodup) : sortFilelist files = sortFilelist files' := by
  have hsame : (sortFilelist files).Perm (sortFilelist files') :=
    (sortFilelist_perm files).trans (hperm.trans (sortFilelist_perm files').symm)
  refine hsame.eq_of_pairwise (fun a b ha _ hab hba => ?_) (sortFilelist_sorted files)
    (sortFilelist_sorted files')
  have ha' : a ∈ files := (sortFilelist_perm files).mem_iff.mp ha
  have hb' : b ∈ files := hperm.mem_iff.mpr ((sortFilelist_perm files').mem_iff.mp ‹_›)
  exact List.inj_on_of_nodup_map hnodup ha' hb' (le_antisymm hab hba)

/-- The mtree of a package replaces the list. -/
theorem loadEntry_mtree (hrealloc : ∀ n, realloc n) (s : Walk) {entry : PkgEntry}
    (hmtree : entry.IsMtree) {listed : List ArchiveEntry}
    (hlisted : entry.mtree = .entries listed true) (hnamed : DirsNamed listed) :
    ∃ files, loadEntry realloc true s entry = .next { s with
        newpkg := { s.newpkg with scriptlet := s.newpkg.scriptlet || mtreeInstalls listed }
        files
        hitMtree := true } ∧ files.files.take files.count = mtreeFiles listed := by
  have hload : loadEntry realloc true s entry = loadMtree realloc s entry := by
    rw [loadEntry, strcmp_eq_zero.mpr hmtree, hmtree]
    rfl
  obtain ⟨⟨newpkg, filelist⟩, hbuild, hsome, hnone⟩ :=
    @buildFilelistFromMtree_spec realloc entry.mtree s.newpkg fun _ _ heq =>
      (Mtree.entries.inj (hlisted.symm.trans heq)).1 ▸ hnamed
  rw [hload, loadMtree, hbuild]
  cases filelist with
  | none => exact ((hnone rfl).elim (fun h => h listed hlisted) fun h => h hrealloc).elim
  | some built =>
    obtain ⟨files, filesSize⟩ := built
    obtain ⟨listed', hlisted', hfilled, hnewpkg⟩ := hsome files filesSize rfl
    obtain rfl := (Mtree.entries.inj (hlisted.symm.trans hlisted')).1
    dsimp only at hnewpkg
    subst hnewpkg
    exact ⟨files, rfl, hfilled.take⟩

/-- **The cheap way** to the list of files gives the same package as the expensive way, if the mtree
lists the files of the archive, in whatever order, and lists a scriptlet if there is one.  The two
walks agree up to the mtree; there the cheap one replaces the list that it has by the one of the
mtree, and in the end both lists are sorted. -/
theorem cheap_of_expensive {addr : ℕ} {pkgfile : CString} {size : Int} {eof : Bool}
    {front rest : List PkgEntry} {mtree : PkgEntry} {listed : List ArchiveEntry} {newpkg : Pkg}
    {files : List AlpmFile} (hrealloc : ∀ n, realloc n)
    (hnamed : ∀ entry ∈ front ++ rest, entry.isDir → entry.pathname ≠ [])
    (hothers : ∀ entry ∈ front ++ rest, ¬entry.IsMtree)
    (hcount : (front ++ rest).countP (·.IsPkginfo) ≤ 1)
    (hexpensive : pkgLoadInternal realloc addr pkgfile true (some ⟨size, front ++ rest, eof⟩) =
      .pkg newpkg files)
    (hnodup : newpkg.files.Nodup) (hmtree : mtree.IsMtree)
    (hlisted : mtree.mtree = .entries listed true) (hdirs : DirsNamed listed)
    (hperm : (mtreeFiles listed).Perm (archiveFiles (front ++ rest)))
    (hinstalls : mtreeInstalls listed = newpkg.scriptlet) :
    pkgLoadInternal realloc addr pkgfile true (some ⟨size, front ++ mtree :: rest, eof⟩) =
      .pkg newpkg files := by
  obtain ⟨hpath, s, hloop, hfinish⟩ := pkgLoadInternal_eq_pkg hexpensive
  obtain ⟨hconfig, rfl, rfl⟩ := finishLoad_eq_pkg hfinish
  have harchive := expensive_listed hnamed hothers rfl filled_nil hloop
  rw [List.nil_append] at harchive
  obtain ⟨s₁, -, hsame, hrest⟩ := expensive_front
    (fun entry h => hnamed entry (List.mem_append_left _ h))
    (fun entry h => hothers entry (List.mem_append_left _ h)) rfl filled_nil hcount hloop
  obtain ⟨files, hmtreeEntry, htake⟩ := loadEntry_mtree hrealloc s₁ hmtree hlisted hdirs
  have hbehind : Behind (mtreeInstalls listed) s₁ { s₁ with
      newpkg := { s₁.newpkg with scriptlet := s₁.newpkg.scriptlet || mtreeInstalls listed }
      files
      hitMtree := true } := ⟨⟨_, rfl, fun h => by simpa using h⟩, rfl⟩
  have hidle : Idle true { s₁ with
      newpkg := { s₁.newpkg with scriptlet := s₁.newpkg.scriptlet || mtreeInstalls listed }
      files
      hitMtree := true } rest :=
    Or.inr ⟨rfl, fun entry h => hothers entry (List.mem_append_right _ h)⟩
  obtain ⟨t, ht, hbehind, htlisted, hlast⟩ :=
    hbehind.loadLoop hidle hrest ((hsame rest).symm.trans hloop)
  have hcheap : loadLoop realloc true eof (front ++ mtree :: rest)
      { newpkg := newPkg addr pkgfile size } = .stop t := by
    rw [hsame, loadLoop, hmtreeEntry]
    exact ht
  have hscriptlet : t.newpkg.scriptlet = s.newpkg.scriptlet := by
    have hinstalls : mtreeInstalls listed = s.newpkg.scriptlet := hinstalls
    refine Bool.eq_iff_iff.mpr ⟨fun h => ?_, fun h => hlast (Or.inl ?_)⟩
    · obtain ⟨⟨scriptlet, hnewpkg, hmono⟩, -⟩ := hbehind
      rw [hnewpkg] at h
      exact (hmono h).elim id hinstalls.symm.trans
    · simp [hinstalls, h]
  have hlist : t.listed = mtreeFiles listed := htlisted.trans htake
  have hfiles : sortFilelist t.listed = sortFilelist s.listed := by
    have hsorted : ((sortFilelist s.listed).map AlpmFile.key).Nodup := hnodup
    rw [((sortFilelist_perm s.listed).map AlpmFile.key).nodup_iff, harchive] at hsorted
    rw [hlist, harchive]
    exact sortFilelist_congr hperm ((hperm.map AlpmFile.key).nodup_iff.mpr hsorted)
  have hnewpkg : finished true t = finished true s := by
    simp only [finished, hbehind.newpkg_eq hscriptlet, hfiles]
  have hfinished : finishLoad true t = _ := finishLoad_of_named fun file hfile =>
    (mtreeFiles_named (hlist ▸ hfile)).1
  rw [pkgLoadInternal_of_stop hpath hcheap, hfinished, hbehind.config, hconfig, hnewpkg, hfiles]
  rfl

/-- `hello` with and without its mtree. -/
theorem cheap_of_expensive_hello : ∃ newpkg files,
    pkgLoadInternal (fun _ => true) 1 (str "hello.pkg") true
      (some ⟨4096, [helloPkginfo] ++ helloFiles, true⟩) = .pkg newpkg files ∧
    pkgLoadInternal (fun _ => true) 1 (str "hello.pkg") true
      (some ⟨4096, [helloPkginfo] ++ helloMtree :: helloFiles, true⟩) = .pkg newpkg files := by
  have hexpensive : pkgLoadInternal (fun _ => true) 1 (str "hello.pkg") true
      (some ⟨4096, [helloPkginfo] ++ helloFiles, true⟩) =
        .pkg { described (newPkg 1 (str "hello.pkg") 4096) with
          origin := .file
          validation := 1
          infolevel := 15
          files := [str "usr/", str "usr/hello"] }
        [⟨some (str "usr/"), 0, 493⟩, ⟨some (str "usr/hello"), 7, 420⟩] := by
    rw [pkgLoadInternal, if_neg (by decide)]
    dsimp only
    rw [List.singleton_append, loadLoop, loadEntry_helloPkginfo]
    decide +kernel
  exact ⟨_, _, hexpensive, cheap_of_expensive (fun _ => rfl) (by decide +kernel)
    (by decide +kernel) (by decide +kernel) hexpensive (by decide +kernel) (by decide +kernel) rfl
    (by unfold DirsNamed; decide +kernel) (by decide +kernel) (by decide +kernel)⟩

end Alpm.PkgFile
