import Alpm.Files.Filelist
import Alpm.Files.Fileconflicts
import Alpm.General.SortedRuns
import Alpm.Sync.Prepare

/-!
# Path triggers of hooks

`_alpm_hook_trigger_match_file` sorts the paths that a transaction installs and those that it
removes, and walks the two lists in parallel.  Paths that are in both are upgrades: they are taken
out of both lists, with all their duplicates, and the path is noted once if the trigger is for
upgrades (`mergeMatches_spec`).

The walk takes elements out of the lists while it goes through them, so it is modelled by what stays
of each list from the current positions on.  The inner loops skip duplicates of a path that is in
both; `Skipped` is what the walk knows of the second list when it has come to a path, and with
sorted lists that is a statement about membership (`General.SortedRuns`).

`triggerMatchFile_classifies` says what the three kinds mean: a matching path is on the side of what
is installed only, on both sides, or on the side of what is removed only.  On the first side are the
files of the targets, but for those that `NoExtract` leaves out; on the other one those of their old
versions and of the packages to remove.  The return value and the matches follow from the kinds that
the trigger is for.
-/

namespace Alpm.Hooks

open Sync (Session)

/-- The bits of `_alpm_hook_op_t`. -/
structure HookOp where
  install : Bool
  upgrade : Bool
  remove : Bool
  deriving DecidableEq, Repr

/-- `_alpm_trigger_t` of a path trigger. -/
structure Trigger where
  op : HookOp
  targets : List CString
  deriving DecidableEq, Repr

/-- The fields of `_alpm_hook_t` for the targets: `matches` and `needs_targets`. -/
structure Hook where
  matchList : List CString := []
  needsTargets : Bool
  deriving DecidableEq, Repr

section

variable (sys : System) (noextract : List CString) (t : Trigger) (s : Session)

/-- The files that match a trigger. -/
def matchFiles (files : List CString) : List CString :=
  files.filter fun name => fnmatchPatterns sys t.targets name = 0

/-- The files that will be installed. -/
def installMatches : List CString :=
  s.trans.add.flatMap fun pkg =>
    matchFiles sys t (pkg.files.filter fun name => fnmatchPatterns sys noextract name ≠ 0)

/-- The files that will be removed due to a package upgrade or a package removal. -/
def removeMatches : List CString :=
  (s.trans.add.flatMap fun spkg => match (s.fields spkg.addr).oldpkg with
    | some pkg => matchFiles sys t pkg.files
    | none => []) ++
  s.trans.remove.flatMap fun pkg => matchFiles sys t pkg.files

end

/-- The lists `install`, `upgrade` and `remove` of `_alpm_hook_trigger_match_file`. -/
structure Matches where
  install : List CString
  upgrade : List CString
  remove : List CString
  deriving DecidableEq, Repr

/-- The loop over the two sorted lists, from `i` and `j` on: what stays in them from there, and
the paths that are in both. -/
def mergeMatches : List CString → List CString → Matches
  | [], j => ⟨[], [], j⟩
  | path :: i, j =>
    let skipped := j.takeWhile fun name => strcmp path name > 0
    match j.dropWhile fun name => strcmp path name > 0 with
    | [] => ⟨path :: i, [], skipped⟩
    | name :: j' =>
      if strcmp path name = 0 then
        let m := mergeMatches (i.dropWhile fun other => strcmp other path = 0)
          (j'.dropWhile fun other => strcmp other path = 0)
        ⟨m.install, path :: m.upgrade, skipped ++ m.remove⟩
      else
        let m := mergeMatches i (name :: j')
        ⟨path :: m.install, m.upgrade, skipped ++ m.remove⟩
  termination_by i => i.length
  decreasing_by
    · have hle := (List.dropWhile_sublist (l := i) fun other => strcmp other path = 0).length_le
      simp only [List.length_cons]
      omega
    · simp

/-- The three lists of a trigger. -/
def classify (sys : System) (noextract : List CString) (t : Trigger) (s : Session) : Matches :=
  mergeMatches (listMsort strcmp (installMatches sys noextract t s))
    (listMsort strcmp (removeMatches sys t s))

/-- `_alpm_hook_trigger_match_file`: whether one of the lists that the trigger is for is not empty,
and the hook with these lists added to its matches if it wants them. -/
def triggerMatchFile (sys : System) (noextract : List CString) (s : Session) (hook : Hook)
    (t : Trigger) : Bool × Hook :=
  let m := classify sys noextract t s
  let ret := t.op.install && m.install ≠ [] || t.op.upgrade && m.upgrade ≠ [] ||
    t.op.remove && m.remove ≠ []
  if hook.needsTargets then
    (ret, { hook with
      matchList := hook.matchList ++ (if t.op.install then m.install else []) ++
        (if t.op.upgrade then m.upgrade else []) ++ if t.op.remove then m.remove else [] })
  else (ret, hook)

/-! ## The walk -/

section

open SortedRuns

variable {path : CString} {i j : List CString}

/-- What the walk leaves in the two lists, and what it finds in both: each list without the paths of
the other one, and the common paths once each in order. -/
structure Classified (i j : List CString) (m : Matches) : Prop where
  install : m.install = i.filter (· ∉ j)
  remove : m.remove = j.filter (· ∉ i)
  sorted : m.upgrade.Pairwise (· < ·)
  upgrade : ∀ path, path ∈ m.upgrade ↔ path ∈ i ∧ path ∈ j

theorem skips_iff (path name : CString) : decide (strcmp path name > 0) ↔ name < path := by
  rw [decide_eq_true_eq, gt_iff_lt, strcmp_gt_zero]

theorem dropWhile_skipped (hj : j.Pairwise (· ≤ ·)) :
    (j.dropWhile fun name => strcmp path name > 0) = j.filter (path ≤ ·) := by
  rw [dropWhile_lt hj (skips_iff path)]
  refine List.filter_congr fun name _ => ?_
  rw [← decide_not, decide_eq_decide, gt_iff_lt, strcmp_gt_zero, not_lt]

theorem dropWhile_same (hi : (path :: i).Pairwise (· ≤ ·)) :
    (i.dropWhile fun other => strcmp other path = 0) = i.filter (· ≠ path) := by
  rw [dropWhile_eq hi fun other => by rw [decide_eq_true_eq, strcmp_eq_zero]]
  refine List.filter_congr fun other _ => ?_
  rw [← decide_not, decide_eq_decide, strcmp_eq_zero]

/-- What the walk knows of the second list when it has skipped what comes before a path. -/
structure Skipped (path : CString) (j skipped rest : List CString) : Prop where
  append : j = skipped ++ rest
  lt : ∀ name ∈ skipped, name < path
  le : ∀ name ∈ rest, path ≤ name
  sorted : rest.Pairwise (· ≤ ·)

theorem skipped_spec (hj : j.Pairwise (· ≤ ·)) (path : CString) :
    Skipped path j (j.takeWhile fun name => strcmp path name > 0)
      (j.dropWhile fun name => strcmp path name > 0) := by
  refine ⟨List.takeWhile_append_dropWhile.symm, fun name hname => ?_, fun name hname => ?_, ?_⟩
  · have h := List.mem_takeWhile_imp hname
    exact (skips_iff path name).mp h
  · rw [dropWhile_skipped hj] at hname
    exact of_decide_eq_true (List.mem_filter.mp hname).2
  · exact hj.sublist (List.dropWhile_sublist _)

/-- From the path on an entry is in the list if it was not skipped. -/
theorem Skipped.mem_iff {skipped rest : List CString} (h : Skipped path j skipped rest)
    {other : CString} (hle : path ≤ other) : other ∈ j ↔ other ∈ rest := by
  rw [h.append, List.mem_append, or_iff_right]
  exact fun hin => absurd (h.lt other hin) (not_lt.mpr hle)

theorem Skipped.filter {skipped rest : List CString} (h : Skipped path j skipped rest)
    (hi : ∀ other ∈ i, path ≤ other) :
    j.filter (· ∉ i) = skipped ++ rest.filter (· ∉ i) := by
  rw [h.append, List.filter_append]
  congr 1
  refine List.filter_eq_self.mpr fun name hname => ?_
  simpa using fun hin => absurd (hi name hin) (not_le.mpr (h.lt name hname))

theorem mergeMatches_spec (hi : i.Pairwise (· ≤ ·)) (hj : j.Pairwise (· ≤ ·)) :
    Classified i j (mergeMatches i j) := by
  fun_induction mergeMatches i j with
  | case1 j => exact ⟨by simp, by simp, List.Pairwise.nil, by simp⟩
  | case2 path i j skipped hnil =>
    have hle : ∀ other ∈ path :: i, path ≤ other :=
      List.forall_mem_cons.mpr ⟨le_rfl, (List.pairwise_cons.mp hi).1⟩
    have hskipped := skipped_spec hj path
    rw [hnil] at hskipped
    have hout : ∀ other ∈ path :: i, other ∉ j := by
      intro other hother hin
      exact List.not_mem_nil ((hskipped.mem_iff (hle other hother)).mp hin)
    refine ⟨?_, ?_, List.Pairwise.nil, fun other => ?_⟩
    · exact (List.filter_eq_self.mpr fun other hother => decide_eq_true (hout other hother)).symm
    · rw [hskipped.filter hle]
      exact (List.append_nil _).symm
    · simp only [List.not_mem_nil, false_iff, not_and]
      exact hout other
  | case3 path i j skipped name j' hdrop heq m ih =>
    obtain rfl : path = name := strcmp_eq_zero.mp heq
    have hle : ∀ other ∈ path :: i, path ≤ other :=
      List.forall_mem_cons.mpr ⟨le_rfl, (List.pairwise_cons.mp hi).1⟩
    have hskipped := skipped_spec hj path
    rw [hdrop] at hskipped
    have hm : Classified (i.filter (· ≠ path)) (j'.filter (· ≠ path)) m := by
      rw [← dropWhile_same hi, ← dropWhile_same hskipped.sorted]
      exact ih (hi.of_cons.sublist (List.dropWhile_sublist _))
        (hskipped.sorted.of_cons.sublist (List.dropWhile_sublist _))
    obtain ⟨hinstall, hremove, hsorted, hupgrade⟩ := hm
    have hpath : path ∈ j := (hskipped.mem_iff le_rfl).mpr (List.mem_cons_self ..)
    refine ⟨?_, ?_, List.pairwise_cons.mpr ⟨fun other hother => ?_, hsorted⟩, fun other => ?_⟩
    · rw [List.filter_cons_of_neg (by simpa using hpath)]
      show m.install = _
      rw [hinstall, List.filter_filter]
      refine List.filter_congr fun other hother => ?_
      have hmem := hskipped.mem_iff (hle other (List.mem_cons_of_mem _ hother))
      rw [← Bool.decide_and, decide_eq_decide, hmem, List.mem_filter, List.mem_cons]
      simp only [ne_eq, decide_eq_true_eq]
      tauto
    · rw [hskipped.filter hle, List.filter_cons_of_neg (by simp)]
      show _ ++ m.remove = _
      rw [hremove, List.filter_filter]
      congr 1
      refine List.filter_congr fun other hother => ?_
      rw [← Bool.decide_and, decide_eq_decide, List.mem_filter, List.mem_cons]
      simp only [ne_eq, decide_eq_true_eq]
      tauto
    · obtain ⟨hother, -⟩ := (hupgrade other).mp hother
      obtain ⟨hmem, hne⟩ := List.mem_filter.mp hother
      exact lt_of_le_of_ne (hle other (List.mem_cons_of_mem _ hmem))
        (Ne.symm (of_decide_eq_true hne))
    · rw [List.mem_cons, hupgrade, List.mem_filter, List.mem_filter, List.mem_cons]
      simp only [ne_eq, decide_eq_true_eq]
      constructor
      · rintro (rfl | ⟨⟨hin, -⟩, hin', -⟩)
        · exact ⟨Or.inl rfl, hpath⟩
        · exact ⟨Or.inr hin, (hskipped.mem_iff (hle other (List.mem_cons_of_mem _ hin))).mpr
            (List.mem_cons_of_mem _ hin')⟩
      · rintro ⟨hin, hin'⟩
        rw [hskipped.mem_iff (hle other (List.mem_cons.mpr hin)), List.mem_cons] at hin'
        tauto
  | case4 path i j skipped name j' hdrop hne m ih =>
    have hle : ∀ other ∈ path :: i, path ≤ other :=
      List.forall_mem_cons.mpr ⟨le_rfl, (List.pairwise_cons.mp hi).1⟩
    have hskipped := skipped_spec hj path
    rw [hdrop] at hskipped
    have hlt : path < name := lt_of_le_of_ne (hskipped.le name (List.mem_cons_self ..))
      fun h => hne (strcmp_eq_zero.mpr h)
    have hout : path ∉ name :: j' := by
      intro hin
      rcases List.mem_cons.mp hin with rfl | hin
      · exact lt_irrefl _ hlt
      · exact absurd ((List.pairwise_cons.mp hskipped.sorted).1 path hin) (not_le.mpr hlt)
    obtain ⟨hinstall, hremove, hsorted, hupgrade⟩ := ih hi.of_cons hskipped.sorted
    refine ⟨?_, ?_, hsorted, fun other => ?_⟩
    · rw [List.filter_cons_of_pos (by simpa [hskipped.mem_iff le_rfl] using hout)]
      show path :: m.install = _
      rw [hinstall]
      congr 1
      refine List.filter_congr fun other hother => ?_
      rw [decide_eq_decide, hskipped.mem_iff (hle other (List.mem_cons_of_mem _ hother))]
    · rw [hskipped.filter hle]
      show _ ++ m.remove = _
      rw [hremove]
      congr 1
      refine List.filter_congr fun other hother => ?_
      rw [decide_eq_decide, List.mem_cons, or_iff_right]
      rintro rfl
      exact hout hother
    · rw [hupgrade]
      constructor
      · rintro ⟨hin, hin'⟩
        exact ⟨List.mem_cons_of_mem _ hin,
          (hskipped.mem_iff (hle other (List.mem_cons_of_mem _ hin))).mpr hin'⟩
      · rintro ⟨hin, hin'⟩
        rw [hskipped.mem_iff (hle other hin)] at hin'
        refine ⟨(List.mem_cons.mp hin).resolve_left ?_, hin'⟩
        rintro rfl
        exact hout hin'

end

/-! ## Classification -/

theorem listMsort_strcmp_sorted (list : List CString) :
    (listMsort strcmp list).Pairwise (· ≤ ·) :=
  listMsort_sorted strcmp_comparesBy list

variable (sys : System) (noextract : List CString) (t : Trigger) (s : Session)

/-- A package that is being added installs the path, and the trigger matches it.  A path that
`NoExtract` matches is not installed. -/
def Installs (path : CString) : Prop :=
  ∃ pkg ∈ s.trans.add, path ∈ pkg.files ∧ fnmatchPatterns sys noextract path ≠ 0 ∧
    fnmatchPatterns sys t.targets path = 0

/-- A package that is being upgraded away or removed has the path, and the trigger matches
it. -/
def Removes (path : CString) : Prop :=
  ((∃ spkg ∈ s.trans.add, ∃ pkg ∈ (s.fields spkg.addr).oldpkg, path ∈ pkg.files) ∨
      ∃ pkg ∈ s.trans.remove, path ∈ pkg.files) ∧
    fnmatchPatterns sys t.targets path = 0

variable {sys noextract t s}

theorem mem_installMatches {path : CString} :
    path ∈ installMatches sys noextract t s ↔ Installs sys noextract t s path := by
  simp only [installMatches, matchFiles, Installs, List.mem_flatMap, List.mem_filter,
    decide_eq_true_eq, and_assoc]

theorem mem_removeMatches {path : CString} :
    path ∈ removeMatches sys t s ↔ Removes sys t s path := by
  have hold : ∀ spkg : Pkg, (path ∈ match (s.fields spkg.addr).oldpkg with
      | some pkg => matchFiles sys t pkg.files
      | none => []) ↔
      (∃ pkg ∈ (s.fields spkg.addr).oldpkg, path ∈ pkg.files) ∧
        fnmatchPatterns sys t.targets path = 0 := by
    intro spkg
    cases (s.fields spkg.addr).oldpkg with
    | none => simp
    | some pkg => simp [matchFiles]
  simp only [removeMatches, List.mem_append, List.mem_flatMap, hold, Removes]
  simp only [matchFiles, List.mem_filter, decide_eq_true_eq]
  constructor
  · rintro (⟨spkg, hspkg, hpath, hmatch⟩ | ⟨pkg, hpkg, hpath, hmatch⟩)
    · exact ⟨Or.inl ⟨spkg, hspkg, hpath⟩, hmatch⟩
    · exact ⟨Or.inr ⟨pkg, hpkg, hpath⟩, hmatch⟩
  · rintro ⟨⟨spkg, hspkg, hpath⟩ | ⟨pkg, hpkg, hpath⟩, hmatch⟩
    · exact Or.inl ⟨spkg, hspkg, hpath, hmatch⟩
    · exact Or.inr ⟨pkg, hpkg, hpath, hmatch⟩

variable (sys noextract t s) in
/-- **Path triggers are classified** by where the matching paths are: on the side of what is
installed only, on both sides, or on the side of what is removed only.  The trigger matches if a
selected list is not empty, and a hook with `NeedsTargets` collects these lists.  A path that is
there several times on a side is dealt with by the same step of the walk. -/
theorem triggerMatchFile_classifies (hook : Hook) :
    let m := classify sys noextract t s
    let result := triggerMatchFile sys noextract s hook t
    (∀ path, path ∈ m.install ↔
      Installs sys noextract t s path ∧ ¬ Removes sys t s path) ∧
    m.upgrade.Nodup ∧
    (∀ path, path ∈ m.upgrade ↔ Installs sys noextract t s path ∧ Removes sys t s path) ∧
    (∀ path, path ∈ m.remove ↔
      Removes sys t s path ∧ ¬ Installs sys noextract t s path) ∧
    (result.1 = true ↔ t.op.install ∧ m.install ≠ [] ∨ t.op.upgrade ∧ m.upgrade ≠ [] ∨
      t.op.remove ∧ m.remove ≠ []) ∧
    result.2 =
      if hook.needsTargets then
        { hook with
          matchList := hook.matchList ++ (if t.op.install then m.install else []) ++
            (if t.op.upgrade then m.upgrade else []) ++ if t.op.remove then m.remove else [] }
      else hook := by
  intro m result
  obtain ⟨hinstall, hremove, hsorted, hupgrade⟩ : Classified _ _ m :=
    mergeMatches_spec (listMsort_strcmp_sorted _) (listMsort_strcmp_sorted _)
  have hin : ∀ path, path ∈ listMsort strcmp (installMatches sys noextract t s) ↔
      Installs sys noextract t s path := fun path =>
    (listMsort_perm strcmp _).mem_iff.trans mem_installMatches
  have hout : ∀ path, path ∈ listMsort strcmp (removeMatches sys t s) ↔
      Removes sys t s path := fun path =>
    (listMsort_perm strcmp _).mem_iff.trans mem_removeMatches
  refine ⟨fun path => ?_, hsorted.imp ne_of_lt, fun path => ?_, fun path => ?_, ?_, ?_⟩
  · rw [hinstall, List.mem_filter, decide_eq_true_eq, hin, hout]
  · rw [hupgrade, hin, hout]
  · rw [hremove, List.mem_filter, decide_eq_true_eq, hin, hout]
  · have hret : result.1 = (t.op.install && m.install ≠ [] || t.op.upgrade && m.upgrade ≠ [] ||
        t.op.remove && m.remove ≠ []) := by
      show (triggerMatchFile sys noextract s hook t).1 = _
      unfold triggerMatchFile
      dsimp only
      split_ifs <;> rfl
    rw [hret]
    simp [or_assoc]
  · show (triggerMatchFile sys noextract s hook t).2 = _
    unfold triggerMatchFile
    dsimp only
    split_ifs <;> rfl

end Alpm.Hooks
