import Alpm.General.Splits
import Alpm.Sync.Closure
import Alpm.Sync.Safety

/-!
# What `*data` holds

Callers free and print `*data` by the error code: conflicts for `ALPM_ERR_CONFLICTING_DEPS`, missing
dependencies for `ALPM_ERR_UNSATISFIED_DEPS`, nothing on success.  The list itself does not say what
its elements are, so a wrong one is freed as something that it is not.

## 1.  The phases after the resolution

They do not look at the list (`prepareResolved_strip`), they add to it only a conflict, and the last
check replaces it.  So the list is wrong exactly when the resolution leaves an entry in it and the
preparation then succeeds or ends in a conflict.  `succeedsOrConflicts_iff` says when it does, phase
by phase and of the state before each: a conflict between targets of which neither provides the
other, a conflict with an installed package that the user does not want to remove, or no obstacle
in any of the phases.

## 2.  What the resolution leaves

An entry is appended where no package is found for a dependency, none on the list, none to resolve
and none that is installed (`Resolution.Stuck`).  If the call that gets stuck is one for a target
the target is unresolvable: then either the user is asked and the list is cleared, or the entries
are reported.  But a call further down may get stuck while an installed package is good enough for
what it was made for, and then nothing takes the entry out again.  So an entry is left when some
call gets stuck and no call for a target fails (`Leftover`).

`syncPrepare_data` puts the two together.
-/

namespace Alpm.Sync

/-- What a caller relies on. -/
def Outcome.DataMatches : Outcome → Prop
  | .crash => True
  | .fail pmErrno data _ =>
    (pmErrno = .conflictingDeps → ∀ e ∈ data, ∃ conflict, e = .conflict conflict) ∧
      (pmErrno = .unsatisfiedDeps → ∀ e ∈ data, ∃ miss, e = .depmissing miss)
  | .ok data _ => data = []

/-- The end of a phase without its `*data`. -/
def Outcome.strip : Outcome → Outcome
  | .crash => .crash
  | .fail pmErrno _ s => .fail pmErrno [] s
  | .ok _ s => .ok [] s

/-- Success, or a conflict that could not be resolved. -/
def Outcome.SucceedsOrConflicts : Outcome → Prop
  | .crash => False
  | .fail pmErrno _ _ => pmErrno = .conflictingDeps
  | .ok _ _ => True

/-- What happens to the list that a phase starts with. -/
def Outcome.DataFrom (before : List ErrorData) : Outcome → Prop
  | .crash => True
  | .fail pmErrno data _ =>
    (pmErrno = .conflictingDeps → ∃ conflict, data = before ++ [.conflict conflict]) ∧
      (pmErrno = .unsatisfiedDeps → ∀ e ∈ data, ∃ miss, e = .depmissing miss)
  | .ok data _ => data = before

namespace Outcome

theorem succeedsOrConflicts_strip {x : Outcome} :
    x.strip.SucceedsOrConflicts ↔ x.SucceedsOrConflicts := by
  cases x <;> rfl

theorem strip_bind {x y : Outcome} {next : List ErrorData → Session → Outcome}
    (hxy : x.strip = y.strip) (hnext : ∀ data data' s, (next data s).strip = (next data' s).strip) :
    (x.bind next).strip = (y.bind next).strip := by
  cases x <;> cases y <;> simp only [strip, reduceCtorEq, fail.injEq, ok.injEq] at hxy
  · rfl
  · obtain ⟨rfl, -, rfl⟩ := hxy
    rfl
  · obtain ⟨-, rfl⟩ := hxy
    exact hnext _ _ _

theorem DataFrom.bind {x : Outcome} {before : List ErrorData}
    {next : List ErrorData → Session → Outcome} (hx : x.DataFrom before)
    (hnext : ∀ s, (next before s).DataFrom before) : (x.bind next).DataFrom before := by
  cases x with
  | crash => trivial
  | fail pmErrno data s => exact hx
  | ok data s =>
    obtain rfl : data = before := hx
    exact hnext s

end Outcome

/-! ## The phases after the resolution -/

section

variable (handle : Handle) (env : PrepareEnv)

theorem prepareInner_strip (data data' : List ErrorData) (s : Session) :
    (prepareInner data s).strip = (prepareInner data' s).strip := by
  unfold prepareInner
  split_ifs
  · rfl
  · rcases dropConflicting (innerconflicts s.trans.add) s.trans.add s.trans.unresolvable with
      ⟨_ | conflict, add, unresolvable⟩ <;> rfl

theorem prepareOuter_strip (data data' : List ErrorData) (s : Session) :
    (prepareOuter handle data s).strip = (prepareOuter handle data' s).strip := by
  unfold prepareOuter
  split_ifs
  · rfl
  · rcases electRemovals handle s.trans.add s.trans.remove
      (outerconflicts handle.dbLocal.pkgcache s.trans.add) s.fields s.asked with
      ⟨_ | conflict, fields, asked⟩ <;> rfl

theorem prepareRemove_strip (data data' : List ErrorData) (s : Session) :
    (prepareRemove env data s).strip = (prepareRemove env data' s).strip := by
  unfold prepareRemove
  simp only
  split_ifs <;> rfl

theorem prepareCheckdeps_strip (data data' : List ErrorData) (s : Session) :
    (prepareCheckdeps handle data s).strip = (prepareCheckdeps handle data' s).strip := by
  unfold prepareCheckdeps
  simp only
  split_ifs <;> rfl

theorem prepareTargets_strip (data data' : List ErrorData) (s : Session) :
    (prepareTargets handle env data s).strip = (prepareTargets handle env data' s).strip := by
  unfold prepareTargets
  rcases loadTargets handle env s.trans.add s.fields with ⟨_ | pmErrno, fields⟩ <;> rfl

/-- **How the preparation goes on** does not depend on `*data`.  The phases after the resolution
only ever replace it or leave it, so what the resolution has left there can be told apart from how
they end. -/
theorem prepareResolved_strip (data data' : List ErrorData) (s : Session) :
    (prepareResolved handle env data s).strip = (prepareResolved handle env data' s).strip := by
  refine Outcome.strip_bind (Outcome.strip_bind (Outcome.strip_bind ?_ ?_) ?_) ?_
  · exact prepareInner_strip data data' s
  · exact prepareOuter_strip handle
  · exact prepareRemove_strip env
  · exact fun d d' t => Outcome.strip_bind (prepareCheckdeps_strip handle d d' t)
      (prepareTargets_strip handle env)

theorem loadTargets_error {add : List Pkg} {fields : ℕ → PkgFields} {pmErrno : Errno}
    (h : (loadTargets handle env add fields).1 = some pmErrno) :
    pmErrno ≠ .conflictingDeps ∧ pmErrno ≠ .unsatisfiedDeps := by
  induction add generalizing fields with
  | nil => simp [loadTargets] at h
  | cons spkg add ih =>
    have hget : (dbGetPkg handle spkg.name).2 ≠ .conflictingDeps ∧
        (dbGetPkg handle spkg.name).2 ≠ .unsatisfiedDeps := by
      unfold dbGetPkg
      split_ifs
      · simp
      · cases pkgFind handle.dbLocal.pkgcache spkg.name <;> simp
    have hsize : ∀ error, computeDownloadSize env spkg = .error (some error) →
        error = .pkgInvalidName := by
      intro error herror
      unfold computeDownloadSize at herror
      split at herror
      · simpa using herror.symm
      · split_ifs at herror
        · simp at herror
        · split at herror <;> simp at herror
      · simp at herror
    unfold loadTargets at h
    rcases hcompute : computeDownloadSize env spkg with (_ | error) | size
    · obtain rfl : (dbGetPkg handle spkg.name).2 = pmErrno := by simpa [hcompute] using h
      exact hget
    · obtain rfl : error = pmErrno := by simpa [hcompute] using h
      rw [hsize error hcompute]
      simp
    · simp only [hcompute] at h
      split at h
      · exact ih h
      · exact ih h
      · rw [← Option.some.inj h]
        simp
      · rw [← Option.some.inj h]
        simp

theorem prepareResolved_dataFrom (data : List ErrorData) (s : Session) :
    (prepareResolved handle env data s).DataFrom data := by
  refine Outcome.DataFrom.bind (.bind (.bind ?_ fun t => ?_) fun t => ?_) fun t =>
    .bind ?_ fun t => ?_
  · unfold prepareInner
    split_ifs
    · rfl
    · rcases dropConflicting (innerconflicts s.trans.add) s.trans.add s.trans.unresolvable with
        ⟨_ | conflict, add, unresolvable⟩
      · rfl
      · exact ⟨fun _ => ⟨conflict, rfl⟩, by simp⟩
  · unfold prepareOuter
    split_ifs
    · rfl
    · rcases electRemovals handle t.trans.add t.trans.remove
        (outerconflicts handle.dbLocal.pkgcache t.trans.add) t.fields t.asked with
        ⟨_ | conflict, fields, asked⟩
      · rfl
      · exact ⟨fun _ => ⟨conflict, rfl⟩, by simp⟩
  · unfold prepareRemove
    simp only
    split_ifs
    · exact ⟨by simp, by simp⟩
    · rfl
  · unfold prepareCheckdeps
    simp only
    split_ifs
    · rfl
    · exact ⟨by simp, fun _ e he => (List.mem_map.mp he).imp fun miss h => h.2.symm⟩
    · rfl
  · unfold prepareTargets
    rcases hload : loadTargets handle env t.trans.add t.fields with ⟨_ | pmErrno, fields⟩
    · rfl
    · obtain ⟨hconflict, hunsatisfied⟩ := loadTargets_error handle env (congrArg Prod.fst hload)
      exact ⟨fun h => absurd h hconflict, fun h => absurd h hunsatisfied⟩

/-- The list is right at the end if it was empty after the resolution, or if the list of the
resolution does not get out. -/
theorem prepareResolved_data {data : List ErrorData}
    (hdata : ∀ e ∈ data, ∃ miss, e = .depmissing miss)
    (s : Session) :
    (prepareResolved handle env data s).DataMatches ↔
      data = [] ∨ ¬ (prepareResolved handle env [] s).SucceedsOrConflicts := by
  have hfrom := prepareResolved_dataFrom handle env data s
  rw [← Outcome.succeedsOrConflicts_strip, prepareResolved_strip handle env [] data s,
    Outcome.succeedsOrConflicts_strip]
  cases hend : prepareResolved handle env data s with
  | crash => simp [Outcome.DataMatches, Outcome.SucceedsOrConflicts]
  | ok data' t =>
    rw [hend] at hfrom
    obtain rfl : data' = data := hfrom
    simp [Outcome.DataMatches, Outcome.SucceedsOrConflicts]
  | fail pmErrno data' t =>
    rw [hend] at hfrom
    obtain ⟨hconflict, hunsatisfied⟩ := hfrom
    by_cases herr : pmErrno = .conflictingDeps
    · obtain ⟨conflict, rfl⟩ := hconflict herr
      subst herr
      simp only [Outcome.DataMatches, Outcome.SucceedsOrConflicts, not_true_eq_false, or_false]
      constructor
      · rintro ⟨hall, -⟩
        by_contra hne
        obtain ⟨e, he⟩ := List.exists_mem_of_ne_nil _ hne
        obtain ⟨miss, rfl⟩ := hdata e he
        obtain ⟨c, hc⟩ := hall trivial _ (List.mem_append_left _ he)
        simp at hc
      · rintro rfl
        exact ⟨by simp, by simp⟩
    · simp only [Outcome.DataMatches, Outcome.SucceedsOrConflicts, herr]
      simpa using hunsatisfied

/-! ## Which obstacles the phases meet -/

/-- A conflict between targets is settled: one of them is no target any more, or one provides the
other. -/
def Yields (add : List Pkg) (conflict : Conflict) : Prop :=
  ∀ sync1 ∈ pkgFind add conflict.package1, ∀ sync2 ∈ pkgFind add conflict.package2,
    depcmp sync1 (depFromString conflict.package2) ∨ depcmp sync2 (depFromString conflict.package1)

theorem dropConflicting_eq_none_iff {deps : List Conflict} {add unresolvable : List Pkg} :
    (dropConflicting deps add unresolvable).1 = none ↔
      ∀ before conflict after, deps = before ++ conflict :: after →
        Yields (dropConflicting before add unresolvable).2.1 conflict := by
  induction deps generalizing add unresolvable with
  | nil => simp [dropConflicting]
  | cons first deps ih =>
    have hfirst : (dropConflicting [] add unresolvable).2.1 = add := rfl
    rw [Splits.forall_cons, hfirst]
    unfold dropConflicting Yields
    rcases hfind1 : pkgFind add first.package1 with _ | sync1
    · simpa [Yields] using ih
    rcases hfind2 : pkgFind add first.package2 with _ | sync2
    · simpa [Yields] using ih
    by_cases hone : depcmp sync1 (depFromString first.package2)
    · simpa [hone, Yields] using ih
    by_cases htwo : depcmp sync2 (depFromString first.package1)
    · simpa [hone, htwo, Yields] using ih
    · simp [hone, htwo]

theorem electRemovals_eq_none_iff {add remove : List Pkg} {deps : List Conflict}
    {fields : ℕ → PkgFields} {asked : ℕ} :
    (electRemovals handle add remove deps fields asked).1 = none ↔
      ∀ before conflict after, deps = before ++ conflict :: after →
        isElected add remove (electRemovals handle add remove before fields asked).2.1
            conflict.package2 ∨
          handle.answer (electRemovals handle add remove before fields asked).2.2 ≠ 0 := by
  induction deps generalizing fields asked with
  | nil => simp [electRemovals]
  | cons first deps ih =>
    have hfirst : electRemovals handle add remove [] fields asked = (none, fields, asked) := rfl
    rw [Splits.forall_cons, hfirst]
    unfold electRemovals
    by_cases helected : isElected add remove fields first.package2
    · simpa [helected] using ih
    by_cases hanswer : handle.answer asked ≠ 0
    · rcases hfind1 : pkgFind add first.package1 with _ | sync
      · simpa [helected, hanswer] using ih
      rcases hfind2 : pkgFind handle.dbLocal.pkgcache first.package2 with _ | installed
      · simpa [helected, hanswer] using ih
      · simpa [helected, hanswer] using ih
    · simp [helected, not_not.mp hanswer]

theorem pullRemoves_ne_iff {rpkgs remove : List Pkg} :
    (pullRemoves env rpkgs remove).1 ≠ -1 ↔ ∀ before rpkg after, rpkgs = before ++ rpkg :: after →
      rpkg.name ∈ (pullRemoves env before remove).2.map Pkg.name ∨
        env.dup (pullRemoves env before remove).2.length ≠ .fatal := by
  induction rpkgs generalizing remove with
  | nil => simp [pullRemoves]
  | cons first rpkgs ih =>
    have hfirst : (pullRemoves env [] remove).2 = remove := rfl
    rw [Splits.forall_cons, hfirst]
    unfold pullRemoves
    by_cases hknown : first.name ∈ remove.map Pkg.name
    · have hsome : (pkgFind remove first.name).isSome := pkgFind_isSome.mpr hknown
      simp only [hsome, if_true, hknown, true_or, true_and]
      exact ih
    have hnew : ¬ (pkgFind remove first.name).isSome := fun h => hknown (pkgFind_isSome.mp h)
    rcases hdup : env.dup remove.length with _ | addr | addr
    · simp [hnew, hknown, hdup, pkgDup]
    · simpa [hnew, hdup, pkgDup] using ih
    · simpa [hnew, hdup, pkgDup] using ih

/-- The size of the download can be computed, and if a version of the target is installed it can be
copied. -/
def Loads (spkg : Pkg) : Prop :=
  ((∃ treename, spkg.origin = .syncdb treename) → ∃ fname, spkg.filename = some fname ∧
      ((env.filecacheFind fname).isSome ∨ env.calloc)) ∧
    ((dbGetPkg handle spkg.name).1.isSome → ∃ addr, env.dupOldpkg spkg.addr = .success addr)

theorem computeDownloadSize_isOk_iff {spkg : Pkg} :
    (∃ size, computeDownloadSize env spkg = .ok size) ↔
      ((∃ treename, spkg.origin = .syncdb treename) → ∃ fname, spkg.filename = some fname ∧
        ((env.filecacheFind fname).isSome ∨ env.calloc)) := by
  unfold computeDownloadSize
  rcases horigin : spkg.origin with _ | _ | treename
  · simp
  · simp
  · rcases hname : spkg.filename with _ | fname
    · simp
    · by_cases hcached : (env.filecacheFind fname).isSome
      · simp [hcached]
      · cases hcalloc : env.calloc with
        | false => simp [hcached]
        | true =>
          rcases hpart : env.filecacheFind (fname ++ str ".part") with _ | _ | stSize <;>
            simp [hcached, hpart]

theorem loadTargets_eq_none_iff {add : List Pkg} {fields : ℕ → PkgFields} :
    (loadTargets handle env add fields).1 = none ↔ ∀ spkg ∈ add, Loads handle env spkg := by
  induction add generalizing fields with
  | nil => simp [loadTargets]
  | cons spkg add ih =>
    rw [List.forall_mem_cons, Loads, ← computeDownloadSize_isOk_iff]
    unfold loadTargets
    rcases hget : dbGetPkg handle spkg.name with ⟨_ | lpkg, pmErrno⟩
    · rcases hsize : computeDownloadSize env spkg with error | size
      · simp
      · simpa using ih
    · rcases hsize : computeDownloadSize env spkg with error | size
      · simp
      rcases hdup : env.dupOldpkg spkg.addr with _ | addr | addr
      · simp [pkgDup]
      · simp [pkgDup]
      · simpa [pkgDup] using ih

/-! ## The states before the phases -/

/-- Every conflict between targets can be settled: in the list as it is when the conflict is looked
at, one of the two provides the other, or is no target any more. -/
def InnerResolved (t : Session) : Prop :=
  t.trans.flags.noconflicts ∨
    ∀ before conflict after, innerconflicts t.trans.add = before ++ conflict :: after →
      Yields (dropConflicting before t.trans.add t.trans.unresolvable).2.1 conflict

/-- After the conflicts between targets. -/
def afterInner (t : Session) : Session :=
  if t.trans.flags.noconflicts then t
  else
    let (_, add, unresolvable) :=
      dropConflicting (innerconflicts t.trans.add) t.trans.add t.trans.unresolvable
    { t with trans := { t.trans with
      add
      unresolvable } }

/-- Every installed package in a conflict is going to be removed already, or the user agrees. -/
def OuterResolved (t : Session) : Prop :=
  t.trans.flags.noconflicts ∨
    ∀ before conflict after,
      outerconflicts handle.dbLocal.pkgcache t.trans.add = before ++ conflict :: after →
        let state := electRemovals handle t.trans.add t.trans.remove before t.fields t.asked
        isElected t.trans.add t.trans.remove state.2.1 conflict.package2 ∨
          handle.answer state.2.2 ≠ 0

/-- After the conflicts with installed packages. -/
def afterOuter (t : Session) : Session :=
  if t.trans.flags.noconflicts then t
  else
    let (_, fields, asked) := electRemovals handle t.trans.add t.trans.remove
      (outerconflicts handle.dbLocal.pkgcache t.trans.add) t.fields t.asked
    { t with
      fields
      asked }

/-- What the targets are going to replace. -/
def replacedPkgs (t : Session) : List Pkg :=
  t.trans.add.flatMap fun spkg => (t.fields spkg.addr).removes

/-- There is memory for the copies that go on `trans->remove`. -/
def RemovesCopied (t : Session) : Prop :=
  ∀ before rpkg after, replacedPkgs t = before ++ rpkg :: after →
    rpkg.name ∈ (pullRemoves env before t.trans.remove).2.map Pkg.name ∨
      env.dup (pullRemoves env before t.trans.remove).2.length ≠ .fatal

/-- With the packages to remove. -/
def afterRemove (t : Session) : Session :=
  { t with trans := { t.trans with
    remove := (pullRemoves env (replacedPkgs t) t.trans.remove).2 } }

/-- The final check finds nothing missing. -/
def DepsMet (t : Session) : Prop :=
  t.trans.flags.nodeps ∨
    checkdeps (t.trans.flags.depContext handle.assumeinstalled) handle.dbLocal.pkgcache
      t.trans.remove t.trans.add true = []

/-- **Where the list gets out**: one of the conflicts cannot be settled, or no phase meets an
obstacle. -/
def Proceeds (t : Session) : Prop :=
  ¬ InnerResolved t ∨ ¬ OuterResolved handle (afterInner t) ∨
    let u := afterOuter handle (afterInner t)
    RemovesCopied env u ∧ DepsMet handle (afterRemove env u) ∧
      ∀ spkg ∈ (afterRemove env u).trans.add, Loads handle env spkg

theorem prepareInner_cases (data : List ErrorData) (t : Session) :
    InnerResolved t ∧ prepareInner data t = .ok data (afterInner t) ∨
      ¬ InnerResolved t ∧ ∃ data', prepareInner data t =
        .fail .conflictingDeps data' (afterInner t) := by
  unfold prepareInner afterInner InnerResolved
  rw [← dropConflicting_eq_none_iff]
  split_ifs with hflag
  · exact Or.inl ⟨Or.inl hflag, rfl⟩
  · rcases dropConflicting (innerconflicts t.trans.add) t.trans.add t.trans.unresolvable with
      ⟨_ | conflict, add, unresolvable⟩
    · exact Or.inl ⟨Or.inr rfl, rfl⟩
    · exact Or.inr ⟨by simp [hflag], _, rfl⟩

theorem prepareOuter_cases (data : List ErrorData) (t : Session) :
    OuterResolved handle t ∧ prepareOuter handle data t = .ok data (afterOuter handle t) ∨
      ¬ OuterResolved handle t ∧ ∃ data', prepareOuter handle data t =
        .fail .conflictingDeps data' (afterOuter handle t) := by
  unfold prepareOuter afterOuter OuterResolved
  rw [← electRemovals_eq_none_iff]
  split_ifs with hflag
  · exact Or.inl ⟨Or.inl hflag, rfl⟩
  · rcases electRemovals handle t.trans.add t.trans.remove
      (outerconflicts handle.dbLocal.pkgcache t.trans.add) t.fields t.asked with
      ⟨_ | conflict, fields, asked⟩
    · exact Or.inl ⟨Or.inr rfl, rfl⟩
    · exact Or.inr ⟨by simp [hflag], _, rfl⟩

theorem prepareRemove_cases (data : List ErrorData) (t : Session) :
    RemovesCopied env t ∧ prepareRemove env data t = .ok data (afterRemove env t) ∨
      ¬ RemovesCopied env t ∧ prepareRemove env data t =
        .fail .memory data (afterRemove env t) := by
  unfold prepareRemove afterRemove RemovesCopied replacedPkgs
  rw [← pullRemoves_ne_iff]
  by_cases hret : (pullRemoves env (t.trans.add.flatMap fun spkg => (t.fields spkg.addr).removes)
      t.trans.remove).1 = -1
  · exact Or.inr ⟨not_not_intro hret, if_pos hret⟩
  · exact Or.inl ⟨hret, if_neg hret⟩

theorem prepareCheckdeps_cases (data : List ErrorData) (t : Session) :
    DepsMet handle t ∧ prepareCheckdeps handle data t = .ok data t ∨
      ¬ DepsMet handle t ∧ ∃ data', prepareCheckdeps handle data t =
        .fail .unsatisfiedDeps data' t := by
  unfold prepareCheckdeps DepsMet
  simp only
  split_ifs with hflag hdeps
  · exact Or.inl ⟨Or.inl hflag, rfl⟩
  · exact Or.inr ⟨by simp [hflag, hdeps], _, rfl⟩
  · exact Or.inl ⟨Or.inr (not_not.mp hdeps), rfl⟩

theorem prepareTargets_cases (data : List ErrorData) (t : Session) :
    (∀ spkg ∈ t.trans.add, Loads handle env spkg) ∧
        (∃ t', prepareTargets handle env data t = .ok data t') ∨
      ¬ (∀ spkg ∈ t.trans.add, Loads handle env spkg) ∧ ∃ pmErrno data' t',
        prepareTargets handle env data t = .fail pmErrno data' t' ∧ pmErrno ≠ .conflictingDeps := by
  rw [← @loadTargets_eq_none_iff handle env t.trans.add t.fields]
  unfold prepareTargets
  rcases hload : loadTargets handle env t.trans.add t.fields with ⟨_ | pmErrno, fields⟩
  · exact Or.inl ⟨rfl, _, rfl⟩
  · exact Or.inr ⟨by simp, pmErrno, _, _, rfl,
      (loadTargets_error handle env (congrArg Prod.fst hload)).1⟩

/-- **How the phases after the resolution end**, from what each of them finds.  Those that end with
another error replace `*data` by entries of their own, and with them it matches. -/
theorem succeedsOrConflicts_iff (data : List ErrorData) (t : Session) :
    (prepareResolved handle env data t).SucceedsOrConflicts ↔ Proceeds handle env t := by
  unfold prepareResolved Proceeds
  rcases prepareInner_cases data t with ⟨hinner, heq⟩ | ⟨hinner, data', heq⟩
  swap
  · rw [heq]
    exact iff_of_true rfl (Or.inl hinner)
  rw [heq, Outcome.bind, or_iff_right (not_not_intro hinner)]
  rcases prepareOuter_cases handle data (afterInner t) with ⟨houter, heq⟩ | ⟨houter, data', heq⟩
  swap
  · rw [heq]
    exact iff_of_true rfl (Or.inl houter)
  rw [heq, Outcome.bind, or_iff_right (not_not_intro houter)]
  rcases prepareRemove_cases env data (afterOuter handle (afterInner t)) with
    ⟨hcopied, heq⟩ | ⟨hcopied, heq⟩
  swap
  · rw [heq]
    exact iff_of_false (by simp [Outcome.bind, Outcome.SucceedsOrConflicts]) fun h => hcopied h.1
  rw [heq, Outcome.bind]
  rcases prepareCheckdeps_cases handle data (afterRemove env (afterOuter handle (afterInner t)))
    with ⟨hmet, heq⟩ | ⟨hmet, data', heq⟩
  swap
  · rw [heq]
    exact iff_of_false (by simp [Outcome.bind, Outcome.SucceedsOrConflicts]) fun h => hmet h.2.1
  rw [heq, Outcome.bind]
  rcases prepareTargets_cases handle env data (afterRemove env (afterOuter handle (afterInner t)))
    with ⟨hloads, t', heq⟩ | ⟨hloads, pmErrno, data', t', heq, herr⟩
  · rw [heq]
    exact iff_of_true trivial ⟨hcopied, hmet, hloads⟩
  · rw [heq]
    exact iff_of_false herr fun h => hloads h.2.2

/-! ## What the resolution leaves -/

/-- The arguments of the calls of `_alpm_resolvedeps` for the targets. -/
def targetResolution (s : Session) : Resolution where
  handle := handle
  ctx := s.trans.flags.depContext handle.assumeinstalled
  localpkgs := listDiff pkgCmp handle.dbLocal.pkgcache s.trans.add
  preferred := s.trans.add
  rem := s.trans.remove ++ s.trans.add.flatMap fun spkg => (s.fields spkg.addr).removes

/-- The call for the target behind the targets `before`. -/
def targetCall (s : Session) (before : List Pkg) (pkg : Pkg) : ResolveCall :=
  ⟨pkg, (resolvedBefore handle s before).2⟩

/-- **The resolution leaves an entry**: no call for a target fails, but some call gets stuck.  It is
a condition on the databases, the targets and the answers, since `Fails` and `GetsStuck` are. -/
structure Leftover (s : Session) : Prop where
  deps : s.trans.flags.nodeps = false
  resolved : ∀ before pkg after, s.trans.add = before ++ pkg :: after →
    ¬ (targetResolution handle s).Fails (targetCall handle s before pkg)
  stuck : ∃ before pkg after, s.trans.add = before ++ pkg :: after ∧
    (targetResolution handle s).GetsStuck (targetCall handle s before pkg)

variable {handle} in
theorem unresolvable_eq_nil_iff {s : Session} (targets : List Pkg) :
    (resolvedBefore handle s targets).1 = [] ↔ ∀ before pkg after,
      targets = before ++ pkg :: after →
        ¬ (targetResolution handle s).Fails (targetCall handle s before pkg) := by
  induction targets using List.reverseRecOn with
  | nil => simp [resolvedBefore]
  | append_singleton targets pkg ih =>
    have hcode := ((targetResolution handle s).result_spec (targetCall handle s targets pkg)).code
    have hfirst : (resolvedBefore handle s (targets ++ [pkg])).1 =
        if ((targetResolution handle s).result (targetCall handle s targets pkg)).1 = -1 then
          (resolvedBefore handle s targets).1 ++ [pkg]
        else (resolvedBefore handle s targets).1 := by
      rw [resolvedBefore_concat]
      rfl
    rw [Splits.forall_concat, ← ih, Resolution.fails_iff, hfirst]
    rcases hcode with hret | hret <;> simp [hret]

variable {handle} in
theorem data_eq_nil_iff {s : Session} (targets : List Pkg) :
    (resolvedBefore handle s targets).2.data = [] ↔ ∀ before pkg after,
      targets = before ++ pkg :: after →
        ¬ (targetResolution handle s).GetsStuck (targetCall handle s before pkg) := by
  induction targets using List.reverseRecOn with
  | nil => simp [resolvedBefore]
  | append_singleton targets pkg ih =>
    have hsecond : (resolvedBefore handle s (targets ++ [pkg])).2 =
        ((targetResolution handle s).result (targetCall handle s targets pkg)).2 := by
      rw [resolvedBefore_concat]
      rfl
    have hgrown := ((targetResolution handle s).result_spec
      (targetCall handle s targets pkg)).grown.data
    rw [Splits.forall_concat, ← ih, ← Resolution.result_data_iff, hsecond,
      ← List.length_eq_zero_iff, ← List.length_eq_zero_iff]
    simp only [targetCall] at hgrown ⊢
    omega

/-! ## The whole preparation -/

variable {handle} in
theorem prepareResolve_data {data : List ErrorData} {s s' : Session}
    (h : prepareResolve handle [] s = .ok data s') :
    (∀ e ∈ data, ∃ miss, e = .depmissing miss) ∧ (data ≠ [] ↔ Leftover handle s) := by
  rcases prepareResolve_eq_ok h with ⟨hnodeps, rfl, -⟩ | ⟨hnodeps, -, -, -, rfl⟩
  · refine ⟨by simp, by simp, ?_⟩
    rintro ⟨hdeps, -, -⟩
    simp [hnodeps] at hdeps
  · have hresolved := @unresolvable_eq_nil_iff handle s s.trans.add
    have hdata := @data_eq_nil_iff handle s s.trans.add
    rw [← resolveTargets_eq] at hresolved hdata
    split_ifs with hnil
    · refine ⟨fun e he => ?_, ?_⟩
      · obtain ⟨miss, -, rfl⟩ := List.mem_map.mp (by simpa using he)
        exact ⟨miss, rfl⟩
      · rw [List.nil_append, Ne, List.map_eq_nil_iff, hdata]
        push Not
        exact ⟨fun h => ⟨hnodeps, hresolved.mp hnil, h⟩, fun h => h.stuck⟩
    · exact ⟨by simp, by simp, fun hleft => absurd (hresolved.mpr hleft.resolved) hnil⟩

variable {handle} in
theorem prepareResolve_dataMatches {pmErrno : Errno} {data : List ErrorData} {s s' : Session}
    (h : prepareResolve handle [] s = .fail pmErrno data s') :
    (Outcome.fail pmErrno data s').DataMatches := by
  have htake : ∀ (unresolvable resolved : List Pkg) (d : List ErrorData) (t : Session),
      takeResolved unresolvable resolved d t ≠ .fail pmErrno data s' := by
    intro unresolvable resolved d t ht
    rcases takeResolved_cases unresolvable resolved d t with ⟨-, heq⟩ | ⟨-, heq⟩ <;>
      · rw [heq] at ht
        cases ht
  unfold prepareResolve at h
  simp only at h
  split_ifs at h
  · exact absurd h (htake _ _ _ _)
  · exact absurd h (htake _ _ _ _)
  · obtain ⟨rfl, rfl, -⟩ := Outcome.fail.inj h
    refine ⟨by simp, fun _ e he => ?_⟩
    obtain ⟨miss, -, rfl⟩ := List.mem_map.mp (by simpa using he)
    exact ⟨miss, rfl⟩

/-- All databases are valid, and none is missing if a target is from one. -/
def DbsValid (s : Session) : Prop :=
  ∀ db ∈ handle.dbsSync, db.invalid = false ∧
    ((∃ spkg ∈ s.trans.add, ∃ treename, spkg.origin = .syncdb treename) → db.missing = false)

/-- The packages have file names, and no two the same. -/
def FilenamesDiffer (pkgs : List Pkg) : Prop :=
  pkgs.Pairwise fun pkg1 pkg2 => ∃ f ∈ pkg1.filename, ∃ g ∈ pkg2.filename, f ≠ g

/-- After the resolution, when all targets could be resolved. -/
def afterResolve (s : Session) : Session :=
  { s with
    asked := (resolveTargets handle s).2.asked
    trans := { s.trans with
      unresolvable := []
      add := (resolveTargets handle s).2.packages }
    fields := setPulled s.trans.add (resolveTargets handle s).2.packages s.fields }

theorem filenamesDiffer_iff {pkgs : List Pkg} :
    filenamesDiffer pkgs = some true ↔ FilenamesDiffer pkgs := by
  have hall : ∀ (f : Pkg → Option Bool) (rest : List Pkg),
      (∃ differs, rest.mapM f = some differs ∧ differs.all id = true) ↔
        ∀ pkg2 ∈ rest, f pkg2 = some true := by
    intro f rest
    induction rest with
    | nil => simp
    | cons pkg2 rest ih =>
      rw [List.forall_mem_cons, ← ih, List.mapM_cons]
      rcases hfirst : f pkg2 with _ | _ | _
      · simp
      · cases rest.mapM f <;> simp
      · cases rest.mapM f <;> simp
  induction pkgs with
  | nil => simp [filenamesDiffer, FilenamesDiffer]
  | cons pkg1 rest ih =>
    have hfirst := hall (fun pkg2 => do
      return decide (strcmp (← pkg1.filename) (← pkg2.filename) ≠ 0)) rest
    have hpair : ∀ pkg2 : Pkg, ((do
        return decide (strcmp (← pkg1.filename) (← pkg2.filename) ≠ 0) : Option Bool) =
          some true) ↔ ∃ f ∈ pkg1.filename, ∃ g ∈ pkg2.filename, f ≠ g := by
      intro pkg2
      cases pkg1.filename <;> cases pkg2.filename <;> simp
    simp only [hpair] at hfirst
    have hrest : FilenamesDiffer (pkg1 :: rest) ↔
        (∃ differs, (rest.mapM fun pkg2 => do
          return decide (strcmp (← pkg1.filename) (← pkg2.filename) ≠ 0)) = some differs ∧
            differs.all id = true) ∧ filenamesDiffer rest = some true := by
      rw [hfirst]
      exact List.pairwise_cons.trans (and_congr_right fun _ => ih.symm)
    rw [hrest]
    conv_lhs => unfold filenamesDiffer
    simp only [Option.bind_eq_bind, Option.bind_eq_some_iff, Option.pure_def, Option.some.injEq,
      Bool.and_eq_true]
    constructor
    · rintro ⟨differs, hdiffers, others, hothers, hand, rfl⟩
      exact ⟨⟨differs, hdiffers, hand⟩, hothers⟩
    · rintro ⟨⟨differs, hdiffers, hand⟩, hothers⟩
      exact ⟨differs, hdiffers, true, hothers, hand, rfl⟩

theorem prepareDbs_eq_ok_iff {data : List ErrorData} {s : Session} :
    prepareDbs handle data s = .ok data s ↔ DbsValid handle s := by
  unfold prepareDbs DbsValid
  simp only
  generalize hany : s.trans.add.any _ = fromSync
  have hfrom : fromSync = true ↔ ∃ spkg ∈ s.trans.add, ∃ treename,
      spkg.origin = .syncdb treename := by
    rw [← hany, List.any_eq_true]
    refine exists_congr fun spkg => and_congr_right fun _ => ?_
    cases spkg.origin <;> simp
  rw [← hfrom]
  cases hfind : handle.dbsSync.findSome? _ with
  | some pmErrno =>
    obtain ⟨db, hdb, herror⟩ := List.exists_of_findSome?_eq_some hfind
    refine iff_of_false (by simp) fun hvalid => ?_
    obtain ⟨hinvalid, hmissing⟩ := hvalid db hdb
    simp only [hinvalid, Bool.false_eq_true, if_false] at herror
    split_ifs at herror with hand
    rw [Bool.and_eq_true] at hand
    rw [hmissing hand.1] at hand
    exact absurd hand.2 Bool.false_ne_true
  | none =>
    refine iff_of_true rfl fun db hdb => ?_
    have herror := List.findSome?_eq_none_iff.mp hfind db hdb
    split_ifs at herror with hinvalid hand
    refine ⟨by simpa using hinvalid, fun hsync => ?_⟩
    by_contra hmissing
    exact hand (Bool.and_eq_true_iff.mpr ⟨hsync, by simpa using hmissing⟩)

/-- **The error data matches the error** unless an entry is left after the resolution and it gets
out: the databases are valid, no call for a target fails although some call gets stuck, the file
names differ, and then a conflict cannot be settled or no phase meets an obstacle. -/
theorem syncPrepare_data (s : Session) :
    (syncPrepare handle env s).DataMatches ↔
      ¬ (DbsValid handle s ∧ Leftover handle s ∧
        FilenamesDiffer (resolveTargets handle s).2.packages ∧
          Proceeds handle env (afterResolve handle s)) := by
  unfold syncPrepare
  rcases prepareDbs_cases handle [] s with hdbs | ⟨pmErrno, hdbs, herr⟩
  swap
  · have hinvalid : ¬ DbsValid handle s := by
      rw [← @prepareDbs_eq_ok_iff handle [] s, hdbs]
      simp
    rw [hdbs]
    refine iff_of_true ?_ fun h => hinvalid h.1
    rcases herr with rfl | rfl <;> exact ⟨by simp, by simp⟩
  rw [hdbs, Outcome.bind, and_iff_right ((prepareDbs_eq_ok_iff handle).mp hdbs)]
  -- when an entry is left the resolution comes to the comparison of the file names
  have hresolve : Leftover handle s → prepareResolve handle [] s =
      takeResolved [] (resolveTargets handle s).2.packages
        ((resolveTargets handle s).2.data.map .depmissing)
        { s with asked := (resolveTargets handle s).2.asked } := by
    intro hleft
    have hnil : (resolveTargets handle s).1 = [] :=
      (unresolvable_eq_nil_iff s.trans.add).mpr hleft.resolved
    unfold prepareResolve
    simp only [hleft.deps, hnil, Bool.false_eq_true, if_false, if_true, List.nil_append]
  cases hend : prepareResolve handle [] s with
  | crash =>
    refine iff_of_true trivial ?_
    rintro ⟨hleft, hnames, -⟩
    rcases takeResolved_cases [] (resolveTargets handle s).2.packages
      ((resolveTargets handle s).2.data.map .depmissing)
      { s with asked := (resolveTargets handle s).2.asked } with ⟨-, heq⟩ | ⟨hdiffer, -⟩
    · rw [← hresolve hleft, hend] at heq
      cases heq
    · exact hdiffer (filenamesDiffer_iff.mpr hnames)
  | fail pmErrno data t =>
    refine iff_of_true (prepareResolve_dataMatches hend) ?_
    rintro ⟨hleft, -⟩
    rw [hresolve hleft] at hend
    rcases takeResolved_cases [] (resolveTargets handle s).2.packages
      ((resolveTargets handle s).2.data.map .depmissing)
      { s with asked := (resolveTargets handle s).2.asked } with ⟨-, heq⟩ | ⟨-, heq⟩ <;>
      · rw [heq] at hend
        cases hend
  | ok data t =>
    obtain ⟨hall, hleftover⟩ := prepareResolve_data hend
    rw [Outcome.bind, prepareResolved_data handle env hall, succeedsOrConflicts_iff]
    by_cases hleft : Leftover handle s
    · rw [hresolve hleft] at hend
      rcases takeResolved_cases [] (resolveTargets handle s).2.packages
        ((resolveTargets handle s).2.data.map .depmissing)
        { s with asked := (resolveTargets handle s).2.asked } with ⟨hdiffer, heq⟩ | ⟨-, heq⟩
      · rw [heq] at hend
        obtain ⟨-, rfl⟩ := Outcome.ok.inj hend
        rw [or_iff_right (hleftover.mpr hleft), and_iff_right hleft,
          and_iff_right (filenamesDiffer_iff.mp hdiffer)]
        rfl
      · rw [heq] at hend
        cases hend
    · exact iff_of_true (Or.inl (not_not.mp fun hne => hleft (hleftover.mp hne)))
        fun h => hleft h.1

end

/-! ## An entry that gets out -/

/-- A package of the repository `core`. -/
def corePkg (addr : ℕ) (name version : String) (depends provides : List Depend) : Pkg :=
  { addr
    name := str name
    version := str version
    filename := some (str name)
    depends
    provides
    origin := .syncdb (str "core") }

/-- `tool` 1 is installed and provides `virt`; the repository has a package `virt` with a
dependency that nothing satisfies, and `virtnew`, which provides `virt`. -/
def virtHandle : Handle :=
  { dbLocal := {
      treename := str "local"
      pkgcache := [{
        name := str "tool"
        version := str "1-1"
        provides := [{ name := str "virt" }] }] }
    dbsSync := [{
      treename := str "core"
      pkgcache := [corePkg 1 "virt" "1-1" [{ name := str "nosuch" }] [],
        corePkg 2 "virtnew" "1-1" [] [{ name := str "virt" }]] }]
    fnmatch := fun _ _ => false
    answer := fun _ => 0 }

/-- The targets are `app`, which depends on `virt`, and `tool` 2, which depends on `virtnew`. -/
def virtSession : Session :=
  { trans := {
      flags := {}
      state := .initialized
      add := [corePkg 3 "app" "1-1" [{ name := str "virt" }] [],
        corePkg 4 "tool" "2-1" [{ name := str "virtnew" }] []] } }

/-- **An entry gets out.**  `virt` cannot be resolved, the installed `tool` is accepted instead, and
the preparation succeeds with the entry about `nosuch` in `*data`. -/
theorem syncPrepare_leaves_data :
    (∃ s', syncPrepare virtHandle quietEnv virtSession =
        .ok [.depmissing ⟨str "virt", { name := str "nosuch" }, none⟩] s') ∧
      ¬ (syncPrepare virtHandle quietEnv virtSession).DataMatches := by
  have hdata : (match syncPrepare virtHandle quietEnv virtSession with
      | .ok data _ => some data
      | _ => none) = some [.depmissing ⟨str "virt", { name := str "nosuch" }, none⟩] := by
    decide +kernel
  cases hend : syncPrepare virtHandle quietEnv virtSession with
  | crash => simp [hend] at hdata
  | fail pmErrno data s => simp [hend] at hdata
  | ok data s =>
    obtain rfl : data = _ := by simpa [hend] using hdata
    exact ⟨⟨s, rfl⟩, by simp [Outcome.DataMatches]⟩

/-- The same with a `virt` whose dependency `lib` is in the repository. -/
def libHandle : Handle :=
  { virtHandle with
    dbsSync := [{
      treename := str "core"
      pkgcache := [corePkg 1 "virt" "1-1" [{ name := str "lib" }] [],
        corePkg 2 "virtnew" "1-1" [] [{ name := str "virt" }],
        corePkg 5 "lib" "1-1" [] []] }] }

/-- Here no call gets stuck, and five packages are resolved for the two targets: the condition does
not hold, and the list is empty at the end. -/
theorem syncPrepare_data_lib :
    ((resolveTargets libHandle virtSession).2.packages.map Pkg.name =
        [str "app", str "virt", str "lib", str "tool", str "virtnew"]) ∧
      ¬ Leftover libHandle virtSession ∧
      (syncPrepare libHandle quietEnv virtSession).DataMatches := by
  have hleft : ¬ Leftover libHandle virtSession := by
    intro h
    refine (data_eq_nil_iff virtSession.trans.add).not.mpr ?_ (?_ :
      (resolvedBefore libHandle virtSession virtSession.trans.add).2.data = [])
    · push Not
      exact h.stuck
    · decide +kernel
  exact ⟨by decide +kernel, hleft,
    (syncPrepare_data libHandle quietEnv virtSession).mpr fun h => hleft h.2.1⟩

end Alpm.Sync
