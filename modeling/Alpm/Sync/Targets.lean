import Alpm.Deps.TransactionOrder
import Alpm.Sync.Safety

/-!
# Targets by name

The calls that put packages into a transaction: `alpm_add_pkg`, `alpm_remove_pkg`,
`alpm_sync_sysupgrade` and `alpm_trans_prepare`.  Each of them looks for the names that are there
before it adds a package, in its own way, and none ever makes a list with two packages of one name.

## 1.  The calls

A call returns a value and leaves a session, that is the transaction with the questions that were
asked so far.  `alpm_add_pkg` compares versions with the package of the name that is a target
already and replaces it or refuses; `alpm_remove_pkg` and the replacers refuse a name that is there;
the literal of an upgrade is only looked for when the name is not a target; the resolution of
dependencies and the recursive removal look in the lists that they extend.

## 2.  Distinct names

`Session.Unique` is the invariant, for both lists.  A copy that `_alpm_pkg_dup` makes has the name
of its original, which is the one fact about copies that is needed.  `targets_unique` is about every
sequence of calls on a new transaction, whatever they return: a call that fails leaves the lists
unique as well, and where a call ends the program there is no state to speak of.
-/

namespace Alpm.Sync

/-! ## The calls -/

section

variable (handle : Handle)

/-- What a call returns and leaves behind. -/
structure Returned where
  ret : Int
  pmErrno : Errno
  s : Session

/-- `_alpm_pkg_compare_versions`. -/
def pkgCompareVersions (spkg localpkg : Pkg) : Int := pkgVercmp spkg.version localpkg.version

/-- `alpm_add_pkg`.  A second package of a name is an error, unless it is the same object; with the
flag `NEEDED` a package that is installed in this version is passed over. -/
def addPkg (pkg : Pkg) (s : Session) : Returned :=
  if pkg.origin = .localdb then ⟨-1, .wrongArgs, s⟩
  else if s.trans.state ≠ .initialized then ⟨-1, .transNotInitialized, s⟩
  else match pkgFind s.trans.add pkg.name with
    | some dup => if dup.addr = pkg.addr then ⟨0, .ok, s⟩ else ⟨-1, .transDupTarget, s⟩
    | none =>
      -- with the NEEDED flag, packages up to date are not reinstalled
      let upToDate := (pkgFind handle.dbLocal.pkgcache pkg.name).any fun installed =>
        pkgCompareVersions pkg installed = 0
      if upToDate && s.trans.flags.needed then ⟨0, .ok, s⟩
      else
        ⟨0, .ok,
          { s with
            trans := { s.trans with add := s.trans.add ++ [pkg] }
            fields := Function.update s.fields pkg.addr
              { s.fields pkg.addr with reason := .explicit } }⟩

/-- `alpm_remove_pkg`; `outcome` is what `_alpm_pkg_dup` meets.  It is a copy that goes on the list,
and a name that is there already is passed over. -/
def removePkg (outcome : DupOutcome) (pkg : Pkg) (s : Session) : Returned :=
  if pkg.origin ≠ .localdb then ⟨-1, .wrongArgs, s⟩
  else if s.trans.state ≠ .initialized then ⟨-1, .transNotInitialized, s⟩
  else if (pkgFind s.trans.remove pkg.name).isSome then ⟨0, .ok, s⟩
  else match pkgDup outcome pkg with
    | (-1, _) => ⟨-1, .memory, s⟩
    | (ret, copy) =>
      ⟨0, if ret = 0 then .ok else .pkgInvalid,
        { s with trans := { s.trans with remove := s.trans.remove ++ copy.toList } }⟩

/-- `check_literal`. -/
def checkLiteral (lpkg spkg : Pkg) (enableDowngrade : Bool) : Bool :=
  let cmp := pkgCompareVersions spkg lpkg
  if cmp > 0 then !(handle.pkgShouldIgnore spkg || handle.pkgShouldIgnore lpkg)
  else if cmp < 0 ∧ enableDowngrade then
    !(handle.pkgShouldIgnore spkg || handle.pkgShouldIgnore lpkg)
  else false

/-- A replacer that the user wants: it gets the package into its `removes` list, or, if another
database has put its name into the targets, is passed over.  The result is whether it
is a new target, and the fields. -/
def takeReplacer (add : List Pkg) (lpkg : Pkg) (sdb : Db) (spkg : Pkg) (fields : ℕ → PkgFields) :
    Bool × (ℕ → PkgFields) :=
  match pkgFind add spkg.name with
  | some tpkg =>
    -- multiple repos can contain spkg->name
    if tpkg.origin ≠ .syncdb sdb.treename then (false, fields)
    else
      (false, Function.update fields tpkg.addr
        { fields tpkg.addr with
          removes := (fields tpkg.addr).removes ++ [lpkg]
          reason := if lpkg.reason = .explicit then .explicit else (fields tpkg.addr).reason })
  | none =>
    (true, Function.update fields spkg.addr
      { fields spkg.addr with
        removes := [lpkg]
        reason := lpkg.reason })

/-- The loop of `check_replacers` over the packages of a database: the new targets, the fields
and the number of questions. -/
def checkReplacers (add : List Pkg) (lpkg : Pkg) (sdb : Db) :
    List Pkg → (ℕ → PkgFields) → ℕ → List Pkg × (ℕ → PkgFields) × ℕ
  | [], fields, asked => ([], fields, asked)
  | spkg :: pkgs, fields, asked =>
    let found := spkg.replaces.any (depcmpLiteral lpkg)
    if !found || handle.pkgShouldIgnore spkg || handle.pkgShouldIgnore lpkg then
      checkReplacers add lpkg sdb pkgs fields asked
    else if handle.answer asked = 0 then checkReplacers add lpkg sdb pkgs fields (asked + 1)
    else
      let (new, fields) := takeReplacer add lpkg sdb spkg fields
      let (replacers, fields, asked) := checkReplacers add lpkg sdb pkgs fields (asked + 1)
      (if new then spkg :: replacers else replacers, fields, asked)

/-- The loop of `alpm_sync_sysupgrade` over the sync databases for one local package.  It ends at
the first database that has new replacers or a package of the name. -/
def upgradeFrom (enableDowngrade : Bool) (lpkg : Pkg) : List Db → Session → Session
  | [], s => s
  | sdb :: dbs, s =>
    if !sdb.usageUpgrade then upgradeFrom enableDowngrade lpkg dbs s
    else
      let (replacers, fields, asked) :=
        checkReplacers handle s.trans.add lpkg sdb sdb.pkgcache s.fields s.asked
      let s := { s with
        fields
        asked }
      if replacers ≠ [] then
        { s with trans := { s.trans with add := s.trans.add ++ replacers } }
      else match pkgFind sdb.pkgcache lpkg.name with
        | some spkg =>
          if checkLiteral handle lpkg spkg enableDowngrade then
            { s with trans := { s.trans with add := s.trans.add ++ [spkg] } }
          else s
        | none => upgradeFrom enableDowngrade lpkg dbs s

/-- One round of the loop of `alpm_sync_sysupgrade` over the local packages. -/
def upgradePkg (enableDowngrade : Bool) (s : Session) (lpkg : Pkg) : Session :=
  if (pkgFind s.trans.remove lpkg.name).isSome then s
  else if (pkgFind s.trans.add lpkg.name).isSome then s
  else upgradeFrom handle enableDowngrade lpkg handle.dbsSync s

/-- `alpm_sync_sysupgrade`. -/
def sysupgrade (enableDowngrade : Bool) (s : Session) : Returned :=
  if s.trans.state ≠ .initialized then ⟨-1, .transNotInitialized, s⟩
  else ⟨0, .ok, handle.dbLocal.pkgcache.foldl (upgradePkg handle enableDowngrade) s⟩

/-- `check_arch`: the packages that no architecture of the handle allows. -/
def checkArch (pkgs : List Pkg) : List CString :=
  if handle.architectures = [] then []
  else pkgs.filterMap fun pkg => match pkg.arch with
    | none => none
    | some pkgarch =>
      if strcmp pkgarch (str "any") = 0 then none
      else if handle.architectures.any fun arch => strcmp pkgarch arch = 0 then none
      else some (pkg.name ++ ['-'] ++ pkg.version ++ ['-'] ++ pkgarch)

/-- `_alpm_remove_prepare` on a session. -/
def prepareRemoval (env : PrepareEnv) (s : Session) : Outcome :=
  let prepared := removePrepare handle.dbLocal.pkgcache env.dup s.trans.flags
    handle.assumeinstalled s.trans.remove
  let s := { s with trans := { s.trans with remove := prepared.remove } }
  let data := prepared.data.map ErrorData.depmissing
  if prepared.ret = -1 then
    -- without missing dependencies a copy failed
    let dupErrno := match env.dup prepared.remove.length with
      | .nonfatal _ => Errno.pkgInvalid
      | _ => .memory
    .fail (if data ≠ [] then .unsatisfiedDeps else dupErrno) data s
  else .ok data s

/-- `_alpm_sortbydeps` without its warnings. -/
def sortTargets (targets ignore : List Pkg) (reverse : Bool) : List Pkg :=
  match sortbydeps handle.dbLocal.pkgcache targets ignore reverse with
  | some (result, _) => result
  | none => targets

/-- The end of `alpm_trans_prepare`. -/
def sortTrans (data : List ErrorData) (s : Session) : Outcome :=
  let trans :=
    if s.trans.flags.nodeps then s.trans
    else
      let add := sortTargets handle s.trans.add s.trans.remove false
      { s.trans with
        add
        remove := sortTargets handle s.trans.remove [] true }
  .ok data { s with trans := { trans with state := .prepared } }

/-- `alpm_trans_prepare`: the checks of the state and the architectures, the preparation, and the
sort.  Without targets to install it is the preparation of a removal. -/
def transPrepare (env : PrepareEnv) (s : Session) : Outcome :=
  if s.trans.state ≠ .initialized then .fail .transNotInitialized [] s
  else if s.trans.add = [] ∧ s.trans.remove = [] then .ok [] s
  else
    let invalid := checkArch handle s.trans.add
    if invalid ≠ [] then .fail .pkgInvalidArch (invalid.map .pkgArch) s
    else
      let prepared :=
        if s.trans.add = [] then prepareRemoval handle env s else syncPrepare handle env s
      prepared.bind (sortTrans handle)

end

/-! ## Distinct names -/

/-- No two packages of a list have the same name. -/
def DistinctNames (pkgs : List Pkg) : Prop := (pkgs.map Pkg.name).Nodup

/-- The targets are unique by name, those to install and those to remove, each list for itself.
Nothing is said of a name that is in both. -/
structure Session.Unique (s : Session) : Prop where
  add : DistinctNames s.trans.add
  remove : DistinctNames s.trans.remove

/-- The transaction satisfies a property at the end, if the program gets there. -/
def Outcome.All (p : Session → Prop) : Outcome → Prop
  | .crash => True
  | .fail _ _ s => p s
  | .ok _ s => p s

theorem Outcome.All.bind {p : Session → Prop} {x : Outcome}
    {next : List ErrorData → Session → Outcome} (hx : x.All p)
    (hnext : ∀ data s, p s → (next data s).All p) : (x.bind next).All p := by
  cases x with
  | crash => trivial
  | fail pmErrno data s => exact hx
  | ok data s => exact hnext data s hx

theorem DistinctNames.sublist {pkgs pkgs' : List Pkg} (h : DistinctNames pkgs)
    (hsub : pkgs'.Sublist pkgs) : DistinctNames pkgs' :=
  List.Nodup.sublist (hsub.map Pkg.name) h

theorem DistinctNames.append {pkgs pkgs' : List Pkg} (h : DistinctNames pkgs)
    (h' : DistinctNames pkgs') (hnew : ∀ pkg ∈ pkgs', pkg.name ∉ pkgs.map Pkg.name) :
    DistinctNames (pkgs ++ pkgs') := by
  unfold DistinctNames
  rw [List.map_append]
  refine List.nodup_append.mpr ⟨h, h', ?_⟩
  rintro name hname name' hname' rfl
  obtain ⟨pkg, hpkg, rfl⟩ := List.mem_map.mp hname'
  exact hnew pkg hpkg hname

theorem DistinctNames.concat {pkgs : List Pkg} {pkg : Pkg} (h : DistinctNames pkgs)
    (hnew : pkg.name ∉ pkgs.map Pkg.name) : DistinctNames (pkgs ++ [pkg]) :=
  h.append (List.nodup_singleton _) fun q hq => by rwa [List.mem_singleton.mp hq]

/-- A copy made by `_alpm_pkg_dup` goes to the end of a list that does not have its name. -/
theorem DistinctNames.append_copy {pkgs : List Pkg} {pkg : Pkg} (h : DistinctNames pkgs)
    (hnew : pkg.name ∉ pkgs.map Pkg.name) (outcome : DupOutcome) :
    DistinctNames (pkgs ++ (pkgDup outcome pkg).2.toList) := by
  cases outcome with
  | fatal => simpa [pkgDup] using h
  | nonfatal addr => exact h.concat hnew
  | success addr => exact h.concat hnew

/-! ## Preparing a removal -/

section

variable {localdb : List Pkg} {dup : ℕ → DupOutcome}

theorem copyIntoTargets_distinct {rem targs : List Pkg} (h : DistinctNames (targs ++ rem)) :
    DistinctNames (copyIntoTargets dup rem targs).2 := by
  induction rem generalizing targs with
  | nil => simpa [copyIntoTargets] using h
  | cons pkg rem ih =>
    unfold copyIntoTargets
    cases hdup : dup targs.length with
    | fatal => exact h.sublist (List.sublist_append_left _ _)
    | nonfatal addr => exact h.sublist (List.sublist_append_left _ _)
    | success addr =>
      refine ih ?_
      unfold DistinctNames at h ⊢
      simpa using h

theorem recursedeps_distinct (hlocal : DistinctNames localdb) {targs : List Pkg} {e : Bool}
    (h : DistinctNames targs) : DistinctNames (recursedeps localdb targs e dup).2 := by
  refine copyIntoTargets_distinct (h.append ?_ fun pkg hpkg => ?_)
  · refine List.Nodup.map_on (fun p hp q hq hname => ?_) (nodup_unneededDeps hlocal targs e)
    exact List.inj_on_of_nodup_map hlocal ((mem_unneededDeps hlocal).mp hp).stays.1
      ((mem_unneededDeps hlocal).mp hq).stays.1 hname
  · have hstays := ((mem_unneededDeps hlocal).mp hpkg).stays.2
    simpa using hstays

theorem pullTarget_distinct {miss : Depmissing} {remove : List Pkg} (h : DistinctNames remove) :
    DistinctNames (pullTarget localdb dup miss remove).2 := by
  unfold pullTarget
  cases pkgFind localdb miss.target with
  | none => exact h
  | some info =>
    by_cases hin : (pkgFind remove info.name).isSome
    · simpa [hin] using h
    · have hcopy := h.append_copy (fun hname => hin (pkgFind_isSome.mpr hname)) (dup remove.length)
      simp only [if_neg hin]
      split_ifs
      · exact h
      · exact hcopy

theorem pullTargets_distinct {lp : List Depmissing} {remove : List Pkg} (h : DistinctNames remove) :
    DistinctNames (pullTargets localdb dup lp remove).2 := by
  induction lp generalizing remove with
  | nil => exact h
  | cons miss lp ih =>
    rw [pullTargets]
    simp only
    split_ifs
    · exact pullTarget_distinct h
    · exact ih (pullTarget_distinct h)

theorem removePrepareCascade_distinct {ctx : DepContext} {remove : List Pkg}
    (h : DistinctNames remove) : DistinctNames (removePrepareCascade ctx localdb dup remove).2 := by
  fun_induction removePrepareCascade ctx localdb dup remove with
  | case1 => exact h
  | case2 remove lp hlp round hret ih => exact ih (pullTargets_distinct h)
  | case3 remove lp hlp round hret => exact pullTargets_distinct h

theorem removePrepareKeepNeeded_sublist {ctx : DepContext} (remove : List Pkg) :
    (removePrepareKeepNeeded ctx localdb remove).Sublist remove := by
  fun_induction removePrepareKeepNeeded ctx localdb remove with
  | case1 => exact List.Sublist.refl _
  | case2 remove lp hlp ih => exact ih.trans (foldl_dropCausing_sublist lp remove)

theorem removeCheckdeps_distinct {ctx : DepContext} {flags : TransFlags} {remove : List Pkg}
    (h : DistinctNames remove) :
    DistinctNames (removeCheckdeps ctx localdb dup flags remove).remove := by
  unfold removeCheckdeps
  simp only
  split_ifs
  · exact h
  · exact removePrepareCascade_distinct h
  · exact h.sublist (removePrepareKeepNeeded_sublist remove)
  · exact h

theorem removePrepare_distinct (hlocal : DistinctNames localdb) {flags : TransFlags}
    {assumeinstalled : List Depend} {remove : List Pkg} (h : DistinctNames remove) :
    DistinctNames (removePrepare localdb dup flags assumeinstalled remove).remove := by
  unfold removePrepare
  simp only
  generalize hfirst : (if flags.recurse ∧ ¬ flags.cascade
    then recursedeps localdb remove flags.recurseall dup else (0, remove)) = recursed
  have hrecursed : DistinctNames recursed.2 := by
    rw [← hfirst]
    split_ifs
    · exact recursedeps_distinct hlocal h
    · exact h
  by_cases hret : recursed.1 ≠ 0
  · rw [if_pos hret]
    exact hrecursed
  rw [if_neg hret]
  generalize hsecond : (if flags.nodeps then { ret := 0, remove := recursed.2 }
    else removeCheckdeps (flags.depContext assumeinstalled) localdb dup flags recursed.2 :
      RemovePrepared) = checked
  have hchecked : DistinctNames checked.remove := by
    rw [← hsecond]
    split_ifs
    · exact hrecursed
    · exact removeCheckdeps_distinct hrecursed
  by_cases hret' : checked.ret ≠ 0
  · rw [if_pos hret']
    exact hchecked
  rw [if_neg hret']
  show DistinctNames (ite _ _ _ : Int × List Pkg).2
  split_ifs
  · exact recursedeps_distinct hlocal hchecked
  · exact hchecked

end

/-! ## Preparing a transaction -/

section

variable {handle : Handle} {env : PrepareEnv} {data : List ErrorData} {s : Session}

theorem prepareDbs_unique (h : s.Unique) : (prepareDbs handle data s).All Session.Unique := by
  rcases prepareDbs_cases handle data s with hok | ⟨pmErrno, hfail, -⟩
  · rw [hok]
    exact h
  · rw [hfail]
    exact h

theorem takeResolved_unique {unresolvable resolved : List Pkg} (h : s.Unique)
    (hresolved : DistinctNames resolved) :
    (takeResolved unresolvable resolved data s).All Session.Unique := by
  unfold takeResolved
  split
  · exact ⟨hresolved, h.remove⟩
  · trivial

theorem prepareResolve_unique (h : s.Unique) :
    (prepareResolve handle data s).All Session.Unique := by
  have hresolved := (resolveTargets_spec handle s).1
  have hasked : ∀ asked, Session.Unique { s with asked } := fun asked => ⟨h.add, h.remove⟩
  unfold prepareResolve
  simp only
  split_ifs
  · exact h
  · exact takeResolved_unique (hasked _) hresolved
  · exact takeResolved_unique (hasked _) hresolved
  · exact hasked _

theorem prepareInner_unique (h : s.Unique) : (prepareInner data s).All Session.Unique := by
  have hsub := (dropConflicting_spec (innerconflicts s.trans.add) s.trans.add
    s.trans.unresolvable).1
  unfold prepareInner
  simp only
  split_ifs
  · exact h
  · split <;> exact ⟨h.add.sublist hsub, h.remove⟩

theorem prepareOuter_unique (h : s.Unique) : (prepareOuter handle data s).All Session.Unique := by
  unfold prepareOuter
  simp only
  split_ifs
  · exact h
  · split <;> exact ⟨h.add, h.remove⟩

theorem pullRemoves_distinct {rpkgs remove : List Pkg} (h : DistinctNames remove) :
    DistinctNames (pullRemoves env rpkgs remove).2 := by
  induction rpkgs generalizing remove with
  | nil => exact h
  | cons rpkg rpkgs ih =>
    rw [pullRemoves]
    by_cases hin : (pkgFind remove rpkg.name).isSome
    · rw [if_pos hin]
      exact ih h
    · have hcopy := h.append_copy (fun hname => hin (pkgFind_isSome.mpr hname))
        (env.dup remove.length)
      rw [if_neg hin]
      simp only
      split_ifs
      · exact h
      · exact ih hcopy

theorem prepareRemove_unique (h : s.Unique) : (prepareRemove env data s).All Session.Unique := by
  unfold prepareRemove
  simp only
  split_ifs <;> exact ⟨h.add, pullRemoves_distinct h.remove⟩

theorem prepareCheckdeps_unique (h : s.Unique) :
    (prepareCheckdeps handle data s).All Session.Unique := by
  unfold prepareCheckdeps
  simp only
  split_ifs <;> exact h

theorem prepareTargets_unique (h : s.Unique) :
    (prepareTargets handle env data s).All Session.Unique := by
  unfold prepareTargets
  simp only
  split <;> exact ⟨h.add, h.remove⟩

/-- **`_alpm_sync_prepare` keeps the names distinct**, whether it succeeds or not.  The resolution
extends a list by new names, the conflict phases take packages out, and the last loops add to the
packages to remove only what is not among them. -/
theorem syncPrepare_unique (h : s.Unique) : (syncPrepare handle env s).All Session.Unique := by
  refine .bind (.bind (prepareDbs_unique h) fun _ _ h => prepareResolve_unique h) fun _ _ h => ?_
  refine .bind (.bind (.bind (prepareInner_unique h) ?_) ?_) ?_
  · exact fun _ _ h => prepareOuter_unique h
  · exact fun _ _ h => prepareRemove_unique h
  · exact fun _ _ h => .bind (prepareCheckdeps_unique h) fun _ _ h => prepareTargets_unique h

theorem prepareRemoval_unique (hlocal : DistinctNames handle.dbLocal.pkgcache) (h : s.Unique) :
    (prepareRemoval handle env s).All Session.Unique := by
  unfold prepareRemoval
  simp only
  split_ifs <;> exact ⟨h.add, removePrepare_distinct hlocal h.remove⟩

theorem sortTargets_distinct (hlocal : DistinctNames handle.dbLocal.pkgcache)
    {targets ignore : List Pkg} {reverse : Bool} (h : DistinctNames targets) :
    DistinctNames (sortTargets handle targets ignore reverse) := by
  obtain ⟨result, warnings, hsort, hperm⟩ :=
    exists_sortbydeps_perm handle.dbLocal.pkgcache targets ignore reverse hlocal
  unfold sortTargets
  simp only [hsort]
  exact ((hperm.map Pkg.name).nodup_iff).mpr h

theorem transPrepare_unique (hlocal : DistinctNames handle.dbLocal.pkgcache) (h : s.Unique) :
    (transPrepare handle env s).All Session.Unique := by
  have hsort : ∀ data s, s.Unique → (sortTrans handle data s).All Session.Unique := by
    intro data s h
    unfold sortTrans
    simp only
    split_ifs
    · exact ⟨h.add, h.remove⟩
    · exact ⟨sortTargets_distinct hlocal h.add, sortTargets_distinct hlocal h.remove⟩
  unfold transPrepare
  simp only
  split_ifs
  · exact h
  · exact h
  · exact h
  · exact (prepareRemoval_unique hlocal h).bind hsort
  · exact (syncPrepare_unique h).bind hsort

/-! ## The other calls -/

theorem addPkg_unique (pkg : Pkg) (h : s.Unique) : (addPkg handle pkg s).s.Unique := by
  unfold addPkg
  by_cases horigin : pkg.origin = .localdb
  · rw [if_pos horigin]
    exact h
  by_cases hstate : s.trans.state ≠ .initialized
  · rw [if_neg horigin, if_pos hstate]
    exact h
  rw [if_neg horigin, if_neg hstate]
  cases hfind : pkgFind s.trans.add pkg.name with
  | some dup =>
    simp only
    split_ifs <;> exact h
  | none =>
    simp only
    split_ifs
    · exact h
    · exact ⟨h.add.concat (pkgFind_eq_none.mp hfind), h.remove⟩

theorem removePkg_unique (outcome : DupOutcome) (pkg : Pkg) (h : s.Unique) :
    (removePkg outcome pkg s).s.Unique := by
  unfold removePkg
  split_ifs with _ _ hin
  · exact h
  · exact h
  · exact h
  · have hcopy := h.remove.append_copy (fun hname => hin (pkgFind_isSome.mpr hname)) outcome
    cases outcome with
    | fatal => exact h
    | nonfatal addr => exact ⟨h.add, hcopy⟩
    | success addr => exact ⟨h.add, hcopy⟩

theorem takeReplacer_new {add : List Pkg} {lpkg spkg : Pkg} {sdb : Db} {fields : ℕ → PkgFields}
    (h : (takeReplacer add lpkg sdb spkg fields).1 = true) : spkg.name ∉ add.map Pkg.name := by
  unfold takeReplacer at h
  cases hfind : pkgFind add spkg.name with
  | none => exact pkgFind_eq_none.mp hfind
  | some tpkg =>
    simp only [hfind] at h
    split_ifs at h

/-- The replacers are packages of the database whose names are not among the targets. -/
theorem checkReplacers_spec {add pkgs : List Pkg} {lpkg : Pkg} {sdb : Db}
    {fields : ℕ → PkgFields} {asked : ℕ} :
    (checkReplacers handle add lpkg sdb pkgs fields asked).1.Sublist pkgs ∧
      ∀ spkg ∈ (checkReplacers handle add lpkg sdb pkgs fields asked).1,
        spkg.name ∉ add.map Pkg.name := by
  induction pkgs generalizing fields asked with
  | nil => exact ⟨List.Sublist.refl _, by simp [checkReplacers]⟩
  | cons spkg pkgs ih =>
    rw [checkReplacers]
    simp only
    split_ifs with _ _ hnew
    · exact ⟨(ih).1.cons _, ih.2⟩
    · exact ⟨(ih).1.cons _, ih.2⟩
    · exact ⟨(ih).1.cons_cons _, List.forall_mem_cons.mpr ⟨takeReplacer_new hnew, ih.2⟩⟩
    · exact ⟨(ih).1.cons _, ih.2⟩

theorem upgradeFrom_unique {enableDowngrade : Bool} {lpkg : Pkg} {dbs : List Db}
    (hdbs : ∀ db ∈ dbs, DistinctNames db.pkgcache) (hnew : lpkg.name ∉ s.trans.add.map Pkg.name)
    (h : s.Unique) : (upgradeFrom handle enableDowngrade lpkg dbs s).Unique := by
  induction dbs generalizing s with
  | nil => exact h
  | cons sdb dbs ih =>
    have hrest := fun db hdb => hdbs db (List.mem_cons_of_mem sdb hdb)
    obtain ⟨hsub, hnames⟩ := @checkReplacers_spec handle s.trans.add sdb.pkgcache lpkg sdb
      s.fields s.asked
    rw [upgradeFrom]
    simp only
    split_ifs
    · exact ih hrest hnew h
    · exact ⟨h.add.append ((hdbs sdb (List.mem_cons_self ..)).sublist hsub) hnames, h.remove⟩
    · cases hfind : pkgFind sdb.pkgcache lpkg.name with
      | none => exact ih hrest hnew ⟨h.add, h.remove⟩
      | some spkg =>
        simp only
        split_ifs
        · refine ⟨h.add.concat ?_, h.remove⟩
          rwa [(pkgFind_eq_some hfind).2]
        · exact ⟨h.add, h.remove⟩

theorem foldl_upgradePkg_unique (hdbs : ∀ db ∈ handle.dbsSync, DistinctNames db.pkgcache)
    (enableDowngrade : Bool) (pkgs : List Pkg) (h : s.Unique) :
    (pkgs.foldl (upgradePkg handle enableDowngrade) s).Unique := by
  induction pkgs generalizing s with
  | nil => exact h
  | cons lpkg pkgs ih =>
    refine ih ?_
    unfold upgradePkg
    split_ifs with _ hadd
    · exact h
    · exact h
    · exact upgradeFrom_unique hdbs (fun hname => hadd (pkgFind_isSome.mpr hname)) h

theorem sysupgrade_unique (hdbs : ∀ db ∈ handle.dbsSync, DistinctNames db.pkgcache)
    (enableDowngrade : Bool) (h : s.Unique) : (sysupgrade handle enableDowngrade s).s.Unique := by
  unfold sysupgrade
  split_ifs
  · exact h
  · exact foldl_upgradePkg_unique hdbs enableDowngrade handle.dbLocal.pkgcache h

end

/-! ## Runs -/

/-- A call of a front end. -/
inductive Call where
  | addPkg (pkg : Pkg)
  | removePkg (outcome : DupOutcome) (pkg : Pkg)
  | sysupgrade (enableDowngrade : Bool)
  | transPrepare (env : PrepareEnv)

/-- The transaction at the end of a phase, if the program gets there. -/
def Outcome.session : Outcome → Option Session
  | .crash => none
  | .fail _ _ s => some s
  | .ok _ s => some s

/-- The transaction after a call, whatever it returns. -/
def Call.run (handle : Handle) (s : Session) : Call → Option Session
  | .addPkg pkg => some (Sync.addPkg handle pkg s).s
  | .removePkg outcome pkg => some (Sync.removePkg outcome pkg s).s
  | .sysupgrade enableDowngrade => some (Sync.sysupgrade handle enableDowngrade s).s
  | .transPrepare env => (Sync.transPrepare handle env s).session

theorem Call.preserves_unique {handle : Handle} (hlocal : DistinctNames handle.dbLocal.pkgcache)
    (hdbs : ∀ db ∈ handle.dbsSync, DistinctNames db.pkgcache) {s s' : Session} {call : Call}
    (h : s.Unique) (hrun : call.run handle s = some s') : s'.Unique := by
  cases call with
  | addPkg pkg =>
    rw [← Option.some.inj hrun]
    exact addPkg_unique pkg h
  | removePkg outcome pkg =>
    rw [← Option.some.inj hrun]
    exact removePkg_unique outcome pkg h
  | sysupgrade enableDowngrade =>
    rw [← Option.some.inj hrun]
    exact sysupgrade_unique hdbs enableDowngrade h
  | transPrepare env =>
    have hall := @transPrepare_unique handle env s hlocal h
    replace hrun : (Sync.transPrepare handle env s).session = some s' := hrun
    cases hend : Sync.transPrepare handle env s with
    | crash => simp [hend, Outcome.session] at hrun
    | fail pmErrno data t =>
      rw [hend] at hall hrun
      exact Option.some.inj hrun ▸ hall
    | ok data t =>
      rw [hend] at hall hrun
      exact Option.some.inj hrun ▸ hall

/-- **Targets stay unique by name** through every sequence of calls on a new transaction.  Each call
keeps the two lists unique, also when it fails halfway, so this is an induction over the calls with
nothing assumed of the databases or the answers. -/
theorem targets_unique {handle : Handle} (hlocal : DistinctNames handle.dbLocal.pkgcache)
    (hdbs : ∀ db ∈ handle.dbsSync, DistinctNames db.pkgcache) {s s' : Session}
    (hadd : s.trans.add = []) (hremove : s.trans.remove = []) (calls : List Call)
    (hrun : calls.foldlM (Call.run handle) s = some s') : s'.Unique := by
  have hstart : s.Unique := by
    refine ⟨?_, ?_⟩
    · rw [hadd]
      exact List.nodup_nil
    · rw [hremove]
      exact List.nodup_nil
  clear hadd hremove
  induction calls generalizing s with
  | nil =>
    rw [← Option.some.inj hrun]
    exact hstart
  | cons call calls ih =>
    obtain ⟨t, hcall, hrest⟩ := Option.bind_eq_some_iff.mp hrun
    exact ih hrest (Call.preserves_unique hlocal hdbs hstart hcall)

/-- `jack2` is added twice, `player` comes with the upgrade, and the preparation adds `lib` and
takes `jack1` away. -/
theorem targets_unique_jack :
    ∃ s', [Call.addPkg jack2, Call.addPkg jack2, Call.sysupgrade false,
          Call.transPrepare quietEnv].foldlM (Call.run jackHandle) (sessionWith []) = some s' ∧
      s'.trans.add.map Pkg.name = [str "lib", str "jack2", str "player"] ∧
      s'.trans.remove.map Pkg.name = [str "jack1"] ∧ s'.Unique := by
  have hdbs : ∀ db ∈ jackHandle.dbsSync, DistinctNames db.pkgcache :=
    List.forall_mem_singleton.mpr (by unfold DistinctNames; decide +kernel)
  have hlocal : DistinctNames jackHandle.dbLocal.pkgcache := by unfold DistinctNames; decide +kernel
  have hlists : ([Call.addPkg jack2, Call.addPkg jack2, Call.sysupgrade false,
      Call.transPrepare quietEnv].foldlM (Call.run jackHandle) (sessionWith [])).map
        (fun s' => (s'.trans.add.map Pkg.name, s'.trans.remove.map Pkg.name)) =
      some ([str "lib", str "jack2", str "player"], [str "jack1"]) := by
    decide +kernel
  obtain ⟨s', hrun, hnames⟩ := Option.map_eq_some_iff.mp hlists
  obtain ⟨hadd, hremove⟩ := Prod.mk.inj hnames
  exact ⟨s', hrun, hadd, hremove, targets_unique hlocal hdbs rfl rfl _ hrun⟩

end Alpm.Sync
