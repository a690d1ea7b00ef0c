import Alpm.Remove
import Alpm.Sync.Resolvedeps
import Mathlib.Logic.Relation

/-!
# What requires a package

`alpm_pkg_compute_requiredby` goes through the caches and lists the names of the packages with a
dependency that the package satisfies.  `alpm_checkdeps` answers the opposite question when
packages are to be removed: what is missing.

## 1.  The lists

`find_requiredby` goes through the packages of one database and their dependencies, and adds a name
that it does not have.  The list has each name once, and the names are those of the packages that
are `RequiredBy` the package: `computeRequiredby_spec`.  Several databases are searched as if they
were one.

## 2.  The lists and the check of a removal

A removal strands a dependency of a package that stays if a package that goes satisfied it and
nothing that stays does: `Stranded`.  The check reports these dependencies
(`checkdeps_of_stranded`) and no others (`stranded_of_checkdeps`).  The package then stands on the
list of the one that goes, so that what is closed under `requiredby` can be removed, and the cascade
takes only what requires a target by some chain of these lists: `requiredby_removal`.
-/

namespace Alpm.Sync

/-- The loop of `find_requiredby` over the dependencies of one package. -/
def findRequiredbyPkg (pkg : Pkg) (optional : Bool) (reqs : List CString) (cachepkg : Pkg) :
    List CString :=
  (if optional then cachepkg.optdepends else cachepkg.depends).foldl (fun reqs j =>
    if depcmp pkg j then
      if cachepkg.name ∈ reqs then reqs else reqs ++ [cachepkg.name]
    else reqs) reqs

/-- `find_requiredby`. -/
def findRequiredby (pkg : Pkg) (db : Db) (reqs : List CString) (optional : Bool) : List CString :=
  db.pkgcache.foldl (findRequiredbyPkg pkg optional) reqs

/-- `compute_requiredby`: the local database for a package that is installed or a file, and the sync
databases for one of theirs. -/
def computeRequiredby (handle : Handle) (pkg : Pkg) (optional : Bool) : List CString :=
  match pkg.origin with
  -- the sane option; search locally for things that require this
  | .file => findRequiredby pkg handle.dbLocal [] optional
  | .localdb => findRequiredby pkg handle.dbLocal [] optional
  | .syncdb _ =>
    listMsort strcmp
      (handle.dbsSync.foldl (fun reqs db => findRequiredby pkg db reqs optional) [])

/-- The packages that are searched. -/
def searchedPkgs (handle : Handle) (pkg : Pkg) : List Pkg :=
  match pkg.origin with
  | .file | .localdb => handle.dbLocal.pkgcache
  | .syncdb _ => handle.dbsSync.flatMap Db.pkgcache

/-- The package satisfies a dependency of the other one, or an optional one: this is the relation
that `compute_requiredby` lists, by the names of the packages. -/
def RequiredBy (pkg : Pkg) (optional : Bool) (cachepkg : Pkg) : Prop :=
  ∃ j ∈ if optional then cachepkg.optdepends else cachepkg.depends, depcmp pkg j

variable {handle : Handle} {pkg : Pkg} {optional : Bool} {reqs : List CString}

/-! ## The search -/

theorem mem_findRequiredbyPkg {cachepkg : Pkg} {name : CString} :
    name ∈ findRequiredbyPkg pkg optional reqs cachepkg ↔
      name ∈ reqs ∨ name = cachepkg.name ∧ RequiredBy pkg optional cachepkg := by
  rw [findRequiredbyPkg, RequiredBy]
  generalize (if optional then cachepkg.optdepends else cachepkg.depends) = depends
  induction depends generalizing reqs with
  | nil => simp
  | cons j depends ih =>
    rw [List.foldl_cons, ih, List.exists_mem_cons_iff]
    split_ifs with hcmp hlisted
    · constructor
      · rintro (hold | ⟨rfl, hlater⟩)
        · exact Or.inl hold
        · exact Or.inl hlisted
      · rintro (hold | ⟨rfl, -⟩)
        · exact Or.inl hold
        · exact Or.inl hlisted
    · rw [List.mem_append, List.mem_singleton, or_assoc]
      refine or_congr_right ?_
      constructor
      · rintro (rfl | ⟨rfl, -⟩) <;> exact ⟨rfl, Or.inl hcmp⟩
      · exact fun h => Or.inl h.1
    · simp only [hcmp, Bool.false_eq_true, false_or]

theorem nodup_findRequiredbyPkg (h : reqs.Nodup) (cachepkg : Pkg) :
    (findRequiredbyPkg pkg optional reqs cachepkg).Nodup := by
  rw [findRequiredbyPkg]
  generalize (if optional then cachepkg.optdepends else cachepkg.depends) = depends
  induction depends generalizing reqs with
  | nil => exact h
  | cons j depends ih =>
    rw [List.foldl_cons]
    refine ih ?_
    split_ifs with hcmp hlisted
    · exact h
    · refine List.nodup_append.mpr ⟨h, List.nodup_singleton _, ?_⟩
      rintro name hname _ hsame rfl
      exact hlisted (List.mem_singleton.mp hsame ▸ hname)
    · exact h

theorem foldl_findRequiredbyPkg (pkgs : List Pkg) {name : CString} :
    name ∈ pkgs.foldl (findRequiredbyPkg pkg optional) reqs ↔
      name ∈ reqs ∨ ∃ cachepkg ∈ pkgs, name = cachepkg.name ∧ RequiredBy pkg optional cachepkg := by
  induction pkgs generalizing reqs with
  | nil => simp
  | cons cachepkg pkgs ih =>
    rw [List.foldl_cons, ih, mem_findRequiredbyPkg, List.exists_mem_cons_iff, or_assoc]

theorem nodup_foldl_findRequiredbyPkg (h : reqs.Nodup) (pkgs : List Pkg) :
    (pkgs.foldl (findRequiredbyPkg pkg optional) reqs).Nodup := by
  induction pkgs generalizing reqs with
  | nil => exact h
  | cons cachepkg pkgs ih => exact ih (nodup_findRequiredbyPkg h cachepkg)

/-- The databases are searched as if they were one. -/
theorem foldl_findRequiredby (dbs : List Db) :
    dbs.foldl (fun reqs db => findRequiredby pkg db reqs optional) reqs =
      (dbs.flatMap Db.pkgcache).foldl (findRequiredbyPkg pkg optional) reqs := by
  rw [List.foldl_flatMap]
  rfl

theorem computeRequiredby_perm (handle : Handle) (pkg : Pkg) (optional : Bool) :
    (computeRequiredby handle pkg optional).Perm
      ((searchedPkgs handle pkg).foldl (findRequiredbyPkg pkg optional) []) := by
  rw [computeRequiredby, searchedPkgs]
  cases pkg.origin with
  | file => exact List.Perm.refl _
  | localdb => exact List.Perm.refl _
  | syncdb treename =>
    dsimp only
    rw [foldl_findRequiredby]
    exact listMsort_perm ..

/-- The names are those of the packages that require the package. -/
theorem mem_computeRequiredby {name : CString} :
    name ∈ computeRequiredby handle pkg optional ↔
      ∃ cachepkg ∈ searchedPkgs handle pkg, cachepkg.name = name ∧
        RequiredBy pkg optional cachepkg := by
  rw [(computeRequiredby_perm handle pkg optional).mem_iff, foldl_findRequiredbyPkg]
  simp only [List.not_mem_nil, false_or, eq_comm]

/-- No name is listed twice. -/
theorem nodup_computeRequiredby (handle : Handle) (pkg : Pkg) (optional : Bool) :
    (computeRequiredby handle pkg optional).Nodup :=
  (computeRequiredby_perm handle pkg optional).nodup_iff.mpr
    (nodup_foldl_findRequiredbyPkg List.nodup_nil _)

/-- **What requires a package** is listed with each name once, and in order if the databases of the
repositories are searched, which may have a package several times. -/
theorem computeRequiredby_spec (handle : Handle) (pkg : Pkg) (optional : Bool) :
    (computeRequiredby handle pkg optional).Nodup ∧
      (∀ name, name ∈ computeRequiredby handle pkg optional ↔
        ∃ cachepkg ∈ searchedPkgs handle pkg, cachepkg.name = name ∧
          RequiredBy pkg optional cachepkg) ∧
      (∀ treename, pkg.origin = .syncdb treename →
        (computeRequiredby handle pkg optional).Pairwise (· < ·)) := by
  refine ⟨nodup_computeRequiredby handle pkg optional, fun _ => mem_computeRequiredby,
    fun treename horigin => ?_⟩
  have hcompares : ComparesBy strcmp fun name : CString => name := {
    lt := fun _ _ => strcmp_lt_zero
    gt := fun _ _ => strcmp_gt_zero }
  have hsorted : (computeRequiredby handle pkg optional).Pairwise (· ≤ ·) := by
    rw [computeRequiredby, horigin]
    exact listMsort_sorted hcompares _
  exact (hsorted.and (nodup_computeRequiredby handle pkg optional)).imp fun h =>
    lt_of_le_of_ne h.1 h.2

/-! ## Removals -/

section

variable {ctx : DepContext} {dup : ℕ → DupOutcome} {remove : List Pkg}

/-- The installed packages, as the removal reads them. -/
structure Installed (handle : Handle) : Prop where
  names : (handle.dbLocal.pkgcache.map Pkg.name).Nodup
  origin : ∀ pkg ∈ handle.dbLocal.pkgcache, pkg.origin = .localdb

/-- An installed package requires another one, as the list of the latter says. -/
def Requires (handle : Handle) (required pkg : Pkg) : Prop :=
  pkg ∈ handle.dbLocal.pkgcache ∧ pkg.name ∈ computeRequiredby handle required false

theorem requires_of_depcmp (hinstalled : Installed handle) {required : Pkg}
    (hrequired : required ∈ handle.dbLocal.pkgcache) (hpkg : pkg ∈ handle.dbLocal.pkgcache)
    {depend : Depend} (hdep : depend ∈ pkg.depends) (hcmp : depcmp required depend) :
    Requires handle required pkg := by
  refine ⟨hpkg, mem_computeRequiredby.mpr ⟨pkg, ?_, rfl, depend, hdep, hcmp⟩⟩
  rw [searchedPkgs, hinstalled.origin required hrequired]
  exact hpkg

theorem effective_of_version (hversion : ctx.nodepversion = false) (depend : Depend) :
    ctx.effective depend = depend := by
  rw [DepContext.effective, hversion, if_neg Bool.false_ne_true]

/-- The removal of the targets takes from the package what satisfied the dependency: `cause` goes,
and nothing that stays satisfies it. -/
structure Stranded (ctx : DepContext) (handle : Handle) (remove : List Pkg) (cause pkg : Pkg)
    (depend : Depend) : Prop where
  installed : cause ∈ handle.dbLocal.pkgcache
  goes : cause.name ∈ remove.map Pkg.name
  stays : pkg ∈ notRemoved handle.dbLocal.pkgcache remove
  depends : depend ∈ pkg.depends
  satisfied : depcmp cause depend
  missing : ¬ctx.Satisfied (notRemoved handle.dbLocal.pkgcache remove) depend

/-- A package that is stranded stands on the list of what it loses. -/
theorem Stranded.requires (hinstalled : Installed handle) {cause : Pkg} {depend : Depend}
    (h : Stranded ctx handle remove cause pkg depend) : Requires handle cause pkg :=
  requires_of_depcmp hinstalled h.installed (mem_notRemoved.mp h.stays).1 h.depends h.satisfied

/-- The first package that goes and satisfied the dependency is named as the cause. -/
theorem findDepSatisfier_of_stranded {cause : Pkg} {depend : Depend}
    (h : Stranded ctx handle remove cause pkg depend) :
    ∃ causingpkg, findDepSatisfier (handle.dbLocal.pkgcache.filter (isModified remove [])) depend =
        some causingpkg ∧ Stranded ctx handle remove causingpkg pkg depend := by
  have hsome : (findDepSatisfier (handle.dbLocal.pkgcache.filter (isModified remove []))
      depend).isSome :=
    findDepSatisfier_isSome.mpr ⟨cause, mem_modified_removal.mpr ⟨h.installed, h.goes⟩, h.satisfied⟩
  obtain ⟨causingpkg, hcausing⟩ := Option.isSome_iff_exists.mp hsome
  obtain ⟨hmodified, hcmp⟩ := findDepSatisfier_eq_some hcausing
  obtain ⟨hlocal, hname⟩ := mem_modified_removal.mp hmodified
  exact ⟨causingpkg, hcausing, { h with installed := hlocal, goes := hname, satisfied := hcmp }⟩

/-- **What is stranded is reported**, with a package that goes as the cause.  The check looks at
every package that stays, and of those that go it names the first that satisfied the dependency. -/
theorem checkdeps_of_stranded (hversion : ctx.nodepversion = false) {cause : Pkg}
    {depend : Depend} (h : Stranded ctx handle remove cause pkg depend) :
    ∃ causingpkg, Stranded ctx handle remove causingpkg pkg depend ∧
      ⟨pkg.name, depend, some causingpkg.name⟩ ∈
        checkdeps ctx handle.dbLocal.pkgcache remove [] true := by
  obtain ⟨causingpkg, hcausing, h⟩ := findDepSatisfier_of_stranded h
  refine ⟨causingpkg, h, mem_checkdeps.mpr (Or.inr ⟨rfl, pkg, ?_, depend, h.depends, ?_⟩)⟩
  · rw [keptPkgs_removal]
    exact h.stays
  · rw [resultPkgs_removal, effective_of_version hversion]
    exact ⟨h.missing, causingpkg, hcausing, rfl⟩

/-- **What is reported is stranded** by the package that is named as the cause: the package stays,
the cause goes, and nothing that stays satisfies the dependency. -/
theorem stranded_of_checkdeps (hversion : ctx.nodepversion = false) {miss : Depmissing}
    (hmiss : miss ∈ checkdeps ctx handle.dbLocal.pkgcache remove [] true) :
    ∃ cause pkg, Stranded ctx handle remove cause pkg miss.depend ∧
      miss.causingpkg = some cause.name ∧ miss.target = pkg.name := by
  rcases mem_checkdeps.mp hmiss with ⟨tp, htp, -⟩ |
    ⟨-, pkg, hpkg, depend, hdep, hmissing, cause, hcause, rfl⟩
  · exact absurd htp List.not_mem_nil
  · obtain ⟨hmodified, hcmp⟩ := findDepSatisfier_eq_some hcause
    obtain ⟨hlocal, hname⟩ := mem_modified_removal.mp hmodified
    rw [keptPkgs_removal] at hpkg
    rw [resultPkgs_removal] at hmissing
    rw [effective_of_version hversion] at hcmp hmissing ⊢
    exact ⟨cause, pkg, ⟨hlocal, hname, hpkg, hdep, hcmp, hmissing⟩, rfl, rfl⟩

/-- What the cascade takes requires a target by some chain. -/
theorem requires_of_cascaded (hinstalled : Installed handle) (hversion : ctx.nodepversion = false)
    (hpkg : Cascaded ctx handle.dbLocal.pkgcache remove pkg) :
    ∃ target ∈ handle.dbLocal.pkgcache, target.name ∈ remove.map Pkg.name ∧
      Relation.ReflTransGen (Requires handle) target pkg := by
  induction hpkg with
  | @target pkg hpkg hname => exact ⟨pkg, hpkg, hname, .refl⟩
  | @dependant pkg depend hpkg hdep hsat hall hassume ih =>
    obtain ⟨required, hrequired, hcmp⟩ := hsat
    obtain ⟨target, htarget, hname, hchain⟩ := ih required hrequired hcmp
    rw [effective_of_version hversion] at hcmp
    exact ⟨target, htarget, hname,
      hchain.tail (requires_of_depcmp hinstalled hrequired hpkg hdep hcmp)⟩

/-- **Removals and what requires a package** agree, as long as version requirements count.  The
check reports a package that is stranded by a removed one, on whose list it stands, and it reports
every package that is stranded.  So it reports nothing if all that require a removed package are
removed.  The cascade takes only packages that require a target by some chain. -/
theorem requiredby_removal (hinstalled : Installed handle) (hversion : ctx.nodepversion = false)
    (remove : List Pkg) :
    (∀ miss ∈ checkdeps ctx handle.dbLocal.pkgcache remove [] true,
      ∃ cause pkg, Stranded ctx handle remove cause pkg miss.depend ∧
        miss.causingpkg = some cause.name ∧ miss.target = pkg.name ∧
          pkg.name ∈ computeRequiredby handle cause false) ∧
      (∀ cause pkg depend, Stranded ctx handle remove cause pkg depend →
        ∃ causingpkg, Stranded ctx handle remove causingpkg pkg depend ∧
          ⟨pkg.name, depend, some causingpkg.name⟩ ∈
            checkdeps ctx handle.dbLocal.pkgcache remove [] true) ∧
      ((∀ pkg ∈ handle.dbLocal.pkgcache, pkg.name ∈ remove.map Pkg.name →
          ∀ name ∈ computeRequiredby handle pkg false, name ∈ remove.map Pkg.name) →
        checkdeps ctx handle.dbLocal.pkgcache remove [] true = []) ∧
      ((removePrepareCascade ctx handle.dbLocal.pkgcache dup remove).1 = 0 →
        ∀ pkg ∈ handle.dbLocal.pkgcache, pkg.name ∈
            (removePrepareCascade ctx handle.dbLocal.pkgcache dup remove).2.map Pkg.name →
          ∃ target ∈ handle.dbLocal.pkgcache, target.name ∈ remove.map Pkg.name ∧
            Relation.ReflTransGen (Requires handle) target pkg) := by
  refine ⟨fun miss hmiss => ?_, fun cause pkg depend h => checkdeps_of_stranded hversion h,
    fun hclosed => ?_, fun hret pkg hpkg hname => ?_⟩
  · obtain ⟨cause, pkg, h, hcause, htarget⟩ := stranded_of_checkdeps hversion hmiss
    exact ⟨cause, pkg, h, hcause, htarget, (h.requires hinstalled).2⟩
  · rw [List.eq_nil_iff_forall_not_mem]
    intro miss hmiss
    obtain ⟨cause, pkg, h, -, -⟩ := stranded_of_checkdeps hversion hmiss
    exact (mem_notRemoved.mp h.stays).2
      (hclosed cause h.installed h.goes _ (h.requires hinstalled).2)
  · obtain ⟨added, hadded, -, hkind, -⟩ :=
      removePrepareCascade_spec hinstalled.names remove hret
    rw [hadded, List.map_append, List.mem_append] at hname
    refine requires_of_cascaded hinstalled hversion ?_
    exact hname.elim (.target hpkg) (hkind pkg hpkg)

/-- `tool` requires `app`, which requires `lib`. -/
def chained : Handle where
  dbLocal :=
    { treename := str "local"
      pkgcache := [
        { name := str "lib", version := str "1" },
        { name := str "app", version := str "1", depends := [{ name := str "lib" }] },
        { name := str "tool", version := str "1", depends := [{ name := str "app" }] }] }
  dbsSync := []
  fnmatch _ _ := false
  answer _ := 0

/-- The removal of `lib` strands `app`, and the cascade takes all three. -/
theorem requiredby_removal_chained :
    let localdb := chained.dbLocal.pkgcache
    let remove : List Pkg := [{ name := str "lib", version := str "1" }]
    let ctx : DepContext := { assumeinstalled := [] }
    let dup : ℕ → DupOutcome := .success
    (Installed chained ∧ ctx.nodepversion = false ∧
        (∃ cause pkg depend, Stranded ctx chained remove cause pkg depend ∧
          pkg.name = str "app") ∧
        (removePrepareCascade ctx localdb dup remove).2.map Pkg.name =
          [str "lib", str "app", str "tool"]) ∧
      (∀ miss ∈ checkdeps ctx localdb remove [] true,
        ∃ cause pkg, Stranded ctx chained remove cause pkg miss.depend ∧
          miss.causingpkg = some cause.name ∧ miss.target = pkg.name ∧
            pkg.name ∈ computeRequiredby chained cause false) ∧
        (∀ cause pkg depend, Stranded ctx chained remove cause pkg depend →
          ∃ causingpkg, Stranded ctx chained remove causingpkg pkg depend ∧
            ⟨pkg.name, depend, some causingpkg.name⟩ ∈ checkdeps ctx localdb remove [] true) ∧
        ((∀ pkg ∈ localdb, pkg.name ∈ remove.map Pkg.name →
            ∀ name ∈ computeRequiredby chained pkg false, name ∈ remove.map Pkg.name) →
          checkdeps ctx localdb remove [] true = []) ∧
        ((removePrepareCascade ctx localdb dup remove).1 = 0 →
          ∀ pkg ∈ localdb, pkg.name ∈
              (removePrepareCascade ctx localdb dup remove).2.map Pkg.name →
            ∃ target ∈ localdb, target.name ∈ remove.map Pkg.name ∧
              Relation.ReflTransGen (Requires chained) target pkg) := by
  intro localdb remove ctx dup
  have hinstalled : Installed chained := ⟨by decide +kernel, by decide +kernel⟩
  have hcascade : (removePrepareCascade ctx localdb dup remove).2.map Pkg.name =
      [str "lib", str "app", str "tool"] := by
    decide +kernel
  have hstranded : ∃ cause pkg depend, Stranded ctx chained remove cause pkg depend ∧
      pkg.name = str "app" := by
    have hmiss : (⟨str "app", { name := str "lib" }, some (str "lib")⟩ : Depmissing) ∈
        checkdeps ctx localdb remove [] true := by
      decide +kernel
    obtain ⟨cause, pkg, h, -, htarget⟩ := stranded_of_checkdeps rfl hmiss
    exact ⟨cause, pkg, _, h, htarget.symm⟩
  exact ⟨⟨hinstalled, rfl, hstranded, hcascade⟩, requiredby_removal hinstalled rfl remove⟩

end

end Alpm.Sync
