import Alpm.Deps.Depcmp

/-!
# `alpm_checkdeps`

The check of a transaction against the installed packages.

## 1.  The function on values

`checkdeps` looks at the dependencies of the packages to be installed, and then, for `reversedeps`,
at those of the packages that stay and that a removed or replaced package used to satisfy.  A
dependency that nothing satisfied before is not reported by the second loop, so an empty result says
that nothing is broken only where nothing was broken before; that is the hypothesis `Consistent` of
`checkdeps_complete`.

## 2.  The check in place

The C function drops a version requirement by writing `ALPM_DEP_MOD_ANY` into the depend object and
puts the old value back when it is done with the object.  Packages may share an object, and while
its field is overwritten the three lists are read through it.  `checkdepsInPlace` models this on a
heap of depend objects, and `checkdepsInPlace_eq` says that it returns what `checkdeps` returns and
leaves the heap as it was, however the packages share their objects.  The reason is that the search
for a satisfier reads names, versions and provisions of packages and never their dependencies
(`depcmp_read`), so a field that is overwritten for a moment is seen by the one comparison that it
is meant for.

## 3.  Soundness and completeness

Both are statements about `resultPkgs`, the packages after the transaction: what is reported is
satisfied by none of them, and if nothing is reported every dependency of every one of them is
satisfied among them, or assumed to be installed (`checkdepsInPlace_sound_complete`).
-/

namespace Alpm

/-- What `alpm_checkdeps` reads from its handle. -/
structure DepContext where
  assumeinstalled : List Depend
  /-- `no_dep_version(handle)` -/
  nodepversion : Bool := false
  deriving DecidableEq, Repr

/-- `handle->assumeinstalled` and the flag of `handle->trans`. -/
def TransFlags.depContext (flags : TransFlags) (assumeinstalled : List Depend) : DepContext :=
  { assumeinstalled, nodepversion := flags.nodepversion }

/-- `alpm_depmissing_t`. -/
structure Depmissing where
  target : CString
  depend : Depend
  causingpkg : Option CString
  deriving DecidableEq, Repr

namespace DepContext

/-- The dependency as it is checked: without its version under `NODEPVERSION`. -/
def effective (ctx : DepContext) (depend : Depend) : Depend :=
  if ctx.nodepversion then depend.anyVersion else depend

/-- A package of the list satisfies the dependency, or an assumed one does.  The dependency is taken
as it is checked, without its version under `NODEPVERSION`. -/
def Satisfied (ctx : DepContext) (pkgs : List Pkg) (depend : Depend) : Prop :=
  (∃ pkg ∈ pkgs, depcmp pkg depend) ∨ depcmpProvides depend ctx.assumeinstalled

/-- Every dependency of every package of the list is satisfied in the list.  It is what a database
should be before a transaction, and what it should be after one. -/
def Consistent (ctx : DepContext) (pkgs : List Pkg) : Prop :=
  ∀ pkg ∈ pkgs, ∀ depend ∈ pkg.depends, ctx.Satisfied pkgs depend

end DepContext

/-- A package of `pkglist` is modified if its name occurs in `rem` or `upgrade`. -/
def isModified (rem upgrade : List Pkg) (pkg : Pkg) : Bool :=
  (pkgFind rem pkg.name).isSome || (pkgFind upgrade pkg.name).isSome

/-- None of the lists that `alpm_checkdeps` looks at satisfies the dependency. -/
def isMissing (ctx : DepContext) (upgrade dblist : List Pkg) (depend : Depend) : Bool :=
  (findDepSatisfier upgrade depend).isNone && (findDepSatisfier dblist depend).isNone &&
    !depcmpProvides depend ctx.assumeinstalled

/-- The entry for a dependency of a package of the upgrade list. -/
def upgradeMissing (ctx : DepContext) (upgrade dblist : List Pkg) (tp : Pkg)
    (depend : Depend) : Option Depmissing :=
  if isMissing ctx upgrade dblist depend then some ⟨tp.name, depend, none⟩ else none

/-- The entry for a dependency of a package that stays: "we won't break this depend, if
it is already broken, we ignore it". -/
def reverseMissing (ctx : DepContext) (modified upgrade dblist : List Pkg) (lp : Pkg)
    (depend : Depend) : Option Depmissing :=
  match findDepSatisfier modified depend with
  | some causingpkg =>
    if isMissing ctx upgrade dblist depend then
      some ⟨lp.name, depend, some causingpkg.name⟩
    else none
  | none => none

/-- `alpm_checkdeps` on values: the entries for the upgrade list, and for `reversedeps` those for
the packages that stay. -/
def checkdeps (ctx : DepContext) (pkglist rem upgrade : List Pkg) (reversedeps : Bool) :
    List Depmissing :=
  let modified := pkglist.filter (isModified rem upgrade)
  let dblist := pkglist.filter (!isModified rem upgrade ·)
  -- look for unsatisfied dependencies of the upgrade list
  upgrade.flatMap (fun tp =>
      tp.depends.filterMap fun j => upgradeMissing ctx upgrade dblist tp (ctx.effective j)) ++
    -- the backwards dependencies
    if reversedeps then
      dblist.flatMap fun lp =>
        lp.depends.filterMap fun j =>
          reverseMissing ctx modified upgrade dblist lp (ctx.effective j)
    else []

/-! ## The check in place -/

/-- The depend objects by their addresses. -/
abbrev DepHeap := ℕ → Depend

/-- A package whose list of dependencies points into the heap. -/
structure PkgObj where
  pkg : Pkg
  depends : List ℕ

/-- The package as it reads in a heap. -/
def PkgObj.read (heap : DepHeap) (obj : PkgObj) : Pkg :=
  { obj.pkg with depends := obj.depends.map heap }

/-- `heap[j].mod = mod`. -/
def DepHeap.setMod (heap : DepHeap) (j : ℕ) (mod : Depmod) : DepHeap :=
  Function.update heap j { heap j with mod }

/-- One pass of the inner loops: overwrite the `mod` field under `NODEPVERSION`, look for
the entry, restore the field. -/
def visitDepend (ctx : DepContext) (entry : DepHeap → Depend → Option Depmissing) (j : ℕ)
    (state : List Depmissing × DepHeap) : List Depmissing × DepHeap :=
  let (baddeps, heap) := state
  let origMod := (heap j).mod
  let heap := if ctx.nodepversion then heap.setMod j .any else heap
  let miss := entry heap (heap j)
  (baddeps ++ miss.toList, heap.setMod j origMod)

/-- The two nested loops over a list of packages and their dependencies. -/
def visitDepends (ctx : DepContext) (entry : PkgObj → DepHeap → Depend → Option Depmissing)
    (pkgs : List PkgObj) (state : List Depmissing × DepHeap) : List Depmissing × DepHeap :=
  pkgs.foldl (fun state obj =>
    obj.depends.foldl (fun state j => visitDepend ctx (entry obj) j state) state) state

/-- `alpm_checkdeps` on a heap of depend objects: the entries it returns and the heap
after the call.  The lists are read where the C code reads them, while the `mod` field
of the current dependency is overwritten. -/
def checkdepsInPlace (ctx : DepContext) (pkglist rem upgrade : List PkgObj)
    (reversedeps : Bool) (heap : DepHeap) : List Depmissing × DepHeap :=
  let isModifiedObj := fun obj : PkgObj =>
    isModified (rem.map PkgObj.pkg) (upgrade.map PkgObj.pkg) obj.pkg
  let modified := pkglist.filter isModifiedObj
  let dblist := pkglist.filter (!isModifiedObj ·)
  let read := fun (heap : DepHeap) (pkgs : List PkgObj) => pkgs.map (PkgObj.read heap)
  let state := visitDepends ctx (fun tp heap depend =>
    upgradeMissing ctx (read heap upgrade) (read heap dblist) (tp.read heap) depend)
    upgrade ([], heap)
  if reversedeps then
    visitDepends ctx (fun lp heap depend =>
      reverseMissing ctx (read heap modified) (read heap upgrade) (read heap dblist)
        (lp.read heap) depend)
      dblist state
  else state

/-! ### Reading through a heap -/

/-- `_alpm_depcmp` does not look at the dependencies of the package. -/
@[simp] theorem depcmp_read (heap : DepHeap) (obj : PkgObj) (dep : Depend) :
    depcmp (obj.read heap) dep = depcmp obj.pkg dep := rfl

@[simp] theorem name_read (heap : DepHeap) (obj : PkgObj) :
    (obj.read heap).name = obj.pkg.name := rfl

theorem depends_read (heap : DepHeap) (obj : PkgObj) :
    (obj.read heap).depends = obj.depends.map heap := rfl

theorem findDepSatisfier_read (heap : DepHeap) (pkgs : List PkgObj) (dep : Depend) :
    (findDepSatisfier (pkgs.map (PkgObj.read heap)) dep).map Pkg.name =
      (findDepSatisfier (pkgs.map PkgObj.pkg) dep).map Pkg.name := by
  induction pkgs with
  | nil => rfl
  | cons obj pkgs ih =>
    simp only [findDepSatisfier, List.map_cons, List.find?_cons, depcmp_read] at ih ⊢
    cases depcmp obj.pkg dep
    · exact ih
    · rfl

theorem isMissing_read (ctx : DepContext) (heap : DepHeap) (upgrade dblist : List PkgObj)
    (dep : Depend) :
    isMissing ctx (upgrade.map (PkgObj.read heap)) (dblist.map (PkgObj.read heap)) dep =
      isMissing ctx (upgrade.map PkgObj.pkg) (dblist.map PkgObj.pkg) dep := by
  have hnone : ∀ pkgs : List PkgObj,
      (findDepSatisfier (pkgs.map (PkgObj.read heap)) dep).isNone =
        (findDepSatisfier (pkgs.map PkgObj.pkg) dep).isNone := by
    intro pkgs
    rw [← Option.isNone_map, findDepSatisfier_read, Option.isNone_map]
  simp only [isMissing, hnone]

theorem upgradeMissing_read (ctx : DepContext) (heap heap' : DepHeap)
    (upgrade dblist : List PkgObj) (tp : PkgObj) (dep : Depend) :
    upgradeMissing ctx (upgrade.map (PkgObj.read heap)) (dblist.map (PkgObj.read heap))
        (tp.read heap) dep =
      upgradeMissing ctx (upgrade.map (PkgObj.read heap')) (dblist.map (PkgObj.read heap'))
        (tp.read heap') dep := by
  simp only [upgradeMissing, isMissing_read, name_read]

theorem reverseMissing_read (ctx : DepContext) (heap heap' : DepHeap)
    (modified upgrade dblist : List PkgObj) (lp : PkgObj) (dep : Depend) :
    reverseMissing ctx (modified.map (PkgObj.read heap)) (upgrade.map (PkgObj.read heap))
        (dblist.map (PkgObj.read heap)) (lp.read heap) dep =
      reverseMissing ctx (modified.map (PkgObj.read heap')) (upgrade.map (PkgObj.read heap'))
        (dblist.map (PkgObj.read heap')) (lp.read heap') dep := by
  have hname := (findDepSatisfier_read heap modified dep).trans
    (findDepSatisfier_read heap' modified dep).symm
  simp only [reverseMissing, isMissing_read, name_read]
  cases h : findDepSatisfier (modified.map (PkgObj.read heap)) dep <;>
    cases h' : findDepSatisfier (modified.map (PkgObj.read heap')) dep <;>
    simp_all

/-! ### The fields are restored -/

theorem setMod_setMod_restore (heap : DepHeap) (j : ℕ) (mod : Depmod) :
    (heap.setMod j mod).setMod j (heap j).mod = heap := by
  funext k
  by_cases h : k = j
  · subst h
    simp [DepHeap.setMod]
  · simp [DepHeap.setMod, h]

/-- **One pass leaves the heap as it was** and looks at the effective dependency.  While the field
is overwritten only names, versions and provisions are read, so the search sees the packages as they
were. -/
theorem visitDepend_eq (ctx : DepContext) {entry : DepHeap → Depend → Option Depmissing}
    (hentry : ∀ heap heap' dep, entry heap dep = entry heap' dep) (j : ℕ)
    (baddeps : List Depmissing) (heap : DepHeap) :
    visitDepend ctx entry j (baddeps, heap) =
      (baddeps ++ (entry heap (ctx.effective (heap j))).toList, heap) := by
  have hsame : heap.setMod j (heap j).mod = heap := by
    simp [DepHeap.setMod]
  unfold visitDepend DepContext.effective
  cases ctx.nodepversion
  · simp [hsame]
  · have hread : (heap.setMod j .any) j = (heap j).anyVersion := by
      simp [DepHeap.setMod, Depend.anyVersion]
    simp [setMod_setMod_restore, hread, hentry (heap.setMod j .any) heap]

theorem visitDepends_eq (ctx : DepContext)
    {entry : PkgObj → DepHeap → Depend → Option Depmissing}
    (hentry : ∀ obj heap heap' dep, entry obj heap dep = entry obj heap' dep)
    (pkgs : List PkgObj) (baddeps : List Depmissing) (heap : DepHeap) :
    visitDepends ctx entry pkgs (baddeps, heap) =
      (baddeps ++ pkgs.flatMap fun obj =>
        (obj.depends.map heap).filterMap fun dep => entry obj heap (ctx.effective dep), heap) := by
  have hinner : ∀ (obj : PkgObj) (js : List ℕ) (baddeps : List Depmissing),
      js.foldl (fun state j => visitDepend ctx (entry obj) j state) (baddeps, heap) =
        (baddeps ++ (js.map heap).filterMap fun dep => entry obj heap (ctx.effective dep),
          heap) := by
    intro obj js
    induction js with
    | nil => simp
    | cons j js ih =>
      intro baddeps
      rw [List.foldl_cons, visitDepend_eq ctx (hentry obj), ih, List.map_cons,
        List.filterMap_cons, List.append_assoc]
      cases entry obj heap (ctx.effective (heap j)) <;> rfl
  unfold visitDepends
  induction pkgs generalizing baddeps with
  | nil => simp
  | cons obj pkgs ih =>
    rw [List.foldl_cons, hinner, ih, List.flatMap_cons, List.append_assoc]

/-- **`alpm_checkdeps` restores every dependency**, and returns what the function on values returns.
Packages may share depend objects, and an object may be visited many times. -/
theorem checkdepsInPlace_eq (ctx : DepContext) (pkglist rem upgrade : List PkgObj)
    (reversedeps : Bool) (heap : DepHeap) :
    checkdepsInPlace ctx pkglist rem upgrade reversedeps heap =
      (checkdeps ctx (pkglist.map (PkgObj.read heap)) (rem.map (PkgObj.read heap))
        (upgrade.map (PkgObj.read heap)) reversedeps, heap) := by
  have hfind : ∀ (pkgs : List PkgObj) (name : CString),
      (pkgFind (pkgs.map (PkgObj.read heap)) name).isSome =
        (pkgFind (pkgs.map PkgObj.pkg) name).isSome := by
    intro pkgs name
    rw [Bool.eq_iff_iff, pkgFind_isSome, pkgFind_isSome, List.map_map, List.map_map]
    rfl
  have hmod : ∀ obj : PkgObj,
      isModified (rem.map (PkgObj.read heap)) (upgrade.map (PkgObj.read heap)) (obj.read heap) =
        isModified (rem.map PkgObj.pkg) (upgrade.map PkgObj.pkg) obj.pkg := by
    intro obj
    simp only [isModified, hfind, name_read]
  have hfilter : ∀ p : Bool → Bool,
      (pkglist.map (PkgObj.read heap)).filter (fun pkg =>
          p (isModified (rem.map (PkgObj.read heap)) (upgrade.map (PkgObj.read heap)) pkg)) =
        (pkglist.filter fun obj =>
          p (isModified (rem.map PkgObj.pkg) (upgrade.map PkgObj.pkg) obj.pkg)).map
            (PkgObj.read heap) := by
    intro p
    rw [List.filter_map]
    congr 1
    exact List.filter_congr fun obj _ => by simp only [Function.comp, hmod]
  have hmodified := hfilter id
  have hdblist := hfilter not
  simp only [id] at hmodified
  unfold checkdepsInPlace checkdeps
  simp only [hmodified, hdblist]
  rw [visitDepends_eq ctx fun tp h h' dep => upgradeMissing_read ctx h h' upgrade _ tp dep]
  split_ifs
  · rw [visitDepends_eq ctx fun lp h h' dep => reverseMissing_read ctx h h' _ upgrade _ lp dep]
    simp only [List.flatMap_map, depends_read, List.nil_append]
  · simp only [List.flatMap_map, depends_read, List.nil_append, List.append_nil]

/-! ## Soundness and completeness -/

section

variable {ctx : DepContext} {pkglist rem upgrade : List Pkg} {reversedeps : Bool}

theorem isMissing_iff {upgrade dblist : List Pkg} {depend : Depend} :
    isMissing ctx upgrade dblist depend ↔ ¬ ctx.Satisfied (dblist ++ upgrade) depend := by
  simp only [isMissing, Bool.and_eq_true, findDepSatisfier_isNone, Bool.not_eq_true',
    DepContext.Satisfied, List.mem_append, not_or, not_exists, not_and, Bool.not_eq_true]
  constructor
  · rintro ⟨⟨hup, hdb⟩, hassume⟩
    exact ⟨fun pkg hpkg => hpkg.elim (hdb pkg) (hup pkg), hassume⟩
  · rintro ⟨h, hassume⟩
    exact ⟨⟨fun pkg hpkg => h pkg (Or.inr hpkg), fun pkg hpkg => h pkg (Or.inl hpkg)⟩, hassume⟩

/-- What satisfies a dependency satisfies the effective one. -/
theorem DepContext.Satisfied.effective {pkgs : List Pkg} {depend : Depend}
    (h : ctx.Satisfied pkgs depend) : ctx.Satisfied pkgs (ctx.effective depend) := by
  unfold DepContext.effective
  split_ifs
  · exact h.imp (fun ⟨pkg, hpkg, hsat⟩ => ⟨pkg, hpkg, depcmp_anyVersion hsat⟩)
      depcmpProvides_anyVersion
  · exact h

/-- The packages left when those named in `rem` and `upgrade` are gone. -/
def keptPkgs (pkglist rem upgrade : List Pkg) : List Pkg :=
  pkglist.filter (!isModified rem upgrade ·)

theorem mem_keptPkgs {pkg : Pkg} : pkg ∈ keptPkgs pkglist rem upgrade ↔
    pkg ∈ pkglist ∧ pkg.name ∉ rem.map Pkg.name ∧ pkg.name ∉ upgrade.map Pkg.name := by
  simp only [keptPkgs, List.mem_filter, isModified, Bool.not_eq_true', ← Bool.not_eq_true,
    Bool.or_eq_true, pkgFind_isSome, not_or]

/-- The packages after the transaction. -/
def resultPkgs (pkglist rem upgrade : List Pkg) : List Pkg :=
  keptPkgs pkglist rem upgrade ++ upgrade

/-- The entries of `alpm_checkdeps`. -/
theorem mem_checkdeps {miss : Depmissing} :
    miss ∈ checkdeps ctx pkglist rem upgrade reversedeps ↔
      (∃ tp ∈ upgrade, ∃ depend ∈ tp.depends,
        ¬ ctx.Satisfied (resultPkgs pkglist rem upgrade) (ctx.effective depend) ∧
        miss = ⟨tp.name, ctx.effective depend, none⟩) ∨
      (reversedeps = true ∧ ∃ lp ∈ keptPkgs pkglist rem upgrade, ∃ depend ∈ lp.depends,
        ¬ ctx.Satisfied (resultPkgs pkglist rem upgrade) (ctx.effective depend) ∧
        ∃ causingpkg, findDepSatisfier (pkglist.filter (isModified rem upgrade))
          (ctx.effective depend) = some causingpkg ∧
          miss = ⟨lp.name, ctx.effective depend, some causingpkg.name⟩) := by
  unfold checkdeps
  simp only [List.mem_append, List.mem_flatMap, List.mem_filterMap]
  refine or_congr ?_ ?_
  · simp only [upgradeMissing, Option.ite_none_right_eq_some, isMissing_iff, Option.some.injEq]
    simp only [resultPkgs, keptPkgs, eq_comm]
  · cases reversedeps
    · simp
    · simp only [if_true, List.mem_flatMap, List.mem_filterMap, true_and]
      refine exists_congr fun lp => and_congr Iff.rfl (exists_congr fun depend =>
        and_congr Iff.rfl ?_)
      unfold reverseMissing
      cases findDepSatisfier (pkglist.filter (isModified rem upgrade)) (ctx.effective depend)
      · simp
      · simp only [Option.ite_none_right_eq_some, isMissing_iff, Option.some.injEq,
          resultPkgs, keptPkgs, exists_eq_left']
        exact and_congr Iff.rfl eq_comm

/-- Every entry names a dependency that nothing satisfies. -/
theorem checkdeps_sound {miss : Depmissing}
    (h : miss ∈ checkdeps ctx pkglist rem upgrade reversedeps) :
    ∃ pkg ∈ resultPkgs pkglist rem upgrade, miss.target = pkg.name ∧
      ∃ depend ∈ pkg.depends, miss.depend = ctx.effective depend ∧
        ¬ ctx.Satisfied (resultPkgs pkglist rem upgrade) miss.depend := by
  rcases mem_checkdeps.mp h with ⟨tp, htp, depend, hdep, hmiss, rfl⟩ |
    ⟨-, lp, hlp, depend, hdep, hmiss, causingpkg, -, rfl⟩
  · exact ⟨tp, List.mem_append_right _ htp, rfl, depend, hdep, rfl, hmiss⟩
  · exact ⟨lp, List.mem_append_left _ hlp, rfl, depend, hdep, rfl, hmiss⟩

/-- If nothing was broken before and the check finds nothing, nothing is broken after. -/
theorem checkdeps_complete (hbefore : ctx.Consistent pkglist)
    (h : checkdeps ctx pkglist rem upgrade true = []) {pkg : Pkg}
    (hpkg : pkg ∈ resultPkgs pkglist rem upgrade) {depend : Depend}
    (hdep : depend ∈ pkg.depends) :
    ctx.Satisfied (resultPkgs pkglist rem upgrade) (ctx.effective depend) := by
  by_contra hmiss
  rcases List.mem_append.mp hpkg with hkept | hup
  · -- the dependency was satisfied before: either what satisfied it stays, or it is
    -- modified and the backward check sees it
    have hlist := (mem_keptPkgs.mp hkept).1
    rcases (hbefore pkg hlist depend hdep).effective with ⟨sat, hsat, hcmp⟩ | hassume
    · by_cases hmod : isModified rem upgrade sat
      · have hcause : (findDepSatisfier (pkglist.filter (isModified rem upgrade))
            (ctx.effective depend)).isSome :=
          findDepSatisfier_isSome.mpr ⟨sat, List.mem_filter.mpr ⟨hsat, hmod⟩, hcmp⟩
        obtain ⟨causingpkg, hcause⟩ := Option.isSome_iff_exists.mp hcause
        have hmem := mem_checkdeps.mpr (Or.inr ⟨rfl, pkg, hkept, depend, hdep, hmiss,
          causingpkg, hcause, rfl⟩)
        rw [h] at hmem
        exact List.not_mem_nil hmem
      · have hstay : sat ∈ keptPkgs pkglist rem upgrade := by
          simpa [keptPkgs] using And.intro hsat hmod
        exact hmiss (Or.inl ⟨sat, List.mem_append_left _ hstay, hcmp⟩)
    · exact hmiss (Or.inr hassume)
  · have hmem : (⟨pkg.name, ctx.effective depend, none⟩ : Depmissing) ∈
        checkdeps ctx pkglist rem upgrade true :=
      mem_checkdeps.mpr (Or.inl ⟨pkg, hup, depend, hdep, hmiss, rfl⟩)
    rw [h] at hmem
    exact List.not_mem_nil hmem

end

/-- **`alpm_checkdeps` is sound and complete.**  After a call that reports nothing every dependency
is satisfied among the packages that stay and the upgrades, if it was before; what is reported is
never satisfied; and the depend objects are as they were.  The last part comes first in the proof,
since with it the rest is about the function on values. -/
theorem checkdepsInPlace_sound_complete (ctx : DepContext) (pkglist rem upgrade : List PkgObj)
    (heap : DepHeap) :
    let read := List.map (PkgObj.read heap)
    let after := resultPkgs (read pkglist) (read rem) (read upgrade)
    (ctx.Consistent (read pkglist) →
        (checkdepsInPlace ctx pkglist rem upgrade true heap).1 = [] →
        ∀ pkg ∈ after, ∀ depend ∈ pkg.depends, ctx.Satisfied after (ctx.effective depend)) ∧
      (∀ reversedeps, ∀ miss ∈ (checkdepsInPlace ctx pkglist rem upgrade reversedeps heap).1,
        ∃ pkg ∈ after, miss.target = pkg.name ∧
          ∃ depend ∈ pkg.depends, miss.depend = ctx.effective depend ∧
            ¬ ctx.Satisfied after miss.depend) ∧
      ∀ reversedeps, (checkdepsInPlace ctx pkglist rem upgrade reversedeps heap).2 = heap := by
  simp only [checkdepsInPlace_eq]
  refine ⟨fun hbefore hnone pkg hpkg depend hdep => ?_, fun reversedeps miss hmiss => ?_,
    fun _ => trivial⟩
  · exact checkdeps_complete hbefore hnone hpkg hdep
  · exact checkdeps_sound hmiss

end Alpm
