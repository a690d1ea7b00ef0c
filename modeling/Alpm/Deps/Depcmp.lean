import Alpm.Package

/-!
# Satisfying a dependency

`_alpm_depcmp` and its parts, and `find_dep_satisfier`, which is the first match in a list.  A
package satisfies a dependency by its own name and version, or by something it provides: a provision
without a version only satisfies a dependency without one.

What the later files use of it is little.  A literal match is a match of the names and the versions
(`depcmpLiteral_iff`).  And a dependency whose version requirement is dropped, as `NODEPVERSION`
wants it, is satisfied by everything that satisfied it before (`depcmp_anyVersion`), so that what
holds of a strict check holds of a lax one.  The converse fails, and that is where a removal can go
wrong (`Alpm.Remove`).
-/

namespace Alpm

/-- `dep_vercmp`. -/
def depVercmp (version1 : Option CString) (mod : Depmod) (version2 : Option CString) : Bool :=
  let cmp := pkgVercmpPtr version1 version2
  match mod with
  | .any => true
  | .eq => cmp = 0
  | .ge => cmp ≥ 0
  | .le => cmp ≤ 0
  | .lt => cmp < 0
  | .gt => cmp > 0

/-- `_alpm_depcmp_literal`. -/
def depcmpLiteral (pkg : Pkg) (dep : Depend) : Bool :=
  if pkg.nameHash ≠ dep.nameHash ∨ strcmp pkg.name dep.name ≠ 0 then false
  else depVercmp (some pkg.version) dep.mod dep.version

/-- One provision of `_alpm_depcmp_provides`.  A dependency without a version asks for the name
only; with a version it asks for a provision that has one itself. -/
def provisionSatisfies (dep provision : Depend) : Bool :=
  if dep.mod = .any then
    -- any version will satisfy the requirement
    provision.nameHash = dep.nameHash ∧ strcmp provision.name dep.name = 0
  else if provision.mod = .eq then
    -- provision specifies a version, so try it out
    provision.nameHash = dep.nameHash ∧ strcmp provision.name dep.name = 0 ∧
      depVercmp provision.version dep.mod dep.version
  else false

/-- `_alpm_depcmp_provides`. -/
def depcmpProvides (dep : Depend) (provisions : List Depend) : Bool :=
  provisions.any (provisionSatisfies dep)

/-- `_alpm_depcmp`. -/
def depcmp (pkg : Pkg) (dep : Depend) : Bool :=
  depcmpLiteral pkg dep || depcmpProvides dep pkg.provides

/-- `find_dep_satisfier`. -/
def findDepSatisfier (pkgs : List Pkg) (dep : Depend) : Option Pkg :=
  pkgs.find? fun pkg => depcmp pkg dep

/-- `_alpm_pkg_depends_on`: `pkg2` satisfies a dependency of `pkg1`. -/
def pkgDependsOn (pkg1 pkg2 : Pkg) : Bool :=
  pkg1.depends.any fun dep => depcmp pkg2 dep

@[simp] theorem findDepSatisfier_isNone {pkgs : List Pkg} {dep : Depend} :
    (findDepSatisfier pkgs dep).isNone ↔ ∀ pkg ∈ pkgs, depcmp pkg dep = false := by
  simp [findDepSatisfier]

theorem findDepSatisfier_eq_some {pkgs : List Pkg} {dep : Depend} {pkg : Pkg}
    (h : findDepSatisfier pkgs dep = some pkg) : pkg ∈ pkgs ∧ depcmp pkg dep :=
  ⟨List.mem_of_find?_eq_some h, by simpa using List.find?_some h⟩

theorem findDepSatisfier_isSome {pkgs : List Pkg} {dep : Depend} :
    (findDepSatisfier pkgs dep).isSome ↔ ∃ pkg ∈ pkgs, depcmp pkg dep := by
  simp [findDepSatisfier]

theorem pkgDependsOn_iff {pkg1 pkg2 : Pkg} :
    pkgDependsOn pkg1 pkg2 ↔ ∃ dep ∈ pkg1.depends, depcmp pkg2 dep := by
  simp [pkgDependsOn]

/-- A literal match is a match of the names and the versions. -/
theorem depcmpLiteral_iff {pkg : Pkg} {dep : Depend} :
    depcmpLiteral pkg dep ↔
      pkg.name = dep.name ∧ depVercmp (some pkg.version) dep.mod dep.version := by
  unfold depcmpLiteral
  split_ifs with h
  · simp only [false_iff, not_and]
    intro hname
    simp [Pkg.nameHash, Depend.nameHash, hname] at h
  · rw [not_or, not_not, not_not, strcmp_eq_zero] at h
    simp [h.2]

theorem provisionSatisfies_iff {dep provision : Depend} :
    provisionSatisfies dep provision ↔ provision.name = dep.name ∧
      (dep.mod = .any ∨
        provision.mod = .eq ∧ depVercmp provision.version dep.mod dep.version) := by
  have hhash : provision.name = dep.name → provision.nameHash = dep.nameHash := by
    intro h
    simp [Depend.nameHash, h]
  unfold provisionSatisfies
  split_ifs with h₁ h₂
  · simpa [h₁] using hhash
  · simp only [decide_eq_true_eq, strcmp_eq_zero, h₁, h₂, false_or, true_and]
    exact ⟨fun h => h.2, fun h => ⟨hhash h.1, h⟩⟩
  · simp [h₁, h₂]

theorem depcmpProvides_iff {dep : Depend} {provisions : List Depend} :
    depcmpProvides dep provisions ↔ ∃ provision ∈ provisions, provisionSatisfies dep provision := by
  simp [depcmpProvides]

theorem depcmp_iff {pkg : Pkg} {dep : Depend} :
    depcmp pkg dep ↔ depcmpLiteral pkg dep ∨ depcmpProvides dep pkg.provides := by
  simp [depcmp]

/-! ## Dropping version requirements -/

/-- The dependency without its version requirement. -/
def Depend.anyVersion (dep : Depend) : Depend := { dep with mod := .any }

theorem provisionSatisfies_anyVersion {dep provision : Depend}
    (h : provisionSatisfies dep provision) : provisionSatisfies dep.anyVersion provision :=
  provisionSatisfies_iff.mpr ⟨(provisionSatisfies_iff.mp h).1, Or.inl rfl⟩

theorem depcmpProvides_anyVersion {dep : Depend} {provisions : List Depend}
    (h : depcmpProvides dep provisions) : depcmpProvides dep.anyVersion provisions := by
  obtain ⟨provision, hmem, hsat⟩ := depcmpProvides_iff.mp h
  exact depcmpProvides_iff.mpr ⟨provision, hmem, provisionSatisfies_anyVersion hsat⟩

/-- What satisfies a dependency satisfies it without its version requirement. -/
theorem depcmp_anyVersion {pkg : Pkg} {dep : Depend} (h : depcmp pkg dep) :
    depcmp pkg dep.anyVersion := by
  rcases depcmp_iff.mp h with h | h
  · exact depcmp_iff.mpr (Or.inl (depcmpLiteral_iff.mpr ⟨(depcmpLiteral_iff.mp h).1, rfl⟩))
  · exact depcmp_iff.mpr (Or.inr (depcmpProvides_anyVersion h))

end Alpm
