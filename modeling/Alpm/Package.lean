import Alpm.List
import Alpm.Version.Vercmp

/-!
# Packages and dependencies

The records `alpm_pkg_t` and `alpm_depend_t`, and `package.c`'s searches in lists of packages.

A package record carries the address of its object in `addr`, so that equal `Pkg` values stand for
equal pointers, and two objects with the same fields stay different packages.  The `name_hash`
fields are filled with `_alpm_hash_sdbm` of the name wherever a name is set, so they are computed
here, and the comparisons of the code that look at the hash first are kept as they are.  The fields
`removes` and `oldpkg`, which only transaction targets use and which change during a transaction,
are part of the transaction (`Alpm.Sync`).

`_alpm_pkg_dup` may find no memory, or memory in which the copy is not complete; `DupOutcome` names
what a call meets, and it is given to the model from outside, by the place in the run where the call
is made, so that a theorem holds for every pattern of failures.
-/

namespace Alpm

/-- `alpm_depmod_t`. -/
inductive Depmod where
  | any
  | eq
  | ge
  | le
  | gt
  | lt
  deriving DecidableEq, Repr

/-- `alpm_depend_t`. -/
structure Depend where
  name : CString
  version : Option CString := none
  desc : Option CString := none
  mod : Depmod := .any
  deriving DecidableEq, Repr

def Depend.nameHash (dep : Depend) : ℕ := hashSdbm dep.name

/-- `alpm_backup_t`. -/
structure Backup where
  name : CString
  hash : Option CString
  deriving DecidableEq, Repr

/-- `alpm_pkgreason_t`.  The readers of the databases store any number in it. -/
def PkgReason := UInt32
  deriving DecidableEq, Repr

def PkgReason.explicit : PkgReason := (0 : UInt32)

def PkgReason.depend : PkgReason := (1 : UInt32)

/-- `alpm_pkgfrom_t`, with the database a package of a database comes from. -/
inductive PkgFrom where
  | file
  | localdb
  | syncdb (treename : CString)
  deriving DecidableEq, Repr

/-- The codes of `alpm_errno_t` that the modelled functions set. -/
inductive Errno where
  | ok
  | memory
  | badperms
  | notAFile
  | wrongArgs
  | dbInvalid
  | dbNotFound
  | transAbort
  | transDupTarget
  | transNotInitialized
  | transNotLocked
  | pkgNotFound
  | pkgIgnored
  | pkgInvalid
  | pkgInvalidName
  | pkgInvalidArch
  | pkgOpen
  | pkgInvalidChecksum
  | pkgMissingSig
  | pkgInvalidSig
  | sigMissing
  | sigInvalid
  | unsatisfiedDeps
  | conflictingDeps
  | gpgme
  | missingCapabilitySignatures
  deriving DecidableEq, Repr

/-- The bits of `alpm_transflag_t`. -/
structure TransFlags where
  nodeps : Bool := false
  nosave : Bool := false
  nodepversion : Bool := false
  cascade : Bool := false
  recurse : Bool := false
  dbonly : Bool := false
  noconflicts : Bool := false
  unneeded : Bool := false
  recurseall : Bool := false
  needed : Bool := false
  nolock : Bool := false
  deriving DecidableEq, Repr

theorem TransFlags.not_dbonly_default : ({} : TransFlags).dbonly = false := rfl

/-- `alpm_pkg_t`. -/
structure Pkg where
  addr : ℕ := 0
  name : CString
  version : CString
  filename : Option CString := none
  base : Option CString := none
  desc : Option CString := none
  url : Option CString := none
  packager : Option CString := none
  md5sum : Option CString := none
  sha256sum : Option CString := none
  base64Sig : Option CString := none
  arch : Option CString := none
  builddate : Int := 0
  installdate : Int := 0
  size : Int := 0
  isize : Int := 0
  licenses : List CString := []
  groups : List CString := []
  replaces : List Depend := []
  depends : List Depend := []
  optdepends : List Depend := []
  makedepends : List Depend := []
  checkdepends : List Depend := []
  conflicts : List Depend := []
  provides : List Depend := []
  files : List CString := []
  backup : List Backup := []
  origin : PkgFrom := .localdb
  reason : PkgReason := .explicit
  validation : ℕ := 0
  infolevel : ℕ := 0
  scriptlet : Bool := false
  deriving DecidableEq, Repr

def Pkg.nameHash (pkg : Pkg) : ℕ := hashSdbm pkg.name

/-- `_alpm_pkg_cmp`. -/
def pkgCmp (pkg1 pkg2 : Pkg) : Int := strcmp pkg1.name pkg2.name

theorem pkgCmp_comparesBy : ComparesBy pkgCmp Pkg.name where
  lt _ _ := strcmp_lt_zero
  gt _ _ := strcmp_gt_zero

/-- `alpm_pkg_find`. -/
def pkgFind (haystack : List Pkg) (needle : CString) : Option Pkg :=
  haystack.find? fun info => info.nameHash = hashSdbm needle ∧ strcmp info.name needle = 0

theorem pkgFind_eq_find? (haystack : List Pkg) (needle : CString) :
    pkgFind haystack needle = haystack.find? (·.name = needle) := by
  unfold pkgFind
  congr 1
  funext info
  rw [decide_eq_decide, strcmp_eq_zero, and_iff_right_iff_imp]
  rintro rfl
  rfl

theorem pkgFind_isSome {haystack : List Pkg} {needle : CString} :
    (pkgFind haystack needle).isSome ↔ needle ∈ haystack.map Pkg.name := by
  rw [pkgFind_eq_find?, List.find?_isSome]
  simp

@[simp] theorem pkgFind_eq_none {haystack : List Pkg} {needle : CString} :
    pkgFind haystack needle = none ↔ needle ∉ haystack.map Pkg.name := by
  rw [← pkgFind_isSome, Option.not_isSome_iff_eq_none]

theorem pkgFind_eq_some {haystack : List Pkg} {needle : CString} {pkg : Pkg}
    (h : pkgFind haystack needle = some pkg) : pkg ∈ haystack ∧ pkg.name = needle := by
  rw [pkgFind_eq_find?] at h
  exact ⟨List.mem_of_find?_eq_some h, by simpa using List.find?_some h⟩

/-- In a list with distinct names the search finds every member by its name. -/
theorem pkgFind_of_mem {haystack : List Pkg} (hnodup : (haystack.map Pkg.name).Nodup)
    {pkg : Pkg} (h : pkg ∈ haystack) : pkgFind haystack pkg.name = some pkg := by
  obtain ⟨found, hfound⟩ := Option.isSome_iff_exists.mp
    (pkgFind_isSome.mpr (List.mem_map_of_mem h))
  obtain ⟨hmem, hname⟩ := pkgFind_eq_some hfound
  rw [hfound, List.inj_on_of_nodup_map hnodup hmem h hname]

theorem pkgFind_concat (pkgs : List Pkg) (pkg : Pkg) (name : CString) :
    pkgFind (pkgs ++ [pkg]) name =
      (pkgFind pkgs name).or (if pkg.name = name then some pkg else none) := by
  rw [pkgFind_eq_find?, pkgFind_eq_find?, List.find?_append]
  by_cases h : pkg.name = name <;> simp [h]

/-- What a call of `_alpm_pkg_dup` meets: no memory, or memory at an address with
`force_load` failing or not. -/
inductive DupOutcome where
  | fatal
  | nonfatal (addr : ℕ)
  | success (addr : ℕ)
  deriving DecidableEq, Repr

/-- The copy that `_alpm_pkg_dup` fills in.  It has no `base64_sig`, `makedepends` and
`checkdepends`. -/
def Pkg.copyAt (pkg : Pkg) (addr : ℕ) : Pkg :=
  { pkg with addr, base64Sig := none, makedepends := [], checkdepends := [] }

/-- `_alpm_pkg_dup`: the return value and the copy. -/
def pkgDup (outcome : DupOutcome) (pkg : Pkg) : Int × Option Pkg :=
  match outcome with
  | .fatal => (-1, none)
  | .nonfatal addr => (1, some (pkg.copyAt addr))
  | .success addr => (0, some (pkg.copyAt addr))

@[simp] theorem Pkg.copyAt_name (pkg : Pkg) (addr : ℕ) : (pkg.copyAt addr).name = pkg.name := rfl

@[simp] theorem Pkg.copyAt_depends (pkg : Pkg) (addr : ℕ) :
    (pkg.copyAt addr).depends = pkg.depends := rfl

/-- `alpm_pkg_vercmp` with `NULL` arguments. -/
def pkgVercmpPtr : Option CString → Option CString → Int
  | none, none => 0
  | none, some _ => -1
  | some _, none => 1
  | some a, some b => pkgVercmp a b

end Alpm
