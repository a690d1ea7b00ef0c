import Alpm.Remove

/-!
# Resolving dependencies

`resolvedep` looks a dependency up in databases, first by name and then among what packages
provide; `_alpm_resolvedeps` puts a package on a list together with what it needs.  The calls of
`_alpm_resolvedeps` for one transaction share the list `*packages`, the list `*data` of what could
not be resolved, and the sequence of questions to the user, so the model passes these three from
call to call (`Resolving`).

## The recursion ends

A call for a package whose name is on the list returns at once.  Every other call puts a new name
on the list before it makes a call itself, and the packages for these calls come from the targets
and the databases.  So the recursion is at most as deep as there are packages to choose from
(`resolvedepsFuel_isSome`), a bound on the depth changes nothing once it is large enough
(`resolvedepsFuel_mono`), and `resolvedeps` is a total function.

## What a call leaves behind

On success the list has grown at its end by packages with new names, on error it is what it was and
`*data` is longer (`resolvedeps_extends`, `Resolves`).  Whether the dependencies of what was added
are satisfied in the end is a longer story, which `Alpm.Sync.Closure` tells.
-/

namespace Alpm.Sync

/-! ## The handle -/

/-- `alpm_db_t`: its name, the bits `INSTALL` and `UPGRADE` of its usage, the bits `INVALID`
and `MISSING` of its status, and its packages. -/
structure Db where
  treename : CString
  usageInstall : Bool := true
  usageUpgrade : Bool := true
  invalid : Bool := false
  missing : Bool := false
  pkgcache : List Pkg
  deriving DecidableEq, Repr

/-- `alpm_handle_t`, without what a transaction changes.  `answer` has what the question
callback answers to the questions of a run in turn, and `fnmatch` is that of the C
library, with the pattern first. -/
structure Handle where
  dbLocal : Db
  dbsSync : List Db
  assumeinstalled : List Depend := []
  ignorepkg : List CString := []
  ignoregroup : List CString := []
  architectures : List CString := []
  fnmatch : CString → CString → Bool
  answer : ℕ → Int

/-- `alpm_pkg_should_ignore`. -/
def Handle.pkgShouldIgnore (handle : Handle) (pkg : Pkg) : Bool :=
  handle.ignorepkg.any (handle.fnmatch · pkg.name) ||
    pkg.groups.any fun grp => handle.ignoregroup.any (handle.fnmatch · grp)

/-! ## `resolvedep` -/

section

variable (handle : Handle) (dep : Depend) (excluding : List Pkg) (prompt : Bool)

/-- Whether a package that fits is taken: an ignored one only if the user wants it.  `asked`
counts the questions. -/
def takesIgnored (pkg : Pkg) (asked : ℕ) : Bool × ℕ :=
  if handle.pkgShouldIgnore pkg then
    if prompt then (handle.answer asked ≠ 0, asked + 1) else (false, asked)
  else (true, asked)

/-- The loop over the literals: in each database that may be used, the package of the name if its
version will do.  An ignored one is taken only if the user wants it. -/
def resolveLiteral : List Db → ℕ → Option Pkg × ℕ
  | [], asked => (none, asked)
  | db :: dbs, asked =>
    if !(db.usageInstall || db.usageUpgrade) then resolveLiteral dbs asked
    else match pkgFind db.pkgcache dep.name with
      | none => resolveLiteral dbs asked
      | some pkg =>
        if depcmpLiteral pkg dep ∧ (pkgFind excluding pkg.name).isNone then
          let (install, asked) := takesIgnored handle prompt pkg asked
          if install then (some pkg, asked) else resolveLiteral dbs asked
        else resolveLiteral dbs asked

/-- A package that is no literal match provides the dependency and is not excluded. -/
def isProvider (pkg : Pkg) : Bool :=
  (pkg.nameHash ≠ dep.nameHash ∨ strcmp pkg.name dep.name ≠ 0) ∧
    depcmpProvides dep pkg.provides ∧ (pkgFind excluding pkg.name).isNone

/-- The loop over the satisfiers in one list of packages: a provider that is installed
already, or all that were found. -/
def resolveProviders : List Pkg → List Pkg → ℕ → Option Pkg × List Pkg × ℕ
  | [], providers, asked => (none, providers, asked)
  | pkg :: pkgs, providers, asked =>
    if isProvider dep excluding pkg then
      let (install, asked) := takesIgnored handle prompt pkg asked
      if !install then resolveProviders pkgs providers asked
      else if (pkgFind handle.dbLocal.pkgcache pkg.name).isSome then (some pkg, providers, asked)
      else resolveProviders pkgs (providers ++ [pkg]) asked
    else resolveProviders pkgs providers asked

/-- The packages of the databases that are searched. -/
def usablePkgs (dbs : List Db) : List Pkg :=
  (dbs.filter fun db => db.usageInstall || db.usageUpgrade).flatMap Db.pkgcache

/-- `resolvedep`: the package and the number of questions so far.  Literals come first; of several
providers the user chooses one by its index. -/
def resolvedep (dbs : List Db) (asked : ℕ) : Option Pkg × ℕ :=
  match resolveLiteral handle dep excluding prompt dbs asked with
  | (some pkg, asked) => (some pkg, asked)
  | (none, asked) =>
    match resolveProviders handle dep excluding prompt (usablePkgs dbs) [] asked with
    | (some pkg, _, asked) => (some pkg, asked)
    | (none, providers, asked) =>
      let (useIndex, asked) :=
        if 1 < providers.length then (handle.answer asked, asked + 1) else (0, asked)
      if 0 ≤ useIndex then (providers[useIndex.toNat]?, asked) else (none, asked)

end

/-! ## `_alpm_resolvedeps` -/

/-- What the calls of `_alpm_resolvedeps` share: `*packages`, `*data` and the number of
questions. -/
structure Resolving where
  packages : List Pkg := []
  data : List Depmissing := []
  asked : ℕ := 0
  deriving DecidableEq, Repr

section

variable (handle : Handle) (ctx : DepContext) (localpkgs preferred rem : List Pkg)

/-- The package that is tried for a missing dependency. -/
def findSpkg (packages : List Pkg) (missdep : Depend) (asked : ℕ) : Option Pkg × ℕ :=
  match findDepSatisfier preferred missdep with
  | some spkg => (some spkg, asked)
  | none => resolvedep handle missdep packages false handle.dbsSync asked

/-- What is left to do for a missing dependency that no package was resolved for: look for an
installed package. -/
def resolveInstalled (miss : Depmissing) (s : Resolving) : Int × Resolving :=
  let (installed, asked) := resolvedep handle miss.depend rem false [handle.dbLocal] s.asked
  if installed.isSome then (0, { s with asked })
  else
    (-1, { s with
      asked
      data := s.data ++ [miss] })

/-- One round of the loop in `_alpm_resolvedeps`; `resolve` is the recursive call.  If that fails,
or no package is found, an installed package may do instead. -/
def resolveMiss (resolve : Pkg → Resolving → Option (Int × Resolving)) (miss : Depmissing)
    (s : Resolving) : Option (Int × Resolving) :=
  -- one of the packages in the list already satisfies this dependency
  if (findDepSatisfier s.packages miss.depend).isSome then some (0, s)
  else
    match findSpkg handle preferred s.packages miss.depend s.asked with
    | (none, asked) => some (resolveInstalled handle rem miss { s with asked })
    | (some spkg, asked) =>
      match resolve spkg { s with asked } with
      | none => none
      | some (ret, s') =>
        if ret ≠ 0 then some (resolveInstalled handle rem miss s') else some (0, s')

/-- The loop in `_alpm_resolvedeps`. -/
def resolveMisses (resolve : Pkg → Resolving → Option (Int × Resolving)) :
    List Depmissing → Int → Resolving → Option (Int × Resolving)
  | [], ret, s => some (ret, s)
  | miss :: deps, ret, s =>
    match resolveMiss handle preferred rem resolve miss s with
    | none => none
    | some (r, s) => resolveMisses resolve deps (if r = 0 then ret else -1) s

/-- `_alpm_resolvedeps` with a bound on the depth of the recursion.  The package goes on the list
before its dependencies are looked at, which is what ends cycles. -/
def resolvedepsFuel : ℕ → Pkg → Resolving → Option (Int × Resolving)
  | 0, _, _ => none
  | fuel + 1, pkg, s =>
    if (pkgFind s.packages pkg.name).isSome then some (0, s)
    else
      let deps := checkdeps ctx localpkgs rem [pkg] false
      -- the package goes on the list; the list is restored on error
      match resolveMisses handle preferred rem (resolvedepsFuel fuel) deps 0
          { s with packages := s.packages ++ [pkg] } with
      | none => none
      | some (ret, s') =>
        some (ret, if ret = 0 then s' else { s' with packages := s.packages })

/-- The packages that the recursion can choose from. -/
def choosable : List Pkg := preferred ++ handle.dbsSync.flatMap Db.pkgcache

end

/-! ## What the searches find -/

section

variable {handle : Handle} {dep : Depend} {excluding : List Pkg} {prompt : Bool}

/-- A package of the databases that satisfies the dependency and is not excluded.  Whether it is
ignored is another matter, which the search asks about. -/
structure IsCandidate (dep : Depend) (excluding : List Pkg) (dbs : List Db) (pkg : Pkg) :
    Prop where
  mem : pkg ∈ dbs.flatMap Db.pkgcache
  sat : depcmp pkg dep
  notExcluded : pkg.name ∉ excluding.map Pkg.name

theorem resolveLiteral_candidate {dbs : List Db} {asked : ℕ} {pkg : Pkg}
    (h : (resolveLiteral handle dep excluding prompt dbs asked).1 = some pkg) :
    IsCandidate dep excluding dbs pkg := by
  induction dbs generalizing asked with
  | nil => simp [resolveLiteral] at h
  | cons db dbs ih =>
    have hrest : ∀ asked, (resolveLiteral handle dep excluding prompt dbs asked).1 = some pkg →
        IsCandidate dep excluding (db :: dbs) pkg := by
      intro asked h
      obtain ⟨hmem, hsat, hnot⟩ := ih h
      exact ⟨by rw [List.flatMap_cons]; exact List.mem_append_right _ hmem, hsat, hnot⟩
    unfold resolveLiteral at h
    by_cases husage : db.usageInstall || db.usageUpgrade
    · rw [husage, Bool.not_true, if_neg Bool.false_ne_true] at h
      cases hfind : pkgFind db.pkgcache dep.name with
      | none => exact hrest asked (by simpa [hfind] using h)
      | some found =>
        simp only [hfind] at h
        by_cases hfits : depcmpLiteral found dep ∧ (pkgFind excluding found.name).isNone
        · rw [if_pos hfits] at h
          by_cases hinstall : (takesIgnored handle prompt found asked).1
          · obtain rfl : found = pkg := by simpa [hinstall] using h
            refine ⟨?_, depcmp_iff.mpr (Or.inl hfits.1), ?_⟩
            · rw [List.flatMap_cons]
              exact List.mem_append_left _ (pkgFind_eq_some hfind).1
            · exact pkgFind_eq_none.mp (Option.isNone_iff_eq_none.mp hfits.2)
          · exact hrest _ (by simpa [hinstall] using h)
        · rw [if_neg hfits] at h
          exact hrest asked h
    · rw [if_pos (by simpa using husage)] at h
      exact hrest asked h

/-- What the loop returns and collects are providers. -/
theorem resolveProviders_providers (pkgs providers : List Pkg) (asked : ℕ) :
    let result := resolveProviders handle dep excluding prompt pkgs providers asked
    (∀ pkg ∈ result.1, pkg ∈ pkgs ∧ isProvider dep excluding pkg) ∧
      ∀ pkg ∈ result.2.1, pkg ∈ providers ∨ pkg ∈ pkgs ∧ isProvider dep excluding pkg := by
  induction pkgs generalizing providers asked with
  | nil => simp [resolveProviders]
  | cons pkg pkgs ih =>
    unfold resolveProviders
    by_cases hprovider : isProvider dep excluding pkg
    · rw [if_pos hprovider]
      by_cases hinstall : (takesIgnored handle prompt pkg asked).1
      · by_cases hlocal : (pkgFind handle.dbLocal.pkgcache pkg.name).isSome
        · simp [hinstall, hlocal, hprovider]
          tauto
        · obtain ⟨hfirst, hall⟩ := ih (providers ++ [pkg]) (takesIgnored handle prompt pkg asked).2
          simp only [hinstall, hlocal]
          refine ⟨fun q hq => ?_, fun q hq => ?_⟩
          · exact (hfirst q hq).imp_left (List.mem_cons_of_mem _)
          · rcases hall q hq with hq | hq
            · rcases List.mem_append.mp hq with hq | hq
              · exact Or.inl hq
              · obtain rfl := List.mem_singleton.mp hq
                exact Or.inr ⟨List.mem_cons_self .., hprovider⟩
            · exact Or.inr (hq.imp_left (List.mem_cons_of_mem _))
      · obtain ⟨hfirst, hall⟩ := ih providers (takesIgnored handle prompt pkg asked).2
        simp only [hinstall]
        exact ⟨fun q hq => (hfirst q hq).imp_left (List.mem_cons_of_mem _),
          fun q hq => (hall q hq).imp_right fun h => h.imp_left (List.mem_cons_of_mem _)⟩
    · rw [if_neg hprovider]
      obtain ⟨hfirst, hall⟩ := ih providers asked
      exact ⟨fun q hq => (hfirst q hq).imp_left (List.mem_cons_of_mem _),
        fun q hq => (hall q hq).imp_right fun h => h.imp_left (List.mem_cons_of_mem _)⟩

theorem isCandidate_of_isProvider {dbs : List Db} {pkg : Pkg} (hmem : pkg ∈ usablePkgs dbs)
    (h : isProvider dep excluding pkg) : IsCandidate dep excluding dbs pkg := by
  obtain ⟨-, hprovides, hnone⟩ := of_decide_eq_true h
  refine ⟨?_, depcmp_iff.mpr (Or.inr hprovides),
    pkgFind_eq_none.mp (Option.isNone_iff_eq_none.mp hnone)⟩
  obtain ⟨db, hdb, hpkg⟩ := List.mem_flatMap.mp hmem
  exact List.mem_flatMap.mpr ⟨db, (List.mem_filter.mp hdb).1, hpkg⟩

/-- **`resolvedep`** finds a package of the databases that satisfies the dependency and is
not excluded. -/
theorem resolvedep_candidate {dbs : List Db} {asked : ℕ} {pkg : Pkg}
    (h : (resolvedep handle dep excluding prompt dbs asked).1 = some pkg) :
    IsCandidate dep excluding dbs pkg := by
  unfold resolvedep at h
  have hliteral := @resolveLiteral_candidate handle dep excluding prompt dbs asked
  rcases hlit : resolveLiteral handle dep excluding prompt dbs asked with ⟨_ | literal, asked'⟩
  · have hproviders := @resolveProviders_providers handle dep excluding prompt (usablePkgs dbs)
      [] asked'
    rcases hpro : resolveProviders handle dep excluding prompt (usablePkgs dbs) [] asked' with
      ⟨_ | installed, providers, asked''⟩
    · simp only [hlit, hpro] at h hproviders
      have hpkg : pkg ∈ providers := by
        split_ifs at h
        · exact List.mem_of_getElem? h
        · exact List.mem_of_getElem? h
      rcases hproviders.2 pkg hpkg with hnil | ⟨hmem, hprovider⟩
      · exact absurd hnil List.not_mem_nil
      · exact isCandidate_of_isProvider hmem hprovider
    · simp only [hlit, hpro, Option.some.injEq] at h hproviders
      obtain ⟨hmem, hprovider⟩ := hproviders.1 pkg (congrArg some h)
      exact isCandidate_of_isProvider hmem hprovider
  · rw [hlit] at h hliteral
    exact hliteral h

end

theorem findSpkg_eq_some {handle : Handle} {preferred packages : List Pkg} {missdep : Depend}
    {asked : ℕ} {spkg : Pkg}
    (h : (findSpkg handle preferred packages missdep asked).1 = some spkg) :
    spkg ∈ choosable handle preferred ∧ depcmp spkg missdep := by
  unfold findSpkg at h
  cases hfind : findDepSatisfier preferred missdep with
  | none =>
    have hcandidate := resolvedep_candidate (by simpa [hfind] using h)
    exact ⟨List.mem_append_right _ hcandidate.mem, hcandidate.sat⟩
  | some found =>
    obtain rfl : found = spkg := by simpa [hfind] using h
    obtain ⟨hmem, hsat⟩ := findDepSatisfier_eq_some hfind
    exact ⟨List.mem_append_left _ hmem, hsat⟩

/-! ## What a call leaves behind -/

/-- The list only grows, at its end and by packages with new names, and nothing is taken out of
`*data`. -/
structure Grown (s s' : Resolving) : Prop where
  packages : ∃ added, s'.packages = s.packages ++ added ∧ (added.map Pkg.name).Nodup ∧
    ∀ q ∈ added, q.name ∉ s.packages.map Pkg.name
  data : s.data.length ≤ s'.data.length

namespace Grown

variable {s s' s'' : Resolving}

theorem packages_subset (h : Grown s s') : s.packages ⊆ s'.packages := by
  obtain ⟨added, hadded, -⟩ := h.packages
  rw [hadded]
  exact List.subset_append_left _ _

/-- A change that leaves the list alone. -/
theorem of_same (hpackages : s'.packages = s.packages)
    (hdata : s.data.length ≤ s'.data.length) : Grown s s' :=
  ⟨⟨[], by simp [hpackages], by simp, by simp⟩, hdata⟩

theorem refl (s : Resolving) : Grown s s := of_same rfl le_rfl

theorem trans (h : Grown s s') (h' : Grown s' s'') : Grown s s'' where
  packages := by
    obtain ⟨added, hadded, hnodup, hnew⟩ := h.packages
    obtain ⟨added', hadded', hnodup', hnew'⟩ := h'.packages
    rw [hadded] at hnew'
    refine ⟨added ++ added', by rw [hadded', hadded, List.append_assoc], ?_, ?_⟩
    · rw [List.map_append]
      refine List.nodup_append.mpr ⟨hnodup, hnodup', ?_⟩
      rintro name hname name' hname' rfl
      obtain ⟨q, hq, rfl⟩ := List.mem_map.mp hname'
      refine hnew' q hq ?_
      rw [List.map_append]
      exact List.mem_append_right _ hname
    · intro q hq
      rcases List.mem_append.mp hq with hq | hq
      · exact hnew q hq
      · intro hin
        refine hnew' q hq ?_
        rw [List.map_append]
        exact List.mem_append_left _ hin
  data := h.data.trans h'.data

/-- The package that a call puts on the list before its loop. -/
theorem of_push {pkg : Pkg} (hnew : pkg.name ∉ s.packages.map Pkg.name)
    (h : Grown { s with packages := s.packages ++ [pkg] } s') : Grown s s' := by
  have hpush : Grown s { s with packages := s.packages ++ [pkg] } :=
    ⟨⟨[pkg], rfl, by simp, by simpa using hnew⟩, le_rfl⟩
  exact hpush.trans h

end Grown

/-- What a call of `_alpm_resolvedeps` does: it returns 0 or -1, the list grows by packages of new
names, on success it has the package, and on failure it is what it was and `*data` has one more
entry at least. -/
structure Resolves (pkg : Pkg) (s : Resolving) (ret : Int) (s' : Resolving) : Prop where
  code : ret = 0 ∨ ret = -1
  grown : Grown s s'
  pulled : ret = 0 → pkg.name ∉ s.packages.map Pkg.name → pkg ∈ s'.packages
  failed : ret ≠ 0 → s'.packages = s.packages ∧ s.data.length < s'.data.length

/-- What the loop does for some of the missing dependencies. -/
structure LoopResolves (s : Resolving) (ret : Int) (s' : Resolving) : Prop where
  code : ret = 0 ∨ ret = -1
  grown : Grown s s'
  failed : ret ≠ 0 → s.data.length < s'.data.length

section

variable {handle : Handle} {ctx : DepContext} {localpkgs preferred rem : List Pkg}
variable {s s' : Resolving}

theorem resolveInstalled_spec (miss : Depmissing) (t : Resolving) :
    LoopResolves t (resolveInstalled handle rem miss t).1
        (resolveInstalled handle rem miss t).2 ∧
      (resolveInstalled handle rem miss t).2.packages = t.packages := by
  unfold resolveInstalled
  rcases resolvedep handle miss.depend rem false [handle.dbLocal] t.asked with
    ⟨_ | installed, asked⟩
  · exact ⟨⟨Or.inr rfl, .of_same rfl (by simp), fun _ => by simp⟩, rfl⟩
  · exact ⟨⟨Or.inl rfl, .of_same rfl le_rfl, by simp⟩, rfl⟩

/-- One round, if the recursive call does what it should. -/
theorem resolveMiss_spec {resolve : Pkg → Resolving → Option (Int × Resolving)}
    (hresolve : ∀ spkg s ret s', resolve spkg s = some (ret, s') → Resolves spkg s ret s')
    {miss : Depmissing} {ret : Int}
    (h : resolveMiss handle preferred rem resolve miss s = some (ret, s')) :
    LoopResolves s ret s' := by
  unfold resolveMiss at h
  by_cases hsat : (findDepSatisfier s.packages miss.depend).isSome
  · rw [if_pos hsat] at h
    obtain ⟨rfl, rfl⟩ := Prod.mk.inj (Option.some.inj h)
    exact ⟨Or.inl rfl, .refl _, by simp⟩
  rw [if_neg hsat] at h
  rcases hspkg : findSpkg handle preferred s.packages miss.depend s.asked with ⟨_ | spkg, asked⟩
  · simp only [hspkg, Option.some.injEq] at h
    have hinstalled := (@resolveInstalled_spec handle rem miss { s with asked }).1
    rw [h] at hinstalled
    exact ⟨hinstalled.code, ⟨hinstalled.grown.packages, hinstalled.grown.data⟩, hinstalled.failed⟩
  simp only [hspkg] at h
  rcases hcall : resolve spkg { s with asked } with _ | ⟨r, t⟩
  · simp [hcall] at h
  have hresolves := hresolve _ _ _ _ hcall
  have hgrown : Grown s t := ⟨hresolves.grown.packages, hresolves.grown.data⟩
  simp only [hcall] at h
  by_cases hr : r = 0
  · rw [if_neg (not_not_intro hr)] at h
    obtain ⟨rfl, rfl⟩ := Prod.mk.inj (Option.some.inj h)
    exact ⟨Or.inl rfl, hgrown, by simp⟩
  · rw [if_pos hr] at h
    have hinstalled := (@resolveInstalled_spec handle rem miss t).1
    rw [Option.some.inj h] at hinstalled
    refine ⟨hinstalled.code, hgrown.trans hinstalled.grown, fun _ => ?_⟩
    exact (hresolves.failed hr).2.trans_le hinstalled.grown.data

/-- The loop, if the recursive call does what it should. -/
theorem resolveMisses_spec {resolve : Pkg → Resolving → Option (Int × Resolving)}
    (hresolve : ∀ spkg s ret s', resolve spkg s = some (ret, s') → Resolves spkg s ret s')
    {deps : List Depmissing} {start ret : Int} (hstart : start = 0 ∨ start = -1)
    (h : resolveMisses handle preferred rem resolve deps start s = some (ret, s')) :
    (ret = 0 ∨ ret = -1) ∧ Grown s s' ∧
      (start = 0 → ret ≠ 0 → s.data.length < s'.data.length) := by
  induction deps generalizing start s with
  | nil =>
    obtain ⟨rfl, rfl⟩ := Prod.mk.inj (Option.some.inj h)
    exact ⟨hstart, .refl _, fun hzero hne => absurd hzero hne⟩
  | cons miss deps ih =>
    unfold resolveMisses at h
    rcases hround : resolveMiss handle preferred rem resolve miss s with _ | ⟨r, t⟩
    · simp [hround] at h
    simp only [hround] at h
    have hmiss := resolveMiss_spec hresolve hround
    by_cases hr : r = 0
    · rw [if_pos hr] at h
      obtain ⟨hret, hgrown, hfailed⟩ := ih hstart h
      exact ⟨hret, hmiss.grown.trans hgrown, fun hzero hne =>
        hmiss.grown.data.trans_lt (hfailed hzero hne)⟩
    · rw [if_neg hr] at h
      obtain ⟨hret, hgrown, -⟩ := ih (Or.inr rfl) h
      exact ⟨hret, hmiss.grown.trans hgrown, fun _ _ =>
        (hmiss.failed hr).trans_le hgrown.data⟩

/-- **A call of `_alpm_resolvedeps`**, however deep the recursion may go.  By induction on the
depth: the loop over the missing dependencies makes calls of which this is known. -/
theorem resolvedepsFuel_spec (fuel : ℕ) {pkg : Pkg} {ret : Int}
    (h : resolvedepsFuel handle ctx localpkgs preferred rem fuel pkg s = some (ret, s')) :
    Resolves pkg s ret s' := by
  induction fuel generalizing pkg ret s s' with
  | zero => simp [resolvedepsFuel] at h
  | succ fuel ih =>
    unfold resolvedepsFuel at h
    by_cases hknown : (pkgFind s.packages pkg.name).isSome
    · rw [if_pos hknown] at h
      obtain ⟨rfl, rfl⟩ := Prod.mk.inj (Option.some.inj h)
      exact ⟨Or.inl rfl, .refl _, fun _ hnew => absurd (pkgFind_isSome.mp hknown) hnew, by simp⟩
    rw [if_neg hknown] at h
    have hnew : pkg.name ∉ s.packages.map Pkg.name := fun hin => hknown (pkgFind_isSome.mpr hin)
    rcases hmisses : resolveMisses handle preferred rem
        (resolvedepsFuel handle ctx localpkgs preferred rem fuel)
        (checkdeps ctx localpkgs rem [pkg] false) 0
        { s with packages := s.packages ++ [pkg] } with _ | ⟨r, t⟩
    · simp [hmisses] at h
    simp only [hmisses, Option.some.injEq, Prod.mk.injEq] at h
    obtain ⟨rfl, hs'⟩ := h
    obtain ⟨hret, hgrown, hfailed⟩ :=
      resolveMisses_spec (fun _ _ _ _ h => ih h) (Or.inl rfl) hmisses
    by_cases hr : r = 0
    · rw [if_pos hr] at hs'
      subst hs' hr
      exact ⟨hret, hgrown.of_push hnew, fun _ _ => hgrown.packages_subset (by simp), by simp⟩
    · rw [if_neg hr] at hs'
      subst hs'
      exact ⟨hret, .of_same rfl hgrown.data, fun h₀ => absurd h₀ hr,
        fun _ => ⟨rfl, hfailed rfl hr⟩⟩

/-! ## The recursion ends -/

variable (handle preferred) in
/-- The packages to choose from whose names are not on the list. -/
def unseen (packages : List Pkg) : List Pkg := notRemoved (choosable handle preferred) packages

theorem length_unseen_append_le (packages added : List Pkg) :
    (unseen handle preferred (packages ++ added)).length ≤
      (unseen handle preferred packages).length := by
  unfold unseen
  rw [notRemoved_append]
  exact List.length_filter_le _ _

theorem resolveMisses_isSome {resolve : Pkg → Resolving → Option (Int × Resolving)} {n : ℕ}
    (hresolve : ∀ spkg s ret s', resolve spkg s = some (ret, s') → Resolves spkg s ret s')
    (htotal : ∀ spkg ∈ choosable handle preferred, ∀ t,
      (unseen handle preferred t.packages).length ≤ n → (resolve spkg t).isSome)
    {deps : List Depmissing} {start : Int} (hn : (unseen handle preferred s.packages).length ≤ n) :
    (resolveMisses handle preferred rem resolve deps start s).isSome := by
  induction deps generalizing start s with
  | nil => rfl
  | cons miss deps ih =>
    unfold resolveMisses
    rcases hround : resolveMiss handle preferred rem resolve miss s with _ | ⟨r, t⟩
    · -- a round only fails to end if the recursive call does
      exfalso
      unfold resolveMiss at hround
      split_ifs at hround
      rcases hspkg : findSpkg handle preferred s.packages miss.depend s.asked with
        ⟨_ | spkg, asked⟩
      · simp [hspkg] at hround
      · have hcall := htotal spkg (findSpkg_eq_some (congrArg Prod.fst hspkg)).1
          { s with asked } hn
        obtain ⟨result, hresult⟩ := Option.isSome_iff_exists.mp hcall
        simp only [hspkg, hresult] at hround
        split_ifs at hround
    · have hmiss := resolveMiss_spec hresolve hround
      obtain ⟨added, hadded, -⟩ := hmiss.grown.packages
      refine ih ?_
      rw [hadded]
      exact (length_unseen_append_le _ _).trans hn

/-- Every call that goes on puts one more of the names on the list. -/
theorem resolvedepsFuel_isSome (fuel : ℕ) {pkg : Pkg} (hpos : 0 < fuel)
    (hfuel : pkg.name ∉ s.packages.map Pkg.name →
      (unseen handle preferred (s.packages ++ [pkg])).length + 1 < fuel) :
    (resolvedepsFuel handle ctx localpkgs preferred rem fuel pkg s).isSome := by
  induction fuel generalizing pkg s with
  | zero => exact absurd hpos (lt_irrefl 0)
  | succ fuel ih =>
    unfold resolvedepsFuel
    by_cases hknown : (pkgFind s.packages pkg.name).isSome
    · rw [if_pos hknown]
      rfl
    rw [if_neg hknown]
    have hlt := hfuel fun hin => hknown (pkgFind_isSome.mpr hin)
    have htotal : ∀ spkg ∈ choosable handle preferred, ∀ t : Resolving,
        (unseen handle preferred t.packages).length ≤
          (unseen handle preferred (s.packages ++ [pkg])).length →
        (resolvedepsFuel handle ctx localpkgs preferred rem fuel spkg t).isSome := by
      intro spkg hspkg t ht
      refine ih (by omega) fun hnew => ?_
      have hless := @length_notRemoved_lt _ _ [spkg] _ (mem_notRemoved.mpr ⟨hspkg, hnew⟩) (by simp)
      unfold unseen at ht hlt ⊢
      omega
    have hmisses : (resolveMisses handle preferred rem
        (resolvedepsFuel handle ctx localpkgs preferred rem fuel)
        (checkdeps ctx localpkgs rem [pkg] false) 0
        { s with packages := s.packages ++ [pkg] }).isSome :=
      resolveMisses_isSome (fun _ _ _ _ h => resolvedepsFuel_spec fuel h) htotal le_rfl
    obtain ⟨result, hresult⟩ := Option.isSome_iff_exists.mp hmisses
    simp [hresult]

variable (handle ctx localpkgs preferred rem) in
theorem resolvedeps_ends (pkg : Pkg) (s : Resolving) :
    (resolvedepsFuel handle ctx localpkgs preferred rem
      ((choosable handle preferred).length + 2) pkg s).isSome := by
  refine resolvedepsFuel_isSome _ (by omega) fun _ => ?_
  have hle : (unseen handle preferred (s.packages ++ [pkg])).length ≤
      (choosable handle preferred).length := List.length_filter_le _ _
  omega

/-- More of the recursive calls that end do not change a loop that ended. -/
theorem resolveMisses_mono {resolve resolve' : Pkg → Resolving → Option (Int × Resolving)}
    (hmono : ∀ spkg t result, resolve spkg t = some result → resolve' spkg t = some result)
    {deps : List Depmissing} {start : Int} {result : Int × Resolving}
    (h : resolveMisses handle preferred rem resolve deps start s = some result) :
    resolveMisses handle preferred rem resolve' deps start s = some result := by
  induction deps generalizing start s with
  | nil => exact h
  | cons miss deps ih =>
    unfold resolveMisses at h ⊢
    rcases hround : resolveMiss handle preferred rem resolve miss s with _ | ⟨r, t⟩
    · simp [hround] at h
    have hround' : resolveMiss handle preferred rem resolve' miss s = some (r, t) := by
      unfold resolveMiss at hround ⊢
      split_ifs at hround ⊢ with hsat
      · exact hround
      · rcases hspkg : findSpkg handle preferred s.packages miss.depend s.asked with
          ⟨_ | spkg, asked⟩
        · simpa only [hspkg] using hround
        · rcases hcall : resolve spkg { s with asked } with _ | called
          · simp [hspkg, hcall] at hround
          · have hcall' := hmono _ _ _ hcall
            simp only [hspkg, hcall] at hround
            simpa only [hspkg, hcall'] using hround
    rw [hround] at h
    rw [hround']
    exact ih h

/-- A call that ended within some depth ends the same way within a larger one. -/
theorem resolvedepsFuel_mono {fuel fuel' : ℕ} (hle : fuel ≤ fuel') {pkg : Pkg}
    {result : Int × Resolving}
    (h : resolvedepsFuel handle ctx localpkgs preferred rem fuel pkg s = some result) :
    resolvedepsFuel handle ctx localpkgs preferred rem fuel' pkg s = some result := by
  induction fuel generalizing fuel' pkg s result with
  | zero => simp [resolvedepsFuel] at h
  | succ fuel ih =>
    obtain ⟨fuel', rfl⟩ : ∃ n, fuel' = n + 1 := ⟨fuel' - 1, by omega⟩
    unfold resolvedepsFuel at h ⊢
    by_cases hknown : (pkgFind s.packages pkg.name).isSome
    · rwa [if_pos hknown] at h ⊢
    rw [if_neg hknown] at h ⊢
    rcases hmisses : resolveMisses handle preferred rem
        (resolvedepsFuel handle ctx localpkgs preferred rem fuel)
        (checkdeps ctx localpkgs rem [pkg] false) 0
        { s with packages := s.packages ++ [pkg] } with _ | after
    · simp [hmisses] at h
    have hle : fuel ≤ fuel' := by omega
    have hmisses' := resolveMisses_mono (fun _ _ _ hcall => ih hle hcall) hmisses
    simp only [hmisses] at h
    simpa only [hmisses'] using h

variable (handle ctx localpkgs preferred rem) in
/-- **Resolution ends and only extends the list**: a depth that the number of packages to choose
from bounds is enough, and on error the list is what it was.  A call that calls itself has added its
package to the list before, and the names on the list are distinct, so the depth is bounded by what
is left to choose. -/
theorem resolvedeps_extends (pkg : Pkg) (s : Resolving) :
    ∃ ret s',
      (∀ fuel, (choosable handle preferred).length + 2 ≤ fuel →
        resolvedepsFuel handle ctx localpkgs preferred rem fuel pkg s = some (ret, s')) ∧
      (ret = 0 ∨ ret = -1) ∧
      (ret = -1 → s'.packages = s.packages) ∧
      (ret = 0 → ∃ added, s'.packages = s.packages ++ added ∧
        (added.map Pkg.name).Nodup ∧ ∀ q ∈ added, q.name ∉ s.packages.map Pkg.name) := by
  obtain ⟨⟨ret, s'⟩, hresult⟩ := Option.isSome_iff_exists.mp
    (resolvedeps_ends handle ctx localpkgs preferred rem pkg s)
  have hspec := resolvedepsFuel_spec _ hresult
  refine ⟨ret, s', fun fuel hle => resolvedepsFuel_mono hle hresult, hspec.code, ?_, ?_⟩
  · intro hret
    exact (hspec.failed (by omega)).1
  · intro _
    exact hspec.grown.packages

end

/-- `_alpm_resolvedeps`: the return value and what it leaves behind. -/
def resolvedeps (handle : Handle) (ctx : DepContext) (localpkgs preferred rem : List Pkg)
    (pkg : Pkg) (s : Resolving) : Int × Resolving :=
  (resolvedepsFuel handle ctx localpkgs preferred rem
    ((choosable handle preferred).length + 2) pkg s).get
      (resolvedeps_ends handle ctx localpkgs preferred rem pkg s)

/-- **`_alpm_resolvedeps`** extends the list or reports what is missing. -/
theorem resolvedeps_spec (handle : Handle) (ctx : DepContext) (localpkgs preferred rem : List Pkg)
    (pkg : Pkg) (s : Resolving) :
    Resolves pkg s (resolvedeps handle ctx localpkgs preferred rem pkg s).1
      (resolvedeps handle ctx localpkgs preferred rem pkg s).2 :=
  resolvedepsFuel_spec _ (Option.some_get _).symm

end Alpm.Sync
