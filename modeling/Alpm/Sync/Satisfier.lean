import Alpm.Sync.Resolvedeps
import Alpm.Deps.Depstring

/-!
# Searching the databases for a satisfier

`alpm_find_dbs_satisfier` against `_alpm_depcmp`.

`resolvedep` makes two passes.  The first tries the packages that bear the name of the dependency,
by name and version only; the second looks for provisions, in all packages of another name.  In
either pass a package that is ignored is taken only if the user says so, and so the search counts
the questions it has asked.

The two passes should find a package whenever `_alpm_depcmp` accepts one.  But a package that bears
the name, has another version, and provides the version that is asked for is found by neither pass:
it is no literal match, and the second pass leaves it out because of its name.

`findDbsSatisfier_agrees_iff` says that this is the only gap.  `candidates` are the packages that
the passes look at in turn; the search agrees with `_alpm_depcmp` unless a package that is not
ignored satisfies the dependency, and every candidate is ignored and declined.  The condition is on
the databases, the ignore settings and the answers.
-/

namespace Alpm.Sync

/-- `alpm_find_dbs_satisfier`: the package and the number of questions so far. -/
def findDbsSatisfier (handle : Handle) (dbs : List Db) (depstring : CString) (asked : ℕ) :
    Option Pkg × ℕ :=
  if dbs.isEmpty then (none, asked)
  else resolvedep handle (depFromString depstring) [] true dbs asked

/-! ## Statements -/

/-- The packages that the two passes of the search look at, in turn. -/
def candidates (dep : Depend) (pkgs : List Pkg) : List Pkg :=
  pkgs.filter (depcmpLiteral · dep) ++ pkgs.filter (isProvider dep [])

/-- The question for a provider is answered with the index of one of the providers.  The code takes
any number for one, and with an index that is too large the search returns no package. -/
def IndexInRange (handle : Handle) (dep : Depend) (dbs : List Db) (asked : ℕ) : Prop :=
  ∀ literal asked' providers asked'',
    resolveLiteral handle dep [] true dbs asked = (literal, asked') →
    resolveProviders handle dep [] true (usablePkgs dbs) [] asked' = (none, providers, asked'') →
    1 < providers.length →
    0 ≤ handle.answer asked'' ∧ handle.answer asked'' < providers.length

/-- A search agrees with `_alpm_depcmp` on the packages of the databases that are searched: what it
finds satisfies the dependency, and it finds something if a package that is not ignored does. -/
structure SearchAgrees (handle : Handle) (dbs : List Db) (dep : Depend) (found : Option Pkg) :
    Prop where
  complete : (∃ p ∈ usablePkgs dbs, depcmp p dep ∧ handle.pkgShouldIgnore p = false) →
    found.isSome
  sound : ∀ pkg ∈ found, pkg ∈ usablePkgs dbs ∧ depcmp pkg dep

/-! ## Taking the first package -/

section

variable {handle : Handle} {dep : Depend} {dbs : List Db} {asked : ℕ}

/-- Every one of the packages is ignored, and the user wants none of them. -/
def Declined (handle : Handle) (pkgs : List Pkg) (asked : ℕ) : Prop :=
  (∀ p ∈ pkgs, handle.pkgShouldIgnore p) ∧ ∀ k < pkgs.length, handle.answer (asked + k) = 0

theorem add_length_succ {α : Type*} (asked : ℕ) (l : List α) :
    asked + (l.length + 1) = asked + 1 + l.length := by
  omega

theorem declined_nil : Declined handle [] asked := by
  constructor <;> simp

/-- A package is taken, or it is ignored and the user does not want it. -/
theorem takesIgnored_fst {pkg : Pkg} :
    (takesIgnored handle true pkg asked).1 = false ↔
      handle.pkgShouldIgnore pkg ∧ handle.answer asked = 0 := by
  by_cases hignore : handle.pkgShouldIgnore pkg
  · simp [takesIgnored, hignore]
  · simp [takesIgnored, hignore]

theorem takesIgnored_of_not {pkg : Pkg}
    (h : (takesIgnored handle true pkg asked).1 = false) :
    takesIgnored handle true pkg asked = (false, asked + 1) := by
  obtain ⟨hignore, hanswer⟩ := takesIgnored_fst.mp h
  simp [takesIgnored, hignore, hanswer]

theorem declined_cons {pkg : Pkg} {pkgs : List Pkg} :
    Declined handle (pkg :: pkgs) asked ↔
      (takesIgnored handle true pkg asked).1 = false ∧ Declined handle pkgs (asked + 1) := by
  rw [takesIgnored_fst]
  constructor
  · rintro ⟨hignore, hanswer⟩
    refine ⟨⟨hignore pkg (List.mem_cons_self ..), hanswer 0 (Nat.succ_pos _)⟩,
      fun p hp => hignore p (List.mem_cons_of_mem _ hp), fun k hk => ?_⟩
    have h := hanswer (k + 1) (Nat.succ_lt_succ hk)
    rwa [Nat.add_comm k, ← Nat.add_assoc] at h
  · rintro ⟨⟨hpkg, hzero⟩, hignore, hanswer⟩
    refine ⟨List.forall_mem_cons.mpr ⟨hpkg, hignore⟩, fun k hk => ?_⟩
    cases k with
    | zero => exact hzero
    | succ k =>
      have h := hanswer k (Nat.lt_of_succ_lt_succ hk)
      rwa [Nat.add_assoc, Nat.add_comm 1] at h

theorem declined_append {pkgs pkgs' : List Pkg} :
    Declined handle (pkgs ++ pkgs') asked ↔
      Declined handle pkgs asked ∧ Declined handle pkgs' (asked + pkgs.length) := by
  induction pkgs generalizing asked with
  | nil => simp [declined_nil]
  | cons pkg pkgs ih =>
    rw [List.cons_append, declined_cons, ih, declined_cons, List.length_cons, add_length_succ,
      and_assoc]

/-! ## The literals -/

theorem usablePkgs_cons_of_not {db : Db} (h : (db.usageInstall || db.usageUpgrade) = false) :
    usablePkgs (db :: dbs) = usablePkgs dbs := by
  simp [usablePkgs, h]

theorem usablePkgs_cons {db : Db} (h : (db.usageInstall || db.usageUpgrade) = true) :
    usablePkgs (db :: dbs) = db.pkgcache ++ usablePkgs dbs := by
  simp [usablePkgs, h]

/-- A database with unique names has at most one literal match, the one the search finds. -/
theorem filter_literal_of_pkgFind {pkgs : List Pkg} (hunique : (pkgs.map Pkg.name).Nodup) :
    pkgs.filter (depcmpLiteral · dep) =
      match pkgFind pkgs dep.name with
      | none => []
      | some pkg => if depcmpLiteral pkg dep then [pkg] else [] := by
  induction pkgs with
  | nil => rfl
  | cons pkg pkgs ih =>
    rw [List.map_cons, List.nodup_cons] at hunique
    rw [pkgFind_eq_find?, List.find?_cons] at *
    by_cases hname : pkg.name = dep.name
    · have hrest : pkgs.filter (depcmpLiteral · dep) = [] := by
        refine List.filter_eq_nil_iff.mpr fun q hq hlit => hunique.1 ?_
        rw [hname, ← (depcmpLiteral_iff.mp hlit).1]
        exact List.mem_map_of_mem hq
      rw [List.filter_cons, hrest]
      simp [hname]
    · have hnot : depcmpLiteral pkg dep = false := by
        by_contra hlit
        exact hname (depcmpLiteral_iff.mp (by simpa using hlit)).1
      rw [List.filter_cons_of_neg (by simp [hnot]), ih hunique.2]
      simp [hname]

/-- The first pass finds nothing exactly when all literal matches are declined. -/
theorem resolveLiteral_spec (hunique : ∀ db ∈ dbs, (db.pkgcache.map Pkg.name).Nodup) :
    let literals := (usablePkgs dbs).filter (depcmpLiteral · dep)
    (Declined handle literals asked →
      resolveLiteral handle dep [] true dbs asked = (none, asked + literals.length)) ∧
    (¬ Declined handle literals asked →
      (resolveLiteral handle dep [] true dbs asked).1.isSome) := by
  induction dbs generalizing asked with
  | nil => simp [resolveLiteral, usablePkgs, declined_nil]
  | cons db dbs ih =>
    have hrest := fun asked => @ih asked fun d hd => hunique d (List.mem_cons_of_mem _ hd)
    unfold resolveLiteral
    by_cases husage : (db.usageInstall || db.usageUpgrade) = true
    · rw [usablePkgs_cons husage, List.filter_append,
        filter_literal_of_pkgFind (hunique db (List.mem_cons_self ..)), husage]
      rw [if_neg (by simp)]
      cases hfind : pkgFind db.pkgcache dep.name with
      | none => simpa using hrest asked
      | some pkg =>
        by_cases hlit : depcmpLiteral pkg dep
        · have hfits : depcmpLiteral pkg dep ∧ (pkgFind [] pkg.name).isNone := ⟨hlit, rfl⟩
          simp only [if_pos hfits, if_pos hlit, List.singleton_append, List.length_cons]
          rw [declined_cons]
          by_cases htakes : (takesIgnored handle true pkg asked).1
          · simp [htakes]
          · have hnot := takesIgnored_of_not (by simpa using htakes)
            rw [hnot, add_length_succ]
            simpa using hrest (asked + 1)
        · simpa [hlit] using hrest asked
    · have hnot : (db.usageInstall || db.usageUpgrade) = false := by simpa using husage
      rw [usablePkgs_cons_of_not hnot, hnot]
      exact hrest asked

/-! ## The providers -/

/-- The second pass only ever adds to the providers. -/
theorem length_le_resolveProviders (pkgs providers : List Pkg) :
    providers.length ≤
      (resolveProviders handle dep [] true pkgs providers asked).2.1.length := by
  induction pkgs generalizing providers asked with
  | nil => exact le_rfl
  | cons pkg pkgs ih =>
    unfold resolveProviders
    dsimp only
    split_ifs
    · exact ih providers
    · exact le_rfl
    · have hlonger := @ih (takesIgnored handle true pkg asked).2 (providers ++ [pkg])
      rw [List.length_append] at hlonger
      exact (Nat.le_add_right _ _).trans hlonger
    · exact ih providers

/-- The second pass finds nothing and collects nothing exactly when all providers are
declined. -/
theorem resolveProviders_spec (pkgs providers : List Pkg) :
    let provided := pkgs.filter (isProvider dep [])
    let result := resolveProviders handle dep [] true pkgs providers asked
    (Declined handle provided asked → result = (none, providers, asked + provided.length)) ∧
    (¬ Declined handle provided asked →
      result.1.isSome ∨ providers.length < result.2.1.length) := by
  induction pkgs generalizing providers asked with
  | nil => simp [resolveProviders, declined_nil]
  | cons pkg pkgs ih =>
    unfold resolveProviders
    by_cases hprovider : isProvider dep [] pkg
    · rw [List.filter_cons_of_pos hprovider, if_pos hprovider]
      dsimp only
      rw [declined_cons, List.length_cons]
      by_cases htakes : (takesIgnored handle true pkg asked).1
      · have htaken := @length_le_resolveProviders handle dep
          (takesIgnored handle true pkg asked).2 pkgs (providers ++ [pkg])
        rw [List.length_append, List.length_singleton] at htaken
        simp only [htakes, Bool.true_eq_false, false_and, false_implies, true_and,
          not_false_eq_true, true_implies, Bool.not_true]
        rw [if_neg Bool.false_ne_true]
        split_ifs
        · exact Or.inl rfl
        · exact Or.inr htaken
      · have hnot := takesIgnored_of_not (by simpa using htakes)
        rw [hnot, add_length_succ]
        simpa using @ih (asked + 1) providers
    · rw [List.filter_cons_of_neg hprovider, if_neg hprovider]
      exact ih providers

/-! ## The search -/

/-- **The search finds nothing** exactly when everything that its passes look at is ignored and the
user wants none of it.  The candidates of the first pass come first, and so do the questions about
them. -/
theorem resolvedep_eq_none_iff (hunique : ∀ db ∈ dbs, (db.pkgcache.map Pkg.name).Nodup)
    (hindex : IndexInRange handle dep dbs asked) :
    (resolvedep handle dep [] true dbs asked).1 = none ↔
      Declined handle (candidates dep (usablePkgs dbs)) asked := by
  obtain ⟨hnone, hsome⟩ := @resolveLiteral_spec handle dep dbs asked hunique
  unfold candidates
  rw [declined_append]
  by_cases hliterals : Declined handle ((usablePkgs dbs).filter (depcmpLiteral · dep)) asked
  · have hlit := hnone hliterals
    generalize asked + ((usablePkgs dbs).filter (depcmpLiteral · dep)).length = asked' at hlit ⊢
    obtain ⟨hnone', hsome'⟩ := @resolveProviders_spec handle dep asked' (usablePkgs dbs) []
    unfold resolvedep
    simp only [hlit]
    by_cases hdeclined : Declined handle ((usablePkgs dbs).filter (isProvider dep [])) asked'
    · simp [hnone' hdeclined, hliterals, hdeclined]
    · refine iff_of_false ?_ fun h => hdeclined h.2
      rcases hpro : resolveProviders handle dep [] true (usablePkgs dbs) [] asked' with
        ⟨_ | installed, providers, asked''⟩
      · -- some providers were collected, and the answer is one of them
        have hfound : 0 < providers.length := by
          have h := hsome' hdeclined
          rw [hpro] at h
          simpa using h
        by_cases hmany : 1 < providers.length
        · obtain ⟨hlower, hupper⟩ := hindex none asked' providers asked'' hlit hpro hmany
          have hlt : (handle.answer asked'').toNat < providers.length := by omega
          simp [hmany, hlower, List.getElem?_eq_getElem hlt]
        · simp [hmany, List.getElem?_eq_getElem hfound]
      · simp
  · refine iff_of_false ?_ fun h => hliterals h.1
    obtain ⟨pkg, hpkg⟩ := Option.isSome_iff_exists.mp (hsome hliterals)
    unfold resolvedep
    rcases hlit : resolveLiteral handle dep [] true dbs asked with ⟨literal, asked'⟩
    rw [hlit] at hpkg
    subst hpkg
    simp

theorem resolveLiteral_filter (excluding : List Pkg) (prompt : Bool) :
    resolveLiteral handle dep excluding prompt
        (dbs.filter fun db => db.usageInstall || db.usageUpgrade) asked =
      resolveLiteral handle dep excluding prompt dbs asked := by
  induction dbs generalizing asked with
  | nil => rfl
  | cons db dbs ih =>
    rw [List.filter_cons]
    by_cases husage : (db.usageInstall || db.usageUpgrade) = true
    · rw [if_pos husage]
      unfold resolveLiteral
      simp only [ih]
    · rw [if_neg husage, ih, resolveLiteral]
      simp [husage]

/-- What the search finds is in a database that may be searched. -/
theorem resolvedep_usable {excluding : List Pkg} {prompt : Bool} {pkg : Pkg}
    (h : (resolvedep handle dep excluding prompt dbs asked).1 = some pkg) :
    pkg ∈ usablePkgs dbs ∧ depcmp pkg dep := by
  have hfilter : resolvedep handle dep excluding prompt
      (dbs.filter fun db => db.usageInstall || db.usageUpgrade) asked =
        resolvedep handle dep excluding prompt dbs asked := by
    unfold resolvedep
    rw [resolveLiteral_filter]
    simp [usablePkgs]
  rw [← hfilter] at h
  have hcandidate := resolvedep_candidate h
  exact ⟨hcandidate.mem, hcandidate.sat⟩

/-- **When the search agrees with `_alpm_depcmp`.**  It does unless nothing that satisfies the
dependency literally or bears another name is left: then a package of that name which provides the
version itself is overlooked.  What the search does return is always a candidate, so only a search
that finds nothing can be wrong. -/
theorem findDbsSatisfier_agrees_iff (depstring : CString)
    (hunique : ∀ db ∈ dbs, (db.pkgcache.map Pkg.name).Nodup)
    (hindex : IndexInRange handle (depFromString depstring) dbs asked) :
    SearchAgrees handle dbs (depFromString depstring)
        (findDbsSatisfier handle dbs depstring asked).1 ↔
      ((∃ p ∈ usablePkgs dbs, depcmp p (depFromString depstring) ∧
          handle.pkgShouldIgnore p = false) →
        (∃ p ∈ candidates (depFromString depstring) (usablePkgs dbs),
          handle.pkgShouldIgnore p = false) ∨
        ∃ k < (candidates (depFromString depstring) (usablePkgs dbs)).length,
          handle.answer (asked + k) ≠ 0) := by
  have hsearch : findDbsSatisfier handle dbs depstring asked =
      resolvedep handle (depFromString depstring) [] true dbs asked := by
    cases dbs with
    | nil => rfl
    | cons db dbs => rfl
  have hnone := resolvedep_eq_none_iff hunique hindex
  have hfound : (findDbsSatisfier handle dbs depstring asked).1.isSome ↔
      (∃ p ∈ candidates (depFromString depstring) (usablePkgs dbs),
        handle.pkgShouldIgnore p = false) ∨
      ∃ k < (candidates (depFromString depstring) (usablePkgs dbs)).length,
        handle.answer (asked + k) ≠ 0 := by
    rw [hsearch, ← not_iff_not, Option.not_isSome_iff_eq_none, hnone, Declined]
    push Not
    simp
  constructor
  · intro h hsat
    exact hfound.mp (h.complete hsat)
  · intro h
    refine ⟨fun hsat => hfound.mpr (h hsat), fun pkg hpkg => ?_⟩
    rw [hsearch] at hpkg
    exact resolvedep_usable hpkg

/-! ## A package that provides another version of itself -/

/-- A repository with `foo` 1, which provides `foo=2`. -/
def selfProvidingDbs : List Db :=
  [{ treename := str "core"
     pkgcache := [
      { name := str "foo"
        version := str "1"
        provides := [
          { name := str "foo"
            version := some (str "2")
            mod := .eq }] }] }]

/-- Nothing is installed, and nothing is ignored. -/
def emptyHandle : Handle :=
  { dbLocal :=
      { treename := str "local"
        pkgcache := [] }
    dbsSync := selfProvidingDbs
    fnmatch := fun _ _ => false
    answer := fun _ => 0 }

/-- The second pass does not look at `foo`. -/
theorem indexInRange_selfProviding {dep : Depend} (hname : dep.name = str "foo") :
    IndexInRange emptyHandle dep selfProvidingDbs 0 := by
  intro literal asked' providers asked'' hlit hpro hmany
  have hnot : ∀ pkg ∈ usablePkgs selfProvidingDbs, ¬ isProvider dep [] pkg := by
    intro pkg hpkg
    have hfoo : pkg.name = dep.name := by
      rw [hname]
      revert pkg
      decide +kernel
    simp [isProvider, Pkg.nameHash, Depend.nameHash, hfoo]
  have hproviders := (@resolveProviders_providers emptyHandle dep [] true
    (usablePkgs selfProvidingDbs) [] asked').2
  rw [hpro] at hproviders
  have hmem : providers.head (List.ne_nil_of_length_pos (by omega)) ∈ providers :=
    List.head_mem _
  rcases hproviders _ hmem with hnil | ⟨hin, hprovider⟩
  · exact absurd hnil List.not_mem_nil
  · exact absurd hprovider (hnot _ hin)

theorem findDbsSatisfier_agrees_iff_foo :
    SearchAgrees emptyHandle selfProvidingDbs (depFromString (str "foo>=1"))
        (findDbsSatisfier emptyHandle selfProvidingDbs (str "foo>=1") 0).1 ↔
      ((∃ p ∈ usablePkgs selfProvidingDbs, depcmp p (depFromString (str "foo>=1")) ∧
          emptyHandle.pkgShouldIgnore p = false) →
        (∃ p ∈ candidates (depFromString (str "foo>=1")) (usablePkgs selfProvidingDbs),
          emptyHandle.pkgShouldIgnore p = false) ∨
        ∃ k < (candidates (depFromString (str "foo>=1")) (usablePkgs selfProvidingDbs)).length,
          emptyHandle.answer (0 + k) ≠ 0) :=
  findDbsSatisfier_agrees_iff (str "foo>=1") (by decide)
    (indexInRange_selfProviding (by decide +kernel))

/-- `foo` 1 satisfies `foo>=2` by its provision, and the search does not find it, although
`find_dep_satisfier` does. -/
theorem findDbsSatisfier_skips_foo :
    (∀ db ∈ selfProvidingDbs, (db.pkgcache.map Pkg.name).Nodup) ∧
      IndexInRange emptyHandle (depFromString (str "foo>=2")) selfProvidingDbs 0 ∧
      (findDepSatisfier (usablePkgs selfProvidingDbs) (depFromString (str "foo>=2"))).isSome ∧
      ¬ SearchAgrees emptyHandle selfProvidingDbs (depFromString (str "foo>=2"))
        (findDbsSatisfier emptyHandle selfProvidingDbs (str "foo>=2") 0).1 := by
  refine ⟨by decide, indexInRange_selfProviding (by decide +kernel), by decide +kernel, ?_⟩
  intro h
  have hsat : ∃ p ∈ usablePkgs selfProvidingDbs, depcmp p (depFromString (str "foo>=2")) ∧
      emptyHandle.pkgShouldIgnore p = false := by decide +kernel
  have hfound := h.complete hsat
  revert hfound
  decide +kernel

end

end Alpm.Sync
