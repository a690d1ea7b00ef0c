import Alpm.General.Splits
import Alpm.Sync.Resolvedeps

/-!
# Which resolutions are closed

`_alpm_resolvedeps` returns 0 and promises that the package *and all of its dependencies* are on
the list.  This file says when it keeps the promise, in terms of what the calls find when they are
made, and not of what they return.

## 1.  The calls of a resolution

`resolvedeps_eq` gives the recursion without a bound on its depth: a call puts its package on the
list and goes through the missing dependencies in rounds, and the round for a dependency starts from
what the rounds before it have left (`Opens`).  A round makes a call for the package that is found
for the dependency (`Makes`).  As every call puts a new name on the list first, there is no endless
chain of calls (`wellFounded_makes`), and what follows is proved along these chains.

## 2.  Which calls fail

A call fails when for one of its dependencies nothing on the list is good enough, nothing else can
be resolved, and no installed package is good enough either.  `Fails` is that, as an inductive
predicate: a chain of calls down to a dependency for which no package is found at all, without an
installed package to fall back on at any of its links.  `fails_iff` says that the return value is
-1 exactly then.

## 3.  The short-cut

When a round finds a preferred package, and a package of its name is on the list already, the call
for it returns 0 at once.  But the package on the list may be another version, which does not
satisfy the dependency: nothing on the list does, or the round would have been skipped
(`ShortCut`).  Then only an installed package can, or a package that another call brings in.
`resolvedeps_closed` says that this is the one thing that can go wrong.
-/

namespace Alpm.Sync

/-! ## The search among the installed packages -/

section

variable (handle : Handle) (dep : Depend) (excluding : List Pkg)

theorem resolveLiteral_unprompted (dbs : List Db) (asked : ℕ) :
    resolveLiteral handle dep excluding false dbs asked =
      ((resolveLiteral handle dep excluding false dbs 0).1, asked) := by
  induction dbs with
  | nil => rfl
  | cons db dbs ih =>
    unfold resolveLiteral
    split_ifs
    · exact ih
    cases pkgFind db.pkgcache dep.name with
    | none => exact ih
    | some pkg =>
      simp only [takesIgnored, Bool.false_eq_true, if_false]
      cases handle.pkgShouldIgnore pkg <;> simp only [if_true, Bool.false_eq_true, if_false]
      · split_ifs
        · rfl
        · exact ih
      · split_ifs
        · exact ih
        · exact ih

/-- Among installed packages the first provider is taken, and none is collected. -/
theorem resolveProviders_installed {pkgs : List Pkg} (h : pkgs ⊆ handle.dbLocal.pkgcache)
    (asked : ℕ) : resolveProviders handle dep excluding false pkgs [] asked =
      ((resolveProviders handle dep excluding false pkgs [] 0).1, [], asked) := by
  induction pkgs with
  | nil => rfl
  | cons pkg pkgs ih =>
    obtain ⟨hpkg, hpkgs⟩ := List.cons_subset.mp h
    have hinstalled : (pkgFind handle.dbLocal.pkgcache pkg.name).isSome :=
      pkgFind_isSome.mpr (List.mem_map_of_mem hpkg)
    unfold resolveProviders
    split_ifs
    · simp only [takesIgnored, Bool.false_eq_true, if_false]
      cases handle.pkgShouldIgnore pkg with
      | true => exact ih hpkgs
      | false => rfl
    · exact ih hpkgs

/-- The search for an installed package asks nothing, so what it finds does not depend on how many
questions were asked before. -/
theorem resolvedep_installed (asked : ℕ) :
    resolvedep handle dep excluding false [handle.dbLocal] asked =
      ((resolvedep handle dep excluding false [handle.dbLocal] 0).1, asked) := by
  have husable : usablePkgs [handle.dbLocal] ⊆ handle.dbLocal.pkgcache := by
    intro pkg hpkg
    obtain ⟨db, hdb, hmem⟩ := List.mem_flatMap.mp hpkg
    obtain rfl := List.mem_singleton.mp (List.mem_filter.mp hdb).1
    exact hmem
  unfold resolvedep
  rw [resolveLiteral_unprompted handle dep excluding _ asked]
  rcases hliteral : resolveLiteral handle dep excluding false [handle.dbLocal] 0 with
    ⟨_ | literal, asked₀⟩
  · obtain rfl : asked₀ = 0 := by
      have hasked := congrArg Prod.snd (resolveLiteral_unprompted handle dep excluding
        [handle.dbLocal] 0)
      rw [hliteral] at hasked
      exact hasked
    simp only
    rw [resolveProviders_installed handle dep excluding husable asked]
    rcases hproviders : resolveProviders handle dep excluding false (usablePkgs [handle.dbLocal])
      [] 0 with ⟨_ | installed, providers, asked₁⟩
    · have hnil := congrArg (fun x => x.2.1)
        (resolveProviders_installed handle dep excluding husable 0)
      rw [hproviders] at hnil
      obtain rfl : providers = [] := hnil
      rfl
    · rfl
  · rfl

end

/-! ## The recursion without a bound -/

section

variable (handle : Handle) (ctx : DepContext) (localpkgs preferred rem : List Pkg)

/-- One round of the loop in `_alpm_resolvedeps`, with the recursive call itself. -/
def resolveRound (miss : Depmissing) (s : Resolving) : Int × Resolving :=
  if (findDepSatisfier s.packages miss.depend).isSome then (0, s)
  else
    match findSpkg handle preferred s.packages miss.depend s.asked with
    | (none, asked) => resolveInstalled handle rem miss { s with asked }
    | (some spkg, asked) =>
      let (ret, s') := resolvedeps handle ctx localpkgs preferred rem spkg { s with asked }
      if ret ≠ 0 then resolveInstalled handle rem miss s' else (0, s')

/-- The rounds for some missing dependencies in turn. -/
def resolveRounds (deps : List Depmissing) (state : Int × Resolving) : Int × Resolving :=
  deps.foldl (fun (ret, s) miss =>
    let (r, s) := resolveRound handle ctx localpkgs preferred rem miss s
    (if r = 0 then ret else -1, s)) state

theorem resolveMisses_resolvedeps (deps : List Depmissing) (ret : Int) (s : Resolving) :
    resolveMisses handle preferred rem
        (fun spkg t => some (resolvedeps handle ctx localpkgs preferred rem spkg t)) deps ret s =
      some (resolveRounds handle ctx localpkgs preferred rem deps (ret, s)) := by
  induction deps generalizing ret s with
  | nil => rfl
  | cons miss deps ih =>
    have hround : resolveMiss handle preferred rem
        (fun spkg t => some (resolvedeps handle ctx localpkgs preferred rem spkg t)) miss s =
          some (resolveRound handle ctx localpkgs preferred rem miss s) := by
      unfold resolveMiss resolveRound
      split_ifs
      · rfl
      rcases findSpkg handle preferred s.packages miss.depend s.asked with ⟨_ | spkg, asked⟩
      · rfl
      · simp only
        split_ifs <;> rfl
    unfold resolveMisses
    rw [hround]
    exact ih _ _

/-- **`_alpm_resolvedeps` as it is written**: the package goes on the list, the rounds are run, and
the list is restored if one of them failed.  The model recurses with a depth, and with this equation
the depth is out of the way for good. -/
theorem resolvedeps_eq (pkg : Pkg) (s : Resolving) :
    resolvedeps handle ctx localpkgs preferred rem pkg s =
      if pkg.name ∈ s.packages.map Pkg.name then (0, s)
      else
        let (ret, s') := resolveRounds handle ctx localpkgs preferred rem
          (checkdeps ctx localpkgs rem [pkg] false) (0, { s with packages := s.packages ++ [pkg] })
        (ret, if ret = 0 then s' else { s' with packages := s.packages }) := by
  have hends := (Option.some_get (resolvedeps_ends handle ctx localpkgs preferred rem pkg s)).symm
  have heq : resolvedepsFuel handle ctx localpkgs preferred rem
      ((choosable handle preferred).length + 2) pkg s =
        some (resolvedeps handle ctx localpkgs preferred rem pkg s) := hends
  by_cases hknown : pkg.name ∈ s.packages.map Pkg.name
  · rw [resolvedepsFuel, if_pos (pkgFind_isSome.mpr hknown)] at heq
    rw [if_pos hknown]
    exact (Option.some.inj heq).symm
  · rw [resolvedepsFuel, if_neg (fun h => hknown (pkgFind_isSome.mp h))] at heq
    rw [if_neg hknown]
    simp only at heq
    have hcalls : ∀ spkg t result, resolvedepsFuel handle ctx localpkgs preferred rem
        ((choosable handle preferred).length + 1) spkg t = some result →
          some (resolvedeps handle ctx localpkgs preferred rem spkg t) = some result := by
      intro spkg t result hresult
      have hmore := resolvedepsFuel_mono (Nat.le_succ _) hresult
      rw [← hmore]
      exact Option.some_get _
    rcases hmisses : resolveMisses handle preferred rem
        (resolvedepsFuel handle ctx localpkgs preferred rem
          ((choosable handle preferred).length + 1))
        (checkdeps ctx localpkgs rem [pkg] false) 0
        { s with packages := s.packages ++ [pkg] } with _ | result
    · simp [hmisses] at heq
    have hrounds := resolveMisses_mono hcalls hmisses
    rw [resolveMisses_resolvedeps] at hrounds
    rw [Option.some.inj hrounds]
    simp only [hmisses, Option.some.injEq] at heq
    exact heq.symm

end

/-! ## The calls of a resolution -/

/-- The arguments that all calls of `_alpm_resolvedeps` for one transaction share. -/
structure Resolution where
  handle : Handle
  ctx : DepContext
  localpkgs : List Pkg
  preferred : List Pkg
  rem : List Pkg

/-- A call of `_alpm_resolvedeps`: its package, and the lists when it is made. -/
structure ResolveCall where
  pkg : Pkg
  s : Resolving

namespace Resolution

variable (r : Resolution)

/-- What a call returns and leaves behind. -/
def result (c : ResolveCall) : Int × Resolving :=
  resolvedeps r.handle r.ctx r.localpkgs r.preferred r.rem c.pkg c.s

/-- The missing dependencies of a package. -/
def misses (pkg : Pkg) : List Depmissing := checkdeps r.ctx r.localpkgs r.rem [pkg] false

/-- One round. -/
def round (miss : Depmissing) (s : Resolving) : Int × Resolving :=
  resolveRound r.handle r.ctx r.localpkgs r.preferred r.rem miss s

/-- The rounds of a call for the dependencies `deps`. -/
def rounds (c : ResolveCall) (deps : List Depmissing) : Int × Resolving :=
  resolveRounds r.handle r.ctx r.localpkgs r.preferred r.rem deps
    (0, { c.s with packages := c.s.packages ++ [c.pkg] })

/-- The call comes to the round for the dependency in the state `t`: its package is not on the list
when it is made, and the rounds for the dependencies before have left `t`. -/
def Opens (c : ResolveCall) (miss : Depmissing) (t : Resolving) : Prop :=
  c.pkg.name ∉ c.s.packages.map Pkg.name ∧
    ∃ before after, r.misses c.pkg = before ++ miss :: after ∧ t = (r.rounds c before).2

/-- Nothing on the list satisfies the dependency. -/
def Unsatisfied (miss : Depmissing) (t : Resolving) : Prop :=
  ∀ p ∈ t.packages, depcmp p miss.depend = false

/-- An installed package that is not to be removed is good enough for the dependency.  The search is
the one that the code makes when no package of a repository can be taken. -/
def Installed (dep : Depend) : Prop :=
  (resolvedep r.handle dep r.rem false [r.handle.dbLocal] 0).1.isSome

/-- The package and the number of questions with which a package is looked for. -/
def spkg (miss : Depmissing) (t : Resolving) : Option Pkg × ℕ :=
  findSpkg r.handle r.preferred t.packages miss.depend t.asked

/-- The round makes the call: nothing on the list satisfies the dependency, and the package is
found for it. -/
def Tries (miss : Depmissing) (t : Resolving) (c' : ResolveCall) : Prop :=
  Unsatisfied miss t ∧ ∃ asked, r.spkg miss t = (some c'.pkg, asked) ∧ c'.s = { t with asked }

/-- The call makes the other one in one of its rounds: the state is the one in which the round is
run, and the package the one that the search finds there. -/
def Makes (c c' : ResolveCall) : Prop := ∃ miss t, r.Opens c miss t ∧ r.Tries miss t c'

/-- **Which calls fail**: in some round nothing on the list satisfies the dependency, no installed
package is good enough, and the call for the package that is found for it, if any, fails. -/
inductive Fails : ResolveCall → Prop
  | intro {c : ResolveCall} {miss : Depmissing} {t : Resolving} (hopens : r.Opens c miss t)
      (hunsatisfied : Unsatisfied miss t) (hinstalled : ¬ r.Installed miss.depend)
      (htries : ∀ c', r.Tries miss t c' → Fails c') : Fails c

/-- The call makes the other one, and it does not fail, so that what it has put on the list stays
there as far as this call is concerned. -/
def Keeps (c c' : ResolveCall) : Prop := r.Makes c c' ∧ ¬ r.Fails c'

/-! ## Rounds -/

variable {r}

theorem not_unsatisfied {miss : Depmissing} {t : Resolving} :
    ¬ Unsatisfied miss t ↔ ∃ p ∈ t.packages, depcmp p miss.depend := by
  simp [Unsatisfied]

theorem findDepSatisfier_of_unsatisfied {miss : Depmissing} {t : Resolving} :
    ¬ (findDepSatisfier t.packages miss.depend).isSome ↔ Unsatisfied miss t := by
  rw [findDepSatisfier_isSome, ← not_unsatisfied, not_not]

variable (r) in
/-- What is left to do for a dependency that no package was resolved for. -/
def fallBack (miss : Depmissing) (s : Resolving) : Int × Resolving :=
  if (resolvedep r.handle miss.depend r.rem false [r.handle.dbLocal] 0).1.isSome then (0, s)
  else (-1, { s with data := s.data ++ [miss] })

theorem resolveInstalled_eq (miss : Depmissing) (s : Resolving) :
    resolveInstalled r.handle r.rem miss s = r.fallBack miss s := by
  unfold resolveInstalled fallBack
  rw [resolvedep_installed]

theorem fallBack_packages (miss : Depmissing) (s : Resolving) :
    (r.fallBack miss s).2.packages = s.packages := by
  unfold fallBack
  split_ifs <;> rfl

theorem fallBack_eq_zero {miss : Depmissing} {s : Resolving} :
    (r.fallBack miss s).1 = 0 ↔ r.Installed miss.depend := by
  unfold fallBack Installed
  split_ifs with h <;> simp [h]

theorem fallBack_data {miss : Depmissing} {s : Resolving} :
    (r.fallBack miss s).2.data.length = s.data.length ↔ r.Installed miss.depend := by
  unfold fallBack Installed
  split_ifs with h <;> simp [h]

theorem length_le_fallBack (miss : Depmissing) (s : Resolving) :
    s.data.length ≤ (r.fallBack miss s).2.data.length := by
  unfold fallBack
  split_ifs <;> simp

variable (r) in
/-- **What a round does**: nothing, look for an installed package, or make a call, and look for an
installed package if it fails.  The three cases exclude each other, and the first is the only one
that leaves everything as it is. -/
theorem round_cases (miss : Depmissing) (t : Resolving) :
    (¬ Unsatisfied miss t ∧ r.round miss t = (0, t)) ∨
      (Unsatisfied miss t ∧ ∃ asked, r.spkg miss t = (none, asked) ∧
        r.round miss t = r.fallBack miss { t with asked }) ∨
      ∃ c', r.Tries miss t c' ∧
        ((r.result c').1 = 0 ∧ r.round miss t = r.result c' ∨
          (r.result c').1 ≠ 0 ∧ r.round miss t = r.fallBack miss (r.result c').2) := by
  by_cases hsat : (findDepSatisfier t.packages miss.depend).isSome
  · refine Or.inl ⟨fun hunsat => findDepSatisfier_of_unsatisfied.mpr hunsat hsat, ?_⟩
    rw [round, resolveRound, if_pos hsat]
  have hunsat := findDepSatisfier_of_unsatisfied.mp hsat
  right
  rcases hspkg : r.spkg miss t with ⟨_ | spkg, asked⟩
  · refine Or.inl ⟨hunsat, asked, rfl, ?_⟩
    rw [round, resolveRound, if_neg hsat]
    rw [spkg] at hspkg
    rw [hspkg]
    exact resolveInstalled_eq _ _
  · refine Or.inr ⟨⟨spkg, { t with asked }⟩, ⟨hunsat, asked, hspkg, rfl⟩, ?_⟩
    rw [Resolution.spkg] at hspkg
    have hround : r.round miss t =
        if (r.result ⟨spkg, { t with asked }⟩).1 ≠ 0 then
          r.fallBack miss (r.result ⟨spkg, { t with asked }⟩).2
        else (0, (r.result ⟨spkg, { t with asked }⟩).2) := by
      rw [round, resolveRound, if_neg hsat, hspkg, ← resolveInstalled_eq]
      rfl
    rw [hround]
    by_cases hret : (r.result ⟨spkg, { t with asked }⟩).1 = 0
    · refine Or.inl ⟨hret, ?_⟩
      rw [if_neg (not_not_intro hret), ← hret]
    · exact Or.inr ⟨hret, if_pos hret⟩

theorem Tries.spkg_eq {miss : Depmissing} {t : Resolving} {c' c'' : ResolveCall}
    (h : r.Tries miss t c') (h' : r.Tries miss t c'') : c' = c'' := by
  obtain ⟨-, asked, hspkg, hs⟩ := h
  obtain ⟨-, asked', hspkg', hs'⟩ := h'
  obtain ⟨hpkg, rfl⟩ := Prod.mk.inj (hspkg.symm.trans hspkg')
  cases c'
  cases c''
  simp only at hs hs' hpkg
  rw [hs, hs', Option.some.inj hpkg]

theorem result_spec (c : ResolveCall) : Resolves c.pkg c.s (r.result c).1 (r.result c).2 :=
  resolvedeps_spec ..

theorem rounds_nil (c : ResolveCall) :
    r.rounds c [] = (0, { c.s with packages := c.s.packages ++ [c.pkg] }) := rfl

theorem rounds_concat (c : ResolveCall) (deps : List Depmissing) (miss : Depmissing) :
    r.rounds c (deps ++ [miss]) =
      (if (r.round miss (r.rounds c deps).2).1 = 0 then (r.rounds c deps).1 else -1,
        (r.round miss (r.rounds c deps).2).2) :=
  List.foldl_concat ..

theorem round_grown (miss : Depmissing) (t : Resolving) : Grown t (r.round miss t).2 := by
  rcases r.round_cases miss t with ⟨-, heq⟩ | ⟨-, asked, -, heq⟩ | ⟨c', ⟨-, asked, -, hs⟩, hcall⟩
  · rw [heq]
    exact .refl t
  · rw [heq]
    exact .of_same (fallBack_packages ..) (length_le_fallBack miss { t with asked })
  · have hgrown : Grown t (r.result c').2 := by
      have hcalled := (r.result_spec c').grown
      rw [hs] at hcalled
      exact ⟨hcalled.packages, hcalled.data⟩
    rcases hcall with ⟨-, heq⟩ | ⟨-, heq⟩
    · rw [heq]
      exact hgrown
    · rw [heq]
      exact hgrown.trans (.of_same (fallBack_packages ..) (length_le_fallBack ..))

/-- The rounds for more dependencies go on from where those before have left off. -/
theorem rounds_grown (c : ResolveCall) (before after : List Depmissing) :
    Grown (r.rounds c before).2 (r.rounds c (before ++ after)).2 := by
  induction after using List.reverseRecOn with
  | nil =>
    rw [List.append_nil]
    exact .refl _
  | append_singleton after miss ih =>
    rw [← List.append_assoc, rounds_concat]
    exact ih.trans (round_grown miss _)

/-- No round fails if and only if none of them does. -/
theorem rounds_eq_zero {c : ResolveCall} {deps : List Depmissing} :
    (r.rounds c deps).1 = 0 ↔ ∀ before miss after, deps = before ++ miss :: after →
      (r.round miss (r.rounds c before).2).1 = 0 := by
  induction deps using List.reverseRecOn with
  | nil => simp [rounds_nil]
  | append_singleton deps last ih =>
    rw [Splits.forall_concat, ← ih, rounds_concat]
    by_cases hlast : (r.round last (r.rounds c deps).2).1 = 0 <;> simp [hlast]

theorem result_of_mem {c : ResolveCall} (h : c.pkg.name ∈ c.s.packages.map Pkg.name) :
    r.result c = (0, c.s) := by
  rw [result, resolvedeps_eq, if_pos h]

theorem result_of_notMem {c : ResolveCall} (h : c.pkg.name ∉ c.s.packages.map Pkg.name) :
    r.result c = ((r.rounds c (r.misses c.pkg)).1,
      if (r.rounds c (r.misses c.pkg)).1 = 0 then (r.rounds c (r.misses c.pkg)).2
      else { (r.rounds c (r.misses c.pkg)).2 with packages := c.s.packages }) := by
  rw [result, resolvedeps_eq, if_neg h]
  rfl

/-! ## There is no endless chain of calls -/

variable (r) in
/-- How deep the calls below a call may go at most. -/
def height (c : ResolveCall) : ℕ :=
  if c.pkg.name ∈ c.s.packages.map Pkg.name then 0
  else (unseen r.handle r.preferred (c.s.packages ++ [c.pkg])).length + 1

theorem Makes.height_lt {c c' : ResolveCall} (h : r.Makes c c') : r.height c' < r.height c := by
  obtain ⟨miss, t, ⟨hnew, before, after, -, rfl⟩, -, asked, hspkg, hs⟩ := h
  obtain ⟨added, hadded, -⟩ := (r.rounds_grown c [] before).packages
  have hpackages : c'.s.packages = c.s.packages ++ [c.pkg] ++ added := by
    rw [hs]
    exact hadded
  have hchoosable : c'.pkg ∈ choosable r.handle r.preferred :=
    (findSpkg_eq_some (congrArg Prod.fst hspkg)).1
  unfold height
  rw [if_neg hnew]
  split_ifs with hknown
  · exact Nat.succ_pos _
  · have hless := @length_notRemoved_lt _ (c'.s.packages) [c'.pkg] _
      (mem_notRemoved.mpr ⟨hchoosable, hknown⟩) (by simp)
    have hle := @length_unseen_append_le r.handle r.preferred (c.s.packages ++ [c.pkg]) added
    unfold unseen at hless hle ⊢
    rw [hpackages] at hless ⊢
    omega

variable (r) in
/-- **There is no endless chain of calls.**  A call that makes another one has put its package on
the list, which has distinct names of packages that can be chosen, so there is less to choose from
below it.  Inductions over the calls rest on this. -/
theorem wellFounded_makes : WellFounded fun c' c => r.Makes c c' :=
  Subrelation.wf Makes.height_lt (measure r.height).wf

/-! ## Which calls fail -/

theorem round_ne_zero_iff {miss : Depmissing} {t : Resolving} :
    (r.round miss t).1 ≠ 0 ↔ Unsatisfied miss t ∧ ¬ r.Installed miss.depend ∧
      ∀ c', r.Tries miss t c' → (r.result c').1 ≠ 0 := by
  rcases r.round_cases miss t with ⟨hsat, heq⟩ | ⟨hunsat, asked, hspkg, heq⟩ | ⟨c', htries, hcall⟩
  · simp [heq, hsat]
  · have hnone : ∀ c', ¬ r.Tries miss t c' := by
      rintro c' ⟨-, asked', hspkg', -⟩
      simp [hspkg] at hspkg'
    rw [heq, Ne, fallBack_eq_zero]
    exact ⟨fun h => ⟨hunsat, h, fun c' htries => absurd htries (hnone c')⟩, fun h => h.2.1⟩
  · have honly : (∀ c'', r.Tries miss t c'' → (r.result c'').1 ≠ 0) ↔ (r.result c').1 ≠ 0 :=
      ⟨fun h => h c' htries, fun h c'' htries' => htries.spkg_eq htries' ▸ h⟩
    rw [honly]
    rcases hcall with ⟨hret, heq⟩ | ⟨hret, heq⟩
    · simp [heq, hret]
    · rw [heq, Ne, fallBack_eq_zero]
      exact ⟨fun h => ⟨htries.1, h, hret⟩, fun h => h.2.1⟩

theorem result_ne_zero_iff {c : ResolveCall} :
    (r.result c).1 ≠ 0 ↔ ∃ miss t, r.Opens c miss t ∧ (r.round miss t).1 ≠ 0 := by
  by_cases hknown : c.pkg.name ∈ c.s.packages.map Pkg.name
  · simp [result_of_mem hknown, Opens, hknown]
  · rw [result_of_notMem hknown, Ne, rounds_eq_zero]
    push Not
    constructor
    · rintro ⟨before, miss, after, hsplit, hne⟩
      exact ⟨miss, _, ⟨hknown, before, after, hsplit, rfl⟩, hne⟩
    · rintro ⟨miss, t, ⟨-, before, after, hsplit, rfl⟩, hne⟩
      exact ⟨before, miss, after, hsplit, hne⟩

/-- **A call fails** just if `Fails` says so.  `Fails` is defined without what the calls return,
from the databases, the answers and the lists with which the rounds are run. -/
theorem fails_iff (c : ResolveCall) : r.Fails c ↔ (r.result c).1 ≠ 0 := by
  induction c using r.wellFounded_makes.induction with
  | _ c ih =>
    rw [result_ne_zero_iff]
    constructor
    · rintro ⟨hopens, hunsat, hinstalled, htries⟩
      refine ⟨_, _, hopens, round_ne_zero_iff.mpr ⟨hunsat, hinstalled, fun c' htry => ?_⟩⟩
      exact (ih c' ⟨_, _, hopens, htry⟩).mp (htries c' htry)
    · rintro ⟨miss, t, hopens, hne⟩
      obtain ⟨hunsat, hinstalled, htries⟩ := round_ne_zero_iff.mp hne
      exact .intro hopens hunsat hinstalled fun c' htry =>
        (ih c' ⟨_, _, hopens, htry⟩).mpr (htries c' htry)

/-! ## What is reported -/

variable (r) in
/-- For the dependency no package is found at all: none on the list, none to resolve, and none that
is installed. -/
def Stuck (miss : Depmissing) (t : Resolving) : Prop :=
  Unsatisfied miss t ∧ (r.spkg miss t).1 = none ∧ ¬ r.Installed miss.depend

variable (r) in
/-- The call, or one that is made below it, comes to a round in which no package is found. -/
def GetsStuck (c : ResolveCall) : Prop :=
  ∃ c', Relation.ReflTransGen r.Makes c c' ∧ ∃ miss t, r.Opens c' miss t ∧ r.Stuck miss t

theorem getsStuck_iff {c : ResolveCall} : r.GetsStuck c ↔ ∃ miss t, r.Opens c miss t ∧
    (r.Stuck miss t ∨ ∃ c', r.Tries miss t c' ∧ r.GetsStuck c') := by
  constructor
  · rintro ⟨c', hchain, miss, t, hopens, hstuck⟩
    rcases Relation.ReflTransGen.cases_head hchain with
      rfl | ⟨c₁, ⟨miss₁, t₁, hopens₁, htries⟩, hrest⟩
    · exact ⟨miss, t, hopens, Or.inl hstuck⟩
    · exact ⟨miss₁, t₁, hopens₁, Or.inr ⟨c₁, htries, c', hrest, miss, t, hopens, hstuck⟩⟩
  · rintro ⟨miss, t, hopens, hstuck | ⟨c₁, htries, c', hchain, hstuck⟩⟩
    · exact ⟨c, .refl, miss, t, hopens, hstuck⟩
    · exact ⟨c', .head ⟨miss, t, hopens, htries⟩ hchain, hstuck⟩

theorem round_data_iff {miss : Depmissing} {t : Resolving}
    (ih : ∀ c', r.Tries miss t c' →
      ((r.result c').2.data.length = c'.s.data.length ↔ ¬ r.GetsStuck c')) :
    (r.round miss t).2.data.length = t.data.length ↔
      ¬ (r.Stuck miss t ∨ ∃ c', r.Tries miss t c' ∧ r.GetsStuck c') := by
  rcases r.round_cases miss t with ⟨hsat, heq⟩ | ⟨hunsat, asked, hspkg, heq⟩ | ⟨c', htries, hcall⟩
  · have hnone : ¬ ∃ c', r.Tries miss t c' ∧ r.GetsStuck c' := fun ⟨_, htries, _⟩ => hsat htries.1
    simp [heq, Stuck, hsat, hnone]
  · have hnone : ¬ ∃ c', r.Tries miss t c' ∧ r.GetsStuck c' := by
      rintro ⟨c', ⟨-, asked', hspkg', -⟩, -⟩
      simp [hspkg] at hspkg'
    have hfall := @fallBack_data r miss { t with asked }
    rw [heq, or_iff_left hnone]
    simp [Stuck, hunsat, hspkg, hfall]
  · have hsome : (r.spkg miss t).1 ≠ none := by
      obtain ⟨-, asked, hspkg, -⟩ := htries
      simp [hspkg]
    have honly : (∃ c'', r.Tries miss t c'' ∧ r.GetsStuck c'') ↔ r.GetsStuck c' :=
      ⟨fun ⟨c'', htries', hstuck⟩ => htries'.spkg_eq htries ▸ hstuck, fun h => ⟨c', htries, h⟩⟩
    have hstart : c'.s.data = t.data := by
      obtain ⟨-, asked, -, hs⟩ := htries
      rw [hs]
    have hnot : ¬ r.Stuck miss t := fun hstuck => hsome hstuck.2.1
    rw [or_iff_right hnot, honly, ← ih c' htries, hstart]
    rcases hcall with ⟨-, heq⟩ | ⟨hret, heq⟩
    · rw [heq]
    · -- a call that fails has reported something, and that stays
      have hfailed := ((r.result_spec c').failed hret).2
      have hle := length_le_fallBack (r := r) miss (r.result c').2
      rw [hstart] at hfailed
      rw [heq]
      constructor <;> intro h <;> omega

theorem rounds_data_iff {c : ResolveCall} {deps : List Depmissing} :
    (r.rounds c deps).2.data.length = c.s.data.length ↔ ∀ before miss after,
      deps = before ++ miss :: after → (r.round miss (r.rounds c before).2).2.data.length =
        (r.rounds c before).2.data.length := by
  induction deps using List.reverseRecOn with
  | nil => simp [rounds_nil]
  | append_singleton deps last ih =>
    have hgrown := (r.rounds_grown c [] deps).data
    have hround := (round_grown (r := r) last (r.rounds c deps).2).data
    rw [List.nil_append, rounds_nil] at hgrown
    rw [Splits.forall_concat, ← ih, rounds_concat]
    simp only at hgrown ⊢
    constructor
    · intro hsame
      constructor <;> omega
    · rintro ⟨hbefore, hlast⟩
      exact hlast.trans hbefore

/-- **A call leaves `*data` as it was** unless it gets stuck, itself or in a call below it.  An
entry that was appended stays also when an installed package is taken in the end, or when the call
that met the obstacle was given up. -/
theorem result_data_iff (c : ResolveCall) :
    (r.result c).2.data.length = c.s.data.length ↔ ¬ r.GetsStuck c := by
  induction c using r.wellFounded_makes.induction with
  | _ c ih =>
    rw [getsStuck_iff]
    by_cases hknown : c.pkg.name ∈ c.s.packages.map Pkg.name
    · simp [result_of_mem hknown, Opens, hknown]
    · have hdata : (r.result c).2.data = (r.rounds c (r.misses c.pkg)).2.data := by
        rw [result_of_notMem hknown]
        simp only
        split_ifs <;> rfl
      rw [hdata, rounds_data_iff]
      constructor
      · rintro hall ⟨miss, t, hopens, hbad⟩
        obtain ⟨-, before, after, hsplit, rfl⟩ := id hopens
        exact (round_data_iff fun c' htries => ih c' ⟨miss, _, hopens, htries⟩).mp
          (hall before miss after hsplit) hbad
      · intro hnone before miss after hsplit
        have hopens : r.Opens c miss (r.rounds c before).2 :=
          ⟨hknown, before, after, hsplit, rfl⟩
        exact (round_data_iff fun c' htries => ih c' ⟨miss, _, hopens, htries⟩).mpr
          fun hbad => hnone ⟨miss, _, hopens, hbad⟩

/-! ## What is on the list in the end -/

variable (r) in
/-- The calls whose packages stay on the list: those that a call makes without failing, and so
on. -/
def Keeping : ResolveCall → ResolveCall → Prop := Relation.ReflTransGen r.Keeps

theorem Opens.grown {c : ResolveCall} (hret : (r.result c).1 = 0) {miss : Depmissing}
    {t : Resolving} (h : r.Opens c miss t) :
    Grown { c.s with packages := c.s.packages ++ [c.pkg] } t ∧
      Grown (r.round miss t).2 (r.result c).2 := by
  obtain ⟨hnew, before, after, hsplit, rfl⟩ := h
  rw [result_of_notMem hnew] at hret ⊢
  simp only at hret
  simp only [hret, if_true]
  refine ⟨r.rounds_grown c [] before, ?_⟩
  have hrest := r.rounds_grown c (before ++ [miss]) after
  rw [List.append_assoc, List.singleton_append, ← hsplit, rounds_concat] at hrest
  exact hrest

/-- A call that does not fail puts its package on the list, if it is new. -/
theorem pkg_mem_result {c : ResolveCall} (hret : (r.result c).1 = 0)
    (hnew : c.pkg.name ∉ c.s.packages.map Pkg.name) : c.pkg ∈ (r.result c).2.packages :=
  (r.result_spec c).pulled hret hnew

theorem Keeps.result_subset {c c' : ResolveCall} (hret : (r.result c).1 = 0) (h : r.Keeps c c') :
    (r.result c').1 = 0 ∧ (r.result c').2.packages ⊆ (r.result c).2.packages := by
  obtain ⟨⟨miss, t, hopens, htries⟩, hfails⟩ := h
  rw [fails_iff, not_not] at hfails
  refine ⟨hfails, ?_⟩
  have hround : r.round miss t = r.result c' := by
    rcases r.round_cases miss t with ⟨hsat, -⟩ | ⟨-, asked, hspkg, -⟩ | ⟨c'', htries', hcall⟩
    · exact absurd htries.1 hsat
    · obtain ⟨-, asked', hspkg', -⟩ := htries
      simp [hspkg] at hspkg'
    · obtain rfl := htries.spkg_eq htries'
      exact (hcall.resolve_right fun hfailed => hfailed.1 hfails).2
  rw [← hround]
  exact (hopens.grown hret).2.packages_subset

theorem Keeping.result_subset {c c' : ResolveCall} (hret : (r.result c).1 = 0)
    (h : r.Keeping c c') :
    (r.result c').1 = 0 ∧ (r.result c').2.packages ⊆ (r.result c).2.packages := by
  induction h with
  | refl => exact ⟨hret, List.Subset.refl _⟩
  | tail _ hkeeps ih =>
    obtain ⟨hret', hsub⟩ := hkeeps.result_subset ih.1
    exact ⟨hret', List.Subset.trans hsub ih.2⟩

/-- What a round puts on the list comes from a call that it makes and that does not fail. -/
theorem mem_round {miss : Depmissing} {t : Resolving} {q : Pkg}
    (hq : q ∈ (r.round miss t).2.packages) : q ∈ t.packages ∨
      ∃ c', r.Tries miss t c' ∧ ¬ r.Fails c' ∧ c'.s.packages = t.packages ∧
        q ∈ (r.result c').2.packages := by
  rcases r.round_cases miss t with ⟨-, heq⟩ | ⟨-, asked, -, heq⟩ | ⟨c', htries, hcall⟩
  · exact Or.inl (by rwa [heq] at hq)
  · rw [heq, fallBack_packages] at hq
    exact Or.inl hq
  · have hsame : c'.s.packages = t.packages := by
      obtain ⟨-, asked, -, hs⟩ := htries
      rw [hs]
    rcases hcall with ⟨hret, heq⟩ | ⟨hret, heq⟩
    · rw [heq] at hq
      exact Or.inr ⟨c', htries, fun hfails => (fails_iff c').mp hfails hret, hsame, hq⟩
    · rw [heq, fallBack_packages, ((r.result_spec c').failed hret).1, hsame] at hq
      exact Or.inl hq

/-- **Where the packages come from** that a call puts on the list: each is the new package of a call
that stays.  And the other way round, unless a call above it fails, which `Keeping` excludes. -/
theorem mem_result (c : ResolveCall) {q : Pkg} (hq : q ∈ (r.result c).2.packages) :
    q ∈ c.s.packages ∨
      ∃ c', r.Keeping c c' ∧ c'.pkg = q ∧ q.name ∉ c'.s.packages.map Pkg.name := by
  induction c using r.wellFounded_makes.induction with
  | _ c ih =>
    by_cases hknown : c.pkg.name ∈ c.s.packages.map Pkg.name
    · rw [result_of_mem hknown] at hq
      exact Or.inl hq
    have hrounds : ∀ before after, r.misses c.pkg = before ++ after →
        q ∈ (r.rounds c before).2.packages → q ∈ c.s.packages ∨
          ∃ c', r.Keeping c c' ∧ c'.pkg = q ∧ q.name ∉ c'.s.packages.map Pkg.name := by
      intro before
      induction before using List.reverseRecOn with
      | nil =>
        intro after _ hq
        rcases List.mem_append.mp hq with hq | hq
        · exact Or.inl hq
        · obtain rfl := List.mem_singleton.mp hq
          exact Or.inr ⟨c, .refl, rfl, hknown⟩
      | append_singleton before miss ihRounds =>
        intro after hsplit hq
        rw [rounds_concat] at hq
        rw [List.append_assoc, List.singleton_append] at hsplit
        have hopens : r.Opens c miss (r.rounds c before).2 :=
          ⟨hknown, before, after, hsplit, rfl⟩
        rcases mem_round hq with hq | ⟨c', htries, hfails, hsame, hq⟩
        · exact ihRounds (miss :: after) hsplit hq
        · have hmakes : r.Makes c c' := ⟨miss, _, hopens, htries⟩
          rcases ih c' hmakes hq with hq | ⟨c'', hkeeping, hpkg, hnew⟩
          · exact ihRounds (miss :: after) hsplit (hsame ▸ hq)
          · exact Or.inr ⟨c'', .head ⟨hmakes, hfails⟩ hkeeping, hpkg, hnew⟩
    rw [result_of_notMem hknown] at hq
    simp only at hq
    split_ifs at hq
    · exact hrounds _ [] (List.append_nil _).symm hq
    · exact Or.inl hq

/-! ## Closure -/

/-- A package that is not to be removed satisfies the dependency.  Unlike the search for an
installed package this is a matter of the lists alone. -/
def Stays (rem pkgs : List Pkg) (dep : Depend) : Prop :=
  ∃ p ∈ pkgs, p.name ∉ rem.map Pkg.name ∧ depcmp p dep

variable (r) in
/-- The dependency of `q` is satisfied by the package itself, by what stays installed, by
assumption, or by the list. -/
def Settled (packages : List Pkg) (q : Pkg) (dep : Depend) : Prop :=
  depcmp q dep ∨ Stays r.rem r.localpkgs dep ∨ depcmpProvides dep r.ctx.assumeinstalled ∨
    (∃ p ∈ packages, depcmp p dep) ∨ Stays r.rem r.handle.dbLocal.pkgcache dep

variable (r) in
/-- What a call that returns 0 promises: the package's name is on the list, and the dependencies
of everything that it put there are settled. -/
structure Closed (c : ResolveCall) (s' : Resolving) : Prop where
  named : c.pkg.name ∈ s'.packages.map Pkg.name
  settled : ∀ added, s'.packages = c.s.packages ++ added → ∀ q ∈ added, ∀ dep ∈ q.depends,
    r.Settled s'.packages q dep

variable (r) in
/-- The round is about to take a short-cut: nothing on the list satisfies the dependency, a
preferred package does, and a package of its name is on the list. -/
def ShortCut (miss : Depmissing) (t : Resolving) : Prop :=
  Unsatisfied miss t ∧ ∃ spkg, findDepSatisfier r.preferred miss.depend = some spkg ∧
    spkg.name ∈ t.packages.map Pkg.name

theorem Installed.stays {dep : Depend} (h : r.Installed dep) :
    Stays r.rem r.handle.dbLocal.pkgcache dep := by
  obtain ⟨p, hp⟩ := Option.isSome_iff_exists.mp h
  obtain ⟨hmem, hsat, hnot⟩ := resolvedep_candidate hp
  exact ⟨p, by simpa using hmem, hnot, hsat⟩

/-- A package that is found for a dependency while its name is on the list is a preferred one: the
databases are searched for other names only. -/
theorem Tries.shortCut {miss : Depmissing} {t : Resolving} {c' : ResolveCall}
    (h : r.Tries miss t c') (hknown : c'.pkg.name ∈ t.packages.map Pkg.name) :
    r.ShortCut miss t := by
  obtain ⟨hunsat, asked, hspkg, -⟩ := h
  refine ⟨hunsat, ?_⟩
  unfold spkg findSpkg at hspkg
  cases hpreferred : findDepSatisfier r.preferred miss.depend with
  | some spkg =>
    simp only [hpreferred, Prod.mk.injEq, Option.some.injEq] at hspkg
    exact ⟨spkg, rfl, hspkg.1 ▸ hknown⟩
  | none =>
    simp only [hpreferred] at hspkg
    exact absurd hknown (resolvedep_candidate (congrArg Prod.fst hspkg)).notExcluded

/-- What becomes of the dependency of a round, in a call that does not fail. -/
theorem Opens.settled {c : ResolveCall} (hret : (r.result c).1 = 0) {miss : Depmissing}
    {t : Resolving} (h : r.Opens c miss t) : (∃ p ∈ (r.result c).2.packages, depcmp p miss.depend) ∨
      Stays r.rem r.handle.dbLocal.pkgcache miss.depend ∨ r.ShortCut miss t := by
  have hround : (r.round miss t).1 = 0 := by
    by_contra hne
    exact result_ne_zero_iff.mpr ⟨miss, t, h, hne⟩ hret
  have hsub := (h.grown hret).2.packages_subset
  rcases r.round_cases miss t with ⟨hsat, heq⟩ | ⟨-, asked, -, heq⟩ | ⟨c', htries, hcall⟩
  · obtain ⟨p, hp, hcmp⟩ := not_unsatisfied.mp hsat
    rw [heq] at hsub
    exact Or.inl ⟨p, hsub hp, hcmp⟩
  · rw [heq, fallBack_eq_zero] at hround
    exact Or.inr (Or.inl hround.stays)
  · have hsame : c'.s.packages = t.packages := by
      obtain ⟨-, asked, -, hs⟩ := htries
      rw [hs]
    rcases hcall with ⟨hret', heq⟩ | ⟨-, heq⟩
    · by_cases hknown : c'.pkg.name ∈ t.packages.map Pkg.name
      · exact Or.inr (Or.inr (htries.shortCut hknown))
      · rw [heq] at hsub
        obtain ⟨-, asked, hspkg, -⟩ := htries
        exact Or.inl ⟨c'.pkg, hsub (pkg_mem_result hret' (hsame ▸ hknown)),
          (findSpkg_eq_some (congrArg Prod.fst hspkg)).2⟩
    · rw [heq, fallBack_eq_zero] at hround
      exact Or.inr (Or.inl hround.stays)

/-- A missing dependency is one of the package, and nothing that stays satisfies it, nor the
package itself, nor an assumption. -/
theorem mem_misses (hctx : r.ctx.nodepversion = false) {pkg : Pkg} {miss : Depmissing} :
    miss ∈ r.misses pkg ↔ ∃ dep ∈ pkg.depends,
      ¬ r.ctx.Satisfied (resultPkgs r.localpkgs r.rem [pkg]) dep ∧
        miss = ⟨pkg.name, dep, none⟩ := by
  have heffective : ∀ dep, r.ctx.effective dep = dep := by
    intro dep
    simp [DepContext.effective, hctx]
  unfold misses
  rw [mem_checkdeps]
  simp [heffective]

theorem Opens.mem_misses {c : ResolveCall} {miss : Depmissing} {t : Resolving}
    (h : r.Opens c miss t) : miss ∈ r.misses c.pkg := by
  obtain ⟨-, before, after, hsplit, -⟩ := h
  rw [hsplit]
  simp

/-- **Resolution is closed** if and only if every short-cut that is about to be taken, by a call
whose package stays on the list, is for a dependency that is satisfied all the same: by a local
package that is not to be removed, or by the new package of some other call that stays. -/
theorem resolvedeps_closed (r : Resolution) (hctx : r.ctx.nodepversion = false) (c : ResolveCall)
    (hret : (r.result c).1 = 0) :
    r.Closed c (r.result c).2 ↔
      ∀ c', r.Keeping c c' → ∀ miss t, r.Opens c' miss t → r.ShortCut miss t →
        Stays r.rem r.localpkgs miss.depend ∨
          Stays r.rem r.handle.dbLocal.pkgcache miss.depend ∨
            ∃ c'', r.Keeping c c'' ∧ c''.pkg.name ∉ c''.s.packages.map Pkg.name ∧
              depcmp c''.pkg miss.depend := by
  obtain ⟨added, hadded, -, hnew⟩ := (r.result_spec c).grown.packages
  have hlist : ∀ c', r.Keeping c c' → c'.pkg.name ∉ c'.s.packages.map Pkg.name →
      c'.pkg ∈ (r.result c).2.packages := by
    intro c' hkeeping hfresh
    obtain ⟨hret', hsub⟩ := hkeeping.result_subset hret
    exact hsub (pkg_mem_result hret' hfresh)
  have hold : ∀ c', r.Keeping c c' → c.s.packages ⊆ c'.s.packages := by
    intro c' hkeeping
    induction hkeeping with
    | refl => exact List.Subset.refl _
    | @tail c₁ c₂ hbefore hkeeps ih =>
      obtain ⟨⟨miss, t, hopens, htries⟩, -⟩ := hkeeps
      have hgrown := (hopens.grown (Keeping.result_subset hret hbefore).1).1.packages_subset
      obtain ⟨-, asked, -, hs⟩ := htries
      rw [hs]
      exact fun q hq => hgrown (List.mem_append_left _ (ih hq))
  constructor
  · rintro ⟨-, hsettled⟩ c' hkeeping miss t hopens ⟨hunsat, -⟩
    obtain ⟨dep, hdep, hmissing, rfl⟩ := (Resolution.mem_misses hctx).mp hopens.mem_misses
    have hgrown := (hopens.grown (hkeeping.result_subset hret).1).1.packages_subset
    have hadd : c'.pkg ∈ added := by
      have hmem := hlist c' hkeeping hopens.1
      rw [hadded] at hmem
      refine (List.mem_append.mp hmem).resolve_left fun hin => hopens.1 ?_
      exact List.mem_map_of_mem (hold c' hkeeping hin)
    -- the package is on the list in the round, so it does not satisfy the dependency itself
    have hself : ¬ depcmp c'.pkg dep := by
      have hpkg : c'.pkg ∈ t.packages := hgrown (by simp)
      simp [hunsat _ hpkg]
    rcases hsettled added hadded c'.pkg hadd dep hdep with h | h | h | ⟨p, hp, h⟩ | h
    · exact absurd h hself
    · exact Or.inl h
    · exact absurd (Or.inr h) hmissing
    · rcases r.mem_result c hp with hin | ⟨c'', hkeeping', rfl, hfresh⟩
      · have hcmp := hunsat p (hgrown (List.mem_append_left _ (hold c' hkeeping hin)))
        simp [hcmp] at h
      · exact Or.inr (Or.inr ⟨c'', hkeeping', hfresh, h⟩)
    · exact Or.inr (Or.inl h)
  · intro hcuts
    refine ⟨?_, fun added' hadded' q hq dep hdep => ?_⟩
    · by_cases hknown : c.pkg.name ∈ c.s.packages.map Pkg.name
      · rw [hadded, List.map_append]
        exact List.mem_append_left _ hknown
      · exact List.mem_map_of_mem (pkg_mem_result hret hknown)
    · obtain rfl : added = added' := List.append_cancel_left (hadded.symm.trans hadded')
      have hmem : q ∈ (r.result c).2.packages := by
        rw [hadded]
        exact List.mem_append_right _ hq
      obtain ⟨c', hkeeping, rfl, hfresh⟩ := (r.mem_result c hmem).resolve_left fun hin =>
        hnew q hq (List.mem_map_of_mem hin)
      obtain ⟨hret', hsub⟩ := hkeeping.result_subset hret
      by_cases hsat : r.ctx.Satisfied (resultPkgs r.localpkgs r.rem [c'.pkg]) dep
      · rcases hsat with ⟨p, hp, hcmp⟩ | hassume
        · rcases List.mem_append.mp hp with hkept | hself
          · obtain ⟨hlocal, hrem, -⟩ := mem_keptPkgs.mp hkept
            exact Or.inr (Or.inl ⟨p, hlocal, hrem, hcmp⟩)
          · obtain rfl := List.mem_singleton.mp hself
            exact Or.inl hcmp
        · exact Or.inr (Or.inr (Or.inl hassume))
      · have hmiss := (Resolution.mem_misses hctx).mpr ⟨dep, hdep, hsat, rfl⟩
        obtain ⟨before, after, hsplit⟩ := List.append_of_mem hmiss
        have hopens : r.Opens c' ⟨c'.pkg.name, dep, none⟩ (r.rounds c' before).2 :=
          ⟨hfresh, before, after, hsplit, rfl⟩
        rcases hopens.settled hret' with ⟨p, hp, hcmp⟩ | hstays | hcut
        · exact Or.inr (Or.inr (Or.inr (Or.inl ⟨p, hsub hp, hcmp⟩)))
        · exact Or.inr (Or.inr (Or.inr (Or.inr hstays)))
        · rcases hcuts c' hkeeping _ _ hopens hcut with
            hlocal | hstays | ⟨c'', hkeeping', hfresh', hcmp⟩
          · exact Or.inr (Or.inl hlocal)
          · exact Or.inr (Or.inr (Or.inr (Or.inr hstays)))
          · exact Or.inr (Or.inr (Or.inr (Or.inl ⟨_, hlist c'' hkeeping' hfresh', hcmp⟩)))

end Resolution

/-! ## A short-cut that goes wrong -/

/-- `helper` depends on `lib<2`. -/
def helperPkg : Pkg where
  name := str "helper"
  version := str "1-1"
  depends := [{
    name := str "lib"
    version := some (str "2")
    mod := .lt }]

/-- The targets `app`, which depends on `helper` and `lib>=2`, and `lib` 2. -/
def newLibTargets : List Pkg :=
  [{ name := str "app"
     version := str "1-1"
     depends := [{ name := str "helper" },
       { name := str "lib"
         version := some (str "2")
         mod := .ge }] },
   { name := str "lib"
     version := str "2-1" }]

/-- With nothing installed and nothing to be removed, and a repository with `helper` and `lib` 1. -/
def newLibResolution (preferred : List Pkg) : Resolution where
  handle :=
    { dbLocal := { treename := str "local", pkgcache := [] }
      dbsSync := [{
        treename := str "core"
        pkgcache := [helperPkg,
          { name := str "lib"
            version := str "1-1" }] }]
      fnmatch := fun _ _ => false
      answer := fun _ => 0 }
  ctx := { assumeinstalled := [] }
  localpkgs := []
  preferred
  rem := []

/-- Without preferred packages no short-cut is taken, and `helper` comes with the `lib` 1 that it
needs. -/
theorem resolvedeps_closed_helper :
    ((newLibResolution []).result ⟨helperPkg, {}⟩).2.packages.map Pkg.name =
        [str "helper", str "lib"] ∧
      (newLibResolution []).Closed ⟨helperPkg, {}⟩
        ((newLibResolution []).result ⟨helperPkg, {}⟩).2 := by
  have hret : ((newLibResolution []).result ⟨helperPkg, {}⟩).1 = 0 := by decide +kernel
  refine ⟨by decide +kernel, (Resolution.resolvedeps_closed _ rfl _ hret).mpr ?_⟩
  rintro c' - miss t - ⟨-, spkg, hpreferred, -⟩
  cases hpreferred

/-- `helper` puts `lib` 1 on the list, and then `lib` 2 counts as resolved. -/
theorem resolvedeps_drops_dependency :
    ∃ app ∈ newLibTargets,
      ((newLibResolution newLibTargets).result ⟨app, {}⟩).1 = 0 ∧
        ¬ (newLibResolution newLibTargets).Closed ⟨app, {}⟩
          ((newLibResolution newLibTargets).result ⟨app, {}⟩).2 := by
  refine ⟨newLibTargets.head (by decide), List.head_mem _, by decide +kernel, ?_⟩
  rintro ⟨-, hsettled⟩
  have hclosed := hsettled _ rfl (newLibTargets.head (by decide)) (by decide +kernel)
    { name := str "lib"
      version := some (str "2")
      mod := .ge } (by decide +kernel)
  revert hclosed
  unfold Resolution.Settled Resolution.Stays
  decide +kernel

end Alpm.Sync
