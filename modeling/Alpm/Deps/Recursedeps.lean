import Alpm.Deps.Depcmp
import Alpm.General.Worklist

/-!
# `_alpm_recursedeps`

The packages that a recursive removal adds to its targets.

## 1.  Three loops

Two loops move installed packages from `keep` to `rem`, first what the targets depend on and then
what the packages of `rem` depend on, while `rem` grows; a third loop moves back what the packages
of `keep` depend on, while `keep` grows.  Both growing loops are instances of `Worklist.drain`.

## 2.  What they compute

The result is described by predicates on the installed packages: a *candidate* is reached from the
targets by dependencies, a candidate is *needed* if it is reached from an installed package that is
neither a target nor a candidate, and what `_alpm_recursedeps` adds are the candidates that are not
needed (`mem_unneededDeps`).  All of these are least fixed points, so cycles of dependencies make no
difference.

## 3.  What a call appends

The selected packages are copied, and a copy that fails ends the call.  `recursedeps_appends` is
about a call that returns 0: exactly the unneeded dependencies are appended, once each, and no
package that stays depends on any of them.
-/

namespace Alpm

open Worklist

/-- The test of `_alpm_select_depends`. -/
def selectsDepend (explicit : Bool) (pkg deppkg : Pkg) : Bool :=
  (explicit || deppkg.reason ≠ .explicit) && pkgDependsOn pkg deppkg

theorem selectsDepend_iff {explicit : Bool} {pkg deppkg : Pkg} :
    selectsDepend explicit pkg deppkg ↔
      (explicit ∨ deppkg.reason ≠ .explicit) ∧ pkgDependsOn pkg deppkg := by
  simp [selectsDepend]

/-- `_alpm_select_depends`: the lists `from` and `to` after the call. -/
def selectDepends (fromPkgs toPkgs : List Pkg) (pkg : Pkg) (explicit : Bool) :
    List Pkg × List Pkg :=
  if pkg.depends = [] then (fromPkgs, toPkgs)
  else (fromPkgs.filter (!selectsDepend explicit pkg ·),
    toPkgs ++ fromPkgs.filter (selectsDepend explicit pkg))

theorem selectDepends_eq (fromPkgs toPkgs : List Pkg) (pkg : Pkg) (explicit : Bool) :
    selectDepends fromPkgs toPkgs pkg explicit =
      ((select (selectsDepend explicit) pkg fromPkgs).2,
        toPkgs ++ (select (selectsDepend explicit) pkg fromPkgs).1) := by
  unfold selectDepends
  split_ifs with h
  · have hnone : ∀ deppkg, selectsDepend explicit pkg deppkg = false := by
      intro deppkg
      simp [selectsDepend, pkgDependsOn, h]
    simp [select, hnone]
  · rfl

/-- The loop over the packages of `rem`, to which it moves from `keep` what they depend on, without
explicitly installed packages unless these are asked for. -/
def selectRemovable (explicit : Bool) : List Pkg → List Pkg → List Pkg × List Pkg
  | [], keep => ([], keep)
  | pkg :: rem, keep =>
    let moved := selectDepends keep rem pkg explicit
    let (rem, keep) := selectRemovable explicit moved.2 moved.1
    (pkg :: rem, keep)
  termination_by rem keep => rem.length + keep.length
  decreasing_by
    have hlength := @length_select _ (selectsDepend explicit) pkg keep
    simp only [selectDepends_eq, List.length_append, List.length_cons]
    omega

/-- The loop over the packages of `keep`, to which it adds what they still need.  It moves packages
back from `rem`, explicitly installed ones as well, and may stop when `rem` is empty. -/
def keepNeeded : List Pkg → List Pkg → List Pkg
  | [], rem => rem
  | pkg :: keep, rem =>
    if rem = [] then rem
    else
      let moved := selectDepends rem keep pkg true
      keepNeeded moved.2 moved.1
  termination_by keep rem => keep.length + rem.length
  decreasing_by
    have hlength := @length_select _ (selectsDepend true) pkg rem
    simp only [selectDepends_eq, List.length_append, List.length_cons]
    omega

/-- `rem` at the end of the three loops of `_alpm_recursedeps`. -/
def unneededDeps (localdb targs : List Pkg) (includeExplicit : Bool) : List Pkg :=
  let keep := targs.foldl (listRemove pkgCmp) localdb
  -- recursively select all dependencies for removal
  let moved := targs.foldl (fun s targ => selectDepends s.1 s.2 targ includeExplicit) (keep, [])
  let (rem, keep) := selectRemovable includeExplicit moved.2 moved.1
  -- recursively select any still needed packages to keep
  keepNeeded keep rem

/-- The loop that copies the selected packages into the target list: the return value and
`*targs`.  A call of `_alpm_pkg_dup` is identified by the number of targets so far. -/
def copyIntoTargets (dup : ℕ → DupOutcome) : List Pkg → List Pkg → Int × List Pkg
  | [], targs => (0, targs)
  | pkg :: rem, targs =>
    match pkgDup (dup targs.length) pkg with
    | (0, some copy) => copyIntoTargets dup rem (targs ++ [copy])
    | _ => (-1, targs)

/-- `_alpm_recursedeps`: the return value and `*targs`. -/
def recursedeps (localdb targs : List Pkg) (includeExplicit : Bool) (dup : ℕ → DupOutcome) :
    Int × List Pkg :=
  copyIntoTargets dup (unneededDeps localdb targs includeExplicit) targs

/-! ## The loops as worklists -/

theorem selectRemovable_eq_drain (explicit : Bool) (rem keep : List Pkg) :
    selectRemovable explicit rem keep = drain (selectsDepend explicit) rem keep := by
  fun_induction selectRemovable explicit rem keep with
  | case1 keep => rw [drain_nil]
  | case2 pkg rem keep moved rem' keep' heq ih =>
    rw [drain_cons]
    simp only [moved, selectDepends_eq] at ih heq
    rw [← ih, heq]

theorem keepNeeded_eq_drain (keep rem : List Pkg) :
    keepNeeded keep rem = (drain (selectsDepend true) keep rem).2 := by
  fun_induction keepNeeded keep rem with
  | case1 rem => rw [drain_nil]
  | case2 pkg keep => rw [drain_empty]
  | case3 pkg keep rem h moved ih =>
    rw [drain_cons, ih]
    simp only [moved, selectDepends_eq]

theorem foldl_selectDepends (explicit : Bool) (targs keep rem : List Pkg) :
    targs.foldl (fun s targ => selectDepends s.1 s.2 targ explicit) (keep, rem) =
      ((scan (selectsDepend explicit) targs rem keep).2,
        (scan (selectsDepend explicit) targs rem keep).1) := by
  induction targs generalizing keep rem with
  | nil => rfl
  | cons targ targs ih =>
    rw [List.foldl_cons, selectDepends_eq, ih]
    rfl

theorem copyIntoTargets_names {dup : ℕ → DupOutcome} {rem targs : List Pkg}
    (hret : (copyIntoTargets dup rem targs).1 = 0) :
    (copyIntoTargets dup rem targs).2.map Pkg.name = targs.map Pkg.name ++ rem.map Pkg.name := by
  induction rem generalizing targs with
  | nil => simp [copyIntoTargets]
  | cons pkg rem ih =>
    unfold copyIntoTargets at hret ⊢
    cases hdup : dup targs.length with
    | fatal => simp [hdup, pkgDup] at hret
    | nonfatal addr => simp [hdup, pkgDup] at hret
    | success addr =>
      simp only [hdup, pkgDup] at hret ⊢
      rw [ih hret, List.map_append, List.append_assoc]
      rfl

/-- A successful call appends copies of the selected packages. -/
theorem recursedeps_names {localdb targs : List Pkg} {e : Bool} {dup : ℕ → DupOutcome}
    (hret : (recursedeps localdb targs e dup).1 = 0) :
    (recursedeps localdb targs e dup).2.map Pkg.name =
      targs.map Pkg.name ++ (unneededDeps localdb targs e).map Pkg.name :=
  copyIntoTargets_names hret

/-! ## Candidates and needed packages -/

/-- An installed package of which no target has the name. -/
def Stays (localdb : List Pkg) (targ : Pkg → Prop) (pkg : Pkg) : Prop :=
  pkg ∈ localdb ∧ ¬ ∃ t, targ t ∧ t.name = pkg.name

/-- The packages that the targets reach by dependencies, in one or more steps. -/
def Candidate (localdb : List Pkg) (targ : Pkg → Prop) (includeExplicit : Bool) : Pkg → Prop :=
  Pulled (pkgDependsOn · ·) targ fun pkg =>
    Stays localdb targ pkg ∧ (includeExplicit ∨ pkg.reason ≠ .explicit)

/-- The candidates that the other packages that stay reach by dependencies. -/
def Needed (localdb : List Pkg) (targ : Pkg → Prop) (includeExplicit : Bool) : Pkg → Prop :=
  Pulled (pkgDependsOn · ·)
    (fun pkg => Stays localdb targ pkg ∧ ¬ Candidate localdb targ includeExplicit pkg)
    (Candidate localdb targ includeExplicit)

/-- What a recursive removal adds: the candidates that are not needed, where a candidate is reached
from the targets and needed is what a package that stays reaches. -/
def Unneeded (localdb : List Pkg) (targ : Pkg → Prop) (includeExplicit : Bool) (pkg : Pkg) :
    Prop :=
  Candidate localdb targ includeExplicit pkg ∧ ¬ Needed localdb targ includeExplicit pkg

section

variable {localdb : List Pkg} {targ targ' : Pkg → Prop} {e : Bool} {pkg : Pkg}

/-- Of the targets only the names and what they depend on count. -/
theorem unneeded_congr (hname : ∀ name, (∃ t, targ t ∧ t.name = name) ↔
      ∃ t, targ' t ∧ t.name = name)
    (hdep : ∀ q, (∃ t, targ t ∧ pkgDependsOn t q) ↔ ∃ t, targ' t ∧ pkgDependsOn t q) :
    Unneeded localdb targ e pkg ↔ Unneeded localdb targ' e pkg := by
  have hstays : Stays localdb targ = Stays localdb targ' := by
    funext q
    rw [Stays, Stays, hname]
  have hstart : ∀ {t t' : Pkg → Prop} {pool : Pkg → Prop},
      (∀ q, (∃ p, t p ∧ pkgDependsOn p q) → ∃ p, t' p ∧ pkgDependsOn p q) → ∀ q,
        Pulled (pkgDependsOn · ·) t pool q → Pulled (pkgDependsOn · ·) t' pool q := by
    intro t t' pool h q
    refine Pulled.mono (fun a b ha hb hsel => ?_) fun _ => id
    obtain ⟨p, hp, hsel⟩ := h b ⟨a, ha, hsel⟩
    exact .ofStart hp hb hsel
  have hcandidate : Candidate localdb targ e = Candidate localdb targ' e := by
    funext q
    rw [Candidate, Candidate, hstays, eq_iff_iff]
    exact ⟨hstart (fun q => (hdep q).mp) q, hstart (fun q => (hdep q).mpr) q⟩
  rw [Unneeded, Unneeded, Needed, Needed, hstays, hcandidate]

theorem Unneeded.stays (h : Unneeded localdb targ e pkg) : Stays localdb targ pkg :=
  (Pulled.mem_pool h.1).1

/-- **No package that stays depends on what is added.** -/
theorem Unneeded.not_pkgDependsOn (h : Unneeded localdb targ e pkg) {k : Pkg}
    (hstays : Stays localdb targ k) (hk : ¬ Unneeded localdb targ e k) : ¬ pkgDependsOn k pkg := by
  intro hdep
  by_cases hc : Candidate localdb targ e k
  · have hneeded : Needed localdb targ e k := by
      by_contra hn
      exact hk ⟨hc, hn⟩
    exact h.2 (hneeded.ofPulled h.1 hdep)
  · exact h.2 (.ofStart ⟨hstays, hc⟩ h.1 hdep)

end

/-- **`_alpm_recursedeps` selects the unneeded dependencies.**  The first two loops move the
candidates out of the packages that are kept, and the third moves back those that are needed; each
is the worklist of the general library, so each computes a least fixed point. -/
theorem mem_unneededDeps {localdb : List Pkg} (hlocal : (localdb.map Pkg.name).Nodup)
    {targs : List Pkg} {e : Bool} {pkg : Pkg} :
    pkg ∈ unneededDeps localdb targs e ↔ Unneeded localdb (· ∈ targs) e pkg := by
  obtain ⟨pool, hpool⟩ : ∃ pool, pool = targs.foldl (listRemove pkgCmp) localdb := ⟨_, rfl⟩
  have hstays : ∀ q, q ∈ pool ↔ Stays localdb (· ∈ targs) q := by
    intro q
    rw [hpool, mem_foldl_listRemove pkgCmp_comparesBy hlocal, Stays, List.mem_map]
  have hcandidate : ∀ q, Pulled (selectsDepend e · ·) (· ∈ targs) (· ∈ pool) q ↔
      Candidate localdb (· ∈ targs) e q := by
    intro q
    constructor
    · intro h
      induction h with
      | ofStart ha hb hsel =>
        obtain ⟨hreason, hdep⟩ := selectsDepend_iff.mp hsel
        exact .ofStart ha ⟨(hstays _).mp hb, hreason⟩ hdep
      | ofPulled _ hb hsel ih =>
        obtain ⟨hreason, hdep⟩ := selectsDepend_iff.mp hsel
        exact .ofPulled ih ⟨(hstays _).mp hb, hreason⟩ hdep
    · intro h
      induction h with
      | ofStart ha hb hdep =>
        exact .ofStart ha ((hstays _).mpr hb.1) (selectsDepend_iff.mpr ⟨hb.2, hdep⟩)
      | ofPulled _ hb hdep ih =>
        exact .ofPulled ih ((hstays _).mpr hb.1) (selectsDepend_iff.mpr ⟨hb.2, hdep⟩)
  have hkeep : ∀ q, q ∈ (drain (selectsDepend e) (scan (selectsDepend e) targs [] pool).1
      (scan (selectsDepend e) targs [] pool).2).2 ↔
        Stays localdb (· ∈ targs) q ∧ ¬ Candidate localdb (· ∈ targs) e q := by
    intro q
    rw [← congrArg Prod.snd (drain_append targs [] pool), List.append_nil, mem_drain_snd,
      hstays, hcandidate]
  have hsel : (fun a b => (selectsDepend true a b : Prop)) =
      fun a b => (pkgDependsOn a b : Prop) := by
    funext a b
    simp [selectsDepend]
  simp only [unneededDeps, foldl_selectDepends, selectRemovable_eq_drain, keepNeeded_eq_drain,
    ← hpool]
  rw [mem_drain_snd, mem_drain_scan, hcandidate, hsel, Unneeded, Needed]
  refine and_congr_right fun _ => not_congr (Pulled.congr hkeep fun q => ?_)
  rw [mem_drain_scan, hcandidate]

/-! ## What a call appends -/

/-- A package is selected at most once. -/
theorem nodup_unneededDeps {localdb : List Pkg} (hlocal : (localdb.map Pkg.name).Nodup)
    (targs : List Pkg) (e : Bool) : (unneededDeps localdb targs e).Nodup := by
  simp only [unneededDeps, foldl_selectDepends, selectRemovable_eq_drain, keepNeeded_eq_drain]
  generalize hpool : targs.foldl (listRemove pkgCmp) localdb = pool
  have hpool : pool.Nodup := by
    rw [← hpool]
    clear hpool
    have hnodup := hlocal.of_map
    clear hlocal
    induction targs generalizing localdb with
    | nil => exact hnodup
    | cons targ targs ih => exact ih (hnodup.sublist (listRemove_sublist ..))
  have hmoved := (@scan_perm _ (selectsDepend e) targs [] pool).nodup_iff.mpr hpool
  have hdrained := (@drain_perm _ (selectsDepend e) _ _).nodup_iff.mpr hmoved
  exact hdrained.of_append_left.sublist (drain_snd_sublist ..)

/-- The copies of a successful call. -/
theorem copyIntoTargets_eq {dup : ℕ → DupOutcome} {rem targs : List Pkg}
    (hret : (copyIntoTargets dup rem targs).1 = 0) :
    ∃ copies, (copyIntoTargets dup rem targs).2 = targs ++ copies ∧
      List.Forall₂ (fun copy pkg => ∃ addr, copy = pkg.copyAt addr) copies rem := by
  induction rem generalizing targs with
  | nil => exact ⟨[], by simp [copyIntoTargets], .nil⟩
  | cons pkg rem ih =>
    unfold copyIntoTargets at hret ⊢
    cases hdup : dup targs.length with
    | fatal => simp [hdup, pkgDup] at hret
    | nonfatal addr => simp [hdup, pkgDup] at hret
    | success addr =>
      simp only [hdup, pkgDup] at hret ⊢
      obtain ⟨copies, heq, hcopies⟩ := ih hret
      exact ⟨pkg.copyAt addr :: copies, by simpa using heq, .cons ⟨addr, rfl⟩ hcopies⟩

/-- A copy is the copy of a selected package. -/
theorem exists_of_mem_copies {copies rem : List Pkg}
    (h : List.Forall₂ (fun copy pkg => ∃ addr, copy = pkg.copyAt addr) copies rem) {copy : Pkg}
    (hcopy : copy ∈ copies) : ∃ pkg ∈ rem, ∃ addr, copy = pkg.copyAt addr := by
  induction h with
  | nil => simp at hcopy
  | cons hhead _ ih =>
    rcases List.mem_cons.mp hcopy with rfl | hcopy
    · exact ⟨_, List.mem_cons_self .., hhead⟩
    · obtain ⟨pkg, hpkg, haddr⟩ := ih hcopy
      exact ⟨pkg, List.mem_cons_of_mem _ hpkg, haddr⟩

/-- A package depends on a copy as on the package. -/
@[simp] theorem pkgDependsOn_copyAt (pkg1 pkg2 : Pkg) (addr : ℕ) :
    pkgDependsOn pkg1 (pkg2.copyAt addr) = pkgDependsOn pkg1 pkg2 := rfl

/-- **`_alpm_recursedeps` appends exactly the unneeded dependencies.**  A call that returns `0`
appends one copy of each candidate that is not needed, and then no installed package that stays has
a dependency that one of the copies satisfies.  For if it had, the package that was copied would be
needed, by the package that stays. -/
theorem recursedeps_appends {localdb targs : List Pkg} {e : Bool} {dup : ℕ → DupOutcome}
    (hlocal : (localdb.map Pkg.name).Nodup) (hret : (recursedeps localdb targs e dup).1 = 0) :
    ∃ copies rem, (recursedeps localdb targs e dup).2 = targs ++ copies ∧
      List.Forall₂ (fun copy pkg => ∃ addr, copy = pkg.copyAt addr) copies rem ∧
      rem.Nodup ∧
      (∀ pkg, pkg ∈ rem ↔ Candidate localdb (· ∈ targs) e pkg ∧
        ¬ Needed localdb (· ∈ targs) e pkg) ∧
      ∀ pkg, Stays localdb (· ∈ targs) pkg → pkg ∉ rem → ∀ copy ∈ copies,
        pkgDependsOn pkg copy = false := by
  obtain ⟨copies, heq, hcopies⟩ := copyIntoTargets_eq hret
  have hmem : ∀ pkg, pkg ∈ unneededDeps localdb targs e ↔
      Unneeded localdb (· ∈ targs) e pkg := fun _ => mem_unneededDeps hlocal
  refine ⟨copies, unneededDeps localdb targs e, heq, hcopies,
    nodup_unneededDeps hlocal targs e, hmem, ?_⟩
  intro pkg hstays hpkg copy hcopy
  obtain ⟨removed, hremoved, addr, rfl⟩ := exists_of_mem_copies hcopies hcopy
  rw [pkgDependsOn_copyAt, Bool.eq_false_iff]
  exact ((hmem removed).mp hremoved).not_pkgDependsOn hstays (mt (hmem pkg).mpr hpkg)

/-- Of two dependencies of a target the one that another package needs is kept. -/
theorem recursedeps_appends_two :
    let lib : Pkg := { name := str "lib", version := str "1", reason := .depend }
    let glibc : Pkg := { name := str "glibc", version := str "1", reason := .depend }
    let app : Pkg :=
      { name := str "app", version := str "1"
        depends := [{ name := str "lib" }, { name := str "glibc" }] }
    let shell : Pkg :=
      { name := str "sh", version := str "1", depends := [{ name := str "glibc" }] }
    (([lib, glibc, app, shell].map Pkg.name).Nodup ∧
        (recursedeps [lib, glibc, app, shell] [app] false fun n => .success n).1 = 0) ∧
      ∃ copies rem, (recursedeps [lib, glibc, app, shell] [app] false fun n => .success n).2 =
          [app] ++ copies ∧
        List.Forall₂ (fun copy pkg => ∃ addr, copy = pkg.copyAt addr) copies rem ∧
        rem.Nodup ∧
        (∀ pkg, pkg ∈ rem ↔ Candidate [lib, glibc, app, shell] (· ∈ [app]) false pkg ∧
          ¬ Needed [lib, glibc, app, shell] (· ∈ [app]) false pkg) ∧
        ∀ pkg, Stays [lib, glibc, app, shell] (· ∈ [app]) pkg → pkg ∉ rem → ∀ copy ∈ copies,
          pkgDependsOn pkg copy = false :=
  ⟨⟨by decide +kernel, by decide +kernel⟩,
    recursedeps_appends (by decide +kernel) (by decide +kernel)⟩

end Alpm
