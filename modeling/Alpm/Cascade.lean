import Alpm.Sync.Targets

/-!
# The cascade as a least fixed point

`remove_prepare_cascade` computes the broken dependencies anew after every round, and pulls in for
each of them an installed package that breaks.  Where a dependency has several satisfiers it is
broken only when the last of them goes, so what a round pulls in depends on the order of the rounds
before it.

Whatever the order, the names in `trans->remove` are in the end the least set that has the targets
and everything installed that the set breaks (`CascadeClosed`).  That it is such a set is what the
last check says, which found nothing.  That it is the least is an induction over the rounds: what
breaks when a part of a closed set goes breaks when the closed set goes, because satisfiers that
stay outside of the set stay in both cases.

The statement is about names, because `_alpm_pkg_dup` puts a copy into the list and not the
installed package.  A round only fails where the memory for a copy is missing, and no package is
named twice.
-/

namespace Alpm

section

variable (ctx : DepContext) (localdb : List Pkg) (dup : ℕ → DupOutcome)

/-- A set of names that has the targets, and with them every installed package with a
dependency that only members of the set satisfy. -/
structure CascadeClosed (remove : List Pkg) (S : Set CString) : Prop where
  targets : ∀ pkg ∈ remove, pkg.name ∈ S
  closed : ∀ pkg ∈ localdb, ∀ depend ∈ pkg.depends,
    (∃ q ∈ localdb, q.name ∈ S ∧ depcmp q (ctx.effective depend)) →
    (∀ q ∈ localdb, q.name ∉ S → ¬ depcmp q (ctx.effective depend)) →
    ¬ depcmpProvides (ctx.effective depend) ctx.assumeinstalled → pkg.name ∈ S

variable {ctx localdb dup}

theorem CascadeClosed.name_mem {remove : List Pkg} {S : Set CString}
    (h : CascadeClosed ctx localdb remove S) {pkg : Pkg}
    (hpkg : Cascaded ctx localdb remove pkg) : pkg.name ∈ S := by
  induction hpkg with
  | target _ hname =>
    obtain ⟨t, ht, hname⟩ := List.mem_map.mp hname
    exact hname ▸ h.targets t ht
  | @dependant pkg depend hpkg hdep hsat hall hassume ih =>
    obtain ⟨q, hq, hcmp⟩ := hsat
    refine h.closed pkg hpkg depend hdep ⟨q, hq, ih q hq hcmp, hcmp⟩ ?_ hassume
    intro p hp hout hcmp
    exact hout (ih p hp hcmp)

/-- With memory for the copies a round does not fail. -/
theorem pullTargets_fst (hdup : ∀ n, dup n ≠ .fatal) (lp : List Depmissing)
    (remove : List Pkg) : (pullTargets localdb dup lp remove).1 = 0 := by
  induction lp generalizing remove with
  | nil => rfl
  | cons miss lp ih =>
    have hpull : (pullTarget localdb dup miss remove).1 ≠ -1 := by
      unfold pullTarget
      cases pkgFind localdb miss.target with
      | none => simp
      | some info =>
        have hcopied : (pkgDup (dup remove.length) info).1 ≠ -1 := by
          cases houtcome : dup remove.length with
          | fatal => exact absurd houtcome (hdup _)
          | nonfatal addr => simp [pkgDup]
          | success addr => simp [pkgDup]
        dsimp only
        split_ifs <;> simp
    rw [pullTargets]
    simp only [if_neg hpull]
    exact ih _

theorem removePrepareCascade_fst (hdup : ∀ n, dup n ≠ .fatal) (remove : List Pkg) :
    (removePrepareCascade ctx localdb dup remove).1 = 0 := by
  fun_induction removePrepareCascade ctx localdb dup remove with
  | case1 => rfl
  | case2 remove lp hlp round hret ih => exact ih
  | case3 remove lp hlp round hret => exact absurd (pullTargets_fst hdup lp remove) hret

/-- **The cascade ends with the least closed set of names**, and names no package twice.  A round
only fails where the memory for a copy is missing.  The set is closed because the last check finds
nothing, and it is the least because everything that a round pulls in is `Cascaded`, and so in every
closed set. -/
theorem removePrepareCascade_least (hlocal : (localdb.map Pkg.name).Nodup)
    (remove : List Pkg) :
    let final := removePrepareCascade ctx localdb dup remove
    ((∀ n, dup n ≠ .fatal) → final.1 = 0) ∧
      (final.1 = 0 →
        IsLeast {S | CascadeClosed ctx localdb remove S}
          {name | name ∈ final.2.map Pkg.name}) ∧
      ((remove.map Pkg.name).Nodup → (final.2.map Pkg.name).Nodup) := by
  refine ⟨fun hdup => removePrepareCascade_fst hdup remove, fun hret => ?_,
    fun hnodup => Sync.removePrepareCascade_distinct hnodup⟩
  obtain ⟨added, hadded, hpulled, hkind, hnone⟩ := removePrepareCascade_spec hlocal remove hret
  rw [hadded]
  constructor
  · refine ⟨fun pkg hpkg => ?_, fun pkg hpkg depend hdep hsat hout hassume => ?_⟩
    · exact List.mem_map_of_mem (List.mem_append_left _ hpkg)
    · by_contra hstays
      obtain ⟨q, hq, -, hcmp⟩ := hsat
      refine checkdeps_removal_eq_nil.mp hnone pkg (mem_notRemoved.mpr ⟨hpkg, hstays⟩)
        ⟨depend, hdep, ⟨q, hq, hcmp⟩, fun p hp hcmp => ?_, hassume⟩
      by_contra hp'
      exact hout p hp hp' hcmp
  · intro S hS name hname
    change name ∈ (remove ++ added).map Pkg.name at hname
    rw [List.map_append, List.mem_append] at hname
    rcases hname with hname | hname
    · obtain ⟨t, ht, rfl⟩ := List.mem_map.mp hname
      exact hS.targets t ht
    · obtain ⟨t, ht, rfl⟩ := List.mem_map.mp hname
      obtain ⟨pkg, hpkg, hsame⟩ := List.mem_map.mp (hpulled t ht).name_mem.1
      rw [← hsame]
      exact hS.name_mem (hkind pkg hpkg (hsame ▸ List.mem_map_of_mem ht))

/-- Two packages that provide the same dependency, removed in different rounds. -/
theorem removePrepareCascade_least_alternatives :
    let core : Pkg := { name := str "core", version := str "1" }
    let first : Pkg :=
      { name := str "first"
        version := str "1"
        depends := [{ name := str "core" }]
        provides := [{ name := str "virtual" }] }
    let second : Pkg :=
      { name := str "second"
        version := str "1"
        depends := [{ name := str "first" }]
        provides := [{ name := str "virtual" }] }
    let app : Pkg :=
      { name := str "app"
        version := str "1"
        depends := [{ name := str "virtual" }] }
    let localdb := [app, core, first, second]
    let final := removePrepareCascade { assumeinstalled := [] } localdb .success [core]
    final.1 = 0 ∧
      final.2.map Pkg.name = [str "core", str "first", str "second", str "app"] ∧
      IsLeast {S | CascadeClosed { assumeinstalled := [] } localdb [core] S}
        {name | name ∈ final.2.map Pkg.name} := by
  intro core first second app localdb final
  obtain ⟨hret, hleast, -⟩ := @removePrepareCascade_least { assumeinstalled := [] } localdb
    .success (by decide) [core]
  have hfinal : final.1 = 0 := hret fun n h => by cases h
  exact ⟨hfinal, by decide +kernel, hleast hfinal⟩

end

end Alpm
