import Alpm.Deps.Recursedeps
import Alpm.General.WorklistOrder

/-!
# The order of a recursive removal

`_alpm_recursedeps` appends what it selects in the order in which its worklist pulls it: a package
that is fewer dependencies away from the targets comes first, whether or not another one that comes
later depends on it.  A comment in the code says that the output is sorted topologically if the
input was, which this order does not give: when `a` needs `b` and `c`, and `c` needs `b`, then `b`
stands before `c` in the list and is removed before it (`recursedeps_unordered`).

`recursedeps_ordered_iff` is the exact condition.  The list that the call leaves is sorted like the
list of the targets if and only if every selected package is reached sooner than the selected
packages that it depends on, and none depends on a target.  What is reached sooner is a matter of
the dependencies and of the positions in the two lists: the routes of `General.WorklistOrder`, read
as chains of dependencies (`DependsRoute`).
-/

namespace Alpm

open Worklist

/-- Each package comes before the packages of the list that it depends on, so that a removal in this
order never takes away what a package that is still there needs. -/
def TopoSorted (pkgs : List Pkg) : Prop :=
  pkgs.Pairwise fun pkg1 pkg2 => pkgDependsOn pkg2 pkg1 = false

section

variable (localdb targs : List Pkg) (includeExplicit : Bool)

/-- The chains of dependencies from a target to a package that may be removed with it: the position
of the target in the list of targets, and those of the other packages in the database. -/
inductive DependsRoute : List ℕ → Pkg → Prop
  | target {i : ℕ} {targ : Pkg} : targs[i]? = some targ → DependsRoute [i] targ
  | dependency {w : List ℕ} {pkg : Pkg} {j : ℕ} {deppkg : Pkg} :
      DependsRoute w pkg → localdb[j]? = some deppkg → Stays localdb (· ∈ targs) deppkg →
        (includeExplicit ∨ deppkg.reason ≠ .explicit) → pkgDependsOn pkg deppkg →
          DependsRoute (w ++ [j]) deppkg

/-- Some chain to `pkg1` comes before all chains to `pkg2`, in the order by length and position.
The chains start at a target, and the positions are those in the list of targets and in the
database. -/
def ReachedSooner (pkg1 pkg2 : Pkg) : Prop :=
  ∃ w, DependsRoute localdb targs includeExplicit w pkg1 ∧
    ∀ w', DependsRoute localdb targs includeExplicit w' pkg2 → Before w w'

/-- The targets with their positions. -/
def numberedTargets : List (List ℕ × Pkg) := targs.zipIdx.map fun targ => ([targ.2], targ.1)

/-- What `keep` is before the loops, with the positions in the database. -/
def numberedKeep : List (ℕ × Pkg) :=
  (targs.foldl (listRemove pkgCmp) localdb).map fun pkg => (localdb.idxOf pkg, pkg)

end

variable {localdb targs : List Pkg} {e : Bool} {pkg pkg1 pkg2 : Pkg} {w : List ℕ}

/-! ## The numbered worklist -/

theorem map_snd_numberedTargets (targs : List Pkg) :
    (numberedTargets targs).map Prod.snd = targs := by
  rw [numberedTargets, List.map_map]
  exact List.zipIdx_map_fst 0 targs

theorem map_snd_numberedKeep (localdb targs : List Pkg) :
    (numberedKeep localdb targs).map Prod.snd = targs.foldl (listRemove pkgCmp) localdb := by
  rw [numberedKeep, List.map_map]
  exact List.map_id _

theorem foldl_listRemove_sublist (localdb targs : List Pkg) :
    (targs.foldl (listRemove pkgCmp) localdb).Sublist localdb := by
  induction targs generalizing localdb with
  | nil => exact List.Sublist.refl _
  | cons targ targs ih => exact (ih _).trans (listRemove_sublist ..)

theorem mem_keep_iff (hlocal : (localdb.map Pkg.name).Nodup) :
    pkg ∈ targs.foldl (listRemove pkgCmp) localdb ↔ Stays localdb (· ∈ targs) pkg := by
  rw [mem_foldl_listRemove pkgCmp_comparesBy hlocal, Stays, List.mem_map]

theorem queue_numbered (hlocal : (localdb.map Pkg.name).Nodup) (targs : List Pkg) :
    Queue (numberedTargets targs) (numberedKeep localdb targs) where
  sorted := by
    have hsorted : targs.zipIdx.Pairwise fun x y => x.2 < y.2 := by
      rw [← List.pairwise_map (R := (· < ·)), List.zipIdx_map_snd]
      exact List.pairwise_lt_range'
    refine List.pairwise_map.mpr (hsorted.imp fun hlt => ?_)
    exact Before.append_lt [] hlt
  near x hx y hy j := by
    obtain ⟨targ, -, rfl⟩ := List.mem_map.mp hx
    obtain ⟨targ', -, rfl⟩ := List.mem_map.mp hy
    exact List.Shortlex.of_length_lt (by simp)
  numbers := by
    have hsorted : localdb.Pairwise fun pkg1 pkg2 => localdb.idxOf pkg1 < localdb.idxOf pkg2 := by
      rw [List.pairwise_iff_getElem]
      intro i j hi hj hlt
      rwa [hlocal.of_map.idxOf_getElem, hlocal.of_map.idxOf_getElem]
    exact List.pairwise_map.mpr (hsorted.sublist (foldl_listRemove_sublist localdb targs))

theorem mem_numberedKeep_iff (hlocal : (localdb.map Pkg.name).Nodup) {j : ℕ} :
    (j, pkg) ∈ numberedKeep localdb targs ↔
      localdb[j]? = some pkg ∧ Stays localdb (· ∈ targs) pkg := by
  rw [numberedKeep, List.mem_map, ← mem_keep_iff hlocal]
  constructor
  · rintro ⟨pkg', hkeep, heq⟩
    obtain ⟨rfl, rfl⟩ := Prod.mk.inj heq
    have hlt := List.idxOf_lt_length_of_mem ((foldl_listRemove_sublist localdb targs).mem hkeep)
    rw [List.getElem?_eq_getElem hlt, List.getElem_idxOf hlt]
    exact ⟨rfl, hkeep⟩
  · rintro ⟨hj, hkeep⟩
    obtain ⟨hlt, rfl⟩ := List.getElem?_eq_some_iff.mp hj
    exact ⟨_, hkeep, by rw [hlocal.of_map.idxOf_getElem]⟩

theorem route_iff_dependsRoute (hlocal : (localdb.map Pkg.name).Nodup) :
    Route (selectsDepend e) (numberedTargets targs) (numberedKeep localdb targs) w pkg ↔
      DependsRoute localdb targs e w pkg := by
  constructor
  · intro h
    induction h with
    | start hmem =>
      obtain ⟨targ, htarg, heq⟩ := List.mem_map.mp hmem
      obtain ⟨rfl, rfl⟩ := Prod.mk.inj heq
      exact .target (List.mem_zipIdx_iff_getElem?.mp htarg)
    | step _ hpool hsel ih =>
      obtain ⟨hj, hstays⟩ := (mem_numberedKeep_iff hlocal).mp hpool
      obtain ⟨hreason, hdep⟩ := selectsDepend_iff.mp hsel
      exact ih.dependency hj hstays hreason hdep
  · intro h
    induction h with
    | @target i targ htarg =>
      exact .start (List.mem_map.mpr ⟨(targ, i), List.mem_zipIdx_iff_getElem?.mpr htarg, rfl⟩)
    | dependency _ hj hstays hreason hdep ih =>
      exact ih.step ((mem_numberedKeep_iff hlocal).mpr ⟨hj, hstays⟩)
        (selectsDepend_iff.mpr ⟨hreason, hdep⟩)

theorem sooner_iff_reachedSooner (hlocal : (localdb.map Pkg.name).Nodup) :
    Sooner (selectsDepend e) (numberedTargets targs) (numberedKeep localdb targs) pkg1 pkg2 ↔
      ReachedSooner localdb targs e pkg1 pkg2 := by
  simp only [Sooner, ReachedSooner, route_iff_dependsRoute hlocal]

theorem ReachedSooner.asymm (hlocal : (localdb.map Pkg.name).Nodup)
    (h : ReachedSooner localdb targs e pkg1 pkg2) : ¬ ReachedSooner localdb targs e pkg2 pkg1 :=
  fun h' => Sooner.asymm ((sooner_iff_reachedSooner hlocal).mpr h)
    ((sooner_iff_reachedSooner hlocal).mpr h')

/-! ## The order of the result -/

/-- What is added is in the order in which it is reached. -/
theorem pairwise_unneededDeps (hlocal : (localdb.map Pkg.name).Nodup) (targs : List Pkg)
    (e : Bool) : (unneededDeps localdb targs e).Pairwise (ReachedSooner localdb targs e) := by
  simp only [unneededDeps, foldl_selectDepends, selectRemovable_eq_drain, keepNeeded_eq_drain]
  refine List.Pairwise.sublist (drain_snd_sublist ..) ?_
  have hsnd := map_snd_numberedTargets targs
  have hpool := map_snd_numberedKeep localdb targs
  have hdrain :=
    @drain_append _ (selectsDepend e) targs [] (targs.foldl (listRemove pkgCmp) localdb)
  rw [List.append_nil] at hdrain
  have hpulled : (drain (selectsDepend e) ((numberedTargets targs).map Prod.snd)
      ((numberedKeep localdb targs).map Prod.snd)).1
      = (numberedTargets targs).map Prod.snd ++ (drain (selectsDepend e)
        (scan (selectsDepend e) targs [] (targs.foldl (listRemove pkgCmp) localdb)).1
        (scan (selectsDepend e) targs [] (targs.foldl (listRemove pkgCmp) localdb)).2).1 := by
    rw [hsnd, hpool, hdrain]
  refine (pairwise_sooner (queue_numbered hlocal targs) ?_ ?_ hpulled ?_).imp
    (sooner_iff_reachedSooner hlocal).mp
  · rw [hpool]
    exact hlocal.of_map.sublist (foldl_listRemove_sublist localdb targs)
  · intro x hx hmem
    rw [hpool, mem_keep_iff hlocal] at hmem
    have htarg : x.2 ∈ targs := by
      rw [← hsnd]
      exact List.mem_map_of_mem hx
    exact hmem.2 ⟨x.2, htarg, rfl⟩
  · intro b hb
    rw [hpool]
    exact (mem_drain_scan.mp hb).mem_pool

/-- No installed package depends on itself, through any number of other ones. -/
def Acyclic (localdb : List Pkg) : Prop :=
  ∀ pkg, ¬ Relation.TransGen
    (fun pkg1 pkg2 => pkg1 ∈ localdb ∧ pkg2 ∈ localdb ∧ pkgDependsOn pkg1 pkg2) pkg pkg

/-- Dependencies that lower a number have no cycles. -/
theorem acyclic_of_lt (rank : Pkg → ℕ) (h : ∀ pkg1 ∈ localdb, ∀ pkg2 ∈ localdb,
      pkgDependsOn pkg1 pkg2 → rank pkg2 < rank pkg1) : Acyclic localdb := by
  intro pkg hcycle
  have hlt : ∀ {pkg1 pkg2 : Pkg}, Relation.TransGen
      (fun pkg1 pkg2 => pkg1 ∈ localdb ∧ pkg2 ∈ localdb ∧ pkgDependsOn pkg1 pkg2) pkg1 pkg2 →
        rank pkg2 < rank pkg1 := by
    intro pkg1 pkg2 hdeps
    induction hdeps with
    | single hdep => exact h _ hdep.1 _ hdep.2.1 hdep.2.2
    | tail _ hdep ih => exact (h _ hdep.1 _ hdep.2.1 hdep.2.2).trans ih
  exact lt_irrefl _ (hlt hcycle)

/-- What is added is ordered if and only if it is reached in this order. -/
theorem topoSorted_unneededDeps_iff (hlocal : (localdb.map Pkg.name).Nodup)
    (hacyclic : Acyclic localdb) :
    TopoSorted (unneededDeps localdb targs e) ↔
      ∀ pkg1 pkg2, Unneeded localdb (· ∈ targs) e pkg1 → Unneeded localdb (· ∈ targs) e pkg2 →
        pkgDependsOn pkg2 pkg1 → ReachedSooner localdb targs e pkg2 pkg1 := by
  have hsorted := pairwise_unneededDeps hlocal targs e
  constructor
  · intro hordered pkg1 pkg2 h1 h2 hdep
    have hne : pkg1 ≠ pkg2 := by
      rintro rfl
      have hmem := h1.stays.1
      exact hacyclic pkg1 (.single ⟨hmem, hmem, hdep⟩)
    -- one of the two comes first in the list, and it cannot be the dependency
    have hboth : (unneededDeps localdb targs e).Pairwise fun p q =>
        pkgDependsOn q p = false ∧ ReachedSooner localdb targs e p q ∨
          pkgDependsOn p q = false ∧ ReachedSooner localdb targs e q p :=
      (hordered.and hsorted).imp Or.inl
    have hsymm : Std.Symm fun p q : Pkg =>
        pkgDependsOn q p = false ∧ ReachedSooner localdb targs e p q ∨
          pkgDependsOn p q = false ∧ ReachedSooner localdb targs e q p :=
      ⟨fun _ _ => Or.symm⟩
    have hpair := hboth.forall
      ((mem_unneededDeps hlocal).mpr h1) ((mem_unneededDeps hlocal).mpr h2) hne
    rcases hpair with ⟨hnot, -⟩ | ⟨-, hsooner⟩
    · exact absurd hdep (by rw [hnot]; exact Bool.false_ne_true)
    · exact hsooner
  · intro h
    refine hsorted.imp_of_mem fun {pkg1 pkg2} h1 h2 hsooner => ?_
    rw [Bool.eq_false_iff]
    intro hdep
    exact hsooner.asymm hlocal
      (h pkg1 pkg2 ((mem_unneededDeps hlocal).mp h1) ((mem_unneededDeps hlocal).mp h2) hdep)

/-- Copies are ordered like the packages. -/
theorem topoSorted_append_copies_iff {copies rem : List Pkg}
    (h : List.Forall₂ (fun copy pkg => ∃ addr, copy = pkg.copyAt addr) copies rem) :
    TopoSorted (targs ++ copies) ↔ TopoSorted (targs ++ rem) := by
  have hdepends : ∀ {l l' : List Pkg}, List.Forall₂ (fun copy pkg => ∃ addr, copy = pkg.copyAt addr)
      l l' → ∀ targ, (∀ copy ∈ l, pkgDependsOn copy targ = false) ↔
        ∀ pkg ∈ l', pkgDependsOn pkg targ = false := by
    intro l l' hcopies targ
    induction hcopies with
    | nil => simp
    | cons hcopy _ ih =>
      obtain ⟨addr, rfl⟩ := hcopy
      rw [List.forall_mem_cons, List.forall_mem_cons, ih]
      rfl
  have hcopies : TopoSorted copies ↔ TopoSorted rem := by
    induction h with
    | nil => rfl
    | cons hcopy hrest ih =>
      obtain ⟨addr, rfl⟩ := hcopy
      rw [TopoSorted, TopoSorted, List.pairwise_cons, List.pairwise_cons]
      exact and_congr (hdepends hrest _) ih
  rw [TopoSorted, TopoSorted, List.pairwise_append, List.pairwise_append]
  refine and_congr_right fun _ => and_congr hcopies ?_
  exact forall₂_congr fun targ _ => hdepends h targ

/-- **The order of a recursive removal.**  The list is ordered if and only if no added package
depends on a target and every added package is reached sooner than the added packages it depends on.
The added packages stand in the order in which they are reached, so of two of them the one that is
reached sooner stands first, and nothing else decides. -/
theorem recursedeps_ordered_iff {dup : ℕ → DupOutcome} (hlocal : (localdb.map Pkg.name).Nodup)
    (hacyclic : Acyclic localdb) (hordered : TopoSorted targs)
    (hret : (recursedeps localdb targs e dup).1 = 0) :
    TopoSorted (recursedeps localdb targs e dup).2 ↔
      (∀ targ ∈ targs, ∀ pkg, Unneeded localdb (· ∈ targs) e pkg →
        pkgDependsOn pkg targ = false) ∧
      ∀ pkg1 pkg2, Unneeded localdb (· ∈ targs) e pkg1 → Unneeded localdb (· ∈ targs) e pkg2 →
        pkgDependsOn pkg2 pkg1 → ReachedSooner localdb targs e pkg2 pkg1 := by
  obtain ⟨copies, heq, hcopies⟩ := copyIntoTargets_eq hret
  have heq : (recursedeps localdb targs e dup).2 = targs ++ copies := heq
  rw [heq, topoSorted_append_copies_iff hcopies, TopoSorted, List.pairwise_append]
  rw [← topoSorted_unneededDeps_iff hlocal hacyclic, TopoSorted]
  have htargets : (∀ targ ∈ targs, ∀ pkg ∈ unneededDeps localdb targs e,
      pkgDependsOn pkg targ = false) ↔ ∀ targ ∈ targs, ∀ pkg,
        Unneeded localdb (· ∈ targs) e pkg → pkgDependsOn pkg targ = false := by
    simp only [mem_unneededDeps hlocal]
  rw [htargets]
  constructor
  · rintro ⟨-, hrem, htargs⟩
    exact ⟨htargs, hrem⟩
  · rintro ⟨htargs, hrem⟩
    exact ⟨hordered, hrem, htargs⟩

/-- A dependency that is shared with a later one. -/
def sharedDependency : List Pkg := [
  { name := str "a", version := str "1", depends := [{ name := str "b" }, { name := str "c" }] },
  { name := str "b", version := str "1", reason := .depend },
  { name := str "c", version := str "1", reason := .depend, depends := [{ name := str "b" }] }]

theorem sharedDependency_acyclic : Acyclic sharedDependency :=
  acyclic_of_lt (·.depends.length) (by decide +kernel)

theorem recursedeps_ordered_iff_shared :
    TopoSorted
        (recursedeps sharedDependency (sharedDependency.take 1) false fun n => .success n).2 ↔
      (∀ targ ∈ sharedDependency.take 1, ∀ pkg,
        Unneeded sharedDependency (· ∈ sharedDependency.take 1) false pkg →
          pkgDependsOn pkg targ = false) ∧
      ∀ pkg1 pkg2, Unneeded sharedDependency (· ∈ sharedDependency.take 1) false pkg1 →
        Unneeded sharedDependency (· ∈ sharedDependency.take 1) false pkg2 →
          pkgDependsOn pkg2 pkg1 →
            ReachedSooner sharedDependency (sharedDependency.take 1) false pkg2 pkg1 :=
  recursedeps_ordered_iff (by decide +kernel) sharedDependency_acyclic
    (List.pairwise_singleton ..) (by decide +kernel)

/-- `a` needs `b` and `c`, and `c` needs `b`, which is removed before it. -/
theorem recursedeps_unordered :
    (sharedDependency.map Pkg.name).Nodup ∧ Acyclic sharedDependency ∧
      TopoSorted (sharedDependency.take 1) ∧
      (recursedeps sharedDependency (sharedDependency.take 1) false fun n => .success n).1 = 0 ∧
      ¬ TopoSorted (recursedeps sharedDependency (sharedDependency.take 1) false fun n =>
        .success n).2 :=
  ⟨by decide +kernel, sharedDependency_acyclic, List.pairwise_singleton .., by decide +kernel, by
    unfold TopoSorted
    decide +kernel⟩

end Alpm
