import Alpm.Sync.Prepared

/-!
# Interrupted removals

`_alpm_sortbydeps` is there so that a removal takes dependants out before what they depend on.  What
that is good for shows when `alpm_trans_interrupt` ends the loop of `_alpm_remove_packages`:
whatever prefix of the sorted list is gone by then, the packages that are left have their
dependencies satisfied, but for those about which the sort has warned (`satisfied_of_interrupted`).

The argument has two halves.  A package that is left and is no target had its dependencies satisfied
by what stays, which is what the check of the preparation found.  A package that is left and is a
target comes later in the list than everything that is gone; if something that is gone satisfies its
dependency, the dependant comes after it, and the sort has warned about the pair
(`sortbydeps_warns`).

It takes that the database was consistent before, and that the check looked at versions, because the
check does not report what was broken already (`Strict`, `Consistent`).
-/

namespace Alpm

open Sync (DistinctNames)

section

variable {ctx : DepContext} {localdb : List Pkg} {dup : ℕ → DupOutcome}

/-! ## Prefixes of a sorted removal -/

/-- The list names packages of the database, by copies: each entry is a copy of an installed
package, as `_alpm_pkg_dup` makes them, and has its dependencies. -/
def RemovesCopies (localdb remove : List Pkg) : Prop :=
  ∀ t ∈ remove, ∃ pkg ∈ localdb, ∃ addr, t = pkg.copyAt addr

theorem Pkg.stands_copyAt (pkg : Pkg) (addr : ℕ) : (pkg.copyAt addr).Stands pkg :=
  ⟨rfl, rfl, rfl, rfl⟩

/-- Of two targets of which one depends on the other, the sort of a removal puts the dependant
first, or it warns. -/
theorem sortbydeps_warns (localdb targets ignore : List Pkg) (reverse : Bool)
    (hlocal : (localdb.map Pkg.name).Nodup) :
    ∃ result warnings, sortbydeps localdb targets ignore reverse = some (result, warnings) ∧
      result.Perm targets ∧
      ∀ u ∈ targets, ∀ v ∈ targets, u ≠ v → pkgDependsOn u v →
        Ordered reverse result v u ∨ ⟨u.name, v.name, reverse⟩ ∈ warnings := by
  rcases eq_or_ne targets [] with rfl | hne
  · exact ⟨[], [], if_pos rfl, List.Perm.refl _, fun u hu => absurd hu List.not_mem_nil⟩
  obtain ⟨s, a, hsort, hrunning, hagrees, hall⟩ := sortbydeps_ends localdb ignore reverse hne
  refine ⟨_, _, hsort, hrunning.perm hlocal hagrees hall, fun u hu v hv huv hdep => ?_⟩
  by_contra hnot
  obtain ⟨hunordered, hsilent⟩ := not_or.mp hnot
  refine hunordered ?_
  rw [hagrees.newtargs]
  refine ordered_of_pairwise huv (hrunning.invariant.edges.imp fun {i j} hedge hi hj =>
    hsilent ?_)
  obtain ⟨-, x, hx, rfl⟩ := targetData_eq_some.mp hi
  obtain ⟨-, y, hy, rfl⟩ := targetData_eq_some.mp hj
  have hij : i ≠ j := by
    rintro rfl
    exact huv (Option.some.inj (hi.symm.trans hj))
  have hchild := mem_childrenOf_depGraphInit.mpr ⟨x, y, hx, hy, hdep⟩
  exact hagrees.warnings i j (hedge hchild) hij _ _ hi hj

/-- In a list that comes from a sort without warnings, a dependant is in every prefix that
what it depends on is in. -/
theorem mem_prefix_of_sorted {targets done rest : List Pkg} {warnings : List CycleWarning}
    (hlocal : (localdb.map Pkg.name).Nodup)
    (hsort : sortbydeps localdb targets [] true = some (done ++ rest, warnings))
    {u v : Pkg} (hu : u ∈ done ++ rest) (hv : v ∈ done) (hdep : pkgDependsOn u v)
    (hsilent : ⟨u.name, v.name, true⟩ ∉ warnings) : u ∈ done := by
  obtain ⟨result, warnings', hsort', hperm, hordered⟩ :=
    sortbydeps_warns localdb targets [] true hlocal
  rw [hsort] at hsort'
  obtain ⟨rfl, rfl⟩ := Prod.mk.inj (Option.some.inj hsort')
  by_cases huv : u = v
  · exact huv ▸ hv
  have hv' : v ∈ done ++ rest := List.mem_append_left _ hv
  have hbefore : ComesBefore (done ++ rest) u v :=
    (hordered u (hperm.mem_iff.mp hu) v (hperm.mem_iff.mp hv') huv hdep).resolve_right hsilent
  rcases List.mem_append.mp hu with hu | hu
  · exact hu
  · obtain ⟨i, hi, rfl⟩ := List.getElem_of_mem hu
    obtain ⟨j, hj, rfl⟩ := List.getElem_of_mem hv
    have hlt := hbefore (done.length + i) j
      (by rw [List.getElem?_append_right (Nat.le_add_right ..), Nat.add_sub_cancel_left,
        List.getElem?_eq_getElem hi])
      (by rw [List.getElem?_append_left hj, List.getElem?_eq_getElem hj])
    omega

/-- **Every prefix of a removal leaves the dependencies satisfied**, except for those about
which the sort has warned: a target that is still there depends on one that is gone. -/
theorem satisfied_of_prefix (hversion : ctx.nodepversion = false)
    (hlocal : DistinctNames localdb) (hbefore : ctx.Consistent localdb)
    {targets done rest : List Pkg} {warnings : List CycleWarning}
    (hcopies : RemovesCopies localdb (done ++ rest))
    (hcheck : checkdeps ctx localdb (done ++ rest) [] true = [])
    (hsort : sortbydeps localdb targets [] true = some (done ++ rest, warnings))
    {pkg : Pkg} (hpkg : pkg ∈ notRemoved localdb done) {dep : Depend} (hdep : dep ∈ pkg.depends) :
    ctx.Satisfied (notRemoved localdb done) dep ∨
      ∃ v ∈ done, Alpm.depcmp v dep ∧ ⟨pkg.name, v.name, true⟩ ∈ warnings := by
  obtain ⟨hmem, hout⟩ := mem_notRemoved.mp hpkg
  by_cases htarget : pkg.name ∈ (done ++ rest).map Pkg.name
  · -- the package is a target itself, so its dependants in the list come first
    obtain ⟨u, hu, huname⟩ := List.mem_map.mp htarget
    obtain ⟨installed, hinstalled, addr, rfl⟩ := hcopies u hu
    obtain rfl : installed = pkg := List.inj_on_of_nodup_map hlocal hinstalled hmem huname
    rcases hbefore installed hmem dep hdep with ⟨q, hq, hsat⟩ | hassume
    · by_cases hgone : q.name ∈ done.map Pkg.name
      · obtain ⟨v, hv, hvname⟩ := List.mem_map.mp hgone
        obtain ⟨installed', hinstalled', addr', rfl⟩ := hcopies v (List.mem_append_left _ hv)
        obtain rfl : installed' = q := List.inj_on_of_nodup_map hlocal hinstalled' hq hvname
        have hsat' : Alpm.depcmp (installed'.copyAt addr') dep :=
          ((installed'.stands_copyAt addr').depcmp dep).trans hsat
        refine Or.inr ⟨_, hv, hsat', ?_⟩
        by_contra hsilent
        refine hout (List.mem_map.mpr ⟨_, ?_, huname⟩)
        exact mem_prefix_of_sorted hlocal hsort hu hv
          (pkgDependsOn_iff.mpr ⟨dep, hdep, hsat'⟩) hsilent
      · exact Or.inl (Or.inl ⟨q, mem_notRemoved.mpr ⟨hq, hgone⟩, hsat⟩)
    · exact Or.inl (Or.inr hassume)
  · -- the package stays, and the check has looked at it
    have hstays : pkg ∈ resultPkgs localdb (done ++ rest) [] := by
      rw [resultPkgs_removal]
      exact mem_notRemoved.mpr ⟨hmem, htarget⟩
    refine Or.inl ?_
    refine (consistent_of_checkdeps hversion hbefore hcheck pkg hstays dep hdep).imp_left ?_
    rintro ⟨q, hq, hsat⟩
    rw [resultPkgs_removal] at hq
    obtain ⟨hq, hnot⟩ := mem_notRemoved.mp hq
    rw [List.map_append, List.mem_append, not_or] at hnot
    exact ⟨q, mem_notRemoved.mpr ⟨hq, hnot.1⟩, hsat⟩

/-! ## What a preparation removes -/

theorem RemovesCopies.append {remove added : List Pkg} (h : RemovesCopies localdb remove)
    (hadded : RemovesCopies localdb added) : RemovesCopies localdb (remove ++ added) :=
  fun t ht => (List.mem_append.mp ht).elim (h t) (hadded t)

theorem removesCopies_recursedeps {targs : List Pkg} {e : Bool}
    (hlocal : DistinctNames localdb) (h : RemovesCopies localdb targs)
    (hret : (recursedeps localdb targs e dup).1 = 0) :
    RemovesCopies localdb (recursedeps localdb targs e dup).2 := by
  obtain ⟨copies, heq, hcopies⟩ := copyIntoTargets_eq hret
  rw [show (recursedeps localdb targs e dup).2 = targs ++ copies from heq]
  refine h.append fun t ht => ?_
  obtain ⟨pkg, hpkg, haddr⟩ := exists_of_mem_copies hcopies ht
  exact ⟨pkg, ((mem_unneededDeps hlocal).mp hpkg).stays.1, haddr⟩

theorem removesCopies_removeCheckdeps {flags : TransFlags} {remove : List Pkg}
    (hlocal : DistinctNames localdb) (h : RemovesCopies localdb remove)
    (hret : (removeCheckdeps ctx localdb dup flags remove).ret = 0) :
    RemovesCopies localdb (removeCheckdeps ctx localdb dup flags remove).remove := by
  dsimp only [removeCheckdeps] at hret ⊢
  split_ifs at hret ⊢
  · exact h
  · obtain ⟨added, hadded, hpulled, -⟩ := removePrepareCascade_spec hlocal remove hret
    rw [hadded]
    refine h.append fun t ht => ?_
    obtain ⟨info, hinfo, haddr⟩ := hpulled t ht
    exact ⟨info, (mem_notRemoved.mp hinfo).1, haddr⟩
  · exact fun t ht => h t ((Sync.removePrepareKeepNeeded_sublist remove).subset ht)
  · exact h

/-- Whatever a preparation adds to the list are copies of installed packages. -/
theorem removesCopies_removePrepare {flags : TransFlags} {assumeinstalled : List Depend}
    {remove : List Pkg} (hlocal : DistinctNames localdb) (hnodeps : flags.nodeps = false)
    (h : RemovesCopies localdb remove)
    (hret : (removePrepare localdb dup flags assumeinstalled remove).ret = 0) :
    RemovesCopies localdb (removePrepare localdb dup flags assumeinstalled remove).remove := by
  unfold removePrepare at hret ⊢
  simp only [hnodeps, Bool.false_eq_true, if_false] at hret ⊢
  -- the recursion before the check
  generalize hrecursed : (if flags.recurse ∧ ¬ flags.cascade
    then recursedeps localdb remove flags.recurseall dup else (0, remove)) = recursed at hret ⊢
  have hfirst : recursed.1 = 0 → RemovesCopies localdb recursed.2 := by
    rw [← hrecursed]
    split_ifs
    · exact removesCopies_recursedeps hlocal h
    · exact fun _ => h
  by_cases hzero : recursed.1 = 0
  swap
  · rw [if_pos hzero] at hret
    exact absurd hret (show ¬ (-1 : Int) = 0 by decide)
  rw [if_neg (not_not.mpr hzero)] at hret ⊢
  by_cases hchecked :
      (removeCheckdeps (flags.depContext assumeinstalled) localdb dup flags recursed.2).ret = 0
  swap
  · rw [if_pos hchecked] at hret
    exact absurd hret (show ¬ (-1 : Int) = 0 by decide)
  rw [if_neg (not_not.mpr hchecked)] at hret ⊢
  have hsecond := removesCopies_removeCheckdeps hlocal (hfirst hzero) hchecked
  -- and the recursion after a cascade
  by_cases hboth : flags.cascade ∧ flags.recurse
  · simp only [if_pos hboth] at hret ⊢
    refine removesCopies_recursedeps hlocal hsecond ?_
    by_contra hfail
    rw [if_pos hfail] at hret
    exact absurd hret (by decide)
  · simp only [if_neg hboth]
    exact hsecond

end

/-! ## Interruptions -/

namespace Sync

section

variable {handle : Handle} {env : PrepareEnv} {s t : Session} {data : List ErrorData}
  {sorted : List Pkg} {warnings : List CycleWarning}

/-- **However a removal is interrupted**, the dependencies of the packages that are left are
satisfied, except for those about which `_alpm_sortbydeps` has warned.  A package that is no target
is covered by the check, and a target that is left comes behind everything that is gone, so what it
needs is still there, or the sort has put the two in the wrong order and said so. -/
theorem satisfied_of_interrupted (hlocal : DistinctNames handle.dbLocal.pkgcache)
    (hstrict : Strict s.trans.flags)
    (hbefore : (s.trans.flags.depContext handle.assumeinstalled).Consistent
      handle.dbLocal.pkgcache)
    (hcopies : RemovesCopies handle.dbLocal.pkgcache s.trans.remove)
    (hprepare : prepareRemoval handle env s = .ok data t)
    (hsort : sortbydeps handle.dbLocal.pkgcache t.trans.remove [] true = some (sorted, warnings))
    (ctx : CommitContext) (signal : ℕ → Bool) (fs : FileSystem) :
    let left := (ctx.commitUntil signal sorted [] fs handle.dbLocal.pkgcache).2.localdb
    ∀ pkg ∈ left, ∀ dep ∈ pkg.depends,
      (s.trans.flags.depContext handle.assumeinstalled).Satisfied left dep ∨
        ∃ v ∈ sorted, v.name ∉ left.map Pkg.name ∧ depcmp v dep ∧
          ⟨pkg.name, v.name, true⟩ ∈ warnings := by
  intro left pkg hpkg dep hdep
  obtain ⟨-, -, hcheck⟩ := prepareRemoval_checkdeps hlocal hstrict hprepare
  have hremoves : RemovesCopies handle.dbLocal.pkgcache t.trans.remove := by
    unfold prepareRemoval at hprepare
    simp only at hprepare
    split_ifs at hprepare with hret
    obtain ⟨-, rfl⟩ := Outcome.ok.inj hprepare
    exact removesCopies_removePrepare hlocal hstrict.nodeps hcopies
      ((removePrepare_ret _ _ _ _ _).resolve_right hret)
  -- the sort rearranges the list, so the check speaks of the sorted one too
  obtain ⟨result, warnings', hsort', hperm, -⟩ :=
    sortbydeps_warns handle.dbLocal.pkgcache t.trans.remove [] true hlocal
  obtain ⟨rfl, rfl⟩ := Prod.mk.inj (Option.some.inj (hsort.symm.trans hsort'))
  have hnotRemoved : ∀ {p : Pkg}, p ∈ notRemoved handle.dbLocal.pkgcache sorted ↔
      p ∈ notRemoved handle.dbLocal.pkgcache t.trans.remove := by
    intro p
    rw [mem_notRemoved, mem_notRemoved, (hperm.map Pkg.name).mem_iff]
  have hcheck' : checkdeps (s.trans.flags.depContext handle.assumeinstalled)
      handle.dbLocal.pkgcache sorted [] true = [] := by
    rw [checkdeps_removal_eq_nil] at hcheck ⊢
    intro p hp hbreaks
    refine hcheck p (hnotRemoved.mp hp) (hbreaks.mono fun q _ hq => ?_)
    exact (hperm.map Pkg.name).mem_iff.mp hq
  -- what is left is what a prefix of the list does not name
  obtain ⟨done, rest, rfl, hlocaldb, -⟩ :=
    @CommitContext.removeUntil_localdb ctx signal 0 sorted
      { fs, localdb := handle.dbLocal.pkgcache }
  have hleft : ∀ {p : Pkg}, p ∈ left ↔ p ∈ notRemoved handle.dbLocal.pkgcache done := by
    intro p
    rw [mem_notRemoved, ← mem_foldl_listRemove pkgCmp_comparesBy hlocal, ← hlocaldb]
    rfl
  rcases satisfied_of_prefix (by simp [TransFlags.depContext, hstrict.nodepversion]) hlocal hbefore
    (fun u hu => hremoves u (hperm.mem_iff.mp hu)) hcheck' hsort (hleft.mp hpkg) hdep with
    hsat | ⟨v, hv, hcmp, hwarned⟩
  · refine Or.inl (hsat.imp_left ?_)
    rintro ⟨q, hq, hcmp⟩
    exact ⟨q, hleft.mpr hq, hcmp⟩
  · refine Or.inr ⟨v, List.mem_append_left _ hv, fun hname => ?_, hcmp, hwarned⟩
    obtain ⟨q, hq, hqname⟩ := List.mem_map.mp hname
    exact (mem_notRemoved.mp (hleft.mp hq)).2 (hqname ▸ List.mem_map_of_mem hv)

/-- `app` depends on `lib`, and both are installed. -/
def appHandle : Handle where
  dbLocal :=
    { treename := str "local"
      pkgcache := [
        { name := str "app"
          version := str "1-1"
          depends := [{ name := str "lib" }] },
        { addr := 1
          name := str "lib"
          version := str "1-1" }] }
  dbsSync := []
  fnmatch _ _ := false
  answer _ := 0

/-- The removal of both, the library first. -/
def appRemoval : Session where
  trans :=
    { flags := {}
      state := .initialized
      remove := appHandle.dbLocal.pkgcache.reverse.map (·.copyAt 2) }

/-- The removal stops after the first package, which is `app`. -/
theorem satisfied_of_interrupted_app :
    ∃ data t sorted warnings,
      prepareRemoval appHandle ⟨.success, .success, fun _ => none, true⟩ appRemoval =
        .ok data t ∧
      sortbydeps appHandle.dbLocal.pkgcache t.trans.remove [] true = some (sorted, warnings) ∧
      let left := (CommitContext.commitUntil ⟨RegularTransaction.plainSystem, {}, {}, []⟩
        (fun i => i = 1) sorted [] .empty appHandle.dbLocal.pkgcache).2.localdb
      ∀ pkg ∈ left, ∀ dep ∈ pkg.depends,
        (appRemoval.trans.flags.depContext appHandle.assumeinstalled).Satisfied left dep ∨
          ∃ v ∈ sorted, v.name ∉ left.map Pkg.name ∧ depcmp v dep ∧
            ⟨pkg.name, v.name, true⟩ ∈ warnings := by
  obtain ⟨data, t, hprepare⟩ : ∃ data t, prepareRemoval appHandle
      ⟨.success, .success, fun _ => none, true⟩ appRemoval = .ok data t := by
    have hret : (removePrepare appHandle.dbLocal.pkgcache .success {} []
        appRemoval.trans.remove).ret ≠ -1 := by decide +kernel
    unfold prepareRemoval
    exact ⟨_, _, if_neg hret⟩
  have hlocal : DistinctNames appHandle.dbLocal.pkgcache := by
    show [str "app", str "lib"].Nodup
    decide
  obtain ⟨sorted, warnings, hsort, -⟩ :=
    sortbydeps_warns appHandle.dbLocal.pkgcache t.trans.remove [] true hlocal
  refine ⟨data, t, sorted, warnings, hprepare, hsort,
    satisfied_of_interrupted hlocal ⟨rfl, rfl⟩ ?_ ?_ hprepare hsort _ _ _⟩
  · unfold DepContext.Consistent DepContext.Satisfied
    decide +kernel
  · intro u hu
    obtain ⟨pkg, hpkg, rfl⟩ := List.mem_map.mp hu
    exact ⟨pkg, List.mem_reverse.mp hpkg, 2, rfl⟩

end

end Sync

end Alpm
