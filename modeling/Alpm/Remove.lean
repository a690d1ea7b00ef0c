import Alpm.Deps.Checkdeps
import Alpm.Deps.Recursedeps

/-!
# Preparing a removal

`_alpm_remove_prepare`, with its three ways to deal with a dependency that a removal would break: it
can take the dependants too (`CASCADE`), leave out the targets that are needed (`UNNEEDED`), or
fail.

## 1.  The rounds

The loops of `remove_prepare_cascade` and `remove_prepare_keep_needed` call `alpm_checkdeps` on the
current `trans->remove` before every round, and their first list is the one of the same call in
`_alpm_remove_prepare`; here each round makes that call itself.  A round of the cascade adds an
installed package whose name was not in the list, a round of the other loop takes one out, so both
end.

## 2.  What the cascade computes

A package breaks when something that goes satisfied one of its dependencies and nothing that stays
does (`Breaks`).  `Cascaded` is the least set of packages that has the targets and what breaks when
all of it goes, and `cascaded_iff` says that the cascade ends with just these.

## 3.  Where the result is not safe

The final list breaks nothing for every combination of the flags except one.  With `CASCADE`,
`RECURSE` and `NODEPVERSION` the recursive selection comes after the last check, and it looks at the
version requirements that the check leaves out (`checkdeps_removePrepare`).
-/

namespace Alpm

/-! ## The loops -/

section

variable (ctx : DepContext) (localdb : List Pkg) (dup : ℕ → DupOutcome)

/-- One entry of the list in `remove_prepare_cascade`: `-1` if `_alpm_pkg_dup` fails, and
`trans->remove`.  A call of `_alpm_pkg_dup` is identified by the length of the list. -/
def pullTarget (miss : Depmissing) (remove : List Pkg) : Int × List Pkg :=
  match pkgFind localdb miss.target with
  | some info =>
    if (pkgFind remove info.name).isSome then (0, remove)
    else
      let (ret, copy) := pkgDup (dup remove.length) info
      if ret = -1 then (-1, remove) else (0, remove ++ copy.toList)
  | none => (0, remove)

/-- One round of `remove_prepare_cascade`. -/
def pullTargets : List Depmissing → List Pkg → Int × List Pkg
  | [], remove => (0, remove)
  | miss :: lp, remove =>
    let (ret, remove) := pullTarget localdb dup miss remove
    if ret = -1 then (-1, remove) else pullTargets lp remove

/-- The packages of the local database that `trans->remove` does not name. -/
def notRemoved (remove : List Pkg) : List Pkg :=
  localdb.filter (·.name ∉ remove.map Pkg.name)

/-- A copy of an installed package that `remove` does not name. -/
def IsPulled (remove : List Pkg) (t : Pkg) : Prop :=
  ∃ info ∈ notRemoved localdb remove, ∃ addr, t = info.copyAt addr

variable {localdb dup}

theorem mem_notRemoved {remove : List Pkg} {pkg : Pkg} :
    pkg ∈ notRemoved localdb remove ↔ pkg ∈ localdb ∧ pkg.name ∉ remove.map Pkg.name := by
  simp only [notRemoved, List.mem_filter, decide_eq_true_eq]

theorem notRemoved_append (remove added : List Pkg) :
    notRemoved localdb (remove ++ added) = notRemoved (notRemoved localdb remove) added := by
  simp only [notRemoved, List.filter_filter, List.map_append, List.mem_append, not_or]
  exact List.filter_congr fun pkg _ => by simp [Bool.and_comm]

/-- Naming one more package leaves fewer. -/
theorem length_notRemoved_lt {remove added : List Pkg} {pkg : Pkg}
    (hpkg : pkg ∈ notRemoved localdb remove) (hadded : pkg.name ∈ added.map Pkg.name) :
    (notRemoved localdb (remove ++ added)).length < (notRemoved localdb remove).length := by
  rw [notRemoved_append]
  exact List.length_filter_lt_length_iff_exists.mpr ⟨pkg, hpkg, by simpa using hadded⟩

theorem pkgDup_cases (outcome : DupOutcome) (pkg : Pkg) :
    (pkgDup outcome pkg = (-1, none)) ∨
      ∃ addr, (pkgDup outcome pkg).1 ≠ -1 ∧ (pkgDup outcome pkg).2 = some (pkg.copyAt addr) := by
  cases outcome with
  | fatal => exact Or.inl rfl
  | nonfatal addr => exact Or.inr ⟨addr, by simp [pkgDup], rfl⟩
  | success addr => exact Or.inr ⟨addr, by simp [pkgDup], rfl⟩

theorem IsPulled.name_mem {remove : List Pkg} {t : Pkg} (h : IsPulled localdb remove t) :
    t.name ∈ localdb.map Pkg.name ∧ t.name ∉ remove.map Pkg.name := by
  obtain ⟨info, hinfo, addr, rfl⟩ := h
  obtain ⟨hmem, hname⟩ := mem_notRemoved.mp hinfo
  rw [Pkg.copyAt_name]
  exact ⟨List.mem_map_of_mem hmem, hname⟩

/-- What is pulled into a longer list could be pulled into the shorter one. -/
theorem IsPulled.of_append {remove added : List Pkg} {t : Pkg}
    (h : IsPulled localdb (remove ++ added) t) : IsPulled localdb remove t := by
  obtain ⟨info, hinfo, haddr⟩ := h
  rw [notRemoved_append] at hinfo
  exact ⟨info, (mem_notRemoved.mp hinfo).1, haddr⟩

variable (localdb dup) in
theorem pullTarget_spec (miss : Depmissing) (remove : List Pkg) :
    ∃ added, (pullTarget localdb dup miss remove).2 = remove ++ added ∧
      (∀ t ∈ added, IsPulled localdb remove t ∧ t.name = miss.target) ∧
      ((pullTarget localdb dup miss remove).1 ≠ -1 → miss.target ∈ localdb.map Pkg.name →
        miss.target ∈ (remove ++ added).map Pkg.name) := by
  unfold pullTarget
  cases hfind : pkgFind localdb miss.target with
  | none => exact ⟨[], by simp, by simp, fun _ h => absurd h (pkgFind_eq_none.mp hfind)⟩
  | some info =>
    obtain ⟨hinfo, hname⟩ := pkgFind_eq_some hfind
    by_cases hin : (pkgFind remove info.name).isSome
    · refine ⟨[], by simp [hin], by simp, fun _ _ => ?_⟩
      rw [List.append_nil, ← hname]
      exact pkgFind_isSome.mp hin
    · rcases pkgDup_cases (dup remove.length) info with hdup | ⟨addr, hret, hcopy⟩
      · exact ⟨[], by simp [hin, hdup], by simp, fun h => absurd (by simp [hin, hdup]) h⟩
      · refine ⟨[info.copyAt addr], by simp [hin, hret, hcopy], ?_, fun _ _ => by simp [hname]⟩
        have hout : info ∈ notRemoved localdb remove :=
          mem_notRemoved.mpr ⟨hinfo, fun h => hin (pkgFind_isSome.mpr h)⟩
        simpa [hname] using ⟨info, hout, addr, rfl⟩

variable (localdb dup) in
/-- **What one round adds** are copies of missing targets, of installed packages that the list did
not name.  After a round that does not fail it names every missing target that is installed. -/
theorem pullTargets_spec (lp : List Depmissing) (remove : List Pkg) :
    ∃ added, (pullTargets localdb dup lp remove).2 = remove ++ added ∧
      (∀ t ∈ added, IsPulled localdb remove t ∧ ∃ miss ∈ lp, t.name = miss.target) ∧
      ((pullTargets localdb dup lp remove).1 = 0 → ∀ miss ∈ lp,
        miss.target ∈ localdb.map Pkg.name → miss.target ∈ (remove ++ added).map Pkg.name) := by
  induction lp generalizing remove with
  | nil => exact ⟨[], by simp [pullTargets], by simp, by simp⟩
  | cons miss lp ih =>
    obtain ⟨added, hadded, hpulled, hhead⟩ := pullTarget_spec localdb dup miss remove
    rw [pullTargets]
    by_cases hret : (pullTarget localdb dup miss remove).1 = -1
    · refine ⟨added, by simp [hret, hadded], fun t ht => ?_, fun h => by simp [hret] at h⟩
      exact ⟨(hpulled t ht).1, miss, List.mem_cons_self .., (hpulled t ht).2⟩
    · obtain ⟨added', hadded', hpulled', htail⟩ := ih (remove ++ added)
      simp only [hret, if_false, hadded, hadded'] at htail ⊢
      refine ⟨added ++ added', List.append_assoc .., ?_, ?_⟩
      · intro t ht
        rcases List.mem_append.mp ht with ht | ht
        · exact ⟨(hpulled t ht).1, miss, List.mem_cons_self .., (hpulled t ht).2⟩
        · obtain ⟨hp, miss', hmem, hname⟩ := hpulled' t ht
          exact ⟨hp.of_append, miss', List.mem_cons_of_mem _ hmem, hname⟩
      · intro hzero miss' hmem hlocal
        rw [← List.append_assoc]
        rcases List.mem_cons.mp hmem with rfl | hmem
        · rw [List.map_append]
          exact List.mem_append_left _ (hhead hret hlocal)
        · exact htail hzero miss' hmem hlocal

/-! ## What the check reports -/

variable (localdb) in
/-- The removal of `gone` breaks a dependency: it was satisfied, and everything that
satisfied it goes. -/
def Breaks (gone : Pkg → Prop) (pkg : Pkg) : Prop :=
  ∃ depend ∈ pkg.depends, (∃ q ∈ localdb, depcmp q (ctx.effective depend)) ∧
    (∀ q ∈ localdb, depcmp q (ctx.effective depend) → gone q) ∧
    ¬ depcmpProvides (ctx.effective depend) ctx.assumeinstalled

variable {ctx}

theorem Breaks.mono {gone gone' : Pkg → Prop} (hgone : ∀ q ∈ localdb, gone q → gone' q)
    {pkg : Pkg} (h : Breaks ctx localdb gone pkg) : Breaks ctx localdb gone' pkg := by
  obtain ⟨depend, hdep, hsat, hall, hassume⟩ := h
  exact ⟨depend, hdep, hsat, fun q hq hcmp => hgone q hq (hall q hq hcmp), hassume⟩

theorem keptPkgs_removal (remove : List Pkg) : keptPkgs localdb remove [] =
    notRemoved localdb remove := by
  refine List.filter_congr fun pkg _ => ?_
  rw [Bool.eq_iff_iff, Bool.not_eq_true', ← Bool.not_eq_true, decide_eq_true_eq, isModified,
    Bool.or_eq_true, pkgFind_isSome, pkgFind_isSome]
  simp

theorem resultPkgs_removal (remove : List Pkg) :
    resultPkgs localdb remove [] = notRemoved localdb remove := by
  rw [resultPkgs, keptPkgs_removal, List.append_nil]

theorem mem_modified_removal {remove : List Pkg} {q : Pkg} :
    q ∈ localdb.filter (isModified remove []) ↔
      q ∈ localdb ∧ q.name ∈ remove.map Pkg.name := by
  rw [List.mem_filter, isModified, Bool.or_eq_true, pkgFind_isSome, pkgFind_isSome]
  simp

/-- A dependency breaks if something that goes satisfied it and nothing that stays does. -/
theorem breaks_iff {remove : List Pkg} {pkg : Pkg} :
    Breaks ctx localdb (·.name ∈ remove.map Pkg.name) pkg ↔ ∃ depend ∈ pkg.depends,
      ¬ ctx.Satisfied (resultPkgs localdb remove []) (ctx.effective depend) ∧
        (findDepSatisfier (localdb.filter (isModified remove []))
          (ctx.effective depend)).isSome := by
  refine exists_congr fun depend => and_congr_right fun _ => ?_
  rw [resultPkgs_removal, DepContext.Satisfied, findDepSatisfier_isSome, not_or]
  simp only [mem_notRemoved, mem_modified_removal]
  constructor
  · rintro ⟨⟨q, hq, hcmp⟩, hall, hassume⟩
    refine ⟨⟨?_, hassume⟩, q, ⟨hq, hall q hq hcmp⟩, hcmp⟩
    rintro ⟨p, hp, hcmp⟩
    exact hp.2 (hall p hp.1 hcmp)
  · rintro ⟨⟨hnone, hassume⟩, q, hq, hcmp⟩
    refine ⟨⟨q, hq.1, hcmp⟩, fun p hp hcmp => ?_, hassume⟩
    by_contra hstays
    exact hnone ⟨p, ⟨hp, hstays⟩, hcmp⟩

/-- **The entries for a removal** name a package that breaks and one that goes.  A package that was
broken before the removal is not named, as nothing that goes satisfied its dependency. -/
theorem mem_checkdeps_removal {remove : List Pkg} {miss : Depmissing}
    (h : miss ∈ checkdeps ctx localdb remove [] true) :
    ∃ pkg ∈ notRemoved localdb remove, pkg.name = miss.target ∧
      Breaks ctx localdb (·.name ∈ remove.map Pkg.name) pkg ∧
      ∃ cause : Pkg, cause.name ∈ remove.map Pkg.name ∧ miss.causingpkg = some cause.name := by
  rcases mem_checkdeps.mp h with ⟨tp, htp, -⟩ |
    ⟨-, pkg, hpkg, depend, hdep, hmiss, cause, hcause, rfl⟩
  · exact absurd htp List.not_mem_nil
  · rw [keptPkgs_removal] at hpkg
    refine ⟨pkg, hpkg, rfl, breaks_iff.mpr ⟨depend, hdep, hmiss, ?_⟩, cause, ?_, rfl⟩
    · exact Option.isSome_of_mem hcause
    · exact (mem_modified_removal.mp (findDepSatisfier_eq_some hcause).1).2

/-- **The check of a removal finds nothing** if nothing that stays breaks, and only then.  So the
last check of a loop says of its final list what `Breaks` says. -/
theorem checkdeps_removal_eq_nil {remove : List Pkg} :
    checkdeps ctx localdb remove [] true = [] ↔ ∀ pkg ∈ notRemoved localdb remove,
      ¬ Breaks ctx localdb (·.name ∈ remove.map Pkg.name) pkg := by
  rw [List.eq_nil_iff_forall_not_mem]
  constructor
  · intro h pkg hpkg hbreaks
    obtain ⟨depend, hdep, hmiss, hcause⟩ := breaks_iff.mp hbreaks
    obtain ⟨cause, hcause⟩ := Option.isSome_iff_exists.mp hcause
    rw [← keptPkgs_removal] at hpkg
    exact h _ (mem_checkdeps.mpr (Or.inr ⟨rfl, pkg, hpkg, depend, hdep, hmiss, cause, hcause, rfl⟩))
  · intro h miss hmiss
    obtain ⟨pkg, hpkg, -, hbreaks, -⟩ := mem_checkdeps_removal hmiss
    exact h pkg hpkg hbreaks

/-! ## The rounds -/

variable (ctx localdb dup)

/-- `remove_prepare_cascade`: the return value and `trans->remove`.  It ends when the check finds
nothing, or when a copy fails. -/
def removePrepareCascade (remove : List Pkg) : Int × List Pkg :=
  let lp := checkdeps ctx localdb remove [] true
  if _hlp : lp = [] then (0, remove)
  else
    let round := pullTargets localdb dup lp remove
    if _hret : round.1 = 0 then removePrepareCascade round.2 else round
  termination_by (notRemoved localdb remove).length
  decreasing_by
    obtain ⟨added, hadded, -, hpulled⟩ := pullTargets_spec localdb dup lp remove
    obtain ⟨miss, hmiss⟩ := List.exists_mem_of_ne_nil lp _hlp
    obtain ⟨pkg, hpkg, htarget, -⟩ := mem_checkdeps_removal hmiss
    obtain ⟨hlocal, hout⟩ := mem_notRemoved.mp hpkg
    have hin := hpulled _hret miss hmiss (htarget ▸ List.mem_map_of_mem hlocal)
    rw [← htarget, List.map_append, List.mem_append] at hin
    rw [show round.2 = remove ++ added from hadded]
    exact length_notRemoved_lt hpkg (hin.resolve_left hout)

/-- One entry of the list in `remove_prepare_keep_needed`. -/
def dropCausing (remove : List Pkg) (miss : Depmissing) : List Pkg :=
  match miss.causingpkg.bind (pkgFind remove) with
  | none => remove
  | some pkg => listRemove pkgCmp remove pkg

theorem dropCausing_sublist (remove : List Pkg) (miss : Depmissing) :
    (dropCausing remove miss).Sublist remove := by
  unfold dropCausing
  cases miss.causingpkg.bind (pkgFind remove) with
  | none => exact List.Sublist.refl _
  | some pkg => exact listRemove_sublist pkgCmp remove pkg

theorem length_dropCausing_lt {remove : List Pkg} {miss : Depmissing} {name : CString}
    (hcause : miss.causingpkg = some name) (hname : name ∈ remove.map Pkg.name) :
    (dropCausing remove miss).length < remove.length := by
  obtain ⟨pkg, hpkg⟩ := Option.isSome_iff_exists.mp (pkgFind_isSome.mpr hname)
  have hmem := (pkgFind_eq_some hpkg).1
  rw [dropCausing, hcause, Option.bind_some, hpkg]
  exact length_listRemove_lt ⟨pkg, hmem, (pkgCmp_comparesBy.eq pkg pkg).mpr rfl⟩

theorem foldl_dropCausing_sublist (lp : List Depmissing) (remove : List Pkg) :
    (lp.foldl dropCausing remove).Sublist remove := by
  induction lp generalizing remove with
  | nil => exact List.Sublist.refl _
  | cons miss lp ih => exact (ih _).trans (dropCausing_sublist remove miss)

/-- `remove_prepare_keep_needed`: in each round the packages that cause a missing dependency are
taken off the list. -/
def removePrepareKeepNeeded (remove : List Pkg) : List Pkg :=
  let lp := checkdeps ctx localdb remove [] true
  if _hlp : lp = [] then remove else removePrepareKeepNeeded (lp.foldl dropCausing remove)
  termination_by remove.length
  decreasing_by
    obtain ⟨miss, rest, hcons⟩ := List.exists_cons_of_ne_nil _hlp
    have hmiss : miss ∈ lp := hcons ▸ List.mem_cons_self ..
    obtain ⟨-, -, -, -, cause, hname, hcause⟩ := mem_checkdeps_removal hmiss
    rw [show checkdeps ctx localdb remove [] true = miss :: rest from hcons, List.foldl_cons]
    exact (foldl_dropCausing_sublist rest _).length_le.trans_lt
      (length_dropCausing_lt hcause hname)

/-- What `_alpm_remove_prepare` returns and leaves behind. -/
structure RemovePrepared where
  ret : Int
  /-- `trans->remove` -/
  remove : List Pkg
  /-- `*data`, with `ALPM_ERR_UNSATISFIED_DEPS` -/
  data : List Depmissing := []
  deriving DecidableEq, Repr

variable (flags : TransFlags)

/-- The part of `_alpm_remove_prepare` that `NODEPS` skips. -/
def removeCheckdeps (remove : List Pkg) : RemovePrepared :=
  let lp := checkdeps ctx localdb remove [] true
  if lp = [] then { ret := 0, remove }
  else if flags.cascade then
    let cascaded := removePrepareCascade ctx localdb dup remove
    { ret := cascaded.1, remove := cascaded.2 }
  else if flags.unneeded then { ret := 0, remove := removePrepareKeepNeeded ctx localdb remove }
  else { ret := -1, remove, data := lp }

/-- `_alpm_remove_prepare`.  The events it emits, and the search for optional dependencies
that only emits events, are left out. -/
def removePrepare (assumeinstalled : List Depend) (remove : List Pkg) : RemovePrepared :=
  let ctx := flags.depContext assumeinstalled
  let recursed :=
    if flags.recurse ∧ ¬ flags.cascade then recursedeps localdb remove flags.recurseall dup
    else (0, remove)
  if recursed.1 ≠ 0 then { ret := -1, remove := recursed.2 }
  else
    let checked :=
      if flags.nodeps then { ret := 0, remove := recursed.2 }
      else removeCheckdeps ctx localdb dup flags recursed.2
    if checked.ret ≠ 0 then { checked with ret := -1 }
    else
      -- -Rcs == -Rc then -Rs
      let recursed :=
        if flags.cascade ∧ flags.recurse then
          recursedeps localdb checked.remove flags.recurseall dup
        else (0, checked.remove)
      { ret := if recursed.1 ≠ 0 then -1 else 0, remove := recursed.2 }

/-! ## The cascade is a least fixed point -/

/-- The targets, and what breaks when everything of this kind goes. -/
inductive Cascaded (remove : List Pkg) : Pkg → Prop
  | target {pkg : Pkg} : pkg ∈ localdb → pkg.name ∈ remove.map Pkg.name → Cascaded remove pkg
  | dependant {pkg : Pkg} {depend : Depend} : pkg ∈ localdb → depend ∈ pkg.depends →
      (∃ q ∈ localdb, depcmp q (ctx.effective depend)) →
      (∀ q ∈ localdb, depcmp q (ctx.effective depend) → Cascaded remove q) →
      ¬ depcmpProvides (ctx.effective depend) ctx.assumeinstalled → Cascaded remove pkg

variable {ctx localdb dup}

theorem Cascaded.mem {remove : List Pkg} {pkg : Pkg} (h : Cascaded ctx localdb remove pkg) :
    pkg ∈ localdb := by
  cases h with
  | target h _ => exact h
  | dependant h _ _ _ _ => exact h

theorem Cascaded.of_breaks {remove : List Pkg} {pkg : Pkg} (hpkg : pkg ∈ localdb)
    (h : Breaks ctx localdb (Cascaded ctx localdb remove) pkg) :
    Cascaded ctx localdb remove pkg := by
  obtain ⟨depend, hdep, hsat, hall, hassume⟩ := h
  exact .dependant hpkg hdep hsat hall hassume

/-- More targets of this kind make no difference. -/
theorem Cascaded.of_append {remove added : List Pkg}
    (hadded : ∀ pkg ∈ localdb, pkg.name ∈ added.map Pkg.name → Cascaded ctx localdb remove pkg)
    {pkg : Pkg} (h : Cascaded ctx localdb (remove ++ added) pkg) :
    Cascaded ctx localdb remove pkg := by
  induction h with
  | target hpkg hname =>
    rw [List.map_append, List.mem_append] at hname
    exact hname.elim (.target hpkg) (hadded _ hpkg)
  | dependant hpkg hdep hsat _ hassume ih => exact .dependant hpkg hdep hsat ih hassume

/-- What a round pulls in is of this kind. -/
theorem cascaded_of_pulled (hlocal : (localdb.map Pkg.name).Nodup) {remove added : List Pkg}
    (hadded : ∀ t ∈ added, ∃ miss ∈ checkdeps ctx localdb remove [] true, t.name = miss.target)
    {pkg : Pkg} (hpkg : pkg ∈ localdb) (hname : pkg.name ∈ added.map Pkg.name) :
    Cascaded ctx localdb remove pkg := by
  obtain ⟨t, ht, hname⟩ := List.mem_map.mp hname
  obtain ⟨miss, hmiss, htarget⟩ := hadded t ht
  obtain ⟨broken, hbroken, htarget', hbreaks, -⟩ := mem_checkdeps_removal hmiss
  obtain rfl : broken = pkg := List.inj_on_of_nodup_map hlocal (mem_notRemoved.mp hbroken).1 hpkg
    (htarget'.trans (htarget.symm.trans hname))
  exact .of_breaks hpkg (hbreaks.mono fun q hq hgone => .target hq hgone)

/-- The list after the cascade: copies of installed packages of this kind are added until
the check finds nothing. -/
theorem removePrepareCascade_spec (hlocal : (localdb.map Pkg.name).Nodup) (remove : List Pkg)
    (hret : (removePrepareCascade ctx localdb dup remove).1 = 0) :
    ∃ added, (removePrepareCascade ctx localdb dup remove).2 = remove ++ added ∧
      (∀ t ∈ added, IsPulled localdb remove t) ∧
      (∀ pkg ∈ localdb, pkg.name ∈ added.map Pkg.name → Cascaded ctx localdb remove pkg) ∧
      checkdeps ctx localdb (remove ++ added) [] true = [] := by
  fun_induction removePrepareCascade ctx localdb dup remove with
  | case1 remove lp hlp => exact ⟨[], by simp, by simp, by simp, by simpa using hlp⟩
  | case2 remove lp hlp round hround ih =>
    obtain ⟨added, hadded, hpulled, -⟩ := pullTargets_spec localdb dup lp remove
    rw [show round.2 = remove ++ added from hadded] at ih hret ⊢
    have hkind := fun pkg (hpkg : pkg ∈ localdb) =>
      cascaded_of_pulled hlocal (fun t ht => (hpulled t ht).2) hpkg
    obtain ⟨added', hadded', hpulled', hkind', hnone⟩ := ih hret
    rw [List.append_assoc] at hadded' hnone
    refine ⟨added ++ added', hadded', ?_, ?_, hnone⟩
    · intro t ht
      rcases List.mem_append.mp ht with ht | ht
      · exact (hpulled t ht).1
      · exact (hpulled' t ht).of_append
    · intro pkg hpkg hname
      rw [List.map_append, List.mem_append] at hname
      exact hname.elim (hkind pkg hpkg) fun h => (hkind' pkg hpkg h).of_append hkind
  | case3 remove lp hlp round hround => exact absurd hret hround

/-- **The cascade computes the least fixed point.**  What is added is `Cascaded` by induction over
the rounds.  The other way, what is `Cascaded` and installed is on the final list, since that breaks
nothing. -/
theorem cascaded_iff {remove added : List Pkg}
    (hkind : ∀ pkg ∈ localdb, pkg.name ∈ added.map Pkg.name → Cascaded ctx localdb remove pkg)
    (hnone : checkdeps ctx localdb (remove ++ added) [] true = []) {pkg : Pkg}
    (hpkg : pkg ∈ localdb) :
    pkg.name ∈ (remove ++ added).map Pkg.name ↔ Cascaded ctx localdb remove pkg := by
  constructor
  · intro h
    rw [List.map_append, List.mem_append] at h
    exact h.elim (.target hpkg) (hkind pkg hpkg)
  · intro h
    induction h with
    | target _ hname =>
      rw [List.map_append]
      exact List.mem_append_left _ hname
    | @dependant pkg depend hpkg hdep hsat hall hassume ih =>
      by_contra hstays
      exact checkdeps_removal_eq_nil.mp hnone pkg (mem_notRemoved.mpr ⟨hpkg, hstays⟩)
        ⟨depend, hdep, hsat, fun q hq hcmp => ih q hq hcmp hq, hassume⟩

theorem checkdeps_removePrepareKeepNeeded (remove : List Pkg) :
    checkdeps ctx localdb (removePrepareKeepNeeded ctx localdb remove) [] true = [] := by
  fun_induction removePrepareKeepNeeded ctx localdb remove with
  | case1 remove lp hlp => exact hlp
  | case2 remove lp hlp ih => exact ih

/-- The check phase ends with a list that breaks nothing. -/
theorem checkdeps_removeCheckdeps (hlocal : (localdb.map Pkg.name).Nodup) {flags : TransFlags}
    {remove : List Pkg} (hret : (removeCheckdeps ctx localdb dup flags remove).ret = 0) :
    checkdeps ctx localdb (removeCheckdeps ctx localdb dup flags remove).remove [] true = [] := by
  dsimp only [removeCheckdeps] at hret ⊢
  split_ifs at hret ⊢ with hlp hcascade hunneeded
  · exact hlp
  · obtain ⟨added, hadded, -, -, hnone⟩ := removePrepareCascade_spec hlocal remove hret
    rw [hadded]
    exact hnone
  · exact checkdeps_removePrepareKeepNeeded remove
  · exact absurd hret (show ¬ (-1 : Int) = 0 by decide)

/-! ## The recursive selection after the cascade -/

/-- What the targets of the recursive selection are after the cascade. -/
def CascadeTarget (ctx : DepContext) (localdb remove : List Pkg) (t : Pkg) : Prop :=
  t ∈ remove ∨ Cascaded ctx localdb remove t ∧ t.name ∉ remove.map Pkg.name

/-- What the recursive selection adds after the cascade. -/
def CascadeSelected (ctx : DepContext) (localdb remove : List Pkg) (e : Bool) : Pkg → Prop :=
  Unneeded localdb (CascadeTarget ctx localdb remove) e

/-- Under `NODEPVERSION` an installed package that is neither in the cascade nor selected
depends on a package that is selected since it does not meet the version requirement, and
every installed package that satisfies the dependency without its version is in the
cascade or selected. -/
def RecursesIntoNeeded (ctx : DepContext) (localdb remove : List Pkg) (e : Bool) : Prop :=
  ctx.nodepversion ∧ ∃ pkg ∈ localdb, ¬ Cascaded ctx localdb remove pkg ∧
    ¬ CascadeSelected ctx localdb remove e pkg ∧ ∃ depend ∈ pkg.depends,
      (∃ q, CascadeSelected ctx localdb remove e q ∧ depcmp q depend.anyVersion ∧
        ¬ depcmp q depend) ∧
      (∀ q ∈ localdb, depcmp q depend.anyVersion →
        Cascaded ctx localdb remove q ∨ CascadeSelected ctx localdb remove e q) ∧
      ¬ depcmpProvides depend.anyVersion ctx.assumeinstalled

/-- What the cascade adds are copies of the packages of its kind that it was not given. -/
structure CascadeCopies (ctx : DepContext) (localdb remove added : List Pkg) : Prop where
  exists_pkg : ∀ t ∈ added, ∃ pkg, Cascaded ctx localdb remove pkg ∧
    pkg.name ∉ remove.map Pkg.name ∧ ∃ addr, t = pkg.copyAt addr
  exists_copy : ∀ pkg, Cascaded ctx localdb remove pkg → pkg.name ∉ remove.map Pkg.name →
    ∃ addr, pkg.copyAt addr ∈ added

theorem cascadeCopies (hlocal : (localdb.map Pkg.name).Nodup) {remove added : List Pkg}
    (hpulled : ∀ t ∈ added, IsPulled localdb remove t)
    (hkind : ∀ pkg ∈ localdb, pkg.name ∈ added.map Pkg.name → Cascaded ctx localdb remove pkg)
    (hnone : checkdeps ctx localdb (remove ++ added) [] true = []) :
    CascadeCopies ctx localdb remove added where
  exists_pkg t ht := by
    obtain ⟨pkg, hpkg, addr, rfl⟩ := hpulled t ht
    obtain ⟨hmem, hname⟩ := mem_notRemoved.mp hpkg
    exact ⟨pkg, hkind pkg hmem (List.mem_map.mpr ⟨_, ht, rfl⟩), hname, addr, rfl⟩
  exists_copy pkg hpkg hname := by
    have hin := (cascaded_iff hkind hnone hpkg.mem).mpr hpkg
    rw [List.map_append, List.mem_append] at hin
    obtain ⟨t, ht, htname⟩ := List.mem_map.mp (hin.resolve_left hname)
    obtain ⟨info, hinfo, addr, rfl⟩ := hpulled t ht
    obtain rfl : info = pkg :=
      List.inj_on_of_nodup_map hlocal (mem_notRemoved.mp hinfo).1 hpkg.mem htname
    exact ⟨addr, ht⟩

/-- The copies select the same packages as the originals. -/
theorem unneeded_cascade {remove added : List Pkg} {e : Bool}
    (h : CascadeCopies ctx localdb remove added) {pkg : Pkg} :
    Unneeded localdb (· ∈ remove ++ added) e pkg ↔
      CascadeSelected ctx localdb remove e pkg := by
  have hsame : ∀ P : Pkg → Prop, (∀ p addr, P (p.copyAt addr) ↔ P p) →
      ((∃ t, t ∈ remove ++ added ∧ P t) ↔ ∃ t, CascadeTarget ctx localdb remove t ∧ P t) := by
    intro P hP
    constructor
    · rintro ⟨t, ht, hPt⟩
      rcases List.mem_append.mp ht with ht | ht
      · exact ⟨t, Or.inl ht, hPt⟩
      · obtain ⟨p, hp, hname, addr, rfl⟩ := h.exists_pkg t ht
        exact ⟨p, Or.inr ⟨hp, hname⟩, (hP p addr).mp hPt⟩
    · rintro ⟨t, ht | ⟨ht, hname⟩, hPt⟩
      · exact ⟨t, List.mem_append_left _ ht, hPt⟩
      · obtain ⟨addr, hmem⟩ := h.exists_copy t ht hname
        exact ⟨_, List.mem_append_right _ hmem, (hP t addr).mpr hPt⟩
  exact unneeded_congr (fun name => hsame (·.name = name) fun _ _ => Iff.rfl)
    fun q => hsame (fun t => pkgDependsOn t q) fun _ _ => Iff.rfl

/-- No package that stays depends on what is selected. -/
theorem CascadeSelected.not_pkgDependsOn (hlocal : (localdb.map Pkg.name).Nodup)
    {remove : List Pkg} {e : Bool} {pkg q : Pkg} (hq : CascadeSelected ctx localdb remove e q)
    (hpkg : pkg ∈ localdb) (hstays : ¬ Cascaded ctx localdb remove pkg)
    (hkept : ¬ CascadeSelected ctx localdb remove e pkg) : ¬ pkgDependsOn pkg q := by
  refine Unneeded.not_pkgDependsOn hq ⟨hpkg, ?_⟩ hkept
  rintro ⟨t, ht | ⟨ht, -⟩, hname⟩
  · exact hstays (.target hpkg (List.mem_map.mpr ⟨t, ht, hname⟩))
  · obtain rfl := List.inj_on_of_nodup_map hlocal ht.mem hpkg hname
    exact hstays ht

/-- A package that breaks by what goes after the cascade depends on a selected package
whose version it refuses. -/
theorem recursesIntoNeeded_of_breaks (hlocal : (localdb.map Pkg.name).Nodup)
    {remove : List Pkg} {e : Bool} {pkg : Pkg} (hpkg : pkg ∈ localdb)
    (hstays : ¬ Cascaded ctx localdb remove pkg)
    (hkept : ¬ CascadeSelected ctx localdb remove e pkg)
    (hbreaks : Breaks ctx localdb (fun q =>
      Cascaded ctx localdb remove q ∨ CascadeSelected ctx localdb remove e q) pkg) :
    RecursesIntoNeeded ctx localdb remove e := by
  obtain ⟨depend, hdep, hsat, hall, hassume⟩ := hbreaks
  have hselected : ∃ q, CascadeSelected ctx localdb remove e q ∧
      depcmp q (ctx.effective depend) := by
    by_contra hnone
    refine hstays (.dependant hpkg hdep hsat (fun q hq hcmp => ?_) hassume)
    exact (hall q hq hcmp).resolve_right fun h => hnone ⟨q, h, hcmp⟩
  obtain ⟨q, hq, hcmp⟩ := hselected
  have hrefused : ¬ depcmp q depend := fun h =>
    hq.not_pkgDependsOn hlocal hpkg hstays hkept (pkgDependsOn_iff.mpr ⟨depend, hdep, h⟩)
  have hversion : ctx.nodepversion := by
    by_contra hversion
    rw [DepContext.effective, if_neg hversion] at hcmp
    exact hrefused hcmp
  rw [DepContext.effective, if_pos hversion] at hcmp hall hassume
  exact ⟨hversion, pkg, hpkg, hstays, hkept, depend, hdep, ⟨q, hq, hcmp, hrefused⟩, hall,
    hassume⟩

/-- After the cascade and the recursive selection something is broken exactly if the
selection went too far. -/
theorem checkdeps_recursedeps (hlocal : (localdb.map Pkg.name).Nodup) {e : Bool}
    {remove added : List Pkg} (hpulled : ∀ t ∈ added, IsPulled localdb remove t)
    (hkind : ∀ pkg ∈ localdb, pkg.name ∈ added.map Pkg.name → Cascaded ctx localdb remove pkg)
    (hnone : checkdeps ctx localdb (remove ++ added) [] true = [])
    (hret : (recursedeps localdb (remove ++ added) e dup).1 = 0) :
    checkdeps ctx localdb (recursedeps localdb (remove ++ added) e dup).2 [] true = [] ↔
      ¬ RecursesIntoNeeded ctx localdb remove e := by
  have hcopies := cascadeCopies hlocal hpulled hkind hnone
  have hgone : ∀ q ∈ localdb,
      q.name ∈ (recursedeps localdb (remove ++ added) e dup).2.map Pkg.name ↔
        Cascaded ctx localdb remove q ∨ CascadeSelected ctx localdb remove e q := by
    intro q hq
    rw [recursedeps_names hret, List.mem_append, cascaded_iff hkind hnone hq]
    refine or_congr_right ?_
    rw [← unneeded_cascade hcopies, ← mem_unneededDeps hlocal, List.mem_map]
    refine ⟨fun ⟨u, hu, hname⟩ => ?_, fun h => ⟨q, h, rfl⟩⟩
    have hulocal := ((mem_unneededDeps hlocal).mp hu).stays.1
    exact List.inj_on_of_nodup_map hlocal hulocal hq hname ▸ hu
  rw [checkdeps_removal_eq_nil]
  constructor
  · rintro h ⟨hversion, pkg, hpkg, hstays, hkept, depend, hdep, ⟨q, hq, hcmp, -⟩, hall, hassume⟩
    refine h pkg (mem_notRemoved.mpr ⟨hpkg, fun hname => ?_⟩) ⟨depend, hdep, ?_⟩
    · exact ((hgone pkg hpkg).mp hname).elim hstays hkept
    · rw [DepContext.effective, if_pos hversion]
      exact ⟨⟨q, hq.stays.1, hcmp⟩, fun p hp hcmp => (hgone p hp).mpr (hall p hp hcmp), hassume⟩
  · intro h pkg hpkg hbreaks
    obtain ⟨hmem, hname⟩ := mem_notRemoved.mp hpkg
    rw [hgone pkg hmem, not_or] at hname
    exact h (recursesIntoNeeded_of_breaks hlocal hmem hname.1 hname.2
      (hbreaks.mono fun q hq => (hgone q hq).mp))

/-! ## The prepared removal -/

/-- Without `RECURSE` after `CASCADE` the check phase comes last. -/
theorem removePrepare_eq_removeCheckdeps {flags : TransFlags} (hnodeps : flags.nodeps = false)
    (hboth : ¬ (flags.cascade ∧ flags.recurse)) {assumeinstalled : List Depend}
    {remove : List Pkg}
    (hret : (removePrepare localdb dup flags assumeinstalled remove).ret = 0) :
    ∃ remove', (removeCheckdeps (flags.depContext assumeinstalled) localdb dup flags remove').ret
        = 0 ∧ (removePrepare localdb dup flags assumeinstalled remove).remove =
      (removeCheckdeps (flags.depContext assumeinstalled) localdb dup flags remove').remove := by
  simp only [removePrepare, hnodeps, hboth, if_false, Bool.false_eq_true, ne_eq, not_true] at hret ⊢
  generalize (if flags.recurse ∧ ¬ flags.cascade then
    recursedeps localdb remove flags.recurseall dup else (0, remove)) = recursed at hret ⊢
  by_cases hrecursed : recursed.1 = 0
  · by_cases hchecked : (removeCheckdeps (flags.depContext assumeinstalled) localdb dup flags
        recursed.2).ret = 0
    · exact ⟨recursed.2, hchecked, by simp [hrecursed, hchecked]⟩
    · simp [hrecursed, hchecked] at hret
  · simp [hrecursed] at hret

/-- With both flags the recursive selection comes last. -/
theorem removePrepare_eq_recursedeps {flags : TransFlags} (hnodeps : flags.nodeps = false)
    (hcascade : flags.cascade) (hrecurse : flags.recurse) {assumeinstalled : List Depend}
    {remove : List Pkg}
    (hret : (removePrepare localdb dup flags assumeinstalled remove).ret = 0) :
    let checked := removeCheckdeps (flags.depContext assumeinstalled) localdb dup flags remove
    checked.ret = 0 ∧ (recursedeps localdb checked.remove flags.recurseall dup).1 = 0 ∧
      (removePrepare localdb dup flags assumeinstalled remove).remove =
        (recursedeps localdb checked.remove flags.recurseall dup).2 := by
  intro checked
  have heq : removePrepare localdb dup flags assumeinstalled remove =
      if checked.ret ≠ 0 then { checked with ret := -1 }
      else
        { ret := if (recursedeps localdb checked.remove flags.recurseall dup).1 ≠ 0 then -1 else 0,
          remove := (recursedeps localdb checked.remove flags.recurseall dup).2 } := by
    simp [removePrepare, hnodeps, hcascade, hrecurse, checked]
  rw [heq] at hret ⊢
  by_cases hchecked : checked.ret = 0
  · by_cases hrecursed : (recursedeps localdb checked.remove flags.recurseall dup).1 = 0
    · exact ⟨hchecked, hrecursed, by simp [hchecked]⟩
    · simp [hchecked, hrecursed] at hret
  · simp [hchecked] at hret

/-- The cascade, where the check finds something. -/
theorem removeCheckdeps_cascade (hlocal : (localdb.map Pkg.name).Nodup) {flags : TransFlags}
    (hcascade : flags.cascade) {remove : List Pkg}
    (hret : (removeCheckdeps ctx localdb dup flags remove).ret = 0) :
    ∃ added, (removeCheckdeps ctx localdb dup flags remove).remove = remove ++ added ∧
      (∀ t ∈ added, IsPulled localdb remove t) ∧
      (∀ pkg ∈ localdb, pkg.name ∈ added.map Pkg.name → Cascaded ctx localdb remove pkg) ∧
      checkdeps ctx localdb (remove ++ added) [] true = [] := by
  dsimp only [removeCheckdeps] at hret ⊢
  split_ifs at hret ⊢ with hlp
  · exact ⟨[], by simp, by simp, by simp, by simpa using hlp⟩
  · exact removePrepareCascade_spec hlocal remove hret

/-- **A prepared removal breaks nothing unless the recursive selection goes too far.**  Without that
selection the check is the last phase.  With it the check was made on a shorter list, and what
breaks afterwards is a dependency whose version the check had dropped, of a package that stays, on
one that was selected because the selection did look at the version. -/
theorem checkdeps_removePrepare (hlocal : (localdb.map Pkg.name).Nodup) {flags : TransFlags}
    (hnodeps : flags.nodeps = false) {assumeinstalled : List Depend} {remove : List Pkg}
    (hret : (removePrepare localdb dup flags assumeinstalled remove).ret = 0) :
    checkdeps (flags.depContext assumeinstalled) localdb
        (removePrepare localdb dup flags assumeinstalled remove).remove [] true = [] ↔
      ¬ (flags.cascade ∧ flags.recurse ∧ RecursesIntoNeeded (flags.depContext assumeinstalled)
        localdb remove flags.recurseall) := by
  by_cases hboth : flags.cascade ∧ flags.recurse
  · obtain ⟨hcascade, hrecurse⟩ := hboth
    obtain ⟨hchecked, hrecursed, hremove⟩ :=
      removePrepare_eq_recursedeps hnodeps hcascade hrecurse hret
    obtain ⟨added, hadded, hpulled, hkind, hnone⟩ :=
      removeCheckdeps_cascade hlocal hcascade hchecked
    rw [hadded] at hrecursed hremove
    rw [hremove, checkdeps_recursedeps hlocal hpulled hkind hnone hrecursed]
    simp only [hcascade, hrecurse, true_and]
  · obtain ⟨remove', hchecked, hremove⟩ := removePrepare_eq_removeCheckdeps hnodeps hboth hret
    rw [hremove]
    refine iff_of_true (checkdeps_removeCheckdeps hlocal hchecked) ?_
    exact fun ⟨hcascade, hrecurse, _⟩ => hboth ⟨hcascade, hrecurse⟩

end

/-- `keeper` was installed with `NODEPVERSION` next to a `lib` that it finds too old. -/
def oldLib : List Pkg :=
  [{ name := str "app", version := str "1-1", depends := [{ name := str "lib" }] },
    { name := str "keeper", version := str "1-1",
      depends := [{ name := str "lib", version := some (str "2"), mod := .ge }] },
    { name := str "lib", version := str "1-1", reason := .depend }]

/-- The removal of `app` with `CASCADE`, `RECURSE` and `NODEPVERSION`. -/
def oldLibFlags : TransFlags := { cascade := true, recurse := true, nodepversion := true }

/-- With `CASCADE` the removal of `lib` takes `app`, and nothing breaks; with all three flags the
recursive selection after the cascade goes too far. -/
theorem checkdeps_removePrepare_oldLib :
    ((removePrepare oldLib .success { cascade := true } [] (oldLib.drop 2)).ret = 0 ∧
        (removePrepare oldLib .success { cascade := true } [] (oldLib.drop 2)).remove.map
          Pkg.name = [str "lib", str "app"] ∧
        (checkdeps (TransFlags.depContext { cascade := true } []) oldLib
            (removePrepare oldLib .success { cascade := true } [] (oldLib.drop 2)).remove [] true
              = [] ↔
          ¬ (true ∧ false ∧ RecursesIntoNeeded (TransFlags.depContext { cascade := true } [])
            oldLib (oldLib.drop 2) false))) ∧
      (removePrepare oldLib .success oldLibFlags [] (oldLib.take 1)).ret = 0 ∧
      checkdeps (oldLibFlags.depContext []) oldLib
          (removePrepare oldLib .success oldLibFlags [] (oldLib.take 1)).remove [] true ≠ [] ∧
      RecursesIntoNeeded (oldLibFlags.depContext []) oldLib (oldLib.take 1) false := by
  have hnodup : (oldLib.map Pkg.name).Nodup := by decide
  have hcascade : (removePrepare oldLib .success { cascade := true } [] (oldLib.drop 2)).ret = 0 :=
    by decide +kernel
  have hboth : (removePrepare oldLib .success oldLibFlags [] (oldLib.take 1)).ret = 0 := by
    decide +kernel
  have hbroken : checkdeps (oldLibFlags.depContext []) oldLib
      (removePrepare oldLib .success oldLibFlags [] (oldLib.take 1)).remove [] true ≠ [] := by
    decide +kernel
  refine ⟨⟨hcascade, by decide +kernel, checkdeps_removePrepare hnodup rfl hcascade⟩, hboth,
    hbroken, ?_⟩
  obtain ⟨-, -, hneeded⟩ :=
    not_not.mp (mt (checkdeps_removePrepare hnodup rfl hboth).mpr hbroken)
  exact hneeded

/-- The removal of `app` takes `lib` away and leaves `keeper` without it. -/
theorem removePrepare_breaks :
    ¬ ∀ (localdb : List Pkg) (dup : ℕ → DupOutcome) (flags : TransFlags)
        (assumeinstalled : List Depend) (remove : List Pkg),
      (localdb.map Pkg.name).Nodup → flags.nodeps = false →
      (removePrepare localdb dup flags assumeinstalled remove).ret = 0 →
      checkdeps (flags.depContext assumeinstalled) localdb
        (removePrepare localdb dup flags assumeinstalled remove).remove [] true = [] := by
  intro h
  have hsafe := h oldLib .success oldLibFlags [] (oldLib.take 1) (by decide) rfl
    (by decide +kernel)
  exact absurd hsafe (by decide +kernel)

end Alpm
