import Alpm.Sync.Prepare

/-!
# A prepared transaction is safe

When `_alpm_sync_prepare` returns 0, the packages after the transaction have all their dependencies,
and there is a conflict between two of them only if both stay installed.

Every phase adds its part.

* The first conflict loop takes targets out until no two of them conflict (`prepareInner_eq_ok`).
* The second one elects an installed package for removal for each conflict that the user lets be
  resolved, and fails if there is one that is not settled (`prepareOuter_eq_ok`).  The `removes`
  lists only grow meanwhile.
* Everything that was elected goes into the list of packages to remove, unless it has the name of a
  target, whose old version goes anyway.
* The final check sees the lists as they are in the end, so dependencies that the conflict loops
  have broken are found by it, and not by the resolution before them.

Two packages that stay were installed before, so a conflict between them is not made by the
transaction, and nothing in the preparation looks at such pairs.
-/

namespace Alpm.Sync

/-! ## Conflicts between targets -/

theorem dropConflicting_spec (deps : List Conflict) (add unresolvable : List Pkg) :
    (dropConflicting deps add unresolvable).2.1.Sublist add ∧
      ((add.map Pkg.name).Nodup → (dropConflicting deps add unresolvable).1 = none →
        ∀ conflict ∈ deps,
          conflict.package1 ∉ (dropConflicting deps add unresolvable).2.1.map Pkg.name ∨
            conflict.package2 ∉ (dropConflicting deps add unresolvable).2.1.map Pkg.name) := by
  induction deps generalizing add unresolvable with
  | nil => exact ⟨List.Sublist.refl _, by simp⟩
  | cons conflict deps ih =>
    -- the pair stays settled while more targets are dropped
    have hkeep : ∀ (add' unresolvable' : List Pkg), add'.Sublist add →
        ((add.map Pkg.name).Nodup → conflict.package1 ∉ add'.map Pkg.name ∨
          conflict.package2 ∉ add'.map Pkg.name) →
        (dropConflicting deps add' unresolvable').2.1.Sublist add ∧
          ((add.map Pkg.name).Nodup → (dropConflicting deps add' unresolvable').1 = none →
            ∀ c ∈ conflict :: deps,
              c.package1 ∉ (dropConflicting deps add' unresolvable').2.1.map Pkg.name ∨
                c.package2 ∉ (dropConflicting deps add' unresolvable').2.1.map Pkg.name) := by
      intro add' unresolvable' hsub hpair
      obtain ⟨hsub', hall⟩ := ih add' unresolvable'
      refine ⟨hsub'.trans hsub, fun hnodup hnone c hc => ?_⟩
      rcases List.mem_cons.mp hc with rfl | hc
      · exact (hpair hnodup).imp (fun h hin => h ((hsub'.map Pkg.name).subset hin))
          fun h hin => h ((hsub'.map Pkg.name).subset hin)
      · exact hall (hnodup.sublist (hsub.map Pkg.name)) hnone c hc
    have hremoved : ∀ {sync : Pkg} {name : CString}, pkgFind add name = some sync →
        (add.map Pkg.name).Nodup → name ∉ (listRemove pkgCmp add sync).map Pkg.name := by
      intro sync name hfind hnodup hin
      obtain ⟨pkg, hpkg, rfl⟩ := List.mem_map.mp hin
      exact ((mem_listRemove pkgCmp_comparesBy hnodup).mp hpkg).2 (pkgFind_eq_some hfind).2.symm
    unfold dropConflicting
    split
    · rename_i sync1 sync2 hfind1 hfind2
      split_ifs
      · exact hkeep _ _ (listRemove_sublist pkgCmp add sync2) fun hnodup =>
          Or.inr (hremoved hfind2 hnodup)
      · exact hkeep _ _ (listRemove_sublist pkgCmp add sync1) fun hnodup =>
          Or.inl (hremoved hfind1 hnodup)
      · exact ⟨List.Sublist.refl _, by simp⟩
    · rename_i hnot
      refine hkeep _ _ (List.Sublist.refl _) fun _ => ?_
      cases hfind1 : pkgFind add conflict.package1 with
      | none => exact Or.inl (pkgFind_eq_none.mp hfind1)
      | some sync1 =>
        cases hfind2 : pkgFind add conflict.package2 with
        | none => exact Or.inr (pkgFind_eq_none.mp hfind2)
        | some sync2 => exact absurd hfind2 (hnot sync1 sync2 hfind1)

/-- After the first conflict phase no two targets conflict. -/
theorem prepareInner_eq_ok {data data' : List ErrorData} {s s' : Session}
    (hconflicts : s.trans.flags.noconflicts = false) (hadd : (s.trans.add.map Pkg.name).Nodup)
    (h : prepareInner data s = .ok data' s') :
    s'.trans.add.Sublist s.trans.add ∧ s'.trans.flags = s.trans.flags ∧
      ∀ p ∈ s'.trans.add, ∀ q ∈ s'.trans.add, ¬ ConflictsWith p q := by
  unfold prepareInner at h
  rw [if_neg (by simp [hconflicts])] at h
  obtain ⟨hsub, hall⟩ :=
    dropConflicting_spec (innerconflicts s.trans.add) s.trans.add s.trans.unresolvable
  rcases hdrop : dropConflicting (innerconflicts s.trans.add) s.trans.add s.trans.unresolvable with
    ⟨_ | conflict, add, unresolvable⟩
  · simp only [hdrop] at h hsub hall
    obtain ⟨-, rfl⟩ := Outcome.ok.inj h
    refine ⟨hsub, rfl, fun p hp q hq hconflict => ?_⟩
    obtain ⟨c, hc, hnames⟩ := List.mem_map.mp (mem_innerconflicts.mpr
      ⟨p, hsub.subset hp, q, hsub.subset hq, hconflict, rfl⟩)
    obtain ⟨h₁, h₂⟩ := Prod.mk.inj hnames
    rcases hall hadd trivial c hc with hnot | hnot
    · exact hnot (h₁ ▸ List.mem_map_of_mem hp)
    · exact hnot (h₂ ▸ List.mem_map_of_mem hq)
  · simp [hdrop] at h

/-! ## Conflicts with installed packages -/

section

variable {handle : Handle} {env : PrepareEnv}

theorem isElected_iff {add remove : List Pkg} {fields : ℕ → PkgFields} {package2 : CString} :
    isElected add remove fields package2 ↔ package2 ∈ remove.map Pkg.name ∨
      package2 ∈ (add.flatMap fun spkg => (fields spkg.addr).removes).map Pkg.name := by
  simp only [isElected, Bool.or_eq_true, List.any_eq_true, pkgFind_isSome, List.map_flatMap,
    List.mem_flatMap]

/-- The `removes` lists only grow. -/
def RemovesGrow (fields fields' : ℕ → PkgFields) : Prop :=
  ∀ addr, (fields addr).removes ⊆ (fields' addr).removes

theorem isElected_mono {add remove : List Pkg} {fields fields' : ℕ → PkgFields}
    (hgrow : RemovesGrow fields fields') {package2 : CString}
    (h : isElected add remove fields package2) : isElected add remove fields' package2 := by
  rw [isElected_iff] at h ⊢
  refine h.imp_right fun h => ?_
  obtain ⟨rpkg, hrpkg, rfl⟩ := List.mem_map.mp h
  obtain ⟨spkg, hspkg, hin⟩ := List.mem_flatMap.mp hrpkg
  exact List.mem_map_of_mem (List.mem_flatMap.mpr ⟨spkg, hspkg, hgrow _ hin⟩)

/-- When the user lets all conflicts be resolved, every installed package that conflicts is
elected. -/
theorem electRemovals_spec {add remove : List Pkg} {deps : List Conflict}
    {fields : ℕ → PkgFields} {asked : ℕ}
    (hadd : ∀ c ∈ deps, c.package1 ∈ add.map Pkg.name)
    (hlocal : ∀ c ∈ deps, c.package2 ∈ handle.dbLocal.pkgcache.map Pkg.name)
    (h : (electRemovals handle add remove deps fields asked).1 = none) :
    RemovesGrow fields (electRemovals handle add remove deps fields asked).2.1 ∧
      ∀ c ∈ deps, isElected add remove
        (electRemovals handle add remove deps fields asked).2.1 c.package2 := by
  induction deps generalizing fields asked with
  | nil => exact ⟨fun _ _ hr => hr, by simp⟩
  | cons c deps ih =>
    have hadd' := fun d hd => hadd d (List.mem_cons_of_mem c hd)
    have hlocal' := fun d hd => hlocal d (List.mem_cons_of_mem c hd)
    unfold electRemovals at h ⊢
    by_cases helected : isElected add remove fields c.package2
    · rw [if_pos helected] at h ⊢
      obtain ⟨hgrow, hall⟩ := ih hadd' hlocal' h
      exact ⟨hgrow, List.forall_mem_cons.mpr ⟨isElected_mono hgrow helected, hall⟩⟩
    · rw [if_neg helected] at h ⊢
      by_cases hremove : handle.answer asked ≠ 0
      · rw [if_pos hremove] at h ⊢
        obtain ⟨sync, hsync⟩ := Option.isSome_iff_exists.mp
          (pkgFind_isSome.mpr (hadd c (List.mem_cons_self ..)))
        obtain ⟨installed, hinstalled⟩ := Option.isSome_iff_exists.mp
          (pkgFind_isSome.mpr (hlocal c (List.mem_cons_self ..)))
        simp only [hsync, hinstalled] at h ⊢
        obtain ⟨hgrow, hall⟩ := ih hadd' hlocal' h
        have hfirst : RemovesGrow fields (Function.update fields sync.addr
            { fields sync.addr with removes := (fields sync.addr).removes ++ [installed] }) := by
          intro addr r hr
          rcases eq_or_ne addr sync.addr with rfl | hne
          · rw [Function.update_self]
            exact List.mem_append_left _ hr
          · rwa [Function.update_of_ne hne]
        refine ⟨fun addr r hr => hgrow addr (hfirst addr hr), List.forall_mem_cons.mpr ⟨?_, hall⟩⟩
        refine isElected_mono hgrow (isElected_iff.mpr (Or.inr ?_))
        rw [← (pkgFind_eq_some hinstalled).2]
        refine List.mem_map_of_mem (List.mem_flatMap.mpr ⟨sync, (pkgFind_eq_some hsync).1, ?_⟩)
        rw [Function.update_self]
        exact List.mem_append_right _ (List.mem_singleton_self _)
      · rw [if_neg hremove] at h
        simp at h

/-- After the second conflict phase every installed package that conflicts with a target is
elected for removal, or has the name of a target. -/
theorem prepareOuter_eq_ok {data data' : List ErrorData} {s s' : Session}
    (hconflicts : s.trans.flags.noconflicts = false)
    (hlocal : (handle.dbLocal.pkgcache.map Pkg.name).Nodup)
    (h : prepareOuter handle data s = .ok data' s') :
    s'.trans = s.trans ∧ ∀ p ∈ s.trans.add, ∀ q ∈ handle.dbLocal.pkgcache,
      q.name ∉ s.trans.add.map Pkg.name → ConflictsWith p q ∨ ConflictsWith q p →
        isElected s.trans.add s.trans.remove s'.fields q.name := by
  unfold prepareOuter at h
  rw [if_neg (by simp [hconflicts])] at h
  have hnames : ∀ c ∈ outerconflicts handle.dbLocal.pkgcache s.trans.add,
      c.package1 ∈ s.trans.add.map Pkg.name ∧
        c.package2 ∈ handle.dbLocal.pkgcache.map Pkg.name := by
    intro c hc
    obtain ⟨p, hp, q, hq, -, -, heq⟩ :=
      (mem_outerconflicts hlocal).mp (List.mem_map_of_mem (f := Conflict.names) hc)
    obtain ⟨h₁, h₂⟩ := Prod.mk.inj heq
    exact ⟨List.mem_map.mpr ⟨p, hp, h₁.symm⟩, List.mem_map.mpr ⟨q, hq, h₂.symm⟩⟩
  have hspec := @electRemovals_spec handle s.trans.add s.trans.remove _ s.fields s.asked
    (fun c hc => (hnames c hc).1) fun c hc => (hnames c hc).2
  rcases helect : electRemovals handle s.trans.add s.trans.remove
      (outerconflicts handle.dbLocal.pkgcache s.trans.add) s.fields s.asked with
    ⟨_ | conflict, fields, asked⟩
  · simp only [helect, true_imp_iff] at h hspec
    obtain ⟨-, rfl⟩ := Outcome.ok.inj h
    refine ⟨rfl, fun p hp q hq hnot hconflict => ?_⟩
    obtain ⟨c, hc, heq⟩ := List.mem_map.mp ((mem_outerconflicts hlocal).mpr
      ⟨p, hp, q, hq, hnot, hconflict, rfl⟩)
    obtain ⟨-, h₂⟩ := Prod.mk.inj heq
    exact h₂ ▸ hspec.2 c hc
  · simp [helect] at h

/-! ## The packages to remove -/

theorem pullRemoves_names {rpkgs remove : List Pkg} (h : (pullRemoves env rpkgs remove).1 ≠ -1) :
    ∀ name, name ∈ remove.map Pkg.name ∨ name ∈ rpkgs.map Pkg.name →
      name ∈ (pullRemoves env rpkgs remove).2.map Pkg.name := by
  induction rpkgs generalizing remove with
  | nil => simp [pullRemoves]
  | cons rpkg rpkgs ih =>
    intro name hname
    unfold pullRemoves at h ⊢
    rw [List.map_cons, List.mem_cons] at hname
    by_cases hin : (pkgFind remove rpkg.name).isSome
    · rw [if_pos hin] at h ⊢
      refine ih h name ?_
      rcases hname with hname | rfl | hname
      · exact Or.inl hname
      · exact Or.inl (pkgFind_isSome.mp hin)
      · exact Or.inr hname
    · rw [if_neg hin] at h ⊢
      rcases pkgDup_cases (env.dup remove.length) rpkg with hdup | ⟨addr, hret, hcopy⟩
      · simp [hdup] at h
      · simp only [hret, hcopy, if_false] at h ⊢
        refine ih h name ?_
        rw [List.map_append, List.mem_append]
        rcases hname with hname | rfl | hname
        · exact Or.inl (Or.inl hname)
        · exact Or.inl (Or.inr (by simp))
        · exact Or.inr hname

theorem prepareRemove_eq_ok {data data' : List ErrorData} {s s' : Session}
    (h : prepareRemove env data s = .ok data' s') :
    s'.trans.add = s.trans.add ∧ s'.trans.flags = s.trans.flags ∧
      ∀ name, isElected s.trans.add s.trans.remove s.fields name →
        name ∈ s'.trans.remove.map Pkg.name := by
  unfold prepareRemove at h
  simp only at h
  split_ifs at h with hret
  obtain ⟨-, rfl⟩ := Outcome.ok.inj h
  exact ⟨rfl, rfl, fun name hname => pullRemoves_names hret name (isElected_iff.mp hname)⟩

theorem prepareCheckdeps_eq_ok {data data' : List ErrorData} {s s' : Session}
    (hnodeps : s.trans.flags.nodeps = false) (h : prepareCheckdeps handle data s = .ok data' s') :
    s' = s ∧ checkdeps (s.trans.flags.depContext handle.assumeinstalled) handle.dbLocal.pkgcache
      s.trans.remove s.trans.add true = [] := by
  unfold prepareCheckdeps at h
  rw [if_neg (by simp [hnodeps])] at h
  simp only at h
  split_ifs at h with hdeps
  obtain ⟨-, rfl⟩ := Outcome.ok.inj h
  exact ⟨rfl, not_not.mp hdeps⟩

theorem prepareTargets_eq_ok {data data' : List ErrorData} {s s' : Session}
    (h : prepareTargets handle env data s = .ok data' s') : s'.trans = s.trans := by
  unfold prepareTargets at h
  rcases hload : loadTargets handle env s.trans.add s.fields with ⟨_ | pmErrno, fields⟩
  · simp only [hload] at h
    obtain ⟨-, rfl⟩ := Outcome.ok.inj h
    rfl
  · simp [hload] at h

/-! ## The result -/

/-- **A prepared sync transaction is safe.**  If no dependency was broken before, none is broken
after it, and two packages conflict after it only if both stay installed as they are.  The
dependencies are what the last check found nothing wrong with; a conflict of a target with another
target is excluded by the first conflict phase, and one with a package that stays by the second. -/
theorem syncPrepare_safe {s s' : Session} {data : List ErrorData}
    (hlocal : (handle.dbLocal.pkgcache.map Pkg.name).Nodup)
    (hnodeps : s.trans.flags.nodeps = false) (hnodepversion : s.trans.flags.nodepversion = false)
    (hconflicts : s.trans.flags.noconflicts = false)
    (hbefore : (s.trans.flags.depContext handle.assumeinstalled).Consistent
      handle.dbLocal.pkgcache)
    (h : syncPrepare handle env s = .ok data s') :
    let after := resultPkgs handle.dbLocal.pkgcache s'.trans.remove s'.trans.add
    (s.trans.flags.depContext handle.assumeinstalled).Consistent after ∧
      ∀ p ∈ after, ∀ q ∈ after, ConflictsWith p q →
        p ∈ keptPkgs handle.dbLocal.pkgcache s'.trans.remove s'.trans.add ∧
          q ∈ keptPkgs handle.dbLocal.pkgcache s'.trans.remove s'.trans.add := by
  intro after
  obtain ⟨d₁, s₁, hfirst, hrest⟩ := Outcome.bind_eq_ok.mp h
  obtain ⟨d₀, s₀, hdbs, hresolve⟩ := Outcome.bind_eq_ok.mp hfirst
  obtain ⟨d₄, s₄, hlists, hlast⟩ := Outcome.bind_eq_ok.mp hrest
  obtain ⟨d₃, s₃, hphases, hremove⟩ := Outcome.bind_eq_ok.mp hlists
  obtain ⟨d₂, s₂, hinner, houter⟩ := Outcome.bind_eq_ok.mp hphases
  obtain ⟨d₅, s₅, hcheck, htargets⟩ := Outcome.bind_eq_ok.mp hlast
  obtain rfl : s₀ = s := by
    rcases prepareDbs_cases handle [] s with hok | ⟨pmErrno, hfail, -⟩
    · exact (Outcome.ok.inj (hok.symm.trans hdbs)).2.symm
    · simp [hfail] at hdbs
  -- the flags do not change, and the targets have distinct names after the resolution
  obtain ⟨hnodup, hflags₁⟩ : (s₁.trans.add.map Pkg.name).Nodup ∧
      s₁.trans.flags = s₀.trans.flags := by
    rcases prepareResolve_eq_ok hresolve with ⟨hdeps, -, -⟩ | ⟨-, hadd, -, hflags, -⟩
    · simp [hnodeps] at hdeps
    · exact ⟨hadd ▸ (resolveTargets_spec handle s₀).1, hflags⟩
  rw [← hflags₁] at hnodeps hnodepversion hconflicts hbefore ⊢
  obtain ⟨hsub₂, hflags₂, hinner⟩ := prepareInner_eq_ok hconflicts hnodup hinner
  rw [← hflags₂] at hnodeps hnodepversion hconflicts hbefore ⊢
  obtain ⟨htrans₃, houter⟩ := prepareOuter_eq_ok hconflicts hlocal houter
  obtain ⟨hadd₄, hflags₄, hremove⟩ := prepareRemove_eq_ok hremove
  rw [htrans₃] at hadd₄ hflags₄ hremove
  rw [← hflags₄] at hnodeps hnodepversion hbefore ⊢
  obtain ⟨rfl, hcheck⟩ := prepareCheckdeps_eq_ok hnodeps hcheck
  have htrans : s'.trans = s₅.trans := prepareTargets_eq_ok htargets
  have hafter : after = resultPkgs handle.dbLocal.pkgcache s₅.trans.remove s₅.trans.add := by
    simp only [after, htrans]
  rw [hafter, htrans]
  refine ⟨fun pkg hpkg dep hdep => ?_, fun p hp q hq hconflict => ?_⟩
  · have hsat := checkdeps_complete hbefore hcheck hpkg hdep
    rwa [show (s₅.trans.flags.depContext handle.assumeinstalled).effective dep = dep by
      simp [DepContext.effective, TransFlags.depContext, hnodepversion]] at hsat
  · -- a target and an installed package that conflict are not both there
    have hpair : ∀ t ∈ s₅.trans.add, ∀ l ∈ keptPkgs handle.dbLocal.pkgcache s₅.trans.remove
        s₅.trans.add, ¬ (ConflictsWith t l ∨ ConflictsWith l t) := by
      intro t ht l hl h
      obtain ⟨hinstalled, hnotRemoved, hnotTarget⟩ := mem_keptPkgs.mp hl
      rw [hadd₄] at ht hnotTarget
      exact hnotRemoved (hremove l.name (houter t ht l hinstalled hnotTarget h))
    rcases List.mem_append.mp hp with hp | hp <;> rcases List.mem_append.mp hq with hq | hq
    · exact ⟨hp, hq⟩
    · exact absurd (Or.inr hconflict) (hpair q hq p hp)
    · exact absurd (Or.inl hconflict) (hpair p hp q hq)
    · rw [hadd₄] at hp hq
      exact absurd hconflict (hinner p hp q hq)

/-- `jack2` takes the place of `jack1`, and needs `lib`. -/
def jack2 : Pkg where
  addr := 3
  name := str "jack2"
  version := str "1-1"
  filename := some (str "jack2")
  origin := .syncdb (str "core")
  provides := [{ name := str "jack" }]
  conflicts := [{ name := str "jack1" }]
  depends := [{ name := str "lib" }]

/-- `player` needs `jack`, which `jack1` provides, and in the repository `jack2`.  All questions are
answered with yes. -/
def jackHandle : Handle where
  dbLocal :=
    { treename := str "local"
      pkgcache := [
        { addr := 1
          name := str "jack1"
          version := str "1-1"
          origin := .localdb
          provides := [{ name := str "jack" }] },
        { addr := 2
          name := str "player"
          version := str "1-1"
          origin := .localdb
          depends := [{ name := str "jack" }] }] }
  dbsSync := [
    { treename := str "core"
      pkgcache := [
        jack2,
        { addr := 4
          name := str "lib"
          version := str "1-1"
          filename := some (str "lib")
          origin := .syncdb (str "core") },
        { addr := 5
          name := str "player"
          version := str "2-1"
          filename := some (str "player")
          origin := .syncdb (str "core")
          depends := [{ name := str "jack" }] }] }]
  fnmatch _ _ := false
  answer _ := 1

/-- Every copy succeeds, and all files are in the cache. -/
def quietEnv : PrepareEnv where
  dup := .success
  dupOldpkg := .success
  filecacheFind _ := some (some 0)
  calloc := true

/-- A new transaction with some targets. -/
def sessionWith (add : List Pkg) : Session where
  trans := { flags := {}, state := .initialized, add }

theorem consistent_jackHandle :
    ((sessionWith [jack2]).trans.flags.depContext jackHandle.assumeinstalled).Consistent
      jackHandle.dbLocal.pkgcache := by
  unfold DepContext.Consistent DepContext.Satisfied
  decide +kernel

/-- `jack2` brings `lib` and takes `jack1` away, and `player` stays. -/
theorem syncPrepare_safe_jack :
    ∃ data s', syncPrepare jackHandle quietEnv (sessionWith [jack2]) = .ok data s' ∧
      s'.trans.add.map Pkg.name = [str "jack2", str "lib"] ∧
      s'.trans.remove.map Pkg.name = [str "jack1"] ∧
      (let after := resultPkgs jackHandle.dbLocal.pkgcache s'.trans.remove s'.trans.add
       ((sessionWith [jack2]).trans.flags.depContext jackHandle.assumeinstalled).Consistent after ∧
        ∀ p ∈ after, ∀ q ∈ after, ConflictsWith p q →
          p ∈ keptPkgs jackHandle.dbLocal.pkgcache s'.trans.remove s'.trans.add ∧
            q ∈ keptPkgs jackHandle.dbLocal.pkgcache s'.trans.remove s'.trans.add) := by
  have hlists : (match syncPrepare jackHandle quietEnv (sessionWith [jack2]) with
      | .ok _ s' => some (s'.trans.add.map Pkg.name, s'.trans.remove.map Pkg.name)
      | _ => none) = some ([str "jack2", str "lib"], [str "jack1"]) := by
    decide +kernel
  cases hend : syncPrepare jackHandle quietEnv (sessionWith [jack2]) with
  | crash => simp [hend] at hlists
  | fail pmErrno data s' => simp [hend] at hlists
  | ok data s' =>
    rw [hend] at hlists
    obtain ⟨hadd, hremove⟩ := Prod.mk.inj (Option.some.inj hlists)
    exact ⟨data, s', rfl, hadd, hremove,
      syncPrepare_safe (by decide +kernel) rfl rfl rfl consistent_jackHandle hend⟩

end

end Alpm.Sync
