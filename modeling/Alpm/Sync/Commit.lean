import Alpm.Files.Ownership
import Alpm.Sync.Load
import Alpm.Sync.Targets

/-!
# Committing a transaction

`alpm_trans_commit`.  The loops of `_alpm_remove_packages` and `_alpm_upgrade_packages` look at
`trans->state` before every package, so `alpm_trans_interrupt` in a signal handler, or an error on
extraction, ends them between two packages.  When the signal comes is an argument, a function of the
round, so a statement for all of them is one about every point at which a commit can be interrupted.

## 1.  The package cache

An interrupted removal has taken out the packages of a prefix of its list (`removeUntil_localdb`).
What a commit that gets through its loops makes of the cache is `mem_commitUntil`, the packages that
are neither removed nor replaced and an entry for every target.  `commitUntil_account` says what any
commit may make of it, however it ends: the names stay distinct, and every entry was there before or
is that of a target.

## 2.  Consistency

The entry that a commit puts into the cache is a copy, and the check before it was about the
originals.  `Pkg.Stands` is what matters of a copy, and `DepContext.Consistent.of_stands` carries
the result of the check over to the cache.

Scriptlets, hooks after the transaction and the messages are left out.
-/

namespace Alpm

open Sync (DistinctNames)

namespace CommitContext

/-! ## The loops -/

section

variable (ctx : CommitContext) (signal : ℕ → Bool)

/-- `_alpm_remove_packages` from the `i`-th round of the commit on.  `signal i` says that
`alpm_trans_interrupt` was called before that round. -/
def removeUntil : ℕ → List Pkg → CommitState → CommitState
  | _, [], st => st
  | i, pkg :: remove, st =>
    if st.interrupted || signal i then { st with interrupted := true }
    else removeUntil (i + 1) remove (ctx.removeSinglePackage st pkg none)

/-- `_alpm_upgrade_packages` from the `i`-th round of the commit on: whether it returns `-1`,
and the state afterwards. -/
def upgradeUntil : ℕ → List AddTarget → CommitState → Bool × CommitState
  | _, [], st => (false, st)
  | i, target :: add, st =>
    if st.interrupted || signal i then (false, { st with interrupted := true })
    else
      let (errors, st) := ctx.commitSinglePkg st target
      -- something screwed up on the commit, abort the trans
      if errors ≠ 0 then (true, { st with interrupted := true })
      else upgradeUntil (i + 1) add st

/-- `_alpm_sync_commit`; without targets to install it is `_alpm_remove_packages`. -/
def commitUntil (remove : List Pkg) (add : List AddTarget) (fs : FileSystem)
    (localdb : List Pkg) : Bool × CommitState :=
  ctx.upgradeUntil signal remove.length add (ctx.removeUntil signal 0 remove { fs, localdb })

end

/-! ## The package cache -/

section

variable {ctx : CommitContext} {signal : ℕ → Bool} {st : CommitState}

/-- **An interrupted removal** has taken out the packages of a prefix of its list.  If the state is
not interrupted afterwards, the prefix is the whole list. -/
theorem removeUntil_localdb (i : ℕ) (remove : List Pkg) (st : CommitState) :
    ∃ done rest, remove = done ++ rest ∧
      (ctx.removeUntil signal i remove st).localdb = done.foldl (listRemove pkgCmp) st.localdb ∧
      ((ctx.removeUntil signal i remove st).interrupted = false → rest = []) := by
  induction remove generalizing i st with
  | nil => exact ⟨[], [], rfl, rfl, fun _ => rfl⟩
  | cons pkg remove ih =>
    unfold removeUntil
    split_ifs
    · exact ⟨[], pkg :: remove, rfl, rfl, by simp⟩
    · obtain ⟨done, rest, rfl, hlocaldb, hrest⟩ := ih (i + 1) (ctx.removeSinglePackage st pkg none)
      refine ⟨pkg :: done, rest, rfl, ?_, hrest⟩
      rw [hlocaldb, removeSinglePackage_localdb, List.foldl_cons]

theorem removeUntil_names (hnames : DistinctNames st.localdb) (i : ℕ) (remove : List Pkg) :
    DistinctNames (ctx.removeUntil signal i remove st).localdb := by
  obtain ⟨done, -, -, hlocaldb, -⟩ := @removeUntil_localdb ctx signal i remove st
  rw [hlocaldb]
  clear hlocaldb
  induction done generalizing st with
  | nil => exact hnames
  | cons pkg done ih =>
    exact @ih { st with localdb := listRemove pkgCmp st.localdb pkg }
      (hnames.sublist (listRemove_sublist pkgCmp st.localdb pkg))

/-- The old version of a target is there when its name is. -/
def HasOldpkg (names : List CString) (target : AddTarget) : Prop :=
  target.pkg.name ∈ names → ∃ oldpkg, target.oldpkg = some oldpkg ∧
    oldpkg.name = target.pkg.name

/-- The commit of one target puts it in the place of the package of its name. -/
theorem commitSinglePkg_localdb {target : AddTarget} (hnames : DistinctNames st.localdb)
    (hold : HasOldpkg (st.localdb.map Pkg.name) target) :
    DistinctNames (ctx.commitSinglePkg st target).2.localdb ∧
      ∀ p, p ∈ (ctx.commitSinglePkg st target).2.localdb ↔
        (p ∈ st.localdb ∧ p.name ≠ target.pkg.name) ∨ p = cacheEntry target.pkg := by
  -- what is there of the database when the entry is merged in
  obtain ⟨rest, hmerged, hrest⟩ : ∃ rest,
      (ctx.commitSinglePkg st target).2.localdb =
        listMmerge pkgCmp rest [cacheEntry target.pkg] ∧
      rest.Sublist st.localdb ∧
      ∀ p, p ∈ rest ↔ p ∈ st.localdb ∧ p.name ≠ target.pkg.name := by
    unfold commitSinglePkg
    by_cases hin : target.pkg.name ∈ st.localdb.map Pkg.name
    · obtain ⟨oldpkg, holdpkg, hname⟩ := hold hin
      refine ⟨listRemove pkgCmp st.localdb oldpkg, ?_, listRemove_sublist _ _ _, fun p => ?_⟩
      · simp only [pkgFind_isSome.mpr hin, if_true, holdpkg]
        rw [removeSinglePackage_localdb]
      · rw [mem_listRemove pkgCmp_comparesBy hnames, hname]
    · refine ⟨st.localdb, ?_, List.Sublist.refl _, fun p => ?_⟩
      · have hnone : (pkgFind st.localdb target.pkg.name).isSome = false := by
          simpa using pkgFind_eq_none.mpr hin
        simp only [hnone, Bool.false_eq_true, if_false]
      · refine ⟨fun hp => ⟨hp, ?_⟩, And.left⟩
        rintro hname
        exact hin (hname ▸ List.mem_map_of_mem hp)
  have hperm := listMmerge_perm pkgCmp rest [cacheEntry target.pkg]
  rw [hmerged]
  refine ⟨?_, fun p => ?_⟩
  · refine ((hperm.map Pkg.name).nodup_iff).mpr ?_
    refine (hnames.sublist hrest.1).concat fun hname => ?_
    obtain ⟨p, hp, hpname⟩ := List.mem_map.mp hname
    exact ((hrest.2 p).mp hp).2 hpname
  · rw [hperm.mem_iff, List.mem_append, hrest.2, List.mem_singleton]

/-- The old versions of the other targets are still there when their names are. -/
theorem hasOldpkg_commitSinglePkg {target : AddTarget} {add : List AddTarget}
    (hnew : target.pkg.name ∉ add.map (·.pkg.name))
    (hmem : ∀ p, p ∈ (ctx.commitSinglePkg st target).2.localdb ↔
      (p ∈ st.localdb ∧ p.name ≠ target.pkg.name) ∨ p = cacheEntry target.pkg)
    (hold : ∀ other ∈ add, HasOldpkg (st.localdb.map Pkg.name) other) :
    ∀ other ∈ add,
      HasOldpkg ((ctx.commitSinglePkg st target).2.localdb.map Pkg.name) other := by
  intro other hother hin
  obtain ⟨p, hp, hname⟩ := List.mem_map.mp hin
  refine hold other hother ?_
  rcases (hmem p).mp hp with ⟨hp, -⟩ | rfl
  · exact hname ▸ List.mem_map_of_mem hp
  · exact absurd (List.mem_map.mpr ⟨other, hother, hname.symm⟩) hnew

/-- **What the upgrade loop makes of the package cache**, when it gets through: an entry for every
target, and the packages of other names as they were. -/
theorem mem_upgradeUntil {add : List AddTarget} (hadd : (add.map (·.pkg.name)).Nodup)
    (hnames : DistinctNames st.localdb)
    (hold : ∀ target ∈ add, HasOldpkg (st.localdb.map Pkg.name) target) (i : ℕ)
    (hthrough : (ctx.upgradeUntil signal i add st).2.interrupted = false) :
    DistinctNames (ctx.upgradeUntil signal i add st).2.localdb ∧
      ∀ p, p ∈ (ctx.upgradeUntil signal i add st).2.localdb ↔
        (p ∈ st.localdb ∧ p.name ∉ add.map (·.pkg.name)) ∨
          ∃ target ∈ add, p = cacheEntry target.pkg := by
  induction add generalizing i st with
  | nil => exact ⟨hnames, fun p => by simp [upgradeUntil]⟩
  | cons target add ih =>
    obtain ⟨hnew, hadd⟩ := List.nodup_cons.mp hadd
    obtain ⟨hnames', hmem⟩ := @commitSinglePkg_localdb ctx st target hnames
      (hold target (List.mem_cons_self ..))
    by_cases hstop : (st.interrupted || signal i) = true
    · simp [upgradeUntil, hstop] at hthrough
    by_cases herrors : (ctx.commitSinglePkg st target).1 ≠ 0
    · simp [upgradeUntil, hstop, herrors] at hthrough
    have hround : ctx.upgradeUntil signal i (target :: add) st =
        ctx.upgradeUntil signal (i + 1) add (ctx.commitSinglePkg st target).2 := by
      simp only [upgradeUntil, if_neg hstop, if_neg herrors]
    rw [hround] at hthrough ⊢
    obtain ⟨hlast, hall⟩ := ih hadd hnames' (hasOldpkg_commitSinglePkg hnew hmem fun other hother =>
      hold other (List.mem_cons_of_mem _ hother)) (i + 1) hthrough
    refine ⟨hlast, fun p => ?_⟩
    rw [hall, hmem, List.map_cons, List.mem_cons, not_or]
    constructor
    · rintro (⟨⟨hp, hne⟩ | rfl, hnot⟩ | ⟨other, hother, rfl⟩)
      · exact Or.inl ⟨hp, hne, hnot⟩
      · exact Or.inr ⟨target, List.mem_cons_self .., rfl⟩
      · exact Or.inr ⟨other, List.mem_cons_of_mem _ hother, rfl⟩
    · rintro (⟨hp, hne, hnot⟩ | ⟨other, hother, rfl⟩)
      · exact Or.inl ⟨Or.inl ⟨hp, hne⟩, hnot⟩
      · rcases List.mem_cons.mp hother with rfl | hother
        · exact Or.inl ⟨Or.inr rfl, hnew⟩
        · exact Or.inr ⟨other, hother, rfl⟩

/-- An upgrade loop that may be cut short keeps the names distinct, and only puts entries of
its targets into the package cache. -/
theorem upgradeUntil_account {add : List AddTarget} (hadd : (add.map (·.pkg.name)).Nodup)
    (hnames : DistinctNames st.localdb)
    (hold : ∀ target ∈ add, HasOldpkg (st.localdb.map Pkg.name) target) (i : ℕ) :
    DistinctNames (ctx.upgradeUntil signal i add st).2.localdb ∧
      ∀ p ∈ (ctx.upgradeUntil signal i add st).2.localdb,
        p ∈ st.localdb ∨ ∃ target ∈ add, p = cacheEntry target.pkg := by
  induction add generalizing i st with
  | nil => exact ⟨hnames, fun p => Or.inl⟩
  | cons target add ih =>
    obtain ⟨hnew, hadd⟩ := List.nodup_cons.mp hadd
    obtain ⟨hnames', hmem⟩ := @commitSinglePkg_localdb ctx st target hnames
      (hold target (List.mem_cons_self ..))
    have hfirst : ∀ p ∈ (ctx.commitSinglePkg st target).2.localdb,
        p ∈ st.localdb ∨ ∃ t ∈ target :: add, p = cacheEntry t.pkg := by
      intro p hp
      rcases (hmem p).mp hp with ⟨hp, -⟩ | rfl
      · exact Or.inl hp
      · exact Or.inr ⟨target, List.mem_cons_self .., rfl⟩
    by_cases hstop : (st.interrupted || signal i) = true
    · simp only [upgradeUntil, if_pos hstop]
      exact ⟨hnames, fun p => Or.inl⟩
    by_cases herrors : (ctx.commitSinglePkg st target).1 ≠ 0
    · simp only [upgradeUntil, if_neg hstop, if_pos herrors]
      exact ⟨hnames', hfirst⟩
    simp only [upgradeUntil, if_neg hstop, if_neg herrors]
    obtain ⟨hlast, hall⟩ := ih hadd hnames' (hasOldpkg_commitSinglePkg hnew hmem fun other hother =>
      hold other (List.mem_cons_of_mem _ hother)) (i + 1)
    refine ⟨hlast, fun p hp => ?_⟩
    rcases hall p hp with hp | ⟨t, ht, rfl⟩
    · exact hfirst p hp
    · exact Or.inr ⟨t, List.mem_cons_of_mem _ ht, rfl⟩

theorem upgradeUntil_of_interrupted (h : st.interrupted = true) (i : ℕ) (add : List AddTarget) :
    (ctx.upgradeUntil signal i add st).2 = st := by
  cases add with
  | nil => rfl
  | cons target add =>
    simp only [upgradeUntil, h, Bool.true_or, if_true]
    rw [← h]

/-- **What a commit makes of the package cache**, when it gets through its loops: the packages
that are neither removed nor replaced, and an entry for every target. -/
theorem mem_commitUntil {remove : List Pkg} {add : List AddTarget} {fs : FileSystem}
    {localdb : List Pkg} (hadd : (add.map (·.pkg.name)).Nodup) (hnames : DistinctNames localdb)
    (hold : ∀ target ∈ add, HasOldpkg (localdb.map Pkg.name) target)
    (hthrough : (ctx.commitUntil signal remove add fs localdb).2.interrupted = false) :
    DistinctNames (ctx.commitUntil signal remove add fs localdb).2.localdb ∧
      ∀ p, p ∈ (ctx.commitUntil signal remove add fs localdb).2.localdb ↔
        p ∈ keptPkgs localdb remove (add.map (·.pkg)) ∨
          ∃ target ∈ add, p = cacheEntry target.pkg := by
  unfold commitUntil at hthrough ⊢
  obtain ⟨done, rest, hremove, hlocaldb, hrest⟩ :=
    @removeUntil_localdb ctx signal 0 remove { fs, localdb }
  have hinterrupted : (ctx.removeUntil signal 0 remove { fs, localdb }).interrupted = false := by
    by_contra hnot
    rw [Bool.not_eq_false] at hnot
    rw [upgradeUntil_of_interrupted hnot] at hthrough
    exact absurd (hnot.symm.trans hthrough) (by decide)
  obtain rfl : rest = [] := hrest hinterrupted
  obtain rfl : remove = done := by simpa using hremove
  have hkept : ∀ p, p ∈ (ctx.removeUntil signal 0 remove { fs, localdb }).localdb ↔
      p ∈ localdb ∧ p.name ∉ remove.map Pkg.name := by
    intro p
    rw [hlocaldb]
    exact mem_foldl_listRemove pkgCmp_comparesBy hnames
  obtain ⟨hdistinct, hmem⟩ := mem_upgradeUntil hadd
    (@removeUntil_names ctx signal { fs, localdb } hnames 0 remove)
    (fun target htarget hin => hold target htarget (by
      obtain ⟨p, hp, hname⟩ := List.mem_map.mp hin
      exact hname ▸ List.mem_map_of_mem ((hkept p).mp hp).1)) _ hthrough
  refine ⟨hdistinct, fun p => ?_⟩
  rw [hmem, hkept, mem_keptPkgs, List.map_map, and_assoc]
  rfl

/-- What a commit may make of the package cache, however it ends. -/
theorem commitUntil_account {remove : List Pkg} {add : List AddTarget} {fs : FileSystem}
    {localdb : List Pkg} (hadd : (add.map (·.pkg.name)).Nodup) (hnames : DistinctNames localdb)
    (hold : ∀ target ∈ add, HasOldpkg (localdb.map Pkg.name) target) :
    DistinctNames (ctx.commitUntil signal remove add fs localdb).2.localdb ∧
      ∀ p ∈ (ctx.commitUntil signal remove add fs localdb).2.localdb,
        p ∈ localdb ∨ ∃ target ∈ add, p = cacheEntry target.pkg := by
  obtain ⟨done, -, -, hlocaldb, -⟩ := @removeUntil_localdb ctx signal 0 remove { fs, localdb }
  have hsub : ∀ p ∈ (ctx.removeUntil signal 0 remove { fs, localdb }).localdb, p ∈ localdb := by
    intro p hp
    rw [hlocaldb] at hp
    exact ((mem_foldl_listRemove pkgCmp_comparesBy hnames).mp hp).1
  obtain ⟨hdistinct, hall⟩ := @upgradeUntil_account ctx signal _ _ hadd
    (@removeUntil_names ctx signal { fs, localdb } hnames 0 remove)
    (fun target htarget hin => hold target htarget (by
      obtain ⟨p, hp, hname⟩ := List.mem_map.mp hin
      exact hname ▸ List.mem_map_of_mem (hsub p hp))) remove.length
  exact ⟨hdistinct, fun p hp => (hall p hp).imp_left (hsub p)⟩

end

end CommitContext

/-! ## Consistency -/

section

variable {ctx : DepContext} {localdb : List Pkg}

/-- The two packages satisfy the same dependencies and have the same ones, so that for the check of
dependencies one is as good as the other. -/
structure Pkg.Stands (p q : Pkg) : Prop where
  name : p.name = q.name
  version : p.version = q.version
  provides : p.provides = q.provides
  depends : p.depends = q.depends

theorem Pkg.Stands.depcmp {p q : Pkg} (h : p.Stands q) (dep : Depend) :
    Alpm.depcmp p dep = Alpm.depcmp q dep := by
  unfold Alpm.depcmp depcmpLiteral Pkg.nameHash
  rw [h.name, h.version, h.provides]

/-- A database in which every package stands for one of a consistent list, and every one of
the list is stood for, is consistent. -/
theorem DepContext.Consistent.of_stands {pkgs pkgs' : List Pkg} (h : ctx.Consistent pkgs)
    (hto : ∀ p ∈ pkgs', ∃ q ∈ pkgs, p.Stands q) (hfrom : ∀ q ∈ pkgs, ∃ p ∈ pkgs', p.Stands q) :
    ctx.Consistent pkgs' := by
  intro p hp dep hdep
  obtain ⟨q, hq, hstands⟩ := hto p hp
  refine (h q hq dep (hstands.depends ▸ hdep)).imp_left ?_
  rintro ⟨r, hr, hsat⟩
  obtain ⟨r', hr', hstands'⟩ := hfrom r hr
  exact ⟨r', hr', (hstands'.depcmp dep).trans hsat⟩

theorem DepContext.effective_of_nodepversion (h : ctx.nodepversion = false) (dep : Depend) :
    ctx.effective dep = dep := by
  simp [DepContext.effective, h]

/-- What a check that finds nothing says about the result. -/
theorem consistent_of_checkdeps (hversion : ctx.nodepversion = false)
    (hbefore : ctx.Consistent localdb) {remove add : List Pkg}
    (h : checkdeps ctx localdb remove add true = []) :
    ctx.Consistent (resultPkgs localdb remove add) := by
  intro pkg hpkg dep hdep
  have hsat := checkdeps_complete hbefore h hpkg hdep
  rwa [DepContext.effective_of_nodepversion hversion] at hsat

end

end Alpm
