import Alpm.Pkghash

/-!
# The group cache

The group cache of a database (`db.c`): `load_grpcache` makes it from the package cache when it is
asked for, and `free_groupcache` drops it when the package cache changes.  The packages are those
whose data has been loaded, and there is memory for groups.

## 1.  What the group cache should be

There should be one group for each name that some package lists, and it should have the packages
that list it, in the order of the package cache (`Mirrors`).

## 2.  Where it is not

`load_grpcache` looks for a group of the name in which the package is not yet, instead of a group of
the name.  The difference shows when a package lists a group twice: at its second entry there is no
group that it could join, and one more group of the same name begins (`addGroup_of_present`).  If
nobody does this the search finds the group of the name, and the cache mirrors the packages.  The
invariant of the loop says that the first group of each name has none of the packages to come
(`Fresh`), so the first group always gets the package; `alpm_db_get_group`, which stops at the first
group of the name, is right in either case (`Reach.dbGetGroup_packages`).

## 3.  Runs

The packages are added and removed while the cache may be loaded or not; a package that is added is
a copy at an address where no cached package is.  `Reach.cached` is the invariant of such runs: a
cache that is there is the one of the packages of now.  So what `_alpm_db_get_groupcache` returns in
a state that is reached mirrors the packages if and only if none of them lists a group twice
(`Reach.getGroupcache_iff`).
-/

namespace Alpm.Groupcache

/-- `alpm_group_t`. -/
structure Group where
  name : CString
  packages : List Pkg
  deriving DecidableEq, Repr

/-- `alpm_db_t` with its package cache: the bits `VALID`, `LOCAL` and `GRPCACHE` of its status and
its caches. -/
structure Db where
  treename : CString
  valid : Bool := true
  isLocal : Bool := false
  pkgcache : Pkghash
  grpcacheLoaded : Bool := false
  grpcache : List Group := []

/-- `alpm_list_find_ptr` in a list of packages. -/
def findPtr (packages : List Pkg) (pkg : Pkg) : Bool := packages.any (·.addr = pkg.addr)

/-- The loop body of `load_grpcache`: the package joins the first group of the name that it is not
in, or there is a new group. -/
def addGroup (pkg : Pkg) (grpname : CString) : List Group → List Group
  | [] => [{ name := grpname, packages := [pkg] }]
  | grp :: grpcache =>
    if strcmp grp.name grpname = 0 ∧ !findPtr grp.packages pkg then
      { grp with packages := grp.packages ++ [pkg] } :: grpcache
    else grp :: addGroup pkg grpname grpcache

/-- The loop of `load_grpcache` over the groups of a package. -/
def addGroups (pkg : Pkg) : List CString → List Group → List Group
  | [], grpcache => grpcache
  | grpname :: groups, grpcache => addGroups pkg groups (addGroup pkg grpname grpcache)

/-- The loop of `load_grpcache` over the packages. -/
def addPackages : List Pkg → List Group → List Group
  | [], grpcache => grpcache
  | pkg :: pkgs, grpcache => addPackages pkgs (addGroups pkg pkg.groups grpcache)

/-- `load_grpcache`. -/
def loadGrpcache (db : Db) : Db :=
  { db with
    grpcache := addPackages db.pkgcache.list db.grpcache
    grpcacheLoaded := true }

/-- `free_groupcache`. -/
def freeGroupcache (db : Db) : Db :=
  if !db.grpcacheLoaded then db else { db with grpcache := [], grpcacheLoaded := false }

/-- `_alpm_db_add_pkgincache`: the return value and the database.  The copy goes into the hash with
its list sorted, and the group cache is dropped. -/
def addPkgincache (outcome : DupOutcome) (alloc : PkghashAlloc) (db : Db) (pkg : Pkg) :
    Option (Int × Db) :=
  match pkgDup outcome pkg with
  | (0, some newpkg) =>
    let newpkg := { newpkg with
      origin := if db.isLocal then .localdb else .syncdb db.treename }
    match pkghashAddSorted alloc db.pkgcache newpkg with
    | none => none
    | some (none, pkgcache) => some (-1, { db with pkgcache })
    | some (some _, pkgcache) => some (0, freeGroupcache { db with pkgcache })
  | _ => some (-1, db)

/-- `_alpm_db_remove_pkgfromcache`: the return value and the database. -/
def removePkgfromcache (db : Db) (pkg : Pkg) : Option (Int × Db) :=
  match pkghashRemove db.pkgcache pkg with
  | none => none
  -- package not found
  | some (pkgcache, none) => some (-1, { db with pkgcache })
  | some (pkgcache, some _) => some (0, freeGroupcache { db with pkgcache })

/-- The database with its group cache loaded. -/
def withGrpcache (db : Db) : Db := if !db.grpcacheLoaded then loadGrpcache db else db

/-- `_alpm_db_get_groupcache`: the return value and the database. -/
def getGroupcache (db : Db) : Option (List Group) × Db :=
  if !db.valid then (none, db) else (some (withGrpcache db).grpcache, withGrpcache db)

/-- `_alpm_db_get_groupfromcache`. -/
def getGroupfromcache (db : Db) (target : CString) : Option Group :=
  if target.length = 0 then none
  else ((getGroupcache db).1.getD []).find? fun info => strcmp info.name target = 0

/-- `alpm_db_get_group`. -/
def dbGetGroup (db : Db) (name : CString) : Option Group :=
  if name.length = 0 then none else getGroupfromcache db name

/-! ## What the group cache should be -/

/-- There is one group for each name that occurs, with the packages that list it in order.  This is
the purpose of the cache, in terms of the packages alone. -/
structure Mirrors (pkgs : List Pkg) (grpcache : List Group) : Prop where
  nodup : (grpcache.map Group.name).Nodup
  mem_iff : ∀ grpname, grpname ∈ grpcache.map Group.name ↔ ∃ pkg ∈ pkgs, grpname ∈ pkg.groups
  packages : ∀ grp ∈ grpcache, grp.packages = pkgs.filter fun pkg => grp.name ∈ pkg.groups

/-! ## Adding a package to a group -/

/-- The packages of the first group of a name. -/
def firstPackages (grpname : CString) (grpcache : List Group) : List Pkg :=
  ((grpcache.find? (·.name = grpname)).map Group.packages).getD []

@[simp] theorem firstPackages_nil (grpname : CString) : firstPackages grpname [] = [] := rfl

@[simp] theorem firstPackages_cons (grpname : CString) (grp : Group) (grpcache : List Group) :
    firstPackages grpname (grp :: grpcache) =
      if grp.name = grpname then grp.packages else firstPackages grpname grpcache := by
  by_cases h : grp.name = grpname <;> simp [firstPackages, h]

section AddGroup

variable {pkg : Pkg} {grpname : CString} {grpcache : List Group}

theorem addGroup_cons (grp : Group) :
    addGroup pkg grpname (grp :: grpcache) =
      if grp.name = grpname ∧ findPtr grp.packages pkg = false then
        { grp with packages := grp.packages ++ [pkg] } :: grpcache
      else grp :: addGroup pkg grpname grpcache := by
  simp [addGroup]

/-- The first group of the name gets the package if it does not have it. -/
theorem firstPackages_addGroup (grpname' : CString) :
    firstPackages grpname' (addGroup pkg grpname grpcache) =
      if grpname' = grpname ∧ findPtr (firstPackages grpname grpcache) pkg = false then
        firstPackages grpname grpcache ++ [pkg]
      else firstPackages grpname' grpcache := by
  induction grpcache with
  | nil =>
    by_cases h : grpname' = grpname
    · simp [addGroup, h, findPtr]
    · simp [addGroup, h, Ne.symm h]
  | cons grp grpcache ih =>
    rw [addGroup_cons, firstPackages_cons, firstPackages_cons]
    by_cases hname : grp.name = grpname
    · subst hname
      rw [if_pos rfl]
      cases hptr : findPtr grp.packages pkg with
      | false =>
        rw [if_pos ⟨rfl, rfl⟩, firstPackages_cons]
        by_cases h : grp.name = grpname'
        · simp [h]
        · simp [h, Ne.symm h]
      | true =>
        -- the group has the package, and what comes after it is not the first group
        have hfalse : ¬ (true = false) := Bool.noConfusion
        rw [if_neg fun hand => hfalse hand.2, if_neg fun hand => hfalse hand.2, firstPackages_cons]
        by_cases h : grp.name = grpname'
        · rw [if_pos h, if_pos h]
        · rw [if_neg h, if_neg h, ih, if_neg fun hand => h hand.1.symm]
    · rw [if_neg fun hand => hname hand.1, firstPackages_cons, if_neg hname, ih]
      by_cases h : grp.name = grpname'
      · rw [if_pos h, if_pos h, if_neg fun hand => hname (h.trans hand.1)]
      · rw [if_neg h, if_neg h]

theorem names_addGroup (hptr : findPtr (firstPackages grpname grpcache) pkg = false) :
    (addGroup pkg grpname grpcache).map Group.name =
      if grpname ∈ grpcache.map Group.name then grpcache.map Group.name
      else grpcache.map Group.name ++ [grpname] := by
  induction grpcache with
  | nil => rfl
  | cons grp grpcache ih =>
    rw [firstPackages_cons] at hptr
    rw [addGroup_cons, List.map_cons]
    by_cases hname : grp.name = grpname
    · rw [if_pos hname] at hptr
      rw [if_pos ⟨hname, hptr⟩, if_pos (by simp [hname]), List.map_cons]
    · rw [if_neg hname] at hptr
      rw [if_neg fun hand => hname hand.1, List.map_cons, ih hptr]
      simp only [List.mem_cons, Ne.symm hname, false_or]
      split_ifs <;> rfl

/-- A group of the name is added when all that there are have the package. -/
theorem addGroup_of_present
    (h : ∀ grp ∈ grpcache, grp.name = grpname → findPtr grp.packages pkg = true) :
    addGroup pkg grpname grpcache = grpcache ++ [{ name := grpname, packages := [pkg] }] := by
  induction grpcache with
  | nil => rfl
  | cons grp grpcache ih =>
    obtain ⟨hgrp, hgrpcache⟩ := List.forall_mem_cons.mp h
    rw [addGroup_cons, if_neg, ih hgrpcache, List.cons_append]
    rintro ⟨hname, hptr⟩
    rw [hgrp hname] at hptr
    cases hptr

theorem names_prefix_addGroup (pkg : Pkg) (grpname : CString) (grpcache : List Group) :
    grpcache.map Group.name <+: (addGroup pkg grpname grpcache).map Group.name := by
  induction grpcache with
  | nil => exact List.nil_prefix
  | cons grp grpcache ih =>
    rw [addGroup_cons]
    split_ifs
    · exact List.prefix_refl _
    · exact List.cons_prefix_cons.mpr ⟨rfl, ih⟩

theorem mem_names_addGroup {grpname' : CString} :
    grpname' ∈ (addGroup pkg grpname grpcache).map Group.name ↔
      grpname' = grpname ∨ grpname' ∈ grpcache.map Group.name := by
  induction grpcache with
  | nil => simp [addGroup]
  | cons grp grpcache ih =>
    rw [addGroup_cons, List.map_cons, List.mem_cons]
    split_ifs with h
    · rw [List.map_cons, List.mem_cons]
      refine ⟨Or.inr, fun hor => hor.elim (fun heq => Or.inl (heq.trans h.1.symm)) id⟩
    · rw [List.map_cons, List.mem_cons, ih, or_left_comm]

theorem firstPackages_of_mem (hnodup : (grpcache.map Group.name).Nodup) {grp : Group}
    (h : grp ∈ grpcache) : firstPackages grp.name grpcache = grp.packages := by
  induction grpcache with
  | nil => cases h
  | cons first grpcache ih =>
    rw [List.map_cons, List.nodup_cons] at hnodup
    rw [firstPackages_cons]
    rcases List.mem_cons.mp h with rfl | h
    · rw [if_pos rfl]
    · rw [if_neg, ih hnodup.2 h]
      intro hname
      exact hnodup.1 (hname ▸ List.mem_map_of_mem h)

theorem firstPackages_of_notMem (h : grpname ∉ grpcache.map Group.name) :
    firstPackages grpname grpcache = [] := by
  induction grpcache with
  | nil => rfl
  | cons grp grpcache ih =>
    rw [List.map_cons, List.mem_cons, not_or] at h
    rw [firstPackages_cons, if_neg (Ne.symm h.1), ih h.2]

/-- A package that is in the first group of a name gets a group of its own. -/
theorem not_nodup_addGroup (hptr : findPtr (firstPackages grpname grpcache) pkg = true) :
    ¬ ((addGroup pkg grpname grpcache).map Group.name).Nodup := by
  intro hnodup
  have hnames := hnodup.sublist (names_prefix_addGroup pkg grpname grpcache).sublist
  have hpresent : ∀ grp ∈ grpcache, grp.name = grpname → findPtr grp.packages pkg = true := by
    rintro grp hgrp rfl
    rwa [← firstPackages_of_mem hnames hgrp]
  have hmem : grpname ∈ grpcache.map Group.name := by
    by_contra hmem
    rw [firstPackages_of_notMem hmem] at hptr
    cases hptr
  rw [addGroup_of_present hpresent, List.map_append] at hnodup
  exact (List.disjoint_of_nodup_append hnodup) hmem (List.mem_singleton_self _)

end AddGroup

/-! ## Loading -/

section AddGroups

variable {pkg : Pkg} {groups : List CString} {grpcache : List Group}

theorem names_prefix_addGroups (pkg : Pkg) (groups : List CString) (grpcache : List Group) :
    grpcache.map Group.name <+: (addGroups pkg groups grpcache).map Group.name := by
  induction groups generalizing grpcache with
  | nil => exact List.prefix_refl _
  | cons grpname groups ih =>
    exact (names_prefix_addGroup pkg grpname grpcache).trans (ih (addGroup pkg grpname grpcache))

theorem mem_names_addGroups {grpname : CString} :
    grpname ∈ (addGroups pkg groups grpcache).map Group.name ↔
      grpname ∈ groups ∨ grpname ∈ grpcache.map Group.name := by
  induction groups generalizing grpcache with
  | nil => simp [addGroups]
  | cons first groups ih =>
    rw [addGroups, ih, mem_names_addGroup, List.mem_cons, or_left_comm, or_assoc]

theorem firstPackages_addGroups (grpname : CString) :
    firstPackages grpname (addGroups pkg groups grpcache) =
      if grpname ∈ groups ∧ findPtr (firstPackages grpname grpcache) pkg = false then
        firstPackages grpname grpcache ++ [pkg]
      else firstPackages grpname grpcache := by
  induction groups generalizing grpcache with
  | nil => simp [addGroups]
  | cons first groups ih =>
    rw [addGroups, ih, firstPackages_addGroup]
    by_cases hfirst : grpname = first
    · subst hfirst
      cases hptr : findPtr (firstPackages grpname grpcache) pkg with
      | false =>
        have hnow : findPtr (firstPackages grpname grpcache ++ [pkg]) pkg = true := by
          simp [findPtr]
        simp [hnow]
      | true => simp [hptr]
    · simp [hfirst]

theorem nodup_names_addGroups (hgroups : groups.Nodup)
    (hptr : ∀ grpname ∈ groups, findPtr (firstPackages grpname grpcache) pkg = false)
    (h : (grpcache.map Group.name).Nodup) :
    ((addGroups pkg groups grpcache).map Group.name).Nodup := by
  induction groups generalizing grpcache with
  | nil => exact h
  | cons first groups ih =>
    obtain ⟨hnew, hgroups⟩ := List.nodup_cons.mp hgroups
    obtain ⟨hfirst, hptr⟩ := List.forall_mem_cons.mp hptr
    refine ih hgroups (fun grpname hmem => ?_) ?_
    · rw [firstPackages_addGroup, if_neg]
      · exact hptr grpname hmem
      · rintro ⟨rfl, -⟩
        exact hnew hmem
    · rw [names_addGroup hfirst]
      split_ifs with hmem
      · exact h
      · exact List.nodup_append'.mpr ⟨h, List.nodup_singleton _, by simpa using hmem⟩

theorem not_nodup_of_mem {grpname : CString} (hmem : grpname ∈ groups)
    (hptr : findPtr (firstPackages grpname grpcache) pkg = true) :
    ¬ ((addGroups pkg groups grpcache).map Group.name).Nodup := by
  induction groups generalizing grpcache with
  | nil => cases hmem
  | cons first groups ih =>
    rcases List.mem_cons.mp hmem with rfl | hmem
    · exact fun hnodup => not_nodup_addGroup hptr
        (hnodup.sublist (names_prefix_addGroups pkg groups _).sublist)
    · refine ih hmem ?_
      rw [firstPackages_addGroup]
      split_ifs with h
      · rw [← h.1]
        simp [findPtr]
      · exact hptr

/-- A package that lists a group twice gets it twice. -/
theorem not_nodup_addGroups (h : ¬ groups.Nodup) :
    ¬ ((addGroups pkg groups grpcache).map Group.name).Nodup := by
  induction groups generalizing grpcache with
  | nil => exact absurd List.nodup_nil h
  | cons first groups ih =>
    by_cases hmem : first ∈ groups
    · rw [addGroups]
      refine not_nodup_of_mem hmem ?_
      rw [firstPackages_addGroup]
      split_ifs with hand
      · simp [findPtr]
      · simpa using hand
    · exact ih fun hgroups => h (List.nodup_cons.mpr ⟨hmem, hgroups⟩)

end AddGroups

section AddPackages

variable {pkgs : List Pkg} {grpcache : List Group}

theorem names_prefix_addPackages (pkgs : List Pkg) (grpcache : List Group) :
    grpcache.map Group.name <+: (addPackages pkgs grpcache).map Group.name := by
  induction pkgs generalizing grpcache with
  | nil => exact List.prefix_refl _
  | cons pkg pkgs ih => exact (names_prefix_addGroups pkg pkg.groups grpcache).trans (ih _)

theorem mem_names_addPackages {grpname : CString} :
    grpname ∈ (addPackages pkgs grpcache).map Group.name ↔
      (∃ pkg ∈ pkgs, grpname ∈ pkg.groups) ∨ grpname ∈ grpcache.map Group.name := by
  induction pkgs generalizing grpcache with
  | nil => simp [addPackages]
  | cons pkg pkgs ih =>
    rw [addPackages, ih, mem_names_addGroups, List.exists_mem_cons_iff, ← or_assoc]
    exact or_congr_left or_comm

/-- What the first group of each name has is not among the packages to come. -/
def Fresh (pkgs : List Pkg) (grpcache : List Group) : Prop :=
  ∀ grpname, ∀ pkg ∈ pkgs, findPtr (firstPackages grpname grpcache) pkg = false

theorem Fresh.tail {pkg : Pkg} (haddr : ((pkg :: pkgs).map Pkg.addr).Nodup)
    (h : Fresh (pkg :: pkgs) grpcache) : Fresh pkgs (addGroups pkg pkg.groups grpcache) := by
  intro grpname pkg' hpkg'
  have hold := h grpname pkg' (List.mem_cons_of_mem _ hpkg')
  rw [firstPackages_addGroups]
  split_ifs
  · have hne : pkg.addr ≠ pkg'.addr := by
      rintro heq
      exact (List.nodup_cons.mp haddr).1 (heq ▸ List.mem_map_of_mem hpkg')
    simpa [findPtr, hne] using hold
  · exact hold

theorem firstPackages_addPackages (haddr : (pkgs.map Pkg.addr).Nodup) (h : Fresh pkgs grpcache)
    (grpname : CString) :
    firstPackages grpname (addPackages pkgs grpcache) =
      firstPackages grpname grpcache ++ pkgs.filter fun pkg => grpname ∈ pkg.groups := by
  induction pkgs generalizing grpcache with
  | nil => simp [addPackages]
  | cons pkg pkgs ih =>
    rw [addPackages, ih (List.nodup_cons.mp haddr).2 (h.tail haddr), firstPackages_addGroups,
      List.filter_cons]
    by_cases hmem : grpname ∈ pkg.groups
    · rw [if_pos ⟨hmem, h grpname pkg (List.mem_cons_self ..)⟩, if_pos (by simpa using hmem),
        List.append_assoc, List.singleton_append]
    · rw [if_neg fun hand => hmem hand.1, if_neg (by simpa using hmem)]

theorem nodup_names_addPackages_iff (haddr : (pkgs.map Pkg.addr).Nodup)
    (hfresh : Fresh pkgs grpcache) (h : (grpcache.map Group.name).Nodup) :
    ((addPackages pkgs grpcache).map Group.name).Nodup ↔ ∀ pkg ∈ pkgs, pkg.groups.Nodup := by
  induction pkgs generalizing grpcache with
  | nil => exact iff_of_true h (by simp)
  | cons pkg pkgs ih =>
    rw [addPackages, List.forall_mem_cons]
    by_cases hgroups : pkg.groups.Nodup
    · have hnodup := nodup_names_addGroups hgroups
        (fun grpname _ => hfresh grpname pkg (List.mem_cons_self ..)) h
      rw [ih (List.nodup_cons.mp haddr).2 (hfresh.tail haddr) hnodup, and_iff_right hgroups]
    · refine iff_of_false (fun hnodup => ?_) fun hand => hgroups hand.1
      exact not_nodup_addGroups hgroups (hnodup.sublist (names_prefix_addPackages pkgs _).sublist)

/-- **The group cache** that is loaded mirrors the packages if and only if none of them lists a
group twice.  At a second entry for a group the package is in the first group of the name already,
and a group that should not be there is added for good. -/
theorem addPackages_mirrors_iff (haddr : (pkgs.map Pkg.addr).Nodup) :
    Mirrors pkgs (addPackages pkgs []) ↔ ∀ pkg ∈ pkgs, pkg.groups.Nodup := by
  have hfresh : Fresh pkgs [] := fun _ _ _ => rfl
  have hiff := nodup_names_addPackages_iff haddr hfresh List.nodup_nil
  rw [← hiff]
  refine ⟨Mirrors.nodup, fun hnodup => ⟨hnodup, fun grpname => ?_, fun grp hgrp => ?_⟩⟩
  · rw [mem_names_addPackages, List.map_nil, or_iff_left List.not_mem_nil]
  · rw [← firstPackages_of_mem hnodup hgrp, firstPackages_addPackages haddr hfresh]
    rfl

end AddPackages

/-! ## The list of the package hash -/

section List

variable {hash hash' : Pkghash}

theorem rebin_list {oldhash : Pkghash} {i : ℕ} (h : rebin oldhash hash i = some hash') :
    hash'.list = hash.list := by
  unfold rebin at h
  split at h
  · rw [← Option.some.inj h]
  · obtain ⟨position, -, h⟩ := Option.bind_eq_some_iff.mp h
    rw [← Option.some.inj h]

theorem foldlM_rebin_list {oldhash : Pkghash} (positions : List ℕ)
    (h : positions.foldlM (rebin oldhash) hash = some hash') : hash'.list = hash.list := by
  induction positions generalizing hash with
  | nil => rw [← Option.some.inj h]
  | cons i positions ih =>
    obtain ⟨hash₁, hrebin, hfold⟩ := Option.bind_eq_some_iff.mp h
    rw [ih hfold, rebin_list hrebin]

theorem rehash_list {alloc : PkghashAlloc} (h : rehash alloc hash = some (some hash')) :
    hash'.list = hash.list := by
  unfold rehash at h
  split at h
  · cases h
  · obtain ⟨hash₁, hfold, hret⟩ := Option.bind_eq_some_iff.mp h
    have hlist := foldlM_rebin_list _ hfold
    rw [← Option.some.inj (Option.some.inj hret)]
    exact hlist

theorem pkghashPlace_list {alloc : PkghashAlloc} {pkg : Pkg} {ret : Option Pkghash}
    (h : pkghashPlace alloc hash pkg true = some (ret, hash')) :
    ret = none ∧ hash'.list = hash.list ∨ ret = some hash' ∧
      hash'.list = listMmerge pkgCmp hash.list [pkg] := by
  obtain ⟨position, -, h⟩ := Option.bind_eq_some_iff.mp h
  by_cases hnode : alloc.node
  · rw [if_neg (by simp [hnode])] at h
    obtain ⟨rfl, rfl⟩ := Prod.mk.inj (Option.some.inj h)
    exact Or.inr ⟨rfl, rfl⟩
  · rw [if_pos (by simp [hnode])] at h
    obtain ⟨rfl, rfl⟩ := Prod.mk.inj (Option.some.inj h)
    exact Or.inl ⟨rfl, rfl⟩

theorem pkghashAddSorted_list {alloc : PkghashAlloc} {pkg : Pkg} {ret : Option Pkghash}
    (h : pkghashAddSorted alloc hash pkg = some (ret, hash')) :
    ret = none ∧ hash'.list = hash.list ∨ ret = some hash' ∧
      hash'.list = listMmerge pkgCmp hash.list [pkg] := by
  unfold pkghashAddSorted pkghashAddPkg at h
  split_ifs at h
  · obtain ⟨grown, hrehash, h⟩ := Option.bind_eq_some_iff.mp h
    cases grown with
    | none =>
      obtain ⟨rfl, rfl⟩ := Prod.mk.inj (Option.some.inj h)
      exact Or.inl ⟨rfl, rfl⟩
    | some grown =>
      rw [← rehash_list hrehash]
      exact pkghashPlace_list h
  · exact pkghashPlace_list h

theorem moveOneEntry_list {start fuel stop prev : ℕ}
    (h : moveOneEntry hash start fuel stop = some (hash', prev)) : hash'.list = hash.list := by
  induction fuel generalizing stop with
  | zero => cases h
  | succ fuel ih =>
    unfold moveOneEntry at h
    split_ifs at h
    · obtain ⟨rfl, -⟩ := Prod.mk.inj (Option.some.inj h)
      rfl
    split at h
    · cases h
    · obtain ⟨newPosition, -, h⟩ := Option.bind_eq_some_iff.mp h
      split_ifs at h
      · obtain ⟨rfl, -⟩ := Prod.mk.inj (Option.some.inj h)
        rfl
      · exact ih h

theorem plugHoles_list {stop fuel position : ℕ}
    (h : plugHoles stop fuel hash position = some hash') : hash'.list = hash.list := by
  induction fuel generalizing hash position with
  | zero => cases h
  | succ fuel ih =>
    obtain ⟨⟨hash₁, prev⟩, hmove, h⟩ := Option.bind_eq_some_iff.mp h
    rw [← moveOneEntry_list hmove]
    simp only at h
    split_ifs at h
    · exact ih h
    · rw [← Option.some.inj h]

theorem pkghashRemove_list {pkg : Pkg} {data : Option Pkg}
    (h : pkghashRemove hash pkg = some (hash', data)) :
    data = none ∧ hash' = hash ∨ ∃ info, data = some info ∧ hash'.list = hash.list.erase info := by
  obtain ⟨found, -, h⟩ := Option.bind_eq_some_iff.mp h
  cases found with
  | none =>
    obtain ⟨rfl, rfl⟩ := Prod.mk.inj (Option.some.inj h)
    exact Or.inl ⟨rfl, rfl⟩
  | some position =>
    obtain ⟨info, -, h⟩ := Option.bind_eq_some_iff.mp h
    obtain ⟨stop, -, h⟩ := Option.bind_eq_some_iff.mp h
    obtain ⟨hash₁, hplug, h⟩ := Option.bind_eq_some_iff.mp h
    obtain ⟨rfl, rfl⟩ := Prod.mk.inj (Option.some.inj h)
    exact Or.inr ⟨info, rfl, plugHoles_list hplug⟩

end List

/-! ## Runs -/

/-- A run of calls on a database.  A package that is added is a copy at an address where no cached
package is. -/
inductive Reach : Db → Prop
  | load {db : Db} (haddr : (db.pkgcache.list.map Pkg.addr).Nodup)
      (hunloaded : db.grpcacheLoaded = false) (hgrpcache : db.grpcache = []) : Reach db
  | add {db db' : Db} {outcome : DupOutcome} {alloc : PkghashAlloc} {pkg : Pkg} {ret : Int}
      (hrun : Reach db)
      (hfresh : ∀ addr, outcome = .success addr → addr ∉ db.pkgcache.list.map Pkg.addr)
      (hadd : addPkgincache outcome alloc db pkg = some (ret, db')) : Reach db'
  | remove {db db' : Db} {pkg : Pkg} {ret : Int} (hrun : Reach db)
      (hremove : removePkgfromcache db pkg = some (ret, db')) : Reach db'
  | get {db : Db} (hrun : Reach db) : Reach (getGroupcache db).2

/-- The group cache is the one of the packages, if there is one. -/
structure Cached (db : Db) : Prop where
  addr : (db.pkgcache.list.map Pkg.addr).Nodup
  grpcache : db.grpcache = if db.grpcacheLoaded then addPackages db.pkgcache.list [] else []

theorem Cached.free {db : Db} (h : Cached db) {pkgcache : Pkghash}
    (haddr : (pkgcache.list.map Pkg.addr).Nodup) :
    Cached (freeGroupcache { db with pkgcache }) := by
  unfold freeGroupcache
  split_ifs with hloaded
  · have hnil := h.grpcache
    simp only [Bool.not_eq_true'] at hloaded
    rw [hloaded, if_neg Bool.false_ne_true] at hnil
    refine ⟨haddr, ?_⟩
    show db.grpcache = _
    rw [hnil, hloaded, if_neg Bool.false_ne_true]
  · exact ⟨haddr, rfl⟩

theorem Cached.add {db db' : Db} (h : Cached db) {outcome : DupOutcome} {alloc : PkghashAlloc}
    {pkg : Pkg} {ret : Int}
    (hfresh : ∀ addr, outcome = .success addr → addr ∉ db.pkgcache.list.map Pkg.addr)
    (hadd : addPkgincache outcome alloc db pkg = some (ret, db')) : Cached db' := by
  cases outcome with
  | fatal =>
    obtain ⟨-, rfl⟩ := Prod.mk.inj (Option.some.inj hadd)
    exact h
  | nonfatal addr =>
    obtain ⟨-, rfl⟩ := Prod.mk.inj (Option.some.inj hadd)
    exact h
  | success addr =>
    simp only [addPkgincache, pkgDup] at hadd
    split at hadd
    · cases hadd
    next pkgcache hpkghash =>
      obtain ⟨-, rfl⟩ := Prod.mk.inj (Option.some.inj hadd)
      obtain ⟨-, hlist⟩ | ⟨hret, -⟩ := pkghashAddSorted_list hpkghash
      · exact ⟨by rw [hlist]; exact h.addr, by rw [hlist]; exact h.grpcache⟩
      · cases hret
    next pkgcache hpkghash =>
      obtain ⟨-, rfl⟩ := Prod.mk.inj (Option.some.inj hadd)
      obtain ⟨hret, -⟩ | ⟨-, hlist⟩ := pkghashAddSorted_list hpkghash
      · cases hret
      refine h.free ?_
      rw [hlist, ((listMmerge_perm _ _ _).trans (List.perm_append_singleton _ _)).map Pkg.addr
        |>.nodup_iff]
      exact List.nodup_cons.mpr ⟨hfresh addr rfl, h.addr⟩

theorem Cached.remove {db db' : Db} (h : Cached db) {pkg : Pkg} {ret : Int}
    (hremove : removePkgfromcache db pkg = some (ret, db')) : Cached db' := by
  unfold removePkgfromcache at hremove
  split at hremove
  · cases hremove
  next pkgcache hpkghash =>
    obtain ⟨-, rfl⟩ := Prod.mk.inj (Option.some.inj hremove)
    obtain ⟨-, rfl⟩ | ⟨info, hdata, -⟩ := pkghashRemove_list hpkghash
    · exact h
    · cases hdata
  next pkgcache data hpkghash =>
    obtain ⟨-, rfl⟩ := Prod.mk.inj (Option.some.inj hremove)
    obtain ⟨hdata, -⟩ | ⟨info, -, hlist⟩ := pkghashRemove_list hpkghash
    · cases hdata
    refine h.free ?_
    rw [hlist]
    exact h.addr.sublist (List.erase_sublist.map Pkg.addr)

theorem Cached.withGrpcache {db : Db} (h : Cached db) :
    Cached (withGrpcache db) ∧
      (withGrpcache db).grpcache = addPackages db.pkgcache.list [] := by
  have hgrpcache := h.grpcache
  unfold Groupcache.withGrpcache
  cases hloaded : db.grpcacheLoaded with
  | true =>
    rw [hloaded, if_pos rfl] at hgrpcache
    exact ⟨h, hgrpcache⟩
  | false =>
    rw [hloaded, if_neg Bool.false_ne_true] at hgrpcache
    have hload : addPackages db.pkgcache.list db.grpcache = addPackages db.pkgcache.list [] := by
      rw [hgrpcache]
    exact ⟨⟨h.addr, hload⟩, hload⟩

/-- **Every run** leaves no group cache behind that is not that of the packages: the calls that
change the packages drop it, and nothing else changes it once it is loaded. -/
theorem Reach.cached {db : Db} (h : Reach db) : Cached db := by
  induction h with
  | load haddr hunloaded hgrpcache => exact ⟨haddr, by rw [hunloaded, hgrpcache]; rfl⟩
  | add _ hfresh hadd ih => exact ih.add hfresh hadd
  | remove _ hremove ih => exact ih.remove hremove
  | get _ ih =>
    unfold getGroupcache
    split_ifs
    · exact ih
    · exact ih.withGrpcache.1

theorem Cached.getGroupcache {db : Db} (h : Cached db) (hvalid : db.valid) :
    (getGroupcache db).1 = some (addPackages db.pkgcache.list []) := by
  rw [Groupcache.getGroupcache, if_neg (by simp [hvalid]), h.withGrpcache.2]

/-- **The group cache** that is returned in any state that is reached mirrors the packages if and
only if none of them lists a group twice.  The cache that is returned was loaded from the packages
of now, or is loaded by the call, so the runs come down to the loop that loads it. -/
theorem Reach.getGroupcache_iff {db : Db} (h : Reach db) (hvalid : db.valid) :
    (∃ grpcache, (getGroupcache db).1 = some grpcache ∧ Mirrors db.pkgcache.list grpcache) ↔
      ∀ pkg ∈ db.pkgcache.list, pkg.groups.Nodup := by
  rw [h.cached.getGroupcache hvalid, ← addPackages_mirrors_iff h.cached.addr]
  constructor
  · rintro ⟨grpcache, hgrpcache, hmirrors⟩
    rwa [Option.some.inj hgrpcache]
  · exact fun hmirrors => ⟨_, rfl, hmirrors⟩

/-- The packages that list a group. -/
def members (db : Db) (name : CString) : List Pkg :=
  if db.valid ∧ name ≠ [] then db.pkgcache.list.filter fun pkg => name ∈ pkg.groups else []

/-- The group that is found has the packages that list it, each once, also when the cache has
others of its name. -/
theorem Reach.dbGetGroup_packages {db : Db} (h : Reach db) (name : CString) :
    ((dbGetGroup db name).map Group.packages).getD [] = members db name := by
  unfold dbGetGroup getGroupfromcache members
  by_cases hname : name = []
  · simp [hname]
  have hlength : name.length ≠ 0 := fun hzero => hname (List.length_eq_zero_iff.mp hzero)
  rw [if_neg hlength, if_neg hlength]
  by_cases hvalid : db.valid
  · rw [if_pos ⟨hvalid, hname⟩, h.cached.getGroupcache hvalid]
    have hfresh : Fresh db.pkgcache.list [] := fun _ _ _ => rfl
    have hfirst := firstPackages_addPackages h.cached.addr hfresh name
    simpa [firstPackages] using hfirst
  · rw [if_neg fun hand => hvalid hand.1, getGroupcache, if_pos (by simpa using hvalid)]
    rfl

/-- A database with one package. -/
def dbOf (pkg : Pkg) : Db where
  treename := str "core"
  pkgcache :=
    { hashTable := Function.update (fun _ => none) (pkg.nameHash % 11) (some pkg)
      list := [pkg]
      buckets := 11
      entries := 1
      limit := 7 }

theorem reach_dbOf (pkg : Pkg) : Reach (dbOf pkg) := Reach.load (List.nodup_singleton _) rfl rfl

/-- A package of the group `base`. -/
def inBase (addr : ℕ) (name : CString) : Pkg where
  addr
  name
  version := str "1-1"
  groups := [str "base"]

/-- The group cache has been loaded for `filesystem` alone. -/
def loadedBase : Option (List Group) × Db := getGroupcache (dbOf (inBase 1 (str "filesystem")))

/-- `bash` joins `base` after the group cache has been loaded. -/
theorem Reach.getGroupcache_iff_base :
    loadedBase.1 = some [⟨str "base", [inBase 1 (str "filesystem")]⟩] ∧
      ∃ db, addPkgincache (.success 2) ⟨true, true, true⟩ loadedBase.2 (inBase 0 (str "bash")) =
          some (0, db) ∧
        db.pkgcache.list.map Pkg.name = [str "bash", str "filesystem"] ∧
        ∃ grpcache, (getGroupcache db).1 = some grpcache ∧ Mirrors db.pkgcache.list grpcache ∧
          grpcache.map (fun grp => (grp.name, grp.packages.map Pkg.name)) =
            [(str "base", [str "bash", str "filesystem"])] := by
  have hloaded : Reach loadedBase.2 := (reach_dbOf (inBase 1 (str "filesystem"))).get
  have hfresh : ∀ addr, DupOutcome.success 2 = .success addr →
      addr ∉ loadedBase.2.pkgcache.list.map Pkg.addr := by
    rintro addr ⟨⟩
    decide
  have hadd : addPkgincache (.success 2) ⟨true, true, true⟩ loadedBase.2 (inBase 0 (str "bash")) =
      some (_, _) := rfl
  have hreach := hloaded.add hfresh hadd
  obtain ⟨grpcache, hgrpcache, hmirrors⟩ := (hreach.getGroupcache_iff rfl).mpr (by decide +kernel)
  refine ⟨rfl, _, hadd, by decide +kernel, grpcache, hgrpcache, hmirrors, ?_⟩
  obtain rfl := Option.some.inj hgrpcache
  decide +kernel

/-- A package that lists its group twice. -/
def twiceInBase : Pkg where
  name := str "filesystem"
  version := str "1-1"
  groups := [str "base", str "base"]

theorem getGroupcache_twiceInBase :
    Reach (dbOf twiceInBase) ∧ ∃ grpcache, (getGroupcache (dbOf twiceInBase)).1 = some grpcache ∧
      grpcache.map Group.name = [str "base", str "base"] ∧
      ¬ Mirrors (dbOf twiceInBase).pkgcache.list grpcache :=
  ⟨reach_dbOf _, _, rfl, by decide, fun hmirrors => absurd hmirrors.nodup (by decide)⟩

end Alpm.Groupcache
