import Alpm.General.OpenAddressing
import Alpm.Package

/-!
# The package hash

`pkghash.c` keeps the packages of a database in a table with open addressing, for looking them up
by name, joined with a list for walking over them.

## 1.  The table

The table is a map from positions, of which those below `buckets` are allocated, and holds the data
of the list nodes; the load factors `0.68` and `0.58` are exact.  A probing loop is given `buckets`
rounds and the result is `none` if these are not enough, or if the `NULL` in an empty position
would be dereferenced.  Which allocations succeed is an argument of the functions that allocate.

## 2.  Why lookups find what is stored

A lookup for a package starts at its home position and stops at the first gap, so every package has
to be reachable from there without a gap (`OpenAddressing.Reachable`).  Adding fills the gap at the
end of the way.  Removing makes one in the middle, and `_alpm_pkghash_remove` repairs it by moving
later entries back until nothing in the cluster needs the hole any more (`Holed.moveOneEntry`,
`Holed.plugHoles`).  `rehash` builds the table from nothing (`Rebinned`).

## 3.  The finite map

What `WellFormed` says about the table is kept by every operation, and in such a table every probing
loop ends.  `Run` is any sequence of calls, with the map from names to packages that it should
stand for, and `Run.refines` says that it does.
-/

namespace Alpm

open OpenAddressing

/-- `prime_list`. -/
def primeList : List ℕ :=
  [11, 13, 17, 19, 23, 29, 31, 37, 41, 43, 47,
    53, 59, 61, 67, 71, 73, 79, 83, 89, 97, 103,
    109, 113, 127, 137, 139, 149, 157, 167, 179, 193,
    199, 211, 227, 241, 257, 277, 293, 313, 337, 359,
    383, 409, 439, 467, 503, 541, 577, 619, 661, 709,
    761, 823, 887, 953, 1031, 1109, 1193, 1289, 1381,
    1493, 1613, 1741, 1879, 2029, 2179, 2357, 2549,
    2753, 2971, 3209, 3469, 3739, 4027, 4349, 4703,
    5087, 5503, 5953, 6427, 6949, 7517, 8123, 8783,
    9497, 10273, 11113, 12011, 12983, 14033, 15173,
    16411, 17749, 19183, 20753, 22447, 24281, 26267,
    28411, 30727, 33223, 35933, 38873, 42043, 45481,
    49201, 53201, 57557, 62233, 67307, 72817, 78779,
    85229, 92203, 99733, 107897, 116731, 126271, 136607,
    147793, 159871, 172933, 187091, 202409, 218971, 236897,
    256279, 277261, 299951, 324503, 351061, 379787, 410857,
    444487, 480881, 520241, 562841, 608903, 658753, 712697,
    771049, 834181, 902483, 976369]

/-- `alpm_pkghash_t`. -/
structure Pkghash where
  hashTable : ℕ → Option Pkg
  list : List Pkg
  buckets : ℕ
  entries : ℕ
  limit : ℕ

/-- Which allocations succeed: the hash and its table in `_alpm_pkghash_create`, and the
list node in `pkghash_add_pkg`. -/
structure PkghashAlloc where
  hash : Bool
  table : Bool
  node : Bool
  deriving DecidableEq, Repr

/-- `_alpm_pkghash_create`. -/
def pkghashCreate (alloc : PkghashAlloc) (size : ℕ) : Option Pkghash :=
  if !alloc.hash then none
  else
    let size := size * 100 / 58 + 1
    let buckets := (primeList.find? (· > size)).getD 0
    let limit := buckets * 68 / 100
    if buckets < size then none
    else if !alloc.table then none
    else some { hashTable := fun _ => none, list := [], buckets, entries := 0, limit }

/-- `get_hash_position`. -/
def getHashPosition (nameHash : ℕ) (hash : Pkghash) : Option ℕ :=
  firstFree hash.buckets hash.hashTable hash.buckets (nameHash % hash.buckets)

/-- The loop of `rehash` at the position `i` of the old table. -/
def rebin (oldhash newhash : Pkghash) (i : ℕ) : Option Pkghash :=
  match oldhash.hashTable i with
  | none => some newhash
  | some package => do
    let position ← getHashPosition package.nameHash newhash
    return { newhash with
      hashTable := Function.update newhash.hashTable position (some package) }

/-- The size that `rehash` asks for. -/
def rehashSize (buckets : ℕ) : ℕ :=
  if buckets < 500 then buckets * 2
  else if buckets < 2000 then buckets * 3 / 2
  else if buckets < 5000 then buckets * 4 / 3
  else buckets + 1

/-- `rehash`: the return value. -/
def rehash (alloc : PkghashAlloc) (oldhash : Pkghash) : Option (Option Pkghash) :=
  match pkghashCreate alloc (rehashSize oldhash.buckets) with
  | none => some none
  | some newhash => do
    let newhash ← (List.range oldhash.buckets).foldlM (rebin oldhash)
      { newhash with list := oldhash.list }
    return some { newhash with entries := oldhash.entries }

/-- `pkghash_add_pkg` from `get_hash_position` on: the return value and `*hashref`.  Without memory
for a node of the list the table is left as it is. -/
def pkghashPlace (alloc : PkghashAlloc) (hash : Pkghash) (pkg : Pkg) (sorted : Bool) :
    Option (Option Pkghash × Pkghash) := do
  let position ← getHashPosition pkg.nameHash hash
  if !alloc.node then
    return (none, hash)
  let hash := { hash with
    hashTable := Function.update hash.hashTable position (some pkg)
    list := if !sorted then hash.list ++ [pkg] else listMmerge pkgCmp hash.list [pkg]
    entries := hash.entries + 1 }
  return (some hash, hash)

/-- `pkghash_add_pkg`: the return value and `*hashref`. -/
def pkghashAddPkg (alloc : PkghashAlloc) (hashref : Pkghash) (pkg : Pkg) (sorted : Bool) :
    Option (Option Pkghash × Pkghash) :=
  if hashref.entries ≥ hashref.limit then do
    match ← rehash alloc hashref with
    | none => return (none, hashref)
    | some hash => pkghashPlace alloc hash pkg sorted
  else pkghashPlace alloc hashref pkg sorted

/-- `_alpm_pkghash_add`. -/
def pkghashAdd (alloc : PkghashAlloc) (hashref : Pkghash) (pkg : Pkg) :
    Option (Option Pkghash × Pkghash) :=
  pkghashAddPkg alloc hashref pkg false

/-- `_alpm_pkghash_add_sorted`. -/
def pkghashAddSorted (alloc : PkghashAlloc) (hashref : Pkghash) (pkg : Pkg) :
    Option (Option Pkghash × Pkghash) :=
  pkghashAddPkg alloc hashref pkg true

/-- `move_one_entry`: the hash afterwards and the return value.  It goes back from `stop` to the
hole at `start`, and moves the first entry it meets that would go there. -/
def moveOneEntry (hash : Pkghash) (start : ℕ) : ℕ → ℕ → Option (Pkghash × ℕ)
  | 0, _ => none
  | fuel + 1, stop =>
    if stop = start then some (hash, stop)
    else
      match hash.hashTable stop with
      | none => none
      | some info => do
        let newPosition ← getHashPosition info.nameHash hash
        if newPosition = start then
          return ({ hash with
            hashTable := Function.update (Function.update hash.hashTable start (some info))
              stop none }, stop)
        else moveOneEntry hash start fuel ((hash.buckets + stop - 1) % hash.buckets)

/-- The loop of `_alpm_pkghash_remove` that looks for the next empty position. -/
def findStop (hash : Pkghash) (position : ℕ) : ℕ → ℕ → Option ℕ
  | 0, _ => none
  | fuel + 1, stop =>
    if (hash.hashTable stop).isSome ∧ stop ≠ position then
      findStop hash position fuel (next hash.buckets stop)
    else some stop

/-- The loop of `_alpm_pkghash_remove` around `move_one_entry`. -/
def plugHoles (stop : ℕ) : ℕ → Pkghash → ℕ → Option Pkghash
  | 0, _, _ => none
  | fuel + 1, hash, position => do
    let (hash, prev) ← moveOneEntry hash position hash.buckets stop
    if prev ≠ position then plugHoles stop fuel hash prev
    else return hash

/-- The test with which packages are looked up. -/
def Pkg.isNamed (name : CString) (info : Pkg) : Bool :=
  info.nameHash = hashSdbm name ∧ strcmp info.name name = 0

/-- `_alpm_pkghash_remove`: the return value and `*data`.  The entry is taken out of the table and
the list, and then the cluster behind it is gone through from its end. -/
def pkghashRemove (hash : Pkghash) (pkg : Pkg) : Option (Pkghash × Option Pkg) := do
  match ← probe hash.buckets hash.hashTable (Pkg.isNamed pkg.name) hash.buckets
      (pkg.nameHash % hash.buckets) with
  | none => return (hash, none)
  | some position =>
    let info ← hash.hashTable position
    let hash := { hash with
      list := hash.list.erase info
      hashTable := Function.update hash.hashTable position none
      entries := hash.entries - 1 }
    let stop ← findStop hash position hash.buckets (next hash.buckets position)
    let stop := (hash.buckets + stop - 1) % hash.buckets
    let hash ← plugHoles stop hash.buckets hash position
    return (hash, some info)

/-- `_alpm_pkghash_find`. -/
def pkghashFind (hash : Pkghash) (name : CString) : Option (Option Pkg) := do
  match ← probe hash.buckets hash.hashTable (Pkg.isNamed name) hash.buckets
      (hashSdbm name % hash.buckets) with
  | none => return none
  | some position =>
    let info ← hash.hashTable position
    return some info

/-! ## Well-formed tables -/

@[simp] theorem Pkg.isNamed_iff {name : CString} {info : Pkg} :
    info.isNamed name ↔ info.name = name := by
  rw [Pkg.isNamed, decide_eq_true_iff, strcmp_eq_zero, and_iff_right_iff_imp]
  rintro rfl
  rfl

namespace Pkghash

/-- The position from which a package is looked for. -/
def home (buckets : ℕ) (pkg : Pkg) : ℕ := pkg.nameHash % buckets

/-- The sizes of the table fit together. -/
structure Sized (hash : Pkghash) : Prop where
  buckets_pos : 0 < hash.buckets
  limit_eq : hash.limit = hash.buckets * 68 / 100

/-- The table holds the packages of the list, each once, where lookups find it.  The names of the
list are distinct, the number of entries is that of the list, and a position is left empty, so that
every search ends. -/
structure WellFormed (hash : Pkghash) : Prop extends Sized hash where
  perm : (contents hash.buckets hash.hashTable).Perm hash.list
  nodup : (hash.list.map Pkg.name).Nodup
  entries_eq : hash.entries = hash.list.length
  entries_le : hash.entries ≤ hash.limit
  reachable : Reachable hash.buckets (home hash.buckets) hash.hashTable

variable {hash : Pkghash}

theorem Sized.limit_lt (h : hash.Sized) : hash.limit < hash.buckets := by
  have := h.buckets_pos
  have := h.limit_eq
  omega

theorem Sized.home_lt (h : hash.Sized) (pkg : Pkg) : home hash.buckets pkg < hash.buckets :=
  Nat.mod_lt _ h.buckets_pos

theorem WellFormed.entries_lt (h : hash.WellFormed) : hash.entries < hash.buckets :=
  h.entries_le.trans_lt h.limit_lt

theorem WellFormed.exists_free (h : hash.WellFormed) :
    ∃ f < hash.buckets, hash.hashTable f = none := by
  refine OpenAddressing.exists_free ?_
  rw [h.perm.length_eq, ← h.entries_eq]
  exact h.entries_lt

theorem WellFormed.mem_list (h : hash.WellFormed) {pkg : Pkg} :
    pkg ∈ hash.list ↔ ∃ e < hash.buckets, hash.hashTable e = some pkg := by
  rw [← h.perm.mem_iff, mem_contents]

/-- What the loops of `_alpm_pkghash_remove` and `_alpm_pkghash_find` over a name give. -/
theorem WellFormed.probe (h : hash.WellFormed) (name : CString) :
    ∃ r, probe hash.buckets hash.hashTable (Pkg.isNamed name) hash.buckets
        (hashSdbm name % hash.buckets) = some r ∧
      (∀ e, r = some e → e < hash.buckets ∧
        ∃ info ∈ hash.list, hash.hashTable e = some info ∧ info.name = name) ∧
      (r = none → name ∉ hash.list.map Pkg.name) := by
  obtain ⟨f, hf, hfree⟩ := h.exists_free
  have hhome : ∀ info, info.isNamed name →
      home hash.buckets info = hashSdbm name % hash.buckets := by
    intro info hinfo
    rw [Pkg.isNamed_iff] at hinfo
    rw [home, Pkg.nameHash, hinfo]
  obtain ⟨r, hr, hfound, hnone⟩ :=
    h.reachable.probe (Nat.mod_lt _ h.buckets_pos) hf hfree hhome
  refine ⟨r, hr, fun e he => ?_, fun hrnone hmem => ?_⟩
  · obtain ⟨hlt, info, hinfo, hname⟩ := hfound e he
    exact ⟨hlt, info, h.mem_list.mpr ⟨e, hlt, hinfo⟩, hinfo, Pkg.isNamed_iff.mp hname⟩
  · obtain ⟨info, hinfo, hname⟩ := List.mem_map.mp hmem
    obtain ⟨e, he, hslot⟩ := h.mem_list.mp hinfo
    exact hnone hrnone e he info hslot (Pkg.isNamed_iff.mpr hname)

/-- **`_alpm_pkghash_find`** returns the stored package of the name. -/
theorem WellFormed.find (h : hash.WellFormed) (name : CString) :
    ∃ r, pkghashFind hash name = some r ∧
      ∀ pkg, r = some pkg ↔ pkg ∈ hash.list ∧ pkg.name = name := by
  obtain ⟨r, hr, hfound, hnone⟩ := h.probe name
  unfold pkghashFind
  rw [hr]
  cases r with
  | none =>
    refine ⟨none, rfl, fun pkg => ⟨by simp, fun hpkg => ?_⟩⟩
    exact absurd (List.mem_map.mpr ⟨pkg, hpkg⟩) (hnone rfl)
  | some e =>
    obtain ⟨-, info, hinfo, hslot, hname⟩ := hfound e rfl
    refine ⟨some info, by simp [hslot], fun pkg => ⟨?_, fun hpkg => ?_⟩⟩
    · rintro ⟨rfl⟩
      exact ⟨hinfo, hname⟩
    · rw [List.inj_on_of_nodup_map h.nodup hinfo hpkg.1 (hname.trans hpkg.2.symm)]

/-! ## Creating and adding -/

theorem mem_primeList_le : ∀ prime ∈ primeList, prime ≤ 976369 := by decide +kernel

/-- A table is there if its two allocations succeed and there is a prime of its size. -/
theorem create_isSome_iff {alloc : PkghashAlloc} {size : ℕ} :
    (pkghashCreate alloc size).isSome ↔
      alloc.hash ∧ alloc.table ∧ size * 100 / 58 + 1 < 976369 := by
  unfold pkghashCreate
  dsimp only
  by_cases hsize : size * 100 / 58 + 1 < 976369
  · obtain ⟨prime, hprime⟩ : ∃ prime, primeList.find? (· > size * 100 / 58 + 1) = some prime :=
      Option.isSome_iff_exists.mp
        (List.find?_isSome.mpr ⟨976369, by decide +kernel, by simpa using hsize⟩)
    have hlt := List.find?_some hprime
    rw [decide_eq_true_eq] at hlt
    rw [hprime, Option.getD_some, if_neg (not_lt.mpr (le_of_lt hlt))]
    cases alloc.hash <;> cases alloc.table <;> simp [hsize]
  · have hnone : primeList.find? (· > size * 100 / 58 + 1) = none := by
      rw [List.find?_eq_none]
      intro prime hprime
      have hle := mem_primeList_le prime hprime
      simp only [decide_eq_true_eq]
      omega
    rw [hnone, Option.getD_none, if_pos (Nat.succ_pos _)]
    simp [hsize]

/-- There is room for one more package: its node is allocated, and when the table is full, so is a
larger one, for which there is a prime in the list. -/
def Roomy (hash : Pkghash) (alloc : PkghashAlloc) : Prop :=
  alloc.node ∧ (hash.limit ≤ hash.entries → alloc.hash ∧ alloc.table ∧
    rehashSize hash.buckets * 100 / 58 + 1 < 976369)

theorem create_spec {alloc : PkghashAlloc} {size : ℕ}
    (h : pkghashCreate alloc size = some hash) :
    hash.Sized ∧ size * 100 / 58 + 1 ≤ hash.buckets ∧ hash.list = [] ∧ hash.entries = 0 ∧
      hash.hashTable = fun _ => none := by
  unfold pkghashCreate at h
  dsimp only at h
  split_ifs at h with _ hlt
  obtain rfl := Option.some.inj h
  have hsize := not_lt.mp hlt
  exact ⟨⟨by dsimp only; omega, rfl⟩, hsize, rfl, rfl, rfl⟩

theorem create_wellFormed {alloc : PkghashAlloc} {size : ℕ}
    (h : pkghashCreate alloc size = some hash) : hash.WellFormed := by
  obtain ⟨hsized, -, hlist, hentries, htable⟩ := create_spec h
  exact
    { toSized := hsized
      perm := by rw [htable, hlist, contents_none]
      nodup := by
        rw [hlist]
        exact List.nodup_nil
      entries_eq := by rw [hlist, hentries, List.length_nil]
      entries_le := by
        rw [hentries]
        exact Nat.zero_le _
      reachable := by
        rw [htable]
        exact Reachable.empty }

/-- **`get_hash_position`** ends when a position is empty. -/
theorem Sized.getHashPosition (h : hash.Sized) (pkg : Pkg)
    (hfree : ∃ f < hash.buckets, hash.hashTable f = none) :
    ∃ g, getHashPosition pkg.nameHash hash = some g ∧
      IsFirstFree hash.buckets hash.hashTable (home hash.buckets pkg) g := by
  obtain ⟨f, hf, hfree⟩ := hfree
  exact firstFree_spec (h.home_lt pkg) hf hfree (steps_lt hf)

/-- The part of a new table that `rehash` has filled in. -/
structure Rebinned (oldhash newhash : Pkghash) (k : ℕ) (hash : Pkghash) : Prop where
  frame : hash = { newhash with hashTable := hash.hashTable }
  perm : (contents hash.buckets hash.hashTable).Perm
    ((List.range k).filterMap oldhash.hashTable)
  reachable : Reachable hash.buckets (home hash.buckets) hash.hashTable

theorem Rebinned.step {oldhash newhash : Pkghash} {k : ℕ} (hsized : newhash.Sized)
    (hroom : ((List.range k).filterMap oldhash.hashTable).length < newhash.buckets)
    (h : Rebinned oldhash newhash k hash) :
    ∃ hash', rebin oldhash hash k = some hash' ∧ Rebinned oldhash newhash (k + 1) hash' := by
  obtain ⟨table, rfl⟩ : ∃ table, hash = { newhash with hashTable := table } := ⟨_, h.frame⟩
  unfold rebin
  cases hslot : oldhash.hashTable k with
  | none =>
    refine ⟨_, rfl, rfl, ?_, h.reachable⟩
    rw [List.range_succ, List.filterMap_append, List.filterMap_cons_none hslot,
      List.filterMap_nil, List.append_nil]
    exact h.perm
  | some package =>
    have hfree := @OpenAddressing.exists_free _ newhash.buckets table (h.perm.length_eq ▸ hroom)
    obtain ⟨g, hg, hfirst⟩ := @Sized.getHashPosition { newhash with hashTable := table }
      ⟨hsized.buckets_pos, hsized.limit_eq⟩ package hfree
    refine ⟨_, by simp only [hg]; rfl, rfl, ?_, h.reachable.insert hfirst⟩
    rw [List.range_succ, List.filterMap_append, List.filterMap_cons_some hslot,
      List.filterMap_nil]
    exact (contents_update hfirst.lt hfirst.free).trans
      ((h.perm.cons package).trans (List.perm_append_singleton _ _).symm)

theorem WellFormed.rebinned (h : hash.WellFormed) {newhash : Pkghash} (hsized : newhash.Sized)
    (hempty : newhash.hashTable = fun _ => none) (hroom : hash.entries < newhash.buckets)
    {k : ℕ} (hk : k ≤ hash.buckets) :
    ∃ last, (List.range k).foldlM (rebin hash) newhash = some last ∧
      Rebinned hash newhash k last := by
  induction k with
  | zero =>
    refine ⟨newhash, rfl, rfl, ?_, ?_⟩
    · simp [hempty]
    · rw [hempty]
      exact Reachable.empty
  | succ k ih =>
    obtain ⟨mid, hmid, hbinned⟩ := ih (by omega)
    have hlength : ((List.range k).filterMap hash.hashTable).length ≤ hash.entries := by
      rw [h.entries_eq, ← h.perm.length_eq]
      exact ((List.range_sublist.mpr (by omega)).filterMap _).length_le
    obtain ⟨last, hlast, hbinned'⟩ := hbinned.step hsized (hlength.trans_lt hroom)
    refine ⟨last, ?_, hbinned'⟩
    rw [List.range_succ, List.foldlM_append, hmid]
    simp [hlast]

/-- **`rehash`** either fails or gives a larger table with the same packages.  The packages go into
the new table in the order of the old one, so collisions are resolved anew, and where each of them
ends is a matter of the general search for a free slot. -/
theorem WellFormed.rehash (h : hash.WellFormed) (alloc : PkghashAlloc) :
    ∃ r, rehash alloc hash = some r ∧
      (r.isSome ↔
        alloc.hash ∧ alloc.table ∧ rehashSize hash.buckets * 100 / 58 + 1 < 976369) ∧
      ∀ newhash, r = some newhash →
        newhash.WellFormed ∧ newhash.list = hash.list ∧ newhash.entries < newhash.limit := by
  unfold Alpm.rehash
  rw [← create_isSome_iff]
  cases hcreate : pkghashCreate alloc (rehashSize hash.buckets) with
  | none => exact ⟨none, rfl, Iff.rfl, by simp⟩
  | some new =>
    obtain ⟨hsized, hsize, -, -, htable⟩ := create_spec hcreate
    have hgrow : hash.buckets < rehashSize hash.buckets := by
      have := h.buckets_pos
      unfold rehashSize
      split_ifs <;> omega
    have hlimit : hash.limit < new.limit := by
      rw [h.limit_eq, hsized.limit_eq]
      omega
    have hroom : hash.entries < new.buckets :=
      h.entries_le.trans_lt (hlimit.trans hsized.limit_lt)
    obtain ⟨last, hlast, hframe, hperm, hreach⟩ :=
      @WellFormed.rebinned _ h { new with list := hash.list }
        ⟨hsized.buckets_pos, hsized.limit_eq⟩ htable hroom hash.buckets le_rfl
    obtain ⟨table, rfl⟩ : ∃ table, last = { new with hashTable := table, list := hash.list } :=
      ⟨_, hframe⟩
    refine ⟨_, by simp [hlast]; rfl, iff_of_true rfl rfl, ?_⟩
    rintro _ ⟨rfl⟩
    have hwf : WellFormed
        { new with hashTable := table, list := hash.list, entries := hash.entries } :=
      { buckets_pos := hsized.buckets_pos
        limit_eq := hsized.limit_eq
        perm := hperm.trans h.perm
        nodup := h.nodup
        entries_eq := h.entries_eq
        entries_le := h.entries_le.trans hlimit.le
        reachable := hreach }
    exact ⟨hwf, rfl, h.entries_le.trans_lt hlimit⟩

theorem WellFormed.place (h : hash.WellFormed) (hroom : hash.entries < hash.limit)
    (alloc : PkghashAlloc) {pkg : Pkg} (sorted : Bool)
    (hnew : pkg.name ∉ hash.list.map Pkg.name) :
    ∃ ret hash', pkghashPlace alloc hash pkg sorted = some (ret, hash') ∧ hash'.WellFormed ∧
      (ret = none ∧ hash'.list = hash.list ∧ ¬ alloc.node ∨
        ret = some hash' ∧ hash'.list.Perm (pkg :: hash.list) ∧ alloc.node) := by
  obtain ⟨g, hg, hfirst⟩ := h.toSized.getHashPosition pkg h.exists_free
  unfold pkghashPlace
  rw [hg]
  cases hnode : alloc.node with
  | false => exact ⟨none, hash, rfl, h, Or.inl ⟨rfl, rfl, Bool.false_ne_true⟩⟩
  | true =>
    have hlist : (if (!sorted) = true then hash.list ++ [pkg]
        else listMmerge pkgCmp hash.list [pkg]).Perm (pkg :: hash.list) := by
      split_ifs
      · exact List.perm_append_singleton _ _
      · exact (listMmerge_perm _ _ _).trans (List.perm_append_singleton _ _)
    refine ⟨_, _, rfl, ?_, Or.inr ⟨rfl, hlist, rfl⟩⟩
    exact
      { buckets_pos := h.buckets_pos
        limit_eq := h.limit_eq
        perm := (contents_update hfirst.lt hfirst.free).trans
          ((h.perm.cons pkg).trans hlist.symm)
        nodup := ((hlist.map Pkg.name).nodup_iff).mpr (List.nodup_cons.mpr ⟨hnew, h.nodup⟩)
        entries_eq := (congrArg (· + 1) h.entries_eq).trans hlist.length_eq.symm
        entries_le := hroom
        reachable := h.reachable.insert hfirst }

/-- **Adding** a package of a new name adds it if there is room, and keeps the packages if not.  A
table that is too full is enlarged before, and when that fails the package is not added. -/
theorem WellFormed.add (h : hash.WellFormed) (alloc : PkghashAlloc) {pkg : Pkg}
    (sorted : Bool) (hnew : pkg.name ∉ hash.list.map Pkg.name) :
    ∃ ret hash', pkghashAddPkg alloc hash pkg sorted = some (ret, hash') ∧ hash'.WellFormed ∧
      (ret = none ∧ hash'.list = hash.list ∧ ¬ hash.Roomy alloc ∨
        ret = some hash' ∧ hash'.list.Perm (pkg :: hash.list) ∧ hash.Roomy alloc) := by
  unfold pkghashAddPkg
  split_ifs with hfull
  · obtain ⟨r, hr, hgrows, hnewhash⟩ := h.rehash alloc
    have hroomy : hash.Roomy alloc ↔ alloc.node ∧ r.isSome := by
      rw [Roomy, forall_prop_of_true hfull, hgrows]
    rw [hr, hroomy]
    cases r with
    | none => exact ⟨none, hash, rfl, h, Or.inl ⟨rfl, rfl, fun h => Bool.false_ne_true h.2⟩⟩
    | some newhash =>
      obtain ⟨hwf, hlist, hroom⟩ := hnewhash newhash rfl
      have hplace := @WellFormed.place _ hwf hroom alloc pkg sorted (hlist ▸ hnew)
      rw [hlist] at hplace
      rwa [Option.isSome_some, and_iff_left rfl]
  · have hroomy : hash.Roomy alloc ↔ alloc.node := and_iff_left fun h => absurd h hfull
    rw [hroomy]
    exact h.place (not_le.mp hfull) alloc sorted hnew

/-! ## Removing -/

/-- A table from which an entry was taken out, before the hole is plugged. -/
structure Holed (hash : Pkghash) (position stop : ℕ) : Prop extends Sized hash where
  cluster : Cluster hash.buckets hash.hashTable position stop
  reachableBut : ReachableBut hash.buckets (home hash.buckets) position hash.hashTable

/-- **`move_one_entry`** stops at the hole and nothing wants to go there, or it moves an
entry and with it the hole. -/
theorem Holed.moveOneEntry {position stop e fuel : ℕ} (h : hash.Holed position stop)
    (he : e < hash.buckets)
    (hle : steps hash.buckets position e ≤ steps hash.buckets position stop)
    (hfuel : steps hash.buckets position e < fuel)
    (hdone : ∀ d < hash.buckets, steps hash.buckets position e < steps hash.buckets position d →
      steps hash.buckets position d ≤ steps hash.buckets position stop →
      ∀ x, hash.hashTable d = some x →
        ¬ steps hash.buckets (home hash.buckets x) position <
          steps hash.buckets (home hash.buckets x) d) :
    ∃ hash' position', moveOneEntry hash position fuel e = some (hash', position') ∧
      (position' = position ∧ hash' = hash ∧
          Reachable hash.buckets (home hash.buckets) hash.hashTable ∨
        position' ≠ position ∧ position' < hash.buckets ∧
          steps hash.buckets position position' ≤ steps hash.buckets position stop ∧
          hash' = { hash with hashTable := move hash.hashTable position position' } ∧
          (∃ x, hash.hashTable position' = some x) ∧ hash'.Holed position' stop) := by
  have hc := h.cluster
  induction fuel generalizing e with
  | zero => exact absurd hfuel (Nat.not_lt_zero _)
  | succ fuel ih =>
    rw [Alpm.moveOneEntry]
    split_ifs with heq
    · refine ⟨hash, e, rfl, Or.inl ⟨heq, rfl, ?_⟩⟩
      refine h.reachableBut.reachable hc (fun _ _ x _ => h.home_lt x) fun d hd hne hdle x hx => ?_
      refine hdone d hd ?_ hdle x hx
      rw [heq, steps_self]
      exact Nat.pos_of_ne_zero fun h0 => hne ((steps_eq_zero hc.lt_h).mp h0).symm
    · obtain ⟨info, hinfo⟩ := Option.ne_none_iff_exists'.mp (hc.taken e he heq hle)
      obtain ⟨g, hg, hiff⟩ := hc.firstFree_eq h.reachableBut hinfo he (h.home_lt info) hle
      have hpos : getHashPosition info.nameHash hash = some g := hg
      simp only [hinfo, hpos, Option.bind_eq_bind, Option.bind_some, Option.pure_def]
      split_ifs with hgp
      · have hway := hiff.mp hgp
        refine ⟨_, e, rfl, Or.inr ⟨heq, he, hle, by rw [move, hinfo], ⟨info, hinfo⟩, ?_⟩⟩
        have hcluster := hc.move he (Ne.symm heq) hle
        have hbut := h.reachableBut.move hinfo he hway
        rw [move, hinfo] at hcluster hbut
        exact ⟨⟨h.buckets_pos, h.limit_eq⟩, hcluster, hbut⟩
      · have hprev : (hash.buckets + e - 1) % hash.buckets = prev hash.buckets e := rfl
        have hsteps : steps hash.buckets position (prev hash.buckets e) + 1 =
            steps hash.buckets position e := by
          rw [← steps_next_right hc.lt_h (prev_lt he), next_prev he]
          rw [next_prev he]
          exact Ne.symm heq
        rw [hprev]
        refine ih (prev_lt he) (by omega) (by omega) fun d hd hlt hdle x hx => ?_
        rcases eq_or_ne d e with rfl | hde
        · obtain rfl := Option.some.inj (hinfo.symm.trans hx)
          exact hiff.not.mp hgp
        · have hne : steps hash.buckets position d ≠ steps hash.buckets position e :=
            fun heq' => hde (steps_inj hc.lt_h hd he heq')
          exact hdone d hd (by omega) hdle x hx

/-- **Plugging the holes** ends with a table in which every entry is reachable.  The walk goes over
the rest of the cluster; every entry that wants the hole is moved there and leaves the next hole,
which is nearer to the end of the cluster. -/
theorem Holed.plugHoles {position stop fuel : ℕ} (h : hash.Holed position stop)
    (hfuel : steps hash.buckets position stop < fuel) :
    ∃ hash', plugHoles stop fuel hash position = some hash' ∧
      hash' = { hash with hashTable := hash'.hashTable } ∧
      (contents hash.buckets hash'.hashTable).Perm (contents hash.buckets hash.hashTable) ∧
      Reachable hash.buckets (home hash.buckets) hash'.hashTable := by
  induction fuel generalizing hash position with
  | zero => exact absurd hfuel (Nat.not_lt_zero _)
  | succ fuel ih =>
    have hc := h.cluster
    rw [Alpm.plugHoles]
    obtain ⟨mid, position', hmove, hcase⟩ := h.moveOneEntry hc.lt_stop le_rfl
      (steps_lt hc.lt_stop) fun d _ hlt hle => absurd hlt (not_lt.mpr hle)
    simp only [hmove, Option.bind_eq_bind, Option.bind_some, Option.pure_def]
    rcases hcase with ⟨rfl, rfl, hreach⟩ | ⟨hne, hlt, hle, hmid, ⟨x, hx⟩, hholed⟩
    · exact ⟨mid, if_neg (not_not.mpr rfl), rfl, List.Perm.refl _, hreach⟩
    · rw [if_pos hne]
      have hbuckets : mid.buckets = hash.buckets := by rw [hmid]
      have hshorter := steps_add hc.lt_h hlt hc.lt_stop hle
      have hpos : steps hash.buckets position position' ≠ 0 := fun h0 =>
        hne ((steps_eq_zero hc.lt_h).mp h0).symm
      obtain ⟨last, hlast, hframe, hperm, hreach⟩ := ih hholed (by rw [hbuckets]; omega)
      rw [hbuckets] at hperm hreach
      refine ⟨last, hlast, ?_, hperm.trans ?_, hreach⟩
      · rw [hframe, hmid]
      · rw [hmid]
        exact contents_move hc.lt_h hlt (Ne.symm hne) hc.hole hx

theorem findStop_eq_firstFree {position : ℕ} (hhole : hash.hashTable position = none)
    (fuel stop : ℕ) :
    findStop hash position fuel stop = firstFree hash.buckets hash.hashTable fuel stop := by
  induction fuel generalizing stop with
  | zero => rfl
  | succ fuel ih =>
    rw [findStop, firstFree, ih]
    refine if_congr (and_iff_left_of_imp fun htaken => ?_) rfl rfl
    rintro rfl
    simp [hhole] at htaken

/-- **The cluster behind a hole** ends before the next empty position. -/
theorem exists_cluster {position f : ℕ} (hposition : position < hash.buckets)
    (hhole : hash.hashTable position = none) (hf : f < hash.buckets)
    (hfree : hash.hashTable f = none) (hne : f ≠ position) :
    ∃ g < hash.buckets,
      findStop hash position hash.buckets (next hash.buckets position) = some g ∧
      Cluster hash.buckets hash.hashTable position (prev hash.buckets g) := by
  have hnext := next_lt hposition
  obtain ⟨g, hg, hfirst⟩ := firstFree_spec hnext hf hfree (steps_lt hf)
  have hgne : g ≠ position := by
    rintro rfl
    have h₁ := steps_next_left hposition hf hne.symm
    have hlt : steps hash.buckets (next hash.buckets g) f <
        steps hash.buckets (next hash.buckets g) g := by
      have h₂ := steps_lt (a := g) hf
      have hg := next_eq hposition
      unfold steps at *
      split_ifs at * <;> omega
    exact hfirst.taken f hf hlt hfree
  refine ⟨g, hfirst.lt, by rw [findStop_eq_firstFree hhole, hg], hposition, prev_lt hfirst.lt,
    hhole,
    ?_, ?_, fun s hs hsne hle => ?_⟩
  · rw [next_prev hfirst.lt]
    exact hfirst.free
  · rwa [next_prev hfirst.lt]
  · have hend : steps hash.buckets position g =
        steps hash.buckets position (prev hash.buckets g) + 1 := by
      rw [← steps_next_right hposition (prev_lt hfirst.lt), next_prev hfirst.lt]
      rw [next_prev hfirst.lt]
      exact hgne.symm
    have h₁ := steps_next_left hposition hs hsne.symm
    have h₂ := steps_next_left hposition hfirst.lt hgne.symm
    exact hfirst.taken s hs (by omega)

/-- **Removing** takes out the package of the name, if there is one, from the list and from the
table, and plugs the hole.  The names of all other packages are found as before. -/
theorem WellFormed.remove (h : hash.WellFormed) (pkg : Pkg) :
    ∃ hash' data, pkghashRemove hash pkg = some (hash', data) ∧ hash'.WellFormed ∧
      hash'.buckets = hash.buckets ∧
      (data = none ∧ hash' = hash ∧ pkg.name ∉ hash.list.map Pkg.name ∨
        ∃ info, data = some info ∧ info.name = pkg.name ∧
          hash.list.Perm (info :: hash'.list)) := by
  obtain ⟨r, hr, hfound, hnone⟩ := h.probe pkg.name
  unfold pkghashRemove
  rw [show pkg.nameHash = hashSdbm pkg.name from rfl, hr]
  cases r with
  | none => exact ⟨hash, none, rfl, h, rfl, Or.inl ⟨rfl, rfl, hnone rfl⟩⟩
  | some position =>
    obtain ⟨hposition, info, hinfo, hslot, hname⟩ := hfound position rfl
    obtain ⟨f, hf, hfree⟩ := h.exists_free
    have hfne : f ≠ position := by
      rintro rfl
      simp [hslot] at hfree
    let holed : Pkghash := { hash with
      list := hash.list.erase info
      hashTable := Function.update hash.hashTable position none
      entries := hash.entries - 1 }
    have hperm : hash.list.Perm (info :: hash.list.erase info) := List.perm_cons_erase hinfo
    have htable (s : ℕ) (hs : s ≠ position) : holed.hashTable s = hash.hashTable s :=
      Function.update_of_ne hs _ _
    have hhole : holed.hashTable position = none := Function.update_self _ _ _
    obtain ⟨g, hglt, hg, hcluster⟩ := @exists_cluster holed _ _ hposition hhole hf
      ((htable f hfne).trans hfree) hfne
    have hholed : holed.Holed position (prev hash.buckets g) :=
      ⟨⟨h.buckets_pos, h.limit_eq⟩, hcluster, h.reachable.remove⟩
    obtain ⟨last, hlast, hframe, hcontents, hreach⟩ := hholed.plugHoles (steps_lt (prev_lt hglt))
    have hperm : hash.list.Perm (info :: hash.list.erase info) := List.perm_cons_erase hinfo
    have hrest : (contents hash.buckets last.hashTable).Perm (hash.list.erase info) :=
      hcontents.trans ((contents_remove hposition hslot).symm.trans (h.perm.trans hperm)).cons_inv
    have hentries := hperm.length_eq
    rw [List.length_cons] at hentries
    refine ⟨last, some info, ?_, ?_, by rw [hframe], Or.inr ⟨info, rfl, hname, ?_⟩⟩
    · simp only [Option.bind_eq_bind, Option.bind_some, hslot, Option.pure_def]
      show (findStop holed position hash.buckets (next hash.buckets position)).bind _ = _
      rw [show findStop holed position hash.buckets _ = some g from hg, Option.bind_some]
      show (Alpm.plugHoles (prev hash.buckets g) hash.buckets holed position).bind _ = _
      rw [show Alpm.plugHoles _ hash.buckets holed position = some last from hlast,
        Option.bind_some]
    · rw [hframe]
      exact
        { buckets_pos := h.buckets_pos
          limit_eq := h.limit_eq
          perm := hrest
          nodup := (List.nodup_cons.mp (((hperm.map _).nodup_iff).mp h.nodup)).2
          entries_eq := by
            have := h.entries_eq
            show hash.entries - 1 = (hash.list.erase info).length
            omega
          entries_le := (Nat.sub_le _ _).trans h.entries_le
          reachable := hreach }
    · rw [hframe]
      exact hperm

/-! ## The finite map -/

/-- A run of calls on one hash, with the package of each name that was added last and not
removed since.  Packages are added only while no package of their name is stored. -/
inductive Run : Pkghash → (CString → Option Pkg) → Prop
  | create {alloc : PkghashAlloc} {size : ℕ} {hash : Pkghash}
      (hcreate : pkghashCreate alloc size = some hash) : Run hash fun _ => none
  | add {hash hash' : Pkghash} {stored : CString → Option Pkg} {alloc : PkghashAlloc} {pkg : Pkg}
      {ret : Option Pkghash} (sorted : Bool) (hrun : Run hash stored)
      (hnew : stored pkg.name = none)
      (hadd : pkghashAddPkg alloc hash pkg sorted = some (ret, hash')) :
      Run hash' (if ret.isSome then Function.update stored pkg.name (some pkg) else stored)
  | remove {hash hash' : Pkghash} {stored : CString → Option Pkg} {pkg : Pkg} {data : Option Pkg}
      (hrun : Run hash stored) (hremove : pkghashRemove hash pkg = some (hash', data)) :
      Run hash' (Function.update stored pkg.name none)

/-- The list of the hash holds the values of the map. -/
structure Stores (hash : Pkghash) (stored : CString → Option Pkg) : Prop extends
    WellFormed hash where
  mem_iff : ∀ pkg, pkg ∈ hash.list ↔ stored pkg.name = some pkg
  name_eq : ∀ name pkg, stored name = some pkg → pkg.name = name

variable {stored : CString → Option Pkg}

theorem Stores.mem_names (h : hash.Stores stored) {name : CString} :
    name ∈ hash.list.map Pkg.name ↔ stored name ≠ none := by
  rw [List.mem_map, Option.ne_none_iff_exists']
  constructor
  · rintro ⟨pkg, hpkg, rfl⟩
    exact ⟨pkg, (h.mem_iff pkg).mp hpkg⟩
  · rintro ⟨pkg, hpkg⟩
    obtain rfl := h.name_eq name pkg hpkg
    exact ⟨pkg, (h.mem_iff pkg).mpr hpkg, rfl⟩

theorem Stores.find (h : hash.Stores stored) (name : CString) :
    pkghashFind hash name = some (stored name) := by
  obtain ⟨r, hr, hiff⟩ := h.toWellFormed.find name
  rw [hr, Option.some.injEq]
  refine Option.ext fun pkg => ?_
  rw [hiff, h.mem_iff]
  constructor
  · rintro ⟨hpkg, rfl⟩
    exact hpkg
  · intro hpkg
    obtain rfl := h.name_eq name pkg hpkg
    exact ⟨hpkg, rfl⟩

theorem Stores.add (h : hash.Stores stored) (alloc : PkghashAlloc) {pkg : Pkg} (sorted : Bool)
    (hnew : stored pkg.name = none) :
    ∃ ret hash', pkghashAddPkg alloc hash pkg sorted = some (ret, hash') ∧
      (ret = none ∧ hash'.Stores stored ∧ ¬ hash.Roomy alloc ∨
        ret = some hash' ∧ hash'.Stores (Function.update stored pkg.name (some pkg)) ∧
          hash.Roomy alloc) := by
  have hnames : pkg.name ∉ hash.list.map Pkg.name := fun hmem => h.mem_names.mp hmem hnew
  obtain ⟨ret, hash', hadd, hwf, ⟨hret, hlist, hfull⟩ | ⟨hret, hperm, hroomy⟩⟩ :=
    h.toWellFormed.add alloc sorted hnames
  · refine ⟨ret, hash', hadd, Or.inl ⟨hret, ⟨hwf, ?_, h.name_eq⟩, hfull⟩⟩
    rw [hlist]
    exact h.mem_iff
  · refine ⟨ret, hash', hadd,
      Or.inr ⟨hret, ⟨hwf, fun p => ?_, fun name p hp => ?_⟩, hroomy⟩⟩
    · rw [hperm.mem_iff, List.mem_cons, h.mem_iff]
      rcases eq_or_ne p.name pkg.name with heq | hne
      · rw [heq, Function.update_self, hnew, Option.some.injEq]
        exact ⟨fun hp => hp.elim Eq.symm (by simp), fun hp => Or.inl hp.symm⟩
      · rw [Function.update_of_ne hne]
        exact ⟨fun hp => hp.resolve_left fun heq => hne (congrArg Pkg.name heq), Or.inr⟩
    · rcases eq_or_ne name pkg.name with rfl | hne
      · rw [Function.update_self, Option.some.injEq] at hp
        rw [hp]
      · rw [Function.update_of_ne hne] at hp
        exact h.name_eq name p hp

theorem Stores.remove (h : hash.Stores stored) (pkg : Pkg) :
    ∃ hash', pkghashRemove hash pkg = some (hash', stored pkg.name) ∧
      hash'.buckets = hash.buckets ∧
      hash'.Stores (Function.update stored pkg.name none) := by
  obtain ⟨hash', data, hremove, hwf, hbuckets,
    ⟨hdata, rfl, hnames⟩ | ⟨info, hdata, hname, hperm⟩⟩ := h.toWellFormed.remove pkg
  · have hnone : stored pkg.name = none := by
      by_contra hne
      exact hnames (h.mem_names.mpr hne)
    refine ⟨hash', by rw [hremove, hdata, hnone], rfl, ?_⟩
    rwa [← hnone, Function.update_eq_self]
  · have hinfo : stored pkg.name = some info := by
      rw [← hname]
      exact (h.mem_iff info).mp (hperm.mem_iff.mpr (List.mem_cons_self ..))
    refine ⟨hash', by rw [hremove, hdata, hinfo], hbuckets, hwf, fun p => ?_,
      fun name p hp => ?_⟩
    · have hmem := h.mem_iff p
      rw [hperm.mem_iff, List.mem_cons] at hmem
      have hnodup := ((hperm.map Pkg.name).nodup_iff).mp h.nodup
      rw [List.map_cons, List.nodup_cons] at hnodup
      rcases eq_or_ne p.name pkg.name with heq | hne
      · rw [heq, Function.update_self]
        refine iff_of_false (fun hp => hnodup.1 ?_) (by simp)
        rw [hname, ← heq]
        exact List.mem_map_of_mem hp
      · rw [Function.update_of_ne hne, ← hmem]
        refine ⟨Or.inr, fun hp => hp.resolve_left ?_⟩
        rintro rfl
        exact hne hname
    · rcases eq_or_ne name pkg.name with rfl | hne
      · simp at hp
      · rw [Function.update_of_ne hne] at hp
        exact h.name_eq name p hp

/-- **Every run** leads to a table that stores what was added and not removed.  The map of a run is
made by its events, and each call does to the table what it does to the map. -/
theorem Run.stores (hrun : Run hash stored) : hash.Stores stored := by
  induction hrun with
  | create hcreate =>
    refine ⟨create_wellFormed hcreate, fun pkg => ?_, by simp⟩
    simp [(create_spec hcreate).2.2.1]
  | @add hash hash' stored alloc pkg ret sorted _ hnew hadd ih =>
    obtain ⟨ret', hash'', hadd', hcase⟩ := ih.add alloc sorted hnew
    obtain ⟨rfl, rfl⟩ := Prod.mk.inj (Option.some.inj (hadd.symm.trans hadd'))
    rcases hcase with ⟨rfl, hstores, -⟩ | ⟨rfl, hstores, -⟩
    · exact hstores
    · exact hstores
  | @remove hash hash' stored pkg data _ hremove ih =>
    obtain ⟨hash'', hremove', -, hstores⟩ := ih.remove pkg
    obtain ⟨rfl, rfl⟩ := Prod.mk.inj (Option.some.inj (hremove.symm.trans hremove'))
    exact hstores

/-- **The package hash refines a finite map.**  After every run of calls, lookups give the map's
values, the list has them once each, and the next call ends: an add returns the hash just when there
is room for the package, and the map is as it was when there is none. -/
theorem Run.refines (hrun : Run hash stored) :
    (∀ name, pkghashFind hash name = some (stored name)) ∧
    (∀ name pkg, stored name = some pkg → pkg.name = name) ∧
    hash.list.Nodup ∧ (∀ pkg, pkg ∈ hash.list ↔ stored pkg.name = some pkg) ∧
    hash.entries = hash.list.length ∧ hash.entries < hash.buckets ∧
    (∀ alloc pkg sorted, stored pkg.name = none →
      ∃ ret hash', pkghashAddPkg alloc hash pkg sorted = some (ret, hash') ∧
        (ret = some hash' ↔ hash.Roomy alloc) ∧
        (hash.entries ≥ hash.limit → rehash alloc hash = some none →
          ret = none ∧ hash' = hash) ∧
        (ret = none → ∀ name, pkghashFind hash' name = pkghashFind hash name)) ∧
    (∀ pkg, ∃ hash', pkghashRemove hash pkg = some (hash', stored pkg.name)) := by
  have h := hrun.stores
  refine ⟨h.find, h.name_eq, h.nodup.of_map, h.mem_iff, h.entries_eq,
    h.toWellFormed.entries_lt, fun alloc pkg sorted hnew => ?_, fun pkg => ?_⟩
  · obtain ⟨ret, hash', hadd, hcase⟩ := h.add alloc sorted hnew
    refine ⟨ret, hash', hadd, ?_, fun hfull hfail => ?_, fun hret name => ?_⟩
    · rcases hcase with ⟨rfl, -, hfull⟩ | ⟨rfl, -, hroomy⟩
      · exact iff_of_false (Option.some_ne_none _).symm hfull
      · exact iff_of_true rfl hroomy
    · rw [pkghashAddPkg, if_pos hfull, hfail] at hadd
      obtain ⟨rfl, rfl⟩ := Prod.mk.inj (Option.some.inj hadd)
      exact ⟨rfl, rfl⟩
    · rcases hcase with ⟨-, hstores, -⟩ | ⟨hsome, -⟩
      · rw [hstores.find, h.find]
      · rw [hret] at hsome
        cases hsome
  · obtain ⟨hash', hremove, -⟩ := h.remove pkg
    exact ⟨hash', hremove⟩

/-- A package with a short name. -/
def letterPkg (name : String) : Pkg := { name := str name, version := str "1" }

/-- In a table of eleven buckets `l` is put behind `a`, and is moved back when `a` is removed.  The
eighth package that is stored makes the table grow. -/
theorem Run.refines_letters :
    ∃ crowded moved grown stored₁ stored₂ stored₃, Run crowded stored₁ ∧ crowded.buckets = 11 ∧
      crowded.hashTable 9 = some (letterPkg "a") ∧ crowded.hashTable 10 = some (letterPkg "l") ∧
      Run moved stored₂ ∧
      pkghashRemove crowded (letterPkg "a") = some (moved, some (letterPkg "a")) ∧
      moved.hashTable 9 = some (letterPkg "l") ∧ moved.hashTable 10 = none ∧
      Run grown stored₃ ∧ grown.buckets = 41 ∧ grown.entries = 8 ∧
      pkghashFind grown (str "l") = some (some (letterPkg "l")) ∧
      pkghashFind grown (str "a") = some none ∧
      ∃ hash', pkghashRemove grown (letterPkg "h") = some (hash', some (letterPkg "h")) := by
  have hcreate := @Run.create ⟨true, true, true⟩ 0 _ rfl
  have ha := hcreate.add true rfl
    (show pkghashAddPkg ⟨true, true, true⟩ _ (letterPkg "a") true = some (_, _) from rfl)
  have hl := ha.add true rfl
    (show pkghashAddPkg ⟨true, true, true⟩ _ (letterPkg "l") true = some (_, _) from rfl)
  have hmoved := hl.remove (show pkghashRemove _ (letterPkg "a") = some (_, _) from rfl)
  have hb := hmoved.add true rfl
    (show pkghashAddPkg ⟨true, true, true⟩ _ (letterPkg "b") true = some (_, _) from rfl)
  have hc := hb.add false rfl
    (show pkghashAddPkg ⟨true, true, true⟩ _ (letterPkg "c") false = some (_, _) from rfl)
  have hd := hc.add false rfl
    (show pkghashAddPkg ⟨true, true, true⟩ _ (letterPkg "d") false = some (_, _) from rfl)
  have he := hd.add false rfl
    (show pkghashAddPkg ⟨true, true, true⟩ _ (letterPkg "e") false = some (_, _) from rfl)
  have hf := he.add false rfl
    (show pkghashAddPkg ⟨true, true, true⟩ _ (letterPkg "f") false = some (_, _) from rfl)
  have hg := hf.add false rfl
    (show pkghashAddPkg ⟨true, true, true⟩ _ (letterPkg "g") false = some (_, _) from rfl)
  have hgrown := hg.add false rfl
    (show pkghashAddPkg ⟨true, true, true⟩ _ (letterPkg "h") false = some (_, _) from rfl)
  obtain ⟨hfind, -, -, -, -, -, -, hremove⟩ := hgrown.refines
  exact ⟨_, _, _, _, _, _, hl, rfl, rfl, rfl, hmoved, rfl, rfl, rfl, hgrown, rfl, rfl,
    hfind (str "l"), hfind (str "a"), hremove (letterPkg "h")⟩

end Pkghash

end Alpm
