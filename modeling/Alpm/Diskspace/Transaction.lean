import Alpm.Diskspace.Blocks

/-!
# The disk space of a transaction

`_alpm_check_diskspace`: every regular file that a transaction removes or installs is charged to its
mount point, and after every package to install the blocks that are needed are compared with the
most that were needed before.  The check succeeds if and only if the transaction fits after every
package (`checkDiskspace_iff`).

## 1.  Charges

The loops are made of charges, each of a file to the mount point of its path, with the blocks that
an installed file takes or a removed one gives back.  What a package contributes is a list of
charges: those of the package that it replaces, and then its own.

## 2.  Mount points

File systems are asked for their sizes only when a file is charged to them, and one that cannot be
asked is charged nothing.  `Carries` is what a mount point carries: the sum of the charges to it,
the greatest sum after a package, and whether it was used, for installing or at all.  It does not
depend on when the file system was asked, so the loops are folds of charges with one invariant
(`AllCarry`).

## 3.  The check

The last loop looks for a mount point that is too full or read only.  In terms of the charges a file
system has the space if its need after every package, with a cushion, does not exceed the blocks
that are available (`SpaceFor`).  The sums are on 64 bit numbers; `NoOverflow` says that they stay
inside.
-/

namespace Alpm.Diskspace

/-- What is read of a package. -/
structure Pkg where
  name : CString
  files : List File

/-- What is read of a transaction. -/
structure Trans where
  add : List Pkg
  remove : List Pkg

/-- The comparison of a mount point after a package. -/
def raiseMax (data : Mountpoint) : Mountpoint :=
  if data.blocksNeeded > data.maxBlocksNeeded then
    { data with maxBlocksNeeded := data.blocksNeeded }
  else data

/-- The body of the loop over `trans->remove`. -/
def removeTarget (handle : Handle) (statvfs : CString → Option Fsp)
    (llstat : CString → Option File) (mountPoints : List Mountpoint) (localPkg : Pkg) :
    List Mountpoint :=
  calculateRemovedSize handle statvfs llstat mountPoints (localPkg.files.map File.name)

/-- The body of the loop over `trans->add`. -/
def addTarget (handle : Handle) (statvfs : CString → Option Fsp) (llstat : CString → Option File)
    (dbLocal : List Pkg) (mountPoints : List Mountpoint) (pkg : Pkg) : List Mountpoint :=
  -- is this package already installed?
  let mountPoints := match dbLocal.find? fun localPkg => localPkg.name = pkg.name with
    | some localPkg => removeTarget handle statvfs llstat mountPoints localPkg
    | none => mountPoints
  (calculateInstalledSize handle statvfs mountPoints pkg.files).map raiseMax

/-- The body of the last loop: whether a mount point is an error. -/
def mountPointError (data : Mountpoint) : Bool :=
  if (data.usedRemove || data.usedInstall) && data.readOnly then true
  else data.usedInstall && checkMountpoint data

/-- `_alpm_check_diskspace`, of the table of mounted file systems if it can be read.  The packages
to remove are charged first, and then the packages to install one after the other, each with a
comparison. -/
def checkDiskspace (handle : Handle) (mounted : List Mountpoint) (statvfs : CString → Option Fsp)
    (llstat : CString → Option File) (dbLocal : List Pkg) (trans : Trans) : Int :=
  match mountPointList mounted with
  | [] => -1
  | mountPoints =>
    match matchMountPoint mountPoints handle.root with
    | none => -1
    | some _ =>
      let mountPoints := trans.remove.foldl (removeTarget handle statvfs llstat) mountPoints
      let mountPoints := trans.add.foldl (addTarget handle statvfs llstat dbLocal) mountPoints
      if mountPoints.any mountPointError then -1 else 0

/-! ## What is charged -/

/-- A regular file that is charged to the mount point of its path. -/
structure Charge where
  path : CString
  size : ℤ
  install : Bool

namespace Charge

/-- What a charge does to its mount point. -/
def apply (charge : Charge) (mp : Mountpoint) : Mountpoint :=
  if charge.install then
    { mp with
      blocksNeeded := mp.blocksNeeded + blkcnt (fileBlocks charge.size mp.fsp.bsize)
      usedInstall := true }
  else
    { mp with
      blocksNeeded := mp.blocksNeeded - blkcnt (fileBlocks charge.size mp.fsp.bsize)
      usedRemove := true }

/-- The blocks that an installed file takes and a removed one gives back. -/
def blocks (bsize : ℕ) (charge : Charge) : ℤ :=
  if charge.install then (charge.size.toNat ⌈/⌉ bsize : ℕ) else -(charge.size.toNat ⌈/⌉ bsize : ℕ)

/-- The index of the mount point of a charge. -/
def index (mountPoints : List Mountpoint) (charge : Charge) : ℕ :=
  mountPoints.findIdx (mountPointMatches charge.path)

end Charge

/-- The charges of the files of an installed package. -/
def removedCharges (handle : Handle) (llstat : CString → Option File) (localPkg : Pkg) :
    List Charge :=
  (localPkg.files.map File.name).filterMap fun filename =>
    let path := (handle.root ++ filename).take (pathMax - 1)
    match llstat path with
    | none => none
    | some st => if st.isDir || st.isLnk then none else some ⟨path, st.size, false⟩

/-- The charges of the files of a package to install. -/
def installedCharges (handle : Handle) (pkg : Pkg) : List Charge :=
  pkg.files.filterMap fun file =>
    if file.isDir || file.isLnk then none
    else
      let filename := if deref file.name = '.' then handle.dbpath else file.name
      some ⟨(handle.root ++ filename).take (pathMax - 1), file.size, true⟩

/-- The charges of a package to install: the package that it replaces is removed first. -/
def targetCharges (handle : Handle) (llstat : CString → Option File) (dbLocal : List Pkg)
    (pkg : Pkg) : List Charge :=
  (match dbLocal.find? fun localPkg => localPkg.name = pkg.name with
    | some localPkg => removedCharges handle llstat localPkg
    | none => []) ++ installedCharges handle pkg

/-- The charges of the removed packages and of the first `k` packages to install. -/
def charges (handle : Handle) (llstat : CString → Option File) (dbLocal : List Pkg)
    (trans : Trans) (k : ℕ) : List Charge :=
  trans.remove.flatMap (removedCharges handle llstat) ++
    (trans.add.take k).flatMap (targetCharges handle llstat dbLocal)

/-- The charges to the mount point at an index. -/
def chargesAt (mountPoints : List Mountpoint) (i : ℕ) (cs : List Charge) : List Charge :=
  cs.filter fun charge => charge.index mountPoints = i

/-- The blocks that charges need in sum. -/
def need (bsize : ℕ) (cs : List Charge) : ℤ := (cs.map (Charge.blocks bsize)).sum

/-- The cushion of a file system: about 5% of it, but not more than about 20 MiB. -/
def cushion (fsp : Fsp) : ℕ := min (fsp.blocks / 20 + 1) (20 * 1024 * 1024 / fsp.bsize + 1)

/-- The file system of a mount point, if it can be asked. -/
def fileSystem (statvfs : CString → Option Fsp) (mp : Mountpoint) : Option Fsp :=
  match mp.fsinfoLoaded with
  | .fail => none
  | .unloaded => statvfs mp.mountDir
  | .loaded => some { mp.fsp with readOnly := mp.readOnly }

/-- Nothing has been charged to a mount point yet. -/
structure Mountpoint.Fresh (mp : Mountpoint) : Prop where
  blocksNeeded : mp.blocksNeeded = 0
  maxBlocksNeeded : mp.maxBlocksNeeded = 0
  usedRemove : mp.usedRemove = false
  usedInstall : mp.usedInstall = false

/-! ## The loops as charges -/

variable {handle : Handle} {statvfs : CString → Option Fsp} {llstat : CString → Option File}
  {dbLocal : List Pkg}

/-- One charge to the mount point of its path, whose file system is asked when it has to be. -/
def chargeStep (statvfs : CString → Option Fsp) (mountPoints : List Mountpoint) (charge : Charge) :
    List Mountpoint :=
  chargeMountPoint charge.path (chargeLoaded statvfs charge.apply) mountPoints

theorem removeTarget_eq (mountPoints : List Mountpoint) (localPkg : Pkg) :
    removeTarget handle statvfs llstat mountPoints localPkg =
      (removedCharges handle llstat localPkg).foldl (chargeStep statvfs) mountPoints := by
  rw [removeTarget, calculateRemovedSize, removedCharges, List.foldl_filterMap]
  refine List.foldl_ext _ _ _ fun mps filename _ => ?_
  rw [removedFile]
  cases hst : llstat ((handle.root ++ filename).take (pathMax - 1)) with
  | none => simp only [hst]
  | some st =>
    cases hkind : st.isDir || st.isLnk with
    | true => simp only [hst, hkind, if_true]
    | false => simp only [hst, hkind, Bool.false_eq_true, if_false, chargeStep]; rfl

theorem calculateInstalledSize_eq (mountPoints : List Mountpoint) (pkg : Pkg) :
    calculateInstalledSize handle statvfs mountPoints pkg.files =
      (installedCharges handle pkg).foldl (chargeStep statvfs) mountPoints := by
  rw [calculateInstalledSize, installedCharges, List.foldl_filterMap]
  refine List.foldl_ext _ _ _ fun mps file _ => ?_
  rw [installedFile]
  cases hkind : file.isDir || file.isLnk with
  | true => simp only [if_true]
  | false => simp only [Bool.false_eq_true, if_false, chargeStep]; rfl

theorem addTarget_eq (mountPoints : List Mountpoint) (pkg : Pkg) :
    addTarget handle statvfs llstat dbLocal mountPoints pkg =
      ((targetCharges handle llstat dbLocal pkg).foldl (chargeStep statvfs) mountPoints).map
        raiseMax := by
  rw [addTarget, targetCharges, List.foldl_append]
  cases dbLocal.find? fun localPkg => localPkg.name = pkg.name with
  | none => simp only [calculateInstalledSize_eq, List.foldl_nil]
  | some localPkg => simp only [calculateInstalledSize_eq, removeTarget_eq]

/-! ## One mount point -/

theorem chargeMountPoint_eq_modify (path : CString) (charge : Mountpoint → Mountpoint)
    (mountPoints : List Mountpoint) :
    chargeMountPoint path charge mountPoints =
      mountPoints.modify (mountPoints.findIdx (mountPointMatches path)) charge := by
  induction mountPoints with
  | nil => rfl
  | cons mp mountPoints ih =>
    rw [chargeMountPoint, List.findIdx_cons]
    cases hmatch : mountPointMatches path mp with
    | true => rfl
    | false => rw [if_neg Bool.false_ne_true, ih, cond_false, List.modify_succ_cons]

/-- The index of a mount point depends on the directories only. -/
theorem Charge.index_congr {mountPoints mountPoints' : List Mountpoint} (charge : Charge)
    (hdirs : mountPoints.map Mountpoint.mountDir = mountPoints'.map Mountpoint.mountDir) :
    charge.index mountPoints = charge.index mountPoints' := by
  classical
  have hmatch : mountPointMatches charge.path =
      (fun dir => decide (IsComponentPrefix dir charge.path)) ∘ Mountpoint.mountDir := by
    ext mp
    rw [Function.comp_apply, Bool.eq_iff_iff, mountPointMatches_iff, decide_eq_true_iff]
  rw [Charge.index, Charge.index, hmatch, ← List.findIdx_map, ← List.findIdx_map, hdirs]

theorem blkcnt_fileBlocks {size : ℤ} {bsize : ℕ} (hbsize : 0 < bsize) (hsize : 0 ≤ size)
    (hlt : size + bsize < 2 ^ 63) :
    blkcnt (fileBlocks size bsize) = (size.toNat ⌈/⌉ bsize : ℕ) := by
  obtain ⟨n, rfl⟩ := Int.eq_ofNat_of_zero_le hsize
  have hceil : fileBlocks n bsize = n ⌈/⌉ bsize := by
    rw [fileBlocks, unsignedLong_of_lt (by omega) (by omega), Nat.ceilDiv_eq_add_pred_div]
    congr 1
    omega
  have hle : n ⌈/⌉ bsize ≤ n := by
    rw [ceilDiv_le_iff_le_smul hbsize, smul_eq_mul]
    exact Nat.le_mul_of_pos_left n hbsize
  rw [hceil, Int.toNat_natCast, blkcnt_of_lt (by omega) (by omega)]

/-- The sizes that are charged to a file system overflow nothing. -/
structure Charge.Fits (charge : Charge) (bsize : ℕ) : Prop where
  nonneg : 0 ≤ charge.size
  lt : charge.size + bsize < 2 ^ 63

/-- What a mount point carries: the charges to it since it was `start`, and the charges that it
carried when it was compared with its greatest need. -/
structure Carries (statvfs : CString → Option Fsp) (start mp : Mountpoint) (cs : List Charge)
    (tops : List (List Charge)) : Prop where
  sameDir : mp.mountDir = start.mountDir
  sameSystem : fileSystem statvfs mp = fileSystem statvfs start
  loaded : (mp.usedRemove || mp.usedInstall) → mp.fsinfoLoaded = .loaded
  account : ∀ fsp, fileSystem statvfs start = some fsp →
    mp.blocksNeeded = need fsp.bsize cs ∧
      mp.usedRemove = cs.any (fun charge => !charge.install) ∧
      mp.usedInstall = cs.any Charge.install ∧
      ∀ bound, mp.maxBlocksNeeded ≤ bound ↔ 0 ≤ bound ∧ ∀ top ∈ tops, need fsp.bsize top ≤ bound

variable {start mp : Mountpoint} {cs : List Charge} {tops : List (List Charge)}

theorem Mountpoint.Fresh.carries (hfresh : start.Fresh) : Carries statvfs start start [] [] where
  sameDir := rfl
  sameSystem := rfl
  loaded := by simp [hfresh.usedRemove, hfresh.usedInstall]
  account := by
    intro fsp _
    simp [need, hfresh.blocksNeeded, hfresh.maxBlocksNeeded, hfresh.usedRemove,
      hfresh.usedInstall]

@[simp] theorem Charge.apply_fileSystem (charge : Charge) (mp : Mountpoint) :
    fileSystem statvfs (charge.apply mp) = fileSystem statvfs mp := by
  rw [Charge.apply]
  split_ifs <;> rfl

@[simp] theorem Charge.apply_fsinfoLoaded (charge : Charge) (mp : Mountpoint) :
    (charge.apply mp).fsinfoLoaded = mp.fsinfoLoaded := by
  rw [Charge.apply]
  split_ifs <;> rfl

@[simp] theorem Charge.apply_mountDir (charge : Charge) (mp : Mountpoint) :
    (charge.apply mp).mountDir = mp.mountDir := by
  rw [Charge.apply]
  split_ifs <;> rfl

theorem Charge.chargeLoaded_mountDir (charge : Charge) (mp : Mountpoint) :
    (chargeLoaded statvfs charge.apply mp).mountDir = mp.mountDir := by
  rw [chargeLoaded]
  cases hinfo : mp.fsinfoLoaded with
  | fail => rfl
  | loaded => exact charge.apply_mountDir mp
  | unloaded =>
    cases hstat : statvfs mp.mountDir with
    | none =>
      simp only [mountPointLoadFsinfo, hstat]
      rfl
    | some fsp =>
      simp only [mountPointLoadFsinfo, hstat]
      exact charge.apply_mountDir _

/-- A charge to a file system that has been asked. -/
theorem Carries.apply (h : Carries statvfs start mp cs tops) (hloaded : mp.fsinfoLoaded = .loaded)
    {charge : Charge}
    (hfits : ∀ fsp, fileSystem statvfs start = some fsp → 0 < fsp.bsize ∧ charge.Fits fsp.bsize) :
    Carries statvfs start (charge.apply mp) (cs ++ [charge]) tops where
  sameDir := by rw [Charge.apply_mountDir, h.sameDir]
  sameSystem := by rw [Charge.apply_fileSystem, h.sameSystem]
  loaded := fun _ => by rw [Charge.apply_fsinfoLoaded, hloaded]
  account := by
    intro fsp hfsp
    obtain ⟨hblocks, hremove, hinstall, hmax⟩ := h.account fsp hfsp
    obtain ⟨hbsize, hfit⟩ := hfits fsp hfsp
    have hasked : mp.fsp.bsize = fsp.bsize := by
      have hsame := h.sameSystem.trans hfsp
      rw [fileSystem, hloaded] at hsame
      rw [← Option.some.inj hsame]
    have hceil := blkcnt_fileBlocks hbsize hfit.nonneg hfit.lt
    rw [Charge.apply]
    cases hkind : charge.install with
    | true =>
      rw [if_pos rfl]
      refine ⟨?_, ?_, ?_, hmax⟩
      · simp only [hasked, hceil, hblocks, need, List.map_append, List.sum_append, List.map_cons,
          List.map_nil, List.sum_singleton, Charge.blocks, hkind, if_true]
      · simp [hremove, hkind]
      · simp [hkind]
    | false =>
      rw [if_neg Bool.false_ne_true]
      refine ⟨?_, ?_, ?_, hmax⟩
      · simp only [hasked, hceil, hblocks, need, List.map_append, List.sum_append, List.map_cons,
          List.map_nil, List.sum_singleton, Charge.blocks, hkind, Bool.false_eq_true, if_false,
          sub_eq_add_neg]
      · simp [hkind]
      · simp [hinstall, hkind]

/-- A charge to a file system that is asked when it has to be. -/
theorem Carries.charge (h : Carries statvfs start mp cs tops) {charge : Charge}
    (hfits : ∀ fsp, fileSystem statvfs start = some fsp → 0 < fsp.bsize ∧ charge.Fits fsp.bsize) :
    Carries statvfs start (chargeLoaded statvfs charge.apply mp) (cs ++ [charge]) tops := by
  rw [chargeLoaded]
  cases hinfo : mp.fsinfoLoaded with
  | fail =>
    have hnone : fileSystem statvfs start = none := by
      rw [← h.sameSystem, fileSystem, hinfo]
    exact ⟨h.sameDir, h.sameSystem, h.loaded, by simp [hnone]⟩
  | loaded => exact h.apply hinfo hfits
  | unloaded =>
    have hunused : (mp.usedRemove || mp.usedInstall) = false := by
      by_contra hused
      have hloaded := h.loaded (Bool.eq_true_of_not_eq_false hused)
      rw [hinfo] at hloaded
      cases hloaded
    have hsame := h.sameSystem
    rw [fileSystem, hinfo] at hsame
    cases hstat : statvfs mp.mountDir with
    | none =>
      simp only [mountPointLoadFsinfo, hstat]
      rw [if_pos (by decide)]
      have hnone : fileSystem statvfs start = none := by rw [← hsame, hstat]
      exact ⟨h.sameDir, hnone.symm, by simp [hunused], by simp [hnone]⟩
    | some fsp =>
      simp only [mountPointLoadFsinfo, hstat]
      rw [if_neg (by decide)]
      have hasked : Carries statvfs start
          { mp with fsp, readOnly := fsp.readOnly, fsinfoLoaded := .loaded } cs tops :=
        ⟨h.sameDir, by rw [← hsame, hstat]; rfl, fun _ => rfl, h.account⟩
      exact hasked.apply rfl hfits

/-- The comparison after a package. -/
theorem Carries.raise (h : Carries statvfs start mp cs tops) :
    Carries statvfs start (raiseMax mp) cs (tops ++ [cs]) := by
  have hfields : ∀ bound, (raiseMax mp).maxBlocksNeeded ≤ bound ↔
      mp.maxBlocksNeeded ≤ bound ∧ mp.blocksNeeded ≤ bound := by
    intro bound
    rw [raiseMax]
    split_ifs with hgt
    · show mp.blocksNeeded ≤ bound ↔ _
      omega
    · omega
  have hothers : ∃ top, raiseMax mp = { mp with maxBlocksNeeded := top } := by
    rw [raiseMax]
    split_ifs
    · exact ⟨_, rfl⟩
    · exact ⟨mp.maxBlocksNeeded, rfl⟩
  obtain ⟨top, heq⟩ := hothers
  refine ⟨by rw [heq]; exact h.sameDir, by rw [heq]; exact h.sameSystem,
    by rw [heq]; exact h.loaded, fun fsp hfsp => ?_⟩
  obtain ⟨hblocks, hremove, hinstall, hmax⟩ := h.account fsp hfsp
  refine ⟨by rw [heq]; exact hblocks, by rw [heq]; exact hremove, by rw [heq]; exact hinstall,
    fun bound => ?_⟩
  rw [hfields, hmax, hblocks, List.forall_mem_append, List.forall_mem_singleton, and_assoc]

/-! ## All mount points -/

/-- Every mount point carries the charges to it, and the comparison after each package was made with
what it carried then.  The invariant of the loops, for all mount points of the table. -/
structure AllCarry (statvfs : CString → Option Fsp) (table mountPoints : List Mountpoint)
    (cs : List Charge) (tops : List (List Charge)) : Prop where
  dirs : mountPoints.map Mountpoint.mountDir = table.map Mountpoint.mountDir
  each : ∀ i start mp, table[i]? = some start → mountPoints[i]? = some mp →
    Carries statvfs start mp (chargesAt table i cs) (tops.map (chargesAt table i))

variable {table mountPoints : List Mountpoint}

/-- A charge overflows nothing on the file systems of a table, which have blocks. -/
def FitsTable (statvfs : CString → Option Fsp) (table : List Mountpoint) (charge : Charge) : Prop :=
  ∀ start ∈ table, ∀ fsp, fileSystem statvfs start = some fsp →
    0 < fsp.bsize ∧ charge.Fits fsp.bsize

theorem chargesAt_append (table : List Mountpoint) (i : ℕ) (cs cs' : List Charge) :
    chargesAt table i (cs ++ cs') = chargesAt table i cs ++ chargesAt table i cs' :=
  List.filter_append ..

theorem AllCarry.charge (h : AllCarry statvfs table mountPoints cs tops) {charge : Charge}
    (hfits : FitsTable statvfs table charge) :
    AllCarry statvfs table (chargeStep statvfs mountPoints charge) (cs ++ [charge]) tops := by
  have hstep : chargeStep statvfs mountPoints charge =
      mountPoints.modify (charge.index table) (chargeLoaded statvfs charge.apply) := by
    rw [chargeStep, chargeMountPoint_eq_modify, ← charge.index_congr h.dirs]
    rfl
  have heach : ∀ i start mp, table[i]? = some start →
      (chargeStep statvfs mountPoints charge)[i]? = some mp →
        Carries statvfs start mp (chargesAt table i (cs ++ [charge]))
          (tops.map (chargesAt table i)) := by
    intro i start mp hstart hmp
    rw [hstep, List.getElem?_modify, Option.map_eq_map, Option.map_eq_some_iff] at hmp
    obtain ⟨before, hbefore, rfl⟩ := hmp
    have hcarries := h.each i start before hstart hbefore
    rw [chargesAt_append]
    split_ifs with hindex
    · have hone : chargesAt table i [charge] = [charge] :=
        List.filter_eq_self.mpr (by simp [hindex])
      rw [hone]
      exact hcarries.charge (hfits start (List.mem_of_getElem? hstart))
    · have hnone : chargesAt table i [charge] = [] := List.filter_eq_nil_iff.mpr (by simp [hindex])
      rw [hnone, List.append_nil]
      exact hcarries
  refine ⟨?_, heach⟩
  rw [← h.dirs, hstep]
  ext1 i
  rw [List.getElem?_map, List.getElem?_modify, List.getElem?_map, Option.map_eq_map, Option.map_map]
  refine Option.map_congr fun mp _ => ?_
  rw [Function.comp_apply]
  split_ifs
  · exact charge.chargeLoaded_mountDir mp
  · rfl

theorem AllCarry.chargeAll (h : AllCarry statvfs table mountPoints cs tops) {new : List Charge}
    (hfits : ∀ charge ∈ new, FitsTable statvfs table charge) :
    AllCarry statvfs table (new.foldl (chargeStep statvfs) mountPoints) (cs ++ new) tops := by
  induction new generalizing mountPoints cs with
  | nil => rwa [List.append_nil]
  | cons charge new ih =>
    have hhead := h.charge (hfits charge (List.mem_cons_self ..))
    have hrest := ih hhead fun c hc => hfits c (List.mem_cons_of_mem _ hc)
    rwa [List.append_assoc, List.singleton_append] at hrest

theorem AllCarry.raise (h : AllCarry statvfs table mountPoints cs tops) :
    AllCarry statvfs table (mountPoints.map raiseMax) cs (tops ++ [cs]) where
  dirs := by
    rw [← h.dirs, List.map_map]
    refine List.map_congr_left fun mp _ => ?_
    rw [Function.comp_apply, raiseMax]
    split_ifs <;> rfl
  each := by
    intro i start mp hstart hmp
    rw [List.getElem?_map, Option.map_eq_some_iff] at hmp
    obtain ⟨before, hbefore, rfl⟩ := hmp
    rw [List.map_append]
    exact (h.each i start before hstart hbefore).raise

/-- The packages to remove are charged in one go. -/
theorem AllCarry.removeTargets (h : AllCarry statvfs table mountPoints cs tops) {remove : List Pkg}
    (hfits : ∀ charge ∈ remove.flatMap (removedCharges handle llstat),
      FitsTable statvfs table charge) :
    AllCarry statvfs table (remove.foldl (removeTarget handle statvfs llstat) mountPoints)
      (cs ++ remove.flatMap (removedCharges handle llstat)) tops := by
  induction remove generalizing mountPoints cs with
  | nil =>
    rw [List.flatMap_nil, List.append_nil]
    exact h
  | cons localPkg remove ih =>
    rw [List.flatMap_cons] at hfits ⊢
    rw [List.forall_mem_append] at hfits
    rw [List.foldl_cons, removeTarget_eq, ← List.append_assoc]
    exact ih (h.chargeAll hfits.1) hfits.2

/-- After each package to install the charges until then are compared. -/
theorem AllCarry.addTargets (h : AllCarry statvfs table mountPoints cs tops) {add : List Pkg}
    (hfits : ∀ charge ∈ add.flatMap (targetCharges handle llstat dbLocal),
      FitsTable statvfs table charge) :
    AllCarry statvfs table (add.foldl (addTarget handle statvfs llstat dbLocal) mountPoints)
      (cs ++ add.flatMap (targetCharges handle llstat dbLocal))
      (tops ++ (List.range add.length).map fun k =>
        cs ++ (add.take (k + 1)).flatMap (targetCharges handle llstat dbLocal)) := by
  induction add generalizing mountPoints cs tops with
  | nil => simpa using h
  | cons pkg add ih =>
    rw [List.flatMap_cons, List.forall_mem_append] at hfits
    have hhead := (h.chargeAll hfits.1).raise
    have hrest := ih hhead hfits.2
    rw [List.foldl_cons, addTarget_eq, List.length_cons, List.range_succ_eq_map, List.map_cons,
      List.map_map, List.flatMap_cons, ← List.append_assoc]
    simpa [Function.comp_def, List.append_assoc] using hrest

/-! ## The check -/

/-- A mount point is too full if its greatest need and the cushion exceed the blocks available. -/
theorem checkMountpoint_eq_false (hnonneg : 0 ≤ mp.maxBlocksNeeded)
    (hlt : mp.maxBlocksNeeded + cushion mp.fsp < 2 ^ 63) :
    checkMountpoint mp = false ↔ mp.maxBlocksNeeded + cushion mp.fsp ≤ mp.fsp.bavail := by
  have hneeded : checkMountpoint mp = (decide (0 ≤ mp.maxBlocksNeeded + cushion mp.fsp) &&
      decide (mp.fsp.bavail < (mp.maxBlocksNeeded + cushion mp.fsp).toNat)) := by
    rw [← blkcnt_of_lt (by omega) hlt, cushion, min_def_lt]
    rfl
  rw [hneeded, decide_eq_true (by omega), Bool.true_and, decide_eq_false_iff_not]
  omega

/-- A charge was made to a mount point just if it is used. -/
theorem any_or_any (cs : List Charge) :
    (cs.any (fun charge => !charge.install) || cs.any Charge.install) = true ↔ cs ≠ [] := by
  cases cs with
  | nil => simp
  | cons charge cs => cases hkind : charge.install <;> simp [hkind]

/-- What the last loop finds at a mount point. -/
theorem Carries.error_iff (h : Carries statvfs start mp cs tops)
    (hlt : ∀ fsp, fileSystem statvfs start = some fsp →
      cushion fsp < 2 ^ 63 ∧ ∀ top ∈ tops, need fsp.bsize top + cushion fsp < 2 ^ 63) :
    mountPointError mp = false ↔ ∀ fsp, fileSystem statvfs start = some fsp →
      (cs ≠ [] → fsp.readOnly = false) ∧
        (cs.any Charge.install → cushion fsp ≤ fsp.bavail ∧
          ∀ top ∈ tops, need fsp.bsize top + cushion fsp ≤ fsp.bavail) := by
  by_cases hused : (mp.usedRemove || mp.usedInstall) = true
  · have hloaded := h.loaded hused
    have hsystem := h.sameSystem
    rw [fileSystem, hloaded] at hsystem
    obtain ⟨hblocks, hremove, hinstall, hmax⟩ := h.account _ hsystem.symm
    obtain ⟨hcushion, hneed⟩ := hlt _ hsystem.symm
    have hsame : cushion { mp.fsp with readOnly := mp.readOnly } = cushion mp.fsp := rfl
    rw [hsame] at hcushion hneed
    have hcs : cs ≠ [] := by rwa [← any_or_any, ← hremove, ← hinstall]
    have hnonneg : 0 ≤ mp.maxBlocksNeeded := ((hmax _).mp le_rfl).1
    have hfit : mp.maxBlocksNeeded + cushion mp.fsp < 2 ^ 63 := by
      have hbound := (hmax (2 ^ 63 - 1 - cushion mp.fsp)).mpr
        ⟨by omega, fun top htop => by have := hneed top htop; omega⟩
      omega
    have hfull : mp.maxBlocksNeeded + cushion mp.fsp ≤ mp.fsp.bavail ↔
        cushion mp.fsp ≤ mp.fsp.bavail ∧
          ∀ top ∈ tops, need mp.fsp.bsize top + cushion mp.fsp ≤ mp.fsp.bavail := by
      have hbound := hmax (mp.fsp.bavail - cushion mp.fsp)
      simp only [le_sub_iff_add_le, zero_add, Nat.cast_le] at hbound
      exact hbound
    rw [← hsystem]
    simp only [Option.some.injEq, forall_eq', hsame, ← hinstall]
    rw [mountPointError, hused, Bool.true_and, ← hfull, ← checkMountpoint_eq_false hnonneg hfit]
    cases hro : mp.readOnly <;> cases hin : mp.usedInstall <;> simp [hcs]
  · rw [Bool.not_eq_true] at hused
    have hinstall := (Bool.or_eq_false_iff.mp hused).2
    have hfine : mountPointError mp = false := by
      rw [mountPointError, hused, hinstall]
      rfl
    refine ⟨fun _ fsp hfsp => ?_, fun _ => hfine⟩
    obtain ⟨-, hremove, hinstall', -⟩ := h.account fsp hfsp
    have hnil : ¬ cs ≠ [] := by rw [← any_or_any, ← hremove, ← hinstall', hused]; simp
    refine ⟨fun hcs => absurd hcs hnil, fun hany => ?_⟩
    rw [← hinstall', hinstall] at hany
    cases hany

/-- What the last loop finds. -/
theorem AllCarry.error_iff (h : AllCarry statvfs table mountPoints cs tops)
    (hlt : ∀ i start fsp, table[i]? = some start → fileSystem statvfs start = some fsp →
      cushion fsp < 2 ^ 63 ∧
        ∀ top ∈ tops, need fsp.bsize (chargesAt table i top) + cushion fsp < 2 ^ 63) :
    mountPoints.any mountPointError = false ↔
      ∀ i start fsp, table[i]? = some start → fileSystem statvfs start = some fsp →
        (chargesAt table i cs ≠ [] → fsp.readOnly = false) ∧
          ((chargesAt table i cs).any Charge.install → cushion fsp ≤ fsp.bavail ∧
            ∀ top ∈ tops, need fsp.bsize (chargesAt table i top) + cushion fsp ≤ fsp.bavail) := by
  have hone : ∀ i start mp, table[i]? = some start → mountPoints[i]? = some mp →
      (mountPointError mp = false ↔ ∀ fsp, fileSystem statvfs start = some fsp →
        (chargesAt table i cs ≠ [] → fsp.readOnly = false) ∧
          ((chargesAt table i cs).any Charge.install → cushion fsp ≤ fsp.bavail ∧
            ∀ top ∈ tops, need fsp.bsize (chargesAt table i top) + cushion fsp ≤ fsp.bavail)) := by
    intro i start mp hstart hmp
    have hcarries := (h.each i start mp hstart hmp).error_iff fun fsp hfsp => by
      simpa only [List.forall_mem_map] using hlt i start fsp hstart hfsp
    simpa only [List.forall_mem_map] using hcarries
  have hlength : mountPoints.length = table.length := by
    simpa only [List.length_map] using congrArg List.length h.dirs
  simp only [List.any_eq_false, Bool.not_eq_true]
  constructor
  · intro hfine i start fsp hstart
    have hi : i < mountPoints.length := by
      rw [hlength]
      exact (List.getElem?_eq_some_iff.mp hstart).1
    have hmp : mountPoints[i]? = some mountPoints[i] := List.getElem?_eq_getElem hi
    exact (hone i start _ hstart hmp).mp (hfine _ (List.mem_of_getElem? hmp)) fsp
  · intro hspace mp hmem
    obtain ⟨i, hmp⟩ := List.mem_iff_getElem?.mp hmem
    have hi : i < table.length := by
      rw [← hlength]
      exact (List.getElem?_eq_some_iff.mp hmp).1
    have hstart : table[i]? = some table[i] := List.getElem?_eq_getElem hi
    exact (hone i _ mp hstart hmp).mpr fun fsp => hspace i _ fsp hstart

/-- No number that the check computes overflows: the sizes of the files fit, and what a file system
needs after any package is less than `2 ^ 63` with its cushion. -/
structure NoOverflow (handle : Handle) (statvfs : CString → Option Fsp)
    (llstat : CString → Option File) (dbLocal : List Pkg) (table : List Mountpoint)
    (trans : Trans) : Prop where
  charge : ∀ charge ∈ charges handle llstat dbLocal trans trans.add.length,
    FitsTable statvfs table charge
  need_lt : ∀ i start fsp, table[i]? = some start → fileSystem statvfs start = some fsp →
    ∀ k ≤ trans.add.length,
      need fsp.bsize (chargesAt table i (charges handle llstat dbLocal trans k)) + cushion fsp <
        2 ^ 63

/-- A file system has the space for the charges `cs k` after the first `k` of `n` packages: it is
not mounted read only, and after every one of them what they need and the cushion do not exceed the
blocks available. -/
structure SpaceFor (fsp : Fsp) (cs : ℕ → List Charge) (n : ℕ) : Prop where
  writable : cs n ≠ [] → fsp.readOnly = false
  room : (cs n).any Charge.install →
    ∀ k ≤ n, max 0 (need fsp.bsize (cs k)) + cushion fsp ≤ fsp.bavail

theorem cushion_lt {fsp : Fsp} : cushion fsp < 2 ^ 63 := by
  have hle : cushion fsp ≤ 20 * 1024 * 1024 / fsp.bsize + 1 := min_le_right ..
  have hdiv : 20 * 1024 * 1024 / fsp.bsize ≤ 20 * 1024 * 1024 := Nat.div_le_self ..
  omega

/-- The space for the charges after every package, if the first of them need no blocks. -/
theorem spaceFor_iff {fsp : Fsp} {cs : ℕ → List Charge} {n : ℕ}
    (hzero : need fsp.bsize (cs 0) ≤ 0) :
    SpaceFor fsp cs n ↔ (cs n ≠ [] → fsp.readOnly = false) ∧
      ((cs n).any Charge.install → cushion fsp ≤ fsp.bavail ∧
        ∀ k < n, need fsp.bsize (cs (k + 1)) + cushion fsp ≤ fsp.bavail) := by
  constructor
  · intro h
    refine ⟨h.writable, fun hany => ⟨?_, fun k hk => ?_⟩⟩
    · have hroom := h.room hany 0 (Nat.zero_le n)
      omega
    · have hroom := h.room hany (k + 1) hk
      omega
  · rintro ⟨hwritable, hroom⟩
    refine ⟨hwritable, fun hany k hk => ?_⟩
    obtain ⟨hcushion, hneed⟩ := hroom hany
    cases k with
    | zero => omega
    | succ k =>
      have hlater := hneed k hk
      omega

theorem need_nonpos {bsize : ℕ} (h : ∀ charge ∈ cs, charge.install = false) :
    need bsize cs ≤ 0 := by
  induction cs with
  | nil => exact le_rfl
  | cons charge cs ih =>
    rw [List.forall_mem_cons] at h
    have hrest : (cs.map (Charge.blocks bsize)).sum ≤ 0 := ih h.2
    rw [need, List.map_cons, List.sum_cons, Charge.blocks, h.1, if_neg Bool.false_ne_true]
    omega

theorem removedCharges_install {localPkg : Pkg} {charge : Charge}
    (hcharge : charge ∈ removedCharges handle llstat localPkg) : charge.install = false := by
  rw [removedCharges, List.mem_filterMap] at hcharge
  obtain ⟨filename, -, hsome⟩ := hcharge
  cases hst : llstat ((handle.root ++ filename).take (pathMax - 1)) with
  | none => simp [hst] at hsome
  | some st =>
    simp only [hst] at hsome
    split_ifs at hsome
    rw [← Option.some.inj hsome]

/-- The packages that are removed need no blocks. -/
theorem need_charges_zero (trans : Trans) (i bsize : ℕ) :
    need bsize (chargesAt table i (charges handle llstat dbLocal trans 0)) ≤ 0 := by
  refine need_nonpos fun charge hcharge => ?_
  have hmem := (List.mem_filter.mp hcharge).1
  rw [charges, List.take_zero, List.flatMap_nil, List.append_nil, List.mem_flatMap] at hmem
  obtain ⟨localPkg, -, hremoved⟩ := hmem
  exact removedCharges_install hremoved

theorem matchMountPoint_isSome {realPath : CString} :
    (∃ mp, matchMountPoint mountPoints realPath = some mp) ↔
      ∃ mp ∈ mountPoints, IsComponentPrefix mp.mountDir realPath := by
  rw [matchMountPoint_eq, ← Option.isSome_iff_exists, List.find?_isSome]
  simp only [mountPointMatches_iff]

/-- **The disk space check** succeeds if and only if the root is on a mount point, nothing is
charged to a file system that is mounted read only, and where files are installed the blocks
available hold the cushion and what is needed after every package of the transaction.  File systems
that `statvfs` fails on take no part in it. -/
theorem checkDiskspace_iff {mounted : List Mountpoint} {trans : Trans}
    (hfresh : ∀ mp ∈ mounted, mp.Fresh)
    (hfits : NoOverflow handle statvfs llstat dbLocal (mountPointList mounted) trans) :
    checkDiskspace handle mounted statvfs llstat dbLocal trans = 0 ↔
      (∃ mp ∈ mounted, IsComponentPrefix mp.mountDir handle.root) ∧
        ∀ i start fsp, (mountPointList mounted)[i]? = some start →
          fileSystem statvfs start = some fsp →
            SpaceFor fsp (fun k => chargesAt (mountPointList mounted) i
              (charges handle llstat dbLocal trans k)) trans.add.length := by
  have hmem : ∀ {mp}, mp ∈ mountPointList mounted ↔ mp ∈ mounted :=
    (listMsort_perm mountPointCmp mounted).mem_iff
  simp only [← hmem] at hfresh ⊢
  rw [← matchMountPoint_isSome]
  unfold checkDiskspace
  generalize mountPointList mounted = table at hfresh hfits ⊢
  have hstart : AllCarry statvfs table table [] [] := by
    refine ⟨rfl, fun i start mp hstart hmp => ?_⟩
    obtain rfl := Option.some.inj (hstart.symm.trans hmp)
    exact (hfresh start (List.mem_of_getElem? hstart)).carries
  have hall := hfits.charge
  rw [charges, List.take_length, List.forall_mem_append] at hall
  have hend : AllCarry statvfs table (trans.add.foldl (addTarget handle statvfs llstat dbLocal)
      (trans.remove.foldl (removeTarget handle statvfs llstat) table))
      (charges handle llstat dbLocal trans trans.add.length)
      ((List.range trans.add.length).map fun k => charges handle llstat dbLocal trans (k + 1)) := by
    rw [charges, List.take_length]
    exact (hstart.removeTargets hall.1).addTargets hall.2
  cases table with
  | nil => simp [matchMountPoint]
  | cons first rest =>
    simp only
    generalize first :: rest = table at hfits hend ⊢
    cases hroot : matchMountPoint table handle.root with
    | none => simp
    | some rootMp =>
      generalize trans.add.foldl (addTarget handle statvfs llstat dbLocal)
        (trans.remove.foldl (removeTarget handle statvfs llstat) table) = mountPoints at hend ⊢
      have hcode : (if mountPoints.any mountPointError then -1 else 0 : Int) = 0 ↔
          mountPoints.any mountPointError = false := by
        cases mountPoints.any mountPointError <;> simp
      rw [hcode, hend.error_iff fun i start fsp hstart hfsp => ⟨cushion_lt, by
        rw [List.forall_mem_map]
        exact fun k hk =>
          hfits.need_lt i start fsp hstart hfsp (k + 1) (List.mem_range.mp hk)⟩]
      simp only [Option.some.injEq, exists_eq', true_and, List.forall_mem_map, List.mem_range]
      refine forall_congr' fun i => forall_congr' fun start => forall_congr' fun fsp =>
        forall₂_congr fun _ _ => ?_
      exact (@spaceFor_iff fsp (fun k => chargesAt table i (charges handle llstat dbLocal trans k))
        trans.add.length (need_charges_zero trans i fsp.bsize)).symm

/-- The new `foo` takes two blocks, and the installed one gives back three. -/
theorem checkDiskspace_iff_foo :
    let handle : Handle := { root := str "/", dbpath := str "var/lib/pacman/" }
    let statvfs : CString → Option Fsp := fun _ => some ⟨4096, 1000, 60, false⟩
    let foo : File := { name := str "usr/bin/foo", isDir := false, isLnk := false, size := 5000 }
    let llstat : CString → Option File := fun _ => some { foo with size := 9000 }
    let mounted : List Mountpoint := [{ mountDir := str "/", absolute := rfl }]
    let dbLocal : List Pkg := [⟨str "foo", [foo]⟩]
    let trans : Trans := { add := [⟨str "foo", [foo]⟩], remove := [] }
    (∀ mp ∈ mounted, mp.Fresh) ∧
      NoOverflow handle statvfs llstat dbLocal (mountPointList mounted) trans ∧
      (checkDiskspace handle mounted statvfs llstat dbLocal trans = 0 ↔
        (∃ mp ∈ mounted, IsComponentPrefix mp.mountDir handle.root) ∧
          ∀ i start fsp, (mountPointList mounted)[i]? = some start →
            fileSystem statvfs start = some fsp →
              SpaceFor fsp (fun k => chargesAt (mountPointList mounted) i
                (charges handle llstat dbLocal trans k)) trans.add.length) := by
  intro handle statvfs foo llstat mounted dbLocal trans
  have htable : mountPointList mounted = mounted := by
    rw [mountPointList, listMsort, if_neg (by decide)]
  have hfresh : ∀ mp ∈ mounted, mp.Fresh := List.forall_mem_singleton.mpr ⟨rfl, rfl, rfl, rfl⟩
  have hcharges : ∀ charge ∈ charges handle llstat dbLocal trans 1,
      0 ≤ charge.size ∧ charge.size + 4096 < 2 ^ 63 := by
    decide +kernel
  have hfits : NoOverflow handle statvfs llstat dbLocal (mountPointList mounted) trans := by
    rw [htable]
    refine ⟨fun charge hcharge start hstart fsp hfsp => ?_, fun i start fsp hstart hfsp k hk => ?_⟩
    · obtain rfl := List.mem_singleton.mp hstart
      obtain rfl := Option.some.inj hfsp
      exact ⟨by decide, (hcharges charge hcharge).1, (hcharges charge hcharge).2⟩
    · obtain ⟨hi, rfl⟩ := List.getElem?_eq_some_iff.mp hstart
      obtain rfl : i = 0 := Nat.lt_one_iff.mp hi
      obtain rfl := Option.some.inj hfsp
      rcases Nat.le_one_iff_eq_zero_or_eq_one.mp hk with rfl | rfl
      · decide +kernel
      · decide +kernel
  exact ⟨hfresh, hfits, checkDiskspace_iff hfresh hfits⟩

end Alpm.Diskspace
