import Alpm.Diskspace.MountPoint

/-!
# Blocks

The second half of `diskspace.c`: the blocks that files need on their mount points.

An installed file needs the least number of blocks that hold it (`fileBlocks_isLeast`), as the
addition of the block size less one before the division rounds up.  The computation is on signed and
unsigned 64 bit numbers, and it is kept as such; the lemmas say for which sizes nothing overflows.

For a file to download the block size *and one* are added before the division.  So it is charged a
block or two more when its size, or its size and one, is a multiple of the block size
(`downloadBlocks_cases`).  The sum over the files can therefore only be too large, and it is the
right one if and only if no file is of such a size (`addDownloads_iff`).
-/

namespace Alpm.Diskspace

/-- A number as an `unsigned long`. -/
def unsignedLong (n : ℤ) : ℕ := (n % 2 ^ 64).toNat

/-- A number as a `blkcnt_t`. -/
def blkcnt (n : ℤ) : ℤ := n.bmod (2 ^ 64)

/-- The addition of `divisor - 1` performs `ceil()` with integer division. -/
def fileBlocks (size : ℤ) (bsize : ℕ) : ℕ := unsignedLong (size + bsize - 1) / bsize

/-- The blocks of one file in `_alpm_check_downloadspace`. -/
def downloadBlocks (size : ℤ) (bsize : ℕ) : ℕ := unsignedLong (size + bsize + 1) / bsize

/-! ## Installed and removed files -/

/-- What is read of a handle. -/
structure Handle where
  root : CString
  dbpath : CString

/-- What is read of an entry of a file list, or of the file that it names. -/
structure File where
  name : CString
  isDir : Bool
  isLnk : Bool
  size : ℤ

/-- `PATH_MAX`. -/
def pathMax : ℕ := 4096

/-- Charge the mount point of a path. -/
def chargeMountPoint (realPath : CString) (charge : Mountpoint → Mountpoint) :
    List Mountpoint → List Mountpoint
  | [] => []
  | mp :: mountPoints =>
    if mountPointMatches realPath mp then charge mp :: mountPoints
    else mp :: chargeMountPoint realPath charge mountPoints

/-- Charge a mount point whose file system can be asked.  It is asked when it is charged for the
first time, and one that could not be asked is not charged then or later. -/
def chargeLoaded (statvfs : CString → Option Fsp) (charge : Mountpoint → Mountpoint)
    (mp : Mountpoint) : Mountpoint :=
  match mp.fsinfoLoaded with
  -- don't check a mount that we know we can't stat
  | .fail => mp
  -- lazy load filesystem info
  | .unloaded =>
    let (ret, mp) := mountPointLoadFsinfo statvfs mp
    if ret < 0 then mp else charge mp
  | .loaded => charge mp

/-- The body of the loop of `calculate_removed_size`: a regular file gives back the blocks that it
has on the disk, and a directory or a link gives back nothing. -/
def removedFile (handle : Handle) (statvfs : CString → Option Fsp)
    (llstat : CString → Option File) (mountPoints : List Mountpoint) (filename : CString) :
    List Mountpoint :=
  let path := (handle.root ++ filename).take (pathMax - 1)
  match llstat path with
  | none => mountPoints
  | some st =>
    if st.isDir || st.isLnk then mountPoints
    else
      chargeMountPoint path (chargeLoaded statvfs fun mp =>
        { mp with
          blocksNeeded := mp.blocksNeeded - blkcnt (fileBlocks st.size mp.fsp.bsize)
          usedRemove := true }) mountPoints

/-- `calculate_removed_size`. -/
def calculateRemovedSize (handle : Handle) (statvfs : CString → Option Fsp)
    (llstat : CString → Option File) (mountPoints : List Mountpoint) (files : List CString) :
    List Mountpoint :=
  files.foldl (removedFile handle statvfs llstat) mountPoints

/-- The body of the loop of `calculate_installed_size`: a regular file takes the blocks for the size
in the file list.  An entry that begins with a dot is charged to the place of the database. -/
def installedFile (handle : Handle) (statvfs : CString → Option Fsp)
    (mountPoints : List Mountpoint) (file : File) : List Mountpoint :=
  if file.isDir || file.isLnk then mountPoints
  else
    -- approximate space requirements for db entries
    let filename := if deref file.name = '.' then handle.dbpath else file.name
    let path := (handle.root ++ filename).take (pathMax - 1)
    chargeMountPoint path (chargeLoaded statvfs fun mp =>
      { mp with
        blocksNeeded := mp.blocksNeeded + blkcnt (fileBlocks file.size mp.fsp.bsize)
        usedInstall := true }) mountPoints

/-- `calculate_installed_size`. -/
def calculateInstalledSize (handle : Handle) (statvfs : CString → Option Fsp)
    (mountPoints : List Mountpoint) (files : List File) : List Mountpoint :=
  files.foldl (installedFile handle statvfs) mountPoints

/-! ## Downloads -/

/-- `check_mountpoint`: whether the partition is too full. -/
def checkMountpoint (mp : Mountpoint) : Bool :=
  -- cushion is roughly min(5% capacity, 20MiB)
  let fivepc := mp.fsp.blocks / 20 + 1
  let twentymb := 20 * 1024 * 1024 / mp.fsp.bsize + 1
  let cushion := if fivepc < twentymb then fivepc else twentymb
  let needed := blkcnt (mp.maxBlocksNeeded + cushion)
  needed ≥ 0 && needed.toNat > mp.fsp.bavail

/-- The body of the loop of `_alpm_check_downloadspace`. -/
def addDownload (cachedirMp : Mountpoint) (size : ℤ) : Mountpoint :=
  { cachedirMp with
    maxBlocksNeeded :=
      blkcnt (cachedirMp.maxBlocksNeeded + downloadBlocks size cachedirMp.fsp.bsize) }

/-- The loop that rounds up the size of each file to the nearest block and accumulates. -/
def addDownloads (cachedirMp : Mountpoint) (fileSizes : List ℤ) : Mountpoint :=
  fileSizes.foldl addDownload cachedirMp

/-- `_alpm_check_downloadspace`, of the table of mounted file systems if it can be read.  All files
are charged to the mount point of the cache directory. -/
def checkDownloadspace (mounted : List Mountpoint) (statvfs : CString → Option Fsp)
    (realpath : CString → Option CString) (cachedir : CString) (fileSizes : List ℤ) : Int :=
  let cachedir := (realpath cachedir).getD cachedir
  match mountPointList mounted with
  | [] => -1
  | mountPoints =>
    match matchMountPoint mountPoints cachedir with
    | none => -1
    | some cachedirMp =>
      let (ret, cachedirMp) :=
        if cachedirMp.fsinfoLoaded = .unloaded then mountPointLoadFsinfo statvfs cachedirMp
        else (0, cachedirMp)
      if ret ≠ 0 then -1
      else if checkMountpoint (addDownloads cachedirMp fileSizes) then -1
      else 0

/-! ## The least number of blocks -/

theorem unsignedLong_of_lt {n : ℤ} (hnonneg : 0 ≤ n) (hlt : n < 2 ^ 64) :
    unsignedLong n = n.toNat := by
  rw [unsignedLong, Int.emod_eq_of_lt hnonneg hlt]

/-- An installed file needs the least number of blocks that hold it. -/
theorem fileBlocks_isLeast {size bsize : ℕ} (hbsize : 0 < bsize) (hlt : size + bsize < 2 ^ 64) :
    IsLeast {n : ℕ | size ≤ n * bsize} (fileBlocks size bsize) := by
  have heq : fileBlocks size bsize = size ⌈/⌉ bsize := by
    rw [fileBlocks, unsignedLong_of_lt (by omega) (by omega), Nat.ceilDiv_eq_add_pred_div]
    congr 1
    omega
  rw [heq]
  constructor
  · show size ≤ (size ⌈/⌉ bsize) * bsize
    rw [mul_comm]
    exact (ceilDiv_le_iff_le_smul hbsize).mp le_rfl
  · intro n hn
    refine (ceilDiv_le_iff_le_smul hbsize).mpr ?_
    rw [smul_eq_mul, mul_comm]
    exact hn

/-- The mount point that is charged is the one that `match_mount_point` finds. -/
theorem chargeMountPoint_eq {mountPoints : List Mountpoint} {realPath : CString} {mp : Mountpoint}
    (hfound : matchMountPoint mountPoints realPath = some mp) :
    ∃ before after, mountPoints = before ++ mp :: after ∧
      ∀ charge, chargeMountPoint realPath charge mountPoints = before ++ charge mp :: after := by
  induction mountPoints with
  | nil => cases hfound
  | cons data mountPoints ih =>
    rw [matchMountPoint] at hfound
    split_ifs at hfound with hmatch
    · obtain rfl := Option.some.inj hfound
      exact ⟨[], mountPoints, rfl, fun charge => if_pos hmatch⟩
    · obtain ⟨before, after, rfl, hcharge⟩ := ih hfound
      refine ⟨data :: before, after, rfl, fun charge => ?_⟩
      rw [chargeMountPoint, if_neg hmatch, hcharge, List.cons_append]

/-- An installed file is charged to its mount point with the least number of blocks. -/
theorem installedFile_charges {handle : Handle} {statvfs : CString → Option Fsp}
    {mountPoints : List Mountpoint} {file : File} {mp : Mountpoint}
    (hfile : (file.isDir || file.isLnk) = false) (hdot : deref file.name ≠ '.')
    (hfound : matchMountPoint mountPoints ((handle.root ++ file.name).take (pathMax - 1)) = some mp)
    (hloaded : mp.fsinfoLoaded = .loaded) :
    ∃ before after, mountPoints = before ++ mp :: after ∧
      installedFile handle statvfs mountPoints file = before ++
        { mp with
          blocksNeeded := mp.blocksNeeded + blkcnt (fileBlocks file.size mp.fsp.bsize)
          usedInstall := true } :: after := by
  obtain ⟨before, after, heq, hcharge⟩ := chargeMountPoint_eq hfound
  refine ⟨before, after, heq, ?_⟩
  rw [installedFile, hfile, if_neg Bool.false_ne_true, if_neg hdot, hcharge, chargeLoaded, hloaded]

/-! ## What a download is charged -/

/-- The block size is positive, the sizes are not negative, and no sum overflows. -/
structure Fits (mp : Mountpoint) (fileSizes : List ℤ) : Prop where
  bsize_pos : 0 < mp.fsp.bsize
  size_nonneg : ∀ size ∈ fileSizes, 0 ≤ size
  size_lt : ∀ size ∈ fileSizes, size + mp.fsp.bsize + 1 < 2 ^ 64
  max_nonneg : 0 ≤ mp.maxBlocksNeeded
  sum_lt : mp.maxBlocksNeeded +
    ((fileSizes.map fun size => downloadBlocks size mp.fsp.bsize).sum : ℕ) < 2 ^ 63

theorem blkcnt_of_lt {n : ℤ} (hnonneg : 0 ≤ n) (hlt : n < 2 ^ 63) : blkcnt n = n :=
  Int.bmod_eq_of_le (by omega) (by omega)

theorem downloadBlocks_eq {size bsize : ℕ} (hbsize : 0 < bsize)
    (hlt : size + bsize + 1 < 2 ^ 64) : downloadBlocks size bsize = (size + 1) / bsize + 1 := by
  have hsum : ((size : ℤ) + bsize + 1).toNat = size + 1 + bsize := by omega
  rw [downloadBlocks, unsignedLong_of_lt (by omega) (by omega), hsum, Nat.add_div_right _ hbsize]

/-- A download is charged at least the blocks that hold it, and no more than these only if neither
the size nor the size and one is a multiple of the block size. -/
theorem downloadBlocks_cases {size bsize : ℕ} (hbsize : 0 < bsize)
    (hlt : size + bsize + 1 < 2 ^ 64) :
    fileBlocks size bsize ≤ downloadBlocks size bsize ∧
      (downloadBlocks size bsize = fileBlocks size bsize ↔
        ¬ bsize ∣ size ∧ ¬ bsize ∣ size + 1) := by
  have hfile := @fileBlocks_isLeast size bsize hbsize (by omega)
  have hholds : size ≤ fileBlocks size bsize * bsize := hfile.1
  have hleast : ∀ n, size ≤ n * bsize → fileBlocks size bsize ≤ n := fun n hn => hfile.2 hn
  rw [downloadBlocks_eq hbsize hlt]
  have hbelow : (size + 1) / bsize * bsize ≤ size + 1 := Nat.div_mul_le_self ..
  have habove : size + 1 < bsize * ((size + 1) / bsize + 1) := Nat.lt_mul_div_succ _ hbsize
  rw [mul_comm] at habove
  refine ⟨hleast _ (by omega), ?_⟩
  constructor
  · intro heq
    constructor
    · rintro ⟨k, hk⟩
      rw [mul_comm] at hk
      have hfit : fileBlocks size bsize ≤ k := hleast k hk.le
      have hdiv : k ≤ (size + 1) / bsize := (Nat.le_div_iff_mul_le hbsize).mpr (by omega)
      omega
    · rintro ⟨k, hk⟩
      rw [mul_comm] at hk
      have hfit : fileBlocks size bsize ≤ k := hleast k (by omega)
      have hdiv : k ≤ (size + 1) / bsize := (Nat.le_div_iff_mul_le hbsize).mpr hk.ge
      omega
  · rintro ⟨hsize, hsucc⟩
    by_contra hne
    have hle := hleast ((size + 1) / bsize + 1) (by omega)
    have hfew : fileBlocks size bsize ≤ (size + 1) / bsize := by omega
    have hhold : size ≤ (size + 1) / bsize * bsize :=
      hholds.trans (Nat.mul_le_mul_right bsize hfew)
    -- the blocks below end at the size or one byte behind it
    rcases Nat.le_succ_iff.mp hbelow with hend | hend
    · exact hsize ⟨(size + 1) / bsize, by rw [mul_comm]; omega⟩
    · exact hsucc ⟨(size + 1) / bsize, by rw [mul_comm]; omega⟩

theorem addDownloads_max {mp : Mountpoint} {fileSizes : List ℤ} (h : Fits mp fileSizes) :
    (addDownloads mp fileSizes).maxBlocksNeeded = mp.maxBlocksNeeded +
      ((fileSizes.map fun size => downloadBlocks size mp.fsp.bsize).sum : ℕ) := by
  unfold addDownloads
  induction fileSizes generalizing mp with
  | nil => simp
  | cons size fileSizes ih =>
    have hsum := h.sum_lt
    rw [List.map_cons, List.sum_cons] at hsum
    have hmax := h.max_nonneg
    have hhead : (addDownload mp size).maxBlocksNeeded =
        mp.maxBlocksNeeded + downloadBlocks size mp.fsp.bsize :=
      blkcnt_of_lt (by omega) (by omega)
    have hrest : Fits (addDownload mp size) fileSizes := {
      bsize_pos := h.bsize_pos
      size_nonneg := fun s hs => h.size_nonneg s (List.mem_cons_of_mem _ hs)
      size_lt := fun s hs => h.size_lt s (List.mem_cons_of_mem _ hs)
      max_nonneg := by omega
      sum_lt := by
        have hbsize : (addDownload mp size).fsp = mp.fsp := rfl
        rw [hhead, hbsize]
        omega }
    rw [List.foldl_cons, ih hrest, hhead, List.map_cons, List.sum_cons, Nat.cast_add, add_assoc]
    rfl

/-- Two sums of which one is at least the other, term by term. -/
theorem sum_map_eq_iff {α : Type*} {l : List α} {f g : α → ℕ} (hle : ∀ a ∈ l, g a ≤ f a) :
    (l.map f).sum = (l.map g).sum ↔ ∀ a ∈ l, f a = g a := by
  induction l with
  | nil => simp
  | cons a l ih =>
    have hhead := hle a (List.mem_cons_self ..)
    have hrest : ∀ b ∈ l, g b ≤ f b := fun b hb => hle b (List.mem_cons_of_mem _ hb)
    have hsum : (l.map g).sum ≤ (l.map f).sum := List.sum_le_sum hrest
    rw [List.map_cons, List.map_cons, List.sum_cons, List.sum_cons, List.forall_mem_cons,
      ← ih hrest]
    omega

theorem Fits.charged {mp : Mountpoint} {fileSizes : List ℤ} (h : Fits mp fileSizes) (size : ℤ)
    (hsize : size ∈ fileSizes) :
    fileBlocks size mp.fsp.bsize ≤ downloadBlocks size mp.fsp.bsize ∧
      (downloadBlocks size mp.fsp.bsize = fileBlocks size mp.fsp.bsize ↔
        ¬ (mp.fsp.bsize : ℤ) ∣ size ∧ ¬ (mp.fsp.bsize : ℤ) ∣ size + 1) := by
  obtain ⟨n, rfl⟩ := Int.eq_ofNat_of_zero_le (h.size_nonneg size hsize)
  have hlt := h.size_lt n hsize
  have hcases := @downloadBlocks_cases n mp.fsp.bsize h.bsize_pos (by omega)
  exact_mod_cast hcases

/-- **The amount** that `_alpm_check_downloadspace` adds is the sum of the least numbers of blocks
if and only if neither the size of a file nor the size and one is a multiple of the block size.  No
file is charged less than its least number, so a sum that is right has no summand that is wrong. -/
theorem addDownloads_iff {mp : Mountpoint} {fileSizes : List ℤ} (h : Fits mp fileSizes) :
    (∀ size ∈ fileSizes,
      IsLeast {n : ℕ | size ≤ n * mp.fsp.bsize} (fileBlocks size mp.fsp.bsize)) ∧
      ((addDownloads mp fileSizes).maxBlocksNeeded - mp.maxBlocksNeeded =
          ((fileSizes.map fun size => fileBlocks size mp.fsp.bsize).sum : ℕ) ↔
        ∀ size ∈ fileSizes, ¬ (mp.fsp.bsize : ℤ) ∣ size ∧ ¬ (mp.fsp.bsize : ℤ) ∣ size + 1) := by
  constructor
  · intro size hsize
    obtain ⟨n, rfl⟩ := Int.eq_ofNat_of_zero_le (h.size_nonneg size hsize)
    have hlt := h.size_lt n hsize
    have hleast := @fileBlocks_isLeast n mp.fsp.bsize h.bsize_pos (by omega)
    have hset : {k : ℕ | (n : ℤ) ≤ k * mp.fsp.bsize} = {k : ℕ | n ≤ k * mp.fsp.bsize} := by
      ext k
      exact_mod_cast Iff.rfl
    rwa [hset]
  · rw [addDownloads_max h, add_sub_cancel_left, Nat.cast_inj,
      sum_map_eq_iff fun size hsize => (h.charged size hsize).1]
    exact forall₂_congr fun size hsize => (h.charged size hsize).2

/-- A partition with blocks of 4 KiB. -/
def cachePartition : Mountpoint where
  mountDir := str "/"
  absolute := rfl
  fsinfoLoaded := .loaded
  fsp := { bsize := 4096, blocks := 1000000, bavail := 1000000, readOnly := false }

theorem addDownloads_iff_two :
    Fits cachePartition [1, 5000] ∧
      (∀ size ∈ [1, 5000], IsLeast {n : ℕ | (size : ℤ) ≤ n * cachePartition.fsp.bsize}
        (fileBlocks size cachePartition.fsp.bsize)) ∧
      ((addDownloads cachePartition [1, 5000]).maxBlocksNeeded - cachePartition.maxBlocksNeeded =
          (([1, 5000].map fun size => fileBlocks size cachePartition.fsp.bsize).sum : ℕ) ↔
        ∀ size ∈ [1, 5000], ¬ (cachePartition.fsp.bsize : ℤ) ∣ size ∧
          ¬ (cachePartition.fsp.bsize : ℤ) ∣ size + 1) := by
  have hfits : Fits cachePartition [1, 5000] := {
    bsize_pos := by decide
    size_nonneg := by decide
    size_lt := by decide
    max_nonneg := by decide
    sum_lt := by decide +kernel }
  exact ⟨hfits, addDownloads_iff hfits⟩

/-- A file of one block is charged two. -/
theorem addDownloads_oneBlock :
    (addDownloads cachePartition [4096]).maxBlocksNeeded - cachePartition.maxBlocksNeeded ≠
      (([4096].map fun size => fileBlocks size cachePartition.fsp.bsize).sum : ℕ) := by
  decide +kernel

end Alpm.Diskspace
