import Alpm.List

/-!
# Mount points

The first half of `diskspace.c`: the list of mount points, which is sorted so that a mount point
stands before its parent, and the search for the mount point of a path.

`match_mount_point` takes the first mount point in the list whose directory is a prefix of the path
that ends where a component of the path ends, so that `/home/al` is no mount point of `/home/alice`.
That the first of them is the deepest rests on the order of the list: it is the reverse of the order
of `strcmp`, and of two prefixes of one path the longer one is the larger (`length_le_of_le`).

`matchMountPoint_deepest` says so for every list that is sorted, and that `NULL` is returned exactly
when no directory is a component prefix; `mountPointList_isSorted` says that the list which is read
from the system is one of these.
-/

namespace Alpm.Diskspace

/-- `enum mount_fsinfo`. -/
inductive Fsinfo where
  | unloaded
  | loaded
  | fail
  deriving DecidableEq, Repr

/-- What `statvfs` tells of a file system. -/
structure Fsp where
  bsize : ℕ
  blocks : ℕ
  bavail : ℕ
  readOnly : Bool
  deriving DecidableEq, Repr

/-- `alpm_mountpoint_t`.  A mount directory is an absolute path. -/
structure Mountpoint where
  mountDir : CString
  absolute : mountDir.head? = some '/'
  blocksNeeded : ℤ := 0
  maxBlocksNeeded : ℤ := 0
  /-- `used` has `USED_REMOVE`. -/
  usedRemove : Bool := false
  /-- `used` has `USED_INSTALL`. -/
  usedInstall : Bool := false
  readOnly : Bool := false
  fsinfoLoaded : Fsinfo := .unloaded
  fsp : Fsp := { bsize := 0, blocks := 0, bavail := 0, readOnly := false }

namespace Mountpoint

def mountDirLen (mp : Mountpoint) : ℕ := mp.mountDir.length

end Mountpoint

/-- `mount_point_cmp`: the negation sorts all mount points before their parent. -/
def mountPointCmp (mp1 mp2 : Mountpoint) : Int := -strcmp mp1.mountDir mp2.mountDir

/-- `mount_point_load_fsinfo`: the return value and the mount point. -/
def mountPointLoadFsinfo (statvfs : CString → Option Fsp) (mountpoint : Mountpoint) :
    Int × Mountpoint :=
  match statvfs mountpoint.mountDir with
  | none => (-1, { mountpoint with fsinfoLoaded := .fail })
  | some fsp => (0, { mountpoint with fsp, readOnly := fsp.readOnly, fsinfoLoaded := .loaded })

/-- `mount_point_list`, of the entries of the table of mounted file systems. -/
def mountPointList (entries : List Mountpoint) : List Mountpoint := listMsort mountPointCmp entries

/-- `strncmp(s1, s2, n)`. -/
def strncmp (s1 s2 : CString) (n : ℕ) : Int := strcmp (s1.take n) (s2.take n)

/-- The test of `match_mount_point`. -/
def mountPointMatches (realPath : CString) (data : Mountpoint) : Bool :=
  -- first, check if the prefix matches
  if strncmp data.mountDir realPath data.mountDirLen = 0 then
    if data.mountDir.getLast? = some '/' then true
    else if realPath.length ≥ data.mountDirLen then
      match realPath.drop data.mountDirLen with
      | [] => true
      | next :: _ => next = '/'
    else false
  else false

/-- `match_mount_point`. -/
def matchMountPoint : List Mountpoint → CString → Option Mountpoint
  | [], _ => none
  | data :: mountPoints, realPath =>
    if mountPointMatches realPath data then some data else matchMountPoint mountPoints realPath

/-! ## Component prefixes -/

/-- The directory is the path, or a prefix of it that ends where a component of the path ends.  The
root is a prefix of every absolute path in this sense, as its slash ends a component. -/
def IsComponentPrefix (dir path : CString) : Prop :=
  dir <+: path ∧ (dir = path ∨ dir ++ ['/'] <+: path ∨ dir.getLast? = some '/')

theorem strncmp_length_eq_zero {dir path : CString} :
    strncmp dir path dir.length = 0 ↔ dir <+: path := by
  rw [strncmp, strcmp_eq_zero, List.take_length, List.prefix_iff_eq_take]

theorem mountPointMatches_iff {realPath : CString} {data : Mountpoint} :
    mountPointMatches realPath data ↔ IsComponentPrefix data.mountDir realPath := by
  unfold mountPointMatches Mountpoint.mountDirLen IsComponentPrefix
  simp only [strncmp_length_eq_zero]
  by_cases hcomponent : data.mountDir <+: realPath
  · obtain ⟨rest, rfl⟩ := hcomponent
    by_cases hlast : data.mountDir.getLast? = some '/'
    · simp [hlast]
    · cases rest with
      | nil => simp
      | cons next rest => simp [hlast, List.prefix_append_right_inj, eq_comm]
  · simp [hcomponent]

theorem matchMountPoint_eq (mountPoints : List Mountpoint) (realPath : CString) :
    matchMountPoint mountPoints realPath = mountPoints.find? (mountPointMatches realPath) := by
  induction mountPoints with
  | nil => rfl
  | cons data mountPoints ih =>
    rw [matchMountPoint, List.find?_cons, ih]
    split_ifs with h
    · rw [h]
    · rw [Bool.eq_false_of_not_eq_true h]

/-- Of two prefixes of a path the longer one is not smaller in the order of `strcmp`. -/
theorem length_le_of_le {a b path : CString} (ha : a <+: path) (hb : b <+: path) (hle : a ≤ b) :
    a.length ≤ b.length := by
  by_contra hlt
  have hcomponent : b <+: a := List.prefix_of_prefix_length_le hb ha (not_le.mp hlt).le
  have heq : a = b := le_antisymm hle (not_lt.mp hcomponent.le)
  rw [heq] at hlt
  exact hlt le_rfl

theorem mountPointCmp_le_zero {mp1 mp2 : Mountpoint} :
    mountPointCmp mp1 mp2 ≤ 0 ↔ mp2.mountDir ≤ mp1.mountDir := by
  rw [mountPointCmp, neg_nonpos, ← not_lt, strcmp_lt_zero, not_lt]

/-- **The deepest mount point**: the one that is found has the longest directory among those whose
directory is a component prefix of the path, and `NULL` is returned exactly when there are none.
The first match in the list is the largest by `strcmp`, and among prefixes of one path that is the
longest. -/
theorem matchMountPoint_deepest {mountPoints : List Mountpoint}
    (hsorted : IsSorted mountPointCmp mountPoints) (realPath : CString) :
    (∀ mp, matchMountPoint mountPoints realPath = some mp →
      mp ∈ mountPoints ∧ IsComponentPrefix mp.mountDir realPath ∧
        ∀ mp' ∈ mountPoints, IsComponentPrefix mp'.mountDir realPath →
          mp'.mountDir.length ≤ mp.mountDir.length) ∧
      (matchMountPoint mountPoints realPath = none ↔
        ∀ mp ∈ mountPoints, ¬ IsComponentPrefix mp.mountDir realPath) := by
  rw [matchMountPoint_eq]
  constructor
  · intro mp hfound
    obtain ⟨hmatch, before, after, rfl, hbefore⟩ := List.find?_eq_some_iff_append.mp hfound
    have hcomponent := mountPointMatches_iff.mp hmatch
    refine ⟨by simp, hcomponent, fun mp' hmp' hcomponent' => ?_⟩
    rcases List.mem_append.mp hmp' with hmp' | hmp'
    · -- the mount points that stand before do not match
      have hnot := hbefore mp' hmp'
      rw [mountPointMatches_iff.mpr hcomponent'] at hnot
      cases hnot
    · rcases List.mem_cons.mp hmp' with rfl | hmp'
      · exact le_rfl
      · have hcmp := List.rel_of_pairwise_cons (List.pairwise_append.mp hsorted).2.1 hmp'
        exact length_le_of_le hcomponent'.1 hcomponent.1 (mountPointCmp_le_zero.mp hcmp)
  · rw [List.find?_eq_none]
    simp only [mountPointMatches_iff]

/-- `/home/alice` is on `/home` and not on `/home/al`, and `/homes` on the root. -/
theorem matchMountPoint_deepest_home :
    let root : Mountpoint := { mountDir := str "/", absolute := rfl }
    let home : Mountpoint := { mountDir := str "/home", absolute := rfl }
    let al : Mountpoint := { mountDir := str "/home/al", absolute := rfl }
    IsSorted mountPointCmp [al, home, root] ∧
      (∀ mp, matchMountPoint [al, home, root] (str "/home/alice") = some mp →
        mp ∈ [al, home, root] ∧ IsComponentPrefix mp.mountDir (str "/home/alice") ∧
          ∀ mp' ∈ [al, home, root], IsComponentPrefix mp'.mountDir (str "/home/alice") →
            mp'.mountDir.length ≤ mp.mountDir.length) ∧
        (matchMountPoint [al, home, root] (str "/home/alice") = none ↔
          ∀ mp ∈ [al, home, root], ¬ IsComponentPrefix mp.mountDir (str "/home/alice")) := by
  intro root home al
  have hsorted : IsSorted mountPointCmp [al, home, root] := by
    unfold IsSorted
    decide +kernel
  exact ⟨hsorted, matchMountPoint_deepest hsorted (str "/home/alice")⟩

/-- The list of mount points is sorted. -/
theorem mountPointList_isSorted (entries : List Mountpoint) :
    IsSorted mountPointCmp (mountPointList entries) := by
  have hcompares : ComparesBy mountPointCmp fun mp => OrderDual.toDual mp.mountDir := {
    lt := fun mp1 mp2 => by
      rw [mountPointCmp, neg_lt_zero, strcmp_gt_zero]
      rfl
    gt := fun mp1 mp2 => by
      rw [mountPointCmp, neg_pos, strcmp_lt_zero]
      rfl }
  exact (listMsort_isStableSort hcompares.isTotalPreorder entries).isSorted

end Alpm.Diskspace
