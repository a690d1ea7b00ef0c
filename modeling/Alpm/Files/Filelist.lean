import Alpm.Files.FileSystem
import Alpm.ListDiff
import Alpm.Package

/-!
# File lists

`filelist.c`.  The file list of a package is sorted by `strcmp`, and a path of a directory ends in a
slash.

`_alpm_filelist_difference` walks two lists in parallel by `strcmp` and drops an entry of the left
list for each entry of the right one that is equal to it.  For lists without repetitions that is the
difference of sets, and `filelistDifference_iff` says exactly when the result is the new files in
their order: when no path that both lists have is repeated more often on the left.  An archive may
repeat a path, and then an installed file is taken for a new one (`filelistDifference_repeated`).

`_alpm_filelist_intersection` walks two lists in parallel with an order of its own, in which a
trailing slash does not count and bytes from `128` on are negative, as plain `char` is signed.  Only
its definition is here; when it finds every clash of two packages is the subject of
`Alpm.Files.Intersection`.
-/

namespace Alpm

/-- `alpm_filelist_contains`: a binary search in a sorted list. -/
def filelistContains (filelist : List CString) (path : CString) : Bool := path ∈ filelist

/-- `_alpm_filelist_difference`: a walk over two lists that drops from the first what it meets in
the second. -/
def filelistDifference : List CString → List CString → List CString
  | [], _ => []
  | filesA, [] => filesA
  | strA :: filesA, strB :: filesB =>
    let cmp := strcmp strA strB
    if cmp < 0 then strA :: filelistDifference filesA (strB :: filesB)
    else if cmp > 0 then filelistDifference (strA :: filesA) filesB
    else filelistDifference filesA filesB
  termination_by filesA filesB => filesA.length + filesB.length

/-- The end of `_alpm_filelist_pathcmp`, where the paths differ or one has ended. -/
def pathcmpRest (p1 p2 : CString) : Int :=
  match p1, p2 with
  | [], '/' :: p2 => signedChar (deref []) - signedChar (deref p2)
  | '/' :: p1, [] => signedChar (deref p1) - signedChar (deref [])
  | p1, p2 => signedChar (deref p1) - signedChar (deref p2)

/-- `_alpm_filelist_pathcmp`. -/
def filelistPathcmp : CString → CString → Int
  | a :: p1, b :: p2 => if a = b then filelistPathcmp p1 p2 else pathcmpRest (a :: p1) (b :: p2)
  | p1, p2 => pathcmpRest p1 p2

/-- `_alpm_filelist_intersection`: a walk over two lists in the order of `_alpm_filelist_pathcmp`.
Two directories of one path are no intersection. -/
def filelistIntersection : List CString → List CString → List CString
  | [], _ => []
  | _, [] => []
  | strA :: filesA, strB :: filesB =>
    let cmp := filelistPathcmp strA strB
    if cmp < 0 then filelistIntersection filesA (strB :: filesB)
    else if cmp > 0 then filelistIntersection (strA :: filesA) filesB
    -- when not directories, item in both qualifies as an intersect
    else if !hasSlash strA || !hasSlash strB then strA :: filelistIntersection filesA filesB
    else filelistIntersection filesA filesB
  termination_by filesA filesB => filesA.length + filesB.length

@[simp] theorem filelistContains_iff {filelist : List CString} {path : CString} :
    filelistContains filelist path ↔ path ∈ filelist :=
  decide_eq_true_iff

theorem strcmp_comparesBy : ComparesBy strcmp (id : CString → CString) where
  lt _ _ := strcmp_lt_zero
  gt _ _ := strcmp_gt_zero

theorem filelistDifference_eq (filesA filesB : List CString) :
    filelistDifference filesA filesB = (listDiffSorted strcmp filesA filesB).1 := by
  fun_induction filelistDifference filesA filesB with
  | case1 filesB => rw [listDiffSorted]
  | case2 filesA hne =>
    rw [listDiffSorted]
    exact hne
  | case3 strA filesA strB filesB cmp h ih =>
    rw [listDiffSorted, if_pos h, ih]
  | case4 strA filesA strB filesB cmp h h' ih =>
    rw [listDiffSorted, if_neg h, if_pos h', ih]
  | case5 strA filesA strB filesB cmp h h' ih =>
    rw [listDiffSorted, if_neg h, if_neg h', ih]

/-- **The difference** of two sorted lists without repetitions is what is only in the first. -/
theorem mem_filelistDifference {filesA filesB : List CString}
    (hA : filesA.Pairwise (· < ·)) (hB : filesB.Pairwise (· < ·)) {path : CString} :
    path ∈ filelistDifference filesA filesB ↔ path ∈ filesA ∧ path ∉ filesB := by
  rw [filelistDifference_eq, listDiffSorted_fst strcmp_comparesBy hA (hB.imp le_of_lt),
    List.mem_filter]
  simp

/-- **The new files.**  Of two sorted lists the difference holds, in order, what does not occur in
the second list, if and only if no file of it is repeated more often in the first.  It is the walk
of `alpm_list_diff` on lists that are sorted already, and the condition is the one of
`Alpm.ListDiff`. -/
theorem filelistDifference_iff {filesA filesB : List CString} (hA : IsSorted strcmp filesA)
    (hB : IsSorted strcmp filesB) :
    filelistDifference filesA filesB = filesA.filter (· ∉ filesB) ↔
      ∀ file ∈ filesB, filesA.count file ≤ filesB.count file := by
  have honly : onlyIn strcmp filesA filesB = filesA.filter (· ∉ filesB) := by
    refine List.filter_congr fun a _ => ?_
    rw [decide_eq_decide]
    constructor
    · intro hne ha
      exact hne a ha (strcmp_eq_zero.mpr rfl)
    · intro ha b hb hcmp
      exact ha (strcmp_eq_zero.mp hcmp ▸ hb)
  have hcount : ∀ (files : List CString) file,
      occurrences strcmp files file = files.count file := by
    intro files file
    rw [occurrences, List.count_eq_countP]
    refine List.countP_congr fun a _ => ?_
    simp
  rw [filelistDifference_eq, ← honly,
    listDiffSorted_eq_iff strcmp_comparesBy.isComparison hA hB]
  simp only [hcount]

theorem filelistDifference_iff_usr :
    IsSorted strcmp [str "usr/", str "usr/bin/", str "usr/bin/ls"] ∧
      IsSorted strcmp [str "usr/", str "usr/bin/"] ∧
        (filelistDifference [str "usr/", str "usr/bin/", str "usr/bin/ls"]
            [str "usr/", str "usr/bin/"] =
            [str "usr/", str "usr/bin/", str "usr/bin/ls"].filter
              (· ∉ [str "usr/", str "usr/bin/"]) ↔
          ∀ file ∈ [str "usr/", str "usr/bin/"],
            [str "usr/", str "usr/bin/", str "usr/bin/ls"].count file ≤
              [str "usr/", str "usr/bin/"].count file) := by
  have hA : IsSorted strcmp [str "usr/", str "usr/bin/", str "usr/bin/ls"] := by
    unfold IsSorted
    decide +kernel
  have hB : IsSorted strcmp [str "usr/", str "usr/bin/"] := by
    unfold IsSorted
    decide +kernel
  exact ⟨hA, hB, filelistDifference_iff hA hB⟩

/-- An installed file that the archive repeats is a new file. -/
theorem filelistDifference_repeated :
    filelistDifference [str "usr/", str "usr/"] [str "usr/"] ≠
      [str "usr/", str "usr/"].filter (· ∉ [str "usr/"]) := by
  decide +kernel

end Alpm
