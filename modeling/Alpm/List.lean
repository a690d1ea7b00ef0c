import Alpm.CString

/-!
# The contents of an `alpm_list_t`

`alpm_list.c` on the sequence of data pointers of a list.  Adding is `++ [data]`, joining is `++`,
and the loops that look for an element are those of `List`; what is modelled here is the merge sort
and the operations built on it, which later parts use with `_alpm_pkg_cmp`.  How the sequence is
kept in linked nodes, and that the sort on the nodes is this one, is the subject of `Alpm.ListHeap`
and `Alpm.ListRun`.

## 1.  Sorting

`alpm_list_msort` cuts a list in two halves by their lengths and merges the sorted halves; where two
elements are equal the left one goes first.  So the sort is stable, for every comparison that is a
total preorder (`listMsort_isStableSort`), and nothing is assumed about the comparison before that
statement: on a comparison that is no order the function is still what the code computes.

## 2.  Differences

`alpm_list_diff` sorts both lists and walks them in parallel.  On a left list without two elements
of one key this is a filter (`listDiff_eq_filter`), which is how the dependency graph uses it.  An
element that occurs twice on the left is dropped only once for each occurrence on the right;
`Alpm.ListDiff` has the exact condition.
-/

namespace Alpm

variable {α : Type*}

/-- `alpm_list_mmerge`: the left element goes first when it is not larger. -/
def listMmerge (fn : α → α → Int) : List α → List α → List α
  | [], right => right
  | left, [] => left
  | l :: left, r :: right =>
    if fn l r ≤ 0 then l :: listMmerge fn left (r :: right)
    else r :: listMmerge fn (l :: left) right
  termination_by left right => left.length + right.length

/-- `alpm_list_msort` with `n` the length of the list: the two halves are sorted and merged. -/
def listMsort (fn : α → α → Int) (list : List α) : List α :=
  if list.length > 1 then
    let half := list.length / 2
    listMmerge fn (listMsort fn (list.take half)) (listMsort fn (list.drop half))
  else list
termination_by list.length
decreasing_by
  · rw [List.length_take]
    omega
  · rw [List.length_drop]
    omega

/-- `alpm_list_diff_sorted`: the elements only on the left and those only on the right.  Two
elements that compare equal are dropped together. -/
def listDiffSorted (fn : α → α → Int) : List α → List α → List α × List α
  | [], right => ([], right)
  | left, [] => (left, [])
  | l :: left, r :: right =>
    let cmp := fn l r
    if cmp < 0 then
      let (onlyleft, onlyright) := listDiffSorted fn left (r :: right)
      (l :: onlyleft, onlyright)
    else if cmp > 0 then
      let (onlyleft, onlyright) := listDiffSorted fn (l :: left) right
      (onlyleft, r :: onlyright)
    else listDiffSorted fn left right
  termination_by left right => left.length + right.length

/-- `alpm_list_diff`. -/
def listDiff (fn : α → α → Int) (lhs rhs : List α) : List α :=
  (listDiffSorted fn (listMsort fn lhs) (listMsort fn rhs)).1

/-- `alpm_list_remove`: take out the first element that compares equal to `needle`. -/
def listRemove (fn : α → α → Int) (haystack : List α) (needle : α) : List α :=
  haystack.eraseP fun data => fn data needle = 0

/-! ## Sorting -/

theorem listMmerge_eq_merge (fn : α → α → Int) (left right : List α) :
    listMmerge fn left right = List.merge left right fun a b => fn a b ≤ 0 := by
  fun_induction listMmerge fn left right with
  | case1 right => rw [List.nil_merge]
  | case2 left => rw [List.merge_right]
  | case3 l left r right h ih => rw [ih, List.cons_merge_cons_pos _ _ _ (decide_eq_true h)]
  | case4 l left r right h ih => rw [ih, List.cons_merge_cons_neg _ _ _ (by simpa using h)]

theorem listMmerge_perm (fn : α → α → Int) (left right : List α) :
    (listMmerge fn left right).Perm (left ++ right) := by
  rw [listMmerge_eq_merge]
  exact List.merge_perm_append _

theorem listMsort_perm (fn : α → α → Int) (list : List α) : (listMsort fn list).Perm list := by
  fun_induction listMsort fn list with
  | case1 list h half ih₁ ih₂ =>
    calc
      (listMmerge fn _ _).Perm _ := listMmerge_perm ..
      _ |>.Perm (list.take half ++ list.drop half) := ih₁.append ih₂
      _ |>.Perm list := by rw [List.take_append_drop]
  | case2 list h => exact List.Perm.refl _

/-- Elements that are compared through `f`. -/
theorem map_listMmerge {β : Type*} (f : α → β) (fn : β → β → Int) (left right : List α) :
    (listMmerge (fun a b => fn (f a) (f b)) left right).map f =
      listMmerge fn (left.map f) (right.map f) := by
  fun_induction listMmerge (fun a b => fn (f a) (f b)) left right with
  | case1 right => rw [List.map_nil, listMmerge]
  | case2 left => cases left <;> simp [listMmerge]
  | case3 l left r right h ih =>
    rw [List.map_cons, List.map_cons, List.map_cons, listMmerge, if_pos h, ih, List.map_cons]
  | case4 l left r right h ih =>
    rw [List.map_cons, List.map_cons, List.map_cons, listMmerge, if_neg h, ih, List.map_cons]

theorem map_listMsort {β : Type*} (f : α → β) (fn : β → β → Int) (list : List α) :
    (listMsort (fun a b => fn (f a) (f b)) list).map f = listMsort fn (list.map f) := by
  fun_induction listMsort (fun a b => fn (f a) (f b)) list with
  | case1 list h half ih₁ ih₂ =>
    rw [map_listMmerge, ih₁, ih₂]
    conv_rhs => rw [listMsort, List.length_map, if_pos h]
    rw [List.map_take, List.map_drop]
  | case2 list h => rw [listMsort, List.length_map, if_neg h]

/-! ## Stability -/

section Stable

variable {fn : α → α → Int}

/-- `fn a b ≤ 0` is a total preorder. -/
structure IsTotalPreorder (fn : α → α → Int) : Prop where
  trans : ∀ {a b c}, fn a b ≤ 0 → fn b c ≤ 0 → fn a c ≤ 0
  total : ∀ a b, fn a b ≤ 0 ∨ fn b a ≤ 0

/-- The list is sorted. -/
def IsSorted (fn : α → α → Int) (list : List α) : Prop := list.Pairwise fun a b => fn a b ≤ 0

/-- The elements are equivalent in the order. -/
def isEquiv (fn : α → α → Int) (a b : α) : Bool := fn a b ≤ 0 ∧ fn b a ≤ 0

/-- `sorted` is `list` sorted, and equivalent elements keep their order: for each class of
equivalent elements the two lists have the same elements of the class in the same order. -/
structure IsStableSort (fn : α → α → Int) (list sorted : List α) : Prop where
  perm : sorted.Perm list
  isSorted : IsSorted fn sorted
  stable : ∀ a, sorted.filter (isEquiv fn a) = list.filter (isEquiv fn a)

theorem listMmerge_isSorted (hfn : IsTotalPreorder fn) {left right : List α}
    (hleft : IsSorted fn left) (hright : IsSorted fn right) :
    IsSorted fn (listMmerge fn left right) := by
  have := @List.pairwise_merge _ (fun a b => decide (fn a b ≤ 0))
    (fun a b c => by simpa only [decide_eq_true_eq] using hfn.trans)
    (fun a b => by simpa only [Bool.or_eq_true, decide_eq_true_eq] using hfn.total a b)
    left right
    (by simpa only [decide_eq_true_eq, IsSorted] using hleft)
    (by simpa only [decide_eq_true_eq, IsSorted] using hright)
  simpa only [listMmerge_eq_merge, decide_eq_true_eq, IsSorted] using this

/-- Of equivalent elements those on the left come first. -/
theorem filter_listMmerge (hfn : IsTotalPreorder fn) {left right : List α}
    (hleft : IsSorted fn left) (hright : IsSorted fn right) (a : α) :
    (listMmerge fn left right).filter (isEquiv fn a) =
      left.filter (isEquiv fn a) ++ right.filter (isEquiv fn a) := by
  fun_induction listMmerge fn left right with
  | case1 right => simp
  | case2 left => simp
  | case3 l left r right h ih =>
    rw [List.filter_cons, ih (List.Pairwise.of_cons hleft) hright, List.filter_cons (x := l)]
    split_ifs <;> rfl
  | case4 l left r right h ih =>
    rw [List.filter_cons, ih hleft (List.Pairwise.of_cons hright), List.filter_cons (x := r)]
    split_ifs with hr
    · -- nothing on the left is equivalent to an element smaller than its head
      have hnone : (l :: left).filter (isEquiv fn a) = [] := by
        rw [List.filter_eq_nil_iff]
        intro x hx hequiv
        have hlx : fn l x ≤ 0 := by
          rcases List.mem_cons.mp hx with rfl | hx
          · exact (hfn.total x x).elim id id
          · exact List.rel_of_pairwise_cons hleft hx
        simp only [isEquiv, decide_eq_true_eq] at hr hequiv
        exact h (hfn.trans hlx (hfn.trans hequiv.2 hr.1))
      rw [hnone]
      rfl
    · rfl

/-- **Merging two sorted lists is stable.**  Of two equal heads the left one goes first, and all
elements of the left list come before those of the right one in what is merged. -/
theorem listMmerge_isStableSort (hfn : IsTotalPreorder fn) {left right : List α}
    (hleft : IsSorted fn left) (hright : IsSorted fn right) :
    IsStableSort fn (left ++ right) (listMmerge fn left right) where
  perm := listMmerge_perm ..
  isSorted := listMmerge_isSorted hfn hleft hright
  stable a := by rw [filter_listMmerge hfn hleft hright, List.filter_append]

/-- **`alpm_list_msort` is a stable sort** for every total preorder.  The halves are a front and a
back of the list, so a merge that prefers the left one keeps the order of equal elements. -/
theorem listMsort_isStableSort (hfn : IsTotalPreorder fn) (list : List α) :
    IsStableSort fn list (listMsort fn list) := by
  fun_induction listMsort fn list with
  | case1 list h half ih₁ ih₂ =>
    have hmerge := listMmerge_isStableSort hfn ih₁.isSorted ih₂.isSorted
    refine ⟨?_, hmerge.isSorted, fun a => ?_⟩
    · calc
        (listMmerge fn _ _).Perm _ := hmerge.perm
        _ |>.Perm (list.take half ++ list.drop half) := ih₁.perm.append ih₂.perm
        _ |>.Perm list := by rw [List.take_append_drop]
    · rw [hmerge.stable, List.filter_append, ih₁.stable, ih₂.stable, ← List.filter_append,
        List.take_append_drop]
  | case2 list h =>
    refine ⟨List.Perm.refl _, ?_, fun a => rfl⟩
    match list, h with
    | [], _ => exact List.Pairwise.nil
    | [a], _ => exact List.pairwise_singleton _ _
    | a :: b :: l, h => simp at h

end Stable

section Key

variable {κ : Type*} [LinearOrder κ] {fn : α → α → Int} {key : α → κ}

/-- `fn` compares the keys of its arguments. -/
structure ComparesBy (fn : α → α → Int) (key : α → κ) : Prop where
  lt : ∀ a b, fn a b < 0 ↔ key a < key b
  gt : ∀ a b, 0 < fn a b ↔ key b < key a

namespace ComparesBy

theorem le (hfn : ComparesBy fn key) (a b : α) : fn a b ≤ 0 ↔ key a ≤ key b := by
  rw [← not_lt, hfn.gt, not_lt]

theorem eq (hfn : ComparesBy fn key) (a b : α) : fn a b = 0 ↔ key a = key b := by
  have hlt := hfn.lt a b
  have hgt := hfn.gt a b
  constructor
  · intro h
    exact le_antisymm ((hfn.le a b).mp h.le) (not_lt.mp (hlt.not.mp (by omega)))
  · intro h
    rw [h] at hlt hgt
    simp only [lt_irrefl, iff_false, not_lt] at hlt hgt
    omega

end ComparesBy

theorem ComparesBy.isTotalPreorder (hfn : ComparesBy fn key) : IsTotalPreorder fn where
  trans hab hbc := (hfn.le _ _).mpr (((hfn.le _ _).mp hab).trans ((hfn.le _ _).mp hbc))
  total a b := (le_total (key a) (key b)).imp (hfn.le a b).mpr (hfn.le b a).mpr

theorem listMsort_sorted (hfn : ComparesBy fn key) (list : List α) :
    (listMsort fn list).Pairwise fun a b => key a ≤ key b :=
  (listMsort_isStableSort hfn.isTotalPreorder list).isSorted.imp fun h => (hfn.le _ _).mp h

/-! ## Differences -/

/-- Walking two sorted lists in parallel keeps what has no partner of the same key. -/
theorem listDiffSorted_fst (hfn : ComparesBy fn key) {left right : List α}
    (hleft : left.Pairwise fun a b => key a < key b)
    (hright : right.Pairwise fun a b => key a ≤ key b) :
    (listDiffSorted fn left right).1 = left.filter (key · ∉ right.map key) := by
  fun_induction listDiffSorted fn left right with
  | case1 => rfl
  | case2 left => simp
  | case3 l left r right cmp hcmp onlyleft onlyright heq ih =>
    have hlt : key l < key r := (hfn.lt l r).mp hcmp
    have hl : key l ∉ (r :: right).map key := by
      simp only [List.map_cons, List.mem_cons, List.mem_map, not_or, not_exists, not_and]
      exact ⟨hlt.ne, fun b hb => (hlt.trans_le (List.rel_of_pairwise_cons hright hb)).ne'⟩
    rw [List.filter_cons_of_pos (by simpa using hl), ← ih (List.Pairwise.of_cons hleft) hright,
      heq]
  | case4 l left r right cmp hcmp hcmp' onlyleft onlyright heq ih =>
    have hgt : key r < key l := (hfn.gt l r).mp hcmp'
    rw [← congrArg Prod.fst heq, ih hleft (List.Pairwise.of_cons hright)]
    refine List.filter_congr fun a ha => ?_
    have har : key r < key a := by
      rcases List.mem_cons.mp ha with rfl | ha
      · exact hgt
      · exact hgt.trans (List.rel_of_pairwise_cons hleft ha)
    simp [har.ne']
  | case5 l left r right cmp hcmp hcmp' ih =>
    have heq : key l = key r := (hfn.eq l r).mp (by omega)
    rw [ih (List.Pairwise.of_cons hleft) (List.Pairwise.of_cons hright)]
    rw [List.filter_cons_of_neg (by simp [heq])]
    refine List.filter_congr fun a ha => ?_
    have har : key r < key a := heq ▸ List.rel_of_pairwise_cons hleft ha
    simp [har.ne']

/-- On a left list with distinct keys `alpm_list_diff` is a filter of the sorted list. -/
theorem listDiff_eq_filter (hfn : ComparesBy fn key) {lhs : List α} (rhs : List α)
    (hlhs : (lhs.map key).Nodup) :
    listDiff fn lhs rhs = (listMsort fn lhs).filter (key · ∉ rhs.map key) := by
  have hnodup : ((listMsort fn lhs).map key).Nodup :=
    (((listMsort_perm fn lhs).map key).nodup_iff).mpr hlhs
  have hstrict : (listMsort fn lhs).Pairwise fun a b => key a < key b :=
    ((listMsort_sorted hfn lhs).and (List.pairwise_map.mp hnodup)).imp
      fun h => lt_of_le_of_ne h.1 h.2
  rw [listDiff, listDiffSorted_fst hfn hstrict (listMsort_sorted hfn rhs)]
  refine List.filter_congr fun a _ => ?_
  simp only [((listMsort_perm fn rhs).map key).mem_iff]

theorem listDiff_perm (hfn : ComparesBy fn key) {lhs : List α} (rhs : List α)
    (hlhs : (lhs.map key).Nodup) :
    (listDiff fn lhs rhs).Perm (lhs.filter (key · ∉ rhs.map key)) := by
  rw [listDiff_eq_filter hfn rhs hlhs]
  exact (listMsort_perm fn lhs).filter _

theorem mem_listDiff (hfn : ComparesBy fn key) {lhs rhs : List α} (hlhs : (lhs.map key).Nodup)
    {a : α} : a ∈ listDiff fn lhs rhs ↔ a ∈ lhs ∧ key a ∉ rhs.map key := by
  rw [(listDiff_perm hfn rhs hlhs).mem_iff, List.mem_filter]
  simp

/-! ## Removing -/

theorem mem_listRemove (hfn : ComparesBy fn key) {haystack : List α} {needle a : α}
    (hnodup : (haystack.map key).Nodup) :
    a ∈ listRemove fn haystack needle ↔ a ∈ haystack ∧ key a ≠ key needle := by
  unfold listRemove
  induction haystack with
  | nil => simp
  | cons b l ih =>
    rw [List.map_cons, List.nodup_cons] at hnodup
    by_cases h : fn b needle = 0
    · have hb : key b = key needle := (hfn.eq _ _).mp h
      rw [List.eraseP_cons_of_pos (by simpa using h), List.mem_cons]
      constructor
      · intro ha
        exact ⟨Or.inr ha, fun heq => hnodup.1 (List.mem_map.mpr ⟨a, ha, heq.trans hb.symm⟩)⟩
      · rintro ⟨rfl | ha, hne⟩
        · exact absurd hb hne
        · exact ha
    · have hb : key b ≠ key needle := fun heq => h ((hfn.eq _ _).mpr heq)
      rw [List.eraseP_cons_of_neg (by simpa using h), List.mem_cons, List.mem_cons,
        ih hnodup.2]
      constructor
      · rintro (rfl | ⟨ha, hne⟩)
        · exact ⟨Or.inl rfl, hb⟩
        · exact ⟨Or.inr ha, hne⟩
      · rintro ⟨rfl | ha, hne⟩
        · exact Or.inl rfl
        · exact Or.inr ⟨ha, hne⟩

/-- Removing several elements, one after the other. -/
theorem mem_foldl_listRemove (hfn : ComparesBy fn key) {haystack needles : List α} {a : α}
    (hnodup : (haystack.map key).Nodup) :
    a ∈ needles.foldl (listRemove fn) haystack ↔ a ∈ haystack ∧ key a ∉ needles.map key := by
  induction needles generalizing haystack with
  | nil => simp
  | cons needle needles ih =>
    have hsub : ((listRemove fn haystack needle).map key).Nodup :=
      hnodup.sublist (List.eraseP_sublist.map key)
    rw [List.foldl_cons, ih hsub, mem_listRemove hfn hnodup, List.map_cons, List.mem_cons,
      not_or, and_assoc]

theorem length_listRemove_lt {fn : α → α → Int} {haystack : List α} {needle : α}
    (h : ∃ a ∈ haystack, fn a needle = 0) :
    (listRemove fn haystack needle).length < haystack.length := by
  obtain ⟨a, ha, hcmp⟩ := h
  have hpos := List.length_pos_of_mem ha
  rw [listRemove, List.length_eraseP_of_mem ha (by simpa using hcmp)]
  omega

theorem listRemove_sublist (fn : α → α → Int) (haystack : List α) (needle : α) :
    (listRemove fn haystack needle).Sublist haystack :=
  List.eraseP_sublist

end Key

end Alpm
