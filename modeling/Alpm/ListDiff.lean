import Alpm.List

/-!
# Differences of lists with repetitions

`alpm_list_diff` for any comparison function and any lists.  The documentation speaks of all items
in the left list that are not present in the right one.

The walk over the two sorted lists drops an element on the left together with one that compares
equal on the right.  So of the elements that compare equal to one another it drops as many on the
left as there are on the right (`occurrences_listDiffSorted`), and it finds the difference only when
no element of the right list is repeated more often on the left (`listDiff_iff`).

The condition is on the multiplicities in the two lists as they are passed, and not on the sorted
ones.  Nothing but a total preorder is assumed of the comparison (`IsComparison`): elements that
compare equal may differ, as packages of one name do, and the result has those of the left list.
-/

namespace Alpm

variable {α : Type*} {fn : α → α → Int} {left right : List α}

/-- `fn` is a comparison function of a total preorder. -/
structure IsComparison (fn : α → α → Int) : Prop where
  swap : ∀ a b, fn a b ≤ 0 ↔ 0 ≤ fn b a
  trans : ∀ {a b c}, fn a b ≤ 0 → fn b c ≤ 0 → fn a c ≤ 0

namespace IsComparison

theorem isTotalPreorder (hfn : IsComparison fn) : IsTotalPreorder fn where
  trans := hfn.trans
  total a b := (le_total (fn a b) 0).imp id (hfn.swap b a).mpr

theorem eq_comm (hfn : IsComparison fn) {a b : α} : fn a b = 0 ↔ fn b a = 0 := by
  have hab := hfn.swap a b
  have hba := hfn.swap b a
  omega

theorem lt_of_lt_of_le (hfn : IsComparison fn) {a b c : α} (hab : fn a b < 0)
    (hbc : fn b c ≤ 0) : fn a c < 0 := by
  have hle := hfn.trans hab.le hbc
  refine lt_of_le_of_ne hle fun heq => ?_
  have hba : fn b a ≤ 0 := hfn.trans hbc (hfn.eq_comm.mp heq).le
  exact absurd ((hfn.swap b a).mp hba) (not_le.mpr hab)

theorem eq_trans (hfn : IsComparison fn) {a b c : α} (hab : fn a b = 0) (hbc : fn b c = 0) :
    fn a c = 0 := by
  have hac := hfn.trans hab.le hbc.le
  have hca := hfn.trans (hfn.eq_comm.mp hbc).le (hfn.eq_comm.mp hab).le
  have hswap := hfn.swap c a
  omega

end IsComparison

theorem ComparesBy.isComparison {κ : Type*} [LinearOrder κ] {key : α → κ}
    (hfn : ComparesBy fn key) : IsComparison fn where
  swap a b := by rw [hfn.le, ← not_lt (a := fn b a), hfn.lt, not_lt]
  trans := hfn.isTotalPreorder.trans

/-! ## What the walk drops -/

/-- The elements that compare equal to one. -/
def occurrences (fn : α → α → Int) (list : List α) (c : α) : ℕ := list.countP fun a => fn a c = 0

/-- The elements that compare equal to none of the other list. -/
def onlyIn (fn : α → α → Int) (left right : List α) : List α :=
  left.filter fun a => ∀ b ∈ right, fn a b ≠ 0

theorem occurrences_cons (a c : α) (list : List α) :
    occurrences fn (a :: list) c = occurrences fn list c + if fn a c = 0 then 1 else 0 := by
  simp [occurrences, List.countP_cons]

theorem occurrences_eq_zero {list : List α} {c : α} :
    occurrences fn list c = 0 ↔ ∀ a ∈ list, fn a c ≠ 0 := by
  simp [occurrences, List.countP_eq_zero]

/-- **The walk** drops as many elements of a kind as there are on the right.  By induction over the
walk: a pair that compares equal takes one from both sides, and what is smaller on one side is equal
to nothing on the other. -/
theorem occurrences_listDiffSorted (hfn : IsComparison fn) (hleft : IsSorted fn left)
    (hright : IsSorted fn right) (c : α) :
    occurrences fn (listDiffSorted fn left right).1 c =
      occurrences fn left c - occurrences fn right c := by
  fun_induction listDiffSorted fn left right with
  | case1 right => simp [occurrences]
  | case2 left => simp [occurrences]
  | case3 l left r right cmp hcmp onlyleft onlyright heq ih =>
    have ih := ih (List.Pairwise.of_cons hleft) hright
    rw [heq] at ih
    rw [occurrences_cons, ih, occurrences_cons l]
    split_ifs with hl
    · -- what is on the right is larger
      have hnone : occurrences fn (r :: right) c = 0 := by
        refine occurrences_eq_zero.mpr fun x hx hxc => ?_
        have hlx : fn l x < 0 := by
          rcases List.mem_cons.mp hx with rfl | hx
          · exact hcmp
          · exact hfn.lt_of_lt_of_le hcmp (List.rel_of_pairwise_cons hright hx)
        exact absurd hl (hfn.lt_of_lt_of_le hlx hxc.le).ne
      omega
    · rfl
  | case4 l left r right cmp hcmp hcmp' onlyleft onlyright heq ih =>
    have ih := ih hleft (List.Pairwise.of_cons hright)
    rw [heq] at ih
    rw [ih, occurrences_cons r]
    split_ifs with hr
    · -- what is on the left is larger
      have hnone : occurrences fn (l :: left) c = 0 := by
        refine occurrences_eq_zero.mpr fun x hx hxc => ?_
        have hrl : fn r l < 0 := by
          have hswap := hfn.swap l r
          omega
        have hrx : fn r x < 0 := by
          rcases List.mem_cons.mp hx with rfl | hx
          · exact hrl
          · exact hfn.lt_of_lt_of_le hrl (List.rel_of_pairwise_cons hleft hx)
        exact absurd hr (hfn.lt_of_lt_of_le hrx hxc.le).ne
      omega
    · rfl
  | case5 l left r right cmp hcmp hcmp' ih =>
    have hlr : fn l r = 0 := by omega
    have hboth : fn l c = 0 ↔ fn r c = 0 :=
      ⟨hfn.eq_trans (hfn.eq_comm.mp hlr), hfn.eq_trans hlr⟩
    rw [ih (List.Pairwise.of_cons hleft) (List.Pairwise.of_cons hright), occurrences_cons,
      occurrences_cons]
    simp only [hboth]
    omega

theorem listDiffSorted_sublist (fn : α → α → Int) (left right : List α) :
    (listDiffSorted fn left right).1.Sublist left := by
  fun_induction listDiffSorted fn left right with
  | case1 right => exact List.Sublist.refl _
  | case2 left => exact List.Sublist.refl _
  | case3 l left r right cmp hcmp onlyleft onlyright heq ih =>
    rw [heq] at ih
    exact ih.cons_cons l
  | case4 l left r right cmp hcmp hcmp' onlyleft onlyright heq ih =>
    rwa [heq] at ih
  | case5 l left r right cmp hcmp hcmp' ih => exact ih.cons l

theorem onlyIn_cons_right_sublist (fn : α → α → Int) (left right : List α) (r : α) :
    (onlyIn fn left (r :: right)).Sublist (onlyIn fn left right) := by
  refine List.monotone_filter_right _ fun a ha => ?_
  simp only [decide_eq_true_eq] at ha ⊢
  exact fun b hb => ha b (List.mem_cons_of_mem _ hb)

/-- What compares equal to nothing on the right stays. -/
theorem onlyIn_sublist (fn : α → α → Int) (left right : List α) :
    (onlyIn fn left right).Sublist (listDiffSorted fn left right).1 := by
  fun_induction listDiffSorted fn left right with
  | case1 right => exact List.Sublist.refl _
  | case2 left => simp [onlyIn]
  | case3 l left r right cmp hcmp onlyleft onlyright heq ih =>
    rw [heq] at ih
    unfold onlyIn at ih ⊢
    rw [List.filter_cons]
    split_ifs
    · exact ih.cons_cons l
    · exact ih.cons l
  | case4 l left r right cmp hcmp hcmp' onlyleft onlyright heq ih =>
    rw [heq] at ih
    exact (onlyIn_cons_right_sublist fn (l :: left) right r).trans ih
  | case5 l left r right cmp hcmp hcmp' ih =>
    have hlr : fn l r = 0 := by omega
    have hdrop : onlyIn fn (l :: left) (r :: right) = onlyIn fn left (r :: right) :=
      List.filter_cons_of_neg (by simp [hlr])
    rw [hdrop]
    exact (onlyIn_cons_right_sublist fn left right r).trans ih

/-- The walk finds the difference if and only if nothing is repeated more often on the left. -/
theorem listDiffSorted_eq_iff (hfn : IsComparison fn) (hleft : IsSorted fn left)
    (hright : IsSorted fn right) :
    (listDiffSorted fn left right).1 = onlyIn fn left right ↔
      ∀ b ∈ right, occurrences fn left b ≤ occurrences fn right b := by
  have hcount := occurrences_listDiffSorted hfn hleft hright
  constructor
  · intro heq b hb
    have hnone : occurrences fn (onlyIn fn left right) b = 0 := by
      refine occurrences_eq_zero.mpr fun a ha => ?_
      have hfilter := (List.mem_filter.mp ha).2
      simp only [decide_eq_true_eq] at hfilter
      exact hfilter b hb
    rw [← heq, hcount] at hnone
    omega
  · intro hle
    refine List.Sublist.antisymm ?_ (onlyIn_sublist fn left right)
    have hkept : ∀ a ∈ (listDiffSorted fn left right).1, ∀ b ∈ right, fn a b ≠ 0 := by
      intro a ha b hb
      have hzero : occurrences fn (listDiffSorted fn left right).1 b = 0 := by
        rw [hcount, Nat.sub_eq_zero_of_le (hle b hb)]
      exact occurrences_eq_zero.mp hzero a ha
    have hself : onlyIn fn (listDiffSorted fn left right).1 right =
        (listDiffSorted fn left right).1 :=
      List.filter_eq_self.mpr fun a ha => decide_eq_true (hkept a ha)
    rw [← hself]
    exact (listDiffSorted_sublist fn left right).filter _

/-! ## `alpm_list_diff` -/

theorem occurrences_perm {list list' : List α} (hperm : list.Perm list') (c : α) :
    occurrences fn list c = occurrences fn list' c := hperm.countP_eq _

theorem onlyIn_perm {list list' other other' : List α} (hlist : list.Perm list')
    (hother : other.Perm other') : (onlyIn fn list other).Perm (onlyIn fn list' other') := by
  have hcongr : onlyIn fn list other = onlyIn fn list other' := by
    refine List.filter_congr fun a _ => ?_
    simp only [hother.mem_iff]
  rw [hcongr]
  exact hlist.filter _

/-- **The difference.**  The result is sorted and holds what compares equal to nothing in `rhs`, as
often as `lhs` does, if and only if no element of `rhs` is repeated more often in `lhs`.  The walk
subtracts multiplicities, class by class, and a difference of sets would be left with none. -/
theorem listDiff_iff (hfn : IsComparison fn) (lhs rhs : List α) :
    (IsSorted fn (listDiff fn lhs rhs) ∧ (listDiff fn lhs rhs).Perm (onlyIn fn lhs rhs)) ↔
      ∀ b ∈ rhs, occurrences fn lhs b ≤ occurrences fn rhs b := by
  have hlhs := listMsort_isStableSort hfn.isTotalPreorder lhs
  have hrhs := listMsort_isStableSort hfn.isTotalPreorder rhs
  have honly : (onlyIn fn (listMsort fn lhs) (listMsort fn rhs)).Perm (onlyIn fn lhs rhs) :=
    onlyIn_perm hlhs.perm hrhs.perm
  have hdiff : (∀ b ∈ rhs, occurrences fn lhs b ≤ occurrences fn rhs b) ↔
      listDiff fn lhs rhs = onlyIn fn (listMsort fn lhs) (listMsort fn rhs) := by
    rw [listDiff, listDiffSorted_eq_iff hfn hlhs.isSorted hrhs.isSorted]
    simp only [hrhs.perm.mem_iff, occurrences_perm hlhs.perm, occurrences_perm hrhs.perm]
  rw [hdiff]
  constructor
  · rintro ⟨-, hperm⟩
    have hlength := (hperm.trans honly.symm).length_eq
    exact ((onlyIn_sublist fn _ _).eq_of_length hlength.symm).symm
  · intro heq
    refine ⟨?_, heq ▸ honly⟩
    exact hlhs.isSorted.sublist (listDiffSorted_sublist fn _ _)

theorem listDiff_iff_strcmp :
    IsComparison strcmp ∧
      ((IsSorted strcmp (listDiff strcmp [str "b", str "a"] [str "a"]) ∧
          (listDiff strcmp [str "b", str "a"] [str "a"]).Perm
            (onlyIn strcmp [str "b", str "a"] [str "a"])) ↔
        ∀ b ∈ [str "a"], occurrences strcmp [str "b", str "a"] b ≤
          occurrences strcmp [str "a"] b) := by
  have hstrcmp : IsComparison strcmp := {
    swap := fun a b => by
      rw [strcmp_le_zero, ← not_lt (a := strcmp b a), strcmp_lt_zero, not_lt]
    trans := fun hab hbc => by
      rw [strcmp_le_zero] at hab hbc ⊢
      exact hab.trans hbc }
  exact ⟨hstrcmp, listDiff_iff hstrcmp [str "b", str "a"] [str "a"]⟩

/-- An element that is twice on the left stays once. -/
theorem listDiff_twice :
    ¬ (listDiff strcmp [str "a", str "a"] [str "a"]).Perm
      (onlyIn strcmp [str "a", str "a"] [str "a"]) := by
  decide +kernel

end Alpm
