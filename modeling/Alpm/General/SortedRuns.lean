import Mathlib.Data.List.TakeWhile
import Mathlib.Order.Lattice
import Mathlib.Data.List.Basic

/-!
# Runs at the front of a sorted list

In a sorted list the entries below a bound, and the entries equal to the first one, stand at the
front.  So skipping them one by one, as the inner loops of a walk over two sorted lists do, is a
filter of the list, and the walk can be reasoned about by membership and not by position.
-/

namespace Alpm.SortedRuns

section

variable {α : Type*} {p : α → Bool} {l : List α}

/-- What is left, when only entries at the front satisfy the predicate. -/
theorem dropWhile_eq_filter (h : l.Pairwise fun a b => p b → p a) :
    l.dropWhile p = l.filter (!p ·) := by
  induction l with
  | nil => rfl
  | cons a l ih =>
    rw [List.pairwise_cons] at h
    by_cases ha : p a
    · rw [List.dropWhile_cons_of_pos ha, List.filter_cons_of_neg (by simp [ha]), ih h.2]
    · rw [List.dropWhile_cons_of_neg ha]
      refine (List.filter_eq_self.mpr fun b hb => ?_).symm
      rcases List.mem_cons.mp hb with rfl | hb
      · simpa using ha
      · simpa using fun hpb => ha (h.1 b hb hpb)

end

section

variable {α : Type*} [LinearOrder α] {p : α → Bool} {l : List α} {x : α}

theorem dropWhile_lt (h : l.Pairwise (· ≤ ·)) (hp : ∀ a, p a ↔ a < x) :
    l.dropWhile p = l.filter (!p ·) :=
  dropWhile_eq_filter (h.imp fun hab hb => (hp _).mpr (hab.trans_lt ((hp _).mp hb)))

/-- The run of a value that nothing in the list is smaller than. -/
theorem dropWhile_eq (h : (x :: l).Pairwise (· ≤ ·)) (hp : ∀ a, p a ↔ a = x) :
    l.dropWhile p = l.filter (!p ·) := by
  obtain ⟨hx, hl⟩ := List.pairwise_cons.mp h
  refine dropWhile_eq_filter (List.pairwise_iff_forall_sublist.mpr fun {a b} hab hb => ?_)
  have hle := List.pairwise_iff_forall_sublist.mp hl hab
  exact (hp a).mpr (le_antisymm ((hp b).mp hb ▸ hle) (hx a (hab.subset (by simp))))

end

end Alpm.SortedRuns
