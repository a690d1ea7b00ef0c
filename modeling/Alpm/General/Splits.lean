import Mathlib.Data.List.Basic

/-!
# What holds at every place of a list

A loop that goes through a list and stops at the first element that it cannot get past ends well if
and only if each element can be got past in the state that the elements before it have left.  Such
statements speak about all ways to write the list as `before ++ a :: after`, with a property of
`before` and `a`.

* `forall_cons` takes such a statement apart at the first element, for a loop that recurses on the
  rest.
* `forall_concat` takes it apart at the last element, for a fold.
* `concat_eq_iff` says where the last element is, for a statement that some place has a property.
-/

namespace Alpm.Splits

variable {α : Type*} {P : List α → α → Prop} {xs : List α} {x : α}

/-- Every place of `x :: xs` is the first one or a place of `xs`, behind `x`. -/
theorem forall_cons : (∀ before a after, x :: xs = before ++ a :: after → P before a) ↔
    P [] x ∧ ∀ before a after, xs = before ++ a :: after → P (x :: before) a := by
  constructor
  · intro h
    refine ⟨h [] x xs rfl, ?_⟩
    rintro before a after rfl
    exact h (x :: before) a after rfl
  · rintro ⟨hfirst, hrest⟩ (_ | ⟨y, before⟩) a after hsplit
    · obtain ⟨rfl, -⟩ := List.cons.inj hsplit
      exact hfirst
    · obtain ⟨rfl, rfl⟩ := List.cons.inj hsplit
      exact hrest before a after rfl

/-- A place of `xs ++ [x]` is the last one, or a place of `xs` with `x` at the end behind it. -/
theorem concat_eq_iff {before after : List α} {a : α} : xs ++ [x] = before ++ a :: after ↔
    (xs = before ∧ x = a ∧ after = []) ∨
      ∃ rest, after = rest ++ [x] ∧ xs = before ++ a :: rest := by
  constructor
  · intro hsplit
    rcases List.eq_nil_or_concat after with rfl | ⟨rest, y, rfl⟩
    · obtain ⟨rfl, hsame⟩ := List.append_inj' hsplit rfl
      exact Or.inl ⟨rfl, List.singleton_inj.mp hsame, rfl⟩
    · rw [List.concat_eq_append, ← List.cons_append, ← List.append_assoc] at hsplit
      obtain ⟨hxs, hsame⟩ := List.append_inj' hsplit rfl
      obtain rfl := List.singleton_inj.mp hsame
      exact Or.inr ⟨rest, List.concat_eq_append, hxs⟩
  · rintro (⟨rfl, rfl, rfl⟩ | ⟨rest, rfl, rfl⟩)
    · rfl
    · simp

/-- Every place of `xs ++ [x]` is a place of `xs` or the last one. -/
theorem forall_concat : (∀ before a after, xs ++ [x] = before ++ a :: after → P before a) ↔
    (∀ before a after, xs = before ++ a :: after → P before a) ∧ P xs x := by
  constructor
  · intro h
    exact ⟨fun before a rest hsplit => h before a (rest ++ [x])
      (concat_eq_iff.mpr (Or.inr ⟨rest, rfl, hsplit⟩)), h xs x [] rfl⟩
  · rintro ⟨hrest, hlast⟩ before a after hsplit
    rcases concat_eq_iff.mp hsplit with ⟨rfl, rfl, -⟩ | ⟨rest, -, hxs⟩
    · exact hlast
    · exact hrest before a rest hxs

end Alpm.Splits
