import Mathlib.Data.List.Sort
import Mathlib.Order.Defs.LinearOrder

/-!
# Merging with a comparison that may be wrong

`List.merge` asks a comparison which of two heads goes first.  If the comparison is an order, the
result is sorted.  This file is about a comparison that is right about some pairs and wrong about
others, such as a difference of two numbers that is cut to fewer bits.

Two sorted lists are merged into a sorted one if and only if the comparison is right about every
pair of heads that a merge in order comes to (`pairwise_merge_iff`), and these pairs can be told
from the two lists without running the merge (`Meet`): of two heads that meet, the one that goes
second is the first of its list that comes after the other one.  The condition is exact because the
first wrong answer puts an element before a smaller one, and no later step of a merge can repair
that.

The two lists have to be sorted for that, which a merge can not make up for either
(`pairwise_of_merge`); so for a merge sort the condition goes down the tree of its merges.
-/

namespace Alpm.MergeOrder

variable {κ : Type*} {le : κ → κ → Bool}

theorem left_sublist_merge (left right : List κ) : left.Sublist (List.merge left right le) := by
  fun_induction List.merge left right le with
  | case1 right => exact List.nil_sublist _
  | case2 left => exact List.Sublist.refl _
  | case3 l left r right h ih => exact ih.cons_cons l
  | case4 l left r right h ih => exact ih.cons r

theorem right_sublist_merge (left right : List κ) : right.Sublist (List.merge left right le) := by
  fun_induction List.merge left right le with
  | case1 right => exact List.Sublist.refl _
  | case2 left => exact List.nil_sublist _
  | case3 l left r right h ih => exact ih.cons l
  | case4 l left r right h ih => exact ih.cons_cons r

/-- A merge does not put the lists in order that it merges. -/
theorem pairwise_of_merge {rel : κ → κ → Prop} {left right : List κ}
    (h : (List.merge left right le).Pairwise rel) : left.Pairwise rel ∧ right.Pairwise rel :=
  ⟨h.sublist (left_sublist_merge left right), h.sublist (right_sublist_merge left right)⟩

variable [LinearOrder κ]

/-- A merge in order, which takes the left one of two equal heads, has `a` and `b` as heads at some
time: the one that goes second is the first of its list that comes after the other one. -/
def Meet (left right : List κ) (a b : κ) : Prop :=
  if a ≤ b then ∀ c ∈ right, a ≤ c → b ≤ c else ∀ c ∈ left, b < c → a ≤ c

variable {left right : List κ} {a b l r : κ}

theorem meet_of_le (h : a ≤ b) : Meet left right a b ↔ ∀ c ∈ right, a ≤ c → b ≤ c := by
  rw [Meet, if_pos h]

theorem meet_of_lt (h : b < a) : Meet left right a b ↔ ∀ c ∈ left, b < c → a ≤ c := by
  rw [Meet, if_neg (not_le.mpr h)]

/-- The heads of sorted lists meet. -/
theorem meet_head (hleft : (l :: left).Pairwise (· ≤ ·)) (hright : (r :: right).Pairwise (· ≤ ·)) :
    Meet (l :: left) (r :: right) l r := by
  unfold Meet
  split_ifs
  · exact List.forall_mem_cons.mpr ⟨fun _ => le_rfl,
      fun c hc _ => List.rel_of_pairwise_cons hright hc⟩
  · exact List.forall_mem_cons.mpr ⟨fun _ => le_rfl,
      fun c hc _ => List.rel_of_pairwise_cons hleft hc⟩

/-- What goes first on the left is not waited for. -/
theorem meet_cons_left (hl : l ≤ b) : Meet (l :: left) right a b ↔ Meet left right a b := by
  obtain h | h := le_or_gt a b
  · rw [meet_of_le h, meet_of_le h]
  · rw [meet_of_lt h, meet_of_lt h, List.forall_mem_cons]
    exact and_iff_right fun hlt => absurd hlt (not_lt.mpr hl)

theorem meet_cons_right (hr : r < a) : Meet left (r :: right) a b ↔ Meet left right a b := by
  obtain h | h := le_or_gt a b
  · rw [meet_of_le h, meet_of_le h, List.forall_mem_cons]
    exact and_iff_right fun hle => absurd hle (not_le.mpr hr)
  · rw [meet_of_lt h, meet_of_lt h]

/-- The comparison is right about the pairs that meet. -/
def Judges (le : κ → κ → Bool) (left right : List κ) : Prop :=
  ∀ a ∈ left, ∀ b ∈ right, Meet left right a b → (le a b ↔ a ≤ b)

theorem Judges.perm {left' right' : List κ} (h : Judges le left right) (hleft : left.Perm left')
    (hright : right.Perm right') : Judges le left' right' := by
  intro a ha b hb hmeet
  refine h a (hleft.mem_iff.mpr ha) b (hright.mem_iff.mpr hb) ?_
  unfold Meet at hmeet ⊢
  split_ifs at hmeet ⊢
  · exact fun c hc => hmeet c (hright.mem_iff.mp hc)
  · exact fun c hc => hmeet c (hleft.mem_iff.mp hc)

/-- The order of the two lists does not matter. -/
theorem judges_perm {left' right' : List κ} (hleft : left.Perm left') (hright : right.Perm right') :
    Judges le left right ↔ Judges le left' right' :=
  ⟨fun h => h.perm hleft hright, fun h => h.perm hleft.symm hright.symm⟩

/-- The left head goes first, and the right head is the only one that it meets. -/
theorem judges_cons_left (hright : (r :: right).Pairwise (· ≤ ·)) (hlr : l ≤ r) (hle : le l r) :
    Judges le (l :: left) (r :: right) ↔ Judges le left (r :: right) := by
  have hl : ∀ b ∈ r :: right, l ≤ b := List.forall_mem_cons.mpr
    ⟨hlr, fun b hb => hlr.trans (List.rel_of_pairwise_cons hright hb)⟩
  constructor
  · intro h a ha b hb hmeet
    exact h a (List.mem_cons_of_mem l ha) b hb ((meet_cons_left (hl b hb)).mpr hmeet)
  · intro h a ha b hb hmeet
    obtain rfl | ha := List.mem_cons.mp ha
    · have hbr : b ≤ r := (meet_of_le (hl b hb)).mp hmeet r (List.mem_cons_self ..) hlr
      have hrb : r ≤ b := by
        obtain rfl | hb := List.mem_cons.mp hb
        · exact le_rfl
        · exact List.rel_of_pairwise_cons hright hb
      obtain rfl := le_antisymm hbr hrb
      exact iff_of_true hle hlr
    · exact h a ha b hb ((meet_cons_left (hl b hb)).mp hmeet)

theorem judges_cons_right (hleft : (l :: left).Pairwise (· ≤ ·)) (hrl : r < l) (hle : ¬ le l r) :
    Judges le (l :: left) (r :: right) ↔ Judges le (l :: left) right := by
  have hr : ∀ a ∈ l :: left, r < a := List.forall_mem_cons.mpr
    ⟨hrl, fun a ha => hrl.trans_le (List.rel_of_pairwise_cons hleft ha)⟩
  constructor
  · intro h a ha b hb hmeet
    exact h a ha b (List.mem_cons_of_mem r hb) ((meet_cons_right (hr a ha)).mpr hmeet)
  · intro h a ha b hb hmeet
    obtain rfl | hb := List.mem_cons.mp hb
    · have hal : a ≤ l := (meet_of_lt (hr a ha)).mp hmeet l (List.mem_cons_self ..) hrl
      have hla : l ≤ a := by
        obtain rfl | ha := List.mem_cons.mp ha
        · exact le_rfl
        · exact List.rel_of_pairwise_cons hleft ha
      obtain rfl := le_antisymm hal hla
      exact iff_of_false hle (not_le.mpr hrl)
    · exact h a ha b hb ((meet_cons_right (hr a ha)).mp hmeet)

/-- **Merging sorted lists** gives a sorted list if and only if the comparison is right about the
pairs that meet.  The head that goes first has met the other head; what it has not met are elements
that are behind a head, and these are judged later or not at all. -/
theorem pairwise_merge_iff (hrefl : ∀ a, le a a) (hleft : left.Pairwise (· ≤ ·))
    (hright : right.Pairwise (· ≤ ·)) :
    (List.merge left right le).Pairwise (· ≤ ·) ↔ Judges le left right := by
  fun_induction List.merge left right le with
  | case1 right => exact iff_of_true hright fun a ha => absurd ha List.not_mem_nil
  | case2 left => exact iff_of_true hleft fun a _ b hb => absurd hb List.not_mem_nil
  | case3 l left r right hle ih =>
    by_cases hlr : l ≤ r
    · rw [judges_cons_left hright hlr hle, ← ih hleft.of_cons hright, List.pairwise_cons]
      refine and_iff_right fun x hx => ?_
      rw [List.mem_merge] at hx
      obtain hx | hx := hx
      · exact List.rel_of_pairwise_cons hleft hx
      · obtain rfl | hx := List.mem_cons.mp hx
        · exact hlr
        · exact hlr.trans (List.rel_of_pairwise_cons hright hx)
    · refine iff_of_false (fun hsorted => hlr ?_) fun hjudges => hlr ?_
      · exact List.rel_of_pairwise_cons hsorted (List.mem_merge_right _ (List.mem_cons_self ..))
      · exact (hjudges l (List.mem_cons_self ..) r (List.mem_cons_self ..)
          (meet_head hleft hright)).mp hle
  | case4 l left r right hle ih =>
    by_cases hrl : r < l
    · rw [judges_cons_right hleft hrl hle, ← ih hleft hright.of_cons, List.pairwise_cons]
      refine and_iff_right fun x hx => ?_
      rw [List.mem_merge] at hx
      obtain hx | hx := hx
      · obtain rfl | hx := List.mem_cons.mp hx
        · exact hrl.le
        · exact hrl.le.trans (List.rel_of_pairwise_cons hleft hx)
      · exact List.rel_of_pairwise_cons hright hx
    · have hlr : l < r := lt_of_le_of_ne (not_lt.mp hrl) fun heq => hle (heq ▸ hrefl l)
      refine iff_of_false (fun hsorted => hrl.elim ?_) fun hjudges => hle ?_
      · refine lt_of_le_of_ne ?_ hlr.ne'
        exact List.rel_of_pairwise_cons hsorted (List.mem_merge_left _ (List.mem_cons_self ..))
      · exact (hjudges l (List.mem_cons_self ..) r (List.mem_cons_self ..)
          (meet_head hleft hright)).mpr hlr.le

end Alpm.MergeOrder
