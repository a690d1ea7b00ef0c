import Alpm.Dload.SortPayloads
import Alpm.General.MergeOrder

/-!
# Largest first

`curl_download_internal` means to start the downloads in descending order of their sizes, but
`compare_dload_payload_sizes` returns a difference of two `off_t` as an `int`.  Sizes that are 2 GiB
or more apart may come out in the wrong order.

Not every difference is asked for, and a wrong sign may be one that no merge meets.  The payloads
are sorted if and only if the conversion keeps the sign of every difference that a merge sort in
order asks for (`sortPayloads_descending_iff`).  Which differences these are can be told from the
sizes: in the halves of the list, in their halves, and so on, each merge of two sorted lists meets
the pairs of `General.MergeOrder`.

For sizes that are less than 2 GiB apart every sign is kept (`signKept_of_near`).
-/

namespace Alpm.Dload

open LinkedHeap ListHeap

/-! ## The sign of a difference -/

/-- `compare_dload_payload_sizes`, on the sizes. -/
def compareSizes (left right : ℤ) : ℤ := int (right - left)

/-- The low 32 bits of the difference of two sizes tell which one is larger, and the left one goes
first if they are equal. -/
def SignKept (left right : ℤ) : Prop :=
  if right ≤ left then (left - right) % 2 ^ 32 ≤ 2 ^ 31
  else 0 < (right - left) % 2 ^ 32 ∧ (right - left) % 2 ^ 32 < 2 ^ 31

theorem signKept_iff {left right : ℤ} :
    SignKept left right ↔ (compareSizes left right ≤ 0 ↔ right ≤ left) := by
  have hint : int (right - left) =
      if (right - left) % 2 ^ 32 < 2 ^ 31 then (right - left) % 2 ^ 32
      else (right - left) % 2 ^ 32 - 2 ^ 32 := by
    rw [int, Int.bmod_def]
    norm_num
  rw [SignKept, compareSizes, hint]
  by_cases hle : right ≤ left
  · rw [if_pos hle, iff_true_right hle]
    split_ifs <;> omega
  · rw [if_neg hle, iff_false_right hle]
    split_ifs <;> omega

theorem compareSizes_self (size : ℤ) : compareSizes size size = 0 := by
  rw [compareSizes, sub_self]
  rfl

/-- Sizes that are less than 2 GiB apart. -/
theorem signKept_of_near {left right : ℤ} (hleft : left - right < 2 ^ 31)
    (hright : right - left < 2 ^ 31) : SignKept left right := by
  unfold SignKept
  split_ifs <;> omega

/-! ## The sort of the sizes -/

/-- A merge of two halves in descending order compares these two sizes: the smaller one is the
first of its half that comes after the larger one. -/
def Meets (left right : List ℤ) (a b : ℤ) : Prop :=
  if b ≤ a then ∀ c ∈ right, c ≤ a → c ≤ b else ∀ c ∈ left, c < b → c ≤ a

/-- The signs of the differences of the sizes that meet are kept, in the halves of the list, in
their halves, and so on. -/
def SignsKept (sizes : List ℤ) : Prop :=
  if sizes.length > 1 then
    SignsKept (sizes.take (sizes.length / 2)) ∧ SignsKept (sizes.drop (sizes.length / 2)) ∧
      ∀ a ∈ sizes.take (sizes.length / 2), ∀ b ∈ sizes.drop (sizes.length / 2),
        Meets (sizes.take (sizes.length / 2)) (sizes.drop (sizes.length / 2)) a b → SignKept a b
  else True
termination_by sizes.length
decreasing_by
  · rw [List.length_take]
    omega
  · rw [List.length_drop]
    omega

theorem signsKept_of_near {sizes : List ℤ} (h : ∀ a ∈ sizes, ∀ b ∈ sizes, a - b < 2 ^ 31) :
    SignsKept sizes := by
  fun_induction SignsKept sizes with
  | case1 sizes hlength ih₁ ih₂ =>
    refine ⟨ih₁ fun a ha b hb => ?_, ih₂ fun a ha b hb => ?_, fun a ha b hb _ => ?_⟩
    · exact h a (List.mem_of_mem_take ha) b (List.mem_of_mem_take hb)
    · exact h a (List.mem_of_mem_drop ha) b (List.mem_of_mem_drop hb)
    · have ha' := List.mem_of_mem_take ha
      have hb' := List.mem_of_mem_drop hb
      exact signKept_of_near (h a ha' b hb') (h b hb' a ha')
  | case2 sizes hlength => trivial

/-- Merging halves that are in descending order. -/
theorem pairwise_listMmerge_iff {left right left' right' : List ℤ} (hleft : left.Pairwise (· ≥ ·))
    (hright : right.Pairwise (· ≥ ·)) (hleft' : left.Perm left') (hright' : right.Perm right') :
    (listMmerge compareSizes left right).Pairwise (· ≥ ·) ↔
      ∀ a ∈ left', ∀ b ∈ right', Meets left' right' a b → SignKept a b := by
  -- in the order of the sort the larger of two sizes comes first
  have hmerge := @MergeOrder.pairwise_merge_iff ℤᵒᵈ (fun a b => decide (compareSizes a b ≤ 0)) _
    left right (fun a => decide_eq_true (compareSizes_self a).le) hleft hright
  have hjudged : ∀ a b : ℤ, (decide (compareSizes a b ≤ 0) = true ↔ b ≤ a) ↔ SignKept a b :=
    fun a b => by rw [signKept_iff, decide_eq_true_eq]
  rw [listMmerge_eq_merge]
  calc
    _ ↔ _ := hmerge
    _ ↔ _ := MergeOrder.judges_perm hleft' hright'
    _ ↔ _ := forall₂_congr fun a _ => forall₂_congr fun b _ => imp_congr_right fun _ => hjudged a b

/-- The sizes come out in descending order if and only if no sign is lost. -/
theorem pairwise_listMsort_iff (sizes : List ℤ) :
    (listMsort compareSizes sizes).Pairwise (· ≥ ·) ↔ SignsKept sizes := by
  fun_induction SignsKept sizes with
  | case1 sizes hlength ih₁ ih₂ =>
    have hleft := listMsort_perm compareSizes (sizes.take (sizes.length / 2))
    have hright := listMsort_perm compareSizes (sizes.drop (sizes.length / 2))
    rw [listMsort, if_pos hlength, ← ih₁, ← ih₂]
    constructor
    · intro hsorted
      have hhalves := hsorted
      rw [listMmerge_eq_merge] at hhalves
      obtain ⟨hfirst, hsecond⟩ := MergeOrder.pairwise_of_merge hhalves
      exact ⟨hfirst, hsecond, (pairwise_listMmerge_iff hfirst hsecond hleft hright).mp hsorted⟩
    · rintro ⟨hfirst, hsecond, hkept⟩
      exact (pairwise_listMmerge_iff hfirst hsecond hleft hright).mpr hkept
  | case2 sizes hlength =>
    rw [listMsort, if_neg hlength]
    refine iff_of_true ?_ trivial
    rcases sizes with _ | ⟨size, _ | ⟨next, sizes⟩⟩
    · exact List.Pairwise.nil
    · exact List.pairwise_singleton ..
    · simp at hlength

/-! ## The list of payloads -/

variable {δ : Type} {h : Heap (Option δ)} {p : Ptr} {fuel : ℕ}

/-- **Largest first.**  The sort leaves a list of the same payloads.  Their sizes are in descending
order if and only if the conversion to `int` keeps the signs of the differences of the sizes that a
merge sort in order compares, and so for sizes that are less than 2 GiB apart.  A merge does not
repair the order of what it merges, so the condition goes down to the halves. -/
theorem sortPayloads_descending_iff (maxSize : δ → ℤ) {payloads : List (ℕ × δ)}
    (hlist : IsList h p (payloadCells payloads)) (hfuel : payloads.length ≤ fuel) :
    ∃ newlist h' sorted, sortPayloads maxSize fuel p payloads.length h = some (newlist, h') ∧
      IsList h' newlist (payloadCells sorted) ∧ sorted.Perm payloads ∧
      ((sorted.map fun c => maxSize c.2).Pairwise (· ≥ ·) ↔
        SignsKept (payloads.map fun c => maxSize c.2)) ∧
      ((∀ a ∈ payloads, ∀ b ∈ payloads, maxSize a.2 - maxSize b.2 < 2 ^ 31) →
        (sorted.map fun c => maxSize c.2).Pairwise (· ≥ ·)) := by
  have hlength : (payloadCells payloads).length = payloads.length := List.length_map _
  obtain ⟨h', hrun, hshape⟩ := sortPayloads_run maxSize hlist (hlength.trans_le hfuel)
  have hcells : payloadCells (listMsort (fun a b => compareSizes (maxSize a.2) (maxSize b.2))
      payloads) = listMsort (onData (compareDloadPayloadSizes maxSize)) (payloadCells payloads) :=
    map_listMsort (fun c : ℕ × δ => (c.1, some c.2))
      (onData (compareDloadPayloadSizes maxSize)) payloads
  have hsizes := map_listMsort (fun c : ℕ × δ => maxSize c.2) compareSizes payloads
  have hsorted := pairwise_listMsort_iff (payloads.map fun c => maxSize c.2)
  rw [← hsizes] at hsorted
  rw [← hcells] at hrun hshape
  rw [hlength] at hrun
  refine ⟨_, h', _, hrun, ⟨rfl, hshape.nodup_head, hshape.head⟩, listMsort_perm _ _, hsorted,
    fun hnear => hsorted.mpr (signsKept_of_near ?_)⟩
  intro a ha b hb
  obtain ⟨c, hc, rfl⟩ := List.mem_map.mp ha
  obtain ⟨d, hd, rfl⟩ := List.mem_map.mp hb
  exact hnear c hc d hd

theorem sortPayloads_descending_two :
    ∃ newlist h' sorted, sortPayloads (fun size : ℤ => size) 2 (some 1) 2 twoPayloads
        = some (newlist, h') ∧
      IsList h' newlist (payloadCells sorted) ∧ sorted.Perm [(1, 1), (2, 2)] ∧
      ((sorted.map fun c => c.2).Pairwise (· ≥ ·) ↔ SignsKept [1, 2]) ∧
      ((∀ a ∈ [(1, 1), (2, 2)], ∀ b ∈ [(1, 1), (2, 2)], (a : ℕ × ℤ).2 - (b : ℕ × ℤ).2 < 2 ^ 31) →
        (sorted.map fun c => c.2).Pairwise (· ≥ ·)) :=
  sortPayloads_descending_iff (fun size => size) twoPayloads_isList le_rfl

/-- The list of a payload of 100 MiB and one of 3 GiB. -/
def largePayloads : Heap (Option ℤ)
  | 1 => some ⟨some 104857600, some 2, some 2⟩
  | 2 => some ⟨some 3221225472, none, some 1⟩
  | _ => none

/-- The difference of the two sizes is a negative `int`, so the smaller payload stays first. -/
theorem sortPayloads_descending_large :
    ¬ ∃ newlist h' sorted, sortPayloads (fun size : ℤ => size) 2 (some 1) 2 largePayloads
        = some (newlist, h') ∧
      IsList h' newlist (payloadCells sorted) ∧
      sorted.Perm [(1, 104857600), (2, 3221225472)] ∧
      (sorted.map fun c => c.2).Pairwise (· ≥ ·) := by
  have hrun : ((sortPayloads (fun size : ℤ => size) 2 (some 1) 2 largePayloads).bind fun r =>
      (nodes 2 r.1 r.2).map Prod.fst) = some [(1, some 104857600), (2, some 3221225472)] := by
    decide +kernel
  rintro ⟨newlist, h', sorted, hsort, hlist, hperm, hdescending⟩
  have hlength : (payloadCells sorted).length ≤ 2 := by
    rw [payloadCells, List.length_map, hperm.length_eq]
    decide
  rw [hsort, Option.bind_some] at hrun
  dsimp only at hrun
  rw [hlist.head, nodes_chain hlist.chain hlength] at hrun
  have hcells : payloadCells sorted = payloadCells [(1, 104857600), (2, 3221225472)] :=
    Option.some.inj hrun
  have hsorted : sorted = [(1, 104857600), (2, 3221225472)] :=
    List.map_injective_iff.mpr (fun a b hab => by
      obtain ⟨haddr, hsize⟩ := Prod.mk.inj hab
      exact Prod.ext haddr (Option.some.inj hsize)) hcells
  rw [hsorted] at hdescending
  exact absurd hdescending (by decide)

end Alpm.Dload
