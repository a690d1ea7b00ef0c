import Alpm.ListRun

/-!
# The list of payloads

`curl_download_internal` sorts the nodes of the list that its caller passes to it, largest first,
and keeps the new head in a variable of its own.  The caller's pointer still points to the node that
was first, and the callers walk from it to reset and to free the payloads.

A walk from a node comes to those behind it.  So the pointer heads the whole list if and only if its
node comes out first, that is, if it wins against the first node of the other half in every merge it
takes part in (`whole_sortPayloads_iff`, `winner`).  That is what can be said for every comparison.

The comparison of sizes returns a difference as an `int`, which is no order when sizes are 2 GiB or
more apart.  For sizes that are closer it is the order of the sizes, and the condition is that the
first payload is a largest one (`sortPayloads_iff`).
-/

namespace Alpm.Dload

open LinkedHeap ListHeap

/-! ## The first element of a sorted list -/

section

variable {α : Type*}

/-- The element that a merge sort puts first: the winner of the first half against the winner of
the second half. -/
def winner (fn : α → α → Int) (list : List α) : Option α :=
  if list.length > 1 then
    match winner fn (list.take (list.length / 2)), winner fn (list.drop (list.length / 2)) with
    | some l, some r => if fn l r ≤ 0 then some l else some r
    | l, r => l.or r
  else list.head?
termination_by list.length
decreasing_by
  · rw [List.length_take]
    omega
  · rw [List.length_drop]
    omega

theorem head?_listMmerge (fn : α → α → Int) (left right : List α) :
    (listMmerge fn left right).head? =
      match left.head?, right.head? with
      | some l, some r => if fn l r ≤ 0 then some l else some r
      | l, r => l.or r := by
  match left, right with
  | [], right => simp [listMmerge]
  | l :: left, [] => simp [listMmerge]
  | l :: left, r :: right =>
    rw [listMmerge]
    split_ifs with h
    · simp [h]
    · simp [h]

theorem head?_listMsort (fn : α → α → Int) (list : List α) :
    (listMsort fn list).head? = winner fn list := by
  fun_induction listMsort fn list with
  | case1 list h half ih₁ ih₂ =>
    rw [winner, if_pos h, head?_listMmerge, ih₁, ih₂]
  | case2 list h => rw [winner, if_neg h]

theorem winner_mem {fn : α → α → Int} {list : List α} {w : α} (h : winner fn list = some w) :
    w ∈ list := by
  rw [← head?_listMsort] at h
  exact (listMsort_perm fn list).mem_iff.mp (List.mem_of_head? h)

theorem exists_winner (fn : α → α → Int) {list : List α} (hne : list ≠ []) :
    ∃ w, winner fn list = some w := by
  rw [← head?_listMsort]
  have hsorted : listMsort fn list ≠ [] := fun hnil =>
    hne (List.nil_perm.mp (hnil ▸ listMsort_perm fn list))
  exact ⟨_, List.head?_eq_some_head hsorted⟩

/-- The first element wins if it is not larger than any other. -/
theorem winner_of_le {fn : α → α → Int} {a : α} {list : List α}
    (h : ∀ b ∈ list, fn a b ≤ 0) : winner fn (a :: list) = some a := by
  induction hn : list.length using Nat.strong_induction_on generalizing list with
  | _ n ih =>
  rw [winner]
  split_ifs with hlength
  · rw [List.length_cons] at hlength ⊢
    obtain ⟨half, hhalf⟩ : ∃ half, (list.length + 1) / 2 = half + 1 :=
      ⟨(list.length + 1) / 2 - 1, by omega⟩
    have hleft : winner fn (a :: list.take half) = some a :=
      ih _ (by rw [List.length_take]; omega) (fun b hb => h b (List.mem_of_mem_take hb)) rfl
    have hrest : list.drop half ≠ [] := by
      rw [ne_eq, List.drop_eq_nil_iff]
      omega
    obtain ⟨r, hr⟩ := exists_winner fn hrest
    rw [hhalf, List.take_succ_cons, List.drop_succ_cons, hleft, hr]
    exact if_pos (h r (List.mem_of_mem_drop (winner_mem hr)))
  · rfl

/-- The winner is a smallest element when the comparison is that of a key. -/
theorem key_winner_le {κ : Type*} [LinearOrder κ] {key : α → κ} {fn : α → α → Int} {w : α}
    {list : List α} (hfn : ∀ a ∈ list, ∀ b ∈ list, fn a b ≤ 0 ↔ key a ≤ key b)
    (h : winner fn list = some w) : ∀ b ∈ list, key w ≤ key b := by
  induction hn : list.length using Nat.strong_induction_on generalizing list w with
  | _ n ih =>
  rw [winner] at h
  split_ifs at h with hlength
  · have hfront : list.take (list.length / 2) ≠ [] :=
      List.ne_nil_of_length_pos (by rw [List.length_take]; omega)
    have hback : list.drop (list.length / 2) ≠ [] :=
      List.ne_nil_of_length_pos (by rw [List.length_drop]; omega)
    obtain ⟨l, hl⟩ := exists_winner fn hfront
    obtain ⟨r, hr⟩ := exists_winner fn hback
    have hlmem := List.mem_of_mem_take (winner_mem hl)
    have hrmem := List.mem_of_mem_drop (winner_mem hr)
    have hleft := ih _ (by rw [List.length_take]; omega)
      (fun a ha b hb => hfn a (List.mem_of_mem_take ha) b (List.mem_of_mem_take hb)) hl rfl
    have hright := ih _ (by rw [List.length_drop]; omega)
      (fun a ha b hb => hfn a (List.mem_of_mem_drop ha) b (List.mem_of_mem_drop hb)) hr rfl
    rw [hl, hr] at h
    dsimp only at h
    intro b hb
    rw [← List.take_append_drop (list.length / 2) list, List.mem_append] at hb
    split_ifs at h with hlr
    · obtain rfl := Option.some.inj h
      have hle := (hfn l hlmem r hrmem).mp hlr
      exact hb.elim (hleft b) fun hb => hle.trans (hright b hb)
    · obtain rfl := Option.some.inj h
      have hle : key r ≤ key l := (not_le.mp fun hle => hlr ((hfn l hlmem r hrmem).mpr hle)).le
      exact hb.elim (fun hb => hle.trans (hleft b hb)) (hright b)
  · intro b hb
    match list, hlength with
    | [], _ => cases hb
    | [a], _ =>
      obtain rfl := List.mem_singleton.mp hb
      obtain rfl := Option.some.inj h
      exact le_rfl
    | a :: c :: list, hlength => simp at hlength

end

/-! ## The sizes of payloads -/

section

variable {δ : Type} (maxSize : δ → ℤ)

/-- A number as an `int`. -/
def int (n : ℤ) : ℤ := n.bmod (2 ^ 32)

/-- `compare_dload_payload_sizes`; the difference is returned as an `int`. -/
def compareDloadPayloadSizes : Cmp δ
  | some left, some right => int (maxSize right - maxSize left)
  | _, _ => 0

/-- The first statement of `curl_download_internal`, on the nodes of the list. -/
def sortPayloads (fuel : ℕ) (payloads : Ptr) (payloadsSize : ℕ) : HeapM (Option δ) Ptr :=
  msort fuel payloads payloadsSize (compareDloadPayloadSizes maxSize)

end

/-- The nodes that a walk along `next` comes to, as the callers walk to reset and to free the
payloads. -/
def nodes {β : Type} : ℕ → Ptr → HeapM β (Cells β)
  | _, none => return []
  | 0, some _ => stuck
  | fuel + 1, some it => do
    let node ← read (some it)
    let rest ← nodes fuel node.next
    return (it, node.data) :: rest

/-- The walk from the caller's pointer comes to every payload once, as the callers need it to reset
and to free all of them. -/
def Whole {β : Type} (h : Heap β) (payloads : Ptr) (xs : Cells β) : Prop :=
  ∃ visited, nodes xs.length payloads h = some (visited, h) ∧ visited.Perm xs

variable {δ : Type} {h : Heap (Option δ)} {xs : Cells (Option δ)} {p : Ptr} {fuel : ℕ}

theorem nodes_chain {prev : Ptr} (hchain : Chain h prev xs none) (hfuel : xs.length ≤ fuel) :
    nodes fuel (headPtr xs) h = some (xs, h) := by
  induction xs generalizing prev fuel with
  | nil => rw [headPtr, List.head?_nil, Option.map_none, nodes]; rfl
  | cons x xs ih =>
    obtain ⟨hx, hrest⟩ := hchain
    obtain ⟨fuel, rfl⟩ : ∃ k, fuel = k + 1 := ⟨fuel - 1, by
      rw [List.length_cons] at hfuel
      omega⟩
    have hxs := ih hrest (Nat.le_of_succ_le_succ hfuel)
    rw [Option.or_none] at hx
    have hread : read (some x.1) h = some (⟨x.2, headPtr xs, prev⟩, h) := by
      simp [LinkedHeap.read, hx]
    show (read (some x.1) h).bind (fun r => (nodes fuel r.1.next r.2).bind fun s =>
      some ((x.1, r.1.data) :: s.1, s.2)) = _
    rw [hread]
    show (nodes fuel (headPtr xs) h).bind _ = _
    rw [hxs]
    rfl

/-- Where a node is in a list that is sorted. -/
theorem nodes_of_split {h' : Heap (Option δ)} {sorted before after : Cells (Option δ)}
    {x : ℕ × Option δ} (hshape : Shape h' [listOf sorted])
    (hsplit : sorted = before ++ x :: after) :
    nodes sorted.length (some x.1) h' = some (x :: after, h') := by
  have hchain := hshape.head
  rw [listOf, hsplit] at hchain
  have hrest := (Chain.append_iff.mp hchain).2
  have hlength : (x :: after).length ≤ sorted.length := by
    rw [hsplit, List.length_append]
    exact Nat.le_add_left ..
  exact nodes_chain hrest hlength

/-- The sort leaves the list of the sorted nodes. -/
theorem sortPayloads_run (maxSize : δ → ℤ) (hlist : IsList h p xs) (hfuel : xs.length ≤ fuel) :
    ∃ h', sortPayloads maxSize fuel p xs.length h =
        some (headPtr (listMsort (onData (compareDloadPayloadSizes maxSize)) xs), h') ∧
      Shape h' [listOf (listMsort (onData (compareDloadPayloadSizes maxSize)) xs)] := by
  have hsort : wp (sortPayloads maxSize fuel (headPtr xs) xs.length)
      (fun newlist h' =>
        newlist = headPtr (listMsort (onData (compareDloadPayloadSizes maxSize)) xs) ∧
        Shape h' [listOf (listMsort (onData (compareDloadPayloadSizes maxSize)) xs)]) h :=
    wp_msort hlist.shape rfl hfuel fun h' hs => ⟨rfl, hs⟩
  obtain ⟨newlist, h', hrun, rfl, hsorted⟩ := hsort
  exact ⟨h', hlist.head ▸ hrun, hsorted⟩

/-- The caller's pointer reaches every node of the sorted list if and only if its node wins. -/
theorem whole_sortPayloads_iff (maxSize : δ → ℤ) (hlist : IsList h p xs)
    (hfuel : xs.length ≤ fuel) :
    ∃ newlist h', sortPayloads maxSize fuel p xs.length h = some (newlist, h') ∧
      (Whole h' p xs ↔ winner (onData (compareDloadPayloadSizes maxSize)) xs = xs.head?) := by
  set fn := onData (compareDloadPayloadSizes maxSize) with hfn
  obtain ⟨h', hrun, hsorted⟩ := sortPayloads_run maxSize hlist hfuel
  refine ⟨_, h', hrun, ?_⟩
  have hperm := listMsort_perm fn xs
  rw [← head?_listMsort, hlist.head, Whole]
  cases xs with
  | nil =>
    rw [List.perm_nil.mp hperm]
    exact iff_of_true ⟨[], rfl, List.Perm.refl _⟩ rfl
  | cons x rest =>
    obtain ⟨before, after, hsplit⟩ := List.append_of_mem
      (hperm.mem_iff.mpr (List.mem_cons_self ..))
    have hnodes := nodes_of_split hsorted hsplit
    rw [hperm.length_eq] at hnodes
    have hhead : headPtr (x :: rest) = some x.1 := rfl
    rw [hhead, hnodes, List.head?_cons]
    constructor
    · rintro ⟨visited, heq, hvisited⟩
      obtain rfl : x :: after = visited := (Prod.mk.inj (Option.some.inj heq)).1
      have hlength := hvisited.length_eq.trans hperm.length_eq.symm
      rw [hsplit, List.length_append] at hlength
      have hbefore : before = [] := List.eq_nil_of_length_eq_zero (by omega)
      rw [hsplit, hbefore, List.nil_append, List.head?_cons]
    · intro hfirst
      -- the node is in the list only once, so nothing stands before it
      have hbefore : before = [] := by
        cases before with
        | nil => rfl
        | cons y before =>
          rw [hsplit, List.cons_append, List.head?_cons] at hfirst
          obtain rfl := Option.some.inj hfirst
          have hnodup : (listMsort fn (y :: rest)).Nodup := List.Nodup.of_map _ hsorted.nodup_head
          rw [hsplit, List.cons_append, List.nodup_cons] at hnodup
          exact absurd (List.mem_append_right _ (List.mem_cons_self ..)) hnodup.1
      rw [hbefore, List.nil_append] at hsplit
      exact ⟨x :: after, rfl, hsplit ▸ hperm⟩

/-! ## The largest payload -/

/-- The order of the nodes by size, largest first. -/
def sizeKey (maxSize : δ → ℤ) (c : ℕ × Option δ) : ℤ := -(c.2.elim 0 maxSize)

theorem onData_compareDloadPayloadSizes {maxSize : δ → ℤ} {a b : ℕ × δ}
    (hab : maxSize a.2 - maxSize b.2 < 2 ^ 31) (hba : maxSize b.2 - maxSize a.2 < 2 ^ 31) :
    onData (compareDloadPayloadSizes maxSize) (a.1, some a.2) (b.1, some b.2) ≤ 0 ↔
      sizeKey maxSize (a.1, some a.2) ≤ sizeKey maxSize (b.1, some b.2) := by
  have hint : int (maxSize b.2 - maxSize a.2) = maxSize b.2 - maxSize a.2 :=
    Int.bmod_eq_of_le (by norm_num; omega) (by norm_num; omega)
  show int (maxSize b.2 - maxSize a.2) ≤ 0 ↔ -maxSize a.2 ≤ -maxSize b.2
  rw [hint]
  omega

/-- The list of payloads that a caller passes. -/
def payloadCells (payloads : List (ℕ × δ)) : Cells (Option δ) :=
  payloads.map fun c => (c.1, some c.2)

/-- For sizes that are less than 2 GiB apart the first payload has to be a largest one. -/
theorem winner_eq_head_iff (maxSize : δ → ℤ) {payloads : List (ℕ × δ)}
    (hnear : ∀ a ∈ payloads, ∀ b ∈ payloads, maxSize a.2 - maxSize b.2 < 2 ^ 31) :
    winner (onData (compareDloadPayloadSizes maxSize)) (payloadCells payloads)
        = (payloadCells payloads).head? ↔
      ∀ x ∈ payloads.head?, ∀ y ∈ payloads, maxSize y.2 ≤ maxSize x.2 := by
  have hfn : ∀ a ∈ payloadCells payloads, ∀ b ∈ payloadCells payloads,
      onData (compareDloadPayloadSizes maxSize) a b ≤ 0 ↔
        sizeKey maxSize a ≤ sizeKey maxSize b := by
    intro c hc d hd
    obtain ⟨a, ha, rfl⟩ := List.mem_map.mp hc
    obtain ⟨b, hb, rfl⟩ := List.mem_map.mp hd
    exact onData_compareDloadPayloadSizes (hnear a ha b hb) (hnear b hb a ha)
  cases payloads with
  | nil => exact iff_of_true (by rw [payloadCells, List.map_nil, winner]; rfl) nofun
  | cons x rest =>
    have hx : (x.1, some x.2) ∈ payloadCells (x :: rest) := List.mem_cons_self ..
    constructor
    · intro hfirst x' hx' y hy
      obtain rfl : x = x' := Option.some.inj hx'
      have hle := key_winner_le hfn hfirst _ (List.mem_map_of_mem hy)
      exact neg_le_neg_iff.mp hle
    · intro hlargest
      refine winner_of_le fun b hb => ?_
      obtain ⟨y, hy, rfl⟩ := List.mem_map.mp hb
      have hy' := List.mem_cons_of_mem x hy
      exact (hfn _ hx _ (List.mem_map_of_mem hy')).mpr (neg_le_neg (hlargest x rfl y hy'))

/-- **The caller's list.**  After the sort the caller's pointer heads the whole list if and only if
the first payload wins every merge it takes part in; for sizes that are less than 2 GiB apart, if
and only if it is a largest one.  The nodes stay where they are and only their links change, so the
pointer is left with the node, wherever that goes. -/
theorem sortPayloads_iff (maxSize : δ → ℤ) {payloads : List (ℕ × δ)}
    (hlist : IsList h p (payloadCells payloads)) (hfuel : payloads.length ≤ fuel) :
    ∃ newlist h', sortPayloads maxSize fuel p payloads.length h = some (newlist, h') ∧
      (Whole h' p (payloadCells payloads) ↔
        winner (onData (compareDloadPayloadSizes maxSize)) (payloadCells payloads)
          = (payloadCells payloads).head?) ∧
      ((∀ a ∈ payloads, ∀ b ∈ payloads, maxSize a.2 - maxSize b.2 < 2 ^ 31) →
        (Whole h' p (payloadCells payloads) ↔
          ∀ x ∈ payloads.head?, ∀ y ∈ payloads, maxSize y.2 ≤ maxSize x.2)) := by
  have hlength : (payloadCells payloads).length = payloads.length := List.length_map _
  obtain ⟨newlist, h', hrun, hwhole⟩ :=
    whole_sortPayloads_iff maxSize hlist (hlength.trans_le hfuel)
  rw [hlength] at hrun
  exact ⟨newlist, h', hrun, hwhole, fun hnear => hwhole.trans (winner_eq_head_iff maxSize hnear)⟩

/-- The list of two payloads, of one and of two octets. -/
def twoPayloads : Heap (Option ℤ)
  | 1 => some ⟨some 1, some 2, some 2⟩
  | 2 => some ⟨some 2, none, some 1⟩
  | _ => none

theorem twoPayloads_isList : IsList twoPayloads (some 1) (payloadCells [(1, 1), (2, 2)]) where
  head := rfl
  nodup := by decide
  chain := ⟨rfl, rfl, True.intro⟩

theorem sortPayloads_iff_two :
    ∃ newlist h', sortPayloads (fun size : ℤ => size) 2 (some 1) 2 twoPayloads
        = some (newlist, h') ∧
      (Whole h' (some 1) (payloadCells [(1, 1), (2, 2)]) ↔
        winner (onData (compareDloadPayloadSizes fun size : ℤ => size))
          (payloadCells [(1, 1), (2, 2)]) = some (1, some 1)) ∧
      ((∀ a ∈ [(1, 1), (2, 2)], ∀ b ∈ [(1, 1), (2, 2)], (a : ℕ × ℤ).2 - (b : ℕ × ℤ).2 < 2 ^ 31) →
        (Whole h' (some 1) (payloadCells [(1, 1), (2, 2)]) ↔
          ∀ x ∈ some (1, 1), ∀ y ∈ [(1, 1), (2, 2)], (y : ℕ × ℤ).2 ≤ (x : ℕ × ℤ).2)) :=
  sortPayloads_iff (fun size => size) twoPayloads_isList le_rfl

/-- The larger payload comes second, so the caller's pointer is left with the last node. -/
theorem sortPayloads_two :
    ¬ ∃ newlist h', sortPayloads (fun size : ℤ => size) 2 (some 1) 2 twoPayloads
        = some (newlist, h') ∧
      Whole h' (some 1) (payloadCells [(1, 1), (2, 2)]) := by
  have hrun : ((sortPayloads (fun size : ℤ => size) 2 (some 1) 2 twoPayloads).bind fun r =>
      (nodes 2 (some 1) r.2).map Prod.fst) = some [(1, some 1)] := by decide +kernel
  rintro ⟨newlist, h', hsort, visited, hnodes, hperm⟩
  rw [payloadCells, List.length_map] at hnodes
  rw [hsort, Option.bind_some, show nodes 2 (some 1) h' = some (visited, h') from hnodes] at hrun
  obtain rfl : visited = [(1, some 1)] := Option.some.inj hrun
  exact absurd hperm.length_eq (by decide)

end Alpm.Dload
