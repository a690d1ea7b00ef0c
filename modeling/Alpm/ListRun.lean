import Alpm.ListHeap

/-!
# Runs of list operations

A client keeps lists in variables, all `NULL` at first, and calls the operations on them.  Its store
refines the data sequences: after every legal operation each variable is a list whose data are those
that the operation on sequences gives (`Run.refines`), and no legal operation gets stuck.

## 1.  The two levels

`Op.exec` runs an operation on the heap and `Op.apply` does it to the sequences.  The two agree
through `Represents`, which says that the variables hold lists without a common node, with the given
data.  An operation is legal if it uses existing variables, two different ones where it needs
disjoint lists, and its allocations succeed; `alpm_list_join` and `alpm_list_mmerge` consume their
second list, whose variable is `NULL` afterwards.

## 2.  Steps and runs

`Represents.step` is the step, one case for each operation with the rule of `Alpm.ListHeap` for its
program.  Between two calls the memory that belongs to no list may change in any way
(`Represents.elsewhere`), as the rest of the program runs there.  `list_refines` puts this together
for every run, with what is special to the sequences: on them `alpm_list_msort` is a stable sort for
every total preorder.
-/

namespace Alpm.ListHeap

open LinkedHeap

variable {δ : Type}

/-! ## The client -/

/-- The heap and the list variables of a client. -/
structure Store (δ : Type) where
  heap : Heap (Option δ)
  lists : List Ptr

/-- A call.  What `malloc` returns in it is part of the call. -/
inductive Op (δ : Type) where
  | append (malloc : Ptr) (i : ℕ) (data : Option δ)
  | addSorted (malloc : Ptr) (i : ℕ) (data : Option δ) (fn : Option (Cmp δ))
  | join (i j : ℕ)
  | mmerge (i j : ℕ) (fn : Cmp δ)
  | msort (i n : ℕ) (fn : Cmp δ)
  | removeItem (i k : ℕ)
  | remove (i : ℕ) (needle : Option δ) (fn : Cmp δ)
  | copy (malloc : ℕ → Ptr) (i j : ℕ)
  | reverse (malloc : ℕ → Ptr) (i j : ℕ)

/-- The value of a list variable. -/
def Store.list (s : Store δ) (i : ℕ) : Ptr := s.lists.getD i none

/-- Run `m` and assign the list that it returns. -/
def Store.assign (s : Store δ) (i : ℕ) (m : HeapM (Option δ) Ptr) : Option (Store δ) :=
  (m s.heap).map fun (list, heap) => ⟨heap, s.lists.set i list⟩

/-- The variable no longer holds a list. -/
def Store.clear (s : Store δ) (i : ℕ) : Store δ := ⟨s.heap, s.lists.set i none⟩

/-- A call on the store.  `alpm_list_join` and `alpm_list_mmerge` consume their second list,
and the item that is removed is the `k`-th node. -/
def Op.exec (fuel : ℕ) (s : Store δ) : Op δ → Option (Store δ)
  | .append malloc i data => s.assign i (Prod.snd <$> ListHeap.append malloc (s.list i) data)
  | .addSorted malloc i data fn =>
    s.assign i (ListHeap.addSorted fuel malloc (s.list i) data fn)
  | .join i j => (s.assign i (ListHeap.join (s.list i) (s.list j))).map (·.clear j)
  | .mmerge i j fn => (s.assign i (ListHeap.mmerge fuel (s.list i) (s.list j) fn)).map (·.clear j)
  | .msort i n fn => s.assign i (ListHeap.msort fuel (s.list i) n fn)
  | .removeItem i k => s.assign i (do ListHeap.removeItem (s.list i) (← walk k (s.list i)))
  | .remove i needle fn => s.assign i (Prod.fst <$> ListHeap.remove fuel (s.list i) needle fn)
  | .copy malloc i j => s.assign j (ListHeap.copy fuel malloc (s.list i))
  | .reverse malloc i j => s.assign j (ListHeap.reverse fuel malloc (s.list i))

/-! ## The operations on sequences -/

/-- The data sequences of the variables. -/
abbrev Contents (δ : Type) := List (List (Option δ))

/-- The data sequence of a variable. -/
def Contents.list (c : Contents δ) (i : ℕ) : List (Option δ) := c.getD i []

/-- What a call does to the data sequences. -/
def Op.apply (c : Contents δ) : Op δ → Contents δ
  | .append _ i data => c.set i (c.list i ++ [data])
  | .addSorted _ i data none => c.set i (c.list i ++ [data])
  | .addSorted _ i data (some fn) => c.set i ((c.list i).orderedInsert (fn · · ≤ 0) data)
  | .join i j => (c.set i (c.list i ++ c.list j)).set j []
  | .mmerge i j fn => (c.set i (listMmerge fn (c.list i) (c.list j))).set j []
  | .msort i _ fn => c.set i (listMsort fn (c.list i))
  | .removeItem i k => c.set i ((c.list i).eraseIdx k)
  | .remove i needle fn =>
    if needle.isNone then c else c.set i ((c.list i).eraseP (isNeedle fn needle))
  | .copy _ i j => c.set j (c.list i)
  | .reverse _ i j => c.set j (c.list i).reverse

/-- `malloc` succeeds `n` times, with distinct unused addresses. -/
def Allocates (h : Heap (Option δ)) (malloc : ℕ → Ptr) (n : ℕ) : Prop :=
  ∃ as : List ℕ, as.length = n ∧ as.Nodup ∧ (∀ a ∈ as, h a = none) ∧ ∀ k < n, malloc k = as[k]?

/-- The call uses existing variables, two different ones where it needs disjoint lists, and
its allocations succeed. -/
def Op.Legal (h : Heap (Option δ)) (c : Contents δ) : Op δ → Prop
  | .append malloc i _ | .addSorted malloc i _ _ =>
    i < c.length ∧ ∃ a, malloc = some a ∧ h a = none
  | .join i j | .mmerge i j _ => i < c.length ∧ j < c.length ∧ i ≠ j
  | .msort i n _ => i < c.length ∧ n = (c.list i).length
  | .removeItem i k => i < c.length ∧ k < (c.list i).length
  | .remove i _ _ => i < c.length
  | .copy malloc i j | .reverse malloc i j =>
    i < c.length ∧ j < c.length ∧ Allocates h malloc (c.list i).length

/-- The number of rounds that the loops of a call go at most. -/
def Op.rounds (c : Contents δ) : Op δ → ℕ
  | .append .. | .join .. | .removeItem .. => 0
  | .mmerge i j _ => (c.list i).length + (c.list j).length
  | .addSorted _ i _ _ | .msort i _ _ | .remove i _ _ | .copy _ i _ | .reverse _ i _ =>
    (c.list i).length

/-! ## Refinement -/

/-- The variable holds a list: it is `NULL`, or its nodes are linked in both directions,
`prev` of the head is the tail and `next` of the tail is `NULL`. -/
structure IsList (h : Heap (Option δ)) (list : Ptr) (xs : Cells (Option δ)) : Prop where
  head : list = headPtr xs
  nodup : (addrs xs).Nodup
  chain : Chain h (lastPtr xs) xs none

theorem IsList.shape {h : Heap (Option δ)} {list : Ptr} {xs : Cells (Option δ)}
    (hlist : IsList h list xs) : Shape h [listOf xs] where
  chains := by simpa [listOf] using hlist.chain
  nodup := by simpa [footprint, listOf] using hlist.nodup

/-- The variables hold lists without a common node, with the given data.  This is the relation
between the two levels; what is in memory besides the lists is not part of it. -/
structure Represents (s : Store δ) (c : Contents δ) (cells : List (Cells (Option δ))) : Prop where
  lists : s.lists = cells.map headPtr
  contents : c = cells.map (·.map Prod.snd)
  shape : Shape s.heap (cells.map listOf)

/-- The stores and contents that legal calls lead to, from variables that are all `NULL`.
In between the memory that belongs to no list can change. -/
inductive Run : Store δ → Contents δ → Prop
  | init (h : Heap (Option δ)) (n : ℕ) : Run ⟨h, List.replicate n none⟩ (List.replicate n [])
  | step {s s' : Store δ} {c : Contents δ} {fuel : ℕ} (op : Op δ) (hrun : Run s c)
      (hlegal : op.Legal s.heap c) (hfuel : op.rounds c ≤ fuel) (hexec : op.exec fuel s = some s') :
      Run s' (op.apply c)
  | elsewhere {s : Store δ} {c : Contents δ} {h' : Heap (Option δ)} (hrun : Run s c)
      (hsame : ∀ cells, Represents s c cells → ∀ a ∈ footprint (cells.map listOf),
        h' a = s.heap a) : Run ⟨h', s.lists⟩ c

namespace Represents

variable {s : Store δ} {c : Contents δ} {cells : List (Cells (Option δ))} {i j : ℕ}
  {xs : Cells (Option δ)}

/-- Taking the list of a variable out leaves the variable `NULL`. -/
theorem shape_set_iff {h : Heap (Option δ)} {cells : List (Cells (Option δ))}
    (hi : i < cells.length) (M : List (Segment (Option δ))) :
    Shape h (M ++ (cells.set i xs).map listOf) ↔
      Shape h (M ++ listOf xs :: (cells.set i []).map listOf) := by
  have hperm : ∀ ys, (M ++ (cells.set i ys).map listOf).Perm
      (M ++ listOf ys :: (cells.eraseIdx i).map listOf) := fun ys =>
    ((List.set_perm_cons_eraseIdx hi ys).map listOf).append_left M
  have hnil : (M ++ listOf xs :: (cells.set i []).map listOf).Perm
      (listOf [] :: (M ++ listOf xs :: (cells.eraseIdx i).map listOf)) := by
    calc
      (M ++ listOf xs :: (cells.set i []).map listOf).Perm _ := List.perm_middle
      _ |>.Perm (listOf xs :: (M ++ listOf [] :: (cells.eraseIdx i).map listOf)) :=
        (hperm []).cons _
      _ |>.Perm (listOf xs :: listOf [] :: (M ++ (cells.eraseIdx i).map listOf)) :=
        List.perm_middle.cons _
      _ |>.Perm (listOf [] :: listOf xs :: (M ++ (cells.eraseIdx i).map listOf)) := .swap ..
      _ |>.Perm _ := List.perm_middle.symm.cons _
  exact ⟨fun hs => (hs.perm (hperm xs)).cons_nil.perm hnil.symm,
    fun hs => (hs.perm hnil).tail.perm (hperm xs).symm⟩

theorem length (hr : Represents s c cells) : cells.length = c.length := by
  rw [hr.contents, List.length_map]

theorem list (hr : Represents s c cells) (i : ℕ) : s.list i = headPtr (cells.getD i []) := by
  simp only [Store.list, hr.lists, List.getD_eq_getElem?_getD, List.getElem?_map]
  cases cells[i]? <;> rfl

theorem contents_list (hr : Represents s c cells) (i : ℕ) :
    c.list i = (cells.getD i []).map Prod.snd := by
  simp only [Contents.list, hr.contents, List.getD_eq_getElem?_getD, List.getElem?_map]
  cases cells[i]? <;> rfl

/-- The list of a variable and the other lists. -/
theorem shape_getD {h : Heap (Option δ)} {cells : List (Cells (Option δ))}
    {M : List (Segment (Option δ))} (hi : i < cells.length)
    (hs : Shape h (M ++ cells.map listOf)) :
    Shape h (M ++ listOf (cells.getD i []) :: (cells.set i []).map listOf) := by
  rwa [← shape_set_iff hi, List.getD_eq_getElem _ _ hi, List.set_getElem_self]

/-- A program that turns the list of a variable into another list. -/
theorem assign (hr : Represents s c cells) (hi : i < c.length) {m : HeapM (Option δ) Ptr}
    {data : List (Option δ)} (hdata : xs.map Prod.snd = data)
    (hm : ∀ L, Shape s.heap (listOf (cells.getD i []) :: L) →
      wp m (fun list h => list = headPtr xs ∧ Shape h (listOf xs :: L)) s.heap) :
    ∃ s', s.assign i m = some s' ∧ Represents s' (c.set i data) (cells.set i xs) := by
  have hi' : i < cells.length := hr.length ▸ hi
  obtain ⟨list, h, hrun, rfl, hshape⟩ :=
    hm _ (@shape_getD _ _ _ _ [] hi' hr.shape)
  refine ⟨⟨h, s.lists.set i (headPtr xs)⟩, by simp [Store.assign, hrun], ?_, ?_, ?_⟩
  · rw [hr.lists, List.map_set]
  · rw [hr.contents, List.map_set, hdata]
  · exact (shape_set_iff hi' []).mpr hshape

/-- A program that takes two lists and leaves one. -/
theorem assign_clear (hr : Represents s c cells) (hi : i < c.length) (hj : j < c.length)
    (hij : i ≠ j) {m : HeapM (Option δ) Ptr} {data : List (Option δ)}
    (hdata : xs.map Prod.snd = data)
    (hm : ∀ L, Shape s.heap (listOf (cells.getD i []) :: listOf (cells.getD j []) :: L) →
      wp m (fun list h => list = headPtr xs ∧ Shape h (listOf xs :: L)) s.heap) :
    ∃ s', (s.assign i m).map (·.clear j) = some s' ∧
      Represents s' ((c.set i data).set j []) ((cells.set i xs).set j []) := by
  have hi' : i < cells.length := hr.length ▸ hi
  have hj' : j < cells.length := hr.length ▸ hj
  have hget : (cells.set i []).getD j [] = cells.getD j [] := by
    simp [List.getD_eq_getElem?_getD, List.getElem?_set_ne hij]
  have htwo := @shape_getD _ j _ _ [listOf (cells.getD i [])] (by simpa using hj')
    (@shape_getD _ _ _ _ [] hi' hr.shape)
  rw [hget] at htwo
  obtain ⟨list, h, hrun, rfl, hshape⟩ := hm _ htwo
  refine ⟨⟨h, (s.lists.set i (headPtr xs)).set j none⟩,
    by simp [Store.assign, Store.clear, hrun], ?_, ?_, ?_⟩
  · rw [hr.lists, List.map_set, List.map_set]
    rfl
  · rw [hr.contents, List.map_set, List.map_set, hdata]
    rfl
  · show Shape h (((cells.set i xs).set j []).map listOf)
    rw [List.set_comm _ _ hij] at hshape ⊢
    exact (@shape_set_iff _ i xs h _ (by simpa using hi') []).mpr hshape

/-- A program that makes a new list and keeps the old one. -/
theorem assign_new (hr : Represents s c cells) (hi : i < c.length) (hj : j < c.length)
    {m : HeapM (Option δ) Ptr} {data : List (Option δ)} (hdata : xs.map Prod.snd = data)
    (hm : ∀ L, Shape s.heap (listOf (cells.getD i []) :: L) →
      wp m (fun list h => list = headPtr xs ∧
        Shape h (listOf xs :: listOf (cells.getD i []) :: L)) s.heap) :
    ∃ s', s.assign j m = some s' ∧ Represents s' (c.set j data) (cells.set j xs) := by
  have hi' : i < cells.length := hr.length ▸ hi
  have hj' : j < cells.length := hr.length ▸ hj
  obtain ⟨list, h, hrun, rfl, hshape⟩ :=
    hm _ (@shape_getD _ _ _ _ [] hi' hr.shape)
  have hall : Shape h ([listOf xs] ++ cells.map listOf) := by
    have := (@shape_set_iff _ i (cells.getD i []) h cells hi' [listOf xs]).mpr hshape
    rwa [List.getD_eq_getElem _ _ hi', List.set_getElem_self] at this
  -- the old list of the variable is lost
  have hlost := (shape_getD hj' hall).swap.tail
  refine ⟨⟨h, s.lists.set j (headPtr xs)⟩, by simp [Store.assign, hrun], ?_, ?_, ?_⟩
  · rw [hr.lists, List.map_set]
  · rw [hr.contents, List.map_set, hdata]
  · exact (shape_set_iff hj' []).mpr hlost

end Represents

theorem notMem_footprint {h : Heap (Option δ)} {L : List (Segment (Option δ))} {a : ℕ}
    (hs : Shape h L) (ha : h a = none) : a ∉ footprint L := by
  intro hmem
  obtain ⟨c, hc, hac⟩ := List.mem_flatMap.mp hmem
  simpa [ha] using (hs.chains c hc).isSome hac

/-! ## The steps -/

section

variable {s : Store δ} {c : Contents δ} {cells : List (Cells (Option δ))} {fuel : ℕ}

/-- **A legal call does not get stuck**, and it does to the data what it should.  There is one case
for each operation, with the rule for its program; the other variables are the rest of the shape. -/
theorem Represents.step (hr : Represents s c cells) {op : Op δ} (hlegal : op.Legal s.heap c)
    (hfuel : op.rounds c ≤ fuel) :
    ∃ s', op.exec fuel s = some s' ∧ ∃ cells', Represents s' (op.apply c) cells' := by
  have hlen : ∀ i, (c.list i).length = (cells.getD i []).length := fun i => by
    rw [hr.contents_list, List.length_map]
  cases op with
  | append malloc i data =>
    obtain ⟨hi, a, rfl, ha⟩ := hlegal
    have hdata : (cells.getD i [] ++ [(a, data)]).map Prod.snd = c.list i ++ [data] := by
      simp [hr.contents_list]
    obtain ⟨s', hs', hr'⟩ := @assign _ _ _ _ _ _ hr hi
      (Prod.snd <$> append (some a) (s.list i) data) _ hdata fun L hs => by
        rw [hr.list]
        exact wp_map (wp_append hs (notMem_footprint hs ha) fun h' hs' => ⟨rfl, hs'⟩)
    exact ⟨s', hs', _, hr'⟩
  | addSorted malloc i data fn =>
    obtain ⟨hi, a, rfl, ha⟩ := hlegal
    rw [Op.rounds, hlen] at hfuel
    cases fn with
    | none =>
      have hdata : (cells.getD i [] ++ [(a, data)]).map Prod.snd = c.list i ++ [data] := by
        simp [hr.contents_list]
      obtain ⟨s', hs', hr'⟩ := @assign _ _ _ _ _ _ hr hi
        (addSorted fuel (some a) (s.list i) data none) _ hdata fun L hs => by
          rw [hr.list]
          exact wp_bind (wp_append hs (notMem_footprint hs ha) fun h' hs' => wp_pure ⟨rfl, hs'⟩)
      exact ⟨s', hs', _, hr'⟩
    | some fn =>
      have hdata : ((cells.getD i []).orderedInsert (fn ·.2 ·.2 ≤ 0) (a, data)).map Prod.snd =
          (c.list i).orderedInsert (fn · · ≤ 0) data := by
        rw [hr.contents_list]
        exact List.map_orderedInsert _ _ Prod.snd _ _ (fun _ _ => Iff.rfl) fun _ _ => Iff.rfl
      obtain ⟨s', hs', hr'⟩ := @assign _ _ _ _ _ _ hr hi
        (addSorted fuel (some a) (s.list i) data (some fn)) _ hdata fun L hs => by
          rw [hr.list]
          exact wp_addSorted hs (notMem_footprint hs ha) hfuel fun h' hs' => ⟨rfl, hs'⟩
      exact ⟨s', hs', _, hr'⟩
  | join i j =>
    obtain ⟨hi, hj, hij⟩ := hlegal
    have hdata : (cells.getD i [] ++ cells.getD j []).map Prod.snd = c.list i ++ c.list j := by
      simp [hr.contents_list]
    obtain ⟨s', hs', hr'⟩ := @assign_clear _ _ _ _ _ _ _ hr hi hj hij
      (join (s.list i) (s.list j)) _ hdata fun L hs => by
        rw [hr.list, hr.list]
        exact wp_join hs fun h' hs' => ⟨rfl, hs'⟩
    exact ⟨s', hs', _, hr'⟩
  | mmerge i j fn =>
    obtain ⟨hi, hj, hij⟩ := hlegal
    rw [Op.rounds, hlen, hlen] at hfuel
    have hdata : (listMmerge (onData fn) (cells.getD i []) (cells.getD j [])).map Prod.snd =
        listMmerge fn (c.list i) (c.list j) := by
      rw [hr.contents_list, hr.contents_list]
      exact map_listMmerge Prod.snd fn _ _
    obtain ⟨s', hs', hr'⟩ := @assign_clear _ _ _ _ _ _ _ hr hi hj hij
      (mmerge fuel (s.list i) (s.list j) fn) _ hdata fun L hs => by
        rw [hr.list, hr.list]
        exact wp_mmerge hs hfuel fun h' hs' => ⟨rfl, hs'⟩
    exact ⟨s', hs', _, hr'⟩
  | msort i n fn =>
    obtain ⟨hi, rfl⟩ := hlegal
    rw [Op.rounds] at hfuel
    have hdata : (listMsort (onData fn) (cells.getD i [])).map Prod.snd =
        listMsort fn (c.list i) := by
      rw [hr.contents_list]
      exact map_listMsort Prod.snd fn _
    obtain ⟨s', hs', hr'⟩ := @assign _ _ _ _ _ _ hr hi
      (msort fuel (s.list i) (c.list i).length fn) _ hdata fun L hs => by
        rw [hr.list]
        exact wp_msort hs (hlen i).symm hfuel fun h' hs' => ⟨rfl, hs'⟩
    exact ⟨s', hs', _, hr'⟩
  | removeItem i k =>
    obtain ⟨hi, hk⟩ := hlegal
    rw [hlen] at hk
    obtain ⟨front, item, rest, hsplit, rfl⟩ : ∃ front item rest,
        cells.getD i [] = front ++ item :: rest ∧ front.length = k :=
      ⟨_, _, _, (List.take_append_drop k _).symm.trans (by rw [List.drop_eq_getElem_cons hk]),
        List.length_take_of_le hk.le⟩
    have hdata : (front ++ rest).map Prod.snd = (c.list i).eraseIdx front.length := by
      rw [hr.contents_list, hsplit, List.map_append, List.map_append,
        List.eraseIdx_append_of_length_le (by simp)]
      simp
    obtain ⟨s', hs', hr'⟩ := @assign _ _ _ _ _ _ hr hi
      (do removeItem (s.list i) (← walk front.length (s.list i))) _ hdata fun L hs => by
        rw [hr.list]
        rw [hsplit] at hs ⊢
        refine wp_bind (wp_walk hs (by simp) ?_)
        exact wp_removeItem hs fun h' _ _ hs' => ⟨rfl, hs'.swap.tail⟩
    exact ⟨s', hs', _, hr'⟩
  | remove i needle fn =>
    have hi : i < c.length := hlegal
    rw [Op.rounds, hlen] at hfuel
    cases needle with
    | none =>
      obtain ⟨s', hs', hr'⟩ := @assign _ _ _ _ _ _ hr hi
        (Prod.fst <$> remove fuel (s.list i) none fn) _ (hr.contents_list i).symm fun L hs => by
          rw [hr.list]
          exact wp_map (wp_pure ⟨rfl, hs⟩)
      have hsame : c.set i (c.list i) = c := by
        rw [Contents.list, List.getD_eq_getElem _ _ hi, List.set_getElem_self]
      exact ⟨s', hs', _, hsame ▸ hr'⟩
    | some needle =>
      have hdata : ((cells.getD i []).eraseP (isNeedle fn (some needle) ·.2)).map Prod.snd =
          (c.list i).eraseP (isNeedle fn (some needle)) := by
        rw [hr.contents_list, List.eraseP_map]
        rfl
      obtain ⟨s', hs', hr'⟩ := @assign _ _ _ _ _ _ hr hi
        (Prod.fst <$> remove fuel (s.list i) (some needle) fn) _ hdata fun L hs => by
          rw [hr.list]
          exact wp_map (wp_remove hs hfuel fun h' hs' => ⟨rfl, hs'⟩)
      exact ⟨s', hs', _, hr'⟩
  | copy malloc i j =>
    obtain ⟨hi, hj, as, hlength, hnodup, hfree, hmalloc⟩ := hlegal
    rw [Op.rounds, hlen] at hfuel
    rw [hlen] at hlength hmalloc
    have hdata : (as.zip ((cells.getD i []).map Prod.snd)).map Prod.snd = c.list i := by
      rw [hr.contents_list, List.map_snd_zip]
      simp [hlength]
    obtain ⟨s', hs', hr'⟩ := @assign_new _ _ _ _ _ _ _ hr hi hj
      (copy fuel malloc (s.list i)) _ hdata fun L hs => by
        rw [hr.list]
        exact wp_copy hs hfuel (Returns.of_length hlength hmalloc)
          ⟨hnodup, fun a ha => notMem_footprint hs (hfree a ha)⟩ (fun _ h' hs' => ⟨rfl, hs'⟩)
          fun hlt => absurd hlength hlt.ne
    exact ⟨s', hs', _, hr'⟩
  | reverse malloc i j =>
    obtain ⟨hi, hj, as, hlength, hnodup, hfree, hmalloc⟩ := hlegal
    rw [Op.rounds, hlen] at hfuel
    rw [hlen] at hlength hmalloc
    have hdata : (as.zip ((cells.getD i []).map Prod.snd).reverse).map Prod.snd =
        (c.list i).reverse := by
      rw [hr.contents_list, List.map_snd_zip]
      simp [hlength]
    obtain ⟨s', hs', hr'⟩ := @assign_new _ _ _ _ _ _ _ hr hi hj
      (reverse fuel malloc (s.list i)) _ hdata fun L hs => by
        rw [hr.list]
        exact wp_reverse hs hfuel (Returns.of_length hlength hmalloc)
          ⟨hnodup, fun a ha => notMem_footprint hs (hfree a ha)⟩ (fun _ h' hs' => ⟨rfl, hs'⟩)
          fun hlt => absurd hlength hlt.ne
    exact ⟨s', hs', _, hr'⟩

/-- Memory that belongs to no list can change. -/
theorem Represents.elsewhere {h' : Heap (Option δ)} (hr : Represents s c cells)
    (hsame : ∀ a ∈ footprint (cells.map listOf), h' a = s.heap a) :
    Represents ⟨h', s.lists⟩ c cells where
  lists := hr.lists
  contents := hr.contents
  shape := ⟨fun seg hseg => (hr.shape.chains seg hseg).congr fun a ha =>
    hsame a (List.mem_flatMap.mpr ⟨seg, hseg, ha⟩), hr.shape.nodup⟩

theorem Represents.init (h : Heap (Option δ)) (n : ℕ) :
    Represents ⟨h, List.replicate n none⟩ (List.replicate n []) (List.replicate n []) where
  lists := by rw [List.map_replicate]; rfl
  contents := by rw [List.map_replicate]; rfl
  shape := by
    rw [List.map_replicate]
    refine ⟨fun seg hseg => ?_, ?_⟩
    · rw [List.eq_of_mem_replicate hseg]
      exact Chain.nil
    · induction n with
      | zero => exact List.nodup_nil
      | succ n ih => exact ih

/-- In every run the variables hold lists with the data of the sequences. -/
theorem Run.represents (hrun : Run s c) : ∃ cells, Represents s c cells := by
  induction hrun with
  | init h n => exact ⟨_, .init h n⟩
  | step op hrun hlegal hfuel hexec ih =>
    obtain ⟨cells, hr⟩ := ih
    obtain ⟨s', hs', hr'⟩ := hr.step hlegal hfuel
    rw [hexec] at hs'
    exact Option.some.inj hs' ▸ hr'
  | elsewhere hrun hsame ih =>
    obtain ⟨cells, hr⟩ := ih
    exact ⟨cells, hr.elsewhere (hsame cells hr)⟩

/-- A variable of a represented store is a list. -/
theorem Represents.isList (hr : Represents s c cells) {i : ℕ} (hi : i < c.length) :
    IsList s.heap (s.list i) (cells.getD i []) := by
  have hs := @shape_getD _ _ _ _ [] (hr.length ▸ hi) hr.shape
  exact ⟨hr.list i, hs.nodup_head, hs.head⟩

end

/-- **The linked list keeps its representation and its contents.**  In every run every
variable holds a list whose data are those of the sequence, and every legal call goes on
without getting stuck.  On sequences `alpm_list_msort` is a stable sort for every total
preorder, and `alpm_list_mmerge` of sorted lists a stable merge. -/
theorem list_refines :
    (∀ (s : Store δ) (c : Contents δ), Run s c →
      (∀ i < c.length, ∃ xs, IsList s.heap (s.list i) xs ∧ xs.map Prod.snd = c.list i) ∧
      ∀ op : Op δ, op.Legal s.heap c → ∀ fuel, op.rounds c ≤ fuel →
        ∃ s', op.exec fuel s = some s' ∧ Run s' (op.apply c)) ∧
    (∀ (fn : Cmp δ) (list : List (Option δ)), IsTotalPreorder fn →
      IsStableSort fn list (listMsort fn list)) ∧
    ∀ (fn : Cmp δ) (left right : List (Option δ)), IsTotalPreorder fn → IsSorted fn left →
      IsSorted fn right → IsStableSort fn (left ++ right) (listMmerge fn left right) := by
  refine ⟨fun s c hrun => ?_, fun fn list hfn => listMsort_isStableSort hfn list,
    fun fn left right hfn => listMmerge_isStableSort hfn⟩
  obtain ⟨cells, hr⟩ := hrun.represents
  refine ⟨fun i hi => ⟨_, hr.isList hi, (hr.contents_list i).symm⟩, ?_⟩
  intro op hlegal fuel hfuel
  obtain ⟨s', hs', -⟩ := hr.step hlegal hfuel
  exact ⟨s', hs', hrun.step op hlegal hfuel hs'⟩

/-- Numbers are compared by their last digits. -/
def lastDigit (left right : Option ℕ) : Int :=
  (left.getD 0 % 10 : ℕ) - (right.getD 0 % 10 : ℕ)

/-- Two lists are made by appending, the first is sorted, and the second is merged into it: `21`,
which was there before `31`, stays in front of it. -/
theorem list_refines_mmerge :
    ∃ s s' : Store ℕ, Run s [[some 21, some 12], [some 31]] ∧
      (Op.mmerge 0 1 lastDigit).exec 3 s = some s' ∧ Run s' [[some 21, some 31, some 12], []] ∧
      ∃ xs, IsList s'.heap (s'.list 0) xs ∧
        xs.map Prod.snd = [some 21, some 31, some 12] := by
  have hinit : Run (⟨fun _ => none, [none, none]⟩ : Store ℕ) [[], []] := Run.init _ 2
  have hfirst : Run _ [[some 12], []] := hinit.step (.append (some 1) 0 (some 12))
    ⟨by decide, 1, rfl, rfl⟩ (le_refl 0) (show Op.exec 0 _ _ = some _ from rfl)
  have hsecond : Run _ [[some 12, some 21], []] := hfirst.step (.append (some 2) 0 (some 21))
    ⟨by decide, 2, rfl, rfl⟩ (le_refl 0) (show Op.exec 0 _ _ = some _ from rfl)
  have hother : Run _ [[some 12, some 21], [some 31]] := hsecond.step (.append (some 3) 1 (some 31))
    ⟨by decide, 3, rfl, rfl⟩ (le_refl 0) (show Op.exec 0 _ _ = some _ from rfl)
  obtain ⟨s, -, hsorted⟩ := (list_refines.1 _ _ hother).2 (.msort 0 2 lastDigit)
    ⟨by decide, rfl⟩ 2 le_rfl
  have hsort : Op.apply [[some 12, some 21], [some 31]] (.msort 0 2 lastDigit) =
      [[some 21, some 12], [some 31]] := by
    decide +kernel
  rw [hsort] at hsorted
  obtain ⟨s', hexec, hmerged⟩ := (list_refines.1 _ _ hsorted).2 (.mmerge 0 1 lastDigit)
    ⟨by decide, by decide, by decide⟩ 3 le_rfl
  have hmerge : Op.apply [[some 21, some 12], [some 31]] (.mmerge 0 1 lastDigit) =
      [[some 21, some 31, some 12], []] := by
    decide +kernel
  rw [hmerge] at hmerged
  exact ⟨s, s', hsorted, hexec, hmerged, (list_refines.1 _ _ hmerged).1 0 (by decide)⟩

end Alpm.ListHeap
