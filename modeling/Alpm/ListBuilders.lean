import Alpm.ListRun

/-!
# Builders of lists when memory runs out

`alpm_list_copy`, `alpm_list_strdup`, `alpm_list_copy_data`, `alpm_list_remove_dupes` and
`alpm_list_reverse` make a new list from the data of another one.  When an allocation fails they
give back what they have allocated and return `NULL`.

## 1.  Blocks

The blocks that data point to are on the heap of the nodes: a block is a node with the bytes as its
data, and without links.  So one shape has the lists and the blocks, and that a block is not freed
with a list, or freed twice, is the same kind of fact as for nodes.

## 2.  One loop for two builders

`alpm_list_strdup` and `alpm_list_copy_data` differ in how they copy a block, and agree in that a
round makes a block and then a node for it.  `MakesItems` is what a round has to do, and
`MakesItems.wp` is the run of a loop with such rounds: with enough memory a list of new nodes with
new blocks, and otherwise nothing.

## 3.  The source list

The other list is as before the call, but for `alpm_list_reverse`, which breaks the link from the
head to the tail for its walk and restores it only when it succeeds.  `Builder.source_iff` is about
all builders and every pattern of failing allocations: all nodes of the source list are as before if
and only if the builder is not `alpm_list_reverse`, or its allocations succeed.
-/

namespace Alpm.ListHeap

open LinkedHeap

/-! ## Blocks of bytes -/

/-- What a node holds: the address of a block, or the bytes of the block that the node is. -/
inductive Word where
  | addr (a : ℕ)
  | bytes (s : List UInt8)
  deriving DecidableEq

/-- Read the block that a pointer points to. -/
def readBlock : Option Word → HeapM (Option Word) (List UInt8)
  | some (.addr a) => do
    match (← read (some a)).data with
    | some (.bytes s) => return s
    | _ => stuck
  | _ => stuck

/-- Fill in a block that was allocated. -/
def storeBlock (a : ℕ) (s : List UInt8) : HeapM (Option Word) Unit :=
  store a ⟨some (.bytes s), none, none⟩

/-- `free` of a pointer to a block. -/
def freeBlock : Option Word → HeapM (Option Word) Unit
  | none => return ()
  | some (.addr a) => LinkedHeap.free (some a)
  | some (.bytes _) => stuck

/-- `strdup`: the bytes up to the NUL, which has to be there. -/
def strdup (malloc : Ptr) (data : Option Word) : HeapM (Option Word) (Option Word) := do
  let s ← readBlock data
  if 0 ∈ s then
    match malloc with
    | none => return none
    | some a =>
      storeBlock a (s.takeWhile (· ≠ 0) ++ [0])
      return some (.addr a)
  else stuck

/-- `memcpy` of `size` bytes to new memory. -/
def memcpy (a : ℕ) (data : Option Word) (size : ℕ) : HeapM (Option Word) Unit := do
  let s ← readBlock data
  if size ≤ s.length then storeBlock a (s.take size) else stuck

/-! ## The builders -/

/-- `alpm_list_free_inner` with `free`. -/
def freeInner : ℕ → Ptr → HeapM (Option Word) Unit
  | _, none => return ()
  | 0, some _ => stuck
  | fuel + 1, some it => do
    let data := (← read (some it)).data
    if data.isSome then freeBlock data
    freeInner fuel (← read (some it)).next

/-- `FREELIST`. -/
def freelist (fuel : ℕ) (list : Ptr) : HeapM (Option Word) Unit := do
  freeInner fuel list
  free fuel list

/-- `alpm_list_append_strdup`: the return value and `*list`.  The two calls of `malloc` are that of
`strdup` and that of `alpm_list_append`. -/
def appendStrdup (mallocDup mallocNode list : Ptr) (data : Option Word) :
    HeapM (Option Word) (Ptr × Ptr) := do
  let dup ← strdup mallocDup data
  if dup = none then
    freeBlock dup
    return (none, list)
  else
    let (ret, list) ← append mallocNode list dup
    if ret = none then freeBlock dup
    return (ret, list)

/-- The loop of `alpm_list_strdup`; `n` nodes have been made so far. -/
def strdupLoop (malloc : ℕ → Ptr) : ℕ → ℕ → Ptr → Ptr → HeapM (Option Word) Ptr
  | _, _, none, newlist => return newlist
  | 0, _, some _, _ => stuck
  | fuel + 1, n, some lp, newlist => do
    let data := (← read (some lp)).data
    let (ret, newlist) ← appendStrdup (malloc (2 * n)) (malloc (2 * n + 1)) newlist data
    if ret = none then
      freelist n newlist
      return none
    else strdupLoop malloc fuel (n + 1) (← read (some lp)).next newlist

/-- `alpm_list_strdup`. -/
def listStrdup (fuel : ℕ) (malloc : ℕ → Ptr) (list : Ptr) : HeapM (Option Word) Ptr :=
  strdupLoop malloc fuel 0 list none

/-- The loop of `alpm_list_copy_data`; `n` nodes have been made so far. -/
def copyDataLoop (size : ℕ) (malloc : ℕ → Ptr) : ℕ → ℕ → Ptr → Ptr → HeapM (Option Word) Ptr
  | _, _, none, newlist => return newlist
  | 0, _, some _, _ => stuck
  | fuel + 1, n, some lp, newlist => do
    match malloc (2 * n) with
    | some newdata =>
      memcpy newdata (← read (some lp)).data size
      let (ret, newlist) ← append (malloc (2 * n + 1)) newlist (some (.addr newdata))
      if ret = none then
        freeBlock (some (.addr newdata))
        freelist n newlist
        return none
      else copyDataLoop size malloc fuel (n + 1) (← read (some lp)).next newlist
    | none =>
      freelist n newlist
      return none

/-- `alpm_list_copy_data`. -/
def copyData (size fuel : ℕ) (malloc : ℕ → Ptr) (list : Ptr) : HeapM (Option Word) Ptr :=
  copyDataLoop size malloc fuel 0 list none

section

variable {δ : Type}

/-- `alpm_list_find`. -/
def find (fn : Cmp δ) (needle : Option δ) : ℕ → Ptr → HeapM (Option δ) (Option δ)
  | _, none => return none
  | 0, some _ => stuck
  | fuel + 1, some lp => do
    let node ← read (some lp)
    if node.data.isSome ∧ fn node.data needle = 0 then return node.data
    else find fn needle fuel node.next

variable [DecidableEq δ]

/-- `ptr_cmp`. -/
def ptrCmp : Cmp δ := fun p q => if p ≠ q then 1 else 0

/-- `alpm_list_find_ptr`. -/
def findPtr (needle : Option δ) (fuel : ℕ) (haystack : Ptr) : HeapM (Option δ) (Option δ) :=
  find ptrCmp needle fuel haystack

/-- The loop of `alpm_list_remove_dupes`; `k` nodes have been allocated so far. -/
def removeDupesLoop (malloc : ℕ → Ptr) : ℕ → ℕ → Ptr → Ptr → HeapM (Option δ) Ptr
  | _, _, none, newlist => return newlist
  | 0, _, some _, _ => stuck
  | fuel + 1, k, some lp, newlist => do
    let data := (← read (some lp)).data
    if (← findPtr data k newlist) = none then
      let (ret, newlist) ← append (malloc k) newlist data
      if ret = none then
        free k newlist
        return none
      else removeDupesLoop malloc fuel (k + 1) (← read (some lp)).next newlist
    else removeDupesLoop malloc fuel k (← read (some lp)).next newlist

/-- `alpm_list_remove_dupes`. -/
def removeDupes (fuel : ℕ) (malloc : ℕ → Ptr) (list : Ptr) : HeapM (Option δ) Ptr :=
  removeDupesLoop malloc fuel 0 list none

end

variable {δ : Type} {h : Heap (Option δ)} {xs ys : Cells (Option δ)} {L : List (Segment (Option δ))}
  {malloc : ℕ → Ptr} {as : List ℕ} {a b fuel : ℕ}

/-! ## Removing duplicates -/

theorem wp_find {fn : Cmp δ} {needle : Option δ} {prev : Ptr}
    {post : Option δ → Heap (Option δ) → Prop} (hs : Shape h (⟨prev, xs, none⟩ :: L))
    (hfuel : xs.length ≤ fuel)
    (hpost : post ((xs.find? (isNeedle fn needle ·.2)).bind Prod.snd) h) :
    wp (find fn needle fuel (headPtr xs)) post h := by
  induction xs generalizing prev fuel L with
  | nil =>
    unfold find
    exact wp_pure hpost
  | cons x xs ih =>
    obtain ⟨fuel, rfl⟩ := Nat.exists_eq_add_of_le' (Nat.le_of_add_left_le hfuel)
    rw [headPtr_cons, find]
    refine wp_bind (wp_read_cons hs rfl ?_)
    dsimp only
    split_ifs with hfound
    · rw [List.find?_cons_of_pos (by simpa [isNeedle] using hfound)] at hpost
      exact wp_pure hpost
    · rw [List.find?_cons_of_neg (by simpa [isNeedle] using hfound)] at hpost
      rw [Option.or_none]
      exact ih (Shape.split_cons_iff.mp hs).swap (by simpa using hfuel) hpost

section

variable [DecidableEq δ]

/-- `NULL` is never found. -/
theorem findPtr_eq_none {needle : Option δ} :
    (xs.find? (isNeedle ptrCmp needle ·.2)).bind Prod.snd = none ↔
      ¬ (needle.isSome ∧ needle ∈ xs.map Prod.snd) := by
  have hneedle : ∀ data : Option δ, isNeedle ptrCmp needle data ↔ data.isSome ∧ data = needle := by
    intro data
    by_cases heq : data = needle <;> simp [isNeedle, ptrCmp, heq]
  cases hfind : xs.find? (isNeedle ptrCmp needle ·.2) with
  | none =>
    refine iff_of_true rfl ?_
    rintro ⟨hsome, hmem⟩
    obtain ⟨x, hx, rfl⟩ := List.mem_map.mp hmem
    exact List.find?_eq_none.mp hfind x hx ((hneedle x.2).mpr ⟨hsome, rfl⟩)
  | some x =>
    have hx := List.find?_some hfind
    obtain ⟨hsome, heq⟩ := (hneedle x.2).mp hx
    have hmem : needle ∈ xs.map Prod.snd :=
      heq ▸ List.mem_map_of_mem (List.mem_of_find?_eq_some hfind)
    refine iff_of_false (fun hnone => ?_) fun hnot => hnot ⟨heq ▸ hsome, hmem⟩
    rw [Option.bind_some] at hnone
    rw [hnone] at hsome
    cases hsome

/-- The data that `alpm_list_remove_dupes` appends to a list with the data `seen`. -/
def newData (seen : List (Option δ)) : List (Option δ) → List (Option δ)
  | [] => []
  | data :: rest =>
    if data.isSome ∧ data ∈ seen then newData seen rest
    else data :: newData (seen ++ [data]) rest

theorem wp_findPtr {needle : Option δ} {prev : Ptr} {post : Option δ → Heap (Option δ) → Prop}
    (hs : Shape h (⟨prev, xs, none⟩ :: L)) (hfuel : xs.length ≤ fuel)
    (hpost : ∀ found : Option δ, (found = none ↔ ¬ (needle.isSome ∧ needle ∈ xs.map Prod.snd)) →
      post found h) :
    wp (findPtr needle fuel (headPtr xs)) post h :=
  wp_find hs hfuel (hpost _ findPtr_eq_none)

/-- The loop of `alpm_list_remove_dupes`. -/
theorem wp_removeDupesLoop {new : Cells (Option δ)} {k : ℕ} {post : Ptr → Heap (Option δ) → Prop}
    (hs : Shape h (listOf new :: listOf (xs ++ ys) :: L)) (hfuel : ys.length ≤ fuel)
    (hnew : new.length ≤ k)
    (hmalloc : Returns malloc k (newData (new.map Prod.snd) (ys.map Prod.snd)).length as)
    (hfresh : Fresh as (listOf new :: listOf (xs ++ ys) :: L))
    (hok : as.length = (newData (new.map Prod.snd) (ys.map Prod.snd)).length → ∀ h',
      Shape h' (listOf (new ++ as.zip (newData (new.map Prod.snd) (ys.map Prod.snd))) ::
        listOf (xs ++ ys) :: L) →
      post (headPtr (new ++ as.zip (newData (new.map Prod.snd) (ys.map Prod.snd)))) h')
    (hfail : as.length < (newData (new.map Prod.snd) (ys.map Prod.snd)).length → ∀ h',
      Shape h' (listOf (xs ++ ys) :: L) → post none h') :
    wp (removeDupesLoop malloc fuel k (headPtr ys) (headPtr new)) post h := by
  induction ys generalizing xs new as k fuel h with
  | nil =>
    obtain rfl := List.eq_nil_of_length_eq_zero (Nat.le_zero.mp hmalloc.length_le)
    rw [List.zip_nil_left, List.append_nil] at hok
    unfold removeDupesLoop
    exact wp_pure (hok rfl _ hs)
  | cons y ys ih =>
    obtain ⟨fuel, rfl⟩ := Nat.exists_eq_add_of_le' (Nat.le_of_add_left_le hfuel)
    have happend : xs ++ y :: ys = (xs ++ [y]) ++ ys := by simp
    rw [headPtr_cons, removeDupesLoop]
    refine wp_bind (wp_read_listOf xs ys hs (by simp) ?_)
    refine wp_bind (wp_findPtr hs hnew fun found hfound => ?_)
    by_cases hseen : y.2.isSome ∧ y.2 ∈ new.map Prod.snd
    · rw [List.map_cons, newData, if_pos hseen] at hmalloc hok hfail
      rw [if_neg fun hnone => hfound.mp hnone hseen]
      refine wp_bind (wp_read_listOf xs ys hs (by simp) ?_)
      rw [happend] at hs hfresh hok hfail
      exact ih hs (by simpa using hfuel) hnew hmalloc hfresh hok hfail
    · rw [List.map_cons, newData, if_neg hseen, List.length_cons] at hmalloc hok hfail
      rw [if_pos (hfound.mpr hseen)]
      cases as with
      | nil =>
        rw [hmalloc.nil]
        refine wp_bind (wp_pure ?_)
        dsimp only
        rw [if_pos rfl]
        exact wp_bind (wp_free_list hs hnew fun h₁ hs₁ => wp_pure (hfail (Nat.succ_pos _) h₁ hs₁))
      | cons a as =>
        obtain ⟨hk, hmalloc⟩ := hmalloc.cons
        rw [hk]
        refine wp_bind (wp_append hs (hfresh.notMem a (List.mem_cons_self ..)) fun h₁ hs₁ => ?_)
        dsimp only
        rw [if_neg (by simp)]
        refine wp_bind (wp_read_listOf xs ys hs₁ (by simp) ?_)
        have hdata : (new ++ [(a, y.2)]).map Prod.snd = new.map Prod.snd ++ [y.2] := by simp
        rw [happend] at hs₁ hfresh hok hfail
        refine ih hs₁ (by simpa using hfuel) (by simpa using hnew) ?_ hfresh.cons ?_ ?_
        · rwa [hdata]
        · rw [hdata]
          intro hlength
          simpa using hok (by simpa using hlength)
        · rw [hdata]
          exact fun hlength => hfail (Nat.succ_lt_succ hlength)

/-- **`alpm_list_remove_dupes`** leaves the list and a new one with the first of each data pointer,
or gives up and leaves the list alone.  `NULL` is never found, so it is kept as often as it occurs.
-/
theorem wp_removeDupes {post : Ptr → Heap (Option δ) → Prop} (hs : Shape h (listOf xs :: L))
    (hfuel : xs.length ≤ fuel) (hmalloc : Returns malloc 0 (newData [] (xs.map Prod.snd)).length as)
    (hfresh : Fresh as (listOf xs :: L))
    (hok : as.length = (newData [] (xs.map Prod.snd)).length → ∀ h',
      Shape h' (listOf (as.zip (newData [] (xs.map Prod.snd))) :: listOf xs :: L) →
      post (headPtr (as.zip (newData [] (xs.map Prod.snd)))) h')
    (hfail : as.length < (newData [] (xs.map Prod.snd)).length → ∀ h',
      Shape h' (listOf xs :: L) → post none h') :
    wp (removeDupes fuel malloc (headPtr xs)) post h :=
  @wp_removeDupesLoop _ _ [] xs L malloc as fuel _ [] 0 post hs.cons_nil hfuel le_rfl hmalloc
    hfresh.listOf_nil hok hfail

end

/-! ## Lists with blocks of their own -/

/-- A node of a new list, with the block that its data point to. -/
structure Item where
  node : ℕ
  block : ℕ
  bytes : List UInt8

/-- The node. -/
def Item.cell (o : Item) : ℕ × Option Word := (o.node, some (.addr o.block))

/-- A block on the heap. -/
def blockOf (a : ℕ) (s : List UInt8) : Segment (Option Word) := ⟨none, [(a, some (.bytes s))], none⟩

/-- A new list and its blocks, next to other lists. -/
def owned (items : List Item) (L : List (Segment (Option Word))) : List (Segment (Option Word)) :=
  listOf (items.map Item.cell) :: (items.map (fun o => blockOf o.block o.bytes) ++ L)

/-- The data point to a block with the bytes `s`. -/
def Holds (L : List (Segment (Option Word))) (data : Option Word) (s : List UInt8) : Prop :=
  ∃ a, data = some (.addr a) ∧ ∃ c ∈ L, c.cells = [(a, some (.bytes s))]

section Items

variable {h : Heap (Option Word)} {xs ys : Cells (Option Word)} {L : List (Segment (Option Word))}
  {items : List Item} {data : Option Word} {s : List UInt8} {size n : ℕ}

theorem wp_readBlock {post : List UInt8 → Heap (Option Word) → Prop} (hs : Shape h L)
    (hdata : Holds L data s) (hpost : post s h) : wp (readBlock data) post h := by
  obtain ⟨block, rfl, c, hc, hcells⟩ := hdata
  have hblock := hs.chains c hc
  rw [hcells] at hblock
  rw [readBlock]
  exact wp_bind (wp_read rfl hblock.1 (wp_pure hpost))

/-- Giving a block back. -/
theorem wp_freeBlock {post : Unit → Heap (Option Word) → Prop} (hs : Shape h (blockOf a s :: L))
    (hpost : ∀ h', Shape h' L → post () h') : wp (freeBlock (some (.addr a))) post h :=
  wp_free_single hs rfl hpost

theorem wp_freeInner {front items : List Item} {post : Unit → Heap (Option Word) → Prop}
    (hs : Shape h (listOf ((front ++ items).map Item.cell) ::
      (items.map (fun o => blockOf o.block o.bytes) ++ L)))
    (hfuel : items.length ≤ fuel)
    (hpost : ∀ h', Shape h' (listOf ((front ++ items).map Item.cell) :: L) → post () h') :
    wp (freeInner fuel (headPtr (items.map Item.cell))) post h := by
  induction items generalizing front fuel h with
  | nil =>
    unfold freeInner
    exact wp_pure (hpost _ hs)
  | cons o items ih =>
    obtain ⟨fuel, rfl⟩ := Nat.exists_eq_add_of_le' (Nat.le_of_add_left_le hfuel)
    have hmap : (front ++ o :: items).map Item.cell =
        front.map Item.cell ++ o.cell :: items.map Item.cell := by simp
    have happend : front ++ o :: items = (front ++ [o]) ++ items := by simp
    rw [List.map_cons, headPtr_cons, freeInner]
    refine wp_bind (wp_read_listOf (front.map Item.cell) (items.map Item.cell) hs
      (by rw [hmap]; exact List.mem_cons_self ..) ?_)
    dsimp only
    rw [if_pos (by rfl)]
    refine wp_bind (wp_freeBlock hs.swap fun h₁ hs₁ => ?_)
    refine wp_bind (wp_read_listOf (front.map Item.cell) (items.map Item.cell) hs₁
      (by rw [hmap]; exact List.mem_cons_self ..) ?_)
    rw [happend] at hs₁ hpost
    exact ih hs₁ (by simpa using hfuel) hpost

/-- **`FREELIST`.** -/
theorem wp_freelist {post : Unit → Heap (Option Word) → Prop} (hs : Shape h (owned items L))
    (hfuel : items.length ≤ fuel) (hpost : ∀ h', Shape h' L → post () h') :
    wp (freelist fuel (headPtr (items.map Item.cell))) post h := by
  refine wp_bind (@wp_freeInner fuel h L [] items _ hs hfuel fun h₁ hs₁ => ?_)
  exact wp_free_list hs₁ (by simpa using hfuel) hpost

/-- A node for a block. -/
theorem wp_append_item {block node : ℕ} {post : Ptr × Ptr → Heap (Option Word) → Prop}
    (hs : Shape h (blockOf block s :: owned items L))
    (hnode : node ∉ footprint (blockOf block s :: owned items L))
    (hpost : ∀ h', Shape h' (owned (items ++ [Item.mk node block s]) L) →
      post (some node, headPtr ((items ++ [Item.mk node block s]).map Item.cell)) h') :
    wp (append (some node) (headPtr (items.map Item.cell)) (some (.addr block))) post h := by
  have hnode' : node ∉ footprint (listOf (items.map Item.cell) :: blockOf block s ::
      (items.map (fun o => blockOf o.block o.bytes) ++ L)) := by
    refine fun hmem => hnode ?_
    simp only [owned, footprint, List.flatMap_cons, List.mem_append] at hmem ⊢
    tauto
  refine wp_append hs.swap hnode' fun h₁ hs₁ => ?_
  rw [List.map_append] at hpost
  refine hpost h₁ (hs₁.perm ?_)
  rw [owned, List.map_append, List.map_append, List.append_assoc]
  exact List.perm_middle.symm.cons _

theorem Holds.cons (hdata : Holds L data s) (c : Segment (Option Word)) :
    Holds (c :: L) data s := by
  obtain ⟨block, rfl, d, hd, hcells⟩ := hdata
  exact ⟨block, rfl, d, List.mem_cons_of_mem _ hd, hcells⟩

theorem Holds.owned (hdata : Holds L data s) (items : List Item) :
    Holds (owned items L) data s := by
  obtain ⟨block, rfl, c, hc, hcells⟩ := hdata
  exact ⟨block, rfl, c, List.mem_cons_of_mem _ (List.mem_append_right _ hc), hcells⟩

theorem mem_footprint_owned_append {o : Item} {c : ℕ} :
    c ∈ footprint (owned (items ++ [o]) L) ↔
      c = o.node ∨ c = o.block ∨ c ∈ footprint (owned items L) := by
  simp only [owned, footprint, listOf, Item.cell, blockOf, List.map_append, List.map_cons,
    List.map_nil, List.flatMap_cons, List.flatMap_append, List.flatMap_nil, List.mem_append,
    List.mem_cons, List.not_mem_nil]
  tauto

theorem Fresh.item {block node : ℕ} (hfresh : Fresh (block :: node :: as) (owned items L)) :
    Fresh as (owned (items ++ [Item.mk node block s]) L) := by
  obtain ⟨hnodup, hnotMem⟩ := hfresh
  rw [List.nodup_cons, List.nodup_cons, List.mem_cons, not_or] at hnodup
  refine ⟨hnodup.2.2, fun c hc hmem => ?_⟩
  obtain rfl | rfl | hmem := mem_footprint_owned_append.mp hmem
  · exact hnodup.2.1 hc
  · exact hnodup.1.2 hc
  · exact hnotMem c (List.mem_cons_of_mem _ (List.mem_cons_of_mem _ hc)) hmem

/-- A node that is new, for a block that is new. -/
theorem Fresh.node {block node : ℕ} (hfresh : Fresh (block :: node :: as) (owned items L)) :
    node ∉ footprint (blockOf block s :: owned items L) := by
  obtain ⟨hnodup, hnotMem⟩ := hfresh
  have hne : node ≠ block := fun heq =>
    (List.nodup_cons.mp hnodup).1 (heq ▸ List.mem_cons_self ..)
  rw [footprint, List.flatMap_cons, List.mem_append, not_or]
  exact ⟨by simpa [blockOf] using hne, hnotMem node (by simp)⟩

/-- Memory runs out for the block, or for the node. -/
def NoMemory (L : List (Segment (Option Word))) (mallocBlock mallocNode : Ptr) : Prop :=
  mallocBlock = none ∨ ∃ block ∉ footprint L, mallocBlock = some block ∧ mallocNode = none

/-- What the loops of `alpm_list_strdup` and `alpm_list_copy_data` have in common: a round copies
a block and makes a node for it. -/
structure MakesItems (malloc : ℕ → Ptr) (Reads : List UInt8 → Prop)
    (copied : List UInt8 → List UInt8) (loop : ℕ → ℕ → Ptr → Ptr → HeapM (Option Word) Ptr) :
    Prop where
  done : ∀ fuel n newlist, loop fuel n none newlist = pure newlist
  item : ∀ {h items xs y ys L s n fuel block node as} {post : Ptr → Heap (Option Word) → Prop},
    Shape h (owned items (listOf (xs ++ y :: ys) :: L)) → Holds L y.2 s → Reads s →
    malloc (2 * n) = some block → malloc (2 * n + 1) = some node →
    Fresh (block :: node :: as) (owned items (listOf (xs ++ y :: ys) :: L)) →
    (∀ h', Shape h' (owned (items ++ [Item.mk node block (copied s)])
        (listOf (xs ++ y :: ys) :: L)) →
      wp (loop fuel (n + 1) (headPtr ys)
        (headPtr ((items ++ [Item.mk node block (copied s)]).map Item.cell))) post h') →
    wp (loop (fuel + 1) n (some y.1) (headPtr (items.map Item.cell))) post h
  nomem : ∀ {h items xs y ys L s n fuel} {post : Ptr → Heap (Option Word) → Prop},
    Shape h (owned items (listOf (xs ++ y :: ys) :: L)) → Holds L y.2 s → Reads s →
    NoMemory (owned items (listOf (xs ++ y :: ys) :: L)) (malloc (2 * n)) (malloc (2 * n + 1)) →
    items.length ≤ n →
    (∀ h', Shape h' (listOf (xs ++ y :: ys) :: L) → post none h') →
    wp (loop (fuel + 1) n (some y.1) (headPtr (items.map Item.cell))) post h

/-- The run of such a loop. -/
theorem MakesItems.wp {malloc : ℕ → Ptr} {Reads : List UInt8 → Prop}
    {copied : List UInt8 → List UInt8} {loop : ℕ → ℕ → Ptr → Ptr → HeapM (Option Word) Ptr}
    {post : Ptr → Heap (Option Word) → Prop} (hloop : MakesItems malloc Reads copied loop)
    (hs : Shape h (owned items (listOf (xs ++ ys) :: L)))
    (hdata : ∀ y ∈ ys, ∃ s, Holds L y.2 s ∧ Reads s) (hfuel : ys.length ≤ fuel)
    (hitems : items.length ≤ n) (hmalloc : Returns malloc (2 * n) (2 * ys.length) as)
    (hfresh : Fresh as (owned items (listOf (xs ++ ys) :: L)))
    (hok : as.length = 2 * ys.length → ∀ h' new, new.length = ys.length →
      Shape h' (owned (items ++ new) (listOf (xs ++ ys) :: L)) →
      post (headPtr ((items ++ new).map Item.cell)) h')
    (hfail : as.length < 2 * ys.length → ∀ h', Shape h' (listOf (xs ++ ys) :: L) → post none h') :
    LinkedHeap.wp (loop fuel n (headPtr ys) (headPtr (items.map Item.cell))) post h := by
  induction ys generalizing xs items as n fuel h with
  | nil =>
    rw [headPtr_nil, hloop.done]
    have hnil : as.length = 0 := Nat.le_zero.mp hmalloc.length_le
    have hpost := hok hnil h [] rfl
    rw [List.append_nil] at hpost
    exact wp_pure (hpost hs)
  | cons y ys ih =>
    obtain ⟨fuel, rfl⟩ := Nat.exists_eq_add_of_le' (Nat.le_of_add_left_le hfuel)
    obtain ⟨⟨s, hy, hreads⟩, hdata⟩ := List.forall_mem_cons.mp hdata
    rw [headPtr_cons]
    rw [List.length_cons] at hmalloc hok hfail
    have htwo : 2 * (ys.length + 1) = 2 * ys.length + 1 + 1 := rfl
    rw [htwo] at hmalloc hok hfail
    match as, hmalloc with
    | [], hmalloc =>
      exact hloop.nomem hs hy hreads (Or.inl hmalloc.nil) hitems (hfail (Nat.succ_pos _))
    | [block], hmalloc =>
      obtain ⟨hblock, hmalloc⟩ := hmalloc.cons
      have hnode : NoMemory _ _ _ := Or.inr ⟨block, hfresh.notMem block (by simp), hblock,
        hmalloc.nil⟩
      exact hloop.nomem hs hy hreads hnode hitems (hfail (by simp))
    | block :: node :: as, hmalloc =>
      obtain ⟨hblock, hmalloc⟩ := hmalloc.cons
      obtain ⟨hnode, hmalloc⟩ := hmalloc.cons
      refine hloop.item hs hy hreads hblock hnode hfresh fun h₁ hs₁ => ?_
      have hfresh₁ := @Fresh.item as _ items (copied s) block node hfresh
      have happend : xs ++ y :: ys = (xs ++ [y]) ++ ys := by simp
      rw [happend] at hs₁ hok hfail hfresh₁
      refine ih hs₁ hdata (by simpa using hfuel) (by simpa using hitems) hmalloc hfresh₁ ?_ ?_
      · intro hlength h' new hnew hs'
        rw [List.append_assoc] at hs' ⊢
        refine hok (by simpa using hlength) h' _ ?_ hs'
        simpa using hnew
      · intro hlength
        exact hfail (by simpa using hlength)

/-! ## Copying strings -/

/-- The bytes that `strdup` copies. -/
def strdupBytes (s : List UInt8) : List UInt8 := s.takeWhile (· ≠ 0) ++ [0]

theorem wp_strdup {block : ℕ} {post : Option Word → Heap (Option Word) → Prop} (hs : Shape h L)
    (hdata : Holds L data s) (hnul : 0 ∈ s) (hblock : block ∉ footprint L)
    (hpost : ∀ h', Shape h' (blockOf block (strdupBytes s) :: L) →
      post (some (.addr block)) h') :
    wp (strdup (some block) data) post h := by
  refine wp_bind (wp_readBlock hs hdata ?_)
  rw [if_pos hnul]
  exact wp_bind (wp_store_new hs hblock fun h₁ hs₁ => wp_pure (hpost h₁ hs₁))

theorem wp_strdup_nomem {post : Option Word → Heap (Option Word) → Prop} (hs : Shape h L)
    (hdata : Holds L data s) (hnul : 0 ∈ s) (hpost : post none h) :
    wp (strdup none data) post h := by
  refine wp_bind (wp_readBlock hs hdata ?_)
  rw [if_pos hnul]
  exact wp_pure hpost

/-- **`alpm_list_append_strdup`.** -/
theorem wp_appendStrdup {block node : ℕ} {post : Ptr × Ptr → Heap (Option Word) → Prop}
    (hs : Shape h (owned items L)) (hdata : Holds L data s) (hnul : 0 ∈ s)
    (hfresh : Fresh (block :: node :: as) (owned items L))
    (hpost : ∀ h', Shape h' (owned (items ++ [Item.mk node block (strdupBytes s)]) L) →
      post (some node, headPtr ((items ++ [Item.mk node block (strdupBytes s)]).map Item.cell))
        h') :
    wp (appendStrdup (some block) (some node) (headPtr (items.map Item.cell)) data) post h := by
  have hblock : block ∉ footprint (owned items L) := hfresh.notMem block (List.mem_cons_self ..)
  refine wp_bind (wp_strdup hs (hdata.owned items) hnul hblock fun h₁ hs₁ => ?_)
  rw [if_neg (by simp)]
  refine wp_bind (wp_append_item hs₁ hfresh.node fun h₂ hs₂ => ?_)
  dsimp only
  rw [if_neg (by simp)]
  exact wp_pure (hpost h₂ hs₂)

theorem wp_appendStrdup_nomem {mallocDup mallocNode : Ptr}
    {post : Ptr × Ptr → Heap (Option Word) → Prop} (hs : Shape h (owned items L))
    (hdata : Holds L data s) (hnul : 0 ∈ s) (hmem : NoMemory (owned items L) mallocDup mallocNode)
    (hpost : ∀ h', Shape h' (owned items L) → post (none, headPtr (items.map Item.cell)) h') :
    wp (appendStrdup mallocDup mallocNode (headPtr (items.map Item.cell)) data) post h := by
  obtain rfl | ⟨block, hblock, rfl, rfl⟩ := hmem
  · refine wp_bind (wp_strdup_nomem hs (hdata.owned items) hnul ?_)
    rw [if_pos rfl]
    exact wp_bind (wp_pure (wp_pure (hpost h hs)))
  · refine wp_bind (wp_strdup hs (hdata.owned items) hnul hblock fun h₁ hs₁ => ?_)
    rw [if_neg (by simp)]
    refine wp_bind (wp_pure ?_)
    dsimp only
    rw [if_pos rfl]
    exact wp_bind (wp_freeBlock hs₁ fun h₂ hs₂ => wp_pure (hpost h₂ hs₂))

/-- A round of `alpm_list_strdup`. -/
theorem makesItems_strdupLoop (malloc : ℕ → Ptr) :
    MakesItems malloc (0 ∈ ·) strdupBytes (strdupLoop malloc) where
  done fuel n newlist := by rw [strdupLoop]
  item {h items xs y ys L s n fuel block node as post} hs hdata hnul hblock hnode hfresh hnext := by
    rw [strdupLoop, hblock, hnode]
    refine wp_bind (wp_read_listOf xs ys hs (by simp [owned]) ?_)
    refine wp_bind (wp_appendStrdup hs (hdata.cons _) hnul hfresh fun h₁ hs₁ => ?_)
    dsimp only
    rw [if_neg (by simp)]
    exact wp_bind (wp_read_listOf xs ys hs₁ (by simp [owned]) (hnext h₁ hs₁))
  nomem {h items xs y ys L s n fuel post} hs hdata hnul hmem hitems hpost := by
    rw [strdupLoop]
    refine wp_bind (wp_read_listOf xs ys hs (by simp [owned]) ?_)
    refine wp_bind (wp_appendStrdup_nomem hs (hdata.cons _) hnul hmem fun h₁ hs₁ => ?_)
    dsimp only
    rw [if_pos rfl]
    exact wp_bind (wp_freelist hs₁ hitems fun h₂ hs₂ => wp_pure (hpost h₂ hs₂))

/-! ## Copying data -/

theorem wp_memcpy {block : ℕ} {post : Unit → Heap (Option Word) → Prop} (hs : Shape h L)
    (hdata : Holds L data s) (hsize : size ≤ s.length) (hblock : block ∉ footprint L)
    (hpost : ∀ h', Shape h' (blockOf block (s.take size) :: L) → post () h') :
    wp (memcpy block data size) post h := by
  refine wp_bind (wp_readBlock hs hdata ?_)
  rw [if_pos hsize]
  exact wp_store_new hs hblock hpost

/-- A round of `alpm_list_copy_data`. -/
theorem makesItems_copyDataLoop (size : ℕ) (malloc : ℕ → Ptr) :
    MakesItems malloc (size ≤ ·.length) (·.take size) (copyDataLoop size malloc) where
  done fuel n newlist := by rw [copyDataLoop]
  item {h items xs y ys L s n fuel block node as post} hs hdata hsize hblock hnode hfresh
      hnext := by
    rw [copyDataLoop, hblock, hnode]
    have hfree := hfresh.notMem block (List.mem_cons_self ..)
    refine wp_bind (wp_read_listOf xs ys hs (by simp [owned]) ?_)
    refine wp_bind (wp_memcpy hs ((hdata.cons _).owned items) hsize hfree fun h₁ hs₁ => ?_)
    refine wp_bind (wp_append_item hs₁ hfresh.node fun h₂ hs₂ => ?_)
    dsimp only
    rw [if_neg (by simp)]
    exact wp_bind (wp_read_listOf xs ys hs₂ (by simp [owned]) (hnext h₂ hs₂))
  nomem {h items xs y ys L s n fuel post} hs hdata hsize hmem hitems hpost := by
    rw [copyDataLoop]
    obtain hblock | ⟨block, hfree, hblock, hnode⟩ := hmem
    · rw [hblock]
      exact wp_bind (wp_freelist hs hitems fun h₁ hs₁ => wp_pure (hpost h₁ hs₁))
    · rw [hblock, hnode]
      refine wp_bind (wp_read_listOf xs ys hs (by simp [owned]) ?_)
      refine wp_bind (wp_memcpy hs ((hdata.cons _).owned items) hsize hfree fun h₁ hs₁ => ?_)
      refine wp_bind (wp_pure ?_)
      dsimp only
      rw [if_pos rfl]
      refine wp_bind (wp_freeBlock hs₁ fun h₂ hs₂ => ?_)
      exact wp_bind (wp_freelist hs₂ hitems fun h₃ hs₃ => wp_pure (hpost h₃ hs₃))

end Items

/-! ## Every builder and every failure -/

/-- A function that makes a new list from the data of another one. -/
inductive Builder where
  | copy
  | strdup
  | copyData (size : ℕ)
  | removeDupes
  | reverse
  deriving DecidableEq

/-- The call of a builder. -/
def Builder.run (fuel : ℕ) (malloc : ℕ → Ptr) (list : Ptr) : Builder → HeapM (Option Word) Ptr
  | .copy => ListHeap.copy fuel malloc list
  | .strdup => listStrdup fuel malloc list
  | .copyData size => ListHeap.copyData size fuel malloc list
  | .removeDupes => ListHeap.removeDupes fuel malloc list
  | .reverse => ListHeap.reverse fuel malloc list

/-- The number of allocations that a builder makes for a list, if none of them fails. -/
def Builder.mallocs (xs : Cells (Option Word)) : Builder → ℕ
  | .copy | .reverse => xs.length
  | .strdup | .copyData _ => 2 * xs.length
  | .removeDupes => (newData [] (xs.map Prod.snd)).length

/-- The data point to a block with the bytes `s`. -/
def PointsTo (h : Heap (Option Word)) (data : Option Word) (s : List UInt8) : Prop :=
  ∃ a, data = some (.addr a) ∧ h a = some ⟨some (.bytes s), none, none⟩

/-- What a builder reads through the data of the list is there: strings with a NUL, or enough
bytes. -/
def Builder.Reads (h : Heap (Option Word)) (xs : Cells (Option Word)) : Builder → Prop
  | .copy | .removeDupes | .reverse => True
  | .strdup => ∀ x ∈ xs, ∃ s, PointsTo h x.2 s ∧ 0 ∈ s
  | .copyData size => ∀ x ∈ xs, ∃ s, PointsTo h x.2 s ∧ size ≤ s.length

/-- The same of the blocks next to the list. -/
def Builder.Holds (L : List (Segment (Option Word))) (xs : Cells (Option Word)) : Builder → Prop
  | .copy | .removeDupes | .reverse => True
  | .strdup => ∀ x ∈ xs, ∃ s, ListHeap.Holds L x.2 s ∧ 0 ∈ s
  | .copyData size => ∀ x ∈ xs, ∃ s, ListHeap.Holds L x.2 s ∧ size ≤ s.length

section

variable {h : Heap (Option Word)} {list : Ptr} {xs : Cells (Option Word)}
  {L : List (Segment (Option Word))}

/-- Nodes can point to one block. -/
theorem exists_blocks {P : List UInt8 → Prop} (hdata : ∀ x ∈ xs, ∃ s, PointsTo h x.2 s ∧ P s) :
    ∃ L, Shape h L ∧ (∀ c ∈ L, ∃ a s, c = blockOf a s) ∧
      ∀ x ∈ xs, ∃ s, Holds L x.2 s ∧ P s := by
  induction xs with
  | nil => exact ⟨[], ⟨by simp, by simp [footprint]⟩, by simp, by simp⟩
  | cons x xs ih =>
    obtain ⟨⟨s, ⟨a, hx, ha⟩, hP⟩, hdata⟩ := List.forall_mem_cons.mp hdata
    obtain ⟨L, hs, hblocks, hholds⟩ := ih hdata
    by_cases hmem : a ∈ footprint L
    · obtain ⟨c, hc, hac⟩ := List.mem_flatMap.mp hmem
      obtain ⟨b, s', rfl⟩ := hblocks c hc
      obtain rfl : a = b := by simpa [blockOf] using hac
      have hnode := (hs.chains _ hc).1
      rw [ha] at hnode
      obtain ⟨rfl, -⟩ : s = s' ∧ _ := by simpa using hnode
      exact ⟨L, hs, hblocks, List.forall_mem_cons.mpr ⟨⟨s, ⟨a, hx, _, hc, rfl⟩, hP⟩, hholds⟩⟩
    · have hblock : Shape h (blockOf a s :: L) :=
        ⟨List.forall_mem_cons.mpr ⟨⟨ha, trivial⟩, hs.chains⟩, List.nodup_cons.mpr ⟨hmem, hs.nodup⟩⟩
      refine ⟨blockOf a s :: L, hblock, List.forall_mem_cons.mpr ⟨⟨a, s, rfl⟩, hblocks⟩, ?_⟩
      refine List.forall_mem_cons.mpr ⟨⟨s, ⟨a, hx, _, List.mem_cons_self .., rfl⟩, hP⟩, ?_⟩
      intro y hy
      obtain ⟨t, ht, hPt⟩ := hholds y hy
      exact ⟨t, ht.cons _, hPt⟩

/-- The list and the blocks that it points to. -/
theorem IsList.exists_shape {P : List UInt8 → Prop} (hlist : IsList h list xs)
    (hdata : ∀ x ∈ xs, ∃ s, PointsTo h x.2 s ∧ P s) :
    ∃ L, Shape h (listOf xs :: L) ∧ ∀ x ∈ xs, ∃ s, Holds L x.2 s ∧ P s := by
  obtain ⟨L, hs, hblocks, hholds⟩ := exists_blocks hdata
  refine ⟨L, ⟨List.forall_mem_cons.mpr ⟨hlist.chain, hs.chains⟩, ?_⟩, hholds⟩
  refine List.nodup_append.mpr ⟨hlist.nodup, hs.nodup, ?_⟩
  rintro a ha b hb rfl
  obtain ⟨x, hx, rfl⟩ := List.mem_map.mp ha
  obtain ⟨c, hc, hac⟩ := List.mem_flatMap.mp hb
  obtain ⟨b, s, rfl⟩ := hblocks c hc
  obtain rfl : x.1 = b := by simpa [blockOf] using hac
  -- a node of the list holds an address, and a block holds bytes
  obtain ⟨s', ⟨a, haddr, -⟩, -⟩ := hdata x hx
  obtain ⟨next, prev, hnode⟩ := hlist.chain.exists_node hx
  have hblock := (hs.chains _ hc).1
  rw [hnode, haddr] at hblock
  cases hblock

variable {malloc : ℕ → Ptr} {as : List ℕ} {fuel : ℕ}

/-- What the call of a builder leaves that has got the memory `as`: no new list, if this is not
enough, and the list as it was, but for `alpm_list_reverse`. -/
structure Builder.Outcome (b : Builder) (xs : Cells (Option Word)) (as : List ℕ) (newlist : Ptr)
    (h' : Heap (Option Word)) : Prop where
  null_iff : newlist = none ↔ xs = [] ∨ as.length < b.mallocs xs
  chain : Chain h' (if b = .reverse ∧ as.length < b.mallocs xs then none else lastPtr xs) xs none

theorem Builder.Outcome.ok {b : Builder} {newlist : Ptr} {h' : Heap (Option Word)}
    (hlength : as.length = b.mallocs xs) (hnull : newlist = none ↔ xs = []) (hs : Shape h' L)
    (hmem : listOf xs ∈ L) : b.Outcome xs as newlist h' where
  null_iff := by rw [hnull, hlength, or_iff_left (lt_irrefl _)]
  chain := by
    rw [if_neg fun hfail => hfail.2.ne hlength]
    exact hs.chains _ hmem

theorem Builder.Outcome.fail {b : Builder} {h' : Heap (Option Word)} (hb : b ≠ .reverse)
    (hlength : as.length < b.mallocs xs) (hs : Shape h' (listOf xs :: L)) :
    b.Outcome xs as none h' where
  null_iff := iff_of_true rfl (Or.inr hlength)
  chain := by
    rw [if_neg fun hfail => hb hfail.1]
    exact hs.head

/-- A list of new nodes. -/
theorem headPtr_zip_eq_none {datas : List (Option Word)} (hlength : as.length = datas.length) :
    headPtr (as.zip datas) = none ↔ datas = [] := by
  rw [headPtr_eq_none, List.zip_eq_nil_iff]
  constructor
  · rintro (rfl | hnil)
    · exact List.eq_nil_of_length_eq_zero hlength.symm
    · exact hnil
  · exact Or.inr

theorem newData_eq_nil {datas : List (Option Word)} : newData [] datas = [] ↔ datas = [] := by
  cases datas <;> simp [newData]

/-- The run of a builder that copies blocks. -/
theorem MakesItems.wp_run {P : List UInt8 → Prop} {copied : List UInt8 → List UInt8}
    {loop : ℕ → ℕ → Ptr → Ptr → HeapM (Option Word) Ptr} {b : Builder}
    (hloop : MakesItems malloc P copied loop) (hs : Shape h (listOf xs :: L))
    (hdata : ∀ x ∈ xs, ∃ s, Holds L x.2 s ∧ P s) (hfuel : xs.length ≤ fuel)
    (hb : b ≠ .reverse) (hmallocs : b.mallocs xs = 2 * xs.length)
    (hmalloc : Returns malloc 0 (2 * xs.length) as) (hfresh : Fresh as (listOf xs :: L)) :
    LinkedHeap.wp (loop fuel 0 (headPtr xs) none) (b.Outcome xs as) h := by
  refine @MakesItems.wp as fuel h [] xs L [] 0 malloc P copied loop _ hloop hs.cons_nil hdata hfuel
    le_rfl hmalloc hfresh.listOf_nil ?_ ?_
  · intro hlength h' new hnew hs'
    refine Builder.Outcome.ok (hlength.trans hmallocs.symm) ?_ hs' (by simp [owned])
    rw [List.nil_append, headPtr_eq_none, List.map_eq_nil_iff]
    rw [← List.length_eq_zero_iff, hnew, List.length_eq_zero_iff]
  · exact fun hlength h' hs' => Builder.Outcome.fail hb (hmallocs ▸ hlength) hs'

/-- **The run of a builder**, for every list of addresses that its allocations get: with enough of
them a new list next to the source, and otherwise `NULL` with everything given back that was
allocated. -/
theorem Builder.wp_run (b : Builder) (hs : Shape h (listOf xs :: L)) (hdata : b.Holds L xs)
    (hfuel : xs.length ≤ fuel) (hmalloc : Returns malloc 0 (b.mallocs xs) as)
    (hfresh : Fresh as (listOf xs :: L)) :
    wp (b.run fuel malloc (headPtr xs)) (b.Outcome xs as) h := by
  cases b with
  | copy =>
    refine wp_copy hs hfuel hmalloc hfresh (fun hlength h' hs' => ?_)
      fun hlength h' hs' => .fail (by simp) hlength hs'
    refine .ok hlength ?_ hs' (by simp)
    rw [headPtr_zip_eq_none (by rw [List.length_map]; exact hlength), List.map_eq_nil_iff]
  | strdup =>
    exact (makesItems_strdupLoop malloc).wp_run hs hdata hfuel (by simp) rfl hmalloc hfresh
  | copyData size =>
    exact (makesItems_copyDataLoop size malloc).wp_run hs hdata hfuel (by simp) rfl hmalloc hfresh
  | removeDupes =>
    refine wp_removeDupes hs hfuel hmalloc hfresh (fun hlength h' hs' => ?_)
      fun hlength h' hs' => .fail (by simp) hlength hs'
    refine .ok hlength ?_ hs' (by simp)
    rw [headPtr_zip_eq_none hlength, newData_eq_nil, List.map_eq_nil_iff]
  | reverse =>
    refine wp_reverse hs hfuel hmalloc hfresh (fun hlength h' hs' => ?_) fun hlength h' hs' => ?_
    · refine .ok hlength ?_ hs' (by simp)
      rw [headPtr_zip_eq_none (by rw [List.length_reverse, List.length_map]; exact hlength),
        List.reverse_eq_nil_iff, List.map_eq_nil_iff]
    · refine ⟨iff_of_true rfl (Or.inr hlength), ?_⟩
      rw [if_pos ⟨rfl, hlength⟩]
      exact hs'.head

/-- **The source list.**  A builder returns `NULL` when an allocation fails, and only then if the
list is not empty.  All nodes of the list are as before the call, unless the builder is
`alpm_list_reverse` and an allocation fails.  The allocations are any list of addresses that ends
too early, so each place of failure is covered. -/
theorem Builder.source_iff (b : Builder) (hlist : IsList h list xs) (hdata : b.Reads h xs)
    (hfuel : xs.length ≤ fuel) (hmalloc : Returns malloc 0 (b.mallocs xs) as) (hnodup : as.Nodup)
    (hfree : ∀ a ∈ as, h a = none) :
    ∃ newlist h', b.run fuel malloc list h = some (newlist, h') ∧
      (newlist = none ↔ xs = [] ∨ as.length < b.mallocs xs) ∧
      ((∀ a ∈ addrs xs, h' a = h a) ↔ ¬ (b = .reverse ∧ as.length < b.mallocs xs)) := by
  obtain ⟨L, hs, hholds⟩ : ∃ L, Shape h (listOf xs :: L) ∧ b.Holds L xs := by
    cases b with
    | strdup => exact hlist.exists_shape hdata
    | copyData size => exact hlist.exists_shape hdata
    | copy => exact ⟨[], hlist.shape, trivial⟩
    | removeDupes => exact ⟨[], hlist.shape, trivial⟩
    | reverse => exact ⟨[], hlist.shape, trivial⟩
  have hfresh : Fresh as (listOf xs :: L) :=
    ⟨hnodup, fun a ha => notMem_footprint hs (hfree a ha)⟩
  obtain ⟨newlist, h', hrun, hnull, hchain⟩ := b.wp_run hs hholds hfuel hmalloc hfresh
  refine ⟨newlist, h', by rw [hlist.head]; exact hrun, hnull, ?_⟩
  split_ifs at hchain with hfail
  · refine iff_of_false (fun hsame => ?_) fun hnot => hnot hfail
    obtain ⟨rfl, hlength⟩ := hfail
    obtain ⟨x, xs, rfl⟩ : ∃ x rest, xs = x :: rest :=
      List.exists_cons_of_ne_nil (by rintro rfl; exact Nat.not_lt_zero _ hlength)
    -- `prev` of the head was the tail and is `NULL`
    have hhead := hsame x.1 (List.mem_cons_self ..)
    rw [hlist.chain.1, hchain.1] at hhead
    have hprev : none = lastPtr (x :: xs) := by simpa using hhead
    rw [lastPtr_cons] at hprev
    cases hlast : lastPtr xs <;> simp [hlast] at hprev
  · exact iff_of_true (hlist.chain.agree hchain) hfail

end

/-- A list with one string. -/
def oneString : Heap (Option Word)
  | 1 => some ⟨some (.addr 2), none, some 1⟩
  | 2 => some ⟨some (.bytes [97, 0]), none, none⟩
  | _ => none

theorem oneString_isList : IsList oneString (some 1) [(1, some (.addr 2))] where
  head := rfl
  nodup := by decide
  chain := ⟨rfl, trivial⟩

/-- There is memory for the copy of the string, and not for its node. -/
theorem source_iff_oneString :
    ∃ newlist h', Builder.strdup.run 1 (fun k => [3][k]?) (some 1) oneString =
        some (newlist, h') ∧
      (newlist = none ↔ [(1, some (Word.addr 2))] = [] ∨ 1 < 2) ∧
      ((∀ a ∈ [1], h' a = oneString a) ↔ ¬ (Builder.strdup = .reverse ∧ 1 < 2)) := by
  refine @Builder.source_iff oneString (some 1) [(1, some (.addr 2))] _ [3] 1 .strdup
    oneString_isList ?_ le_rfl ?_ (by decide) (by decide)
  · exact List.forall_mem_singleton.mpr ⟨[97, 0], ⟨2, rfl, rfl⟩, by decide⟩
  · exact ⟨by decide, fun i _ _ => by rw [Nat.zero_add]⟩

/-- Without memory `alpm_list_reverse` returns `NULL` and leaves the list without its tail. -/
theorem source_reverse_oneString :
    ¬ ∃ newlist h', Builder.reverse.run 1 (fun _ => none) (some 1) oneString =
        some (newlist, h') ∧
      newlist = none ∧ ∀ a ∈ [1], h' a = oneString a := by
  have hrun : (Builder.reverse.run 1 (fun _ => none) (some 1) oneString).map
      (fun r => (r.2 1).map Node.prev) = some (some none) := by decide
  rintro ⟨newlist, h', heq, -, hsame⟩
  have hhead : h' 1 = oneString 1 := hsame 1 (List.mem_singleton_self 1)
  rw [heq, Option.map_some] at hrun
  dsimp only at hrun
  rw [hhead] at hrun
  exact absurd hrun (by decide)

end Alpm.ListHeap
