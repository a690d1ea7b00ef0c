import Alpm.General.LinkedHeap
import Alpm.List

/-!
# `alpm_list_t` on the heap

The nodes of a list are linked in both directions, and `prev` of the head points to the tail
(`IsList`); so every operation that changes the head or the tail has a link of the other end to
repair.

## 1.  Programs

The programs follow `alpm_list.c` write by write, on the heap of `General.LinkedHeap`.  A `void *`
of the data is an `Option`.  What a call of `malloc` returns is an argument, and a loop takes the
number of rounds it may go; a loop that uses them up is stuck, so a rule for a loop also says that
the rounds were enough.

## 2.  Rules

Each program has a rule that says which list it leaves, and that it changes no other node.  A rule
begins with a `Shape` that has the list among others and ends with one that has the new list in its
place, so the other lists need not be mentioned: they are the rest of the shape.

Inside a program a list is cut into chains where its links are changed.  `alpm_list_add_sorted` and
`alpm_list_remove_item` have a chain before and one after the node in question; the loop of
`alpm_list_mmerge` has what is merged and the rests of the two lists, with the rule that what is
merged ends at `lp` (`wp_mmergeLoop`); `alpm_list_msort` cuts a list in two that are lists again.

## 3.  Memory

The operations that copy take the results of their allocations.  `Returns` says how far the memory
goes, and a copy that finds none gives back what it has made (`wp_copy`).  `alpm_list_reverse` is
the exception: when it gives up it leaves the list without the link from its head to its tail
(`wp_reverse`).
-/

namespace Alpm.ListHeap

open LinkedHeap

variable {δ : Type}

/-- `alpm_list_fn_cmp`. -/
abbrev Cmp (δ : Type) := Option δ → Option δ → Int

/-! ## The operations -/

/-- `alpm_list_last`. -/
def last (list : Ptr) : HeapM (Option δ) Ptr :=
  match list with
  | none => return none
  | some _ => return (← read list).prev

/-- `alpm_list_free`. -/
def free : ℕ → Ptr → HeapM (Option δ) Unit
  | _, none => return ()
  | 0, some _ => stuck
  | fuel + 1, some it => do
    let tmp := (← read (some it)).next
    LinkedHeap.free (some it)
    free fuel tmp

/-- `alpm_list_append`: the return value and `*list`.  The first node is its own tail; any other
goes behind the tail, to which `prev` of the head leads. -/
def append (malloc list : Ptr) (data : Option δ) : HeapM (Option δ) (Ptr × Ptr) :=
  match malloc with
  | none => return (none, list)
  | some ptr => do
    store ptr ⟨data, none, none⟩
    match list with
    | none =>
      setPrev (some ptr) (some ptr)
      return (some ptr, some ptr)
    | some _ =>
      let lp ← last list
      setNext lp (some ptr)
      setPrev (some ptr) lp
      setPrev list (some ptr)
      return (some ptr, list)

/-- The search of `alpm_list_add_sorted` for the insertion point: `prev` and `next`. -/
def insertionPoint (fn : Cmp δ) (data : Option δ) : ℕ → Ptr → Ptr → HeapM (Option δ) (Ptr × Ptr)
  | _, prev, none => return (prev, none)
  | 0, _, some _ => stuck
  | fuel + 1, prev, some next => do
    let node ← read (some next)
    if fn data node.data ≤ 0 then return (prev, some next)
    else insertionPoint fn data fuel (some next) node.next

/-- `alpm_list_add_sorted`. -/
def addSorted (fuel : ℕ) (malloc list : Ptr) (data : Option δ) (fn : Option (Cmp δ)) :
    HeapM (Option δ) Ptr :=
  match fn, list with
  | some fn, some _ =>
    match malloc with
    | none => return list
    | some add => do
      store add ⟨data, none, none⟩
      let (prev, next) ← insertionPoint fn data fuel none list
      if prev = none then
        -- insert add as the first element
        setPrev (some add) (← read list).prev
        setNext (some add) list
        setPrev list (some add)
        return some add
      else if next = none then
        -- add last element
        setPrev (some add) prev
        setNext (some add) none
        setNext prev (some add)
        setPrev list (some add)
        return list
      else
        setPrev (some add) prev
        setNext (some add) next
        setPrev next (some add)
        setNext prev (some add)
        return list
  | _, _ => do
    let (_, list) ← append malloc list data
    return list

/-- `alpm_list_join`. -/
def join (first second : Ptr) : HeapM (Option δ) Ptr :=
  if first = none then return second
  else if second = none then return first
  else do
    -- tmp is the last element of the first list
    let tmp := (← read first).prev
    setNext tmp second
    setPrev first (← read second).prev
    setPrev second tmp
    return first

/-- A round of the loop of `alpm_list_mmerge` that takes `node`: what follows `node`, and the
new `lp`. -/
def takeNode (lp node : Ptr) : HeapM (Option δ) (Ptr × Ptr) := do
  setNext lp node
  setPrev node lp
  let rest := (← read node).next
  let lp := (← read lp).next
  setNext lp none
  return (rest, lp)

/-- The loop of `alpm_list_mmerge`: `left`, `right` and `lp` after it. -/
def mmergeLoop (fn : Cmp δ) : ℕ → Ptr → Ptr → Ptr → HeapM (Option δ) (Ptr × Ptr × Ptr)
  | _, none, right, lp => return (none, right, lp)
  | _, left, none, lp => return (left, none, lp)
  | 0, some _, some _, _ => stuck
  | fuel + 1, some left, some right, lp => do
    if fn (← read (some left)).data (← read (some right)).data ≤ 0 then
      let (left', lp) ← takeNode lp (some left)
      mmergeLoop fn fuel left' (some right) lp
    else
      let (right', lp) ← takeNode lp (some right)
      mmergeLoop fn fuel (some left) right' lp

/-- The end of `alpm_list_mmerge`: what is left goes behind `lp`, and the head gets the tail. -/
def mmergeRest (newlist left right lp leftTail rightTail : Ptr) : HeapM (Option δ) Unit :=
  if left ≠ none then do
    setNext lp left
    setPrev left lp
    setPrev newlist leftTail
  else if right ≠ none then do
    setNext lp right
    setPrev right lp
    setPrev newlist rightTail
  else setPrev newlist lp

/-- `alpm_list_mmerge`.  The smaller head is the head of the result; while the loop runs its `prev`
is `NULL`, and in the end it is the tail of the list that was not exhausted. -/
def mmerge (fuel : ℕ) (left right : Ptr) (fn : Cmp δ) : HeapM (Option δ) Ptr :=
  if left = none then return right
  else if right = none then return left
  else do
    let leftTail := (← read left).prev
    let rightTail := (← read right).prev
    let leftFirst := fn (← read left).data (← read right).data ≤ 0
    let newlist := if leftFirst then left else right
    let next := (← read newlist).next
    setPrev newlist none
    setNext newlist none
    let (left, right, lp) ←
      if leftFirst then mmergeLoop fn fuel next right newlist
      else mmergeLoop fn fuel left next newlist
    mmergeRest newlist left right lp leftTail rightTail
    return newlist

/-- `while(i--) lastleft = lastleft->next`. -/
def walk : ℕ → Ptr → HeapM (Option δ) Ptr
  | 0, p => return p
  | i + 1, p => do walk i (← read p).next

/-- The first part of `alpm_list_msort`: cut the list behind `half` nodes. -/
def msortCut (list : Ptr) (half : ℕ) : HeapM (Option δ) Ptr := do
  let lastleft ← walk (half - 1) list
  let right := (← read lastleft).next
  -- tidy new lists
  setNext lastleft none
  setPrev right (← read list).prev
  setPrev list lastleft
  return right

/-- `alpm_list_msort`: the list is cut in two, and the halves are sorted and merged. -/
def msort (fuel : ℕ) (list : Ptr) (n : ℕ) (fn : Cmp δ) : HeapM (Option δ) Ptr :=
  if n > 1 then do
    let half := n / 2
    let right ← msortCut list half
    let left ← msort fuel list half fn
    let right ← msort fuel right (n - half) fn
    mmerge fuel left right fn
  else return list
termination_by n

/-- `alpm_list_remove_item`. -/
def removeItem (haystack item : Ptr) : HeapM (Option δ) Ptr :=
  if haystack = none ∨ item = none then return haystack
  else if item = haystack then do
    -- the head node has the back reference to the tail node
    let haystack := (← read item).next
    if haystack ≠ none then setPrev haystack (← read item).prev
    setPrev item none
    return haystack
  else do
    let tail := (← read haystack).prev
    if item = tail then
      if (← read item).prev ≠ none then
        setNext (← read item).prev (← read item).next
        setPrev haystack (← read item).prev
        setPrev item none
      return haystack
    else
      if (← read item).next ≠ none then
        setPrev (← read item).next (← read item).prev
      if (← read item).prev ≠ none then
        setNext (← read item).prev (← read item).next
      return haystack

/-- The loop of `alpm_list_remove`: the list and `*data`. -/
def removeLoop (fn : Cmp δ) (needle : Option δ) (haystack : Ptr) :
    ℕ → Ptr → HeapM (Option δ) (Ptr × Option δ)
  | _, none => return (haystack, none)
  | 0, some _ => stuck
  | fuel + 1, some i => do
    let node ← read (some i)
    if node.data.isNone then removeLoop fn needle haystack fuel node.next
    else if fn node.data needle = 0 then
      let haystack ← removeItem haystack (some i)
      let data := (← read (some i)).data
      LinkedHeap.free (some i)
      return (haystack, data)
    else removeLoop fn needle haystack fuel node.next

/-- `alpm_list_remove`: the list and `*data`. -/
def remove (fuel : ℕ) (haystack : Ptr) (needle : Option δ) (fn : Cmp δ) :
    HeapM (Option δ) (Ptr × Option δ) :=
  if needle.isNone then return (haystack, none)
  else removeLoop fn needle haystack fuel haystack

/-- The loop of `alpm_list_copy`; `k` nodes have been allocated so far.  When an allocation fails
the new nodes are freed. -/
def copyLoop (malloc : ℕ → Ptr) : ℕ → ℕ → Ptr → Ptr → HeapM (Option δ) Ptr
  | _, _, none, newlist => return newlist
  | 0, _, some _, _ => stuck
  | fuel + 1, k, some lp, newlist => do
    let (ret, newlist) ← append (malloc k) newlist (← read (some lp)).data
    if ret = none then
      free k newlist
      return none
    else copyLoop malloc fuel (k + 1) (← read (some lp)).next newlist

/-- `alpm_list_copy`. -/
def copy (fuel : ℕ) (malloc : ℕ → Ptr) (list : Ptr) : HeapM (Option δ) Ptr :=
  copyLoop malloc fuel 0 list none

/-- The loop of `alpm_list_reverse`; `k` nodes have been allocated so far. -/
def reverseLoop (malloc : ℕ → Ptr) : ℕ → ℕ → Ptr → Ptr → HeapM (Option δ) (Option Ptr)
  | _, _, none, newlist => return some newlist
  | 0, _, some _, _ => stuck
  | fuel + 1, k, some lp, newlist => do
    let (ret, newlist) ← append (malloc k) newlist (← read (some lp)).data
    if ret = none then
      free k newlist
      return none
    else reverseLoop malloc fuel (k + 1) (← read (some lp)).prev newlist

/-- `alpm_list_reverse`.  The link from the head to the tail is broken so that the walk from the
tail ends at the head.  When memory runs out the tail pointer is not restored. -/
def reverse (fuel : ℕ) (malloc : ℕ → Ptr) (list : Ptr) : HeapM (Option δ) Ptr :=
  if list = none then return none
  else do
    let lp ← last list
    -- break our reverse circular list
    let backup := (← read list).prev
    setPrev list none
    match ← reverseLoop malloc fuel 0 lp none with
    | none => return none
    | some newlist =>
      setPrev list backup
      return newlist

/-! ## Lists -/

/-- A list: `prev` of the head is the tail and `next` of the tail is `NULL`. -/
def listOf (xs : Cells (Option δ)) : Segment (Option δ) := ⟨lastPtr xs, xs, none⟩

variable {h : Heap (Option δ)} {xs ys : Cells (Option δ)} {L : List (Segment (Option δ))}
  {a fuel : ℕ} {data : Option δ}

theorem wp_last {post : Ptr → Heap (Option δ) → Prop} {prev next : Ptr}
    (hs : Shape h (⟨prev, xs, next⟩ :: L)) (hne : xs ≠ []) (hpost : post prev h) :
    wp (last (headPtr xs)) post h := by
  obtain ⟨list, hlist⟩ := exists_headPtr hne
  rw [hlist]
  exact wp_bind (wp_read_head hs hlist.symm hne fun _ _ => wp_pure hpost)

/-- A node between the two parts of a list. -/
theorem listOf_insert (hne : ys ≠ []) (xs : Cells (Option δ)) :
    listOf (xs ++ (a, data) :: ys) = ⟨lastPtr ys, xs ++ ([(a, data)] ++ ys), none⟩ := by
  obtain ⟨last, hlast⟩ := exists_lastPtr hne
  simp [listOf, lastPtr_append, lastPtr_cons, hlast]

/-! ## Adding -/

/-- **`alpm_list_append`** puts a new node behind the last one.  The tail is found through `prev` of
the head, and this link is then that to the new node. -/
theorem wp_append {post : Ptr × Ptr → Heap (Option δ) → Prop} (hs : Shape h (listOf xs :: L))
    (ha : a ∉ footprint (listOf xs :: L))
    (hpost : ∀ h', Shape h' (listOf (xs ++ [(a, data)]) :: L) →
      post (some a, headPtr (xs ++ [(a, data)])) h') :
    wp (append (some a) (headPtr xs) data) post h := by
  unfold append
  refine wp_bind (wp_store_new hs ha fun h₁ hs₁ => ?_)
  by_cases hne : xs = []
  · subst hne
    refine wp_bind (wp_setPrev_head hs₁ rfl (by simp) fun h₂ hs₂ => wp_pure (hpost _ ?_))
    exact hs₂.swap.tail
  · obtain ⟨first, hfirst⟩ := exists_headPtr hne
    obtain ⟨lp, hlp⟩ := exists_lastPtr hne
    have hhead : headPtr (xs ++ [(a, data)]) = headPtr xs := by simp [headPtr_append, hfirst]
    rw [hhead] at hpost
    simp only [hfirst]
    rw [← hfirst]
    refine wp_bind (wp_last hs₁.swap hne ?_)
    refine wp_bind (wp_setNext_last hs₁.swap rfl hne fun h₂ hs₂ => ?_)
    refine wp_bind (wp_setPrev_head hs₂.swap rfl (by simp) fun h₃ hs₃ => ?_)
    refine wp_bind (wp_setPrev_head hs₃.swap rfl hne fun h₄ hs₄ => wp_pure (hpost _ ?_))
    rw [listOf, lastPtr_append_singleton, Shape.split_iff]
    simpa [hlp] using hs₄

/-- The search stops before the first element that is not smaller. -/
theorem wp_insertionPoint {fn : Cmp δ} {prev : Ptr} {post : Ptr × Ptr → Heap (Option δ) → Prop}
    (hs : Shape h (⟨prev, xs ++ ys, none⟩ :: L)) (hfuel : ys.length ≤ fuel)
    (hpost : post (lastPtr (xs ++ ys.takeWhile (¬ fn data ·.2 ≤ 0)),
      headPtr (ys.dropWhile (¬ fn data ·.2 ≤ 0))) h) :
    wp (insertionPoint fn data fuel (lastPtr xs) (headPtr ys)) post h := by
  induction ys generalizing xs fuel with
  | nil =>
    rw [List.takeWhile_nil, List.append_nil] at hpost
    unfold insertionPoint
    exact wp_pure hpost
  | cons y ys ih =>
    obtain ⟨fuel, rfl⟩ := Nat.exists_eq_add_of_le' (Nat.le_of_add_left_le hfuel)
    rw [headPtr_cons, insertionPoint]
    refine wp_bind (wp_read_cons (Shape.split_iff.mp hs).swap rfl ?_)
    by_cases hle : fn data y.2 ≤ 0
    · rw [if_pos hle]
      refine wp_pure ?_
      simpa [hle] using hpost
    · rw [if_neg hle, Option.or_none]
      have happend : ∀ ys, xs ++ y :: ys = (xs ++ [y]) ++ ys := fun ys => by simp
      rw [happend] at hs
      rw [List.takeWhile_cons_of_pos (by simpa using hle), happend,
        List.dropWhile_cons_of_pos (by simpa using hle)] at hpost
      simpa using ih hs (by simpa using hfuel) hpost

/-- **`alpm_list_add_sorted`** puts a new node before the first element that is not smaller.  At the
front the head changes and takes over the link to the tail; at the end that link changes. -/
theorem wp_addSorted {fn : Cmp δ} {post : Ptr → Heap (Option δ) → Prop}
    (hs : Shape h (listOf xs :: L)) (ha : a ∉ footprint (listOf xs :: L)) (hfuel : xs.length ≤ fuel)
    (hpost : ∀ h', Shape h' (listOf (xs.orderedInsert (fn ·.2 ·.2 ≤ 0) (a, data)) :: L) →
      post (headPtr (xs.orderedInsert (fn ·.2 ·.2 ≤ 0) (a, data))) h') :
    wp (addSorted fuel (some a) (headPtr xs) data (some fn)) post h := by
  by_cases hne : xs = []
  · subst hne
    exact wp_bind (wp_append hs ha fun h' hs' => wp_pure (hpost h' hs'))
  obtain ⟨first, hfirst⟩ := exists_headPtr hne
  rw [List.orderedInsert_eq_take_drop] at hpost
  have hinsertion {post : Ptr × Ptr → Heap (Option δ) → Prop} {L} {h : Heap (Option δ)}
      (hs : Shape h (⟨lastPtr xs, xs, none⟩ :: L)) :=
    @wp_insertionPoint _ _ [] xs L fuel data fn (lastPtr xs) post hs hfuel
  have hsplit : xs = xs.takeWhile (¬ fn data ·.2 ≤ 0) ++ xs.dropWhile (¬ fn data ·.2 ≤ 0) :=
    List.takeWhile_append_dropWhile.symm
  unfold addSorted
  simp only [hfirst]
  rw [← hfirst]
  refine wp_bind (wp_store_new hs ha fun h₁ hs₁ => ?_)
  refine wp_bind (hinsertion hs₁.swap ?_)
  generalize xs.takeWhile (¬ fn data ·.2 ≤ 0) = before at *
  generalize xs.dropWhile (¬ fn data ·.2 ≤ 0) = after at *
  rw [List.nil_append]
  by_cases hbefore : before = []
  · subst hbefore
    obtain rfl : xs = after := hsplit
    rw [lastPtr_nil, if_pos rfl]
    refine wp_bind (wp_read_head hs₁.swap rfl hne fun _ _ => ?_)
    refine wp_bind (wp_setPrev_head hs₁ rfl (by simp) fun h₂ hs₂ => ?_)
    refine wp_bind (wp_setNext_last hs₂ rfl (by simp) fun h₃ hs₃ => ?_)
    refine wp_bind (wp_setPrev_head hs₃.swap rfl hne fun h₄ hs₄ => wp_pure (hpost _ ?_))
    rw [listOf_insert hne, List.nil_append, Shape.split_iff]
    simpa using hs₄.swap
  obtain ⟨prev, hprev⟩ := exists_lastPtr hbefore
  obtain ⟨head, hhead⟩ := exists_headPtr hbefore
  have hfirst : headPtr (before ++ (a, data) :: after) = headPtr xs := by
    simp [hsplit, headPtr_append, hhead]
  rw [hfirst] at hpost
  rw [if_neg (by simp [hprev])]
  by_cases hafter : after = []
  · subst hafter
    rw [List.append_nil] at hsplit
    subst hsplit
    rw [headPtr_nil, if_pos rfl]
    refine wp_bind (wp_setPrev_head hs₁ rfl (by simp) fun h₂ hs₂ => ?_)
    refine wp_bind (wp_setNext_last hs₂ rfl (by simp) fun h₃ hs₃ => ?_)
    refine wp_bind (wp_setNext_last hs₃.swap rfl hne fun h₄ hs₄ => ?_)
    refine wp_bind (wp_setPrev_head hs₄ rfl hne fun h₅ hs₅ => wp_pure (hpost _ ?_))
    rw [listOf, lastPtr_append_singleton, Shape.split_iff]
    simpa [hprev] using hs₅
  · obtain ⟨next, hnext⟩ := exists_headPtr hafter
    obtain ⟨tail, htail⟩ := exists_lastPtr hafter
    rw [if_neg (by simp [hnext])]
    have hs₁ : Shape h₁ (⟨none, [(a, data)], none⟩ :: ⟨lastPtr after, before, headPtr after⟩ ::
        ⟨lastPtr before, after, none⟩ :: L) := by
      have hs₁ := hs₁.swap
      rw [listOf, hsplit, Shape.split_iff] at hs₁
      simpa [lastPtr_append, hprev, hnext, htail] using hs₁.rotate
    refine wp_bind (wp_setPrev_head hs₁ rfl (by simp) fun h₂ hs₂ => ?_)
    refine wp_bind (wp_setNext_last hs₂ rfl (by simp) fun h₃ hs₃ => ?_)
    refine wp_bind (wp_setPrev_head hs₃.rotate rfl hafter fun h₄ hs₄ => ?_)
    refine wp_bind (wp_setNext_last hs₄.rotate rfl hbefore fun h₅ hs₅ => wp_pure (hpost _ ?_))
    have hright : Shape h₅ (⟨lastPtr before, [(a, data)] ++ after, none⟩ ::
        ⟨lastPtr after, before, some a⟩ :: L) := by
      rw [Shape.split_iff]
      simpa [hnext] using hs₅.swap.rotate
    rw [listOf_insert hafter, Shape.split_iff]
    simpa [hprev] using hright.swap

/-- **`alpm_list_join`** puts the second list behind the first, by four writes at their ends; an
empty list on one side leaves the other as it is. -/
theorem wp_join {post : Ptr → Heap (Option δ) → Prop}
    (hs : Shape h (listOf xs :: listOf ys :: L))
    (hpost : ∀ h', Shape h' (listOf (xs ++ ys) :: L) → post (headPtr (xs ++ ys)) h') :
    wp (join (headPtr xs) (headPtr ys)) post h := by
  unfold join
  by_cases hx : xs = []
  · subst hx
    rw [headPtr_nil, if_pos rfl]
    exact wp_pure (hpost _ hs.tail)
  by_cases hy : ys = []
  · subst hy
    rw [headPtr_nil, if_pos rfl]
    rw [List.append_nil] at hpost
    split_ifs with h
    · exact wp_pure (h ▸ hpost _ hs.swap.tail)
    · exact wp_pure (hpost _ hs.swap.tail)
  obtain ⟨first, hfirst⟩ := exists_headPtr hx
  obtain ⟨second, hsecond⟩ := exists_headPtr hy
  obtain ⟨tmp, htmp⟩ := exists_lastPtr hx
  obtain ⟨tail, htail⟩ := exists_lastPtr hy
  have hhead : headPtr (xs ++ ys) = headPtr xs := by simp [headPtr_append, hfirst]
  rw [hhead] at hpost
  rw [if_neg (by simp [hfirst]), if_neg (by simp [hsecond])]
  refine wp_bind (wp_read_head hs rfl hx fun _ _ => ?_)
  refine wp_bind (wp_setNext_last hs rfl hx fun h₁ hs₁ => ?_)
  refine wp_bind (wp_read_head hs₁.swap rfl hy fun _ _ => ?_)
  refine wp_bind (wp_setPrev_head hs₁ rfl hx fun h₂ hs₂ => ?_)
  refine wp_bind (wp_setPrev_head hs₂.swap rfl hy fun h₃ hs₃ => wp_pure (hpost _ ?_))
  rw [listOf, lastPtr_append, htail, Option.some_or, Shape.split_iff]
  simpa [hsecond, htmp, htail] using hs₃.swap

/-! ## Merging and sorting -/

/-- A comparison of data as a comparison of nodes. -/
def onData (fn : Cmp δ) (x y : ℕ × Option δ) : Int := fn x.2 y.2

theorem wp_takeNode {acc : Cells (Option δ)} {p : Ptr} {x : ℕ × Option δ}
    {post : Ptr × Ptr → Heap (Option δ) → Prop}
    (hs : Shape h (⟨none, acc, none⟩ :: ⟨p, x :: xs, none⟩ :: L)) (hne : acc ≠ [])
    (hpost : ∀ h', Shape h' (⟨none, acc ++ [x], none⟩ :: ⟨some x.1, xs, none⟩ :: L) →
      post (headPtr xs, lastPtr (acc ++ [x])) h') :
    wp (takeNode (lastPtr acc) (some x.1)) post h := by
  rcases List.eq_nil_or_concat acc with rfl | ⟨acc, y, rfl⟩
  · exact absurd rfl hne
  rw [List.concat_eq_append] at *
  rw [lastPtr_append_singleton]
  unfold takeNode
  refine wp_bind (wp_setNext_last hs (by simp) (by simp) fun h₁ hs₁ => ?_)
  refine wp_bind (wp_setPrev_head hs₁.swap rfl (by simp) fun h₂ hs₂ => ?_)
  refine wp_bind (wp_read_cons hs₂ rfl ?_)
  refine wp_bind (wp_read_last hs₂.swap rfl ?_)
  have hs₃ := Shape.split_cons_iff.mp hs₂
  refine wp_bind (wp_setNext_last hs₃ rfl (by simp) fun h₄ hs₄ => wp_pure ?_)
  rw [Option.or_none]
  rw [lastPtr_append_singleton] at hpost
  refine hpost _ (Shape.split_iff.mpr ?_)
  simpa using hs₄.rotate

/-- The loop of `alpm_list_mmerge` moves nodes to the end of what it has merged; one of the
two lists is then exhausted. -/
theorem wp_mmergeLoop {fn : Cmp δ} {acc ls rs : Cells (Option δ)} {pl pr : Ptr}
    {post : Ptr × Ptr × Ptr → Heap (Option δ) → Prop}
    (hs : Shape h (⟨none, acc, none⟩ :: ⟨pl, ls, none⟩ :: ⟨pr, rs, none⟩ :: L)) (hne : acc ≠ [])
    (hfuel : ls.length + rs.length ≤ fuel)
    (hpost : ∀ h' pl' pr' moved ls' rs',
      Shape h' (⟨none, acc ++ moved, none⟩ :: ⟨pl', ls', none⟩ :: ⟨pr', rs', none⟩ :: L) →
      ls' <:+ ls → rs' <:+ rs → ls' = [] ∨ rs' = [] →
      listMmerge (onData fn) ls rs = moved ++ (ls' ++ rs') →
      post (headPtr ls', headPtr rs', lastPtr (acc ++ moved)) h') :
    wp (mmergeLoop fn fuel (headPtr ls) (headPtr rs) (lastPtr acc)) post h := by
  induction fuel generalizing acc ls rs pl pr h with
  | zero =>
    obtain rfl : ls = [] := List.length_eq_zero_iff.mp (by omega)
    have := hpost h pl pr [] [] rs (by simpa using hs) List.suffix_rfl List.suffix_rfl (Or.inl rfl)
      (by simp [listMmerge])
    unfold mmergeLoop
    exact wp_pure (by simpa using this)
  | succ fuel ih =>
    rcases ls with _ | ⟨l, ls⟩
    · have := hpost h pl pr [] [] rs (by simpa using hs) List.suffix_rfl List.suffix_rfl
        (Or.inl rfl) (by simp [listMmerge])
      unfold mmergeLoop
      exact wp_pure (by simpa using this)
    rcases rs with _ | ⟨r, rs⟩
    · have := hpost h pl pr [] (l :: ls) [] (by simpa using hs) List.suffix_rfl List.suffix_rfl
        (Or.inr rfl) (by simp [listMmerge])
      unfold mmergeLoop
      exact wp_pure (by simpa using this)
    · simp only [List.length_cons] at hfuel
      rw [headPtr_cons, headPtr_cons, mmergeLoop]
      refine wp_bind (wp_read_cons hs.swap rfl ?_)
      refine wp_bind (wp_read_cons hs.rotate rfl ?_)
      by_cases hle : fn l.2 r.2 ≤ 0
      · rw [if_pos hle]
        refine wp_bind (wp_takeNode hs hne fun h₁ hs₁ => ?_)
        refine ih hs₁ (by simp) (by simp; omega) ?_
        intro h' pl' pr' moved ls' rs' hs' hls hrs hor hmerge
        rw [List.append_assoc] at hs' ⊢
        refine hpost h' pl' pr' _ ls' rs' hs' (hls.trans (List.suffix_cons ..)) hrs hor ?_
        rw [listMmerge, if_pos (show onData fn l r ≤ 0 from hle), hmerge]
        rfl
      · rw [if_neg hle]
        refine wp_bind (wp_takeNode (hs.perm (.cons _ (.swap ..))) hne fun h₁ hs₁ => ?_)
        refine ih (hs₁.perm (.cons _ (.swap ..))) (by simp) (by simp; omega) ?_
        intro h' pl' pr' moved ls' rs' hs' hls hrs hor hmerge
        rw [List.append_assoc] at hs' ⊢
        refine hpost h' pl' pr' _ ls' rs' hs' hls (hrs.trans (List.suffix_cons ..)) hor ?_
        rw [listMmerge, if_neg (show ¬ onData fn l r ≤ 0 from hle), hmerge]
        rfl

/-- The end of a list is the end of each of its non-empty suffixes. -/
theorem lastPtr_of_suffix {zs : Cells (Option δ)} (hsuffix : zs <:+ xs) (hne : zs ≠ []) :
    lastPtr xs = lastPtr zs := by
  obtain ⟨front, rfl⟩ := hsuffix
  obtain ⟨tail, htail⟩ := exists_lastPtr hne
  rw [lastPtr_append, htail, Option.some_or]

/-- Putting what is left behind what has been merged. -/
theorem wp_linkRest {acc rest : Cells (Option δ)} {p : Ptr} {post : Unit → Heap (Option δ) → Prop}
    (hs : Shape h (⟨none, acc, none⟩ :: ⟨p, rest, none⟩ :: L)) (hne : acc ≠ []) (hrest : rest ≠ [])
    (hpost : ∀ h', Shape h' (listOf (acc ++ rest) :: L) → post () h') :
    wp (do
      setNext (lastPtr acc) (headPtr rest)
      setPrev (headPtr rest) (lastPtr acc)
      setPrev (headPtr acc) (lastPtr rest)) post h := by
  obtain ⟨next, hnext⟩ := exists_headPtr hrest
  obtain ⟨tail, htail⟩ := exists_lastPtr hrest
  obtain ⟨lp, hlp⟩ := exists_lastPtr hne
  refine wp_bind (wp_setNext_last hs rfl hne fun h₁ hs₁ => ?_)
  refine wp_bind (wp_setPrev_head hs₁.swap rfl hrest fun h₂ hs₂ => ?_)
  refine wp_setPrev_head hs₂.swap rfl hne fun h₃ hs₃ => hpost _ ?_
  rw [listOf, Shape.split_iff]
  simpa [lastPtr_append, hnext, htail, hlp] using hs₃

theorem wp_mmergeRest {acc ls rs : Cells (Option δ)} {pl pr leftTail rightTail : Ptr}
    {post : Unit → Heap (Option δ) → Prop}
    (hs : Shape h (⟨none, acc, none⟩ :: ⟨pl, ls, none⟩ :: ⟨pr, rs, none⟩ :: L)) (hne : acc ≠ [])
    (hor : ls = [] ∨ rs = []) (hleft : ls ≠ [] → leftTail = lastPtr ls)
    (hright : rs ≠ [] → rightTail = lastPtr rs)
    (hpost : ∀ h', Shape h' (listOf (acc ++ (ls ++ rs)) :: L) → post () h') :
    wp (mmergeRest (headPtr acc) (headPtr ls) (headPtr rs) (lastPtr acc) leftTail rightTail)
      post h := by
  unfold mmergeRest
  by_cases hl : ls = []
  · subst hl
    rw [headPtr_nil, if_neg (by simp)]
    by_cases hr : rs = []
    · subst hr
      rw [headPtr_nil, if_neg (by simp)]
      refine wp_setPrev_head hs rfl hne fun h₁ hs₁ => hpost _ ?_
      simpa [listOf] using hs₁.rotate.tail.swap.tail
    · obtain ⟨next, hnext⟩ := exists_headPtr hr
      rw [if_pos (by simp [hnext]), hright hr]
      exact wp_linkRest (hs.perm (.cons _ (.swap ..))) hne hr fun h₁ hs₁ =>
        hpost _ hs₁.swap.tail
  · obtain rfl := hor.resolve_left hl
    obtain ⟨next, hnext⟩ := exists_headPtr hl
    rw [if_pos (by simp [hnext]), hleft hl]
    exact wp_linkRest hs hne hl fun h₁ hs₁ => hpost _ (by simpa using hs₁.swap.tail)

/-- **`alpm_list_mmerge`** merges two lists by their links alone, and leaves the list of the merged
data. While the loop runs the tail link of the head is out of date; it is repaired at the end. -/
theorem wp_mmerge {fn : Cmp δ} {post : Ptr → Heap (Option δ) → Prop}
    (hs : Shape h (listOf xs :: listOf ys :: L)) (hfuel : xs.length + ys.length ≤ fuel)
    (hpost : ∀ h', Shape h' (listOf (listMmerge (onData fn) xs ys) :: L) →
      post (headPtr (listMmerge (onData fn) xs ys)) h') :
    wp (mmerge fuel (headPtr xs) (headPtr ys) fn) post h := by
  unfold mmerge
  match xs, ys with
  | [], ys =>
    rw [listMmerge] at hpost
    rw [headPtr_nil, if_pos rfl]
    exact wp_pure (hpost _ hs.tail)
  | x :: xs, [] =>
    rw [listMmerge] at hpost
    rw [headPtr_nil, if_neg (by simp), if_pos rfl]
    · exact wp_pure (hpost _ hs.swap.tail)
    · simp
  | x :: xs, y :: ys =>
    simp only [List.length_cons] at hfuel
    rw [if_neg (by simp), if_neg (by simp)]
    refine wp_bind (wp_read_head hs rfl (by simp) fun _ _ => ?_)
    refine wp_bind (wp_read_head hs.swap rfl (by simp) fun _ _ => ?_)
    refine wp_bind (wp_read_cons hs rfl ?_)
    refine wp_bind (wp_read_cons hs.swap rfl ?_)
    dsimp only
    by_cases hle : fn x.2 y.2 ≤ 0
    · simp only [if_pos hle]
      refine wp_bind (wp_read_cons hs rfl ?_)
      have hs₁ := Shape.split_cons_iff.mp hs
      refine wp_bind (wp_setPrev_head hs₁ rfl (by simp) fun h₂ hs₂ => ?_)
      refine wp_bind (wp_setNext_last hs₂ rfl (by simp) fun h₃ hs₃ => ?_)
      rw [Option.or_none]
      refine wp_bind (@wp_mmergeLoop _ _ _ fuel fn [x] xs (y :: ys) _ _ _ hs₃ (by simp)
        (by simp; omega) ?_)
      intro h₄ pl pr moved ls rs hs₄ hls hrs hor hmerge
      have hmerged : listMmerge (onData fn) (x :: xs) (y :: ys) = [x] ++ moved ++ (ls ++ rs) := by
        rw [listMmerge, if_pos (show onData fn x y ≤ 0 from hle), hmerge]
        rfl
      rw [hmerged] at hpost
      refine wp_bind (wp_mmergeRest hs₄ (by simp) hor ?_ ?_ fun h₅ hs₅ => wp_pure (hpost _ hs₅))
      · exact lastPtr_of_suffix (hls.trans (List.suffix_cons ..))
      · exact lastPtr_of_suffix hrs
    · simp only [if_neg hle]
      refine wp_bind (wp_read_cons hs.swap rfl ?_)
      have hs₁ := Shape.split_cons_iff.mp hs.swap
      refine wp_bind (wp_setPrev_head hs₁ rfl (by simp) fun h₂ hs₂ => ?_)
      refine wp_bind (wp_setNext_last hs₂ rfl (by simp) fun h₃ hs₃ => ?_)
      rw [Option.or_none]
      refine wp_bind (@wp_mmergeLoop _ _ _ fuel fn [y] (x :: xs) ys _ _ _
        (hs₃.perm (.cons _ (.swap ..))) (by simp) (by simp; omega) ?_)
      intro h₄ pl pr moved ls rs hs₄ hls hrs hor hmerge
      have hmerged : listMmerge (onData fn) (x :: xs) (y :: ys) = [y] ++ moved ++ (ls ++ rs) := by
        rw [listMmerge, if_neg (show ¬ onData fn x y ≤ 0 from hle), hmerge]
        rfl
      rw [hmerged] at hpost
      refine wp_bind (wp_mmergeRest hs₄ (by simp) hor ?_ ?_ fun h₅ hs₅ => wp_pure (hpost _ hs₅))
      · exact lastPtr_of_suffix hls
      · exact lastPtr_of_suffix (hrs.trans (List.suffix_cons ..))

/-- The walk ends at the node it has counted to. -/
theorem wp_walk {prev next : Ptr} {post : Ptr → Heap (Option δ) → Prop}
    (hs : Shape h (⟨prev, xs ++ ys, next⟩ :: L)) (hne : ys ≠ []) (hpost : post (headPtr ys) h) :
    wp (walk xs.length (headPtr (xs ++ ys))) post h := by
  induction xs generalizing prev L with
  | nil => exact wp_pure hpost
  | cons x xs ih =>
    obtain ⟨y, hy⟩ := exists_headPtr hne
    rw [List.length_cons, walk]
    refine wp_bind (wp_read_cons hs rfl ?_)
    have hor : (headPtr (xs ++ ys)).or next = headPtr (xs ++ ys) := by
      cases xs <;> simp [hy]
    show wp (walk xs.length ((headPtr (xs ++ ys)).or next)) post h
    rw [hor]
    exact ih (Shape.split_cons_iff.mp hs).swap

/-- Cutting a list leaves two lists. -/
theorem wp_msortCut {post : Ptr → Heap (Option δ) → Prop} (hs : Shape h (listOf (xs ++ ys) :: L))
    (hx : xs ≠ []) (hy : ys ≠ [])
    (hpost : ∀ h', Shape h' (listOf xs :: listOf ys :: L) → post (headPtr ys) h') :
    wp (msortCut (headPtr (xs ++ ys)) xs.length) post h := by
  obtain ⟨right, hright⟩ := exists_headPtr hy
  obtain ⟨tail, htail⟩ := exists_lastPtr hy
  obtain ⟨list, hlist⟩ := exists_headPtr hx
  have hs₀ : Shape h (⟨lastPtr ys, xs ++ ys, none⟩ :: L) := by
    simpa [listOf, lastPtr_append, htail] using hs
  rcases List.eq_nil_or_concat xs with rfl | ⟨front, lastleft, rfl⟩
  · exact absurd rfl hx
  rw [List.concat_eq_append] at *
  have happend : front ++ [lastleft] ++ ys = front ++ ([lastleft] ++ ys) := List.append_assoc ..
  have hhead : headPtr (front ++ [lastleft] ++ ys) = headPtr (front ++ [lastleft]) := by
    rw [headPtr_append, hlist, Option.some_or]
  unfold msortCut
  rw [List.length_append, List.length_singleton, Nat.add_sub_cancel]
  refine wp_bind ?_
  rw [happend]
  refine wp_walk (happend ▸ hs₀) (by simp) ?_
  rw [← happend, hhead]
  have hs₁ := Shape.split_iff.mp hs₀
  refine wp_bind (wp_read_last hs₁ rfl ?_)
  refine wp_bind (wp_setNext_last hs₁ (by simp) hx fun h₂ hs₂ => ?_)
  refine wp_bind (wp_read_head hs₂ rfl hx fun _ _ => ?_)
  rw [Option.or_none]
  refine wp_bind (wp_setPrev_head hs₂.swap rfl hy fun h₃ hs₃ => ?_)
  refine wp_bind (wp_setPrev_head hs₃.swap rfl hx fun h₄ hs₄ => wp_pure (hpost _ ?_))
  simpa [listOf] using hs₄

/-- **`alpm_list_msort`** with `n` the length of the list sorts it in place.  Cutting leaves two
lists, the recursion sorts them, and the merge leaves one. -/
theorem wp_msort {fn : Cmp δ} {n : ℕ} {post : Ptr → Heap (Option δ) → Prop}
    (hs : Shape h (listOf xs :: L)) (hn : xs.length = n) (hfuel : n ≤ fuel)
    (hpost : ∀ h', Shape h' (listOf (listMsort (onData fn) xs) :: L) →
      post (headPtr (listMsort (onData fn) xs)) h') :
    wp (msort fuel (headPtr xs) n fn) post h := by
  induction n using Nat.strong_induction_on generalizing xs L h post with
  | _ n ih =>
  rw [msort]
  rw [listMsort, hn] at hpost
  split_ifs at hpost ⊢ with hgt
  · dsimp only at hpost ⊢
    have hleft : (xs.take (n / 2)).length = n / 2 := by
      rw [List.length_take]
      omega
    have hright : (xs.drop (n / 2)).length = n - n / 2 := by
      rw [List.length_drop, hn]
    rw [← List.take_append_drop (n / 2) xs] at hs ⊢
    generalize xs.take (n / 2) = ys at *
    generalize xs.drop (n / 2) = zs at *
    refine wp_bind ?_
    rw [← hleft]
    refine wp_msortCut hs (List.ne_nil_of_length_pos (by omega))
      (List.ne_nil_of_length_pos (by omega)) fun h₁ hs₁ => ?_
    obtain ⟨list, hlist⟩ := exists_headPtr (List.ne_nil_of_length_pos (by omega : 0 < ys.length))
    rw [headPtr_append, hlist, Option.some_or, ← hlist]
    refine wp_bind (ih _ (by omega) hs₁ rfl (by omega) fun h₂ hs₂ => ?_)
    refine wp_bind (ih _ (by omega) hs₂.swap (by omega) (by omega) fun h₃ hs₃ => ?_)
    refine wp_mmerge hs₃.swap ?_ hpost
    rw [(listMsort_perm _ _).length_eq, (listMsort_perm _ _).length_eq]
    omega
  · exact wp_pure (hpost _ hs)

/-! ## Removing -/

/-- **`alpm_list_remove_item`** of a member leaves the member on its own, still allocated, and the
list without it.  The head, the tail and the middle are three cases of the code; what the links of
the member are afterwards does not matter. -/
theorem wp_removeItem {post : Ptr → Heap (Option δ) → Prop}
    (hs : Shape h (listOf (xs ++ (a, data) :: ys) :: L))
    (hpost : ∀ h' prev next, Shape h' (listOf (xs ++ ys) :: ⟨prev, [(a, data)], next⟩ :: L) →
      post (headPtr (xs ++ ys)) h') :
    wp (removeItem (headPtr (xs ++ (a, data) :: ys)) (some a)) post h := by
  have hnodup := hs.nodup_head
  simp only [listOf, List.map_append, List.map_cons, List.nodup_append, List.nodup_cons,
    List.mem_cons] at hnodup
  obtain ⟨-, ⟨hays, -⟩, haxs⟩ := hnodup
  unfold removeItem
  by_cases hx : xs = []
  · -- the head of the list
    subst hx
    simp only [List.nil_append] at hs hpost ⊢
    rw [if_neg (by simp), if_pos (by simp)]
    refine wp_bind (wp_read_cons hs rfl ?_)
    rw [Option.or_none]
    have hs₁ := Shape.split_cons_iff.mp hs
    by_cases hy : ys = []
    · subst hy
      rw [headPtr_nil, if_neg (by simp)]
      refine wp_bind (wp_setPrev_head hs₁ rfl (by simp) fun h₂ hs₂ => wp_pure ?_)
      exact hpost _ _ _ hs₂.swap.tail.cons_nil
    · obtain ⟨next, hnext⟩ := exists_headPtr hy
      rw [if_pos (by simp [hnext])]
      refine wp_bind (wp_read_cons hs rfl ?_)
      refine wp_bind (wp_setPrev_head hs₁.swap rfl hy fun h₂ hs₂ => ?_)
      refine wp_bind (wp_setPrev_head hs₂.swap rfl (by simp) fun h₃ hs₃ => wp_pure ?_)
      refine hpost h₃ none (headPtr ys) ?_
      rw [listOf, ← lastPtr_of_suffix (List.suffix_cons (a, data) ys) hy]
      simpa using hs₃.swap
  obtain ⟨first, hfirst⟩ := exists_headPtr hx
  obtain ⟨prev, hprev⟩ := exists_lastPtr hx
  have hafirst : first ≠ a := fun heq => haxs _ (heq ▸ mem_of_headPtr hfirst) _ (Or.inl rfl) rfl
  have hhead : ∀ zs, headPtr (xs ++ zs) = headPtr xs := fun zs => by
    rw [headPtr_append, hfirst, Option.some_or]
  rw [hhead] at hpost ⊢
  rw [if_neg (by simp [hfirst]), if_neg (by simpa [hfirst] using hafirst.symm)]
  refine wp_bind (wp_read_head hs (hhead _).symm (by simp) fun _ _ => ?_)
  by_cases hy : ys = []
  · -- the tail of the list
    subst hy
    rw [listOf, lastPtr_append_singleton, Shape.split_iff] at hs
    have hitem {post : LinkedHeap.Node (Option δ) → Heap (Option δ) → Prop} {h c}
        (hs : Shape h (c :: ⟨some prev, [(a, data)], none⟩ :: L))
        (hpost : post ⟨data, none, some prev⟩ h) : wp (read (some a)) post h :=
      wp_read_cons hs.swap rfl hpost
    rw [hprev, Option.some_or] at hs
    rw [lastPtr_append_singleton, if_pos rfl]
    refine wp_bind (hitem hs ?_)
    rw [if_pos (by simp)]
    refine wp_bind (hitem hs ?_)
    refine wp_bind (hitem hs ?_)
    refine wp_bind (wp_setNext_last hs hprev.symm hx fun h₁ hs₁ => ?_)
    refine wp_bind (hitem hs₁ ?_)
    refine wp_bind (wp_setPrev_head hs₁ rfl hx fun h₂ hs₂ => ?_)
    refine wp_bind (wp_setPrev_head hs₂.swap rfl (by simp) fun h₃ hs₃ => wp_pure ?_)
    refine hpost h₃ none none ?_
    rw [listOf, List.append_nil, hprev]
    exact hs₃.swap
  · -- a node with neighbours on both sides
    obtain ⟨next, hnext⟩ := exists_headPtr hy
    obtain ⟨tail, htail⟩ := exists_lastPtr hy
    have hatail : tail ≠ a := fun heq => hays (heq ▸ mem_of_lastPtr htail)
    rw [listOf_insert hy, Shape.split_iff] at hs
    have hs₁ : Shape h (⟨some prev, [(a, data)], some next⟩ :: ⟨some a, ys, none⟩ ::
        ⟨lastPtr ys, xs, some a⟩ :: L) := by
      have hs := Shape.split_iff.mp hs.swap
      simpa [hprev, hnext] using hs
    have hitem {post : LinkedHeap.Node (Option δ) → Heap (Option δ) → Prop} {h L}
        (hs : Shape h (⟨some prev, [(a, data)], some next⟩ :: L))
        (hpost : post ⟨data, some next, some prev⟩ h) : wp (read (some a)) post h :=
      wp_read_cons hs rfl hpost
    rw [lastPtr_of_suffix ((List.suffix_cons ..).trans (List.suffix_append ..)) hy,
      if_neg (by simpa [htail] using hatail.symm)]
    refine wp_bind (hitem hs₁ ?_)
    rw [if_pos (by simp)]
    refine wp_bind (hitem hs₁ ?_)
    refine wp_bind (hitem hs₁ ?_)
    refine wp_bind (wp_setPrev_head hs₁.swap hnext.symm hy fun h₂ hs₂ => ?_)
    refine wp_bind (hitem hs₂.swap ?_)
    rw [if_pos (by simp)]
    refine wp_bind (hitem hs₂.swap ?_)
    refine wp_bind (hitem hs₂.swap ?_)
    refine wp_bind (wp_setNext_last hs₂.rotate hprev.symm hx fun h₃ hs₃ => wp_pure ?_)
    refine hpost h₃ (some prev) (some next) ?_
    rw [listOf, lastPtr_append, htail, Option.some_or, Shape.split_iff]
    simpa [hprev, hnext, htail] using hs₃

/-- What `alpm_list_remove` looks for. -/
def isNeedle (fn : Cmp δ) (needle data : Option δ) : Bool := data.isSome && fn data needle = 0

theorem wp_removeLoop {fn : Cmp δ} {needle : Option δ}
    {post : Ptr × Option δ → Heap (Option δ) → Prop} (hs : Shape h (listOf (xs ++ ys) :: L))
    (hfuel : ys.length ≤ fuel)
    (hpost : ∀ h', Shape h' (listOf (xs ++ ys.eraseP (isNeedle fn needle ·.2)) :: L) →
      post (headPtr (xs ++ ys.eraseP (isNeedle fn needle ·.2)),
        (ys.find? (isNeedle fn needle ·.2)).bind Prod.snd) h') :
    wp (removeLoop fn needle (headPtr (xs ++ ys)) fuel (headPtr ys)) post h := by
  induction ys generalizing xs fuel with
  | nil =>
    unfold removeLoop
    exact wp_pure (hpost _ hs)
  | cons y ys ih =>
    obtain ⟨fuel, rfl⟩ := Nat.exists_eq_add_of_le' (Nat.le_of_add_left_le hfuel)
    have hcut := (Shape.split_iff.mp hs).swap
    rw [headPtr_cons, removeLoop]
    refine wp_bind (wp_read_cons hcut rfl ?_)
    have hnext : isNeedle fn needle y.2 = false →
        wp (removeLoop fn needle (headPtr (xs ++ y :: ys)) fuel (headPtr ys)) post h := by
      intro hy
      have happend : ∀ ys, xs ++ y :: ys = (xs ++ [y]) ++ ys := fun ys => by simp
      simp only [List.eraseP_cons, List.find?_cons, hy, cond_false] at hpost
      rw [happend] at hpost
      rw [happend] at hs ⊢
      exact ih hs (by simpa using hfuel) hpost
    rw [Option.or_none]
    by_cases hnull : y.2.isNone
    · rw [if_pos hnull]
      exact hnext (by simp [isNeedle, Option.isNone_iff_eq_none.mp hnull])
    · rw [if_neg hnull]
      by_cases heq : fn y.2 needle = 0
      · have hy : isNeedle fn needle y.2 := by
          simp only [isNeedle, heq, decide_true, Bool.and_true]
          simpa [Option.isSome_iff_ne_none] using hnull
        simp only [List.eraseP_cons, List.find?_cons, hy, cond_true] at hpost
        rw [if_pos heq]
        refine wp_bind (wp_removeItem hs fun h₁ prev next hs₁ => ?_)
        refine wp_bind (wp_read_cons hs₁.swap rfl ?_)
        exact wp_bind (wp_free_single hs₁.swap rfl fun h₂ hs₂ => wp_pure (hpost _ hs₂))
      · rw [if_neg heq]
        exact hnext (by simp [isNeedle, heq])

/-- **`alpm_list_remove`** takes out the first element that compares equal to the needle. -/
theorem wp_remove {fn : Cmp δ} {needle : δ} {post : Ptr × Option δ → Heap (Option δ) → Prop}
    (hs : Shape h (listOf xs :: L)) (hfuel : xs.length ≤ fuel)
    (hpost : ∀ h', Shape h' (listOf (xs.eraseP (isNeedle fn (some needle) ·.2)) :: L) →
      post (headPtr (xs.eraseP (isNeedle fn (some needle) ·.2)),
        (xs.find? (isNeedle fn (some needle) ·.2)).bind Prod.snd) h') :
    wp (remove fuel (headPtr xs) (some needle) fn) post h := by
  unfold remove
  rw [if_neg (by simp)]
  exact @wp_removeLoop _ _ [] xs L fuel fn (some needle) post hs hfuel hpost

/-! ## Copying -/

variable {malloc : ℕ → Ptr} {as : List ℕ}

/-- Addresses that `malloc` can give out: distinct ones that no list uses. -/
structure Fresh (as : List ℕ) (L : List (Segment (Option δ))) : Prop where
  nodup : as.Nodup
  notMem : ∀ a ∈ as, a ∉ footprint L

theorem Fresh.cons {new : Cells (Option δ)} (hfresh : Fresh (a :: as) (listOf new :: L)) :
    Fresh as (listOf (new ++ [(a, data)]) :: L) := by
  obtain ⟨hnodup, hnotMem⟩ := hfresh
  rw [List.nodup_cons] at hnodup
  refine ⟨hnodup.2, fun b hb hmem => ?_⟩
  have hne : b ≠ a := ne_of_mem_of_not_mem hb hnodup.1
  refine hnotMem b (List.mem_cons_of_mem _ hb) ?_
  simpa [footprint, listOf, hne] using hmem

/-- Reading a node of a list. -/
theorem wp_read_listOf (xs ys : Cells (Option δ)) {y : ℕ × Option δ}
    {post : LinkedHeap.Node (Option δ) → Heap (Option δ) → Prop} (hs : Shape h L)
    (hmem : listOf (xs ++ y :: ys) ∈ L)
    (hpost : post ⟨y.2, headPtr ys, (lastPtr xs).or (lastPtr (xs ++ y :: ys))⟩ h) :
    wp (read (some y.1)) post h := by
  have hy := (Chain.append_iff.mp (hs.chains _ hmem)).2.1
  dsimp only [listOf] at hy
  rw [Option.or_none] at hy
  exact wp_read rfl hy hpost

/-- What `n` calls of `malloc` return, from the `k`-th on: the addresses `as`, and then `NULL` if
these are less than `n`. -/
structure Returns (malloc : ℕ → Ptr) (k n : ℕ) (as : List ℕ) : Prop where
  length_le : as.length ≤ n
  eq : ∀ i ≤ as.length, i < n → malloc (k + i) = as[i]?

theorem Returns.of_length {n : ℕ} (hlength : as.length = n)
    (h : ∀ k < n, malloc k = as[k]?) : Returns malloc 0 n as :=
  ⟨hlength.le, fun k _ hk => (congrArg malloc (Nat.zero_add k)).trans (h k hk)⟩

theorem Returns.nil {k n : ℕ} (h : Returns malloc k (n + 1) []) : malloc k = none :=
  h.eq 0 le_rfl n.succ_pos

theorem Returns.cons {k n : ℕ} (h : Returns malloc k (n + 1) (a :: as)) :
    malloc k = some a ∧ Returns malloc (k + 1) n as := by
  refine ⟨h.eq 0 (Nat.zero_le _) n.succ_pos, Nat.le_of_succ_le_succ h.length_le, ?_⟩
  intro i hi hn
  have hnext := h.eq (i + 1) (Nat.succ_le_succ hi) (Nat.succ_lt_succ hn)
  rwa [List.getElem?_cons_succ, Nat.add_comm i, ← Nat.add_assoc] at hnext

/-- **`alpm_list_free`.** -/
theorem wp_free_list {new : Cells (Option δ)} {prev : Ptr} {post : Unit → Heap (Option δ) → Prop}
    (hs : Shape h (⟨prev, new, none⟩ :: L)) (hfuel : new.length ≤ fuel)
    (hpost : ∀ h', Shape h' L → post () h') : wp (free fuel (headPtr new)) post h := by
  induction new generalizing prev fuel h with
  | nil =>
    unfold free
    exact wp_pure (hpost _ hs.tail)
  | cons x new ih =>
    obtain ⟨fuel, rfl⟩ := Nat.exists_eq_add_of_le' (Nat.le_of_add_left_le hfuel)
    rw [headPtr_cons, free]
    refine wp_bind (wp_read_cons hs rfl ?_)
    rw [Option.or_none]
    refine wp_bind (wp_free_single (Shape.split_cons_iff.mp hs) rfl fun h₁ hs₁ => ?_)
    exact ih hs₁ (by simpa using hfuel)

/-- A round of the loop of `alpm_list_copy`, if there is memory for a node. -/
theorem wp_copyLoop_cons {new : Cells (Option δ)} {y : ℕ × Option δ} {k : ℕ}
    {post : Ptr → Heap (Option δ) → Prop}
    (hs : Shape h (listOf new :: listOf (xs ++ y :: ys) :: L)) (hk : malloc k = some a)
    (ha : a ∉ footprint (listOf new :: listOf (xs ++ y :: ys) :: L))
    (hnext : ∀ h', Shape h' (listOf (new ++ [(a, y.2)]) :: listOf (xs ++ [y] ++ ys) :: L) →
      wp (copyLoop malloc fuel (k + 1) (headPtr ys) (headPtr (new ++ [(a, y.2)]))) post h') :
    wp (copyLoop malloc (fuel + 1) k (some y.1) (headPtr new)) post h := by
  rw [copyLoop, hk]
  refine wp_bind (wp_read_listOf xs ys hs (by simp) ?_)
  refine wp_bind (wp_append hs ha fun h₁ hs₁ => ?_)
  dsimp only
  rw [if_neg (by simp)]
  refine wp_bind (wp_read_listOf xs ys hs₁ (by simp) (hnext h₁ ?_))
  rwa [List.append_assoc, List.singleton_append]

/-- The loop of `alpm_list_copy`, if there is no memory for a node. -/
theorem wp_copyLoop_nomem {new : Cells (Option δ)} {y : ℕ × Option δ} {k : ℕ}
    {post : Ptr → Heap (Option δ) → Prop}
    (hs : Shape h (listOf new :: listOf (xs ++ y :: ys) :: L)) (hk : malloc k = none)
    (hnew : new.length ≤ k)
    (hpost : ∀ h', Shape h' (listOf (xs ++ y :: ys) :: L) → post none h') :
    wp (copyLoop malloc (fuel + 1) k (some y.1) (headPtr new)) post h := by
  rw [copyLoop, hk]
  refine wp_bind (wp_read_listOf xs ys hs (by simp) ?_)
  refine wp_bind (wp_pure ?_)
  dsimp only
  rw [if_pos rfl]
  exact wp_bind (wp_free_list hs hnew fun h₁ hs₁ => wp_pure (hpost h₁ hs₁))

theorem wp_copyLoop {new : Cells (Option δ)} {k : ℕ} {post : Ptr → Heap (Option δ) → Prop}
    (hs : Shape h (listOf new :: listOf (xs ++ ys) :: L)) (hfuel : ys.length ≤ fuel)
    (hnew : new.length ≤ k) (hmalloc : Returns malloc k ys.length as)
    (hfresh : Fresh as (listOf new :: listOf (xs ++ ys) :: L))
    (hok : as.length = ys.length → ∀ h',
      Shape h' (listOf (new ++ as.zip (ys.map Prod.snd)) :: listOf (xs ++ ys) :: L) →
      post (headPtr (new ++ as.zip (ys.map Prod.snd))) h')
    (hfail : as.length < ys.length → ∀ h', Shape h' (listOf (xs ++ ys) :: L) → post none h') :
    wp (copyLoop malloc fuel k (headPtr ys) (headPtr new)) post h := by
  induction ys generalizing xs new as k fuel h with
  | nil =>
    obtain rfl := List.eq_nil_of_length_eq_zero (Nat.le_zero.mp hmalloc.length_le)
    rw [List.zip_nil_left, List.append_nil] at hok
    unfold copyLoop
    exact wp_pure (hok rfl _ hs)
  | cons y ys ih =>
    obtain ⟨fuel, rfl⟩ := Nat.exists_eq_add_of_le' (Nat.le_of_add_left_le hfuel)
    rw [headPtr_cons]
    cases as with
    | nil => exact wp_copyLoop_nomem hs hmalloc.nil hnew (hfail (Nat.succ_pos _))
    | cons a as =>
      obtain ⟨hk, hmalloc⟩ := hmalloc.cons
      have happend : xs ++ y :: ys = (xs ++ [y]) ++ ys := by simp
      refine wp_copyLoop_cons hs hk (hfresh.notMem a (List.mem_cons_self ..)) fun h₁ hs₁ => ?_
      rw [happend] at hok hfail hfresh
      refine ih hs₁ (by simpa using hfuel) (by simpa using hnew) hmalloc hfresh.cons ?_ ?_
      · intro hlength
        simpa using hok (by simpa using hlength)
      · exact fun hlength => hfail (Nat.succ_lt_succ hlength)

/-- An empty new list next to the lists that are there. -/
theorem Fresh.listOf_nil (hfresh : Fresh as L) : Fresh as (listOf [] :: L) :=
  ⟨hfresh.nodup, hfresh.notMem⟩

/-- **`alpm_list_copy`** leaves the list and a new one with the same data, or gives up. -/
theorem wp_copy {post : Ptr → Heap (Option δ) → Prop} (hs : Shape h (listOf xs :: L))
    (hfuel : xs.length ≤ fuel) (hmalloc : Returns malloc 0 xs.length as)
    (hfresh : Fresh as (listOf xs :: L))
    (hok : as.length = xs.length → ∀ h',
      Shape h' (listOf (as.zip (xs.map Prod.snd)) :: listOf xs :: L) →
      post (headPtr (as.zip (xs.map Prod.snd))) h')
    (hfail : as.length < xs.length → ∀ h', Shape h' (listOf xs :: L) → post none h') :
    wp (copy fuel malloc (headPtr xs)) post h :=
  @wp_copyLoop _ _ [] xs L fuel malloc as [] 0 post hs.cons_nil hfuel le_rfl hmalloc
    hfresh.listOf_nil hok hfail

/-- A round of the loop of `alpm_list_reverse`, if there is memory for a node. -/
theorem wp_reverseLoop_concat {new : Cells (Option δ)} {y : ℕ × Option δ} {k : ℕ}
    {post : Option Ptr → Heap (Option δ) → Prop}
    (hs : Shape h (listOf new :: ⟨none, xs ++ y :: ys, none⟩ :: L)) (hk : malloc k = some a)
    (ha : a ∉ footprint (listOf new :: ⟨none, xs ++ y :: ys, none⟩ :: L))
    (hnext : ∀ h', Shape h' (listOf (new ++ [(a, y.2)]) :: ⟨none, xs ++ y :: ys, none⟩ :: L) →
      wp (reverseLoop malloc fuel (k + 1) (lastPtr xs) (headPtr (new ++ [(a, y.2)]))) post h') :
    wp (reverseLoop malloc (fuel + 1) k (some y.1) (headPtr new)) post h := by
  have hread : ∀ {h new} {post : LinkedHeap.Node (Option δ) → Heap (Option δ) → Prop},
      Shape h (listOf new :: ⟨none, xs ++ y :: ys, none⟩ :: L) →
      post ⟨y.2, (headPtr ys).or none, lastPtr xs⟩ h → wp (read (some y.1)) post h := by
    intro h new post hs hpost
    refine wp_read_cons (Shape.split_iff.mp hs.swap).swap rfl ?_
    simpa using hpost
  rw [reverseLoop, hk]
  refine wp_bind (hread hs ?_)
  refine wp_bind (wp_append hs ha fun h₁ hs₁ => ?_)
  dsimp only
  rw [if_neg (by simp)]
  exact wp_bind (hread hs₁ (hnext h₁ hs₁))

/-- The loop of `alpm_list_reverse`, if there is no memory for a node. -/
theorem wp_reverseLoop_nomem {new : Cells (Option δ)} {y : ℕ × Option δ} {k : ℕ}
    {post : Option Ptr → Heap (Option δ) → Prop}
    (hs : Shape h (listOf new :: ⟨none, xs ++ y :: ys, none⟩ :: L)) (hk : malloc k = none)
    (hnew : new.length ≤ k)
    (hpost : ∀ h', Shape h' (⟨none, xs ++ y :: ys, none⟩ :: L) → post none h') :
    wp (reverseLoop malloc (fuel + 1) k (some y.1) (headPtr new)) post h := by
  rw [reverseLoop, hk]
  refine wp_bind (wp_read_cons (Shape.split_iff.mp hs.swap).swap rfl ?_)
  refine wp_bind (wp_pure ?_)
  dsimp only
  rw [if_pos rfl]
  exact wp_bind (wp_free_list hs hnew fun h₁ hs₁ => wp_pure (hpost h₁ hs₁))

theorem wp_reverseLoop {new : Cells (Option δ)} {k : ℕ}
    {post : Option Ptr → Heap (Option δ) → Prop}
    (hs : Shape h (listOf new :: ⟨none, xs ++ ys, none⟩ :: L)) (hfuel : xs.length ≤ fuel)
    (hnew : new.length ≤ k) (hmalloc : Returns malloc k xs.length as)
    (hfresh : Fresh as (listOf new :: ⟨none, xs ++ ys, none⟩ :: L))
    (hok : as.length = xs.length → ∀ h',
      Shape h' (listOf (new ++ as.zip (xs.map Prod.snd).reverse) :: ⟨none, xs ++ ys, none⟩ :: L) →
      post (some (headPtr (new ++ as.zip (xs.map Prod.snd).reverse))) h')
    (hfail : as.length < xs.length → ∀ h', Shape h' (⟨none, xs ++ ys, none⟩ :: L) →
      post none h') :
    wp (reverseLoop malloc fuel k (lastPtr xs) (headPtr new)) post h := by
  induction xs using List.reverseRecOn generalizing ys new as k fuel h with
  | nil =>
    obtain rfl := List.eq_nil_of_length_eq_zero (Nat.le_zero.mp hmalloc.length_le)
    rw [List.zip_nil_left, List.append_nil] at hok
    unfold reverseLoop
    exact wp_pure (hok rfl _ hs)
  | append_singleton xs y ih =>
    have happend : xs ++ [y] ++ ys = xs ++ y :: ys := by simp
    rw [List.length_append, List.length_singleton] at hfuel hmalloc hok hfail
    obtain ⟨fuel, rfl⟩ := Nat.exists_eq_add_of_le' (Nat.le_of_add_left_le hfuel)
    rw [happend] at hs hfresh hok hfail
    rw [lastPtr_append_singleton]
    cases as with
    | nil => exact wp_reverseLoop_nomem hs hmalloc.nil hnew (hfail (Nat.succ_pos _))
    | cons a as =>
      obtain ⟨hk, hmalloc⟩ := hmalloc.cons
      refine wp_reverseLoop_concat hs hk (hfresh.notMem a (List.mem_cons_self ..))
        fun h₁ hs₁ => ?_
      refine ih hs₁ (by simpa using hfuel) (by simpa using hnew) hmalloc hfresh.cons ?_ ?_
      · intro hlength
        simpa using hok (by simpa using hlength)
      · exact fun hlength => hfail (Nat.succ_lt_succ hlength)

/-- **`alpm_list_reverse`** leaves the list and a new one with its data in reverse order.  When it
gives up, `prev` of the head of the list stays `NULL`. -/
theorem wp_reverse {post : Ptr → Heap (Option δ) → Prop} (hs : Shape h (listOf xs :: L))
    (hfuel : xs.length ≤ fuel) (hmalloc : Returns malloc 0 xs.length as)
    (hfresh : Fresh as (listOf xs :: L))
    (hok : as.length = xs.length → ∀ h',
      Shape h' (listOf (as.zip (xs.map Prod.snd).reverse) :: listOf xs :: L) →
      post (headPtr (as.zip (xs.map Prod.snd).reverse)) h')
    (hfail : as.length < xs.length → ∀ h', Shape h' (⟨none, xs, none⟩ :: L) → post none h') :
    wp (reverse fuel malloc (headPtr xs)) post h := by
  unfold reverse
  by_cases hne : xs = []
  · subst hne
    rw [headPtr_nil, if_pos rfl]
    obtain rfl := List.eq_nil_of_length_eq_zero (Nat.le_zero.mp hmalloc.length_le)
    exact wp_pure (hok rfl _ hs.cons_nil)
  obtain ⟨list, hlist⟩ := exists_headPtr hne
  rw [if_neg (by simp [hlist])]
  refine wp_bind (wp_last hs hne ?_)
  refine wp_bind (wp_read_head hs rfl hne fun _ _ => ?_)
  refine wp_bind (wp_setPrev_head hs rfl hne fun h₁ hs₁ => ?_)
  refine wp_bind (@wp_reverseLoop _ _ xs [] L fuel malloc as [] 0 _ ?_ hfuel le_rfl hmalloc
    ?_ ?_ ?_)
  · rw [List.append_nil]
    exact hs₁.cons_nil
  · rw [List.append_nil]
    exact ⟨hfresh.nodup, hfresh.notMem⟩
  · intro hlength h₂ hs₂
    rw [List.append_nil] at hs₂
    refine wp_bind (wp_setPrev_head hs₂.swap rfl hne fun h₃ hs₃ => wp_pure (hok hlength _ ?_))
    exact hs₃.swap
  · intro hlength h₂ hs₂
    rw [List.append_nil] at hs₂
    exact wp_pure (hfail hlength _ hs₂)

end Alpm.ListHeap
