import Mathlib

/-!
# Linked nodes on a heap

A heap maps addresses to nodes with a `next` and a `prev` pointer.  Programs on it are functions
that may get stuck, on a null pointer or on memory that is not allocated; `wp` is the weakest
precondition of such a program, so a proof of `wp` also says that the program does not get stuck.

## 1.  Chains

`Chain` describes a doubly linked run of nodes between two outer pointers.  The outer pointers are
parameters, because a list of `alpm_list.c` is no plain doubly linked list: the `prev` pointer of
its head points to the last node, and while two lists are spliced the ends point elsewhere for a
moment.

## 2.  Several chains

`Shape` is a heap that holds several chains without a common node; it takes the place of a
separating conjunction.  The rules of `Shape` follow a program write by write.  A write to the outer
link at one end of a chain changes this link and leaves the other chains alone (`wp_setNext_last`,
`wp_setPrev_head`), and a chain can be cut in two and put together again (`split_iff`), so that a
write in the middle of a list becomes a write at the end of one of its parts.

## 3.  Memory

A new node is a chain of length one, and a node can be given back only when it is such a chain of
its own, so no other chain can be left with a pointer to it.
-/

namespace Alpm.LinkedHeap

/-- An address, or `NULL`. -/
abbrev Ptr := Option ℕ

structure Node (β : Type) where
  data : β
  next : Ptr
  prev : Ptr

/-- The allocated nodes. -/
abbrev Heap (β : Type) := ℕ → Option (Node β)

variable {β γ δ : Type}

/-! ## Programs -/

/-- A program on a heap; `none` is undefined behaviour. -/
abbrev HeapM (β γ : Type) := StateT (Heap β) Option γ

def Heap.setNext (h : Heap β) (p v : Ptr) : Heap β := fun a =>
  if p = some a then (h a).map fun node => { node with next := v } else h a

def Heap.setPrev (h : Heap β) (p v : Ptr) : Heap β := fun a =>
  if p = some a then (h a).map fun node => { node with prev := v } else h a

/-- Read the node at `p`. -/
def read (p : Ptr) : HeapM β (Node β) := fun h => (p.bind h).map (·, h)

/-- `p->next = v`. -/
def setNext (p v : Ptr) : HeapM β Unit := fun h => (p.bind h).map fun _ => ((), h.setNext p v)

/-- `p->prev = v`. -/
def setPrev (p v : Ptr) : HeapM β Unit := fun h => (p.bind h).map fun _ => ((), h.setPrev p v)

/-- Fill in freshly allocated memory. -/
def store (a : ℕ) (node : Node β) : HeapM β Unit := fun h =>
  some ((), Function.update h a (some node))

/-- Give the node at `p` back. -/
def free (p : Ptr) : HeapM β Unit := fun h =>
  p.bind fun a => (h a).map fun _ => ((), Function.update h a none)

/-- Undefined behaviour, and also a loop that has used up its rounds. -/
def stuck : HeapM β γ := fun _ => none

/-- The program ends from `h` with a result and a heap that satisfy `post`.  As `none` is undefined
behaviour, this says as well that there is none on the way. -/
def wp (m : HeapM β γ) (post : γ → Heap β → Prop) (h : Heap β) : Prop :=
  ∃ r h', m h = some (r, h') ∧ post r h'

theorem wp_pure {x : γ} {post : γ → Heap β → Prop} {h : Heap β} (hpost : post x h) :
    wp (pure x) post h :=
  ⟨x, h, rfl, hpost⟩

theorem wp_bind {m : HeapM β γ} {f : γ → HeapM β δ} {post : δ → Heap β → Prop} {h : Heap β}
    (hm : wp m (fun x h => wp (f x) post h) h) : wp (m >>= f) post h := by
  obtain ⟨x, h', hx, y, h'', hy, hpost⟩ := hm
  refine ⟨y, h'', ?_, hpost⟩
  show (m h).bind (fun p => f p.1 p.2) = _
  rw [hx]
  exact hy

theorem wp_map {m : HeapM β γ} {f : γ → δ} {post : δ → Heap β → Prop} {h : Heap β}
    (hm : wp m (fun x h => post (f x) h) h) : wp (f <$> m) post h := by
  obtain ⟨x, h', hx, hpost⟩ := hm
  refine ⟨f x, h', ?_, hpost⟩
  show (m h).bind (fun p => some (f p.1, p.2)) = _
  rw [hx]
  rfl

theorem wp_read {p : Ptr} {a : ℕ} {node : Node β} {post : Node β → Heap β → Prop} {h : Heap β}
    (hp : p = some a) (ha : h a = some node) (hpost : post node h) : wp (read p) post h :=
  ⟨node, h, by simp [read, hp, ha], hpost⟩

theorem wp_setNext {p v : Ptr} {a : ℕ} {post : Unit → Heap β → Prop} {h : Heap β}
    (hp : p = some a) (ha : (h a).isSome) (hpost : post () (h.setNext p v)) :
    wp (setNext p v) post h := by
  obtain ⟨node, hnode⟩ := Option.isSome_iff_exists.mp ha
  exact ⟨(), _, by simp [setNext, hp, hnode], hp ▸ hpost⟩

theorem wp_setPrev {p v : Ptr} {a : ℕ} {post : Unit → Heap β → Prop} {h : Heap β}
    (hp : p = some a) (ha : (h a).isSome) (hpost : post () (h.setPrev p v)) :
    wp (setPrev p v) post h := by
  obtain ⟨node, hnode⟩ := Option.isSome_iff_exists.mp ha
  exact ⟨(), _, by simp [setPrev, hp, hnode], hp ▸ hpost⟩

theorem wp_store {a : ℕ} {node : Node β} {post : Unit → Heap β → Prop} {h : Heap β}
    (hpost : post () (Function.update h a (some node))) : wp (store a node) post h :=
  ⟨(), _, rfl, hpost⟩

theorem wp_free {p : Ptr} {a : ℕ} {post : Unit → Heap β → Prop} {h : Heap β}
    (hp : p = some a) (ha : (h a).isSome) (hpost : post () (Function.update h a none)) :
    wp (free p) post h := by
  obtain ⟨node, hnode⟩ := Option.isSome_iff_exists.mp ha
  exact ⟨(), _, by simp [free, hp, hnode], hpost⟩

/-! ## Writes -/

variable {h h' : Heap β} {p q v : Ptr} {a b : ℕ}

theorem Heap.setNext_of_ne (hne : p ≠ some b) : h.setNext p v b = h b := if_neg hne

theorem Heap.setPrev_of_ne (hne : p ≠ some b) : h.setPrev p v b = h b := if_neg hne

theorem Heap.setNext_self {node : Node β} (ha : h a = some node) :
    h.setNext (some a) v a = some { node with next := v } := by
  simp [Heap.setNext, ha]

theorem Heap.setPrev_self {node : Node β} (ha : h a = some node) :
    h.setPrev (some a) v a = some { node with prev := v } := by
  simp [Heap.setPrev, ha]

/-- Writing a link allocates nothing and frees nothing. -/
@[simp] theorem Heap.isSome_setNext : (h.setNext p v b).isSome = (h b).isSome := by
  unfold Heap.setNext
  split_ifs <;> simp

@[simp] theorem Heap.isSome_setPrev : (h.setPrev p v b).isSome = (h b).isSome := by
  unfold Heap.setPrev
  split_ifs <;> simp

/-! ## Chains -/

/-- The nodes of a chain: their addresses and their data. -/
abbrev Cells (β : Type) := List (ℕ × β)

/-- The addresses of a chain. -/
abbrev addrs (xs : Cells β) : List ℕ := xs.map Prod.fst

def headPtr (xs : Cells β) : Ptr := xs.head?.map Prod.fst

def lastPtr (xs : Cells β) : Ptr := xs.getLast?.map Prod.fst

@[simp] theorem headPtr_nil : headPtr ([] : Cells β) = none := rfl

@[simp] theorem headPtr_cons (x : ℕ × β) (xs : Cells β) : headPtr (x :: xs) = some x.1 := rfl

@[simp] theorem lastPtr_nil : lastPtr ([] : Cells β) = none := rfl

@[simp] theorem lastPtr_singleton (x : ℕ × β) : lastPtr [x] = some x.1 := rfl

@[simp] theorem lastPtr_append_singleton (xs : Cells β) (x : ℕ × β) :
    lastPtr (xs ++ [x]) = some x.1 := by
  simp [lastPtr]

theorem headPtr_append (xs ys : Cells β) :
    headPtr (xs ++ ys) = (headPtr xs).or (headPtr ys) := by
  cases xs <;> simp

theorem lastPtr_append (xs ys : Cells β) :
    lastPtr (xs ++ ys) = (lastPtr ys).or (lastPtr xs) := by
  unfold lastPtr
  rw [List.getLast?_append]
  cases ys.getLast? <;> simp

theorem lastPtr_cons (x : ℕ × β) (xs : Cells β) :
    lastPtr (x :: xs) = (lastPtr xs).or (some x.1) := lastPtr_append [x] xs

theorem headPtr_eq_none {xs : Cells β} : headPtr xs = none ↔ xs = [] := by
  cases xs <;> simp

theorem mem_of_headPtr {xs : Cells β} (ha : headPtr xs = some a) : a ∈ addrs xs := by
  obtain ⟨x, hx, rfl⟩ := Option.map_eq_some_iff.mp ha
  exact List.mem_map_of_mem (List.mem_of_head? hx)

theorem mem_of_lastPtr {xs : Cells β} (ha : lastPtr xs = some a) : a ∈ addrs xs := by
  obtain ⟨x, hx, rfl⟩ := Option.map_eq_some_iff.mp ha
  exact List.mem_map_of_mem (List.mem_of_getLast? hx)

theorem exists_headPtr {xs : Cells β} (hne : xs ≠ []) : ∃ a, headPtr xs = some a := by
  obtain ⟨x, xs, rfl⟩ := List.exists_cons_of_ne_nil hne
  exact ⟨x.1, rfl⟩

theorem exists_lastPtr {xs : Cells β} (hne : xs ≠ []) : ∃ a, lastPtr xs = some a :=
  ⟨(xs.getLast hne).1, by simp [lastPtr, List.getLast?_eq_some_getLast hne]⟩

/-- The nodes are linked in both directions; the first one points back to `prev` and the
last one on to `next`. -/
def Chain (h : Heap β) (prev : Ptr) : Cells β → Ptr → Prop
  | [], _ => True
  | x :: xs, next =>
    h x.1 = some ⟨x.2, (headPtr xs).or next, prev⟩ ∧ Chain h (some x.1) xs next

namespace Chain

variable {prev next : Ptr} {xs ys : Cells β} {x : ℕ × β}

theorem nil : Chain h prev [] next := trivial

theorem cons_iff : Chain h prev (x :: xs) next ↔
    h x.1 = some ⟨x.2, (headPtr xs).or next, prev⟩ ∧ Chain h (some x.1) xs next := Iff.rfl

theorem append_iff : Chain h prev (xs ++ ys) next ↔
    Chain h prev xs ((headPtr ys).or next) ∧ Chain h ((lastPtr xs).or prev) ys next := by
  induction xs generalizing prev with
  | nil => simp [nil]
  | cons x xs ih =>
    rw [List.cons_append, cons_iff, cons_iff, ih, headPtr_append, lastPtr_cons, and_assoc]
    cases hlast : lastPtr xs <;> cases headPtr xs <;> simp

/-- A chain only depends on its own nodes. -/
theorem congr (hc : Chain h prev xs next) (hsame : ∀ a ∈ addrs xs, h' a = h a) :
    Chain h' prev xs next := by
  induction xs generalizing prev with
  | nil => trivial
  | cons x xs ih =>
    rw [addrs, List.map_cons, List.forall_mem_cons] at hsame
    exact ⟨hsame.1.trans hc.1, ih hc.2 hsame.2⟩

theorem setNext_of_notMem (hc : Chain h prev xs next) (hp : ∀ a ∈ p, a ∉ addrs xs) :
    Chain (h.setNext p v) prev xs next :=
  hc.congr fun a ha => Heap.setNext_of_ne fun heq => hp a heq ha

theorem setPrev_of_notMem (hc : Chain h prev xs next) (hp : ∀ a ∈ p, a ∉ addrs xs) :
    Chain (h.setPrev p v) prev xs next :=
  hc.congr fun a ha => Heap.setPrev_of_ne fun heq => hp a heq ha

theorem update_of_notMem {node : Option (Node β)} (hc : Chain h prev xs next)
    (ha : a ∉ addrs xs) : Chain (Function.update h a node) prev xs next :=
  hc.congr fun _ hb => Function.update_of_ne (ne_of_mem_of_not_mem hb ha) ..

/-- The nodes of a chain are allocated. -/
theorem isSome (hc : Chain h prev xs next) (ha : a ∈ addrs xs) : (h a).isSome := by
  induction xs generalizing prev with
  | nil => simp at ha
  | cons x xs ih =>
    rcases List.mem_cons.mp ha with rfl | ha
    · simp [hc.1]
    · exact ih hc.2 ha

theorem exists_node (hc : Chain h prev xs next) (hx : x ∈ xs) :
    ∃ next' prev', h x.1 = some ⟨x.2, next', prev'⟩ := by
  induction xs generalizing prev with
  | nil => cases hx
  | cons y xs ih =>
    rcases List.mem_cons.mp hx with rfl | hx
    · exact ⟨_, _, hc.1⟩
    · exact ih hc.2 hx

/-- The nodes are told by the cells and the outer links. -/
theorem agree (hc : Chain h prev xs next) (hc' : Chain h' prev xs next) :
    ∀ a ∈ addrs xs, h' a = h a := by
  induction xs generalizing prev with
  | nil => simp
  | cons x xs ih =>
    rw [addrs, List.map_cons, List.forall_mem_cons]
    exact ⟨hc'.1.trans hc.1.symm, ih hc.2 hc'.2⟩

/-- Writing the back link of the first node. -/
theorem setPrev_head (hc : Chain h prev xs next) (hnodup : (addrs xs).Nodup)
    (hp : p = headPtr xs) : Chain (h.setPrev p v) v xs next := by
  subst hp
  cases xs with
  | nil => trivial
  | cons x xs =>
    refine ⟨Heap.setPrev_self hc.1, hc.2.setPrev_of_notMem ?_⟩
    rintro a ⟨⟩
    exact (List.nodup_cons.mp hnodup).1

/-- Writing the forward link of the last node. -/
theorem setNext_last (hc : Chain h prev xs next) (hnodup : (addrs xs).Nodup)
    (hp : p = lastPtr xs) : Chain (h.setNext p v) prev xs v := by
  subst hp
  cases xs using List.reverseRecOn with
  | nil => trivial
  | append_singleton xs x _ =>
    rw [append_iff] at hc ⊢
    rw [lastPtr_append_singleton]
    rw [addrs, List.map_append, List.nodup_append] at hnodup
    refine ⟨hc.1.setNext_of_notMem ?_, Heap.setNext_self hc.2.1, trivial⟩
    rintro a ⟨⟩ ha
    exact hnodup.2.2 _ ha _ (by simp) rfl

end Chain

/-! ## Several chains -/

/-- A chain with its outer links. -/
structure Segment (β : Type) where
  prev : Ptr
  cells : Cells β
  next : Ptr

/-- The addresses of all segments. -/
def footprint (L : List (Segment β)) : List ℕ := L.flatMap fun c => addrs c.cells

/-- The heap holds the segments, and they have no node in common.  What else is on the heap is not
said, so a rule that goes from one shape to another has to say apart that it leaves the rest alone.
-/
structure Shape (h : Heap β) (L : List (Segment β)) : Prop where
  chains : ∀ c ∈ L, Chain h c.prev c.cells c.next
  nodup : (footprint L).Nodup

namespace Shape

variable {prev next : Ptr} {xs ys : Cells β} {L L' : List (Segment β)} {c d e : Segment β}

theorem footprint_cons : footprint (c :: L) = addrs c.cells ++ footprint L := rfl

theorem perm (hs : Shape h L) (hperm : L.Perm L') : Shape h L' :=
  ⟨fun c hc => hs.chains c (hperm.mem_iff.mpr hc),
    (hperm.flatMap_right _).nodup_iff.mp hs.nodup⟩

theorem swap (hs : Shape h (c :: d :: L)) : Shape h (d :: c :: L) := hs.perm (.swap ..)

theorem rotate (hs : Shape h (c :: d :: e :: L)) : Shape h (e :: c :: d :: L) :=
  hs.perm (@List.perm_middle _ e [c, d] L)

theorem head (hs : Shape h (c :: L)) : Chain h c.prev c.cells c.next :=
  hs.chains c (List.mem_cons_self ..)

theorem tail (hs : Shape h (c :: L)) : Shape h L :=
  ⟨fun d hd => hs.chains d (List.mem_cons_of_mem _ hd), (List.nodup_append.mp hs.nodup).2.1⟩

theorem nodup_head (hs : Shape h (c :: L)) : (addrs c.cells).Nodup :=
  (List.nodup_append.mp hs.nodup).1

/-- What is not in the footprint of the others can change. -/
theorem replace (hs : Shape h (c :: L)) (hd : Chain h' d.prev d.cells d.next)
    (haddrs : addrs d.cells = addrs c.cells) (hsame : ∀ b, b ∉ addrs c.cells → h' b = h b) :
    Shape h' (d :: L) := by
  constructor
  · rw [List.forall_mem_cons]
    refine ⟨hd, fun e he => (hs.tail.chains e he).congr fun b hb => hsame b fun hmem => ?_⟩
    exact (List.nodup_append.mp hs.nodup).2.2 b hmem b (List.mem_flatMap.mpr ⟨e, he, hb⟩) rfl
  · rw [footprint_cons, haddrs]
    exact hs.nodup

/-- A chain is cut in two. -/
theorem split_iff : Shape h (⟨prev, xs ++ ys, next⟩ :: L) ↔
    Shape h (⟨prev, xs, (headPtr ys).or next⟩ :: ⟨(lastPtr xs).or prev, ys, next⟩ :: L) := by
  have hfoot : footprint (⟨prev, xs ++ ys, next⟩ :: L) =
      footprint (⟨prev, xs, (headPtr ys).or next⟩ :: ⟨(lastPtr xs).or prev, ys, next⟩ :: L) := by
    simp [footprint]
  constructor
  · rintro ⟨hchains, hnodup⟩
    rw [List.forall_mem_cons] at hchains
    obtain ⟨hx, hy⟩ := Chain.append_iff.mp hchains.1
    exact ⟨List.forall_mem_cons.mpr ⟨hx, List.forall_mem_cons.mpr ⟨hy, hchains.2⟩⟩, hfoot ▸ hnodup⟩
  · rintro ⟨hchains, hnodup⟩
    rw [List.forall_mem_cons, List.forall_mem_cons] at hchains
    exact ⟨List.forall_mem_cons.mpr ⟨Chain.append_iff.mpr ⟨hchains.1, hchains.2.1⟩, hchains.2.2⟩,
      hfoot ▸ hnodup⟩

/-- The first node is cut off. -/
theorem split_cons_iff {x : ℕ × β} : Shape h (⟨prev, x :: xs, next⟩ :: L) ↔
    Shape h (⟨prev, [x], (headPtr xs).or next⟩ :: ⟨some x.1, xs, next⟩ :: L) :=
  @split_iff _ _ _ _ [x] xs L

/-- An empty chain can be added. -/
theorem cons_nil (hs : Shape h L) : Shape h (⟨prev, [], next⟩ :: L) :=
  ⟨List.forall_mem_cons.mpr ⟨trivial, hs.chains⟩, hs.nodup⟩

end Shape

variable {prev next : Ptr} {xs ys : Cells β} {L : List (Segment β)} {post : Unit → Heap β → Prop}

/-- Reading the first node of a chain. -/
theorem wp_read_cons {d : β} {post : Node β → Heap β → Prop}
    (hs : Shape h (⟨prev, (a, d) :: xs, next⟩ :: L)) (hp : p = some a)
    (hpost : post ⟨d, (headPtr xs).or next, prev⟩ h) : wp (read p) post h :=
  wp_read hp hs.head.1 hpost

/-- Reading the back link of a chain. -/
theorem wp_read_head {post : Node β → Heap β → Prop} (hs : Shape h (⟨prev, xs, next⟩ :: L))
    (hp : p = headPtr xs) (hne : xs ≠ []) (hpost : ∀ d next, post ⟨d, next, prev⟩ h) :
    wp (read p) post h := by
  obtain ⟨⟨a, d⟩, xs, rfl⟩ := List.exists_cons_of_ne_nil hne
  exact wp_read_cons hs hp (hpost ..)

/-- Reading the last node of a chain. -/
theorem wp_read_last {d : β} {post : Node β → Heap β → Prop}
    (hs : Shape h (⟨prev, xs ++ [(a, d)], next⟩ :: L)) (hp : p = some a)
    (hpost : post ⟨d, next, (lastPtr xs).or prev⟩ h) : wp (read p) post h :=
  wp_read_cons (Shape.split_iff.mp hs).swap hp hpost

/-- Writing the outer link at the end of a chain. -/
theorem wp_setNext_last (hs : Shape h (⟨prev, xs, next⟩ :: L)) (hp : p = lastPtr xs)
    (hne : xs ≠ []) (hpost : ∀ h', Shape h' (⟨prev, xs, v⟩ :: L) → post () h') :
    wp (setNext p v) post h := by
  obtain ⟨a, ha⟩ := exists_lastPtr hne
  refine wp_setNext (hp.trans ha) (hs.head.isSome (mem_of_lastPtr ha)) (hpost _ ?_)
  refine hs.replace (hs.head.setNext_last hs.nodup_head hp) rfl fun b hb => ?_
  exact Heap.setNext_of_ne fun heq => hb (mem_of_lastPtr (hp.symm.trans heq))

/-- Writing the outer link at the beginning of a chain. -/
theorem wp_setPrev_head (hs : Shape h (⟨prev, xs, next⟩ :: L)) (hp : p = headPtr xs)
    (hne : xs ≠ []) (hpost : ∀ h', Shape h' (⟨v, xs, next⟩ :: L) → post () h') :
    wp (setPrev p v) post h := by
  obtain ⟨a, ha⟩ := exists_headPtr hne
  refine wp_setPrev (hp.trans ha) (hs.head.isSome (mem_of_headPtr ha)) (hpost _ ?_)
  refine hs.replace (hs.head.setPrev_head hs.nodup_head hp) rfl fun b hb => ?_
  exact Heap.setPrev_of_ne fun heq => hb (mem_of_headPtr (hp.symm.trans heq))

/-- Filling in a new node. -/
theorem wp_store_new {d : β} (hs : Shape h L) (ha : a ∉ footprint L)
    (hpost : ∀ h', Shape h' (⟨prev, [(a, d)], next⟩ :: L) → post () h') :
    wp (store a ⟨d, next, prev⟩) post h := by
  refine wp_store (hpost _ ⟨List.forall_mem_cons.mpr ⟨⟨Function.update_self .., trivial⟩, ?_⟩, ?_⟩)
  · intro c hc
    refine (hs.chains c hc).update_of_notMem fun hmem => ha ?_
    exact List.mem_flatMap.mpr ⟨c, hc, hmem⟩
  · exact List.nodup_cons.mpr ⟨ha, hs.nodup⟩

/-- Giving a node back. -/
theorem wp_free_single {d : β} (hs : Shape h (⟨prev, [(a, d)], next⟩ :: L)) (hp : p = some a)
    (hpost : ∀ h', Shape h' L → post () h') : wp (free p) post h := by
  have hnotMem := (List.nodup_cons.mp hs.nodup).1
  refine wp_free hp (hs.head.isSome (by simp)) (hpost _ ⟨fun c hc => ?_, hs.tail.nodup⟩)
  exact (hs.tail.chains c hc).update_of_notMem fun hmem =>
    hnotMem (List.mem_flatMap.mpr ⟨c, hc, hmem⟩)

end Alpm.LinkedHeap
