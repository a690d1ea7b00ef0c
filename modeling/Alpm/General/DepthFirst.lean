import Mathlib.Algebra.Order.BigOperators.Group.List
import Mathlib.Algebra.Order.Ring.Nat
import Mathlib.Data.List.Perm.Basic
import Mathlib.Logic.Function.Basic
import Mathlib.Logic.Relation

/-!
# Depth-first search on graphs with cycles

A search keeps the stack of the vertices it has entered, the list of those it has left, and for
every vertex the children it has not looked at.  It enters a new root when the stack is empty,
enters a child that it has not seen, passes over a child that it has left or that is on the stack,
and leaves the vertex on top when that has no child to look at. An edge to a vertex on the stack is
given up.

## 1.  The order

On a graph without cycles the vertices are left in topological order.  With cycles there is no such
order, and the question is what remains of it.  In the order in which the vertices are left a vertex
comes before `a` if `a` reaches it on a way that never returns to `a` (`Search.Invariant.order`),
and a child that does not come before its parent is at the end of an edge that was given up
(`Search.Invariant.edges`).

The invariant that carries this has two halves.  Each vertex on the stack has an edge to the one
above it, so that everything on the stack reaches the top; and the edges that a vertex has looked at
lead to vertices that were left, to the one above it, or were given up (`Visited`).  When the top is
left, all its edges are of this kind, and a child on the stack below it would be a way back
(`Invariant.closed_top`).

## 2.  The end

Every step lowers `Search.potential`, so a search ends, and the potential of the start bounds the
number of its steps.
-/

namespace Alpm.DepthFirst

variable {V : Type*}

/-! ## Ways that do not return -/

/-- A way from `a` along edges, none of whose vertices after `a` reaches `a`. -/
inductive OneWay (edge : V → V → Prop) (a : V) : V → Prop
  | first {b : V} : edge a b → ¬ Relation.ReflTransGen edge b a → OneWay edge a b
  | next {b c : V} : OneWay edge a b → edge b c → ¬ Relation.ReflTransGen edge c a →
      OneWay edge a c

/-- `c` stands directly above `v` in a stack. -/
def Above (stack : List V) (c v : V) : Prop := ∃ above below, stack = above ++ c :: v :: below

namespace Above

variable {stack : List V} {a c v : V}

theorem mem_left (h : Above stack c v) : c ∈ stack := by
  obtain ⟨above, below, rfl⟩ := h
  simp

theorem mem_right (h : Above stack c v) : v ∈ stack := by
  obtain ⟨above, below, rfl⟩ := h
  simp

theorem push (h : Above stack c v) : Above (a :: stack) c v := by
  obtain ⟨above, below, rfl⟩ := h
  exact ⟨a :: above, below, rfl⟩

theorem pop (h : Above (a :: stack) c v) : a = c ∨ Above stack c v := by
  obtain ⟨above, below, heq⟩ := h
  cases above with
  | nil => exact Or.inl (List.cons_eq_cons.mp heq).1
  | cons b above => exact Or.inr ⟨above, below, (List.cons_eq_cons.mp heq).2⟩

end Above

/-! ## The search -/

/-- The state of a search. -/
structure Search (V : Type*) where
  /-- the vertices entered and not left, the last one first -/
  stack : List V
  /-- the vertices left, in this order -/
  finished : List V
  /-- the children to look at -/
  remaining : V → List V
  /-- the edges to a vertex that was on the stack -/
  givenUp : List (V × V)

namespace Search

/-- The start of the search on a graph. -/
def init (children : V → List V) : Search V := ⟨[], [], children, []⟩

/-- The top vertex has looked at its next child. -/
def advance [DecidableEq V] (s : Search V) (v : V) (rest : List V) : Search V :=
  { s with remaining := Function.update s.remaining v rest }

/-- One step of the search. -/
inductive Step [DecidableEq V] : Search V → Search V → Prop
  | root {s : Search V} {v : V} : s.stack = [] → v ∉ s.finished → Step s { s with stack := [v] }
  | enter {s : Search V} {v c : V} {below rest : List V} : s.stack = v :: below →
      s.remaining v = c :: rest → c ∉ s.stack → c ∉ s.finished →
      Step s { s.advance v rest with stack := c :: s.stack }
  | pass {s : Search V} {v c : V} {below rest : List V} : s.stack = v :: below →
      s.remaining v = c :: rest → c ∈ s.finished → Step s (s.advance v rest)
  | giveUp {s : Search V} {v c : V} {below rest : List V} : s.stack = v :: below →
      s.remaining v = c :: rest → c ∈ s.stack →
      Step s { s.advance v rest with givenUp := s.givenUp ++ [(v, c)] }
  | leave {s : Search V} {v : V} {below : List V} : s.stack = v :: below →
      s.remaining v = [] → Step s { s with stack := below, finished := s.finished ++ [v] }

/-- A child has been looked at: it was left, its edge was given up, or it stands directly above its
parent in the stack.  The third case is the only one that a later step changes, and it becomes the
first. -/
def Visited (s : Search V) (v c : V) : Prop :=
  c ∈ s.finished ∨ (v, c) ∈ s.givenUp ∨ Above s.stack c v

/-- What holds in every state of a search.  The first half is about the search itself: no vertex is
entered twice, the stack is a path, and the children that a vertex has behind it have been looked
at. The second half is about the vertices that were left: what they reach without return was left
too, and the order and the edges are as they should be in the end. -/
structure Invariant (children : V → List V) (s : Search V) : Prop where
  nodup : (s.stack ++ s.finished).Nodup
  chain : s.stack.IsChain fun c v => c ∈ children v
  /-- an edge that was given up leads to a vertex that was entered -/
  entered : ∀ v c, (v, c) ∈ s.givenUp → c ∈ s.stack ++ s.finished
  visited : ∀ v, ∃ seen, children v = seen ++ s.remaining v ∧ ∀ c ∈ seen, s.Visited v c
  done : ∀ v ∈ s.finished, s.remaining v = []
  closed : ∀ a ∈ s.finished, ∀ b, OneWay (fun v c => c ∈ children v) a b → b ∈ s.finished
  order : s.finished.Pairwise fun a b => ¬ OneWay (fun v c => c ∈ children v) a b
  edges : s.finished.Pairwise fun a b => b ∈ children a → (a, b) ∈ s.givenUp

theorem invariant_init (children : V → List V) : (init children).Invariant children where
  nodup := List.nodup_nil
  chain := List.IsChain.nil
  entered _ _ h := absurd h List.not_mem_nil
  visited _ := ⟨[], rfl, fun _ h => absurd h List.not_mem_nil⟩
  done _ h := absurd h List.not_mem_nil
  closed _ h := absurd h List.not_mem_nil
  order := List.Pairwise.nil
  edges := List.Pairwise.nil

section

variable {children : V → List V} {s : Search V}

/-- Every vertex on the stack reaches the top. -/
theorem Invariant.reaches_top (h : s.Invariant children) {u v : V} {below : List V}
    (hstack : s.stack = u :: below) (hv : v ∈ s.stack) :
    Relation.ReflTransGen (fun v c => c ∈ children v) v u := by
  have hchain := h.chain
  rw [hstack] at hv hchain
  clear hstack
  induction below generalizing u with
  | nil =>
    obtain rfl := List.mem_singleton.mp hv
    exact .refl
  | cons w below ih =>
    rw [List.isChain_cons_cons] at hchain
    rcases List.mem_cons.mp hv with rfl | hv
    · exact .refl
    · exact (ih hv hchain.2).tail hchain.1

/-- A child that has been looked at was entered. -/
theorem Invariant.entered_of_visited (h : s.Invariant children) {v c : V}
    (hc : s.Visited v c) : c ∈ s.stack ∨ c ∈ s.finished := by
  rcases hc with hc | hc | hc
  · exact Or.inr hc
  · exact List.mem_append.mp (h.entered v c hc)
  · exact Or.inl hc.mem_left

theorem Invariant.entered_of_done (h : s.Invariant children) {v c : V}
    (hdone : s.remaining v = []) (hc : c ∈ children v) : c ∈ s.stack ∨ c ∈ s.finished := by
  obtain ⟨seen, hseen, hvisited⟩ := h.visited v
  rw [hseen, hdone, List.append_nil] at hc
  exact h.entered_of_visited (hvisited c hc)

/-- When the top has no child to look at, what it reaches without return has been left. -/
theorem Invariant.closed_top (h : s.Invariant children) {u b : V} {below : List V}
    (hstack : s.stack = u :: below) (hdone : s.remaining u = [])
    (hb : OneWay (fun v c => c ∈ children v) u b) : b ∈ s.finished := by
  have hleft : ∀ c, c ∈ s.stack ∨ c ∈ s.finished →
      ¬ Relation.ReflTransGen (fun v c => c ∈ children v) c u → c ∈ s.finished :=
    fun c hc hnot => hc.resolve_left fun hc => hnot (h.reaches_top hstack hc)
  induction hb with
  | first hedge hnot => exact hleft _ (h.entered_of_done hdone hedge) hnot
  | next _ hedge hnot ih => exact hleft _ (h.entered_of_done (h.done _ ih) hedge) hnot

/-- The edges of a vertex that was left. -/
theorem Invariant.edges_done (h : s.Invariant children) {a c : V} (ha : a ∈ s.finished)
    (hc : c ∈ children a) : c ∈ s.finished ∨ (a, c) ∈ s.givenUp := by
  obtain ⟨seen, hseen, hvisited⟩ := h.visited a
  rw [hseen, h.done a ha, List.append_nil] at hc
  rcases hvisited c hc with hc | hc | hc
  · exact Or.inl hc
  · exact Or.inr hc
  · exact absurd rfl ((List.nodup_append.mp h.nodup).2.2 a hc.mem_right a ha)

/-- What has been looked at when the top looks at one more child. -/
theorem Invariant.visited_advance [DecidableEq V] (h : s.Invariant children) {s' : Search V}
    {u c : V} {rest : List V} (hrest : s.remaining u = c :: rest)
    (hremaining : s'.remaining = Function.update s.remaining u rest)
    (hkeep : ∀ v d, s.Visited v d → s'.Visited v d) (hnew : s'.Visited u c) (v : V) :
    ∃ seen, children v = seen ++ s'.remaining v ∧ ∀ d ∈ seen, s'.Visited v d := by
  obtain ⟨seen, hseen, hvisited⟩ := h.visited v
  by_cases hv : v = u
  · subst hv
    refine ⟨seen ++ [c], by simp [hremaining, hseen, hrest], fun d hd => ?_⟩
    rcases List.mem_append.mp hd with hd | hd
    · exact hkeep v d (hvisited d hd)
    · exact List.mem_singleton.mp hd ▸ hnew
  · exact ⟨seen, by simp [hremaining, hv, hseen], fun d hd => hkeep v d (hvisited d hd)⟩

theorem Invariant.done_advance [DecidableEq V] (h : s.Invariant children) {u : V}
    {rest below : List V} (hstack : s.stack = u :: below) (v : V) (hv : v ∈ s.finished) :
    (s.advance u rest).remaining v = [] := by
  have hne : v ≠ u := by
    rintro rfl
    have hdisjoint := (List.nodup_append.mp h.nodup).2.2
    exact hdisjoint v (hstack ▸ List.mem_cons_self ..) v hv rfl
  simp [advance, hne, h.done v hv]

/-- **The invariant is kept by every step.**  Only the step that leaves the top adds something to
the second half, and what it needs is that everything the top reaches without return was left
before. -/
theorem Invariant.step [DecidableEq V] (h : s.Invariant children) {s' : Search V}
    (hstep : Step s s') : s'.Invariant children := by
  cases hstep with
  | @root v hstack hv =>
    have hkeep : ∀ a d, s.Visited a d → Search.Visited { s with stack := [v] } a d := by
      rintro a d (hd | hd | hd)
      · exact Or.inl hd
      · exact Or.inr (Or.inl hd)
      · rw [hstack] at hd
        exact absurd hd.mem_left List.not_mem_nil
    have hnodup := h.nodup
    rw [hstack, List.nil_append] at hnodup
    exact {
      nodup := List.nodup_cons.mpr ⟨hv, hnodup⟩
      chain := List.IsChain.singleton v
      entered := fun a c hc => by
        have hin := h.entered a c hc
        rw [hstack] at hin
        exact List.mem_append_right _ hin
      visited := fun a => by
        obtain ⟨seen, hseen, hvisited⟩ := h.visited a
        exact ⟨seen, hseen, fun d hd => hkeep a d (hvisited d hd)⟩
      done := h.done
      closed := h.closed
      order := h.order
      edges := h.edges }
  | @enter v c below rest hstack hrest hc hc' =>
    have hchild : c ∈ children v := by
      obtain ⟨seen, hseen, -⟩ := h.visited v
      rw [hseen, hrest]
      simp
    have hchain := h.chain
    rw [hstack] at hchain
    exact {
      nodup := List.nodup_cons.mpr ⟨fun hin => (List.mem_append.mp hin).elim hc hc', h.nodup⟩
      chain := by
        show (c :: s.stack).IsChain _
        rw [hstack]
        exact List.IsChain.cons_cons hchild hchain
      entered := fun a d hd => List.mem_cons_of_mem c (h.entered a d hd)
      visited := h.visited_advance hrest rfl
        (fun a d hd => hd.imp id fun hd => hd.imp id Above.push)
        (Or.inr (Or.inr ⟨[], below, congrArg (c :: ·) hstack⟩))
      done := h.done_advance hstack
      closed := h.closed
      order := h.order
      edges := h.edges }
  | @pass v c below rest hstack hrest hc =>
    exact {
      nodup := h.nodup
      chain := h.chain
      entered := h.entered
      visited := h.visited_advance hrest rfl (fun a d hd => hd) (Or.inl hc)
      done := h.done_advance hstack
      closed := h.closed
      order := h.order
      edges := h.edges }
  | @giveUp v c below rest hstack hrest hc =>
    exact {
      nodup := h.nodup
      chain := h.chain
      entered := fun a d hd => by
        rcases List.mem_append.mp hd with hd | hd
        · exact h.entered a d hd
        · obtain ⟨-, rfl⟩ := Prod.mk.inj (List.mem_singleton.mp hd)
          exact List.mem_append_left _ hc
      visited := h.visited_advance hrest rfl
        (fun a d hd => hd.imp id fun hd => hd.imp (List.mem_append_left _) id)
        (Or.inr (Or.inl (List.mem_append_right _ (List.mem_singleton_self _))))
      done := h.done_advance hstack
      closed := h.closed
      order := h.order
      edges := h.edges.imp fun hab hb => List.mem_append_left _ (hab hb) }
  | @leave v below hstack hdone =>
    have hnodup := h.nodup
    have hchain := h.chain
    rw [hstack] at hnodup hchain
    have hv : v ∉ s.finished := fun hv =>
      (List.nodup_cons.mp hnodup).1 (List.mem_append_right below hv)
    have hkeep : ∀ a d, s.Visited a d →
        Search.Visited { s with stack := below, finished := s.finished ++ [v] } a d := by
      rintro a d (hd | hd | hd)
      · exact Or.inl (List.mem_append_left _ hd)
      · exact Or.inr (Or.inl hd)
      · rw [hstack] at hd
        rcases hd.pop with rfl | hd
        · exact Or.inl (List.mem_append_right _ (List.mem_singleton_self _))
        · exact Or.inr (Or.inr hd)
    exact {
      nodup := by
        refine ((List.perm_append_comm.append_left below).trans ?_).nodup_iff.mpr hnodup
        exact List.perm_middle
      chain := hchain.of_cons
      entered := fun a d hd => by
        have hin := h.entered a d hd
        rw [hstack, List.cons_append, List.mem_cons] at hin
        simp only [List.mem_append, List.mem_singleton] at hin ⊢
        tauto
      visited := fun a => by
        obtain ⟨seen, hseen, hvisited⟩ := h.visited a
        exact ⟨seen, hseen, fun d hd => hkeep a d (hvisited d hd)⟩
      done := fun a ha => by
        rcases List.mem_append.mp ha with ha | ha
        · exact h.done a ha
        · exact List.mem_singleton.mp ha ▸ hdone
      closed := fun a ha b hb => by
        refine List.mem_append_left _ ?_
        rcases List.mem_append.mp ha with ha | ha
        · exact h.closed a ha b hb
        · obtain rfl := List.mem_singleton.mp ha
          exact h.closed_top hstack hdone hb
      order := by
        refine List.pairwise_append.mpr ⟨h.order, List.pairwise_singleton _ _, ?_⟩
        intro a ha b hb hway
        obtain rfl := List.mem_singleton.mp hb
        exact hv (h.closed a ha b hway)
      edges := by
        refine List.pairwise_append.mpr ⟨h.edges, List.pairwise_singleton _ _, ?_⟩
        intro a ha b hb hedge
        obtain rfl := List.mem_singleton.mp hb
        exact (h.edges_done ha hedge).resolve_left hv }

/-! ## The search ends -/

/-- The steps that enter and leave a vertex and are still to come. -/
def pending [DecidableEq V] (s : Search V) (v : V) : ℕ :=
  if v ∈ s.stack then 1 else if v ∈ s.finished then 0 else 2

/-- What a vertex contributes to the potential. -/
def weight [DecidableEq V] (s : Search V) (v : V) : ℕ := (s.remaining v).length + s.pending v

/-- A bound on the number of steps on a list of vertices. -/
def potential [DecidableEq V] (s : Search V) (vertices : List V) : ℕ :=
  (vertices.map s.weight).sum

/-- A step lowers the potential if it raises no weight and lowers one. -/
theorem potential_lt_of_weight [DecidableEq V] {s' : Search V} {vertices : List V} {v : V}
    (hle : ∀ a, s'.weight a ≤ s.weight a) (hv : v ∈ vertices) (hlt : s'.weight v < s.weight v) :
    s'.potential vertices < s.potential vertices :=
  List.sum_lt_sum _ _ (fun a _ => hle a) ⟨v, hv, hlt⟩

theorem weight_advance_le [DecidableEq V] {v c : V} {rest : List V}
    (hrest : s.remaining v = c :: rest) (a : V) : (s.advance v rest).weight a ≤ s.weight a := by
  refine Nat.add_le_add_right ?_ (s.pending a)
  by_cases ha : a = v
  · subst ha
    simp [advance, hrest]
  · simp [advance, ha]

theorem weight_advance_lt [DecidableEq V] {v c : V} {rest : List V}
    (hrest : s.remaining v = c :: rest) : (s.advance v rest).weight v < s.weight v := by
  refine Nat.add_lt_add_right ?_ (s.pending v)
  simp [advance, hrest]

/-- Entering a vertex takes one of its two steps. -/
theorem pending_push [DecidableEq V] {v : V} (hv : v ∉ s.stack) (hv' : v ∉ s.finished) (a : V) :
    Search.pending { s with stack := v :: s.stack } a ≤ s.pending a ∧
      Search.pending { s with stack := v :: s.stack } v < s.pending v := by
  simp only [pending, List.mem_cons, hv, hv', or_false, if_true, if_false]
  refine ⟨?_, by omega⟩
  by_cases ha : a = v
  · simp [ha, hv, hv']
  · simp [ha]

/-- Leaving a vertex takes the other one. -/
theorem pending_pop [DecidableEq V] {v : V} {below : List V} (hstack : s.stack = v :: below)
    (hv : v ∉ below) (a : V) :
    Search.pending { s with stack := below, finished := s.finished ++ [v] } a ≤ s.pending a ∧
      Search.pending { s with stack := below, finished := s.finished ++ [v] } v <
        s.pending v := by
  simp only [pending, hstack, List.mem_cons, List.mem_append, List.not_mem_nil, hv, or_false,
    or_true, if_true, if_false]
  refine ⟨?_, by omega⟩
  by_cases ha : a = v
  · simp [ha, hv]
  · simp [ha]

/-- **Every step lowers the potential.**  A step that enters or leaves a vertex takes one of the two
that the vertex has, and a step that looks at a child takes the child from what is to be looked at.
-/
theorem Step.potential_lt [DecidableEq V] {s' : Search V} (hstep : Step s s')
    (h : s.Invariant children) {vertices : List V} (hin : ∀ v ∈ s.stack, v ∈ vertices)
    (hin' : ∀ v ∈ s'.stack, v ∈ vertices) : s'.potential vertices < s.potential vertices := by
  cases hstep with
  | @root v hstack hv =>
    have hpush := pending_push (hstack ▸ List.not_mem_nil : v ∉ s.stack) hv
    rw [hstack] at hpush
    exact potential_lt_of_weight (fun a => Nat.add_le_add_left (hpush a).1 _)
      (hin' v (List.mem_singleton_self v)) (Nat.add_lt_add_left (hpush v).2 _)
  | @enter v c below rest hstack hrest hc hc' =>
    have hpush : ∀ a, Search.weight { s.advance v rest with stack := c :: s.stack } a ≤
        (s.advance v rest).weight a := fun a =>
      Nat.add_le_add_left (@pending_push _ (s.advance v rest) _ c hc hc' a).1 _
    exact potential_lt_of_weight (fun a => (hpush a).trans (weight_advance_le hrest a))
      (hin v (hstack ▸ List.mem_cons_self ..)) ((hpush v).trans_lt (weight_advance_lt hrest))
  | @pass v c below rest hstack hrest hc =>
    exact potential_lt_of_weight (weight_advance_le hrest) (hin v (hstack ▸ List.mem_cons_self ..))
      (weight_advance_lt hrest)
  | @giveUp v c below rest hstack hrest hc =>
    exact potential_lt_of_weight (weight_advance_le hrest) (hin v (hstack ▸ List.mem_cons_self ..))
      (weight_advance_lt hrest)
  | @leave v below hstack hdone =>
    have hnodup := h.nodup
    rw [hstack, List.cons_append, List.nodup_cons] at hnodup
    have hpop := pending_pop hstack fun hv => hnodup.1 (List.mem_append_left _ hv)
    exact potential_lt_of_weight (fun a => Nat.add_le_add_left (hpop a).1 _)
      (hin v (hstack ▸ List.mem_cons_self ..)) (Nat.add_lt_add_left (hpop v).2 _)

end

end Search

end Alpm.DepthFirst
