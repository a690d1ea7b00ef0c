import Alpm.Deps.Graph
import Alpm.General.DepthFirst

/-!
# `_alpm_sortbydeps`

The order in which the packages of a transaction are installed or removed.

## 1.  The loops

The search walks the dependency graph with a parent pointer and a child iterator in each vertex; a
round of its loop goes down to a child or leaves a vertex.  An edge to a vertex that is being
processed is given up, with a warning if it connects two packages of the transaction.  The loops
take the number of rounds they may make and return `none` if that is not enough; `maxRounds` is
enough, because a vertex is entered and left once and each of its children is looked at once.

## 2.  The search behind them

A round is one or more steps of `DepthFirst.Search`, whose stack is the chain of parents (`Agrees`).
With this the order of the result, the warnings and the end of the loop come from the general
search: its invariant says in which order the vertices are left and which edges were given up, and
its potential bounds the number of rounds (`sortLoop_spec`).  `Alpm.Deps.TransactionOrder` says what
that means for packages.
-/

namespace Alpm

open DepthFirst

/-- `enum _alpm_graph_vertex_state`. -/
inductive GraphState where
  | unprocessed
  | processing
  | processed
  deriving DecidableEq, Repr

/-- The packages that a dependency cycle warning names, and which of the two texts it has:
"%s will be removed after its %s dependency" with `reverse`, else "%s will be installed
before its %s dependency". -/
structure CycleWarning where
  ancestorpkg : CString
  childpkg : CString
  reverse : Bool
  deriving DecidableEq, Repr

/-- The other fields of the vertices, the new list and the warnings. -/
structure SortState where
  parent : ℕ → Option ℕ
  iterator : ℕ → List ℕ
  state : ℕ → GraphState
  newtargs : List Pkg
  warnings : List CycleWarning

/-- The vertex is touched. -/
def SortState.mark (s : SortState) (vertex : ℕ) : SortState :=
  { s with state := Function.update s.state vertex .processing }

section

variable (graph : List Vertex) (targets : List Pkg) (reverse : Bool)

/-- `vertex->data` if `alpm_list_find_ptr` finds it in the targets. -/
def targetData (vertex : ℕ) : Option Pkg :=
  (graph[vertex]?.map Vertex.data).filter (· ∈ targets)

/-- The nearest ancestor that is part of the transaction, the vertex itself included. -/
def nearestTarget (parent : ℕ → Option ℕ) : ℕ → Option ℕ → Option (Option (ℕ × Pkg))
  | _, none => some none
  | 0, some _ => none
  | fuel + 1, some ancestor =>
    match targetData graph targets ancestor with
    | some ancestorpkg => some (some (ancestor, ancestorpkg))
    | none => nearestTarget parent fuel (parent ancestor)

/-- `_alpm_warn_dep_cycle`.  A warning is about two targets, so a vertex that is none is replaced by
the nearest target above it, and there is no warning if that is the child itself. -/
def warnDepCycle (s : SortState) (ancestor vertex : ℕ) : Option SortState :=
  match targetData graph targets vertex with
  | none => some s
  | some childpkg =>
    match nearestTarget graph targets s.parent graph.length (some ancestor) with
    | none => none
    | some none => some s
    | some (some (ancestor, ancestorpkg)) =>
      if ancestor = vertex then some s
      else some { s with
        warnings := s.warnings ++ [⟨ancestorpkg.name, childpkg.name, reverse⟩] }

/-- The inner loop over the children of a vertex: the state, and the child it goes down to.
Children that were processed are passed over, and an edge to one that is being processed is given
up. -/
def scanChildren (vertex : ℕ) : List ℕ → SortState → Option (SortState × Option ℕ)
  | [], s => some (s, none)
  | nextchild :: rest, s =>
    let s := { s with iterator := Function.update s.iterator vertex rest }
    match s.state nextchild with
    | .unprocessed =>
      some ({ s with parent := Function.update s.parent nextchild (some vertex) }, some nextchild)
    | .processing => (warnDepCycle graph targets reverse s vertex nextchild).bind
        (scanChildren vertex rest)
    | .processed => scanChildren vertex rest s

/-- Leave a vertex. -/
def leaveVertex (s : SortState) (vertex : ℕ) : SortState :=
  { s with
    newtargs := s.newtargs ++ (targetData graph targets vertex).toList
    state := Function.update s.state vertex .processed }

/-- The outer loop.  `i` is the rest of the list of vertices; a round goes down to a child, or
leaves the vertex and goes back to its parent, or, at the top level, on to the next vertex that is
unprocessed. -/
def sortLoop : ℕ → List ℕ → ℕ → SortState → Option SortState
  | _, [], _, s => some s
  | 0, _ :: _, _, _ => none
  | fuel + 1, i :: rest, vertex, s =>
    let s := s.mark vertex
    match scanChildren graph targets reverse vertex (s.iterator vertex) s with
    | none => none
    | some (s, some child) => sortLoop fuel (i :: rest) child s
    | some (s, none) =>
      let s := leaveVertex graph targets s vertex
      match s.parent vertex with
      | some parent => sortLoop fuel (i :: rest) parent s
      | none =>
        -- top level vertex reached, move to the next unprocessed vertex
        let rest := rest.dropWhile (s.state · ≠ .unprocessed)
        sortLoop fuel rest (rest.headD vertex) s

/-- The children of a vertex. -/
def childrenOf (vertex : ℕ) : List ℕ := (graph[vertex]?.map Vertex.children).getD []

/-- The vertices as `dep_graph_init` leaves them. -/
def sortInit : SortState where
  parent _ := none
  iterator := childrenOf graph
  state _ := .unprocessed
  newtargs := []
  warnings := []

end

/-- A bound on the rounds of the outer loop: a vertex is entered and left once, and each of
its children is looked at once. -/
def maxRounds (graph : List Vertex) : ℕ :=
  ((List.range graph.length).map fun v => (childrenOf graph v).length + 2).sum

/-- `_alpm_sortbydeps`: the new list and the warnings. -/
def sortbydeps (localdb targets ignore : List Pkg) (reverse : Bool) :
    Option (List Pkg × List CycleWarning) :=
  if targets = [] then some ([], [])
  else
    let graph := depGraphInit localdb targets ignore
    match sortLoop graph targets reverse (maxRounds graph) (List.range graph.length) 0
        (sortInit graph) with
    | none => none
    | some s => some (if reverse then s.newtargs.reverse else s.newtargs, s.warnings)

/-! ## The search behind the loops -/

section

variable {graph : List Vertex} {targets : List Pkg} {reverse : Bool}

/-- The stack of the search is the chain of parents. -/
def Parents (parent : ℕ → Option ℕ) : List ℕ → Prop
  | [] => True
  | v :: below => parent v = below.head? ∧ Parents parent below

theorem Parents.congr {parent parent' : ℕ → Option ℕ} {stack : List ℕ}
    (h : Parents parent stack) (hsame : ∀ v ∈ stack, parent' v = parent v) :
    Parents parent' stack := by
  induction stack with
  | nil => trivial
  | cons v below ih =>
    exact ⟨(hsame v (List.mem_cons_self ..)).trans h.1,
      ih h.2 fun w hw => hsame w (List.mem_cons_of_mem v hw)⟩

/-- The search for an ancestor ends at the bottom of the stack. -/
theorem nearestTarget_isSome {parent : ℕ → Option ℕ} {stack : List ℕ}
    (h : Parents parent stack) {fuel : ℕ} (hfuel : stack.length ≤ fuel) :
    (nearestTarget graph targets parent fuel stack.head?).isSome := by
  induction stack generalizing fuel with
  | nil => rw [List.head?_nil, nearestTarget, Option.isSome_some]
  | cons v below ih =>
    obtain ⟨fuel, rfl⟩ : ∃ k, fuel = k + 1 := ⟨fuel - 1, by simp at hfuel; omega⟩
    rw [List.head?_cons, nearestTarget]
    cases targetData graph targets v with
    | some pkg => rfl
    | none =>
      rw [h.1]
      exact ih h.2 (Nat.le_of_succ_le_succ hfuel)

/-- The state of a vertex in a search. -/
def stateIn (a : Search ℕ) (v : ℕ) : GraphState :=
  if v ∈ a.stack then .processing else if v ∈ a.finished then .processed else .unprocessed

variable (graph targets reverse) in
/-- The loops and a search are at the same point: the vertex in hand is the top of the stack, the
parents lead down the stack, and the states and the iterators of the vertices tell which of them
were entered and left and which children are still to be looked at. -/
structure Agrees (s : SortState) (a : Search ℕ) : Prop where
  iterator : s.iterator = a.remaining
  state : s.state = stateIn a
  parents : Parents s.parent a.stack
  fresh : ∀ v, v ∉ a.stack → v ∉ a.finished → s.parent v = none
  newtargs : s.newtargs = a.finished.filterMap (targetData graph targets)
  warnings : ∀ v c, (v, c) ∈ a.givenUp → v ≠ c → ∀ p q, targetData graph targets v = some p →
    targetData graph targets c = some q → ⟨p.name, q.name, reverse⟩ ∈ s.warnings

variable (graph) in
/-- A search on the dependency graph. -/
structure Running (a : Search ℕ) : Prop where
  invariant : a.Invariant (childrenOf graph)
  within : ∀ v ∈ a.stack, v ∈ List.range graph.length

theorem Running.step {a a' : Search ℕ} (h : Running graph a) (hstep : Search.Step a a')
    (hwithin : ∀ v ∈ a'.stack, v ∈ List.range graph.length) :
    Running graph a' ∧
      a'.potential (List.range graph.length) < a.potential (List.range graph.length) :=
  ⟨⟨h.invariant.step hstep, hwithin⟩, hstep.potential_lt h.invariant h.within hwithin⟩

/-- The stack is not longer than the list of vertices. -/
theorem Running.length_stack_le {a : Search ℕ} (h : Running graph a) :
    a.stack.length ≤ graph.length := by
  have hsub := List.subperm_of_subset (List.nodup_append.mp h.invariant.nodup).1 h.within
  simpa using hsub.length_le

/-- The next child to look at is a child. -/
theorem Running.mem_childrenOf {a : Search ℕ} (h : Running graph a) {v c : ℕ} {rest : List ℕ}
    (hrest : a.remaining v = c :: rest) : c ∈ childrenOf graph v := by
  obtain ⟨seen, hseen, -⟩ := h.invariant.visited v
  rw [hseen, hrest]
  simp

/-! ### The inner loop -/

/-- Passing over a child. -/
theorem Agrees.advance {s : SortState} {a : Search ℕ} (h : Agrees graph targets reverse s a)
    (v : ℕ) (rest : List ℕ) :
    Agrees graph targets reverse { s with iterator := Function.update s.iterator v rest }
      (a.advance v rest) where
  iterator := by
    rw [h.iterator]
    rfl
  state := h.state
  parents := h.parents
  fresh := h.fresh
  newtargs := h.newtargs
  warnings := h.warnings

theorem Agrees.giveUp {s : SortState} {a : Search ℕ} (h : Agrees graph targets reverse s a)
    {v c : ℕ} {warnings : List CycleWarning} (hold : ∀ w ∈ s.warnings, w ∈ warnings)
    (hnew : v ≠ c → ∀ p q, targetData graph targets v = some p →
      targetData graph targets c = some q → ⟨p.name, q.name, reverse⟩ ∈ warnings) :
    Agrees graph targets reverse { s with warnings }
      { a with givenUp := a.givenUp ++ [(v, c)] } where
  iterator := h.iterator
  state := h.state
  parents := h.parents
  fresh := h.fresh
  newtargs := h.newtargs
  warnings v' c' hin hne p q hp hq := by
    rcases List.mem_append.mp hin with hin | hin
    · exact hold _ (h.warnings v' c' hin hne p q hp hq)
    · obtain ⟨rfl, rfl⟩ := Prod.mk.inj (List.mem_singleton.mp hin)
      exact hnew hne p q hp hq

/-- A target is its own nearest ancestor. -/
theorem nearestTarget_self {parent : ℕ → Option ℕ} {v fuel : ℕ} {p : Pkg}
    (hp : targetData graph targets v = some p) {found : Option (ℕ × Pkg)}
    (hfound : nearestTarget graph targets parent fuel (some v) = some found) :
    found = some (v, p) := by
  cases fuel with
  | zero => exact absurd hfound (by simp [nearestTarget])
  | succ fuel =>
    rw [nearestTarget, hp] at hfound
    exact (Option.some.inj hfound).symm

/-- **Giving up an edge between two targets is reported.** -/
theorem Agrees.warnDepCycle {s : SortState} {a : Search ℕ}
    (h : Agrees graph targets reverse s a) (hlength : a.stack.length ≤ graph.length) {v : ℕ}
    {below : List ℕ} (hstack : a.stack = v :: below) (c : ℕ) :
    ∃ s', warnDepCycle graph targets reverse s v c = some s' ∧
      Agrees graph targets reverse s' { a with givenUp := a.givenUp ++ [(v, c)] } := by
  have hsome : (nearestTarget graph targets s.parent graph.length a.stack.head?).isSome :=
    nearestTarget_isSome h.parents hlength
  rw [hstack, List.head?_cons] at hsome
  obtain ⟨found, hfound⟩ := Option.isSome_iff_exists.mp hsome
  unfold Alpm.warnDepCycle
  rw [hfound]
  cases hc : targetData graph targets c with
  | none => exact ⟨s, rfl, h.giveUp (fun _ => id) fun _ p q _ hq => by simp [hc] at hq⟩
  | some childpkg =>
    cases found with
    | none =>
      exact ⟨s, rfl, h.giveUp (fun _ => id) fun _ p q hp _ => by
        simpa using nearestTarget_self hp hfound⟩
    | some found =>
      by_cases hself : found.1 = c
      · refine ⟨s, if_pos hself, h.giveUp (fun _ => id) fun hne p q hp _ => ?_⟩
        obtain rfl := Option.some.inj (nearestTarget_self hp hfound)
        exact absurd hself hne
      · refine ⟨_, if_neg hself, h.giveUp (fun w hw => List.mem_append_left _ hw) ?_⟩
        intro _ p q hp hq
        obtain rfl := Option.some.inj (nearestTarget_self hp hfound)
        obtain rfl := Option.some.inj (hc.symm.trans hq)
        exact List.mem_append_right _ (List.mem_singleton_self _)

/-- Going down to a child. -/
theorem Agrees.enter {s : SortState} {a : Search ℕ} (h : Agrees graph targets reverse s a)
    {v c : ℕ} {below : List ℕ} (hstack : a.stack = v :: below) (hc : c ∉ a.stack) :
    Agrees graph targets reverse
      (SortState.mark { s with parent := Function.update s.parent c (some v) } c)
      { a with stack := c :: a.stack } where
  iterator := h.iterator
  state := by
    funext w
    by_cases hw : w = c
    · simp [SortState.mark, stateIn, hw]
    · simp [SortState.mark, stateIn, hw, h.state]
  parents := by
    refine ⟨by simp [SortState.mark, hstack], h.parents.congr fun w hw => ?_⟩
    exact Function.update_of_ne (fun heq : w = c => hc (heq ▸ hw)) _ _
  fresh w hw hw' := by
    rw [List.mem_cons, not_or] at hw
    exact (Function.update_of_ne hw.1 _ _).trans (h.fresh w hw.2 hw')
  newtargs := h.newtargs
  warnings := h.warnings

/-- Entering a root. -/
theorem Agrees.root {s : SortState} {a : Search ℕ} (h : Agrees graph targets reverse s a)
    {v : ℕ} (hstack : a.stack = []) (hv : v ∉ a.finished) :
    Agrees graph targets reverse (s.mark v) { a with stack := [v] } where
  iterator := h.iterator
  state := by
    funext w
    by_cases hw : w = v
    · simp [SortState.mark, stateIn, hw]
    · simp [SortState.mark, stateIn, hw, h.state, hstack]
  parents := ⟨h.fresh v (hstack ▸ List.not_mem_nil) hv, trivial⟩
  fresh w hw hw' := h.fresh w (hstack ▸ List.not_mem_nil) hw'
  newtargs := h.newtargs
  warnings := h.warnings

/-- Leaving a vertex. -/
theorem Agrees.leave {s : SortState} {a : Search ℕ} (h : Agrees graph targets reverse s a)
    (hrunning : Running graph a) {v : ℕ} {below : List ℕ} (hstack : a.stack = v :: below) :
    Agrees graph targets reverse (leaveVertex graph targets s v)
      { a with stack := below, finished := a.finished ++ [v] } where
  iterator := h.iterator
  state := by
    have hv : v ∉ below := by
      have hnodup := (List.nodup_append.mp hrunning.invariant.nodup).1
      rw [hstack] at hnodup
      exact (List.nodup_cons.mp hnodup).1
    funext w
    by_cases hw : w = v
    · simp [leaveVertex, stateIn, hw, hv]
    · simp [leaveVertex, stateIn, hw, h.state, hstack]
  parents := by
    have hparents := h.parents
    rw [hstack] at hparents
    exact hparents.2
  fresh w hw hw' := by
    rw [List.mem_append, List.mem_singleton, not_or] at hw'
    refine h.fresh w ?_ hw'.1
    rw [hstack, List.mem_cons, not_or]
    exact ⟨hw'.2, hw⟩
  newtargs := by
    rw [List.filterMap_append, ← h.newtargs]
    rfl
  warnings := h.warnings

/-- **The inner loop** passes over children and gives up edges until it finds a child to go down to
or has looked at all.  Each child is one step of the search. -/
theorem scanChildren_spec {v : ℕ} {below : List ℕ}
    (hgraph : ∀ c ∈ childrenOf graph v, c ∈ List.range graph.length) (children : List ℕ)
    {s : SortState} {a : Search ℕ} (h : Agrees graph targets reverse s a)
    (hrunning : Running graph a) (hstack : a.stack = v :: below)
    (hchildren : a.remaining v = children) :
    ∃ s' child a', scanChildren graph targets reverse v children s = some (s', child) ∧
      Running graph a' ∧ a'.finished = a.finished ∧
      ((child = none ∧ a'.stack = a.stack ∧ a'.remaining v = [] ∧
          a'.potential (List.range graph.length) ≤ a.potential (List.range graph.length) ∧
          Agrees graph targets reverse s' a') ∨
        ∃ c, child = some c ∧ a'.stack = c :: a.stack ∧
          a'.potential (List.range graph.length) < a.potential (List.range graph.length) ∧
          Agrees graph targets reverse (s'.mark c) a') := by
  induction children generalizing s a with
  | nil => exact ⟨s, none, a, rfl, hrunning, rfl, Or.inl ⟨rfl, rfl, hchildren, le_rfl, h⟩⟩
  | cons c rest ih =>
    have hstate : s.state c = stateIn a c := congrFun h.state c
    have hchild := hgraph c (hrunning.mem_childrenOf hchildren)
    have hadvance := h.advance v rest
    -- the rest of the loop, after a step that only looked at the child
    have hrest : ∀ s₁ a₁, Agrees graph targets reverse s₁ a₁ → Search.Step a a₁ →
        a₁.stack = a.stack → a₁.finished = a.finished → a₁.remaining v = rest →
        ∃ s' child a', scanChildren graph targets reverse v rest s₁ = some (s', child) ∧
          Running graph a' ∧ a'.finished = a.finished ∧
          ((child = none ∧ a'.stack = a.stack ∧ a'.remaining v = [] ∧
              a'.potential (List.range graph.length) ≤ a.potential (List.range graph.length) ∧
              Agrees graph targets reverse s' a') ∨
            ∃ c, child = some c ∧ a'.stack = c :: a.stack ∧
              a'.potential (List.range graph.length) < a.potential (List.range graph.length) ∧
              Agrees graph targets reverse (s'.mark c) a') := by
      intro s₁ a₁ hagrees hstep hstack₁ hfinished₁ hremaining
      obtain ⟨hrunning₁, hlt⟩ := hrunning.step hstep (hstack₁ ▸ hrunning.within)
      obtain ⟨s', child, a', hscan, hrunning', hfinished', hcases⟩ :=
        ih hagrees hrunning₁ (hstack₁.trans hstack) hremaining
      rw [hstack₁] at hcases
      refine ⟨s', child, a', hscan, hrunning', hfinished'.trans hfinished₁, ?_⟩
      rcases hcases with ⟨hnone, hstack', hdone, hle, hagrees'⟩ | ⟨d, hd, hstack', hlt', hagrees'⟩
      · exact Or.inl ⟨hnone, hstack', hdone, hle.trans hlt.le, hagrees'⟩
      · exact Or.inr ⟨d, hd, hstack', hlt'.trans hlt, hagrees'⟩
    have hremaining : (a.advance v rest).remaining v = rest := Function.update_self ..
    rw [scanChildren]
    by_cases hc : c ∈ a.stack
    · have hprocessing : s.state c = .processing := hstate.trans (if_pos hc)
      obtain ⟨s₁, hwarn, hagrees⟩ :=
        hadvance.warnDepCycle hrunning.length_stack_le hstack c
      simp only [hprocessing, hwarn, Option.bind_some]
      exact hrest _ _ hagrees (.giveUp hstack hchildren hc) rfl rfl hremaining
    · by_cases hc' : c ∈ a.finished
      · have hprocessed : s.state c = .processed :=
          hstate.trans ((if_neg hc).trans (if_pos hc'))
        simp only [hprocessed]
        exact hrest _ _ hadvance (.pass hstack hchildren hc') rfl rfl hremaining
      · have hunprocessed : s.state c = .unprocessed :=
          hstate.trans ((if_neg hc).trans (if_neg hc'))
        simp only [hunprocessed]
        have hstep : Search.Step a _ := .enter hstack hchildren hc hc'
        obtain ⟨hrunning₁, hlt⟩ := hrunning.step hstep
          (fun w hw => (List.mem_cons.mp hw).elim (· ▸ hchild) (hrunning.within w))
        exact ⟨_, some c, _, rfl, hrunning₁, rfl, Or.inr ⟨c, rfl, rfl, hlt,
          hadvance.enter hstack hc⟩⟩

/-! ### The outer loop -/

/-- A vertex on the stack is marked already. -/
theorem Agrees.mark_eq {s : SortState} {a : Search ℕ} (h : Agrees graph targets reverse s a)
    {v : ℕ} (hv : v ∈ a.stack) : s.mark v = s := by
  have hstate : s.state v = .processing := (congrFun h.state v).trans (if_pos hv)
  rw [SortState.mark, ← hstate, Function.update_eq_self]

/-- When the stack is empty a vertex that is not unprocessed was left. -/
theorem Agrees.finished_of_state {s : SortState} {a : Search ℕ}
    (h : Agrees graph targets reverse s a) (hstack : a.stack = []) {v : ℕ}
    (hv : s.state v ≠ .unprocessed) : v ∈ a.finished := by
  rw [h.state, stateIn, hstack, if_neg List.not_mem_nil] at hv
  by_contra hnot
  exact hv (if_neg hnot)

variable (graph targets reverse) in
/-- The state of the outer loop at the head of a round, with `root :: rest` for `i`. -/
structure Round (root : ℕ) (rest : List ℕ) (vertex : ℕ) (s : SortState) (a : Search ℕ) :
    Prop where
  running : Running graph a
  agrees : Agrees graph targets reverse (s.mark vertex) a
  stack : ∃ below, a.stack = vertex :: below
  /-- the vertices before `root` were left -/
  earlier : ∃ earlier, earlier ++ root :: rest = List.range graph.length ∧
    ∀ v ∈ earlier, v ∈ a.finished
  entered : root ∈ a.stack ∨ root ∈ a.finished

/-- When the stack is empty the loop goes on with the next root, or everything was left. -/
theorem next_root {root : ℕ} {rest : List ℕ} {s : SortState} {a : Search ℕ}
    (hrunning : Running graph a) (hagrees : Agrees graph targets reverse s a)
    (hstack : a.stack = []) (hearlier : ∃ earlier, earlier ++ root :: rest =
      List.range graph.length ∧ ∀ v ∈ earlier, v ∈ a.finished) (hroot : root ∈ a.finished) :
    (rest.dropWhile (s.state · ≠ .unprocessed) = [] ∧
        ∀ v ∈ List.range graph.length, v ∈ a.finished) ∨
      ∃ root' rest' a', rest.dropWhile (s.state · ≠ .unprocessed) = root' :: rest' ∧
        a'.potential (List.range graph.length) < a.potential (List.range graph.length) ∧
        Round graph targets reverse root' rest' root' s a' := by
  obtain ⟨earlier, hrange, hearlier⟩ := hearlier
  have hskipped : ∀ v ∈ rest.takeWhile (s.state · ≠ .unprocessed), v ∈ a.finished := by
    intro v hv
    have hstate := List.mem_takeWhile_imp hv
    exact hagrees.finished_of_state hstack (of_decide_eq_true hstate)
  have hsplit := List.takeWhile_append_dropWhile (p := (s.state · ≠ .unprocessed)) (l := rest)
  have hfinished : ∀ v ∈ earlier ++ root :: rest.takeWhile (s.state · ≠ .unprocessed),
      v ∈ a.finished := by
    intro v hv
    rcases List.mem_append.mp hv with hv | hv
    · exact hearlier v hv
    · exact (List.mem_cons.mp hv).elim (· ▸ hroot) (hskipped v)
  rcases hrest : rest.dropWhile (s.state · ≠ .unprocessed) with - | ⟨root', rest'⟩
  · refine Or.inl ⟨rfl, ?_⟩
    rw [hrest, List.append_nil] at hsplit
    rw [← hrange, ← hsplit]
    exact hfinished
  · refine Or.inr ⟨root', rest', ?_⟩
    have hnew : s.state root' = .unprocessed := by
      have hhead := List.head?_dropWhile_not (s.state · ≠ .unprocessed) rest
      rw [hrest, List.head?_cons] at hhead
      simpa using hhead
    have hnot : root' ∉ a.finished := by
      intro hin
      rw [hagrees.state, stateIn, hstack, if_neg List.not_mem_nil, if_pos hin] at hnew
      exact absurd hnew (by decide)
    have hrange' : (earlier ++ root :: rest.takeWhile (s.state · ≠ .unprocessed)) ++
        root' :: rest' = List.range graph.length := by
      rw [List.append_assoc, List.cons_append, ← hrest, hsplit, hrange]
    have hin : root' ∈ List.range graph.length := by
      rw [← hrange']
      exact List.mem_append_right _ (List.mem_cons_self ..)
    obtain ⟨hrunning', hlt⟩ := hrunning.step (.root hstack hnot)
      fun v hv => List.mem_singleton.mp hv ▸ hin
    exact ⟨_, rfl, hlt, hrunning', hagrees.root hstack hnot, ⟨[], rfl⟩,
      ⟨_, hrange', hfinished⟩, Or.inl (List.mem_singleton_self root')⟩

/-- **The outer loop ends**, with a search that has left every vertex.  Every round is at least one
step of the search, so the potential bounds the rounds, and `maxRounds` is not less than that. -/
theorem sortLoop_spec (hgraph : ∀ v, ∀ c ∈ childrenOf graph v, c ∈ List.range graph.length)
    {fuel root : ℕ} {rest : List ℕ} {vertex : ℕ} {s : SortState} {a : Search ℕ}
    (h : Round graph targets reverse root rest vertex s a)
    (hfuel : a.potential (List.range graph.length) < fuel) :
    ∃ s' a', sortLoop graph targets reverse fuel (root :: rest) vertex s = some s' ∧
      Running graph a' ∧ Agrees graph targets reverse s' a' ∧
      ∀ v ∈ List.range graph.length, v ∈ a'.finished := by
  induction fuel generalizing root rest vertex s a with
  | zero => exact absurd hfuel (Nat.not_lt_zero _)
  | succ fuel ih =>
    obtain ⟨below, hstack⟩ := h.stack
    obtain ⟨s₁, child, a₁, hscan, hrunning₁, hfinished₁, hcases⟩ :=
      scanChildren_spec (hgraph vertex) ((s.mark vertex).iterator vertex) h.agrees h.running
        hstack (congrFun h.agrees.iterator vertex).symm
    obtain ⟨earlier, hrange, hearlier⟩ := h.earlier
    rw [← hfinished₁] at hearlier
    rw [sortLoop]
    simp only [hscan]
    rcases hcases with ⟨rfl, hstack₁, hdone, hle, hagrees₁⟩ | ⟨c, rfl, hstack₁, hlt, hagrees₁⟩
    · -- all children were looked at: leave the vertex
      have hentered := h.entered
      rw [← hstack₁, ← hfinished₁] at hentered
      rw [hstack] at hstack₁
      obtain ⟨hrunning₂, hlt⟩ := hrunning₁.step (.leave hstack₁ hdone) fun v hv =>
        hrunning₁.within v (hstack₁ ▸ List.mem_cons_of_mem vertex hv)
      have hagrees₂ := hagrees₁.leave hrunning₁ hstack₁
      have hparent : (leaveVertex graph targets s₁ vertex).parent vertex = below.head? := by
        have hparents := hagrees₁.parents
        rw [hstack₁] at hparents
        exact hparents.1
      have hentered₂ : root ∈ below ∨ root ∈ a₁.finished ++ [vertex] := by
        rw [hstack₁, List.mem_cons] at hentered
        rw [List.mem_append, List.mem_singleton]
        tauto
      rcases hbelow : below with - | ⟨parent, below'⟩
      · -- the bottom of the stack: the next root
        rw [hbelow] at hagrees₂ hrunning₂ hlt hparent hentered₂
        simp only [hparent, List.head?_nil]
        rcases next_root hrunning₂ hagrees₂ rfl
          ⟨earlier, hrange, fun v hv => List.mem_append_left _ (hearlier v hv)⟩
          (hentered₂.resolve_left List.not_mem_nil) with ⟨hrest, hall⟩ |
          ⟨root', rest', a₃, hrest, hlt₃, hround⟩
        · rw [hrest]
          exact ⟨_, _, by rw [sortLoop], hrunning₂, hagrees₂, hall⟩
        · rw [hrest]
          exact ih hround (by omega)
      · rw [hbelow] at hagrees₂ hrunning₂ hlt hparent hentered₂
        simp only [hparent, List.head?_cons]
        refine ih ⟨hrunning₂, ?_, ⟨below', rfl⟩, ⟨earlier, hrange, fun v hv =>
          List.mem_append_left _ (hearlier v hv)⟩, hentered₂⟩ (by omega)
        rw [hagrees₂.mark_eq (List.mem_cons_self ..)]
        exact hagrees₂
    · exact ih ⟨hrunning₁, hagrees₁, ⟨a.stack, hstack₁⟩, ⟨earlier, hrange, hearlier⟩, by
        rw [hstack₁, List.mem_cons, hfinished₁]
        exact h.entered.imp_left Or.inr⟩ (by omega)

/-- The search of `_alpm_sortbydeps` starts with the first target. -/
theorem round_init (hne : graph ≠ []) : ∃ rest a, List.range graph.length = 0 :: rest ∧
    Round graph targets reverse 0 rest 0 (sortInit graph) a ∧
      a.potential (List.range graph.length) < maxRounds graph := by
  obtain ⟨n, hn⟩ : ∃ n, graph.length = n + 1 :=
    ⟨graph.length - 1, by have := List.length_pos_iff.mpr hne; omega⟩
  have hrange : List.range graph.length = 0 :: (List.range n).map Nat.succ := by
    rw [hn, List.range_succ_eq_map]
  have hrunning : Running graph (Search.init (childrenOf graph)) :=
    ⟨Search.invariant_init _, fun v hv => absurd hv List.not_mem_nil⟩
  have hagrees : Agrees graph targets reverse (sortInit graph)
      (Search.init (childrenOf graph)) :=
    { iterator := rfl
      state := rfl
      parents := trivial
      fresh := fun _ _ _ => rfl
      newtargs := rfl
      warnings := fun _ _ hin => absurd hin List.not_mem_nil }
  obtain ⟨hrunning', hlt⟩ := hrunning.step (.root rfl List.not_mem_nil)
    fun v hv => List.mem_singleton.mp hv ▸ (by rw [hrange]; exact List.mem_cons_self ..)
  exact ⟨_, _, hrange, ⟨hrunning', hagrees.root rfl List.not_mem_nil, ⟨[], rfl⟩,
    ⟨[], hrange.symm, fun v hv => absurd hv List.not_mem_nil⟩,
    Or.inl (List.mem_singleton_self 0)⟩, hlt⟩

end

end Alpm
