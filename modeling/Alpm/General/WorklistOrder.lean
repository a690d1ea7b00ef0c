import Alpm.General.Worklist
import Mathlib.Data.List.Nodup
import Mathlib.Data.List.Shortlex

/-!
# The order in which a worklist is processed

The entries of a worklist and the members of the pool get numbers, and a *route* to a member is the
list of the numbers on a chain of selections from an entry to it.  The members are processed in the
order of their least routes, where shorter routes come first and routes of one length are compared
from the left (`pairwise_sooner`).

The reason is that the worklist is a queue.  At every point of the run it is sorted by the routes on
which its entries were pulled, all of it comes before what its entries will pull, and the pool is
sorted by its numbers: this is the invariant `Queue`.  From it the routes of the entries that are
processed are sorted (`sorted_routes`), and no member is pulled on a route that is not its least one
(`least_of_mem_routes`), because the entry before it on the least route was processed earlier and
would have pulled it then.
-/

namespace Alpm.Worklist

variable {α : Type*} {sel : α → α → Bool}

/-! ## The order of routes -/

/-- Shorter routes come first, and routes of one length are compared from the left. -/
def Before (w w' : List ℕ) : Prop := List.Shortlex (· < ·) w w'

namespace Before

variable {w w' w'' : List ℕ}

theorem iff : Before w w' ↔ w.length < w'.length ∨ w.length = w'.length ∧ w < w' :=
  List.shortlex_def

theorem trans (h : Before w w') (h' : Before w' w'') : Before w w'' := by
  rw [iff] at h h' ⊢
  rcases h with h | ⟨h, hlex⟩
  · exact Or.inl (by omega)
  · rcases h' with h' | ⟨h', hlex'⟩
    · exact Or.inl (by omega)
    · exact Or.inr ⟨h.trans h', hlex.trans hlex'⟩

theorem irrefl (w : List ℕ) : ¬ Before w w := by
  rw [iff]
  simp

theorem append_singleton (w : List ℕ) (j : ℕ) : Before w (w ++ [j]) :=
  List.Shortlex.of_length_lt (by simp)

theorem append_lt (w : List ℕ) {i j : ℕ} (h : i < j) : Before (w ++ [i]) (w ++ [j]) :=
  List.Shortlex.append_left ((List.shortlex_singleton_iff i j).mpr h) w

theorem lex_append {i j : ℕ} (hlength : w.length = w'.length) (h : List.Lex (· < ·) w w') :
    List.Lex (· < ·) (w ++ [i]) (w' ++ [j]) := by
  induction h with
  | nil => cases hlength
  | cons _ ih => exact .cons (ih (Nat.succ.inj hlength))
  | rel h => exact .rel h

theorem append (h : Before w w') (i j : ℕ) : Before (w ++ [i]) (w' ++ [j]) := by
  rcases iff.mp h with hlength | ⟨hlength, hlex⟩
  · exact List.Shortlex.of_length_lt (by simpa using hlength)
  · exact List.Shortlex.of_lex (by simpa using hlength) (lex_append hlength hlex)

end Before

/-! ## Routes -/

section

variable (sel)

/-- The routes from the entries of `todo`, with their numbers, through the members of `pool`, with
theirs. -/
inductive Route (todo : List (List ℕ × α)) (pool : List (ℕ × α)) : List ℕ → α → Prop
  | start {w : List ℕ} {a : α} : (w, a) ∈ todo → Route todo pool w a
  | step {w : List ℕ} {a : α} {j : ℕ} {b : α} :
      Route todo pool w a → (j, b) ∈ pool → sel a b → Route todo pool (w ++ [j]) b

/-- What an entry pulls, with the routes through it. -/
def children (a : List ℕ × α) (pool : List (ℕ × α)) : List (List ℕ × α) :=
  (pool.filter fun b => sel a.2 b.2).map fun b => (a.1 ++ [b.1], b.2)

/-- What an entry leaves in the pool. -/
def others (a : List ℕ × α) (pool : List (ℕ × α)) : List (ℕ × α) :=
  pool.filter fun b => !sel a.2 b.2

/-- The entries processed, each with the route on which it was pulled. -/
def routes : List (List ℕ × α) → List (ℕ × α) → List (List ℕ × α)
  | [], _ => []
  | a :: todo, pool => a :: routes (todo ++ children sel a pool) (others sel a pool)
  termination_by todo pool => todo.length + pool.length
  decreasing_by
    have hlength : ((pool.filter fun b => sel a.2 b.2) ++
        pool.filter fun b => !sel a.2 b.2).length = pool.length :=
      (List.filter_append_perm (fun b => sel a.2 b.2) pool).length_eq
    rw [List.length_append] at hlength
    simp only [children, others, List.length_append, List.length_map, List.length_cons]
    omega

end

theorem map_snd_routes (todo : List (List ℕ × α)) (pool : List (ℕ × α)) :
    (routes sel todo pool).map Prod.snd
      = (drain sel (todo.map Prod.snd) (pool.map Prod.snd)).1 := by
  fun_induction routes sel todo pool with
  | case1 pool => rw [List.map_nil, drain_nil]
  | case2 a todo pool ih =>
    have hchildren : (children sel a pool).map Prod.snd
        = (select sel a.2 (pool.map Prod.snd)).1 := by
      rw [children, select, List.filter_map, List.map_map]
      rfl
    have hothers : (others sel a pool).map Prod.snd
        = (select sel a.2 (pool.map Prod.snd)).2 := by
      rw [others, select]
      dsimp only
      rw [List.filter_map]
      rfl
    rw [List.map_cons, List.map_cons, drain_cons, ih, List.map_append, hchildren, hothers]

variable {todo : List (List ℕ × α)} {pool : List (ℕ × α)} {a x : List ℕ × α} {w w' : List ℕ} {b : α}

theorem mem_children :
    x ∈ children sel a pool ↔ ∃ j, (j, x.2) ∈ pool ∧ sel a.2 x.2 ∧ x.1 = a.1 ++ [j] := by
  obtain ⟨w, b⟩ := x
  rw [children, List.mem_map]
  constructor
  · rintro ⟨⟨j, c⟩, hc, heq⟩
    obtain ⟨rfl, rfl⟩ := Prod.mk.inj heq
    exact ⟨j, (List.mem_filter.mp hc).1, (List.mem_filter.mp hc).2, rfl⟩
  · rintro ⟨j, hpool, hsel, hw⟩
    exact ⟨(j, b), List.mem_filter.mpr ⟨hpool, hsel⟩, Prod.ext hw.symm rfl⟩

theorem mem_others {y : ℕ × α} : y ∈ others sel a pool ↔ y ∈ pool ∧ ¬ sel a.2 y.2 := by
  simp [others, List.mem_filter]

/-- A route from what is left to do after an entry is a route from the entries before. -/
theorem Route.of_rest (h : Route sel (todo ++ children sel a pool) (others sel a pool) w b) :
    Route sel (a :: todo) pool w b := by
  induction h with
  | start hmem =>
    rcases List.mem_append.mp hmem with hmem | hmem
    · exact .start (List.mem_cons_of_mem a hmem)
    · obtain ⟨j, hpool, hsel, rfl⟩ := mem_children.mp hmem
      exact .step (.start (List.mem_cons_self ..)) hpool hsel
  | step _ hpool hsel ih => exact ih.step (mem_others.mp hpool).1 hsel

theorem route_of_mem_routes (h : x ∈ routes sel todo pool) : Route sel todo pool x.1 x.2 := by
  fun_induction routes sel todo pool with
  | case1 pool => cases h
  | case2 a todo pool ih =>
    rcases List.mem_cons.mp h with rfl | h
    · exact .start (List.mem_cons_self ..)
    · exact (ih h).of_rest

theorem Route.before (htodo : ∀ x ∈ todo, Before w x.1) (h : Route sel todo pool w' b) :
    Before w w' := by
  induction h with
  | start hmem => exact htodo _ hmem
  | step _ _ _ ih => exact ih.trans (.append_singleton _ _)

/-! ## The queue -/

/-- The worklist is a queue: it is sorted, all of it comes before what its entries will pull, and
the pool is sorted by its numbers. -/
structure Queue (todo : List (List ℕ × α)) (pool : List (ℕ × α)) : Prop where
  sorted : todo.Pairwise fun x y => Before x.1 y.1
  near : ∀ x ∈ todo, ∀ y ∈ todo, ∀ j, Before y.1 (x.1 ++ [j])
  numbers : pool.Pairwise fun x y => x.1 < y.1

theorem Queue.rest (h : Queue (a :: todo) pool) :
    Queue (todo ++ children sel a pool) (others sel a pool) := by
  obtain ⟨hsorted, hnear, hnumbers⟩ := h
  rw [List.pairwise_cons] at hsorted
  have hhead : ∀ x ∈ todo, ∀ j, Before x.1 (a.1 ++ [j]) := fun x hx =>
    hnear a (List.mem_cons_self ..) x (List.mem_cons_of_mem a hx)
  refine ⟨?_, fun x hx y hy j => ?_, hnumbers.sublist List.filter_sublist⟩
  · refine List.pairwise_append.mpr ⟨hsorted.2, ?_, fun x hx y hy => ?_⟩
    · exact List.pairwise_map.mpr
        ((hnumbers.sublist List.filter_sublist).imp fun hlt => .append_lt _ hlt)
    · obtain ⟨j, -, -, hy⟩ := mem_children.mp hy
      rw [hy]
      exact hhead x hx j
  · rcases List.mem_append.mp hx with hx | hx
    · rcases List.mem_append.mp hy with hy | hy
      · exact hnear x (List.mem_cons_of_mem a hx) y (List.mem_cons_of_mem a hy) j
      · obtain ⟨i, -, -, hy⟩ := mem_children.mp hy
        rw [hy]
        exact (hsorted.1 x hx).append i j
    · obtain ⟨i, -, -, hx⟩ := mem_children.mp hx
      rcases List.mem_append.mp hy with hy | hy
      · rw [hx]
        exact (hhead y hy i).trans (.append_singleton _ _)
      · obtain ⟨k, -, -, hy⟩ := mem_children.mp hy
        rw [hx, hy]
        exact List.Shortlex.of_length_lt (by simp)

theorem Queue.before_of_rest (h : Queue (a :: todo) pool)
    (hroute : Route sel (todo ++ children sel a pool) (others sel a pool) w b) :
    Before a.1 w := by
  refine hroute.before fun x hx => ?_
  rcases List.mem_append.mp hx with hx | hx
  · exact (List.pairwise_cons.mp h.sorted).1 x hx
  · obtain ⟨j, -, -, hx⟩ := mem_children.mp hx
    rw [hx]
    exact .append_singleton _ _

/-- The routes on which the entries are pulled are sorted. -/
theorem sorted_routes (h : Queue todo pool) :
    (routes sel todo pool).Pairwise fun x y => Before x.1 y.1 := by
  fun_induction routes sel todo pool with
  | case1 pool => exact List.Pairwise.nil
  | case2 a todo pool ih =>
    exact List.pairwise_cons.mpr
      ⟨fun x hx => h.before_of_rest (route_of_mem_routes hx), ih h.rest⟩

/-- A route that does not end with the first entry is not before one of what is left to do. -/
theorem Queue.exists_rest (h : Queue (a :: todo) pool) (hroute : Route sel (a :: todo) pool w b) :
    (w, b) = a ∨ ∃ w', (w' = w ∨ Before w' w) ∧
      Route sel (todo ++ children sel a pool) (others sel a pool) w' b := by
  induction hroute with
  | start hmem =>
    rcases List.mem_cons.mp hmem with heq | hmem
    · exact Or.inl heq
    · exact Or.inr ⟨_, Or.inl rfl, .start (List.mem_append_left _ hmem)⟩
  | @step w c j b hc hpool hsel ih =>
    right
    by_cases ha : sel a.2 b
    · refine ⟨a.1 ++ [j], ?_, .start (List.mem_append_right _ (mem_children.mpr
        ⟨j, hpool, ha, rfl⟩))⟩
      rcases ih with rfl | ⟨w', hle, hw'⟩
      · exact Or.inl rfl
      · refine Or.inr (.append ?_ j j)
        rcases hle with rfl | hle
        · exact h.before_of_rest hw'
        · exact (h.before_of_rest hw').trans hle
    · rcases ih with rfl | ⟨w', hle, hw'⟩
      · exact absurd hsel ha
      · refine ⟨w' ++ [j], ?_, hw'.step (mem_others.mpr ⟨hpool, ha⟩) hsel⟩
        exact hle.imp (fun heq => by rw [heq]) fun hlt => hlt.append j j

/-- **A member of the pool is pulled on its least route.**  On a smaller route the last but one
entry would have been processed earlier, and would have pulled the member then. -/
theorem least_of_mem_routes (h : Queue todo pool) (hnodup : (pool.map Prod.snd).Nodup)
    (hdisjoint : ∀ x ∈ todo, x.2 ∉ pool.map Prod.snd) (hx : x ∈ routes sel todo pool) :
    x ∈ todo ∨ x.2 ∈ pool.map Prod.snd ∧
      ∀ w, Route sel todo pool w x.2 → x.1 = w ∨ Before x.1 w := by
  fun_induction routes sel todo pool with
  | case1 pool => cases hx
  | case2 a todo pool ih =>
    have hsub : ∀ y ∈ others sel a pool, y ∈ pool := fun y hy => (mem_others.mp hy).1
    have hleast : ∀ w c, Route sel (a :: todo) pool w c → a.1 = w ∨ Before a.1 w := by
      intro w c hroute
      rcases h.exists_rest hroute with rfl | ⟨w', hle, hw'⟩
      · exact Or.inl rfl
      · have hlt := h.before_of_rest hw'
        rcases hle with rfl | hle
        · exact Or.inr hlt
        · exact Or.inr (hlt.trans hle)
    rcases List.mem_cons.mp hx with rfl | hx
    · exact Or.inl (List.mem_cons_self ..)
    have hrest := ih h.rest (hnodup.sublist (List.filter_sublist.map Prod.snd)) ?_ hx
    · rcases hrest with hmem | ⟨hpool, hmin⟩
      · rcases List.mem_append.mp hmem with hmem | hmem
        · exact Or.inl (List.mem_cons_of_mem a hmem)
        · obtain ⟨j, hpool, hsel, hw⟩ := mem_children.mp hmem
          have hmember : x.2 ∈ pool.map Prod.snd := List.mem_map_of_mem hpool
          refine Or.inr ⟨hmember, fun w hroute => ?_⟩
          rw [hw]
          cases hroute with
          | start hstart => exact absurd hmember (hdisjoint (w, x.2) hstart)
          | @step w c k _ hc hk hsel' =>
            obtain rfl : j = k := congrArg Prod.fst
              (List.inj_on_of_nodup_map hnodup hpool hk rfl)
            exact (hleast w c hc).imp (fun heq => by rw [heq]) fun hlt => hlt.append j j
      · obtain ⟨y, hy, hyx⟩ := List.mem_map.mp hpool
        have hmember : x.2 ∈ pool.map Prod.snd := hyx ▸ List.mem_map_of_mem (hsub y hy)
        refine Or.inr ⟨hmember, fun w hroute => ?_⟩
        rcases h.exists_rest hroute with heq | ⟨w', hle, hw'⟩
        · have hhead : a.2 = x.2 := by rw [← heq]
          exact absurd (hhead ▸ hmember) (hdisjoint a (List.mem_cons_self ..))
        · rcases hmin w' hw' with hw | hlt
          · rw [hw]
            exact hle
          · exact Or.inr (hle.elim (fun heq => heq ▸ hlt) hlt.trans)
    · intro y hy hpool
      obtain ⟨z, hz, hzy⟩ := List.mem_map.mp hpool
      rcases List.mem_append.mp hy with hy | hy
      · exact hdisjoint y (List.mem_cons_of_mem a hy) (hzy ▸ List.mem_map_of_mem (hsub z hz))
      · obtain ⟨j, -, hsel, -⟩ := mem_children.mp hy
        exact (mem_others.mp hz).2 (hzy ▸ hsel)

/-! ## The order of what is pulled -/

/-- Some route to `b` comes before all routes to `c`. -/
def Sooner (sel : α → α → Bool) (todo : List (List ℕ × α)) (pool : List (ℕ × α)) (b c : α) :
    Prop :=
  ∃ w, Route sel todo pool w b ∧ ∀ w', Route sel todo pool w' c → Before w w'

/-- **What is pulled is processed in the order of the least routes.**  The worklist is a queue, so
entries are processed in the order in which they were pulled, and the routes on which they were
pulled are sorted and least. -/
theorem pairwise_sooner (h : Queue todo pool) (hnodup : (pool.map Prod.snd).Nodup)
    (hdisjoint : ∀ x ∈ todo, x.2 ∉ pool.map Prod.snd) {pulled : List α}
    (hpulled : (drain sel (todo.map Prod.snd) (pool.map Prod.snd)).1
      = todo.map Prod.snd ++ pulled)
    (hpool : ∀ b ∈ pulled, b ∈ pool.map Prod.snd) :
    pulled.Pairwise (Sooner sel todo pool) := by
  rw [← map_snd_routes] at hpulled
  obtain ⟨starts, rest, hroutes, -, rfl⟩ := List.map_eq_append_iff.mp hpulled
  have hsorted : (routes sel todo pool).Pairwise fun x y => Before x.1 y.1 := sorted_routes h
  rw [hroutes] at hsorted
  refine List.pairwise_map.mpr ((List.pairwise_append.mp hsorted).2.1.imp_of_mem ?_)
  intro x y hx hy hlt
  have hmem : ∀ z ∈ rest, z ∈ routes sel todo pool := fun z hz =>
    hroutes ▸ List.mem_append_right _ hz
  refine ⟨x.1, route_of_mem_routes (hmem x hx), fun w hroute => ?_⟩
  rcases least_of_mem_routes h hnodup hdisjoint (hmem y hy) with hstart | ⟨-, hmin⟩
  · exact absurd (hpool y.2 (List.mem_map_of_mem hy)) (hdisjoint y hstart)
  · rcases hmin w hroute with heq | hlt'
    · exact heq ▸ hlt
    · exact hlt.trans hlt'

theorem Sooner.asymm {c : α} (h : Sooner sel todo pool b c) : ¬ Sooner sel todo pool c b := by
  rintro ⟨w', hw', hall'⟩
  obtain ⟨w, hw, hall⟩ := h
  exact Before.irrefl w ((hall w' hw').trans (hall' w hw))

end Alpm.Worklist
