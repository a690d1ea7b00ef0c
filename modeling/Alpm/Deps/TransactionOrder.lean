import Alpm.Deps.Sortbydeps

/-!
# The order of a transaction

What `_alpm_sortbydeps` promises, in terms of packages.

## 1.  The packages of the graph

They are the targets and the local packages that no target and no ignored package names (`Follows`),
and the edges are the dependencies between these.  A local package that a target names is not in the
graph, although it is installed until the target replaces it: a way through it does not count
(`sortbydeps_ignores_replaced`).

## 2.  The order

The result is a permutation of the targets in which a package comes after what it reaches without a
way back.  A package that it reaches and that reaches it is on a cycle with it, and no order of the
two is right; but then the search has given up an edge, and a direct dependency that does not come
first has a warning that names the two packages, or the nearest targets above them
(`sortbydeps_order`).
-/

namespace Alpm

open DepthFirst

/-! ## Positions in a list -/

section

variable {α : Type*} {l : List α} {a b : α}

/-- Every occurrence of `a` is before every occurrence of `b`. -/
def ComesBefore (l : List α) (a b : α) : Prop :=
  ∀ i j : ℕ, l[i]? = some a → l[j]? = some b → i < j

theorem comesBefore_of_pairwise (hne : b ≠ a) (h : l.Pairwise fun p q => ¬ (p = b ∧ q = a)) :
    ComesBefore l a b := by
  intro i j hi hj
  obtain ⟨hi', rfl⟩ := List.getElem?_eq_some_iff.mp hi
  obtain ⟨hj', rfl⟩ := List.getElem?_eq_some_iff.mp hj
  rcases lt_trichotomy i j with hlt | rfl | hlt
  · exact hlt
  · exact absurd rfl hne
  · exact absurd ⟨rfl, rfl⟩ (List.pairwise_iff_getElem.mp h j i hj' hi' hlt)

/-- `a` comes before `b`, or after it in the reversed list. -/
theorem comesBefore_reverse (hne : b ≠ a) (h : l.Pairwise fun p q => ¬ (p = b ∧ q = a))
    (reverse : Bool) :
    if reverse then ComesBefore (if reverse then l.reverse else l) b a
    else ComesBefore (if reverse then l.reverse else l) a b := by
  cases reverse
  · exact comesBefore_of_pairwise hne h
  · exact comesBefore_of_pairwise hne.symm
      (List.pairwise_reverse.mpr (h.imp fun hpq hqp => hpq ⟨hqp.2, hqp.1⟩))

end

/-! ## The graph in terms of packages -/

/-- The packages whose dependencies the order follows: the targets, and the local packages that
neither a target nor an ignored package names.  What leads through any other package does not count.
-/
def Follows (localdb targets ignore : List Pkg) (pkg : Pkg) : Prop :=
  pkg ∈ targets ∨ pkg ∈ localdb ∧ pkg.name ∉ targets.map Pkg.name ∧
    pkg.name ∉ ignore.map Pkg.name

/-- A dependency between such packages. -/
def DependsEdge (localdb targets ignore : List Pkg) (p q : Pkg) : Prop :=
  Follows localdb targets ignore p ∧ Follows localdb targets ignore q ∧ pkgDependsOn p q

section

variable {localdb targets ignore : List Pkg}

theorem mem_childrenOf {graph : List Vertex} {i j : ℕ} : j ∈ childrenOf graph i ↔
    ∃ v, graph[i]? = some v ∧ j ∈ v.children := by
  unfold childrenOf
  cases graph[i]? <;> simp

/-- The edges of the graph are the dependencies between its packages. -/
theorem mem_childrenOf_depGraphInit {i j : ℕ} :
    j ∈ childrenOf (depGraphInit localdb targets ignore) i ↔
      ∃ v w, (depGraphInit localdb targets ignore)[i]? = some v ∧
        (depGraphInit localdb targets ignore)[j]? = some w ∧ pkgDependsOn v.data w.data := by
  rw [mem_childrenOf]
  refine exists_congr fun v => ?_
  constructor
  · rintro ⟨hv, hj⟩
    have hmem := List.mem_of_getElem? hv
    obtain ⟨q, hq, hdep⟩ := (mem_children_addEdges [] _ _ hmem j).mp hj
    rw [List.nil_append, ← addEdges_data [], List.getElem?_map, Option.map_eq_some_iff] at hq
    obtain ⟨w, hw, rfl⟩ := hq
    exact ⟨w, hv, hw, hdep⟩
  · rintro ⟨w, hv, hw, hdep⟩
    refine ⟨hv, (mem_children_addEdges [] _ _ (List.mem_of_getElem? hv) j).mpr ⟨w.data, ?_, hdep⟩⟩
    rw [List.nil_append, ← addEdges_data [], List.getElem?_map]
    exact congrArg (Option.map Vertex.data) hw

/-- The packages of the graph: the targets, in their order, and then local packages. -/
theorem depGraphInit_data : ∃ added, (depGraphInit localdb targets ignore).map Vertex.data =
    targets ++ added ∧ ∀ q ∈ added, q ∈ graphLocalpkgs localdb targets ignore := by
  rw [depGraphInit, addEdges_data]
  exact Worklist.drain_fst_eq_append _ _

theorem follows_of_getElem? (hlocal : (localdb.map Pkg.name).Nodup) {i : ℕ} {v : Vertex}
    (hv : (depGraphInit localdb targets ignore)[i]? = some v) :
    Follows localdb targets ignore v.data := by
  obtain ⟨added, hdata, hadded⟩ := @depGraphInit_data localdb targets ignore
  have hmem := List.mem_map_of_mem (f := Vertex.data) (List.mem_of_getElem? hv)
  rw [hdata, List.mem_append] at hmem
  exact hmem.imp_right fun h => (mem_graphLocalpkgs hlocal).mp (hadded _ h)

/-- What a package of the graph depends on is in the graph. -/
theorem exists_vertex_of_edge (hlocal : (localdb.map Pkg.name).Nodup) {i : ℕ} {v : Vertex}
    {q : Pkg} (hv : (depGraphInit localdb targets ignore)[i]? = some v)
    (hedge : DependsEdge localdb targets ignore v.data q) :
    ∃ (j : ℕ) (w : Vertex), (depGraphInit localdb targets ignore)[j]? = some w ∧ w.data = q := by
  obtain ⟨-, hq, hdep⟩ := hedge
  have hmem : q ∈ (depGraphInit localdb targets ignore).map Vertex.data := by
    rcases hq with hq | hq
    · obtain ⟨added, hdata, -⟩ := @depGraphInit_data localdb targets ignore
      rw [hdata]
      exact List.mem_append_left _ hq
    · exact mem_addEdges_data (List.mem_of_getElem? hv) ((mem_graphLocalpkgs hlocal).mpr hq) hdep
  obtain ⟨w, hw, rfl⟩ := List.mem_map.mp hmem
  obtain ⟨j, hj⟩ := List.getElem?_of_mem hw
  exact ⟨j, w, hj, rfl⟩

/-- What a vertex reaches its package reaches. -/
theorem reaches_of_vertices (hlocal : (localdb.map Pkg.name).Nodup) {i j : ℕ} {v w : Vertex}
    (hreach : Relation.ReflTransGen
      (fun i j => j ∈ childrenOf (depGraphInit localdb targets ignore) i) i j)
    (hv : (depGraphInit localdb targets ignore)[i]? = some v)
    (hw : (depGraphInit localdb targets ignore)[j]? = some w) :
    Relation.ReflTransGen (DependsEdge localdb targets ignore) v.data w.data := by
  induction hreach generalizing w with
  | refl =>
    obtain rfl := Option.some.inj (hv.symm.trans hw)
    exact .refl
  | tail _ hchild ih =>
    obtain ⟨x, w', hx, hw', hdep⟩ := mem_childrenOf_depGraphInit.mp hchild
    obtain rfl := Option.some.inj (hw.symm.trans hw')
    exact (ih hx).tail ⟨follows_of_getElem? hlocal hx, follows_of_getElem? hlocal hw, hdep⟩

/-- A way without return between packages is one between all their vertices. -/
theorem oneWay_vertices (hlocal : (localdb.map Pkg.name).Nodup) {i : ℕ} {v : Vertex} {q : Pkg}
    (hv : (depGraphInit localdb targets ignore)[i]? = some v)
    (hway : OneWay (DependsEdge localdb targets ignore) v.data q) :
    (∃ (j : ℕ) (w : Vertex), (depGraphInit localdb targets ignore)[j]? = some w ∧ w.data = q) ∧
      ∀ (j : ℕ) (w : Vertex), (depGraphInit localdb targets ignore)[j]? = some w → w.data = q →
        OneWay (fun i j => j ∈ childrenOf (depGraphInit localdb targets ignore) i) i j := by
  induction hway with
  | first hedge hnot =>
    refine ⟨exists_vertex_of_edge hlocal hv hedge, fun j w hw hq => ?_⟩
    subst hq
    exact .first (mem_childrenOf_depGraphInit.mpr ⟨v, w, hv, hw, hedge.2.2⟩)
      fun hreach => hnot (reaches_of_vertices hlocal hreach hw hv)
  | next _ hedge hnot ih =>
    obtain ⟨⟨k, x, hx, rfl⟩, hall⟩ := ih
    refine ⟨exists_vertex_of_edge hlocal hx hedge, fun j w hw hq => ?_⟩
    subst hq
    exact .next (hall k x hx rfl) (mem_childrenOf_depGraphInit.mpr ⟨x, w, hx, hw, hedge.2.2⟩)
      fun hreach => hnot (reaches_of_vertices hlocal hreach hw hv)

/-! ## The result -/

theorem targetData_eq_some {graph : List Vertex} {i : ℕ} {p : Pkg} :
    targetData graph targets i = some p ↔ p ∈ targets ∧ ∃ v, graph[i]? = some v ∧ v.data = p := by
  unfold targetData
  cases graph[i]? with
  | none => simp
  | some v =>
    simp only [Option.map_some, Option.filter_eq_some_iff, Option.some.injEq, exists_eq_left',
      decide_eq_true_eq]
    constructor
    · rintro ⟨rfl, hp⟩
      exact ⟨hp, rfl⟩
    · rintro ⟨hp, rfl⟩
      exact ⟨rfl, hp⟩

/-- The packages of the vertices that are targets. -/
theorem filterMap_targetData_range (graph : List Vertex) :
    (List.range graph.length).filterMap (targetData graph targets) =
      (graph.map Vertex.data).filter (· ∈ targets) := by
  induction graph using List.reverseRecOn with
  | nil => rfl
  | append_singleton graph v ih =>
    have hsame : ∀ i ∈ List.range graph.length,
        targetData (graph ++ [v]) targets i = targetData graph targets i := fun i hi => by
      rw [targetData, List.getElem?_append_left (List.mem_range.mp hi), targetData]
    have hlast : targetData (graph ++ [v]) targets graph.length =
        (some v.data).filter (· ∈ targets) := by
      rw [targetData, List.getElem?_concat_length, Option.map_some]
    rw [List.length_append, List.length_singleton, List.range_succ, List.filterMap_append,
      List.filterMap_congr hsame, ih, List.map_append, List.filter_append]
    congr 1
    by_cases hv : v.data ∈ targets <;> simp [hlast, hv, Option.filter]

/-- Every target is left once. -/
theorem filterMap_targetData_perm (hlocal : (localdb.map Pkg.name).Nodup)
    {finished : List ℕ} (hnodup : finished.Nodup)
    (hall : ∀ v ∈ List.range (depGraphInit localdb targets ignore).length, v ∈ finished) :
    (finished.filterMap (targetData (depGraphInit localdb targets ignore) targets)).Perm
      targets := by
  set graph := depGraphInit localdb targets ignore with hgraph
  have hinside : finished.filterMap (targetData graph targets) =
      (finished.filter (· ∈ List.range graph.length)).filterMap (targetData graph targets) := by
    rw [List.filterMap_filter]
    refine List.filterMap_congr fun i _ => ?_
    by_cases hi : i ∈ List.range graph.length
    · simp only [hi, decide_true, if_true]
    · rw [List.mem_range, not_lt] at hi
      simp [targetData, List.getElem?_eq_none hi]
  have hperm : (finished.filter (· ∈ List.range graph.length)).Perm (List.range graph.length) := by
    refine (List.perm_ext_iff_of_nodup (hnodup.filter _) List.nodup_range).mpr fun i => ?_
    simp only [List.mem_filter, decide_eq_true_eq, and_iff_right_iff_imp]
    exact hall i
  obtain ⟨added, hdata, hadded⟩ := @depGraphInit_data localdb targets ignore
  have htargets : (targets ++ added).filter (· ∈ targets) = targets := by
    rw [List.filter_append, List.filter_eq_self.mpr fun p hp => by simpa using hp,
      List.filter_eq_nil_iff.mpr, List.append_nil]
    intro q hq hin
    exact ((mem_graphLocalpkgs hlocal).mp (hadded q hq)).2.1
      (List.mem_map_of_mem (of_decide_eq_true hin))
  rw [hinside]
  refine (hperm.filterMap _).trans ?_
  rw [filterMap_targetData_range, hgraph, hdata, htargets]

/-- In the new list `v` is ordered before `u`, or after it with `reverse`. -/
def Ordered (reverse : Bool) (result : List Pkg) (v u : Pkg) : Prop :=
  if reverse then ComesBefore result u v else ComesBefore result v u

/-- The new list in the order in which the search left the vertices. -/
theorem ordered_of_pairwise {reverse : Bool} {graph : List Vertex} {finished : List ℕ} {u v : Pkg}
    (hne : u ≠ v) (h : finished.Pairwise fun a b =>
      targetData graph targets a = some u → targetData graph targets b ≠ some v) :
    Ordered reverse (if reverse then (finished.filterMap (targetData graph targets)).reverse
      else finished.filterMap (targetData graph targets)) v u := by
  refine comesBefore_reverse hne (List.pairwise_filterMap.mpr (h.imp fun hab p hp q hq => ?_)) _
  rintro ⟨rfl, rfl⟩
  exact hab hp hq

/-- The sort of some targets ends with a search that has left every vertex. -/
theorem sortbydeps_ends (localdb : List Pkg) {targets : List Pkg} (ignore : List Pkg)
    (reverse : Bool) (hne : targets ≠ []) :
    ∃ s a, sortbydeps localdb targets ignore reverse =
        some (if reverse then s.newtargs.reverse else s.newtargs, s.warnings) ∧
      Running (depGraphInit localdb targets ignore) a ∧
      Agrees (depGraphInit localdb targets ignore) targets reverse s a ∧
      ∀ v ∈ List.range (depGraphInit localdb targets ignore).length, v ∈ a.finished := by
  have hgraph : depGraphInit localdb targets ignore ≠ [] := by
    obtain ⟨added, hdata, -⟩ := @depGraphInit_data localdb targets ignore
    intro hnil
    rw [hnil, List.map_nil] at hdata
    exact hne (List.append_eq_nil_iff.mp hdata.symm).1
  have hwithin : ∀ v, ∀ c ∈ childrenOf (depGraphInit localdb targets ignore) v,
      c ∈ List.range (depGraphInit localdb targets ignore).length := by
    intro v c hc
    obtain ⟨-, w, -, hw, -⟩ := mem_childrenOf_depGraphInit.mp hc
    exact List.mem_range.mpr (List.getElem?_eq_some_iff.mp hw).1
  obtain ⟨rest, a, hrange, hround, hfuel⟩ := @round_init _ targets reverse hgraph
  obtain ⟨s, a', hloop, hrunning, hagrees, hall⟩ := sortLoop_spec hwithin hround hfuel
  exact ⟨s, a', by simp only [sortbydeps, if_neg hne, hrange, hloop], hrunning, hagrees, hall⟩

/-- What the search leaves is a permutation of the targets. -/
theorem Running.perm (hlocal : (localdb.map Pkg.name).Nodup) {reverse : Bool} {s : SortState}
    {a : Search ℕ} (hrunning : Running (depGraphInit localdb targets ignore) a)
    (hagrees : Agrees (depGraphInit localdb targets ignore) targets reverse s a)
    (hall : ∀ v ∈ List.range (depGraphInit localdb targets ignore).length, v ∈ a.finished) :
    (if reverse then s.newtargs.reverse else s.newtargs).Perm targets := by
  have hnodup := (List.nodup_append.mp hrunning.invariant.nodup).2.1
  have hperm := filterMap_targetData_perm hlocal hnodup hall
  rw [hagrees.newtargs]
  cases reverse
  · exact hperm
  · exact (List.reverse_perm _).trans hperm

theorem exists_sortbydeps_perm (localdb targets ignore : List Pkg) (reverse : Bool)
    (hlocal : (localdb.map Pkg.name).Nodup) :
    ∃ result warnings, sortbydeps localdb targets ignore reverse = some (result, warnings) ∧
      result.Perm targets := by
  rcases eq_or_ne targets [] with rfl | hne
  · exact ⟨[], [], if_pos rfl, List.Perm.refl _⟩
  · obtain ⟨s, a, hsort, hrunning, hagrees, hall⟩ := sortbydeps_ends localdb ignore reverse hne
    exact ⟨_, _, hsort, hrunning.perm hlocal hagrees hall⟩

/-- **The order of a transaction.**  The sort ends with a permutation of the targets, in which every
target comes after those that it reaches on a way without return; if a target does not come after
one that it depends on, a warning names the two.  Both are read off the invariant of the search at
its end, where every vertex has been left. -/
theorem sortbydeps_order (localdb targets ignore : List Pkg) (reverse : Bool)
    (hlocal : (localdb.map Pkg.name).Nodup) :
    ∃ result warnings, sortbydeps localdb targets ignore reverse = some (result, warnings) ∧
      result.Perm targets ∧
      (∀ u ∈ targets, ∀ v ∈ targets, u ≠ v →
        OneWay (DependsEdge localdb targets ignore) u v → Ordered reverse result v u) ∧
      ∀ u ∈ targets, ∀ v ∈ targets, u ≠ v → pkgDependsOn u v → ¬ Ordered reverse result v u →
        ⟨u.name, v.name, reverse⟩ ∈ warnings := by
  rcases eq_or_ne targets [] with rfl | hne
  · exact ⟨[], [], if_pos rfl, List.Perm.refl _, fun u hu => absurd hu List.not_mem_nil,
      fun u hu => absurd hu List.not_mem_nil⟩
  obtain ⟨s, a, hsort, hrunning, hagrees, hall⟩ := sortbydeps_ends localdb ignore reverse hne
  have hinvariant := hrunning.invariant
  refine ⟨_, _, hsort, hrunning.perm hlocal hagrees hall, ?_, ?_⟩
  · intro u hu v hv huv hway
    rw [hagrees.newtargs]
    refine ordered_of_pairwise huv (hinvariant.order.imp fun {i j} hnot hi hj => hnot ?_)
    obtain ⟨-, x, hx, rfl⟩ := targetData_eq_some.mp hi
    obtain ⟨-, y, hy, rfl⟩ := targetData_eq_some.mp hj
    exact (oneWay_vertices hlocal hx hway).2 j y hy rfl
  · intro u hu v hv huv hdep hnot
    by_contra hwarn
    refine hnot ?_
    rw [hagrees.newtargs]
    refine ordered_of_pairwise huv (hinvariant.edges.imp fun {i j} hedge hi hj => hwarn ?_)
    obtain ⟨-, x, hx, rfl⟩ := targetData_eq_some.mp hi
    obtain ⟨-, y, hy, rfl⟩ := targetData_eq_some.mp hj
    have hij : i ≠ j := by
      rintro rfl
      exact huv (Option.some.inj (hi.symm.trans hj))
    exact hagrees.warnings i j
      (hedge (mem_childrenOf_depGraphInit.mpr ⟨x, y, hx, hy, hdep⟩)) hij _ _ hi hj

end

/-! ## A local package that a target replaces -/

/-- The installed `lib` depends on `data`. -/
def installedLib : Pkg :=
  { name := str "lib", version := str "1-1", depends := [{ name := str "data" }] }

/-- `app` depends on the installed `lib`. -/
def newApp : Pkg :=
  { name := str "app", version := str "1-1",
    depends := [{ name := str "lib", version := some (str "2"), mod := .lt }] }

def newData : Pkg := { name := str "data", version := str "1-1" }

/-- The transaction replaces `lib` and installs `app` and `data`. -/
def replacedTargets : List Pkg :=
  [newApp, { name := str "lib", version := str "2-1" }, newData]

theorem sortbydeps_order_replaced : ([installedLib].map Pkg.name).Nodup ∧
    ∃ result warnings, sortbydeps [installedLib] replacedTargets [] true =
        some (result, warnings) ∧ result.Perm replacedTargets ∧
      (∀ u ∈ replacedTargets, ∀ v ∈ replacedTargets, u ≠ v →
        OneWay (DependsEdge [installedLib] replacedTargets []) u v → Ordered true result v u) ∧
      ∀ u ∈ replacedTargets, ∀ v ∈ replacedTargets, u ≠ v → pkgDependsOn u v →
        ¬ Ordered true result v u → ⟨u.name, v.name, true⟩ ∈ warnings :=
  have hnodup : ([installedLib].map Pkg.name).Nodup := by decide
  ⟨hnodup, sortbydeps_order [installedLib] replacedTargets [] true hnodup⟩

/-- `app` is installed before `data`, which it reaches through the old `lib`. -/
theorem sortbydeps_ignores_replaced :
    ¬ ∀ (localdb targets ignore : List Pkg) (reverse : Bool), (localdb.map Pkg.name).Nodup →
      ∃ result warnings, sortbydeps localdb targets ignore reverse = some (result, warnings) ∧
        ∀ u ∈ targets, ∀ v ∈ targets, u ≠ v →
          OneWay (fun p q => (p ∈ targets ∨ p ∈ localdb ∧ p.name ∉ ignore.map Pkg.name) ∧
            (q ∈ targets ∨ q ∈ localdb ∧ q.name ∉ ignore.map Pkg.name) ∧ pkgDependsOn p q) u v →
          Ordered reverse result v u := by
  intro h
  obtain ⟨result, warnings, hresult, hordered⟩ :=
    h [installedLib] replacedTargets [] false (by decide)
  have hsorted : sortbydeps [installedLib] replacedTargets [] false =
      some (replacedTargets, []) := by decide +kernel
  obtain ⟨rfl, -⟩ := Prod.mk.inj (Option.some.inj (hsorted.symm.trans hresult))
  -- neither of the two packages on the way reaches `app`
  have hreaches : ∀ p q, p = installedLib ∨ p = newData →
      Relation.ReflTransGen (fun p q =>
        (p ∈ replacedTargets ∨ p ∈ [installedLib] ∧ p.name ∉ ([] : List Pkg).map Pkg.name) ∧
          (q ∈ replacedTargets ∨ q ∈ [installedLib] ∧ q.name ∉ ([] : List Pkg).map Pkg.name) ∧
            pkgDependsOn p q) p q → q ≠ newApp := by
    have hstep : ∀ q ∈ replacedTargets ++ [installedLib], ¬ pkgDependsOn newData q ∧
        (pkgDependsOn installedLib q → q = newData) := by decide +kernel
    intro p q hp hreach
    have hq : q = installedLib ∨ q = newData := by
      induction hreach with
      | refl => exact hp
      | @tail b c _ hedge ih =>
        have hc := hstep c (List.mem_append.mpr (hedge.2.1.imp_right And.left))
        rcases ih with rfl | rfl
        · exact Or.inr (hc.2 hedge.2.2)
        · exact absurd hedge.2.2 hc.1
    rcases hq with rfl | rfl <;> decide
  have hway := hordered newApp (by decide) newData (by decide) (by decide)
    (.next (.first (b := installedLib) ⟨by decide, by decide, by decide +kernel⟩
      fun hreach => hreaches _ _ (Or.inl rfl) hreach rfl)
      ⟨by decide, by decide, by decide +kernel⟩ fun hreach => hreaches _ _ (Or.inr rfl) hreach rfl)
  exact absurd (hway 2 0 rfl rfl) (by decide)

end Alpm
