import Alpm.Deps.Depcmp
import Alpm.General.Worklist

/-!
# The dependency graph

`dep_graph_init`.  A vertex is a package, its index in the list of vertices stands for the pointer
to it, and its children are the vertices of the packages that it depends on.  The targets come
first; local packages are added while the edges are computed, each when a vertex first depends on
it, and local packages that a target or an ignored package names are not in the graph at all,
because `alpm_list_diff` takes them out by their names.

The loop over the vertices runs over a list that grows under it, which is the worklist of
`General.Worklist` with the local packages as the pool: `addEdges_data` says that the packages of
the graph are those that `Worklist.drain` processes.  The children of a vertex are all vertices that
it depends on, also those that were added after its edges were computed
(`mem_children_depGraphInit`): had it depended on one of these, it would have added the vertex
itself.
-/

namespace Alpm

open Worklist

/-- The fields of `alpm_graph_t` that do not change after `dep_graph_init`. -/
structure Vertex where
  data : Pkg
  children : List ℕ
  deriving DecidableEq, Repr

/-- The children of a vertex: the vertices there are, in their order, and those that are
added for it at the end of the list. -/
def edgesOf (vertices : List Pkg) (added : List Pkg) (pkg : Pkg) : List ℕ :=
  ((List.range vertices.length).filter fun j => vertices[j]?.any (pkgDependsOn pkg)) ++
    List.range' vertices.length added.length

/-- The loop over the vertices.  The edges of `before` are computed, those of the second
list are not, and `localpkgs` is not in the graph. -/
def addEdges (before : List Pkg) : List Pkg → List Pkg → List Vertex
  | [], _ => []
  | pkg :: vertices, localpkgs =>
    -- lazily add local packages
    let added := select pkgDependsOn pkg localpkgs
    ⟨pkg, edgesOf (before ++ pkg :: vertices) added.1 pkg⟩ ::
      addEdges (before ++ [pkg]) (vertices ++ added.1) added.2
  termination_by vertices localpkgs => vertices.length + localpkgs.length
  decreasing_by
    have hlength := @length_select _ pkgDependsOn pkg localpkgs
    simp only [List.length_append, List.length_cons]
    omega

/-- `localpkgs` of `dep_graph_init`. -/
def graphLocalpkgs (localdb targets ignore : List Pkg) : List Pkg :=
  let localpkgs := listDiff pkgCmp localdb targets
  if ignore ≠ [] then listDiff pkgCmp localpkgs ignore else localpkgs

/-- `dep_graph_init`. -/
def depGraphInit (localdb targets ignore : List Pkg) : List Vertex :=
  addEdges [] targets (graphLocalpkgs localdb targets ignore)

/-- The packages of the graph. -/
theorem addEdges_data (before vertices localpkgs : List Pkg) :
    (addEdges before vertices localpkgs).map Vertex.data =
      (drain pkgDependsOn vertices localpkgs).1 := by
  fun_induction addEdges before vertices localpkgs with
  | case1 => rw [drain_nil, List.map_nil]
  | case2 before pkg vertices localpkgs added ih =>
    rw [drain_cons, List.map_cons, ih]

theorem mem_edgesOf {vertices added rest : List Pkg} {pkg : Pkg}
    (hadded : ∀ q ∈ added, pkgDependsOn pkg q) (hrest : ∀ q ∈ rest, ¬ pkgDependsOn pkg q) {j : ℕ} :
    j ∈ edgesOf vertices added pkg ↔
      ∃ q, (vertices ++ added ++ rest)[j]? = some q ∧ pkgDependsOn pkg q := by
  rw [edgesOf, List.mem_append, List.mem_filter, List.mem_range, List.mem_range'_1]
  rcases lt_or_ge j vertices.length with hj | hj
  · rw [List.append_assoc, List.getElem?_append_left hj]
    simp only [hj, true_and, not_le.mpr hj, false_and, or_false, Option.any_eq_true]
  · rw [List.append_assoc, List.getElem?_append_right hj]
    simp only [not_lt.mpr hj, false_and, hj, true_and, false_or]
    rcases lt_or_ge (j - vertices.length) added.length with hj' | hj'
    · rw [List.getElem?_append_left hj']
      refine iff_of_true (by omega) ⟨_, List.getElem?_eq_getElem hj', hadded _ ?_⟩
      exact List.getElem_mem hj'
    · rw [List.getElem?_append_right hj']
      refine iff_of_false (by omega) ?_
      rintro ⟨q, hq, hdep⟩
      exact hrest q (List.mem_of_getElem? hq) hdep

/-- The children are the vertices that the package depends on. -/
theorem mem_children_addEdges (before vertices localpkgs : List Pkg) {v : Vertex}
    (hv : v ∈ addEdges before vertices localpkgs) (j : ℕ) :
    j ∈ v.children ↔ ∃ q, (before ++ (drain pkgDependsOn vertices localpkgs).1)[j]? = some q ∧
      pkgDependsOn v.data q := by
  fun_induction addEdges before vertices localpkgs with
  | case1 => exact absurd hv List.not_mem_nil
  | case2 before pkg vertices localpkgs added ih =>
    obtain ⟨rest, hrest, hmem⟩ := @drain_fst_eq_append _ pkgDependsOn (vertices ++ added.1) added.2
    rw [drain_cons]
    rcases List.mem_cons.mp hv with rfl | hv
    · have hedges := @mem_edgesOf (before ++ pkg :: vertices) added.1 rest pkg
        (fun q hq => (mem_select_fst.mp hq).2) (fun q hq => (mem_select_snd.mp (hmem q hq)).2) j
      rw [List.append_assoc, List.append_assoc, List.cons_append, ← List.append_assoc vertices,
        ← hrest] at hedges
      exact hedges
    · rw [ih hv, List.append_assoc]
      rfl

/-- A local package that a vertex depends on is in the graph. -/
theorem mem_addEdges_data {vertices localpkgs : List Pkg} {v : Vertex} {q : Pkg}
    (hv : v ∈ addEdges [] vertices localpkgs) (hq : q ∈ localpkgs)
    (hdep : pkgDependsOn v.data q) :
    q ∈ (addEdges [] vertices localpkgs).map Vertex.data := by
  have hdata := List.mem_map_of_mem (f := Vertex.data) hv
  rw [addEdges_data] at hdata ⊢
  exact mem_drain_fst_of_sel hdata hq hdep

/-! ## The graph of a transaction -/

section

variable {localdb targets ignore : List Pkg}

theorem mem_graphLocalpkgs (hlocal : (localdb.map Pkg.name).Nodup) {q : Pkg} :
    q ∈ graphLocalpkgs localdb targets ignore ↔
      q ∈ localdb ∧ q.name ∉ targets.map Pkg.name ∧ q.name ∉ ignore.map Pkg.name := by
  have hfirst : ((listDiff pkgCmp localdb targets).map Pkg.name).Nodup :=
    ((listDiff_perm pkgCmp_comparesBy targets hlocal).map Pkg.name).nodup_iff.mpr
      (hlocal.sublist (List.filter_sublist.map Pkg.name))
  unfold graphLocalpkgs
  split_ifs with hignore
  · rw [mem_listDiff pkgCmp_comparesBy hfirst, mem_listDiff pkgCmp_comparesBy hlocal, and_assoc]
  · rw [mem_listDiff pkgCmp_comparesBy hlocal, not_not.mp hignore]
    simp

end

end Alpm
