import Alpm.Deps.Depcmp
import Alpm.Deps.Depstring

/-!
# Package conflicts

The searches of `conflict.c`.  `check_conflict` compares two packages in the order in which it is
given them and looks only for entries of the first that the second satisfies; so
`_alpm_outerconflicts` calls it twice, with the lists exchanged, and an argument says in which order
a pair is entered.

A list of conflicts has at most one entry for a pair of names, and the reason in an entry is that of
the first one found; so what matters for the phases of a transaction is which pairs of names it has.
`mem_innerconflicts` and `mem_outerconflicts` say which: the pairs of packages in the list, and the
pairs of a package in the list and one in the database whose name is not in the list.
-/

namespace Alpm.Sync

/-- `alpm_conflict_t`. -/
structure Conflict where
  package1 : CString
  package2 : CString
  reason : Depend
  deriving DecidableEq, Repr

/-- The pair that a conflict is about. -/
def Conflict.names (conflict : Conflict) : CString × CString :=
  (conflict.package1, conflict.package2)

/-- `conflict_isin`. -/
def conflictIsin (needle : Conflict) (haystack : List Conflict) : Bool :=
  haystack.any fun conflict =>
    hashSdbm needle.package1 = hashSdbm conflict.package1 ∧
      hashSdbm needle.package2 = hashSdbm conflict.package2 ∧
      strcmp needle.package1 conflict.package1 = 0 ∧
      strcmp needle.package2 conflict.package2 = 0

/-- `add_conflict` with memory for the conflict. -/
def addConflict (baddeps : List Conflict) (pkg1 pkg2 : Pkg) (reason : Depend) : List Conflict :=
  let conflict : Conflict := ⟨pkg1.name, pkg2.name, reason⟩
  if conflictIsin conflict baddeps then baddeps else baddeps ++ [conflict]

/-- One round of the innermost loop of `check_conflict`. -/
def checkPair (order : Int) (pkg1 : Pkg) (conflict : Depend) (baddeps : List Conflict)
    (pkg2 : Pkg) : List Conflict :=
  if pkg1.nameHash = pkg2.nameHash ∧ strcmp pkg1.name pkg2.name = 0 then baddeps
  else if depcmp pkg2 conflict then
    if order ≥ 0 then addConflict baddeps pkg1 pkg2 conflict
    else addConflict baddeps pkg2 pkg1 conflict
  else baddeps

/-- `check_conflict`. -/
def checkConflict (list1 list2 : List Pkg) (baddeps : List Conflict) (order : Int) :
    List Conflict :=
  list1.foldl (fun baddeps pkg1 =>
    pkg1.conflicts.foldl (fun baddeps conflict =>
      list2.foldl (checkPair order pkg1 conflict) baddeps) baddeps) baddeps

/-- `_alpm_innerconflicts`. -/
def innerconflicts (packages : List Pkg) : List Conflict := checkConflict packages packages [] 0

/-- `_alpm_outerconflicts`. -/
def outerconflicts (pkgcache packages : List Pkg) : List Conflict :=
  let dblist := listDiff pkgCmp pkgcache packages
  let baddeps := checkConflict packages dblist [] 1
  checkConflict dblist packages baddeps (-1)

/-! ## Which pairs are found -/

/-- The first package has another name and a conflict entry that the second satisfies.  This is not
symmetric: one package may name the other, and not the other way round. -/
def ConflictsWith (p q : Pkg) : Prop :=
  p.name ≠ q.name ∧ ∃ conflict ∈ p.conflicts, depcmp q conflict

theorem conflictIsin_iff {needle : Conflict} {haystack : List Conflict} :
    conflictIsin needle haystack ↔ needle.names ∈ haystack.map Conflict.names := by
  simp only [conflictIsin, List.any_eq_true, decide_eq_true_eq, strcmp_eq_zero, List.mem_map,
    Conflict.names, Prod.mk.injEq]
  refine exists_congr fun conflict => and_congr_right fun _ => ⟨?_, ?_⟩
  · rintro ⟨-, -, h₁, h₂⟩
    exact ⟨h₁.symm, h₂.symm⟩
  · rintro ⟨h₁, h₂⟩
    rw [h₁, h₂]
    exact ⟨rfl, rfl, rfl, rfl⟩

theorem mem_addConflict {baddeps : List Conflict} {pkg1 pkg2 : Pkg} {reason : Depend}
    {names : CString × CString} :
    names ∈ (addConflict baddeps pkg1 pkg2 reason).map Conflict.names ↔
      names ∈ baddeps.map Conflict.names ∨ names = (pkg1.name, pkg2.name) := by
  unfold addConflict
  by_cases h : conflictIsin ⟨pkg1.name, pkg2.name, reason⟩ baddeps
  · rw [if_pos h]
    refine ⟨Or.inl, fun hnames => hnames.elim id ?_⟩
    rintro rfl
    exact conflictIsin_iff.mp h
  · rw [if_neg h, List.map_append, List.mem_append]
    simp [Conflict.names]

/-- A loop that adds what each element has to add. -/
theorem foldl_collects {α β : Type*} {f : β → α → β} {q : β → Prop} {p : α → Prop}
    (h : ∀ b a, q (f b a) ↔ q b ∨ p a) (list : List α) (b : β) :
    q (list.foldl f b) ↔ q b ∨ ∃ a ∈ list, p a := by
  induction list generalizing b with
  | nil => simp
  | cons a list ih =>
    rw [List.foldl_cons, ih, h, or_assoc]
    simp only [List.mem_cons, exists_eq_or_imp]

/-- The order in which a pair is entered. -/
def orderedNames (order : Int) (pkg1 pkg2 : Pkg) : CString × CString :=
  if order ≥ 0 then (pkg1.name, pkg2.name) else (pkg2.name, pkg1.name)

theorem mem_checkConflict {list1 list2 : List Pkg} {baddeps : List Conflict} {order : Int}
    {names : CString × CString} :
    names ∈ (checkConflict list1 list2 baddeps order).map Conflict.names ↔
      names ∈ baddeps.map Conflict.names ∨
        ∃ p ∈ list1, ∃ q ∈ list2, ConflictsWith p q ∧ names = orderedNames order p q := by
  have hpair : ∀ (p : Pkg) (conflict : Depend) (b : List Conflict) (q : Pkg),
      names ∈ (checkPair order p conflict b q).map Conflict.names ↔
        names ∈ b.map Conflict.names ∨
          (p.name ≠ q.name ∧ depcmp q conflict ∧ names = orderedNames order p q) := by
    intro p conflict b q
    unfold checkPair orderedNames
    by_cases hname : p.name = q.name
    · rw [if_pos ⟨by simp [Pkg.nameHash, hname], strcmp_eq_zero.mpr hname⟩]
      simp [hname]
    · rw [if_neg fun h => hname (strcmp_eq_zero.mp h.2)]
      by_cases hsat : depcmp q conflict
      · by_cases horder : order ≥ 0
        · simp [mem_addConflict, hname, hsat, horder]
        · simp [mem_addConflict, hname, hsat, horder]
      · simp [hsat]
  let found := fun b : List Conflict => names ∈ b.map Conflict.names
  have hloops : ∀ b, found (checkConflict list1 list2 b order) ↔ found b ∨ ∃ p ∈ list1,
      ∃ conflict ∈ p.conflicts, ∃ q ∈ list2,
        p.name ≠ q.name ∧ depcmp q conflict ∧ names = orderedNames order p q := by
    intro b
    refine foldl_collects (q := found) (fun b p => ?_) list1 b
    refine foldl_collects (q := found) (fun b conflict => ?_) p.conflicts b
    exact foldl_collects (q := found) (hpair p conflict) list2 b
  refine (hloops baddeps).trans ?_
  refine or_congr_right (exists_congr fun p => and_congr_right fun _ => ⟨?_, ?_⟩)
  · rintro ⟨conflict, hconflict, q, hq, hname, hsat, hnames⟩
    exact ⟨q, hq, ⟨hname, conflict, hconflict, hsat⟩, hnames⟩
  · rintro ⟨q, hq, ⟨hname, conflict, hconflict, hsat⟩, hnames⟩
    exact ⟨conflict, hconflict, q, hq, hname, hsat, hnames⟩

/-- **`_alpm_innerconflicts`** finds the pairs of the list, each in the order in which the first
package names the second.  Two packages that name each other are two pairs. -/
theorem mem_innerconflicts {packages : List Pkg} {names : CString × CString} :
    names ∈ (innerconflicts packages).map Conflict.names ↔
      ∃ p ∈ packages, ∃ q ∈ packages, ConflictsWith p q ∧ names = (p.name, q.name) := by
  unfold innerconflicts
  rw [mem_checkConflict]
  simp [orderedNames]

/-- **`_alpm_outerconflicts`** finds the pairs of a package of the list and one of the
database whose name is not in the list. -/
theorem mem_outerconflicts {pkgcache packages : List Pkg}
    (hcache : (pkgcache.map Pkg.name).Nodup) {names : CString × CString} :
    names ∈ (outerconflicts pkgcache packages).map Conflict.names ↔
      ∃ p ∈ packages, ∃ q ∈ pkgcache, q.name ∉ packages.map Pkg.name ∧
        (ConflictsWith p q ∨ ConflictsWith q p) ∧ names = (p.name, q.name) := by
  unfold outerconflicts
  rw [mem_checkConflict, mem_checkConflict]
  simp only [mem_listDiff pkgCmp_comparesBy hcache]
  constructor
  · rintro ((h | ⟨p, hp, q, ⟨hq, hnot⟩, hconflict, hnames⟩) |
      ⟨q, ⟨hq, hnot⟩, p, hp, hconflict, hnames⟩)
    · exact absurd h List.not_mem_nil
    · exact ⟨p, hp, q, hq, hnot, Or.inl hconflict, by simpa [orderedNames] using hnames⟩
    · exact ⟨p, hp, q, hq, hnot, Or.inr hconflict, by simpa [orderedNames] using hnames⟩
  · rintro ⟨p, hp, q, hq, hnot, hconflict | hconflict, hnames⟩
    · exact Or.inl (Or.inr ⟨p, hp, q, ⟨hq, hnot⟩, hconflict, by simpa [orderedNames] using hnames⟩)
    · exact Or.inr ⟨q, ⟨hq, hnot⟩, p, hp, hconflict, by simpa [orderedNames] using hnames⟩

end Alpm.Sync
