import Alpm.General.Splits
import Alpm.Sync.Sysupgrade

/-!
# Replaced or upgraded, not both

`alpm_sync_sysupgrade` takes a list of new replacers that is empty for a sign that nothing replaces
the package.  A replacer that another package has made a target before is not on that list, and so
the package is upgraded although it goes into the replacer's `removes` list.

## 1.  The `removes` lists

An accepted replacer puts the installed package into the list of one object: the target that it
becomes, or the target of its name that is there already (`takeReplacer_removes`).  The lists are a
function of the addresses, so what a round does to them is a fold over the accepted replacers.

## 2.  Rounds

Before every round the targets come from the databases, and only targets replace packages, which
have been visited (`Upgrading`).  A round goes wrong in two ways: a new replacer has the name of the
package itself, or of one that a target replaces; or the literal is taken although an accepted
replacer is a target already. `Exclusive` excludes both, and it is a condition on the state before
the round and the databases.

## 3.  Both directions

A package that is both replaced and upgraded stays so, since targets are only added.  So from empty
target lists a system upgrade keeps the two apart if and only if every round for a package that is
not a target yet is exclusive (`sysupgrade_exclusive_iff`).
-/

namespace Alpm.Sync

section

variable (handle : Handle) (enableDowngrade : Bool)

/-- No package that a target replaces has its name among the targets.  A package that is upgraded
has its name there, so it is not replaced as well. -/
def NotBoth (s : Session) : Prop :=
  ∀ p ∈ s.trans.add, ∀ r ∈ (s.fields p.addr).removes, r.name ∉ s.trans.add.map Pkg.name

/-- The databases that a round for `lpkg` looks at in the state `t`. -/
def searchedFor (t : Session) (lpkg : Pkg) : List Searched :=
  lookedAt handle t.trans.add lpkg (upgradeDbs handle lpkg handle.dbsSync t.asked)

/-- A round for `lpkg` in the state `t` does not make it both replaced and upgraded.  The two parts
are about the state before the round and the databases that it looks at. -/
structure Exclusive (t : Session) (lpkg : Pkg) : Prop where
  /-- no new replacer bears the name of `lpkg` or of a package that a target replaces -/
  fresh : ∀ u ∈ searchedFor handle t lpkg, ∀ spkg ∈ freshReplacers handle t.trans.add lpkg u,
    spkg.name ≠ lpkg.name ∧
      ∀ p ∈ t.trans.add, ∀ r ∈ (t.fields p.addr).removes, r.name ≠ spkg.name
  /-- if the literal is taken, no accepted replacer is already a target of its database -/
  literal : (∃ u ∈ searchedFor handle t lpkg, freshReplacers handle t.trans.add lpkg u = [] ∧
      literalUpgrade handle enableDowngrade lpkg u ≠ []) →
    ∀ u ∈ searchedFor handle t lpkg, ∀ spkg ∈ accepted handle lpkg u,
      ∀ tpkg ∈ pkgFind t.trans.add spkg.name, tpkg.origin ≠ .syncdb u.sdb.treename

end

/-! ## The `removes` lists -/

/-- The object of the target that a package goes to when it is replaced. -/
def replacerAddr (add : List Pkg) (sdb : Db) (spkg : Pkg) : Option ℕ :=
  match pkgFind add spkg.name with
  | some tpkg => if tpkg.origin ≠ .syncdb sdb.treename then none else some tpkg.addr
  | none => some spkg.addr

section

variable {handle : Handle} {enableDowngrade : Bool} {add : List Pkg} {lpkg : Pkg}
variable {fields : ℕ → PkgFields} {addr : ℕ}

/-- A replacer changes the `removes` list of one object: that of a new target is made, that of
an old one gets longer. -/
theorem takeReplacer_removes {sdb : Db} {spkg : Pkg} :
    ((takeReplacer add lpkg sdb spkg fields).2 addr).removes =
      if replacerAddr add sdb spkg = some addr then
        if pkgFind add spkg.name = none then [lpkg] else (fields addr).removes ++ [lpkg]
      else (fields addr).removes := by
  unfold takeReplacer replacerAddr
  cases hfind : pkgFind add spkg.name with
  | none =>
    simp only [if_true, Option.some.injEq]
    split_ifs with heq
    · rw [heq, Function.update_self]
    · rw [Function.update_of_ne (Ne.symm heq)]
  | some tpkg =>
    by_cases horigin : tpkg.origin ≠ .syncdb sdb.treename
    · simp [horigin]
    · simp only [horigin, if_false, Option.some.injEq, reduceCtorEq]
      by_cases heq : tpkg.addr = addr
      · rw [if_pos heq, heq, Function.update_self]
      · rw [if_neg heq, Function.update_of_ne (Ne.symm heq)]

theorem takeReplacer_removes_sub {sdb : Db} {spkg r : Pkg}
    (h : r ∈ ((takeReplacer add lpkg sdb spkg fields).2 addr).removes) :
    r = lpkg ∧ replacerAddr add sdb spkg = some addr ∨ r ∈ (fields addr).removes := by
  rw [takeReplacer_removes] at h
  split_ifs at h with haddr hfind
  · exact Or.inl ⟨List.mem_singleton.mp h, haddr⟩
  · rcases List.mem_append.mp h with h | h
    · exact Or.inr h
    · exact Or.inl ⟨List.mem_singleton.mp h, haddr⟩
  · exact Or.inr h

theorem mem_takeReplacer_removes {sdb : Db} {spkg : Pkg}
    (h : replacerAddr add sdb spkg = some addr ∨ lpkg ∈ (fields addr).removes) :
    lpkg ∈ ((takeReplacer add lpkg sdb spkg fields).2 addr).removes := by
  rw [takeReplacer_removes]
  split_ifs with haddr hfind
  · exact List.mem_singleton_self _
  · exact List.mem_append_right _ (List.mem_singleton_self _)
  · exact h.resolve_left haddr

theorem removes_subset_takeReplacer {sdb : Db} {spkg : Pkg}
    (hold : pkgFind add spkg.name = none → spkg.addr ≠ addr) :
    (fields addr).removes ⊆ ((takeReplacer add lpkg sdb spkg fields).2 addr).removes := by
  rw [takeReplacer_removes]
  split_ifs with haddr hfind
  · have hself : replacerAddr add sdb spkg = some spkg.addr := by simp [replacerAddr, hfind]
    rw [hself, Option.some.injEq] at haddr
    exact absurd haddr (hold hfind)
  · exact List.subset_append_left _ _
  · exact fun _ h => h

/-- The accepted replacers of some databases, in turn, with their databases. -/
def acceptedFrom (handle : Handle) (lpkg : Pkg) (us : List Searched) : List (Db × Pkg) :=
  us.flatMap fun u => (accepted handle lpkg u).map fun spkg => (u.sdb, spkg)

theorem foldl_takeReplacers (us : List Searched) :
    us.foldl (takeReplacers handle add lpkg) fields =
      (acceptedFrom handle lpkg us).foldl
        (fun fields c => (takeReplacer add lpkg c.1 c.2 fields).2) fields := by
  induction us generalizing fields with
  | nil => rfl
  | cons u us ih =>
    have hcons : acceptedFrom handle lpkg (u :: us) =
        ((accepted handle lpkg u).map fun spkg => (u.sdb, spkg)) ++
          acceptedFrom handle lpkg us := List.flatMap_cons
    rw [List.foldl_cons, ih, hcons, List.foldl_append, List.foldl_map]
    rfl

theorem mem_acceptedFrom {us : List Searched} {c : Db × Pkg} :
    c ∈ acceptedFrom handle lpkg us ↔
      ∃ u ∈ us, c.2 ∈ accepted handle lpkg u ∧ c.1 = u.sdb := by
  unfold acceptedFrom
  simp only [List.mem_flatMap, List.mem_map]
  constructor
  · rintro ⟨u, hu, spkg, hspkg, rfl⟩
    exact ⟨u, hu, hspkg, rfl⟩
  · rintro ⟨u, hu, hspkg, heq⟩
    exact ⟨u, hu, c.2, hspkg, by rw [← heq]⟩

/-- What the accepted replacers leave in the `removes` lists. -/
theorem foldl_takeReplacer_removes (cs : List (Db × Pkg)) :
    let fields' := cs.foldl (fun fields c => (takeReplacer add lpkg c.1 c.2 fields).2) fields
    (∀ r ∈ (fields' addr).removes,
      r = lpkg ∧ (∃ c ∈ cs, replacerAddr add c.1 c.2 = some addr) ∨ r ∈ (fields addr).removes) ∧
    ((∃ c ∈ cs, replacerAddr add c.1 c.2 = some addr) ∨ lpkg ∈ (fields addr).removes →
      lpkg ∈ (fields' addr).removes) ∧
    ((∀ c ∈ cs, pkgFind add c.2.name = none → c.2.addr ≠ addr) →
      (fields addr).removes ⊆ (fields' addr).removes) := by
  induction cs generalizing fields with
  | nil => simp
  | cons c cs ih =>
    obtain ⟨hsub, hmem, hold⟩ := @ih (takeReplacer add lpkg c.1 c.2 fields).2
    refine ⟨fun r hr => ?_, fun h => hmem ?_, fun h => ?_⟩
    · rcases hsub r hr with ⟨rfl, d, hd, haddr⟩ | hr
      · exact Or.inl ⟨rfl, d, List.mem_cons_of_mem _ hd, haddr⟩
      · exact (takeReplacer_removes_sub hr).imp_left fun h =>
          ⟨h.1, c, List.mem_cons_self .., h.2⟩
    · rcases h with ⟨d, hd, haddr⟩ | h
      · rcases List.mem_cons.mp hd with rfl | hd
        · exact Or.inr (mem_takeReplacer_removes (Or.inl haddr))
        · exact Or.inl ⟨d, hd, haddr⟩
      · exact Or.inr (mem_takeReplacer_removes (Or.inr h))
    · exact List.Subset.trans (removes_subset_takeReplacer (h c (List.mem_cons_self ..)))
        (hold fun d hd => h d (List.mem_cons_of_mem _ hd))

/-! ## Rounds -/

/-- What holds before every round for the packages visited so far: the targets come from the
databases, and only targets replace packages, which have been visited. -/
structure Upgrading (handle : Handle) (visited : List Pkg) (t : Session) : Prop where
  targets : ∀ p ∈ t.trans.add, p ∈ handle.dbsSync.flatMap Db.pkgcache
  remove : t.trans.remove = []
  removes : ∀ addr, ∀ r ∈ (t.fields addr).removes,
    r ∈ visited ∧ ∃ p ∈ t.trans.add, p.addr = addr

theorem searchedFor_sdb {t : Session} {u : Searched} (h : u ∈ searchedFor handle t lpkg) :
    u.sdb ∈ handle.dbsSync := by
  obtain ⟨before, after, hsplit, -⟩ := lookedAt_spec h
  have hmem : u.sdb ∈ (upgradeDbs handle lpkg handle.dbsSync t.asked).map Searched.sdb := by
    rw [hsplit]
    exact List.mem_map_of_mem (by simp)
  rw [map_sdb_upgradeDbs] at hmem
  exact (List.mem_filter.mp hmem).1

theorem addedAt_targets {t : Session} {u : Searched} (hu : u ∈ searchedFor handle t lpkg)
    {spkg : Pkg} (h : spkg ∈ addedAt handle enableDowngrade t.trans.add lpkg u) :
    spkg ∈ handle.dbsSync.flatMap Db.pkgcache := by
  have hcache : spkg ∈ u.sdb.pkgcache := by
    rcases mem_addedAt h with hfresh | ⟨-, hliteral⟩
    · exact (accepted_spec (List.mem_filter.mp hfresh).1).1
    · exact (literalUpgrade_spec hliteral).1
  exact List.mem_flatMap.mpr ⟨u.sdb, searchedFor_sdb hu, hcache⟩

theorem mem_freshReplacers {u : Searched} {spkg : Pkg} :
    spkg ∈ freshReplacers handle add lpkg u ↔
      spkg ∈ accepted handle lpkg u ∧ spkg.name ∉ add.map Pkg.name := by
  rw [freshReplacers, List.mem_filter, Option.isNone_iff_eq_none, pkgFind_eq_none]

/-- A database with a new replacer is the last that is looked at. -/
theorem freshReplacers_eq_nil {us : List Searched} {u v : Searched}
    (hu : u ∈ lookedAt handle add lpkg us) (hv : v ∈ lookedAt handle add lpkg us)
    (hstops : stopsAt handle add lpkg u) (hnil : freshReplacers handle add lpkg u = []) :
    freshReplacers handle add lpkg v = [] := by
  induction us with
  | nil => exact absurd hu List.not_mem_nil
  | cons w us ih =>
    unfold lookedAt at hu hv
    by_cases hw : stopsAt handle add lpkg w
    · rw [if_pos hw, List.mem_singleton] at hu hv
      rw [hv, ← hu]
      exact hnil
    · rw [if_neg hw] at hu hv
      have hwnil : freshReplacers handle add lpkg w = [] := by
        by_contra hne
        exact hw (Or.inl hne)
      rcases List.mem_cons.mp hv with rfl | hv
      · exact hwnil
      · rcases List.mem_cons.mp hu with rfl | hu
        · exact absurd hstops hw
        · exact ih hu hv

/-- A round that is not cut short, in terms of the databases that are looked at. -/
theorem upgradePkg_eq {t : Session} (hremove : t.trans.remove = [])
    (hnew : lpkg.name ∉ t.trans.add.map Pkg.name) :
    let t' := upgradePkg handle enableDowngrade t lpkg
    let cs := acceptedFrom handle lpkg (searchedFor handle t lpkg)
    t'.trans.add = t.trans.add ++ (searchedFor handle t lpkg).flatMap
        (addedAt handle enableDowngrade t.trans.add lpkg) ∧
      t'.trans.remove = [] ∧
      t'.fields = cs.foldl (fun fields c =>
        (takeReplacer t.trans.add lpkg c.1 c.2 fields).2) t.fields := by
  intro t' cs
  have hround : t' = upgradeFrom handle enableDowngrade lpkg handle.dbsSync t := by
    have hremove' : ¬ (pkgFind t.trans.remove lpkg.name).isSome := by simp [hremove]
    have hnew' : ¬ (pkgFind t.trans.add lpkg.name).isSome := fun h => hnew (pkgFind_isSome.mp h)
    show upgradePkg handle enableDowngrade t lpkg = _
    rw [upgradePkg, if_neg hremove', if_neg hnew']
  obtain ⟨htrans, hfields⟩ := @upgradeFrom_eq handle enableDowngrade lpkg handle.dbsSync t
  rw [hround, htrans, hfields, foldl_takeReplacers]
  exact ⟨rfl, hremove, rfl⟩

theorem upgradePkg_of_target {t : Session} (hin : lpkg.name ∈ t.trans.add.map Pkg.name) :
    upgradePkg handle enableDowngrade t lpkg = t := by
  unfold upgradePkg
  split_ifs with _ hadd
  · rfl
  · rfl
  · exact absurd (pkgFind_isSome.mpr hin) hadd

/-- A replacer that is to get the package into its list is a target at the end of the round. -/
theorem target_of_replacerAddr {t : Session} {c : Db × Pkg}
    (hc : c ∈ acceptedFrom handle lpkg (searchedFor handle t lpkg))
    (haddr : replacerAddr t.trans.add c.1 c.2 = some addr) :
    ∃ p ∈ t.trans.add ++ (searchedFor handle t lpkg).flatMap
      (addedAt handle enableDowngrade t.trans.add lpkg), p.addr = addr := by
  obtain ⟨u, hu, haccepted, -⟩ := mem_acceptedFrom.mp hc
  unfold replacerAddr at haddr
  cases hfind : pkgFind t.trans.add c.2.name with
  | none =>
    have hfresh : c.2 ∈ freshReplacers handle t.trans.add lpkg u :=
      mem_freshReplacers.mpr ⟨haccepted, pkgFind_eq_none.mp hfind⟩
    have hadded : c.2 ∈ addedAt handle enableDowngrade t.trans.add lpkg u := by
      rw [addedAt, if_pos (List.ne_nil_of_mem hfresh)]
      exact hfresh
    refine ⟨c.2, List.mem_append_right _ (List.mem_flatMap.mpr ⟨u, hu, hadded⟩), ?_⟩
    simpa [hfind] using haddr
  | some tpkg =>
    simp only [hfind] at haddr
    by_cases horigin : tpkg.origin ≠ .syncdb c.1.treename
    · simp [horigin] at haddr
    · rw [if_neg horigin] at haddr
      exact ⟨tpkg, List.mem_append_left _ (pkgFind_eq_some hfind).1, Option.some.inj haddr⟩

/-- **A round keeps the invariant.**  New targets come from the databases, and the package of the
round is the only one that goes on a `removes` list. -/
theorem Upgrading.step {visited : List Pkg} {t : Session} (h : Upgrading handle visited t)
    (enableDowngrade : Bool) (lpkg : Pkg) :
    Upgrading handle (visited ++ [lpkg]) (upgradePkg handle enableDowngrade t lpkg) := by
  by_cases hin : lpkg.name ∈ t.trans.add.map Pkg.name
  · rw [upgradePkg_of_target hin]
    exact ⟨h.targets, h.remove, fun addr r hr =>
      (h.removes addr r hr).imp_left (List.mem_append_left _)⟩
  obtain ⟨hadd, hremove, hfields⟩ := @upgradePkg_eq handle enableDowngrade lpkg t h.remove hin
  refine ⟨fun p hp => ?_, hremove, fun addr r hr => ?_⟩
  · rw [hadd] at hp
    rcases List.mem_append.mp hp with hp | hp
    · exact h.targets p hp
    · obtain ⟨u, hu, hp⟩ := List.mem_flatMap.mp hp
      exact addedAt_targets hu hp
  · rw [hfields] at hr
    rw [hadd]
    rcases (foldl_takeReplacer_removes _).1 r hr with ⟨rfl, c, hc, haddr⟩ | hr
    · exact ⟨List.mem_append_right _ (List.mem_singleton_self _),
        target_of_replacerAddr hc haddr⟩
    · obtain ⟨hvisited, p, hp, haddr⟩ := h.removes addr r hr
      exact ⟨List.mem_append_left _ hvisited, p, List.mem_append_left _ hp, haddr⟩

/-- What a round does to the `removes` lists. -/
structure Replaced (handle : Handle) (t t' : Session) (lpkg : Pkg) : Prop where
  sub : ∀ addr, ∀ r ∈ (t'.fields addr).removes,
    r = lpkg ∧ (∃ u ∈ searchedFor handle t lpkg, ∃ spkg ∈ accepted handle lpkg u,
      replacerAddr t.trans.add u.sdb spkg = some addr) ∨ r ∈ (t.fields addr).removes
  mem : ∀ u ∈ searchedFor handle t lpkg, ∀ spkg ∈ accepted handle lpkg u, ∀ addr,
    replacerAddr t.trans.add u.sdb spkg = some addr → lpkg ∈ (t'.fields addr).removes
  old : ∀ p ∈ t.trans.add, (t.fields p.addr).removes ⊆ (t'.fields p.addr).removes

/-- Packages of the sync databases are different objects. -/
def DistinctAddrs (handle : Handle) : Prop :=
  ∀ p ∈ handle.dbsSync.flatMap Db.pkgcache, ∀ q ∈ handle.dbsSync.flatMap Db.pkgcache,
    p.addr = q.addr → p = q

theorem upgradePkg_replaced (haddrs : DistinctAddrs handle) {visited : List Pkg} {t : Session}
    (h : Upgrading handle visited t) (hnew : lpkg.name ∉ t.trans.add.map Pkg.name) :
    Replaced handle t (upgradePkg handle enableDowngrade t lpkg) lpkg := by
  obtain ⟨-, -, hfields⟩ := @upgradePkg_eq handle enableDowngrade lpkg t h.remove hnew
  refine ⟨fun addr r hr => ?_, fun u hu spkg hspkg addr haddr => ?_, fun p hp => ?_⟩
  · rw [hfields] at hr
    refine ((foldl_takeReplacer_removes _).1 r hr).imp_left ?_
    rintro ⟨heq, c, hc, haddr⟩
    obtain ⟨u, hu, haccepted, hsdb⟩ := mem_acceptedFrom.mp hc
    exact ⟨heq, u, hu, c.2, haccepted, hsdb ▸ haddr⟩
  · rw [hfields]
    exact (foldl_takeReplacer_removes _).2.1
      (Or.inl ⟨(u.sdb, spkg), mem_acceptedFrom.mpr ⟨u, hu, hspkg, rfl⟩, haddr⟩)
  · rw [hfields]
    refine (foldl_takeReplacer_removes _).2.2 fun c hc hfind heq => ?_
    obtain ⟨u, hu, haccepted, -⟩ := mem_acceptedFrom.mp hc
    have hcache : c.2 ∈ handle.dbsSync.flatMap Db.pkgcache :=
      List.mem_flatMap.mpr ⟨u.sdb, searchedFor_sdb hu, (accepted_spec haccepted).1⟩
    have hsame : c.2 = p := haddrs c.2 hcache p (h.targets p hp) heq
    exact pkgFind_eq_none.mp hfind (hsame ▸ List.mem_map_of_mem hp)

/-- A round goes wrong in one of the two ways. -/
theorem exclusive_of_notBoth (haddrs : DistinctAddrs handle) {visited : List Pkg} {t : Session}
    (h : Upgrading handle visited t) (hnew : lpkg.name ∉ t.trans.add.map Pkg.name)
    (hboth : NotBoth (upgradePkg handle enableDowngrade t lpkg)) :
    Exclusive handle enableDowngrade t lpkg := by
  obtain ⟨hadd, -, -⟩ := @upgradePkg_eq handle enableDowngrade lpkg t h.remove hnew
  have hreplaced : Replaced handle t (upgradePkg handle enableDowngrade t lpkg) lpkg :=
    upgradePkg_replaced haddrs h hnew
  have htargets : ∀ u ∈ searchedFor handle t lpkg,
      ∀ spkg ∈ addedAt handle enableDowngrade t.trans.add lpkg u,
        spkg ∈ (upgradePkg handle enableDowngrade t lpkg).trans.add := by
    intro u hu spkg hspkg
    rw [hadd]
    exact List.mem_append_right _ (List.mem_flatMap.mpr ⟨u, hu, hspkg⟩)
  constructor
  · intro u hu spkg hfresh
    have htarget := htargets u hu spkg (by rwa [addedAt, if_pos (List.ne_nil_of_mem hfresh)])
    obtain ⟨haccepted, hout⟩ := mem_freshReplacers.mp hfresh
    have hname := List.mem_map_of_mem htarget (f := Pkg.name)
    refine ⟨fun heq => ?_, fun p hp r hr heq => ?_⟩
    · have hself : replacerAddr t.trans.add u.sdb spkg = some spkg.addr := by
        simp [replacerAddr, pkgFind_eq_none.mpr hout]
      exact hboth spkg htarget lpkg (hreplaced.mem u hu spkg haccepted _ hself) (heq ▸ hname)
    · refine hboth p ?_ r (hreplaced.old p hp hr) (heq ▸ hname)
      rw [hadd]
      exact List.mem_append_left _ hp
  · rintro ⟨u, hu, hnil, hliteral⟩ v hv spkg haccepted tpkg htpkg horigin
    obtain ⟨lit, hlit⟩ := List.exists_mem_of_ne_nil _ hliteral
    have htarget := htargets u hu lit (by rwa [addedAt, if_neg (not_not_intro hnil)])
    obtain ⟨-, hname, -⟩ := literalUpgrade_spec hlit
    have haddr : replacerAddr t.trans.add v.sdb spkg = some tpkg.addr := by
      simp [replacerAddr, Option.mem_def.mp htpkg, horigin]
    refine hboth tpkg ?_ lpkg (hreplaced.mem v hv spkg haccepted _ haddr)
      (hname ▸ List.mem_map_of_mem htarget)
    rw [hadd]
    exact List.mem_append_left _ (pkgFind_eq_some (Option.mem_def.mp htpkg)).1

/-- A package that is both replaced and upgraded stays so. -/
theorem notBoth_of_upgradePkg (haddrs : DistinctAddrs handle) {visited : List Pkg} {t : Session}
    (h : Upgrading handle visited t)
    (hboth : NotBoth (upgradePkg handle enableDowngrade t lpkg)) : NotBoth t := by
  by_cases hin : lpkg.name ∈ t.trans.add.map Pkg.name
  · rwa [upgradePkg_of_target hin] at hboth
  obtain ⟨hadd, -, -⟩ := @upgradePkg_eq handle enableDowngrade lpkg t h.remove hin
  have hreplaced : Replaced handle t (upgradePkg handle enableDowngrade t lpkg) lpkg :=
    upgradePkg_replaced haddrs h hin
  intro p hp r hr hname
  refine hboth p ?_ r (hreplaced.old p hp hr) ?_
  · rw [hadd]
    exact List.mem_append_left _ hp
  · rw [hadd, List.map_append]
    exact List.mem_append_left _ hname

/-- A round that is exclusive keeps replaced and upgraded packages apart. -/
theorem notBoth_upgradePkg (haddrs : DistinctAddrs handle) {visited : List Pkg} {t : Session}
    (h : Upgrading handle visited t) (hvisited : lpkg.name ∉ visited.map Pkg.name)
    (hnew : lpkg.name ∉ t.trans.add.map Pkg.name) (hboth : NotBoth t)
    (hexclusive : Exclusive handle enableDowngrade t lpkg) :
    NotBoth (upgradePkg handle enableDowngrade t lpkg) := by
  obtain ⟨hadd, -, -⟩ := @upgradePkg_eq handle enableDowngrade lpkg t h.remove hnew
  have hreplaced : Replaced handle t (upgradePkg handle enableDowngrade t lpkg) lpkg :=
    upgradePkg_replaced haddrs h hnew
  -- what was replaced before is not the package of this round, and its replacer is a target
  have hold : ∀ addr, ∀ r ∈ (t.fields addr).removes, r.name ≠ lpkg.name ∧
      ∃ p ∈ t.trans.add, r ∈ (t.fields p.addr).removes := by
    intro addr r hr
    obtain ⟨hmem, p, hp, rfl⟩ := h.removes addr r hr
    exact ⟨fun heq => hvisited (heq ▸ List.mem_map_of_mem hmem), p, hp, hr⟩
  intro p _ r hr hname
  rw [hadd, List.map_append, List.mem_append] at hname
  rcases hname with hname | hname
  · rcases hreplaced.sub _ r hr with ⟨rfl, -⟩ | hr
    · exact hnew hname
    · obtain ⟨-, q, hq, hr⟩ := hold _ r hr
      exact hboth q hq r hr hname
  obtain ⟨spkg, hspkg, hsame⟩ := List.mem_map.mp hname
  obtain ⟨u, hu, hadded⟩ := List.mem_flatMap.mp hspkg
  rcases mem_addedAt hadded with hfresh | ⟨hnil, hliteral⟩
  · obtain ⟨hself, hothers⟩ := hexclusive.fresh u hu spkg hfresh
    rcases hreplaced.sub _ r hr with ⟨rfl, -⟩ | hr
    · exact hself hsame
    · obtain ⟨-, q, hq, hr⟩ := hold _ r hr
      exact hothers q hq r hr hsame.symm
  · obtain ⟨hcache, hliteralName, -⟩ := literalUpgrade_spec hliteral
    rcases hreplaced.sub _ r hr with ⟨-, v, hv, rpkg, haccepted, haddr⟩ | hr
    · -- no replacer is new, so this one was a target of its database before
      have hstops : stopsAt handle t.trans.add lpkg u :=
        Or.inr (hliteralName ▸ List.mem_map_of_mem hcache)
      have hvnil := freshReplacers_eq_nil hu hv hstops hnil
      have hexcluded := hexclusive.literal ⟨u, hu, hnil, List.ne_nil_of_mem hliteral⟩ v hv rpkg
        haccepted
      unfold replacerAddr at haddr
      cases hfind : pkgFind t.trans.add rpkg.name with
      | none =>
        have hmem := mem_freshReplacers.mpr ⟨haccepted, pkgFind_eq_none.mp hfind⟩
        rw [hvnil] at hmem
        exact absurd hmem List.not_mem_nil
      | some tpkg => simp [hfind, hexcluded tpkg (Option.mem_def.mpr hfind)] at haddr
    · exact (hold _ r hr).1 (hsame.symm.trans hliteralName)

/-- Rounds for some packages in turn. -/
theorem foldl_upgradePkg_notBoth (haddrs : DistinctAddrs handle) (enableDowngrade : Bool)
    {s : Session} (hstart : Upgrading handle [] s) (hremoves : NotBoth s) (pkgs : List Pkg)
    (hunique : (pkgs.map Pkg.name).Nodup) :
    Upgrading handle pkgs (pkgs.foldl (upgradePkg handle enableDowngrade) s) ∧
      (NotBoth (pkgs.foldl (upgradePkg handle enableDowngrade) s) ↔
        ∀ before lpkg after, pkgs = before ++ lpkg :: after →
          lpkg.name ∉ (before.foldl (upgradePkg handle enableDowngrade) s).trans.add.map
            Pkg.name →
          Exclusive handle enableDowngrade
            (before.foldl (upgradePkg handle enableDowngrade) s) lpkg) := by
  induction pkgs using List.reverseRecOn with
  | nil => exact ⟨hstart, by simp [hremoves]⟩
  | append_singleton pkgs lpkg ih =>
    rw [List.map_append, List.nodup_append] at hunique
    obtain ⟨hunique, -, hvisited⟩ := hunique
    obtain ⟨hrun, hiff⟩ := ih hunique
    rw [List.foldl_concat]
    refine ⟨hrun.step enableDowngrade lpkg, ?_⟩
    rw [Splits.forall_concat, ← hiff]
    constructor
    · intro hboth
      exact ⟨notBoth_of_upgradePkg haddrs hrun hboth,
        fun hnew => exclusive_of_notBoth haddrs hrun hnew hboth⟩
    · rintro ⟨hbefore, hlast⟩
      by_cases hin : lpkg.name ∈
          (pkgs.foldl (upgradePkg handle enableDowngrade) s).trans.add.map Pkg.name
      · rwa [upgradePkg_of_target hin]
      · refine notBoth_upgradePkg haddrs hrun ?_ hin hbefore (hlast hin)
        intro hname
        exact hvisited _ hname _ (List.mem_singleton_self _) rfl

/-- **Replaced or upgraded.**  From empty target lists a system upgrade keeps the two apart if and
only if every round for a package that is not a target yet is exclusive.  The step is an equivalence
as well, since what one round has mixed up no later round takes back. -/
theorem sysupgrade_exclusive_iff (hlocal : DistinctNames handle.dbLocal.pkgcache)
    (haddrs : DistinctAddrs handle) (enableDowngrade : Bool) {s : Session}
    (hstate : s.trans.state = .initialized) (hadd : s.trans.add = [])
    (hremove : s.trans.remove = []) (hremoves : ∀ addr, (s.fields addr).removes = []) :
    NotBoth (sysupgrade handle enableDowngrade s).s ↔
      ∀ before lpkg after, handle.dbLocal.pkgcache = before ++ lpkg :: after →
        let t := before.foldl (upgradePkg handle enableDowngrade) s
        lpkg.name ∉ t.trans.add.map Pkg.name → Exclusive handle enableDowngrade t lpkg := by
  have hstart : Upgrading handle [] s :=
    ⟨by simp [hadd], hremove, fun addr r hr => by simp [hremoves] at hr⟩
  have hrun : (sysupgrade handle enableDowngrade s).s =
      handle.dbLocal.pkgcache.foldl (upgradePkg handle enableDowngrade) s := by
    rw [sysupgrade, if_neg (not_not_intro hstate)]
  rw [hrun]
  exact (foldl_upgradePkg_notBoth haddrs enableDowngrade hstart (by simp [NotBoth, hadd])
    handle.dbLocal.pkgcache hlocal).2

end

/-! ## A replacer of two packages -/

/-- `a` and `b` are installed; in the repository `new` replaces them both. -/
def replacingHandle (bVersion : CString) : Handle :=
  { dbLocal :=
      { treename := str "local"
        pkgcache := [
          { name := str "a"
            version := str "1" },
          { addr := 1
            name := str "b"
            version := str "1" }] }
    dbsSync := [
      { treename := str "core"
        pkgcache := [
          { addr := 2
            name := str "b"
            version := bVersion
            origin := .syncdb (str "core") },
          { addr := 3
            name := str "new"
            version := str "1"
            replaces := [{ name := str "a" }, { name := str "b" }]
            origin := .syncdb (str "core") }] }]
    fnmatch := fun _ _ => false
    answer := fun _ => 1 }

/-- A new transaction. -/
def newSession : Session := { trans := { flags := {}, state := .initialized } }

theorem sysupgrade_exclusive_iff_same_version :
    NotBoth (sysupgrade (replacingHandle (str "1")) false newSession).s ↔
      ∀ before lpkg after,
        (replacingHandle (str "1")).dbLocal.pkgcache = before ++ lpkg :: after →
          let t := before.foldl (upgradePkg (replacingHandle (str "1")) false) newSession
          lpkg.name ∉ t.trans.add.map Pkg.name →
            Exclusive (replacingHandle (str "1")) false t lpkg := by
  refine sysupgrade_exclusive_iff (by unfold DistinctNames; decide) ?_ false rfl rfl rfl
    fun _ => rfl
  unfold DistinctAddrs
  decide

/-- `new` is a target when `b` is visited, and `b` 2 is taken all the same. -/
theorem sysupgrade_replaces_and_upgrades :
    DistinctNames (replacingHandle (str "2")).dbLocal.pkgcache ∧
      (∀ db ∈ (replacingHandle (str "2")).dbsSync, DistinctNames db.pkgcache) ∧
      DistinctAddrs (replacingHandle (str "2")) ∧
      ¬ NotBoth (sysupgrade (replacingHandle (str "2")) false newSession).s := by
  unfold DistinctNames DistinctAddrs NotBoth
  decide +kernel

end Alpm.Sync
