import Alpm.Sync.Targets

/-!
# What a system upgrade adds

For one installed package `alpm_sync_sysupgrade` looks at the databases in turn, up to the first
that has an accepted replacer or a package of the same name.

The loop is written with fields that it changes as it goes: the targets, the `removes` lists and the
number of questions.  `upgradeFrom_eq` says what a round does in terms of the databases that it
looks at, each paired with the number of the first question about its replacers (`Searched`).  Which
databases these are, which replacers are accepted and which literal is taken are then functions of
the databases and the answers, and the fields after the round are a fold over them.

From this form follow the reasons for which a package becomes a target (`AddedFor`,
`sysupgrade_adds`): no earlier database has the name of the installed package, and either the user
has accepted the package as a replacer, or it is a newer version of the installed one.  It is also
where `Alpm.Sync.Replacing` starts from.
-/

namespace Alpm.Sync

/-! ## A round in terms of the databases -/

section

variable (handle : Handle) (enableDowngrade : Bool) (add : List Pkg) (lpkg : Pkg)

/-- The packages that the user is asked about, as replacements for a package. -/
def replaceQuestions (pkgs : List Pkg) : List Pkg :=
  pkgs.filter fun spkg => spkg.replaces.any (depcmpLiteral lpkg) &&
    !(handle.pkgShouldIgnore spkg || handle.pkgShouldIgnore lpkg)

/-- The packages that the user accepts, when the first question has the number `asked`. -/
def acceptedOf : List Pkg → ℕ → List Pkg
  | [], _ => []
  | spkg :: pkgs, asked =>
    if handle.answer asked = 0 then acceptedOf pkgs (asked + 1)
    else spkg :: acceptedOf pkgs (asked + 1)

/-- A sync database with the number of the first question about its replacers. -/
structure Searched where
  sdb : Db
  asked : ℕ

/-- The databases for upgrades, if all of them are searched. -/
def upgradeDbs : List Db → ℕ → List Searched
  | [], _ => []
  | sdb :: dbs, asked =>
    if sdb.usageUpgrade then
      ⟨sdb, asked⟩ ::
        upgradeDbs dbs (asked + (replaceQuestions handle lpkg sdb.pkgcache).length)
    else upgradeDbs dbs asked

/-- The replacers of a database that the user accepts. -/
def accepted (u : Searched) : List Pkg :=
  acceptedOf handle (replaceQuestions handle lpkg u.sdb.pkgcache) u.asked

/-- Those of them that are not targets yet. -/
def freshReplacers (u : Searched) : List Pkg :=
  (accepted handle lpkg u).filter fun spkg => (pkgFind add spkg.name).isNone

/-- The package of the same name, if it is taken. -/
def literalUpgrade (u : Searched) : List Pkg :=
  ((pkgFind u.sdb.pkgcache lpkg.name).filter (checkLiteral handle lpkg · enableDowngrade)).toList

/-- The search ends with a database. -/
def stopsAt (u : Searched) : Prop :=
  freshReplacers handle add lpkg u ≠ [] ∨ lpkg.name ∈ u.sdb.pkgcache.map Pkg.name

instance : DecidablePred (stopsAt handle add lpkg) :=
  fun _ => inferInstanceAs (Decidable (_ ∨ _))

/-- The databases up to the first that ends the search. -/
def lookedAt : List Searched → List Searched
  | [] => []
  | u :: us => u :: if stopsAt handle add lpkg u then [] else lookedAt us

/-- The targets that come from a database that is looked at. -/
def addedAt (u : Searched) : List Pkg :=
  if freshReplacers handle add lpkg u ≠ [] then freshReplacers handle add lpkg u
  else literalUpgrade handle enableDowngrade lpkg u

/-- What the accepted replacers of a database leave in the fields. -/
def takeReplacers (fields : ℕ → PkgFields) (u : Searched) : ℕ → PkgFields :=
  (accepted handle lpkg u).foldl (fun fields spkg => (takeReplacer add lpkg u.sdb spkg fields).2)
    fields

end

section

variable {handle : Handle} {enableDowngrade : Bool} {add : List Pkg} {lpkg : Pkg}

/-- `check_replacers` takes what the user accepts. -/
theorem checkReplacers_eq (sdb : Db) (pkgs : List Pkg) (fields : ℕ → PkgFields) (asked : ℕ) :
    let spkgs := acceptedOf handle (replaceQuestions handle lpkg pkgs) asked
    checkReplacers handle add lpkg sdb pkgs fields asked =
      (spkgs.filter fun spkg => (pkgFind add spkg.name).isNone,
        spkgs.foldl (fun fields spkg => (takeReplacer add lpkg sdb spkg fields).2) fields,
        asked + (replaceQuestions handle lpkg pkgs).length) := by
  have hnew : ∀ spkg fields, (takeReplacer add lpkg sdb spkg fields).1 =
      (pkgFind add spkg.name).isNone := by
    intro spkg fields
    unfold takeReplacer
    cases pkgFind add spkg.name with
    | none => rfl
    | some tpkg =>
      dsimp only
      split_ifs <;> rfl
  induction pkgs generalizing fields asked with
  | nil => rfl
  | cons spkg pkgs ih =>
    rw [checkReplacers]
    by_cases hasks : spkg.replaces.any (depcmpLiteral lpkg) &&
        !(handle.pkgShouldIgnore spkg || handle.pkgShouldIgnore lpkg)
    · have hquestions : replaceQuestions handle lpkg (spkg :: pkgs) =
          spkg :: replaceQuestions handle lpkg pkgs := List.filter_cons_of_pos hasks
      have hasks' : (!spkg.replaces.any (depcmpLiteral lpkg) || handle.pkgShouldIgnore spkg ||
          handle.pkgShouldIgnore lpkg) = false := by
        simp only [Bool.and_eq_true, Bool.not_eq_true', Bool.or_eq_false_iff] at hasks ⊢
        simp [hasks]
      have hcount : asked + (replaceQuestions handle lpkg pkgs).length + 1 =
          asked + 1 + (replaceQuestions handle lpkg pkgs).length := by omega
      simp only [hquestions, hasks', acceptedOf, List.length_cons, ih]
      by_cases hanswer : handle.answer asked = 0
      · simp [hanswer, hcount, ← Nat.add_assoc]
      · simp [hanswer, hcount, hnew, List.filter_cons, ← Nat.add_assoc]
    · have hquestions : replaceQuestions handle lpkg (spkg :: pkgs) =
          replaceQuestions handle lpkg pkgs := List.filter_cons_of_neg hasks
      have hasks' : (!spkg.replaces.any (depcmpLiteral lpkg) || handle.pkgShouldIgnore spkg ||
          handle.pkgShouldIgnore lpkg) = true := by
        simp only [Bool.and_eq_true, Bool.not_eq_true', Bool.or_eq_false_iff] at hasks
        simp only [Bool.or_eq_true, Bool.not_eq_true']
        by_contra hnot
        push Not at hnot
        exact hasks (by simpa [and_assoc] using hnot)
      simp only [hquestions, hasks', if_true, ih]

theorem upgradeFrom_cons {sdb : Db} (husage : sdb.usageUpgrade) (dbs : List Db) (s : Session) :
    upgradeFrom handle enableDowngrade lpkg (sdb :: dbs) s =
      let fresh := freshReplacers handle s.trans.add lpkg ⟨sdb, s.asked⟩
      let t := { s with
        fields := takeReplacers handle s.trans.add lpkg s.fields ⟨sdb, s.asked⟩
        asked := s.asked + (replaceQuestions handle lpkg sdb.pkgcache).length }
      if fresh ≠ [] then { t with trans := { s.trans with add := s.trans.add ++ fresh } }
      else match pkgFind sdb.pkgcache lpkg.name with
        | some spkg =>
          if checkLiteral handle lpkg spkg enableDowngrade then
            { t with trans := { s.trans with add := s.trans.add ++ [spkg] } }
          else t
        | none => upgradeFrom handle enableDowngrade lpkg dbs t := by
  rw [upgradeFrom]
  simp only [husage, Bool.not_true, checkReplacers_eq]
  rw [if_neg Bool.false_ne_true]
  rfl

/-- **A round of the search for one package** in terms of the databases it looks at: the targets
that come from each of them, the lists that the replacers leave, and the questions that were asked.
-/
theorem upgradeFrom_eq (dbs : List Db) (s : Session) :
    let looked := lookedAt handle s.trans.add lpkg (upgradeDbs handle lpkg dbs s.asked)
    let s' := upgradeFrom handle enableDowngrade lpkg dbs s
    s'.trans = { s.trans with
        add := s.trans.add ++
          looked.flatMap (addedAt handle enableDowngrade s.trans.add lpkg) } ∧
      s'.fields = looked.foldl (takeReplacers handle s.trans.add lpkg) s.fields := by
  induction dbs generalizing s with
  | nil => simp [upgradeFrom, upgradeDbs, lookedAt]
  | cons sdb dbs ih =>
    by_cases husage : sdb.usageUpgrade
    · rw [upgradeFrom_cons husage, upgradeDbs, if_pos husage, lookedAt]
      dsimp only
      by_cases hfresh : freshReplacers handle s.trans.add lpkg ⟨sdb, s.asked⟩ = []
      · rw [if_neg (not_not_intro hfresh)]
        cases hfind : pkgFind sdb.pkgcache lpkg.name with
        | none =>
          have hgoes : ¬ stopsAt handle s.trans.add lpkg ⟨sdb, s.asked⟩ := by
            rintro (h | h)
            · exact h hfresh
            · exact pkgFind_eq_none.mp hfind h
          have hadded : addedAt handle enableDowngrade s.trans.add lpkg ⟨sdb, s.asked⟩ = [] := by
            simp [addedAt, hfresh, literalUpgrade, hfind]
          rw [if_neg hgoes]
          simpa [hadded] using ih _
        | some spkg =>
          have hstops : stopsAt handle s.trans.add lpkg ⟨sdb, s.asked⟩ :=
            Or.inr (pkgFind_isSome.mp (by rw [hfind]; rfl))
          rw [if_pos hstops]
          have hadded : addedAt handle enableDowngrade s.trans.add lpkg ⟨sdb, s.asked⟩ =
              if checkLiteral handle lpkg spkg enableDowngrade then [spkg] else [] := by
            simp only [addedAt, hfresh, literalUpgrade, hfind, Option.filter_some]
            split_ifs <;> simp_all
          simp only [List.flatMap_singleton, List.foldl_cons, List.foldl_nil, hadded]
          split_ifs
          · exact ⟨rfl, rfl⟩
          · exact ⟨by rw [List.append_nil], rfl⟩
      · have hstops : stopsAt handle s.trans.add lpkg ⟨sdb, s.asked⟩ := Or.inl hfresh
        have hadded : addedAt handle enableDowngrade s.trans.add lpkg ⟨sdb, s.asked⟩ =
            freshReplacers handle s.trans.add lpkg ⟨sdb, s.asked⟩ := if_pos hfresh
        rw [if_pos hfresh, if_pos hstops]
        simp [hadded]
    · have hskip : upgradeFrom handle enableDowngrade lpkg (sdb :: dbs) s =
          upgradeFrom handle enableDowngrade lpkg dbs s := by
        rw [upgradeFrom]
        simp [husage]
      rw [hskip, upgradeDbs, if_neg husage]
      exact ih s

/-! ## Where the targets come from -/

theorem mem_of_mem_acceptedOf {pkgs : List Pkg} {asked : ℕ} {spkg : Pkg}
    (h : spkg ∈ acceptedOf handle pkgs asked) : spkg ∈ pkgs := by
  induction pkgs generalizing asked with
  | nil => exact h
  | cons pkg pkgs ih =>
    unfold acceptedOf at h
    split_ifs at h
    · exact List.mem_cons_of_mem _ (ih h)
    · rcases List.mem_cons.mp h with rfl | h
      · exact List.mem_cons_self ..
      · exact List.mem_cons_of_mem _ (ih h)

/-- What an accepted replacer is. -/
theorem accepted_spec {u : Searched} {spkg : Pkg} (h : spkg ∈ accepted handle lpkg u) :
    spkg ∈ u.sdb.pkgcache ∧ (∃ depend ∈ spkg.replaces, depcmpLiteral lpkg depend) ∧
      handle.pkgShouldIgnore spkg = false ∧ handle.pkgShouldIgnore lpkg = false := by
  obtain ⟨hmem, hasks⟩ := List.mem_filter.mp (mem_of_mem_acceptedOf h)
  simp only [Bool.and_eq_true, Bool.not_eq_true', Bool.or_eq_false_iff, List.any_eq_true]
    at hasks
  exact ⟨hmem, hasks.1, hasks.2⟩

theorem literalUpgrade_spec {u : Searched} {spkg : Pkg}
    (h : spkg ∈ literalUpgrade handle enableDowngrade lpkg u) :
    spkg ∈ u.sdb.pkgcache ∧ spkg.name = lpkg.name ∧
      checkLiteral handle lpkg spkg enableDowngrade := by
  obtain ⟨hfind, hcheck⟩ := Option.filter_eq_some_iff.mp (Option.mem_toList.mp h)
  exact ⟨(pkgFind_eq_some hfind).1, (pkgFind_eq_some hfind).2, hcheck⟩

/-- Without downgrades a literal is only taken if it is newer. -/
theorem checkLiteral_newer {spkg : Pkg} (h : checkLiteral handle lpkg spkg false) :
    0 < pkgVercmp spkg.version lpkg.version ∧
      handle.pkgShouldIgnore spkg = false ∧ handle.pkgShouldIgnore lpkg = false := by
  unfold checkLiteral pkgCompareVersions at h
  dsimp only at h
  split_ifs at h with hnewer holder
  · simp only [Bool.not_eq_true', Bool.or_eq_false_iff] at h
    exact ⟨hnewer, h⟩
  · exact holder.2.elim

/-- The databases for upgrades are searched in their order. -/
theorem map_sdb_upgradeDbs (dbs : List Db) (asked : ℕ) :
    (upgradeDbs handle lpkg dbs asked).map Searched.sdb = dbs.filter Db.usageUpgrade := by
  induction dbs generalizing asked with
  | nil => rfl
  | cons sdb dbs ih =>
    unfold upgradeDbs
    by_cases husage : sdb.usageUpgrade
    · rw [if_pos husage, List.map_cons, ih, List.filter_cons_of_pos husage]
    · rw [if_neg husage, ih, List.filter_cons_of_neg husage]

theorem lookedAt_spec {us : List Searched} {u : Searched}
    (h : u ∈ lookedAt handle add lpkg us) :
    ∃ before after, us = before ++ u :: after ∧ ∀ v ∈ before, ¬ stopsAt handle add lpkg v := by
  induction us with
  | nil => exact absurd h List.not_mem_nil
  | cons v us ih =>
    unfold lookedAt at h
    rcases List.mem_cons.mp h with rfl | h
    · exact ⟨[], us, rfl, by simp⟩
    · split_ifs at h with hstops
      · exact absurd h List.not_mem_nil
      · obtain ⟨before, after, rfl, hbefore⟩ := ih h
        exact ⟨v :: before, after, rfl, List.forall_mem_cons.mpr ⟨hstops, hbefore⟩⟩

theorem mem_addedAt {u : Searched} {spkg : Pkg}
    (h : spkg ∈ addedAt handle enableDowngrade add lpkg u) :
    spkg ∈ freshReplacers handle add lpkg u ∨
      freshReplacers handle add lpkg u = [] ∧
        spkg ∈ literalUpgrade handle enableDowngrade lpkg u := by
  unfold addedAt at h
  split_ifs at h with hfresh
  · exact Or.inl h
  · exact Or.inr ⟨not_not.mp hfresh, h⟩

variable (handle) in
/-- Why a system upgrade in the state `t` makes `spkg` a target when it visits `lpkg`: no
earlier database has the name of `lpkg`, and either the user has accepted `spkg` as a
replacer, or it is a newer version. -/
structure AddedFor (t : Session) (lpkg spkg : Pkg) : Prop where
  notRemoved : lpkg.name ∉ t.trans.remove.map Pkg.name
  notTarget : lpkg.name ∉ t.trans.add.map Pkg.name
  notIgnored : handle.pkgShouldIgnore spkg = false ∧ handle.pkgShouldIgnore lpkg = false
  source : ∃ before u after,
    upgradeDbs handle lpkg handle.dbsSync t.asked = before ++ u :: after ∧
      spkg ∈ u.sdb.pkgcache ∧ (∀ v ∈ before, lpkg.name ∉ v.sdb.pkgcache.map Pkg.name) ∧
      ((∃ depend ∈ spkg.replaces, depcmpLiteral lpkg depend) ∧ spkg ∈ accepted handle lpkg u ∨
        spkg.name = lpkg.name ∧ 0 < pkgVercmp spkg.version lpkg.version)

/-- What one round adds. -/
theorem upgradePkg_adds (t : Session) (lpkg : Pkg) :
    ∃ added, (upgradePkg handle false t lpkg).trans.add = t.trans.add ++ added ∧
      ∀ spkg ∈ added, AddedFor handle t lpkg spkg := by
  unfold upgradePkg
  split_ifs with hremove hadd
  · exact ⟨[], (List.append_nil _).symm, by simp⟩
  · exact ⟨[], (List.append_nil _).symm, by simp⟩
  refine ⟨_, by rw [(upgradeFrom_eq handle.dbsSync t).1], fun spkg hspkg => ?_⟩
  obtain ⟨u, hu, hadded⟩ := List.mem_flatMap.mp hspkg
  obtain ⟨before, after, hsplit, hbefore⟩ := lookedAt_spec hu
  have hnames : ∀ v ∈ before, lpkg.name ∉ v.sdb.pkgcache.map Pkg.name :=
    fun v hv hname => hbefore v hv (Or.inr hname)
  have hnotRemoved := fun hname => hremove (pkgFind_isSome.mpr hname)
  have hnotTarget := fun hname => hadd (pkgFind_isSome.mpr hname)
  rcases mem_addedAt hadded with hfresh | ⟨-, hliteral⟩
  · have hacc := (List.mem_filter.mp hfresh).1
    obtain ⟨hmem, hreplaces, hignored⟩ := accepted_spec hacc
    exact ⟨hnotRemoved, hnotTarget, hignored, before, u, after, hsplit, hmem, hnames,
      Or.inl ⟨hreplaces, hacc⟩⟩
  · obtain ⟨hmem, hname, hcheck⟩ := literalUpgrade_spec hliteral
    obtain ⟨hnewer, hignored⟩ := checkLiteral_newer hcheck
    exact ⟨hnotRemoved, hnotTarget, hignored, before, u, after, hsplit, hmem, hnames,
      Or.inr ⟨hname, hnewer⟩⟩

theorem foldl_upgradePkg_adds (pkgs : List Pkg) (s : Session) :
    ∃ added, (pkgs.foldl (upgradePkg handle false) s).trans.add = s.trans.add ++ added ∧
      ∀ spkg ∈ added, ∃ before lpkg after, pkgs = before ++ lpkg :: after ∧
        AddedFor handle (before.foldl (upgradePkg handle false) s) lpkg spkg := by
  induction pkgs using List.reverseRecOn with
  | nil => exact ⟨[], (List.append_nil _).symm, by simp⟩
  | append_singleton pkgs lpkg ih =>
    obtain ⟨added, hadded, hreasons⟩ := ih
    obtain ⟨round, hround, hreason⟩ := @upgradePkg_adds handle
      (pkgs.foldl (upgradePkg handle false) s) lpkg
    refine ⟨added ++ round, ?_, fun spkg hspkg => ?_⟩
    · rw [List.foldl_concat, hround, hadded, List.append_assoc]
    · rcases List.mem_append.mp hspkg with hspkg | hspkg
      · obtain ⟨before, l, after, rfl, hfor⟩ := hreasons spkg hspkg
        exact ⟨before, l, after ++ [lpkg], by simp, hfor⟩
      · exact ⟨pkgs, lpkg, [], rfl, hreason spkg hspkg⟩

variable (handle) in
/-- **A system upgrade without downgrades** only adds accepted replacers of installed packages, and
newer versions of them from the first database that has the name.  The state in the reason is the
one before the round in which the package became a target, because the answers depend on the
questions before. -/
theorem sysupgrade_adds (s : Session) :
    ∃ added, (sysupgrade handle false s).s.trans.add = s.trans.add ++ added ∧
      ∀ spkg ∈ added, ∃ before lpkg after,
        handle.dbLocal.pkgcache = before ++ lpkg :: after ∧
          AddedFor handle (before.foldl (upgradePkg handle false) s) lpkg spkg := by
  unfold sysupgrade
  split_ifs
  · exact ⟨[], (List.append_nil _).symm, by simp⟩
  · exact foldl_upgradePkg_adds handle.dbLocal.pkgcache s

end

end Alpm.Sync
