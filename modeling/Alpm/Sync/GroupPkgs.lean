import Alpm.General.Splits
import Alpm.Groupcache
import Alpm.Sync.Targets

/-!
# The packages of a group

`alpm_find_group_pkgs` collects the packages of a group from several databases.  One list,
`ignorelist`, serves three purposes in its nested loops: a package that is up to date goes on it, an
ignored one goes on it before the user is asked, and a name that is on it is passed over.  A name
that was taken without a question is *not* on it, so a later package of that name is looked at
again, and may even be asked about, before the last test keeps it out.

## 1.  The first occurrence decides

`Decided` is what the loops keep after any number of packages: what is selected is, for each name,
the first package of the group that bears it, if that package is not up to date and, when it is
ignored, the answer was to install it.  Since every name that was seen is either selected or on
`ignorelist`, no package of a lower database slips in for a name that was turned down.

## 2.  Who is asked

That alone does not say when the user is asked.  `askedPkgs` does, from the packages alone: the
ignored packages that are not up to date and come after no package of their name that was set
aside.  The `k`-th of them gets the `k`-th answer of the callback, and nothing else is asked
(`Asked`).  So in `findGroupPkgs_first` *the callback declines* is a statement about
`handle.answer`, and the log of the questions is only what it is shown to be.
-/

namespace Alpm.Sync

/-- The lists of `alpm_find_group_pkgs`, and the questions it has asked with their answers. -/
structure Selection where
  pkgs : List Pkg := []
  ignorelist : List Pkg := []
  questions : List (Pkg × Bool) := []

section

variable (handle : Handle) (trans : Option TransFlags)

/-- With the NEEDED flag, packages up to date are not reinstalled. -/
def skipsUpToDate (pkg : Pkg) : Bool :=
  trans.any (·.needed) &&
    (pkgFind handle.dbLocal.pkgcache pkg.name).any fun installed =>
      pkgCompareVersions pkg installed = 0

/-- The last step of the inner loop. -/
def Selection.take (sel : Selection) (pkg : Pkg) : Selection :=
  if (pkgFind sel.pkgs pkg.name).isNone then { sel with pkgs := sel.pkgs ++ [pkg] } else sel

/-- The body of the inner loop.  A package whose name was ignored before is passed over; one that is
up to date is ignored, and one that the settings ignore is asked about. -/
def Selection.consider (sel : Selection) (pkg : Pkg) : Selection :=
  if (pkgFind sel.ignorelist pkg.name).isSome then sel
  else if skipsUpToDate handle trans pkg then { sel with ignorelist := sel.ignorelist ++ [pkg] }
  else if handle.pkgShouldIgnore pkg then
    let install : Bool := handle.answer sel.questions.length ≠ 0
    let sel := { sel with
      ignorelist := sel.ignorelist ++ [pkg]
      questions := sel.questions ++ [(pkg, install)] }
    if !install then sel else sel.take pkg
  else sel.take pkg

/-- `alpm_find_group_pkgs`. -/
def findGroupPkgs (dbs : List Groupcache.Db) (name : CString) : Selection :=
  dbs.foldl (fun sel db =>
    match Groupcache.dbGetGroup db name with
    | none => sel
    | some grp => grp.packages.foldl (Selection.consider handle trans) sel) {}

end

/-! ## The first occurrence -/

/-- The packages of the group in the databases, in order. -/
def occurrences (dbs : List Groupcache.Db) (name : CString) : List Pkg :=
  dbs.flatMap (Groupcache.members · name)

theorem findGroupPkgs_eq_foldl (handle : Handle) (trans : Option TransFlags)
    {dbs : List Groupcache.Db} (hdbs : ∀ db ∈ dbs, Groupcache.Reach db) (name : CString) :
    findGroupPkgs handle trans dbs name =
      (occurrences dbs name).foldl (Selection.consider handle trans) {} := by
  unfold findGroupPkgs occurrences
  generalize ({} : Selection) = sel
  induction dbs generalizing sel with
  | nil => rfl
  | cons db dbs ih =>
    obtain ⟨hdb, hdbs⟩ := List.forall_mem_cons.mp hdbs
    rw [List.foldl_cons, List.flatMap_cons, List.foldl_append, ih hdbs, ← hdb.dbGetGroup_packages]
    cases Groupcache.dbGetGroup db name with
    | none => rfl
    | some grp => rfl

section

variable {handle : Handle} {trans : Option TransFlags}

/-- The package is the first of its name, is not up to date, and if it is ignored the answer was to
install it. -/
def Chosen (handle : Handle) (trans : Option TransFlags) (seen : List Pkg)
    (questions : List (Pkg × Bool)) (pkg : Pkg) : Prop :=
  pkgFind seen pkg.name = some pkg ∧ skipsUpToDate handle trans pkg = false ∧
    (handle.pkgShouldIgnore pkg → (pkg, true) ∈ questions)

/-- What holds after the packages of a list were considered: those that were chosen are the first
ones of their names that may be, every name that was seen is decided, and no name was asked about
twice. -/
structure Decided (handle : Handle) (trans : Option TransFlags) (seen : List Pkg)
    (sel : Selection) : Prop where
  chosen : ∀ pkg, pkg ∈ sel.pkgs ↔ Chosen handle trans seen sel.questions pkg
  nodup : (sel.pkgs.map Pkg.name).Nodup
  asked : ∀ question ∈ sel.questions, question.1.name ∈ sel.ignorelist.map Pkg.name
  once : (sel.questions.map (·.1.name)).Nodup
  ignored : ∀ pkg ∈ sel.ignorelist, pkg.name ∈ seen.map Pkg.name
  /-- A name that was seen is taken or ignored. -/
  settled : ∀ pkg ∈ seen, pkg.name ∈ sel.pkgs.map Pkg.name ∨ pkg.name ∈ sel.ignorelist.map Pkg.name

theorem Chosen.mem {seen : List Pkg} {questions : List (Pkg × Bool)} {pkg : Pkg}
    (h : Chosen handle trans seen questions pkg) : pkg.name ∈ seen.map Pkg.name :=
  List.mem_map_of_mem (pkgFind_eq_some h.1).1

section

variable {seen : List Pkg} {sel : Selection} {pkg : Pkg}

/-- A package of a name that was seen decides nothing. -/
theorem Decided.again (h : Decided handle trans seen sel) (hseen : pkg.name ∈ seen.map Pkg.name) :
    Decided handle trans (seen ++ [pkg]) sel := by
  have hfind : ∀ name, pkgFind (seen ++ [pkg]) name = pkgFind seen name := by
    intro name
    rw [pkgFind_concat]
    by_cases hname : pkg.name = name
    · obtain ⟨first, hfirst⟩ := Option.isSome_iff_exists.mp (pkgFind_isSome.mpr hseen)
      rw [← hname, hfirst, Option.some_or]
    · rw [if_neg hname, Option.or_none]
  refine { h with
    chosen := fun pkg' => ?_
    ignored := fun pkg' hpkg' => ?_
    settled := fun pkg' hpkg' => ?_ }
  · rw [h.chosen, Chosen, Chosen, hfind]
  · rw [List.map_append]
    exact List.mem_append_left _ (h.ignored pkg' hpkg')
  · rcases List.mem_append.mp hpkg' with hpkg' | hpkg'
    · exact h.settled pkg' hpkg'
    · obtain ⟨first, hfirst, hname⟩ := List.mem_map.mp hseen
      rw [List.mem_singleton.mp hpkg', ← hname]
      exact h.settled first hfirst

theorem Decided.ignore (h : Decided handle trans seen sel) (hseen : pkg.name ∈ seen.map Pkg.name) :
    Decided handle trans seen { sel with ignorelist := sel.ignorelist ++ [pkg] } := by
  refine { h with
    asked := fun question hquestion => ?_
    ignored := fun pkg' hpkg' => ?_
    settled := fun pkg' hpkg' => ?_ }
  · rw [List.map_append]
    exact List.mem_append_left _ (h.asked question hquestion)
  · rcases List.mem_append.mp hpkg' with hpkg' | hpkg'
    · exact h.ignored pkg' hpkg'
    · rwa [List.mem_singleton.mp hpkg']
  · rw [List.map_append]
    exact (h.settled pkg' hpkg').imp_right (List.mem_append_left _)

/-- An answer about a package that is not the first of its name, or that was not to be installed,
changes nothing. -/
theorem Decided.ask (h : Decided handle trans seen sel) (hseen : pkg.name ∈ seen.map Pkg.name)
    (hignored : pkg.name ∉ sel.ignorelist.map Pkg.name) {install : Bool}
    (hchosen : Chosen handle trans seen (sel.questions ++ [(pkg, install)]) pkg ↔
      Chosen handle trans seen sel.questions pkg) :
    Decided handle trans seen { sel with
      ignorelist := sel.ignorelist ++ [pkg]
      questions := sel.questions ++ [(pkg, install)] } := by
  refine { h.ignore hseen with
    chosen := fun pkg' => ?_
    asked := fun question hquestion => ?_
    once := ?_ }
  · show pkg' ∈ sel.pkgs ↔ _
    rw [h.chosen]
    by_cases hpkg' : pkg' = pkg
    · rw [hpkg', hchosen]
    · simp [Chosen, hpkg']
  · rw [List.map_append]
    rcases List.mem_append.mp hquestion with hquestion | hquestion
    · exact List.mem_append_left _ (h.asked question hquestion)
    · rw [List.mem_singleton.mp hquestion]
      exact List.mem_append_right _ (List.mem_singleton_self _)
  · rw [List.map_append, List.nodup_append']
    refine ⟨h.once, List.nodup_singleton _, List.disjoint_singleton.mpr fun hmem => ?_⟩
    obtain ⟨question, hquestion, hname⟩ := List.mem_map.mp hmem
    have hasked := h.asked question hquestion
    rw [show question.1.name = pkg.name from hname] at hasked
    exact hignored hasked

/-- A name that was seen and not ignored is taken, and no question is asked about the package that
was taken. -/
theorem Decided.taken (h : Decided handle trans seen sel) (hseen : pkg.name ∈ seen.map Pkg.name)
    (hignored : pkg.name ∉ sel.ignorelist.map Pkg.name) :
    pkg.name ∈ sel.pkgs.map Pkg.name ∧ (handle.pkgShouldIgnore pkg → pkg ∉ sel.pkgs) := by
  obtain ⟨first, hfirst, hname⟩ := List.mem_map.mp hseen
  refine ⟨?_, fun hignore hpkg => ?_⟩
  · rw [← hname] at hignored ⊢
    exact (h.settled first hfirst).resolve_right hignored
  · exact hignored (h.asked _ (((h.chosen pkg).mp hpkg).2.2 hignore))

theorem Decided.new (h : Decided handle trans seen sel) (hseen : pkg.name ∉ seen.map Pkg.name) :
    pkg.name ∉ sel.ignorelist.map Pkg.name ∧ pkg.name ∉ sel.pkgs.map Pkg.name := by
  constructor
  · intro hmem
    obtain ⟨pkg', hpkg', hname⟩ := List.mem_map.mp hmem
    exact hseen (hname ▸ h.ignored pkg' hpkg')
  · intro hmem
    obtain ⟨pkg', hpkg', hname⟩ := List.mem_map.mp hmem
    exact hseen (hname ▸ ((h.chosen pkg').mp hpkg').mem)

/-- The first package of a name decides: it is taken, or ignored, or both after a question. -/
theorem Decided.first (h : Decided handle trans seen sel) (hseen : pkg.name ∉ seen.map Pkg.name)
    {taken ignored : List Pkg} {asked : List (Pkg × Bool)} (htaken : taken ⊆ [pkg])
    (hnodup : taken.Nodup) (hignored : ignored ⊆ [pkg]) (hsettled : pkg ∈ taken ∨ pkg ∈ ignored)
    (hasked : asked = [] ∨ pkg ∈ ignored ∧ ∃ install, asked = [(pkg, install)])
    (hchosen : pkg ∈ taken ↔ skipsUpToDate handle trans pkg = false ∧
      (handle.pkgShouldIgnore pkg → (pkg, true) ∈ asked)) :
    Decided handle trans (seen ++ [pkg])
      { pkgs := sel.pkgs ++ taken
        ignorelist := sel.ignorelist ++ ignored
        questions := sel.questions ++ asked } := by
  obtain ⟨hnot, hpkgs⟩ := h.new hseen
  have hnew : ∀ install, (pkg, install) ∉ sel.questions := fun install hmem =>
    hnot (h.asked _ hmem)
  constructor
  case chosen =>
    intro pkg'
    rw [List.mem_append, h.chosen]
    by_cases hname : pkg.name = pkg'.name
    · -- the only package of the name is the new one
      have hfind : pkgFind (seen ++ [pkg]) pkg'.name = some pkg := by
        rw [pkgFind_concat, if_pos hname, ← hname, pkgFind_eq_none.mpr hseen, Option.none_or]
      have hold : ¬ Chosen handle trans seen sel.questions pkg' := fun hchosen' =>
        hseen (hname ▸ hchosen'.mem)
      rw [or_iff_right hold, Chosen, hfind]
      constructor
      · intro hmem
        obtain rfl := List.mem_singleton.mp (htaken hmem)
        obtain ⟨hskip, hinstall⟩ := hchosen.mp hmem
        exact ⟨rfl, hskip, fun hignore => List.mem_append_right _ (hinstall hignore)⟩
      · rintro ⟨heq, hskip, hinstall⟩
        obtain rfl := Option.some.inj heq
        refine hchosen.mpr ⟨hskip, fun hignore => ?_⟩
        exact (List.mem_append.mp (hinstall hignore)).resolve_left (hnew true)
    · have hfind : pkgFind (seen ++ [pkg]) pkg'.name = pkgFind seen pkg'.name := by
        rw [pkgFind_concat, if_neg hname, Option.or_none]
      have htaken' : pkg' ∉ taken := fun hmem => by
        rw [List.mem_singleton.mp (htaken hmem)] at hname
        exact hname rfl
      have hasked' : (pkg', true) ∉ asked := by
        rintro hmem
        obtain rfl | ⟨-, install, rfl⟩ := hasked
        · cases hmem
        · obtain ⟨rfl, -⟩ := Prod.mk.inj (List.mem_singleton.mp hmem)
          exact hname rfl
      rw [or_iff_left htaken', Chosen, Chosen, hfind, List.mem_append, or_iff_left hasked']
  case nodup =>
    rw [List.map_append, List.nodup_append']
    refine ⟨h.nodup, ?_, ?_⟩
    · exact hnodup.map_on fun a ha b hb _ => (List.mem_singleton.mp (htaken ha)).trans
        (List.mem_singleton.mp (htaken hb)).symm
    · intro name hmem hname
      obtain ⟨pkg', hpkg', rfl⟩ := List.mem_map.mp hname
      rw [List.mem_singleton.mp (htaken hpkg')] at hmem
      exact hpkgs hmem
  case asked =>
    intro question hquestion
    rw [List.map_append]
    rcases List.mem_append.mp hquestion with hquestion | hquestion
    · exact List.mem_append_left _ (h.asked question hquestion)
    · obtain rfl | ⟨hmem, install, rfl⟩ := hasked
      · cases hquestion
      · rw [List.mem_singleton.mp hquestion]
        exact List.mem_append_right _ (List.mem_map_of_mem hmem)
  case once =>
    rw [List.map_append, List.nodup_append']
    obtain rfl | ⟨-, install, rfl⟩ := hasked
    · exact ⟨h.once, List.nodup_nil, List.disjoint_nil_right _⟩
    · refine ⟨h.once, List.nodup_singleton _, List.disjoint_singleton.mpr fun hmem => ?_⟩
      obtain ⟨question, hquestion, hname⟩ := List.mem_map.mp hmem
      have hasked := h.asked question hquestion
      rw [show question.1.name = pkg.name from hname] at hasked
      exact hnot hasked
  case ignored =>
    intro pkg' hpkg'
    rw [List.map_append]
    rcases List.mem_append.mp hpkg' with hpkg' | hpkg'
    · exact List.mem_append_left _ (h.ignored pkg' hpkg')
    · exact List.mem_append_right _ (List.mem_map_of_mem (hignored hpkg'))
  case settled =>
    intro pkg' hpkg'
    rw [List.map_append, List.map_append]
    rcases List.mem_append.mp hpkg' with hpkg' | hpkg'
    · exact (h.settled pkg' hpkg').imp (List.mem_append_left _) (List.mem_append_left _)
    · rw [List.mem_singleton.mp hpkg']
      exact hsettled.imp (fun hmem => List.mem_append_right _ (List.mem_map_of_mem hmem))
        fun hmem => List.mem_append_right _ (List.mem_map_of_mem hmem)

end

theorem Selection.take_of_mem {sel : Selection} {pkg : Pkg}
    (h : pkg.name ∈ sel.pkgs.map Pkg.name) : sel.take pkg = sel := by
  rw [Selection.take, if_neg]
  rw [Option.isNone_iff_eq_none, pkgFind_eq_none]
  exact not_not.mpr h

theorem Selection.take_of_notMem {sel : Selection} {pkg : Pkg}
    (h : pkg.name ∉ sel.pkgs.map Pkg.name) :
    sel.take pkg = { sel with pkgs := sel.pkgs ++ [pkg] } := by
  rw [Selection.take, if_pos]
  rw [Option.isNone_iff_eq_none, pkgFind_eq_none]
  exact h

@[simp] theorem Selection.take_ignorelist (sel : Selection) (pkg : Pkg) :
    (sel.take pkg).ignorelist = sel.ignorelist := by
  unfold Selection.take
  split_ifs <;> rfl

@[simp] theorem Selection.take_questions (sel : Selection) (pkg : Pkg) :
    (sel.take pkg).questions = sel.questions := by
  unfold Selection.take
  split_ifs <;> rfl

theorem Decided.consider {seen : List Pkg} {sel : Selection} (h : Decided handle trans seen sel)
    (pkg : Pkg) : Decided handle trans (seen ++ [pkg]) (sel.consider handle trans pkg) := by
  unfold Selection.consider
  generalize decide (handle.answer sel.questions.length ≠ 0) = install
  by_cases hseen : pkg.name ∈ seen.map Pkg.name
  · refine Decided.again ?_ hseen
    by_cases hignored : pkg.name ∈ sel.ignorelist.map Pkg.name
    · rwa [if_pos (pkgFind_isSome.mpr hignored)]
    rw [if_neg (fun hsome => hignored (pkgFind_isSome.mp hsome))]
    obtain ⟨hmem, hnot⟩ := h.taken hseen hignored
    cases hskip : skipsUpToDate handle trans pkg with
    | true =>
      rw [if_pos rfl]
      exact h.ignore hseen
    | false =>
      rw [if_neg Bool.false_ne_true]
      split_ifs with hignore
      · have hother : ∀ questions, ¬ Chosen handle trans seen questions pkg := by
          -- what was taken is another package of the name
          rintro questions ⟨hfirst, -⟩
          obtain ⟨taken, htaken, hname⟩ := List.mem_map.mp hmem
          have hfind := ((h.chosen taken).mp htaken).1
          rw [hname, hfirst] at hfind
          rw [← Option.some.inj hfind] at htaken
          exact hnot hignore htaken
        have hask := @Decided.ask handle trans seen sel pkg h hseen hignored install
          (iff_of_false (hother _) (hother _))
        cases install with
        | false => exact hask
        | true =>
          have htake := @Selection.take_of_mem
            { sel with
              ignorelist := sel.ignorelist ++ [pkg]
              questions := sel.questions ++ [(pkg, true)] } pkg hmem
          rw [← htake] at hask
          exact hask
      · rwa [Selection.take_of_mem hmem]
  · obtain ⟨hnot, hpkgs⟩ := h.new hseen
    rw [if_neg (fun hsome => hnot (pkgFind_isSome.mp hsome))]
    have hself : [pkg] ⊆ [pkg] := List.Subset.refl _
    have hmem : pkg ∈ [pkg] := List.mem_singleton_self _
    have hnodup : [pkg].Nodup := List.nodup_singleton _
    cases hskip : skipsUpToDate handle trans pkg with
    | true =>
      have hfirst := h.first hseen (List.nil_subset _) List.nodup_nil hself (Or.inr hmem)
        (Or.inl rfl) (by simp [hskip])
      rw [List.append_nil, List.append_nil] at hfirst
      exact hfirst
    | false =>
      rw [if_neg Bool.false_ne_true]
      split_ifs with hignore
      · cases install with
        | false =>
          have hfirst := h.first hseen (List.nil_subset _) List.nodup_nil hself (Or.inr hmem)
            (Or.inr ⟨hmem, false, rfl⟩) (by simp [hignore])
          rw [List.append_nil] at hfirst
          exact hfirst
        | true =>
          have hfirst := h.first hseen hself hnodup hself (Or.inr hmem)
            (Or.inr ⟨hmem, true, rfl⟩) (by simp [hskip])
          have htake := @Selection.take_of_notMem
            { sel with
              ignorelist := sel.ignorelist ++ [pkg]
              questions := sel.questions ++ [(pkg, true)] } pkg hpkgs
          rw [← htake] at hfirst
          exact hfirst
      · have hfirst := h.first hseen hself hnodup (List.nil_subset _) (Or.inl hmem)
          (Or.inl rfl) (by simp [hskip, hignore])
        rw [List.append_nil, List.append_nil] at hfirst
        rwa [Selection.take_of_notMem hpkgs]

theorem decided_foldl {seen pkgs : List Pkg} {sel : Selection}
    (h : Decided handle trans seen sel) :
    Decided handle trans (seen ++ pkgs) (pkgs.foldl (Selection.consider handle trans) sel) := by
  induction pkgs generalizing seen sel with
  | nil => rwa [List.append_nil]
  | cons pkg pkgs ih =>
    rw [List.append_cons]
    exact ih (h.consider pkg)

theorem decided_nil : Decided handle trans [] {} where
  chosen pkg := by simp [Chosen, pkgFind]
  nodup := List.nodup_nil
  asked := by simp
  once := List.nodup_nil
  ignored := by simp
  settled := by simp

/-! ## The questions -/

/-- The package puts its name on `ignorelist`: it is up to date, or it is ignored. -/
def setsAside (handle : Handle) (trans : Option TransFlags) (pkg : Pkg) : Bool :=
  skipsUpToDate handle trans pkg || handle.pkgShouldIgnore pkg

/-- After the packages `before` the user is asked about the package: it is ignored and not up to
date, and none of them has set its name aside. -/
def isAsked (handle : Handle) (trans : Option TransFlags) (before : List Pkg) (pkg : Pkg) : Bool :=
  !skipsUpToDate handle trans pkg && handle.pkgShouldIgnore pkg &&
    before.all fun earlier => earlier.name ≠ pkg.name || !setsAside handle trans earlier

/-- The packages the user is asked about, in the order of the questions, when the packages `before`
were looked at before. -/
def askedPkgs (handle : Handle) (trans : Option TransFlags) : List Pkg → List Pkg → List Pkg
  | _, [] => []
  | before, pkg :: pkgs =>
    (if isAsked handle trans before pkg then [pkg] else []) ++
      askedPkgs handle trans (before ++ [pkg]) pkgs

theorem askedPkgs_concat (before pkgs : List Pkg) (pkg : Pkg) :
    askedPkgs handle trans before (pkgs ++ [pkg]) = askedPkgs handle trans before pkgs ++
      if isAsked handle trans (before ++ pkgs) pkg then [pkg] else [] := by
  induction pkgs generalizing before with
  | nil => simp [askedPkgs]
  | cons first pkgs ih => simp [askedPkgs, ih]

theorem mem_askedPkgs {before pkgs : List Pkg} {pkg : Pkg} :
    pkg ∈ askedPkgs handle trans before pkgs ↔
      ∃ earlier after, pkgs = earlier ++ pkg :: after ∧
        isAsked handle trans (before ++ earlier) pkg := by
  induction pkgs using List.reverseRecOn with
  | nil => simp [askedPkgs]
  | append_singleton pkgs last ih =>
    rw [askedPkgs_concat, List.mem_append, ih]
    constructor
    · rintro (⟨earlier, after, rfl, hasked⟩ | hlast)
      · exact ⟨earlier, after ++ [last], by simp, hasked⟩
      · split_ifs at hlast with hasked
        · obtain rfl := List.mem_singleton.mp hlast
          exact ⟨pkgs, [], rfl, hasked⟩
        · cases hlast
    · rintro ⟨earlier, after, hsplit, hasked⟩
      rcases Splits.concat_eq_iff.mp hsplit with ⟨rfl, rfl, -⟩ | ⟨after, -, rfl⟩
      · exact Or.inr (by simp [hasked])
      · exact Or.inl ⟨earlier, after, rfl, hasked⟩

/-- The questions about some packages with their answers: the `k`-th question gets the `k`-th
answer. -/
def answered (handle : Handle) (pkgs : List Pkg) : List (Pkg × Bool) :=
  pkgs.zipIdx.map fun (pkg, k) => (pkg, decide (handle.answer k ≠ 0))

theorem answered_concat (pkgs : List Pkg) (pkg : Pkg) :
    answered handle (pkgs ++ [pkg]) =
      answered handle pkgs ++ [(pkg, decide (handle.answer pkgs.length ≠ 0))] := by
  simp [answered, List.zipIdx_append]

theorem length_answered (pkgs : List Pkg) : (answered handle pkgs).length = pkgs.length := by
  simp [answered]

theorem mem_answered {pkgs : List Pkg} {pkg : Pkg} {install : Bool} :
    (pkg, install) ∈ answered handle pkgs ↔
      ∃ k, pkgs[k]? = some pkg ∧ install = decide (handle.answer k ≠ 0) := by
  simp only [answered, List.mem_map, Prod.exists, List.mem_zipIdx_iff_getElem?, Prod.mk.injEq]
  constructor
  · rintro ⟨_, k, hk, rfl, rfl⟩
    exact ⟨k, hk, rfl⟩
  · rintro ⟨k, hk, rfl⟩
    exact ⟨pkg, k, hk, rfl, rfl⟩

/-- What holds of the questions after the packages of a list were considered: `ignorelist` has the
names that one of them sets aside, and those that `askedPkgs` names were asked about, in turn. -/
structure Asked (handle : Handle) (trans : Option TransFlags) (seen : List Pkg)
    (sel : Selection) : Prop where
  aside : ∀ name, name ∈ sel.ignorelist.map Pkg.name ↔
    ∃ pkg ∈ seen, pkg.name = name ∧ setsAside handle trans pkg
  log : sel.questions = answered handle (askedPkgs handle trans [] seen)

theorem Asked.isAsked_iff {seen : List Pkg} {sel : Selection} (h : Asked handle trans seen sel)
    (pkg : Pkg) : isAsked handle trans seen pkg ↔ pkg.name ∉ sel.ignorelist.map Pkg.name ∧
      skipsUpToDate handle trans pkg = false ∧ handle.pkgShouldIgnore pkg := by
  have hall : (seen.all fun earlier => earlier.name ≠ pkg.name || !setsAside handle trans earlier) ↔
      pkg.name ∉ sel.ignorelist.map Pkg.name := by
    rw [h.aside]
    simp [or_iff_not_imp_left]
  unfold isAsked
  rw [Bool.and_eq_true, Bool.and_eq_true, hall, Bool.not_eq_true', and_comm]

/-- A package that is not asked about, with the lists that it leaves. -/
theorem Asked.unasked {seen : List Pkg} {sel sel' : Selection} (h : Asked handle trans seen sel)
    {pkg : Pkg} (hnot : isAsked handle trans seen pkg = false)
    (hquestions : sel'.questions = sel.questions)
    (hignorelist : ∀ name, name ∈ sel'.ignorelist.map Pkg.name ↔
      name ∈ sel.ignorelist.map Pkg.name ∨ pkg.name = name ∧ setsAside handle trans pkg) :
    Asked handle trans (seen ++ [pkg]) sel' where
  aside name := by
    rw [hignorelist, h.aside]
    simp [or_and_right, exists_or]
  log := by
    rw [hquestions, h.log, askedPkgs_concat, List.nil_append, hnot]
    simp

/-- A package that is asked about is set aside, and gets the next answer. -/
theorem Asked.ask {seen : List Pkg} {sel sel' : Selection} (h : Asked handle trans seen sel)
    {pkg : Pkg} (hyes : isAsked handle trans seen pkg)
    (hquestions : sel'.questions =
      sel.questions ++ [(pkg, decide (handle.answer sel.questions.length ≠ 0))])
    (hignorelist : sel'.ignorelist = sel.ignorelist ++ [pkg]) :
    Asked handle trans (seen ++ [pkg]) sel' where
  aside name := by
    obtain ⟨-, -, hignore⟩ := (h.isAsked_iff pkg).mp hyes
    have hlast : name ∈ [pkg].map Pkg.name ↔ pkg.name = name ∧ setsAside handle trans pkg := by
      simp [setsAside, hignore, @eq_comm _ name]
    rw [hignorelist, List.map_append, List.mem_append, h.aside, hlast]
    simp [or_and_right, exists_or]
  log := by
    have hlength := congrArg List.length h.log
    rw [length_answered] at hlength
    rw [hquestions, askedPkgs_concat, List.nil_append, if_pos hyes, answered_concat, ← h.log,
      hlength]

theorem Asked.consider {seen : List Pkg} {sel : Selection} (h : Asked handle trans seen sel)
    (pkg : Pkg) : Asked handle trans (seen ++ [pkg]) (sel.consider handle trans pkg) := by
  have hasked := h.isAsked_iff pkg
  unfold Selection.consider
  by_cases hignored : pkg.name ∈ sel.ignorelist.map Pkg.name
  · rw [if_pos (pkgFind_isSome.mpr hignored)]
    refine h.unasked (Bool.eq_false_iff.mpr fun hyes => (hasked.mp hyes).1 hignored) rfl
      fun name => ?_
    refine ⟨Or.inl, fun hor => hor.elim id ?_⟩
    rintro ⟨rfl, -⟩
    exact hignored
  rw [if_neg (fun hsome => hignored (pkgFind_isSome.mp hsome))]
  cases hskip : skipsUpToDate handle trans pkg with
  | true =>
    rw [if_pos rfl]
    refine h.unasked (Bool.eq_false_iff.mpr fun hyes => ?_) rfl fun name => ?_
    · have hfalse := (hasked.mp hyes).2.1
      rw [hskip] at hfalse
      cases hfalse
    · simp [setsAside, hskip, @eq_comm _ name]
  | false =>
    rw [if_neg Bool.false_ne_true]
    split_ifs with hignore
    · refine h.ask (hasked.mpr ⟨hignored, hskip, hignore⟩) ?_ ?_ <;>
        · dsimp only
          split_ifs <;> simp
    · refine h.unasked (Bool.eq_false_iff.mpr fun hyes => hignore (hasked.mp hyes).2.2)
        (by simp) fun name => ?_
      simp [setsAside, hskip, hignore]

theorem asked_foldl {seen pkgs : List Pkg} {sel : Selection} (h : Asked handle trans seen sel) :
    Asked handle trans (seen ++ pkgs) (pkgs.foldl (Selection.consider handle trans) sel) := by
  induction pkgs generalizing seen sel with
  | nil => rwa [List.append_nil]
  | cons pkg pkgs ih =>
    rw [List.append_cons]
    exact ih (h.consider pkg)

theorem Asked.nodup {seen : List Pkg} {sel : Selection} (h : Asked handle trans seen sel)
    (honce : (sel.questions.map (·.1.name)).Nodup) : (askedPkgs handle trans [] seen).Nodup := by
  have hnames : sel.questions.map (·.1.name) = (askedPkgs handle trans [] seen).map Pkg.name := by
    rw [h.log, answered, List.map_map]
    conv_rhs => rw [← List.zipIdx_map_fst 0 (askedPkgs handle trans [] seen), List.map_map]
    rfl
  rw [hnames] at honce
  exact honce.of_map Pkg.name

theorem asked_nil : Asked handle trans [] {} where
  aside name := by simp
  log := rfl

/-- The first package of its name is asked about when it is ignored and not up to date. -/
theorem mem_askedPkgs_of_first {pkgs : List Pkg} {first : Pkg}
    (hfirst : pkgFind pkgs first.name = some first)
    (hskip : skipsUpToDate handle trans first = false) (hignore : handle.pkgShouldIgnore first) :
    first ∈ askedPkgs handle trans [] pkgs := by
  rw [pkgFind_eq_find?, List.find?_eq_some_iff_append] at hfirst
  obtain ⟨-, before, after, rfl, hbefore⟩ := hfirst
  refine mem_askedPkgs.mpr ⟨before, after, rfl, ?_⟩
  have hall : (before.all fun earlier => earlier.name ≠ first.name ||
      !setsAside handle trans earlier) = true := by
    rw [List.all_eq_true]
    intro earlier hearlier
    have hname : earlier.name ≠ first.name := by simpa using hbefore earlier hearlier
    simp [hname]
  simp only [isAsked, hskip, hignore, List.nil_append, hall]
  rfl

/-- **The first package of a name** over the databases decides: it is returned unless it is up to
date, or ignored and not wanted, and no other package of its name is.  The user is asked about every
first package that is ignored and not up to date; the questions are those about `askedPkgs` in
turn, the `k`-th with the `k`-th answer, and no name is asked about twice. -/
theorem findGroupPkgs_first (handle : Handle) (trans : Option TransFlags)
    {dbs : List Groupcache.Db} (hdbs : ∀ db ∈ dbs, Groupcache.Reach db) (name : CString) :
    ((findGroupPkgs handle trans dbs name).pkgs.map Pkg.name).Nodup ∧
      (∀ pkg, pkg ∈ (findGroupPkgs handle trans dbs name).pkgs ↔
        pkgFind (occurrences dbs name) pkg.name = some pkg ∧
          skipsUpToDate handle trans pkg = false ∧
          (handle.pkgShouldIgnore pkg →
            (pkg, true) ∈ (findGroupPkgs handle trans dbs name).questions)) ∧
      (∀ first, pkgFind (occurrences dbs name) first.name = some first →
        first ∉ (findGroupPkgs handle trans dbs name).pkgs →
          ∀ pkg ∈ (findGroupPkgs handle trans dbs name).pkgs, pkg.name ≠ first.name) ∧
      ((findGroupPkgs handle trans dbs name).questions.map (·.1.name)).Nodup ∧
      (∀ first, pkgFind (occurrences dbs name) first.name = some first →
        skipsUpToDate handle trans first = false → handle.pkgShouldIgnore first →
          ∃ k, (askedPkgs handle trans [] (occurrences dbs name))[k]? = some first ∧
            (first ∈ (findGroupPkgs handle trans dbs name).pkgs ↔ handle.answer k ≠ 0)) ∧
      (findGroupPkgs handle trans dbs name).questions =
        answered handle (askedPkgs handle trans [] (occurrences dbs name)) := by
  have h : Decided handle trans (occurrences dbs name) (findGroupPkgs handle trans dbs name) := by
    rw [findGroupPkgs_eq_foldl handle trans hdbs]
    exact decided_foldl decided_nil
  have hasked : Asked handle trans (occurrences dbs name)
      (findGroupPkgs handle trans dbs name) := by
    rw [findGroupPkgs_eq_foldl handle trans hdbs]
    exact asked_foldl asked_nil
  refine ⟨h.nodup, h.chosen, fun first hfirst hnot pkg hpkg hname => ?_, h.once,
    fun first hfirst hskip hignore => ?_, hasked.log⟩
  · have hfind := ((h.chosen pkg).mp hpkg).1
    rw [hname, hfirst] at hfind
    exact hnot (Option.some.inj hfind ▸ hpkg)
  · obtain ⟨k, hk⟩ := List.mem_iff_getElem?.mp (mem_askedPkgs_of_first hfirst hskip hignore)
    refine ⟨k, hk, ?_⟩
    rw [h.chosen, Chosen, and_iff_right hfirst, and_iff_right hskip, forall_prop_of_true hignore,
      hasked.log, mem_answered]
    constructor
    · rintro ⟨j, hj, hanswer⟩
      obtain ⟨hlt, -⟩ := List.getElem?_eq_some_iff.mp hj
      obtain rfl : j = k :=
        (List.getElem?_inj hlt (hasked.nodup h.once)).mp (hj.trans hk.symm)
      simpa using hanswer
    · exact fun hanswer => ⟨k, hk, by simpa using hanswer⟩

/-- `filesystem` is ignored and in both repositories: the user is asked about the version of the
first one only, and when the answer is no the version of the second is not taken either; `bash`
is taken from the first one. -/
theorem findGroupPkgs_first_base :
    let handle : Handle :=
      { dbLocal := { treename := str "local", pkgcache := [] }
        dbsSync := []
        ignorepkg := [str "filesystem"]
        fnmatch := fun pattern name => pattern = name
        answer := fun k => if k = 0 then 0 else 1 }
    let pkgOf (addr : ℕ) (name version : CString) : Pkg :=
      { addr, name, version, groups := [str "base"] }
    let dbs := [Groupcache.dbOf (pkgOf 1 (str "filesystem") (str "1-1")),
      Groupcache.dbOf (pkgOf 2 (str "bash") (str "5-1")),
      Groupcache.dbOf (pkgOf 3 (str "filesystem") (str "2-1")),
      Groupcache.dbOf (pkgOf 4 (str "bash") (str "6-1"))]
    let sel := findGroupPkgs handle none dbs (str "base")
    sel.pkgs = [pkgOf 2 (str "bash") (str "5-1")] ∧
      (∀ pkg ∈ sel.pkgs, pkg.name ≠ str "filesystem") ∧
      sel.questions = [(pkgOf 1 (str "filesystem") (str "1-1"), false)] := by
  intro handle pkgOf dbs sel
  have hdbs : ∀ db ∈ dbs, Groupcache.Reach db := by
    intro db hdb
    simp only [dbs, List.mem_cons, List.not_mem_nil, or_false] at hdb
    rcases hdb with rfl | rfl | rfl | rfl <;> exact Groupcache.reach_dbOf _
  obtain ⟨-, -, hother, -⟩ := findGroupPkgs_first handle none hdbs (str "base")
  refine ⟨by decide +kernel, ?_, by decide +kernel⟩
  exact hother (pkgOf 1 (str "filesystem") (str "1-1")) (by decide +kernel) (by decide +kernel)

end

end Alpm.Sync
