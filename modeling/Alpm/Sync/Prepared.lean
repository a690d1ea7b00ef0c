import Alpm.Sync.Commit

/-!
# What a preparation keeps

The calls that put a transaction together and `alpm_trans_prepare`, as steps of an invariant.

## 1.  Where targets come from

Targets only ever come from the targets of before and from the repositories (`Within`).  The
resolution is a recursion that extends the list of the packages it has chosen (`GrowsFrom`), and the
other phases take packages out or leave the lists alone.

## 2.  Prepared transactions

Of a transaction in `STATE_PREPARED` it is known, whatever its flags, that `oldpkg` of every target
is a copy of the installed package of its name (`Session.Tracked`).  When the flags do not ask to
leave dependencies or their versions out (`Strict`), it is also known that they will be satisfied
(`Session.Sound`).  The sort at the end of the preparation rearranges the lists and leaves their
objects alone (`sortTrans_spec`), so both survive it.

## 3.  Calls

`transPrepare_cases` says what `alpm_trans_prepare` may come to: one of its checks refuses and
nothing has changed, a phase fails, or all phases succeed and the targets are sorted.
`Session.Tracked.call` is the step for every call of a front end; it is used for whole lifecycles in
`Alpm.Sync.Lifecycle`.
-/

namespace Alpm.Sync

/-! ## What the resolution chooses from -/

section

variable {handle : Handle} {ctx : DepContext} {localpkgs preferred rem : List Pkg}

/-- The list of packages grows by packages from a given list. -/
def GrowsFrom (from' : List Pkg) (s s' : Resolving) : Prop :=
  ∀ q ∈ s'.packages, q ∈ s.packages ∨ q ∈ from'

theorem GrowsFrom.trans {from' : List Pkg} {s s' s'' : Resolving} (h : GrowsFrom from' s s')
    (h' : GrowsFrom from' s' s'') : GrowsFrom from' s s'' :=
  fun q hq => (h' q hq).elim (h q) Or.inr

theorem resolveMiss_growsFrom {resolve : Pkg → Resolving → Option (Int × Resolving)}
    {miss : Depmissing} {s s' : Resolving} {ret : Int}
    (hresolve : ∀ spkg ∈ choosable handle preferred, ∀ t ret t', resolve spkg t = some (ret, t') →
      GrowsFrom (choosable handle preferred) t t')
    (h : resolveMiss handle preferred rem resolve miss s = some (ret, s')) :
    GrowsFrom (choosable handle preferred) s s' := by
  have hsame : ∀ {t : Resolving}, t.packages = s'.packages → s.packages = t.packages →
      GrowsFrom (choosable handle preferred) s s' :=
    fun ht hs q hq => Or.inl (by rwa [hs, ht])
  have hinstalled : ∀ t : Resolving, (resolveInstalled handle rem miss t).2.packages = t.packages :=
    fun t => (resolveInstalled_spec miss t).2
  unfold resolveMiss at h
  split_ifs at h
  · obtain ⟨-, rfl⟩ := Prod.mk.inj (Option.some.inj h)
    exact fun q => Or.inl
  rcases hfind : findSpkg handle preferred s.packages miss.depend s.asked with ⟨_ | spkg, asked⟩
  · simp only [hfind, Option.some.injEq] at h
    refine hsame (t := { s with asked }) ?_ rfl
    rw [← hinstalled, h]
  · have hmem := (findSpkg_eq_some (congrArg Prod.fst hfind)).1
    simp only [hfind] at h
    rcases hend : resolve spkg { s with asked } with _ | ⟨r, t⟩
    · simp [hend] at h
    have hgrows := hresolve spkg hmem _ _ _ hend
    simp only [hend] at h
    intro q hq
    refine hgrows q ?_
    split_ifs at h
    · rw [← hinstalled, Option.some.inj h]
      exact hq
    · obtain ⟨-, rfl⟩ := Prod.mk.inj (Option.some.inj h)
      exact hq

theorem resolveMisses_growsFrom {resolve : Pkg → Resolving → Option (Int × Resolving)}
    {deps : List Depmissing} {s s' : Resolving} {r ret : Int}
    (hresolve : ∀ spkg ∈ choosable handle preferred, ∀ t ret t', resolve spkg t = some (ret, t') →
      GrowsFrom (choosable handle preferred) t t')
    (h : resolveMisses handle preferred rem resolve deps r s = some (ret, s')) :
    GrowsFrom (choosable handle preferred) s s' := by
  induction deps generalizing s r with
  | nil =>
    obtain ⟨-, rfl⟩ := Prod.mk.inj (Option.some.inj h)
    exact fun q => Or.inl
  | cons miss deps ih =>
    rcases hmiss : resolveMiss handle preferred rem resolve miss s with _ | ⟨r', t⟩
    · simp [resolveMisses, hmiss] at h
    · simp only [resolveMisses, hmiss] at h
      exact (resolveMiss_growsFrom hresolve hmiss).trans (ih h)

/-- **The resolution chooses** among the targets and the packages of the repositories, and from
nowhere else; the search for an installed package looks into the local database, and puts nothing on
the list. -/
theorem resolvedepsFuel_growsFrom (fuel : ℕ) {pkg : Pkg}
    (hpkg : pkg ∈ choosable handle preferred) {s s' : Resolving} {ret : Int}
    (h : resolvedepsFuel handle ctx localpkgs preferred rem fuel pkg s = some (ret, s')) :
    GrowsFrom (choosable handle preferred) s s' := by
  induction fuel generalizing pkg s ret s' with
  | zero => simp [resolvedepsFuel] at h
  | succ fuel ih =>
    unfold resolvedepsFuel at h
    split_ifs at h
    · obtain ⟨-, rfl⟩ := Prod.mk.inj (Option.some.inj h)
      exact fun q => Or.inl
    simp only at h
    rcases hloop : resolveMisses handle preferred rem
        (resolvedepsFuel handle ctx localpkgs preferred rem fuel)
        (checkdeps ctx localpkgs rem [pkg] false) 0
        { s with packages := s.packages ++ [pkg] } with _ | ⟨r, t⟩
    · simp [hloop] at h
    have hgrows := resolveMisses_growsFrom (fun spkg hspkg _ _ _ hend => ih hspkg hend) hloop
    simp only [hloop, Option.some.injEq, Prod.mk.injEq] at h
    obtain ⟨-, rfl⟩ := h
    intro q hq
    split_ifs at hq
    · rcases hgrows q hq with hold | hnew
      · rcases List.mem_append.mp hold with hold | hself
        · exact Or.inl hold
        · exact Or.inr (List.mem_singleton.mp hself ▸ hpkg)
      · exact Or.inr hnew
    · exact Or.inl hq

theorem resolveTargets_subset (handle : Handle) (s : Session) :
    (resolveTargets handle s).2.packages ⊆ choosable handle s.trans.add := by
  have hstep : ∀ (ctx : DepContext) (localpkgs rem : List Pkg) (pkg : Pkg),
      pkg ∈ choosable handle s.trans.add → ∀ r : Resolving, GrowsFrom (choosable handle s.trans.add)
        r (resolvedeps handle ctx localpkgs s.trans.add rem pkg r).2 :=
    fun _ _ _ _ hpkg _ => resolvedepsFuel_growsFrom _ hpkg (Option.some_get _).symm
  have hall : ∀ (ctx : DepContext) (localpkgs rem targets : List Pkg),
      targets ⊆ choosable handle s.trans.add → ∀ start : List Pkg × Resolving,
        GrowsFrom (choosable handle s.trans.add) start.2
          (targets.foldl (resolveTarget handle ctx localpkgs s.trans.add rem) start).2 := by
    intro ctx localpkgs rem targets
    induction targets with
    | nil => exact fun _ start q => Or.inl
    | cons pkg targets ih =>
      intro hsub start
      refine GrowsFrom.trans ?_ (ih (fun q hq => hsub (List.mem_cons_of_mem _ hq)) _)
      exact hstep ctx localpkgs rem pkg (hsub (List.mem_cons_self ..)) start.2
  intro q hq
  refine (hall _ _ _ s.trans.add (List.subset_append_left _ _) _ q hq).resolve_left ?_
  exact List.not_mem_nil

end

/-! ## The phases of a preparation -/

section

variable {handle : Handle} {env : PrepareEnv} {data : List ErrorData} {s₀ s : Session}

/-- What no phase of a preparation changes: the flags, the state and where the targets come
from. -/
structure Within (handle : Handle) (s₀ s : Session) : Prop where
  flags : s.trans.flags = s₀.trans.flags
  state : s.trans.state = s₀.trans.state
  add : s.trans.add ⊆ choosable handle s₀.trans.add

theorem Within.refl (handle : Handle) (s : Session) : Within handle s s :=
  ⟨rfl, rfl, List.subset_append_left _ _⟩

theorem Within.of_subset (h : Within handle s₀ s) {s' : Session}
    (hflags : s'.trans.flags = s.trans.flags) (hstate : s'.trans.state = s.trans.state)
    (hadd : s'.trans.add ⊆ s.trans.add) : Within handle s₀ s' :=
  ⟨hflags.trans h.flags, hstate.trans h.state, fun _ hp => h.add (hadd hp)⟩

theorem Within.of_choosable (h : Within handle s₀ s) {s' : Session}
    (hflags : s'.trans.flags = s.trans.flags) (hstate : s'.trans.state = s.trans.state)
    (hadd : s'.trans.add ⊆ choosable handle s.trans.add) : Within handle s₀ s' := by
  refine ⟨hflags.trans h.flags, hstate.trans h.state, fun p hp => ?_⟩
  rcases List.mem_append.mp (hadd hp) with hp | hp
  · exact h.add hp
  · exact List.mem_append_right _ hp

theorem prepareDbs_within (h : Within handle s₀ s) :
    (prepareDbs handle data s).All (Within handle s₀) := by
  rcases prepareDbs_cases handle data s with hok | ⟨pmErrno, hfail, -⟩
  · rw [hok]
    exact h
  · rw [hfail]
    exact h

theorem takeResolved_within {unresolvable resolved : List Pkg} (h : Within handle s₀ s)
    (hresolved : resolved ⊆ choosable handle s.trans.add) :
    (takeResolved unresolvable resolved data s).All (Within handle s₀) := by
  unfold takeResolved
  split
  · exact h.of_choosable rfl rfl hresolved
  · trivial

theorem prepareResolve_within (h : Within handle s₀ s) :
    (prepareResolve handle data s).All (Within handle s₀) := by
  have hresolved := resolveTargets_subset handle s
  have hasked : ∀ asked, Within handle s₀ { s with asked } :=
    fun asked => h.of_subset rfl rfl (List.Subset.refl _)
  unfold prepareResolve
  simp only
  split_ifs
  · exact h
  · exact takeResolved_within (hasked _) hresolved
  · exact takeResolved_within (hasked _) hresolved
  · exact hasked _

theorem prepareInner_within (h : Within handle s₀ s) :
    (prepareInner data s).All (Within handle s₀) := by
  have hsub := (dropConflicting_spec (innerconflicts s.trans.add) s.trans.add
    s.trans.unresolvable).1.subset
  unfold prepareInner
  simp only
  split_ifs
  · exact h
  · split <;> exact h.of_subset rfl rfl hsub

theorem prepareOuter_within (h : Within handle s₀ s) :
    (prepareOuter handle data s).All (Within handle s₀) := by
  unfold prepareOuter
  simp only
  split_ifs
  · exact h
  · split <;> exact h.of_subset rfl rfl (List.Subset.refl _)

theorem prepareRemove_within (h : Within handle s₀ s) :
    (prepareRemove env data s).All (Within handle s₀) := by
  unfold prepareRemove
  simp only
  split_ifs <;> exact h.of_subset rfl rfl (List.Subset.refl _)

theorem prepareCheckdeps_within (h : Within handle s₀ s) :
    (prepareCheckdeps handle data s).All (Within handle s₀) := by
  unfold prepareCheckdeps
  simp only
  split_ifs <;> exact h

theorem prepareTargets_within (h : Within handle s₀ s) :
    (prepareTargets handle env data s).All (Within handle s₀) := by
  unfold prepareTargets
  simp only
  split <;> exact h.of_subset rfl rfl (List.Subset.refl _)

theorem syncPrepare_within (handle : Handle) (env : PrepareEnv) (s : Session) :
    (syncPrepare handle env s).All (Within handle s) := by
  refine .bind (.bind (prepareDbs_within (.refl handle s)) fun _ _ h => prepareResolve_within h)
    fun _ _ h => ?_
  refine .bind (.bind (.bind (prepareInner_within h) ?_) ?_) ?_
  · exact fun _ _ h => prepareOuter_within h
  · exact fun _ _ h => prepareRemove_within h
  · exact fun _ _ h => .bind (prepareCheckdeps_within h) fun _ _ h => prepareTargets_within h

theorem prepareRemoval_within : (prepareRemoval handle env s).All (Within handle s) := by
  unfold prepareRemoval
  simp only
  split_ifs <;> exact (Within.refl handle s).of_subset rfl rfl (List.Subset.refl _)

/-! ## What a preparation has seen to -/

/-- Packages that can become targets together are different objects, and have names.  The fields
that a transaction keeps for its targets are found by the address, so one object must not stand for
two. -/
structure Objects (handle : Handle) (add : List Pkg) : Prop where
  distinct : ∀ p ∈ choosable handle add, ∀ q ∈ choosable handle add, p.addr = q.addr → p = q
  named : ∀ p ∈ choosable handle add, p.name ≠ []

theorem Objects.mono {add add' : List Pkg} (h : Objects handle add)
    (hsub : add' ⊆ choosable handle add) : Objects handle add' := by
  have hchoosable : choosable handle add' ⊆ choosable handle add := by
    intro p hp
    rcases List.mem_append.mp hp with hp | hp
    · exact hsub hp
    · exact List.mem_append_right _ hp
  exact ⟨fun p hp q hq => h.distinct p (hchoosable hp) q (hchoosable hq),
    fun p hp => h.named p (hchoosable hp)⟩

theorem Objects.addrs_nodup {add : List Pkg} (h : Objects handle add)
    (hnames : DistinctNames add) : (add.map Pkg.addr).Nodup := by
  have hmem : ∀ p ∈ add, p ∈ choosable handle add := fun p hp => List.mem_append_left _ hp
  refine (List.nodup_map_iff_inj_on hnames.of_map).mpr fun p hp q hq haddr => ?_
  exact h.distinct p (hmem p hp) q (hmem q hq) haddr

/-- The packages after the transaction satisfy the dependencies. -/
def Session.Consistent (handle : Handle) (s : Session) : Prop :=
  (s.trans.flags.depContext handle.assumeinstalled).Consistent
    (resultPkgs handle.dbLocal.pkgcache s.trans.remove s.trans.add)

/-- The old versions of the targets are copies of the installed packages of their names.  A target
whose name is not installed may have anything there. -/
def OldpkgsSet (handle : Handle) (add : List Pkg) (fields : ℕ → PkgFields) : Prop :=
  ∀ p ∈ add, ∀ installed, pkgFind handle.dbLocal.pkgcache p.name = some installed →
    ∃ addr, (fields p.addr).oldpkg = some (installed.copyAt addr)

/-- The last loop of the preparation sets the old versions of its targets and leaves those of
other objects alone. -/
theorem loadTargets_oldpkg {add : List Pkg} {fields : ℕ → PkgFields}
    (hnames : ∀ p ∈ add, p.name ≠ [])
    (haddrs : (add.map Pkg.addr).Nodup) (h : (loadTargets handle env add fields).1 = none) :
    (∀ addr, addr ∉ add.map Pkg.addr →
      (loadTargets handle env add fields).2 addr = fields addr) ∧
      OldpkgsSet handle add (loadTargets handle env add fields).2 := by
  induction add generalizing fields with
  | nil => exact ⟨fun _ _ => rfl, fun p hp => absurd hp List.not_mem_nil⟩
  | cons spkg add ih =>
    obtain ⟨hnew, haddrs⟩ := List.nodup_cons.mp haddrs
    have hnames' := fun p hp => hnames p (List.mem_cons_of_mem spkg hp)
    -- one round, with the fields `fields'` that it leaves
    have hround : ∀ fields' : ℕ → PkgFields,
        (∀ addr, addr ≠ spkg.addr → fields' addr = fields addr) →
        (∀ installed, pkgFind handle.dbLocal.pkgcache spkg.name = some installed →
          ∃ addr, (fields' spkg.addr).oldpkg = some (installed.copyAt addr)) →
        (loadTargets handle env add fields').1 = none →
        (∀ addr, addr ∉ (spkg :: add).map Pkg.addr →
          (loadTargets handle env add fields').2 addr = fields addr) ∧
          OldpkgsSet handle (spkg :: add) (loadTargets handle env add fields').2 := by
      intro fields' hframe hold hrest
      obtain ⟨hothers, hset⟩ := ih hnames' haddrs hrest
      refine ⟨fun addr haddr => ?_, fun p hp installed hinstalled => ?_⟩
      · rw [List.map_cons, List.mem_cons, not_or] at haddr
        rw [hothers addr haddr.2, hframe addr haddr.1]
      · rcases List.mem_cons.mp hp with rfl | hp
        · rw [hothers p.addr hnew]
          exact hold installed hinstalled
        · exact hset p hp installed hinstalled
    have hget : (dbGetPkg handle spkg.name).1 =
        pkgFind handle.dbLocal.pkgcache spkg.name := by
      unfold dbGetPkg
      rw [if_neg (hnames spkg (List.mem_cons_self ..))]
      cases pkgFind handle.dbLocal.pkgcache spkg.name <;> rfl
    unfold loadTargets at h ⊢
    rcases hlpkg : dbGetPkg handle spkg.name with ⟨lpkg, pmErrno⟩
    rw [hlpkg] at hget
    simp only [hlpkg] at h ⊢
    cases hsize : computeDownloadSize env spkg with
    | error error => simp [hsize] at h
    | ok downloadSize =>
      simp only [hsize] at h ⊢
      cases lpkg with
      | none =>
        refine hround _ (fun addr hne => Function.update_of_ne hne ..) (fun installed hfind => ?_) h
        rw [← hget] at hfind
        exact absurd hfind (by simp)
      | some installed =>
        cases hdup : env.dupOldpkg spkg.addr with
        | fatal => simp [hdup, pkgDup] at h
        | nonfatal addr => simp [hdup, pkgDup] at h
        | success addr =>
          simp only [hdup, pkgDup, Option.map_some] at h ⊢
          refine hround _ (fun a hne => ?_) (fun installed' hfind => ⟨addr, ?_⟩) h
          · rw [Function.update_of_ne hne, Function.update_of_ne hne]
          · rw [← hget] at hfind
            rw [Function.update_self, ← Option.some.inj hfind]

/-- The flags do not ask to leave dependencies or their versions out. -/
structure Strict (flags : TransFlags) : Prop where
  nodeps : flags.nodeps = false
  nodepversion : flags.nodepversion = false

theorem syncPrepare_oldpkgs {s' : Session} (hobjects : Objects handle s.trans.add)
    (hunique : s.Unique) (h : syncPrepare handle env s = .ok data s') :
    OldpkgsSet handle s'.trans.add s'.fields := by
  obtain ⟨d₁, s₁, -, hrest⟩ := Outcome.bind_eq_ok.mp h
  obtain ⟨d₄, s₄, -, hlast⟩ := Outcome.bind_eq_ok.mp hrest
  obtain ⟨d₅, s₅, -, htargets⟩ := Outcome.bind_eq_ok.mp hlast
  have hend : Within handle s s' := by
    have hall := syncPrepare_within handle env s
    rwa [h] at hall
  have hunique' : s'.Unique := by
    have hall := @syncPrepare_unique handle env s hunique
    rwa [h] at hall
  have htrans := prepareTargets_eq_ok htargets
  have hobjects' := hobjects.mono hend.add
  have hnames : ∀ p ∈ s'.trans.add, p.name ≠ [] :=
    fun p hp => hobjects'.named p (List.mem_append_left _ hp)
  have haddrs := hobjects'.addrs_nodup hunique'.add
  unfold prepareTargets at htargets
  rcases hload : loadTargets handle env s₅.trans.add s₅.fields with ⟨_ | pmErrno, fields⟩
  · simp only [hload] at htargets
    obtain ⟨-, rfl⟩ := Outcome.ok.inj htargets
    have hset := (@loadTargets_oldpkg handle env _ s₅.fields hnames haddrs
      (congrArg Prod.fst hload)).2
    rwa [hload] at hset
  · simp [hload] at htargets

theorem syncPrepare_consistent {s' : Session} (hstrict : Strict s.trans.flags)
    (hbefore : (s.trans.flags.depContext handle.assumeinstalled).Consistent
      handle.dbLocal.pkgcache)
    (h : syncPrepare handle env s = .ok data s') : s'.Consistent handle := by
  obtain ⟨d₁, s₁, -, hrest⟩ := Outcome.bind_eq_ok.mp h
  obtain ⟨d₄, s₄, -, hlast⟩ := Outcome.bind_eq_ok.mp hrest
  obtain ⟨d₅, s₅, hcheck, htargets⟩ := Outcome.bind_eq_ok.mp hlast
  have hend : Within handle s s' := by
    have hall := syncPrepare_within handle env s
    rwa [h] at hall
  have htrans := prepareTargets_eq_ok htargets
  have hflags : s₄.trans.flags = s.trans.flags := by
    have hsame : s₅ = s₄ := by
      unfold prepareCheckdeps at hcheck
      simp only at hcheck
      split_ifs at hcheck <;> exact (Outcome.ok.inj hcheck).2.symm
    rw [← hsame, ← htrans, hend.flags]
  obtain ⟨rfl, hnone⟩ := prepareCheckdeps_eq_ok (hflags ▸ hstrict.nodeps) hcheck
  unfold Session.Consistent
  rw [htrans]
  rw [hflags] at hnone ⊢
  exact consistent_of_checkdeps hstrict.nodepversion hbefore hnone

/-- Without `NODEPVERSION` the check finds nothing after a removal was prepared. -/
theorem checkdeps_removePrepare_strict {localdb : List Pkg} {dup : ℕ → DupOutcome}
    (hlocal : (localdb.map Pkg.name).Nodup) {flags : TransFlags} (hstrict : Strict flags)
    {assumeinstalled : List Depend} {remove : List Pkg}
    (hret : (removePrepare localdb dup flags assumeinstalled remove).ret = 0) :
    checkdeps (flags.depContext assumeinstalled) localdb
      (removePrepare localdb dup flags assumeinstalled remove).remove [] true = [] := by
  by_cases hboth : flags.cascade ∧ flags.recurse
  · obtain ⟨hcascade, hrecurse⟩ := hboth
    obtain ⟨hchecked, hrecursed, hremove⟩ :=
      removePrepare_eq_recursedeps hstrict.nodeps hcascade hrecurse hret
    obtain ⟨added, hadded, hpulled, hkind, hnone⟩ :=
      removeCheckdeps_cascade hlocal hcascade hchecked
    rw [hadded] at hrecursed hremove
    rw [hremove]
    refine (checkdeps_recursedeps hlocal hpulled hkind hnone hrecursed).mpr fun hrecurses => ?_
    exact absurd (hstrict.nodepversion.symm.trans hrecurses.1) (by decide)
  · obtain ⟨remove', hchecked, hremove⟩ :=
      removePrepare_eq_removeCheckdeps hstrict.nodeps hboth hret
    rw [hremove]
    exact checkdeps_removeCheckdeps hlocal hchecked

theorem removePrepare_ret (localdb : List Pkg) (dup : ℕ → DupOutcome) (flags : TransFlags)
    (assumeinstalled : List Depend) (remove : List Pkg) :
    (removePrepare localdb dup flags assumeinstalled remove).ret = 0 ∨
      (removePrepare localdb dup flags assumeinstalled remove).ret = -1 := by
  unfold removePrepare
  simp only
  generalize (if flags.recurse ∧ ¬ flags.cascade
    then recursedeps localdb remove flags.recurseall dup else (0, remove)) = recursed
  by_cases hrecursed : recursed.1 ≠ 0
  · exact Or.inr (by rw [if_pos hrecursed])
  rw [if_neg hrecursed]
  generalize (if flags.nodeps then { ret := 0, remove := recursed.2 }
    else removeCheckdeps (flags.depContext assumeinstalled) localdb dup flags recursed.2 :
      RemovePrepared) = checked
  by_cases hchecked : checked.ret ≠ 0
  · exact Or.inr (by rw [if_pos hchecked])
  rw [if_neg hchecked]
  show (if _ then (-1 : Int) else 0) = 0 ∨ (if _ then (-1 : Int) else 0) = -1
  split_ifs <;> simp

theorem prepareRemoval_checkdeps {s' : Session} (hlocal : DistinctNames handle.dbLocal.pkgcache)
    (hstrict : Strict s.trans.flags) (h : prepareRemoval handle env s = .ok data s') :
    s'.trans.add = s.trans.add ∧ s'.trans.flags = s.trans.flags ∧
      checkdeps (s.trans.flags.depContext handle.assumeinstalled) handle.dbLocal.pkgcache
        s'.trans.remove [] true = [] := by
  unfold prepareRemoval at h
  simp only at h
  split_ifs at h with hret
  obtain ⟨-, rfl⟩ := Outcome.ok.inj h
  refine ⟨rfl, rfl, checkdeps_removePrepare_strict hlocal hstrict ?_⟩
  rcases removePrepare_ret handle.dbLocal.pkgcache env.dup s.trans.flags handle.assumeinstalled
    s.trans.remove with hzero | hfail
  · exact hzero
  · exact absurd hfail hret

/-! ## The invariants of a transaction -/

/-- The invariant of a transaction, whatever its flags. -/
structure Session.Tracked (handle : Handle) (s : Session) : Prop where
  unique : s.Unique
  objects : Objects handle s.trans.add
  oldpkgs : s.trans.state = .prepared → OldpkgsSet handle s.trans.add s.fields

/-- The invariant of a transaction whose flags do not ask to leave anything out. -/
structure Session.Sound (handle : Handle) (s : Session) : Prop where
  strict : Strict s.trans.flags
  consistent : s.trans.state = .prepared → s.Consistent handle

theorem Session.Tracked.within {s' : Session} (h : s.Tracked handle)
    (hwithin : Within handle s s') (hunique : s'.Unique) (hstate : s.trans.state ≠ .prepared) :
    s'.Tracked handle where
  unique := hunique
  objects := h.objects.mono hwithin.add
  oldpkgs hprepared := absurd (hwithin.state.symm.trans hprepared) hstate

theorem Session.Sound.within {s' : Session} (h : s.Sound handle) (hwithin : Within handle s s')
    (hstate : s.trans.state ≠ .prepared) : s'.Sound handle where
  strict := hwithin.flags ▸ h.strict
  consistent hprepared := absurd (hwithin.state.symm.trans hprepared) hstate

theorem mem_resultPkgs_of_perm {localdb remove remove' add add' : List Pkg}
    (hremove : remove'.Perm remove) (hadd : add'.Perm add) (p : Pkg) :
    p ∈ resultPkgs localdb remove' add' ↔ p ∈ resultPkgs localdb remove add := by
  simp only [resultPkgs, List.mem_append, mem_keptPkgs, (hremove.map Pkg.name).mem_iff,
    (hadd.map Pkg.name).mem_iff, hadd.mem_iff]

theorem sortTargets_perm (hlocal : DistinctNames handle.dbLocal.pkgcache)
    (targets ignore : List Pkg) (reverse : Bool) :
    (sortTargets handle targets ignore reverse).Perm targets := by
  obtain ⟨result, warnings, hsort, hperm⟩ :=
    exists_sortbydeps_perm handle.dbLocal.pkgcache targets ignore reverse hlocal
  simp only [sortTargets, hsort]
  exact hperm

/-- The sort at the end of a preparation rearranges the lists of the transaction. -/
theorem sortTrans_spec {data' : List ErrorData} {s' : Session}
    (hlocal : DistinctNames handle.dbLocal.pkgcache)
    (hsort : sortTrans handle data s = .ok data' s') :
    s'.trans.flags = s.trans.flags ∧ s'.fields = s.fields ∧
      s'.trans.add.Perm s.trans.add ∧ s'.trans.remove.Perm s.trans.remove := by
  unfold sortTrans at hsort
  obtain ⟨-, rfl⟩ := Outcome.ok.inj hsort
  by_cases hnodeps : s.trans.flags.nodeps
  · simp only [hnodeps, if_true]
    exact ⟨trivial, trivial, List.Perm.refl _, List.Perm.refl _⟩
  · simp only [hnodeps, Bool.false_eq_true, if_false]
    exact ⟨trivial, trivial, sortTargets_perm hlocal s.trans.add s.trans.remove false,
      sortTargets_perm hlocal s.trans.remove [] true⟩

theorem Session.Consistent.of_perm {s' : Session} (h : s.Consistent handle)
    (hflags : s'.trans.flags = s.trans.flags) (hadd : s'.trans.add.Perm s.trans.add)
    (hremove : s'.trans.remove.Perm s.trans.remove) : s'.Consistent handle := by
  have hmem := @mem_resultPkgs_of_perm handle.dbLocal.pkgcache _ _ _ _ hremove hadd
  unfold Session.Consistent
  rw [hflags]
  exact DepContext.Consistent.of_stands h (fun p hp => ⟨p, (hmem p).mp hp, rfl, rfl, rfl, rfl⟩)
    fun p hp => ⟨p, (hmem p).mpr hp, rfl, rfl, rfl, rfl⟩

/-- `alpm_trans_prepare` between its checks and its sort. -/
def preparation (handle : Handle) (env : PrepareEnv) (s : Session) : Outcome :=
  if s.trans.add = [] then prepareRemoval handle env s else syncPrepare handle env s

/-- What `alpm_trans_prepare` may come to. -/
theorem transPrepare_cases {s' : Session}
    (hend : (transPrepare handle env s).session = some s') :
    s' = s ∨ s.trans.state = .initialized ∧
      ((∃ pmErrno data, preparation handle env s = .fail pmErrno data s') ∨
        ∃ data t data', preparation handle env s = .ok data t ∧
          sortTrans handle data t = .ok data' s') := by
  by_cases hstate : s.trans.state ≠ .initialized
  · exact Or.inl (by simpa [transPrepare, hstate, Outcome.session] using hend.symm)
  by_cases hempty : s.trans.add = [] ∧ s.trans.remove = []
  · exact Or.inl (by simpa [transPrepare, hstate, hempty, Outcome.session] using hend.symm)
  by_cases harch : checkArch handle s.trans.add ≠ []
  · exact Or.inl (by simpa [transPrepare, hstate, hempty, harch, Outcome.session] using hend.symm)
  refine Or.inr ⟨not_not.mp hstate, ?_⟩
  have htrans : transPrepare handle env s = (preparation handle env s).bind (sortTrans handle) := by
    simp only [transPrepare, hstate, hempty, harch, if_false, preparation]
  rw [htrans] at hend
  cases hprepared : preparation handle env s with
  | crash => simp [hprepared, Outcome.bind, Outcome.session] at hend
  | fail pmErrno data t =>
    rw [hprepared] at hend
    obtain rfl : t = s' := Option.some.inj hend
    exact Or.inl ⟨pmErrno, data, rfl⟩
  | ok data t =>
    obtain ⟨data', u, hsort⟩ : ∃ data' u, sortTrans handle data t = .ok data' u := ⟨_, _, rfl⟩
    obtain rfl : u = s' := by simpa [hprepared, Outcome.bind, hsort, Outcome.session] using hend
    exact Or.inr ⟨data, t, data', rfl, hsort⟩

theorem preparation_within (handle : Handle) (env : PrepareEnv) (s : Session) :
    (preparation handle env s).All (Within handle s) := by
  unfold preparation
  split_ifs
  · exact prepareRemoval_within
  · exact syncPrepare_within handle env s

theorem preparation_unique (hlocal : DistinctNames handle.dbLocal.pkgcache) (h : s.Unique) :
    (preparation handle env s).All Session.Unique := by
  unfold preparation
  split_ifs
  · exact prepareRemoval_unique hlocal h
  · exact syncPrepare_unique h

theorem preparation_oldpkgs {s' : Session} (hobjects : Objects handle s.trans.add)
    (hunique : s.Unique) (h : preparation handle env s = .ok data s') :
    OldpkgsSet handle s'.trans.add s'.fields := by
  unfold preparation at h
  split_ifs at h with hadd
  · unfold prepareRemoval at h
    simp only at h
    split_ifs at h
    obtain ⟨-, rfl⟩ := Outcome.ok.inj h
    intro p hp
    rw [show s.trans.add = [] from hadd] at hp
    exact absurd hp List.not_mem_nil
  · exact syncPrepare_oldpkgs hobjects hunique h

theorem preparation_consistent {s' : Session} (hlocal : DistinctNames handle.dbLocal.pkgcache)
    (hstrict : Strict s.trans.flags)
    (hbefore : (s.trans.flags.depContext handle.assumeinstalled).Consistent
      handle.dbLocal.pkgcache)
    (h : preparation handle env s = .ok data s') : s'.Consistent handle := by
  unfold preparation at h
  split_ifs at h with hadd
  · obtain ⟨hsame, hflags, hnone⟩ := prepareRemoval_checkdeps hlocal hstrict h
    unfold Session.Consistent
    rw [hsame, hadd, hflags]
    exact consistent_of_checkdeps hstrict.nodepversion hbefore hnone
  · exact syncPrepare_consistent hstrict hbefore h

/-- **`alpm_trans_prepare` keeps the invariants**, whether it succeeds or not.  On failure the state
is not `STATE_PREPARED`, and what is known of a prepared transaction is not asked for. -/
theorem Session.Tracked.transPrepare {s' : Session} (h : s.Tracked handle)
    (hlocal : DistinctNames handle.dbLocal.pkgcache)
    (hend : (Sync.transPrepare handle env s).session = some s') : s'.Tracked handle := by
  obtain rfl | ⟨hstate, hcases⟩ := transPrepare_cases hend
  · exact h
  have hunprepared : s.trans.state ≠ .prepared := by
    rw [hstate]
    decide
  have hwithin := preparation_within handle env s
  have hunique := @preparation_unique handle env s hlocal h.unique
  rcases hcases with ⟨pmErrno, data, hfail⟩ | ⟨data, t, data', hok, hsort⟩
  · rw [hfail] at hwithin hunique
    exact h.within hwithin hunique hunprepared
  · have hold := preparation_oldpkgs h.objects h.unique hok
    rw [hok] at hwithin hunique
    obtain ⟨-, hfields, hadd, hremove⟩ := sortTrans_spec hlocal hsort
    refine ⟨⟨?_, ?_⟩, (h.objects.mono hwithin.add).mono ?_, fun _ p hp => ?_⟩
    · exact (hadd.map Pkg.name).nodup_iff.mpr hunique.add
    · exact (hremove.map Pkg.name).nodup_iff.mpr hunique.remove
    · exact fun p hp => List.mem_append_left _ (hadd.mem_iff.mp hp)
    · rw [hfields]
      exact hold p (hadd.mem_iff.mp hp)

theorem Session.Sound.transPrepare {s' : Session} (h : s.Sound handle)
    (hlocal : DistinctNames handle.dbLocal.pkgcache)
    (hbefore : (s.trans.flags.depContext handle.assumeinstalled).Consistent
      handle.dbLocal.pkgcache)
    (hend : (Sync.transPrepare handle env s).session = some s') : s'.Sound handle := by
  obtain rfl | ⟨hstate, hcases⟩ := transPrepare_cases hend
  · exact h
  have hunprepared : s.trans.state ≠ .prepared := by
    rw [hstate]
    decide
  have hwithin := preparation_within handle env s
  rcases hcases with ⟨pmErrno, data, hfail⟩ | ⟨data, t, data', hok, hsort⟩
  · rw [hfail] at hwithin
    exact h.within hwithin hunprepared
  · have hconsistent := preparation_consistent hlocal h.strict hbefore hok
    rw [hok] at hwithin
    obtain ⟨hflags, -, hadd, hremove⟩ := sortTrans_spec hlocal hsort
    exact ⟨(hflags.trans hwithin.flags).symm ▸ h.strict, fun _ =>
      hconsistent.of_perm hflags hadd hremove⟩

/-! ## The other calls of a transaction -/

theorem addPkg_spec (handle : Handle) (pkg : Pkg) (s : Session) :
    (addPkg handle pkg s).s.trans.flags = s.trans.flags ∧
      (addPkg handle pkg s).s.trans.state = s.trans.state ∧
      (addPkg handle pkg s).s.trans.add ⊆ s.trans.add ++ [pkg] := by
  have hsame : s.trans.add ⊆ s.trans.add ++ [pkg] := List.subset_append_left _ _
  unfold addPkg
  by_cases horigin : pkg.origin = .localdb
  · rw [if_pos horigin]
    exact ⟨rfl, rfl, hsame⟩
  by_cases hstate : s.trans.state ≠ .initialized
  · rw [if_neg horigin, if_pos hstate]
    exact ⟨rfl, rfl, hsame⟩
  rw [if_neg horigin, if_neg hstate]
  cases pkgFind s.trans.add pkg.name with
  | some dup =>
    simp only
    split_ifs <;> exact ⟨rfl, rfl, hsame⟩
  | none =>
    simp only
    split_ifs
    · exact ⟨rfl, rfl, hsame⟩
    · exact ⟨rfl, rfl, List.Subset.refl _⟩

theorem addPkg_within {pkg : Pkg} (hpkg : pkg ∈ choosable handle s.trans.add) :
    Within handle s (addPkg handle pkg s).s := by
  obtain ⟨hflags, hstate, hadd⟩ := addPkg_spec handle pkg s
  refine ⟨hflags, hstate, fun p hp => ?_⟩
  rcases List.mem_append.mp (hadd hp) with hp | hp
  · exact List.mem_append_left _ hp
  · exact List.mem_singleton.mp hp ▸ hpkg

theorem removePkg_within (outcome : DupOutcome) (pkg : Pkg) :
    Within handle s (removePkg outcome pkg s).s := by
  unfold removePkg
  split_ifs
  · exact .refl handle s
  · exact .refl handle s
  · exact .refl handle s
  · cases outcome with
    | fatal => exact .refl handle s
    | nonfatal addr => exact (Within.refl handle s).of_subset rfl rfl (List.Subset.refl _)
    | success addr => exact (Within.refl handle s).of_subset rfl rfl (List.Subset.refl _)

theorem upgradeFrom_within {enableDowngrade : Bool} {lpkg : Pkg} {dbs : List Db}
    (hdbs : dbs ⊆ handle.dbsSync) (h : Within handle s₀ s) :
    Within handle s₀ (upgradeFrom handle enableDowngrade lpkg dbs s) := by
  induction dbs generalizing s with
  | nil => exact h
  | cons sdb dbs ih =>
    have hrest : dbs ⊆ handle.dbsSync := fun db hdb => hdbs (List.mem_cons_of_mem sdb hdb)
    have hcache : sdb.pkgcache ⊆ handle.dbsSync.flatMap Db.pkgcache := fun p hp =>
      List.mem_flatMap.mpr ⟨sdb, hdbs (List.mem_cons_self ..), hp⟩
    obtain ⟨hsub, -⟩ := @checkReplacers_spec handle s.trans.add sdb.pkgcache lpkg sdb
      s.fields s.asked
    have hsame : ∀ fields asked, Within handle s₀ { s with
        fields
        asked } := fun fields asked => h.of_subset rfl rfl (List.Subset.refl _)
    have hgrown : ∀ (new : List Pkg) (fields : ℕ → PkgFields) (asked : ℕ),
        new ⊆ handle.dbsSync.flatMap Db.pkgcache → Within handle s₀ { s with
          trans := { s.trans with add := s.trans.add ++ new }
          fields
          asked } := by
      intro new fields asked hnew
      refine h.of_choosable rfl rfl fun p hp => ?_
      rcases List.mem_append.mp hp with hp | hp
      · exact List.mem_append_left _ hp
      · exact List.mem_append_right _ (hnew hp)
    rw [upgradeFrom]
    simp only
    split_ifs
    · exact ih hrest h
    · exact hgrown _ _ _ fun p hp => hcache (hsub.subset hp)
    · cases hfind : pkgFind sdb.pkgcache lpkg.name with
      | none => exact ih hrest (hsame _ _)
      | some spkg =>
        simp only
        split_ifs
        · refine hgrown _ _ _ fun p hp => ?_
          exact List.mem_singleton.mp hp ▸ hcache (pkgFind_eq_some hfind).1
        · exact hsame _ _

theorem sysupgrade_within (enableDowngrade : Bool) :
    Within handle s (sysupgrade handle enableDowngrade s).s := by
  have hloop : ∀ (pkgs : List Pkg) (t : Session), Within handle s t →
      Within handle s (pkgs.foldl (upgradePkg handle enableDowngrade) t) := by
    intro pkgs
    induction pkgs with
    | nil => exact fun t h => h
    | cons lpkg pkgs ih =>
      refine fun t h => ih _ ?_
      unfold upgradePkg
      split_ifs
      · exact h
      · exact h
      · exact upgradeFrom_within (List.Subset.refl _) h
  unfold sysupgrade
  split_ifs
  · exact .refl handle s
  · exact hloop _ s (.refl handle s)

/-- A call that adds packages to a transaction that is not being put together leaves it alone. -/
theorem Call.run_of_not_initialized {call : Call} {s' : Session}
    (hstate : s.trans.state ≠ .initialized) (hrun : call.run handle s = some s') : s' = s := by
  cases call with
  | addPkg pkg =>
    rw [← Option.some.inj hrun, Sync.addPkg]
    split_ifs <;> rfl
  | removePkg outcome pkg =>
    rw [← Option.some.inj hrun, Sync.removePkg]
    split_ifs <;> rfl
  | sysupgrade enableDowngrade =>
    rw [← Option.some.inj hrun, Sync.sysupgrade]
    split_ifs
    rfl
  | transPrepare env =>
    simpa [Call.run, Sync.transPrepare, hstate, Outcome.session] using hrun.symm

/-- A package from a repository that can be a target. -/
def Call.FromRepos (handle : Handle) : Call → Prop
  | .addPkg pkg => pkg ∈ handle.dbsSync.flatMap Db.pkgcache
  | _ => True

/-- A call on a transaction that is being put together is a preparation or stays within it. -/
theorem Call.run_within {call : Call} {s' : Session} (hcall : call.FromRepos handle)
    (hrun : call.run handle s = some s') :
    (∃ env, call = .transPrepare env) ∨ Within handle s s' := by
  cases call with
  | addPkg pkg =>
    obtain rfl := Option.some.inj hrun
    exact Or.inr (addPkg_within (List.mem_append_right _ hcall))
  | removePkg outcome pkg =>
    obtain rfl := Option.some.inj hrun
    exact Or.inr (removePkg_within outcome pkg)
  | sysupgrade enableDowngrade =>
    obtain rfl := Option.some.inj hrun
    exact Or.inr (sysupgrade_within enableDowngrade)
  | transPrepare env => exact Or.inl ⟨env, rfl⟩

/-- The targets after a call are targets of before or come from the repositories. -/
theorem Call.run_add_subset {call : Call} {s' : Session}
    (hlocal : DistinctNames handle.dbLocal.pkgcache) (hcall : call.FromRepos handle)
    (hrun : call.run handle s = some s') : s'.trans.add ⊆ choosable handle s.trans.add := by
  obtain ⟨env, rfl⟩ | hwithin := Call.run_within hcall hrun
  · obtain rfl | ⟨-, hcases⟩ := transPrepare_cases hrun
    · exact List.subset_append_left _ _
    have hwithin := preparation_within handle env s
    rcases hcases with ⟨pmErrno, data, hfail⟩ | ⟨data, t, data', hok, hsort⟩
    · rw [hfail] at hwithin
      exact hwithin.add
    · rw [hok] at hwithin
      obtain ⟨-, -, hadd, -⟩ := sortTrans_spec hlocal hsort
      exact fun p hp => hwithin.add (hadd.subset hp)
  · exact hwithin.add

/-- **A call keeps the invariants of its transaction.**  It is a preparation, or it stays within
what can be chosen, or it is refused because the transaction is not being put together any more. -/
theorem Session.Tracked.call {call : Call} {s' : Session} (h : s.Tracked handle)
    (hlocal : DistinctNames handle.dbLocal.pkgcache)
    (hrepos : ∀ db ∈ handle.dbsSync, DistinctNames db.pkgcache)
    (hcall : call.FromRepos handle) (hrun : call.run handle s = some s') : s'.Tracked handle := by
  by_cases hstate : s.trans.state = .initialized
  · have hunprepared : s.trans.state ≠ .prepared := by
      rw [hstate]
      decide
    obtain ⟨env, rfl⟩ | hwithin := Call.run_within hcall hrun
    · exact h.transPrepare hlocal hrun
    · exact h.within hwithin (Call.preserves_unique hlocal hrepos h.unique hrun) hunprepared
  · exact Call.run_of_not_initialized hstate hrun ▸ h

theorem Session.Sound.call {call : Call} {s' : Session} (h : s.Sound handle)
    (hlocal : DistinctNames handle.dbLocal.pkgcache)
    (hbefore : (s.trans.flags.depContext handle.assumeinstalled).Consistent
      handle.dbLocal.pkgcache)
    (hcall : call.FromRepos handle) (hrun : call.run handle s = some s') : s'.Sound handle := by
  by_cases hstate : s.trans.state = .initialized
  · have hunprepared : s.trans.state ≠ .prepared := by
      rw [hstate]
      decide
    obtain ⟨env, rfl⟩ | hwithin := Call.run_within hcall hrun
    · exact h.transPrepare hlocal hbefore hrun
    · exact h.within hwithin hunprepared
  · exact Call.run_of_not_initialized hstate hrun ▸ h

end

end Alpm.Sync
