import Alpm.General.Execution
import Alpm.Sync.Prepared

/-!
# The life of a handle

A front end opens a handle, makes transactions with it one after the other, and closes it.  Here
the calls of a transaction are put together to a machine whose steps are the calls on a handle, so
that what the single calls keep can be said of whole sessions.

## 1.  The machine

The calls on a handle come in any order: `alpm_trans_init`, `alpm_pkg_load` followed by
`alpm_add_pkg`, the other calls that make up a transaction, `alpm_trans_commit` and
`alpm_trans_release`.  A call in the wrong state does nothing, and after a download `trans->state`
is no longer `STATE_PREPARED`, so a transaction with targets to install is committed at most once.
A call that does not come back (a `strdup` or `strcmp` of `NULL` on the way) is no step: a run ends
before it.

## 2.  What holds of every run

The dependencies of the installed packages stay satisfied as long as no transaction asks to leave
them out and no commit is cut short (`Life.consistent_of_execution`).  And whatever the flags,
failures and interruptions, a package that is installed during a run comes from a file that was
validated (`Life.installed_of_execution`).  Both are invariants (`Life.Tracked` with `Life.Sound`,
and `Life.Accounted`), with one lemma for the step and `Execution.invariant` for the run.
-/

namespace Alpm.Sync

/-! ## The calls -/

/-- The transaction of a handle, with the flags that only a commit looks at. -/
structure Opened where
  session : Session
  downloadonly : Bool := false
  nohooks : Bool := false

/-- An entry of the log of what was loaded. -/
inductive LogEntry where
  /-- `alpm_pkg_load` has returned the package -/
  | file (env : FileEnv) (filename : CString) (level : SigLevel) (pkg : Pkg)
  /-- `_alpm_sync_load` was called for the targets -/
  | commit (env : LoadEnv) (fields : ℕ → PkgFields) (add : List Pkg)

/-- A handle between two calls, the files it installs, and what is left of earlier
transactions in the package objects.  `log` is there for the statements only. -/
structure Life where
  handle : Handle
  opts : FileOptions := {}
  fs : FileSystem
  opened : Option Opened := none
  fields : ℕ → PkgFields := fun _ => {}
  asked : ℕ := 0
  log : List LogEntry := []

/-- What the calls in `alpm_trans_commit` answer, and before which rounds of its loops
`alpm_trans_interrupt` is called. -/
structure CommitEnv where
  load : LoadEnv
  sys : System
  checkDiskspace : Int
  preTransaction : Int
  signal : ℕ → Bool

/-- `_alpm_sync_check`: the return value and `trans->skip_remove`.  Conflicts of files end the
commit, and so does a lack of disk space if that is checked. -/
def syncCheck (env : CommitEnv) (life : Life) (flags : TransFlags) (targets : List AddTarget)
    (remove : List Pkg) : Int × List CString :=
  if flags.dbonly then (0, [])
  else
    let check : ConflictCheck :=
      { sys := env.sys
        opts := life.opts
        fs := life.fs
        localdb := life.handle.dbLocal.pkgcache
        upgrade := targets.map (·.pkg)
        rem := remove }
    let found := check.findFileconflicts
    if found.conflicts ≠ [] then (-1, found.skipRemove)
    else if env.load.checkspace ∧ env.checkDiskspace = -1 then (-1, found.skipRemove)
    else (0, found.skipRemove)

/-- The hooks before a transaction, and what the loops of the commit are given. -/
def runPreHooks (env : CommitEnv) (o : Opened) (targets : List AddTarget)
    (skipRemove : List CString) : Except Int (List AddTarget × List CString) :=
  if !o.nohooks ∧ env.preTransaction ≠ 0 then .error (-1) else .ok (targets, skipRemove)

/-- `alpm_trans_commit` after `_alpm_sync_load`, up to its loops. -/
def afterLoad (env : CommitEnv) (life : Life) (o : Opened) (loaded : Loaded) :
    Except Int (List AddTarget × List CString) :=
  if loaded.ret ≠ 0 then .error (-1)
  else if o.downloadonly then .error 0
  else
    let (ret, skipRemove) :=
      syncCheck env life o.session.trans.flags loaded.targets o.session.trans.remove
    if ret ≠ 0 then .error (-1) else runPreHooks env o loaded.targets skipRemove

/-- `alpm_trans_commit` up to its loops, if it gets there: the targets and `trans->skip_remove`, or
the value that it returns without having changed anything. -/
def beforeCommit (env : CommitEnv) (life : Life) (o : Opened) :
    Option (Except Int (List AddTarget × List CString)) :=
  let s := o.session
  if s.trans.add = [] then some (runPreHooks env o [] [])
  else (syncLoad env.load s.fields o.downloadonly s.trans.add).map (afterLoad env life o)

/-- The loops of `alpm_trans_commit`. -/
def commitLoops (env : CommitEnv) (life : Life) (o : Opened) (targets : List AddTarget)
    (skipRemove : List CString) : Bool × CommitState :=
  let ctx : CommitContext := ⟨env.sys, life.opts, o.session.trans.flags, skipRemove⟩
  ctx.commitUntil env.signal o.session.trans.remove targets life.fs life.handle.dbLocal.pkgcache

/-- What `download_files` leaves in the transaction. -/
def Opened.downloaded (o : Opened) : Opened :=
  let s := o.session
  if s.trans.add = [] then o
  else
    { o with session := { s with
        trans := { s.trans with state := .downloading }
        fields := fun addr =>
          if s.trans.add.any (·.addr = addr) then { s.fields addr with downloadSize := 0 }
          else s.fields addr } }

def Opened.setState (o : Opened) (state : TransState) : Opened :=
  { o with session := { o.session with trans := { o.session.trans with state } } }

namespace Life

/-- `alpm_trans_init`, when `_alpm_handle_lock` and `CALLOC` succeed or not.  The fields that
packages had in an earlier transaction are still there. -/
def transInit (flags : TransFlags) (downloadonly nohooks lock calloc : Bool) (life : Life) :
    Life :=
  if life.opened.isSome then life
  else if !flags.nolock ∧ !lock then life
  else if !calloc then life
  else
    let session : Session :=
      { trans := { flags, state := .initialized }
        fields := life.fields
        asked := life.asked }
    { life with opened := some ⟨session, downloadonly, nohooks⟩ }

/-- `alpm_pkg_load`, and `alpm_add_pkg` with the package. -/
def addFile (env : FileEnv) (filename : CString) (level : SigLevel) (life : Life) : Life :=
  match pkgLoad env filename level, life.opened with
  | some pkg, some o =>
    { life with
      opened := some { o with session := (addPkg life.handle pkg o.session).s }
      log := life.log ++ [.file env filename level pkg] }
  | _, _ => life

/-- `alpm_trans_commit`: the return value and the handle afterwards, if it comes back.  What is done
before the loops may fail and leaves the files and the database alone; the loops change both, and
how they end sets the state. -/
def transCommit (env : CommitEnv) (life : Life) : Option (Int × Life) :=
  match life.opened with
  | none => some (-1, life)
  | some o =>
    let s := o.session
    if s.trans.state ≠ .prepared then some (-1, life)
    else if s.trans.flags.nolock then some (-1, life)
    -- if there's nothing to do, return without complaining
    else if s.trans.add = [] ∧ s.trans.remove = [] then some (0, life)
    else
      let log := life.log ++ [.commit env.load s.fields s.trans.add]
      match beforeCommit env life o with
      | none => none
      | some (.error ret) =>
        some (ret, { life with
          opened := some o.downloaded
          log })
      | some (.ok (targets, skipRemove)) =>
        let (failed, st) := commitLoops env life o targets skipRemove
        if st.crashed then none
        else
          some (if failed then -1 else 0,
            { life with
              handle := { life.handle with
                dbLocal := { life.handle.dbLocal with pkgcache := st.localdb } }
              fs := st.fs
              opened := some (o.downloaded.setState (if failed then .interrupted else .commited))
              log })

/-- The fields of the package objects after `_alpm_trans_free`. -/
def freeTrans (s : Session) : ℕ → PkgFields := fun addr =>
  if (s.trans.unresolvable ++ s.trans.add).any (·.addr = addr) then
    { s.fields addr with
      removes := []
      oldpkg := none }
  else s.fields addr

/-- `alpm_trans_release`. -/
def transRelease (life : Life) : Life :=
  match life.opened with
  | none => life
  | some o =>
    { life with
      opened := none
      fields := freeTrans o.session
      asked := o.session.asked }

/-- A call on a handle. -/
inductive Event where
  | transInit (flags : TransFlags) (downloadonly nohooks lock calloc : Bool)
  | addFile (env : FileEnv) (filename : CString) (level : SigLevel)
  | call (call : Call)
  | transCommit (env : CommitEnv)
  | transRelease

/-- The handle after a call, if the program gets there. -/
def step (life : Life) : Event → Option Life
  | .transInit flags downloadonly nohooks lock calloc =>
    some (life.transInit flags downloadonly nohooks lock calloc)
  | .addFile env filename level => some (life.addFile env filename level)
  | .call call =>
    match life.opened with
    | none => some life
    | some o => (call.run life.handle o.session).map fun session =>
        { life with opened := some { o with session } }
  | .transCommit env => (life.transCommit env).map Prod.snd
  | .transRelease => some life.transRelease

end Life

/-! ## Commits -/

section

variable {env : CommitEnv} {life : Life} {o : Opened} {targets : List AddTarget}
  {skipRemove : List CString}

theorem runPreHooks_eq_ok {targets' : List AddTarget} {skipRemove' : List CString}
    (h : runPreHooks env o targets skipRemove = .ok (targets', skipRemove')) :
    targets = targets' ∧ skipRemove = skipRemove' := by
  unfold runPreHooks at h
  split_ifs at h
  exact Prod.mk.inj (Except.ok.inj h)

/-- The targets of a commit that reaches its loops were let through. -/
theorem vouched_of_beforeCommit (h : beforeCommit env life o = some (.ok (targets, skipRemove))) :
    List.Forall₂ (Vouched env.load o.session.fields) o.session.trans.add targets := by
  unfold beforeCommit at h
  by_cases hadd : o.session.trans.add = []
  · rw [if_pos hadd] at h
    obtain ⟨rfl, -⟩ := runPreHooks_eq_ok (Option.some.inj h)
    rw [hadd]
    exact List.Forall₂.nil
  rw [if_neg hadd] at h
  obtain ⟨loaded, hload, hafter⟩ := Option.map_eq_some_iff.mp h
  unfold afterLoad at hafter
  split_ifs at hafter with hret honly
  dsimp only at hafter
  split_ifs at hafter
  obtain ⟨rfl, -⟩ := runPreHooks_eq_ok hafter
  rw [Bool.eq_false_iff.mpr honly] at hload
  exact forall₂_vouched hload (not_not.mp hret)

/-- The records of the repositories say of their packages what the files do, as far as dependencies
are concerned: the file that is loaded for a record has the same dependencies and provisions. -/
def Describes (env : LoadEnv) (add : List Pkg) : Prop :=
  ∀ spkg ∈ add, ∀ filepath pkgfile, spkg.filename.bind env.filecacheFind = some filepath →
    env.load filepath = some pkgfile →
      pkgfile.depends = spkg.depends ∧ pkgfile.provides = spkg.provides

theorem Vouched.name {env : LoadEnv} {fields : ℕ → PkgFields} {spkg : Pkg} {target : AddTarget}
    (h : Vouched env fields spkg target) : target.pkg.name = spkg.name := by
  cases h with
  | file horigin htarget =>
    rw [htarget]
    rfl
  | repo hrepo =>
    obtain ⟨filepath, pkgfile, -, -, hname, -, htarget⟩ := hrepo.file
    rw [htarget]
    exact hname

theorem Vouched.oldpkg {env : LoadEnv} {fields : ℕ → PkgFields} {spkg : Pkg} {target : AddTarget}
    (h : Vouched env fields spkg target) : target.oldpkg = (fields spkg.addr).oldpkg := by
  cases h with
  | file horigin htarget =>
    rw [htarget]
    rfl
  | repo hrepo => exact hrepo.oldpkg

/-- The entry of an installed target stands for what was prepared. -/
theorem Vouched.stands {env : LoadEnv} {fields : ℕ → PkgFields} {add : List Pkg} {spkg : Pkg}
    {target : AddTarget} (h : Vouched env fields spkg target) (hdescribes : Describes env add)
    (hspkg : spkg ∈ add) : (CommitContext.cacheEntry target.pkg).Stands spkg := by
  cases h with
  | file horigin htarget =>
    rw [htarget]
    exact ⟨rfl, rfl, rfl, rfl⟩
  | repo hrepo =>
    obtain ⟨filepath, pkgfile, hfind, hload, hname, hversion, htarget⟩ := hrepo.file
    obtain ⟨hdepends, hprovides⟩ := hdescribes spkg hspkg filepath pkgfile hfind hload
    rw [htarget]
    exact ⟨hname, hversion, hprovides, hdepends⟩

theorem names_of_vouched {env : LoadEnv} {fields : ℕ → PkgFields} {add : List Pkg}
    (h : List.Forall₂ (Vouched env fields) add targets) :
    targets.map (·.pkg.name) = add.map Pkg.name := by
  induction h with
  | nil => rfl
  | cons hhead _ ih => rw [List.map_cons, List.map_cons, ih, hhead.name]

end

section

variable {env : LoadEnv} {fields : ℕ → PkgFields} {add : List Pkg} {targets : List AddTarget}

theorem vouched_of_mem (h : List.Forall₂ (Vouched env fields) add targets) {target : AddTarget}
    (htarget : target ∈ targets) : ∃ spkg ∈ add, Vouched env fields spkg target := by
  induction h with
  | nil => exact absurd htarget List.not_mem_nil
  | @cons spkg t add targets hhead _ ih =>
    rcases List.mem_cons.mp htarget with rfl | htarget
    · exact ⟨spkg, List.mem_cons_self .., hhead⟩
    · obtain ⟨q, hq, hv⟩ := ih htarget
      exact ⟨q, List.mem_cons_of_mem _ hq, hv⟩

theorem exists_target_of_mem (h : List.Forall₂ (Vouched env fields) add targets) {spkg : Pkg}
    (hspkg : spkg ∈ add) : ∃ target ∈ targets, Vouched env fields spkg target := by
  induction h with
  | nil => exact absurd hspkg List.not_mem_nil
  | @cons p t add targets hhead _ ih =>
    rcases List.mem_cons.mp hspkg with rfl | hspkg
    · exact ⟨t, List.mem_cons_self .., hhead⟩
    · obtain ⟨u, hu, hv⟩ := ih hspkg
      exact ⟨u, List.mem_cons_of_mem _ hu, hv⟩

end

section

variable {env : CommitEnv} {life : Life} {o : Opened} {targets : List AddTarget}
  {skipRemove : List CString}

/-- The commit finds the old version of every target that has one. -/
theorem hasOldpkg_of_vouched (hold : OldpkgsSet life.handle o.session.trans.add o.session.fields)
    (hvouched : List.Forall₂ (Vouched env.load o.session.fields) o.session.trans.add targets) :
    ∀ target ∈ targets,
      CommitContext.HasOldpkg (life.handle.dbLocal.pkgcache.map Pkg.name) target := by
  intro target htarget hin
  obtain ⟨spkg, hspkg, hv⟩ := vouched_of_mem hvouched htarget
  rw [hv.name] at hin ⊢
  obtain ⟨installed, hfind⟩ := Option.isSome_iff_exists.mp (pkgFind_isSome.mpr hin)
  obtain ⟨addr, hset⟩ := hold spkg hspkg installed hfind
  exact ⟨_, hv.oldpkg.trans hset, (pkgFind_eq_some hfind).2⟩

/-- A commit puts nothing into the package cache but entries for targets that were let
through, however it ends. -/
theorem commitLoops_account (hlocal : DistinctNames life.handle.dbLocal.pkgcache)
    (htracked : o.session.Tracked life.handle) (hstate : o.session.trans.state = .prepared)
    (hbefore : beforeCommit env life o = some (.ok (targets, skipRemove))) :
    DistinctNames (commitLoops env life o targets skipRemove).2.localdb ∧
      ∀ p ∈ (commitLoops env life o targets skipRemove).2.localdb,
        p ∈ life.handle.dbLocal.pkgcache ∨ ∃ spkg ∈ o.session.trans.add, ∃ target,
          Vouched env.load o.session.fields spkg target ∧
            p = CommitContext.cacheEntry target.pkg := by
  have hvouched := vouched_of_beforeCommit hbefore
  obtain ⟨hdistinct, hall⟩ := CommitContext.commitUntil_account
    (names_of_vouched hvouched ▸ htracked.unique.add) hlocal
    (hasOldpkg_of_vouched (htracked.oldpkgs hstate) hvouched)
  refine ⟨hdistinct, fun p hp => (hall p hp).imp_right ?_⟩
  rintro ⟨target, htarget, rfl⟩
  obtain ⟨spkg, hspkg, hv⟩ := vouched_of_mem hvouched htarget
  exact ⟨spkg, hspkg, target, hv, rfl⟩

/-- **A commit that gets through its loops** leaves a consistent database.  The check of the
preparation was about the targets, and what is in the cache afterwards stands for them. -/
theorem commitLoops_consistent (hlocal : DistinctNames life.handle.dbLocal.pkgcache)
    (htracked : o.session.Tracked life.handle) (hsound : o.session.Sound life.handle)
    (hstate : o.session.trans.state = .prepared)
    (hbefore : beforeCommit env life o = some (.ok (targets, skipRemove)))
    (hdescribes : Describes env.load o.session.trans.add)
    (hthrough : (commitLoops env life o targets skipRemove).2.interrupted = false) :
    (o.session.trans.flags.depContext life.handle.assumeinstalled).Consistent
      (commitLoops env life o targets skipRemove).2.localdb := by
  have hvouched := vouched_of_beforeCommit hbefore
  have hnames := names_of_vouched hvouched
  obtain ⟨-, hmem⟩ := CommitContext.mem_commitUntil (hnames ▸ htracked.unique.add) hlocal
    (hasOldpkg_of_vouched (htracked.oldpkgs hstate) hvouched) hthrough
  refine (hsound.consistent hstate).of_stands (fun p hp => ?_) fun q hq => ?_
  · rcases (hmem p).mp hp with hkept | ⟨target, htarget, rfl⟩
    · refine ⟨p, List.mem_append_left _ (mem_keptPkgs.mpr ?_), rfl, rfl, rfl, rfl⟩
      obtain ⟨hmem, hremove, hadd⟩ := mem_keptPkgs.mp hkept
      refine ⟨hmem, hremove, ?_⟩
      rwa [← hnames, ← Function.comp_def Pkg.name, ← List.map_map]
    · obtain ⟨spkg, hspkg, hv⟩ := vouched_of_mem hvouched htarget
      exact ⟨spkg, List.mem_append_right _ hspkg, hv.stands hdescribes hspkg⟩
  · rcases List.mem_append.mp hq with hkept | hadd
    · refine ⟨q, (hmem q).mpr (Or.inl (mem_keptPkgs.mpr ?_)), rfl, rfl, rfl, rfl⟩
      obtain ⟨hmem, hremove, hnot⟩ := mem_keptPkgs.mp hkept
      refine ⟨hmem, hremove, ?_⟩
      rwa [← hnames, ← Function.comp_def Pkg.name, ← List.map_map] at hnot
    · obtain ⟨target, htarget, hv⟩ := exists_target_of_mem hvouched hadd
      exact ⟨_, (hmem _).mpr (Or.inr ⟨target, htarget, rfl⟩), hv.stands hdescribes hadd⟩

end

/-! ## Runs -/

namespace Life

variable {life life' start : Life}

/-- What the calls are given: targets come from the repositories or are new package files
with a name. -/
def Given (life : Life) : Event → Prop
  | .addFile env filename level => ∀ o pkg, life.opened = some o →
      pkgLoad env filename level = some pkg → pkg.name ≠ [] ∧
        ∀ q ∈ choosable life.handle o.session.trans.add, q.addr ≠ pkg.addr
  | .call call => call.FromRepos life.handle
  | _ => True

/-- The invariant of a handle, whatever the flags of its transactions: names are distinct in all
databases, packages are told by their objects, and the open transaction has its own invariant. -/
structure Tracked (life : Life) : Prop where
  names : DistinctNames life.handle.dbLocal.pkgcache
  repos : ∀ db ∈ life.handle.dbsSync, DistinctNames db.pkgcache
  objects : Objects life.handle []
  opened : ∀ o, life.opened = some o → o.session.Tracked life.handle

theorem Tracked.addFile (h : life.Tracked) {env : FileEnv} {filename : CString}
    {level : SigLevel} (hgiven : life.Given (.addFile env filename level)) :
    (life.addFile env filename level).Tracked := by
  unfold Life.addFile
  cases hload : pkgLoad env filename level with
  | none => exact h
  | some pkg =>
    cases hopened : life.opened with
    | none => exact h
    | some o =>
      obtain ⟨hname, hfresh⟩ := hgiven o pkg hopened hload
      have htracked := h.opened o hopened
      refine ⟨h.names, h.repos, h.objects, ?_⟩
      rintro _ ⟨⟩
      by_cases hstate : o.session.trans.state = .initialized
      · obtain ⟨-, hsame, hadd⟩ := addPkg_spec life.handle pkg o.session
        have hmem : ∀ p ∈ choosable life.handle (addPkg life.handle pkg o.session).s.trans.add,
            p ∈ choosable life.handle o.session.trans.add ∨ p = pkg := by
          intro p hp
          rcases List.mem_append.mp hp with hp | hp
          · rcases List.mem_append.mp (hadd hp) with hp | hp
            · exact Or.inl (List.mem_append_left _ hp)
            · exact Or.inr (List.mem_singleton.mp hp)
          · exact Or.inl (List.mem_append_right _ hp)
        refine ⟨addPkg_unique pkg htracked.unique, ⟨?_, ?_⟩, fun hprepared => ?_⟩
        · intro p hp q hq haddr
          rcases hmem p hp with hp | hp <;> rcases hmem q hq with hq | hq
          · exact htracked.objects.distinct p hp q hq haddr
          · exact absurd (hq ▸ haddr) (hfresh p hp)
          · exact absurd (hp ▸ haddr).symm (hfresh q hq)
          · exact hp.trans hq.symm
        · intro p hp
          rcases hmem p hp with hp | hp
          · exact htracked.objects.named p hp
          · exact hp ▸ hname
        · rw [hsame, hstate] at hprepared
          exact absurd hprepared (by decide)
      · have hrun : (Call.addPkg pkg).run life.handle o.session =
            some (addPkg life.handle pkg o.session).s := rfl
        exact (Call.run_of_not_initialized hstate hrun).symm ▸ htracked

/-- A commit leaves the transaction as it is, but for its state and download sizes. -/
theorem downloaded_trans (o : Opened) :
    o.downloaded.session.trans.flags = o.session.trans.flags ∧
      o.downloaded.session.trans.add = o.session.trans.add ∧
      o.downloaded.session.trans.remove = o.session.trans.remove := by
  unfold Opened.downloaded
  simp only
  split_ifs <;> exact ⟨rfl, rfl, rfl⟩

theorem Tracked.downloaded {handle : Handle} {o : Opened} (h : o.session.Tracked handle) :
    o.downloaded.session.Tracked handle := by
  by_cases hadd : o.session.trans.add = []
  · rwa [show o.downloaded = o from if_pos hadd]
  · rw [show o.downloaded = _ from if_neg hadd]
    exact ⟨⟨h.unique.add, h.unique.remove⟩, h.objects, fun hprepared => by simp at hprepared⟩

/-- What a commit that comes back has come to. -/
theorem transCommit_cases {env : CommitEnv} (h : life.step (.transCommit env) = some life') :
    life' = life ∨
      ∃ o, life.opened = some o ∧ o.session.trans.state = .prepared ∧
        (life' = { life with
            opened := some o.downloaded
            log := life.log ++ [.commit env.load o.session.fields o.session.trans.add] } ∨
          ∃ targets skipRemove, beforeCommit env life o = some (.ok (targets, skipRemove)) ∧
            ∃ state, state ≠ .prepared ∧ life' = { life with
              handle := { life.handle with
                dbLocal := { life.handle.dbLocal with
                  pkgcache := (commitLoops env life o targets skipRemove).2.localdb } }
              fs := (commitLoops env life o targets skipRemove).2.fs
              opened := some (o.downloaded.setState state)
              log := life.log ++ [.commit env.load o.session.fields o.session.trans.add] }) := by
  obtain ⟨⟨ret, _⟩, hcommit, rfl⟩ := Option.map_eq_some_iff.mp h
  unfold Life.transCommit at hcommit
  cases hopened : life.opened with
  | none =>
    simp only [hopened, Option.some.injEq, Prod.mk.injEq] at hcommit
    exact Or.inl hcommit.2.symm
  | some o =>
    simp only [hopened] at hcommit
    split_ifs at hcommit with hstate
    · exact Or.inl (Prod.mk.inj (Option.some.inj hcommit)).2.symm
    · exact Or.inl (Prod.mk.inj (Option.some.inj hcommit)).2.symm
    · exact Or.inl (Prod.mk.inj (Option.some.inj hcommit)).2.symm
    refine Or.inr ⟨o, rfl, not_not.mp hstate, ?_⟩
    cases hbefore : beforeCommit env life o with
    | none => simp [hbefore] at hcommit
    | some r =>
      rw [hbefore] at hcommit
      cases r with
      | error ret => exact Or.inl (Prod.mk.inj (Option.some.inj hcommit)).2.symm
      | ok r =>
        obtain ⟨targets, skipRemove⟩ := r
        dsimp only at hcommit
        obtain ⟨-, hdone⟩ := Option.ite_none_left_eq_some.mp hcommit
        refine Or.inr
          ⟨targets, skipRemove, rfl, _, ?_, (Prod.mk.inj (Option.some.inj hdone)).2.symm⟩
        split_ifs <;> decide

theorem Tracked.transCommit (h : life.Tracked) {env : CommitEnv}
    (hstep : life.step (.transCommit env) = some life') : life'.Tracked := by
  rcases transCommit_cases hstep with hsame | ⟨o, hopened, hstate, hcases⟩
  · rwa [hsame]
  have htracked := h.opened o hopened
  have hdone := Tracked.downloaded htracked
  rcases hcases with hfail | ⟨targets, skipRemove, hbefore, state, hnot, hdo⟩
  · rw [hfail]
    refine ⟨h.names, h.repos, h.objects, ?_⟩
    rintro _ ⟨⟩
    exact hdone
  · rw [hdo]
    refine ⟨(commitLoops_account h.names htracked hstate hbefore).1, h.repos,
      ⟨h.objects.distinct, h.objects.named⟩, ?_⟩
    rintro _ ⟨⟩
    exact ⟨⟨hdone.unique.add, hdone.unique.remove⟩,
      ⟨hdone.objects.distinct, hdone.objects.named⟩, fun hprepared => absurd hprepared hnot⟩

/-- **The invariant is kept by every call.**  A call on the open transaction is a step of the
transaction's invariant, and a commit changes the local database and ends it. -/
theorem Tracked.step (h : life.Tracked) {event : Event} (hgiven : life.Given event)
    (hstep : life.step event = some life') : life'.Tracked := by
  cases event with
  | transInit flags downloadonly nohooks lock calloc =>
    obtain rfl := Option.some.inj hstep
    unfold Life.transInit
    split_ifs
    · exact h
    · exact h
    · exact h
    · refine ⟨h.names, h.repos, h.objects, ?_⟩
      rintro _ ⟨⟩
      exact ⟨⟨List.nodup_nil, List.nodup_nil⟩, h.objects, fun hprepared => by simp at hprepared⟩
  | addFile env filename level =>
    obtain rfl := Option.some.inj hstep
    exact h.addFile hgiven
  | call call =>
    unfold Life.step at hstep
    cases hopened : life.opened with
    | none =>
      simp only [hopened, Option.some.injEq] at hstep
      exact hstep ▸ h
    | some o =>
      simp only [hopened] at hstep
      obtain ⟨session, hrun, rfl⟩ := Option.map_eq_some_iff.mp hstep
      refine ⟨h.names, h.repos, h.objects, ?_⟩
      rintro _ ⟨⟩
      exact (h.opened o hopened).call h.names h.repos hgiven hrun
  | transCommit env => exact h.transCommit hstep
  | transRelease =>
    obtain rfl := Option.some.inj hstep
    unfold Life.transRelease
    cases life.opened with
    | none => exact h
    | some o => exact ⟨h.names, h.repos, h.objects, by simp⟩

/-! ## Consistency -/

/-- The dependencies of the installed packages are looked at with their versions. -/
def depContext (life : Life) : DepContext :=
  TransFlags.depContext {} life.handle.assumeinstalled

theorem depContext_of_strict {flags : TransFlags} (h : Strict flags)
    (assumeinstalled : List Depend) :
    flags.depContext assumeinstalled = TransFlags.depContext {} assumeinstalled := by
  simp [TransFlags.depContext, h.nodepversion]

/-- The invariant of a handle whose transactions do not ask to leave dependencies out: the local
database is consistent, and a transaction that is prepared will leave it so. -/
structure Sound (life : Life) : Prop where
  consistent : life.depContext.Consistent life.handle.dbLocal.pkgcache
  opened : ∀ o, life.opened = some o → o.session.Sound life.handle

/-- The commit is not cut short: if it reaches its loops, it gets through them.  A commit that fails
before, at a download or a check, leaves the database alone and is no exception. -/
def Completes (life : Life) (env : CommitEnv) : Prop :=
  ∀ o targets skipRemove, life.opened = some o →
    beforeCommit env life o = some (.ok (targets, skipRemove)) →
    (commitLoops env life o targets skipRemove).2.interrupted = false

/-- What a run may do if the dependencies are to stay satisfied: no transaction leaves
dependencies out, the records of the repositories are right, and no commit is cut short. -/
def Allowed (life : Life) (event : Event) : Prop :=
  life.Given event ∧
    match event with
    | .transInit flags _ _ _ _ => Strict flags
    | .transCommit env => life.Completes env ∧
        ∀ o, life.opened = some o → Describes env.load o.session.trans.add
    | _ => True

theorem Sound.addFile (h : life.Sound) (env : FileEnv) (filename : CString) (level : SigLevel) :
    (life.addFile env filename level).Sound := by
  unfold Life.addFile
  cases pkgLoad env filename level with
  | none => exact h
  | some pkg =>
    cases hopened : life.opened with
    | none => exact h
    | some o =>
      have hsound := h.opened o hopened
      refine ⟨h.consistent, ?_⟩
      rintro _ ⟨⟩
      by_cases hstate : o.session.trans.state = .initialized
      · obtain ⟨hflags, hsame, -⟩ := addPkg_spec life.handle pkg o.session
        refine ⟨hflags ▸ hsound.strict, fun hprepared => ?_⟩
        rw [hsame, hstate] at hprepared
        exact absurd hprepared (by decide)
      · have hrun : (Call.addPkg pkg).run life.handle o.session =
            some (addPkg life.handle pkg o.session).s := rfl
        exact (Call.run_of_not_initialized hstate hrun).symm ▸ hsound

theorem Sound.downloaded {handle : Handle} {o : Opened} (h : o.session.Sound handle) :
    o.downloaded.session.Sound handle := by
  by_cases hadd : o.session.trans.add = []
  · rwa [show o.downloaded = o from if_pos hadd]
  · rw [show o.downloaded = _ from if_neg hadd]
    exact ⟨h.strict, fun hprepared => by simp at hprepared⟩

theorem Sound.transCommit (h : life.Sound) (htracked : life.Tracked) {env : CommitEnv}
    (hallowed : life.Allowed (.transCommit env))
    (hstep : life.step (.transCommit env) = some life') : life'.Sound := by
  rcases transCommit_cases hstep with hsame | ⟨o, hopened, hstate, hcases⟩
  · rwa [hsame]
  have hsound := h.opened o hopened
  have hdone := Sound.downloaded hsound
  obtain ⟨-, hcompletes, hdescribes⟩ := hallowed
  rcases hcases with hfail | ⟨targets, skipRemove, hbefore, state, hnot, hdo⟩
  · rw [hfail]
    refine ⟨h.consistent, ?_⟩
    rintro _ ⟨⟩
    exact hdone
  · have hconsistent := commitLoops_consistent htracked.names (htracked.opened o hopened) hsound
      hstate hbefore (hdescribes o hopened) (hcompletes o targets skipRemove hopened hbefore)
    rw [depContext_of_strict hsound.strict] at hconsistent
    rw [hdo]
    refine ⟨hconsistent, ?_⟩
    rintro _ ⟨⟩
    exact ⟨hdone.strict, fun hprepared => absurd hprepared hnot⟩

theorem Sound.step (h : life.Sound) (htracked : life.Tracked) {event : Event}
    (hallowed : life.Allowed event) (hstep : life.step event = some life') : life'.Sound := by
  cases event with
  | transInit flags downloadonly nohooks lock calloc =>
    obtain rfl := Option.some.inj hstep
    unfold Life.transInit
    split_ifs
    · exact h
    · exact h
    · exact h
    · refine ⟨h.consistent, ?_⟩
      rintro _ ⟨⟩
      exact ⟨hallowed.2, fun hprepared => by simp at hprepared⟩
  | addFile env filename level =>
    obtain rfl := Option.some.inj hstep
    exact h.addFile env filename level
  | call call =>
    unfold Life.step at hstep
    cases hopened : life.opened with
    | none =>
      simp only [hopened, Option.some.injEq] at hstep
      exact hstep ▸ h
    | some o =>
      simp only [hopened] at hstep
      obtain ⟨session, hrun, rfl⟩ := Option.map_eq_some_iff.mp hstep
      have hsound := h.opened o hopened
      refine ⟨h.consistent, ?_⟩
      rintro _ ⟨⟩
      refine hsound.call htracked.names ?_ hallowed.1 hrun
      rw [depContext_of_strict hsound.strict]
      exact h.consistent
  | transCommit env => exact h.transCommit htracked hallowed hstep
  | transRelease =>
    obtain rfl := Option.some.inj hstep
    unfold Life.transRelease
    cases life.opened with
    | none => exact h
    | some o => exact ⟨h.consistent, by simp⟩

/-- **The dependencies of the installed packages stay satisfied**, and their names distinct, through
every run of calls on a handle, as long as no transaction asks to leave them out and no commit is
cut short.  What the preparation has checked are the records of the repositories, and what is
installed are the packages in the files; so the records have to describe the files (`Describes`). -/
theorem consistent_of_execution (hopened : life.opened = none)
    (hnames : DistinctNames life.handle.dbLocal.pkgcache)
    (hrepos : ∀ db ∈ life.handle.dbsSync, DistinctNames db.pkgcache)
    (hobjects : Objects life.handle [])
    (hconsistent : life.depContext.Consistent life.handle.dbLocal.pkgcache)
    (hrun : Execution Life.step Allowed life life') :
    DistinctNames life'.handle.dbLocal.pkgcache ∧
      life'.depContext.Consistent life'.handle.dbLocal.pkgcache := by
  have hstart : life.Tracked ∧ life.Sound :=
    ⟨⟨hnames, hrepos, hobjects, by simp [hopened]⟩, ⟨hconsistent, by simp [hopened]⟩⟩
  have hend : life'.Tracked ∧ life'.Sound := by
    refine @Execution.invariant _ _ _ _ _ _ (fun t => t.Tracked ∧ t.Sound) hrun hstart ?_
    exact fun _ _ _ h hallowed hstep => ⟨h.1.step hallowed.1 hstep, h.2.step h.1 hallowed hstep⟩
  exact ⟨hend.1.names, hend.2.consistent⟩

/-- The new version of `lib` in the repository. -/
def repoLib : Pkg :=
  { addr := 2
    name := str "lib"
    version := str "2-1"
    filename := some (str "lib-2-1.pkg")
    packager := some (str "core")
    origin := .syncdb (str "core") }

/-- `app` and the `lib` that it depends on are installed. -/
def libInstalled : Life where
  handle :=
    { dbLocal :=
        { treename := str "local"
          pkgcache := [
            { name := str "app"
              version := str "1-1"
              depends := [{ name := str "lib" }] },
            { addr := 1
              name := str "lib"
              version := str "1-1" }] }
      dbsSync := [{ treename := str "core", pkgcache := [repoLib] }]
      fnmatch := fun _ _ => false
      answer := fun _ => 0 }
  fs := .empty

/-- The commit of the upgrade of `lib`. -/
def libCommit : CommitEnv :=
  ⟨cachedPackages [repoLib], RegularTransaction.plainSystem, 0, 0, fun _ => false⟩

/-- The handle when the upgrade of `lib` has been prepared. -/
def libPrepared : Option Life :=
  (execute Life.step libInstalled
    [.transInit {} false false true true, .call (.addPkg repoLib)]).bind
    (Life.step · (.call (.transPrepare ⟨.success, .success, fun _ => some (some 0), true⟩)))

/-- The handle when the upgrade has been committed. -/
def libCommitted : Option Life := libPrepared.bind (Life.step · (.transCommit libCommit))

/-- The upgrade of `lib` is a run that is allowed. -/
theorem execution_libInstalled : ∃ life, libCommitted = some life ∧
    Execution Life.step Allowed libInstalled life := by
  obtain ⟨committed, hcommitted⟩ := Option.isSome_iff_exists.mp
    (show libCommitted.isSome by decide +kernel)
  obtain ⟨life, hlife, hcommit⟩ := Option.bind_eq_some_iff.mp hcommitted
  have hrepo : repoLib ∈ libInstalled.handle.dbsSync.flatMap Db.pkgcache :=
    List.mem_flatMap.mpr ⟨_, List.mem_singleton.mpr rfl, List.mem_singleton.mpr rfl⟩
  obtain ⟨added, hadded, hprepare⟩ := Option.bind_eq_some_iff.mp hlife
  have hinit : libInstalled.Allowed (.transInit {} false false true true) :=
    ⟨trivial, ⟨rfl, rfl⟩⟩
  have hadd : (libInstalled.transInit {} false false true true).Allowed
      (.call (.addPkg repoLib)) := ⟨hrepo, trivial⟩
  have hprepared : Execution Life.step Allowed libInstalled life :=
    ((Execution.start.next hinit rfl).next hadd hadded).next
      (e := .call (.transPrepare ⟨.success, .success, fun _ => some (some 0), true⟩))
      ⟨trivial, trivial⟩ hprepare
  refine ⟨committed, hcommitted,
    hprepared.next (e := .transCommit libCommit) ⟨trivial, ?_, ?_⟩ hcommit⟩
  · intro o targets skipRemove hopened hbefore
    have hthrough : (libPrepared.any fun life => life.opened.any fun o =>
        match beforeCommit libCommit life o with
        | none | some (.error _) => false
        | some (.ok r) => (commitLoops libCommit life o r.1 r.2).2.interrupted) = false := by
      decide +kernel
    simpa only [hlife, hopened, Option.any_some, hbefore] using hthrough
  · intro o hopened spkg hspkg filepath pkgfile _ hload
    have hadd : (libPrepared.all fun life => life.opened.all fun o =>
        o.session.trans.add = [repoLib]) = true := by
      decide +kernel
    simp only [hlife, hopened, Option.all_some, decide_eq_true_eq] at hadd
    obtain rfl := List.mem_singleton.mp (hadd ▸ hspkg)
    have hfound : [repoLib].find? (·.filename = some filepath) = some pkgfile := hload
    obtain rfl := List.mem_singleton.mp (List.mem_of_find?_eq_some hfound)
    exact ⟨rfl, rfl⟩

theorem consistent_of_execution_libInstalled : ∃ life : Life, libCommitted = some life ∧
    DistinctNames life.handle.dbLocal.pkgcache ∧
      life.depContext.Consistent life.handle.dbLocal.pkgcache := by
  obtain ⟨life, hlife, hrun⟩ := execution_libInstalled
  refine ⟨life, hlife, consistent_of_execution rfl ?_ ?_ ⟨?_, ?_⟩ ?_ hrun⟩
  · show [str "app", str "lib"].Nodup
    decide
  · exact List.forall_mem_singleton.mpr (List.nodup_singleton _)
  · show ∀ p ∈ [repoLib], ∀ q ∈ [repoLib], p.addr = q.addr → p = q
    simp
  · show ∀ p ∈ [repoLib], p.name ≠ []
    simp [repoLib, str]
  · unfold DepContext.Consistent DepContext.Satisfied
    decide +kernel

/-! ## Where the installed packages come from -/

/-- The package is in a repository or was loaded from a file. -/
inductive Known (life : Life) (pkg : Pkg) : Prop
  | repo (hrepo : pkg ∈ life.handle.dbsSync.flatMap Db.pkgcache)
  | file {env : FileEnv} {filename : CString} {level : SigLevel}
      (hload : pkgLoad env filename level = some pkg)
      (hlog : .file env filename level pkg ∈ life.log)

/-- How a package came into the local database. -/
inductive Installed (life : Life) (p : Pkg) : Prop
  /-- from a file that `alpm_pkg_load` validated -/
  | file {env : FileEnv} {filename : CString} {level : SigLevel} {pkg : Pkg}
      {reason : PkgReason} (hlog : .file env filename level pkg ∈ life.log)
      (hload : pkgLoad env filename level = some pkg)
      (hret : (pkgValidateInternal env.validate (some filename) none level (some 0)).ret = 0)
      (hverified : level.package → level.packageOptional = false →
        Verified level (pkgValidateInternal env.validate (some filename) none level (some 0)))
      (hp : p = CommitContext.cacheEntry { pkg with reason })
  /-- from a file that `_alpm_sync_load` validated as a package of a repository -/
  | repo {env : LoadEnv} {fields : ℕ → PkgFields} {add : List Pkg} {spkg : Pkg}
      {target : AddTarget} (hlog : .commit env fields add ∈ life.log) (hspkg : spkg ∈ add)
      (hrepo : spkg ∈ life.handle.dbsSync.flatMap Db.pkgcache)
      (hvouched : FromRepo env fields spkg target)
      (hp : p = CommitContext.cacheEntry target.pkg)

/-- The repositories are the same and the log has grown. -/
structure Extends (life life' : Life) : Prop where
  dbsSync : life'.handle.dbsSync = life.handle.dbsSync
  log : life.log ⊆ life'.log

theorem Known.mono {pkg : Pkg} (h : life.Known pkg) (hext : life.Extends life') :
    life'.Known pkg := by
  cases h with
  | repo hrepo => exact .repo (hext.dbsSync ▸ hrepo)
  | file hload hlog => exact .file hload (hext.log hlog)

theorem Installed.mono {p : Pkg} (h : life.Installed p) (hext : life.Extends life') :
    life'.Installed p := by
  cases h with
  | file hlog hload hret hverified hp => exact .file (hext.log hlog) hload hret hverified hp
  | repo hlog hspkg hrepo hvouched hp =>
    exact .repo (hext.log hlog) hspkg (hext.dbsSync ▸ hrepo) hvouched hp

theorem step_extends {event : Event} (hstep : life.step event = some life') :
    life.Extends life' := by
  have hsame : life.Extends life := ⟨rfl, List.Subset.refl _⟩
  cases event with
  | transInit flags downloadonly nohooks lock calloc =>
    obtain rfl := Option.some.inj hstep
    unfold Life.transInit
    split_ifs
    · exact hsame
    · exact hsame
    · exact hsame
    · exact ⟨rfl, List.Subset.refl _⟩
  | addFile env filename level =>
    obtain rfl := Option.some.inj hstep
    unfold Life.addFile
    split
    · exact ⟨rfl, List.subset_append_left _ _⟩
    · exact hsame
  | call call =>
    unfold Life.step at hstep
    cases hopened : life.opened with
    | none =>
      simp only [hopened, Option.some.injEq] at hstep
      exact hstep ▸ hsame
    | some o =>
      simp only [hopened] at hstep
      obtain ⟨session, -, rfl⟩ := Option.map_eq_some_iff.mp hstep
      exact ⟨rfl, List.Subset.refl _⟩
  | transCommit env =>
    rcases transCommit_cases hstep with hnone | ⟨o, -, -, hfail | ⟨_, _, -, state, -, hdo⟩⟩
    · rwa [hnone]
    · rw [hfail]
      exact ⟨rfl, List.subset_append_left _ _⟩
    · rw [hdo]
      exact ⟨rfl, List.subset_append_left _ _⟩
  | transRelease =>
    obtain rfl := Option.some.inj hstep
    unfold Life.transRelease
    cases life.opened with
    | none => exact hsame
    | some o => exact ⟨rfl, List.Subset.refl _⟩

/-- What is known of all packages of a handle: a target is known from a repository or a file that
was loaded, and an installed package was there at the start or was installed from one of these. -/
structure Accounted (start life : Life) : Prop where
  targets : ∀ o, life.opened = some o → ∀ p ∈ o.session.trans.add, life.Known p
  installed : ∀ p ∈ life.handle.dbLocal.pkgcache,
    p ∈ start.handle.dbLocal.pkgcache ∨ life.Installed p

/-- A target that was let through, when it is known where it comes from. -/
theorem installed_of_vouched {env : LoadEnv} {fields : ℕ → PkgFields} {add : List Pkg}
    {spkg : Pkg} {target : AddTarget}
    (horigins : ∀ p ∈ life.handle.dbsSync.flatMap Db.pkgcache, p.origin ≠ .file)
    (hlog : .commit env fields add ∈ life.log) (hspkg : spkg ∈ add) (hknown : life.Known spkg)
    (hvouched : Vouched env fields spkg target) :
    life.Installed (CommitContext.cacheEntry target.pkg) := by
  cases hknown with
  | repo hrepo =>
    cases hvouched with
    | file horigin => exact absurd horigin (horigins spkg hrepo)
    | repo hvouched => exact .repo hlog hspkg hrepo hvouched rfl
  | file hload hfile =>
    obtain ⟨horigin, hret⟩ := pkgLoad_validated hload
    cases hvouched with
    | file _ htarget =>
      rw [htarget]
      exact .file hfile hload hret (verified_of_ret_zero rfl hret) rfl
    | repo hvouched =>
      obtain ⟨repo, hrepo, -⟩ := hvouched.repo
      rw [horigin] at hrepo
      exact absurd hrepo (by simp [PkgFrom.treename])

theorem Accounted.step (h : Accounted start life) (htracked : life.Tracked)
    (horigins : ∀ p ∈ life.handle.dbsSync.flatMap Db.pkgcache, p.origin ≠ .file)
    {event : Event} (hgiven : life.Given event) (hstep : life.step event = some life') :
    Accounted start life' := by
  have hext := step_extends hstep
  -- what was there is still accounted for
  have hold : ∀ p ∈ life.handle.dbLocal.pkgcache,
      p ∈ start.handle.dbLocal.pkgcache ∨ life'.Installed p :=
    fun p hp => (h.installed p hp).imp_right (Installed.mono · hext)
  have hknown : ∀ o, life.opened = some o → ∀ p ∈ o.session.trans.add, life'.Known p :=
    fun o ho p hp => (h.targets o ho p hp).mono hext
  cases event with
  | transInit flags downloadonly nohooks lock calloc =>
    obtain rfl := Option.some.inj hstep
    unfold Life.transInit at hold hknown ⊢
    split_ifs at hold hknown ⊢
    · exact h
    · exact h
    · exact h
    · refine ⟨?_, hold⟩
      rintro _ ⟨⟩ p hp
      exact absurd hp List.not_mem_nil
  | addFile env filename level =>
    obtain rfl := Option.some.inj hstep
    unfold Life.addFile at hold hknown ⊢
    cases hload : pkgLoad env filename level with
    | none => exact h
    | some pkg =>
      cases hopened : life.opened with
      | none => exact h
      | some o =>
        simp only [hload, hopened] at hold hknown
        refine ⟨?_, hold⟩
        rintro _ ⟨⟩ p hp
        rcases List.mem_append.mp ((addPkg_spec life.handle pkg o.session).2.2 hp) with hp | hp
        · exact hknown o rfl p hp
        · obtain rfl := List.mem_singleton.mp hp
          exact .file hload (List.mem_append_right _ (List.mem_singleton.mpr rfl))
  | call call =>
    unfold Life.step at hstep
    cases hopened : life.opened with
    | none =>
      simp only [hopened, Option.some.injEq] at hstep
      exact hstep ▸ h
    | some o =>
      simp only [hopened] at hstep
      obtain ⟨session, hrun, rfl⟩ := Option.map_eq_some_iff.mp hstep
      refine ⟨?_, hold⟩
      rintro _ ⟨⟩ p hp
      rcases List.mem_append.mp (Call.run_add_subset htracked.names hgiven hrun hp) with hp | hp
      · exact hknown o hopened p hp
      · exact .repo hp
  | transCommit env =>
    rcases transCommit_cases hstep with hsame | ⟨o, hopened, hstate, hcases⟩
    · rwa [hsame]
    obtain ⟨-, hadd, -⟩ := downloaded_trans o
    rcases hcases with hfail | ⟨targets, skipRemove, hbefore, state, hnot, hdo⟩
    · rw [hfail] at hold hknown ⊢
      refine ⟨?_, hold⟩
      rintro _ ⟨⟩ p hp
      exact hknown o hopened p (hadd ▸ hp)
    · rw [hdo] at hold hknown ⊢
      refine ⟨?_, fun p hp => ?_⟩
      · rintro _ ⟨⟩ p hp
        exact hknown o hopened p (hadd ▸ hp)
      · obtain ⟨-, hall⟩ := commitLoops_account htracked.names (htracked.opened o hopened) hstate
          hbefore
        rcases hall p hp with hp | ⟨spkg, hspkg, target, hvouched, rfl⟩
        · exact hold p hp
        · refine Or.inr (installed_of_vouched horigins ?_ hspkg (hknown o hopened spkg hspkg)
            hvouched)
          exact List.mem_append_right _ (List.mem_singleton.mpr rfl)
  | transRelease =>
    obtain rfl := Option.some.inj hstep
    unfold Life.transRelease at hold ⊢
    cases hopened : life.opened with
    | none => exact h
    | some o =>
      simp only [hopened] at hold
      exact ⟨by simp, hold⟩

/-- **Every package that is installed during a run was validated**, whatever the flags of the
transactions and however their commits end: it comes from a file that `alpm_pkg_load` has validated,
or from a cached file that passed as the package of a repository.  Nothing but a commit installs,
and a commit installs what the load before it has put in the place of the records. -/
theorem installed_of_execution (hopened : life.opened = none)
    (hnames : DistinctNames life.handle.dbLocal.pkgcache)
    (hrepos : ∀ db ∈ life.handle.dbsSync, DistinctNames db.pkgcache)
    (hobjects : Objects life.handle [])
    (horigins : ∀ p ∈ life.handle.dbsSync.flatMap Db.pkgcache, p.origin ≠ .file)
    (hrun : Execution Life.step Given life life') {p : Pkg}
    (hp : p ∈ life'.handle.dbLocal.pkgcache) :
    p ∈ life.handle.dbLocal.pkgcache ∨ life'.Installed p := by
  have hstart : life.Tracked ∧ life.Extends life ∧ Accounted life life :=
    ⟨⟨hnames, hrepos, hobjects, by simp [hopened]⟩, ⟨rfl, List.Subset.refl _⟩,
      ⟨by simp [hopened], fun _ => Or.inl⟩⟩
  obtain ⟨-, -, haccounted⟩ : life'.Tracked ∧ life.Extends life' ∧ Accounted life life' := by
    refine @Execution.invariant _ _ _ _ _ _
      (fun t => t.Tracked ∧ life.Extends t ∧ Accounted life t) hrun hstart ?_
    intro t event u h hgiven hstep
    obtain ⟨htracked, hext, haccounted⟩ := h
    have hnext := step_extends hstep
    refine ⟨htracked.step hgiven hstep, ⟨hnext.dbsSync.trans hext.dbsSync,
      fun _ hentry => hnext.log (hext.log hentry)⟩, haccounted.step htracked ?_ hgiven hstep⟩
    rw [hext.dbsSync]
    exact horigins
  exact haccounted.installed p hp

theorem installed_of_execution_libInstalled : ∃ life : Life, libCommitted = some life ∧
    ∃ p ∈ life.handle.dbLocal.pkgcache, p.version = str "2-1" ∧
      (p ∈ libInstalled.handle.dbLocal.pkgcache ∨ life.Installed p) := by
  obtain ⟨life, hlife, hrun⟩ := execution_libInstalled
  have hnew : (libCommitted.all fun life =>
      life.handle.dbLocal.pkgcache.any (·.version = str "2-1")) = true := by
    decide +kernel
  rw [hlife, Option.all_some, List.any_eq_true] at hnew
  obtain ⟨p, hp, hversion⟩ := hnew
  refine ⟨life, hlife, p, hp, of_decide_eq_true hversion,
    installed_of_execution rfl ?_ ?_ ⟨?_, ?_⟩ ?_ (hrun.mono fun _ _ h => h.1) hp⟩
  · show [str "app", str "lib"].Nodup
    decide
  · exact List.forall_mem_singleton.mpr (List.nodup_singleton _)
  · show ∀ p ∈ [repoLib], ∀ q ∈ [repoLib], p.addr = q.addr → p = q
    simp
  · show ∀ p ∈ [repoLib], p.name ≠ []
    simp [repoLib, str]
  · show ∀ p ∈ [repoLib], p.origin ≠ .file
    simp [repoLib]

end Life

end Alpm.Sync
