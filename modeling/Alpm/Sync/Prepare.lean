import Alpm.Lock
import Alpm.Sync.Conflict
import Alpm.Sync.Resolvedeps

/-!
# Preparing a sync transaction

`_alpm_sync_prepare` is one long function.  It is cut here into the phases that its comments name:
the databases, the resolution of dependencies, conflicts between targets, conflicts with installed
packages, the list of packages to remove, the final check, and the sizes and old versions of the
targets.  A phase takes `*data` and the transaction and returns both, with or without an error.

## Where the code has no result

Some inputs lead the program to read memory that it must not read, and there a phase has no
result (`Outcome.crash`).  The check that no two packages have the same file name is such a place,
twice over: it compares the names with `strcmp` although they may be `NULL`, and once two of them
are equal it frees the list `resolved` *inside* its two loops, which go on with the `next` pointer
of a freed node.  So the resolution only goes on when all names are there and differ
(`takeResolved`), and `ALPM_ERR_TRANS_DUP_FILENAME` is never seen by a caller of the model.

## What the resolution leaves in `*data`

The resolution appends to `*data` what could not be resolved, and goes on when an installed package
is good enough.  Such an entry stays in the list when the preparation succeeds or ends in a
conflict; `Alpm.Sync.ErrorData` says exactly when.
-/

namespace Alpm.Sync

/-! ## The transaction -/

/-- The fields of a package object that a transaction changes. -/
structure PkgFields where
  removes : List Pkg := []
  reason : PkgReason := .explicit
  oldpkg : Option Pkg := none
  downloadSize : Int := 0
  deriving DecidableEq, Repr

/-- `alpm_trans_t`. -/
structure Trans extends Alpm.Trans where
  add : List Pkg := []
  remove : List Pkg := []
  unresolvable : List Pkg := []
  deriving DecidableEq, Repr

/-- What changes during a transaction: the transaction, the fields of the package objects by
their addresses, and the number of questions that were asked. -/
structure Session where
  trans : Trans
  fields : ℕ → PkgFields := fun _ => {}
  asked : ℕ := 0

/-- An element of `*data`; the list itself does not say what it is. -/
inductive ErrorData where
  | depmissing (miss : Depmissing)
  | conflict (conflict : Conflict)
  | pkgArch (string : CString)
  deriving DecidableEq, Repr

/-- How a phase ends. -/
inductive Outcome where
  | crash
  | fail (pmErrno : Errno) (data : List ErrorData) (s : Session)
  | ok (data : List ErrorData) (s : Session)

/-- One phase after the other. -/
def Outcome.bind : Outcome → (List ErrorData → Session → Outcome) → Outcome
  | crash, _ => crash
  | fail pmErrno data s, _ => fail pmErrno data s
  | ok data s, next => next data s

/-- What the calls of `_alpm_pkg_dup` meet, for `trans->remove` by the length of the list and
for the old versions by the address of the target, and what is in the file cache: the
size of a file that is there, if `stat` can tell. -/
structure PrepareEnv where
  dup : ℕ → DupOutcome
  dupOldpkg : ℕ → DupOutcome
  filecacheFind : CString → Option (Option Int)
  calloc : Bool

/-! ## The phases -/

section

variable (handle : Handle) (env : PrepareEnv)

/-- Ensure that all sync databases are valid.  A database that is missing is an error only if a
target comes from a sync database. -/
def prepareDbs (data : List ErrorData) (s : Session) : Outcome :=
  let fromSync := s.trans.add.any fun spkg => spkg.origin matches .syncdb _
  let error := handle.dbsSync.findSome? fun db =>
    if db.invalid then some Errno.dbInvalid
    else if fromSync && db.missing then some .dbNotFound
    else none
  match error with
  | some pmErrno => .fail pmErrno data s
  | none => .ok data s

/-- One round of the loop that resolves the packages of the transaction one at a time. -/
def resolveTarget (ctx : DepContext) (localpkgs preferred rem : List Pkg)
    (state : List Pkg × Resolving) (pkg : Pkg) : List Pkg × Resolving :=
  let (ret, r) := resolvedeps handle ctx localpkgs preferred rem pkg state.2
  (if ret = -1 then state.1 ++ [pkg] else state.1, r)

/-- That loop: the packages that could not be resolved, and what the calls leave behind. -/
def resolveTargets (s : Session) : List Pkg × Resolving :=
  let ctx := s.trans.flags.depContext handle.assumeinstalled
  let rem := s.trans.remove ++ s.trans.add.flatMap fun spkg => (s.fields spkg.addr).removes
  let localpkgs := listDiff pkgCmp handle.dbLocal.pkgcache s.trans.add
  s.trans.add.foldl (resolveTarget handle ctx localpkgs s.trans.add rem)
    ([], { asked := s.asked })

/-- No two packages have the same file name; `none` if the name of one of two is `NULL`. -/
def filenamesDiffer : List Pkg → Option Bool
  | [] => some true
  | pkg1 :: rest => do
    let differs ← rest.mapM fun pkg2 => do
      return decide (strcmp (← pkg1.filename) (← pkg2.filename) ≠ 0)
    let others ← filenamesDiffer rest
    return differs.all id && others

/-- The reasons after the resolution: packages that were pulled are dependencies. -/
def setPulled (add resolved : List Pkg) (fields : ℕ → PkgFields) : ℕ → PkgFields :=
  resolved.foldl (fun fields pkg =>
    if (pkgFind add pkg.name).isSome then fields
    else Function.update fields pkg.addr { fields pkg.addr with reason := .depend }) fields

/-- The end of the resolution, when the user does without the packages that could not be
resolved.  When two packages have the same file name the list that is walked through is freed on
the way, so that there is no result either. -/
def takeResolved (unresolvable resolved : List Pkg) (data : List ErrorData) (s : Session) :
    Outcome :=
  match filenamesDiffer resolved with
  | some true =>
    .ok data
      { s with
        trans := { s.trans with
          unresolvable
          add := resolved }
        fields := setPulled s.trans.add resolved s.fields }
  | _ => .crash

/-- Resolve the dependencies of the targets.  If some target cannot be resolved the user is asked
whether to leave it out; with the answer no, the missing dependencies are returned. -/
def prepareResolve (data : List ErrorData) (s : Session) : Outcome :=
  if s.trans.flags.nodeps then .ok data s
  else
    let (unresolvable, r) := resolveTargets handle s
    let data := data ++ r.data.map .depmissing
    if unresolvable = [] then takeResolved [] r.packages data { s with asked := r.asked }
    else
      let s := { s with asked := r.asked + 1 }
      if handle.answer r.asked ≠ 0 then takeResolved unresolvable r.packages [] s
      else .fail .unsatisfiedDeps data s

/-- The loop over the conflicts in the target list: the conflict that could not be resolved,
`trans->add` and `trans->unresolvable`. -/
def dropConflicting : List Conflict → List Pkg → List Pkg → Option Conflict × List Pkg × List Pkg
  | [], add, unresolvable => (none, add, unresolvable)
  | conflict :: deps, add, unresolvable =>
    match pkgFind add conflict.package1, pkgFind add conflict.package2 with
    | some sync1, some sync2 =>
      -- if sync1 provides sync2, we remove sync2 from the targets, and vice versa
      if depcmp sync1 (depFromString conflict.package2) then
        dropConflicting deps (listRemove pkgCmp add sync2) (unresolvable ++ [sync2])
      else if depcmp sync2 (depFromString conflict.package1) then
        dropConflicting deps (listRemove pkgCmp add sync1) (unresolvable ++ [sync1])
      else (some conflict, add, unresolvable)
    -- we have already removed one of the conflicting targets
    | _, _ => dropConflicting deps add unresolvable

/-- Check for conflicts in the target list.  Of two packages in conflict the one that the other
provides is left out, and if neither does the preparation fails. -/
def prepareInner (data : List ErrorData) (s : Session) : Outcome :=
  if s.trans.flags.noconflicts then .ok data s
  else
    let (failed, add, unresolvable) :=
      dropConflicting (innerconflicts s.trans.add) s.trans.add s.trans.unresolvable
    let s := { s with
      trans := { s.trans with
        add
        unresolvable } }
    match failed with
    | some conflict => .fail .conflictingDeps (data ++ [.conflict conflict]) s
    | none => .ok data s

/-- The local package of a conflict is going to be removed. -/
def isElected (add remove : List Pkg) (fields : ℕ → PkgFields) (package2 : CString) : Bool :=
  (pkgFind remove package2).isSome ||
    add.any fun spkg => (pkgFind (fields spkg.addr).removes package2).isSome

/-- The loop over the conflicts with installed packages: the conflict that the user does not
want to resolve, the fields and the number of questions. -/
def electRemovals (add remove : List Pkg) :
    List Conflict → (ℕ → PkgFields) → ℕ → Option Conflict × (ℕ → PkgFields) × ℕ
  | [], fields, asked => (none, fields, asked)
  | conflict :: deps, fields, asked =>
    if isElected add remove fields conflict.package2 then
      electRemovals add remove deps fields asked
    else if handle.answer asked ≠ 0 then
      match pkgFind add conflict.package1, pkgFind handle.dbLocal.pkgcache conflict.package2 with
      | some sync, some installed =>
        electRemovals add remove deps (Function.update fields sync.addr
          { fields sync.addr with removes := (fields sync.addr).removes ++ [installed] })
          (asked + 1)
      -- both are there, since the conflict is between a target and an installed package
      | _, _ => electRemovals add remove deps fields (asked + 1)
    else (some conflict, fields, asked + 1)

/-- Check for target vs db conflicts (and resolve).  The user is asked about every installed package
that is not going to be removed already; with the answer no the preparation fails. -/
def prepareOuter (data : List ErrorData) (s : Session) : Outcome :=
  if s.trans.flags.noconflicts then .ok data s
  else
    let (failed, fields, asked) := electRemovals handle s.trans.add s.trans.remove
      (outerconflicts handle.dbLocal.pkgcache s.trans.add) s.fields s.asked
    let s := { s with
      fields
      asked }
    match failed with
    | some conflict => .fail .conflictingDeps (data ++ [.conflict conflict]) s
    | none => .ok data s

/-- The loop that builds `trans->remove` from the `removes` lists: `-1` if `_alpm_pkg_dup`
fails, and the list. -/
def pullRemoves : List Pkg → List Pkg → Int × List Pkg
  | [], remove => (0, remove)
  | rpkg :: rpkgs, remove =>
    if (pkgFind remove rpkg.name).isSome then pullRemoves rpkgs remove
    else
      let (ret, copy) := pkgDup (env.dup remove.length) rpkg
      if ret = -1 then (-1, remove) else pullRemoves rpkgs (remove ++ copy.toList)

/-- Build the list of packages to remove. -/
def prepareRemove (data : List ErrorData) (s : Session) : Outcome :=
  let rpkgs := s.trans.add.flatMap fun spkg => (s.fields spkg.addr).removes
  let (ret, remove) := pullRemoves env rpkgs s.trans.remove
  let s := { s with trans := { s.trans with remove } }
  if ret = -1 then .fail .memory data s else .ok data s

/-- Check the dependencies. -/
def prepareCheckdeps (data : List ErrorData) (s : Session) : Outcome :=
  if s.trans.flags.nodeps then .ok data s
  else
    let ctx := s.trans.flags.depContext handle.assumeinstalled
    let deps := checkdeps ctx handle.dbLocal.pkgcache s.trans.remove s.trans.add true
    if deps ≠ [] then .fail .unsatisfiedDeps (deps.map .depmissing) s else .ok data s

/-- `compute_download_size`: the size, or the error that it sets, if any.  A file in the cache needs
no download, and a partial one only its rest. -/
def computeDownloadSize (newpkg : Pkg) : Except (Option Errno) Int :=
  match newpkg.origin, newpkg.filename with
  | .syncdb _, none => .error (some .pkgInvalidName)
  | .syncdb _, some fname =>
    if (env.filecacheFind fname).isSome then .ok 0
    else if !env.calloc then .error none
    else match env.filecacheFind (fname ++ str ".part") with
      | some (some stSize) => .ok (max (newpkg.size - stSize) 0)
      | some none => .ok 0
      | none => .ok newpkg.size
  | _, _ => .ok 0

/-- `alpm_db_get_pkg`: the package and `pm_errno`. -/
def dbGetPkg (name : CString) : Option Pkg × Errno :=
  if name = [] then (none, .wrongArgs)
  else match pkgFind handle.dbLocal.pkgcache name with
    | some lpkg => (some lpkg, .ok)
    | none => (none, .pkgNotFound)

/-- The last loop over the targets: the error that ended it, and the fields.  Each target gets its
download size and a copy of the installed package of its name. -/
def loadTargets : List Pkg → (ℕ → PkgFields) → Option Errno × (ℕ → PkgFields)
  | [], fields => (none, fields)
  | spkg :: add, fields =>
    let (lpkg, pmErrno) := dbGetPkg handle spkg.name
    match computeDownloadSize env spkg with
    | .error error => (some (error.getD pmErrno), fields)
    | .ok downloadSize =>
      let fields := Function.update fields spkg.addr { fields spkg.addr with downloadSize }
      match lpkg.map (pkgDup (env.dupOldpkg spkg.addr)) with
      | none => loadTargets add fields
      | some (0, oldpkg) =>
        loadTargets add (Function.update fields spkg.addr { fields spkg.addr with oldpkg })
      | some (-1, _) => (some .memory, fields)
      | some (_, oldpkg) =>
        (some .pkgInvalid, Function.update fields spkg.addr { fields spkg.addr with oldpkg })

/-- Look up the sizes and the old versions of the targets. -/
def prepareTargets (data : List ErrorData) (s : Session) : Outcome :=
  let (error, fields) := loadTargets handle env s.trans.add s.fields
  match error with
  | some pmErrno => .fail pmErrno data { s with fields }
  | none => .ok data { s with fields }

/-- The phases after the resolution. -/
def prepareResolved (data : List ErrorData) (s : Session) : Outcome :=
  (((prepareInner data s).bind (prepareOuter handle)).bind (prepareRemove env)).bind fun data s =>
    (prepareCheckdeps handle data s).bind (prepareTargets handle env)

/-- `_alpm_sync_prepare`. -/
def syncPrepare (s : Session) : Outcome :=
  ((prepareDbs handle [] s).bind (prepareResolve handle)).bind (prepareResolved handle env)

end

/-! ## Phase by phase -/

namespace Outcome

variable {x y : Outcome} {next : List ErrorData → Session → Outcome}
variable {pmErrno : Errno} {data : List ErrorData} {s : Session}

theorem bind_eq_ok : x.bind next = ok data s ↔
    ∃ data' s', x = ok data' s' ∧ next data' s' = ok data s := by
  cases x <;> simp [bind]

end Outcome

theorem prepareDbs_cases (handle : Handle) (data : List ErrorData) (s : Session) :
    prepareDbs handle data s = .ok data s ∨ ∃ pmErrno, prepareDbs handle data s =
      .fail pmErrno data s ∧ (pmErrno = .dbInvalid ∨ pmErrno = .dbNotFound) := by
  unfold prepareDbs
  simp only
  split
  · rename_i pmErrno herror
    obtain ⟨db, -, hdb⟩ := List.exists_of_findSome?_eq_some herror
    refine Or.inr ⟨pmErrno, rfl, ?_⟩
    split_ifs at hdb
    · exact Or.inl (Option.some.inj hdb).symm
    · exact Or.inr (Option.some.inj hdb).symm
  · exact Or.inl rfl

/-- How the loop over the targets stands before it comes to the ones behind `before`. -/
def resolvedBefore (handle : Handle) (s : Session) (before : List Pkg) : List Pkg × Resolving :=
  before.foldl (resolveTarget handle (s.trans.flags.depContext handle.assumeinstalled)
    (listDiff pkgCmp handle.dbLocal.pkgcache s.trans.add) s.trans.add
    (s.trans.remove ++ s.trans.add.flatMap fun spkg => (s.fields spkg.addr).removes))
    ([], { asked := s.asked })

theorem resolvedBefore_concat (handle : Handle) (s : Session) (before : List Pkg) (pkg : Pkg) :
    resolvedBefore handle s (before ++ [pkg]) =
      resolveTarget handle (s.trans.flags.depContext handle.assumeinstalled)
        (listDiff pkgCmp handle.dbLocal.pkgcache s.trans.add) s.trans.add
        (s.trans.remove ++ s.trans.add.flatMap fun spkg => (s.fields spkg.addr).removes)
        (resolvedBefore handle s before) pkg :=
  List.foldl_concat ..

theorem resolveTargets_eq (handle : Handle) (s : Session) :
    resolveTargets handle s = resolvedBefore handle s s.trans.add := rfl

/-- **The resolution of the targets** makes a list of packages with distinct names, and only targets
are unresolvable.  A target that cannot be resolved leaves the list as it was. -/
theorem resolvedBefore_spec (handle : Handle) (s : Session) (before : List Pkg) :
    ((resolvedBefore handle s before).2.packages.map Pkg.name).Nodup ∧
      ∀ pkg ∈ (resolvedBefore handle s before).1, pkg ∈ before := by
  have hgrown : Grown { asked := s.asked } (resolvedBefore handle s before).2 ∧
      ∀ pkg ∈ (resolvedBefore handle s before).1, pkg ∈ before := by
    induction before using List.reverseRecOn with
    | nil => exact ⟨.refl _, by simp [resolvedBefore]⟩
    | append_singleton before pkg ih =>
      obtain ⟨hgrown, hmem⟩ := ih
      rw [resolvedBefore_concat]
      refine ⟨hgrown.trans (resolvedeps_spec ..).grown, fun q hq => ?_⟩
      unfold resolveTarget at hq
      simp only at hq
      split_ifs at hq
      · rcases List.mem_append.mp hq with hq | hq
        · exact List.mem_append_left _ (hmem q hq)
        · exact List.mem_append_right _ hq
      · exact List.mem_append_left _ (hmem q hq)
  obtain ⟨⟨⟨added, hadded, hnodup, -⟩, -⟩, hmem⟩ := hgrown
  refine ⟨?_, hmem⟩
  rw [hadded, List.nil_append]
  exact hnodup

theorem resolveTargets_spec (handle : Handle) (s : Session) :
    ((resolveTargets handle s).2.packages.map Pkg.name).Nodup ∧
      ∀ pkg ∈ (resolveTargets handle s).1, pkg ∈ s.trans.add :=
  resolvedBefore_spec handle s s.trans.add

/-- The resolution goes on when the file names are there and differ. -/
theorem takeResolved_cases (unresolvable resolved : List Pkg) (data : List ErrorData)
    (s : Session) :
    filenamesDiffer resolved = some true ∧ takeResolved unresolvable resolved data s =
        .ok data
          { s with
            trans := { s.trans with
              unresolvable
              add := resolved }
            fields := setPulled s.trans.add resolved s.fields } ∨
      filenamesDiffer resolved ≠ some true ∧
        takeResolved unresolvable resolved data s = .crash := by
  unfold takeResolved
  rcases hdiffer : filenamesDiffer resolved with _ | _ | _
  · exact Or.inr ⟨by simp, rfl⟩
  · exact Or.inr ⟨by simp, rfl⟩
  · exact Or.inl ⟨rfl, rfl⟩

/-- When the resolution ends well: `*data`, and the transaction that goes on. -/
theorem prepareResolve_eq_ok {handle : Handle} {data data' : List ErrorData} {s s' : Session}
    (h : prepareResolve handle data s = .ok data' s') :
    (s.trans.flags.nodeps = true ∧ data' = data ∧ s' = s) ∨
      (s.trans.flags.nodeps = false ∧ s'.trans.add = (resolveTargets handle s).2.packages ∧
        s'.trans.remove = s.trans.remove ∧ s'.trans.flags = s.trans.flags ∧
        data' = if (resolveTargets handle s).1 = []
          then data ++ (resolveTargets handle s).2.data.map .depmissing else []) := by
  have htake : ∀ (unresolvable resolved : List Pkg) (d : List ErrorData) (t : Session),
      takeResolved unresolvable resolved d t = .ok data' s' →
        s'.trans.add = resolved ∧ s'.trans.remove = t.trans.remove ∧
          s'.trans.flags = t.trans.flags ∧ data' = d := by
    intro unresolvable resolved d t ht
    rcases takeResolved_cases unresolvable resolved d t with ⟨-, heq⟩ | ⟨-, heq⟩
    · rw [heq] at ht
      obtain ⟨rfl, rfl⟩ := Outcome.ok.inj ht
      exact ⟨rfl, rfl, rfl, rfl⟩
    · rw [heq] at ht
      cases ht
  unfold prepareResolve at h
  by_cases hnodeps : s.trans.flags.nodeps
  · rw [if_pos hnodeps] at h
    obtain ⟨rfl, rfl⟩ := Outcome.ok.inj h
    exact Or.inl ⟨hnodeps, rfl, rfl⟩
  · rw [if_neg hnodeps] at h
    right
    refine ⟨by simpa using hnodeps, ?_⟩
    by_cases hnil : (resolveTargets handle s).1 = []
    · simp only [hnil, if_true] at h ⊢
      exact htake _ _ _ { s with asked := (resolveTargets handle s).2.asked } h
    · simp only [hnil, if_false] at h ⊢
      split_ifs at h
      exact htake _ _ _ { s with asked := (resolveTargets handle s).2.asked + 1 } h

end Alpm.Sync
