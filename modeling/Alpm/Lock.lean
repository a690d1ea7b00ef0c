import Alpm.General.Execution
import Alpm.Package

/-!
# The database lock

The lock file is created by `_alpm_handle_lock` and removed by `alpm_unlock`, which
`alpm_trans_init`, `alpm_trans_release` and `alpm_db_update` call.

## 1.  Steps

Any number of handles run these functions at the same time; on one handle calls follow each other.
What a handle does between two system calls is one step, the system's answer to the request it makes
is part of the step, and `Control` says where a handle stands between its steps.  So a run is any
interleaving of the handles with any answers of the system; the one thing that the system is trusted
with is `O_EXCL`, which makes the answer of `open` depend on the file.

## 2.  The invariant

A handle owns the lock file from the `open` that creates it to the `unlink` that removes it, and its
own state tells whether it does (`Handle.Owns`).  `Locked` says that a lock file has at most one
owner and that an owned one is there.  A step of a handle only changes a file that it owns or that
nobody owns (`LockEffect`), which is why the proof for all handles needs no case distinction over
the steps of two of them.

## 3.  How the lock is lost

`_alpm_handle_lock` succeeds at once on a handle that has the lock already, and `alpm_db_update`
always unlocks at its end.  So a call of `alpm_db_update` on a handle with an active transaction
gives the transaction's lock away (`dbUpdate_unlocks`), after which a second handle can begin a
transaction next to it.  This is the only way to lose it: in runs without such a call no two handles
of one lock file are active, and whoever is active holds the lock (`World.safe_of_execution`).
-/

namespace Alpm

/-- `alpm_transstate_t`. -/
inductive TransState where
  | idle
  | initialized
  | prepared
  | downloading
  | commiting
  | commited
  | interrupted
  deriving DecidableEq, Repr

/-- The part of `alpm_trans_t` that `trans.c` reads and writes outside of a commit. -/
structure Trans where
  flags : TransFlags
  state : TransState
  deriving DecidableEq, Repr

/-- The part of `alpm_handle_t` that has to do with the lock. -/
structure Handle where
  lockfile : Option CString
  lockfd : Int := -1
  trans : Option Trans := none
  deriving DecidableEq, Repr

/-- What the system answers to the next request of a handle: whether it does what it is
asked to, the descriptor it opens, and whether a failing `open` sets `errno` to `EINTR`. -/
structure Answer where
  ok : Bool
  fd : ℕ := 3
  eintr : Bool := false
  deriving DecidableEq, Repr

/-- The functions that call `_alpm_handle_lock`. -/
inductive LockCaller where
  | transInit (flags : TransFlags)
  | dbUpdate
  deriving DecidableEq, Repr

/-- Where a handle stands between two steps. -/
inductive Control where
  /-- in no call -/
  | outside
  /-- at the start of `_alpm_handle_lock` -/
  | handleLock (caller : LockCaller)
  /-- in the loop of `_alpm_handle_lock` around `open` -/
  | openLockfile (path : CString) (caller : LockCaller)
  /-- at the `CALLOC` of `alpm_trans_init` -/
  | callocTrans (flags : TransFlags)
  /-- in `alpm_db_update`, after `_alpm_handle_lock` has succeeded -/
  | updateDbs
  /-- at the start of `alpm_unlock` -/
  | handleUnlock
  /-- in `alpm_unlock`, after `close` -/
  | unlinkLockfile (path : CString)
  deriving DecidableEq, Repr

/-- The calls that begin on a handle.  Those of the other functions of `trans.c` matter only
by the state that they leave the transaction in. -/
inductive Call where
  | transInit (flags : TransFlags)
  | transRelease
  /-- with `dbs` and the result of `get_sync_dir` not `NULL`, or with one of them `NULL` -/
  | dbUpdate (dbs syncpath : Bool)
  | transProgress (state : TransState)
  deriving DecidableEq, Repr

/-- Where the caller of `_alpm_handle_lock` goes on when it returns `0`. -/
def LockCaller.onSuccess : LockCaller → Control
  | transInit flags => .callocTrans flags
  | dbUpdate => .updateDbs

/-- Where the caller of `_alpm_handle_lock` goes on when it returns `-1`: `alpm_db_update`
jumps to its cleanup. -/
def LockCaller.onFailure : LockCaller → Control
  | transInit _ => .outside
  | dbUpdate => .handleUnlock

/-- A call up to its first request to the system.  The checks of its arguments and of the state of
the transaction are a part of it, so a call that they refuse is over at once. -/
def Handle.beginCall (handle : Handle) : Call → Handle × Control
  | .transInit flags =>
    if handle.trans.isSome then (handle, .outside)
    else if !flags.nolock then (handle, .handleLock (.transInit flags))
    else (handle, .callocTrans flags)
  | .transRelease =>
    match handle.trans with
    | none => (handle, .outside)
    | some trans =>
      if trans.state = .idle then (handle, .outside)
      else ({ handle with trans := none },
        if !trans.flags.nolock then .handleUnlock else .outside)
  | .dbUpdate dbs syncpath =>
    if !dbs || !syncpath then (handle, .outside) else (handle, .handleLock .dbUpdate)
  | .transProgress state =>
    if state = .idle then (handle, .outside)
    else ({ handle with trans := handle.trans.map ({ · with state }) }, .outside)

/-- `open(path, O_WRONLY | O_CREAT | O_EXCL | O_CLOEXEC, 0000)`. -/
def openExcl (answer : Answer) (files : CString → Bool) (path : CString) :
    Int × (CString → Bool) :=
  if answer.ok ∧ ¬ files path then (answer.fd, Function.update files path true) else (-1, files)

/-- A step of a handle inside a call: the lock files, the handle and where it stands
afterwards. -/
def Handle.advance (answer : Answer) (files : CString → Bool) (handle : Handle) :
    Control → (CString → Bool) × Handle × Control
  | .outside => (files, handle, .outside)
  | .handleLock caller =>
    match handle.lockfile with
    | none => (files, handle, caller.onFailure)
    | some path =>
      if ¬ handle.lockfd < 0 then (files, handle, caller.onSuccess)
      -- the copy of the path and `_alpm_makepath`
      else if answer.ok then (files, handle, .openLockfile path caller)
      else (files, handle, caller.onFailure)
  | .openLockfile path caller =>
    let (fd, files) := openExcl answer files path
    let handle := { handle with lockfd := fd }
    if fd = -1 ∧ answer.eintr then (files, handle, .openLockfile path caller)
    else if fd ≥ 0 then (files, handle, caller.onSuccess)
    else (files, handle, caller.onFailure)
  | .callocTrans flags =>
    if answer.ok then
      (files, { handle with trans := some { flags, state := .initialized } }, .outside)
    else (files, handle, .outside)
  -- whatever the downloads and checks give, the cleanup follows
  | .updateDbs => (files, handle, .handleUnlock)
  | .handleUnlock =>
    match handle.lockfile with
    | none => (files, handle, .outside)
    | some path =>
      if handle.lockfd ≥ 0 then
        (files, { handle with lockfd := -1 }, .unlinkLockfile path)
      else (files, handle, .outside)
  | .unlinkLockfile path =>
    (if answer.ok then Function.update files path false else files, handle, .outside)

/-- Handles that run at the same time, and the lock files that exist. -/
structure World (ι : Type*) where
  files : CString → Bool
  handle : ι → Handle
  control : ι → Control

/-- A call begins on a handle, or a handle goes on with its call. -/
inductive LockEvent (ι : Type*) where
  | call (i : ι) (call : Call)
  | advance (i : ι) (answer : Answer)

namespace World

variable {ι : Type*} [DecidableEq ι]

/-- Put the handle `i` in the state it has after a step. -/
def set (w : World ι) (i : ι) (files : CString → Bool) (handle : Handle) (control : Control) :
    World ι where
  files := files
  handle := Function.update w.handle i handle
  control := Function.update w.control i control

/-- One step of one handle.  A call begins where no other one is going on, and an answer is for a
call that is. -/
def step (w : World ι) : LockEvent ι → Option (World ι)
  | .call i call =>
    if w.control i = .outside then
      let (handle, control) := (w.handle i).beginCall call
      some (w.set i w.files handle control)
    else none
  | .advance i answer =>
    if w.control i = .outside then none
    else
      let (files, handle, control) := (w.handle i).advance answer w.files (w.control i)
      some (w.set i files handle control)

end World

/-! ## What the lock is for -/

/-- The handle has a transaction that is not exempt from locking. -/
def Handle.isActive (handle : Handle) : Bool := handle.trans.any (!·.flags.nolock)

/-- The handle holds the lock: its descriptor is open and the lock file exists. -/
def Handle.HoldsLock (files : CString → Bool) (handle : Handle) : Prop :=
  0 ≤ handle.lockfd ∧ ∃ path, handle.lockfile = some path ∧ files path

namespace World

variable {ι : Type*}

/-- No two handles of one lock file are active, and whoever is active holds the lock.  The second
half is not implied by the first: a handle that has lost its lock is alone until the next one comes.
-/
structure Safe (w : World ι) : Prop where
  exclusive : ∀ i j, i ≠ j → (w.handle i).lockfile = (w.handle j).lockfile →
    ¬ ((w.handle i).isActive ∧ (w.handle j).isActive)
  holds : ∀ i, (w.handle i).isActive → (w.handle i).HoldsLock w.files

/-- Every handle is as `_alpm_handle_new` made it. -/
structure Initial (w : World ι) : Prop where
  lockfd : ∀ i, (w.handle i).lockfd = -1
  trans : ∀ i, (w.handle i).trans = none
  control : ∀ i, w.control i = .outside

/-- The event is not a call of `alpm_db_update` that gets past its argument checks on a
handle with an active transaction. -/
def Allowed (w : World ι) : LockEvent ι → Prop
  | .call i (.dbUpdate true true) => ¬ (w.handle i).isActive
  | _ => True

end World

/-! ## One handle -/

/-- What a handle inside a call has found out. -/
def Handle.At (handle : Handle) : Control → Prop
  | .outside => True
  | .handleLock (.transInit _) => handle.trans = none
  | .handleLock .dbUpdate => ¬ handle.isActive
  | .openLockfile path (.transInit _) =>
    handle.lockfile = some path ∧ handle.lockfd < 0 ∧ handle.trans = none
  | .openLockfile path .dbUpdate => handle.lockfile = some path ∧ handle.lockfd < 0
  | .callocTrans flags => handle.trans = none ∧ (flags.nolock = false → 0 ≤ handle.lockfd)
  | .updateDbs => ¬ handle.isActive
  | .handleUnlock => ¬ handle.isActive
  | .unlinkLockfile path => handle.lockfile = some path ∧ handle.lockfd < 0

/-- The invariant of a handle. -/
structure Handle.Sound (handle : Handle) (control : Control) : Prop where
  active : handle.isActive → 0 ≤ handle.lockfd
  lockfile : 0 ≤ handle.lockfd → handle.lockfile ≠ none
  at_control : handle.At control

/-- The lock file is there because of this handle: its descriptor is open, or it is about to remove
the file after it has closed the descriptor. -/
def Handle.Owns (handle : Handle) (control : Control) (path : CString) : Prop :=
  handle.lockfile = some path ∧ (0 ≤ handle.lockfd ∨ control = .unlinkLockfile path)

theorem Handle.Owns.unique {handle : Handle} {control : Control} {path path' : CString}
    (h : handle.Owns control path) (h' : handle.Owns control path') : path = path' :=
  Option.some.inj (h.1.symm.trans h'.1)

/-- What a step of one handle can do to the lock files. -/
inductive LockEffect (files : CString → Bool) (handle : Handle) (control : Control)
    (handle' : Handle) (control' : Control) : (CString → Bool) → Prop
  | keep (howns : ∀ path, handle'.Owns control' path → handle.Owns control path) :
      LockEffect files handle control handle' control' files
  | create (path : CString) (hfree : ¬ files path)
      (howns : ∀ path', handle'.Owns control' path' → path' = path) :
      LockEffect files handle control handle' control' (Function.update files path true)
  | unlink (path : CString) (howned : handle.Owns control path)
      (howns : ∀ path', ¬ handle'.Owns control' path') :
      LockEffect files handle control handle' control' (Function.update files path false)

variable {handle : Handle} {control : Control} {files : CString → Bool}

@[simp] theorem Handle.isActive_of_trans_eq_none (h : handle.trans = none) :
    handle.isActive = false := by
  rw [isActive, h]
  rfl

theorem Handle.beginCall_sound {call : Call} (hsound : handle.Sound .outside)
    (hallowed : call = .dbUpdate true true → ¬ handle.isActive) :
    (handle.beginCall call).1.Sound (handle.beginCall call).2 := by
  cases call with
  | transInit flags =>
    rw [beginCall]
    split_ifs with htrans hnolock
    · exact hsound
    · exact ⟨hsound.active, hsound.lockfile, by simpa [At] using htrans⟩
    · exact ⟨hsound.active, hsound.lockfile, by simpa using htrans, by simp_all⟩
  | transRelease =>
    rw [beginCall]
    cases htrans : handle.trans with
    | none => exact hsound
    | some trans =>
      dsimp only
      split_ifs with hidle hnolock
      · exact hsound
      · exact ⟨by simp [isActive], hsound.lockfile, by simp [At, isActive]⟩
      · exact ⟨by simp [isActive], hsound.lockfile, trivial⟩
  | dbUpdate dbs syncpath =>
    rw [beginCall]
    split_ifs with hargs
    · exact hsound
    · obtain ⟨rfl, rfl⟩ : dbs = true ∧ syncpath = true := by simpa using hargs
      exact ⟨hsound.active, hsound.lockfile, hallowed rfl⟩
  | transProgress state =>
    rw [beginCall]
    split_ifs with hidle
    · exact hsound
    · refine ⟨fun hactive => hsound.active ?_, hsound.lockfile, trivial⟩
      simpa [isActive, Option.any_map, Function.comp_def] using hactive

theorem Handle.beginCall_owns {call : Call} {path : CString}
    (h : (handle.beginCall call).1.Owns (handle.beginCall call).2 path) :
    handle.Owns .outside path := by
  have hframe : (handle.beginCall call).1.lockfile = handle.lockfile ∧
      (handle.beginCall call).1.lockfd = handle.lockfd ∧
      (handle.beginCall call).2 ≠ .unlinkLockfile path := by
    cases call <;> rw [beginCall]
    · split_ifs <;> simp
    · cases handle.trans with
      | none => simp
      | some trans =>
        dsimp only
        split_ifs <;> simp
    · split_ifs <;> simp
    · split_ifs <;> simp
  obtain ⟨hlockfile, hlockfd, hcontrol⟩ := hframe
  obtain ⟨hpath, hopen | hunlink⟩ := h
  · exact ⟨hlockfile ▸ hpath, Or.inl (hlockfd ▸ hopen)⟩
  · exact absurd hunlink hcontrol

/-- The caller goes on with the lock. -/
theorem LockCaller.onSuccess_sound {caller : LockCaller}
    (hactive : handle.isActive → 0 ≤ handle.lockfd)
    (hlockfile : 0 ≤ handle.lockfd → handle.lockfile ≠ none) (hopen : 0 ≤ handle.lockfd)
    (hat : handle.At (.handleLock caller)) : handle.Sound caller.onSuccess := by
  cases caller with
  | transInit flags => exact ⟨hactive, hlockfile, hat, fun _ => hopen⟩
  | dbUpdate => exact ⟨hactive, hlockfile, hat⟩

/-- The caller gives up. -/
theorem LockCaller.onFailure_sound {caller : LockCaller}
    (hactive : handle.isActive → 0 ≤ handle.lockfd)
    (hlockfile : 0 ≤ handle.lockfd → handle.lockfile ≠ none)
    (hat : handle.At (.handleLock caller)) : handle.Sound caller.onFailure := by
  cases caller with
  | transInit flags => exact ⟨hactive, hlockfile, trivial⟩
  | dbUpdate => exact ⟨hactive, hlockfile, hat⟩

theorem LockCaller.onSuccess_ne {caller : LockCaller} {path : CString} :
    caller.onSuccess ≠ .unlinkLockfile path := by
  cases caller <;> simp [onSuccess]

theorem LockCaller.onFailure_ne {caller : LockCaller} {path : CString} :
    caller.onFailure ≠ .unlinkLockfile path := by
  cases caller <;> simp [onFailure]

/-- Within `_alpm_handle_lock` the handle knows what its caller knows. -/
theorem Handle.At.handleLock {path : CString} {caller : LockCaller} {fd : Int}
    (hactive : handle.isActive → 0 ≤ handle.lockfd)
    (hat : handle.At (.openLockfile path caller)) :
    { handle with lockfd := fd }.At (.handleLock caller) := by
  cases caller with
  | transInit flags => exact hat.2.2
  | dbUpdate =>
    intro h
    have := hactive h
    have := hat.2
    omega

theorem Handle.At.openLockfile {path : CString} {caller : LockCaller}
    (hpath : handle.lockfile = some path) (hclosed : handle.lockfd < 0)
    (hat : handle.At (.handleLock caller)) : handle.At (.openLockfile path caller) := by
  cases caller with
  | transInit flags => exact ⟨hpath, hclosed, hat⟩
  | dbUpdate => exact ⟨hpath, hclosed⟩

theorem Handle.At.closed {path : CString} {caller : LockCaller}
    (hat : handle.At (.openLockfile path caller)) :
    handle.lockfile = some path ∧ handle.lockfd < 0 := by
  cases caller with
  | transInit flags => exact ⟨hat.1, hat.2.1⟩
  | dbUpdate => exact hat

theorem openExcl_cases (answer : Answer) (files : CString → Bool) (path : CString) :
    openExcl answer files path = (-1, files) ∨
      ¬ files path ∧ openExcl answer files path =
        ((answer.fd : Int), Function.update files path true) := by
  unfold openExcl
  split_ifs with h
  · exact Or.inr ⟨h.2, rfl⟩
  · exact Or.inl rfl

/-- **One step of a call** keeps the invariant of the handle, and this is what it does to the lock
files. What other handles do in the meantime does not enter, except that a file may have appeared.
-/
theorem Handle.advance_spec (answer : Answer) (files : CString → Bool)
    (hsound : handle.Sound control) :
    let (files', handle', control') := handle.advance answer files control
    handle'.Sound control' ∧ LockEffect files handle control handle' control' files' := by
  have hactive := hsound.active
  have hlockfile := hsound.lockfile
  have hat := hsound.at_control
  cases control with
  | outside => exact ⟨hsound, .keep fun _ h => h⟩
  | handleLock caller =>
    rw [advance]
    cases hpath : handle.lockfile with
    | none =>
      refine ⟨LockCaller.onFailure_sound hactive hlockfile hat, .keep ?_⟩
      exact fun path h => ⟨h.1, Or.inl (h.2.resolve_right LockCaller.onFailure_ne)⟩
    | some path =>
      dsimp only
      split_ifs with hheld hok
      · exact ⟨⟨hactive, hlockfile, hat.openLockfile hpath hheld⟩,
          .keep fun path h => ⟨h.1, Or.inl (h.2.resolve_right (by simp))⟩⟩
      · refine ⟨LockCaller.onFailure_sound hactive hlockfile hat, .keep ?_⟩
        exact fun path h => ⟨h.1, Or.inl (h.2.resolve_right LockCaller.onFailure_ne)⟩
      · refine ⟨LockCaller.onSuccess_sound hactive hlockfile (not_lt.mp hheld) hat, .keep ?_⟩
        exact fun path h => ⟨h.1, Or.inl (h.2.resolve_right LockCaller.onSuccess_ne)⟩
  | openLockfile path caller =>
    obtain ⟨hpath, hclosed⟩ := hat.closed
    have hinactive : handle.isActive = false := by
      by_contra h
      have := hactive (by simpa using h)
      omega
    have hactive' (fd : Int) (h : { handle with lockfd := fd }.isActive) : 0 ≤ fd := by
      have hsame : handle.isActive = true := h
      rw [hinactive] at hsame
      cases hsame
    have hlockfile' (fd : Int) (_ : 0 ≤ fd) :
        { handle with lockfd := fd }.lockfile ≠ none := by
      show handle.lockfile ≠ none
      simp [hpath]
    have hat' (fd : Int) : { handle with lockfd := fd }.At (.handleLock caller) :=
      hat.handleLock hactive
    rw [advance]
    rcases openExcl_cases answer files path with hopen | ⟨hfree, hopen⟩ <;> rw [hopen] <;>
      dsimp only
    · have hkeep (control' : Control) (hne : ∀ path, control' ≠ .unlinkLockfile path) :
          LockEffect files handle (.openLockfile path caller) { handle with lockfd := -1 }
            control' files := by
        refine .keep fun path' h => ?_
        rcases h.2 with h | h
        · exact absurd h (by simp)
        · exact absurd h (hne path')
      split_ifs with hintr hge
      · exact ⟨⟨hactive' _, hlockfile' _, (hat' (-1)).openLockfile hpath (by simp)⟩,
          hkeep _ (by simp)⟩
      · exact absurd hge (by simp)
      · exact ⟨LockCaller.onFailure_sound (hactive' _) (hlockfile' _) (hat' _),
          hkeep _ fun _ => LockCaller.onFailure_ne⟩
    · rw [if_neg (by omega), if_pos (by omega)]
      refine ⟨LockCaller.onSuccess_sound (hactive' _) (hlockfile' _) ?_ (hat' _),
        .create path hfree fun path' h => ?_⟩
      · exact Int.natCast_nonneg _
      · exact Option.some.inj (h.1.symm.trans hpath)
  | callocTrans flags =>
    obtain ⟨htrans, hheld⟩ := hat
    rw [advance]
    split_ifs with hok
    · refine ⟨⟨fun h => hheld (by simpa [isActive] using h), hlockfile, trivial⟩, .keep ?_⟩
      exact fun path h => ⟨h.1, Or.inl (h.2.resolve_right (by simp))⟩
    · exact ⟨⟨hactive, hlockfile, trivial⟩,
        .keep fun path h => ⟨h.1, Or.inl (h.2.resolve_right (by simp))⟩⟩
  | updateDbs =>
    exact ⟨⟨hactive, hlockfile, hat⟩,
      .keep fun path h => ⟨h.1, Or.inl (h.2.resolve_right (by simp))⟩⟩
  | handleUnlock =>
    have hstop : handle.Sound .outside ∧
        LockEffect files handle .handleUnlock handle .outside files :=
      ⟨⟨hactive, hlockfile, trivial⟩,
        .keep fun path h => ⟨h.1, Or.inl (h.2.resolve_right (by simp))⟩⟩
    rw [advance]
    cases hpath : handle.lockfile with
    | none => exact hstop
    | some path =>
      dsimp only
      split_ifs with hheld
      · exact ⟨⟨fun h => absurd h hat, fun h => absurd h (by simp), rfl, by simp⟩,
          .keep fun path' h => ⟨hpath.trans h.1, Or.inl hheld⟩⟩
      · exact hstop
  | unlinkLockfile path =>
    obtain ⟨hpath, hclosed⟩ := hat
    have hgone (path' : CString) : ¬ handle.Owns .outside path' := by
      rintro ⟨-, h | h⟩
      · omega
      · simp at h
    rw [advance]
    dsimp only
    split_ifs with hok
    · exact ⟨⟨hactive, hlockfile, trivial⟩, .unlink path ⟨hpath, Or.inr rfl⟩ hgone⟩
    · exact ⟨⟨hactive, hlockfile, trivial⟩, .keep fun path' h => absurd h (hgone path')⟩

/-! ## All handles -/

namespace World

variable {ι : Type*}

/-- The invariant of all handles: a lock file has at most one owner, and an owned one is
there. -/
structure Locked (w : World ι) : Prop where
  sound : ∀ i, (w.handle i).Sound (w.control i)
  exists_file : ∀ i path, (w.handle i).Owns (w.control i) path → w.files path
  exclusive : ∀ i j path, (w.handle i).Owns (w.control i) path →
    (w.handle j).Owns (w.control j) path → i = j

theorem Initial.locked {w : World ι} (h : w.Initial) : w.Locked := by
  have hnone (i : ι) (path : CString) : ¬ (w.handle i).Owns (w.control i) path := by
    rintro ⟨-, hopen | hunlink⟩
    · rw [h.lockfd] at hopen
      omega
    · rw [h.control] at hunlink
      cases hunlink
  refine ⟨fun i => ⟨fun hactive => ?_, fun hopen => ?_, ?_⟩,
    fun i path howns => absurd howns (hnone i path),
    fun i _ path howns => absurd howns (hnone i path)⟩
  · simp [h.trans i] at hactive
  · rw [h.lockfd] at hopen
    omega
  · rw [h.control]
    trivial

theorem Locked.safe {w : World ι} (h : w.Locked) : w.Safe := by
  have howns (i : ι) (hi : (w.handle i).isActive) :
      ∃ path, (w.handle i).Owns (w.control i) path := by
    have hopen := (h.sound i).active hi
    obtain ⟨path, hpath⟩ := Option.ne_none_iff_exists'.mp ((h.sound i).lockfile hopen)
    exact ⟨path, hpath, Or.inl hopen⟩
  refine ⟨fun i j hne hfile hboth => hne ?_, fun i hi => ?_⟩
  · obtain ⟨path, hi⟩ := howns i hboth.1
    have hj : (w.handle j).Owns (w.control j) path :=
      ⟨hfile ▸ hi.1, Or.inl ((h.sound j).active hboth.2)⟩
    exact h.exclusive i j path hi hj
  · obtain ⟨path, howned⟩ := howns i hi
    exact ⟨(h.sound i).active hi, path, howned.1, h.exists_file i path howned⟩

variable [DecidableEq ι]

/-- What one handle does keeps the invariant of all. -/
theorem Locked.set {w : World ι} (h : w.Locked) (i : ι) {files : CString → Bool}
    {handle : Handle} {control : Control} (hsound : handle.Sound control)
    (heffect : LockEffect w.files (w.handle i) (w.control i) handle control files) :
    (w.set i files handle control).Locked := by
  have hhandle : (w.set i files handle control).handle i = handle := Function.update_self ..
  have hcontrol : (w.set i files handle control).control i = control := Function.update_self ..
  have hother (j : ι) (hne : j ≠ i) :
      (w.set i files handle control).handle j = w.handle j ∧
        (w.set i files handle control).control j = w.control j :=
    ⟨Function.update_of_ne hne _ _, Function.update_of_ne hne _ _⟩
  -- Either `i` owns the file after the step, or the owner is another one than before.
  have howns (j : ι) (path : CString)
      (hj : ((w.set i files handle control).handle j).Owns
        ((w.set i files handle control).control j) path) :
      j = i ∧ handle.Owns control path ∨ j ≠ i ∧ (w.handle j).Owns (w.control j) path := by
    rcases eq_or_ne j i with rfl | hne
    · rw [hhandle, hcontrol] at hj
      exact Or.inl ⟨rfl, hj⟩
    · rw [(hother j hne).1, (hother j hne).2] at hj
      exact Or.inr ⟨hne, hj⟩
  refine ⟨fun j => ?_, fun j path hj => ?_, fun j k path hj hk => ?_⟩
  · rcases eq_or_ne j i with rfl | hne
    · rwa [hhandle, hcontrol]
    · rw [(hother j hne).1, (hother j hne).2]
      exact h.sound j
  · show files path = true
    cases heffect with
    | keep hkeep =>
      rcases howns j path hj with ⟨rfl, hj'⟩ | ⟨-, hj'⟩
      · exact h.exists_file j path (hkeep path hj')
      · exact h.exists_file j path hj'
    | create path' hfree honly =>
      rcases howns j path hj with ⟨rfl, hj'⟩ | ⟨-, hj'⟩
      · rw [honly path hj', Function.update_self]
      · rcases eq_or_ne path path' with rfl | hne
        · exact absurd (h.exists_file j path hj') hfree
        · rw [Function.update_of_ne hne]
          exact h.exists_file j path hj'
    | unlink path' howned hgone =>
      rcases howns j path hj with ⟨rfl, hj'⟩ | ⟨hne, hj'⟩
      · exact absurd hj' (hgone path)
      · rw [Function.update_of_ne]
        · exact h.exists_file j path hj'
        · rintro rfl
          exact hne (h.exclusive j i path hj' howned)
  · have hdisjoint (l : ι) (hl : l ≠ i) (hown : handle.Owns control path)
        (hl' : (w.handle l).Owns (w.control l) path) : False := by
      cases heffect with
      | keep hkeep => exact hl (h.exclusive l i path hl' (hkeep path hown))
      | create path' hfree honly =>
        rw [← honly path hown] at hfree
        exact hfree (h.exists_file l path hl')
      | unlink path' howned hgone => exact hgone path hown
    rcases howns j path hj with ⟨rfl, hj'⟩ | ⟨hjne, hj'⟩ <;>
      rcases howns k path hk with ⟨rfl, hk'⟩ | ⟨hkne, hk'⟩
    · rfl
    · exact (hdisjoint k hkne hj' hk').elim
    · exact (hdisjoint j hjne hk' hj').elim
    · exact h.exclusive j k path hj' hk'

theorem Locked.step {w w' : World ι} {e : LockEvent ι} (h : w.Locked) (hallowed : w.Allowed e)
    (hstep : w.step e = some w') : w'.Locked := by
  cases e with
  | call i call =>
    rw [World.step] at hstep
    split_ifs at hstep with houtside
    obtain rfl := Option.some.inj hstep
    have hsound := h.sound i
    rw [houtside] at hsound
    refine h.set i (Handle.beginCall_sound hsound ?_) (.keep fun path hpath => ?_)
    · rintro rfl
      exact hallowed
    · rw [houtside]
      exact Handle.beginCall_owns hpath
  | advance i answer =>
    rw [World.step] at hstep
    split_ifs at hstep
    obtain rfl := Option.some.inj hstep
    have hspec := Handle.advance_spec answer w.files (h.sound i)
    exact h.set i hspec.1 hspec.2

section Set

variable (w : World ι) (i : ι) (files : CString → Bool) (handle : Handle) (control : Control)

@[simp] theorem set_handle_self : (w.set i files handle control).handle i = handle :=
  Function.update_self ..

@[simp] theorem set_control_self : (w.set i files handle control).control i = control :=
  Function.update_self ..

@[simp] theorem set_set (files' : CString → Bool) (handle' : Handle) (control' : Control) :
    (w.set i files handle control).set i files' handle' control' =
      w.set i files' handle' control' := by
  simp only [set, Function.update_idem]

/-- A handle takes a step after its last one. -/
theorem set_advance (answer : Answer) (hinside : control ≠ .outside) :
    (w.set i files handle control).step (.advance i answer) =
      let (files', handle', control') := handle.advance answer files control
      some (w.set i files' handle' control') := by
  rw [step, set_control_self, if_neg hinside, set_handle_self]
  simp only [set_set]
  rfl

end Set

/-- A call of `alpm_db_update` on an active handle takes its lock away. -/
theorem dbUpdate_unlocks {w : World ι} {i : ι} (h : w.Locked) (hactive : (w.handle i).isActive)
    (houtside : w.control i = .outside) :
    ∃ w', ∀ answer, execute step w (.call i (.dbUpdate true true) ::
        List.replicate 3 (.advance i answer)) = some w' ∧ ¬ w'.Safe := by
  have hopen := (h.sound i).active hactive
  obtain ⟨path, hpath⟩ := Option.ne_none_iff_exists'.mp ((h.sound i).lockfile hopen)
  have hcall : w.step (.call i (.dbUpdate true true)) =
      some (w.set i w.files (w.handle i) (.handleLock .dbUpdate)) := if_pos houtside
  have hlock (answer : Answer) : (w.handle i).advance answer w.files (.handleLock .dbUpdate) =
      (w.files, w.handle i, .updateDbs) := by
    simp only [Handle.advance, hpath, not_lt.mpr hopen, not_false_eq_true, if_true]
    rfl
  have hunlock (answer : Answer) : (w.handle i).advance answer w.files .handleUnlock =
      (w.files, { w.handle i with lockfd := -1 }, .unlinkLockfile path) := by
    simp only [Handle.advance, hpath]
    exact if_pos hopen
  refine ⟨w.set i w.files { w.handle i with lockfd := -1 } (.unlinkLockfile path),
    fun answer => ⟨?_, fun hsafe => ?_⟩⟩
  · show (w.step _).bind _ = _
    rw [hcall, Option.bind_some]
    show (step _ (.advance i answer)).bind _ = _
    rw [set_advance w i _ _ _ answer (by simp), hlock, Option.bind_some]
    show (step _ (.advance i answer)).bind _ = _
    rw [set_advance w i _ _ _ answer (by simp), Handle.advance, Option.bind_some]
    show (step _ (.advance i answer)).bind _ = _
    rw [set_advance w i _ _ _ answer (by simp), hunlock]
    rfl
  · have hheld := (hsafe.holds i (by simpa [World.set, Handle.isActive] using hactive)).1
    simp [World.set] at hheld

/-- **The lock excludes** other transactions in every state of a run in which `alpm_db_update` is
not called on handles with an active transaction, and a call on such a handle ends this.  The first
half is the invariant `Locked`.  For the second the run goes on with the three requests of the call,
whatever the system answers, after which the handle is active without the lock. -/
theorem safe_of_execution {w w' : World ι} (hinit : w.Initial)
    (hrun : Execution step Allowed w w') :
    w'.Safe ∧ ∀ e, ¬ w'.Allowed e → (w'.step e).isSome →
      ∃ (i : ι) (w'' : World ι), ∀ answer,
        execute step w' (e :: List.replicate 3 (.advance i answer)) = some w'' ∧
          ¬ w''.Safe := by
  have hlocked : w'.Locked := hrun.invariant hinit.locked fun _ _ _ h => h.step
  refine ⟨hlocked.safe, fun e hnot henabled => ?_⟩
  match e with
  | .advance i answer => exact absurd trivial hnot
  | .call i (.transInit flags) => exact absurd trivial hnot
  | .call i .transRelease => exact absurd trivial hnot
  | .call i (.transProgress state) => exact absurd trivial hnot
  | .call i (.dbUpdate false syncpath) => exact absurd trivial hnot
  | .call i (.dbUpdate true false) => exact absurd trivial hnot
  | .call i (.dbUpdate true true) =>
    have houtside : w'.control i = .outside := by
      rw [step] at henabled
      by_contra hne
      rw [if_neg hne] at henabled
      cases henabled
    obtain ⟨w'', hunlocks⟩ := dbUpdate_unlocks hlocked (not_not.mp hnot) houtside
    exact ⟨i, w'', hunlocks⟩

/-- Two new handles that share a lock file. -/
def twoHandles : World Bool where
  files := fun _ => false
  handle := fun _ => { lockfile := some (str "db.lck") }
  control := fun _ => .outside

theorem twoHandles_initial : twoHandles.Initial := ⟨fun _ => rfl, fun _ => rfl, fun _ => rfl⟩

/-- `alpm_trans_init` as it succeeds on a handle. -/
def initEvents (i : Bool) : List (LockEvent Bool) :=
  .call i (.transInit {}) :: List.replicate 3 (.advance i { ok := true })

/-- `alpm_db_update` as it succeeds on a handle that has the lock. -/
def updateEvents (i : Bool) : List (LockEvent Bool) :=
  .call i (.dbUpdate true true) :: List.replicate 4 (.advance i { ok := true })

theorem safe_of_execution_init : ∃ w' : World Bool, Execution step Allowed twoHandles w' ∧
    (w'.handle false).isActive ∧ (w'.handle false).HoldsLock w'.files ∧
    ¬ (w'.handle true).isActive := by
  have hrun : Execution step Allowed twoHandles _ :=
    (((Execution.start.next (e := .call false (.transInit {})) trivial rfl).next
      (e := .advance false { ok := true }) trivial rfl).next
      (e := .advance false { ok := true }) trivial rfl).next
      (e := .advance false { ok := true }) trivial rfl
  have hsafe := (safe_of_execution twoHandles_initial hrun).1
  exact ⟨_, hrun, rfl, hsafe.holds false rfl, hsafe.exclusive false true (by decide) rfl ∘
    fun h => ⟨rfl, h⟩⟩

/-- **The lock does not exclude in all runs**: after one handle has begun a transaction and
updated the databases, the other handle gets the lock too. -/
theorem dbUpdate_lets_in : ¬ ∀ w w' : World Bool, w.Initial →
    (w.handle false).lockfile = (w.handle true).lockfile →
    Execution step (fun _ _ => True) w w' → w'.Safe := by
  intro hclaim
  have hrun : execute step twoHandles
      (initEvents false ++ updateEvents false ++ initEvents true) = some _ := rfl
  have hsafe := hclaim twoHandles _ twoHandles_initial rfl (execution_of_execute hrun)
  exact hsafe.exclusive false true (by decide) rfl ⟨rfl, rfl⟩

end World

end Alpm
