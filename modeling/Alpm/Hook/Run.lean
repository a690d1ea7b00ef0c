import Alpm.Diskspace.MountPoint
import Alpm.General.Overlay
import Alpm.Hook.Targets

/-!
# The hooks of a transaction

`_alpm_hook_run` reads the hook directories from the last one on; a hook of a later directory hides
those of the same file name in the directories before it.  The hooks are sorted by their file names,
and those that are triggered are run.

## 1.  What is modelled

The functions of the file are here with what they read and return.  The directories, with what
`opendir`, `readdir` and `stat` come to, are values, and `parse_ini` and `_alpm_run_chroot` are
parameters (`HookHandle`): a file is parsed to a hook or fails, and a command changes the system and
fails or not.  Allocations are taken to succeed.

## 2.  The order

`_alpm_hook_cmp` compares file names without their suffix.  Hooks with different names are therefore
never equal in the order, and the sorted list depends on the set of the hooks only
(`Named.listMsort_eq`).  With that, what is run does not depend on the order in which the
directories are listed; `Alpm.Hook.Selection` has the theorem.
-/

namespace Alpm.Hooks

open Diskspace (strncmp)
open Overlay
open Sync (Session)

/-- `alpm_hook_when_t`. -/
inductive HookWhen where
  | preTransaction
  | postTransaction
  deriving DecidableEq, Repr

/-- `_alpm_trigger_type_t`. -/
inductive TriggerType where
  | package
  | path
  deriving DecidableEq, Repr

/-- `_alpm_trigger_t`; the type is `0` until it is read. -/
structure HookTrigger extends Trigger where
  type : Option TriggerType
  deriving DecidableEq, Repr

/-- `_alpm_hook_t`; `when` is `0` and `cmd` is `NULL` until they are read. -/
structure HookFile extends Hook where
  name : CString := []
  triggers : List HookTrigger
  depends : List CString
  cmd : Option (List CString)
  when : Option HookWhen
  abortOnFail : Bool
  deriving DecidableEq, Repr

/-- What `stat` finds. -/
inductive FileKind where
  | dir
  | file (content : CString)
  deriving DecidableEq, Repr

/-- An entry of a directory; `stat` of its path can fail. -/
structure DirEntry where
  name : CString
  stat : Option FileKind
  deriving DecidableEq, Repr

/-- How `opendir` and the calls of `readdir` end: `ENOENT`, another error, or a listing, after
which `errno` is set or not. -/
inductive Listing where
  | missing
  | failed
  | entries (list : List DirEntry) (errno : Bool)

/-- An element of `hookdirs`. -/
structure HookDir where
  path : CString
  listing : Listing

/-- What a run uses besides the directories: the handle, `parse_ini` with the callback for hooks
as a function of the content of a file, and `_alpm_run_chroot` for a command and the targets for
its standard input. -/
structure HookHandle (σ : Type) where
  sys : System
  noextract : List CString
  session : Session
  localdb : List Pkg
  parseIni : CString → Option HookFile
  runChroot : List CString → Option (List CString) → σ → Int × σ

/-- `PATH_MAX`. -/
def pathMax : ℕ := 4096

/-- `ALPM_HOOK_SUFFIX`. -/
def hookSuffix : CString := str ".hook"

/-! ## Reading the hooks -/

/-- `_alpm_trigger_validate`. -/
def triggerValidate (trigger : HookTrigger) : Int :=
  if trigger.targets = [] ∨ trigger.type = none ∨ trigger.op = ⟨false, false, false⟩ then -1
  else 0

/-- `_alpm_hook_validate`.  A hook without triggers is valid, to mask others. -/
def hookValidate (hook : HookFile) : Int :=
  if hook.triggers = [] then 0
  else if hook.triggers.any fun trigger => triggerValidate trigger ≠ 0 then -1
  else if hook.cmd = none ∨ hook.when = none then -1
  else 0

/-- `_alpm_hook_cmp`. -/
def hookCmp (h1 h2 : HookFile) : Int :=
  let l1 := h1.name.length - hookSuffix.length
  let l2 := h2.name.length - hookSuffix.length
  -- exclude the suffixes from comparison
  let ret := strncmp h1.name h2.name (if l1 ≤ l2 then l1 else l2)
  if ret = 0 ∧ l1 ≠ l2 then if l1 < l2 then -1 else 1 else ret

/-- `find_hook`. -/
def findHook (haystack : List HookFile) (needle : CString) : Bool :=
  haystack.any fun h => strcmp h.name needle = 0

/-- `ret` and `hooks` of `_alpm_hook_run`. -/
structure HookScan where
  ret : Int := 0
  hooks : List HookFile := []

section

variable {σ : Type} (handle : HookHandle σ)

/-- The body of the loop over the entries of a directory, for a hook of whose name `find_hook`
says whether it was read already. -/
def visitEntry (path : CString) (overridden : Bool) (entry : DirEntry) : Visit HookFile :=
  if entry.name = str "." ∨ entry.name = str ".." then .skip
  else if entry.name.length ≥ pathMax - path.length then .fail
  else if entry.name.length < hookSuffix.length ∨
      entry.name.drop (entry.name.length - hookSuffix.length) ≠ hookSuffix then .skip
  else if overridden then .skip
  else match entry.stat with
    | none => .fail
    | some .dir => .skip
    | some (.file content) => match handle.parseIni content with
      | none => .fail
      | some hook =>
        if hookValidate hook ≠ 0 then .fail else .take { hook with name := entry.name }

def scanEntry (path : CString) (scan : HookScan) (entry : DirEntry) : HookScan :=
  match visitEntry handle path (findHook scan.hooks entry.name) entry with
  | .skip => scan
  | .fail => { scan with ret := -1 }
  | .take hook => { scan with hooks := scan.hooks ++ [hook] }

/-- The body of the loop over `hookdirs`.  A directory that is missing is no error; one that cannot
be listed, or not to its end, makes the return value `-1` and does not stop the loop. -/
def scanDir (scan : HookScan) (dir : HookDir) : HookScan :=
  if dir.path.length ≥ pathMax then { scan with ret := -1 }
  else match dir.listing with
    | .missing => scan
    | .failed => { scan with ret := -1 }
    | .entries list errno =>
      let scan := list.foldl (scanEntry handle dir.path) scan
      if errno then { scan with ret := -1 } else scan

/-- The loop over `hookdirs`, from the last one on. -/
def scanDirs (hookdirs : List HookDir) : HookScan := hookdirs.reverse.foldl (scanDir handle) {}

/-! ## Triggers -/

/-- `_alpm_hook_trigger_match_pkg`: the packages that are installed, upgraded or removed and that
match, as far as the trigger is for them.  A package is upgraded if it has an old version, and a
package that comes back in the same transaction is not removed. -/
def triggerMatchPkg (hook : Hook) (t : Trigger) : Bool × Hook :=
  let trans := handle.session.trans
  let matched := fun pkg : Pkg => fnmatchPatterns handle.sys t.targets pkg.name = 0
  let upgrades := fun pkg : Pkg => (handle.session.fields pkg.addr).oldpkg.isSome
  let install := if t.op.install then
    (trans.add.filter fun pkg => matched pkg && !upgrades pkg).map (·.name) else []
  let upgrade := if t.op.upgrade then
    (trans.add.filter fun pkg => matched pkg && upgrades pkg).map (·.name) else []
  let remove := if t.op.remove then
    (trans.remove.filter fun pkg =>
      matched pkg && !trans.add.any fun spkg => pkgCmp spkg pkg = 0).map (·.name) else []
  -- without `NeedsTargets` the source returns at the first match
  (install ≠ [] || upgrade ≠ [] || remove ≠ [],
    if hook.needsTargets then
      { hook with matchList := hook.matchList ++ install ++ upgrade ++ remove }
    else hook)

/-- `_alpm_hook_trigger_match`. -/
def triggerMatch (hook : Hook) (t : HookTrigger) : Bool × Hook :=
  if t.type = some .package then triggerMatchPkg handle hook t.toTrigger
  else triggerMatchFile handle.sys handle.noextract handle.session hook t.toTrigger

/-- `_alpm_hook_triggered`, for the triggers from `i` on.  The first trigger that matches is enough,
unless the hook wants all targets. -/
def hookTriggered : List HookTrigger → Hook → Bool × Hook
  | [], hook => (false, hook)
  | t :: i, hook =>
    let (ret, hook) := triggerMatch handle hook t
    if ret && !hook.needsTargets then (true, hook)
    else
      let (ret', hook) := hookTriggered i hook
      (ret || ret', hook)

/-- A hook, with its matches, if it is to be run. -/
def triggeredHook (when : HookWhen) (hook : HookFile) : Option HookFile :=
  if hook.when = some when then
    match hookTriggered handle hook.triggers hook.toHook with
    | (true, matched) => some { hook with toHook := matched }
    | (false, _) => none
  else none

/-! ## Running the hooks -/

/-- `_alpm_hook_run_hook`: its result and what the command makes of the system. -/
def hookRunHook (hook : HookFile) (w : σ) : Int × σ :=
  if hook.depends.any fun depstring =>
      (findDepSatisfier handle.localdb (depFromString depstring)).isNone then (-1, w)
  else handle.runChroot (hook.cmd.getD [])
    (if hook.needsTargets then some (strlistDedup (listMsort strcmp hook.matchList)) else none) w

/-- `ret`, the hooks that were run and the system. -/
structure HookRun (σ : Type) where
  ret : Int
  ran : List HookFile
  system : σ

/-- The loop over `hooks_triggered`.  A hook that fails and has `AbortOnFail` ends the loop before a
transaction, and only sets the return value after it. -/
def runHooks (when : HookWhen) : List HookFile → HookRun σ → HookRun σ
  | [], run => run
  | hook :: i, run =>
    let (code, w) := hookRunHook handle hook run.system
    let run : HookRun σ := {
      ret := if code ≠ 0 && hook.abortOnFail then -1 else run.ret
      ran := run.ran ++ [hook]
      system := w }
    if run.ret ≠ 0 ∧ when = .preTransaction then run else runHooks when i run

/-- `_alpm_hook_run`. -/
def hookRun (hookdirs : List HookDir) (when : HookWhen) (w : σ) : HookRun σ :=
  let scan := scanDirs handle hookdirs
  if scan.ret ≠ 0 ∧ when = .preTransaction then ⟨scan.ret, [], w⟩
  else
    let hooks := listMsort hookCmp scan.hooks
    runHooks handle when (hooks.filterMap (triggeredHook handle when)) ⟨scan.ret, [], w⟩

end

/-! ## The order of the hooks -/

/-- The file name without its suffix. -/
def HookFile.stem (hook : HookFile) : CString :=
  hook.name.take (hook.name.length - hookSuffix.length)

/-- Strings are compared up to the length of the shorter one, and then by their lengths. -/
theorem strcmp_eq_strncmp (s1 s2 : CString) :
    strcmp s1 s2 =
      let ret := strncmp s1 s2 (min s1.length s2.length)
      if ret = 0 ∧ s1.length ≠ s2.length then if s1.length < s2.length then -1 else 1 else ret := by
  dsimp only [strncmp]
  fun_induction strcmp s1 s2 with
  | case1 => rfl
  | case2 b s2 => simp [strcmp]
  | case3 a s1 => simp [strcmp]
  | case4 a s1 b s2 h => simp [strcmp, h]
  | case5 a s1 b s2 h₁ h₂ => simp [strcmp, h₁, h₂]
  | case6 a s1 b s2 h₁ h₂ ih =>
    rw [List.length_cons, List.length_cons, Nat.succ_min_succ, List.take_succ_cons,
      List.take_succ_cons, strcmp, if_neg h₁, if_neg h₂, ih]
    simp only [ne_eq, Nat.add_right_cancel_iff, Nat.add_lt_add_iff_right]

theorem HookFile.stem_length (hook : HookFile) :
    hook.stem.length = hook.name.length - hookSuffix.length := by
  rw [stem, List.length_take]
  omega

theorem HookFile.take_stem (hook : HookFile) {n : ℕ} (hn : n ≤ hook.stem.length) :
    hook.stem.take n = hook.name.take n := by
  rw [stem_length] at hn
  rw [stem, List.take_take, Nat.min_eq_left hn]

theorem hookCmp_eq (h1 h2 : HookFile) : hookCmp h1 h2 = strcmp h1.stem h2.stem := by
  have hstems : strncmp h1.stem h2.stem (min h1.stem.length h2.stem.length)
      = strncmp h1.name h2.name (min h1.stem.length h2.stem.length) := by
    rw [strncmp, strncmp, h1.take_stem (Nat.min_le_left ..), h2.take_stem (Nat.min_le_right ..)]
  rw [strcmp_eq_strncmp, hookCmp, hstems]
  simp only [← HookFile.stem_length, ← Nat.min_def]

theorem hookCmp_comparesBy : ComparesBy hookCmp HookFile.stem where
  lt h1 h2 := by rw [hookCmp_eq, strcmp_lt_zero]
  gt h1 h2 := by rw [hookCmp_eq, strcmp_gt_zero]

/-- A list of hooks with different names that all have the suffix. -/
structure Named (hooks : List HookFile) : Prop where
  nodup : (hooks.map (·.name)).Nodup
  suffix : ∀ hook ∈ hooks, hookSuffix <:+ hook.name

theorem stem_append_suffix {hook : HookFile} (h : hookSuffix <:+ hook.name) :
    hook.stem ++ hookSuffix = hook.name := by
  obtain ⟨stem, hstem⟩ := h
  rw [HookFile.stem, ← hstem, List.length_append, Nat.add_sub_cancel, List.take_left]

theorem Named.eq_of_stem {hooks : List HookFile} (h : Named hooks) {h1 h2 : HookFile}
    (hh1 : h1 ∈ hooks) (hh2 : h2 ∈ hooks) (hstem : h1.stem = h2.stem) : h1 = h2 := by
  refine List.inj_on_of_nodup_map h.nodup hh1 hh2 ?_
  rw [← stem_append_suffix (h.suffix h1 hh1), ← stem_append_suffix (h.suffix h2 hh2), hstem]

theorem Named.perm {hooks hooks' : List HookFile} (h : Named hooks) (hperm : hooks.Perm hooks') :
    Named hooks' where
  nodup := ((hperm.map _).nodup_iff).mp h.nodup
  suffix hook hhook := h.suffix hook (hperm.mem_iff.mpr hhook)

theorem Named.listMsort_sorted {hooks : List HookFile} (h : Named hooks) :
    (listMsort hookCmp hooks).Pairwise fun h1 h2 => h1.stem < h2.stem := by
  have hsorted := h.perm (listMsort_perm hookCmp hooks).symm
  have hnodup : (listMsort hookCmp hooks).Nodup := List.Nodup.of_map _ hsorted.nodup
  refine ((Alpm.listMsort_sorted hookCmp_comparesBy hooks).and hnodup).imp_of_mem ?_
  rintro h1 h2 hh1 hh2 ⟨hle, hne⟩
  exact lt_of_le_of_ne hle fun hstem => hne (hsorted.eq_of_stem hh1 hh2 hstem)

/-- The sorted list does not depend on the order before. -/
theorem Named.listMsort_eq {hooks hooks' : List HookFile} (h : Named hooks)
    (hperm : hooks.Perm hooks') : listMsort hookCmp hooks = listMsort hookCmp hooks' := by
  have hsorted := h.listMsort_sorted
  have hsorted' := (h.perm hperm).listMsort_sorted
  refine List.Perm.eq_of_pairwise (fun h1 h2 _ _ hlt hgt => absurd hgt (lt_asymm hlt)) hsorted
    hsorted' ?_
  exact ((listMsort_perm hookCmp hooks).trans hperm).trans (listMsort_perm hookCmp hooks').symm

end Alpm.Hooks
