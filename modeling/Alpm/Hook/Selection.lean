import Alpm.Hook.Run

/-!
# Which hooks are run

The scan of the hook directories is a scan of layers that hide each other, the last directory first
(`General.Overlay`).  An entry is passed over if its name does not end in the suffix, if the hook of
its name was read already, or if it is a directory; it fails if it cannot be read or is not valid.

So the order of the listings does not matter, and the hook of a file name is the one of the last
directory that has a file of this name (`mem_scanDirs_iff`).  A hook without triggers is valid and
stays in the list, so that it masks those before it, and is never run.

`hookRun_selects` puts this together with the run.  Any two listings of the directories lead to the
same run; the hooks are sorted; those that are triggered are run in this order, and before a
transaction only up to the first one that fails and has `AbortOnFail`.  Its hypotheses are that the
directories can be read and the files parsed, and `hookRun_relisted` has the first part without
them.
-/

namespace Alpm.Hooks

open Overlay

variable {σ : Type} {handle : HookHandle σ} {hook : HookFile} {dir dir' : HookDir}
  {hookdirs hookdirs' : List HookDir} {path : CString} {entry : DirEntry} {hidden : Bool}

/-! ## The directories as layers -/

theorem suffix_iff {name : CString} :
    hookSuffix <:+ name ↔ ¬ (name.length < hookSuffix.length ∨
      name.drop (name.length - hookSuffix.length) ≠ hookSuffix) := by
  rw [not_or, not_lt, not_not, List.suffix_iff_eq_drop, eq_comm]
  refine (and_iff_right_of_imp fun h => ?_).symm
  have hlength := congrArg List.length h
  rw [List.length_drop] at hlength
  omega

theorem ne_dot_of_suffix {name : CString} (h : hookSuffix <:+ name) :
    ¬ (name = str "." ∨ name = str "..") := by
  rintro (rfl | rfl)
  · exact absurd h (by decide)
  · exact absurd h (by decide)

theorem visitEntry_eq_take_iff :
    visitEntry handle path hidden entry = .take hook ↔
      path.length + entry.name.length < pathMax ∧ hookSuffix <:+ entry.name ∧ hidden = false ∧
        ∃ content parsed, entry.stat = some (.file content) ∧
          handle.parseIni content = some parsed ∧ hookValidate parsed = 0 ∧
          hook = { parsed with name := entry.name } := by
  by_cases hsuffix : hookSuffix <:+ entry.name
  · rw [visitEntry, if_neg (ne_dot_of_suffix hsuffix), if_neg (suffix_iff.mp hsuffix)]
    by_cases hlong : entry.name.length ≥ pathMax - path.length
    · rw [if_pos hlong]
      exact iff_of_false nofun fun h => absurd h.1 (by omega)
    · rw [if_neg hlong]
      have hshort : path.length + entry.name.length < pathMax := by omega
      cases hidden with
      | true => simp
      | false =>
        simp only [Bool.false_eq_true, if_false, hshort, hsuffix, true_and]
        rcases hstat : entry.stat with _ | _ | content
        · simp
        · simp
        · cases hparse : handle.parseIni content with
          | none => simp [hparse]
          | some parsed =>
            by_cases hvalid : hookValidate parsed = 0
            · simp [hparse, hvalid, eq_comm]
            · simp [hparse, hvalid]
  · refine iff_of_false (fun h => ?_) fun h => hsuffix h.2.1
    rw [visitEntry] at h
    split_ifs at h with hdot hlong hname
    exact hsuffix (suffix_iff.mpr hname)

/-- The scan in `_alpm_hook_run` as a scan of layers. -/
def hookRules (handle : HookHandle σ) : Rules (CString × DirEntry) HookFile CString where
  key := fun entry => entry.2.name
  name := (·.name)
  visit := fun hidden entry => visitEntry handle entry.1 hidden entry.2
  name_of_take h := by
    obtain ⟨-, -, -, content, parsed, -, -, -, rfl⟩ := visitEntry_eq_take_iff.mp h
    rfl
  not_hidden h := by
    obtain ⟨-, -, hhidden, -⟩ := visitEntry_eq_take_iff.mp h
    cases hhidden

def HookDir.entries (dir : HookDir) : List DirEntry :=
  match dir.listing with
  | .entries list _ => list
  | _ => []

def HookDir.layer (dir : HookDir) : Layer (CString × DirEntry) :=
  if dir.path.length ≥ pathMax then ⟨[], true⟩
  else match dir.listing with
    | .missing => ⟨[], false⟩
    | .failed => ⟨[], true⟩
    | .entries list errno => ⟨list.map fun entry => (dir.path, entry), errno⟩

/-- `ret` and `hooks` after a scan. -/
def ofScan (scan : Overlay.Scan HookFile) : HookScan := ⟨if scan.failed then -1 else 0, scan.taken⟩

theorem scanEntry_ofScan (scan : Overlay.Scan HookFile) (path : CString) (entry : DirEntry) :
    scanEntry handle path (ofScan scan) entry
      = ofScan ((hookRules handle).step scan (path, entry)) := by
  have hfind : findHook scan.taken entry.name
      = (hookRules handle).hidden scan.taken (path, entry) := by
    rw [findHook, Rules.hidden]
    congr 1
    ext hook
    exact decide_eq_decide.mpr strcmp_eq_zero
  have hlook : visitEntry handle path (findHook scan.taken entry.name) entry
      = (hookRules handle).look scan.taken (path, entry) := by
    rw [hfind]
    rfl
  rw [scanEntry, Rules.step, show (ofScan scan).hooks = scan.taken from rfl, hlook]
  cases (hookRules handle).look scan.taken (path, entry) <;> rfl

theorem foldl_scanEntry_ofScan (scan : Overlay.Scan HookFile) (path : CString)
    (list : List DirEntry) :
    list.foldl (scanEntry handle path) (ofScan scan)
      = ofScan ((list.map fun entry => (path, entry)).foldl (hookRules handle).step scan) := by
  induction list generalizing scan with
  | nil => rfl
  | cons entry list ih => rw [List.foldl_cons, scanEntry_ofScan, ih, List.map_cons, List.foldl_cons]

theorem scanDir_ofScan (scan : Overlay.Scan HookFile) (dir : HookDir) :
    scanDir handle (ofScan scan) dir = ofScan ((hookRules handle).scanLayer scan dir.layer) := by
  unfold scanDir Rules.scanLayer HookDir.layer
  split_ifs with hlong
  · simp [ofScan]
  · cases dir.listing with
    | missing => simp
    | failed => simp [ofScan]
    | entries list errno =>
      dsimp only
      rw [foldl_scanEntry_ofScan]
      cases errno with
      | false => simp
      | true => simp [ofScan]

theorem scanDirs_eq (hookdirs : List HookDir) :
    scanDirs handle hookdirs
      = ofScan ((hookRules handle).run (hookdirs.reverse.map HookDir.layer)) := by
  have hrun : ∀ (dirs : List HookDir) (scan : Overlay.Scan HookFile),
      dirs.foldl (scanDir handle) (ofScan scan)
        = ofScan ((dirs.map HookDir.layer).foldl (hookRules handle).scanLayer scan) := by
    intro dirs
    induction dirs with
    | nil => exact fun scan => rfl
    | cons dir dirs ih =>
      intro scan
      rw [List.foldl_cons, scanDir_ofScan, ih, List.map_cons, List.foldl_cons]
  exact hrun hookdirs.reverse {}

/-! ## What is selected -/

/-- No name is in the directory twice. -/
def HookDir.Distinct (dir : HookDir) : Prop := (dir.entries.map (·.name)).Nodup

/-- Two listings of a directory, which end in the same way. -/
inductive Listing.Relisted : Listing → Listing → Prop where
  | missing : Relisted missing missing
  | failed : Relisted failed failed
  | entries {list list' : List DirEntry} (errno : Bool) (h : list.Perm list') :
      Relisted (entries list errno) (entries list' errno)

structure HookDir.Relisted (dir dir' : HookDir) : Prop where
  path : dir.path = dir'.path
  listing : dir.listing.Relisted dir'.listing

/-- A directory that can be read, with hook files that can be parsed. -/
structure HookDir.Parsable (handle : HookHandle σ) (dir : HookDir) : Prop where
  path : dir.path.length < pathMax
  opens : dir.listing ≠ .failed
  reads : ∀ list, dir.listing ≠ .entries list true
  short : ∀ entry ∈ dir.entries, dir.path.length + entry.name.length < pathMax
  stat : ∀ entry ∈ dir.entries, hookSuffix <:+ entry.name → entry.stat ≠ none
  parses : ∀ entry ∈ dir.entries, hookSuffix <:+ entry.name →
    ∀ content, entry.stat = some (.file content) →
      ∃ hook, handle.parseIni content = some hook ∧ hookValidate hook = 0

/-- The hook is read from a file of the directory. -/
def HookDir.Holds (handle : HookHandle σ) (dir : HookDir) (hook : HookFile) : Prop :=
  ∃ content parsed, ⟨hook.name, some (.file content)⟩ ∈ dir.entries ∧
    handle.parseIni content = some parsed ∧ hook = { parsed with name := hook.name }

/-- The hook is the one of the last directory with a file of its name: the file is there and is
parsed to the hook, and no later directory has a file of the name. -/
structure Selected (handle : HookHandle σ) (hookdirs : List HookDir) (hook : HookFile) : Prop where
  suffix : hookSuffix <:+ hook.name
  last : ∃ front dir back, hookdirs = front ++ dir :: back ∧ dir.Holds handle hook ∧
    ∀ other ∈ back, ∀ entry ∈ other.entries, entry.name = hook.name → entry.stat = some .dir

theorem HookDir.layer_entries_of_short (h : dir.path.length < pathMax) :
    dir.layer.entries = dir.entries.map fun entry => (dir.path, entry) := by
  rw [layer, if_neg (not_le.mpr h), entries]
  cases dir.listing <;> rfl

theorem HookDir.Distinct.layer (h : dir.Distinct) : (hookRules handle).Distinct dir.layer := by
  by_cases hlong : dir.path.length < pathMax
  · rw [Rules.Distinct, HookDir.layer_entries_of_short hlong, List.map_map]
    exact h
  · rw [Rules.Distinct, HookDir.layer, if_pos (not_lt.mp hlong)]
    exact List.nodup_nil

theorem HookDir.Relisted.layer (h : dir.Relisted dir') : dir.layer.Relisted dir'.layer := by
  obtain ⟨path, listing⟩ := dir
  obtain ⟨path', listing'⟩ := dir'
  obtain ⟨rfl, hlisting⟩ := h
  rw [HookDir.layer, HookDir.layer]
  split_ifs with hlong
  · exact ⟨List.Perm.refl _, rfl⟩
  · cases hlisting with
    | missing => exact ⟨List.Perm.refl _, rfl⟩
    | failed => exact ⟨List.Perm.refl _, rfl⟩
    | entries errno h => exact ⟨h.map _, rfl⟩

theorem layers_distinct (h : ∀ dir ∈ hookdirs, dir.Distinct) :
    ∀ layer ∈ hookdirs.reverse.map HookDir.layer, (hookRules handle).Distinct layer := by
  intro layer hlayer
  obtain ⟨dir, hdir, rfl⟩ := List.mem_map.mp hlayer
  exact (h dir (List.mem_reverse.mp hdir)).layer

theorem offers_layer_iff (h : dir.Parsable handle) :
    (hookRules handle).Offers dir.layer hook ↔
      hookSuffix <:+ hook.name ∧ dir.Holds handle hook := by
  rw [Rules.Offers, HookDir.layer_entries_of_short h.path]
  constructor
  · rintro ⟨pair, hpair, hvisit⟩
    obtain ⟨entry, hentry, rfl⟩ := List.mem_map.mp hpair
    obtain ⟨-, hsuffix, -, content, parsed, hstat, hparse, -, rfl⟩ :=
      visitEntry_eq_take_iff.mp hvisit
    refine ⟨hsuffix, content, parsed, ?_, hparse, rfl⟩
    rw [← hstat]
    exact hentry
  · rintro ⟨hsuffix, content, parsed, hentry, hparse, hhook⟩
    refine ⟨_, List.mem_map_of_mem hentry, visitEntry_eq_take_iff.mpr ?_⟩
    obtain ⟨hook', hparse', hvalid⟩ := h.parses _ hentry hsuffix content rfl
    obtain rfl := Option.some.inj (hparse.symm.trans hparse')
    exact ⟨h.short _ hentry, hsuffix, rfl, content, parsed, rfl, hparse, hvalid, hhook⟩

/-- A directory offers nothing of a name if and only if it has no file of this name. -/
theorem offers_none_iff (h : dir.Parsable handle) (hsuffix : hookSuffix <:+ hook.name) :
    (∀ hides, (hookRules handle).Offers dir.layer hides → hides.name ≠ hook.name) ↔
      ∀ entry ∈ dir.entries, entry.name = hook.name → entry.stat = some .dir := by
  constructor
  · intro hnone entry hentry hname
    have hentrySuffix : hookSuffix <:+ entry.name := hname ▸ hsuffix
    rcases hstat : entry.stat with _ | _ | content
    · exact absurd hstat (h.stat entry hentry hentrySuffix)
    · rfl
    · obtain ⟨parsed, hparse, -⟩ := h.parses entry hentry hentrySuffix content hstat
      have hholds : dir.Holds handle { parsed with name := entry.name } :=
        ⟨content, parsed, by rw [← hstat]; exact hentry, hparse, rfl⟩
      exact absurd hname (hnone _ ((offers_layer_iff h).mpr ⟨hentrySuffix, hholds⟩))
  · rintro hdirs hides hoffers hname
    obtain ⟨-, content, parsed, hentry, -, -⟩ := (offers_layer_iff h).mp hoffers
    cases hdirs _ hentry hname

theorem wins_layers_iff (h : ∀ dir ∈ hookdirs, dir.Parsable handle) :
    (hookRules handle).Wins (hookdirs.reverse.map HookDir.layer) hook ↔
      Selected handle hookdirs hook := by
  constructor
  · rintro ⟨front, layer, back, heq, hoffers, hfront⟩
    obtain ⟨later, rest, hreverse, rfl, hrest⟩ := List.map_eq_append_iff.mp heq
    obtain ⟨dir, earlier, rfl, rfl, rfl⟩ := List.map_eq_cons_iff.mp hrest
    have hdirs : hookdirs = earlier.reverse ++ dir :: later.reverse := by
      rw [← List.reverse_reverse hookdirs, hreverse]
      simp
    have hdir : dir ∈ hookdirs := hdirs ▸ List.mem_append_right _ (List.mem_cons_self ..)
    obtain ⟨hsuffix, hholds⟩ := (offers_layer_iff (h dir hdir)).mp hoffers
    refine ⟨hsuffix, _, dir, _, hdirs, hholds, fun other hother => ?_⟩
    have hmem : other ∈ hookdirs := hdirs ▸ List.mem_append_right _ (List.mem_cons_of_mem _ hother)
    exact (offers_none_iff (h other hmem) hsuffix).mp
      (hfront _ (List.mem_map_of_mem (List.mem_reverse.mp hother)))
  · rintro ⟨hsuffix, front, dir, back, rfl, hholds, hback⟩
    refine ⟨back.reverse.map HookDir.layer, dir.layer, front.reverse.map HookDir.layer, by simp, ?_,
      fun layer hlayer => ?_⟩
    · exact (offers_layer_iff (h dir (by simp))).mpr ⟨hsuffix, hholds⟩
    · obtain ⟨other, hother, rfl⟩ := List.mem_map.mp hlayer
      have hmem := List.mem_reverse.mp hother
      exact (offers_none_iff (h other (by simp [hmem])) hsuffix).mpr (hback other hmem)

/-- **The hooks that a scan reads** are those that are selected.  The scan goes over the directories
from the last one on, as the general scan goes over its layers, and the layer that wins is the last
directory with the name. -/
theorem mem_scanDirs_iff (hdistinct : ∀ dir ∈ hookdirs, dir.Distinct)
    (h : ∀ dir ∈ hookdirs, dir.Parsable handle) :
    hook ∈ (scanDirs handle hookdirs).hooks ↔ Selected handle hookdirs hook := by
  rw [scanDirs_eq, ← wins_layers_iff h]
  exact Rules.mem_run_iff (layers_distinct hdistinct)

theorem scanDirs_ret (hdistinct : ∀ dir ∈ hookdirs, dir.Distinct)
    (h : ∀ dir ∈ hookdirs, dir.Parsable handle) : (scanDirs handle hookdirs).ret = 0 := by
  have hfailed : ((hookRules handle).run (hookdirs.reverse.map HookDir.layer)).failed = false := by
    refine Rules.run_failed (layers_distinct hdistinct) fun layer hlayer => ?_
    obtain ⟨dir, hdir, rfl⟩ := List.mem_map.mp hlayer
    have hdir := h dir (List.mem_reverse.mp hdir)
    constructor
    · rw [HookDir.layer, if_neg (not_le.mpr hdir.path)]
      rcases hlisting : dir.listing with _ | _ | ⟨list, errno⟩
      · rfl
      · exact absurd hlisting hdir.opens
      · cases errno with
        | false => rfl
        | true => exact absurd hlisting (hdir.reads list)
    · rw [HookDir.layer_entries_of_short hdir.path]
      intro pair hpair hidden
      obtain ⟨entry, hentry, rfl⟩ := List.mem_map.mp hpair
      have hshort := hdir.short entry hentry
      show visitEntry handle dir.path hidden entry ≠ .fail
      rw [visitEntry]
      split_ifs with hdot hlong hname
      · exact nofun
      · omega
      · exact nofun
      · exact nofun
      · have hsuffix := suffix_iff.mpr hname
        rcases hstat : entry.stat with _ | _ | content
        · exact absurd hstat (hdir.stat entry hentry hsuffix)
        · exact nofun
        · obtain ⟨parsed, hparse, hvalid⟩ := hdir.parses entry hentry hsuffix content hstat
          simp [hparse, hvalid]
  rw [scanDirs_eq, ofScan, hfailed]
  rfl

theorem scanDirs_named (hdistinct : ∀ dir ∈ hookdirs, dir.Distinct) :
    Named (scanDirs handle hookdirs).hooks := by
  rw [scanDirs_eq]
  constructor
  · show (((hookRules handle).run _).taken.map (hookRules handle).name).Nodup
    exact Rules.nodup_run
  · intro hook hhook
    obtain ⟨-, -, -, -, ⟨entry, -, hvisit⟩, -⟩ :=
      (Rules.mem_run_iff (layers_distinct hdistinct)).mp hhook
    obtain ⟨-, hsuffix, -, -, -, -, -, -, rfl⟩ := visitEntry_eq_take_iff.mp hvisit
    exact hsuffix

/-- The order of the listings changes the order of the hooks that are read only. -/
theorem scanDirs_relisted (handle : HookHandle σ) (hdistinct : ∀ dir ∈ hookdirs, dir.Distinct)
    (h : List.Forall₂ HookDir.Relisted hookdirs hookdirs') :
    (scanDirs handle hookdirs).ret = (scanDirs handle hookdirs').ret ∧
      (scanDirs handle hookdirs).hooks.Perm (scanDirs handle hookdirs').hooks := by
  have hlayers : List.Forall₂ Layer.Relisted (hookdirs.reverse.map HookDir.layer)
      (hookdirs'.reverse.map HookDir.layer) := by
    rw [List.forall₂_map_left_iff, List.forall₂_map_right_iff]
    exact (List.forall₂_reverse_iff.mpr h).imp fun dir dir' => HookDir.Relisted.layer
  have hagree : ((hookRules handle).run (hookdirs.reverse.map HookDir.layer)).Agree
      ((hookRules handle).run (hookdirs'.reverse.map HookDir.layer)) :=
    Rules.run_agree (layers_distinct hdistinct) hlayers
  rw [scanDirs_eq, scanDirs_eq, ofScan, ofScan, hagree.failed]
  exact ⟨rfl, hagree.taken⟩

/-! ## The run -/

section

variable (handle : HookHandle σ)

/-- The system after the commands of the hooks. -/
def systemAfter (hooks : List HookFile) (w : σ) : σ :=
  hooks.foldl (fun w hook => (hookRunHook handle hook w).2) w

/-- The hook fails, and has `AbortOnFail`. -/
def Aborts (hook : HookFile) (w : σ) : Prop :=
  (hookRunHook handle hook w).1 ≠ 0 ∧ hook.abortOnFail = true

/-- No hook aborts when the hooks are run one after the other. -/
def Quiet : List HookFile → σ → Prop
  | [], _ => True
  | hook :: hooks, w => ¬ Aborts handle hook w ∧ Quiet hooks (hookRunHook handle hook w).2

/-- All hooks are run, or those up to the first one that aborts. -/
def StopsAtAbort (hooks : List HookFile) (w : σ) (run : HookRun σ) : Prop :=
  Quiet handle hooks w ∧ run = ⟨0, hooks, systemAfter handle hooks w⟩ ∨
    ∃ front hook back, hooks = front ++ hook :: back ∧ Quiet handle front w ∧
      Aborts handle hook (systemAfter handle front w) ∧
      run = ⟨-1, front ++ [hook], systemAfter handle (front ++ [hook]) w⟩

end

theorem runHooks_cons (when : HookWhen) (hook : HookFile) (hooks : List HookFile)
    (run : HookRun σ) :
    runHooks handle when (hook :: hooks) run =
      let ret := if (hookRunHook handle hook run.system).1 ≠ 0 && hook.abortOnFail then -1
        else run.ret
      let run' : HookRun σ := ⟨ret, run.ran ++ [hook], (hookRunHook handle hook run.system).2⟩
      if ret ≠ 0 ∧ when = .preTransaction then run' else runHooks handle when hooks run' := rfl

/-- After a transaction all hooks are run. -/
theorem runHooks_postTransaction (hooks : List HookFile) (run : HookRun σ) :
    (runHooks handle .postTransaction hooks run).ran = run.ran ++ hooks ∧
      (runHooks handle .postTransaction hooks run).system
        = systemAfter handle hooks run.system := by
  induction hooks generalizing run with
  | nil => exact ⟨(List.append_nil _).symm, rfl⟩
  | cons hook hooks ih =>
    rw [runHooks_cons]
    dsimp only
    rw [if_neg (by simp)]
    obtain ⟨hran, hsystem⟩ := ih ⟨_, run.ran ++ [hook], (hookRunHook handle hook run.system).2⟩
    exact ⟨hran.trans (List.append_assoc ..), hsystem⟩

/-- Before a transaction the hooks are run up to the first one that aborts. -/
theorem runHooks_preTransaction (handle : HookHandle σ) (hooks ran : List HookFile) (w : σ) :
    ∃ run, StopsAtAbort handle hooks w run ∧
      runHooks handle .preTransaction hooks ⟨0, ran, w⟩
        = ⟨run.ret, ran ++ run.ran, run.system⟩ := by
  induction hooks generalizing ran w with
  | nil =>
    refine ⟨⟨0, [], w⟩, Or.inl ⟨True.intro, rfl⟩, ?_⟩
    rw [List.append_nil]
    rfl
  | cons hook hooks ih =>
    rw [runHooks_cons]
    dsimp only
    by_cases haborts : Aborts handle hook w
    · obtain ⟨hcode, hflag⟩ := haborts
      refine ⟨⟨-1, [hook], (hookRunHook handle hook w).2⟩,
        Or.inr ⟨[], hook, hooks, rfl, True.intro, ⟨hcode, hflag⟩, rfl⟩, ?_⟩
      simp [hcode, hflag]
    · obtain ⟨run, hstops, hrun⟩ := ih (ran ++ [hook]) (hookRunHook handle hook w).2
      have hret : ((hookRunHook handle hook w).1 ≠ 0 && hook.abortOnFail) = false := by
        rw [Bool.eq_false_iff]
        intro h
        rw [Bool.and_eq_true, decide_eq_true_eq] at h
        exact haborts h
      refine ⟨⟨run.ret, hook :: run.ran, run.system⟩, ?_, ?_⟩
      · rcases hstops with ⟨hquiet, rfl⟩ | ⟨front, other, back, rfl, hquiet, hother, rfl⟩
        · exact Or.inl ⟨⟨haborts, hquiet⟩, rfl⟩
        · exact Or.inr ⟨hook :: front, other, back, rfl, ⟨haborts, hquiet⟩, hother, rfl⟩
      · simp only [hret, Bool.false_eq_true, if_false]
        rw [if_neg (by simp), hrun, List.append_assoc, List.singleton_append]

/-- **The listing order does not matter**, also when hooks cannot be read.  A scan of other listings
has the same hooks in another order, or fails as well, and the sort gives them the same order. -/
theorem hookRun_relisted (when : HookWhen) (w : σ) (hdistinct : ∀ dir ∈ hookdirs, dir.Distinct)
    (h : List.Forall₂ HookDir.Relisted hookdirs hookdirs') :
    hookRun handle hookdirs' when w = hookRun handle hookdirs when w := by
  obtain ⟨hret, hperm⟩ := scanDirs_relisted handle hdistinct h
  rw [hookRun, hookRun, hret, (scanDirs_named hdistinct).listMsort_eq hperm]

/-- **Which hooks are run.**  Any two listings of the directories lead to the same run.  The hooks
are those of the last directory with a file of their name, sorted without the suffix, of which those
are run that are for this time and triggered; before a transaction up to the first one that aborts.
Names are distinct, so the sort forgets the order of the scan. -/
theorem hookRun_selects (handle : HookHandle σ) (when : HookWhen) (w : σ)
    (hdistinct : ∀ dir ∈ hookdirs, dir.Distinct) (h : ∀ dir ∈ hookdirs, dir.Parsable handle) :
    (∀ hookdirs', List.Forall₂ HookDir.Relisted hookdirs hookdirs' →
      hookRun handle hookdirs' when w = hookRun handle hookdirs when w) ∧
    ∃ hooks : List HookFile, hooks.Pairwise (fun h1 h2 => h1.stem < h2.stem) ∧
      (∀ hook, hook ∈ hooks ↔ Selected handle hookdirs hook) ∧
      let triggered := hooks.filterMap (triggeredHook handle when)
      let run := hookRun handle hookdirs when w
      match when with
      | .preTransaction => StopsAtAbort handle triggered w run
      | .postTransaction => run.ran = triggered ∧ run.system = systemAfter handle triggered w := by
  refine ⟨fun hookdirs' => hookRun_relisted when w hdistinct,
    listMsort hookCmp (scanDirs handle hookdirs).hooks,
    (scanDirs_named hdistinct).listMsort_sorted, fun hook => ?_, ?_⟩
  · rw [(listMsort_perm hookCmp _).mem_iff, mem_scanDirs_iff hdistinct h]
  · have hret := scanDirs_ret hdistinct h
    have hrun : hookRun handle hookdirs when w = runHooks handle when
        ((listMsort hookCmp (scanDirs handle hookdirs).hooks).filterMap (triggeredHook handle when))
        ⟨0, [], w⟩ := by
      rw [hookRun, hret]
      exact if_neg fun h => h.1 rfl
    dsimp only
    rw [hrun]
    cases when with
    | preTransaction =>
      obtain ⟨run, hstops, heq⟩ := runHooks_preTransaction handle _ [] w
      dsimp only
      rw [heq]
      exact hstops
    | postTransaction => exact runHooks_postTransaction _ ⟨0, [], w⟩

/-- The callback for hooks, for an empty file and for the one hook of the example. -/
def exampleParse (content : CString) : HookFile :=
  if content = [] then
    { needsTargets := false
      triggers := []
      depends := []
      cmd := none
      when := none
      abortOnFail := false }
  else
    { needsTargets := false
      triggers := [{ op := ⟨true, false, false⟩, targets := [str "*"], type := some .package }]
      depends := []
      cmd := some [str "/bin/false"]
      when := some .preTransaction
      abortOnFail := true }

/-- A package is installed, and the system counts the commands, which fail. -/
def exampleHandle : HookHandle ℕ where
  sys := {
    md5 := id
    linkMd5 := fun _ _ => none
    linkStat := fun _ _ => false
    fnmatch := fun pattern string => pattern = str "*" || pattern = string
    regcomp := fun _ => none
    behindName := fun _ => []
    extract := fun fs _ _ => (false, fs)
    isMountpoint := fun _ => false
    canRemove := fun _ => true }
  noextract := []
  session := {
    trans := {
      flags := {}
      state := .commiting
      add := [{ name := str "bash", version := str "5-1" }] } }
  localdb := []
  parseIni := fun content => some (exampleParse content)
  runChroot := fun _ _ commands => (1, commands + 1)

/-- Three hooks, one of which is masked by an empty file. -/
def exampleDirs : List HookDir := [
  { path := str "/usr/share/libalpm/hooks/"
    listing := .entries [⟨str "b.hook", some (.file (str "b"))⟩, ⟨str ".", some .dir⟩,
      ⟨str "a.hook", some (.file (str "a"))⟩, ⟨str "c.hook", some (.file (str "c"))⟩] false },
  { path := str "/etc/pacman.d/hooks/"
    listing := .entries [⟨str "a.hook", some (.file [])⟩, ⟨str "b.hook", some .dir⟩] false }]

theorem exampleDirs_distinct : ∀ dir ∈ exampleDirs, dir.Distinct := by
  unfold HookDir.Distinct
  decide

theorem exampleDirs_parsable : ∀ dir ∈ exampleDirs, dir.Parsable exampleHandle := by
  have hvalid : ∀ content, hookValidate (exampleParse content) = 0 := by
    intro content
    rw [exampleParse]
    split_ifs <;> decide
  intro dir hdir
  refine {
    path := ?_
    opens := ?_
    reads := ?_
    short := ?_
    stat := ?_
    parses := fun entry _ _ content _ => ⟨_, rfl, hvalid content⟩ }
  all_goals
    rw [exampleDirs, List.mem_cons, List.mem_singleton] at hdir
    rcases hdir with rfl | rfl
  · decide
  · decide
  · exact nofun
  · exact nofun
  · exact nofun
  · exact nofun
  · decide
  · decide
  · decide
  · decide

theorem hookRun_selects_example :
    (∀ hookdirs', List.Forall₂ HookDir.Relisted exampleDirs hookdirs' →
      hookRun exampleHandle hookdirs' .preTransaction 0
        = hookRun exampleHandle exampleDirs .preTransaction 0) ∧
    ∃ hooks : List HookFile, hooks.Pairwise (fun h1 h2 => h1.stem < h2.stem) ∧
      (∀ hook, hook ∈ hooks ↔ Selected exampleHandle exampleDirs hook) ∧
      StopsAtAbort exampleHandle
        (hooks.filterMap (triggeredHook exampleHandle .preTransaction)) 0
        (hookRun exampleHandle exampleDirs .preTransaction 0) :=
  hookRun_selects exampleHandle .preTransaction 0 exampleDirs_distinct exampleDirs_parsable

/-- The first of the two hooks that are left aborts. -/
example : (hookRun exampleHandle exampleDirs .preTransaction 0).ret = -1 ∧
    (hookRun exampleHandle exampleDirs .preTransaction 0).ran.map (·.name) = [str "b.hook"] := by
  decide +kernel

end Alpm.Hooks
