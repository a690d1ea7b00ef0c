import Alpm.Chroot
import Alpm.Deps.Depcmp
import Alpm.Hook.Trigger

/-!
# Targets on the standard input of a hook

`_alpm_hook_run_hook` sorts the matches of a hook and drops the duplicates, and its callback
`_alpm_hook_feed_targets` copies them, line by line, into buffers of any size.

The callback keeps its place in a list of pointers.  A target that does not fit with its newline is
copied as far as there is room, and its pointer is advanced; so in every state the pointers stand
for the lines that are still to be written, and one call writes the next bytes of them (`Provides`,
from `Alpm.Chroot`).  The one thing to see is that a call writes nothing only when nothing is left,
as the parent takes an empty answer for the end.

With the poll loop of `Alpm.Chroot` this gives `runHook_stdin`: whatever the sizes of the buffers
are and whatever the child takes of them, it is sent a prefix of the lines of the distinct matches
in their order, and all of them if it reads to the end.
-/

namespace Alpm.Hooks

/-- `_alpm_hook_feed_targets`.  A target that does not fit with its newline is copied as far as
there is room, and its pointer is advanced. -/
def feedTargets : CbIo (List CString)
  | _, [] => ([], [])
  | remaining, data :: pos =>
    if data.length + 1 ≤ remaining then
      let (buf, pos') := feedTargets (remaining - (data.length + 1)) pos
      (data ++ '\n' :: buf, pos')
    else (data.take remaining, data.drop remaining :: pos)

/-- `_alpm_strlist_dedup`: of equal neighbours in a sorted list the first one is kept. -/
def strlistDedup : List CString → List CString
  | [] => []
  | i :: list => i :: strlistDedup (list.dropWhile fun next => strcmp i next = 0)
  termination_by list => list.length
  decreasing_by
    have hle := (List.dropWhile_sublist (l := list) fun next => strcmp i next = 0).length_le
    rw [List.length_cons]
    omega

/-- `_alpm_hook_run_hook`, for a hook with these `depends`.  It returns `-1` when one of them is
not satisfied. -/
def runHook (pkgs : List Pkg) (depends : List CString) (hook : Hook) (bufLimit : ℕ)
    (output : CString) (polls : List Poll) : Option (Pipes (List CString)) :=
  if depends.any fun depstring => (findDepSatisfier pkgs (depFromString depstring)).isNone then none
  else if hook.needsTargets then
    let ctx := strlistDedup (listMsort strcmp hook.matchList)
    some (runChroot bufLimit feedTargets true ctx output polls)
  else some (runChroot bufLimit feedTargets false [] output polls)

/-- The targets, each followed by a newline. -/
def targetLines (targets : List CString) : CString :=
  targets.flatMap (· ++ ['\n'])

/-! ## The callback -/

theorem feedTargets_append (remaining : ℕ) (pos : List CString) :
    (feedTargets remaining pos).1 ++ targetLines (feedTargets remaining pos).2 =
      targetLines pos := by
  induction pos generalizing remaining with
  | nil => rfl
  | cons data pos ih =>
    rw [feedTargets]
    split_ifs
    · have hnext := ih (remaining - (data.length + 1))
      simpa [targetLines] using hnext
    · simp only [targetLines, List.flatMap_cons, ← List.append_assoc, List.take_append_drop]

/-- The callback never writes past the end of the buffer. -/
theorem feedTargets_length_le (remaining : ℕ) (pos : List CString) :
    (feedTargets remaining pos).1.length ≤ remaining := by
  induction pos generalizing remaining with
  | nil => exact Nat.zero_le _
  | cons data pos ih =>
    rw [feedTargets]
    split_ifs with hfits
    · have hnext := ih (remaining - (data.length + 1))
      simp only [List.length_append, List.length_cons]
      omega
    · exact List.length_take_le _ _

theorem feedTargets_provides : Provides feedTargets targetLines where
  append := feedTargets_append
  nil := by
    rintro remaining (_ | ⟨data, pos⟩) hremaining h
    · rfl
    · rw [feedTargets] at h
      split_ifs at h with hfits
      · simp at h
      · rw [List.take_eq_nil_iff] at h
        rcases h with h | rfl
        · omega
        · exact absurd hremaining (by simpa using hfits)

/-! ## Sorted targets -/

theorem strlistDedup_spec {list : List CString} (h : list.Pairwise (· ≤ ·)) :
    (strlistDedup list).Pairwise (· < ·) ∧ ∀ name, name ∈ strlistDedup list ↔ name ∈ list := by
  fun_induction strlistDedup list with
  | case1 => simp
  | case2 i list ih =>
    have hdrop : (list.dropWhile fun next => strcmp i next = 0) = list.filter (· ≠ i) := by
      rw [SortedRuns.dropWhile_eq h fun next => by rw [decide_eq_true_eq, strcmp_eq_zero, eq_comm]]
      refine List.filter_congr fun next _ => ?_
      rw [← decide_not, decide_eq_decide, strcmp_eq_zero, eq_comm]
    obtain ⟨hle, hsorted⟩ := List.pairwise_cons.mp h
    rw [hdrop] at ih ⊢
    obtain ⟨hlt, hmem⟩ := ih (hsorted.sublist List.filter_sublist)
    refine ⟨List.pairwise_cons.mpr ⟨fun name hname => ?_, hlt⟩, fun name => ?_⟩
    · obtain ⟨hin, hne⟩ := List.mem_filter.mp ((hmem name).mp hname)
      exact lt_of_le_of_ne (hle name hin) (Ne.symm (of_decide_eq_true hne))
    · rw [List.mem_cons, List.mem_cons, hmem, List.mem_filter, decide_eq_true_eq]
      tauto

/-- **Hook targets are streamed exactly once.**  Whatever the sizes of the buffers are and whatever
the child takes of them, it is sent a prefix of the lines of the distinct matches in sorted order,
and all of them before the end of input.  A child that keeps reading comes to the end of input, if
there are more rounds than bytes. -/
theorem runHook_stdin {pkgs : List Pkg} {depends : List CString} {hook : Hook} {bufLimit : ℕ}
    {output : CString} {polls : List Poll} {p : Pipes (List CString)}
    (hneeds : hook.needsTargets) (hoffers : ∀ poll ∈ polls, Offers poll.parent2child)
    (hrun : runHook pkgs depends hook bufLimit output polls = some p) :
    ∃ targets : List CString,
      targets.Pairwise (· < ·) ∧ (∀ name, name ∈ targets ↔ name ∈ hook.matchList) ∧
      p.parent2child.sent <+: targetLines targets ∧
      (p.parent2child.state = .eof → p.parent2child.sent = targetLines targets) ∧
      ((∀ poll ∈ polls, Takes poll.parent2child) → (targetLines targets).length < polls.length →
        p.parent2child.state = .eof) := by
  unfold runHook at hrun
  split_ifs at hrun
  obtain rfl := Option.some.inj hrun
  have hmsort := listMsort_strcmp_sorted hook.matchList
  obtain ⟨hsorted, hmem⟩ := strlistDedup_spec hmsort
  set targets := strlistDedup (listMsort strcmp hook.matchList)
  have hwrites : (pollLoop bufLimit feedTargets polls
      (openPipes true targets output)).parent2child.Writes targetLines (targetLines targets) :=
    pollLoop_writes feedTargets_provides hoffers ⟨rfl, by simp [openPipes]⟩
  refine ⟨targets, hsorted, fun name => ?_, ?_, hwrites.eof, fun htakes hlength => ?_⟩
  · rw [hmem, (listMsort_perm strcmp hook.matchList).mem_iff]
  · exact ⟨_, hwrites.append⟩
  · exact pollLoop_eof feedTargets_provides htakes rfl hlength

theorem runHook_stdin_duplicates :
    let hook : Hook :=
      { matchList := [str "bin/b", str "bin/a", str "bin/b"]
        needsTargets := true }
    let polls : List Poll := List.replicate 20 ⟨.none, .ready ⟨3, .sent 2⟩⟩
    ∃ p, runHook [] [] hook 2048 [] polls = some p ∧
      ∃ targets : List CString,
        targets.Pairwise (· < ·) ∧ (∀ name, name ∈ targets ↔ name ∈ hook.matchList) ∧
        p.parent2child.sent <+: targetLines targets ∧
        (p.parent2child.state = .eof → p.parent2child.sent = targetLines targets) := by
  intro hook polls
  have hoffers : ∀ poll ∈ polls, Offers poll.parent2child := by
    rintro poll hpoll call hcall
    rw [List.eq_of_mem_replicate hpoll] at hcall
    cases hcall
    decide
  have hrun : runHook [] [] hook 2048 [] polls = some (runChroot 2048 feedTargets true
      (strlistDedup (listMsort strcmp hook.matchList)) [] polls) := rfl
  obtain ⟨targets, hsorted, hmem, hprefix, heof, -⟩ := runHook_stdin rfl hoffers hrun
  exact ⟨_, hrun, targets, hsorted, hmem, hprefix, heof⟩

end Alpm.Hooks
