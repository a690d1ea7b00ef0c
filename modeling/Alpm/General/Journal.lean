import Mathlib.Data.List.Basic
import Mathlib.Logic.Function.Basic

/-!
# Journals of a map

A journal is a list of writes and deletions on a partial map, in the order in which they are made.
What the map holds at a key after a journal was replayed is decided by the last entry for the key,
and by nothing else that the journal does.

The lemmas are the ways in which that is used.  A journal without an entry for a key leaves it
alone; a journal that deletes the key and does not write to it again leaves nothing there; a journal
whose writes to the key all carry one value, and that does not delete it after the last of them,
leaves that value.  With an append the journal before the deciding entry drops out
(`replay_append_of_del`, `replay_append_of_put`), so that a long transaction is looked at from its
end.

The keys are arbitrary, and so are the values: a file system is such a map from paths to files, and
what a package transaction does to it is such a journal.
-/

namespace Alpm.Journal

variable {κ ν : Type*}

/-- A write of a value to a key, or the deletion of a key. -/
inductive Entry (κ ν : Type*) where
  | put (key : κ) (value : ν)
  | del (key : κ)

namespace Entry

def key : Entry κ ν → κ
  | put key _ => key
  | del key => key

/-- What the key holds afterwards. -/
def value : Entry κ ν → Option ν
  | put _ value => some value
  | del _ => none

end Entry

variable [DecidableEq κ]

/-- Replay a journal on a map. -/
def replay (m : κ → Option ν) (journal : List (Entry κ ν)) : κ → Option ν :=
  journal.foldl (fun m e => Function.update m e.key e.value) m

variable {m : κ → Option ν} {journal : List (Entry κ ν)} {k : κ}

@[simp] theorem replay_nil : replay m [] = m := rfl

@[simp] theorem replay_cons (e : Entry κ ν) :
    replay m (e :: journal) = replay (Function.update m e.key e.value) journal := rfl

theorem replay_append (journal' : List (Entry κ ν)) :
    replay m (journal ++ journal') = replay (replay m journal) journal' :=
  List.foldl_append

/-- A key without entries keeps its value. -/
theorem replay_of_notMem (h : k ∉ journal.map Entry.key) : replay m journal k = m k := by
  induction journal generalizing m with
  | nil => rfl
  | cons e journal ih =>
    rw [List.map_cons, List.mem_cons, not_or] at h
    rw [replay_cons, ih h.2, Function.update_of_ne h.1]

/-- A key only ever holds what it held or what is written to it. -/
theorem replay_forall {P : ν → Prop} (hm : ∀ v, m k = some v → P v)
    (hput : ∀ v, Entry.put k v ∈ journal → P v) : ∀ v, replay m journal k = some v → P v := by
  induction journal generalizing m with
  | nil => exact hm
  | cons e journal ih =>
    rw [replay_cons]
    refine ih (fun v hv => ?_) fun v hv => hput v (List.mem_cons_of_mem _ hv)
    by_cases hk : k = e.key
    · subst hk
      rw [Function.update_self] at hv
      cases e with
      | put key value =>
        obtain rfl := Option.some.inj hv
        exact hput _ (List.mem_cons_self ..)
      | del key => cases hv
    · rw [Function.update_of_ne hk] at hv
      exact hm v hv

/-- A key that nothing is written to does not come to life. -/
theorem replay_eq_none (hnone : m k = none) (h : ∀ v, Entry.put k v ∉ journal) :
    replay m journal k = none := by
  induction journal generalizing m with
  | nil => exact hnone
  | cons e journal ih =>
    rw [replay_cons]
    refine ih ?_ fun v hv => h v (List.mem_cons_of_mem _ hv)
    by_cases hk : k = e.key
    · subst hk
      rw [Function.update_self]
      cases e with
      | put key value => exact absurd (List.mem_cons_self ..) (h value)
      | del key => rfl
    · rw [Function.update_of_ne hk, hnone]

/-- A key that is deleted and not written to again is gone. -/
theorem replay_of_del {before after : List (Entry κ ν)}
    (hsplit : journal = before ++ .del k :: after) (h : ∀ v, Entry.put k v ∉ after) :
    replay m journal k = none := by
  rw [hsplit, replay_append, replay_cons]
  exact replay_eq_none (Function.update_self ..) h

/-- A key whose writes all carry the same value, and which is not deleted after the last
of them, holds it. -/
theorem replay_of_put {v : ν} {before after : List (Entry κ ν)}
    (hsplit : journal = before ++ .put k v :: after) (hdel : Entry.del k ∉ after)
    (hput : ∀ v', Entry.put k v' ∈ after → v' = v) : replay m journal k = some v := by
  rw [hsplit, replay_append, replay_cons]
  clear hsplit
  suffices hstart : ∀ m : κ → Option ν, m k = some v → replay m after k = some v from
    hstart _ (Function.update_self ..)
  induction after with
  | nil => exact fun m hm => hm
  | cons e after ih =>
    intro m hm
    rw [replay_cons]
    refine ih (fun h => hdel (List.mem_cons_of_mem _ h))
      (fun v' h => hput v' (List.mem_cons_of_mem _ h)) _ ?_
    by_cases hk : k = e.key
    · subst hk
      rw [Function.update_self]
      cases e with
      | put key value => rw [Entry.value, hput value (List.mem_cons_self ..)]
      | del key => exact absurd (List.mem_cons_self ..) hdel
    · rw [Function.update_of_ne hk, hm]

/-- What comes before a journal that deletes a key and does not write to it does not matter. -/
theorem replay_append_of_del {journal' : List (Entry κ ν)} (hdel : .del k ∈ journal')
    (hput : ∀ v, Entry.put k v ∉ journal') : replay m (journal ++ journal') k = none := by
  obtain ⟨before, after, rfl⟩ := List.append_of_mem hdel
  refine replay_of_del (List.append_assoc journal before _).symm fun v hv => hput v ?_
  exact List.mem_append_right _ (List.mem_cons_of_mem _ hv)

/-- What comes before a journal that writes one value to a key, and does not delete it, does not
matter. -/
theorem replay_append_of_put {journal' : List (Entry κ ν)} {v : ν} (hput : .put k v ∈ journal')
    (hdel : .del k ∉ journal') (hvalue : ∀ v', Entry.put k v' ∈ journal' → v' = v) :
    replay m (journal ++ journal') k = some v := by
  obtain ⟨before, after, rfl⟩ := List.append_of_mem hput
  refine replay_of_put (List.append_assoc journal before _).symm (fun h => hdel ?_)
    fun v' hv' => hvalue v' ?_
  · exact List.mem_append_right _ (List.mem_cons_of_mem _ h)
  · exact List.mem_append_right _ (List.mem_cons_of_mem _ hv')

/-- The last member of a list that satisfies a predicate. -/
theorem exists_last {α : Type*} {P : α → Prop} {l : List α} (h : ∃ a ∈ l, P a) :
    ∃ before a after, l = before ++ a :: after ∧ P a ∧ ∀ b ∈ after, ¬ P b := by
  induction l with
  | nil => simp at h
  | cons b l ih =>
    by_cases hl : ∃ a ∈ l, P a
    · obtain ⟨before, a, after, rfl, ha, hafter⟩ := ih hl
      exact ⟨b :: before, a, after, rfl, ha, hafter⟩
    · obtain ⟨a, ha, hPa⟩ := h
      rcases List.mem_cons.mp ha with rfl | ha
      · exact ⟨[], a, l, rfl, hPa, fun c hc hPc => hl ⟨c, hc, hPc⟩⟩
      · exact absurd ⟨a, ha, hPa⟩ hl

end Alpm.Journal
