import Mathlib.Data.List.Perm.Basic
import Mathlib.Data.List.Basic
import Mathlib.Logic.Function.Basic
import Mathlib.Order.Basic
import Mathlib.Data.Nat.Basic
import Mathlib.Algebra.Order.Group.Nat
import Mathlib.Tactic.SplitIfs

/-!
# Open addressing with linear probing

A table has `n` slots in a circle, and every entry has a home slot.  An entry may stand at a
distance from its home only if all slots on the way are taken (`Reachable`); then a search from the
home slot to the next free slot meets every entry of that home.

## 1.  The circle

Distances around the circle are `steps`.  They are defined by cases and not with `%`, so that facts
about three or four slots are linear, and `omega` decides which of them lies on the way between
which others.

## 2.  Probing

The loops look at slot after slot, with the number of slots as their bound; where a free slot exists
they end before that.  `Reachable.probe` is what an honest table is good for: a search for what it
holds finds it, and a search for what it does not hold ends at a free slot.

## 3.  Putting in and taking out

Putting an entry in the first free slot keeps the table reachable.  Taking an entry out leaves a
hole, which may cut off the entries behind it (`ReachableBut`); moving an entry whose way leads
through the hole into it moves the hole on (`ReachableBut.move`), and when the hole is on the way of
no entry of its cluster it is harmless (`ReachableBut.reachable`).  So a removal is a walk over the
rest of the cluster, and its invariant is that only the current hole is missing.

## 4.  Contents

What a table holds is the list of its entries in the order of the slots, up to permutation; moving
an entry does not change it.
-/

namespace Alpm.OpenAddressing

variable {α : Type*} {n : ℕ}

/-! ## The circle -/

/-- The slot after `p`. -/
def next (n p : ℕ) : ℕ := (p + 1) % n

/-- The slot before `p`. -/
def prev (n p : ℕ) : ℕ := (n + p - 1) % n

/-- How often `next` leads from `a` to `b`. -/
def steps (n a b : ℕ) : ℕ := if a ≤ b then b - a else b + n - a

section Circle

variable {a b c p : ℕ}

theorem next_eq (hp : p < n) : next n p = if p + 1 = n then 0 else p + 1 := by
  unfold next
  split_ifs with h
  · rw [h, Nat.mod_self]
  · exact Nat.mod_eq_of_lt (by omega)

theorem prev_eq (hp : p < n) : prev n p = if p = 0 then n - 1 else p - 1 := by
  unfold prev
  split_ifs with h
  · rw [h, Nat.add_zero]
    exact Nat.mod_eq_of_lt (by omega)
  · rw [show n + p - 1 = p - 1 + n by omega, Nat.add_mod_right]
    exact Nat.mod_eq_of_lt (by omega)

theorem next_lt (hp : p < n) : next n p < n := Nat.mod_lt _ (by omega)

theorem prev_lt (hp : p < n) : prev n p < n := Nat.mod_lt _ (by omega)

theorem next_prev (hp : p < n) : next n (prev n p) = p := by
  rw [next_eq (prev_lt hp), prev_eq hp]
  split_ifs <;> omega

@[simp] theorem steps_self : steps n a a = 0 := by simp [steps]

theorem steps_lt (hb : b < n) : steps n a b < n := by
  unfold steps
  split_ifs
  · omega
  · omega

theorem steps_eq_zero (ha : a < n) : steps n a b = 0 ↔ a = b := by
  unfold steps
  split_ifs <;> omega

theorem steps_inj (ha : a < n) (hb : b < n) (hc : c < n) (h : steps n a b = steps n a c) :
    b = c := by
  unfold steps at h
  split_ifs at h <;> omega

/-- The way from `a` to `c` that passes `b`. -/
theorem steps_add (ha : a < n) (hb : b < n) (hc : c < n) (h : steps n a b ≤ steps n a c) :
    steps n a b + steps n b c = steps n a c := by
  unfold steps at h ⊢
  split_ifs at h ⊢ <;> omega

theorem steps_next_left (ha : a < n) (hb : b < n) (hne : a ≠ b) :
    steps n (next n a) b + 1 = steps n a b := by
  rw [next_eq ha]
  unfold steps
  split_ifs <;> omega

theorem steps_next_right (ha : a < n) (hb : b < n) (hne : a ≠ next n b) :
    steps n a (next n b) = steps n a b + 1 := by
  rw [next_eq hb] at hne ⊢
  unfold steps
  split_ifs at hne ⊢ <;> omega

end Circle

/-! ## Probing -/

/-- The first free slot from `p` on, in at most `fuel` slots. -/
def firstFree (n : ℕ) (slots : ℕ → Option α) : ℕ → ℕ → Option ℕ
  | 0, _ => none
  | fuel + 1, p => if (slots p).isSome then firstFree n slots fuel (next n p) else some p

/-- The first slot from `p` on whose entry passes a test, or `none` at a free slot; the
outer `none` if both take more than `fuel` slots. -/
def probe (n : ℕ) (slots : ℕ → Option α) (test : α → Bool) : ℕ → ℕ → Option (Option ℕ)
  | 0, _ => none
  | fuel + 1, p =>
    match slots p with
    | none => some none
    | some x => if test x then some (some p) else probe n slots test fuel (next n p)

variable {slots : ℕ → Option α}

/-- `f` is the first free slot from `p` on. -/
structure IsFirstFree (n : ℕ) (slots : ℕ → Option α) (p f : ℕ) : Prop where
  lt : f < n
  free : slots f = none
  taken : ∀ s < n, steps n p s < steps n p f → slots s ≠ none

theorem IsFirstFree.unique {p f f' : ℕ} (hp : p < n) (h : IsFirstFree n slots p f)
    (h' : IsFirstFree n slots p f') : f = f' := by
  rcases lt_trichotomy (steps n p f) (steps n p f') with hlt | heq | hlt
  · exact absurd h.free (h'.taken f h.lt hlt)
  · exact steps_inj hp h.lt h'.lt heq
  · exact absurd h'.free (h.taken f' h'.lt hlt)

/-- Going past a slot that is taken. -/
theorem IsFirstFree.of_next {p f : ℕ} (hp : p < n) (htaken : slots p ≠ none)
    (h : IsFirstFree n slots (next n p) f) : IsFirstFree n slots p f where
  lt := h.lt
  free := h.free
  taken s hs hlt := by
    rcases eq_or_ne p s with rfl | hne
    · exact htaken
    · have hpf : p ≠ f := fun heq => htaken (heq ▸ h.free)
      have h₁ := steps_next_left hp hs hne
      have h₂ := steps_next_left hp h.lt hpf
      exact h.taken s hs (by omega)

/-- **The search for a free slot** finds the first one. -/
theorem firstFree_spec {fuel p f : ℕ} (hp : p < n) (hf : f < n) (hfree : slots f = none)
    (hfuel : steps n p f < fuel) :
    ∃ g, firstFree n slots fuel p = some g ∧ IsFirstFree n slots p g := by
  induction fuel generalizing p with
  | zero => exact absurd hfuel (Nat.not_lt_zero _)
  | succ fuel ih =>
    rw [firstFree]
    by_cases htaken : (slots p).isSome
    · have hne : slots p ≠ none := Option.isSome_iff_ne_none.mp htaken
      have hpf : p ≠ f := fun heq => hne (heq ▸ hfree)
      have hsteps := steps_next_left hp hf hpf
      obtain ⟨g, hg, hfirst⟩ := ih (next_lt hp) (by omega)
      exact ⟨g, by rw [if_pos htaken, hg], hfirst.of_next hp hne⟩
    · refine ⟨p, if_neg htaken, hp, by simpa using htaken, fun s _ hlt => ?_⟩
      rw [steps_self] at hlt
      exact absurd hlt (Nat.not_lt_zero _)

/-- **The search for an entry** stops at the first that passes the test, or at a free slot before
which none does.  The outer `none` does not occur as long as a slot is free within the fuel. -/
theorem probe_spec {test : α → Bool} {fuel p f : ℕ} (hp : p < n) (hf : f < n)
    (hfree : slots f = none) (hfuel : steps n p f < fuel) :
    ∃ r, probe n slots test fuel p = some r ∧
      (∀ e, r = some e → e < n ∧ ∃ x, slots e = some x ∧ test x) ∧
      (r = none → ∃ g, IsFirstFree n slots p g ∧
        ∀ s < n, steps n p s < steps n p g → ∀ x, slots s = some x → ¬ test x) := by
  induction fuel generalizing p with
  | zero => exact absurd hfuel (Nat.not_lt_zero _)
  | succ fuel ih =>
    rw [probe]
    cases hslot : slots p with
    | none =>
      refine ⟨none, rfl, by simp, fun _ => ⟨p, ⟨hp, hslot, ?_⟩, ?_⟩⟩ <;>
      · intro s _ hlt
        rw [steps_self] at hlt
        exact absurd hlt (Nat.not_lt_zero _)
    | some x =>
      by_cases htest : test x
      · refine ⟨some p, if_pos htest, fun e he => ?_, by simp⟩
        obtain rfl := Option.some.inj he
        exact ⟨hp, x, hslot, htest⟩
      · have hpf : p ≠ f := by
          rintro rfl
          simp [hslot] at hfree
        have hsteps := steps_next_left hp hf hpf
        obtain ⟨r, hr, hfound, hnone⟩ := ih (next_lt hp) (by omega)
        refine ⟨r, by rw [← hr]; exact if_neg htest, hfound, fun hr => ?_⟩
        obtain ⟨g, hg, hall⟩ := hnone hr
        refine ⟨g, hg.of_next hp (by simp [hslot]), fun s hs hlt y hy => ?_⟩
        rcases eq_or_ne p s with rfl | hne
        · obtain rfl := Option.some.inj (hslot.symm.trans hy)
          exact htest
        · have hpg : p ≠ g := by
            rintro rfl
            exact absurd hg.free (by simp [hslot])
          have h₁ := steps_next_left hp hs hne
          have h₂ := steps_next_left hp hg.lt hpg
          exact hall s hs (by omega) y hy

/-! ## Entries and their homes -/

section Home

variable {home : α → ℕ}

/-- The way from the home of every entry to its slot is taken.  This is all that a lookup relies on;
in which order the entries of one home stand does not matter to it. -/
def Reachable (n : ℕ) (home : α → ℕ) (slots : ℕ → Option α) : Prop :=
  ∀ e < n, ∀ x, slots e = some x →
    ∀ s < n, steps n (home x) s < steps n (home x) e → slots s ≠ none

/-- The same, but for the slot `h`, which may be free.  It describes a table from which the entry at
`h` was taken, until the entries behind the hole have been looked at. -/
def ReachableBut (n : ℕ) (home : α → ℕ) (h : ℕ) (slots : ℕ → Option α) : Prop :=
  ∀ e < n, ∀ x, slots e = some x →
    ∀ s < n, s ≠ h → steps n (home x) s < steps n (home x) e → slots s ≠ none

theorem Reachable.empty : Reachable n home (fun _ => (none : Option α)) := by
  intro e _ x hx
  cases hx

/-- **Looking up.** From the home slot of an entry the search finds an entry that passes
the test, and if none passes it finds none. -/
theorem Reachable.probe {test : α → Bool} {p f : ℕ} (hreach : Reachable n home slots)
    (hp : p < n) (hf : f < n) (hfree : slots f = none) (htest : ∀ x, test x → home x = p) :
    ∃ r, probe n slots test n p = some r ∧
      (∀ e, r = some e → e < n ∧ ∃ x, slots e = some x ∧ test x) ∧
      (r = none → ∀ e < n, ∀ x, slots e = some x → ¬ test x) := by
  obtain ⟨r, hr, hfound, hnone⟩ := @probe_spec _ _ _ test _ _ _ hp hf hfree (steps_lt hf)
  refine ⟨r, hr, hfound, fun hrnone e he x hx hpass => ?_⟩
  obtain ⟨g, hg, hall⟩ := hnone hrnone
  rcases lt_or_ge (steps n p e) (steps n p g) with hlt | hge
  · exact hall e he hlt x hx hpass
  · have hne : g ≠ e := by
      rintro rfl
      exact absurd hg.free (by simp [hx])
    have hlt : steps n p g < steps n p e :=
      lt_of_le_of_ne hge fun heq => hne (steps_inj hp hg.lt he heq)
    rw [← htest x hpass] at hlt
    exact hreach e he x hx g hg.lt hlt hg.free

/-- **Putting in** an entry at the first free slot from its home keeps the table reachable: the way
to it is taken by the choice of the slot, and the other ways only gain a slot that is taken. -/
theorem Reachable.insert {x : α} {g : ℕ} (hreach : Reachable n home slots)
    (hg : IsFirstFree n slots (home x) g) :
    Reachable n home (Function.update slots g (some x)) := by
  intro e he y hy s hs hlt
  rcases eq_or_ne s g with rfl | hsg
  · simp
  · rw [Function.update_of_ne hsg]
    rcases eq_or_ne e g with rfl | heg
    · obtain rfl : x = y := by simpa using hy
      exact hg.taken s hs hlt
    · rw [Function.update_of_ne heg] at hy
      exact hreach e he y hy s hs hlt

/-- **Taking out** an entry leaves a hole, and every way that was taken is still taken but for the
hole. -/
theorem Reachable.remove {h : ℕ} (hreach : Reachable n home slots) :
    ReachableBut n home h (Function.update slots h none) := by
  intro e he x hx s hs hsh hlt
  rcases eq_or_ne e h with rfl | heh
  · simp at hx
  · rw [Function.update_of_ne heh] at hx
    rw [Function.update_of_ne hsh]
    exact hreach e he x hx s hs hlt

/-- The slots after the hole `h` up to `stop` are taken, and the slot after these is a
free one other than `h`. -/
structure Cluster (n : ℕ) (slots : ℕ → Option α) (h stop : ℕ) : Prop where
  lt_h : h < n
  lt_stop : stop < n
  hole : slots h = none
  free : slots (next n stop) = none
  next_ne : next n stop ≠ h
  taken : ∀ s < n, s ≠ h → steps n h s ≤ steps n h stop → slots s ≠ none

/-- The slots of the cluster are those before the free slot that ends it. -/
theorem Cluster.steps_end {h stop : ℕ} (hc : Cluster n slots h stop) :
    steps n h (next n stop) = steps n h stop + 1 :=
  steps_next_right hc.lt_h hc.lt_stop hc.next_ne.symm

/-- **An entry of the cluster would go to the hole** exactly when its way leads through. -/
theorem Cluster.firstFree_eq {h stop e : ℕ} {x : α} (hc : Cluster n slots h stop)
    (hbut : ReachableBut n home h slots) (hx : slots e = some x) (he : e < n)
    (hhome : home x < n) (hle : steps n h e ≤ steps n h stop) :
    ∃ g, firstFree n slots n (home x) = some g ∧
      (g = h ↔ steps n (home x) h < steps n (home x) e) := by
  obtain ⟨g, hg, hfirst⟩ := firstFree_spec hhome hc.lt_h hc.hole (steps_lt hc.lt_h)
  refine ⟨g, hg, fun hgh => ?_, fun hlt => ?_⟩
  · have heh : e ≠ h := by
      rintro rfl
      exact absurd hc.hole (by simp [hx])
    by_contra hnot
    -- The way to the entry, then the cluster, then the free slot: it comes before `h`.
    have hend := hc.steps_end
    have hnext := next_lt (n := n) hc.lt_stop
    have hbefore : steps n (home x) (next n stop) < steps n (home x) h := by
      have hne := hc.next_ne
      generalize next n stop = f at hend hnext hne
      have hlt := hc.lt_h
      have hstop := hc.lt_stop
      unfold steps at *
      split_ifs at * <;> omega
    exact hfirst.taken _ hnext (hgh ▸ hbefore) hc.free
  · refine hfirst.unique hhome ⟨hc.lt_h, hc.hole, fun s hs hsh => ?_⟩
    have hne : s ≠ h := by
      rintro rfl
      exact lt_irrefl _ hsh
    exact hbut e he x hx s hs hne (hsh.trans hlt)

/-- Moving the entry at `e` to the hole `h`. -/
def move (slots : ℕ → Option α) (h e : ℕ) : ℕ → Option α :=
  Function.update (Function.update slots h (slots e)) e none

theorem move_of_ne {h e s : ℕ} (hh : s ≠ h) (he : s ≠ e) : move slots h e s = slots s := by
  rw [move, Function.update_of_ne he, Function.update_of_ne hh]

@[simp] theorem move_right {h e : ℕ} : move slots h e e = none := by simp [move]

theorem move_left {h e : ℕ} (hne : h ≠ e) : move slots h e h = slots e := by
  simp [move, Function.update_of_ne hne]

/-- **Moving an entry into the hole** moves the hole to where the entry was.  The way of the entry
led through the hole, so its new way is the first part of the old one; every other way that led
through the hole is now taken there. -/
theorem ReachableBut.move {h e : ℕ} {x : α} (hbut : ReachableBut n home h slots)
    (hx : slots e = some x) (he : e < n)
    (hlt : steps n (home x) h < steps n (home x) e) :
    ReachableBut n home e (move slots h e) := by
  have hhe : h ≠ e := by
    rintro rfl
    exact lt_irrefl _ hlt
  intro d hd y hy s hs hse hway
  rcases eq_or_ne s h with rfl | hsh
  · rw [move_left hhe, hx]
    simp
  · rw [move_of_ne hsh hse]
    rcases eq_or_ne d e with rfl | hde
    · simp at hy
    · rcases eq_or_ne d h with rfl | hdh
      · rw [move_left hhe, hx] at hy
        obtain rfl := Option.some.inj hy
        exact hbut e he x hx s hs hsh (hway.trans hlt)
      · rw [move_of_ne hdh hde] at hy
        exact hbut d hd y hy s hs hsh hway

/-- What is left of the cluster behind the entry that moved. -/
theorem Cluster.move {h stop e : ℕ} (hc : Cluster n slots h stop) (he : e < n) (hhe : h ≠ e)
    (hle : steps n h e ≤ steps n h stop) : Cluster n (move slots h e) e stop := by
  have hend := hc.steps_end
  have hne_e : next n stop ≠ e := by
    rintro heq
    rw [heq] at hend
    omega
  refine ⟨he, hc.lt_stop, move_right, ?_, hne_e, fun s hs hse hse' => ?_⟩
  · rw [move_of_ne hc.next_ne hne_e, hc.free]
  · have hadd := steps_add hc.lt_h he hc.lt_stop hle
    have hpos : steps n h e ≠ 0 := fun h0 => hhe ((steps_eq_zero hc.lt_h).mp h0)
    have hsum : steps n h s = steps n h e + steps n e s := by
      have hh := hc.lt_h
      have hstop : steps n h stop < n := steps_lt hc.lt_stop
      unfold steps at *
      split_ifs at * <;> omega
    have hsh : s ≠ h := by
      rintro rfl
      rw [steps_self] at hsum
      omega
    rw [move_of_ne hsh hse]
    exact hc.taken s hs hsh (by omega)

/-- **When no entry of the cluster wants the hole** it cuts nothing off.  An entry whose way leads
through the hole would have to stand behind it in its cluster, because the way ends before the next
free slot. -/
theorem ReachableBut.reachable {h stop : ℕ} (hbut : ReachableBut n home h slots)
    (hc : Cluster n slots h stop)
    (hhome : ∀ e < n, ∀ x, slots e = some x → home x < n)
    (hnone : ∀ e < n, e ≠ h → steps n h e ≤ steps n h stop → ∀ x, slots e = some x →
      ¬ steps n (home x) h < steps n (home x) e) :
    Reachable n home slots := by
  intro e he x hx s hs hlt
  rcases eq_or_ne s h with rfl | hsh
  · have heh : e ≠ s := by
      rintro rfl
      exact lt_irrefl _ hlt
    have hbehind : steps n s stop < steps n s e :=
      not_le.mp fun hle => hnone e he heh hle x hx hlt
    have hend := hc.steps_end
    have hnext := next_lt (n := n) hc.lt_stop
    have hne : e ≠ next n stop := by
      rintro rfl
      exact absurd hc.free (by simp [hx])
    have hway : steps n (home x) (next n stop) < steps n (home x) e := by
      have hx' := hhome e he x hx
      have hne' : steps n s e ≠ steps n s (next n stop) := fun heq =>
        hne (steps_inj hs he hnext heq)
      generalize next n stop = f at hend hnext hne hne'
      have hstop := hc.lt_stop
      unfold steps at *
      split_ifs at * <;> omega
    exact absurd hc.free (hbut e he x hx _ hnext hc.next_ne hway)
  · exact hbut e he x hx s hs hsh hlt

end Home

/-! ## What a table holds -/

/-- The entries in the order of their slots. -/
def contents (n : ℕ) (slots : ℕ → Option α) : List α := (List.range n).filterMap slots

theorem mem_contents {x : α} : x ∈ contents n slots ↔ ∃ e < n, slots e = some x := by
  simp [contents]

@[simp] theorem contents_none : contents n (fun _ => (none : Option α)) = [] := by
  simp [contents]

/-- Filling a free slot adds one entry. -/
theorem contents_update {h : ℕ} {x : α} (hh : h < n) (hfree : slots h = none) :
    (contents n (Function.update slots h (some x))).Perm (x :: contents n slots) := by
  have hrange : (List.range n).Perm (h :: (List.range n).erase h) :=
    List.perm_cons_erase (List.mem_range.mpr hh)
  have hrest : ((List.range n).erase h).filterMap (Function.update slots h (some x)) =
      ((List.range n).erase h).filterMap slots := by
    refine List.filterMap_congr fun s hs => Function.update_of_ne ?_ _ _
    exact ((List.nodup_range).mem_erase_iff.mp hs).1
  calc
    (contents n (Function.update slots h (some x))).Perm _ := hrange.filterMap _
    _ = x :: ((List.range n).erase h).filterMap slots := by
      rw [List.filterMap_cons_some (Function.update_self h (some x) slots), hrest]
    _ = x :: (h :: (List.range n).erase h).filterMap slots := by
      rw [List.filterMap_cons_none hfree]
    _ |>.Perm (x :: contents n slots) := (hrange.filterMap _).symm.cons x

/-- Emptying a slot takes one entry away. -/
theorem contents_remove {h : ℕ} {x : α} (hh : h < n) (hx : slots h = some x) :
    (contents n slots).Perm (x :: contents n (Function.update slots h none)) := by
  have hback : Function.update (Function.update slots h none) h (some x) = slots := by
    rw [Function.update_idem, ← hx, Function.update_eq_self]
  rw [← hback]
  simpa using @contents_update _ n (Function.update slots h none) h x hh (by simp)

theorem contents_move {h e : ℕ} {x : α} (hh : h < n) (he : e < n) (hhe : h ≠ e)
    (hfree : slots h = none) (hx : slots e = some x) :
    (contents n (move slots h e)).Perm (contents n slots) := by
  have hfill := contents_update (x := x) hh hfree
  have htake := @contents_remove _ n (Function.update slots h (some x)) e x he
    (by rw [Function.update_of_ne hhe.symm, hx])
  rw [move, hx]
  exact (htake.symm.trans hfill).cons_inv

/-- A table with fewer entries than slots has a free slot. -/
theorem exists_free (h : (contents n slots).length < n) : ∃ f < n, slots f = none := by
  by_contra hnot
  push Not at hnot
  have hall : (contents n slots).length = (List.range n).length := by
    rw [contents, ← List.length_map (f := slots), ← List.length_map (f := some),
      List.map_filterMap_some_eq_filter_map_isSome, List.filter_eq_self.mpr]
    intro o ho
    obtain ⟨e, he, rfl⟩ := List.mem_map.mp ho
    exact Option.isSome_iff_ne_none.mpr (hnot e (List.mem_range.mp he))
  rw [List.length_range] at hall
  omega

end Alpm.OpenAddressing
