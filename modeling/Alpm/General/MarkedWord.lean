import Mathlib

/-!
# Words with two kinds of end

A word over a linear order that can end in two ways, in a plain `stop` or in a `tail`.  Two words
are compared letter by letter; when one of them has ended, the next letter of the other one decides,
and which letters then lose is what `Marks` records.

## 1.  Where such an order can break

Comparing letters is a linear order, and comparing words that end in the same way is the
lexicographic one.  Comparing ends with letters is where the order can break.  A letter that loses
against an end should drag every smaller letter with it; `Marks` asks this of `stop` only, because
the comparison that the words were made for does not have it for `tail`.

The main result says that the missing closure for `tail` is the one thing that can go wrong:
`cmp_lt_trans_iff` pins every failure of transitivity on a `Cycle`, three words with a common
beginning after which one has only its tail left, one has a letter above the tail, and one has a
larger letter below it.  The proof goes by recursion on the three words: where the first letters are
not all equal the two outer comparisons decide the third one, or there is the cycle.

## 2.  Stages

Versions are compared part by part, and each part is such a word.  `lexCmp` compares in two stages,
and `lexCmp_lt_trans_iff` finds the failures of the whole from those of the stages, so that any
number of stages can be put together.
-/

namespace Alpm.General

/-- A word that ends in `stop` or in `tail`. -/
inductive Word (κ : Type*) where
  | stop : Word κ
  | tail : Word κ
  | cons : κ → Word κ → Word κ
  deriving DecidableEq

/-- Which letters lose against the two ends.  Losing against `stop` is closed
downwards and implies losing against `tail`. -/
structure Marks (κ : Type*) [LinearOrder κ] where
  belowStop : κ → Bool
  belowTail : κ → Bool
  lower : ∀ {s t : κ}, s ≤ t → belowStop t → belowStop s
  sub : ∀ {s : κ}, belowStop s → belowTail s

namespace Word

variable {κ : Type*} [LinearOrder κ] (m : Marks κ)

/-- Three-way comparison of two words. -/
def cmp : Word κ → Word κ → Int
  | stop, stop => 0
  | stop, tail => -1
  | stop, cons t _ => if m.belowStop t then 1 else -1
  | tail, stop => 1
  | tail, tail => 0
  | tail, cons t _ => if m.belowTail t then 1 else -1
  | cons s _, stop => if m.belowStop s then -1 else 1
  | cons s _, tail => if m.belowTail s then -1 else 1
  | cons s x, cons t y => if s < t then -1 else if t < s then 1 else cmp x y

theorem cmp_cons_of_lt {s t : κ} (h : s < t) (x y : Word κ) :
    cmp m (cons s x) (cons t y) = -1 := by
  rw [cmp, if_pos h]

theorem cmp_cons_of_gt {s t : κ} (h : t < s) (x y : Word κ) :
    cmp m (cons s x) (cons t y) = 1 := by
  rw [cmp, if_neg h.asymm, if_pos h]

section Cases

-- the ends and the letters are told apart by evaluating the comparison
attribute [local simp] cmp

@[simp] theorem cmp_cons_same (s : κ) (x y : Word κ) :
    cmp m (cons s x) (cons s y) = cmp m x y := by
  simp

/-- Exchanging the words changes the sign. -/
theorem cmp_swap : ∀ x y : Word κ, cmp m y x = -cmp m x y
  | stop, stop => rfl
  | stop, tail => rfl
  | stop, cons t y => by by_cases h : m.belowStop t <;> simp [h]
  | tail, stop => rfl
  | tail, tail => rfl
  | tail, cons t y => by by_cases h : m.belowTail t <;> simp [h]
  | cons s x, stop => by by_cases h : m.belowStop s <;> simp [h]
  | cons s x, tail => by by_cases h : m.belowTail s <;> simp [h]
  | cons s x, cons t y => by
    rcases lt_trichotomy s t with h | rfl | h
    · rw [cmp_cons_of_lt m h, cmp_cons_of_gt m h, neg_neg]
    · rw [cmp_cons_same, cmp_cons_same, cmp_swap x y]
    · rw [cmp_cons_of_lt m h, cmp_cons_of_gt m h]

@[simp] theorem cmp_self (x : Word κ) : cmp m x x = 0 := by
  have := cmp_swap m x x
  omega

theorem eq_of_cmp_eq_zero : ∀ {x y : Word κ}, cmp m x y = 0 → x = y
  | stop, stop, _ => rfl
  | stop, tail, h => by simp at h
  | stop, cons t y, h => by by_cases ht : m.belowStop t <;> simp [ht] at h
  | tail, stop, h => by simp at h
  | tail, tail, _ => rfl
  | tail, cons t y, h => by by_cases ht : m.belowTail t <;> simp [ht] at h
  | cons s x, stop, h => by by_cases hs : m.belowStop s <;> simp [hs] at h
  | cons s x, tail, h => by by_cases hs : m.belowTail s <;> simp [hs] at h
  | cons s x, cons t y, h => by
    rcases lt_trichotomy s t with hst | rfl | hst
    · rw [cmp_cons_of_lt m hst] at h
      simp at h
    · rw [eq_of_cmp_eq_zero ((cmp_cons_same m s x y).symm.trans h)]
    · rw [cmp_cons_of_gt m hst] at h
      simp at h

/-- Only equal words compare equal. -/
theorem cmp_eq_zero {x y : Word κ} : cmp m x y = 0 ↔ x = y :=
  ⟨eq_of_cmp_eq_zero m, fun h => h ▸ cmp_self m x⟩

theorem cmp_cons_lt_zero {s t : κ} {x y : Word κ} :
    cmp m (cons s x) (cons t y) < 0 ↔ s < t ∨ s = t ∧ cmp m x y < 0 := by
  rcases lt_trichotomy s t with h | rfl | h
  · rw [cmp_cons_of_lt m h]
    simp [h]
  · simp
  · rw [cmp_cons_of_gt m h]
    simp [h.asymm, h.ne']

@[simp] theorem cmp_stop_cons_lt_zero {t : κ} {y : Word κ} :
    cmp m stop (cons t y) < 0 ↔ m.belowStop t = false := by
  by_cases h : m.belowStop t <;> simp [h]

@[simp] theorem cmp_tail_cons_lt_zero {t : κ} {y : Word κ} :
    cmp m tail (cons t y) < 0 ↔ m.belowTail t = false := by
  by_cases h : m.belowTail t <;> simp [h]

@[simp] theorem cmp_cons_stop_lt_zero {s : κ} {x : Word κ} :
    cmp m (cons s x) stop < 0 ↔ m.belowStop s = true := by
  by_cases h : m.belowStop s <;> simp [h]

@[simp] theorem cmp_cons_tail_lt_zero {s : κ} {x : Word κ} :
    cmp m (cons s x) tail < 0 ↔ m.belowTail s = true := by
  by_cases h : m.belowTail s <;> simp [h]

end Cases

/-- Three words that are compared in a circle: the tail loses against a letter,
this letter against a larger one, and the larger one against the tail. -/
inductive Cycle : Word κ → Word κ → Word κ → Prop
  | base {s t : κ} (x y : Word κ) (hs : m.belowTail s = false) (ht : m.belowTail t = true)
      (hst : s < t) : Cycle tail (cons s x) (cons t y)
  | rotate {x y z : Word κ} (h : Cycle x y z) : Cycle y z x
  | cons (s : κ) {x y z : Word κ} (h : Cycle x y z) : Cycle (cons s x) (cons s y) (cons s z)

variable {m}

/-- Around a cycle every comparison goes the same way. -/
theorem Cycle.cmp_lt_zero {x y z : Word κ} (h : Cycle m x y z) :
    cmp m x y < 0 ∧ cmp m y z < 0 ∧ cmp m z x < 0 := by
  induction h with
  | base x y hs ht hst => simp [cmp_cons_lt_zero, hs, ht, hst]
  | rotate _ ih => exact ⟨ih.2.1, ih.2.2, ih.1⟩
  | cons s _ ih => simpa using ih

/-- A word ends in its tail. -/
def EndsInTail : Word κ → Prop
  | stop => False
  | tail => True
  | cons _ x => EndsInTail x

/-- One of the words of a cycle ends in its tail. -/
theorem Cycle.endsInTail {x y z : Word κ} (h : Cycle m x y z) :
    EndsInTail x ∨ EndsInTail y ∨ EndsInTail z := by
  induction h with
  | base => exact Or.inl trivial
  | rotate _ ih => tauto
  | cons s _ ih => exact ih

/-- Where the comparison is not transitive, there is a cycle. -/
theorem cmp_lt_trans_or_cycle :
    ∀ {x y z : Word κ}, cmp m x y < 0 → cmp m y z < 0 → cmp m x z < 0 ∨ Cycle m x y z
  | stop, stop, _, h, _ => by simp at h
  | tail, tail, _, h, _ => by simp at h
  | _, stop, stop, _, h => by simp at h
  | _, tail, tail, _, h => by simp at h
  | tail, stop, _, h, _ => by simp [cmp] at h
  | _, tail, stop, _, h => by simp [cmp] at h
  | stop, tail, cons u z, _, h => by
    -- a letter above the tail is above the plain end
    left
    have hu : m.belowTail u = false := by simpa using h
    have hu' : m.belowStop u = false := by
      rw [Bool.eq_false_iff]
      exact fun h' => by simp [m.sub h'] at hu
    simp [hu']
  | cons s x, stop, tail, h, _ => by
    left
    have hs : m.belowStop s = true := by simpa using h
    simp [m.sub hs]
  | cons s x, stop, cons u z, h₁, h₂ => by
    left
    have hs : m.belowStop s = true := by simpa using h₁
    have hu : m.belowStop u = false := by simpa using h₂
    exact (cmp_cons_lt_zero m).mpr (Or.inl (not_le.mp fun h => by simp [m.lower h hs] at hu))
  | cons s x, tail, cons u z, h₁, h₂ => by
    have hs : m.belowTail s = true := by simpa using h₁
    have hu : m.belowTail u = false := by simpa using h₂
    rcases lt_trichotomy s u with h | rfl | h
    · exact Or.inl ((cmp_cons_lt_zero m).mpr (Or.inl h))
    · simp [hs] at hu
    · exact Or.inr (Cycle.base z x hu hs h).rotate.rotate
  | stop, cons t y, stop, h₁, h₂ => by
    have ht : m.belowStop t = true := by simpa using h₂
    simp [ht] at h₁
  | stop, cons t y, tail, _, _ => Or.inl (by simp [cmp])
  | stop, cons t y, cons u z, h₁, h₂ => by
    left
    have ht : m.belowStop t = false := by simpa using h₁
    have htu : t ≤ u := ((cmp_cons_lt_zero m).mp h₂).elim le_of_lt fun h => h.1.le
    have hu : m.belowStop u = false := by
      rw [Bool.eq_false_iff]
      exact fun h => by simp [m.lower htu h] at ht
    simp [hu]
  | tail, cons t y, stop, h₁, h₂ => by
    have ht : m.belowStop t = true := by simpa using h₂
    simp [m.sub ht] at h₁
  | tail, cons t y, tail, h₁, h₂ => by
    have ht : m.belowTail t = true := by simpa using h₂
    simp [ht] at h₁
  | tail, cons t y, cons u z, h₁, h₂ => by
    have ht : m.belowTail t = false := by simpa using h₁
    by_cases hu : m.belowTail u
    · right
      rcases (cmp_cons_lt_zero m).mp h₂ with h | ⟨rfl, -⟩
      · exact Cycle.base y z ht hu h
      · simp [ht] at hu
    · left
      simp [hu]
  | cons s x, cons t y, stop, h₁, h₂ => by
    left
    have ht : m.belowStop t = true := by simpa using h₂
    have hst : s ≤ t := ((cmp_cons_lt_zero m).mp h₁).elim le_of_lt fun h => h.1.le
    simp [m.lower hst ht]
  | cons s x, cons t y, tail, h₁, h₂ => by
    have ht : m.belowTail t = true := by simpa using h₂
    by_cases hs : m.belowTail s
    · left
      simp [hs]
    · right
      rcases (cmp_cons_lt_zero m).mp h₁ with h | ⟨rfl, -⟩
      · exact (Cycle.base x y (by simpa using hs) ht h).rotate
      · exact absurd ht hs
  | cons s x, cons t y, cons u z, h₁, h₂ => by
    rcases (cmp_cons_lt_zero m).mp h₁ with h | ⟨rfl, h⟩
    · left
      rcases (cmp_cons_lt_zero m).mp h₂ with h' | ⟨rfl, -⟩
      · exact (cmp_cons_lt_zero m).mpr (Or.inl (h.trans h'))
      · exact (cmp_cons_lt_zero m).mpr (Or.inl h)
    · rcases (cmp_cons_lt_zero m).mp h₂ with h' | ⟨rfl, h'⟩
      · exact Or.inl ((cmp_cons_lt_zero m).mpr (Or.inl h'))
      · rcases cmp_lt_trans_or_cycle h h' with h'' | h''
        · exact Or.inl (by simpa using h'')
        · exact Or.inr (h''.cons s)

/-- **Transitivity fails exactly at the cycles.**  In a cycle all three comparisons go the same way
round, so the failure is there; the other direction is `cmp_lt_trans_or_cycle`, by recursion on the
three words. -/
theorem cmp_lt_trans_iff (x y z : Word κ) :
    (cmp m x y < 0 → cmp m y z < 0 → cmp m x z < 0) ↔ ¬ Cycle m x y z := by
  constructor
  · intro h hc
    obtain ⟨hxy, hyz, hzx⟩ := hc.cmp_lt_zero
    have := h hxy hyz
    rw [cmp_swap m z x] at this
    omega
  · intro hc hxy hyz
    exact (cmp_lt_trans_or_cycle hxy hyz).resolve_right hc

end Word

/-! ## Comparing in two stages -/

section Lex

variable {X Y : Type*} (f : X → X → Int) (g : Y → Y → Int)

/-- Compare the first components, and the second ones if these are equal. -/
def lexCmp (p q : X × Y) : Int := if f p.1 q.1 ≠ 0 then f p.1 q.1 else g p.2 q.2

variable {f g}

theorem lexCmp_lt_zero (hf : ∀ {x y}, f x y = 0 ↔ x = y) {p q : X × Y} :
    lexCmp f g p q < 0 ↔ f p.1 q.1 < 0 ∨ p.1 = q.1 ∧ g p.2 q.2 < 0 := by
  unfold lexCmp
  split_ifs with h
  · simp [hf.not.mp h]
  · rw [not_not] at h
    rw [h, and_iff_right (hf.mp h), or_iff_right (lt_irrefl 0)]

/-- If the failures of transitivity of two comparisons are the cycles of `C` and of
`D`, those of the comparison in two stages are the cycles of the first stage and, among
elements equal there, those of the second. -/
theorem lexCmp_lt_trans_iff {C : X → X → X → Prop} {D : Y → Y → Y → Prop}
    (hf : ∀ {x y}, f x y = 0 ↔ x = y)
    (hC : ∀ x y z, (f x y < 0 → f y z < 0 → f x z < 0) ↔ ¬ C x y z)
    (hC' : ∀ x y z, C x y z → f x y < 0 ∧ f y z < 0 ∧ f z x < 0)
    (hD : ∀ x y z, (g x y < 0 → g y z < 0 → g x z < 0) ↔ ¬ D x y z) (p q r : X × Y) :
    (lexCmp f g p q < 0 → lexCmp f g q r < 0 → lexCmp f g p r < 0) ↔
      ¬ (C p.1 q.1 r.1 ∨ (p.1 = q.1 ∧ q.1 = r.1 ∧ D p.2 q.2 r.2)) := by
  obtain ⟨x, a⟩ := p
  obtain ⟨y, b⟩ := q
  obtain ⟨z, c⟩ := r
  simp only [lexCmp_lt_zero hf]
  have hself : ∀ x, f x x = 0 := fun x => hf.mpr rfl
  by_cases hxy : x = y
  · subst hxy
    by_cases hxz : x = z
    · -- equal first components: the second stage decides
      subst hxz
      have hC₀ : ¬ C x x x := fun h => by
        have := (hC' x x x h).1
        rw [hself] at this
        omega
      simp [hself, hC₀, hD]
    · have hC₀ : ¬ C x x z := fun h => by
        have := (hC' x x z h).1
        rw [hself] at this
        omega
      simp +contextual [hxz, hC₀]
  · by_cases hyz : y = z
    · subst hyz
      have hC₀ : ¬ C x y y := fun h => by
        have := (hC' x y y h).2.1
        rw [hself] at this
        omega
      simp +contextual [hxy, hC₀]
    · by_cases hxz : x = z
      · subst hxz
        simp only [hxy, hyz, hself, false_and, or_false, ← hC x y x]
        constructor
        · rintro h h₁ h₂
          have hC₀ : C x y x := by
            by_contra hC₀
            have := (hC x y x).mpr hC₀ h₁ h₂
            rw [hself] at this
            omega
          have := (hC' x y x hC₀).2.2
          rw [hself] at this
          omega
        · intro h h₁ h₂
          exact Or.inl (h h₁ h₂)
      · simp [hxy, hyz, hxz, hC]

end Lex

end Alpm.General
