import Alpm.General.MarkedWord
import Alpm.Version.Vercmp

/-!
# A version as a word of segments

`rpmvercmp` looks at a version as a sequence of segments, maximal runs of digits or of letters, each
after some separators.  `segments` reads this sequence off a string.  A string that has separators
after its last segment ends in `tail`, any other in `stop`, because the two ends are treated
differently when the other version goes on.

## 1.  The order of segments

Segments compare by the number of separators before them, then by kind, letters below numbers, then
numbers by their number of digits without leading zeros, then by their text.  `Segment.key` makes
this a lexicographic order, which is linear, so what is not transitive in the comparison cannot come
from here.

## 2.  The loop

Under this order and the marks `versionMarks`, which say what an end loses against, the C loop is
the comparison of words of `General.MarkedWord`.  One pass of the loop compares the first segments
(`rpmvercmpLoop_eq_cmp`), the two ways to leave it are the two ways in which a word may have ended
(`finalShowdown_eq_cmp`, `finalShowdown_dropWhile_eq_cmp`), and `rpmvercmp_eq_cmp` is the result.
-/

namespace Alpm

open General

/-- A segment: the number of separators before it, whether it is a run of digits, and
the run, without its leading zeros if it is a number. -/
structure Segment where
  seps : ℕ
  isnum : Bool
  text : CString
  deriving DecidableEq, Repr

namespace Segment

/-- Segments compare by separators, then by kind (letters first), then numbers by their
number of digits, then by their text. -/
def key (s : Segment) : ℕ ×ₗ Bool ×ₗ ℕ ×ₗ CString :=
  toLex (s.seps, toLex (s.isnum, toLex (if s.isnum then s.text.length else 0, s.text)))

theorem key_injective : Function.Injective key := by
  rintro ⟨k, b, s⟩ ⟨k', b', s'⟩ h
  simp only [key, toLex_inj, Prod.mk.injEq] at h
  obtain ⟨rfl, rfl, -, rfl⟩ := h
  rfl

instance : LinearOrder Segment := LinearOrder.lift' key key_injective

theorem lt_iff {s t : Segment} : s < t ↔ s.seps < t.seps ∨ s.seps = t.seps ∧
    (s.isnum < t.isnum ∨ s.isnum = t.isnum ∧
      ((if s.isnum then s.text.length else 0) < (if t.isnum then t.text.length else 0) ∨
        (if s.isnum then s.text.length else 0) = (if t.isnum then t.text.length else 0) ∧
          s.text < t.text)) := by
  change key s < key t ↔ _
  simp only [key, Prod.Lex.toLex_lt_toLex]

theorem lt_of_seps_lt {s t : Segment} (h : s.seps < t.seps) : s < t :=
  lt_iff.mpr (Or.inl h)

end Segment

/-- A version that ends in nothing beats letters without a separator, a version that
ends in separators beats all letters. -/
def versionMarks : Marks Segment where
  belowStop s := s.seps = 0 ∧ s.isnum = false
  belowTail s := !s.isnum
  lower {s t} hst ht := by
    simp only [decide_eq_true_eq] at ht ⊢
    rcases hst.lt_or_eq with h | rfl
    · rw [Segment.lt_iff, ht.1, ht.2] at h
      rcases h with h | ⟨h, h' | ⟨h', -⟩⟩
      · exact absurd h (Nat.not_lt_zero _)
      · exact absurd h' (by simp [Bool.lt_iff])
      · exact ⟨h, h'⟩
    · exact ht
  sub {s} hs := by
    simp only [decide_eq_true_eq] at hs
    simp [hs.2]

/-- The value of a segment: a number loses its leading zeros. -/
def segmentText (c : Char) (run : CString) : CString :=
  if isdigit c then run.dropWhile (· = '0') else run

theorem isalnum_iff {c : Char} : isalnum c ↔ isalpha c ∨ isdigit c := by
  simp [isalnum]

theorem not_isalpha_of_isdigit {c : Char} (h : isdigit c) : isalpha c = false := by
  simp only [isdigit, Char.isDigit, Bool.and_eq_true, decide_eq_true_eq] at h
  simp only [isalpha, Char.isAlpha, Char.isUpper, Char.isLower, Bool.or_eq_false_iff,
    Bool.and_eq_false_iff, decide_eq_false_iff_not]
  have h₁ := UInt32.le_iff_toNat_le.mp h.1
  have h₂ := UInt32.le_iff_toNat_le.mp h.2
  simp only [UInt32.le_iff_toNat_le]
  simp at h₁ h₂ ⊢
  omega

/-- An alphanumeric byte is in the class of its own segment. -/
theorem segmentClass_self {c : Char} (h : isalnum c) : segmentClass c c := by
  unfold segmentClass
  split_ifs with hd
  · exact hd
  · exact (isalnum_iff.mp h).resolve_right hd

/-- Segments of different kinds do not share a byte. -/
theorem segmentClass_of_ne {c d : Char} (h : isdigit c ≠ isdigit d) :
    segmentClass c d = false := by
  unfold segmentClass
  split_ifs with hc
  · simpa [hc] using h.symm
  · have : isdigit d := by simpa [hc] using h
    exact not_isalpha_of_isdigit this

theorem segmentClass_congr {c d : Char} (h : isdigit c = isdigit d) :
    segmentClass c = segmentClass d := by
  simp [segmentClass, h]

/-- What is left after the separators starts with an alphanumeric byte. -/
theorem isalnum_of_dropWhile {s t : CString} {c : Char}
    (h : s.dropWhile (!isalnum ·) = c :: t) : isalnum c := by
  have := List.head_dropWhile_not (l := s) (!isalnum ·) (by simp [h])
  simpa [h] using this

/-- The segments of a version string, and whether separators follow the last one. -/
def segments (s : CString) : Word Segment :=
  if s = [] then .stop
  else
    match _h : s.dropWhile (!isalnum ·) with
    | [] => .tail
    | c :: t =>
      .cons ⟨s.length - (c :: t).length, isdigit c,
          segmentText c ((c :: t).takeWhile (segmentClass c))⟩
        (segments ((c :: t).dropWhile (segmentClass c)))
termination_by s.length
decreasing_by
  have h₁ := (List.dropWhile_suffix (l := s) (!isalnum ·)).length_le
  have h₂ := (List.dropWhile_suffix (l := t) (segmentClass c)).length_le
  rw [_h, List.length_cons] at h₁
  rw [List.dropWhile_cons, if_pos (segmentClass_self (isalnum_of_dropWhile _h))]
  omega

@[simp] theorem segments_nil : segments [] = .stop := by
  rw [segments, if_pos rfl]

theorem segments_eq_tail {s : CString} (hs : s ≠ []) (h : s.dropWhile (!isalnum ·) = []) :
    segments s = .tail := by
  rw [segments, if_neg hs]
  split
  · rfl
  · rename_i h'
    simp [h] at h'

theorem segments_eq_cons {s : CString} {c : Char} {t : CString}
    (h : s.dropWhile (!isalnum ·) = c :: t) :
    segments s = .cons ⟨s.length - (c :: t).length, isdigit c,
        segmentText c ((c :: t).takeWhile (segmentClass c))⟩
      (segments ((c :: t).dropWhile (segmentClass c))) := by
  have hs : s ≠ [] := by
    rintro rfl
    simp at h
  rw [segments, if_neg hs]
  split
  · rename_i h'
    simp [h] at h'
  · rename_i h'
    obtain ⟨rfl, rfl⟩ := List.cons.inj (h.symm.trans h')
    rfl

/-! ## The end of the loop -/

theorem finalShowdown_nil_cons (d : Char) (two : CString) :
    finalShowdown [] (d :: two) = if isalpha d then 1 else -1 := by
  have h : isalpha '\x00' = false := by decide
  by_cases hd : isalpha d <;> simp [finalShowdown, hd, h]

theorem finalShowdown_cons_nil (c : Char) (one : CString) :
    finalShowdown (c :: one) [] = if isalpha c then -1 else 1 := by
  by_cases hc : isalpha c <;> simp [finalShowdown, hc]

/-- Against a version that has ended, the next byte of the other one decides. -/
theorem cmp_stop_segments (d : Char) (two : CString) :
    Word.cmp versionMarks .stop (segments (d :: two)) = if isalpha d then 1 else -1 := by
  by_cases hd : isalnum d
  · have h : (d :: two).dropWhile (!isalnum ·) = d :: two := by simp [hd]
    rw [segments_eq_cons h]
    by_cases hn : isdigit d
    · simp [Word.cmp, versionMarks, hn, not_isalpha_of_isdigit hn]
    · simp [Word.cmp, versionMarks, hn, (isalnum_iff.mp hd).resolve_right hn]
  · have ha : ¬ isalpha d := fun h => hd (isalnum_iff.mpr (Or.inl h))
    rcases h : (d :: two).dropWhile (!isalnum ·) with _ | ⟨c, t⟩
    · simp [segments_eq_tail (List.cons_ne_nil _ _) h, Word.cmp, ha]
    · have hlen : (c :: t).length ≤ two.length := by
        rw [← h, List.dropWhile_cons, if_pos (by simpa using hd)]
        exact (List.dropWhile_suffix _).length_le
      have hseps : (d :: two).length - (c :: t).length ≠ 0 := by
        simp only [List.length_cons] at hlen ⊢
        omega
      rw [segments_eq_cons h]
      simp only [Word.cmp, versionMarks, hseps, ha]
      simp

/-- A version of separators only loses against digits and beats letters. -/
theorem cmp_tail_segments {s : CString} {c : Char} {t : CString}
    (h : s.dropWhile (!isalnum ·) = c :: t) :
    Word.cmp versionMarks .tail (segments s) = if isalpha c then 1 else -1 := by
  rw [segments_eq_cons h]
  by_cases hn : isdigit c
  · simp [Word.cmp, versionMarks, hn, not_isalpha_of_isdigit hn]
  · simp [Word.cmp, versionMarks, hn, (isalnum_iff.mp (isalnum_of_dropWhile h)).resolve_right hn]

/-- Leaving the loop at its head. -/
theorem finalShowdown_eq_cmp {one two : CString} (h : one = [] ∨ two = []) :
    finalShowdown one two = Word.cmp versionMarks (segments one) (segments two) := by
  match one, two, h with
  | [], [], _ => simp [finalShowdown]
  | [], d :: two, _ =>
    rw [finalShowdown_nil_cons, segments_nil, cmp_stop_segments]
  | c :: one, [], _ =>
    rw [finalShowdown_cons_nil, segments_nil, Word.cmp_swap, cmp_stop_segments]
    split_ifs <;> simp

/-- Leaving the loop after the separators. -/
theorem finalShowdown_dropWhile_eq_cmp {one two : CString} (h₁ : one ≠ []) (h₂ : two ≠ [])
    (h : one.dropWhile (!isalnum ·) = [] ∨ two.dropWhile (!isalnum ·) = []) :
    finalShowdown (one.dropWhile (!isalnum ·)) (two.dropWhile (!isalnum ·)) =
      Word.cmp versionMarks (segments one) (segments two) := by
  match ho : one.dropWhile (!isalnum ·), ht : two.dropWhile (!isalnum ·), h with
  | [], [], _ => simp [segments_eq_tail h₁ ho, segments_eq_tail h₂ ht, finalShowdown]
  | [], d :: two', _ =>
    rw [finalShowdown_nil_cons, segments_eq_tail h₁ ho, cmp_tail_segments ht]
  | c :: one', [], _ =>
    rw [finalShowdown_cons_nil, segments_eq_tail h₂ ht, Word.cmp_swap, cmp_tail_segments ho]
    split_ifs <;> simp
  | c :: one', d :: two', h => simp at h

/-! ## The loop -/

theorem takeWhile_segmentClass_eq_nil {c d : Char} {t : CString} (hd : isalnum d) :
    (d :: t).takeWhile (segmentClass c) = [] ↔ isdigit c ≠ isdigit d := by
  constructor
  · intro h heq
    rw [segmentClass_congr heq] at h
    simp [segmentClass_self hd] at h
  · intro h
    simp [segmentClass_of_ne h]

/-- Segments of one kind after equally many separators: numbers by their number of
digits, then both kinds bytewise. -/
theorem cmp_cons_text (k : ℕ) (isnum : Bool) (x y : CString) (one two : Word Segment) :
    Word.cmp versionMarks (.cons ⟨k, isnum, x⟩ one) (.cons ⟨k, isnum, y⟩ two) =
      if isnum ∧ x.length > y.length then 1
      else if isnum ∧ y.length > x.length then -1
      else if strcmp x y ≠ 0 then (if strcmp x y < 1 then -1 else 1)
      else Word.cmp versionMarks one two := by
  have hlt : ∀ {x y : CString}, (⟨k, isnum, x⟩ : Segment) < ⟨k, isnum, y⟩ ↔
      isnum ∧ x.length < y.length ∨ (isnum → x.length = y.length) ∧ x < y := by
    intro x y
    cases isnum <;> simp [Segment.lt_iff]
  split_ifs with h₁ h₂ h₃ h₄
  · exact Word.cmp_cons_of_gt _ (hlt.mpr (Or.inl h₁)) _ _
  · exact Word.cmp_cons_of_lt _ (hlt.mpr (Or.inl h₂)) _ _
  · have hlen : isnum → x.length = y.length := fun h => by
      have := not_and.mp h₁ h
      have := not_and.mp h₂ h
      omega
    have hxy : x < y := strcmp_lt_zero.mp (by omega)
    exact Word.cmp_cons_of_lt _ (hlt.mpr (Or.inr ⟨hlen, hxy⟩)) _ _
  · have hlen : isnum → y.length = x.length := fun h => by
      have := not_and.mp h₁ h
      have := not_and.mp h₂ h
      omega
    have hxy : y < x := strcmp_gt_zero.mp (by omega)
    exact Word.cmp_cons_of_gt _ (hlt.mpr (Or.inr ⟨hlen, hxy⟩)) _ _
  · obtain rfl := strcmp_eq_zero.mp (not_not.mp h₃)
    exact Word.cmp_cons_same _ _ _ _

/-- One pass of the loop compares the two segments. -/
theorem rpmvercmpLoop_eq_cmp (one two : CString) :
    rpmvercmpLoop one two = Word.cmp versionMarks (segments one) (segments two) := by
  induction hn : one.length using Nat.strong_induction_on generalizing one two with
  | _ n ih =>
  rw [rpmvercmpLoop]
  by_cases h : one = [] ∨ two = []
  · rw [if_pos h, finalShowdown_eq_cmp h]
  rw [if_neg h]
  obtain ⟨h₁, h₂⟩ := not_or.mp h
  dsimp only
  by_cases h' : one.dropWhile (!isalnum ·) = [] ∨ two.dropWhile (!isalnum ·) = []
  · rw [if_pos h', finalShowdown_dropWhile_eq_cmp h₁ h₂ h']
  rw [if_neg h']
  obtain ⟨ho, ht⟩ := not_or.mp h'
  obtain ⟨c, t, ho⟩ := List.exists_cons_of_ne_nil ho
  obtain ⟨d, u, ht⟩ := List.exists_cons_of_ne_nil ht
  have hc := isalnum_of_dropWhile ho
  have hd := isalnum_of_dropWhile ht
  rw [segments_eq_cons ho, segments_eq_cons ht]
  simp only [ho, ht, deref_cons]
  generalize hk : one.length - (c :: t).length = k
  generalize hl : two.length - (d :: u).length = l
  -- different separators
  rcases lt_trichotomy k l with hkl | rfl | hkl
  · rw [if_pos hkl.ne, if_pos hkl, Word.cmp_cons_of_lt _ (Segment.lt_of_seps_lt hkl)]
  swap
  · rw [if_pos hkl.ne', if_neg hkl.asymm, Word.cmp_cons_of_gt _ (Segment.lt_of_seps_lt hkl)]
  rw [if_neg (not_not_intro rfl), dif_neg (by simp [segmentClass_self hc])]
  -- a number against letters
  by_cases hcd : isdigit c = isdigit d
  swap
  · rw [if_pos ((takeWhile_segmentClass_eq_nil hd).mpr hcd)]
    by_cases hc' : isdigit c
    · have hd' : isdigit d = false := by simpa [hc'] using Ne.symm hcd
      rw [if_pos hc', Word.cmp_cons_of_gt]
      exact Segment.lt_iff.mpr (Or.inr ⟨rfl, Or.inl (by simp [hc', hd'])⟩)
    · have hd' : isdigit d = true := by simpa [hc'] using Ne.symm hcd
      rw [if_neg hc', Word.cmp_cons_of_lt]
      exact Segment.lt_iff.mpr (Or.inr ⟨rfl, Or.inl (by simp [hc', hd'])⟩)
  rw [if_neg (by simpa [takeWhile_segmentClass_eq_nil hd] using hcd)]
  have hlen : ((c :: t).dropWhile (segmentClass c)).length < n := by
    have := (List.dropWhile_suffix (l := t) (segmentClass c)).length_le
    have := (List.dropWhile_suffix (l := one) (!isalnum ·)).length_le
    rw [ho, List.length_cons] at this
    rw [List.dropWhile_cons, if_pos (segmentClass_self hc)]
    omega
  rw [ih _ hlen _ _ rfl, segmentClass_congr hcd, hcd, cmp_cons_text]
  simp only [segmentText, hcd]

/-- **`rpmvercmp` is the comparison of segment words.**  The loop is followed pass by pass: as long
as both words have a segment the first ones are compared, and where one of them has ended
`finalShowdown` decides as the marks say. -/
theorem rpmvercmp_eq_cmp (a b : CString) :
    rpmvercmp a b = Word.cmp versionMarks (segments a) (segments b) := by
  rw [rpmvercmp]
  split_ifs with h
  · rw [strcmp_eq_zero.mp h, Word.cmp_self]
  · exact rpmvercmpLoop_eq_cmp a b

end Alpm
