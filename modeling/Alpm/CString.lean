import Mathlib

/-!
# C strings

A C string is modelled by the list of its bytes before the terminating NUL, each byte written as the
`Char` with that code.  So a string of the model may hold a NUL only where the code works on bytes
with a length, as in the blocks of an archive; everything that the code reads as a string has none.

The character classes are those of the C locale: a byte from `128` on is neither a digit nor a
letter.  `strcmp` compares bytes as unsigned numbers, which is the order of `Char`, so that the
order of strings is the lexicographic one and `strcmp_eq` gives the sign for all three cases; the
simp lemmas below it turn every comparison of the code into `<`, `=` or `≤` of strings.  Where the
code reads a byte into an `int` it is signed instead (`signedChar`).
-/

namespace Alpm

/-- The bytes of a C string before its terminating NUL. -/
abbrev CString := List Char

instance : LawfulBEq CString := List.instLawfulBEq

/-- A string literal as a C string. -/
def str (s : String) : CString := s.toList

def isdigit (c : Char) : Bool := c.isDigit

def isalpha (c : Char) : Bool := c.isAlpha

def isalnum (c : Char) : Bool := isalpha c || isdigit c

/-- `*s`: the first byte, or the terminating NUL. -/
def deref (s : CString) : Char := s.headD '\x00'

@[simp] theorem deref_nil : deref [] = '\x00' := rfl

@[simp] theorem deref_cons (c : Char) (s : CString) : deref (c :: s) = c := rfl

/-- `strcmp`; only the sign of the C function is specified, and it is the sign
that is returned here. -/
def strcmp : CString → CString → Int
  | [], [] => 0
  | [], _ :: _ => -1
  | _ :: _, [] => 1
  | a :: as, b :: bs => if a < b then -1 else if b < a then 1 else strcmp as bs

/-- `strcmp` is the sign of the lexicographic order of the bytes. -/
theorem strcmp_eq (a b : CString) :
    strcmp a b = if a < b then -1 else if b < a then 1 else 0 := by
  fun_induction strcmp a b with
  | case1 => simp
  | case2 => simp
  | case3 => simp
  | case4 a as b bs h => rw [if_pos (List.cons_lt_cons_iff.mpr (Or.inl h))]
  | case5 a as b bs h₁ h₂ =>
    rw [if_neg, if_pos (List.cons_lt_cons_iff.mpr (Or.inl h₂))]
    rw [List.cons_lt_cons_iff]
    rintro (h | ⟨rfl, -⟩)
    · exact h₁ h
    · exact lt_irrefl _ h₂
  | case6 a as b bs h₁ h₂ ih =>
    obtain rfl : a = b := le_antisymm (not_lt.mp h₂) (not_lt.mp h₁)
    simp [ih]

theorem strcmp_lt_zero {a b : CString} : strcmp a b < 0 ↔ a < b := by
  rw [strcmp_eq]
  split_ifs with h₁ h₂ <;> simp [h₁]

theorem strcmp_gt_zero {a b : CString} : 0 < strcmp a b ↔ b < a := by
  rw [strcmp_eq]
  split_ifs with h₁ h₂
  · simp [h₁.le]
  · simp [h₂]
  · simp [h₂]

@[simp] theorem strcmp_eq_zero {a b : CString} : strcmp a b = 0 ↔ a = b := by
  rw [strcmp_eq]
  split_ifs with h₁ h₂
  · simp [h₁.ne]
  · simp [h₂.ne']
  · simp [le_antisymm (not_lt.mp h₂) (not_lt.mp h₁)]

theorem strcmp_le_zero {a b : CString} : strcmp a b ≤ 0 ↔ a ≤ b := by
  rw [← not_lt, strcmp_gt_zero, not_lt]

/-- `strrchr`: the part before the last `c` and the part after it. -/
def strrchr (s : CString) (c : Char) : Option (CString × CString) :=
  if c ∈ s then
    some ((s.reverse.dropWhile (· ≠ c)).tail.reverse, (s.reverse.takeWhile (· ≠ c)).reverse)
  else none

@[simp] theorem strrchr_eq_none {s : CString} {c : Char} : strrchr s c = none ↔ c ∉ s := by
  unfold strrchr
  split_ifs with h <;> simp [h]

/-- `strrchr` splits the string. -/
theorem eq_of_strrchr {s before after : CString} {c : Char}
    (h : strrchr s c = some (before, after)) : s = before ++ c :: after := by
  unfold strrchr at h
  split_ifs at h with hmem
  obtain ⟨front, back, hsplit, hfront⟩ := List.eq_append_cons_of_mem (List.mem_reverse.mpr hmem)
  have hne : ∀ a ∈ front, decide (a ≠ c) = true := fun a ha =>
    decide_eq_true fun heq => hfront (heq ▸ ha)
  rw [hsplit, List.dropWhile_append_of_pos hne, List.takeWhile_append_of_pos hne,
    List.dropWhile_cons_of_neg (by simp), List.takeWhile_cons_of_neg (by simp), List.tail_cons,
    List.append_nil] at h
  obtain ⟨rfl, rfl⟩ := Prod.mk.inj (Option.some.inj h)
  rw [← List.reverse_reverse s, hsplit, List.reverse_append, List.reverse_cons, List.append_assoc]
  rfl

/-- A byte read through `int c = *str`: plain `char` is signed. -/
def signedChar (c : Char) : Int := if c.toNat < 128 then c.toNat else c.toNat - 256

/-- `_alpm_hash_sdbm`, in `unsigned long` arithmetic. -/
def hashSdbm (s : CString) : ℕ :=
  s.foldl (fun hash c => ((signedChar c + hash * 65599) % 2 ^ 64).toNat) 0

end Alpm
