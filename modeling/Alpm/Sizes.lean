import Alpm.LocalDb

/-!
# The sizes in the databases

`_alpm_strtoofft` reads the line of a `%CSIZE%` or `%ISIZE%` entry of a sync database and of a
`%SIZE%` entry of the local one.

It reads an `unsigned long long` and returns an `off_t`.  So it gives the number that the digits of
the line denote, or `-1`, but for the numbers from `2 ^ 63` to `2 ^ 64 - 2`, which fit in the one
and not in the other (`strtoofft_iff`).  The number `2 ^ 64 - 1` wraps as well, and gives `-1`,
which is what an error gives; from `2 ^ 64` on `strtoull` reports that the number does not fit.

The condition `Wraps` is on the line.  The theorem has two halves: the function itself, and the
fields of a package after an entry with the line, in both databases, so that it is seen that nothing
between the two catches the value.
-/

namespace Alpm

/-! ## The number of a line -/

/-- The line is a bare number. -/
def IsNumber (line : CString) : Prop := line ≠ [] ∧ ∀ c ∈ line, isdigit c

instance (line : CString) : Decidable (IsNumber line) := inferInstanceAs (Decidable (_ ∧ _))

/-- The number of a line, if there is one and an `off_t` can hold it. -/
def exactSize (line : CString) : Int :=
  if IsNumber line ∧ digitsValue line < 2 ^ 63 then digitsValue line else -1

/-- The number of the line fits in an `unsigned long long`, and not in an `off_t`.  The largest
such number is `-1` as an `off_t`, which is what an error gives. -/
def Wraps (line : CString) : Prop :=
  IsNumber line ∧ 2 ^ 63 ≤ digitsValue line ∧ digitsValue line < 2 ^ 64 - 1

theorem strtoofft_of_isNumber {line : CString} (h : IsNumber line) :
    strtoofft line =
      if digitsValue line < 2 ^ 63 then (digitsValue line : Int)
      else if digitsValue line < 2 ^ 64 then (digitsValue line : Int) - 2 ^ 64 else -1 := by
  obtain ⟨hne, hdigits⟩ := h
  obtain ⟨c, rest, rfl⟩ := List.exists_cons_of_ne_nil hne
  have htake : (c :: rest).takeWhile isdigit = c :: rest := List.takeWhile_eq_self_iff.mpr hdigits
  have hdrop : (c :: rest).dropWhile isdigit = [] := List.dropWhile_eq_nil_iff.mpr hdigits
  have hfirst : isdigit (deref (c :: rest)) = true := hdigits c (List.mem_cons_self ..)
  rw [strtoofft, strtoull, htake, hdrop, if_neg (by rw [hfirst]; decide)]
  by_cases hlong : digitsValue (c :: rest) < 2 ^ 64
  · rw [if_pos hlong, if_pos hlong]
  · rw [if_neg hlong, if_neg hlong, if_neg (by omega)]

theorem strtoofft_of_not_isNumber {line : CString} (h : ¬ IsNumber line) :
    strtoofft line = -1 := by
  unfold strtoofft
  split_ifs with hfirst
  · rfl
  have hne : line ≠ [] := by
    rintro rfl
    exact hfirst rfl
  have hjunk : line.dropWhile isdigit ≠ [] := fun hnil =>
    h ⟨hne, List.dropWhile_eq_nil_iff.mp hnil⟩
  rw [strtoull]
  split
  next heq => exact absurd (Prod.mk.inj heq).2 hjunk
  · rfl
  · rfl

/-- What is not the number of the line or `-1` has wrapped around. -/
theorem strtoofft_eq (line : CString) :
    strtoofft line = -1 ∨ (IsNumber line ∧ strtoofft line = digitsValue line) ↔ ¬ Wraps line := by
  by_cases h : IsNumber line
  · rw [strtoofft_of_isNumber h, Wraps]
    split_ifs with hsize hlong
    · simp only [h, true_and, or_true, true_iff]
      omega
    · simp only [h, true_and]
      omega
    · simp only [h, true_and, true_or, true_iff]
      omega
  · rw [strtoofft_of_not_isNumber h]
    exact iff_of_true (Or.inl rfl) fun hwraps => h hwraps.1

theorem strtoofft_eq_exactSize (line : CString) :
    strtoofft line = exactSize line ↔ ¬ Wraps line := by
  rw [exactSize]
  by_cases h : IsNumber line
  · rw [strtoofft_of_isNumber h, Wraps]
    simp only [h, true_and]
    split_ifs with hsize hlong
    · exact iff_of_true rfl (by omega)
    · omega
    · exact iff_of_true rfl (by omega)
  · rw [strtoofft_of_not_isNumber h, if_neg fun hnumber => h hnumber.1]
    exact iff_of_true rfl fun hwraps => h hwraps.1

/-! ## The entries -/

/-- The package after an entry of a sync database with one line. -/
def syncEntry (heading line : CString) (pkg : Pkg) : Pkg :=
  match sectionOf heading with
  | some (.store f) => f pkg line
  | _ => pkg

/-- The package after an entry of the local database with one line. -/
def localEntry (heading line : CString) (pkg : Pkg) : Pkg :=
  match LocalDb.sectionOf heading with
  | some (.store f) => f pkg line
  | _ => pkg

/-- The sizes that entries with this line give to a package. -/
def entrySizes (pkg : Pkg) (line : CString) : List Int :=
  [(syncEntry (str "%CSIZE%") line pkg).size, (syncEntry (str "%ISIZE%") line pkg).isize,
    (localEntry (str "%SIZE%") line pkg).isize]

theorem entrySizes_eq (pkg : Pkg) (line : CString) :
    entrySizes pkg line = List.replicate 3 (strtoofft line) := rfl

/-- **The size of a line.**  It is the number that the line denotes, or `-1` for a line that is not
a number of an `off_t`, if and only if the number does not wrap around; and so is the size that an
entry of a database with this line gives to a package. -/
theorem strtoofft_iff (pkg : Pkg) (line : CString) :
    (strtoofft line = exactSize line ↔ ¬ Wraps line) ∧
      ((∀ size ∈ entrySizes pkg line,
        size = -1 ∨ (IsNumber line ∧ size = digitsValue line)) ↔ ¬ Wraps line) := by
  refine ⟨strtoofft_eq_exactSize line, ?_⟩
  rw [entrySizes_eq, ← strtoofft_eq]
  simp

/-- The first number that does not fit in an `off_t` is read as the smallest one. -/
theorem strtoofft_wraps : ¬ ∀ line, strtoofft line = exactSize line := by
  intro h
  have hnumber : IsNumber (str "9223372036854775808") :=
    ⟨by decide, List.all_eq_true.mp (by decide +kernel)⟩
  have hvalue : digitsValue (str "9223372036854775808") = 9223372036854775808 := by decide +kernel
  have heq := h (str "9223372036854775808")
  rw [strtoofft_of_isNumber hnumber, exactSize, hvalue] at heq
  norm_num at heq

end Alpm
