import Alpm.CString

/-!
# Lines and numbers

The helpers of `util.c` that the readers of the databases use on a single line.

`_alpm_strip_newline` cuts newlines from the end of a line.  `_alpm_strtoofft` and `_alpm_parsedate`
read a whole number and give `-1` or `0` for a line that is not one.  Both are written with
functions of the C library, `strtoull` and `strtoll`, which are modelled on a line with what they
report: the value, whether it fits, and where the number ends.  What `_alpm_strtoofft` makes of a
number that fits in an `unsigned long long` and not in an `off_t` is kept as the code has it, a
conversion that wraps; when that matters is the subject of `Alpm.Sizes`.
-/

namespace Alpm

/-- `_alpm_strip_newline`: what is left of the string; its length is the return value. -/
def stripNewline (str : CString) : CString := str.rdropWhile (· = '\n')

/-- The value of a run of decimal digits. -/
def digitsValue (digits : CString) : ℕ := Nat.ofDigitChars 10 digits 0

/-- `strtoull` in base 10, for a line that begins with a digit: the value, if it fits in
`unsigned long long`, and `end`. -/
def strtoull (line : CString) : Option ℕ × CString :=
  let result := digitsValue (line.takeWhile isdigit)
  (if result < 2 ^ 64 then some result else none, line.dropWhile isdigit)

/-- `_alpm_strtoofft`.  A number from `2 ^ 63` on does not fit in `off_t` and wraps. -/
def strtoofft (line : CString) : Int :=
  if !isdigit (deref line) then -1
  else
    match strtoull line with
    | (some result, []) => if result < 2 ^ 63 then result else result - 2 ^ 64
    | (some _, _ :: _) => -1
    | (none, _) => -1

/-- `isspace` in the C locale. -/
def isspace (c : Char) : Bool :=
  c = ' ' || c = '\t' || c = '\n' || c = '\x0b' || c = '\x0c' || c = '\r'

/-- `strtoll` in base 10: the value, if it fits in `long long`, and `end`. -/
def strtoll (line : CString) : Option Int × CString :=
  let unspaced := line.dropWhile isspace
  let (negative, number) : Bool × CString :=
    match unspaced with
    | '-' :: number => (true, number)
    | '+' :: number => (false, number)
    | number => (false, number)
  let magnitude : Int := digitsValue (number.takeWhile isdigit)
  let result := if negative then -magnitude else magnitude
  -- without a digit nothing is converted and `end` is the whole line
  if number.takeWhile isdigit = [] then (some 0, line)
  else (if -2 ^ 63 ≤ result ∧ result < 2 ^ 63 then some result else none,
    number.dropWhile isdigit)

/-- `_alpm_parsedate`. -/
def parsedate (line : CString) : Int :=
  match strtoll line with
  | (some result, []) => result
  | (some _, _ :: _) => 0
  | (none, _) => 0

/-- A line has no newline to strip. -/
theorem stripNewline_of_notMem {str : CString} (h : '\n' ∉ str) : stripNewline str = str := by
  unfold stripNewline
  rw [List.rdropWhile_eq_self_iff]
  intro hne hlast
  exact h (by simpa using (of_decide_eq_true hlast) ▸ List.getLast_mem hne)

end Alpm
