import Alpm.Version.Transitivity
import Alpm.Package

/-!
# Version comparison against a reference

Two laws that hold without exception, beside the law of transitivity that does not.

## 1.  Exchanging the versions

Exchanging the arguments of `alpm_pkg_vercmp` changes the sign (`pkgVercmpPtr_swap`), for all
strings and for `NULL`.  It follows from the same law for words, since every stage is such a
comparison.

## 2.  Tokens

On strings that do not end in separators `rpmvercmp` is a comparison of token lists that is defined
here without reference to the code (`rpmvercmp_eq_compareTokens`).  In the reference numbers are
compared by their value.  The code compares the digits that are left without leading zeros, first by
their number and then bytewise, and never computes a value, so that it works for numbers of any
length; `decimalValue_lt_iff_of_dropZeros` says that this is the same.  A string that ends in
separators has a word that no token list has, which is why it is left out.
-/

namespace Alpm

open General

/-! ## Exchanging the arguments -/

theorem rpmvercmp_swap (a b : CString) : rpmvercmp b a = -rpmvercmp a b := by
  rw [rpmvercmp_eq_cmp, rpmvercmp_eq_cmp, Word.cmp_swap]

theorem pkgVercmp_swap (a b : CString) : pkgVercmp b a = -pkgVercmp a b := by
  by_cases hab : a = b
  · subst hab
    simp [pkgVercmp]
  · have hab' : strcmp a b ≠ 0 := fun h => hab (strcmp_eq_zero.mp h)
    have hba' : strcmp b a ≠ 0 := fun h => hab (strcmp_eq_zero.mp h).symm
    rw [pkgVercmp, pkgVercmp, if_neg hab', if_neg hba']
    simp only [rpmvercmp_swap (parseEVR a).epoch, rpmvercmp_swap (parseEVR a).version, ne_eq,
      neg_eq_zero]
    by_cases hepoch : rpmvercmp (parseEVR a).epoch (parseEVR b).epoch = 0
    · by_cases hversion : rpmvercmp (parseEVR a).version (parseEVR b).version = 0
      · rw [if_neg (not_not_intro hepoch), if_neg (not_not_intro hepoch),
          if_neg (not_not_intro hversion), if_neg (not_not_intro hversion), hversion]
        cases (parseEVR a).release <;> cases (parseEVR b).release
        · rfl
        · rfl
        · rfl
        · exact rpmvercmp_swap ..
      · rw [if_neg (not_not_intro hepoch), if_neg (not_not_intro hepoch), if_pos hversion,
          if_pos hversion]
    · rw [if_pos hepoch, if_pos hepoch]

/-- **Version comparison is antisymmetric**, also for `NULL` versions.  Each of the three stages
changes its sign, and a stage is decided by the same one of the two versions in both directions. -/
theorem pkgVercmpPtr_swap (a b : Option CString) : pkgVercmpPtr b a = -pkgVercmpPtr a b := by
  cases a <;> cases b
  · rfl
  · rfl
  · rfl
  · exact pkgVercmp_swap ..

/-! ## Tokens -/

/-- A token of a version: the number of separators before it, and a maximal run of digits
or of letters. -/
structure Token where
  seps : ℕ
  run : CString
  deriving DecidableEq, Repr

/-- The token is a run of digits. -/
def Token.isNumber (t : Token) : Bool := t.run.all isdigit

/-- The value of a run of decimal digits. -/
def decimalValue (run : CString) : ℕ := run.foldl (fun n c => n * 10 + (c.toNat - '0'.toNat)) 0

/-- The tokens of a version: its runs of digits and of letters, each with the number of separators
before it. -/
def tokens (s : CString) : List Token :=
  match _h : s.dropWhile (!isalnum ·) with
  | [] => []
  | c :: t =>
    ⟨(s.takeWhile (!isalnum ·)).length, (c :: t).takeWhile (segmentClass c)⟩ ::
      tokens ((c :: t).dropWhile (segmentClass c))
termination_by s.length
decreasing_by
  have h₁ := (List.dropWhile_suffix (l := s) (!isalnum ·)).length_le
  have h₂ := (List.dropWhile_suffix (l := t) (segmentClass c)).length_le
  rw [_h, List.length_cons] at h₁
  rw [List.dropWhile_cons, if_pos (segmentClass_self (isalnum_of_dropWhile _h))]
  omega

/-- The sign of the comparison of two numbers. -/
def compareNat (m n : ℕ) : Int := if m < n then -1 else if n < m then 1 else 0

/-- Fewer separators are older, then letters are older than digits, then numbers compare by
their value and letters bytewise. -/
def compareToken (s t : Token) : Int :=
  if s.seps ≠ t.seps then compareNat s.seps t.seps
  else if s.isNumber ≠ t.isNumber then (if s.isNumber then 1 else -1)
  else if s.isNumber then compareNat (decimalValue s.run) (decimalValue t.run)
  else strcmp s.run t.run

/-- The first differing token decides.  When one list has ended it is newer if the other
goes on with letters without a separator, and older otherwise. -/
def compareTokens : List Token → List Token → Int
  | [], [] => 0
  | [], t :: _ => if t.seps = 0 ∧ ¬ t.isNumber then 1 else -1
  | s :: _, [] => if s.seps = 0 ∧ ¬ s.isNumber then -1 else 1
  | s :: ss, t :: ts => if compareToken s t ≠ 0 then compareToken s t else compareTokens ss ts

/-! ## Numbers by their digits -/

theorem decimalValue_append (run run' : CString) :
    decimalValue (run ++ run') = decimalValue run * 10 ^ run'.length + decimalValue run' := by
  unfold decimalValue
  rw [List.foldl_append]
  generalize run.foldl _ 0 = m
  induction run' using List.reverseRecOn generalizing m with
  | nil => simp
  | append_singleton run' c ih =>
    rw [List.foldl_append, List.foldl_append, ih, List.length_append]
    simp only [List.foldl_cons, List.foldl_nil, List.length_singleton, pow_succ]
    ring

theorem decimalValue_cons (c : Char) (run : CString) :
    decimalValue (c :: run) = (c.toNat - '0'.toNat) * 10 ^ run.length + decimalValue run := by
  have h := decimalValue_append [c] run
  simpa [decimalValue] using h

theorem digit_bounds {c : Char} (h : isdigit c) : '0'.toNat ≤ c.toNat ∧ c.toNat ≤ '9'.toNat := by
  simp only [isdigit, Char.isDigit, Bool.and_eq_true, decide_eq_true_eq] at h
  have h₁ := UInt32.le_iff_toNat_le.mp h.1
  have h₂ := UInt32.le_iff_toNat_le.mp h.2
  exact ⟨h₁, h₂⟩

theorem decimalValue_lt {run : CString} (h : ∀ c ∈ run, isdigit c) :
    decimalValue run < 10 ^ run.length := by
  induction run with
  | nil => simp [decimalValue]
  | cons c run ih =>
    have hrun := ih fun d hd => h d (List.mem_cons_of_mem _ hd)
    have hc := digit_bounds (h c (List.mem_cons_self ..))
    have hc' : c.toNat - '0'.toNat ≤ 9 := by
      have : '9'.toNat = '0'.toNat + 9 := by decide
      omega
    have hmul := Nat.mul_le_mul_right (10 ^ run.length) hc'
    rw [decimalValue_cons, List.length_cons, pow_succ]
    omega

/-- Leading zeros do not count. -/
theorem decimalValue_dropZeros (run : CString) :
    decimalValue (run.dropWhile (· = '0')) = decimalValue run := by
  induction run with
  | nil => rfl
  | cons c run ih =>
    rw [List.dropWhile_cons]
    split_ifs with hc
    · rw [ih, decimalValue_cons]
      simp [of_decide_eq_true hc]
    · rfl

/-- A number without leading zeros has the value its length says. -/
theorem le_decimalValue {c : Char} {run : CString} (hc : isdigit c) (h0 : c ≠ '0') :
    10 ^ run.length ≤ decimalValue (c :: run) := by
  have hbounds := digit_bounds hc
  have hne : c.toNat ≠ '0'.toNat := fun h => h0 (Char.toNat_inj.mp h)
  have hpos : 1 ≤ c.toNat - '0'.toNat := by omega
  have := Nat.mul_le_mul_right (10 ^ run.length) hpos
  rw [decimalValue_cons]
  omega

/-- Digits of equal number compare bytewise like their values. -/
theorem decimalValue_lt_iff {run run' : CString} (h : ∀ c ∈ run, isdigit c)
    (h' : ∀ c ∈ run', isdigit c) (hlen : run.length = run'.length) :
    decimalValue run < decimalValue run' ↔ run < run' := by
  induction run generalizing run' with
  | nil =>
    obtain rfl := List.length_eq_zero_iff.mp hlen.symm
    simp
  | cons c run ih =>
    obtain ⟨d, run', rfl⟩ := List.exists_cons_of_length_eq_add_one hlen.symm
    rw [List.length_cons, List.length_cons, add_left_inj] at hlen
    have hrun : ∀ c ∈ run, isdigit c := fun e he => h e (List.mem_cons_of_mem _ he)
    have hrun' : ∀ c ∈ run', isdigit c := fun e he => h' e (List.mem_cons_of_mem _ he)
    have hc := digit_bounds (h c (List.mem_cons_self ..))
    have hd := digit_bounds (h' d (List.mem_cons_self ..))
    have hlt := decimalValue_lt hrun
    have hlt' := decimalValue_lt hrun'
    rw [decimalValue_cons, decimalValue_cons, List.cons_lt_cons_iff, ← ih hrun hrun' hlen, hlen]
    rw [hlen] at hlt
    generalize 10 ^ run'.length = p at *
    rcases lt_trichotomy c.toNat d.toNat with hcd | hcd | hcd
    · have hmul := Nat.mul_le_mul_right p
        (show c.toNat - '0'.toNat + 1 ≤ d.toNat - '0'.toNat by omega)
      rw [Nat.add_mul, one_mul] at hmul
      have hlt : c < d := Char.lt_def.mpr (UInt32.lt_iff_toNat_lt.mpr hcd)
      simp only [hlt, true_or, iff_true]
      omega
    · obtain rfl := Char.toNat_inj.mp hcd
      simp
    · have hmul := Nat.mul_le_mul_right p
        (show d.toNat - '0'.toNat + 1 ≤ c.toNat - '0'.toNat by omega)
      rw [Nat.add_mul, one_mul] at hmul
      have hgt : d < c := Char.lt_def.mpr (UInt32.lt_iff_toNat_lt.mpr hcd)
      simp only [hgt.not_gt, hgt.ne', false_and, or_self, iff_false]
      omega

/-- Numbers without leading zeros compare by their length, then bytewise. -/
theorem decimalValue_lt_iff_of_dropZeros {run run' : CString} (h : ∀ c ∈ run, isdigit c)
    (h' : ∀ c ∈ run', isdigit c) :
    decimalValue run < decimalValue run' ↔
      (run.dropWhile (· = '0')).length < (run'.dropWhile (· = '0')).length ∨
        (run.dropWhile (· = '0')).length = (run'.dropWhile (· = '0')).length ∧
          run.dropWhile (· = '0') < run'.dropWhile (· = '0') := by
  rw [← decimalValue_dropZeros run, ← decimalValue_dropZeros run']
  have hx : ∀ c ∈ run.dropWhile (· = '0'), isdigit c := fun c hc =>
    h c ((List.dropWhile_suffix _).subset hc)
  have hy : ∀ c ∈ run'.dropWhile (· = '0'), isdigit c := fun c hc =>
    h' c ((List.dropWhile_suffix _).subset hc)
  have hx0 : ∀ c t, run.dropWhile (· = '0') = c :: t → c ≠ '0' := fun c t hct => by
    have := List.head_dropWhile_not (l := run) (· = '0') (by simp [hct])
    simpa [hct] using this
  have hy0 : ∀ c t, run'.dropWhile (· = '0') = c :: t → c ≠ '0' := fun c t hct => by
    have := List.head_dropWhile_not (l := run') (· = '0') (by simp [hct])
    simpa [hct] using this
  generalize run.dropWhile (· = '0') = x at *
  generalize run'.dropWhile (· = '0') = y at *
  -- More digits make a larger number, as the first one is not a zero.
  have hlonger : ∀ {x y : CString}, (∀ c ∈ x, isdigit c) → (∀ c ∈ y, isdigit c) →
      (∀ c t, y = c :: t → c ≠ '0') → x.length < y.length →
      decimalValue x < decimalValue y := by
    intro x y hx hy hy0 hlt
    obtain ⟨c, t, rfl⟩ := List.exists_cons_of_ne_nil (List.ne_nil_of_length_pos (by omega :
      0 < y.length))
    rw [List.length_cons] at hlt
    calc
      decimalValue x < 10 ^ x.length := decimalValue_lt hx
      _ ≤ 10 ^ t.length := Nat.pow_le_pow_right (by decide) (by omega)
      _ ≤ decimalValue (c :: t) := le_decimalValue (hy c (List.mem_cons_self ..)) (hy0 c t rfl)
  rcases lt_trichotomy x.length y.length with hlt | heq | hgt
  · simp [hlt, hlonger hx hy hy0 hlt]
  · simp [heq, decimalValue_lt_iff hx hy heq]
  · have := hlonger hy hx hx0 hgt
    simp only [hgt.not_gt, hgt.ne', false_and, or_self, iff_false]
    omega

/-! ## Tokens and segments -/

/-- The segment that the code compares for a token. -/
def Token.segment (t : Token) : Segment :=
  ⟨t.seps, t.isNumber, if t.isNumber then t.run.dropWhile (· = '0') else t.run⟩

/-- The word of a list of tokens. -/
def tokenWord : List Token → Word Segment
  | [] => .stop
  | t :: ts => .cons t.segment (tokenWord ts)

theorem Token.isNumber_iff {t : Token} : t.isNumber ↔ ∀ c ∈ t.run, isdigit c :=
  List.all_eq_true

/-- A number is smaller as a segment exactly when its value is smaller. -/
theorem Token.segment_lt_iff {s t : Token} (hseps : s.seps = t.seps)
    (hs : s.isNumber) (ht : t.isNumber) :
    s.segment < t.segment ↔ decimalValue s.run < decimalValue t.run := by
  rw [decimalValue_lt_iff_of_dropZeros (Token.isNumber_iff.mp hs) (Token.isNumber_iff.mp ht),
    Segment.lt_iff]
  simp [Token.segment, hseps, hs, ht]

/-- Tokens compare like their segments. -/
theorem compareToken_eq (s t : Token) :
    compareToken s t =
      if s.segment < t.segment then -1 else if t.segment < s.segment then 1 else 0 := by
  unfold compareToken
  rcases lt_trichotomy s.seps t.seps with hseps | hseps | hseps
  · have hlt : s.segment < t.segment := Segment.lt_of_seps_lt hseps
    rw [if_pos hseps.ne, if_pos hlt, compareNat, if_pos hseps]
  · rw [if_neg (not_not_intro hseps)]
    cases hs : s.isNumber <;> cases ht : t.isNumber
    · have hlt : ∀ {s t : Token}, s.seps = t.seps → s.isNumber = false → t.isNumber = false →
          (s.segment < t.segment ↔ s.run < t.run) := by
        intro s t hseps hs ht
        simp [Segment.lt_iff, Token.segment, hseps, hs, ht]
      simp only [hlt hseps hs ht, hlt hseps.symm ht hs, ne_eq, not_true_eq_false, if_false,
        Bool.false_eq_true]
      exact strcmp_eq _ _
    · have hlt : s.segment < t.segment :=
        Segment.lt_iff.mpr (Or.inr ⟨hseps, Or.inl (by simp [Token.segment, hs, ht])⟩)
      simp [hlt]
    · have hlt : t.segment < s.segment :=
        Segment.lt_iff.mpr (Or.inr ⟨hseps.symm, Or.inl (by simp [Token.segment, hs, ht])⟩)
      simp [hlt, hlt.asymm]
    · simp only [Token.segment_lt_iff hseps hs ht, Token.segment_lt_iff hseps.symm ht hs, ne_eq,
        not_true_eq_false, if_false, if_true]
      rfl
  · have hlt : t.segment < s.segment := Segment.lt_of_seps_lt hseps
    rw [if_pos hseps.ne', if_neg hlt.asymm, if_pos hlt, compareNat, if_neg hseps.asymm,
      if_pos hseps]

/-- Token lists compare like their words. -/
theorem compareTokens_eq_cmp :
    ∀ ss ts : List Token,
      compareTokens ss ts = Word.cmp versionMarks (tokenWord ss) (tokenWord ts)
  | [], [] => rfl
  | [], t :: ts => by
    simp [compareTokens, tokenWord, Word.cmp, versionMarks, Token.segment]
  | s :: ss, [] => by
    simp [compareTokens, tokenWord, Word.cmp, versionMarks, Token.segment]
  | s :: ss, t :: ts => by
    rw [compareTokens, tokenWord, tokenWord, Word.cmp, compareToken_eq,
      ← compareTokens_eq_cmp ss ts]
    split_ifs <;> simp_all

theorem compareTokens_eq_zero :
    ∀ {ss ts : List Token}, compareTokens ss ts = 0 ↔
      List.Forall₂ (fun s t => compareToken s t = 0) ss ts
  | [], [] => by simp [compareTokens]
  | [], t :: ts => by
    rw [compareTokens]
    split_ifs <;> simp
  | s :: ss, [] => by
    rw [compareTokens]
    split_ifs <;> simp
  | s :: ss, t :: ts => by
    rw [compareTokens, List.forall₂_cons, ← compareTokens_eq_zero]
    split_ifs with h
    · simp [h]
    · simp [not_not.mp h]

/-! ## The tokens of a version -/

/-- The string does not end in a separator. -/
def EndsInAlnum (s : CString) : Prop := ∀ c ∈ s.getLast?, isalnum c

theorem EndsInAlnum.of_suffix {s t : CString} (hs : EndsInAlnum s) (h : t <:+ s) :
    EndsInAlnum t := by
  obtain ⟨u, rfl⟩ := h
  intro c hc
  exact hs c (by simp [List.getLast?_append, Option.mem_def.mp hc])

theorem EndsInAlnum.dropWhile_ne_nil {s : CString} (hs : EndsInAlnum s) (hne : s ≠ []) :
    s.dropWhile (!isalnum ·) ≠ [] := by
  intro h
  have hlast := List.dropWhile_eq_nil_iff.mp h _ (List.getLast_mem hne)
  simp [hs _ (List.getLast?_eq_some_getLast hne)] at hlast

@[simp] theorem tokens_nil : tokens [] = [] := by
  rw [tokens]
  rfl

theorem tokens_eq_cons {s : CString} {c : Char} {t : CString}
    (h : s.dropWhile (!isalnum ·) = c :: t) :
    tokens s = ⟨(s.takeWhile (!isalnum ·)).length, (c :: t).takeWhile (segmentClass c)⟩ ::
      tokens ((c :: t).dropWhile (segmentClass c)) := by
  rw [tokens]
  split
  · rename_i h'
    simp [h] at h'
  · rename_i h'
    obtain ⟨rfl, rfl⟩ := List.cons.inj (h.symm.trans h')
    rfl

/-- A run is a number if its first byte is a digit. -/
theorem all_isdigit_takeWhile {c : Char} (hc : isalnum c) (t : CString) :
    ((c :: t).takeWhile (segmentClass c)).all isdigit = isdigit c := by
  cases hd : isdigit c
  · rw [List.takeWhile_cons, if_pos (segmentClass_self hc)]
    simp [hd]
  · rw [List.all_eq_true]
    intro d hd'
    simpa [segmentClass, hd] using List.mem_takeWhile_imp hd'

/-- The segments of a version that does not end in a separator are those of its tokens. -/
theorem segments_eq_tokenWord {s : CString} (hs : EndsInAlnum s) :
    segments s = tokenWord (tokens s) := by
  induction hn : s.length using Nat.strong_induction_on generalizing s with
  | _ n ih =>
  by_cases hne : s = []
  · subst hne
    simp [tokenWord]
  obtain ⟨c, t, h⟩ := List.exists_cons_of_ne_nil (hs.dropWhile_ne_nil hne)
  have hc := isalnum_of_dropWhile h
  have hsuffix : (c :: t).dropWhile (segmentClass c) <:+ s :=
    (List.dropWhile_suffix _).trans (h ▸ List.dropWhile_suffix _)
  have hlen : ((c :: t).dropWhile (segmentClass c)).length < n := by
    have h₁ := (List.dropWhile_suffix (l := t) (segmentClass c)).length_le
    have h₂ := (List.dropWhile_suffix (l := s) (!isalnum ·)).length_le
    rw [h, List.length_cons] at h₂
    rw [List.dropWhile_cons, if_pos (segmentClass_self hc)]
    omega
  have hseps : s.length - (c :: t).length = (s.takeWhile (!isalnum ·)).length := by
    have := congrArg List.length (List.takeWhile_append_dropWhile (p := (!isalnum ·)) (l := s))
    rw [List.length_append, h] at this
    omega
  rw [segments_eq_cons h, tokens_eq_cons h, tokenWord, ih _ hlen (hs.of_suffix hsuffix) rfl]
  simp only [Token.segment, Token.isNumber, all_isdigit_takeWhile hc, segmentText, hseps]

/-- **`rpmvercmp` is the order of the token lists**, for strings that do not end in a separator.
The loop of the code is a comparison of segment words, these words are the token lists with their
numbers written out, and numbers without leading zeros compare by their lengths and then by their
digits. -/
theorem rpmvercmp_eq_compareTokens {a b : CString} (ha : EndsInAlnum a) (hb : EndsInAlnum b) :
    rpmvercmp a b = compareTokens (tokens a) (tokens b) ∧
      (rpmvercmp a b = 0 ↔
        List.Forall₂ (fun s t => compareToken s t = 0) (tokens a) (tokens b)) := by
  have h : rpmvercmp a b = compareTokens (tokens a) (tokens b) := by
    rw [rpmvercmp_eq_cmp, segments_eq_tokenWord ha, segments_eq_tokenWord hb,
      compareTokens_eq_cmp]
  exact ⟨h, h ▸ compareTokens_eq_zero⟩

theorem rpmvercmp_eq_compareTokens_alpha :
    (EndsInAlnum (str "1.0") ∧ EndsInAlnum (str "1.0a")) ∧
      rpmvercmp (str "1.0") (str "1.0a") =
          compareTokens (tokens (str "1.0")) (tokens (str "1.0a")) ∧
        (rpmvercmp (str "1.0") (str "1.0a") = 0 ↔
          List.Forall₂ (fun s t => compareToken s t = 0) (tokens (str "1.0"))
            (tokens (str "1.0a"))) := by
  have ha : EndsInAlnum (str "1.0") := by
    simp [EndsInAlnum, str]
    decide
  have hb : EndsInAlnum (str "1.0a") := by
    simp [EndsInAlnum, str]
    decide
  exact ⟨⟨ha, hb⟩, rpmvercmp_eq_compareTokens ha hb⟩

end Alpm
