import Alpm.Files.Filelist

/-!
# The intersection of two file lists

`_alpm_filelist_intersection` advances by `_alpm_filelist_pathcmp`, but the lists are sorted by
`strcmp`.

## 1.  Two orders

The two orders do not agree: `foo-bar` comes before `foo/` in a list, because a hyphen is a smaller
byte than a slash, and after `foo` in the walk, in which the slash does not count.  So the walk
passes over `foo` before it meets `foo/` (`filelistIntersection_misses_foo`), and a file in one
package and a directory of the same name in the other are not reported as a conflict.

## 2.  When the walk finds every clash

What should be found are the entries of the first list that clash with one of the second
(`clashes`). A walk finds nothing else (`filelistIntersection_sublist`), and it finds all of them if
and only if none of its steps passes over an entry that still clashes with one further on
(`filelistIntersection_eq_iff`).  That is a condition on the steps, `WalkKeeps`.

## 3.  ASCII names

For bytes below `128` the comparison on different paths is that of `strcmp`, so a step can only go
wrong where a file meets a directory, and the condition becomes one on the two lists: nothing may
stand between a file and the directory of the same path (`walkKeeps_iff`).  For other bytes the
comparison is not even an order that the lists are sorted by, and the condition on the steps is all
there is.
-/

namespace Alpm

/-! ## Statements -/

/-- The bytes of a C string. -/
def IsBytes (path : CString) : Prop := ∀ c ∈ path, 0 < c.toNat ∧ c.toNat < 256

/-- Bytes that plain `char` does not make negative. -/
def IsAscii (path : CString) : Prop := ∀ c ∈ path, 0 < c.toNat ∧ c.toNat < 128

/-- Two paths are equal up to a trailing slash of one of them. -/
def SamePath (a b : CString) : Prop := a = b ∨ a = b ++ ['/'] ∨ b = a ++ ['/']

instance (a b : CString) : Decidable (SamePath a b) := inferInstanceAs (Decidable (_ ∨ _ ∨ _))

/-- Two entries clash: the same path, and not twice a directory.  A directory may be in any number
of packages, and a file or a link in one only. -/
def Clash (a b : CString) : Prop := SamePath a b ∧ ¬ (hasSlash a ∧ hasSlash b)

instance (a b : CString) : Decidable (Clash a b) := inferInstanceAs (Decidable (_ ∧ _))

/-- The entries of the first list that clash with one of the second. -/
def clashes (filesA filesB : List CString) : List CString :=
  filesA.filter fun a => ∃ b ∈ filesB, Clash a b

/-- No step of the walk passes over an entry that still clashes with one further on. -/
def WalkKeeps : List CString → List CString → Prop
  | [], _ => True
  | _, [] => True
  | a :: filesA, b :: filesB =>
    let cmp := filelistPathcmp a b
    if cmp < 0 then (∀ b' ∈ filesB, ¬ Clash a b') ∧ WalkKeeps filesA (b :: filesB)
    else if cmp > 0 then
      (∀ a' ∈ filesA, Clash a' b → ∃ b' ∈ filesB, Clash a' b') ∧ WalkKeeps (a :: filesA) filesB
    else
      (¬ Clash a b → ∀ b' ∈ filesB, ¬ Clash a b') ∧
        (∀ a' ∈ filesA, Clash a' b → ∃ b' ∈ filesB, Clash a' b') ∧ WalkKeeps filesA filesB
  termination_by filesA filesB => filesA.length + filesB.length

/-- Nothing stands between a file and the directory of the same path: in the list that has
the directory if the other one has the file, and in the other one if it has the directory
only. -/
def NoneBetween (filesA filesB : List CString) : Prop :=
  ∀ x, ¬ hasSlash x →
    (x ++ ['/'] ∈ filesA → x ∈ filesB → ∀ a ∈ filesA, x ≤ a → ¬ a < x ++ ['/']) ∧
    (x ∈ filesA → x ++ ['/'] ∈ filesB → x ∉ filesB → ∀ b ∈ filesB, x < b → ¬ b < x ++ ['/'])

/-! ## The comparison -/

theorem IsAscii.isBytes {path : CString} (h : IsAscii path) : IsBytes path :=
  fun c hc => ⟨(h c hc).1, (h c hc).2.trans (by omega)⟩

theorem signedChar_inj {a b : Char} (ha : a.toNat < 256) (hb : b.toNat < 256)
    (h : signedChar a = signedChar b) : a = b := by
  unfold signedChar at h
  have hnat : a.toNat = b.toNat := by
    split_ifs at h <;> omega
  exact Char.toNat_inj.mp hnat

theorem signedChar_ne_zero {c : Char} (hpos : 0 < c.toNat) (hlt : c.toNat < 256) :
    signedChar c ≠ 0 := by
  unfold signedChar
  split_ifs <;> omega

@[simp] theorem signedChar_nul : signedChar '\x00' = 0 := rfl

theorem samePath_cons {c : Char} {a b : CString} :
    SamePath (c :: a) (c :: b) ↔ SamePath a b := by
  simp [SamePath]

theorem not_samePath_cons {c d : Char} (h : c ≠ d) (a b : CString) :
    ¬ SamePath (c :: a) (d :: b) := by
  simp [SamePath, h, Ne.symm h]

theorem samePath_nil_cons {c : Char} {p : CString} : SamePath [] (c :: p) ↔ c = '/' ∧ p = [] := by
  simp [SamePath]

theorem samePath_cons_nil {c : Char} {p : CString} : SamePath (c :: p) [] ↔ c = '/' ∧ p = [] := by
  simp [SamePath]

/-- The end of a path that goes on after the slash, or goes on without one. -/
theorem deref_isBytes {p : CString} (h : IsBytes p) : signedChar (deref p) = 0 ↔ p = [] := by
  cases p with
  | nil => simp
  | cons c p =>
    obtain ⟨hpos, hlt⟩ := h c (List.mem_cons_self ..)
    simp [signedChar_ne_zero hpos hlt]

theorem pathcmpRest_nil_cons (c : Char) (p : CString) :
    pathcmpRest [] (c :: p) = - signedChar (if c = '/' then deref p else c) := by
  by_cases hc : c = '/'
  · subst hc
    simp [pathcmpRest]
  · rw [if_neg hc]
    simp [pathcmpRest, hc]

theorem pathcmpRest_cons_nil (c : Char) (p : CString) :
    pathcmpRest (c :: p) [] = signedChar (if c = '/' then deref p else c) := by
  by_cases hc : c = '/'
  · subst hc
    simp [pathcmpRest]
  · rw [if_neg hc]
    simp [pathcmpRest, hc]

/-- What follows the end of the shorter path is its slash. -/
theorem signedChar_rest {c : Char} {p : CString} (h : IsBytes (c :: p)) :
    signedChar (if c = '/' then deref p else c) = 0 ↔ c = '/' ∧ p = [] := by
  obtain ⟨hpos, hlt⟩ := h c (List.mem_cons_self ..)
  have hrest := deref_isBytes (p := p) fun d hd => h d (List.mem_cons_of_mem _ hd)
  by_cases hc : c = '/'
  · rw [if_pos hc, hrest]
    simp [hc]
  · simp [hc, signedChar_ne_zero hpos hlt]

/-- `_alpm_filelist_pathcmp` says which paths are the same. -/
theorem filelistPathcmp_eq_zero {a b : CString} (ha : IsBytes a) (hb : IsBytes b) :
    filelistPathcmp a b = 0 ↔ SamePath a b := by
  fun_induction filelistPathcmp a b with
  | case1 c p1 p2 ih =>
    rw [samePath_cons]
    exact ih (fun d hd => ha d (List.mem_cons_of_mem _ hd))
      fun d hd => hb d (List.mem_cons_of_mem _ hd)
  | case2 c p1 d p2 hne =>
    refine iff_of_false (fun h => hne ?_) (not_samePath_cons hne p1 p2)
    refine signedChar_inj (ha c (List.mem_cons_self ..)).2 (hb d (List.mem_cons_self ..)).2 ?_
    simpa [pathcmpRest, sub_eq_zero] using h
  | case3 p1 p2 hends =>
    cases p1 with
    | nil =>
      cases p2 with
      | nil => simp [pathcmpRest, SamePath]
      | cons d p2 => rw [pathcmpRest_nil_cons, neg_eq_zero, signedChar_rest hb, samePath_nil_cons]
    | cons c p1 =>
      cases p2 with
      | nil => rw [pathcmpRest_cons_nil, signedChar_rest ha, samePath_cons_nil]
      | cons d p2 => exact absurd rfl (hends c p1 d p2 rfl)

theorem signedChar_ascii {c : Char} (h : c.toNat < 128) : signedChar c = c.toNat := if_pos h

theorem signedChar_rest_nonneg {c : Char} {p : CString} (h : IsAscii (c :: p)) :
    0 ≤ signedChar (if c = '/' then deref p else c) := by
  have hall : ∀ d ∈ c :: p, 0 ≤ signedChar d := by
    intro d hd
    rw [signedChar_ascii (h d hd).2]
    exact Int.natCast_nonneg _
  split_ifs
  · cases p with
    | nil => exact le_rfl
    | cons d p => exact hall d (by simp)
  · exact hall c (List.mem_cons_self ..)

/-- On different paths of ASCII bytes the comparison is that of `strcmp`. -/
theorem filelistPathcmp_lt_zero {a b : CString} (ha : IsAscii a) (hb : IsAscii b)
    (hne : ¬ SamePath a b) : filelistPathcmp a b < 0 ↔ a < b := by
  fun_induction filelistPathcmp a b with
  | case1 c p1 p2 ih =>
    rw [samePath_cons] at hne
    rw [List.cons_lt_cons_iff]
    simpa using ih (fun d hd => ha d (List.mem_cons_of_mem _ hd))
      (fun d hd => hb d (List.mem_cons_of_mem _ hd)) hne
  | case2 c p1 d p2 hcd =>
    have hc := signedChar_ascii (ha c (List.mem_cons_self ..)).2
    have hd := signedChar_ascii (hb d (List.mem_cons_self ..)).2
    have hlt : c < d ↔ c.toNat < d.toNat := Iff.rfl
    rw [List.cons_lt_cons_iff]
    simp only [pathcmpRest, deref_cons, hc, hd, hcd, false_and, or_false, hlt]
    omega
  | case3 p1 p2 hends =>
    cases p1 with
    | nil =>
      cases p2 with
      | nil => exact absurd (Or.inl rfl) hne
      | cons d p2 =>
        have hzero := (signedChar_rest hb.isBytes).not.mpr (samePath_nil_cons.not.mp hne)
        have hnonneg := signedChar_rest_nonneg hb
        rw [pathcmpRest_nil_cons]
        refine iff_of_true ?_ (List.nil_lt_cons ..)
        omega
    | cons c p1 =>
      cases p2 with
      | nil =>
        have hnonneg := signedChar_rest_nonneg ha
        rw [pathcmpRest_cons_nil]
        refine iff_of_false ?_ (List.not_lt_nil _)
        omega
      | cons d p2 => exact absurd rfl (hends c p1 d p2 rfl)

/-! ## The walk -/

theorem samePath_of_pathcmp_ne {a b : CString} (ha : IsBytes a) (hb : IsBytes b)
    (h : filelistPathcmp a b ≠ 0) : ¬ Clash a b :=
  fun hclash => h ((filelistPathcmp_eq_zero ha hb).mpr hclash.1)

theorem clashes_cons (a : CString) (filesA filesB : List CString) :
    clashes (a :: filesA) filesB =
      if ∃ b ∈ filesB, Clash a b then a :: clashes filesA filesB else clashes filesA filesB := by
  unfold clashes
  rw [List.filter_cons]
  simp only [decide_eq_true_eq]

/-- An entry of the second list that no clash of the first needs may go. -/
theorem clashes_of_kept {filesA filesB : List CString} {b : CString}
    (h : ∀ a ∈ filesA, Clash a b → ∃ b' ∈ filesB, Clash a b') :
    clashes filesA (b :: filesB) = clashes filesA filesB := by
  refine List.filter_congr fun a ha => ?_
  rw [decide_eq_decide]
  constructor
  · rintro ⟨b', hb', hclash⟩
    rcases List.mem_cons.mp hb' with rfl | hb'
    · exact h a ha hclash
    · exact ⟨b', hb', hclash⟩
  · rintro ⟨b', hb', hclash⟩
    exact ⟨b', List.mem_cons_of_mem _ hb', hclash⟩

theorem clashes_sublist_right (filesA filesB : List CString) (b : CString) :
    (clashes filesA filesB).Sublist (clashes filesA (b :: filesB)) := by
  refine List.monotone_filter_right _ fun a h => ?_
  obtain ⟨b', hb', hclash⟩ := of_decide_eq_true h
  exact decide_eq_true ⟨b', List.mem_cons_of_mem _ hb', hclash⟩

theorem clashes_sublist_left (a : CString) (filesA filesB : List CString) :
    (clashes filesA filesB).Sublist (clashes (a :: filesA) filesB) :=
  (List.sublist_cons_self a filesA).filter _

/-- Only clashes with the entry itself are lost with an entry of the second list. -/
theorem eq_clashes_cons_iff {found filesA filesB : List CString} {b : CString}
    (hsub : found.Sublist (clashes filesA filesB)) :
    found = clashes filesA (b :: filesB) ↔
      (∀ a ∈ filesA, Clash a b → ∃ b' ∈ filesB, Clash a b') ∧ found = clashes filesA filesB := by
  constructor
  · rintro rfl
    have heq := hsub.antisymm (clashes_sublist_right filesA filesB b)
    refine ⟨fun a ha hclash => ?_, heq⟩
    have hmem : a ∈ clashes filesA (b :: filesB) :=
      List.mem_filter.mpr ⟨ha, decide_eq_true ⟨b, List.mem_cons_self .., hclash⟩⟩
    rw [heq] at hmem
    exact of_decide_eq_true (List.mem_filter.mp hmem).2
  · rintro ⟨hkept, rfl⟩
    exact (clashes_of_kept hkept).symm

/-- The walk finds nothing but clashes. -/
theorem filelistIntersection_sublist {filesA filesB : List CString}
    (hA : ∀ a ∈ filesA, IsBytes a) (hB : ∀ b ∈ filesB, IsBytes b) :
    (filelistIntersection filesA filesB).Sublist (clashes filesA filesB) := by
  fun_induction filelistIntersection filesA filesB with
  | case1 => exact List.nil_sublist _
  | case2 => exact List.nil_sublist _
  | case3 a filesA b filesB cmp hlt ih =>
    exact (ih (List.forall_mem_cons.mp hA).2 hB).trans (clashes_sublist_left a filesA _)
  | case4 a filesA b filesB cmp hlt hgt ih =>
    exact (ih hA (List.forall_mem_cons.mp hB).2).trans (clashes_sublist_right _ filesB b)
  | case5 a filesA b filesB cmp hlt hgt hfile ih =>
    have hclash : Clash a b := by
      refine ⟨(filelistPathcmp_eq_zero (hA a (List.mem_cons_self ..))
        (hB b (List.mem_cons_self ..))).mp (by omega), ?_⟩
      simpa [imp_iff_not_or] using hfile
    rw [clashes_cons, if_pos ⟨b, List.mem_cons_self .., hclash⟩]
    exact ((ih (List.forall_mem_cons.mp hA).2 (List.forall_mem_cons.mp hB).2).trans
      (clashes_sublist_right filesA filesB b)).cons_cons a
  | case6 a filesA b filesB cmp hlt hgt hdirs ih =>
    exact ((ih (List.forall_mem_cons.mp hA).2 (List.forall_mem_cons.mp hB).2).trans
      (clashes_sublist_right filesA filesB b)).trans (clashes_sublist_left a filesA _)

/-- A clash that is passed over is missing in what is found. -/
theorem ne_clashes_cons {found filesA filesB : List CString} {a : CString}
    (hsub : found.Sublist (clashes filesA filesB)) (hclash : ∃ b ∈ filesB, Clash a b) :
    found ≠ clashes (a :: filesA) filesB := by
  rintro rfl
  rw [clashes_cons, if_pos hclash] at hsub
  have hlength := hsub.length_le
  rw [List.length_cons] at hlength
  omega

/-- **The walk finds every clash** if and only if no step passes over one.  An entry that is passed
over is never looked at again, so a clash that it has further on is missing in the result. -/
theorem filelistIntersection_eq_iff {filesA filesB : List CString}
    (hA : ∀ a ∈ filesA, IsBytes a) (hB : ∀ b ∈ filesB, IsBytes b) :
    filelistIntersection filesA filesB = clashes filesA filesB ↔ WalkKeeps filesA filesB := by
  fun_induction filelistIntersection filesA filesB with
  | case1 filesB => simp [WalkKeeps, clashes]
  | case2 filesA hne =>
    rw [WalkKeeps]
    · simp [clashes]
    · exact hne
  | case3 a filesA b filesB cmp hlt ih =>
    have hA' := (List.forall_mem_cons.mp hA).2
    have hnot : ¬ Clash a b := samePath_of_pathcmp_ne (hA a (List.mem_cons_self ..))
      (hB b (List.mem_cons_self ..)) hlt.ne
    rw [WalkKeeps, if_pos hlt, ← ih hA' hB]
    by_cases hclash : ∃ b' ∈ b :: filesB, Clash a b'
    · refine iff_of_false (ne_clashes_cons (filelistIntersection_sublist hA' hB) hclash) ?_
      rintro ⟨hkept, -⟩
      obtain ⟨b', hb', hclash⟩ := hclash
      rcases List.mem_cons.mp hb' with rfl | hb'
      · exact hnot hclash
      · exact hkept b' hb' hclash
    · rw [clashes_cons, if_neg hclash]
      exact (and_iff_right fun b' hb' h => hclash ⟨b', List.mem_cons_of_mem _ hb', h⟩).symm
  | case4 a filesA b filesB cmp hlt hgt ih =>
    have hB' := (List.forall_mem_cons.mp hB).2
    have hnot : ¬ Clash a b := samePath_of_pathcmp_ne (hA a (List.mem_cons_self ..))
      (hB b (List.mem_cons_self ..)) hgt.ne'
    rw [WalkKeeps, if_neg hlt, if_pos hgt, ← ih hA hB',
      eq_clashes_cons_iff (filelistIntersection_sublist hA hB'), List.forall_mem_cons,
      and_iff_right fun h => absurd h hnot]
  | case5 a filesA b filesB cmp hlt hgt hfile ih =>
    have hA' := (List.forall_mem_cons.mp hA).2
    have hB' := (List.forall_mem_cons.mp hB).2
    have hclash : Clash a b := by
      refine ⟨(filelistPathcmp_eq_zero (hA a (List.mem_cons_self ..))
        (hB b (List.mem_cons_self ..))).mp (by omega), ?_⟩
      simpa [imp_iff_not_or] using hfile
    rw [WalkKeeps, if_neg hlt, if_neg hgt, ← ih hA' hB', clashes_cons,
      if_pos ⟨b, List.mem_cons_self .., hclash⟩, List.cons_inj_right,
      eq_clashes_cons_iff (filelistIntersection_sublist hA' hB'),
      and_iff_right fun h => absurd hclash h]
  | case6 a filesA b filesB cmp hlt hgt hdirs ih =>
    have hA' := (List.forall_mem_cons.mp hA).2
    have hB' := (List.forall_mem_cons.mp hB).2
    have hnot : ¬ Clash a b := fun h => h.2 (by simpa using hdirs)
    have hsub := filelistIntersection_sublist hA' hB'
    rw [WalkKeeps, if_neg hlt, if_neg hgt, ← ih hA' hB',
      ← eq_clashes_cons_iff (filelistIntersection_sublist hA' hB')]
    by_cases hclash : ∃ b' ∈ b :: filesB, Clash a b'
    · refine iff_of_false (ne_clashes_cons (hsub.trans (clashes_sublist_right _ _ b)) hclash) ?_
      rintro ⟨hkept, -⟩
      obtain ⟨b', hb', hclash⟩ := hclash
      rcases List.mem_cons.mp hb' with rfl | hb'
      · exact hnot hclash
      · exact hkept hnot b' hb' hclash
    · rw [clashes_cons, if_neg hclash]
      exact (and_iff_right fun _ b' hb' h => hclash ⟨b', List.mem_cons_of_mem _ hb', h⟩).symm

/-! ## ASCII names -/

theorem hasSlash_concat (x : CString) : hasSlash (x ++ ['/']) := by
  simp [hasSlash]

theorem lt_concat_slash (x : CString) : x < x ++ ['/'] := by
  have h : x ++ [] < x ++ ['/'] := List.append_left_lt (List.nil_lt_cons '/' [])
  rwa [List.append_nil] at h

/-- What stands between a path and its directory begins with the path. -/
theorem prefix_of_between {y z : CString} (hle : y ≤ z) (hlt : z < y ++ ['/']) : y <+: z := by
  induction y generalizing z with
  | nil => exact List.nil_prefix
  | cons c y ih =>
    cases z with
    | nil => exact absurd hle (not_le.mpr (List.nil_lt_cons ..))
    | cons d z =>
      rw [List.cons_append, List.cons_lt_cons_iff] at hlt
      rw [← not_lt, List.cons_lt_cons_iff, not_or] at hle
      obtain ⟨rfl, hrest⟩ := hlt.resolve_left hle.1
      have hle' : y ≤ z := not_lt.mp fun h => hle.2 ⟨rfl, h⟩
      exact List.cons_prefix_cons.mpr ⟨rfl, ih hle' hrest⟩

theorem le_of_between {x y : CString} (hslash : ¬ hasSlash y) (hle : y ≤ x ++ ['/'])
    (hlt : x ++ ['/'] < y ++ ['/']) : y ≤ x := by
  rcases List.prefix_concat_iff.mp (prefix_of_between hle hlt) with rfl | hprefix
  · exact absurd (hasSlash_concat x) hslash
  · exact not_lt.mp hprefix.le

/-- What clashes with a directory is the file. -/
theorem clash_slash_iff {x b : CString} : Clash (x ++ ['/']) b ↔ b = x ∧ ¬ hasSlash x := by
  unfold Clash SamePath
  simp only [hasSlash_concat, true_and, List.append_cancel_right_eq]
  constructor
  · rintro ⟨h | rfl | h, hnot⟩
    · exact absurd (h ▸ hasSlash_concat x) hnot
    · exact ⟨rfl, hnot⟩
    · exact absurd (h ▸ hasSlash_concat _) hnot
  · rintro ⟨rfl, hnot⟩
    exact ⟨Or.inr (Or.inl rfl), hnot⟩

section

variable {a b : CString} {filesA filesB : List CString}

theorem NoneBetween.of_cons (h : NoneBetween (a :: filesA) filesB) : NoneBetween filesA filesB :=
  fun x hx => ⟨fun hdir hfile a' ha' => (h x hx).1 (List.mem_cons_of_mem _ hdir) hfile a'
    (List.mem_cons_of_mem _ ha'), fun hfile => (h x hx).2 (List.mem_cons_of_mem _ hfile)⟩

/-- The walk leaves an entry of the first list behind. -/
theorem noneBetween_left (hlt : a < b) (hne : ¬ SamePath a b) (hB : ∀ b' ∈ filesB, b < b') :
    NoneBetween (a :: filesA) (b :: filesB) ↔
      (∀ b' ∈ filesB, ¬ Clash a b') ∧ NoneBetween filesA (b :: filesB) := by
  have hall : ∀ b' ∈ b :: filesB, a < b' :=
    List.forall_mem_cons.mpr ⟨hlt, fun b' hb' => hlt.trans (hB b' hb')⟩
  constructor
  · intro h
    refine ⟨fun b' hb' hclash => ?_, h.of_cons⟩
    have hlt' := hall b' (List.mem_cons_of_mem _ hb')
    rcases hclash.1 with rfl | rfl | rfl
    · exact lt_irrefl _ hlt'
    · exact lt_asymm (lt_concat_slash b') hlt'
    · have hfile : ¬ hasSlash a := fun hdir => hclash.2 ⟨hdir, hasSlash_concat a⟩
      exact (h a hfile).2 (List.mem_cons_self ..) (List.mem_cons_of_mem _ hb')
        (fun hin => lt_irrefl a (hall a hin)) b (List.mem_cons_self ..) hlt (hB _ hb')
  · rintro ⟨hkept, h⟩ x hx
    refine ⟨fun hdir hfile a' ha' hle hlt' => ?_, fun hfile hdir hnot b' hb' hlt' hlt'' => ?_⟩
    · have hfirst : x ≠ a := (hall x hfile).ne'
      rcases List.mem_cons.mp hdir with heq | hdir
      · exact lt_asymm (lt_concat_slash x) (heq ▸ hall x hfile)
      · rcases List.mem_cons.mp ha' with rfl | ha'
        · exact absurd hle (not_le.mpr (hall x hfile))
        · exact (h x hx).1 hdir hfile a' ha' hle hlt'
    · rcases List.mem_cons.mp hfile with rfl | hfile
      · rcases List.mem_cons.mp hdir with heq | hdir
        · exact hne (Or.inr (Or.inr heq.symm))
        · exact hkept _ hdir ⟨Or.inr (Or.inr rfl), fun hboth => hx hboth.1⟩
      · exact (h x hx).2 hfile hdir hnot b' hb' hlt' hlt''

/-- The walk leaves an entry of the second list behind. -/
theorem noneBetween_right (hlt : b < a) (hne : ¬ SamePath a b) (hA : ∀ a' ∈ filesA, a < a')
    (hB : ∀ b' ∈ filesB, b < b') :
    NoneBetween (a :: filesA) (b :: filesB) ↔
      (∀ a' ∈ filesA, Clash a' b → ∃ b' ∈ filesB, Clash a' b') ∧
        NoneBetween (a :: filesA) filesB := by
  have hall : ∀ a' ∈ a :: filesA, b < a' :=
    List.forall_mem_cons.mpr ⟨hlt, fun a' ha' => hlt.trans (hA a' ha')⟩
  constructor
  · intro h
    refine ⟨fun a' ha' hclash => ?_, fun x hx => ⟨fun hdir hfile => ?_, fun hfile hdir hnot => ?_⟩⟩
    · have hlt' := hall a' (List.mem_cons_of_mem _ ha')
      rcases hclash.1 with rfl | rfl | rfl
      · exact absurd hlt' (lt_irrefl _)
      · have hfile : ¬ hasSlash b := fun hdir => hclash.2 ⟨hasSlash_concat b, hdir⟩
        exact absurd (hA _ ha') ((h b hfile).1 (List.mem_cons_of_mem _ ha')
          (List.mem_cons_self ..) a (List.mem_cons_self ..) hlt.le)
      · exact absurd (lt_concat_slash a') (lt_asymm hlt')
    · exact (h x hx).1 hdir (List.mem_cons_of_mem _ hfile)
    · intro b' hb'
      refine (h x hx).2 hfile (List.mem_cons_of_mem _ hdir) ?_ b' (List.mem_cons_of_mem _ hb')
      exact fun hin => (List.mem_cons.mp hin).elim (hall x hfile).ne' hnot
  · rintro ⟨hkept, h⟩ x hx
    refine ⟨fun hdir hfile => ?_, fun hfile hdir hnot b' hb' hlt' => ?_⟩
    · rcases List.mem_cons.mp hfile with rfl | hfile
      · rcases List.mem_cons.mp hdir with heq | hdir
        · exact absurd (Or.inr (Or.inl heq.symm)) hne
        · obtain ⟨b', hb', hclash⟩ := hkept _ hdir (clash_slash_iff.mpr ⟨rfl, hx⟩)
          exact absurd ((clash_slash_iff.mp hclash).1 ▸ hB b' hb') (lt_irrefl _)
      · exact (h x hx).1 hdir hfile
    · rcases List.mem_cons.mp hdir with heq | hdir
      · exact absurd ((lt_concat_slash x).trans (heq ▸ hall x hfile)) (lt_irrefl x)
      · rcases List.mem_cons.mp hb' with rfl | hb'
        · exact absurd hlt' (lt_asymm (hall x hfile))
        · exact (h x hx).2 hfile hdir (fun hin => hnot (List.mem_cons_of_mem _ hin)) b' hb' hlt'

/-- Of two directories with the same path nothing further on is the file. -/
theorem not_clash_of_dirs (hsame : SamePath a b) (hnot : ¬ Clash a b)
    (hB : ∀ b' ∈ filesB, b < b') : ∀ b' ∈ filesB, ¬ Clash a b' := by
  have hdirs : hasSlash a ∧ hasSlash b := not_not.mp fun h => hnot ⟨hsame, h⟩
  rintro b' hb' ⟨hsame', hnot'⟩
  have hlt := hB b' hb'
  have hfile : ¬ hasSlash b' := fun hdir => hnot' ⟨hdirs.1, hdir⟩
  rcases hsame' with rfl | rfl | rfl
  · exact hfile hdirs.1
  · rcases hsame with rfl | heq | rfl
    · exact lt_asymm (lt_concat_slash b') hlt
    · exact hlt.ne (List.append_cancel_right heq).symm
    · exact lt_asymm ((lt_concat_slash b').trans (lt_concat_slash _)) hlt
  · exact hfile (hasSlash_concat a)

/-- The walk matches two entries. -/
theorem noneBetween_both (hsame : SamePath a b) (hA : ∀ a' ∈ filesA, a < a')
    (hB : ∀ b' ∈ filesB, b < b') :
    NoneBetween (a :: filesA) (b :: filesB) ↔
      (¬ Clash a b → ∀ b' ∈ filesB, ¬ Clash a b') ∧
        (∀ a' ∈ filesA, Clash a' b → ∃ b' ∈ filesB, Clash a' b') ∧ NoneBetween filesA filesB := by
  constructor
  · intro h
    refine ⟨fun hnot => not_clash_of_dirs hsame hnot hB, fun a' ha' hclash => ?_,
      fun x hx => ⟨fun hdir hfile a' ha' => ?_, fun hfile hdir hnot b' hb' => ?_⟩⟩
    · exfalso
      have hlt := hA a' ha'
      rcases hclash.1 with rfl | rfl | rfl
      · -- two files, as the entry further on is not the directory of the first
        have hfile : ¬ hasSlash a' := fun hdir => hclash.2 ⟨hdir, hdir⟩
        rcases hsame with rfl | rfl | rfl
        · exact lt_irrefl _ hlt
        · exact lt_asymm (lt_concat_slash a') hlt
        · exact hfile (hasSlash_concat a)
      · obtain ⟨-, hfile⟩ := clash_slash_iff.mp hclash
        rcases hsame with rfl | rfl | rfl
        · exact (h a hfile).1 (List.mem_cons_of_mem _ ha') (List.mem_cons_self ..) a
            (List.mem_cons_self ..) le_rfl hlt
        · exact lt_irrefl _ hlt
        · exact hfile (hasSlash_concat a)
      · rcases hsame with rfl | rfl | heq
        · exact lt_asymm (lt_concat_slash a') hlt
        · exact lt_asymm (lt_concat_slash a') ((lt_concat_slash _).trans hlt)
        · exact hlt.ne (List.append_cancel_right heq).symm
    · exact (h x hx).1 (List.mem_cons_of_mem _ hdir) (List.mem_cons_of_mem _ hfile) a'
        (List.mem_cons_of_mem _ ha')
    · refine (h x hx).2 (List.mem_cons_of_mem _ hfile) (List.mem_cons_of_mem _ hdir) ?_ b'
        (List.mem_cons_of_mem _ hb')
      intro hin
      rcases List.mem_cons.mp hin with rfl | hin
      · have hlt := hA x hfile
        rcases hsame with rfl | rfl | rfl
        · exact lt_irrefl _ hlt
        · exact lt_asymm (lt_concat_slash x) hlt
        · exact hx (hasSlash_concat a)
      · exact hnot hin
  · rintro ⟨-, hkept, h⟩ x hx
    refine ⟨fun hdir hfile a' ha' hle hlt => ?_, fun hfile hdir hnot b' hb' hlt hlt' => ?_⟩
    · rcases List.mem_cons.mp hfile with rfl | hfile
      · rcases List.mem_cons.mp hdir with rfl | hdir
        · rcases List.mem_cons.mp ha' with rfl | ha'
          · exact lt_irrefl _ hlt
          · exact lt_asymm (hA a' ha') hlt
        · obtain ⟨b', hb', hclash⟩ := hkept _ hdir (clash_slash_iff.mpr ⟨rfl, hx⟩)
          exact lt_irrefl _ ((clash_slash_iff.mp hclash).1 ▸ hB b' hb')
      · have hafter := hB x hfile
        rcases List.mem_cons.mp hdir with rfl | hdir
        · rcases hsame with rfl | heq | rfl
          · exact lt_asymm (lt_concat_slash x) hafter
          · exact hafter.ne (List.append_cancel_right heq).symm
          · exact lt_asymm ((lt_concat_slash x).trans (lt_concat_slash _)) hafter
        · rcases List.mem_cons.mp ha' with rfl | ha'
          · rcases hsame with rfl | rfl | rfl
            · exact absurd hle (not_le.mpr hafter)
            · exact absurd (le_of_between hx hle hlt) (not_le.mpr hafter)
            · exact absurd hle (not_le.mpr ((lt_concat_slash a').trans hafter))
          · exact (h x hx).1 hdir hfile a' ha' hle hlt
    · rcases List.mem_cons.mp hfile with rfl | hfile
      · rcases List.mem_cons.mp hdir with rfl | hlater
        · rcases List.mem_cons.mp hb' with rfl | hb'
          · exact lt_irrefl _ hlt'
          · exact lt_asymm (hB b' hb') hlt'
        · rcases hsame with rfl | rfl | rfl
          · exact hnot (List.mem_cons_self ..)
          · exact hx (hasSlash_concat b)
          · exact lt_irrefl _ (hB _ hlater)
      · have hafter := hA x hfile
        rcases List.mem_cons.mp hdir with rfl | hdir
        · rcases hsame with rfl | rfl | heq
          · exact lt_asymm (lt_concat_slash x) hafter
          · exact lt_asymm ((lt_concat_slash x).trans (lt_concat_slash _)) hafter
          · exact hafter.ne (List.append_cancel_right heq).symm
        · rcases List.mem_cons.mp hb' with rfl | hb'
          · rcases hsame with rfl | rfl | rfl
            · exact lt_asymm hafter hlt
            · exact lt_asymm ((lt_concat_slash b').trans hafter) hlt
            · exact absurd (le_of_between hx hlt.le hlt') (not_le.mpr hafter)
          · exact (h x hx).2 hfile hdir (fun hin => hnot (List.mem_cons_of_mem _ hin)) b' hb' hlt
              hlt'

end

/-- On ASCII names the walk goes by `strcmp`, and passes over a clash only where something
stands between a file and the directory of the same path. -/
theorem walkKeeps_iff {filesA filesB : List CString} (hA : ∀ a ∈ filesA, IsAscii a)
    (hB : ∀ b ∈ filesB, IsAscii b) (hsortA : filesA.Pairwise (· < ·))
    (hsortB : filesB.Pairwise (· < ·)) : WalkKeeps filesA filesB ↔ NoneBetween filesA filesB := by
  fun_induction WalkKeeps filesA filesB with
  | case1 filesB => simp [NoneBetween]
  | case2 filesA hne => simp [NoneBetween]
  | case3 a filesA b filesB cmp hlt ih =>
    have hascii := hA a (List.mem_cons_self ..)
    have hascii' := hB b (List.mem_cons_self ..)
    have hne : ¬ SamePath a b :=
      (filelistPathcmp_eq_zero hascii.isBytes hascii'.isBytes).not.mp hlt.ne
    rw [List.pairwise_cons] at hsortA
    rw [noneBetween_left ((filelistPathcmp_lt_zero hascii hascii' hne).mp hlt) hne
      (List.pairwise_cons.mp hsortB).1, ih (List.forall_mem_cons.mp hA).2 hB hsortA.2 hsortB]
  | case4 a filesA b filesB cmp hlt hgt ih =>
    have hascii := hA a (List.mem_cons_self ..)
    have hascii' := hB b (List.mem_cons_self ..)
    have hne : ¬ SamePath a b :=
      (filelistPathcmp_eq_zero hascii.isBytes hascii'.isBytes).not.mp hgt.ne'
    have hlt' : b < a :=
      lt_of_le_of_ne (not_lt.mp ((filelistPathcmp_lt_zero hascii hascii' hne).not.mp hlt))
        fun h => hne (Or.inl h.symm)
    rw [List.pairwise_cons] at hsortB
    rw [noneBetween_right hlt' hne (List.pairwise_cons.mp hsortA).1 hsortB.1,
      ih hA (List.forall_mem_cons.mp hB).2 hsortA hsortB.2]
  | case5 a filesA b filesB cmp hlt hgt ih =>
    have hsame : SamePath a b := (filelistPathcmp_eq_zero (hA a (List.mem_cons_self ..)).isBytes
      (hB b (List.mem_cons_self ..)).isBytes).mp (by omega)
    rw [List.pairwise_cons] at hsortA hsortB
    rw [noneBetween_both hsame hsortA.1 hsortB.1, ih (List.forall_mem_cons.mp hA).2
      (List.forall_mem_cons.mp hB).2 hsortA.2 hsortB.2]

/-- **When every clash is found**: when no step of the walk passes over one.  On lists of ASCII
names this is a matter of what stands between a file and its directory: the walk goes by `strcmp`
except where the two meet, and there it leaves behind the one that it should have kept, unless
nothing stands between them. -/
theorem filelistIntersection_eq_clashes_iff {filesA filesB : List CString}
    (hA : ∀ a ∈ filesA, IsBytes a) (hB : ∀ b ∈ filesB, IsBytes b)
    (hsortA : filesA.Pairwise (· < ·)) (hsortB : filesB.Pairwise (· < ·)) :
    (filelistIntersection filesA filesB = clashes filesA filesB ↔ WalkKeeps filesA filesB) ∧
      ((∀ a ∈ filesA, IsAscii a) → (∀ b ∈ filesB, IsAscii b) →
        (filelistIntersection filesA filesB = clashes filesA filesB ↔
          NoneBetween filesA filesB)) := by
  have hwalk := filelistIntersection_eq_iff hA hB
  refine ⟨hwalk, fun hasciiA hasciiB => ?_⟩
  rw [hwalk, walkKeeps_iff hasciiA hasciiB hsortA hsortB]

theorem filelistIntersection_eq_clashes_iff_lib :
    let filesA := [str "usr/", str "usr/lib"]
    let filesB := [str "usr/", str "usr/lib/", str "usr/lib/a"]
    filelistIntersection filesA filesB = [str "usr/lib"] ∧
      (filelistIntersection filesA filesB = clashes filesA filesB ↔ WalkKeeps filesA filesB) ∧
      (filelistIntersection filesA filesB = clashes filesA filesB ↔
        NoneBetween filesA filesB) := by
  intro filesA filesB
  have hA : ∀ a ∈ filesA, IsAscii a := by
    simp [filesA, IsAscii, str]
  have hB : ∀ b ∈ filesB, IsAscii b := by
    simp [filesB, IsAscii, str]
  obtain ⟨hwalk, hascii⟩ := filelistIntersection_eq_clashes_iff (fun a ha => (hA a ha).isBytes)
    (fun b hb => (hB b hb).isBytes) (by decide) (by decide)
  exact ⟨by decide +kernel, hwalk, hascii hA hB⟩

/-- `foo-bar` sends the walk past the file `foo` before it meets the directory `foo/`. -/
theorem filelistIntersection_misses_foo :
    let filesA := [str "foo-bar", str "foo/"]
    let filesB := [str "foo"]
    filesA.Pairwise (· < ·) ∧ filesB.Pairwise (· < ·) ∧ [] ∉ filesA ++ filesB ∧
      clashes filesA filesB = [str "foo/"] ∧ filelistIntersection filesA filesB = [] := by
  decide +kernel

end Alpm
