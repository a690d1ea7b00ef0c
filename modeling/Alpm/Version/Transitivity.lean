import Alpm.Version.Segments

/-!
# When version comparison is transitive

`alpm_pkg_vercmp` is the comparison of segment words in three stages, epochs first, then versions,
then releases (`pkgVercmp_eq_lexCmp`).  A comparison in stages fails to be transitive exactly where
one of its stages does, among what is equal in the stages before (`lexCmp_lt_trans_iff`), so the
stages can be looked at one by one.

An epoch is a number, so its word never ends in its tail and the first stage is a linear order.  In
the other two stages a version that ends in separators loses against a number but beats letters,
while a larger number of separators beats a smaller one whatever comes after it, and these two rules
form the cycles of `VersionCycle`: `1.` is older than `1.1`, which is older than `1..a`, which is
older than `1.`.  By `pkgVercmp_trans_iff` nothing else goes wrong: for three versions with
releases, or three without, transitivity fails if and only if they are such a cycle.
-/

namespace Alpm

open General

/-- The words of the three parts of a version; a missing release is an empty one. -/
def versionWords (a : CString) : Word Segment × Word Segment × Word Segment :=
  (segments (parseEVR a).epoch, segments (parseEVR a).version,
    segments ((parseEVR a).release.getD []))

/-- The segment words of three versions form a cycle in their version parts, or in
their releases if the version parts are equal. -/
def VersionCycle (a b c : CString) : Prop :=
  (versionWords a).1 = (versionWords b).1 ∧ (versionWords b).1 = (versionWords c).1 ∧
    (Word.Cycle versionMarks (versionWords a).2.1 (versionWords b).2.1 (versionWords c).2.1 ∨
      ((versionWords a).2.1 = (versionWords b).2.1 ∧
        (versionWords b).2.1 = (versionWords c).2.1 ∧
        Word.Cycle versionMarks (versionWords a).2.2 (versionWords b).2.2 (versionWords c).2.2))

theorem isdigit_hyphen : isdigit '-' = false := by decide

/-- A version has a release exactly when it has a hyphen. -/
theorem parseEVR_release_isSome (a : CString) :
    (parseEVR a).release.isSome ↔ '-' ∈ a := by
  have hrel : (parseEVR a).release = (strrchr (a.dropWhile isdigit) '-').map Prod.snd := by
    unfold parseEVR
    dsimp only
    split_ifs <;> rfl
  have hmem : '-' ∈ a ↔ '-' ∈ a.dropWhile isdigit := by
    conv_lhs => rw [← List.takeWhile_append_dropWhile (p := isdigit) (l := a)]
    rw [List.mem_append, or_iff_right]
    intro h
    simpa [isdigit_hyphen] using List.mem_takeWhile_imp h
  rw [hrel, hmem, Option.isSome_map, ← Option.ne_none_iff_isSome, ne_eq, strrchr_eq_none,
    not_not]

theorem parseEVR_epoch (a : CString) :
    (parseEVR a).epoch ≠ [] ∧ ∀ c ∈ (parseEVR a).epoch, isdigit c := by
  have hzero : isdigit '0' = true := by decide
  unfold parseEVR
  dsimp only
  split_ifs with h₁ h₂
  · simp [hzero]
  · exact ⟨h₂, fun c hc => List.mem_takeWhile_imp hc⟩
  · simp [hzero]

/-- The word of a number does not end in its tail. -/
theorem not_endsInTail_segments_digits {s : CString} (hne : s ≠ []) (hs : ∀ c ∈ s, isdigit c) :
    ¬ (segments s).EndsInTail := by
  obtain ⟨c, t, rfl⟩ := List.exists_cons_of_ne_nil hne
  have hc := hs c (List.mem_cons_self ..)
  have hdrop : (c :: t).dropWhile (!isalnum ·) = c :: t := by simp [isalnum_iff.mpr (Or.inr hc)]
  have hend : (c :: t).dropWhile (segmentClass c) = [] := by
    rw [List.dropWhile_eq_nil_iff]
    intro d hd
    simpa [segmentClass, hc] using hs d hd
  rw [segments_eq_cons hdrop, hend, segments_nil]
  exact id

theorem not_cycle_epoch (a b c : CString) :
    ¬ Word.Cycle versionMarks (versionWords a).1 (versionWords b).1 (versionWords c).1 := by
  intro h
  have hnot : ∀ a, ¬ (versionWords a).1.EndsInTail := fun a =>
    not_endsInTail_segments_digits (parseEVR_epoch a).1 (parseEVR_epoch a).2
  rcases h.endsInTail with h | h | h
  · exact hnot a h
  · exact hnot b h
  · exact hnot c h

/-- **`alpm_pkg_vercmp` compares in three stages** when both versions have a release or both have
none. If only one has a release the third stage is skipped, which no comparison of words in stages
does. -/
theorem pkgVercmp_eq_lexCmp {a b : CString} (h : '-' ∈ a ↔ '-' ∈ b) :
    pkgVercmp a b =
      lexCmp (Word.cmp versionMarks) (lexCmp (Word.cmp versionMarks) (Word.cmp versionMarks))
        (versionWords a) (versionWords b) := by
  rw [pkgVercmp]
  split_ifs with hab
  · obtain rfl := strcmp_eq_zero.mp hab
    simp [lexCmp]
  · rw [← parseEVR_release_isSome, ← parseEVR_release_isSome] at h
    simp only [rpmvercmp_eq_cmp, lexCmp, versionWords]
    refine ite_congr rfl (fun _ => rfl) fun _ => ite_congr rfl (fun _ => rfl) fun h₂ => ?_
    cases ha : (parseEVR a).release <;> cases hb : (parseEVR b).release
    · simpa using h₂
    · simp [ha, hb] at h
    · simp [ha, hb] at h
    · rfl

/-- **Version comparison is transitive except on the cycles.**  The three stages are put together
with `lexCmp_lt_trans_iff`, and the first of them has no cycles because an epoch never ends in
separators. -/
theorem pkgVercmp_trans_iff {a b c : CString}
    (h : ('-' ∈ a ∧ '-' ∈ b ∧ '-' ∈ c) ∨ ('-' ∉ a ∧ '-' ∉ b ∧ '-' ∉ c)) :
    (pkgVercmp a b < 0 → pkgVercmp b c < 0 → pkgVercmp a c < 0) ↔ ¬ VersionCycle a b c := by
  rw [pkgVercmp_eq_lexCmp (by tauto), pkgVercmp_eq_lexCmp (by tauto),
    pkgVercmp_eq_lexCmp (by tauto)]
  have hcycle := fun x y z => Word.cmp_lt_trans_iff (m := versionMarks) x y z
  have hlt := fun x y z (h : Word.Cycle versionMarks x y z) => h.cmp_lt_zero
  rw [lexCmp_lt_trans_iff (Word.cmp_eq_zero _) hcycle hlt
    (lexCmp_lt_trans_iff (Word.cmp_eq_zero _) hcycle hlt hcycle)]
  rw [or_iff_right (not_cycle_epoch a b c)]
  rfl

theorem pkgVercmp_trans_iff_release :
    ('-' ∈ str "1.0-1" ∧ '-' ∈ str "1.0-2" ∧ '-' ∈ str "1.1-1") ∧
      ((pkgVercmp (str "1.0-1") (str "1.0-2") < 0 → pkgVercmp (str "1.0-2") (str "1.1-1") < 0 →
        pkgVercmp (str "1.0-1") (str "1.1-1") < 0) ↔
        ¬ VersionCycle (str "1.0-1") (str "1.0-2") (str "1.1-1")) :=
  ⟨by decide, pkgVercmp_trans_iff (Or.inl (by decide))⟩

/-- `1.` is older than `1.1` and `1.1` is older than `1..a`, but `1.` is newer than
`1..a`. -/
theorem pkgVercmp_not_transitive :
    ¬ ∀ a b c : CString,
      (('-' ∈ a ∧ '-' ∈ b ∧ '-' ∈ c) ∨ ('-' ∉ a ∧ '-' ∉ b ∧ '-' ∉ c)) →
      pkgVercmp a b < 0 → pkgVercmp b c < 0 → pkgVercmp a c < 0 := by
  intro h
  have hac := h (str "1.") (str "1.1") (str "1..a") (Or.inr (by decide)) (by decide +kernel)
    (by decide +kernel)
  exact absurd hac (by decide +kernel)

end Alpm
