import Alpm.Files.Backup

/-!
# The rotation of saved files

`shift_pacsave` makes room for a new `.pacsave` file: the numbered ones go up by one, from the
highest number down, and the one without a number becomes the first.

## 1.  What is meant

`Rotated` is the purpose, a statement about the file systems before and after: every numbered file
went up by one, with everything below it if it is a directory, the one without a number became the
first, and nothing else changed.  In particular nothing that was saved is lost.

## 2.  The loop

The loop renames from a number that is free down to the first.  Every `rename` goes to a name that
is free by then, so nothing is overwritten (`shiftNumbered_shifts`).  That holds as long as the loop
begins above the highest number that is there.

## 3.  The highest number

`shift_pacsave` finds it by matching the names of the directory against a regular expression, which
is made of the base name of the file without quoting it, and by reading the number from the place in
the name where it stands for a base name of the length of the file's.  A base name with a character
that is special in an expression need not match its own saved files; then the loop begins too low
and the rotation overwrites (`shiftPacsave_plus`).  `shiftPacsave_rotated_iff` is the exact
condition, `Rotatable`: every number that is there is found among the names of the directory, and
the file without a number can be read.
-/

namespace Alpm

open CommitContext

/-! ## Trees of a file system -/

/-- What stands behind the path of a directory in the paths below it, or nothing. -/
def Below (rest : CString) : Prop := rest = [] ∨ ∃ name, rest = '/' :: name

theorem Below.nil : Below [] := Or.inl rfl

theorem under_iff {dir path : CString} :
    Under dir path ↔ ∃ rest, Below rest ∧ path = dir ++ rest := by
  constructor
  · rintro (rfl | ⟨name, rfl⟩)
    · exact ⟨[], Below.nil, (List.append_nil _).symm⟩
    · exact ⟨'/' :: name, Or.inr ⟨name, rfl⟩, List.append_assoc ..⟩
  · rintro ⟨rest, rfl | ⟨name, rfl⟩, rfl⟩
    · exact Or.inl (List.append_nil _)
    · exact Or.inr ⟨name, List.append_assoc ..⟩

namespace FileSystem

variable {fs : FileSystem} {path src dst rest : CString}

/-- Every node stands in directories. -/
def Rooted (fs : FileSystem) : Prop := ∀ path, fs.node path ≠ none → fs.HasParents path

/-- There is something below the path only if it is a directory. -/
def Tree (node : CString → Option Node) (path : CString) : Prop :=
  ∀ name, node (path ++ '/' :: name) ≠ none → node path = some .dir

/-- There is nothing at the path or below it, so a directory can be renamed to it and brings what is
below it along. -/
def Free (node : CString → Option Node) (path : CString) : Prop :=
  ∀ rest, Below rest → node (path ++ rest) = none

theorem Rooted.tree (h : fs.Rooted) (path : CString) : Tree fs.node path := fun name hname =>
  h _ hname path ⟨name, List.append_assoc ..⟩

theorem Tree.free {node : CString → Option Node} (h : Tree node path) (hnone : node path = none) :
    Free node path := by
  rintro rest (rfl | ⟨name, rfl⟩)
  · rwa [List.append_nil]
  · by_contra hsome
    rw [h name hsome] at hnone
    cases hnone

/-- What is at a path behind `dst` after a move. -/
theorem moveTree_node_dst (hrest : Below rest) :
    (fs.moveTree src dst).node (dst ++ rest) = fs.node (src ++ rest) := by
  show (if _ then _ else _) = _
  rw [if_pos (under_iff.mpr ⟨rest, hrest, rfl⟩), List.drop_left]

theorem moveTree_node_src (hrest : Below rest) (hapart : ¬ Under dst (src ++ rest)) :
    (fs.moveTree src dst).node (src ++ rest) = none := by
  show (if _ then _ else _) = _
  rw [if_neg hapart, if_pos (under_iff.mpr ⟨rest, hrest, rfl⟩)]

/-- **`rename` to a free name** moves what is at the old name and below it. -/
theorem rename_node_of_free (htree : Tree fs.node src) (hfree : Free fs.node dst)
    (hapart : ¬ Under src dst) (q : CString) :
    (fs.rename src dst).2.node q = (fs.moveTree src dst).node q := by
  have hnone : fs.node dst = none := by
    rw [← hfree [] Below.nil, List.append_nil]
  cases hsrc : fs.node src with
  | none =>
    have hstay : (fs.rename src dst).2 = fs := by
      unfold rename
      rw [hsrc]
    rw [hstay]
    by_cases hdst : Under dst q
    · obtain ⟨rest, hrest, rfl⟩ := under_iff.mp hdst
      rw [moveTree_node_dst hrest, hfree rest hrest, htree.free hsrc rest hrest]
    by_cases hunder : Under src q
    · obtain ⟨rest, hrest, rfl⟩ := under_iff.mp hunder
      rw [moveTree_node_src hrest hdst, htree.free hsrc rest hrest]
    · rw [moveTree_node_of_not_under hunder hdst]
  | some node =>
    by_cases hdir : node = .dir
    · have hmove : (fs.rename src dst).2 = fs.moveTree src dst := by
        unfold rename renameDir
        rw [hsrc, hdir, if_neg hapart, if_pos (Or.inl hnone)]
      rw [hmove]
    · have hne : src ≠ dst := fun heq => hapart (Or.inl heq.symm)
      have hleaf : ∀ name, fs.node (src ++ '/' :: name) = none := fun name => by
        by_contra hname
        exact hdir (Option.some.inj (hsrc.symm.trans (htree name hname)))
      rw [rename_node_of_node hsrc hdir (by rw [hnone]; simp) hne]
      by_cases hdst : Under dst q
      · obtain ⟨rest, hrest, rfl⟩ := under_iff.mp hdst
        rw [moveTree_node_dst hrest]
        rcases hrest with rfl | ⟨name, rfl⟩
        · rw [List.append_nil, List.append_nil, remove_node_of_ne hne.symm, set_node_self, hsrc]
        · have hbelow : dst ++ '/' :: name ≠ dst := by simp
          rw [hleaf name]
          by_cases heq : dst ++ '/' :: name = src
          · rw [heq, remove_node_self]
          · rw [remove_node_of_ne heq, set_node_of_ne hbelow, hfree _ (Or.inr ⟨name, rfl⟩)]
      have hqdst : q ≠ dst := fun heq => hdst (Or.inl heq)
      by_cases hunder : Under src q
      · obtain ⟨rest, hrest, rfl⟩ := under_iff.mp hunder
        rw [moveTree_node_src hrest hdst]
        rcases hrest with rfl | ⟨name, rfl⟩
        · rw [List.append_nil, remove_node_self]
        · rw [remove_node_of_ne (by simp), set_node_of_ne hqdst, hleaf name]
      · have hqsrc : q ≠ src := fun heq => hunder (Or.inl heq)
        rw [moveTree_node_of_not_under hunder hdst, remove_node_of_ne hqsrc, set_node_of_ne hqdst]

end FileSystem

/-! ## The names of saved files -/

/-- A name made of the path of a file and something behind it. -/
def SavedName (file name : CString) : Prop := ∃ suffix, '/' ∉ suffix ∧ name = file ++ suffix

variable {file name name' rest : CString}

theorem takeWhile_slash {suffix below : CString} (hslash : '/' ∉ suffix) :
    (suffix ++ '/' :: below).takeWhile (· ≠ '/') = suffix := by
  rw [List.takeWhile_append_of_pos, List.takeWhile_cons_of_neg (by simp), List.append_nil]
  intro c hc
  have hne : c ≠ '/' := fun heq => hslash (heq ▸ hc)
  simpa using hne

/-- Only the name itself is at or below a name of the same file. -/
theorem SavedName.eq_of_under (h : SavedName file name) (h' : SavedName file name')
    (hrest : Below rest) (hunder : Under name (name' ++ rest)) : name = name' := by
  obtain ⟨suffix, hslash, rfl⟩ := h
  obtain ⟨suffix', hslash', rfl⟩ := h'
  obtain ⟨rest', hrest', heq⟩ := under_iff.mp hunder
  rw [List.append_assoc, List.append_assoc, List.append_cancel_left_eq] at heq
  suffices hsuffix : suffix = suffix' by rw [hsuffix]
  rcases hrest with rfl | ⟨below, rfl⟩
  · rcases hrest' with rfl | ⟨below', rfl⟩
    · simpa using heq.symm
    · rw [List.append_nil] at heq
      exact absurd (heq ▸ List.mem_append_right _ List.mem_cons_self) hslash'
  · rcases hrest' with rfl | ⟨below', rfl⟩
    · rw [List.append_nil] at heq
      exact absurd (heq ▸ List.mem_append_right _ List.mem_cons_self) hslash
    · have hfirst : (suffix' ++ '/' :: below).takeWhile (· ≠ '/') =
          (suffix ++ '/' :: below').takeWhile (· ≠ '/') := by rw [heq]
      rw [takeWhile_slash hslash', takeWhile_slash hslash] at hfirst
      exact hfirst.symm

theorem savedName_pacsave (file : CString) : SavedName file (pacsave file) :=
  ⟨str ".pacsave", by decide, rfl⟩

theorem savedName_numbered (file : CString) (n : ℕ) : SavedName file (numberedPacsave file n) := by
  obtain ⟨suffix, -, hslash, heq⟩ := SaveName.exists_suffix (Or.inr ⟨n, rfl⟩)
  exact ⟨suffix, hslash, heq⟩

theorem numberedPacsave_injective (file : CString) : Function.Injective (numberedPacsave file) := by
  intro m n h
  rw [numberedPacsave_eq_append, numberedPacsave_eq_append, List.append_cancel_left_eq,
    List.append_cancel_left_eq, List.append_cancel_left_eq] at h
  have hvalue := congrArg (fun digits => Nat.ofDigitChars 10 digits 0) h
  simpa only [Nat.ofDigitChars_ten_toDigits] using hvalue

theorem numberedPacsave_ne_pacsave (file : CString) (n : ℕ) :
    numberedPacsave file n ≠ pacsave file := by
  rw [numberedPacsave, List.append_assoc]
  simp [str]

/-- No number is at or below another one. -/
theorem not_under_numbered {m n : ℕ} (hne : m ≠ n) (hrest : Below rest) :
    ¬ Under (numberedPacsave file m) (numberedPacsave file n ++ rest) := fun hunder =>
  hne (numberedPacsave_injective file ((savedName_numbered file m).eq_of_under
    (savedName_numbered file n) hrest hunder))

theorem pacsave_not_under_numbered {n : ℕ} (hrest : Below rest) :
    ¬ Under (numberedPacsave file n) (pacsave file ++ rest) := fun hunder =>
  numberedPacsave_ne_pacsave file n ((savedName_numbered file n).eq_of_under
    (savedName_pacsave file) hrest hunder)

theorem numbered_not_under_pacsave {n : ℕ} (hrest : Below rest) :
    ¬ Under (pacsave file) (numberedPacsave file n ++ rest) := fun hunder =>
  numberedPacsave_ne_pacsave file n ((savedName_pacsave file).eq_of_under
    (savedName_numbered file n) hrest hunder).symm

theorem not_under_pacsave_numbered {n : ℕ} :
    ¬ Under (pacsave file) (numberedPacsave file n) := by
  have h := @numbered_not_under_pacsave file [] n Below.nil
  rwa [List.append_nil] at h

theorem not_under_self_numbered {m n : ℕ} (hne : m ≠ n) :
    ¬ Under (numberedPacsave file m) (numberedPacsave file n) := by
  have h := @not_under_numbered file [] m n hne Below.nil
  rwa [List.append_nil] at h

/-! ## What is meant -/

/-- The numbered files went up by one: the nodes before and after, with what is below them.  The
first number is free then, and what is under none of the numbers is as before. -/
structure NumbersShifted (file : CString) (node node' : CString → Option Node) : Prop where
  numbered : ∀ n rest, 1 ≤ n → Below rest →
    node' (numberedPacsave file (n + 1) ++ rest) = node (numberedPacsave file n ++ rest)
  first : ∀ rest, Below rest → node' (numberedPacsave file 1 ++ rest) = none
  other : ∀ q, (∀ n, 1 ≤ n → ¬ Under (numberedPacsave file n) q) → node' q = node q

/-- The saved files of `file` are rotated: every numbered one went up by one, the one without a
number became the first, and nothing else changed.  So what was there is still there. -/
structure Rotated (file : CString) (node node' : CString → Option Node) : Prop where
  numbered : ∀ n rest x, 1 ≤ n → Below rest → node (numberedPacsave file n ++ rest) = some x →
    node' (numberedPacsave file (n + 1) ++ rest) = some x
  pacsave : ∀ rest x, Below rest → node (pacsave file ++ rest) = some x →
    node' (numberedPacsave file 1 ++ rest) = some x
  other : ∀ q, ¬ Under (CommitContext.pacsave file) q →
    (∀ n, 1 ≤ n → ¬ Under (numberedPacsave file n) q) → node' q = node q

theorem NumbersShifted.unique {node node₁ node₂ : CString → Option Node}
    (h₁ : NumbersShifted file node node₁) (h₂ : NumbersShifted file node node₂) :
    node₁ = node₂ := by
  ext1 q
  by_cases hq : ∃ n, 1 ≤ n ∧ Under (numberedPacsave file n) q
  · obtain ⟨n, hn, hunder⟩ := hq
    obtain ⟨rest, hrest, rfl⟩ := under_iff.mp hunder
    obtain rfl | ⟨m, rfl, hm⟩ : n = 1 ∨ ∃ m, n = m + 1 ∧ 1 ≤ m := by
      rcases Nat.lt_or_ge 1 n with hlt | hle
      · exact Or.inr ⟨n - 1, by omega, by omega⟩
      · exact Or.inl (by omega)
    · rw [h₁.first rest hrest, h₂.first rest hrest]
    · rw [h₁.numbered m rest hm hrest, h₂.numbered m rest hm hrest]
  · have hother : ∀ n, 1 ≤ n → ¬ Under (numberedPacsave file n) q := fun n hn hunder =>
      hq ⟨n, hn, hunder⟩
    rw [h₁.other q hother, h₂.other q hother]

/-! ## The loop -/

namespace CommitContext

variable {ctx : CommitContext} {fs : FileSystem}

/-- **The loop** counts down to a free number and shifts the ones below it.  Each `rename` goes to
the number that the one before it has freed, so nothing is written over. -/
theorem shiftNumbered_shifts {top : ℕ} (htop : 1 ≤ top)
    (htree : ∀ n, FileSystem.Tree fs.node (numberedPacsave file n))
    (hfree : FileSystem.Free fs.node (numberedPacsave file top)) :
    (∀ n rest, 1 ≤ n → n < top → Below rest →
      (shiftNumbered file top fs).node (numberedPacsave file (n + 1) ++ rest) =
        fs.node (numberedPacsave file n ++ rest)) ∧
    FileSystem.Free (shiftNumbered file top fs).node (numberedPacsave file 1) := by
  induction top, htop using Nat.le_induction generalizing fs with
  | base => exact ⟨fun n rest hn hlt => absurd hn (not_le.mpr hlt), hfree⟩
  | succ i hi ih =>
    have happly := FileSystem.rename_node_of_free (htree i) hfree
      (not_under_self_numbered (Nat.ne_of_lt i.lt_succ_self))
    set fs' := (fs.rename (numberedPacsave file i) (numberedPacsave file (i + 1))).2 with hfs'
    have hshift : shiftNumbered file (i + 1) fs = shiftNumbered file i fs' := by
      rw [shiftNumbered, if_pos (Nat.succ_lt_succ hi)]
    -- the renamed number is at its new name, its old name is free, and the others stay
    have hnew : ∀ rest, Below rest → fs'.node (numberedPacsave file (i + 1) ++ rest) =
        fs.node (numberedPacsave file i ++ rest) := fun rest hrest => by
      rw [happly, FileSystem.moveTree_node_dst hrest]
    have hold : FileSystem.Free fs'.node (numberedPacsave file i) := fun rest hrest => by
      rw [happly,
        FileSystem.moveTree_node_src hrest (not_under_numbered (Nat.succ_ne_self i) hrest)]
    have hother : ∀ n rest, n ≠ i → n ≠ i + 1 → Below rest →
        fs'.node (numberedPacsave file n ++ rest) = fs.node (numberedPacsave file n ++ rest) :=
      fun n rest hne hneSucc hrest => by
        rw [happly, FileSystem.moveTree_node_of_not_under (not_under_numbered hne.symm hrest)
          (not_under_numbered hneSucc.symm hrest)]
    have htree' : ∀ n, FileSystem.Tree fs'.node (numberedPacsave file n) := by
      intro n name hname
      have hbelow : Below ('/' :: name) := Or.inr ⟨name, rfl⟩
      rw [← List.append_nil (numberedPacsave file n)]
      by_cases hsucc : n = i + 1
      · rw [hsucc, hnew _ hbelow] at hname
        rw [hsucc, hnew [] Below.nil, List.append_nil]
        exact htree i name hname
      by_cases heq : n = i
      · exact absurd (heq ▸ hold _ hbelow) hname
      · rw [hother n _ heq hsucc hbelow] at hname
        rw [hother n [] heq hsucc Below.nil, List.append_nil]
        exact htree n name hname
    obtain ⟨hnumbered, hfirst⟩ := ih htree' hold
    rw [hshift]
    refine ⟨fun n rest hn hlt hrest => ?_, hfirst⟩
    rcases Nat.lt_succ_iff_lt_or_eq.mp hlt with hlt | rfl
    · rw [hnumbered n rest hn hlt hrest, hother n rest (Nat.ne_of_lt hlt) (by omega) hrest]
    · rw [shiftNumbered_node fun j _ hle => not_under_numbered (by omega) hrest, hnew rest hrest]

/-- When all numbers that are there are below `top`, the loop shifts them. -/
theorem shiftNumbered_numbersShifted {top : ℕ} (hfs : fs.Rooted)
    (hbound : ∀ n, 1 ≤ n → fs.node (numberedPacsave file n) ≠ none → n < top) :
    NumbersShifted file fs.node (shiftNumbered file top fs).node := by
  have hfree : ∀ n, 1 ≤ n → top ≤ n → FileSystem.Free fs.node (numberedPacsave file n) :=
    fun n hn hle => (hfs.tree _).free (by
      by_contra hsome
      exact absurd (hbound n hn hsome) (not_lt.mpr hle))
  have hother : ∀ q, (∀ n, 1 ≤ n → ¬ Under (numberedPacsave file n) q) →
      (shiftNumbered file top fs).node q = fs.node q := fun q hq =>
    shiftNumbered_node fun n hn _ => hq n hn
  rcases Nat.eq_zero_or_pos top with rfl | htop
  · exact
      { numbered := fun n rest hn hrest => by
          rw [shiftNumbered, hfree (n + 1) (by omega) (Nat.zero_le _) rest hrest,
            hfree n hn (Nat.zero_le _) rest hrest]
        first := hfree 1 le_rfl (Nat.zero_le _)
        other := hother }
  · obtain ⟨hnumbered, hfirst⟩ :=
      shiftNumbered_shifts htop (fun n => hfs.tree _) (hfree top htop le_rfl)
    refine ⟨fun n rest hn hrest => ?_, hfirst, hother⟩
    rcases Nat.lt_or_ge n top with hlt | hle
    · exact hnumbered n rest hn hlt hrest
    · have habove : (shiftNumbered file top fs).node (numberedPacsave file (n + 1) ++ rest) =
          fs.node (numberedPacsave file (n + 1) ++ rest) :=
        shiftNumbered_node fun j _ hj => not_under_numbered (by omega) hrest
      rw [habove, hfree (n + 1) (by omega) (by omega) rest hrest, hfree n hn hle rest hrest]

/-! ## The numbers in the directory -/

theorem strtoul_lt (s : CString) : strtoul s < 2 ^ 64 := by
  unfold strtoul
  dsimp only
  split_ifs <;> omega

theorem le_foldl_max {α : Type} {p : α → Bool} {f : α → ℕ} {n : ℕ} (l : List α) (a : ℕ) :
    n ≤ l.foldl (fun m x => if p x then max m (f x) else m) a ↔
      n ≤ a ∨ ∃ x ∈ l, p x ∧ n ≤ f x := by
  induction l generalizing a with
  | nil => simp
  | cons x l ih =>
    rw [List.foldl_cons, ih, List.exists_mem_cons_iff]
    split_ifs with hp
    · rw [le_max_iff, or_assoc]
      simp only [hp, true_and]
    · simp only [hp, Bool.false_eq_true, false_and, false_or]

theorem le_logMax {reg : CString → Bool} {n : ℕ} (hn : 1 ≤ n) :
    n ≤ ctx.logMax reg fs file ↔
      ∃ name ∈ fs.readdir (mdirname file), reg name ∧ n ≤ ctx.curLog (mbasename file) name := by
  rw [logMax, le_foldl_max]
  exact or_iff_right (not_le.mpr hn)

theorem logMax_lt (ctx : CommitContext) (reg : CString → Bool) (fs : FileSystem) (file : CString) :
    ctx.logMax reg fs file < 2 ^ 64 := by
  by_contra hle
  obtain ⟨name, -, -, hlog⟩ := (le_logMax (by omega)).mp (not_lt.mp hle)
  exact absurd (strtoul_lt _) (not_lt.mpr hlog)

/-- A number is found in the directory: the regular expression is compiled, it matches a name whose
number is read as this one or a higher one, and none that is read as the highest `unsigned long`. -/
def Found (ctx : CommitContext) (fs : FileSystem) (file : CString) (n : ℕ) : Prop :=
  ∃ reg, ctx.sys.regcomp (regstr (mbasename file)) = some reg ∧
    (∃ name ∈ fs.readdir (mdirname file), reg name ∧ n ≤ ctx.curLog (mbasename file) name) ∧
    ∀ name ∈ fs.readdir (mdirname file), reg name → ctx.curLog (mbasename file) name < 2 ^ 64 - 1

theorem found_iff {reg : CString → Bool}
    (hreg : ctx.sys.regcomp (regstr (mbasename file)) = some reg) {n : ℕ} (hn : 1 ≤ n) :
    ctx.Found fs file n ↔ n < (ctx.logMax reg fs file + 1) % 2 ^ 64 := by
  have hlt := ctx.logMax_lt reg fs file
  have hmax : (∀ name ∈ fs.readdir (mdirname file), reg name →
      ctx.curLog (mbasename file) name < 2 ^ 64 - 1) ↔ ctx.logMax reg fs file < 2 ^ 64 - 1 := by
    rw [← not_le, le_logMax (by omega)]
    simp only [not_exists, not_and, not_le]
  have hfound : ctx.Found fs file n ↔
      n ≤ ctx.logMax reg fs file ∧ ctx.logMax reg fs file < 2 ^ 64 - 1 := by
    rw [← hmax, le_logMax hn]
    constructor
    · rintro ⟨reg', hreg', hname, hall⟩
      obtain rfl := Option.some.inj (hreg.symm.trans hreg')
      exact ⟨hname, hall⟩
    · rintro ⟨hname, hall⟩
      exact ⟨reg, hreg, hname, hall⟩
  rw [hfound]
  omega

/-- When the saved files of `file` are rotated: every number that is there is found, and if there is
a file without a number the expression is compiled, and it is not a link that leads nowhere once the
numbers are shifted. -/
structure Rotatable (ctx : CommitContext) (fs : FileSystem) (file : CString) : Prop where
  numbered : ∀ n, 1 ≤ n → fs.node (numberedPacsave file n) ≠ none → ctx.Found fs file n
  compiled : fs.node (pacsave file) ≠ none → (ctx.sys.regcomp (regstr (mbasename file))).isSome
  leads : ∀ target, fs.node (CommitContext.pacsave file) = some (.link target) →
    ∀ node, NumbersShifted file fs.node node → ctx.sys.linkStat node (CommitContext.pacsave file)

/-! ## The function -/

/-- Nothing is saved under the names of `file`. -/
structure NoneSaved (fs : FileSystem) (file : CString) : Prop where
  numbered : ∀ n, 1 ≤ n → fs.node (numberedPacsave file n) = none
  pacsave : fs.node (CommitContext.pacsave file) = none

theorem NoneSaved.rotated (hfs : fs.Rooted) (h : NoneSaved fs file) :
    Rotated file fs.node fs.node where
  numbered n rest x hn hrest hx := by
    rw [(hfs.tree _).free (h.numbered n hn) rest hrest] at hx
    cases hx
  pacsave rest x hrest hx := by
    rw [(hfs.tree _).free h.pacsave rest hrest] at hx
    cases hx
  other q _ _ := rfl

theorem NoneSaved.rotatable (h : NoneSaved fs file) : ctx.Rotatable fs file where
  numbered n hn hsome := absurd (h.numbered n hn) hsome
  compiled hsome := absurd h.pacsave hsome
  leads target htarget := by
    rw [h.pacsave] at htarget
    cases htarget

/-- There is a highest number. -/
theorem exists_no_numbered (fs : FileSystem) (file : CString) (m : ℕ) :
    ∃ n, m ≤ n ∧ fs.node (numberedPacsave file n) = none := by
  by_contra hnone
  have hall : ∀ n, fs.node (numberedPacsave file (m + n)) ≠ none := fun n hn =>
    hnone ⟨m + n, Nat.le_add_right m n, hn⟩
  have hsub : Set.MapsTo (fun n => numberedPacsave file (m + n)) Set.univ
      {path | path ∈ fs.paths} := fun n _ => fs.mem_paths _ (hall n)
  have hinj : Function.Injective fun n => numberedPacsave file (m + n) := fun i j heq =>
    Nat.add_left_cancel (numberedPacsave_injective file heq)
  exact Set.infinite_univ ((Set.Finite.of_injOn hsub hinj.injOn (List.finite_toSet fs.paths)))

/-- If the numbers above `top` stay where they are, only those below it can be rotated. -/
theorem lt_of_rotated {node' : CString → Option Node} (h : Rotated file fs.node node')
    {top : ℕ} (hsame : ∀ n, 1 < n → top < n →
      node' (numberedPacsave file n) = fs.node (numberedPacsave file n))
    {n : ℕ} (hn : 1 ≤ n) (hsome : fs.node (numberedPacsave file n) ≠ none) : n < top := by
  by_contra hle
  have hall : ∀ k, n ≤ k → fs.node (numberedPacsave file k) ≠ none := by
    intro k hk
    induction k, hk using Nat.le_induction with
    | base => exact hsome
    | succ k hk ih =>
      obtain ⟨x, hx⟩ := Option.ne_none_iff_exists'.mp ih
      have hmoved := h.numbered k [] x (hn.trans hk) Below.nil (by rwa [List.append_nil])
      rw [List.append_nil, hsame (k + 1) (by omega) (by omega)] at hmoved
      rw [hmoved]
      simp
  obtain ⟨k, hk, hnone⟩ := exists_no_numbered fs file n
  exact hall k hk hnone

/-- If nothing changes there was nothing to rotate. -/
theorem noneSaved_of_rotated (h : Rotated file fs.node fs.node) : NoneSaved fs file := by
  have hnumbered : ∀ n, 1 ≤ n → fs.node (numberedPacsave file n) = none := fun n hn => by
    by_contra hsome
    exact absurd (lt_of_rotated h (fun _ _ _ => rfl) hn hsome) (Nat.not_lt_zero n)
  refine ⟨hnumbered, ?_⟩
  by_contra hsome
  obtain ⟨x, hx⟩ := Option.ne_none_iff_exists'.mp hsome
  have hmoved := h.pacsave [] x Below.nil (by rwa [List.append_nil])
  rw [List.append_nil, hnumbered 1 le_rfl] at hmoved
  cases hmoved

theorem mdirname_prefix (h : mdirname file ≠ []) : mdirname file ++ ['/'] <+: file := by
  unfold mdirname at h ⊢
  cases hsplit : strrchr file '/' with
  | none =>
    rw [hsplit] at h
    exact absurd rfl h
  | some split =>
    obtain ⟨dir, base⟩ := split
    rw [eq_of_strrchr hsplit]
    exact ⟨base, List.append_assoc ..⟩

/-- Without a directory there are no saved files. -/
theorem noneSaved_of_dirname (hfs : fs.Rooted) (hdirname : mdirname file ≠ [])
    (hnode : fs.node (mdirname file) ≠ some .dir) : NoneSaved fs file := by
  have habove := mdirname_prefix hdirname
  have hname : ∀ name, SavedName file name → fs.node name = none := by
    rintro name ⟨suffix, -, rfl⟩
    by_contra hsome
    exact hnode (hfs _ hsome _ (habove.trans (List.prefix_append file suffix)))
  exact ⟨fun n _ => hname _ (savedName_numbered file n), hname _ (savedName_pacsave file)⟩

theorem shiftPacsave_of_dir {reg : CString → Bool}
    (hreg : ctx.sys.regcomp (regstr (mbasename file)) = some reg)
    (hdir : ¬ (mdirname file ≠ [] ∧ fs.node (mdirname file) ≠ some .dir)) {fs' : FileSystem}
    (hfs' : shiftNumbered file ((ctx.logMax reg fs file + 1) % 2 ^ 64) fs = fs') :
    ctx.shiftPacsave fs file =
      if statOk ctx.sys fs' (pacsave file) then
        (fs'.rename (pacsave file) (numberedPacsave file 1)).2
      else fs' := by
  subst hfs'
  unfold shiftPacsave
  simp only [hreg]
  rw [if_neg hdir]

/-- With the numbers shifted, `stat` finds the file without a number if it is there and leads
somewhere. -/
theorem statOk_pacsave_iff {fs' : FileSystem} (h : NumbersShifted file fs.node fs'.node) :
    statOk ctx.sys fs' (pacsave file) ↔ fs.node (pacsave file) ≠ none ∧
      ∀ target, fs.node (pacsave file) = some (.link target) →
        ctx.sys.linkStat fs'.node (pacsave file) := by
  have hnode : fs'.node (pacsave file) = fs.node (pacsave file) := by
    refine h.other _ fun n _ hunder => ?_
    rw [← List.append_nil (pacsave file)] at hunder
    exact pacsave_not_under_numbered Below.nil hunder
  unfold statOk
  rw [hnode]
  cases fs.node (pacsave file) with
  | none => simp
  | some node =>
    cases node with
    | file content => simp
    | link target => simp
    | dir => simp

/-- With the numbers shifted the file without a number can become the first. -/
theorem rotated_of_numbersShifted (hfs : fs.Rooted) {fs' : FileSystem}
    (h : NumbersShifted file fs.node fs'.node) :
    Rotated file fs.node (fs'.rename (pacsave file) (numberedPacsave file 1)).2.node := by
  have hsaved : ∀ rest, Below rest → fs'.node (pacsave file ++ rest) =
      fs.node (pacsave file ++ rest) := fun rest hrest =>
    h.other _ fun n _ => pacsave_not_under_numbered hrest
  have htree : FileSystem.Tree fs'.node (pacsave file) := by
    intro name hname
    rw [hsaved _ (Or.inr ⟨name, rfl⟩)] at hname
    have hnode := hsaved [] Below.nil
    rw [List.append_nil] at hnode
    rw [hnode]
    exact hfs.tree _ name hname
  have hrename := FileSystem.rename_node_of_free htree h.first not_under_pacsave_numbered
  exact
    { numbered := fun n rest x hn hrest hx => by
        rw [hrename, FileSystem.moveTree_node_of_not_under (numbered_not_under_pacsave hrest)
          (not_under_numbered (by omega) hrest), h.numbered n rest hn hrest, hx]
      pacsave := fun rest x hrest hx => by
        rw [hrename, FileSystem.moveTree_node_dst hrest, hsaved rest hrest, hx]
      other := fun q hpacsave hnumbered => by
        rw [hrename, FileSystem.moveTree_node_of_not_under hpacsave (hnumbered 1 le_rfl),
          h.other q hnumbered] }

theorem rotated_of_no_pacsave (hfs : fs.Rooted) {node' : CString → Option Node}
    (h : NumbersShifted file fs.node node') (hpacsave : fs.node (pacsave file) = none) :
    Rotated file fs.node node' where
  numbered n rest x hn hrest hx := by rw [h.numbered n rest hn hrest, hx]
  pacsave rest x hrest hx := by
    rw [(hfs.tree _).free hpacsave rest hrest] at hx
    cases hx
  other q _ hq := h.other q hq

/-- **The rotation of saved files** happens if and only if every number that is there is found in
the directory, and the file without a number can be read.  If a number is not found, the loop begins
below it, and renames onto it or leaves it where it is. -/
theorem shiftPacsave_rotated_iff (ctx : CommitContext) (hfs : fs.Rooted) (file : CString) :
    Rotated file fs.node (ctx.shiftPacsave fs file).node ↔ ctx.Rotatable fs file := by
  cases hreg : ctx.sys.regcomp (regstr (mbasename file)) with
  | none =>
    have hstay : ctx.shiftPacsave fs file = fs := by
      unfold shiftPacsave
      simp only [hreg]
    rw [hstay]
    constructor
    · exact fun h => (noneSaved_of_rotated h).rotatable
    · intro h
      refine NoneSaved.rotated hfs ⟨fun n hn => ?_, ?_⟩
      · by_contra hsome
        obtain ⟨reg, hreg', -⟩ := h.numbered n hn hsome
        rw [hreg] at hreg'
        cases hreg'
      · by_contra hsome
        have hcompiled := h.compiled hsome
        rw [hreg] at hcompiled
        cases hcompiled
  | some reg =>
    by_cases hdir : mdirname file ≠ [] ∧ fs.node (mdirname file) ≠ some .dir
    · have hnone := noneSaved_of_dirname hfs hdir.1 hdir.2
      have hstay : ctx.shiftPacsave fs file = fs := by
        unfold shiftPacsave
        simp only [hreg]
        rw [if_pos hdir]
      rw [hstay]
      exact iff_of_true (hnone.rotated hfs) hnone.rotatable
    obtain ⟨top, htop⟩ : ∃ top, (ctx.logMax reg fs file + 1) % 2 ^ 64 = top := ⟨_, rfl⟩
    have hresult := shiftPacsave_of_dir hreg hdir rfl
    rw [htop] at hresult
    constructor
    · intro h
      have hbound : ∀ n, 1 ≤ n → fs.node (numberedPacsave file n) ≠ none → n < top := by
        refine fun n => lt_of_rotated h fun n hn hlt => ?_
        have hloop : (shiftNumbered file top fs).node (numberedPacsave file n) =
            fs.node (numberedPacsave file n) :=
          shiftNumbered_node fun j _ hle => not_under_self_numbered (by omega)
        rw [hresult]
        split_ifs
        · rw [FileSystem.rename_node_of_not_under not_under_pacsave_numbered
            (not_under_self_numbered (by omega)), hloop]
        · exact hloop
      have hshift := shiftNumbered_numbersShifted hfs hbound
      refine ⟨fun n hn hsome => ?_, fun _ => ?_, fun target htarget node hnode => ?_⟩
      · rw [found_iff hreg hn, htop]
        exact hbound n hn hsome
      · rw [hreg]
        rfl
      · rw [hnode.unique hshift]
        by_contra hleads
        have hstat : ¬ statOk ctx.sys (shiftNumbered file top fs) (pacsave file) := fun hstat =>
          hleads (((statOk_pacsave_iff hshift).mp hstat).2 target htarget)
        rw [if_neg hstat] at hresult
        rw [hresult] at h
        have hmoved := h.pacsave [] _ Below.nil (by rw [List.append_nil, htarget])
        rw [hshift.first [] Below.nil] at hmoved
        cases hmoved
    · intro h
      have hbound : ∀ n, 1 ≤ n → fs.node (numberedPacsave file n) ≠ none → n < top :=
        fun n hn hsome => htop ▸ (found_iff hreg hn).mp (h.numbered n hn hsome)
      have hshift := shiftNumbered_numbersShifted hfs hbound
      rw [hresult]
      split_ifs with hstat
      · exact rotated_of_numbersShifted hfs hshift
      · refine rotated_of_no_pacsave hfs hshift ?_
        by_contra hsome
        exact hstat ((statOk_pacsave_iff hshift).mpr
          ⟨hsome, fun target htarget => h.leads target htarget _ hshift⟩)

/-! ## Two files with saved copies -/

/-- `etc`, a file in it and two saved copies. -/
def savedEntries (file : CString) : List (CString × Node) := [
  (str "etc", .dir),
  (file, .file (str "edited")),
  (pacsave file, .file (str "new")),
  (numberedPacsave file 1, .file (str "old"))]

def savedFiles (file : CString) : FileSystem where
  node path := (savedEntries file).lookup path
  paths := (savedEntries file).map Prod.fst
  mem_paths path hpath := by
    by_contra hmem
    refine hpath (List.lookup_eq_none_iff.mpr fun entry hentry => ?_)
    rw [bne_iff_ne]
    rintro rfl
    exact hmem (List.mem_map_of_mem hentry)

theorem rooted_savedFiles (base : CString) (hbase : '/' ∉ base) :
    (savedFiles (str "etc" ++ '/' :: base)).Rooted := by
  intro path hpath dir hdir
  have hbelow : ∀ suffix, '/' ∉ suffix → path = str "etc" ++ '/' :: base ++ suffix →
      (savedFiles (str "etc" ++ '/' :: base)).node dir = some .dir := by
    rintro suffix hsuffix rfl
    obtain ⟨rest, hrest⟩ := hdir
    have hslash : '/' ∉ base ++ suffix := by
      rw [List.mem_append, not_or]
      exact ⟨hbase, hsuffix⟩
    rw [List.append_assoc, List.append_assoc, List.singleton_append] at hrest
    obtain ⟨rfl, -⟩ := (List.append_cons_inj_of_notMem (by decide) hslash).mp hrest.symm
    rfl
  obtain ⟨entry, hentry, rfl⟩ := List.mem_map.mp ((savedFiles _).mem_paths path hpath)
  rcases List.mem_cons.mp hentry with rfl | hentry
  · exact absurd (hdir.subset (List.mem_append_right _ (List.mem_singleton_self _))) (by decide)
  have hsaved : SavedName (str "etc" ++ '/' :: base) entry.1 := by
    rcases List.mem_cons.mp hentry with rfl | hentry
    · exact ⟨[], List.not_mem_nil, (List.append_nil _).symm⟩
    rcases List.mem_cons.mp hentry with rfl | hentry
    · exact savedName_pacsave _
    · obtain rfl := List.mem_singleton.mp hentry
      exact savedName_numbered _ 1
  obtain ⟨suffix, hsuffix, heq⟩ := hsaved
  exact hbelow suffix hsuffix heq

theorem savedFiles_numbered {file : CString} (hfile : 3 < file.length) {n : ℕ}
    (h : (savedFiles file).node (numberedPacsave file n) ≠ none) : n = 1 := by
  have hmem := (savedFiles file).mem_paths _ h
  have hlength : file.length < (numberedPacsave file n).length := by
    rw [numberedPacsave_eq_append, List.length_append, List.length_append]
    exact Nat.lt_add_of_pos_right (Nat.add_pos_left (by decide) _)
  simp only [savedFiles, savedEntries, List.map_cons, List.map_nil, List.mem_cons,
    List.not_mem_nil, or_false] at hmem
  rcases hmem with heq | heq | heq | heq
  · rw [heq] at hlength
    exact absurd (hfile.trans hlength) (by decide)
  · rw [heq] at hlength
    exact absurd hlength (lt_irrefl _)
  · exact absurd heq (numberedPacsave_ne_pacsave file n)
  · exact numberedPacsave_injective file heq

/-- The regular expression of a text without special characters. -/
def literal (text : CString) : RegularExpression Char :=
  text.foldr (fun c expression => .char c * expression) 1

def oneDigit : RegularExpression Char :=
  (str "0123456789").foldr (fun c expression => .char c + expression) 0

/-- The names `.pacsave.` and a number behind a base name. -/
def numberedNames (basename : RegularExpression Char) : RegularExpression Char :=
  basename * literal (str ".pacsave.") * oneDigit * oneDigit.star

/-- The regular expressions of two base names.  The plus sign in one of them means that the letter
before it is repeated. -/
def exampleRegcomp (expression : CString) : Option (CString → Bool) :=
  if expression = regstr (str "fstab") then
    some (numberedNames (literal (str "fstab"))).rmatch
  else if expression = regstr (str "foo+bar") then
    some (numberedNames (literal (str "fo") * literal (str "o") * (literal (str "o")).star *
      literal (str "bar"))).rmatch
  else none

def exampleContext : CommitContext where
  sys := { RegularTransaction.plainSystem with regcomp := exampleRegcomp }
  opts := { }
  flags := {}
  skipRemove := []

/-- The base name does not match its own regular expression, so the first saved copy is not found
and is overwritten by the second one. -/
theorem shiftPacsave_plus : (savedFiles (str "etc/foo+bar")).Rooted ∧
    ¬ Rotated (str "etc/foo+bar") (savedFiles (str "etc/foo+bar")).node
      (exampleContext.shiftPacsave (savedFiles (str "etc/foo+bar")) (str "etc/foo+bar")).node := by
  refine ⟨rooted_savedFiles (str "foo+bar") (by decide), fun h => ?_⟩
  have hold := h.numbered 1 [] (.file (str "old")) le_rfl Below.nil (by decide +kernel)
  have hgone : (exampleContext.shiftPacsave (savedFiles (str "etc/foo+bar"))
      (str "etc/foo+bar")).node (numberedPacsave (str "etc/foo+bar") (1 + 1) ++ []) = none := by
    decide +kernel
  rw [hgone] at hold
  cases hold

theorem shiftPacsave_fstab : Rotated (str "etc/fstab") (savedFiles (str "etc/fstab")).node
    (exampleContext.shiftPacsave (savedFiles (str "etc/fstab")) (str "etc/fstab")).node := by
  have hrooted : (savedFiles (str "etc/fstab")).Rooted :=
    rooted_savedFiles (str "fstab") (by decide)
  have hreg : exampleContext.sys.regcomp (regstr (mbasename (str "etc/fstab"))) =
      some (numberedNames (literal (str "fstab"))).rmatch := by
    show exampleRegcomp (regstr (mbasename (str "etc/fstab"))) = _
    exact if_pos (by decide)
  refine (shiftPacsave_rotated_iff exampleContext hrooted (str "etc/fstab")).mpr ?_
  refine ⟨fun n hn hsome => ?_, fun _ => by rw [hreg]; rfl, fun target htarget => ?_⟩
  · obtain rfl := savedFiles_numbered (by decide) hsome
    rw [found_iff hreg le_rfl]
    decide +kernel
  · have hpacsave : (savedFiles (str "etc/fstab")).node (pacsave (str "etc/fstab")) =
        some (.file (str "new")) := by decide
    rw [hpacsave] at htarget
    cases htarget

end CommitContext

end Alpm
