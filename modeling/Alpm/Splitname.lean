import Alpm.CString

/-!
# Names of database entries

`_alpm_splitname` of `util.c`.  The loops that look for the hyphens go backwards from the end of the
name and are stopped by a hyphen or a NUL only, so the memory before the string is a part of the
model, and the function returns with its result the offsets that it examines.

A pointer is the byte it points to and those before it, the nearest first, so that a loop that goes
backwards is a recursion on a list.  Memory that ends without a NUL or a hyphen is an access that no
string allows, and has no result.

`splitname_inside_iff` says when the function stays inside the string: when the name, up to its
first slash, has two hyphens.  Then the second loop stops at the second-last of them, and the
function fails just when nothing stands before it.  With less than two hyphens the loops leave the
string, whatever is in memory before it (`splitname_of_count_lt`); what they then take for a name
and a version depends on that memory, and may be a success.
-/

namespace Alpm

/-- A string in memory. -/
structure Memory where
  /-- The bytes before the string, the nearest first. -/
  before : CString
  target : CString
  terminated : '\x00' ∉ target
  addressable : before.length + target.length < 2 ^ 64

/-- What is before the first `/`. -/
def Memory.part (mem : Memory) : CString := mem.target.takeWhile (· ≠ '/')

/-- The return value of `_alpm_splitname` and its results.  The first case is an access outside of
the memory. -/
inductive SplitResult where
  | undefined
  | error
  | split (name version : CString) (nameHash : ℕ)
  deriving DecidableEq, Repr

/-- A pointer is the byte it points to and those before it, the nearest first.  This is its offset
from a string with `base` bytes before it. -/
def offset (base : ℕ) (p : CString) : ℤ := p.length - (base + 1)

/-- `for(; *pkgver && *pkgver != '-'; pkgver--)`: where it stops, and the offsets that it
examines. -/
def scanBack (base : ℕ) : CString → CString × List ℤ
  | [] => ([], [offset base []])
  | c :: p =>
    if c ≠ '\x00' ∧ c ≠ '-' then
      let (pkgver, examined) := scanBack base p
      (pkgver, offset base (c :: p) :: examined)
    else (c :: p, [offset base (c :: p)])

/-- The offsets from `i` on. -/
def offsetsFrom (i : ℤ) (n : ℕ) : List ℤ := (List.range n).map fun k : ℕ => i + (k : ℤ)

/-- `STRNDUP` of the bytes of `text` to at most `n`: the copy, and the offsets examined. -/
def strndup (i : ℤ) (text : CString) (n : ℕ) : CString × List ℤ :=
  let copy := (text.take n).takeWhile (· ≠ '\x00')
  (copy, offsetsFrom i (min n (copy.length + 1)))

/-- The fields that are copied when the second loop stops at a hyphen, and the offsets
examined. -/
def copyFields (mem : Memory) (pkgver : CString) : SplitResult × List ℤ :=
  let i := offset mem.before.length pkgver
  let stop := mem.part.reverse ++ mem.before
  let length := stop.length - pkgver.length
  let version := strndup (i + 1) (stop.take length).reverse length
  let name := strndup 0 mem.target (i % 2 ^ 64).toNat
  (.split name.1 version.1 (hashSdbm name.1), version.2 ++ name.2)

/-- `_alpm_splitname`.  One loop looks for the hyphen before the release, and a second one from
there for the hyphen before the version; what stands before that is the name. -/
def splitname (mem : Memory) : SplitResult × List ℤ :=
  let base := mem.before.length
  let strchr := offsetsFrom 0 (mem.part.length + 1)
  match scanBack base (mem.part.reverse ++ mem.before) with
  | ([], first) => (.undefined, strchr ++ first)
  | (_ :: pkgver, first) =>
    match scanBack base pkgver with
    | ([], second) => (.undefined, strchr ++ first ++ second)
    | (c :: pkgver, second) =>
      if c ≠ '-' ∨ offset base (c :: pkgver) = 0 then (.error, strchr ++ first ++ second)
      else
        let (result, copies) := copyFields mem (c :: pkgver)
        (result, strchr ++ first ++ second ++ copies)

/-! ## The loops -/

/-- The bytes over which the loops go on. -/
def Clean (text : CString) : Prop := ∀ c ∈ text, c ≠ '\x00' ∧ c ≠ '-'

theorem Clean.reverse {text : CString} (h : Clean text) : Clean text.reverse :=
  fun c hc => h c (List.mem_reverse.mp hc)

theorem offset_mem_scanBack (base : ℕ) (p : CString) : offset base p ∈ (scanBack base p).2 := by
  cases p with
  | nil => exact List.mem_singleton_self _
  | cons c p =>
    rw [scanBack]
    split_ifs
    · exact List.mem_cons_self ..
    · exact List.mem_singleton_self _

theorem scanBack_clean (base : ℕ) {text : CString} (h : Clean text) (p : CString) :
    (scanBack base (text ++ p)).1 = (scanBack base p).1 ∧
      ∀ i, i ∈ (scanBack base (text ++ p)).2 ↔
        offset base p < i ∧ i ≤ offset base (text ++ p) ∨ i ∈ (scanBack base p).2 := by
  induction text with
  | nil =>
    refine ⟨rfl, fun i => ?_⟩
    rw [List.nil_append, or_iff_right (by omega)]
  | cons c text ih =>
    obtain ⟨hc, htext⟩ := List.forall_mem_cons.mp h
    obtain ⟨hfst, hsnd⟩ := ih htext
    rw [List.cons_append, scanBack, if_pos hc]
    refine ⟨hfst, fun i => ?_⟩
    show i ∈ offset base (c :: (text ++ p)) :: (scanBack base (text ++ p)).2 ↔ _
    rw [List.mem_cons, hsnd, ← or_assoc]
    refine or_congr_left ?_
    simp only [offset, List.length_append, List.length_cons]
    omega

theorem scanBack_hyphen (base : ℕ) {text : CString} (h : Clean text) (p : CString) :
    ∃ examined, scanBack base (text ++ '-' :: p) = ('-' :: p, examined) ∧
      ∀ i ∈ examined, offset base ('-' :: p) ≤ i ∧ i ≤ offset base (text ++ '-' :: p) := by
  have hstop : scanBack base ('-' :: p) = ('-' :: p, [offset base ('-' :: p)]) :=
    if_neg (by simp)
  obtain ⟨hfst, hsnd⟩ := scanBack_clean base h ('-' :: p)
  rw [hstop] at hfst hsnd
  refine ⟨(scanBack base (text ++ '-' :: p)).2, Prod.ext hfst rfl, fun i hi => ?_⟩
  rw [hsnd, List.mem_singleton] at hi
  simp only [offset, List.length_append] at hi ⊢
  omega

/-! ## Names with two hyphens -/

/-- The second-last hyphen of a name is at an index. -/
def SecondLastHyphen (part : CString) (i : ℕ) : Prop :=
  ∃ front middle last, part = front ++ '-' :: (middle ++ '-' :: last) ∧ '-' ∉ middle ∧
    '-' ∉ last ∧ front.length = i

theorem exists_secondLastHyphen {part : CString} (h : 2 ≤ part.count '-') :
    ∃ i, SecondLastHyphen part i := by
  have hlast : '-' ∈ part.reverse := by
    rw [List.mem_reverse]
    exact List.count_pos_iff.mp (by omega)
  obtain ⟨last, before, hbefore, hlast⟩ := List.eq_append_cons_of_mem hlast
  have hmiddle : '-' ∈ before := by
    have hcount := congrArg (List.count '-') hbefore
    rw [List.count_reverse, List.count_append, List.count_cons_self,
      List.count_eq_zero.mpr hlast] at hcount
    exact List.count_pos_iff.mp (by omega)
  obtain ⟨middle, front, rfl, hmiddle⟩ := List.eq_append_cons_of_mem hmiddle
  refine ⟨front.length, front.reverse, middle.reverse, last.reverse, ?_, by simpa, by simpa,
    by simp⟩
  rw [← List.reverse_inj, hbefore]
  simp

theorem Memory.part_length_le (mem : Memory) : mem.part.length ≤ mem.target.length :=
  (List.takeWhile_prefix _).length_le

theorem Memory.clean_of_mem_part (mem : Memory) {text : CString}
    (h : ∀ c ∈ text, c ∈ mem.part) (hhyphen : '-' ∉ text) : Clean text := by
  intro c hc
  constructor
  · rintro rfl
    exact mem.terminated ((List.takeWhile_prefix _).mem (h _ hc))
  · rintro rfl
    exact hhyphen hc

theorem mem_offsetsFrom {i j : ℤ} {n : ℕ} : j ∈ offsetsFrom i n ↔ i ≤ j ∧ j < i + n := by
  rw [offsetsFrom, List.mem_map]
  constructor
  · rintro ⟨k, hk, rfl⟩
    have := List.mem_range.mp hk
    omega
  · rintro ⟨hle, hlt⟩
    exact ⟨(j - i).toNat, List.mem_range.mpr (by omega), by omega⟩

theorem strndup_eq {i : ℤ} {text : CString} {n : ℕ} (htext : '\x00' ∉ text)
    (hn : n ≤ text.length) : strndup i text n = (text.take n, offsetsFrom i n) := by
  have hcopy : (text.take n).takeWhile (· ≠ '\x00') = text.take n := by
    rw [List.takeWhile_eq_self_iff]
    intro c hc
    rw [decide_eq_true_eq]
    rintro rfl
    exact htext (List.mem_of_mem_take hc)
  simp only [strndup, hcopy, List.length_take]
  rw [min_eq_left (by omega)]

theorem splitname_of_scanBack {mem : Memory} {c : Char} {p pkgver : CString} {d : Char}
    {first second : List ℤ}
    (hfirst : scanBack mem.before.length (mem.part.reverse ++ mem.before) = (c :: p, first))
    (hsecond : scanBack mem.before.length p = (d :: pkgver, second)) :
    splitname mem =
      if d ≠ '-' ∨ offset mem.before.length (d :: pkgver) = 0 then
        (.error, offsetsFrom 0 (mem.part.length + 1) ++ first ++ second)
      else ((copyFields mem (d :: pkgver)).1, offsetsFrom 0 (mem.part.length + 1) ++ first ++
        second ++ (copyFields mem (d :: pkgver)).2) := by
  simp only [splitname, hfirst, hsecond]

/-- The fields of a name that is split at a hyphen inside of it. -/
theorem copyFields_of_part (mem : Memory) {name version : CString}
    (hpart : mem.part = name ++ '-' :: version) :
    copyFields mem ('-' :: (name.reverse ++ mem.before)) =
      (.split name version (hashSdbm name),
        offsetsFrom (name.length + 1) version.length ++ offsetsFrom 0 name.length) := by
  have hoffset : offset mem.before.length ('-' :: (name.reverse ++ mem.before)) = name.length := by
    simp only [offset, List.length_cons, List.length_append, List.length_reverse]
    omega
  have hstop : mem.part.reverse ++ mem.before =
      version.reverse ++ '-' :: (name.reverse ++ mem.before) := by
    simp [hpart]
  have hle := mem.part_length_le
  have hbound := mem.addressable
  have hcount := congrArg List.length hpart
  rw [List.length_append, List.length_cons] at hcount
  have hmod : ((name.length : ℤ) % 2 ^ 64).toNat = name.length := by omega
  have hnul : ∀ c ∈ mem.part, c ≠ '\x00' := by
    rintro c hc rfl
    exact mem.terminated ((List.takeWhile_prefix _).mem hc)
  have htake : mem.target.take name.length = name := by
    have hprefix : name <+: mem.target := by
      refine List.IsPrefix.trans ?_ (List.takeWhile_prefix (p := (· ≠ '/')) )
      exact ⟨'-' :: version, hpart.symm⟩
    exact (List.prefix_iff_eq_take.mp hprefix).symm
  have hlength : (version.reverse ++ '-' :: (name.reverse ++ mem.before)).length -
      ('-' :: (name.reverse ++ mem.before)).length = version.length := by
    rw [List.length_append, List.length_reverse, Nat.add_sub_cancel]
  have hversion : ((version.reverse ++ '-' :: (name.reverse ++ mem.before)).take
      version.length).reverse = version := by
    rw [← List.length_reverse, List.take_left, List.reverse_reverse]
  have hcopyVersion := @strndup_eq (name.length + 1) version version.length
    (fun hmem => hnul _ (by simp [hpart, hmem]) rfl) le_rfl
  have hcopyName := @strndup_eq 0 mem.target name.length mem.terminated (by omega)
  rw [List.take_length] at hcopyVersion
  rw [htake] at hcopyName
  simp only [copyFields, hoffset, hstop, hlength, hversion, hmod, hcopyVersion, hcopyName]

/-- The name is split at the second-last hyphen, and no byte outside of the string is
examined. -/
theorem splitname_of_hyphens (mem : Memory) {front middle last : CString}
    (hpart : mem.part = front ++ '-' :: (middle ++ '-' :: last)) (hmiddle : '-' ∉ middle)
    (hlast : '-' ∉ last) :
    ((splitname mem).1 = if front = [] then .error
      else .split front (middle ++ '-' :: last) (hashSdbm front)) ∧
      ∀ i ∈ (splitname mem).2, 0 ≤ i ∧ i ≤ mem.target.length := by
  have hstop : mem.part.reverse ++ mem.before =
      last.reverse ++ '-' :: (middle.reverse ++ '-' :: (front.reverse ++ mem.before)) := by
    simp [hpart]
  have hcleanLast : Clean last.reverse :=
    (mem.clean_of_mem_part (fun c hc => by simp [hpart, hc]) hlast).reverse
  have hcleanMiddle : Clean middle.reverse :=
    (mem.clean_of_mem_part (fun c hc => by simp [hpart, hc]) hmiddle).reverse
  obtain ⟨first, hfirst, hfirstIn⟩ := scanBack_hyphen mem.before.length hcleanLast
    (middle.reverse ++ '-' :: (front.reverse ++ mem.before))
  obtain ⟨second, hsecond, hsecondIn⟩ := scanBack_hyphen mem.before.length hcleanMiddle
    (front.reverse ++ mem.before)
  rw [← hstop] at hfirst
  rw [splitname_of_scanBack hfirst hsecond, copyFields_of_part mem hpart]
  have hle := mem.part_length_le
  have hcount := congrArg List.length hpart
  simp only [List.length_append, List.length_cons] at hcount
  have hin : ∀ i ∈ offsetsFrom 0 (mem.part.length + 1) ++ first ++ second,
      0 ≤ i ∧ i ≤ mem.target.length := by
    intro i hi
    rcases List.mem_append.mp hi with hi | hi
    · rcases List.mem_append.mp hi with hi | hi
      · have := mem_offsetsFrom.mp hi
        omega
      · have := hfirstIn i hi
        simp only [offset, List.length_append, List.length_cons, List.length_reverse] at this
        omega
    · have := hsecondIn i hi
      simp only [offset, List.length_append, List.length_cons, List.length_reverse] at this
      omega
  have hoffset : offset mem.before.length ('-' :: (front.reverse ++ mem.before)) =
      front.length := by
    simp only [offset, List.length_cons, List.length_append, List.length_reverse]
    omega
  rw [hoffset]
  by_cases hfront : front = []
  · rw [if_pos (by simp [hfront]), if_pos hfront]
    exact ⟨rfl, hin⟩
  · have hpos := List.length_pos_of_ne_nil hfront
    have hne : ¬ ('-' ≠ '-' ∨ (front.length : ℤ) = 0) := by
      rintro (h | h)
      · exact h rfl
      · omega
    rw [if_neg hne, if_neg hfront]
    refine ⟨rfl, fun i hi => ?_⟩
    rcases List.mem_append.mp hi with hi | hi
    · exact hin i hi
    · simp only [List.mem_append, mem_offsetsFrom, List.length_append, List.length_cons] at hi
      omega

theorem Memory.examined_second (mem : Memory) {c : Char} {p : CString} {first : List ℤ} {i : ℤ}
    (hfirst : scanBack mem.before.length (mem.part.reverse ++ mem.before) = (c :: p, first))
    (hi : i ∈ (scanBack mem.before.length p).2) : i ∈ (splitname mem).2 := by
  simp only [splitname, hfirst]
  split
  next second hsecond =>
    rw [hsecond] at hi
    exact List.mem_append_right _ hi
  next d pkgver second hsecond =>
    rw [hsecond] at hi
    have hmem := List.mem_append_right (offsetsFrom 0 (mem.part.length + 1) ++ first) hi
    split_ifs
    · exact hmem
    · exact List.mem_append_left _ hmem

theorem Memory.examined_first (mem : Memory) {i : ℤ}
    (hi : i ∈ (scanBack mem.before.length (mem.part.reverse ++ mem.before)).2) :
    i ∈ (splitname mem).2 := by
  simp only [splitname]
  split
  next first hfirst =>
    rw [hfirst] at hi
    exact List.mem_append_right _ hi
  next c p first hfirst =>
    rw [hfirst] at hi
    have hmem := List.mem_append_right (offsetsFrom 0 (mem.part.length + 1)) hi
    split
    · exact List.mem_append_left _ hmem
    · split_ifs
      · exact List.mem_append_left _ hmem
      · exact List.mem_append_left _ (List.mem_append_left _ hmem)

/-- Of a name with less than two hyphens the loops leave the string. -/
theorem splitname_of_count_lt (mem : Memory) (h : mem.part.count '-' < 2) :
    ∃ i ∈ (splitname mem).2, i < 0 := by
  have hbefore : offset mem.before.length mem.before < 0 := by
    simp only [offset]
    omega
  by_cases hhyphen : '-' ∈ mem.part
  · obtain ⟨last, before, hpart, hlast⟩ := List.eq_append_cons_of_mem (List.mem_reverse.mpr hhyphen)
    have hcount := congrArg (List.count '-') hpart
    rw [List.count_reverse, List.count_append, List.count_cons_self,
      List.count_eq_zero.mpr hlast] at hcount
    have hmem : ∀ c ∈ mem.part.reverse, c ∈ mem.part := fun c hc => List.mem_reverse.mp hc
    rw [hpart] at hmem
    have hclean : Clean last := mem.clean_of_mem_part (fun c hc => hmem c (by simp [hc])) hlast
    have hcleanBefore : Clean before := mem.clean_of_mem_part (fun c hc => hmem c (by simp [hc]))
      (List.count_eq_zero.mp (by omega))
    -- the first loop stops at the only hyphen, the second one leaves the string
    obtain ⟨first, hfirst, -⟩ := scanBack_hyphen mem.before.length hclean (before ++ mem.before)
    have hsecond := ((scanBack_clean mem.before.length hcleanBefore mem.before).2 _).mpr
      (Or.inr (offset_mem_scanBack _ _))
    rw [List.append_cons, ← List.append_assoc, ← List.append_cons, ← hpart] at hfirst
    exact ⟨_, mem.examined_second hfirst hsecond, hbefore⟩
  · have hclean : Clean mem.part.reverse :=
      (mem.clean_of_mem_part (fun c hc => hc) hhyphen).reverse
    have hfirst := ((scanBack_clean mem.before.length hclean mem.before).2 _).mpr
      (Or.inr (offset_mem_scanBack _ _))
    exact ⟨_, mem.examined_first hfirst, hbefore⟩

/-- **`_alpm_splitname`** examines no byte outside of the string, and fails just when there is no
name before the second-last hyphen, if and only if there are two hyphens.  With two of them both
loops stop inside; with less of them the loops leave the string, whatever stands before it. -/
theorem splitname_inside_iff (mem : Memory) :
    ((∀ i ∈ (splitname mem).2, 0 ≤ i ∧ i ≤ mem.target.length) ∧
      ((splitname mem).1 = .error ↔ ¬ ∃ i > 0, SecondLastHyphen mem.part i)) ↔
      2 ≤ mem.part.count '-' := by
  constructor
  · rintro ⟨hin, -⟩
    by_contra hcount
    obtain ⟨i, hi, hneg⟩ := splitname_of_count_lt mem (not_le.mp hcount)
    exact absurd (hin i hi).1 (not_le.mpr hneg)
  · intro hcount
    obtain ⟨_, front, middle, last, hpart, hmiddle, hlast, rfl⟩ := exists_secondLastHyphen hcount
    obtain ⟨hresult, hin⟩ := splitname_of_hyphens mem hpart hmiddle hlast
    refine ⟨hin, fun herror => ?_, fun hnone => ?_⟩
    · rintro ⟨_, hpos, front', middle', last', hpart', hmiddle', hlast', rfl⟩
      have hsplit := (splitname_of_hyphens mem hpart' hmiddle' hlast').1
      rw [if_neg (List.ne_nil_of_length_pos hpos), herror] at hsplit
      cases hsplit
    · rw [hresult, if_pos]
      by_contra hfront
      exact hnone ⟨_, List.length_pos_of_ne_nil hfront, front, middle, last, hpart, hmiddle,
        hlast, rfl⟩

/-- A name without hyphens, before which a hyphen happens to be in memory. -/
def loneName : Memory where
  before := str "-x-"
  target := str "core"
  terminated := by decide
  addressable := by decide

theorem splitname_loneName : -1 ∈ (splitname loneName).2 ∧ (splitname loneName).1 ≠ .error := by
  decide

end Alpm
