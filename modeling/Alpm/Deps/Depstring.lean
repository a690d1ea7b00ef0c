import Alpm.Package

/-!
# Dependency strings

`alpm_dep_from_string` and `alpm_dep_compute_string`.  A dependency string is `name[operator
version][: description]`.

The parser cuts the description at the first `": "`; in what is left it looks for `<`, then for `>`,
then for `=`, wherever they stand.  So the order of the searches, and not the order of the
characters, decides what is the operator, and a name may hold none of the three, while a version may
hold an `=` anywhere but at its start.

Printing undoes parsing for every string (`depComputeString_depFromString`): what the parser takes
out of a string is what the printer puts between the parts, and nothing is normalized on the way.

Parsing undoes printing when the name and the version hold nothing that the parser would find first
(`depFromString_depComputeString`).  The side conditions are those of the format, and each of them
is about one search: that the operator and the separator of the description that were printed are
the first ones of their kind.
-/

namespace Alpm

/-! ## Searching in a C string -/

/-- `strstr`: the offset of the first occurrence. -/
def strstr (needle : CString) : CString → Option ℕ
  | [] => if needle = [] then some 0 else none
  | c :: haystack =>
    if needle.isPrefixOf (c :: haystack) then some 0 else (strstr needle haystack).map (· + 1)

/-- `memchr`: the offset of the first `c` among the first `n` bytes. -/
def memchr (s : CString) (c : Char) (n : ℕ) : Option ℕ := (s.take n).findIdx? (· = c)

theorem strstr_eq_some {needle s : CString} {i : ℕ} (h : strstr needle s = some i) :
    s = s.take i ++ needle ++ s.drop (i + needle.length) := by
  induction s generalizing i with
  | nil =>
    rw [strstr] at h
    split_ifs at h with hneedle
    simp [hneedle]
  | cons c s ih =>
    rw [strstr] at h
    split_ifs at h with hprefix
    · obtain rfl := Option.some.inj h
      obtain ⟨t, ht⟩ := List.isPrefixOf_iff_prefix.mp hprefix
      simp [← ht]
    · obtain ⟨j, hj, rfl⟩ := Option.map_eq_some_iff.mp h
      have hs := ih hj
      rw [show j + 1 + needle.length = j + needle.length + 1 by omega]
      simp only [List.take_succ_cons, List.drop_succ_cons, List.cons_append]
      exact congrArg _ hs

theorem memchr_eq_some {s : CString} {c : Char} {n i : ℕ} (h : memchr s c n = some i) :
    i < n ∧ s.drop i = c :: s.drop (i + 1) := by
  obtain ⟨hi, hc, -⟩ := List.findIdx?_eq_some_iff_getElem.mp h
  rw [List.length_take] at hi
  refine ⟨by omega, ?_⟩
  rw [List.drop_eq_getElem_cons (by omega)]
  exact congrArg (· :: _) (by simpa using hc)

/-- The first `c` stands after a prefix without `c`. -/
theorem memchr_append {u v : CString} {c : Char} {n : ℕ} (hu : c ∉ u) (hn : u.length < n) :
    memchr (u ++ c :: v) c n = some u.length := by
  rw [memchr, List.take_append, List.take_of_length_le hn.le,
    show n - u.length = n - u.length - 1 + 1 by omega, List.take_succ_cons,
    List.findIdx?_append, List.findIdx?_eq_none_iff.mpr]
  · simp [List.findIdx?_cons]
  · intro x hx
    simpa using fun h : x = c => hu (h ▸ hx)

theorem memchr_eq_none {s : CString} {c : Char} {n : ℕ} (h : c ∉ s.take n) :
    memchr s c n = none := by
  rw [memchr, List.findIdx?_eq_none_iff]
  intro x hx
  simpa using fun heq : x = c => h (heq ▸ hx)

/-! ## Parsing and printing -/

/-- The search of `alpm_dep_from_string` for a version comparator: the modifier, the end
of the name, and the start of the version. -/
def findComparator (depstring : CString) (deplen : ℕ) : Depmod × ℕ × Option ℕ :=
  match memchr depstring '<' deplen with
  | some ptr =>
    if deref (depstring.drop (ptr + 1)) = '=' then (.le, ptr, some (ptr + 2))
    else (.lt, ptr, some (ptr + 1))
  | none =>
    match memchr depstring '>' deplen with
    | some ptr =>
      if deref (depstring.drop (ptr + 1)) = '=' then (.ge, ptr, some (ptr + 2))
      else (.gt, ptr, some (ptr + 1))
    | none =>
      match memchr depstring '=' deplen with
      | some ptr => (.eq, ptr, some (ptr + 1))
      | none => (.any, deplen, none)

/-- `alpm_dep_from_string` with memory for the parts.  The description is cut off first, so an
operator in it is not looked at. -/
def depFromString (depstring : CString) : Depend :=
  -- the space in ": " keeps an epoch from matching
  let desc := strstr (str ": ") depstring
  let deplen := desc.getD depstring.length
  let (mod, ptr, version) := findComparator depstring deplen
  { name := depstring.take ptr
    version := version.map fun version => (depstring.drop version).take (deplen - version)
    desc := desc.map fun desc => depstring.drop (desc + 2)
    mod }

/-- The operator that `alpm_dep_compute_string` prints. -/
def Depmod.opr : Depmod → CString
  | .any => []
  | .ge => ['>', '=']
  | .le => ['<', '=']
  | .eq => ['=']
  | .lt => ['<']
  | .gt => ['>']

/-- `alpm_dep_compute_string`. -/
def depComputeString (dep : Depend) : CString :=
  let ver := if dep.mod ≠ .any then dep.version.getD [] else []
  let desc := match dep.desc with
    | some desc => str ": " ++ desc
    | none => []
  dep.name ++ dep.mod.opr ++ ver ++ desc

/-! ## Printing what was parsed -/

/-- The text before the description is cut in three. -/
theorem take_append_opr {s opr : CString} {ptr deplen : ℕ} (hptr : ptr + opr.length ≤ deplen)
    (h : s.drop ptr = opr ++ s.drop (ptr + opr.length)) :
    s.take ptr ++ opr ++ (s.drop (ptr + opr.length)).take (deplen - (ptr + opr.length)) =
      s.take deplen := by
  obtain ⟨k, rfl⟩ := Nat.exists_eq_add_of_le hptr
  rw [Nat.add_sub_cancel_left, List.append_assoc, Nat.add_assoc, List.take_add, h]
  congr 1
  rw [List.take_append, List.take_of_length_le (Nat.le_add_right _ _), Nat.add_sub_cancel_left]

theorem deref_eq_of_ne_nul {s : CString} {c : Char} (hc : c ≠ '\x00') (h : deref s = c) :
    s = c :: s.tail := by
  cases s with
  | nil => exact absurd h.symm hc
  | cons d s => rw [← h]; rfl

/-- An operator of two bytes does not reach into the description. -/
theorem drop_eq_of_equals {s : CString} {c : Char} {ptr deplen : ℕ}
    (hptr : ptr < deplen) (hs : s.drop ptr = c :: s.drop (ptr + 1))
    (heq : deref (s.drop (ptr + 1)) = '=') (hend : deref (s.drop deplen) ≠ '=') :
    ptr + 2 ≤ deplen ∧ s.drop ptr = [c, '='] ++ s.drop (ptr + 2) := by
  constructor
  · by_contra hlt
    obtain rfl : deplen = ptr + 1 := by omega
    exact hend heq
  · have := deref_eq_of_ne_nul (by decide) heq
    rw [List.tail_drop] at this
    rw [hs, this]
    rfl

/-- What the parser finds: nothing, or an operator before the description. -/
theorem findComparator_cases {s : CString} {deplen : ℕ} (hend : deref (s.drop deplen) ≠ '=') :
    findComparator s deplen = (.any, deplen, none) ∨
      ∃ mod ptr, findComparator s deplen = (mod, ptr, some (ptr + mod.opr.length)) ∧ mod ≠ .any ∧
        ptr + mod.opr.length ≤ deplen ∧ s.drop ptr = mod.opr ++ s.drop (ptr + mod.opr.length) := by
  unfold findComparator
  cases hlt : memchr s '<' deplen with
  | some ptr =>
    obtain ⟨hptr, hs⟩ := memchr_eq_some hlt
    right
    dsimp only
    split_ifs with heq
    · exact ⟨.le, ptr, rfl, by decide, drop_eq_of_equals hptr hs heq hend⟩
    · exact ⟨.lt, ptr, rfl, by decide, hptr, hs⟩
  | none =>
  cases hgt : memchr s '>' deplen with
  | some ptr =>
    obtain ⟨hptr, hs⟩ := memchr_eq_some hgt
    right
    dsimp only
    split_ifs with heq
    · exact ⟨.ge, ptr, rfl, by decide, drop_eq_of_equals hptr hs heq hend⟩
    · exact ⟨.gt, ptr, rfl, by decide, hptr, hs⟩
  | none =>
  cases heq : memchr s '=' deplen with
  | some ptr =>
    obtain ⟨hptr, hs⟩ := memchr_eq_some heq
    exact Or.inr ⟨.eq, ptr, rfl, by decide, hptr, hs⟩
  | none => exact Or.inl rfl

/-- The description starts with a colon. -/
theorem deref_drop_desc (s : CString) :
    deref (s.drop ((strstr (str ": ") s).getD s.length)) ≠ '=' := by
  cases hdesc : strstr (str ": ") s with
  | none => simp
  | some desc =>
    have hs := strstr_eq_some hdesc
    have hlen : (s.take desc).length = desc := by
      have := congrArg List.length hs
      simp [str] at this ⊢
      omega
    rw [Option.getD_some, hs, List.append_assoc, List.drop_left' hlen]
    simp [str]

/-- **Printing undoes parsing.**  The parser cuts a string in pieces at an operator and at the
separator of a description, and the printer puts the same pieces together again with the same texts
between them. -/
theorem depComputeString_depFromString (s : CString) : depComputeString (depFromString s) = s := by
  have hbody : ∀ dep, depFromString s = dep → dep.name ++ dep.mod.opr ++
      (if dep.mod ≠ .any then dep.version.getD [] else []) =
        s.take ((strstr (str ": ") s).getD s.length) := by
    rintro _ rfl
    unfold depFromString
    rcases findComparator_cases (deref_drop_desc s) with h | ⟨mod, ptr, h, hmod, hle, hs⟩
    · simp [h, Depmod.opr]
    · simp only [h, ne_eq, hmod, not_false_eq_true, if_true, Option.map_some, Option.getD_some]
      exact take_append_opr hle hs
  rw [depComputeString, hbody _ rfl]
  cases hdesc : strstr (str ": ") s with
  | none => simp [depFromString, hdesc]
  | some desc =>
    have hs := strstr_eq_some hdesc
    rw [List.append_assoc] at hs
    simp only [depFromString, hdesc, Option.map_some, Option.getD_some]
    exact hs.symm

/-! ## Parsing what was printed -/

/-- The string does not hold the separator before a description. -/
theorem not_infix_iff_isChain {s : CString} :
    ¬ str ": " <:+: s ↔ s.IsChain fun a b => ¬ (a = ':' ∧ b = ' ') := by
  rw [List.isChain_iff_forall_rel_of_append_cons_cons]
  constructor
  · rintro h a b l₁ l₂ rfl ⟨rfl, rfl⟩
    exact h ⟨l₁, l₂, by simp [str]⟩
  · rintro h ⟨l₁, l₂, rfl⟩
    exact @h ':' ' ' l₁ l₂ (by simp [str]) ⟨rfl, rfl⟩

theorem strstr_eq_none {s : CString} (h : ¬ str ": " <:+: s) : strstr (str ": ") s = none := by
  by_contra hsome
  obtain ⟨i, hi⟩ := Option.ne_none_iff_exists'.mp hsome
  exact h ⟨s.take i, s.drop (i + (str ": ").length), (strstr_eq_some hi).symm⟩

/-- The parser finds the separator that was printed. -/
theorem strstr_append {s : CString} (h : ¬ str ": " <:+: s) (desc : CString) :
    strstr (str ": ") (s ++ (str ": " ++ desc)) = some s.length := by
  have hchain := not_infix_iff_isChain.mp h
  clear h
  induction s with
  | nil => simp [strstr, str]
  | cons c s ih =>
    have hhead : ¬ (str ": ").isPrefixOf (c :: (s ++ (str ": " ++ desc))) := by
      cases s with
      | nil => simp [str]
      | cons d s =>
        rw [show str ": " = [':', ' '] by simp [str], List.isPrefixOf_iff_prefix, List.cons_append,
          List.cons_prefix_cons, List.cons_prefix_cons]
        rintro ⟨hc, hd, -⟩
        exact (List.isChain_cons_cons.mp hchain).1 ⟨hc.symm, hd.symm⟩
    rw [List.cons_append, strstr, if_neg hhead, ih hchain.of_cons]
    rfl

/-- The parser finds the operator that was printed. -/
theorem findComparator_append {name ver tail : CString} {mod : Depmod}
    (hname : '<' ∉ name ∧ '>' ∉ name ∧ '=' ∉ name) (hver : '<' ∉ ver ∧ '>' ∉ ver)
    (hstart : deref (ver ++ tail) ≠ '=') (hmod : mod ≠ .any) :
    findComparator (name ++ mod.opr ++ ver ++ tail) (name ++ mod.opr ++ ver).length =
      (mod, name.length, some (name.length + mod.opr.length)) := by
  obtain ⟨s, hs⟩ : ∃ s, s = name ++ mod.opr ++ ver ++ tail := ⟨_, rfl⟩
  have htake : s.take (name ++ mod.opr ++ ver).length = name ++ mod.opr ++ ver := by
    rw [hs, List.take_left]
  have hdrop : s.drop (name.length + 1) = mod.opr.tail ++ (ver ++ tail) := by
    rw [hs]
    cases mod <;> simp [Depmod.opr] at hmod ⊢
  have hfound : ∀ c, mod.opr.head? = some c → c ∉ name →
      memchr s c (name ++ mod.opr ++ ver).length = some name.length := by
    intro c hc hmem
    obtain ⟨t, ht⟩ := List.head?_eq_some_iff.mp hc
    rw [hs, ht, List.append_assoc, List.append_assoc, List.cons_append]
    exact memchr_append hmem (by simp)
  have hnone : ∀ c, c ∉ name → c ∉ mod.opr → c ∉ ver →
      memchr s c (name ++ mod.opr ++ ver).length = none := by
    intro c hname hopr hver
    refine memchr_eq_none ?_
    rw [htake, List.mem_append, List.mem_append]
    exact not_or.mpr ⟨not_or.mpr ⟨hname, hopr⟩, hver⟩
  rw [← hs]
  unfold findComparator
  cases mod with
  | any => exact absurd rfl hmod
  | le =>
    rw [hfound '<' rfl hname.1]
    simp [hdrop, Depmod.opr]
  | lt =>
    rw [hfound '<' rfl hname.1]
    simpa [hdrop, Depmod.opr] using hstart
  | ge =>
    rw [hnone '<' hname.1 (by decide) hver.1,
      hfound '>' rfl hname.2.1]
    simp [hdrop, Depmod.opr]
  | gt =>
    rw [hnone '<' hname.1 (by decide) hver.1,
      hfound '>' rfl hname.2.1]
    simpa [hdrop, Depmod.opr] using hstart
  | eq =>
    rw [hnone '<' hname.1 (by decide) hver.1,
      hnone '>' hname.2.1 (by decide) hver.2,
      hfound '=' rfl hname.2.2]
    rfl

/-- The parser finds no operator where none was printed. -/
theorem findComparator_name {name tail : CString}
    (hname : '<' ∉ name ∧ '>' ∉ name ∧ '=' ∉ name) :
    findComparator (name ++ tail) name.length = (.any, name.length, none) := by
  unfold findComparator
  rw [memchr_eq_none (c := '<') (by simpa using hname.1),
    memchr_eq_none (c := '>') (by simpa using hname.2.1),
    memchr_eq_none (c := '=') (by simpa using hname.2.2)]

/-- What is printed before the description does not hold the separator. -/
theorem not_infix_body {name ver : CString} {mod : Depmod} (hname : ¬ str ": " <:+: name)
    (hver : ¬ str ": " <:+: ver) (hmod : mod ≠ .any) :
    ¬ str ": " <:+: name ++ mod.opr ++ ver := by
  rw [not_infix_iff_isChain] at hname hver ⊢
  rw [List.append_assoc, List.isChain_append, List.isChain_append]
  refine ⟨hname, ⟨?_, hver, ?_⟩, ?_⟩
  · cases mod <;> simp [Depmod.opr]
  · cases mod <;> simp [Depmod.opr] at hmod ⊢
  · cases mod <;> simp [Depmod.opr] at hmod ⊢

/-- **Parsing undoes printing** when the operator and the description are where the parser looks for
them.  An operator in the name would be found before the one that was printed, a `<` or `>` in the
version would be preferred to an `=`, and the separator of a description is found wherever it stands
first. -/
theorem depFromString_depComputeString {d : Depend}
    (hname : '<' ∉ d.name ∧ '>' ∉ d.name ∧ '=' ∉ d.name)
    (hver : ∀ ver ∈ d.version, '<' ∉ ver ∧ '>' ∉ ver ∧ ver.head? ≠ some '=')
    (hnameDesc : ¬ str ": " <:+: d.name)
    (hverDesc : ∀ ver ∈ d.version, ¬ str ": " <:+: ver)
    (hmod : d.mod = .any ↔ d.version = none) :
    depFromString (depComputeString d) = d := by
  obtain ⟨name, version, desc, mod⟩ := d
  dsimp only at *
  -- the text before the description, and the description
  obtain ⟨tail, htail⟩ : ∃ tail : CString, tail = match desc with
    | some desc => str ": " ++ desc
    | none => [] := ⟨_, rfl⟩
  have hparse : ∀ body, ¬ str ": " <:+: body →
      (strstr (str ": ") (body ++ tail)).getD (body ++ tail).length = body.length ∧
        ((strstr (str ": ") (body ++ tail)).map fun i => (body ++ tail).drop (i + 2)) = desc := by
    intro body hbody
    cases desc with
    | none => simp [htail, strstr_eq_none hbody]
    | some desc =>
      simp only [htail, strstr_append hbody, Option.getD_some, Option.map_some, true_and]
      simp [str]
  have htailStart : deref tail ≠ '=' := by
    cases desc <;> simp [htail, str]
  cases version with
  | none =>
    obtain rfl := hmod.mpr rfl
    obtain ⟨hlen, hdesc⟩ := hparse name hnameDesc
    have hprint : depComputeString ⟨name, none, desc, .any⟩ = name ++ tail := by
      rw [htail]
      simp [depComputeString, Depmod.opr]
    rw [hprint, depFromString]
    simp only [hlen, hdesc, findComparator_name hname, List.take_left, Option.map_none]
  | some ver =>
    have hany : mod ≠ .any := fun h => by simpa using hmod.mp h
    obtain ⟨hlt, hgt, hstart⟩ := hver ver rfl
    have hbody := not_infix_body hnameDesc (hverDesc ver rfl) hany
    obtain ⟨hlen, hdesc⟩ := hparse _ hbody
    have hprint : depComputeString ⟨name, some ver, desc, mod⟩ =
        name ++ mod.opr ++ ver ++ tail := by
      rw [htail]
      simp [depComputeString, hany]
    have hderef : deref (ver ++ tail) ≠ '=' := by
      cases ver with
      | nil => exact htailStart
      | cons c ver => simpa using hstart
    rw [hprint, depFromString]
    simp only [hlen, hdesc, findComparator_append hname ⟨hlt, hgt⟩ hderef hany]
    have htake : (name ++ mod.opr ++ ver ++ tail).take name.length = name := by simp
    have hdrop : (name ++ mod.opr ++ ver ++ tail).drop (name.length + mod.opr.length) =
        ver ++ tail := by
      rw [List.append_assoc]
      exact List.drop_left' (List.length_append ..)
    have hcut : (ver ++ tail).take
        ((name ++ mod.opr ++ ver).length - (name.length + mod.opr.length)) = ver := by
      refine List.take_left' ?_
      simp only [List.length_append]
      omega
    rw [htake, Option.map_some, hdrop, hcut]

/-- **Dependency strings print and parse inversely.**  One way round nothing is assumed of the
string.  The other way round the side conditions are one for each search of the parser: the name
holds no operator, the version holds none that would be found before the one that was printed, and
neither holds what separates the description. -/
theorem depstring_round_trips :
    (∀ s, depComputeString (depFromString s) = s) ∧
      ∀ d : Depend, ('<' ∉ d.name ∧ '>' ∉ d.name ∧ '=' ∉ d.name) →
        (∀ ver ∈ d.version, '<' ∉ ver ∧ '>' ∉ ver ∧ ver.head? ≠ some '=') →
        ¬ str ": " <:+: d.name → (∀ ver ∈ d.version, ¬ str ": " <:+: ver) →
        (d.mod = .any ↔ d.version = none) →
        depFromString (depComputeString d) = d :=
  ⟨depComputeString_depFromString, fun _ => depFromString_depComputeString⟩

/-- An optional dependency with a version. -/
theorem depstring_round_trips_optional :
    depComputeString (depFromString (str "a=<1:2: b")) = str "a=<1:2: b" ∧
      depFromString (depComputeString ⟨str "foo", some (str "1:2"), some (str "for > all"), .ge⟩) =
        ⟨str "foo", some (str "1:2"), some (str "for > all"), .ge⟩ := by
  refine ⟨depstring_round_trips.1 _, depstring_round_trips.2 _ ?_ ?_ ?_ ?_ ?_⟩
  · simp [str]
  · simp [str]
  · rw [not_infix_iff_isChain]
    simp [str]
  · simp only [Option.mem_some_iff, forall_eq', not_infix_iff_isChain]
    simp [str]
  · simp

end Alpm
