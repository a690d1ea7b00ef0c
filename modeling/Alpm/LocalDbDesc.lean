import Alpm.LocalDbRoundTrip

/-!
# Reading back any record

The converse of the round trip for the `desc` file.  What is read from a `desc` file can be written
again (`Legible`), but a list with an element that fills the line buffer before its end is not read
back: the rest of it is taken for other lines.

That the record differs is not clear at once, since the rest of a list may hold headings and be read
as other sections, even as one of the same name.  The argument is a count.  `weight` counts the
elements of the lists of a record.  A section adds no more elements than it has lines, and a heading
is a line that is no element; so from a text no more elements are read than the lists have that were
written to it (`Gains`), and where a list is cut one of its lines is lost as the place of the cut
(`weight_readDesc_writeDesc_lt`).
-/

namespace Alpm.LocalDb

/-! ## Sections -/

theorem mem_of_sectionOf {line : CString} {sec : DescSection} (h : sectionOf line = some sec) :
    (line, sec) ∈ descSections := by
  obtain ⟨⟨heading, sec'⟩, hfind, rfl⟩ := Option.map_eq_some_iff.mp h
  have heq := List.find?_some hfind
  rw [decide_eq_true_eq, strcmp_eq_zero] at heq
  rw [heq]
  exact List.mem_of_find?_eq_some hfind

/-- A list as it is read: lines that are not empty. -/
def Lines (lines : List CString) : Prop := ∀ line ∈ lines, line ≠ [] ∧ Line line

/-- A section keeps a property of the record, whatever is read. -/
def DescSection.Keeps (P : Pkg → Prop) : DescSection → Prop
  | .check => True
  | .store f => ∀ pkg line, P pkg → Line line → P (f pkg line)
  | .storeAll f => ∀ pkg lines, P pkg → Lines lines → P (f pkg lines)

theorem DescSection.Keeps.readSection {P : Pkg → Prop} {sec : DescSection} (h : sec.Keeps P)
    {fp : Input} {pkg : Pkg} (hfp : Line fp.line) (hpkg : P pkg) :
    P (readSection sec fp pkg).2 := by
  cases sec with
  | check => exact hpkg
  | store f => exact h pkg _ hpkg (line_readNext hfp)
  | storeAll f => exact h pkg _ hpkg (line_of_mem_readAll fp)

theorem line_readSection {fp : Input} (hfp : Line fp.line) (sec : DescSection) (pkg : Pkg) :
    Line (readSection sec fp pkg).1.line := by
  cases sec with
  | check => exact line_readNext hfp
  | store f => exact line_readNext hfp
  | storeAll f => exact line_readAll hfp

/-- What every section keeps is kept by the loop. -/
theorem readDesc_keeps {P : Pkg → Prop}
    (hkeeps : ∀ line sec, sectionOf line = some sec → sec.Keeps P) {fp : Input} {pkg : Pkg}
    (hfp : Line fp.line) (hpkg : P pkg) : P (readDesc fp pkg) := by
  fun_induction readDesc fp pkg with
  | case1 fp pkg heof => exact hpkg
  | case2 fp pkg heof hlt hline ih => exact ih (line_readNext hfp) hpkg
  | case3 fp pkg heof hlt hline hsec ih => exact ih (line_readNext hfp) hpkg
  | case4 fp pkg heof hlt hline sec hsec _ ih =>
    have hnext := line_readNext hfp
    exact ih (line_readSection hnext sec pkg) ((hkeeps _ sec hsec).readSection hnext hpkg)

theorem line_nil : Line [] := ⟨List.not_mem_nil, by decide⟩

/-! ## What can be written again -/

theorem inRange_of_strtoll {line : CString} {n : Int} (h : (strtoll line).1 = some n) :
    InRange n := by
  unfold strtoll at h
  dsimp only at h
  split_ifs at h with hdigits hneg hrange hrange
  · obtain rfl := Option.some.inj h
    exact ⟨by decide, by decide⟩
  · obtain rfl := Option.some.inj h
    exact hrange
  · obtain rfl := Option.some.inj h
    exact hrange

theorem inRange_zero : InRange 0 := ⟨by decide, by decide⟩

theorem inRange_parsedate (line : CString) : InRange (parsedate line) := by
  unfold parsedate
  split
  next result h => exact inRange_of_strtoll (congrArg Prod.fst h)
  · exact inRange_zero
  · exact inRange_zero

theorem inRange_strtoofft (line : CString) : InRange (strtoofft line) := by
  have herror : InRange (-1) := ⟨by decide, by decide⟩
  unfold strtoofft
  split_ifs
  · exact herror
  split
  next result h =>
    have hlt : result < 2 ^ 64 := by
      have hsome := congrArg Prod.fst h
      unfold strtoull at hsome
      dsimp only at hsome
      split_ifs at hsome with hlt
      exact (Option.some.inj hsome) ▸ hlt
    unfold InRange
    split_ifs <;> omega
  · exact herror
  · exact herror

theorem validationBit_lt (word : CString) : validationBit word < 16 := by
  unfold validationBit
  split_ifs <;> decide

theorem foldl_validationBit_lt {validation : ℕ} (h : validation < 16) (words : List CString) :
    words.foldl (fun validation word => validation ||| validationBit word) validation < 16 := by
  induction words generalizing validation with
  | nil => exact h
  | cons word words ih =>
    have hstep : validation ||| validationBit word < 2 ^ 4 :=
      Nat.or_lt_two_pow h (validationBit_lt word)
    exact ih hstep

theorem forall_mem_some_line {value : CString} (h : Line value) : ∀ line ∈ some value, Line line :=
  fun _ hline => Option.mem_some_iff.mp hline ▸ h

/-- A list of dependencies as it is read. -/
def ParsedLines (deplist : List Depend) : Prop :=
  ∃ lines, Lines lines ∧ deplist = lines.map depFromString

theorem ParsedLines.append {deplist : List Depend} (h : ParsedLines deplist) {lines : List CString}
    (hlines : Lines lines) : ParsedLines (deplist ++ lines.map depFromString) := by
  obtain ⟨front, hfront, rfl⟩ := h
  exact ⟨front ++ lines, List.forall_mem_append.mpr ⟨hfront, hlines⟩, List.map_append.symm⟩

theorem ParsedLines.print {deplist : List Depend} (h : ParsedLines deplist) :
    Lines (deplist.map depComputeString) := by
  obtain ⟨lines, hlines, rfl⟩ := h
  rw [List.map_map]
  refine List.forall_mem_map.mpr fun line hline => ?_
  show depComputeString (depFromString line) ≠ [] ∧ _
  rw [Function.comp_apply, depComputeString_depFromString]
  exact hlines line hline

theorem ParsedLines.parsed {deplist : List Depend} (h : ParsedLines deplist) :
    ∀ dep ∈ deplist, Parsed dep := by
  obtain ⟨lines, hlines, rfl⟩ := h
  exact List.forall_mem_map.mpr fun line hline =>
    ⟨line, (hlines line hline).1, (hlines line hline).2.1, rfl⟩

/-- What can be read from a `desc` file, with or without an end: its lines fit the buffer and are
not empty where they are elements of lists, and its dependencies were parsed.  A record that was
read can be written again for that reason. -/
structure Legible (info : Pkg) : Prop where
  base : ∀ line ∈ info.base, Line line
  desc : ∀ line ∈ info.desc, Line line
  url : ∀ line ∈ info.url, Line line
  arch : ∀ line ∈ info.arch, Line line
  packager : ∀ line ∈ info.packager, Line line
  builddate : InRange info.builddate
  installdate : InRange info.installdate
  isize : InRange info.isize
  validation : info.validation < 16
  groups : Lines info.groups
  licenses : Lines info.licenses
  replaces : ParsedLines info.replaces
  depends : ParsedLines info.depends
  optdepends : ParsedLines info.optdepends
  conflicts : ParsedLines info.conflicts
  provides : ParsedLines info.provides

theorem legible_keeps {line : CString} {sec : DescSection} (h : sectionOf line = some sec) :
    sec.Keeps Legible := by
  have happend : ∀ {lines lines' : List CString}, Lines lines → Lines lines' →
      Lines (lines ++ lines') := fun h h' => List.forall_mem_append.mpr ⟨h, h'⟩
  have hall : ∀ heading ∈ descSections, heading.2.Keeps Legible := by
    simp only [descSections, List.forall_mem_cons]
    exact ⟨trivial, trivial,
      fun pkg line h hline => { h with base := forall_mem_some_line hline },
      fun pkg line h hline => { h with desc := forall_mem_some_line hline },
      fun pkg lines h hlines => { h with groups := happend h.groups hlines },
      fun pkg line h hline => { h with url := forall_mem_some_line hline },
      fun pkg lines h hlines => { h with licenses := happend h.licenses hlines },
      fun pkg line h hline => { h with arch := forall_mem_some_line hline },
      fun pkg line h hline => { h with builddate := inRange_parsedate line },
      fun pkg line h hline => { h with installdate := inRange_parsedate line },
      fun pkg line h hline => { h with packager := forall_mem_some_line hline },
      fun pkg line h hline => { h with },
      fun pkg lines h hlines => { h with validation := foldl_validationBit_lt h.validation lines },
      fun pkg line h hline => { h with isize := inRange_strtoofft line },
      fun pkg lines h hlines => { h with replaces := h.replaces.append hlines },
      fun pkg lines h hlines => { h with depends := h.depends.append hlines },
      fun pkg lines h hlines => { h with optdepends := h.optdepends.append hlines },
      fun pkg lines h hlines => { h with },
      fun pkg lines h hlines => { h with },
      fun pkg lines h hlines => { h with conflicts := h.conflicts.append hlines },
      fun pkg lines h hlines => { h with provides := h.provides.append hlines },
      by simp⟩
  exact hall _ (mem_of_sectionOf h)

theorem Legible.readDesc {pkg : Pkg} (h : Legible pkg) (text : CString) :
    Legible (readDesc { text } pkg) :=
  readDesc_keeps (fun _ _ => legible_keeps) line_nil h

theorem Legible.descWritable {info : Pkg} (h : Legible info) (hname : Line info.name)
    (hversion : Line info.version) (hlists : ∀ list ∈ descLists info, Readable list) :
    DescWritable info where
  strings := by
    simp only [List.forall_mem_cons]
    exact ⟨forall_mem_some_line hname, forall_mem_some_line hversion, h.base, h.desc, h.url,
      h.arch, h.packager, by simp⟩
  lists := hlists
  lines := by
    simp only [List.forall_mem_append]
    exact ⟨fun line hline => ⟨(h.groups line hline).1, (h.groups line hline).2.1⟩,
      fun line hline => ⟨(h.licenses line hline).1, (h.licenses line hline).2.1⟩⟩
  deps := by
    simp only [List.forall_mem_append]
    exact ⟨⟨⟨⟨h.replaces.parsed, h.depends.parsed⟩, h.optdepends.parsed⟩, h.conflicts.parsed⟩,
      h.provides.parsed⟩
  numbers := by
    simp only [List.forall_mem_cons]
    exact ⟨h.builddate, h.installdate, h.isize, by simp⟩
  validation := h.validation

/-! ## The number of elements -/

/-- The number of elements in the lists of the record. -/
def weight (pkg : Pkg) : ℕ :=
  pkg.groups.length + pkg.licenses.length + pkg.replaces.length + pkg.depends.length +
    pkg.optdepends.length + pkg.makedepends.length + pkg.checkdepends.length +
    pkg.conflicts.length + pkg.provides.length

/-- A section with one line adds no element, and one with a list adds all its lines, but for that of
`%VALIDATION%`, which adds none. -/
def DescSection.Weighted : DescSection → Prop
  | .check => True
  | .store f => ∀ pkg line, weight (f pkg line) = weight pkg
  | .storeAll f => ∃ c ≤ 1, ∀ pkg lines, weight (f pkg lines) = weight pkg + c * lines.length

theorem weighted_of_sectionOf {line : CString} {sec : DescSection} (h : sectionOf line = some sec) :
    sec.Weighted := by
  have hstore : ∀ {f : Pkg → CString → Pkg}, (∀ pkg line, weight (f pkg line) = weight pkg) →
      (DescSection.store f).Weighted := id
  have hlist : ∀ {f : Pkg → List CString → Pkg},
      (∀ pkg lines, weight (f pkg lines) = weight pkg + lines.length) →
      (DescSection.storeAll f).Weighted := fun hf =>
    ⟨1, le_rfl, fun pkg lines => by rw [hf, one_mul]⟩
  have hall : ∀ heading ∈ descSections, heading.2.Weighted := by
    simp only [descSections, List.forall_mem_cons]
    refine ⟨trivial, trivial, hstore fun _ _ => rfl, hstore fun _ _ => rfl, hlist ?_,
      hstore fun _ _ => rfl, hlist ?_, hstore fun _ _ => rfl, hstore fun _ _ => rfl,
      hstore fun _ _ => rfl, hstore fun _ _ => rfl, hstore fun _ _ => rfl,
      ⟨0, Nat.zero_le _, fun _ _ => by rw [zero_mul]; rfl⟩, hstore fun _ _ => rfl, hlist ?_,
      hlist ?_, hlist ?_, hlist ?_, hlist ?_, hlist ?_, hlist ?_, by simp⟩
    all_goals
      intro pkg lines
      simp only [weight, List.length_append, List.length_map]
      omega
  exact hall _ (mem_of_sectionOf h)

theorem DescSection.Weighted.storeAll_le {f : Pkg → List CString → Pkg}
    (h : (DescSection.storeAll f).Weighted) (pkg : Pkg) (lines : List CString) :
    weight (f pkg lines) ≤ weight pkg + lines.length := by
  obtain ⟨c, hc, hf⟩ := h
  rw [hf]
  exact Nat.add_le_add_left (by simpa using Nat.mul_le_mul_right lines.length hc) _

theorem DescSection.Weighted.keeps {sec : DescSection} (h : sec.Weighted) (n : ℕ) :
    sec.Keeps (n ≤ weight ·) := by
  cases sec with
  | check => exact trivial
  | store f => exact fun pkg line hpkg _ => hpkg.trans (h pkg line).ge
  | storeAll f =>
    obtain ⟨c, -, hf⟩ := h
    exact fun pkg lines hpkg _ => (hpkg.trans (Nat.le_add_right _ _)).trans (hf pkg lines).ge

theorem weight_readDesc {fp : Input} (hfp : Line fp.line) (pkg : Pkg) :
    weight pkg ≤ weight (readDesc fp pkg) :=
  readDesc_keeps (P := (weight pkg ≤ weight ·))
    (fun _ _ hsec => (weighted_of_sectionOf hsec).keeps _) hfp le_rfl

/-! ## Lines of a list that are not read as such -/

/-- Where the loop looks for headings, the lines of a list add no more elements than they are. -/
def Bounded (lines : List CString) (rest : CString) : Prop :=
  ∀ old pkg, ∃ pkg', readDesc { text := listText lines rest, line := old } pkg =
      readDesc { text := rest } pkg' ∧ weight pkg' ≤ weight pkg + lines.length

theorem Bounded.behind {lines : List CString} {rest : CString} (h : Bounded lines rest)
    (line : CString) (pkg : Pkg) :
    ∃ pkg', readDesc { text := behind line (listText lines rest), line } pkg =
      readDesc { text := rest } pkg' ∧ weight pkg' ≤ weight pkg + lines.length := by
  unfold LocalDb.behind
  split_ifs
  · rw [readDesc_blank]
    exact h _ pkg
  · exact h _ pkg

/-- The line after a heading is one of the list, or the empty line after it. -/
theorem readNext_listText {lines : List CString} {rest : CString} (hlines : Lines lines)
    (hbounded : ∀ after, after <:+ lines → Bounded after rest) {f : Pkg → CString → Pkg}
    (hf : ∀ pkg line, weight (f pkg line) = weight pkg) (line : CString) (pkg : Pkg) :
    ∃ pkg', readDesc (readNext { text := listText lines rest, line })
        (f pkg (readNext { text := listText lines rest, line }).line) =
      readDesc { text := rest } pkg' ∧ weight pkg' ≤ weight pkg + lines.length := by
  cases lines with
  | nil =>
    have hblank : readNext { text := '\n' :: rest, line } = { text := rest } :=
      @readNext_line [] rest line line_nil
    rw [listText_nil, hblank]
    exact ⟨f pkg [], rfl, (hf pkg []).le⟩
  | cons next lines =>
    obtain ⟨⟨-, hnext⟩, hlines⟩ := List.forall_mem_cons.mp hlines
    rw [listText_cons, readNext_line hnext]
    obtain ⟨pkg', hread, hweight⟩ :=
      (hbounded lines (List.suffix_cons ..)).behind next (f pkg next)
    rw [hf] at hweight
    exact ⟨pkg', hread, hweight.trans (by simp)⟩

theorem readSection_listText {lines : List CString} {rest : CString} (hlines : Lines lines)
    (hbounded : ∀ after, after <:+ lines → Bounded after rest) {sec : DescSection}
    (hsec : sec.Weighted) (line : CString) (pkg : Pkg) :
    ∃ pkg', readDesc (readSection sec { text := listText lines rest, line } pkg).1
        (readSection sec { text := listText lines rest, line } pkg).2 =
      readDesc { text := rest } pkg' ∧ weight pkg' ≤ weight pkg + lines.length := by
  cases sec with
  | check =>
    exact readNext_listText (f := fun pkg _ => pkg) hlines hbounded (fun _ _ => rfl) line pkg
  | store f => exact readNext_listText hlines hbounded hsec line pkg
  | storeAll f =>
    obtain ⟨list, left, hread, hlist, hleft⟩ := @readAll_listText lines rest line
      fun line hline => ⟨(hlines line hline).2.2, (hlines line hline).2.1⟩
    have hle := hsec.storeAll_le pkg list
    simp only [readSection, hread]
    rcases hleft with rfl | ⟨after, hafter, rfl, hcount⟩
    · exact ⟨f pkg list, rfl, by omega⟩
    · obtain ⟨pkg', hread, hweight⟩ := hbounded after hafter [] (f pkg list)
      exact ⟨pkg', hread, by omega⟩

/-- The first line, which is a heading or none, is itself no element. -/
theorem readDesc_listText_cons {line : CString} {lines : List CString} {rest : CString}
    (hlines : Lines (line :: lines)) (hbounded : ∀ after, after <:+ lines → Bounded after rest)
    (old : CString) (pkg : Pkg) :
    ∃ pkg', readDesc { text := listText (line :: lines) rest, line := old } pkg =
      readDesc { text := rest } pkg' ∧ weight pkg' ≤ weight pkg + lines.length := by
  obtain ⟨⟨hne, hline⟩, hlines⟩ := List.forall_mem_cons.mp hlines
  rw [listText_cons, readDesc_of_not_eof rfl, readNext_line hline, if_neg hne]
  cases hsec : sectionOf line with
  | none => exact (hbounded lines List.suffix_rfl).behind line pkg
  | some sec =>
    rw [behind_of_lt (heading_line hsec).2.2]
    exact readSection_listText hlines hbounded (weighted_of_sectionOf hsec) line pkg

theorem bounded_of_suffix {lines : List CString} (hlines : Lines lines) (rest : CString) :
    ∀ after, after <:+ lines → Bounded after rest := by
  induction lines with
  | nil =>
    intro after hafter old pkg
    obtain rfl := List.suffix_nil.mp hafter
    exact ⟨pkg, readDesc_blank pkg, le_rfl⟩
  | cons line lines ih =>
    intro after hafter
    have hrest := ih (List.forall_mem_cons.mp hlines).2
    rcases List.suffix_cons_iff.mp hafter with rfl | hafter
    · intro old pkg
      obtain ⟨pkg', hread, hweight⟩ := readDesc_listText_cons hlines hrest old pkg
      exact ⟨pkg', hread, hweight.trans (Nat.le_succ _)⟩
    · exact hrest after hafter

/-- Of the text no more than `n` elements are read, whatever comes after it and whatever record the
reading begins with.  It composes like `Reads`, with a sum in the place of a record. -/
def Gains (text : CString) (n : ℕ) : Prop :=
  ∀ rest pkg, ∃ pkg', readDesc { text := text ++ rest } pkg = readDesc { text := rest } pkg' ∧
    weight pkg' ≤ weight pkg + n

theorem Gains.append {text text' : CString} {n m : ℕ} (h : Gains text n) (h' : Gains text' m) :
    Gains (text ++ text') (n + m) := by
  intro rest pkg
  obtain ⟨pkg', hread, hweight⟩ := h (text' ++ rest) pkg
  obtain ⟨pkg'', hread', hweight'⟩ := h' rest pkg'
  rw [List.append_assoc, hread, hread']
  exact ⟨pkg'', rfl, by omega⟩

theorem Gains.mono {text : CString} {n m : ℕ} (h : Gains text n) (hle : n ≤ m) :
    Gains text m := by
  intro rest pkg
  obtain ⟨pkg', hread, hweight⟩ := h rest pkg
  exact ⟨pkg', hread, hweight.trans (Nat.add_le_add_left hle _)⟩

theorem Gains.nil (n : ℕ) : Gains [] n := fun _ pkg => ⟨pkg, rfl, Nat.le_add_right _ _⟩

theorem Gains.weight_le {text : CString} {n : ℕ} (h : Gains text n) (pkg : Pkg) :
    weight (readDesc { text } pkg) ≤ weight pkg + n := by
  obtain ⟨pkg', hread, hweight⟩ := h [] pkg
  rw [List.append_nil, readDesc_nil] at hread
  rwa [hread]

variable (header : CString)

theorem gains_check {value : CString} (hsec : sectionOf header = some .check)
    (hvalue : Line value) : Gains (writeField header (some value)) 0 :=
  fun rest pkg => ⟨pkg, reads_check header hsec hvalue rest, le_rfl⟩

theorem gains_field {f : Pkg → CString → Pkg} {value : Option CString}
    (hsec : sectionOf header = some (.store f)) (hvalue : ∀ line ∈ value, Line line) :
    Gains (writeField header value) 0 := by
  cases value with
  | none => exact Gains.nil 0
  | some line => exact fun rest pkg =>
      ⟨f pkg line, reads_store header hsec (hvalue line rfl) rest,
        (weighted_of_sectionOf hsec pkg line).le⟩

theorem gains_number {f : Pkg → CString → Pkg} {n : Int}
    (hsec : sectionOf header = some (.store f)) (hn : InRange n) :
    Gains (writeField header (numberField n)) 0 := by
  refine gains_field header hsec ?_
  unfold numberField
  split_ifs
  · exact forall_mem_some_line hn.line
  · simp

/-- The elements that are read of a list, at most: one that fills the line buffer before the end
of the list is the last of it. -/
def gain (lines : List CString) : ℕ := if Readable lines then lines.length else lines.length - 1

theorem gains_lines {f : Pkg → List CString → Pkg} {lines : List CString}
    (hsec : sectionOf header = some (.storeAll f)) (hlines : Lines lines) :
    Gains (writeLines header lines) (gain lines) := by
  intro rest pkg
  have hweighted := weighted_of_sectionOf hsec
  rw [writeLines_append, readDesc_heading hsec]
  unfold gain
  split_ifs with hreadable
  · exact readSection_listText hlines (bounded_of_suffix hlines rest) hweighted header pkg
  · obtain ⟨front, line, after, rfl, hafter, hfront, hcut⟩ :=
      exists_cut (fun line hline => (hlines line hline).2.2) hreadable
    obtain ⟨hlines, ⟨-, hline⟩, hrest⟩ : Lines front ∧ (line ≠ [] ∧ Line line) ∧ Lines after := by
      simpa only [Lines, List.forall_mem_append, List.forall_mem_cons] using hlines
    have hread := @readAll_before front after line rest header hfront
      (fun line hline => ⟨(hlines line hline).1, (hlines line hline).2.1⟩) hcut hline.1
    have hle := hweighted.storeAll_le pkg (front ++ [line])
    simp only [readSection, hread]
    -- the first line that is not read as an element is lost
    obtain ⟨next, after, rfl⟩ := List.exists_cons_of_ne_nil hafter
    obtain ⟨pkg', hread, hweight⟩ := readDesc_listText_cons hrest
      (bounded_of_suffix (List.forall_mem_cons.mp hrest).2 rest) [] (f pkg (front ++ [line]))
    refine ⟨pkg', hread, ?_⟩
    simp only [List.length_append, List.length_cons, List.length_nil] at hle ⊢
    omega

theorem gains_list {f : Pkg → List CString → Pkg} {lines : List CString}
    (hsec : sectionOf header = some (.storeAll f)) (hlines : Lines lines) :
    Gains (writeList header lines) (gain lines) := by
  unfold writeList
  split_ifs
  · exact Gains.nil _
  · exact gains_lines header hsec hlines

theorem gains_validation {validation : ℕ} (h : validation < 16) :
    Gains (if validation ≠ 0 then writeLines (str "%VALIDATION%") (validationWords validation)
      else []) 0 := by
  split_ifs with hne
  · exact fun rest pkg => ⟨_, reads_lines (str "%VALIDATION%") _ (validationWords validation) rfl
      (validationWords_ne_nil h hne) readable_validationWords
      (fun word hword => (mem_validationWords hword).2) rest, le_rfl⟩
  · exact Gains.nil 0

/-- Not more is read of the file than the lists of the package give. -/
theorem gains_writeDesc {info : Pkg} (h : Legible info) (hname : Line info.name)
    (hversion : Line info.version) :
    Gains (writeDesc info) ((descLists info).map gain).sum := by
  have hgains := (((((((((((((((((((gains_check (str "%NAME%") rfl hname).append
    (gains_check (str "%VERSION%") rfl hversion)).append
    (gains_field (str "%BASE%") rfl h.base)).append
    (gains_field (str "%DESC%") rfl h.desc)).append
    (gains_field (str "%URL%") rfl h.url)).append
    (gains_field (str "%ARCH%") rfl h.arch)).append
    (gains_number (str "%BUILDDATE%") rfl h.builddate)).append
    (gains_number (str "%INSTALLDATE%") rfl h.installdate)).append
    (gains_field (str "%PACKAGER%") rfl h.packager)).append
    (gains_number (str "%SIZE%") rfl h.isize)).append
    (gains_number (str "%REASON%") rfl (reasonNumber_inRange info.reason))).append
    (gains_list (str "%GROUPS%") rfl h.groups)).append
    (gains_list (str "%LICENSE%") rfl h.licenses)).append
    (gains_validation h.validation)).append
    (gains_list (str "%REPLACES%") rfl h.replaces.print)).append
    (gains_list (str "%DEPENDS%") rfl h.depends.print)).append
    (gains_list (str "%OPTDEPENDS%") rfl h.optdepends.print)).append
    (gains_list (str "%CONFLICTS%") rfl h.conflicts.print)).append
    (gains_list (str "%PROVIDES%") rfl h.provides.print))
  refine hgains.mono ?_
  simp only [descLists, List.map_cons, List.map_nil, List.sum_cons, List.sum_nil]
  omega

theorem gain_le (lines : List CString) : gain lines ≤ lines.length := by
  unfold gain
  split_ifs
  · exact le_rfl
  · exact Nat.sub_le _ _

theorem gain_lt {lines : List CString} (h : ¬ Readable lines) : gain lines < lines.length := by
  have hne : lines ≠ [] := by
    rintro rfl
    exact h (readable_of_lt (by simp))
  rw [gain, if_neg h]
  exact Nat.sub_lt (List.length_pos_of_ne_nil hne) Nat.one_pos

/-- A list that is not read back loses an element. -/
theorem weight_readDesc_writeDesc_lt {info : Pkg} (h : Legible info) (hname : Line info.name)
    (hversion : Line info.version) (hlist : ¬ ∀ list ∈ descLists info, Readable list) (pkg : Pkg) :
    weight (readDesc { text := writeDesc info } pkg) < weight pkg + weight info := by
  have hsum : ((descLists info).map gain).sum < ((descLists info).map List.length).sum := by
    obtain ⟨list, hmem, hreadable⟩ : ∃ list ∈ descLists info, ¬ Readable list := by
      simpa only [not_forall, exists_prop] using hlist
    exact List.sum_lt_sum _ _ (fun list _ => gain_le list) ⟨list, hmem, gain_lt hreadable⟩
  have hweight : ((descLists info).map List.length).sum ≤ weight info := by
    simp only [descLists, weight, List.map_cons, List.map_nil, List.sum_cons, List.sum_nil,
      List.length_map]
    omega
  have hle := (gains_writeDesc h hname hversion).weight_le pkg
  omega

end Alpm.LocalDb
