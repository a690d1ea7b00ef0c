import Alpm.Archive

/-!
# Reading the lines of a content

Successive calls of `_alpm_archive_fgets` cut a content at its newlines, whatever the blocks are
that it comes in, and report the end of the data after the last piece (`archiveLines_start`).  Each
line comes with its length in `real_line_size`.

No call writes past the end of the line buffer.  To say that, `passWrites` collects what one pass of
the loop writes, each write with the end that it reaches and the size that the buffer has at that
moment; the calls only ever collect the writes of their passes.  That each of them is inside is an
invariant of the reading and needs nothing of the content (`lineWrites_le`): the block may hold a
NUL, the archive may break off, and a line may be too long.
-/

namespace Alpm

/-! ## Successive calls -/

/-- The lines that successive calls return, each with its `real_line_size`, and the return
code of the first call that returns none. -/
def archiveLines (s : Reading) : List (Option CString × ℕ) × ArchiveRet :=
  match h : archiveFgets s with
  | (.ok, s') =>
    have := archiveFgets_todo h
    let (lines, ret) := archiveLines s'
    ((s'.text s'.buf.line, s'.buf.realLineSize) :: lines, ret)
  | (ret, _) => ([], ret)
  termination_by s.todo

/-- Bytes that are written into the line buffer, up to `stop`, while it has `lineSize`
bytes. -/
structure LineWrite where
  stop : ℕ
  lineSize : ℕ

namespace Reading

/-- What one pass of the loop of `_alpm_archive_fgets` writes into the line buffer: the old
line if the buffer is moved, the part of the block, and the NUL when the line is returned. -/
def passWrites (s : Reading) (line : CString) : List LineWrite :=
  match s.nextBlock with
  | .error _ => []
  | .ok s =>
    let new := s.eol.getD s.buf.block.length
    match s.growLine line.length new with
    | .error _ => []
    | .ok s' =>
      let size := s'.buf.lineSize
      (if s.buf.line.isSome ∧ s'.buf.line ≠ s.buf.line then [⟨s.buf.lineSize, size⟩] else []) ++
        ⟨line.length + new, size⟩ ::
          if s.eol.isSome ∨ s.buf.block = [] then [⟨line.length + new + 1, size⟩] else []

/-- What a call writes from the pass on that begins with the part `line` of the line. -/
def callWrites (s : Reading) (line : CString) : List LineWrite :=
  s.passWrites line ++
    match h : s.fgetsPass line with
    | .inl _ => []
    | .inr (s', line') =>
      have := Reading.fgetsPass_inr_todo h
      callWrites s' line'
  termination_by s.todo

end Reading

/-- What successive calls write into the line buffer. -/
def lineWrites (s : Reading) : List LineWrite :=
  s.callWrites [] ++
    match h : archiveFgets s with
    | (.ok, s') =>
      have := archiveFgets_todo h
      lineWrites s'
    | _ => []
  termination_by s.todo

theorem archiveLines_ok {s s' : Reading} (h : archiveFgets s = (.ok, s')) :
    archiveLines s =
      ((s'.text s'.buf.line, s'.buf.realLineSize) :: (archiveLines s').1, (archiveLines s').2) := by
  rw [archiveLines]
  split
  next t h' =>
    obtain ⟨-, rfl⟩ := Prod.mk.inj (h'.symm.trans h)
    rfl
  next t hne hcall =>
    have hret := congrArg Prod.fst (hcall.symm.trans h)
    exact (hne hret).elim

theorem archiveLines_stop {s : Reading} (h : (archiveFgets s).1 ≠ .ok) :
    archiveLines s = ([], (archiveFgets s).1) := by
  rw [archiveLines]
  split
  next h' => exact absurd (by rw [h']) h
  next h' => rw [h']

/-! ## Bounds -/

namespace Reading

/-- What is left of the block is no longer than the block, and a line that has begun has a
buffer. -/
structure Bounded (s : Reading) (line : CString) : Prop where
  block : s.buf.block.length ≤ s.buf.blockSize
  line : s.buf.line = none → line = []

theorem Bounded.nextBlock {s s' : Reading} {line : CString} (h : s.Bounded line)
    (hnext : s.nextBlock = .ok s') : s'.Bounded line ∧ s'.buf.line = s.buf.line := by
  unfold Reading.nextBlock at hnext
  cases hblocks : s.blocks <;> simp only [hblocks] at hnext <;> split_ifs at hnext
  all_goals
    obtain rfl := Except.ok.inj hnext
  · exact ⟨h, rfl⟩
  · exact ⟨⟨le_rfl, h.line⟩, rfl⟩
  · exact ⟨h, rfl⟩
  · exact ⟨⟨le_rfl, h.line⟩, rfl⟩

/-- After the buffer was made big enough there is one, and the new bytes and a NUL fit. -/
theorem Bounded.growLine {s s' : Reading} {line : CString} (h : s.Bounded line) {new : ℕ}
    (hnew : new ≤ s.buf.block.length) (hgrow : s.growLine line.length new = .ok s') :
    line.length + new + 1 ≤ s'.buf.lineSize ∧ s'.buf.line ≠ none ∧
      s'.buf.blockSize = s.buf.blockSize ∧ s'.buf.block = s.buf.block ∧
      (s.buf.line.isSome → s'.buf.line ≠ s.buf.line → s.buf.lineSize ≤ s'.buf.lineSize) := by
  unfold Reading.growLine at hgrow
  split at hgrow
  next hline =>
    obtain rfl := Except.ok.inj hgrow
    have hblock := h.block
    refine ⟨?_, by simp [callocLine], rfl, rfl, by simp [hline]⟩
    rw [h.line hline]
    show ([] : CString).length + new + 1 ≤ s.buf.blockSize + 1
    rw [List.length_nil]
    omega
  next a hline =>
    dsimp only at hgrow
    split_ifs at hgrow with _ hsize
    · obtain rfl := Except.ok.inj hgrow
      refine ⟨le_rfl, by simp [callocLine, free, write], rfl, rfl, fun _ _ => ?_⟩
      show s.buf.lineSize ≤ line.length + new + 1
      omega
    · obtain rfl := Except.ok.inj hgrow
      exact ⟨not_lt.mp hsize, by simp [hline], rfl, rfl, fun _ hne => absurd rfl hne⟩

theorem eol_getD_le (s : Reading) : s.eol.getD s.buf.block.length ≤ s.buf.block.length := by
  cases heol : s.eol with
  | none => exact le_rfl
  | some eol => exact (eol_lt heol).le

/-- **A pass stays within the buffer.**  The buffer is enlarged before anything is copied to it, by
the part of the line in this block and the NUL. -/
theorem Bounded.passWrites_le {s : Reading} {line : CString} (h : s.Bounded line) :
    ∀ w ∈ s.passWrites line, w.stop ≤ w.lineSize := by
  unfold passWrites
  split
  · simp
  next s₁ hnext =>
    obtain ⟨h₁, -⟩ := h.nextBlock hnext
    dsimp only
    split
    · simp
    next s₂ hgrow =>
      obtain ⟨hfits, -, -, -, hmoved⟩ := h₁.growLine s₁.eol_getD_le hgrow
      intro w hw
      rcases List.mem_append.mp hw with hw | hw
      · split_ifs at hw with hmove
        · obtain rfl := List.mem_singleton.mp hw
          exact hmoved hmove.1 hmove.2
        · exact absurd hw List.not_mem_nil
      · rcases List.mem_cons.mp hw with rfl | hw
        · exact (Nat.le_succ _).trans hfits
        · split_ifs at hw
          · obtain rfl := List.mem_singleton.mp hw
            exact hfits
          · exact absurd hw List.not_mem_nil

theorem Bounded.fgetsPass_inr {s s' : Reading} {line line' : CString} (h : s.Bounded line)
    (hpass : s.fgetsPass line = .inr (s', line')) : s'.Bounded line' := by
  unfold fgetsPass at hpass
  split at hpass
  · cases hpass
  next s₁ hnext =>
    obtain ⟨h₁, -⟩ := h.nextBlock hnext
    dsimp only at hpass
    split at hpass
    · cases hpass
    next s₂ hgrow =>
      obtain ⟨-, hline, -⟩ := h₁.growLine s₁.eol_getD_le hgrow
      simp only [write_buf, write_eol] at hpass
      split at hpass
      · cases hpass
      · split_ifs at hpass
        obtain ⟨rfl, -⟩ := Prod.mk.inj (Sum.inr.inj hpass)
        exact ⟨Nat.zero_le _, fun hnone => absurd hnone hline⟩

theorem Bounded.fgetsPass_inl {s s' : Reading} {line : CString} (h : s.Bounded line)
    (hpass : s.fgetsPass line = .inl (.ok, s')) : s'.Bounded [] := by
  unfold fgetsPass at hpass
  split at hpass
  next s₁ hnext =>
    obtain ⟨hret, -⟩ := Prod.mk.inj (Sum.inl.inj hpass)
    exact absurd hret (nextBlock_error hnext)
  next s₁ hnext =>
    obtain ⟨h₁, -⟩ := h.nextBlock hnext
    dsimp only at hpass
    split at hpass
    next s₂ hgrow =>
      obtain ⟨hret, -⟩ := Prod.mk.inj (Sum.inl.inj hpass)
      exact absurd hret (growLine_error hgrow)
    next s₂ hgrow =>
      obtain ⟨-, -, hsize, hblock, -⟩ := h₁.growLine s₁.eol_getD_le hgrow
      have hbounded : s₂.buf.block.length ≤ s₂.buf.blockSize := by
        rw [hsize, hblock]
        exact h₁.block
      simp only [write_buf, write_eol] at hpass
      split at hpass
      · obtain ⟨-, rfl⟩ := Prod.mk.inj (Sum.inl.inj hpass)
        refine ⟨?_, fun _ => rfl⟩
        show (s₂.buf.block.drop _).length ≤ s₂.buf.blockSize
        rw [List.length_drop]
        omega
      · split_ifs at hpass
        obtain ⟨-, rfl⟩ := Prod.mk.inj (Sum.inl.inj hpass)
        exact ⟨hbounded, fun _ => rfl⟩

theorem callWrites_inl {s : Reading} {line : CString} {result : ArchiveRet × Reading}
    (h : s.fgetsPass line = .inl result) : s.callWrites line = s.passWrites line := by
  rw [callWrites]
  split
  · exact List.append_nil _
  next h' => cases h'.symm.trans h

theorem callWrites_inr {s s' : Reading} {line line' : CString}
    (h : s.fgetsPass line = .inr (s', line')) :
    s.callWrites line = s.passWrites line ++ s'.callWrites line' := by
  rw [callWrites]
  split
  next h' => cases h'.symm.trans h
  next h' =>
    obtain ⟨rfl, rfl⟩ := Prod.mk.inj (Sum.inr.inj (h'.symm.trans h))
    rfl

/-- **A call stays within the buffer**, and leaves a reading that the next call may go on
with. -/
theorem Bounded.call {s : Reading} {line : CString} (h : s.Bounded line) :
    (∀ w ∈ s.callWrites line, w.stop ≤ w.lineSize) ∧
      ∀ s', archiveFgetsLoop s line = (.ok, s') → s'.Bounded [] := by
  induction s, line using archiveFgetsLoop.induct with
  | case1 s line result hpass =>
    rw [callWrites_inl hpass, archiveFgetsLoop_inl hpass]
    exact ⟨h.passWrites_le, fun s' hs' => h.fgetsPass_inl (hs' ▸ hpass)⟩
  | case2 s line s₁ line₁ hpass hlt ih =>
    obtain ⟨hwrites, hnext⟩ := ih (h.fgetsPass_inr hpass)
    rw [callWrites_inr hpass, archiveFgetsLoop_inr hpass]
    exact ⟨List.forall_mem_append.mpr ⟨h.passWrites_le, hwrites⟩, hnext⟩

end Reading

/-- **No call writes past the end of the line buffer**, whatever the content and the limit.  Each
pass stays within it, and each call leaves a reading of which the next may start. -/
theorem lineWrites_le {s : Reading} (h : s.Bounded []) :
    ∀ w ∈ lineWrites s, w.stop ≤ w.lineSize := by
  induction s using lineWrites.induct with
  | case1 s ih =>
    rw [lineWrites]
    split
    next t hcall => exact List.forall_mem_append.mpr ⟨h.call.1, ih t hcall (h.call.2 t hcall)⟩
    next => exact List.forall_mem_append.mpr ⟨h.call.1, by simp⟩

/-! ## Lines -/

open Reading in
/-- The calls after a line that was returned. -/
theorem AtLine.archiveLines_eq {limit : ℕ} {s : Reading} {line : CString} {lines : List CString}
    (h : s.AtLine limit line lines) (hlimit : ∀ p ∈ lines, p.length + 1 ≤ limit) :
    archiveLines s = (lines.map fun p => (some p, p.length), .eof) := by
  induction lines generalizing s line with
  | nil =>
    have hstop : (archiveFgets s).1 = .eof := h.fgets_nil
    rw [archiveLines_stop (by rw [hstop]; simp), hstop]
    rfl
  | cons p lines ih =>
    have hcall := h.fgets
    rw [if_neg (not_lt.mpr (hlimit p (List.mem_cons_self ..)))] at hcall
    obtain ⟨s', hs', hat, -⟩ := hcall
    rw [archiveLines_ok hs', ih hat fun q hq => hlimit q (List.mem_cons_of_mem _ hq),
      hat.text_line, hat.realLineSize]
    rfl

open Reading in
/-- **Reading over blocks.**  Successive calls return the pieces between the newlines of the
content, in order and with their lengths, and then the end of the data; and all that is written into
the line buffer lies within its size.  The lines are an induction over the pieces, with the reading
that a call leaves as its state; the writes need no lines at all. -/
theorem archiveLines_start {limit : ℕ} {blocks : List CString}
    (hblocks : ∀ block ∈ blocks, block ≠ []) (hnul : '\x00' ∉ blocks.flatten)
    (hlimit : ∀ line ∈ blocks.flatten.splitOn '\n', line.length + 1 ≤ limit) :
    archiveLines (start limit blocks) =
        ((blocks.flatten.splitOn '\n').map fun line => (some line, line.length), .eof) ∧
      ∀ w ∈ lineWrites (start limit blocks), w.stop ≤ w.lineSize := by
  refine ⟨?_, lineWrites_le ⟨le_rfl, fun _ => rfl⟩⟩
  obtain ⟨p, ps, hlines⟩ : ∃ p ps, blocks.flatten.splitOn '\n' = p :: ps :=
    List.exists_cons_of_ne_nil (List.splitOn_ne_nil _ _)
  rw [hlines] at hlimit ⊢
  have hfirst := hlimit p (List.mem_cons_self ..)
  have hpos : 0 < limit := by omega
  have hcall := fgets_start hpos hblocks hnul hlines
  rw [if_pos (Or.inr (by omega))] at hcall
  obtain ⟨s', hs', hat, -⟩ := hcall
  rw [archiveLines_ok hs', AtLine.archiveLines_eq hat fun q hq =>
    hlimit q (List.mem_cons_of_mem _ hq), hat.text_line, hat.realLineSize]
  rfl

open Reading in
theorem archiveLines_start_two_blocks :
    archiveLines (start 5 [str "ab\ncd", str "e\n"]) =
        ([(some (str "ab"), 2), (some (str "cde"), 3), (some [], 0)], .eof) ∧
      ∀ w ∈ lineWrites (start 5 [str "ab\ncd", str "e\n"]), w.stop ≤ w.lineSize :=
  archiveLines_start (by decide) (by decide) (by decide)

end Alpm
