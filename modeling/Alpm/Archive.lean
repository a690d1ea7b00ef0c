import Alpm.Deps.Depstring
import Alpm.Util

/-!
# Reading lines from an archive

`_alpm_archive_fgets` cuts the data of an archive entry into lines.  The data comes in blocks, as
`archive_read_data_block` delivers them, and a line is put together in a buffer that is allocated
anew whenever a line does not fit.

## 1.  The buffer

The buffer is an allocation on a heap here, so that a pointer to it that was taken before a call can
be told from `buf.line`.  A call that moves the buffer frees the old one, and the text at the old
pointer is then `none`; that is how a reader that keeps a pointer over a call is seen to read freed
memory.

## 2.  Lines

For content without a NUL the calls return the pieces between the newlines, whatever the blocks are
(`archiveFgets_first`, `archiveFgets_cons`, `archiveFgets_nil`); what depends on the blocks is the
size of the buffer, and with it the calls that move it.  The first call is special, because it
allocates room for the first block without a look at the limit.

The loop has one state to keep, the part of the line that is in the buffer, and
`archiveFgetsLoop_spec` is about a call from any such state.  It ends because each pass that goes on
takes some of what is left (`todo`).
-/

namespace Alpm

/-- The return codes `ARCHIVE_OK`, `ARCHIVE_EOF`, `ARCHIVE_FATAL` and `-ERANGE`. -/
inductive ArchiveRet where
  | ok
  | eof
  | fatal
  | erange
  deriving DecidableEq, Repr

/-- `struct archive_read_buffer`.  `block` is what is left of the block, from
`block_offset` on; `line` is the address of an allocation. -/
structure ArchiveReadBuffer where
  line : Option ℕ := none
  lineSize : ℕ := 0
  maxLineSize : ℕ := 0
  realLineSize : ℕ := 0
  block : CString := []
  blockSize : ℕ := 0
  ret : ArchiveRet := .ok

/-- The state of a reading: the blocks that the archive has still to deliver, whether it
breaks off after them, the strings in the allocations, and the buffer. -/
structure Reading where
  blocks : List CString
  broken : Bool := false
  memory : ℕ → Option CString := fun _ => none
  unused : ℕ := 0
  buf : ArchiveReadBuffer

namespace Reading

/-- The string that a pointer points to; `none` for `NULL` and for freed memory. -/
def text (s : Reading) (ptr : Option ℕ) : Option CString := ptr.bind s.memory

/-- `CALLOC` for `buf.line`. -/
def callocLine (s : Reading) (lineSize : ℕ) : Reading :=
  { s with
    memory := Function.update s.memory s.unused (some [])
    unused := s.unused + 1
    buf := { s.buf with line := some s.unused, lineSize } }

/-- The bytes copied to a pointer, up to the next NUL. -/
def write (s : Reading) (ptr : Option ℕ) (text : CString) : Reading :=
  match ptr with
  | none => s
  | some line => { s with memory := Function.update s.memory line (some text) }

def free (s : Reading) (ptr : Option ℕ) : Reading :=
  match ptr with
  | none => s
  | some line => { s with memory := Function.update s.memory line none }

/-- The label `cleanup`. -/
def cleanup (s : Reading) : ArchiveRet × Reading :=
  (s.buf.ret, { s.free s.buf.line with buf := {} })

/-- `archive_read_data_block`, unless the block is not processed entirely; an error is a
jump to `cleanup`. -/
def nextBlock (s : Reading) : Except Reading Reading :=
  if s.buf.block ≠ [] then .ok s
  else if s.buf.ret = .eof then .error s
  else
    match s.blocks with
    | block :: blocks =>
      .ok { s with blocks, buf := { s.buf with ret := .ok, block, blockSize := block.length } }
    | [] =>
      if s.broken then .error { s with buf := { s.buf with ret := .fatal } }
      else .ok { s with buf := { s.buf with ret := .eof, block := [], blockSize := 0 } }

/-- `eol`: the end of the line in the block, as an offset. -/
def eol (s : Reading) : Option ℕ :=
  match memchr s.buf.block '\n' s.buf.block.length with
  | some eol => some eol
  | none => memchr s.buf.block '\x00' s.buf.block.length

/-- The buffer is allocated, or made big enough for `new` more bytes.  The first line gets a buffer
for the whole block, whatever the limit is; later ones are refused when they do not fit in the
limit. -/
def growLine (s : Reading) (lineOffset new : ℕ) : Except Reading Reading :=
  match s.buf.line with
  | none => .ok (s.callocLine (s.buf.blockSize + 1))
  | some line =>
    let needed := lineOffset + new + 1
    if needed > s.buf.maxLineSize then .error { s with buf := { s.buf with ret := .erange } }
    else if needed > s.buf.lineSize then
      let moved := s.callocLine needed
      .ok ((moved.write moved.buf.line ((s.memory line).getD [])).free (some line))
    else .ok s

/-- One pass of the loop of `_alpm_archive_fgets`, with the part of the line before
`line_offset`: the function returns, or the loop goes on with a longer part. -/
def fgetsPass (s : Reading) (line : CString) : (ArchiveRet × Reading) ⊕ (Reading × CString) :=
  match s.nextBlock with
  | .error s => .inl s.cleanup
  | .ok s =>
    let new := s.eol.getD s.buf.block.length
    match s.growLine line.length new with
    | .error s => .inl s.cleanup
    | .ok s =>
      let line := line ++ s.buf.block.take new
      let s := s.write s.buf.line line
      match s.eol with
      | some eol =>
        .inl (.ok, { s with
          buf := { s.buf with block := s.buf.block.drop (eol + 1), realLineSize := line.length } })
      | none =>
        -- there was no new data: what is left is the last line
        if s.buf.block = [] then
          .inl (.ok, { s with buf := { s.buf with realLineSize := line.length } })
        else .inr ({ s with buf := { s.buf with block := [] } }, line)

/-- The bytes and calls that are left; every pass that goes on and every line takes some. -/
def todo (s : Reading) : ℕ :=
  s.buf.block.length + (s.blocks.map (·.length + 1)).sum + if s.buf.ret = .eof then 0 else 1

@[simp] theorem write_blocks (s : Reading) (ptr : Option ℕ) (text : CString) :
    (s.write ptr text).blocks = s.blocks := by
  cases ptr <;> rfl

@[simp] theorem write_buf (s : Reading) (ptr : Option ℕ) (text : CString) :
    (s.write ptr text).buf = s.buf := by
  cases ptr <;> rfl

@[simp] theorem write_todo (s : Reading) (ptr : Option ℕ) (text : CString) :
    (s.write ptr text).todo = s.todo := by
  cases ptr <;> rfl

@[simp] theorem write_eol (s : Reading) (ptr : Option ℕ) (text : CString) :
    (s.write ptr text).eol = s.eol := by
  cases ptr <;> rfl

/-- After an error no line is returned. -/
theorem nextBlock_error {s s' : Reading} (h : s.nextBlock = .error s') : s'.buf.ret ≠ .ok := by
  unfold nextBlock at h
  cases hblocks : s.blocks <;> simp only [hblocks] at h <;> split_ifs at h with hblock hret
  all_goals
    obtain rfl := Except.error.inj h
    simp_all

theorem nextBlock_todo {s s' : Reading} (h : s.nextBlock = .ok s') :
    s'.todo + (if s'.buf.block = [] then 1 else 0) ≤ s.todo := by
  unfold nextBlock at h
  cases hblocks : s.blocks with
  | nil =>
    simp only [hblocks] at h
    split_ifs at h with hblock hret
    · obtain rfl := Except.ok.inj h
      simp [hblock]
    · obtain rfl := Except.ok.inj h
      simp_all [todo]
  | cons block blocks =>
    simp only [hblocks] at h
    split_ifs at h with hblock hret
    · obtain rfl := Except.ok.inj h
      simp [hblock]
    · obtain rfl := Except.ok.inj h
      rw [not_not] at hblock
      simp only [todo, hblock, hblocks, hret, List.map_cons, List.sum_cons, List.length_nil,
        if_false, reduceCtorEq]
      split_ifs <;> omega

theorem growLine_error {s s' : Reading} {lineOffset new : ℕ}
    (h : s.growLine lineOffset new = .error s') : s'.buf.ret ≠ .ok := by
  unfold growLine at h
  cases hline : s.buf.line <;> simp only [hline] at h
  · cases h
  · split_ifs at h
    obtain rfl := Except.error.inj h
    simp

/-- Only the buffer and the memory change when the buffer grows. -/
theorem growLine_frame {s s' : Reading} {lineOffset new : ℕ}
    (h : s.growLine lineOffset new = .ok s') :
    s'.buf.block = s.buf.block ∧ s'.todo = s.todo := by
  unfold growLine at h
  split at h
  · obtain rfl := Except.ok.inj h
    exact ⟨rfl, rfl⟩
  · dsimp only at h
    split_ifs at h
    · obtain rfl := Except.ok.inj h
      exact ⟨rfl, rfl⟩
    · obtain rfl := Except.ok.inj h
      exact ⟨rfl, rfl⟩

theorem eol_lt {s : Reading} {eol : ℕ} (h : s.eol = some eol) : eol < s.buf.block.length := by
  unfold Reading.eol at h
  split at h
  next hnewline =>
    obtain rfl := Option.some.inj h
    exact (memchr_eq_some hnewline).1
  next => exact (memchr_eq_some h).1

theorem fgetsPass_inr_todo {s s' : Reading} {line line' : CString}
    (h : s.fgetsPass line = .inr (s', line')) : s'.todo < s.todo := by
  unfold fgetsPass at h
  split at h
  · cases h
  next s₁ hnext =>
    have htodo := nextBlock_todo hnext
    dsimp only at h
    split at h
    · cases h
    next s₂ hgrow =>
      obtain ⟨hblock, hgrown⟩ := growLine_frame hgrow
      simp only [write_buf, write_eol] at h
      split at h
      · cases h
      · split_ifs at h with hempty
        obtain ⟨rfl, -⟩ := Prod.mk.inj (Sum.inr.inj h)
        have hpos := List.length_pos_iff.mpr hempty
        have hdrop : (s₂.write s₂.buf.line (line ++
            s₂.buf.block.take (s₁.eol.getD s₁.buf.block.length))).todo = s₂.todo := by simp
        simp only [todo, write_buf, write_blocks, List.length_nil] at hdrop hgrown htodo ⊢
        omega

theorem fgetsPass_ok_todo {s s' : Reading} {line : CString}
    (h : s.fgetsPass line = .inl (.ok, s')) : s'.todo < s.todo := by
  unfold fgetsPass at h
  split at h
  next s₁ hnext =>
    obtain ⟨hret, -⟩ := Prod.mk.inj (Sum.inl.inj h)
    exact absurd hret (nextBlock_error hnext)
  next s₁ hnext =>
    have htodo := nextBlock_todo hnext
    dsimp only at h
    split at h
    next s₂ hgrow =>
      obtain ⟨hret, -⟩ := Prod.mk.inj (Sum.inl.inj h)
      exact absurd hret (growLine_error hgrow)
    next s₂ hgrow =>
      obtain ⟨hblock, hgrown⟩ := growLine_frame hgrow
      simp only [write_buf, write_eol] at h
      split at h
      next eol heol =>
        obtain ⟨-, rfl⟩ := Prod.mk.inj (Sum.inl.inj h)
        have hlt := eol_lt heol
        simp only [todo, write_blocks, List.length_drop] at hgrown htodo ⊢
        omega
      next =>
        split_ifs at h with hempty
        obtain ⟨-, rfl⟩ := Prod.mk.inj (Sum.inl.inj h)
        rw [← hblock, if_pos hempty] at htodo
        simp only [todo, write_blocks] at hgrown htodo ⊢
        omega

end Reading

/-- The loop of `_alpm_archive_fgets`. -/
def archiveFgetsLoop (s : Reading) (line : CString) : ArchiveRet × Reading :=
  match h : s.fgetsPass line with
  | .inl result => result
  | .inr (s', line') =>
    have := Reading.fgetsPass_inr_todo h
    archiveFgetsLoop s' line'
  termination_by s.todo

/-- `_alpm_archive_fgets`. -/
def archiveFgets (s : Reading) : ArchiveRet × Reading := archiveFgetsLoop s []

theorem archiveFgetsLoop_inl {s : Reading} {line : CString} {result : ArchiveRet × Reading}
    (h : s.fgetsPass line = .inl result) : archiveFgetsLoop s line = result := by
  rw [archiveFgetsLoop]
  split
  next h' => exact Sum.inl.inj (h'.symm.trans h)
  next h' => cases h'.symm.trans h

theorem archiveFgetsLoop_inr {s s' : Reading} {line line' : CString}
    (h : s.fgetsPass line = .inr (s', line')) :
    archiveFgetsLoop s line = archiveFgetsLoop s' line' := by
  rw [archiveFgetsLoop]
  split
  next h' => cases h'.symm.trans h
  next h' =>
    obtain ⟨rfl, rfl⟩ := Prod.mk.inj (Sum.inr.inj (h'.symm.trans h))
    rfl

theorem archiveFgetsLoop_todo {s s' : Reading} {line : CString}
    (h : archiveFgetsLoop s line = (.ok, s')) : s'.todo < s.todo := by
  induction s, line using archiveFgetsLoop.induct with
  | case1 s line result hpass =>
    rw [archiveFgetsLoop_inl hpass] at h
    exact Reading.fgetsPass_ok_todo (h ▸ hpass)
  | case2 s line s₁ line₁ hpass hlt ih =>
    rw [archiveFgetsLoop_inr hpass] at h
    exact (ih h).trans hlt

/-- Every line takes some of what is left. -/
theorem archiveFgets_todo {s s' : Reading} (h : archiveFgets s = (.ok, s')) :
    s'.todo < s.todo :=
  archiveFgetsLoop_todo h

/-! ## The lines of the content -/

namespace Reading

/-- The data that is left. -/
def rest (s : Reading) : CString := s.buf.block ++ s.blocks.flatten

/-- The rest of an archive that delivers non-empty blocks without a NUL and does not break
off. -/
structure Steady (limit : ℕ) (s : Reading) : Prop where
  limit : s.buf.maxLineSize = limit
  broken : s.broken = false
  blocks : ∀ block ∈ s.blocks, block ≠ []
  nul : '\x00' ∉ s.rest

/-- What becomes of the buffer at `line` when a line of `needed` bytes, its NUL included, is
put into it: the buffer is moved if the line does not fit. -/
structure Fitted (s s' : Reading) (line needed : ℕ) : Prop where
  unused : s.unused ≤ s'.unused
  frame : ∀ a < s.unused, a ≠ line → s'.memory a = s.memory a
  lineSize : s'.buf.lineSize = max s.buf.lineSize needed
  ptr : ∃ line', s'.buf.line = some line' ∧ line' < s'.unused ∧
    (needed ≤ s.buf.lineSize → line' = line) ∧
    (s.buf.lineSize < needed → s.unused ≤ line' ∧ s'.memory line = none)

theorem Fitted.trans {s₁ s₂ s₃ : Reading} {line line' n₁ n₂ : ℕ} (hline : line < s₁.unused)
    (h₁ : Fitted s₁ s₂ line n₁) (h₂ : Fitted s₂ s₃ line' n₂) (hline' : s₂.buf.line = some line')
    (hle : n₁ ≤ n₂) : Fitted s₁ s₃ line n₂ := by
  obtain ⟨line₂, hline₂, hlt₂, hsame₂, hmoved₂⟩ := h₁.ptr
  obtain rfl : line' = line₂ := Option.some.inj (hline'.symm.trans hline₂)
  obtain ⟨line₃, hline₃, hlt₃, hsame₃, hmoved₃⟩ := h₂.ptr
  have hsize := h₁.lineSize
  refine ⟨h₁.unused.trans h₂.unused, fun a ha hne => ?_, ?_, line₃, hline₃, hlt₃, ?_, ?_⟩
  · have hne' : a ≠ line' := by
      rcases le_or_gt n₁ s₁.buf.lineSize with hle₁ | hlt₁
      · rw [hsame₂ hle₁]
        exact hne
      · have := (hmoved₂ hlt₁).1
        omega
    rw [h₂.frame a (by have := h₁.unused; omega) hne', h₁.frame a ha hne]
  · rw [h₂.lineSize, h₁.lineSize]
    omega
  · intro hfits
    rw [hsame₃ (by omega), hsame₂ (by omega)]
  · intro hlong
    have hunused := h₁.unused
    rcases le_or_gt n₁ s₁.buf.lineSize with hle₁ | hlt₁
    · obtain rfl := hsame₂ hle₁
      obtain ⟨hnew, hfreed⟩ := hmoved₃ (by omega)
      exact ⟨by omega, hfreed⟩
    · obtain ⟨hnew, hfreed⟩ := hmoved₂ hlt₁
      refine ⟨?_, by rw [h₂.frame line (by omega) (by omega), hfreed]⟩
      rcases le_or_gt n₂ s₂.buf.lineSize with hle₂ | hlt₂
      · rw [hsame₃ hle₂]
        exact hnew
      · have := (hmoved₃ hlt₂).1
        omega

/-- The next block, while the data lasts. -/
theorem Steady.nextBlock {limit : ℕ} {s : Reading} (h : s.Steady limit)
    (hret : s.buf.ret = .ok) :
    ∃ s', s.nextBlock = .ok s' ∧ s'.Steady limit ∧ s'.rest = s.rest ∧
      s'.memory = s.memory ∧ s'.unused = s.unused ∧ s'.buf.line = s.buf.line ∧
      s'.buf.lineSize = s.buf.lineSize ∧
      ((s'.buf.ret = .ok ∧ s'.buf.block ≠ []) ∨ (s'.buf.ret = .eof ∧ s'.rest = [])) := by
  by_cases hblock : s.buf.block = []
  · cases hblocks : s.blocks with
    | nil =>
      have hrest : s.rest = [] := by simp [rest, hblock, hblocks]
      refine ⟨{ s with buf := { s.buf with ret := .eof, block := [], blockSize := 0 } },
        by simp [Reading.nextBlock, hblock, hret, hblocks, h.broken], ?_, ?_, rfl, rfl, rfl, rfl,
        Or.inr ⟨rfl, by simp [rest, hblocks]⟩⟩
      · exact ⟨h.limit, h.broken, h.blocks, by simp [rest, hblocks]⟩
      · rw [hrest]
        simp [rest, hblocks]
    | cons block blocks =>
      have hne : block ≠ [] := h.blocks block (by simp [hblocks])
      have hrest : s.rest = block ++ blocks.flatten := by simp [rest, hblock, hblocks]
      refine ⟨{ s with
          blocks
          buf := { s.buf with ret := .ok, block, blockSize := block.length } },
        by simp [Reading.nextBlock, hblock, hret, hblocks], ?_, ?_, rfl, rfl, rfl, rfl,
        Or.inl ⟨rfl, hne⟩⟩
      · refine ⟨h.limit, h.broken, fun b hb => h.blocks b ?_, ?_⟩
        · rw [hblocks]
          exact List.mem_cons_of_mem _ hb
        · have hnul := h.nul
          rw [hrest] at hnul
          exact hnul
      · rw [hrest]
        rfl
  · exact ⟨s, by simp [Reading.nextBlock, hblock], h, rfl, rfl, rfl, rfl, rfl,
      Or.inl ⟨hret, hblock⟩⟩

/-- Room for `needed` bytes is made in one step. -/
theorem growLine_fits {s : Reading} {line lineOffset new : ℕ} (hline : s.buf.line = some line)
    (hlt : line < s.unused) (hfits : lineOffset + new + 1 ≤ s.buf.maxLineSize) :
    ∃ s', s.growLine lineOffset new = .ok s' ∧ Fitted s s' line (lineOffset + new + 1) ∧
      s'.blocks = s.blocks ∧ s'.broken = s.broken ∧ s'.buf.maxLineSize = s.buf.maxLineSize ∧
      s'.buf.block = s.buf.block ∧ s'.buf.ret = s.buf.ret := by
  unfold growLine
  simp only [hline, not_lt.mpr hfits, if_false]
  split_ifs with hsize
  · refine ⟨_, rfl, ⟨?_, ?_, ?_, ?_⟩, rfl, rfl, rfl, rfl, rfl⟩
    · show s.unused ≤ s.unused + 1
      omega
    · intro a ha hne
      have hne' : a ≠ s.unused := by omega
      simp [callocLine, write, free, Function.update_of_ne, hne, hne']
    · show lineOffset + new + 1 = _
      omega
    · refine ⟨s.unused, rfl, ?_, ?_, ?_⟩
      · show s.unused < s.unused + 1
        omega
      · omega
      · intro _
        exact ⟨le_rfl, by simp [callocLine, write, free]⟩
  · exact ⟨s, rfl, ⟨le_rfl, fun _ _ _ => rfl, by omega, line, hline, hlt, fun _ => rfl,
      by omega⟩, rfl, rfl, rfl, rfl, rfl⟩

theorem growLine_long {s : Reading} {line lineOffset new : ℕ} (hline : s.buf.line = some line)
    (hlong : s.buf.maxLineSize < lineOffset + new + 1) :
    s.growLine lineOffset new = .error { s with buf := { s.buf with ret := .erange } } := by
  simp [growLine, hline, hlong]

/-- What a block without a newline adds to the first piece. -/
theorem splitOn_append {c s q : CString} {qs : List CString} (hc : '\n' ∉ c)
    (hs : s.splitOn '\n' = q :: qs) : (c ++ s).splitOn '\n' = (c ++ q) :: qs := by
  induction c with
  | nil => exact hs
  | cons x c ih =>
    obtain ⟨hx, hc⟩ := not_or.mp (List.mem_cons.not.mp hc)
    rw [List.cons_append, List.splitOn_cons_eq_if_modifyHead, if_neg (by simpa using Ne.symm hx),
      ih hc]
    rfl

theorem newline_notMem_line {text line : CString} (h : line ∈ text.splitOn '\n') :
    '\n' ∉ line := by
  induction text generalizing line with
  | nil =>
    rw [List.splitOn_nil, List.mem_singleton] at h
    simp [h]
  | cons x text ih =>
    obtain ⟨q, qs, hq⟩ : ∃ q qs, text.splitOn '\n' = q :: qs :=
      List.exists_cons_of_ne_nil (List.splitOn_ne_nil _ _)
    rw [List.splitOn_cons_eq_if_modifyHead] at h
    split_ifs at h with hx
    · rcases List.mem_cons.mp h with rfl | h
      · simp
      · exact ih h
    · rw [hq, List.modifyHead_cons] at h
      rcases List.mem_cons.mp h with rfl | h
      · have hq' : '\n' ∉ q := ih (by simp [hq])
        simpa [hq'] using Ne.symm (by simpa using hx : x ≠ '\n')
      · exact ih (by simp [hq, h])

theorem eol_append {s : Reading} {c d : CString} (hblock : s.buf.block = c ++ '\n' :: d)
    (hc : '\n' ∉ c) : s.eol = some c.length := by
  unfold Reading.eol
  rw [hblock, memchr_append hc (by simp)]

theorem eol_eq_none {s : Reading} (hnewline : '\n' ∉ s.buf.block)
    (hnul : '\x00' ∉ s.buf.block) : s.eol = none := by
  unfold Reading.eol
  rw [memchr_eq_none (fun h => hnewline (List.mem_of_mem_take h)),
    memchr_eq_none (fun h => hnul (List.mem_of_mem_take h))]

theorem fgetsPass_long {s s₁ : Reading} {line : CString} {a : ℕ} (hnext : s.nextBlock = .ok s₁)
    (hline : s₁.buf.line = some a)
    (hlong : s₁.buf.maxLineSize < line.length + s₁.eol.getD s₁.buf.block.length + 1) :
    (archiveFgetsLoop s line).1 = .erange := by
  have hpass : s.fgetsPass line =
      .inl (cleanup { s₁ with buf := { s₁.buf with ret := .erange } }) := by
    simp [fgetsPass, hnext, growLine_long hline hlong]
  rw [archiveFgetsLoop_inl hpass]
  rfl

theorem fgetsPass_eol {s s₁ s₂ : Reading} {line : CString} {eol : ℕ}
    (hnext : s.nextBlock = .ok s₁) (heol : s₁.eol = some eol)
    (hgrow : s₁.growLine line.length eol = .ok s₂) :
    s.fgetsPass line = .inl (.ok, { s₂.write s₂.buf.line (line ++ s₁.buf.block.take eol) with
      buf := { s₂.buf with
        block := s₁.buf.block.drop (eol + 1)
        realLineSize := (line ++ s₁.buf.block.take eol).length } }) := by
  have hblock := (growLine_frame hgrow).1
  have heol₂ : s₂.eol = some eol := by
    rw [← heol, Reading.eol, Reading.eol, hblock]
  simp [fgetsPass, hnext, heol, hgrow, heol₂, hblock]

theorem fgetsPass_no_eol {s s₁ s₂ : Reading} {line : CString}
    (hnext : s.nextBlock = .ok s₁) (heol : s₁.eol = none)
    (hgrow : s₁.growLine line.length s₁.buf.block.length = .ok s₂) :
    s.fgetsPass line =
      if s₁.buf.block = [] then
        .inl (.ok, { s₂.write s₂.buf.line (line ++ s₁.buf.block) with
          buf := { s₂.buf with realLineSize := (line ++ s₁.buf.block).length } })
      else
        .inr ({ s₂.write s₂.buf.line (line ++ s₁.buf.block) with
          buf := { s₂.buf with block := [] } }, line ++ s₁.buf.block) := by
  have hblock := (growLine_frame hgrow).1
  have heol₂ : s₂.eol = none := by
    rw [← heol, Reading.eol, Reading.eol, hblock]
  simp [fgetsPass, hnext, heol, hgrow, heol₂, hblock]

/-- The reading after a call that has returned `line`, with the lines that are left. -/
structure AtLine (limit : ℕ) (s : Reading) (line : CString) (lines : List CString) : Prop where
  steady : s.Steady limit
  ptr : ∃ a < s.unused, s.buf.line = some a ∧ s.memory a = some line
  realLineSize : s.buf.realLineSize = line.length
  lines : (s.buf.ret = .ok ∧ s.rest.splitOn '\n' = lines) ∨
    (s.buf.ret = .eof ∧ s.rest = [] ∧ lines = [])

theorem write_memory {s : Reading} {line : ℕ} (hline : s.buf.line = some line)
    (text : CString) :
    (s.write s.buf.line text).memory = Function.update s.memory line (some text) := by
  rw [hline]
  rfl

@[simp] theorem write_unused (s : Reading) (ptr : Option ℕ) (text : CString) :
    (s.write ptr text).unused = s.unused := by
  cases ptr <;> rfl

@[simp] theorem write_broken (s : Reading) (ptr : Option ℕ) (text : CString) :
    (s.write ptr text).broken = s.broken := by
  cases ptr <;> rfl

/-- Writing into the buffer does not move it. -/
theorem Fitted.write {s s' s'' : Reading} {line n : ℕ} {text : CString}
    (h : Fitted s s' line n) (hline : line < s.unused)
    (hmemory : s''.memory = (s'.write s'.buf.line text).memory)
    (hunused : s''.unused = s'.unused) (hptr : s''.buf.line = s'.buf.line)
    (hsize : s''.buf.lineSize = s'.buf.lineSize) : Fitted s s'' line n := by
  obtain ⟨line', hline', hlt, hsame, hmoved⟩ := h.ptr
  rw [write_memory hline'] at hmemory
  refine ⟨hunused ▸ h.unused, fun a ha hne => ?_, hsize ▸ h.lineSize, line', hptr ▸ hline',
    hunused ▸ hlt, hsame, fun hlong => ?_⟩
  · have hne' : a ≠ line' := by
      rcases le_or_gt n s.buf.lineSize with hle | hlong
      · rw [hsame hle]
        exact hne
      · have := (hmoved hlong).1
        omega
    rw [hmemory, Function.update_of_ne hne', h.frame a ha hne]
  · obtain ⟨hnew, hfreed⟩ := hmoved hlong
    refine ⟨hnew, ?_⟩
    rw [hmemory, Function.update_of_ne (by omega), hfreed]

theorem Steady.of_subset {limit : ℕ} {s s' : Reading} (h : s.Steady limit)
    (hlimit : s'.buf.maxLineSize = s.buf.maxLineSize) (hbroken : s'.broken = s.broken)
    (hblocks : s'.blocks = s.blocks) (hrest : s'.rest ⊆ s.rest) : s'.Steady limit :=
  ⟨hlimit.trans h.limit, hbroken.trans h.broken, hblocks ▸ h.blocks, fun hnul => h.nul (hrest hnul)⟩

end Reading

open Reading in
/-- A call with the part `line` of the current line in the buffer: it returns the whole
line, unless that does not fit in the limit. -/
theorem archiveFgetsLoop_spec {limit : ℕ} (s : Reading) (line : CString) {a : ℕ}
    {p : CString} {ps : List CString} (hs : s.Steady limit) (hret : s.buf.ret = .ok)
    (hline : s.buf.line = some a) (ha : a < s.unused)
    (hlines : s.rest.splitOn '\n' = p :: ps) :
    if limit < (line ++ p).length + 1 then (archiveFgetsLoop s line).1 = .erange
    else ∃ s', archiveFgetsLoop s line = (.ok, s') ∧
      Fitted s s' a ((line ++ p).length + 1) ∧ AtLine limit s' (line ++ p) ps := by
  induction htodo : s.todo using Nat.strong_induction_on generalizing s line a p with
  | _ n ih =>
  obtain ⟨s₁, hnext, hs₁, hrest₁, hmemory₁, hunused₁, hline₁, hsize₁, hcase⟩ :=
    hs.nextBlock hret
  have hfitted₁ {s₂ : Reading} {n : ℕ} (h : Fitted s₁ s₂ a n) : Fitted s s₂ a n :=
    ⟨hunused₁ ▸ h.unused, hunused₁ ▸ hmemory₁ ▸ h.frame, hsize₁ ▸ h.lineSize,
      hsize₁ ▸ hunused₁ ▸ h.ptr⟩
  rw [hline] at hline₁
  rw [← hunused₁] at ha
  rw [← hrest₁] at hlines
  have hlong (hlt : limit < line.length + s₁.eol.getD s₁.buf.block.length + 1) :
      (archiveFgetsLoop s line).1 = .erange :=
    fgetsPass_long hnext hline₁ (hs₁.limit ▸ hlt)
  by_cases hnewline : '\n' ∈ s₁.buf.block
  · obtain ⟨c, d, hblock, hc⟩ := List.eq_append_cons_of_mem hnewline
    have heol := eol_append hblock hc
    have hsplit : s₁.rest = c ++ '\n' :: (d ++ s₁.blocks.flatten) := by
      simp [rest, hblock]
    rw [hsplit, List.splitOn_append_cons_self_of_not_mem hc] at hlines
    obtain ⟨rfl, rfl⟩ := List.cons.inj hlines
    rw [heol, Option.getD_some] at hlong
    rw [List.length_append]
    split_ifs with hlt
    · exact hlong hlt
    · obtain ⟨s₂, hgrow, hfit, hblocks₂, hbroken₂, hlimit₂, hblock₂, hret₂⟩ :=
        growLine_fits hline₁ ha (hs₁.limit ▸ not_lt.mp hlt)
      obtain ⟨line₂, hline₂, hlt₂, -⟩ := hfit.ptr
      have hpass := fgetsPass_eol hnext heol hgrow
      have htake : s₁.buf.block.take c.length = c := by
        rw [hblock, List.take_left]
      have hdrop : s₁.buf.block.drop (c.length + 1) = d := by
        rw [hblock]
        simp [List.drop_append]
      rw [htake, hdrop] at hpass
      refine ⟨_, archiveFgetsLoop_inl hpass, hfitted₁ (hfit.write ha rfl (by simp) rfl rfl), ?_⟩
      have hret₁ : s₁.buf.ret = .ok := by
        rcases hcase with ⟨hok, -⟩ | ⟨-, hnil⟩
        · exact hok
        · rw [hsplit] at hnil
          simp at hnil
      refine ⟨hs₁.of_subset hlimit₂ (by simp [hbroken₂]) (by simp [hblocks₂]) ?_, ?_, rfl,
        Or.inl ⟨hret₂.trans hret₁, ?_⟩⟩
      · rw [hsplit]
        simp [rest, hblocks₂]
      · exact ⟨line₂, by simpa using hlt₂, hline₂, by simp [Reading.write, hline₂]⟩
      · simp [rest, hblocks₂]
  · have hnul : '\x00' ∉ s₁.buf.block := fun h => hs₁.nul (List.mem_append_left _ h)
    have heol := eol_eq_none hnewline hnul
    rw [heol, Option.getD_none] at hlong
    obtain ⟨q, qs, hq⟩ : ∃ q qs, s₁.blocks.flatten.splitOn '\n' = q :: qs :=
      List.exists_cons_of_ne_nil (List.splitOn_ne_nil _ _)
    rw [rest, splitOn_append hnewline hq] at hlines
    obtain ⟨rfl, rfl⟩ := List.cons.inj hlines
    by_cases hlt : limit < line.length + s₁.buf.block.length + 1
    · rw [if_pos (by simp only [List.length_append]; omega)]
      exact hlong hlt
    obtain ⟨s₂, hgrow, hfit, hblocks₂, hbroken₂, hlimit₂, hblock₂, hret₂⟩ :=
      growLine_fits hline₁ ha (hs₁.limit ▸ not_lt.mp hlt)
    obtain ⟨line₂, hline₂, hlt₂, -⟩ := hfit.ptr
    have hpass := fgetsPass_no_eol hnext heol hgrow
    rcases hcase with ⟨hret₁, hne⟩ | ⟨hret₁, hnil⟩
    · simp only [hne, if_false] at hpass
      have hless := fgetsPass_inr_todo hpass
      rw [htodo] at hless
      have hrec := ih _ hless { s₂.write s₂.buf.line (line ++ s₁.buf.block) with
          buf := { s₂.buf with block := [] } } (line ++ s₁.buf.block)
        (hs₁.of_subset hlimit₂ (by simp [hbroken₂]) (by simp [hblocks₂]) (by
          simp [rest, hblocks₂])) (hret₂.trans hret₁) hline₂ (by simpa using hlt₂)
        (by simpa [rest, hblocks₂] using hq) rfl
      rw [archiveFgetsLoop_inr hpass, ← List.append_assoc]
      split_ifs at hrec ⊢ with hlong₂
      · exact hrec
      · obtain ⟨s', hs', hfit', hat⟩ := hrec
        have hle : line.length + s₁.buf.block.length + 1 ≤
            (line ++ s₁.buf.block ++ q).length + 1 := by
          simp only [List.length_append]
          omega
        refine ⟨s', hs', hfitted₁ (Fitted.trans ha ?_ hfit' hline₂ hle), hat⟩
        exact hfit.write ha rfl (by simp) rfl rfl
    · obtain ⟨hblock, hblocks⟩ := List.append_eq_nil_iff.mp hnil
      have hq' : [[]] = q :: qs := by
        rw [← hq, hblocks]
        rfl
      obtain ⟨rfl, rfl⟩ := List.cons.inj hq'
      rw [if_pos hblock] at hpass
      rw [List.append_nil, if_neg (by simpa using hlt), archiveFgetsLoop_inl hpass]
      refine ⟨_, rfl, hfitted₁ ?_, ?_⟩
      · rw [List.length_append]
        exact hfit.write ha rfl (by simp) rfl rfl
      · refine ⟨hs₁.of_subset hlimit₂ (by simp [hbroken₂]) (by simp [hblocks₂]) ?_, ?_, rfl,
          Or.inr ⟨hret₂.trans hret₁, ?_, rfl⟩⟩
        · simp [rest, hblocks₂, hblock₂]
        · exact ⟨line₂, by simpa using hlt₂, hline₂, by simp [Reading.write, hline₂]⟩
        · simp [rest, hblocks₂, hblock₂, hblock, hblocks]

namespace Reading

/-- The buffer as the caller sets it up, before the first call. -/
def start (limit : ℕ) (blocks : List CString) : Reading :=
  { blocks, buf := { maxLineSize := limit } }

theorem AtLine.text_line {limit : ℕ} {s : Reading} {line : CString} {lines : List CString}
    (h : s.AtLine limit line lines) : s.text s.buf.line = some line := by
  obtain ⟨a, -, hline, hmemory⟩ := h.ptr
  simp [Reading.text, hline, hmemory]

theorem AtLine.newline_notMem {limit : ℕ} {s : Reading} {line p : CString} {ps : List CString}
    (h : s.AtLine limit line (p :: ps)) : '\n' ∉ p := by
  rcases h.lines with ⟨-, hlines⟩ | ⟨-, -, hnil⟩
  · exact newline_notMem_line (hlines ▸ List.mem_cons_self)
  · cases hnil

/-- **A call in the midst of the content** returns the next line; the buffer is moved if the line
does not fit.  The limit counts for the line as a whole, also when it comes in several blocks. -/
theorem AtLine.fgets {limit : ℕ} {s : Reading} {line p : CString} {ps : List CString}
    (h : s.AtLine limit line (p :: ps)) :
    if limit < p.length + 1 then (archiveFgets s).1 = .erange
    else ∃ s', archiveFgets s = (.ok, s') ∧ s'.AtLine limit p ps ∧
      s'.buf.lineSize = max s.buf.lineSize (p.length + 1) ∧
      (p.length + 1 ≤ s.buf.lineSize → s'.buf.line = s.buf.line) ∧
      (s.buf.lineSize < p.length + 1 → s'.text s.buf.line = none) := by
  obtain ⟨a, ha, hline, hmemory⟩ := h.ptr
  rcases h.lines with ⟨hret, hlines⟩ | ⟨-, -, hnil⟩
  · have hspec := archiveFgetsLoop_spec s [] h.steady hret hline ha hlines
    rw [List.nil_append] at hspec
    by_cases hlong : limit < p.length + 1
    · rw [if_pos hlong] at hspec ⊢
      exact hspec
    · rw [if_neg hlong] at hspec ⊢
      obtain ⟨s', hs', hfit, hat⟩ := hspec
      obtain ⟨line', hline', -, hsame, hmoved⟩ := hfit.ptr
      refine ⟨s', hs', hat, hfit.lineSize, fun hfits => ?_, fun hmove => ?_⟩
      · rw [hline', hline, hsame hfits]
      · rw [hline]
        exact (hmoved hmove).2
  · cases hnil

/-- After the last line the end of the data is reported. -/
theorem AtLine.fgets_nil {limit : ℕ} {s : Reading} {line : CString}
    (h : s.AtLine limit line []) : (archiveFgets s).1 = .eof := by
  rcases h.lines with ⟨-, hlines⟩ | ⟨hret, hrest, -⟩
  · exact absurd hlines (List.splitOn_ne_nil _ _)
  · have hblock : s.buf.block = [] := (List.append_eq_nil_iff.mp hrest).1
    have hpass : s.fgetsPass [] = .inl s.cleanup := by
      simp [fgetsPass, Reading.nextBlock, hblock, hret]
    rw [archiveFgets, archiveFgetsLoop_inl hpass]
    exact hret

/-- **The first call** allocates room for the first block without a look at the limit. -/
theorem fgets_start {limit : ℕ} {blocks : List CString} {p : CString} {ps : List CString}
    (hlimit : 0 < limit) (hblocks : ∀ block ∈ blocks, block ≠ [])
    (hnul : '\x00' ∉ blocks.flatten) (hlines : blocks.flatten.splitOn '\n' = p :: ps) :
    if p.length < (blocks.headD []).length ∨ p.length < limit then
      ∃ s', archiveFgets (start limit blocks) = (.ok, s') ∧ s'.AtLine limit p ps ∧
        s'.buf.lineSize = max ((blocks.headD []).length + 1) (p.length + 1)
    else (archiveFgets (start limit blocks)).1 = .erange := by
  cases blocks with
  | nil =>
    obtain ⟨rfl, rfl⟩ : [] = p ∧ [] = ps := by simpa using hlines
    let s₁ : Reading := { start limit [] with buf := { maxLineSize := limit, ret := .eof } }
    have hpass := @fgetsPass_no_eol (start limit []) s₁ _ [] rfl rfl rfl
    rw [if_pos rfl] at hpass
    have hfits : ([] : CString).length < limit := hlimit
    rw [if_pos (Or.inr hfits)]
    refine ⟨_, archiveFgetsLoop_inl hpass, ⟨⟨rfl, rfl, hblocks, hnul⟩, ?_, rfl, ?_⟩, rfl⟩
    · exact ⟨0, Nat.zero_lt_one, rfl, rfl⟩
    · exact Or.inr ⟨rfl, rfl, rfl⟩
  | cons block blocks =>
    let s₁ : Reading :=
      { start limit blocks with
        buf := { maxLineSize := limit, block, blockSize := block.length } }
    have hnext : (start limit (block :: blocks)).nextBlock = .ok s₁ := by
      simp [Reading.nextBlock, start, s₁]
    have hgrow (new : ℕ) :
        s₁.growLine ([] : CString).length new = .ok (s₁.callocLine (block.length + 1)) := rfl
    have hnul₁ : '\x00' ∉ s₁.rest := hnul
    have hsteady : s₁.Steady limit :=
      ⟨rfl, rfl, fun b hb => hblocks b (List.mem_cons_of_mem _ hb), hnul₁⟩
    rw [List.flatten_cons] at hlines
    rw [List.headD_cons]
    by_cases hnewline : '\n' ∈ block
    · obtain ⟨c, d, hblock, hc⟩ := List.eq_append_cons_of_mem hnewline
      have hpass := fgetsPass_eol hnext (eol_append hblock hc) (hgrow _)
      have htake : s₁.buf.block.take c.length = c := by
        simp [s₁, hblock]
      have hdrop : s₁.buf.block.drop (c.length + 1) = d := by
        simp [s₁, hblock, List.drop_append]
      rw [htake, hdrop] at hpass
      have hsplit : block ++ blocks.flatten = c ++ '\n' :: (d ++ blocks.flatten) := by
        simp [hblock]
      rw [hsplit, List.splitOn_append_cons_self_of_not_mem hc] at hlines
      obtain ⟨rfl, rfl⟩ := List.cons.inj hlines
      have hlength : block.length = c.length + (d.length + 1) := by
        simp [hblock]
      rw [if_pos (Or.inl (by omega))]
      refine ⟨_, archiveFgetsLoop_inl hpass, ⟨hsteady.of_subset rfl rfl rfl ?_, ?_, rfl,
        Or.inl ⟨rfl, rfl⟩⟩, ?_⟩
      · show d ++ blocks.flatten ⊆ block ++ blocks.flatten
        simp [hblock]
      · exact ⟨0, Nat.zero_lt_one, rfl, rfl⟩
      · show block.length + 1 = _
        omega
    · have hnul₂ : '\x00' ∉ s₁.buf.block := fun h => hnul₁ (List.mem_append_left _ h)
      have hpass := fgetsPass_no_eol hnext (eol_eq_none hnewline hnul₂) (hgrow _)
      rw [if_neg (hblocks block (by simp))] at hpass
      obtain ⟨q, qs, hq⟩ : ∃ q qs, blocks.flatten.splitOn '\n' = q :: qs :=
        List.exists_cons_of_ne_nil (List.splitOn_ne_nil _ _)
      rw [splitOn_append hnewline hq] at hlines
      obtain ⟨rfl, rfl⟩ := List.cons.inj hlines
      let s₂ : Reading :=
        { (s₁.callocLine (block.length + 1)).write (some 0) block with
          buf := { (s₁.callocLine (block.length + 1)).buf with block := [] } }
      have hsteady₂ : s₂.Steady limit :=
        hsteady.of_subset rfl rfl rfl (List.subset_append_right block _)
      have hspec := archiveFgetsLoop_spec s₂ block hsteady₂ rfl rfl Nat.zero_lt_one hq
      have hrun : archiveFgets (start limit (block :: blocks)) = archiveFgetsLoop s₂ block :=
        archiveFgetsLoop_inr hpass
      rw [hrun]
      by_cases hlong : limit < (block ++ q).length + 1
      · rw [if_pos hlong] at hspec
        rwa [if_neg (by simp only [List.length_append] at hlong ⊢; omega)]
      · rw [if_neg hlong] at hspec
        rw [if_pos (Or.inr (by omega))]
        obtain ⟨s', hs', hfit, hat⟩ := hspec
        exact ⟨s', hs', hat, hfit.lineSize⟩

end Reading

end Alpm
