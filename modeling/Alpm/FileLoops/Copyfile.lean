import Alpm.FileLoops.ReadLoop

/-!
# `_alpm_copyfile`

The copy reads into a buffer and writes until all that was read is written.

## 1.  Interruptions

Its outer loop has the condition of the loops in `Alpm.FileLoops.ReadLoop`, and a failing call of
`write` that was interrupted leaves the same `errno` behind.  `readLoops_end_iff` is about all three
loops that read a file.

## 2.  Short writes

A write that is given the rest of the buffer starts where the *last* write ended, counted from the
start of the buffer and not from where that write began.  So a second write is right, and a third
one begins too early.  What is written is exact when every write happens to be given bytes that are
equal to those that come next (`RightWrites`), as it is when no chunk takes more than two writes.

## 3.  The destination

The destination is opened without truncating it, so the copy replaces its beginning.  A copy that
returns 0 is exact if and only if the destination was not longer and every write is given the right
bytes (`copyfile_exact_iff`).
-/

namespace Alpm.FileLoops

/-- What a call of `write` comes to that does not write all that is left. -/
inductive Write where
  | wrote (n : ℕ)
  | failed (errno : ℕ)

def Write.count : Write → ℕ
  | .wrote n => n
  | .failed _ => 0

/-- What is read, and what the calls of `write` come to before the one that writes all that is
left. -/
structure CopyChunk extends Chunk where
  writes : List Write
  short : (writes.map Write.count).sum < data.length

/-- The buffer and what lies around it, by the distance from its start. -/
abbrev Buffer := ℤ → UInt8

/-- `read(in, buf, ...)` stores what it reads. -/
def Buffer.store (buf : Buffer) (data : List UInt8) : Buffer := fun i =>
  if 0 ≤ i then (data[i.toNat]?).getD (buf i) else buf i

/-- The bytes of `write(out, buf + start, n)`. -/
def Buffer.bytes (buf : Buffer) (start : ℤ) (n : ℕ) : List UInt8 :=
  (List.range n).map fun k : ℕ => buf (start + (k : ℤ))

/-- The state of the copy. -/
structure Copy where
  errno : ℕ
  buf : Buffer
  /-- What was read from `in`. -/
  input : List UInt8
  /-- What was written to `out`. -/
  output : List UInt8

/-- `write(out, buf + nwrite, n)`, when it writes `n` bytes. -/
def Copy.write (copy : Copy) (nwrite : ℤ) (n : ℕ) : Copy :=
  { copy with output := copy.output ++ copy.buf.bytes nwrite n }

/-- The loop that writes, from the value of `nwrite` and of `nread` on.  The first component is
false when the loop jumps to `cleanup`. -/
def writeLoop (copy : Copy) (nwrite : ℤ) (nread : ℕ) : List Write → Bool × Copy
  | [] => (true, copy.write nwrite nread)
  | .wrote n :: writes =>
    if nread - n > 0 then writeLoop (copy.write nwrite n) n (nread - n) writes
    else (true, copy.write nwrite n)
  | .failed errno :: writes =>
    if errno ≠ EINTR then (false, { copy with errno })
    else if nread > 0 then writeLoop { copy with errno } (-1) nread writes
    else (true, { copy with errno })

/-- The loop that reads: the return value.  It goes on after a read that returned something, and
also when `errno` is `EINTR`, whatever the read returned. -/
def copyLoop : ℕ → Copy → List (Read CopyChunk) → Option (Int × Copy)
  | 0, _, _ => none
  | fuel + 1, copy, reads =>
    match reads with
    | .data chunk :: reads =>
      let copy : Copy :=
        { copy with buf := copy.buf.store chunk.data, input := copy.input ++ chunk.data }
      match writeLoop copy 0 chunk.data.length chunk.writes with
      | (false, copy) => some (1, copy)
      | (true, copy) => copyLoop fuel copy reads
    | .failed errno :: reads =>
      if errno = EINTR then copyLoop fuel { copy with errno } reads
      else some (0, { copy with errno })
    -- at the end of the file nothing is read, and no byte is written
    | [] =>
      if copy.errno = EINTR then copyLoop fuel (writeLoop copy 0 0 []).2 []
      else some (0, copy)

/-- `_alpm_copyfile`: the return value and the content of the destination.  The destination has
the content `dest` before, if it exists. -/
def copyfile (malloc : Bool) (openedIn openedOut : Open) (stat : Bool)
    (reads : List (Read CopyChunk)) (buf : Buffer) (dest : Option (List UInt8)) (errno fuel : ℕ) :
    Option (Int × Option (List UInt8)) :=
  if !malloc then some (1, dest)
  else
    let errno := openedOut.errno (openedIn.errno errno)
    let content := if openedOut.failure.isSome then dest else some (dest.getD [])
    if openedIn.failure.isSome || openedOut.failure.isSome then some (1, content)
    else if !stat then some (1, content)
    else
      (copyLoop fuel { errno, buf, input := [], output := [] } reads).map fun (ret, copy) =>
        (ret, content.map fun old => copy.output ++ old.drop copy.output.length)

/-! ## Interruptions -/

/-- No call of `write` fails. -/
def Unfailing (writes : List Write) : Prop := ∀ errno, Write.failed errno ∉ writes

/-- After an interruption the loop that writes leaves `errno` at `EINTR`, if it does not jump. -/
theorem writeLoop_interrupted {copy : Copy} {nwrite : ℤ} {nread : ℕ} {writes : List Write}
    (hshort : (writes.map Write.count).sum < nread)
    (h : copy.errno = EINTR ∨ ¬ Unfailing writes) {copy' : Copy}
    (hloop : writeLoop copy nwrite nread writes = (true, copy')) : copy'.errno = EINTR := by
  induction writes generalizing copy nwrite nread with
  | nil =>
    obtain rfl := (Prod.mk.inj hloop).2
    exact h.resolve_right fun hfail => hfail fun e => List.not_mem_nil
  | cons w writes ih =>
    rw [List.map_cons, List.sum_cons] at hshort
    cases w with
    | wrote n =>
      have hlt : n + (writes.map Write.count).sum < nread := hshort
      rw [writeLoop, if_pos (by omega)] at hloop
      have hrest : (copy.write nwrite n).errno = EINTR ∨ ¬ Unfailing writes := by
        refine h.imp_right fun hfail hrest => hfail fun e he => ?_
        exact hrest e ((List.mem_cons.mp he).resolve_left (by simp))
      exact ih (by omega) hrest hloop
    | failed e =>
      have hlt : 0 + (writes.map Write.count).sum < nread := hshort
      rw [writeLoop] at hloop
      split_ifs at hloop with he hpos
      · cases hloop
      · exact ih (by omega) (Or.inl (not_not.mp he)) hloop
      · omega

/-- After an interruption the loop that reads does not return 0. -/
theorem copyLoop_interrupted {reads : List (Read CopyChunk)} (hreads : Read.Interruptible reads)
    {copy : Copy}
    (h : copy.errno = EINTR ∨ (∃ e, Read.failed e ∈ reads) ∨
      ∃ chunk, Read.data chunk ∈ reads ∧ ¬ Unfailing chunk.writes)
    (fuel : ℕ) (copy' : Copy) : copyLoop fuel copy reads ≠ some (0, copy') := by
  induction fuel generalizing copy reads with
  | zero => exact (Option.some_ne_none _).symm
  | succ fuel ih =>
    match reads with
    | [] =>
      have herrno : copy.errno = EINTR := by simpa using h
      rw [copyLoop, if_pos herrno]
      exact ih hreads (Or.inl herrno)
    | .failed e :: reads =>
      have he : e = EINTR := hreads e (List.mem_cons_self ..)
      rw [copyLoop, if_pos he]
      exact ih (fun e he => hreads e (List.mem_cons_of_mem _ he)) (Or.inl he)
    | .data chunk :: reads =>
      have hrest : Read.Interruptible reads := fun e he => hreads e (List.mem_cons_of_mem _ he)
      rw [copyLoop]
      split
      · simp
      · rename_i copy₁ hwrite
        refine ih hrest ?_
        rcases h with herrno | ⟨e, he⟩ | ⟨c, hc, hfail⟩
        · refine Or.inl (writeLoop_interrupted chunk.short (Or.inl ?_) hwrite)
          exact herrno
        · exact Or.inr (Or.inl ⟨e, (List.mem_cons.mp he).resolve_left (by simp)⟩)
        · rcases List.mem_cons.mp hc with heq | hc
          · obtain rfl := Read.data.inj heq
            exact Or.inl (writeLoop_interrupted c.short (Or.inr hfail) hwrite)
          · exact Or.inr (Or.inr ⟨c, hc, hfail⟩)

/-! ## What is written -/

/-- What the writes of a chunk write, with the offset in the buffer that the next one is given and
the number of bytes that are written. -/
def chunkOutput (data : List UInt8) : ℕ → ℕ → List ℕ → List UInt8
  | offset, done, [] => (data.drop offset).take (data.length - done)
  | offset, done, n :: counts =>
    (data.drop offset).take n ++ chunkOutput data n (done + n) counts

/-- Every write of a chunk is given bytes that are equal to those that come next. -/
def RightWrites (data : List UInt8) : ℕ → ℕ → List ℕ → Prop
  | offset, done, [] => (data.drop offset).take (data.length - done) = data.drop done
  | offset, done, n :: counts =>
    (data.drop offset).take n = (data.drop done).take n ∧ RightWrites data n (done + n) counts

theorem bytes_store {buf : Buffer} {data : List UInt8} {offset n : ℕ}
    (h : offset + n ≤ data.length) :
    (buf.store data).bytes offset n = (data.drop offset).take n := by
  refine List.ext_getElem (by simp [Buffer.bytes]; omega) fun k hk hk' => ?_
  have hlt : offset + k < data.length := by
    simp only [Buffer.bytes, List.length_map, List.length_range] at hk
    omega
  have hindex : ((offset : ℤ) + k).toNat = offset + k := by omega
  have hnonneg : 0 ≤ (offset : ℤ) + k := by omega
  simp [Buffer.bytes, Buffer.store, hindex, hlt, hnonneg]

theorem writeLoop_eq {copy : Copy} {buf : Buffer} {data : List UInt8}
    (hbuf : copy.buf = buf.store data) {writes : List Write} (hwrites : Unfailing writes)
    {offset done : ℕ} (hle : offset ≤ done)
    (hshort : done + (writes.map Write.count).sum < data.length) :
    writeLoop copy offset (data.length - done) writes =
      (true, { copy with
        output := copy.output ++ chunkOutput data offset done (writes.map Write.count) }) := by
  induction writes generalizing copy offset done with
  | nil =>
    rw [writeLoop, Copy.write, hbuf, bytes_store (by omega)]
    rfl
  | cons w writes ih =>
    rw [List.map_cons, List.sum_cons] at hshort
    cases w with
    | failed e => exact absurd (List.mem_cons_self ..) (hwrites e)
    | wrote n =>
      have hlt : done + (n + (writes.map Write.count).sum) < data.length := hshort
      have hrest : Unfailing writes := fun e he => hwrites e (List.mem_cons_of_mem _ he)
      have hleft : data.length - done - n = data.length - (done + n) := by omega
      rw [writeLoop, if_pos (by omega), hleft,
        @ih (copy.write offset n) hbuf hrest _ _ (Nat.le_add_left n done) (by omega)]
      simp only [Copy.write]
      rw [hbuf, bytes_store (by omega), List.append_assoc]
      rfl

theorem length_chunkOutput {data : List UInt8} {offset done : ℕ} {counts : List ℕ}
    (hle : offset ≤ done) (hshort : done + counts.sum < data.length) :
    (chunkOutput data offset done counts).length = data.length - done := by
  induction counts generalizing offset done with
  | nil =>
    rw [chunkOutput, List.length_take, List.length_drop]
    omega
  | cons n counts ih =>
    rw [List.sum_cons] at hshort
    rw [chunkOutput, List.length_append, List.length_take, List.length_drop,
      ih (Nat.le_add_left n done) (by omega)]
    omega

/-- The writes write the chunk if and only if each of them is given the right bytes. -/
theorem chunkOutput_eq_iff {data : List UInt8} {offset done : ℕ} {counts : List ℕ}
    (hle : offset ≤ done) (hshort : done + counts.sum < data.length) :
    chunkOutput data offset done counts = data.drop done ↔
      RightWrites data offset done counts := by
  induction counts generalizing offset done with
  | nil => exact Iff.rfl
  | cons n counts ih =>
    rw [List.sum_cons] at hshort
    rw [chunkOutput, RightWrites, ← ih (Nat.le_add_left n done) (by omega)]
    have hsplit : data.drop done = (data.drop done).take n ++ data.drop (done + n) := by
      rw [← List.drop_drop, List.take_append_drop]
    have hlength : ((data.drop offset).take n).length = ((data.drop done).take n).length := by
      simp only [List.length_take, List.length_drop]
      omega
    constructor
    · intro heq
      rw [hsplit] at heq
      exact List.append_inj heq hlength
    · rintro ⟨hhead, hrest⟩
      rw [hsplit, hhead, hrest]

/-- What the writes of a chunk write. -/
def CopyChunk.output (chunk : CopyChunk) : List UInt8 :=
  chunkOutput chunk.data 0 0 (chunk.writes.map Write.count)

/-- The writes of a chunk are given the right bytes: each of them is given bytes that are equal to
those that come next in what was read.  Bytes may be equal by chance, so this is a condition on the
data as well. -/
def CopyChunk.Right (chunk : CopyChunk) : Prop :=
  RightWrites chunk.data 0 0 (chunk.writes.map Write.count)

theorem CopyChunk.length_output (chunk : CopyChunk) :
    chunk.output.length = chunk.data.length := by
  have hshort := chunk.short
  exact length_chunkOutput (Nat.le_refl 0) (by omega)

theorem CopyChunk.output_eq_iff (chunk : CopyChunk) :
    chunk.output = chunk.data ↔ chunk.Right := by
  have hshort := chunk.short
  exact chunkOutput_eq_iff (Nat.le_refl 0) (by omega)

/-- A chunk that is written in one or two writes is written right. -/
theorem CopyChunk.right_of_length_le (chunk : CopyChunk) (h : chunk.writes.length ≤ 1) :
    chunk.Right := by
  unfold CopyChunk.Right
  match hwrites : chunk.writes, h with
  | [], _ => exact List.take_length
  | [w], _ =>
    refine ⟨rfl, ?_⟩
    rw [List.map_nil, RightWrites, Nat.zero_add, ← List.length_drop, List.take_length]

theorem length_flatMap_output (chunks : List CopyChunk) :
    (chunks.flatMap (·.output)).length = (chunks.flatMap (·.data)).length := by
  rw [List.length_flatMap, List.length_flatMap]
  simp only [CopyChunk.length_output]

/-- What there is to read. -/
def source (reads : List (Read CopyChunk)) : List UInt8 := (Read.chunks reads).flatMap (·.data)

theorem copyLoop_data {copy : Copy} (herrno : copy.errno ≠ EINTR) {chunks : List CopyChunk}
    (hwrites : ∀ chunk ∈ chunks, Unfailing chunk.writes) :
    ∃ copy', copyLoop (chunks.length + 1) copy (chunks.map Read.data) = some (0, copy') ∧
      copy'.input = copy.input ++ chunks.flatMap (·.data) ∧
      copy'.output = copy.output ++ chunks.flatMap (·.output) := by
  induction chunks generalizing copy with
  | nil => exact ⟨copy, if_neg herrno, by simp, by simp⟩
  | cons chunk chunks ih =>
    have hshort := chunk.short
    let stored : Copy :=
      { copy with buf := copy.buf.store chunk.data, input := copy.input ++ chunk.data }
    have hwrite : writeLoop stored 0 chunk.data.length chunk.writes =
        (true, { stored with output := stored.output ++ chunk.output }) :=
      writeLoop_eq rfl (hwrites chunk (List.mem_cons_self ..)) (Nat.le_refl 0) (by omega)
    obtain ⟨copy', hloop, hinput, houtput⟩ :=
      @ih { stored with output := stored.output ++ chunk.output } herrno
        fun c hc => hwrites c (List.mem_cons_of_mem _ hc)
    refine ⟨copy', ?_, ?_, ?_⟩
    · rw [List.map_cons, List.length_cons, copyLoop]
      show (match writeLoop stored 0 chunk.data.length chunk.writes with
        | (false, copy) => some (1, copy)
        | (true, copy) => copyLoop (chunks.length + 1) copy (chunks.map Read.data)) = _
      rw [hwrite]
      exact hloop
    · rw [hinput, List.flatMap_cons, ← List.append_assoc]
    · rw [houtput, List.flatMap_cons, ← List.append_assoc]

theorem Read.mem_chunks {χ : Type} {reads : List (Read χ)} {chunk : χ} :
    chunk ∈ Read.chunks reads ↔ Read.data chunk ∈ reads := by
  induction reads with
  | nil => simp [Read.chunks]
  | cons r reads ih => cases r <;> simp [Read.chunks, ih]

theorem copyLoop_of_data {copy : Copy} {reads : List (Read CopyChunk)}
    (herrno : copy.errno ≠ EINTR) (hdata : ∀ e, Read.failed e ∉ reads)
    (hwrites : ∀ chunk, Read.data chunk ∈ reads → Unfailing chunk.writes) :
    ∃ copy', copyLoop ((Read.chunks reads).length + 1) copy reads = some (0, copy') ∧
      copy'.input = copy.input ++ source reads ∧
      copy'.output = copy.output ++ (Read.chunks reads).flatMap (·.output) := by
  have hloop := @copyLoop_data copy herrno (Read.chunks reads)
    fun chunk hc => hwrites chunk (Read.mem_chunks.mp hc)
  rwa [Read.map_chunks hdata] at hloop

/-- More steps do not change the result. -/
theorem copyLoop_mono {fuel k : ℕ} {copy : Copy} {reads : List (Read CopyChunk)}
    {r : Int × Copy} (h : copyLoop fuel copy reads = some r) :
    copyLoop (fuel + k) copy reads = some r := by
  induction fuel generalizing copy reads with
  | zero => cases h
  | succ fuel ih =>
    rw [Nat.succ_add]
    match reads with
    | [] =>
      rw [copyLoop] at h ⊢
      split_ifs at h ⊢ with herrno
      · exact ih h
      · exact h
    | .failed e :: reads =>
      rw [copyLoop] at h ⊢
      split_ifs at h ⊢ with herrno
      · exact ih h
      · exact h
    | .data chunk :: reads =>
      rw [copyLoop] at h ⊢
      split at h
      · exact h
      · exact ih h

/-- The loop returns 0 only on reads that all return something, with writes that do not fail. -/
theorem data_of_copyLoop {reads : List (Read CopyChunk)} (hreads : Read.Interruptible reads)
    {fuel : ℕ} {copy copy' : Copy} (h : copyLoop fuel copy reads = some (0, copy')) :
    copy.errno ≠ EINTR ∧ (∀ e, Read.failed e ∉ reads) ∧
      ∀ chunk, Read.data chunk ∈ reads → Unfailing chunk.writes := by
  by_contra hnot
  refine copyLoop_interrupted hreads ?_ fuel copy' h
  by_contra hall
  push Not at hall
  exact hnot hall

/-- **The loop of a copy ends**, with as much written as was read, if and only if no call of it and
none before it was interrupted and no write fails.  Calls that succeed leave `errno` alone, so the
condition is on all calls up to the end of the file. -/
theorem copyLoop_ends_iff {reads : List (Read CopyChunk)} (hreads : Read.Interruptible reads)
    (copy : Copy) :
    (∃ fuel copy', copyLoop fuel copy reads = some (0, copy') ∧
        copy'.input = copy.input ++ source reads ∧
        copy'.output.length = copy.output.length + (source reads).length) ↔
      copy.errno ≠ EINTR ∧ (∀ e, Read.failed e ∉ reads) ∧
        ∀ chunk, Read.data chunk ∈ reads → Unfailing chunk.writes := by
  constructor
  · rintro ⟨fuel, copy', hloop, -⟩
    exact data_of_copyLoop hreads hloop
  · rintro ⟨herrno, hdata, hwrites⟩
    obtain ⟨copy', hloop, hinput, houtput⟩ := copyLoop_of_data herrno hdata hwrites
    refine ⟨_, copy', hloop, hinput, ?_⟩
    rw [houtput, List.length_append, length_flatMap_output, source]

/-- **The loops that read a file end**, having taken in all that was read, if and only if no call
was interrupted, in the loop or as the last failure before it, and no write fails.  After an
interruption `errno` stays at `EINTR` until another call fails, and at the end of the file none
does. -/
theorem readLoops_end_iff {ctx₁ ctx₂ : Type} (md5 : Digest ctx₁ (Vector UInt8 16))
    (sha256 : Digest ctx₂ (Vector UInt8 32)) {copyReads : List (Read CopyChunk)}
    {reads : List (Read Chunk)} (hcopy : Read.Interruptible copyReads)
    (hreads : Read.Interruptible reads) (copy : Copy) (errno : ℕ) (c₁ : ctx₁) (c₂ : ctx₂) :
    ((∃ fuel copy', copyLoop fuel copy copyReads = some (0, copy') ∧
        copy'.input = copy.input ++ source copyReads ∧
        copy'.output.length = copy.output.length + (source copyReads).length) ↔
      copy.errno ≠ EINTR ∧ (∀ e, Read.failed e ∉ copyReads) ∧
        ∀ chunk, Read.data chunk ∈ copyReads → Unfailing chunk.writes) ∧
    ((∃ fuel, digestLoop md5 fuel errno c₁ reads =
        some (0, (Read.chunks reads).foldl (fun c chunk => md5.update c chunk.data) c₁)) ↔
      errno ≠ EINTR ∧ ∀ e, Read.failed e ∉ reads) ∧
    ((∃ fuel, digestLoop sha256 fuel errno c₂ reads =
        some (0, (Read.chunks reads).foldl (fun c chunk => sha256.update c chunk.data) c₂)) ↔
      errno ≠ EINTR ∧ ∀ e, Read.failed e ∉ reads) :=
  ⟨copyLoop_ends_iff hcopy copy, digestLoop_ends_iff hreads errno,
    digestLoop_ends_iff hreads errno⟩

/-- The state of a copy before anything is read. -/
def emptyCopy (errno : ℕ) : Copy := { errno, buf := fun _ => 0, input := [], output := [] }

/-- A digest that counts bytes. -/
def byteCount (n : ℕ) : Digest ℕ (Vector UInt8 n) where
  init := 0
  update c bytes := c + bytes.length
  final c := Vector.replicate n c.toUInt8

/-- Three bytes that are read at once, and written in two pieces. -/
def splitChunk : CopyChunk where
  data := [1, 2, 3]
  data_ne := by decide
  length_le := by decide
  writes := [.wrote 1]
  short := by decide

/-- Two pieces of data with `between` between them, as the copy reads them. -/
def copyReads (between : List (Read CopyChunk)) : List (Read CopyChunk) :=
  .data splitChunk :: between ++ [.data splitChunk]

/-- Two pieces of data with `between` between them, as the digests read them. -/
def digestReads (between : List (Read Chunk)) : List (Read Chunk) :=
  .data splitChunk.toChunk :: between ++ [.data splitChunk.toChunk]

/-- A read that is interrupted between two pieces of data keeps all three loops from ending with
what was read; without it they end, and have taken in both pieces. -/
theorem readLoops_end_iff_between :
    ((¬ ∃ fuel copy', copyLoop fuel (emptyCopy 0) (copyReads [.failed EINTR]) = some (0, copy') ∧
        copy'.input = source (copyReads [.failed EINTR]) ∧ copy'.output.length = 6) ∧
      (¬ ∃ fuel, digestLoop (byteCount 16) fuel 0 0 (digestReads [.failed EINTR]) = some (0, 6)) ∧
      ¬ ∃ fuel, digestLoop (byteCount 32) fuel 0 0 (digestReads [.failed EINTR]) = some (0, 6)) ∧
    (∃ fuel copy', copyLoop fuel (emptyCopy 0) (copyReads []) = some (0, copy') ∧
        copy'.input = [1, 2, 3, 1, 2, 3] ∧ copy'.output.length = 6) ∧
      (∃ fuel, digestLoop (byteCount 16) fuel 0 0 (digestReads []) = some (0, 6)) ∧
      ∃ fuel, digestLoop (byteCount 32) fuel 0 0 (digestReads []) = some (0, 6) := by
  have hcopy : ∀ between, Read.Interruptible between → Read.Interruptible (copyReads between) := by
    intro between h e he
    exact h e (by simpa [copyReads] using he)
  have hdigest : ∀ between, Read.Interruptible between →
      Read.Interruptible (digestReads between) := by
    intro between h e he
    exact h e (by simpa [digestReads] using he)
  have heintr : ∀ {χ : Type}, Read.Interruptible [(Read.failed EINTR : Read χ)] := by
    intro χ e he
    simpa using he
  have hnil : ∀ {χ : Type}, Read.Interruptible ([] : List (Read χ)) := by
    intro χ e he
    cases he
  obtain ⟨hcopied, hmd5, hsha256⟩ := readLoops_end_iff (byteCount 16) (byteCount 32)
    (hcopy _ heintr) (hdigest _ heintr) (emptyCopy 0) 0 0 0
  obtain ⟨hcopied', hmd5', hsha256'⟩ := readLoops_end_iff (byteCount 16) (byteCount 32)
    (hcopy _ hnil) (hdigest _ hnil) (emptyCopy 0) 0 0 0
  have hfailed : Read.failed EINTR ∈ digestReads [.failed EINTR] := by simp [digestReads]
  refine ⟨⟨fun h => ?_, fun h => (hmd5.mp h).2 _ hfailed, fun h => (hsha256.mp h).2 _ hfailed⟩,
    ?_, hmd5'.mpr ?_, hsha256'.mpr ?_⟩
  · exact (hcopied.mp h).2.1 EINTR (by simp [copyReads])
  · refine hcopied'.mpr ⟨by decide, by simp [copyReads], fun chunk hchunk => ?_⟩
    obtain rfl : chunk = splitChunk := by simpa [copyReads] using hchunk
    simp [Unfailing, splitChunk]
  · exact ⟨by decide, by simp [digestReads]⟩
  · exact ⟨by decide, by simp [digestReads]⟩

theorem copyLoop_stale {copy : Copy} (herrno : copy.errno = EINTR) (fuel : ℕ) :
    copyLoop fuel copy [] = none := by
  induction fuel generalizing copy with
  | zero => rfl
  | succ fuel ih =>
    rw [copyLoop, if_pos herrno]
    exact ih herrno

/-- When `errno` is `EINTR` from an earlier call, none of the loops ends on an empty file. -/
theorem readLoops_stale :
    (∀ fuel, copyLoop fuel (emptyCopy EINTR) [] = none) ∧
      (∀ fuel, digestLoop (byteCount 16) fuel EINTR 0 [] = none) ∧
        ∀ fuel, digestLoop (byteCount 32) fuel EINTR 0 [] = none := by
  have hreads : Read.Interruptible ([] : List (Read Chunk)) := by
    intro e he
    cases he
  exact ⟨copyLoop_stale rfl, digestLoop_interrupted hreads (Or.inl rfl),
    digestLoop_interrupted hreads (Or.inl rfl)⟩

/-! ## Exact copies -/

theorem flatMap_output_eq_iff {chunks : List CopyChunk} :
    chunks.flatMap (·.output) = chunks.flatMap (·.data) ↔ ∀ chunk ∈ chunks, chunk.Right := by
  induction chunks with
  | nil => simp
  | cons chunk chunks ih =>
    rw [List.flatMap_cons, List.flatMap_cons, List.forall_mem_cons, ← ih, ← chunk.output_eq_iff]
    constructor
    · intro heq
      exact List.append_inj heq chunk.length_output
    · rintro ⟨hhead, hrest⟩
      rw [hhead, hrest]

/-- The loop of a copy that returns 0. -/
theorem copyLoop_output {reads : List (Read CopyChunk)} (hreads : Read.Interruptible reads)
    {fuel : ℕ} {copy copy' : Copy} (h : copyLoop fuel copy reads = some (0, copy')) :
    copy'.output = copy.output ++ (Read.chunks reads).flatMap (·.output) := by
  obtain ⟨herrno, hdata, hwrites⟩ := data_of_copyLoop hreads h
  obtain ⟨last, hlast, -, houtput⟩ := copyLoop_of_data herrno hdata hwrites
  have hsame := @copyLoop_mono _ fuel _ _ _ hlast
  rw [Nat.add_comm, copyLoop_mono h] at hsame
  obtain rfl : copy' = last := (Prod.mk.inj (Option.some.inj hsame)).2
  exact houtput

/-- A copy that returns 0 writes over the start of the destination. -/
theorem copyfile_content {malloc stat : Bool} {openedIn openedOut : Open}
    {reads : List (Read CopyChunk)} {buf : Buffer} {dest content : Option (List UInt8)}
    {errno fuel : ℕ} (hreads : Read.Interruptible reads)
    (hret : copyfile malloc openedIn openedOut stat reads buf dest errno fuel =
      some (0, content)) :
    content = some ((Read.chunks reads).flatMap (·.output) ++
      (dest.getD []).drop (source reads).length) := by
  have hone : ∀ c, some ((1 : Int), c) ≠ some (0, content) := by simp
  rw [copyfile] at hret
  by_cases hmalloc : (!malloc) = true
  · rw [if_pos hmalloc] at hret
    exact absurd hret (hone _)
  rw [if_neg hmalloc] at hret
  by_cases hopen : (openedIn.failure.isSome || openedOut.failure.isSome) = true
  · rw [if_pos hopen] at hret
    exact absurd hret (hone _)
  rw [if_neg hopen] at hret
  by_cases hstat : (!stat) = true
  · rw [if_pos hstat] at hret
    exact absurd hret (hone _)
  rw [if_neg hstat] at hret
  have hout : ¬ openedOut.failure.isSome = true := fun hout => hopen (by rw [hout, Bool.or_true])
  rw [if_neg hout] at hret
  obtain ⟨⟨ret, copy⟩, hloop, heq⟩ := Option.map_eq_some_iff.mp hret
  obtain ⟨rfl, rfl⟩ := Prod.mk.inj heq
  have houtput : copy.output = (Read.chunks reads).flatMap (·.output) :=
    copyLoop_output hreads hloop
  have hlength : copy.output.length = (source reads).length := by
    rw [houtput, length_flatMap_output, source]
  show some (copy.output ++ (dest.getD []).drop copy.output.length) = _
  rw [hlength, houtput]

/-- **A copy is exact** if and only if the destination was not longer and every write is given the
right bytes.  What is written has as many bytes as what was read, so a write of other bytes cannot
be made good by the ones after it. -/
theorem copyfile_exact_iff {malloc stat : Bool} {openedIn openedOut : Open}
    {reads : List (Read CopyChunk)} {buf : Buffer} {dest content : Option (List UInt8)}
    {errno fuel : ℕ} (hreads : Read.Interruptible reads)
    (hret : copyfile malloc openedIn openedOut stat reads buf dest errno fuel =
      some (0, content)) :
    content = some (source reads) ↔
      (dest.getD []).length ≤ (source reads).length ∧
        ∀ chunk, Read.data chunk ∈ reads → chunk.Right := by
  have hlength : ((Read.chunks reads).flatMap (·.output)).length = (source reads).length :=
    length_flatMap_output _
  have hright : (Read.chunks reads).flatMap (·.output) = source reads ↔
      ∀ chunk, Read.data chunk ∈ reads → chunk.Right := by
    rw [source, flatMap_output_eq_iff]
    simp only [Read.mem_chunks]
  rw [copyfile_content hreads hret, Option.some_inj, ← hright, ← List.drop_eq_nil_iff]
  constructor
  · intro heq
    have hdrop : (dest.getD []).drop (source reads).length = [] := by
      have htotal := congrArg List.length heq
      rw [List.length_append, hlength] at htotal
      exact List.length_eq_zero_iff.mp (by omega)
    rw [hdrop, List.append_nil] at heq
    exact ⟨hdrop, heq⟩
  · rintro ⟨hdrop, heq⟩
    rw [hdrop, List.append_nil, heq]

/-- A write that was given one byte of three, and an old destination of two bytes. -/
theorem copyfile_exact_iff_split :
    Read.Interruptible [Read.data splitChunk] ∧
      copyfile true ⟨0, none⟩ ⟨0, none⟩ true [.data splitChunk] (fun _ => 0) (some [9, 9]) 0 2 =
        some (0, some [1, 2, 3]) ∧
      (some [1, 2, 3] = some (source [.data splitChunk]) ↔
        ((some [9, 9] : Option (List UInt8)).getD []).length ≤
            (source [.data splitChunk]).length ∧
          ∀ chunk, Read.data chunk ∈ [Read.data splitChunk] → chunk.Right) := by
  have hreads : Read.Interruptible [Read.data splitChunk] := by
    intro e he
    simp at he
  have hret : copyfile true ⟨0, none⟩ ⟨0, none⟩ true [.data splitChunk] (fun _ => 0) (some [9, 9])
      0 2 = some (0, some [1, 2, 3]) := by decide +kernel
  exact ⟨hreads, hret, copyfile_exact_iff hreads hret⟩

/-- Three bytes that are read at once and written one by one. -/
def byteWrites : CopyChunk where
  data := [1, 2, 3]
  data_ne := by decide
  length_le := by decide
  writes := [.wrote 1, .wrote 1]
  short := by decide

/-- The third write starts at the second byte again. -/
theorem copyfile_byteWrites :
    copyfile true ⟨0, none⟩ ⟨0, none⟩ true [.data byteWrites] (fun _ => 0) none 0 2 =
        some (0, some [1, 2, 2]) ∧
      source [.data byteWrites] = [1, 2, 3] := by
  decide +kernel

end Alpm.FileLoops
