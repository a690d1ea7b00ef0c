import Mathlib

/-!
# Reading a file in a loop

`md5_file` and `sha256_file` of `util.c`.  The loops go on while a read returns something or `errno`
is `EINTR`, so that an interrupted call is made again.

As a call that succeeds leaves `errno` alone, one interruption, also one from before the loop, is
enough for the end of the file not to end the loop: the read that returns `0` is taken for an
interrupted one as well, and so are all that follow it.  `digestLoop_ends_iff` says that this is the
only way not to end.  The loop ends at the end of the file, having taken in all that was read, if
and only if no call was interrupted.

What the calls return is given as a list, after which `read` returns `0`; the loop takes the number
of calls that it may make, and ending is that some number is enough.
-/

namespace Alpm.FileLoops

/-- The value of `errno` after an interrupted call. -/
def EINTR : ℕ := 4

/-- `ALPM_BUFFER_SIZE`. -/
def bufferSize : ℕ := 8192

/-- What one call of `read` stores in the buffer. -/
structure Chunk where
  data : List UInt8
  data_ne : data ≠ []
  length_le : data.length ≤ bufferSize

/-- What a call of `read` returns before the end of the file is reached; from then on it returns
`0`. -/
inductive Read (χ : Type) where
  | data (chunk : χ)
  | failed (errno : ℕ)

/-- A read that fails was interrupted. -/
def Read.Interruptible {χ : Type} (reads : List (Read χ)) : Prop :=
  ∀ errno, Read.failed errno ∈ reads → errno = EINTR

/-- What the reads return. -/
def Read.chunks {χ : Type} : List (Read χ) → List χ
  | [] => []
  | .data chunk :: reads => chunk :: chunks reads
  | .failed _ :: reads => chunks reads

theorem Read.map_chunks {χ : Type} {reads : List (Read χ)} (h : ∀ e, Read.failed e ∉ reads) :
    (Read.chunks reads).map Read.data = reads := by
  induction reads with
  | nil => rfl
  | cons r reads ih =>
    cases r with
    | failed e => exact absurd (List.mem_cons_self ..) (h e)
    | data chunk =>
      have hrest : ∀ e, Read.failed e ∉ reads := fun e he => h e (List.mem_cons_of_mem _ he)
      rw [Read.chunks, List.map_cons, ih hrest]

/-- What a call of `open` in the macro `OPEN` comes to: how often it is interrupted, and the
`errno` of the call that is not if it fails. -/
structure Open where
  interrupted : ℕ
  failure : Option ℕ

/-- `errno` after `OPEN`. -/
def Open.errno (o : Open) (errno : ℕ) : ℕ :=
  o.failure.getD (if o.interrupted = 0 then errno else EINTR)

/-! ## Digests -/

/-- A message digest, as the library that computes it has it. -/
structure Digest (ctx out : Type) where
  init : ctx
  update : ctx → List UInt8 → ctx
  final : ctx → out

section

variable {ctx out : Type} (digest : Digest ctx out)

/-- The loop: the last return value of `read`, and the context.  What a read returns is taken in by
the digest before the next one. -/
def digestLoop : ℕ → ℕ → ctx → List (Read Chunk) → Option (Int × ctx)
  | 0, _, _, _ => none
  | fuel + 1, errno, c, reads =>
    match reads with
    | .data chunk :: reads => digestLoop fuel errno (digest.update c chunk.data) reads
    | .failed errno :: reads =>
      if errno = EINTR then digestLoop fuel errno c reads else some (-1, c)
    -- at the end of the file nothing is read, and the context is updated with no bytes
    | [] => if errno = EINTR then digestLoop fuel errno (digest.update c []) [] else some (0, c)

/-- A digest of a file: the return value and, when it is `0`, the output. -/
def digestFile (malloc : Bool) (opened : Open) (reads : List (Read Chunk)) (errno fuel : ℕ) :
    Option (Int × Option out) :=
  if !malloc then some (1, none)
  else if opened.failure.isSome then some (1, none)
  else
    (digestLoop digest fuel (opened.errno errno) digest.init reads).map fun (n, c) =>
      if n < 0 then (2, none) else (0, some (digest.final c))

end

/-- `md5_file`, with the digest of the library. -/
def md5File {ctx : Type} (md5 : Digest ctx (Vector UInt8 16)) :=
  digestFile md5

/-- `sha256_file`, with the digest of the library. -/
def sha256File {ctx : Type} (sha256 : Digest ctx (Vector UInt8 32)) :=
  digestFile sha256

section

variable {ctx out : Type} {digest : Digest ctx out} {reads : List (Read Chunk)} {c : ctx}

/-- Once a call was interrupted the end of the file does not end the loop. -/
theorem digestLoop_interrupted (hreads : Read.Interruptible reads) {errno : ℕ}
    (h : errno = EINTR ∨ ∃ e, Read.failed e ∈ reads) (fuel : ℕ) :
    digestLoop digest fuel errno c reads = none := by
  induction fuel generalizing errno c reads with
  | zero => rfl
  | succ fuel ih =>
    match reads with
    | [] =>
      have herrno : errno = EINTR := by simpa using h
      rw [digestLoop, if_pos herrno]
      exact ih hreads (Or.inl herrno)
    | .data chunk :: reads =>
      refine ih (fun e he => hreads e (List.mem_cons_of_mem _ he)) (h.imp_right ?_)
      rintro ⟨e, he⟩
      exact ⟨e, (List.mem_cons.mp he).resolve_left (by simp)⟩
    | .failed e :: reads =>
      have he : e = EINTR := hreads e (List.mem_cons_self ..)
      rw [digestLoop, if_pos he]
      exact ih (fun e he => hreads e (List.mem_cons_of_mem _ he)) (Or.inl he)

theorem digestLoop_data {errno : ℕ} (herrno : errno ≠ EINTR) (chunks : List Chunk) :
    digestLoop digest (chunks.length + 1) errno c (chunks.map Read.data) =
      some (0, chunks.foldl (fun c chunk => digest.update c chunk.data) c) := by
  induction chunks generalizing c with
  | nil => exact if_neg herrno
  | cons chunk chunks ih => exact ih

/-- The loop ends at the end of the file, having taken in all that was read, if and only if no
call was interrupted, before it or in it. -/
theorem digestLoop_ends_iff (hreads : Read.Interruptible reads) (errno : ℕ) :
    (∃ fuel, digestLoop digest fuel errno c reads =
        some (0, (Read.chunks reads).foldl (fun c chunk => digest.update c chunk.data) c)) ↔
      errno ≠ EINTR ∧ ∀ e, Read.failed e ∉ reads := by
  constructor
  · rintro ⟨fuel, hends⟩
    by_contra hnot
    have hinterrupted : errno = EINTR ∨ ∃ e, Read.failed e ∈ reads := by
      by_contra h
      push Not at h
      exact hnot h
    rw [digestLoop_interrupted hreads hinterrupted] at hends
    cases hends
  · rintro ⟨herrno, hdata⟩
    have hloop := @digestLoop_data _ _ digest c _ herrno (Read.chunks reads)
    rw [Read.map_chunks hdata] at hloop
    exact ⟨_, hloop⟩

end

end Alpm.FileLoops
