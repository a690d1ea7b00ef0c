import Alpm.Deps.Depstring
import Alpm.General.Framing

/-!
# Input and output of a child process

`_alpm_run_chroot` polls two pipes.  It reads what the child writes and passes it on line by line,
and it writes to the child what a callback provides.

## 1.  Output

What the child writes is cut into lines, and a line that fills the buffer is cut there
(`General.Framing`).  When the pipe is closed the function that reads passes on what is left in the
buffer with a newline added, and leaves the buffer as it is; the parent then passes it on once more.
So the output is delivered exactly once if and only if nothing is left, that is if what follows the
last newline fills the buffer a whole number of times (`runChroot_delivers_iff`).  The condition is
on the output alone: how it comes in reads makes no difference.

A pipe that is closed by a fault reported by `poll` is not flushed by the reader, and has everything
delivered once (`runChroot_delivers_of_fault`).

## 2.  Input

A buffer is filled by the callback when it is empty, and what `send` takes is removed from its
front.  The bytes that were sent, those in the buffer and those that the callback still provides are
in every state the stream (`ToChild.Writes`); so what the callback provides is written in order, and
all of it before the end of input is reported.  That the end is reached takes a child that reads
(`pollLoop_eof`).
-/

namespace Alpm

/-! ## The pipes -/

/-- Whether a pipe is polled, and why not: `_alpm_chroot_write_to_child` and
`_alpm_chroot_read_from_child` return `-1` at the end of the data and after an error, and `poll`
reports a fault. -/
inductive PipeState
  | polled
  | eof
  | error
  | fault
  deriving DecidableEq, Repr

/-- What a call of `send` does: it sends at most `nwrite` bytes, or fails. -/
inductive Send
  | sent (nwrite : ℕ)
  | retry
  | error
  deriving DecidableEq, Repr

/-- The size that `_alpm_chroot_write_to_child` offers to its callback, and what `send` does. -/
structure WriteCall where
  bufLimit : ℕ
  send : Send
  deriving DecidableEq, Repr

/-- What a call of `read` does: it reads at most `n + 1` bytes of those that the child still
writes, and finds the end of file if there are none, or it fails. -/
inductive ReadCall
  | read (n : ℕ)
  | retry
  | error
  deriving DecidableEq, Repr

/-- `_alpm_cb_io`: what the callback puts into a buffer of a given size. -/
abbrev CbIo (σ : Type*) := ℕ → σ → CString × σ

/-- The pipe to the child: `buf` with what was not sent yet, the context of the callback, and
the bytes that were sent. -/
structure ToChild (σ : Type*) where
  state : PipeState := .polled
  buf : CString := []
  ctx : σ
  sent : CString := []

/-- The pipe from the child: what the child still writes, `buf`, and the lines that were passed
to `_alpm_chroot_process_output`. -/
structure FromChild where
  state : PipeState := .polled
  pending : CString
  buf : CString := []
  lines : List CString := []
  deriving DecidableEq, Repr

/-- The empty buffer is filled by the callback. -/
def ToChild.refill {σ : Type*} (outCb : CbIo σ) (bufLimit : ℕ) (p : ToChild σ) : ToChild σ :=
  if p.buf = [] then
    { p with
      buf := (outCb bufLimit p.ctx).1
      ctx := (outCb bufLimit p.ctx).2 }
  else p

/-- `_alpm_chroot_write_to_child`.  The callback is asked only when the buffer is empty, and if it
then gives nothing that is the end of the data. -/
def writeToChild {σ : Type*} (outCb : CbIo σ) (call : WriteCall) (p : ToChild σ) : ToChild σ :=
  let p := p.refill outCb call.bufLimit
  if p.buf = [] then { p with state := .eof }
  else match call.send with
    | .sent nwrite => { p with
        buf := p.buf.drop nwrite
        sent := p.sent ++ p.buf.take nwrite }
    | .retry => p
    | .error => { p with state := .error }

/-- The C string in a buffer. -/
def cString (buf : CString) : CString := buf.takeWhile (· ≠ '\x00')

/-- `_alpm_chroot_process_output`. -/
def processOutput (line : CString) (lines : List CString) : List CString :=
  lines ++ [cString line]

/-- The loop over the lines that are complete, from the newline at an offset on: what is left in
the buffer, and the lines. -/
def processLines (newline : ℕ) (buf : CString) (lines : List CString) : CString × List CString :=
  let linelen := newline + 1
  let rest := buf.drop linelen
  match h : memchr rest '\n' rest.length with
  | some newline =>
    have : rest.length < buf.length := by
      have hlt := (memchr_eq_some h).1
      simp only [rest, List.length_drop] at hlt ⊢
      omega
    processLines newline rest (processOutput (buf.take linelen) lines)
  | none => (rest, processOutput (buf.take linelen) lines)
  termination_by buf.length

/-- What is in the buffer without a newline, with one added. -/
def flushed (buf : CString) (lines : List CString) : List CString :=
  if buf = [] then lines else processOutput (buf ++ ['\n']) lines

/-- `_alpm_chroot_read_from_child`.  What is read goes behind what is left in the buffer, and the
lines that are complete are passed on.  A buffer that is full without a newline is passed on as a
line; at the end of the file and after an error what is left is passed on too, and stays in the
buffer. -/
def readFromChild (bufLimit : ℕ) (call : ReadCall) (p : FromChild) : FromChild :=
  match call with
  | .read n =>
    let space := bufLimit - p.buf.length - 2
    let data := p.pending.take (min (n + 1) space)
    let pending := p.pending.drop (min (n + 1) space)
    if data = [] then { p with
      state := .eof
      lines := flushed p.buf p.lines }
    else match memchr data '\n' data.length with
      | some newline =>
        let (buf, lines) := processLines (p.buf.length + newline) (p.buf ++ data) p.lines
        { p with pending, buf, lines }
      | none =>
        if data.length = space then { p with
          pending
          buf := []
          lines := processOutput (p.buf ++ data ++ ['\n']) p.lines }
        else { p with
          pending
          buf := p.buf ++ data }
  | .retry => p
  | .error => { p with
    state := .error
    lines := flushed p.buf p.lines }

/-! ## The poll loop -/

/-- `revents` of a pipe: nothing, what the pipe was polled for, or anything else. -/
inductive Revents (α : Type*)
  | none
  | ready (call : α)
  | fault
  deriving DecidableEq, Repr

/-- What one call of `poll` reports. -/
structure Poll where
  child2parent : Revents ReadCall
  parent2child : Revents WriteCall
  deriving DecidableEq, Repr

/-- What the parent does with the pipe from the child. -/
def pollRead (bufLimit : ℕ) (revents : Revents ReadCall) (p : FromChild) : FromChild :=
  match p.state, revents with
  | .polled, .ready call => readFromChild bufLimit call p
  | .polled, .fault => { p with state := .fault }
  | _, _ => p

/-- What the parent does with the pipe to the child. -/
def pollWrite {σ : Type*} (outCb : CbIo σ) (revents : Revents WriteCall) (p : ToChild σ) :
    ToChild σ :=
  match p.state, revents with
  | .polled, .ready call => writeToChild outCb call p
  | .polled, .fault => { p with state := .fault }
  | _, _ => p

/-- The two pipes of `_alpm_run_chroot`. -/
structure Pipes (σ : Type*) where
  child2parent : FromChild
  parent2child : ToChild σ

section

variable {σ : Type*} (bufLimit : ℕ) (outCb : CbIo σ)

/-- The loop over what `poll` reports.  It ends when both pipes are closed, or with the list when
`poll` fails. -/
def pollLoop : List Poll → Pipes σ → Pipes σ
  | [], p => p
  | poll :: polls, p =>
    if p.child2parent.state ≠ .polled ∧ p.parent2child.state ≠ .polled then p
    else pollLoop polls
      { child2parent := pollRead bufLimit poll.child2parent p.child2parent
        parent2child := pollWrite outCb poll.parent2child p.parent2child }

/-- The pipes to a child that writes `output`.  Without a callback (`stdin = false`) the pipe to
the child is closed from the start. -/
def openPipes (stdin : Bool) (ctx : σ) (output : CString) : Pipes σ where
  child2parent :=
    { pending := output }
  parent2child :=
    { state := if stdin then .polled else .eof
      ctx }

/-- The parent of `_alpm_run_chroot`: the loop, and what is left in the input buffer. -/
def runChroot (stdin : Bool) (ctx : σ) (output : CString) (polls : List Poll) : Pipes σ :=
  let p := pollLoop bufLimit outCb polls (openPipes stdin ctx output)
  { p with
    child2parent :=
      { p.child2parent with
        lines := flushed p.child2parent.buf p.child2parent.lines } }

end

/-! ## Lines of the child -/

section

open Framing

variable {bufLimit : ℕ}

theorem memchr_length_eq_some {s : CString} {c : Char} {i : ℕ}
    (h : memchr s c s.length = some i) : ∃ u v, s = u ++ c :: v ∧ c ∉ u ∧ u.length = i := by
  have hmem : c ∈ s := by
    by_contra hmem
    rw [memchr_eq_none fun hin => hmem (List.mem_of_mem_take hin)] at h
    exact Option.some_ne_none i h.symm
  obtain ⟨u, v, rfl, hu⟩ := List.eq_append_cons_of_mem hmem
  rw [memchr_append hu (by simp)] at h
  exact ⟨u, v, rfl, hu, Option.some.inj h⟩

theorem memchr_length_eq_none {s : CString} {c : Char} (h : memchr s c s.length = none) :
    c ∉ s := by
  intro hmem
  rw [memchr, List.take_length, List.findIdx?_eq_none_iff] at h
  simpa using h c hmem

theorem processOutput_eq {line : CString} (h : '\x00' ∉ line) (lines : List CString) :
    processOutput line lines = lines ++ [line] := by
  have hline : cString line = line :=
    List.takeWhile_eq_self_iff.mpr fun _ hc => decide_eq_true fun heq => h (heq ▸ hc)
  rw [processOutput, hline]

theorem flushed_eq {buf : CString} (h : '\x00' ∉ buf) (lines : List CString) :
    flushed buf lines = lines ++ if buf = [] then [] else [buf ++ ['\n']] := by
  unfold flushed
  split_ifs
  · exact (List.append_nil _).symm
  · exact processOutput_eq (by simpa using h) lines

theorem processLines_of_memchr {newline : ℕ} {line rest : CString} (lines : List CString)
    (hline : line.length = newline + 1) : processLines newline (line ++ rest) lines =
      match memchr rest '\n' rest.length with
      | some newline => processLines newline rest (processOutput line lines)
      | none => (rest, processOutput line lines) := by
  rw [processLines]
  simp only [List.drop_left' hline, List.take_left' hline]
  split <;> split <;> simp_all

/-- The loop cuts off every line, and leaves what follows the last newline. -/
theorem processLines_emitted {stream rest u v : CString} {lines : List CString}
    (h : Emitted '\n' (bufLimit - 2) stream rest lines) (hu : '\n' ∉ u)
    (hle : rest.length + (u ++ '\n' :: v).length ≤ bufLimit - 2)
    (hnul : '\x00' ∉ rest ++ (u ++ '\n' :: v)) :
    let result := processLines (rest.length + u.length) (rest ++ (u ++ '\n' :: v)) lines
    Emitted '\n' (bufLimit - 2) (stream ++ (u ++ '\n' :: v)) result.1 result.2 := by
  induction hv : v.length using Nat.strong_induction_on generalizing stream rest u v lines with
  | _ n ih =>
    have hbuf : rest ++ (u ++ '\n' :: v) = (rest ++ (u ++ ['\n'])) ++ v := by simp
    have hstream : stream ++ (u ++ '\n' :: v) = (stream ++ (u ++ ['\n'])) ++ v := by simp
    have hlinelen : (rest ++ (u ++ ['\n'])).length = rest.length + u.length + 1 := by
      simp [Nat.add_assoc]
    rw [List.length_append, List.length_cons] at hle
    rw [hbuf, List.mem_append, not_or] at hnul
    rw [hbuf, hstream, processLines_of_memchr lines hlinelen, processOutput_eq hnul.1]
    have hline := h.line hu (by omega)
    split
    next newline hnewline =>
      obtain ⟨u', v', rfl, hu', rfl⟩ := memchr_length_eq_some hnewline
      rw [List.length_append, List.length_cons] at hv hle
      have hnext := ih v'.length (by omega) hline hu'
        (by rw [List.length_nil, List.length_append, List.length_cons]; omega) hnul.2 rfl
      rwa [List.length_nil, Nat.zero_add, List.nil_append] at hnext
    next hnewline =>
      exact hline.keep (memchr_length_eq_none hnewline) (by rw [List.length_nil]; omega)

/-- The line that is passed on when the pipe is closed. -/
def leftover (buf : CString) : List CString :=
  if buf = [] then [] else [buf ++ ['\n']]

/-- What was read of the output of the child, and what was passed on.  At the end of the file and
after an error what was left in the buffer was passed on as well, and it is still there. -/
structure FromChild.Reads (bufLimit : ℕ) (output stream : CString) (p : FromChild) : Prop where
  append : stream ++ p.pending = output
  emitted : ∃ lines, Emitted '\n' (bufLimit - 2) stream p.buf lines ∧
    p.lines = match p.state with
      | .polled | .fault => lines
      | .eof | .error => lines ++ leftover p.buf
  eof : p.state = .eof → p.pending = []

variable {output stream : CString} {p : FromChild}

theorem FromChild.Reads.buf_nul (h : p.Reads bufLimit output stream) (hnul : '\x00' ∉ output) :
    '\x00' ∉ p.buf := by
  obtain ⟨lines, hemitted, -⟩ := h.emitted
  refine fun hmem => hnul ?_
  rw [← h.append]
  exact List.mem_append_left _ (hemitted.suffix.mem hmem)

/-- Bytes that were read into the buffer. -/
theorem FromChild.Reads.received {lines : List CString} (h : p.Reads bufLimit output stream)
    (hstate : p.state = .polled) {data pending : CString} (hdata : data ++ pending = p.pending)
    {buf : CString} (hemitted : Emitted '\n' (bufLimit - 2) (stream ++ data) buf lines) :
    Reads bufLimit output (stream ++ data)
      { p with
        pending
        buf
        lines } where
  append := by
    rw [List.append_assoc, hdata]
    exact h.append
  emitted := ⟨lines, hemitted, by simp only [hstate]⟩
  eof := fun heof => absurd (hstate.symm.trans heof) (by simp)

theorem FromChild.Reads.readFromChild (h : p.Reads bufLimit output stream)
    (hnul : '\x00' ∉ output) (hstate : p.state = .polled) (call : ReadCall) :
    ∃ stream', (readFromChild bufLimit call p).Reads bufLimit output stream' := by
  obtain ⟨lines, hemitted, hlines⟩ := h.emitted
  rw [hstate] at hlines
  have hbuf := h.buf_nul hnul
  have hflushed : flushed p.buf p.lines = lines ++ leftover p.buf := by
    rw [flushed_eq hbuf, hlines]
    rfl
  cases call with
  | retry => exact ⟨stream, h⟩
  | error => exact ⟨stream, h.append, ⟨lines, hemitted, hflushed⟩, by simp [Alpm.readFromChild]⟩
  | read n =>
    have hlt := hemitted.lt
    have hspace : bufLimit - p.buf.length - 2 = bufLimit - 2 - p.buf.length := by omega
    unfold Alpm.readFromChild
    simp only [hspace]
    set space := bufLimit - 2 - p.buf.length with hspace'
    have hdata := List.take_append_drop (min (n + 1) space) p.pending
    have hle : (p.pending.take (min (n + 1) space)).length ≤ space :=
      (List.length_take_le _ _).trans (min_le_right _ _)
    set data := p.pending.take (min (n + 1) space) with hdata'
    have hdataNul : '\x00' ∉ p.buf ++ data := by
      refine List.not_mem_append hbuf fun hmem => hnul ?_
      rw [← h.append]
      exact List.mem_append_right _ (List.mem_of_mem_take hmem)
    by_cases hnil : data = []
    · rw [if_pos hnil]
      refine ⟨stream, h.append, ⟨lines, hemitted, hflushed⟩, fun _ => ?_⟩
      exact (List.take_eq_nil_iff.mp hnil).resolve_left (by omega)
    rw [if_neg hnil, hlines]
    refine ⟨stream ++ data, ?_⟩
    cases hnewline : memchr data '\n' data.length with
    | some newline =>
      obtain ⟨u, v, huv, hu, rfl⟩ := memchr_length_eq_some hnewline
      rw [huv] at hle hdataNul
      have hlines' := processLines_emitted hemitted hu (by omega) hdataNul
      rw [← huv] at hlines'
      exact h.received hstate hdata hlines'
    | none =>
      have hmem := memchr_length_eq_none hnewline
      by_cases hfull : data.length = space
      · simp only [hfull, if_true]
        rw [processOutput_eq (by simpa using hdataNul)]
        exact h.received hstate hdata (hemitted.full hmem (by omega))
      · simp only [hfull, if_false]
        exact h.received hstate hdata (hemitted.keep hmem (by omega))

theorem FromChild.Reads.pollRead (h : p.Reads bufLimit output stream) (hnul : '\x00' ∉ output)
    (revents : Revents ReadCall) :
    ∃ stream', (pollRead bufLimit revents p).Reads bufLimit output stream' := by
  unfold Alpm.pollRead
  split
  next call hstate => exact h.readFromChild hnul hstate call
  next hstate =>
    obtain ⟨lines, hemitted, hlines⟩ := h.emitted
    rw [hstate] at hlines
    exact ⟨stream, h.append, ⟨lines, hemitted, hlines⟩, by simp⟩
  next => exact ⟨stream, h⟩

end

/-! ## Runs of the poll loop -/

section

variable {σ : Type*} {bufLimit : ℕ} {outCb : CbIo σ}

/-- What every round preserves holds after the loop. -/
theorem pollLoop_induction {motive : Pipes σ → Prop} (polls : List Poll)
    (hstep : ∀ poll ∈ polls, ∀ p, motive p → motive
      { child2parent := pollRead bufLimit poll.child2parent p.child2parent
        parent2child := pollWrite outCb poll.parent2child p.parent2child })
    {p : Pipes σ} (h : motive p) : motive (pollLoop bufLimit outCb polls p) := by
  induction polls generalizing p with
  | nil => exact h
  | cons poll polls ih =>
    rw [pollLoop]
    split
    · exact h
    · exact ih (fun poll hpoll => hstep poll (List.mem_cons_of_mem _ hpoll))
        (hstep poll (List.mem_cons_self ..) p h)

open Framing

variable (outCb) {output : CString} (stdin : Bool) (ctx : σ) (polls : List Poll)

theorem pollLoop_reads (hlimit : 3 ≤ bufLimit) (hnul : '\x00' ∉ output) :
    ∃ stream, (pollLoop bufLimit outCb polls
      (openPipes stdin ctx output)).child2parent.Reads bufLimit output stream := by
  refine pollLoop_induction (motive := fun p => ∃ stream,
    p.child2parent.Reads bufLimit output stream) polls ?_ ⟨[], ?_⟩
  · rintro poll - p ⟨stream, h⟩
    exact h.pollRead hnul poll.child2parent
  · exact ⟨rfl, ⟨[], Emitted.nil (by omega), rfl⟩, by simp [openPipes]⟩

/-- **The output of a child is delivered exactly once** if what follows its last newline fills the
buffer a whole number of times.  Otherwise the unterminated last line is passed on at the end of the
file, and again after the loop: the reader leaves it in the buffer, and a stream that is passed on
with one line too many is not delivered. -/
theorem runChroot_delivers_iff (hlimit : 3 ≤ bufLimit) (hnul : '\x00' ∉ output)
    (heof : (runChroot bufLimit outCb stdin ctx output polls).child2parent.state = .eof) :
    Delivered '\n' (bufLimit - 2) output
        (runChroot bufLimit outCb stdin ctx output polls).child2parent.lines ↔
      tailLength '\n' output % (bufLimit - 2) = 0 := by
  obtain ⟨stream, h⟩ := pollLoop_reads outCb stdin ctx polls hlimit hnul
  change (pollLoop bufLimit outCb polls (openPipes stdin ctx output)).child2parent.state = .eof
    at heof
  unfold runChroot
  dsimp only
  generalize (pollLoop bufLimit outCb polls (openPipes stdin ctx output)).child2parent = p at *
  obtain ⟨lines, hemitted, hlines⟩ := h.emitted
  obtain rfl : stream = output := by
    rw [← h.append, h.eof heof, List.append_nil]
  rw [heof] at hlines
  have hflushed : flushed p.buf p.lines =
      lines ++ if p.buf = [] then [] else [p.buf ++ ['\n'], p.buf ++ ['\n']] := by
    rw [flushed_eq (h.buf_nul hnul), hlines, List.append_assoc, leftover]
    congr 1
    split_ifs <;> rfl
  rw [hflushed]
  exact hemitted.delivered_twice_iff

theorem runChroot_delivers_iff_two_lines :
    let p := (runChroot 2048 (fun _ ctx => ([], ctx)) false () (str "a\nb\n")
      [⟨.ready (.read 0), .none⟩, ⟨.ready .retry, .none⟩, ⟨.ready (.read 7), .none⟩,
        ⟨.ready (.read 7), .none⟩]).child2parent
    3 ≤ 2048 ∧ '\x00' ∉ str "a\nb\n" ∧ p.state = .eof ∧
      Delivered '\n' 2046 (str "a\nb\n") p.lines := by
  intro p
  have hnul : '\x00' ∉ str "a\nb\n" := by decide
  have heof : p.state = .eof := by decide +kernel
  exact ⟨by omega, hnul, heof,
    (runChroot_delivers_iff _ false () _ (by omega) hnul heof).mpr (by decide)⟩

theorem runChroot_delivers_x_twice :
    let p := (runChroot 2048 (fun _ ctx => ([], ctx)) false () (str "x")
      [⟨.ready (.read 0), .none⟩, ⟨.ready (.read 0), .none⟩]).child2parent
    p.state = .eof ∧ p.lines = [str "x\n", str "x\n"] ∧
      ¬ Delivered '\n' 2046 (str "x") p.lines := by
  intro p
  have hlines : p.lines = [str "x\n", str "x\n"] := by decide +kernel
  refine ⟨by decide +kernel, hlines, ?_⟩
  rintro ⟨pieces, hcut, hmap⟩
  rw [hlines] at hmap
  obtain ⟨x, pieces, rfl, -, hmap⟩ := List.map_eq_cons_iff.mp hmap.symm
  obtain ⟨y, pieces, rfl, -, -⟩ := List.map_eq_cons_iff.mp hmap
  have hx := List.length_pos_of_ne_nil fun hx : x = [] => hcut.ne_nil (by simp [hx])
  have hy := List.length_pos_of_ne_nil fun hy : y = [] => hcut.ne_nil (by simp [hy])
  have hlength := congrArg List.length hcut.flatten
  simp only [str, List.flatten_cons, List.length_append] at hlength
  have hone : "x".toList.length = 1 := rfl
  omega

/-- A pipe that is closed by a fault has everything delivered that was read from it. -/
theorem runChroot_delivers_of_fault (hlimit : 3 ≤ bufLimit) (hnul : '\x00' ∉ output)
    (hfault : (runChroot bufLimit outCb stdin ctx output polls).child2parent.state = .fault) :
    ∃ stream,
      stream ++ (runChroot bufLimit outCb stdin ctx output polls).child2parent.pending = output ∧
      Delivered '\n' (bufLimit - 2) stream
        (runChroot bufLimit outCb stdin ctx output polls).child2parent.lines := by
  obtain ⟨stream, h⟩ := pollLoop_reads outCb stdin ctx polls hlimit hnul
  change (pollLoop bufLimit outCb polls (openPipes stdin ctx output)).child2parent.state = .fault
    at hfault
  obtain ⟨lines, hemitted, hlines⟩ := h.emitted
  rw [hfault] at hlines
  refine ⟨stream, h.append, ?_⟩
  show Delivered _ _ _ (flushed _ _)
  rw [flushed_eq (h.buf_nul hnul), hlines]
  exact hemitted.delivered_once

end

/-! ## Input of the child -/

section

variable {σ : Type*} {outCb : CbIo σ} {rest : σ → CString} {stream : CString} {p : ToChild σ}

/-- The callback provides the bytes of `rest` in order, and nothing only at their end.  How many it
gives in one call is left open, but as long as something is left it is at least one. -/
structure Provides (outCb : CbIo σ) (rest : σ → CString) : Prop where
  append : ∀ limit ctx, (outCb limit ctx).1 ++ rest (outCb limit ctx).2 = rest ctx
  nil : ∀ limit ctx, 0 < limit → (outCb limit ctx).1 = [] → rest ctx = []

/-- What was sent, what is in the buffer and what the callback still provides are the stream.  This
is the invariant of the writing pipe; nothing is lost or sent twice as long as it holds. -/
structure ToChild.Writes (rest : σ → CString) (stream : CString) (p : ToChild σ) : Prop where
  append : p.sent ++ (p.buf ++ rest p.ctx) = stream
  eof : p.state = .eof → p.sent = stream

/-- The size that is offered to the callback is positive. -/
def Offers (revents : Revents WriteCall) : Prop :=
  ∀ call, revents = .ready call → 0 < call.bufLimit

/-- The child takes at least one byte. -/
def Takes (revents : Revents WriteCall) : Prop :=
  ∃ bufLimit nwrite, revents = .ready ⟨bufLimit, .sent (nwrite + 1)⟩

theorem ToChild.refill_eq (hcb : Provides outCb rest) (bufLimit : ℕ) (p : ToChild σ) :
    (p.refill outCb bufLimit).buf ++ rest (p.refill outCb bufLimit).ctx = p.buf ++ rest p.ctx := by
  unfold refill
  split_ifs with hbuf
  · rw [hbuf]
    exact hcb.append bufLimit p.ctx
  · rfl

@[simp] theorem ToChild.refill_sent (bufLimit : ℕ) (p : ToChild σ) :
    (p.refill outCb bufLimit).sent = p.sent := by
  unfold refill
  split_ifs <;> rfl

@[simp] theorem ToChild.refill_state (bufLimit : ℕ) (p : ToChild σ) :
    (p.refill outCb bufLimit).state = p.state := by
  unfold refill
  split_ifs <;> rfl

/-- The buffer is empty only at the end of what the callback provides. -/
theorem ToChild.refill_nil (hcb : Provides outCb rest) {bufLimit : ℕ} (hlimit : 0 < bufLimit)
    (h : (p.refill outCb bufLimit).buf = []) : p.buf ++ rest p.ctx = [] := by
  unfold refill at h
  split_ifs at h with hbuf
  · rw [hbuf, hcb.nil bufLimit p.ctx hlimit h]
    rfl
  · exact absurd h hbuf

theorem ToChild.Writes.writeToChild (hcb : Provides outCb rest) (h : p.Writes rest stream)
    (hstate : p.state = .polled) {call : WriteCall} (hlimit : 0 < call.bufLimit) :
    (writeToChild outCb call p).Writes rest stream := by
  have happend := h.append
  rw [← refill_eq hcb call.bufLimit] at happend
  unfold Alpm.writeToChild
  by_cases hnil : (p.refill outCb call.bufLimit).buf = []
  · simp only [hnil, if_true]
    rw [hnil] at happend
    refine ⟨by simpa [hnil] using happend, fun _ => ?_⟩
    have hempty := refill_nil hcb hlimit hnil
    rw [← h.append, hempty, List.append_nil]
    exact refill_sent ..
  simp only [hnil, if_false]
  cases call.send with
  | sent nwrite =>
    refine ⟨?_, fun heof => ?_⟩
    · rw [← happend, refill_sent, List.append_assoc, ← List.append_assoc (List.take ..),
        List.take_append_drop]
    · rw [refill_state, hstate] at heof
      cases heof
  | retry =>
    refine ⟨by simpa using happend, fun heof => ?_⟩
    rw [refill_state, hstate] at heof
    cases heof
  | error => exact ⟨by simpa using happend, by simp⟩

theorem ToChild.Writes.pollWrite (hcb : Provides outCb rest) (h : p.Writes rest stream)
    {revents : Revents WriteCall} (hoffers : Offers revents) :
    (pollWrite outCb revents p).Writes rest stream := by
  unfold Alpm.pollWrite
  split
  next call hstate => exact h.writeToChild hcb hstate (hoffers call rfl)
  next => exact ⟨h.append, by simp⟩
  next => exact h

/-- A child that takes a byte leaves less to send, or there was nothing to send. -/
theorem ToChild.pollWrite_takes (hcb : Provides outCb rest) (hstate : p.state = .polled)
    {revents : Revents WriteCall} (htakes : Takes revents) :
    let p' := pollWrite outCb revents p
    p'.state = .eof ∨ p'.state = .polled ∧
      (p'.buf ++ rest p'.ctx).length < (p.buf ++ rest p.ctx).length := by
  obtain ⟨bufLimit, nwrite, rfl⟩ := htakes
  simp only [pollWrite, hstate, writeToChild]
  by_cases hnil : (p.refill outCb bufLimit).buf = []
  · rw [if_pos hnil]
    exact Or.inl rfl
  · rw [if_neg hnil]
    refine Or.inr ⟨(refill_state ..).trans hstate, ?_⟩
    have hpos := List.length_pos_of_ne_nil hnil
    rw [← refill_eq hcb bufLimit p]
    simp only [List.length_append, List.length_drop]
    omega

/-- The stream that the callback provides is written in order, and all of it before its end. -/
theorem pollLoop_writes (hcb : Provides outCb rest) {bufLimit : ℕ} {polls : List Poll}
    (hoffers : ∀ poll ∈ polls, Offers poll.parent2child) {pipes : Pipes σ}
    (h : pipes.parent2child.Writes rest stream) :
    (pollLoop bufLimit outCb polls pipes).parent2child.Writes rest stream :=
  pollLoop_induction (motive := fun p => p.parent2child.Writes rest stream) polls
    (fun poll hpoll _ h => h.pollWrite hcb (hoffers poll hpoll)) h

theorem pollWrite_of_state_ne (h : p.state ≠ .polled) (revents : Revents WriteCall) :
    pollWrite outCb revents p = p := by
  unfold pollWrite
  split
  next hstate => exact absurd hstate h
  next hstate => exact absurd hstate h
  next => rfl

theorem pollLoop_of_state_ne {bufLimit : ℕ} {polls : List Poll} {pipes : Pipes σ}
    (h : pipes.parent2child.state ≠ .polled) :
    (pollLoop bufLimit outCb polls pipes).parent2child = pipes.parent2child := by
  refine pollLoop_induction (motive := fun p => p.parent2child = pipes.parent2child) polls
    (fun poll _ p hp => ?_) rfl
  show pollWrite outCb poll.parent2child p.parent2child = _
  rw [hp, pollWrite_of_state_ne h]

/-- A child that takes a byte whenever it is polled takes all of them. -/
theorem pollLoop_eof (hcb : Provides outCb rest) {bufLimit : ℕ} {polls : List Poll}
    (htakes : ∀ poll ∈ polls, Takes poll.parent2child) {pipes : Pipes σ}
    (hstate : pipes.parent2child.state = .polled)
    (hlength : (pipes.parent2child.buf ++ rest pipes.parent2child.ctx).length < polls.length) :
    (pollLoop bufLimit outCb polls pipes).parent2child.state = .eof := by
  induction polls generalizing pipes with
  | nil => exact absurd hlength (Nat.not_lt_zero _)
  | cons poll polls ih =>
    rw [pollLoop, if_neg fun hclosed => hclosed.2 hstate]
    rcases ToChild.pollWrite_takes hcb hstate (htakes poll (List.mem_cons_self ..)) with
      heof | ⟨hstate', hlt⟩
    · rw [pollLoop_of_state_ne (by simp [heof])]
      exact heof
    · refine ih (fun poll hpoll => htakes poll (List.mem_cons_of_mem _ hpoll)) hstate' ?_
      rw [List.length_cons] at hlength
      dsimp only
      omega

end

end Alpm
