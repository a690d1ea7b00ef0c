import Mathlib.Data.List.DropRight
import Mathlib.Data.List.Infix
import Mathlib.Tactic.Ring

/-!
# Cutting a stream into lines

A stream is cut after each separator, and wherever a piece has reached a length limit.  Each piece
is passed on with a separator at its end, and one is added where the piece has none.  The stream
arrives in reads of any length, so a program that cuts it keeps the entries of the last piece
between two reads.

* `Delivered`: the pieces of the whole stream were passed on, each of them once.
* `Emitted`: the pieces of the front of a stream were passed on, and the rest was kept.

The first is the purpose, the second the invariant of the loop that reads.  `Cutting.keep`, `push`,
`line` and `full` are what can happen to the rest when more of the stream arrives, one lemma each,
and `cut_concat` is the end of the stream, where the rest is the last piece.

The last sections are about the end of the stream.  A program that passes on once what is left has
delivered the stream (`delivered_once`); one that does so twice has not, unless nothing is left, and
whether something is left can be told from the stream and the limit alone (`delivered_twice_iff`).
-/

namespace Alpm.Framing

variable {α : Type*} [DecidableEq α]

section

variable (sep : α) (limit : ℕ)

/-- A piece as it is passed on. -/
def terminate (piece : List α) : List α :=
  if piece.getLast? = some sep then piece else piece ++ [sep]

/-- A piece that need not be the last one. -/
def Complete (piece : List α) : Prop :=
  piece.getLast? = some sep ∨ piece.length = limit

/-- The pieces of a stream. -/
structure Cut (stream : List α) (pieces : List (List α)) : Prop where
  flatten : pieces.flatten = stream
  ne_nil : [] ∉ pieces
  inner : ∀ piece ∈ pieces, sep ∉ piece.dropLast
  complete : ∀ piece ∈ pieces.dropLast, Complete sep limit piece

/-- The lines are the pieces of the stream, each of them once, and each with a separator at its end.
Which pieces these are is told by the stream and the limit, so there is one list of lines that is
right. -/
def Delivered (stream : List α) (lines : List (List α)) : Prop :=
  ∃ pieces, Cut sep limit stream pieces ∧ lines = pieces.map (terminate sep)

/-- The number of entries after the last separator. -/
def tailLength (stream : List α) : ℕ :=
  (stream.rtakeWhile (· ≠ sep)).length

/-- The pieces at the front of a stream, and the rest, which the next entries may extend: it has no
separator and is shorter than the limit, so that it may become a piece in several ways. -/
structure Cutting (stream : List α) (pieces : List (List α)) (rest : List α) : Prop where
  flatten : pieces.flatten ++ rest = stream
  ne_nil : [] ∉ pieces
  inner : ∀ piece ∈ pieces, sep ∉ piece.dropLast
  complete : ∀ piece ∈ pieces, Complete sep limit piece
  length_le : ∀ piece ∈ pieces, piece.length ≤ limit
  not_mem : sep ∉ rest
  lt : rest.length < limit
  tail : tailLength sep stream % limit = rest.length

/-- The lines are the pieces at the front of a stream, and the rest is what is left.  This is what a
program that cuts a stream knows between two reads. -/
def Emitted (stream rest : List α) (lines : List (List α)) : Prop :=
  ∃ pieces, Cutting sep limit stream pieces rest ∧ lines = pieces.map (terminate sep)

end

variable {sep : α} {limit : ℕ} {stream : List α} {pieces : List (List α)} {rest : List α}

/-! ## Terminated pieces and tails -/

@[simp] theorem terminate_concat (line : List α) :
    terminate sep (line ++ [sep]) = line ++ [sep] := by
  simp [terminate]

theorem terminate_of_not_mem {piece : List α} (h : sep ∉ piece) :
    terminate sep piece = piece ++ [sep] :=
  if_neg fun hlast => h (List.mem_of_getLast? hlast)

theorem tailLength_append {data : List α} (h : sep ∉ data) :
    tailLength sep (stream ++ data) = tailLength sep stream + data.length := by
  have hall : ∀ a ∈ data.reverse, decide (a ≠ sep) = true := fun a ha =>
    decide_eq_true fun heq => h (heq ▸ List.mem_reverse.mp ha)
  simp only [tailLength, List.rtakeWhile, List.length_reverse, List.reverse_append]
  rw [List.takeWhile_append_of_pos hall, List.length_append, List.length_reverse, Nat.add_comm]

theorem tailLength_concat : tailLength sep (stream ++ [sep]) = 0 := by
  simp [tailLength, List.rtakeWhile]

theorem le_length_of_terminate {piece line : List α} (h : terminate sep piece = line ++ [sep]) :
    line.length ≤ piece.length := by
  have hlength := congrArg List.length h
  unfold terminate at hlength
  split at hlength <;> simp only [List.length_append, List.length_singleton] at hlength <;> omega

/-- A line that is shorter than the limit comes from a complete piece only with its own
separator. -/
theorem lt_length_of_terminate {piece line : List α} (h : terminate sep piece = line ++ [sep])
    (hcomplete : Complete sep limit piece) (hlt : line.length < limit) :
    line.length < piece.length := by
  rcases hcomplete with hlast | hlimit
  · rw [terminate, if_pos hlast] at h
    simp [h]
  · rwa [hlimit]

/-- The pieces of a cut are no longer than complete pieces with the same lines. -/
theorem length_flatten_le {pieces others : List (List α)}
    (hmap : pieces.map (terminate sep) = others.map (terminate sep))
    (hle : ∀ piece ∈ pieces, piece.length ≤ limit)
    (hcomplete : ∀ other ∈ others, Complete sep limit other) :
    pieces.flatten.length ≤ others.flatten.length := by
  induction pieces generalizing others with
  | nil => simp
  | cons piece pieces ih =>
    rcases others with _ | ⟨other, others⟩
    · simp at hmap
    rw [List.map_cons, List.map_cons] at hmap
    obtain ⟨hpiece, hpieces⟩ := List.cons.inj hmap
    have hhead : piece.length ≤ other.length := by
      rcases hcomplete other (List.mem_cons_self ..) with hother | hother
      · rw [terminate, terminate, if_pos hother] at hpiece
        rw [← hpiece]
        split
        · exact le_rfl
        · simp
      · rw [hother]
        exact hle piece (List.mem_cons_self ..)
    have htail := ih hpieces (fun p hp => hle p (List.mem_cons_of_mem _ hp))
      fun p hp => hcomplete p (List.mem_cons_of_mem _ hp)
    rw [List.flatten_cons, List.flatten_cons, List.length_append, List.length_append]
    omega

/-! ## Cutting step by step -/

namespace Cutting

theorem nil (h : 0 < limit) : Cutting sep limit [] [] [] where
  flatten := rfl
  ne_nil := List.not_mem_nil
  inner := by simp
  complete := by simp
  length_le := by simp
  not_mem := List.not_mem_nil
  lt := h
  tail := Nat.zero_mod _

/-- Entries that leave the rest short and without a separator. -/
theorem keep (h : Cutting sep limit stream pieces rest) {data : List α} (hdata : sep ∉ data)
    (hlt : rest.length + data.length < limit) :
    Cutting sep limit (stream ++ data) pieces (rest ++ data) :=
  { h with
    flatten := by rw [← List.append_assoc, h.flatten]
    not_mem := List.not_mem_append h.not_mem hdata
    lt := by rwa [List.length_append]
    tail := by
      rw [tailLength_append hdata, ← Nat.mod_add_mod, h.tail, List.length_append,
        Nat.mod_eq_of_lt hlt] }

/-- A piece is cut off the front, and nothing is left. -/
theorem push (h : Cutting sep limit stream pieces rest) {data : List α} (hpos : data ≠ [])
    (hinner : sep ∉ (rest ++ data).dropLast) (hcomplete : Complete sep limit (rest ++ data))
    (hle : rest.length + data.length ≤ limit)
    (htail : tailLength sep (stream ++ data) % limit = 0) :
    Cutting sep limit (stream ++ data) (pieces ++ [rest ++ data]) [] where
  flatten := by simp [← h.flatten]
  ne_nil := by simpa using ⟨h.ne_nil, fun _ => hpos⟩
  inner := by
    intro piece hpiece
    rcases List.mem_append.mp hpiece with hpiece | hpiece
    · exact h.inner piece hpiece
    · rwa [List.mem_singleton.mp hpiece]
  complete := by
    intro piece hpiece
    rcases List.mem_append.mp hpiece with hpiece | hpiece
    · exact h.complete piece hpiece
    · rwa [List.mem_singleton.mp hpiece]
  length_le := by
    intro piece hpiece
    rcases List.mem_append.mp hpiece with hpiece | hpiece
    · exact h.length_le piece hpiece
    · rwa [List.mem_singleton.mp hpiece, List.length_append]
  not_mem := List.not_mem_nil
  lt := Nat.zero_lt_of_lt h.lt
  tail := htail

/-- A separator ends a piece. -/
theorem line (h : Cutting sep limit stream pieces rest) {data : List α} (hdata : sep ∉ data)
    (hle : rest.length + data.length < limit) :
    Cutting sep limit (stream ++ (data ++ [sep])) (pieces ++ [rest ++ (data ++ [sep])]) [] := by
  refine h.push (by simp) ?_ (Or.inl (by simp)) ?_ ?_
  · rw [← List.append_assoc, List.dropLast_concat]
    exact List.not_mem_append h.not_mem hdata
  · rwa [List.length_append, List.length_singleton, ← Nat.add_assoc, Nat.add_one_le_iff]
  · rw [← List.append_assoc, tailLength_concat, Nat.zero_mod]

/-- A piece without a separator is cut off at the limit. -/
theorem full (h : Cutting sep limit stream pieces rest) {data : List α} (hdata : sep ∉ data)
    (heq : rest.length + data.length = limit) :
    Cutting sep limit (stream ++ data) (pieces ++ [rest ++ data]) [] := by
  have hlt := h.lt
  refine h.push ?_ ?_ (Or.inr (by rwa [List.length_append])) heq.le ?_
  · rintro rfl
    rw [List.length_nil] at heq
    omega
  · exact fun hmem => List.not_mem_append h.not_mem hdata (List.mem_of_mem_dropLast hmem)
  · calc tailLength sep (stream ++ data) % limit
        = (tailLength sep stream % limit + data.length) % limit := by
          rw [tailLength_append hdata, Nat.mod_add_mod]
      _ = 0 := by rw [h.tail, heq, Nat.mod_self]

/-! ## The end of the stream -/

theorem cut (h : Cutting sep limit stream pieces []) : Cut sep limit stream pieces where
  flatten := by rw [← h.flatten, List.append_nil]
  ne_nil := h.ne_nil
  inner := h.inner
  complete := fun piece hpiece => h.complete piece (List.mem_of_mem_dropLast hpiece)

/-- What is left at the end is the last piece. -/
theorem cut_concat (h : Cutting sep limit stream pieces rest) (hrest : rest ≠ []) :
    Cut sep limit stream (pieces ++ [rest]) where
  flatten := by rw [← h.flatten, List.flatten_append, List.flatten_singleton]
  ne_nil := by simpa using ⟨h.ne_nil, hrest⟩
  inner := by
    intro piece hpiece
    rcases List.mem_append.mp hpiece with hpiece | hpiece
    · exact h.inner piece hpiece
    · rw [List.mem_singleton.mp hpiece]
      exact fun hmem => h.not_mem (List.mem_of_mem_dropLast hmem)
  complete := by
    rw [List.dropLast_concat]
    exact h.complete

/-- The last piece is not delivered when it is passed on twice. -/
theorem not_delivered_twice (h : Cutting sep limit stream pieces rest) :
    ¬ Delivered sep limit stream
      (pieces.map (terminate sep) ++ [rest ++ [sep], rest ++ [sep]]) := by
  rintro ⟨cut, hcut, hlines⟩
  obtain ⟨others, last, rfl, hothers, hlast⟩ := List.map_eq_append_iff.mp hlines.symm
  obtain ⟨x, last, rfl, hx, hlast⟩ := List.map_eq_cons_iff.mp hlast
  obtain ⟨y, last, rfl, hy, hlast⟩ := List.map_eq_cons_iff.mp hlast
  obtain rfl := List.map_eq_nil_iff.mp hlast
  have hdrop : (others ++ [x, y]).dropLast = others ++ [x] := by
    rw [List.dropLast_append_of_ne_nil (by simp)]
    rfl
  have hcomplete := hcut.complete
  rw [hdrop] at hcomplete
  have hothersLe := length_flatten_le hothers.symm h.length_le fun other hother =>
    hcomplete other (List.mem_append_left _ hother)
  have hxLt := lt_length_of_terminate hx (hcomplete x (by simp)) h.lt
  have hyLe := le_length_of_terminate hy
  have hlength := congrArg List.length (hcut.flatten.trans h.flatten.symm)
  simp only [List.flatten_append, List.flatten_cons, List.flatten_nil, List.append_nil,
    List.length_append] at hlength
  omega

end Cutting

/-! ## Lines step by step -/

namespace Emitted

variable {lines : List (List α)}

theorem nil (h : 0 < limit) : Emitted sep limit [] [] [] :=
  ⟨[], Cutting.nil h, rfl⟩

theorem keep (h : Emitted sep limit stream rest lines) {data : List α} (hdata : sep ∉ data)
    (hlt : rest.length + data.length < limit) :
    Emitted sep limit (stream ++ data) (rest ++ data) lines := by
  obtain ⟨pieces, hcut, hlines⟩ := h
  exact ⟨pieces, hcut.keep hdata hlt, hlines⟩

theorem line (h : Emitted sep limit stream rest lines) {data : List α} (hdata : sep ∉ data)
    (hle : rest.length + data.length < limit) :
    Emitted sep limit (stream ++ (data ++ [sep])) [] (lines ++ [rest ++ (data ++ [sep])]) := by
  obtain ⟨pieces, hcut, rfl⟩ := h
  refine ⟨pieces ++ [rest ++ (data ++ [sep])], hcut.line hdata hle, ?_⟩
  rw [List.map_append, List.map_singleton, ← List.append_assoc rest, terminate_concat]

theorem full (h : Emitted sep limit stream rest lines) {data : List α} (hdata : sep ∉ data)
    (heq : rest.length + data.length = limit) :
    Emitted sep limit (stream ++ data) [] (lines ++ [rest ++ data ++ [sep]]) := by
  obtain ⟨pieces, hcut, rfl⟩ := h
  refine ⟨pieces ++ [rest ++ data], hcut.full hdata heq, ?_⟩
  have hmem : sep ∉ rest ++ data := List.not_mem_append hcut.not_mem hdata
  rw [List.map_append, List.map_singleton, terminate_of_not_mem hmem]

theorem lt (h : Emitted sep limit stream rest lines) : rest.length < limit := by
  obtain ⟨pieces, hcut, -⟩ := h
  exact hcut.lt

theorem suffix (h : Emitted sep limit stream rest lines) : rest <:+ stream := by
  obtain ⟨pieces, hcut, -⟩ := h
  exact ⟨pieces.flatten, hcut.flatten⟩

/-- What is left at the end is passed on once. -/
theorem delivered_once (h : Emitted sep limit stream rest lines) :
    Delivered sep limit stream (lines ++ if rest = [] then [] else [rest ++ [sep]]) := by
  obtain ⟨pieces, hcut, rfl⟩ := h
  split_ifs with hrest
  · subst hrest
    exact ⟨pieces, hcut.cut, List.append_nil _⟩
  · refine ⟨pieces ++ [rest], hcut.cut_concat hrest, ?_⟩
    rw [List.map_append, List.map_singleton, terminate_of_not_mem hcut.not_mem]

/-- When what is left is passed on twice, all depends on whether there is something left. -/
theorem delivered_twice_iff (h : Emitted sep limit stream rest lines) :
    Delivered sep limit stream
      (lines ++ if rest = [] then [] else [rest ++ [sep], rest ++ [sep]]) ↔
      tailLength sep stream % limit = 0 := by
  obtain ⟨pieces, hcut, rfl⟩ := h
  rw [hcut.tail, List.length_eq_zero_iff]
  split_ifs with hrest
  · subst hrest
    exact iff_of_true ⟨pieces, hcut.cut, List.append_nil _⟩ rfl
  · exact iff_of_false hcut.not_delivered_twice hrest

end Emitted

end Alpm.Framing
