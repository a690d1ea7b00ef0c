import Mathlib.Data.List.Perm.Basic
import Mathlib.Data.List.Basic

/-!
# Draining a pool through a worklist

A worklist is processed from its head; each entry pulls the members of a pool that it selects to the
end of the worklist, in the order of the pool.  `drain` returns the entries in the order in which
they were processed, and what is left of the pool.  It recurses on the worklist and the pool
together: an entry that is processed either shrinks the worklist or the pool.

`Pulled` is the least predicate on the pool that contains what a start entry selects and is closed
under selection.  The main results say that the entries processed are the start entries and what is
pulled (`mem_drain_fst`), and that what is not pulled is left (`mem_drain_snd`).  One direction of
the first is an induction over the run, the other one over `Pulled`, with the fact that an entry
that was processed leaves nothing behind that it selects (`mem_drain_snd_iff_forall`).

A loop over a fixed list of entries, which does not process what it moves, is `scan`; it is a loop
over the worklist that stops early, and `mem_drain_scan` says how the two compose.
-/

namespace Alpm.Worklist

variable {α : Type*}

/-- What a start entry reaches in the pool by selection. -/
inductive Pulled (sel : α → α → Prop) (start pool : α → Prop) : α → Prop
  | ofStart {a b : α} : start a → pool b → sel a b → Pulled sel start pool b
  | ofPulled {a b : α} : Pulled sel start pool a → pool b → sel a b → Pulled sel start pool b

namespace Pulled

variable {sel : α → α → Prop} {start start' pool pool' : α → Prop} {b : α}

theorem mem_pool (h : Pulled sel start pool b) : pool b := by
  cases h with
  | ofStart _ hb _ => exact hb
  | ofPulled _ hb _ => exact hb

/-- Only what a start entry selects has to be compared. -/
theorem mono (hstart : ∀ a b, start a → pool b → sel a b → Pulled sel start' pool' b)
    (hpool : ∀ b, pool b → pool' b) (h : Pulled sel start pool b) :
    Pulled sel start' pool' b := by
  induction h with
  | ofStart ha hb hsel => exact hstart _ _ ha hb hsel
  | ofPulled _ hb hsel ih => exact ih.ofPulled (hpool _ hb) hsel

theorem congr (hstart : ∀ a, start a ↔ start' a) (hpool : ∀ b, pool b ↔ pool' b) :
    Pulled sel start pool b ↔ Pulled sel start' pool' b :=
  ⟨mono (fun _ _ ha hb => ofStart ((hstart _).mp ha) ((hpool _).mp hb)) fun b => (hpool b).mp,
    mono (fun _ _ ha hb => ofStart ((hstart _).mpr ha) ((hpool _).mpr hb)) fun b => (hpool b).mpr⟩

end Pulled

/-! ## The loops -/

variable {sel : α → α → Bool}

/-- The members of the pool that an entry selects, and the others. -/
def select (sel : α → α → Bool) (a : α) (pool : List α) : List α × List α :=
  (pool.filter (sel a), pool.filter (!sel a ·))

theorem select_perm (a : α) (pool : List α) :
    ((select sel a pool).1 ++ (select sel a pool).2).Perm pool :=
  List.filter_append_perm (sel a) pool

theorem length_select (a : α) (pool : List α) :
    (select sel a pool).1.length + (select sel a pool).2.length = pool.length :=
  List.length_append.symm.trans (select_perm a pool).length_eq

theorem mem_select_fst {a b : α} {pool : List α} :
    b ∈ (select sel a pool).1 ↔ b ∈ pool ∧ sel a b := List.mem_filter

theorem mem_select_snd {a b : α} {pool : List α} :
    b ∈ (select sel a pool).2 ↔ b ∈ pool ∧ ¬ sel a b := by
  simp only [select, List.mem_filter, Bool.not_eq_true', Bool.not_eq_true]

/-- Process a fixed list of entries; what they select is added to `acc`. -/
def scan (sel : α → α → Bool) : List α → List α → List α → List α × List α
  | [], acc, pool => (acc, pool)
  | a :: entries, acc, pool =>
    scan sel entries (acc ++ (select sel a pool).1) (select sel a pool).2

theorem scan_perm (entries acc pool : List α) :
    ((scan sel entries acc pool).1 ++ (scan sel entries acc pool).2).Perm (acc ++ pool) := by
  induction entries generalizing acc pool with
  | nil => exact List.Perm.refl _
  | cons a entries ih =>
    refine (ih _ _).trans ?_
    rw [List.append_assoc]
    exact (select_perm a pool).append_left acc

/-- Process the worklist `todo`, to which what an entry selects is added. -/
def drain (sel : α → α → Bool) : List α → List α → List α × List α
  | [], pool => ([], pool)
  | a :: todo, pool =>
    let (done, left) := drain sel (todo ++ (select sel a pool).1) (select sel a pool).2
    (a :: done, left)
  termination_by todo pool => todo.length + pool.length
  decreasing_by
    have hlength := @length_select _ sel a pool
    simp only [List.length_append, List.length_cons]
    omega

@[simp] theorem drain_nil (pool : List α) : drain sel [] pool = ([], pool) := by
  rw [drain]

theorem drain_cons (a : α) (todo pool : List α) :
    drain sel (a :: todo) pool =
      (a :: (drain sel (todo ++ (select sel a pool).1) (select sel a pool).2).1,
        (drain sel (todo ++ (select sel a pool).1) (select sel a pool).2).2) := by
  rw [drain]

/-- The entries at the head of the worklist can be processed in a loop of their own. -/
theorem drain_append (entries todo pool : List α) :
    drain sel (entries ++ todo) pool =
      (entries ++ (drain sel (scan sel entries todo pool).1 (scan sel entries todo pool).2).1,
        (drain sel (scan sel entries todo pool).1 (scan sel entries todo pool).2).2) := by
  induction entries generalizing todo pool with
  | nil => rfl
  | cons a entries ih =>
    rw [List.cons_append, drain_cons, List.append_assoc, ih]
    rfl

theorem drain_empty (todo : List α) : (drain sel todo []).2 = [] := by
  induction todo with
  | nil => rw [drain_nil]
  | cons a todo ih =>
    rw [drain_cons]
    exact (congrArg (fun todo => (drain sel todo []).2) (List.append_nil todo)).trans ih

/-- Nothing is lost and nothing is processed twice. -/
theorem drain_perm (todo pool : List α) :
    ((drain sel todo pool).1 ++ (drain sel todo pool).2).Perm (todo ++ pool) := by
  fun_induction drain sel todo pool with
  | case1 pool => exact List.Perm.refl _
  | case2 a todo pool done left hdrain ih =>
    rw [hdrain, List.append_assoc] at ih
    exact (ih.trans ((select_perm a pool).append_left todo)).cons a

theorem drain_snd_sublist (todo pool : List α) : (drain sel todo pool).2.Sublist pool := by
  fun_induction drain sel todo pool with
  | case1 pool => exact List.Sublist.refl _
  | case2 a todo pool done left hdrain ih =>
    rw [hdrain] at ih
    exact ih.trans List.filter_sublist

/-! ## What is processed and what is left -/

variable {todo pool : List α} {b : α}

/-- What is left is selected by nothing that was processed. -/
theorem mem_drain_snd_iff_forall :
    b ∈ (drain sel todo pool).2 ↔ b ∈ pool ∧ ∀ a ∈ (drain sel todo pool).1, ¬ sel a b := by
  fun_induction drain sel todo pool with
  | case1 pool => simp
  | case2 a todo pool done left hdrain ih =>
    rw [hdrain] at ih
    simp only [ih, mem_select_snd, List.forall_mem_cons, and_assoc]

theorem mem_drain_fst_of_mem (h : b ∈ todo) : b ∈ (drain sel todo pool).1 := by
  rw [← List.append_nil todo, drain_append]
  exact List.mem_append_left _ h

/-- What a processed entry selects is processed. -/
theorem mem_drain_fst_of_sel {a : α} (ha : a ∈ (drain sel todo pool).1) (hb : b ∈ pool)
    (hsel : sel a b) : b ∈ (drain sel todo pool).1 := by
  rcases List.mem_append.mp ((drain_perm todo pool).mem_iff.mpr
    (List.mem_append_right todo hb)) with h | h
  · exact h
  · exact absurd hsel ((mem_drain_snd_iff_forall.mp h).2 a ha)

theorem mem_drain_fst_of_pulled (h : Pulled (sel · ·) (· ∈ todo) (· ∈ pool) b) :
    b ∈ (drain sel todo pool).1 := by
  induction h with
  | ofStart ha hb hsel => exact mem_drain_fst_of_sel (mem_drain_fst_of_mem ha) hb hsel
  | ofPulled _ hb hsel ih => exact mem_drain_fst_of_sel ih hb hsel

/-- **The entries processed** are those of the worklist and what they pull.  That nothing else is
processed is an induction over the run; that all of it is, one over `Pulled`, as an entry that was
processed leaves nothing in the pool that it selects. -/
theorem mem_drain_fst : b ∈ (drain sel todo pool).1 ↔
    b ∈ todo ∨ Pulled (sel · ·) (· ∈ todo) (· ∈ pool) b := by
  refine ⟨fun h => ?_, fun h => h.elim mem_drain_fst_of_mem mem_drain_fst_of_pulled⟩
  fun_induction drain sel todo pool with
  | case1 pool => exact Or.inl h
  | case2 a todo pool done left hdrain ih =>
    rw [hdrain] at ih
    have hhead : ∀ b ∈ (select sel a pool).1,
        Pulled (sel · ·) (· ∈ a :: todo) (· ∈ pool) b := fun b hb =>
      .ofStart (List.mem_cons_self ..) (mem_select_fst.mp hb).1 (mem_select_fst.mp hb).2
    rcases List.mem_cons.mp h with rfl | h
    · exact Or.inl (List.mem_cons_self ..)
    rcases ih h with h | h
    · exact (List.mem_append.mp h).imp (List.mem_cons_of_mem a) (hhead b)
    · refine Or.inr (h.mono (fun c d hc hd hsel => ?_) fun d hd => (mem_select_snd.mp hd).1)
      have hd := (mem_select_snd.mp hd).1
      rcases List.mem_append.mp hc with hc | hc
      · exact .ofStart (List.mem_cons_of_mem a hc) hd hsel
      · exact (hhead c hc).ofPulled hd hsel

/-- What a loop over a fixed list moves is what some entry selects. -/
theorem mem_scan_fst {entries acc : List α} : b ∈ (scan sel entries acc pool).1 ↔
    b ∈ acc ∨ b ∈ pool ∧ ∃ a ∈ entries, sel a b := by
  induction entries generalizing acc pool with
  | nil => simp [scan]
  | cons a entries ih =>
    rw [scan, ih, List.mem_append, mem_select_fst, mem_select_snd, or_assoc]
    by_cases hsel : sel a b <;> simp [hsel]

theorem mem_scan_snd {entries acc : List α} : b ∈ (scan sel entries acc pool).2 ↔
    b ∈ pool ∧ ∀ a ∈ entries, ¬ sel a b := by
  induction entries generalizing acc pool with
  | nil => simp [scan]
  | cons a entries ih =>
    rw [scan, ih, mem_select_snd, List.forall_mem_cons, and_assoc]

/-- **What a loop over a fixed list of entries and a loop over what it moved process**
is what the entries pull. -/
theorem mem_drain_scan {entries : List α} :
    b ∈ (drain sel (scan sel entries [] pool).1 (scan sel entries [] pool).2).1 ↔
      Pulled (sel · ·) (· ∈ entries) (· ∈ pool) b := by
  have hmoved : ∀ b, b ∈ (scan sel entries [] pool).1 →
      Pulled (sel · ·) (· ∈ entries) (· ∈ pool) b := by
    intro b hb
    obtain ⟨hpool, a, ha, hsel⟩ := (mem_scan_fst.mp hb).resolve_left List.not_mem_nil
    exact .ofStart ha hpool hsel
  rw [mem_drain_fst]
  constructor
  · rintro (hb | hb)
    · exact hmoved b hb
    · induction hb with
      | ofStart ha hd hsel => exact (hmoved _ ha).ofPulled (mem_scan_snd.mp hd).1 hsel
      | ofPulled _ hd hsel ih => exact ih.ofPulled (mem_scan_snd.mp hd).1 hsel
  · intro hb
    induction hb with
    | ofStart ha hpool hsel => exact Or.inl (mem_scan_fst.mpr (Or.inr ⟨hpool, _, ha, hsel⟩))
    | @ofPulled a d _ hpool hsel ih =>
      by_cases hd : d ∈ (scan sel entries [] pool).1
      · exact Or.inl hd
      · have hleft : d ∈ (scan sel entries [] pool).2 := mem_scan_snd.mpr
          ⟨hpool, fun c hc hsel => hd (mem_scan_fst.mpr (Or.inr ⟨hpool, c, hc, hsel⟩))⟩
        exact Or.inr (ih.elim (fun ha => .ofStart ha hleft hsel)
          fun ha => ha.ofPulled hleft hsel)

/-- The worklist is processed first, and what follows comes from the pool. -/
theorem drain_fst_eq_append (todo pool : List α) :
    ∃ pulled, (drain sel todo pool).1 = todo ++ pulled ∧ ∀ b ∈ pulled, b ∈ pool := by
  have h := @drain_append _ sel todo [] pool
  rw [List.append_nil] at h
  exact ⟨_, congrArg Prod.fst h, fun b hb => (mem_drain_scan.mp hb).mem_pool⟩

/-- **What is not pulled is left.**  A member of the pool is moved to the worklist and processed, or
it stays in the pool, and never both. -/
theorem mem_drain_snd : b ∈ (drain sel todo pool).2 ↔
    b ∈ pool ∧ ¬ Pulled (sel · ·) (· ∈ todo) (· ∈ pool) b := by
  rw [mem_drain_snd_iff_forall]
  refine and_congr_right fun hb => ⟨fun h hpulled => ?_, fun h a ha hsel => h ?_⟩
  · cases hpulled with
    | ofStart ha _ hsel => exact h _ (mem_drain_fst_of_mem ha) hsel
    | ofPulled ha _ hsel => exact h _ (mem_drain_fst_of_pulled ha) hsel
  · rcases mem_drain_fst.mp ha with ha | ha
    · exact .ofStart ha hb hsel
    · exact ha.ofPulled hb hsel

end Alpm.Worklist
