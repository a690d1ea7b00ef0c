import Mathlib.Data.List.Nodup
import Mathlib.Data.List.Forall2

/-!
# Layers that hide each other

Layers of entries are scanned from the most important one on, and each layer in the order in which
its entries happen to be listed.  An entry gives an item, or nothing, or a failure, and it is told
whether an item of its key was taken before; then it gives no item.  This is how directories of
configuration files hide each other: the scan goes through the directories in turn, and a name that
was found in one of them is passed over in all later ones.

The order in which a directory is listed is not under the control of the program that reads it, so
the question is what of the result depends on it.

* `foldl_step`: a layer without repeated keys is scanned as if all its entries were looked at before
  the first item is taken.
* `run_agree`: the order within the layers does not matter.  Two scans of relisted layers end with
  the same items up to their order, and both fail or none does.
* `mem_run_iff`: an item is taken if and only if it is offered by the first layer that offers
  anything of its key.

Failures are collected and do not stop the scan, as an entry that cannot be read does not keep the
others from being read; `run_failed` says when there are none.
-/

namespace Overlay

universe u

/-- What an entry gives. -/
inductive Visit (α : Type u) where
  | skip
  | fail
  | take (item : α)

variable {ε α κ : Type u}

namespace Visit

def item? : Visit α → Option α
  | take item => some item
  | _ => none

def isFail : Visit α → Bool
  | fail => true
  | _ => false

@[simp] theorem item?_eq_some_iff {visit : Visit α} {item : α} :
    visit.item? = some item ↔ visit = take item := by
  cases visit <;> simp [item?]

end Visit

/-- The entries of a layer in the order of a listing, and whether it could not be listed to its
end. -/
structure Layer (ε : Type u) where
  entries : List ε
  broken : Bool

/-- The two listings are of one layer. -/
structure Layer.Relisted (layer layer' : Layer ε) : Prop where
  entries : layer.entries.Perm layer'.entries
  broken : layer.broken = layer'.broken

structure Scan (α : Type u) where
  failed : Bool := false
  taken : List α := []

/-- Two scans that differ in the order of what they took only. -/
structure Scan.Agree (scan scan' : Scan α) : Prop where
  failed : scan.failed = scan'.failed
  taken : scan.taken.Perm scan'.taken

/-- The keys of entries and of items, and what an entry gives when its key was or was not taken
before. -/
structure Rules (ε α κ : Type u) where
  key : ε → κ
  name : α → κ
  visit : Bool → ε → Visit α
  name_of_take : ∀ {hidden entry item}, visit hidden entry = .take item → name item = key entry
  not_hidden : ∀ {entry item}, visit true entry ≠ .take item

namespace Rules

variable (rules : Rules ε α κ)

/-- No key is listed twice. -/
def Distinct (layer : Layer ε) : Prop := (layer.entries.map rules.key).Nodup

/-- The layer has the item. -/
def Offers (layer : Layer ε) (item : α) : Prop :=
  ∃ entry ∈ layer.entries, rules.visit false entry = .take item

/-- The first layer that offers anything of the key of the item offers the item.  Layers before it
may have entries of the key that give nothing, and these hide nothing. -/
def Wins (layers : List (Layer ε)) (item : α) : Prop :=
  ∃ front layer back, layers = front ++ layer :: back ∧ rules.Offers layer item ∧
    ∀ other ∈ front, ∀ hides, rules.Offers other hides → rules.name hides ≠ rules.name item

section

variable {rules} {item : α} {layer layer' : Layer ε} {layers : List (Layer ε)}

theorem Distinct.relisted (hlayer : rules.Distinct layer) (h : layer.Relisted layer') :
    rules.Distinct layer' :=
  ((h.entries.map rules.key).nodup_iff).mp hlayer

theorem wins_cons_iff :
    rules.Wins (layer :: layers) item ↔
      rules.Offers layer item ∨
        (∀ hides, rules.Offers layer hides → rules.name hides ≠ rules.name item) ∧
          rules.Wins layers item := by
  constructor
  · rintro ⟨front, other, back, heq, hoffers, hfront⟩
    cases front with
    | nil =>
      obtain ⟨rfl, rfl⟩ := List.cons.inj heq
      exact Or.inl hoffers
    | cons first front =>
      obtain ⟨rfl, rfl⟩ := List.cons.inj heq
      rw [List.forall_mem_cons] at hfront
      exact Or.inr ⟨hfront.1, front, other, back, rfl, hoffers, hfront.2⟩
  · rintro (hoffers | ⟨hlayer, front, other, back, rfl, hoffers, hfront⟩)
    · exact ⟨[], layer, layers, rfl, hoffers, nofun⟩
    · exact ⟨layer :: front, other, back, rfl, hoffers, List.forall_mem_cons.mpr ⟨hlayer, hfront⟩⟩

end

/-! ## The scan -/

variable [DecidableEq κ]

def hidden (taken : List α) (entry : ε) : Bool :=
  taken.any fun item => rules.name item = rules.key entry

def look (taken : List α) (entry : ε) : Visit α := rules.visit (rules.hidden taken entry) entry

def step (scan : Scan α) (entry : ε) : Scan α :=
  match rules.look scan.taken entry with
  | .skip => scan
  | .fail => { scan with failed := true }
  | .take item => { scan with taken := scan.taken ++ [item] }

def scanLayer (scan : Scan α) (layer : Layer ε) : Scan α :=
  let scan' := layer.entries.foldl rules.step scan
  { scan' with failed := scan'.failed || layer.broken }

def run (layers : List (Layer ε)) : Scan α := layers.foldl rules.scanLayer {}

variable {rules} {scan scan' : Scan α} {taken taken' more : List α} {entry : ε} {item : α}
  {entries entries' : List ε} {layer layer' : Layer ε} {layers layers' : List (Layer ε)}

/-! ## One layer -/

theorem hidden_eq_true_iff :
    rules.hidden taken entry = true ↔ ∃ item ∈ taken, rules.name item = rules.key entry := by
  simp [hidden]

theorem look_append (hmore : ∀ item ∈ more, rules.name item ≠ rules.key entry) :
    rules.look (taken ++ more) entry = rules.look taken entry := by
  have hnone : (more.any fun item => rules.name item = rules.key entry) = false := by
    rw [List.any_eq_false]
    intro item hitem
    simpa using hmore item hitem
  rw [look, look, hidden, hidden, List.any_append, hnone, Bool.or_false]

theorem look_perm (h : taken.Perm taken') : rules.look taken entry = rules.look taken' entry := by
  have hiff : rules.hidden taken entry = rules.hidden taken' entry := by
    rw [Bool.eq_iff_iff, hidden_eq_true_iff, hidden_eq_true_iff]
    simp only [h.mem_iff]
  rw [look, look, hiff]

theorem look_eq_take_iff :
    rules.look taken entry = .take item ↔
      rules.visit false entry = .take item ∧
        ∀ other ∈ taken, rules.name other ≠ rules.name item := by
  rw [look]
  cases hhidden : rules.hidden taken entry with
  | true =>
    obtain ⟨other, hother, hname⟩ := hidden_eq_true_iff.mp hhidden
    refine iff_of_false rules.not_hidden ?_
    rintro ⟨hvisit, hnew⟩
    exact hnew other hother (hname.trans (rules.name_of_take hvisit).symm)
  | false =>
    refine (and_iff_left_of_imp fun hvisit other hother hname => ?_).symm
    have hkey := hname.trans (rules.name_of_take hvisit)
    exact absurd (hidden_eq_true_iff.mpr ⟨other, hother, hkey⟩) (by simp [hhidden])

theorem step_eq (scan : Scan α) (entry : ε) :
    rules.step scan entry =
      ⟨scan.failed || (rules.look scan.taken entry).isFail,
        scan.taken ++ (rules.look scan.taken entry).item?.toList⟩ := by
  rw [step]
  cases rules.look scan.taken entry <;> simp [Visit.isFail, Visit.item?]

/-- All entries of a layer are looked at with what was taken before the layer. -/
theorem foldl_step (hnodup : (entries.map rules.key).Nodup) :
    entries.foldl rules.step scan =
      ⟨scan.failed || entries.any fun entry => (rules.look scan.taken entry).isFail,
        scan.taken ++ entries.filterMap fun entry => (rules.look scan.taken entry).item?⟩ := by
  induction entries generalizing scan with
  | nil => simp
  | cons entry entries ih =>
    rw [List.map_cons, List.nodup_cons] at hnodup
    obtain ⟨hentry, hrest⟩ := hnodup
    -- what this entry gives has its key, which no later entry has
    have hlook : ∀ other ∈ entries, rules.look (rules.step scan entry).taken other
        = rules.look scan.taken other := by
      intro other hother
      rw [step_eq]
      refine look_append fun item hitem hname => hentry ?_
      rw [Option.mem_toList, Visit.item?_eq_some_iff] at hitem
      rw [← rules.name_of_take hitem, hname]
      exact List.mem_map_of_mem hother
    have hfails : (entries.any fun other =>
        (rules.look (rules.step scan entry).taken other).isFail)
        = entries.any fun other => (rules.look scan.taken other).isFail := by
      rw [Bool.eq_iff_iff, List.any_eq_true, List.any_eq_true]
      exact exists_congr fun other => and_congr_right fun hother => by rw [hlook other hother]
    have hitems : (entries.filterMap fun other =>
        (rules.look (rules.step scan entry).taken other).item?)
        = entries.filterMap fun other => (rules.look scan.taken other).item? :=
      List.filterMap_congr fun other hother => by rw [hlook other hother]
    rw [List.foldl_cons, ih hrest, hfails, hitems, step_eq, List.any_cons, List.filterMap_cons]
    cases rules.look scan.taken entry <;> simp [Visit.isFail, Visit.item?]

theorem scanLayer_eq (hlayer : rules.Distinct layer) :
    rules.scanLayer scan layer =
      ⟨scan.failed || (layer.entries.any fun entry => (rules.look scan.taken entry).isFail) ||
          layer.broken,
        scan.taken ++ layer.entries.filterMap fun entry =>
          (rules.look scan.taken entry).item?⟩ := by
  rw [scanLayer, foldl_step hlayer]

theorem scanLayer_agree (hlayer : rules.Distinct layer) (h : layer.Relisted layer')
    (hscan : scan.Agree scan') :
    (rules.scanLayer scan layer).Agree (rules.scanLayer scan' layer') := by
  have hlook : rules.look scan'.taken = rules.look scan.taken := by
    ext entry
    rw [look_perm hscan.taken]
  rw [scanLayer_eq hlayer, scanLayer_eq (hlayer.relisted h), hlook]
  exact {
    failed := by
      dsimp only
      rw [hscan.failed, h.broken, h.entries.any_eq]
    taken := hscan.taken.append (h.entries.filterMap _) }

/-! ## All layers -/

theorem foldl_scanLayer_agree (hlayers : ∀ layer ∈ layers, rules.Distinct layer)
    (h : List.Forall₂ Layer.Relisted layers layers') (hscan : scan.Agree scan') :
    (layers.foldl rules.scanLayer scan).Agree (layers'.foldl rules.scanLayer scan') := by
  induction h generalizing scan scan' with
  | nil => exact hscan
  | cons hlayer _ ih =>
    rw [List.forall_mem_cons] at hlayers
    exact ih hlayers.2 (scanLayer_agree hlayers.1 hlayer hscan)

/-- **The order within the layers does not matter.**  Scans of layers that were relisted take the
same items up to their order, and fail or do not fail together.  By `foldl_step` the entries of a
layer do not see each other, so they may be permuted. -/
theorem run_agree (hlayers : ∀ layer ∈ layers, rules.Distinct layer)
    (h : List.Forall₂ Layer.Relisted layers layers') :
    (rules.run layers).Agree (rules.run layers') :=
  foldl_scanLayer_agree hlayers h ⟨rfl, List.Perm.refl _⟩

theorem mem_scanLayer_iff (hlayer : rules.Distinct layer) :
    item ∈ (rules.scanLayer scan layer).taken ↔
      item ∈ scan.taken ∨
        rules.Offers layer item ∧ ∀ other ∈ scan.taken, rules.name other ≠ rules.name item := by
  rw [scanLayer_eq hlayer, List.mem_append, List.mem_filterMap]
  simp only [Visit.item?_eq_some_iff, look_eq_take_iff, ← and_assoc, exists_and_right, Offers]

theorem mem_foldl_scanLayer_iff (hlayers : ∀ layer ∈ layers, rules.Distinct layer) :
    item ∈ (layers.foldl rules.scanLayer scan).taken ↔
      item ∈ scan.taken ∨
        rules.Wins layers item ∧ ∀ other ∈ scan.taken, rules.name other ≠ rules.name item := by
  induction layers generalizing scan with
  | nil => simp [Wins]
  | cons layer layers ih =>
    rw [List.forall_mem_cons] at hlayers
    rw [List.foldl_cons, ih hlayers.2, mem_scanLayer_iff hlayers.1, wins_cons_iff]
    simp only [mem_scanLayer_iff hlayers.1]
    constructor
    · rintro ((hscan | ⟨hoffers, hnew⟩) | ⟨hwins, hnew⟩)
      · exact Or.inl hscan
      · exact Or.inr ⟨Or.inl hoffers, hnew⟩
      · by_cases hscan : ∃ other ∈ scan.taken, rules.name other = rules.name item
        · obtain ⟨other, hother, hname⟩ := hscan
          exact absurd hname (hnew other (Or.inl hother))
        · push Not at hscan
          refine Or.inr ⟨Or.inr ⟨fun hides hoffers hname => ?_, hwins⟩, hscan⟩
          refine hnew hides (Or.inr ⟨hoffers, fun other hother => ?_⟩) hname
          rw [hname]
          exact hscan other hother
    · rintro (hscan | ⟨hoffers | ⟨hlayer, hwins⟩, hnew⟩)
      · exact Or.inl (Or.inl hscan)
      · exact Or.inl (Or.inr ⟨hoffers, hnew⟩)
      · refine Or.inr ⟨hwins, ?_⟩
        rintro other (hother | ⟨hoffers, -⟩)
        · exact hnew other hother
        · exact hlayer other hoffers

/-- **What is taken**: an item is in the result if and only if it wins, if no layer lists a key
twice. The induction is over the layers, with what was taken before in the state. -/
theorem mem_run_iff (hlayers : ∀ layer ∈ layers, rules.Distinct layer) :
    item ∈ (rules.run layers).taken ↔ rules.Wins layers item := by
  rw [run, mem_foldl_scanLayer_iff hlayers]
  simp

theorem nodup_step (h : (scan.taken.map rules.name).Nodup) :
    ((rules.step scan entry).taken.map rules.name).Nodup := by
  rw [step_eq]
  cases hlook : rules.look scan.taken entry with
  | skip => simpa [Visit.item?] using h
  | fail => simpa [Visit.item?] using h
  | take item =>
    have hnew := (look_eq_take_iff.mp hlook).2
    rw [Visit.item?, Option.toList_some, List.map_append, List.map_singleton]
    refine List.nodup_append.mpr ⟨h, List.nodup_singleton _, ?_⟩
    intro name hname other hother
    obtain ⟨taken, htaken, rfl⟩ := List.mem_map.mp hname
    rw [List.mem_singleton.mp hother]
    exact hnew taken htaken

/-- No two items of one key are taken. -/
theorem nodup_run : ((rules.run layers).taken.map rules.name).Nodup := by
  refine List.foldlRecOn (b := {}) (motive := fun scan => (scan.taken.map rules.name).Nodup)
    layers rules.scanLayer List.nodup_nil fun scan hscan layer _ => ?_
  exact List.foldlRecOn (motive := fun scan => (scan.taken.map rules.name).Nodup)
    layer.entries rules.step hscan fun scan hscan entry _ => nodup_step hscan

/-- A scan whose entries do not fail does not fail. -/
theorem run_failed (hlayers : ∀ layer ∈ layers, rules.Distinct layer)
    (hfine : ∀ layer ∈ layers, layer.broken = false ∧
      ∀ entry ∈ layer.entries, ∀ hidden, rules.visit hidden entry ≠ .fail) :
    (rules.run layers).failed = false := by
  refine List.foldlRecOn (b := {}) (motive := fun scan => scan.failed = false) layers
    rules.scanLayer rfl fun scan hscan layer hlayer => ?_
  obtain ⟨hbroken, hentries⟩ := hfine layer hlayer
  have hnone : (layer.entries.any fun entry => (rules.look scan.taken entry).isFail) = false := by
    rw [List.any_eq_false]
    intro entry hentry
    have hvisit := hentries entry hentry (rules.hidden scan.taken entry)
    rw [look]
    cases hlook : rules.visit (rules.hidden scan.taken entry) entry with
    | skip => simp [Visit.isFail]
    | fail => exact absurd hlook hvisit
    | take item => simp [Visit.isFail]
  rw [scanLayer_eq (hlayers layer hlayer)]
  dsimp only
  rw [hscan, hnone, hbroken]
  rfl

end Rules

end Overlay
