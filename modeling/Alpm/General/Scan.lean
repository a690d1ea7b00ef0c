import Mathlib.Data.List.Basic
import Mathlib.Data.Option.Basic

/-!
# Scanning a memory

A scan reads at indices and either has a result or fails.  It returns with it the indices at which
it reads, also those before a failure, so that "the program never reads outside the buffer" is a
statement about its value.

`Scan.Within` is the rule by which a scan is shown to stay inside a bound, and to have a result with
a property when it has one.  The property is what makes it compose: the index that the next part of
a scan starts from is a result of the part before, and its bound is part of the property.
-/

namespace Alpm

/-- A result, and the indices that were read. -/
structure Scan (α : Type) where
  result : Option α
  reads : List ℕ

namespace Scan

variable {α β : Type}

instance : Monad Scan where
  pure a := { result := some a, reads := [] }
  bind m f :=
    { result := m.result.bind fun a => (f a).result
      reads := m.reads ++ m.result.elim [] fun a => (f a).reads }

def fail : Scan α := { result := none, reads := [] }

/-- Read at one index. -/
def read (byte : ℕ → UInt8) (i : ℕ) : Scan ℕ := { result := some (byte i).toNat, reads := [i] }

@[simp] theorem result_pure (a : α) : (pure a : Scan α).result = some a := rfl

@[simp] theorem reads_pure (a : α) : (pure a : Scan α).reads = [] := rfl

@[simp] theorem result_fail : (fail : Scan α).result = none := rfl

@[simp] theorem reads_fail : (fail : Scan α).reads = [] := rfl

@[simp] theorem result_read (byte : ℕ → UInt8) (i : ℕ) :
    (read byte i).result = some (byte i).toNat := rfl

@[simp] theorem reads_read (byte : ℕ → UInt8) (i : ℕ) : (read byte i).reads = [i] := rfl

@[simp] theorem result_bind (m : Scan α) (f : α → Scan β) :
    (m >>= f).result = m.result.bind fun a => (f a).result := rfl

theorem reads_bind (m : Scan α) (f : α → Scan β) :
    (m >>= f).reads = m.reads ++ m.result.elim [] fun a => (f a).reads := rfl

theorem mem_reads_bind_left {m : Scan α} {f : α → Scan β} {i : ℕ} (h : i ∈ m.reads) :
    i ∈ (m >>= f).reads := by
  rw [reads_bind]
  exact List.mem_append_left _ h

theorem mem_reads_bind_right {m : Scan α} {f : α → Scan β} {a : α} {i : ℕ}
    (ha : m.result = some a) (h : i ∈ (f a).reads) : i ∈ (m >>= f).reads := by
  rw [reads_bind, ha]
  exact List.mem_append_right _ h

/-! ## Staying inside a bound -/

/-- Every index that is read is below the bound, and the result has a property, if there is one.
The reads before a failure count as well. -/
structure Within (len : ℕ) (m : Scan α) (P : α → Prop) : Prop where
  reads : ∀ i ∈ m.reads, i < len
  result : ∀ a, m.result = some a → P a

variable {len : ℕ} {P : α → Prop} {Q : β → Prop}

theorem Within.pure {a : α} (h : P a) : Within len (Pure.pure a) P where
  reads := by simp
  result := by
    rintro b hb
    rwa [← Option.some.inj hb]

theorem Within.fail : Within len (Scan.fail : Scan α) P where
  reads := by simp
  result := by simp

theorem Within.read {byte : ℕ → UInt8} {i : ℕ} (h : i < len) :
    Within len (Scan.read byte i) fun a => a = (byte i).toNat where
  reads := by simpa using h
  result := by
    rintro a ha
    exact (Option.some.inj ha).symm

theorem Within.bind {m : Scan α} {f : α → Scan β} (hm : Within len m P)
    (hf : ∀ a, m.result = some a → P a → Within len (f a) Q) : Within len (m >>= f) Q where
  reads := by
    intro i hi
    rw [reads_bind, List.mem_append] at hi
    cases ha : m.result with
    | none =>
      rw [ha] at hi
      exact hm.reads i (hi.resolve_right List.not_mem_nil)
    | some a =>
      rw [ha] at hi
      exact hi.elim (hm.reads i) ((hf a ha (hm.result a ha)).reads i)
  result := by
    intro b hb
    rw [result_bind] at hb
    obtain ⟨a, ha, hb⟩ := Option.bind_eq_some_iff.mp hb
    exact (hf a ha (hm.result a ha)).result b hb

theorem Within.mono {m : Scan α} {R : α → Prop} (h : Within len m P) (hPR : ∀ a, P a → R a) :
    Within len m R where
  reads := h.reads
  result a ha := hPR a (h.result a ha)

theorem Within.ite {c : Prop} [Decidable c] {m n : Scan α} (hm : c → Within len m P)
    (hn : ¬ c → Within len n P) : Within len (if c then m else n) P := by
  split_ifs with hc
  · exact hm hc
  · exact hn hc

end Scan

end Alpm
