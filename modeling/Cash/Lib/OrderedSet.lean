import Mathlib.Data.List.Nodup
import Mathlib.Tactic.Common

/-!
# Sets that are iterated

A set with the order its elements come in: a list in which none occurs twice.
-/

structure OrderedSet (α : Type) where
  items : List α
  nodup : items.Nodup

namespace OrderedSet

variable {α : Type}

instance : Membership α (OrderedSet α) := ⟨fun s a => a ∈ s.items⟩

theorem mem_iff {s : OrderedSet α} {a : α} : a ∈ s ↔ a ∈ s.items := Iff.rfl

/-- `set()`. -/
def empty : OrderedSet α := ⟨[], List.nodup_nil⟩

@[simp] theorem not_mem_empty (a : α) : a ∉ (empty : OrderedSet α) := List.not_mem_nil

variable [DecidableEq α]

instance (a : α) (s : OrderedSet α) : Decidable (a ∈ s) := inferInstanceAs (Decidable (a ∈ s.items))

omit [DecidableEq α] in
theorem nodup_add {s : OrderedSet α} {a : α} (h : a ∉ s.items) : (s.items ++ [a]).Nodup := by
  rw [List.nodup_append]
  refine ⟨s.nodup, List.nodup_singleton a, ?_⟩
  intro b hb c hc heq
  cases List.mem_singleton.mp hc
  exact h (heq ▸ hb)

/-- `s.add(a)`. -/
def add (s : OrderedSet α) (a : α) : OrderedSet α :=
  if h : a ∈ s.items then s else ⟨s.items ++ [a], nodup_add h⟩

@[simp] theorem mem_add {s : OrderedSet α} {a b : α} : b ∈ s.add a ↔ b = a ∨ b ∈ s := by
  unfold add
  split
  · rename_i h
    constructor
    · exact .inr
    · rintro (rfl | hb)
      · exact h
      · exact hb
  · simp only [mem_iff, List.mem_append, List.mem_singleton]
    tauto

theorem nodup_discard (s : OrderedSet α) (a : α) : (s.items.erase a).Nodup := s.nodup.erase a

/-- `s.discard(a)`. -/
def discard (s : OrderedSet α) (a : α) : OrderedSet α := ⟨s.items.erase a, nodup_discard s a⟩

@[simp] theorem mem_discard {s : OrderedSet α} {a b : α} : b ∈ s.discard a ↔ b ∈ s ∧ b ≠ a := by
  simp only [mem_iff, discard, s.nodup.mem_erase_iff]
  tauto

/-- `s.update(items)`. -/
def update (s : OrderedSet α) (items : List α) : OrderedSet α := items.foldl add s

@[simp] theorem mem_update {s : OrderedSet α} {items : List α} {a : α} :
    a ∈ s.update items ↔ a ∈ s ∨ a ∈ items := by
  unfold update
  induction items generalizing s with
  | nil => simp
  | cons b items ih =>
      rw [List.foldl_cons, ih, mem_add, List.mem_cons]
      tauto

end OrderedSet
