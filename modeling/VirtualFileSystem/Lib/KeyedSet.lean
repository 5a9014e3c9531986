import Mathlib.Data.List.Basic
import Mathlib.Data.List.Perm.Basic

/-!
# Elements under keys

A set of elements of which some have a key, where no key stands for two elements: what an array
sorted by a key is for its callers.  An element without a key is held, and never found.
-/

namespace KeyedSet

variable {α κ : Type}

/-- Elements, no two of which have one key. -/
structure Keyed (key : α → Option κ) where
  items : List α
  nodup : items.Nodup
  unique : ∀ a ∈ items, ∀ b ∈ items, ∀ k, key a = some k → key b = some k → a = b

namespace Keyed

variable {key : α → Option κ}

/-- No elements yet. -/
def empty (key : α → Option κ) : Keyed key :=
  ⟨[], List.nodup_nil, fun _ ha => absurd ha List.not_mem_nil⟩

/-- The key of the element is taken. -/
def Taken (a : α) (s : Keyed key) : Prop := ∃ b ∈ s.items, key a ≠ none ∧ key b = key a

variable [DecidableEq κ]

instance (a : α) (s : Keyed key) : Decidable (s.Taken a) := by
  unfold Taken; infer_instance

/-- The element that has the key. -/
def find (k : κ) (s : Keyed key) : Option α := s.items.find? fun a => key a = some k

theorem mem_of_find {k : κ} {a : α} {s : Keyed key} (h : s.find k = some a) :
    a ∈ s.items ∧ key a = some k := by
  have hk := List.find?_some (p := fun a => decide (key a = some k)) h
  exact ⟨List.mem_of_find?_eq_some h, of_decide_eq_true hk⟩

theorem find_of_mem {k : κ} {a : α} {s : Keyed key} (ha : a ∈ s.items) (hk : key a = some k) :
    s.find k = some a := by
  cases hf : s.find k with
  | none => exact absurd (decide_eq_true hk) (List.find?_eq_none.mp hf a ha)
  | some b => rw [s.unique b (mem_of_find hf).1 a ha k (mem_of_find hf).2 hk]

variable [DecidableEq α]

/-- Another element, unless it is there or its key is taken. -/
def insert (a : α) (s : Keyed key) : Option α × Keyed key :=
  if h : a ∉ s.items ∧ ¬ s.Taken a then
    (some a,
      { items := a :: s.items
        nodup := List.nodup_cons.mpr ⟨h.1, s.nodup⟩
        unique := by
          have hfree : ∀ b ∈ s.items, ∀ k, key a = some k → key b ≠ some k := fun b hb k hk hb' =>
            h.2 ⟨b, hb, by rw [hk]; exact Option.some_ne_none k, hb'.trans hk.symm⟩
          intro x hx y hy k hkx hky
          rcases List.mem_cons.mp hx with ha | hx <;> rcases List.mem_cons.mp hy with hb | hy
          · exact ha.trans hb.symm
          · exact absurd hky (hfree y hy k (ha ▸ hkx))
          · exact absurd hkx (hfree x hx k (hb ▸ hky))
          · exact s.unique x hx y hy k hkx hky })
  else (none, s)

/-- The others. -/
def erase (a : α) (s : Keyed key) : Keyed key where
  items := s.items.erase a
  nodup := s.nodup.erase a
  unique x hx y hy := s.unique x (List.mem_of_mem_erase hx) y (List.mem_of_mem_erase hy)

/-- Take out the element that has the key. -/
def remove (k : κ) (s : Keyed key) : Option α × Keyed key :=
  match s.find k with
  | none => (none, s)
  | some a => (some a, s.erase a)

end Keyed

end KeyedSet
