import Mathlib.Tactic
import Mathlib.Logic.Function.Basic

/-!
# Hash trees in heap order

A complete binary tree kept in an array: the children of node `n` are `2 n + 1` and `2 n + 2`, the
parent of node `n + 1` is `n / 2`, the first `L` nodes are the inner ones.  Setting
leaves and recomputing what is over them from the bottom up gives one tree, whatever the order.
-/

namespace HashTree

/-- `m` is a proper ancestor of `n`. -/
inductive Over : ℕ → ℕ → Prop
  | parent (n : ℕ) : Over (n / 2) (n + 1)
  | up {m n : ℕ} (h : Over m (n / 2)) : Over m (n + 1)

theorem over_succ {m n : ℕ} : Over m (n + 1) ↔ m = n / 2 ∨ Over m (n / 2) := by
  constructor
  · rintro (_ | h)
    · exact Or.inl rfl
    · exact Or.inr h
  · rintro (rfl | h)
    · exact .parent n
    · exact .up h

theorem not_over_zero {m : ℕ} : ¬ Over m 0 := by rintro ⟨⟩

/-- A node is over its two children. -/
theorem over_children (m : ℕ) : Over m (2 * m + 1) ∧ Over m (2 * m + 2) := by
  constructor
  · exact over_succ.mpr (Or.inl (by omega))
  · exact over_succ.mpr (Or.inl (by omega))

theorem Over.lt {m n : ℕ} (h : Over m n) : m < n := by
  induction h with
  | parent n => omega
  | up h ih => omega

theorem Over.le_half {m n : ℕ} (h : Over m n) : 2 * m + 1 ≤ n := by
  induction h with
  | parent n => omega
  | up h ih => omega

theorem Over.trans {l m n : ℕ} (h1 : Over l m) (h2 : Over m n) : Over l n := by
  induction h2 with
  | parent n => exact .up h1
  | up h ih => exact .up (ih h1)

/-- Every inner node is over a leaf. -/
theorem exists_over_leaf {L n : ℕ} (hn : n < L) : ∃ m, L ≤ m ∧ m ≤ 2 * L ∧ Over n m := by
  induction hd : L - n using Nat.strong_induction_on generalizing n with
  | _ d ih =>
    rcases le_or_gt L (2 * n + 1) with hle | hlt
    · exact ⟨2 * n + 1, hle, by omega, (over_children n).1⟩
    · obtain ⟨m, h1, h2, ho⟩ := ih (L - (2 * n + 1)) (by omega) hlt rfl
      exact ⟨m, h1, h2, (over_children n).1.trans ho⟩

section Inner

variable {β : Type} (combine : β → β → β) (L : ℕ)

/-- The node holds the combination of its children. -/
def NodeOk (f : ℕ → β) (n : ℕ) : Prop := f n = combine (f (2 * n + 1)) (f (2 * n + 2))

/-- Every inner node is right. -/
def Inner (f : ℕ → β) : Prop := ∀ n < L, NodeOk combine f n

variable {combine L} {f g g' h v w : ℕ → β} {S T : Set ℕ} {m n : ℕ}

/-- Two trees agree when every node is equal in both or an inner node that is right in both. -/
theorem eq_of_nodeOk
    (hn : ∀ n, g n = g' n ∨ n < L ∧ NodeOk combine g n ∧ NodeOk combine g' n) : g = g' := by
  have hd : ∀ d n, L - n ≤ d → g n = g' n := by
    intro d
    induction d with
    | zero =>
      intro n hle
      exact (hn n).resolve_right fun h => by omega
    | succ d ih =>
      intro n hle
      rcases hn n with heq | ⟨hlt, h1, h2⟩
      · exact heq
      · calc g n = combine (g (2 * n + 1)) (g (2 * n + 2)) := h1
          _ = combine (g' (2 * n + 1)) (g' (2 * n + 2)) := by
            rw [ih (2 * n + 1) (by omega), ih (2 * n + 2) (by omega)]
          _ = g' n := h2.symm
  funext n
  exact hd _ n le_rfl

/-- Other children of the node combine to the same. -/
def Collides (combine : β → β → β) (f g : ℕ → β) (m : ℕ) : Prop :=
  combine (f (2 * m + 1)) (f (2 * m + 2)) = combine (g (2 * m + 1)) (g (2 * m + 2)) ∧
    (f (2 * m + 1) ≠ g (2 * m + 1) ∨ f (2 * m + 2) ≠ g (2 * m + 2))

/-- **The root binds.**  In two trees with one root, that are both right over a node, the node is
the same, unless children of a node over it collide. -/
theorem eq_or_collides (h0 : f 0 = g 0) : ∀ n, (∀ m, Over m n → NodeOk combine f m) →
    (∀ m, Over m n → NodeOk combine g m) →
    f n = g n ∨ ∃ m, Over m n ∧ Collides combine f g m := by
  intro n
  induction n using Nat.strong_induction_on with
  | _ n ih =>
    intro hf hg
    cases n with
    | zero => exact Or.inl h0
    | succ n =>
      rcases ih (n / 2) (by omega) (fun m hm => hf m (.up hm)) (fun m hm => hg m (.up hm)) with
        heq | ⟨m, hm, hc⟩
      · have h1 : f (n / 2) = _ := hf (n / 2) (.parent n)
        have h2 : g (n / 2) = _ := hg (n / 2) (.parent n)
        have hcombine := (h1.symm.trans heq).trans h2
        by_cases hl : f (2 * (n / 2) + 1) = g (2 * (n / 2) + 1)
        · by_cases hr : f (2 * (n / 2) + 2) = g (2 * (n / 2) + 2)
          · left
            rcases Nat.even_or_odd' n with ⟨c, rfl | rfl⟩
            · rwa [show 2 * c / 2 = c by omega] at hl
            · rwa [show (2 * c + 1) / 2 = c by omega] at hr
          · exact Or.inr ⟨n / 2, .parent n, hcombine, Or.inr hr⟩
        · exact Or.inr ⟨n / 2, .parent n, hcombine, Or.inl hl⟩
      · exact Or.inr ⟨m, .up hm, hc⟩

/-- `g` is `f` with the nodes of `S` set to `v` and every node over one of them recomputed. -/
structure Rebuilt (combine : β → β → β) (v : ℕ → β) (S : Set ℕ) (f g : ℕ → β) : Prop where
  leaf : ∀ n ∈ S, g n = v n
  path : ∀ n ∈ S, ∀ m, Over m n → NodeOk combine g m
  same : ∀ m, m ∉ S → (∀ n ∈ S, ¬ Over m n) → g m = f m

theorem Rebuilt.refl (v f : ℕ → β) : Rebuilt combine v ∅ f f where
  leaf := fun _ hn => absurd hn (Set.notMem_empty _)
  path := fun _ hn => absurd hn (Set.notMem_empty _)
  same := fun _ _ _ => rfl

/-- The root has nothing above it. -/
theorem rebuilt_root (f : ℕ → β) : Rebuilt combine f {0} f f where
  leaf := fun _ _ => rfl
  path := by
    rintro n rfl m hm
    exact absurd hm not_over_zero
  same := fun _ _ _ => rfl

/-- Recomputing the parent of a node and then all that is over the parent. -/
theorem Rebuilt.parent {f₁ : ℕ → β}
    (hf : f₁ = Function.update f (n / 2) (combine (f (2 * (n / 2) + 1)) (f (2 * (n / 2) + 2))))
    (hg : Rebuilt combine f₁ {n / 2} f₁ g) : Rebuilt combine f {n + 1} f g := by
  have hkeep : ∀ m, n / 2 < m → g m = f m := by
    intro m hm
    rw [hg.same m (by simp only [Set.mem_singleton_iff]; omega)
      (fun _ h ho => by have := ho.lt; rw [Set.mem_singleton_iff] at h; omega), hf,
      Function.update_of_ne (by omega)]
  refine ⟨?_, ?_, fun m hm ho => ?_⟩
  · rintro _ rfl
    exact hkeep _ (by omega)
  · rintro _ rfl m hm
    rcases over_succ.mp hm with rfl | hm
    · unfold NodeOk
      rw [hg.leaf _ rfl, hkeep _ (by omega), hkeep _ (by omega), hf, Function.update_self]
    · exact hg.path _ rfl m hm
  · have hm' : ¬ (m = n / 2 ∨ Over m (n / 2)) := fun h => ho _ rfl (over_succ.mpr h)
    push Not at hm'
    rw [hg.same m hm'.1 (fun _ h => by rw [h]; exact hm'.2), hf, Function.update_of_ne hm'.1]

/-- A right inner node stays right when leaves are set and the nodes over them recomputed. -/
theorem Rebuilt.nodeOk (hg : Rebuilt combine v S f g) (hS : ∀ n ∈ S, L ≤ n) (hm : m < L)
    (hok : NodeOk combine f m) : NodeOk combine g m := by
  by_cases hover : ∃ n ∈ S, Over m n
  · obtain ⟨n, hn, ho⟩ := hover
    exact hg.path n hn m ho
  · push Not at hover
    have hchild : ∀ c, Over m c → g c = f c := fun c hc =>
      hg.same c (fun h => hover c h hc) fun n hn ho => hover n hn (hc.trans ho)
    unfold NodeOk
    rw [hg.same m (fun h => absurd (hS m h) (by omega)) hover, hchild _ (over_children m).1,
      hchild _ (over_children m).2]
    exact hok

/-- Setting two sets of leaves one after the other sets their union. -/
theorem Rebuilt.trans (h1 : Rebuilt combine v S f g) (h2 : Rebuilt combine w T g h)
    (hS : ∀ n ∈ S, L ≤ n ∧ n ≤ 2 * L) (hT : ∀ n ∈ T, L ≤ n ∧ n ≤ 2 * L)
    (hvw : ∀ n ∈ S, n ∉ T → v n = w n) : Rebuilt combine w (S ∪ T) f h := by
  have hlow : ∀ n ∈ T, ∀ m, Over m n → m < L := fun n hn m ho => by
    have := ho.le_half
    have := hT n hn
    omega
  refine ⟨fun n hn => ?_, fun n hn m ho => ?_, fun m hm ho => ?_⟩
  · by_cases hnT : n ∈ T
    · exact h2.leaf n hnT
    · have hnS := hn.resolve_right hnT
      rw [h2.same n hnT fun t ht ho => absurd (hlow t ht n ho) (by have := hS n hnS; omega),
        h1.leaf n hnS, hvw n hnS hnT]
  · rcases hn with hn | hn
    · have hm : m < L := by
        have := ho.le_half
        have := hS n hn
        omega
      exact h2.nodeOk (fun t ht => (hT t ht).1) hm (h1.path n hn m ho)
    · exact h2.path n hn m ho
  · rw [h2.same m (fun h => hm (Or.inr h)) fun n hn => ho n (Or.inr hn),
      h1.same m (fun h => hm (Or.inl h)) fun n hn => ho n (Or.inl hn)]

/-- The leaves set and what was there before determine the tree. -/
theorem Rebuilt.unique (h1 : Rebuilt combine v S f g) (h2 : Rebuilt combine v S f g')
    (hS : ∀ n ∈ S, n ≤ 2 * L) : g = g' := by
  refine @eq_of_nodeOk _ combine L _ _ fun n => ?_
  by_cases hn : n ∈ S
  · exact Or.inl ((h1.leaf n hn).trans (h2.leaf n hn).symm)
  · by_cases hover : ∃ s ∈ S, Over n s
    · obtain ⟨s, hs, ho⟩ := hover
      have := ho.le_half
      have := hS s hs
      exact Or.inr ⟨by omega, h1.path s hs n ho, h2.path s hs n ho⟩
    · push Not at hover
      exact Or.inl ((h1.same n hn hover).trans (h2.same n hn hover).symm)

end Inner

end HashTree
