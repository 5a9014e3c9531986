import Mathlib.Tactic

/-!
# Chained sums

Four accumulators over a commutative ring: the first adds up the words, each of the others adds up
the one before it, so that each word is weighted with a binomial coefficient.  A word list with a
fixed front and back is determined at any four consecutive places by the final accumulators: the
coefficients there are unimodular.
-/

namespace ChainedSum

/-- The four accumulators. -/
@[ext]
structure State (R : Type*) where
  a : R
  b : R
  c : R
  d : R

variable {R : Type*} [CommRing R]

/-- One word. -/
def State.step (s : State R) (w : R) : State R where
  a := s.a + w
  b := s.b + (s.a + w)
  c := s.c + (s.b + (s.a + w))
  d := s.d + (s.c + (s.b + (s.a + w)))

/-- A list of words. -/
def run (s : State R) (ws : List R) : State R := ws.foldl State.step s

theorem run_append (s : State R) (ws vs : List R) : run s (ws ++ vs) = run (run s ws) vs :=
  List.foldl_append

/-! ## Closed form -/

/-- The first `n` words, each with the binomial coefficient its distance to the end gives it in the
accumulator `t`. -/
def weighted (t : ℕ) (w : ℕ → R) (n : ℕ) : R :=
  ∑ i ∈ Finset.range n, ((n - 1 - i + t).choose t : R) * w i

theorem weighted_zero (t : ℕ) (w : ℕ → R) : weighted t w 0 = 0 := by simp [weighted]

theorem weighted_first (w : ℕ → R) (n : ℕ) : weighted 0 w (n + 1) = weighted 0 w n + w n := by
  simp [weighted, Finset.sum_range_succ]

/-- An accumulator adds up the one before it: the rule of Pascal at each word. -/
theorem weighted_next (t : ℕ) (w : ℕ → R) (n : ℕ) :
    weighted (t + 1) w (n + 1) = weighted (t + 1) w n + weighted t w (n + 1) := by
  have hpascal : ∀ i ∈ Finset.range n, ((n + 1 - 1 - i + (t + 1)).choose (t + 1) : R) * w i =
      ((n - 1 - i + (t + 1)).choose (t + 1) : R) * w i +
        ((n + 1 - 1 - i + t).choose t : R) * w i := by
    intro i hi
    have hin : i < n := Finset.mem_range.mp hi
    rw [show n + 1 - 1 - i + (t + 1) = (n - 1 - i + (t + 1)) + 1 by omega,
      show n + 1 - 1 - i + t = n - 1 - i + (t + 1) by omega, Nat.choose_succ_succ]
    push_cast
    ring
  unfold weighted
  rw [Finset.sum_range_succ, Finset.sum_congr rfl hpascal, Finset.sum_add_distrib,
    Finset.sum_range_succ (fun i => ((n + 1 - 1 - i + t).choose t : R) * w i)]
  simp
  ring

theorem run_eq_weighted (w : ℕ → R) (n : ℕ) : run ⟨0, 0, 0, 0⟩ ((List.range n).map w) =
    ⟨weighted 0 w n, weighted 1 w n, weighted 2 w n, weighted 3 w n⟩ := by
  induction n with
  | zero => simp [run, weighted_zero]
  | succ n ih =>
    rw [List.range_succ, List.map_append, run_append, ih]
    have h1 := weighted_next 0 w n
    have h2 := weighted_next 1 w n
    have h3 := weighted_next 2 w n
    simp only [weighted_first, zero_add, Nat.reduceAdd] at h1 h2 h3
    rw [h1] at h2
    rw [h2] at h3
    simp only [run, List.map_cons, List.map_nil, List.foldl_cons, List.foldl_nil, State.step,
      weighted_first, h1, h2, h3]

/-! ## Injectivity -/

/-- A step can be undone. -/
theorem step_injective {s t : State R} {w : R} (h : s.step w = t.step w) : s = t := by
  have ha : s.a + w = t.a + w := congrArg State.a h
  have hb : s.b + (s.a + w) = t.b + (t.a + w) := congrArg State.b h
  have hc : s.c + (s.b + (s.a + w)) = t.c + (t.b + (t.a + w)) := congrArg State.c h
  have hd : s.d + (s.c + (s.b + (s.a + w))) = t.d + (t.c + (t.b + (t.a + w))) :=
    congrArg State.d h
  ext
  · linear_combination ha
  · linear_combination hb - ha
  · linear_combination hc - hb
  · linear_combination hd - hc

theorem run_injective (ws : List R) : ∀ {s t : State R}, run s ws = run t ws → s = t := by
  induction ws with
  | nil => exact fun h => h
  | cons w ws ih =>
    intro s t h
    exact step_injective (ih h)

/-- Four words are determined by the states before and after them. -/
theorem run_four {s : State R} {w x y z w' x' y' z' : R}
    (h : run s [w, x, y, z] = run s [w', x', y', z']) : w = w' ∧ x = x' ∧ y = y' ∧ z = z' := by
  have ha := congrArg State.a h
  have hb := congrArg State.b h
  have hc := congrArg State.c h
  have hd := congrArg State.d h
  simp only [run, List.foldl_cons, List.foldl_nil, State.step] at ha hb hc hd
  refine ⟨?_, ?_, ?_, ?_⟩
  · linear_combination -ha + 3 * hb - 3 * hc + hd
  · linear_combination 4 * ha - 11 * hb + 10 * hc - 3 * hd
  · linear_combination -6 * ha + 14 * hb - 11 * hc + 3 * hd
  · linear_combination 4 * ha - 6 * hb + 4 * hc - hd

/-- Four words between a common front and a common back are determined by the final state. -/
theorem run_window {s : State R} {xs ws vs zs : List R} (hw : ws.length = 4) (hv : vs.length = 4)
    (h : run s (xs ++ ws ++ zs) = run s (xs ++ vs ++ zs)) : ws = vs := by
  rw [run_append, run_append, run_append, run_append] at h
  have hmid := run_injective zs h
  match ws, vs, hw, hv with
  | [w, x, y, z], [w', x', y', z'], _, _ =>
    obtain ⟨rfl, rfl, rfl, rfl⟩ := run_four hmid
    rfl

end ChainedSum
