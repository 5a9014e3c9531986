import Mathlib.Tactic

/-!
# Bisection by a three-way comparison

`bisect probe insert fuel l h` is binary search over positions `l, …, h`: `probe m` compares the
sought key with the element at position `m` (negative: go left, positive: go right, zero: equal).
With `insert` it looks for a place to insert and rejects an equal element; without, it looks for
the equal element.  The answer `-1` stands for "no".

`bisect_total` is the interval argument: whatever the comparison says, the search ends within the
given fuel, probes only positions between `l` and `h`, and answers `-1` or a position.
`bisect_sound` says that an answer of a search is a zero of it, and `bisect_of_zero` and
`bisect_of_splits` that a zero, or the place to insert, is found when the comparison is `Signed`:
positive, then at most one zero, then negative.
-/

/-- The search loop.  `none`: the fuel ran out or a probe failed. -/
def bisect (probe : ℕ → Option ℤ) (insert : Bool) : ℕ → ℕ → ℕ → Option ℤ
  | 0, _, _ => none
  | fuel + 1, l, h =>
    let m := (l + h) / 2
    match probe m with
    | none => none
    | some c =>
      if c < 0 then
        if l ≥ m then some (if insert then (m : ℤ) else -1)
        else bisect probe insert fuel l (m - 1)
      else if c > 0 then
        if h ≤ m then some (if insert then (m : ℤ) + 1 else -1)
        else bisect probe insert fuel (m + 1) h
      else some (if insert then -1 else (m : ℤ))

namespace Bisect

/-- The comparison, read from left to right, is positive, then at most once zero, then negative. -/
def Signed (c : ℕ → ℤ) (n : ℕ) : Prop := ∀ i j, i < j → j < n → c i ≤ 0 → c j < 0

/-- A position that splits the comparison: positive before it, negative from it on. -/
structure Splits (c : ℕ → ℤ) (n p : ℕ) : Prop where
  le : p ≤ n
  before : ∀ i < p, 0 < c i
  after : ∀ i, p ≤ i → i < n → c i < 0

variable {probe : ℕ → Option ℤ} {insert : Bool} {c : ℕ → ℤ} {n : ℕ}

/-- The search ends, and answers `-1` or a position in or next to the interval. -/
theorem bisect_total : ∀ (fuel l h : ℕ), l ≤ h → h < fuel + l → (∀ m, l ≤ m → m ≤ h →
    (probe m).isSome) → ∃ r, bisect probe insert fuel l h = some r ∧
      (r = -1 ∨ ((l : ℤ) ≤ r ∧ r ≤ h + 1 ∧ (insert = false → r ≤ h))) := by
  intro fuel
  induction fuel with
  | zero => intro l h hle hf; omega
  | succ fuel ih =>
    intro l h hle hf hp
    obtain ⟨v, hv⟩ := Option.isSome_iff_exists.mp (hp ((l + h) / 2) (by omega) (by omega))
    simp only [bisect, hv]
    by_cases hneg : v < 0
    · rw [if_pos hneg]
      by_cases hl : l ≥ (l + h) / 2
      · rw [if_pos hl]
        cases insert
        · exact ⟨-1, rfl, Or.inl rfl⟩
        · exact ⟨_, rfl, Or.inr ⟨by simp; omega, by simp; omega, by simp⟩⟩
      · rw [if_neg hl]
        obtain ⟨r, hr, hb⟩ := ih l ((l + h) / 2 - 1) (by omega) (by omega)
          (fun m h1 h2 => hp m h1 (by omega))
        refine ⟨r, hr, hb.imp_right fun hb => ⟨hb.1, by omega, fun hi => ?_⟩⟩
        have := hb.2.2 hi
        omega
    · rw [if_neg hneg]
      by_cases hpos : v > 0
      · rw [if_pos hpos]
        by_cases hh : h ≤ (l + h) / 2
        · rw [if_pos hh]
          cases insert
          · exact ⟨-1, rfl, Or.inl rfl⟩
          · exact ⟨_, rfl, Or.inr ⟨by simp; omega, by simp; omega, by simp⟩⟩
        · rw [if_neg hh]
          obtain ⟨r, hr, hb⟩ := ih ((l + h) / 2 + 1) h (by omega) (by omega)
            (fun m h1 h2 => hp m (by omega) h2)
          exact ⟨r, hr, hb.imp_right fun hb => ⟨by omega, by omega, hb.2.2⟩⟩
      · rw [if_neg hpos]
        cases insert
        · exact ⟨_, rfl, Or.inr ⟨by simp; omega, by simp; omega, fun _ => by simp; omega⟩⟩
        · exact ⟨-1, rfl, Or.inl rfl⟩

/-- A search without insertion that answers a position answers one where the comparison is zero. -/
theorem bisect_sound : ∀ (fuel l h : ℕ) {r : ℤ}, bisect probe false fuel l h = some r → 0 ≤ r →
    probe r.toNat = some 0 := by
  intro fuel
  induction fuel with
  | zero => intro l h r hr; cases hr
  | succ fuel ih =>
    intro l h r hr h0
    simp only [bisect] at hr
    cases hv : probe ((l + h) / 2) with
    | none => rw [hv] at hr; cases hr
    | some v =>
      rw [hv] at hr
      simp only [Bool.false_eq_true, if_false] at hr
      split_ifs at hr with h1 h2 h3 h4
      · obtain rfl := Option.some_inj.mp hr
        omega
      · exact ih _ _ hr h0
      · obtain rfl := Option.some_inj.mp hr
        omega
      · exact ih _ _ hr h0
      · obtain rfl := Option.some_inj.mp hr
        rw [Int.toNat_natCast, hv, show v = 0 by omega]

/-- Searching and looking for a place to insert take the same path: where the one finds nothing,
the other finds a place. -/
theorem bisect_insert_of_search : ∀ (fuel l h : ℕ), bisect probe false fuel l h = some (-1) →
    ∃ i : ℕ, bisect probe true fuel l h = some (i : ℤ) := by
  intro fuel
  induction fuel with
  | zero => intro l h hr; cases hr
  | succ fuel ih =>
    intro l h hr
    simp only [bisect] at hr ⊢
    cases hv : probe ((l + h) / 2) with
    | none => rw [hv] at hr; cases hr
    | some v =>
      rw [hv] at hr
      simp only [Bool.false_eq_true, if_false, if_true] at hr ⊢
      split_ifs at hr ⊢ with h1 h2 h3 h4
      · exact ⟨_, rfl⟩
      · exact ih _ _ hr
      · exact ⟨(l + h) / 2 + 1, rfl⟩
      · exact ih _ _ hr
      · have := Option.some_inj.mp hr
        omega

/-- With one zero in the interval and everything around it signed, the search ends there. -/
theorem bisect_of_zero (hs : Signed c n) (hc : ∀ m < n, probe m = some (c m)) {z : ℕ}
    (hz : c z = 0) : ∀ (fuel l h : ℕ), l ≤ z → z ≤ h → h < n → h < fuel + l →
      bisect probe insert fuel l h = some (if insert then -1 else (z : ℤ)) := by
  intro fuel
  induction fuel with
  | zero => intro l h h1 h2 h3 h4; omega
  | succ fuel ih =>
    intro l h h1 h2 h3 h4
    have hm : (l + h) / 2 < n := by omega
    simp only [bisect, hc _ hm]
    rcases Nat.lt_trichotomy ((l + h) / 2) z with hlt | heq | hgt
    · -- left of the zero the comparison is positive
      have hp : 0 < c ((l + h) / 2) := by
        by_contra hcon
        have := hs _ _ hlt (by omega) (by omega)
        omega
      rw [if_neg (by omega), if_pos hp, if_neg (by omega)]
      exact ih _ _ (by omega) h2 h3 (by omega)
    · rw [heq, hz, if_neg (by omega), if_neg (by omega)]
    · -- right of the zero it is negative
      have hn : c ((l + h) / 2) < 0 := hs _ _ hgt hm (by omega)
      rw [if_pos hn, if_neg (by omega)]
      exact ih _ _ h1 (by omega) (by omega) (by omega)

/-- Without a zero, the search closes in on the position that splits the comparison. -/
theorem bisect_of_splits (hc : ∀ m < n, probe m = some (c m)) {p : ℕ} (hp : Splits c n p) :
    ∀ (fuel l h : ℕ), l ≤ p → p ≤ h + 1 → l ≤ h → h < n → h < fuel + l →
      bisect probe insert fuel l h = some (if insert then (p : ℤ) else -1) := by
  intro fuel
  induction fuel with
  | zero => intro l h h1 h2 h3 h4 h5; omega
  | succ fuel ih =>
    intro l h h1 h2 h3 h4 h5
    have hm : (l + h) / 2 < n := by omega
    simp only [bisect, hc _ hm]
    by_cases hlt : (l + h) / 2 < p
    · have hpos := hp.before _ hlt
      rw [if_neg (by omega), if_pos hpos]
      by_cases hh : h ≤ (l + h) / 2
      · rw [if_pos hh, show p = (l + h) / 2 + 1 by omega]
        push_cast
        rfl
      · rw [if_neg hh]
        exact ih _ _ (by omega) h2 (by omega) h4 (by omega)
    · have hneg := hp.after _ (by omega) hm
      rw [if_pos hneg]
      by_cases hl : l ≥ (l + h) / 2
      · rw [if_pos hl, show p = (l + h) / 2 by omega]
      · rw [if_neg hl]
        exact ih _ _ h1 (by omega) (by omega) (by omega) (by omega)

/-- A signed comparison without a zero splits somewhere. -/
theorem exists_splits (hs : Signed c n) (hz : ∀ m < n, c m ≠ 0) : ∃ p, Splits c n p := by
  classical
  by_cases h : ∃ i, i < n ∧ c i < 0
  · refine ⟨Nat.find h, (Nat.find_spec h).1.le, fun i hi => ?_, fun i hi hin => ?_⟩
    · have hin : i < n := hi.trans (Nat.find_spec h).1
      have := Nat.find_min h hi
      have := hz i hin
      omega
    · rcases hi.lt_or_eq with hi | rfl
      · exact hs _ _ hi hin (Nat.find_spec h).2.le
      · exact (Nat.find_spec h).2
  · refine ⟨n, le_rfl, fun i hi => ?_, fun i hi hin => by omega⟩
    have := hz i hi
    by_contra hcon
    exact h ⟨i, hi, by omega⟩

end Bisect
