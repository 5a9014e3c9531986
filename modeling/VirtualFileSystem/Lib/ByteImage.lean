import Mathlib.Tactic
import Mathlib.Data.List.Basic

/-!
# Flat images

A flat image is a list addressed by position: the contents of a mapped file.  `slice` reads a
range, `splice` overwrites one, and `cell` reads the `i`-th record of a table of fixed width.
Everything a write leaves alone is found by `slice_splice_of_disjoint` and `cell_splice_of_ne`.
-/

namespace FlatImage

variable {α : Type*}

/-- The `n` elements from position `a` on. -/
def slice (l : List α) (a n : ℕ) : List α := (l.drop a).take n

/-- The image with the elements from position `a` on overwritten by `bs`. -/
def splice (l : List α) (a : ℕ) (bs : List α) : List α :=
  l.take a ++ bs ++ l.drop (a + bs.length)

/-- The image with `bs` at position `a`, made longer where it ends before; a gap is filled. -/
def put (fill : α) (l : List α) (a : ℕ) (bs : List α) : List α :=
  l.take a ++ List.replicate (a - l.length) fill ++ bs ++ l.drop (a + bs.length)

/-- Record `i` of a table of records of width `w`. -/
def cell (w : ℕ) (l : List α) (i : ℕ) : List α := slice l (w * i) w

/-! ## Reading -/

theorem length_slice (l : List α) (a n : ℕ) : (slice l a n).length = min n (l.length - a) := by
  simp [slice]

theorem length_slice_of_le {l : List α} {a n : ℕ} (h : a + n ≤ l.length) :
    (slice l a n).length = n := by
  rw [length_slice]; omega

theorem getElem?_slice (l : List α) (a n i : ℕ) :
    (slice l a n)[i]? = if i < n then l[a + i]? else none := by
  unfold slice
  rw [List.getElem?_take]
  split_ifs
  · rw [List.getElem?_drop]
  · rfl

@[simp] theorem slice_zero (l : List α) (a : ℕ) : slice l a 0 = [] := by simp [slice]

theorem mem_of_mem_slice {l : List α} {a n : ℕ} {x : α} (h : x ∈ slice l a n) : x ∈ l :=
  List.mem_of_mem_drop (List.mem_of_mem_take h)

theorem slice_all (l : List α) : slice l 0 l.length = l := by simp [slice]

/-- Two ranges hold the same elements exactly when they agree position by position. -/
theorem slice_eq_slice_iff {l l' : List α} {a b n : ℕ} :
    slice l a n = slice l' b n ↔ ∀ i < n, l[a + i]? = l'[b + i]? := by
  constructor
  · intro h i hi
    have := congrArg (·[i]?) h
    simpa only [getElem?_slice, if_pos hi] using this
  · intro h
    refine List.ext_getElem? fun i => ?_
    simp only [getElem?_slice]
    split_ifs with hi
    · exact h i hi
    · rfl

/-- A range inside a range. -/
theorem slice_slice (l : List α) {a n b m : ℕ} (h : b + m ≤ n) :
    slice (slice l a n) b m = slice l (a + b) m := by
  rw [slice_eq_slice_iff]
  intro i hi
  rw [getElem?_slice, if_pos (by omega), Nat.add_assoc]

theorem slice_append_slice (l : List α) (a n m : ℕ) :
    slice l a n ++ slice l (a + n) m = slice l a (n + m) := by
  unfold slice
  rw [← List.drop_drop, ← List.take_add]

theorem take_slice (l : List α) (a n m : ℕ) : (slice l a n).take m = slice l a (min m n) := by
  unfold slice; rw [List.take_take]

/-! ## Writing -/

theorem length_splice {l : List α} {a : ℕ} {bs : List α} (h : a + bs.length ≤ l.length) :
    (splice l a bs).length = l.length := by
  unfold splice
  simp only [List.length_append, List.length_take, List.length_drop]
  omega

theorem length_splice_take {l : List α} {a n : ℕ} (bs : List α) (h : a + n ≤ l.length) :
    (splice l a (bs.take n)).length = l.length := by
  refine length_splice ?_
  rw [List.length_take]
  omega

theorem getElem?_splice {l : List α} {a : ℕ} {bs : List α} (h : a + bs.length ≤ l.length)
    (i : ℕ) : (splice l a bs)[i]? = if a ≤ i ∧ i < a + bs.length then bs[i - a]? else l[i]? := by
  have ha : (l.take a).length = a := by rw [List.length_take]; omega
  unfold splice
  rw [List.append_assoc]
  split_ifs with hi
  · rw [List.getElem?_append_right (by omega), ha, List.getElem?_append_left (by omega)]
  · by_cases hlt : i < a
    · rw [List.getElem?_append_left (by omega), List.getElem?_take, if_pos hlt]
    · rw [List.getElem?_append_right (by omega), ha, List.getElem?_append_right (by omega),
        List.getElem?_drop, show a + bs.length + (i - a - bs.length) = i by omega]

@[simp] theorem splice_nil (l : List α) (a : ℕ) : splice l a [] = l := by simp [splice]

/-- A write is read back. -/
theorem slice_splice_self {l : List α} {a : ℕ} {bs : List α} (h : a + bs.length ≤ l.length) :
    slice (splice l a bs) a bs.length = bs := by
  refine List.ext_getElem? fun i => ?_
  rw [getElem?_slice]
  split_ifs with hi
  · rw [getElem?_splice h, if_pos (by omega), Nat.add_sub_cancel_left]
  · rw [List.getElem?_eq_none (by omega)]

/-- What stood in the range of a write does not matter. -/
theorem splice_congr {l l' : List α} {a : ℕ} {bs : List α}
    (h : ∀ i, i < a ∨ a + bs.length ≤ i → l[i]? = l'[i]?) : splice l a bs = splice l' a bs := by
  have hfront : l.take a = l'.take a := by
    apply List.ext_getElem?
    intro i
    rw [List.getElem?_take, List.getElem?_take]
    split_ifs with hi
    · exact h i (Or.inl hi)
    · rfl
  have hback : l.drop (a + bs.length) = l'.drop (a + bs.length) := by
    apply List.ext_getElem?
    intro i
    rw [List.getElem?_drop, List.getElem?_drop]
    exact h _ (Or.inr (Nat.le_add_right _ _))
  unfold splice
  rw [hfront, hback]

/-- A write leaves the ranges it does not meet alone. -/
theorem slice_splice_of_disjoint {l : List α} {a : ℕ} {bs : List α}
    (h : a + bs.length ≤ l.length) {b n : ℕ} (hd : b + n ≤ a ∨ a + bs.length ≤ b) :
    slice (splice l a bs) b n = slice l b n := by
  rw [slice_eq_slice_iff]
  intro i hi
  rw [getElem?_splice h, if_neg (by omega)]

/-- A write inside a range is a write in what the range holds. -/
theorem slice_splice_inside {l : List α} {a : ℕ} {bs : List α} (h : a + bs.length ≤ l.length)
    {b n : ℕ} (hb : b ≤ a) (hn : a + bs.length ≤ b + n) (hl : b + n ≤ l.length) :
    slice (splice l a bs) b n = splice (slice l b n) (a - b) bs := by
  have hlen : (a - b) + bs.length ≤ (slice l b n).length := by
    rw [length_slice_of_le hl]; omega
  refine List.ext_getElem? fun i => ?_
  rw [getElem?_slice, getElem?_splice hlen, getElem?_splice h, getElem?_slice]
  by_cases hi : i < n
  · rw [if_pos hi, if_pos hi]
    by_cases hin : a ≤ b + i ∧ b + i < a + bs.length
    · rw [if_pos hin, if_pos (by omega), show b + i - a = i - (a - b) by omega]
    · rw [if_neg hin, if_neg (by omega)]
  · rw [if_neg hi, if_neg (by omega), if_neg hi]

/-! ## Writing past the end -/

theorem length_put (fill : α) (l : List α) (a : ℕ) (bs : List α) :
    (put fill l a bs).length = max l.length (a + bs.length) := by
  unfold put
  simp only [List.length_append, List.length_take, List.length_replicate, List.length_drop]
  omega

theorem getElem?_put (fill : α) (l : List α) (a : ℕ) (bs : List α) (i : ℕ) :
    (put fill l a bs)[i]? =
      if a ≤ i ∧ i < a + bs.length then bs[i - a]?
      else if l.length ≤ i ∧ i < a then some fill else l[i]? := by
  have ha : (l.take a ++ List.replicate (a - l.length) fill).length = a := by
    rw [List.length_append, List.length_take, List.length_replicate]
    omega
  unfold put
  rw [List.append_assoc]
  by_cases hia : i < a
  · rw [if_neg (by omega), List.getElem?_append_left (by omega)]
    by_cases hil : i < l.length
    · rw [if_neg (by omega), List.getElem?_append_left (by rw [List.length_take]; omega),
        List.getElem?_take, if_pos hia]
    · rw [if_pos ⟨by omega, hia⟩,
        List.getElem?_append_right (by rw [List.length_take]; omega), List.getElem?_replicate,
        if_pos (by rw [List.length_take]; omega)]
  · rw [List.getElem?_append_right (by omega), ha]
    by_cases hib : i < a + bs.length
    · rw [if_pos (by omega), List.getElem?_append_left (by omega)]
    · rw [if_neg (by omega), if_neg (by omega), List.getElem?_append_right (by omega),
        List.getElem?_drop, show a + bs.length + (i - a - bs.length) = i by omega]

/-! ## Tables of records -/

theorem length_cell {w : ℕ} {l : List α} {i : ℕ} (h : w * i + w ≤ l.length) :
    (cell w l i).length = w := length_slice_of_le h

/-- A write inside one record leaves the others alone. -/
theorem cell_splice_of_ne {w : ℕ} {l : List α} {i j o : ℕ} {bs : List α}
    (ho : o + bs.length ≤ w) (hl : w * i + w ≤ l.length) (hij : j ≠ i) :
    cell w (splice l (w * i + o) bs) j = cell w l j := by
  unfold cell
  refine slice_splice_of_disjoint (by omega) ?_
  rcases Nat.lt_or_gt_of_ne hij with h | h
  · left
    have : w * (j + 1) ≤ w * i := Nat.mul_le_mul_left w h
    rw [Nat.mul_add, Nat.mul_one] at this
    omega
  · right
    have : w * (i + 1) ≤ w * j := Nat.mul_le_mul_left w h
    rw [Nat.mul_add, Nat.mul_one] at this
    omega

/-- A write inside one record is a write in what the record holds. -/
theorem cell_splice_self {w : ℕ} {l : List α} {i o : ℕ} {bs : List α}
    (ho : o + bs.length ≤ w) (hl : w * i + w ≤ l.length) :
    cell w (splice l (w * i + o) bs) i = splice (cell w l i) o bs := by
  unfold cell
  rw [slice_splice_inside (by omega) (by omega) (by omega) hl, Nat.add_sub_cancel_left]

/-- A record is decided by the elements of its range. -/
theorem cell_congr {w : ℕ} {l l' : List α} {i : ℕ}
    (h : ∀ x, w * i ≤ x → x < w * i + w → l[x]? = l'[x]?) : cell w l i = cell w l' i := by
  unfold cell
  rw [slice_eq_slice_iff]
  intro x hx
  exact h _ (Nat.le_add_right _ _) (by omega)

/-- The cells determine the image. -/
theorem eq_of_cell_eq {w : ℕ} (hw : 0 < w) {l l' : List α} (h : ∀ i, cell w l i = cell w l' i) :
    l = l' := by
  apply List.ext_getElem?
  intro x
  have hx := Nat.mod_lt x hw
  have hcell := congrArg (·[x % w]?) (h (x / w))
  simp only [cell, getElem?_slice, if_pos hx, Nat.div_add_mod] at hcell
  exact hcell

end FlatImage
