import Mathlib.Tactic
import VirtualFileSystem.Lib.ByteImage

/-!
# Extents and their compaction in place

An extent is a range of an image.  `slide e l` moves the extents of `l` to the left in the order of
the list, each to the end of its predecessor unless it starts before that; `e` is the end of the
predecessor of the first.  `slideImage` moves the bytes along, one extent at a time.

An empty extent may start before the end of its predecessor, and then pulls the next one with it.
`Roomy e l` says that no empty extent does so in front of a non-empty one.  It decides everything:
if it holds, the non-empty extents end up packed with their bytes, and otherwise two of them
overlap.
-/

/-- A range of an image. -/
structure Extent where
  start : ℕ
  len : ℕ

namespace Extent

def stop (x : Extent) : ℕ := x.start + x.len

/-- The extents share no position. -/
def Apart (x y : Extent) : Prop := 0 < x.len → 0 < y.len → x.stop ≤ y.start ∨ y.stop ≤ x.start

/-- The first extent starts before the second and, if they are not empty, ends before it. -/
def Before (x y : Extent) : Prop := x.start ≤ y.start ∧ (0 < x.len → 0 < y.len → x.stop ≤ y.start)

instance (x y : Extent) : Decidable (Apart x y) := by unfold Apart; infer_instance
instance (x y : Extent) : Decidable (Before x y) := by unfold Before; infer_instance

theorem Apart.symm {x y : Extent} (h : Apart x y) : Apart y x := fun hy hx => (h hx hy).symm

end Extent

namespace Extents

open Extent FlatImage

variable {α : Type} {e : ℕ} {x y : Extent} {l xs : List Extent} {m : List α}

/-! ## Definitions -/

/-- The sum of the lengths. -/
def total (l : List Extent) : ℕ := (l.map len).sum

/-- The non-empty extents start at `e` or later. -/
def Above (e : ℕ) (l : List Extent) : Prop := ∀ x ∈ l, 0 < x.len → e ≤ x.start

/-- The non-empty extents end inside an image of `n` elements. -/
def Inside (n : ℕ) (l : List Extent) : Prop := ∀ x ∈ l, 0 < x.len → x.stop ≤ n

/-- The element `i` of the image lies in none of the extents. -/
def Free (i : ℕ) (l : List Extent) : Prop := ∀ x ∈ l, i < x.start ∨ x.stop ≤ i

instance (i : ℕ) (l : List Extent) : Decidable (Free i l) := by unfold Free; infer_instance

/-- The non-empty extents lie side by side from `e` on. -/
def Packed : ℕ → List Extent → Prop
  | _, [] => True
  | e, x :: xs => (0 < x.len → x.start = e) ∧ Packed (e + x.len) xs

instance decidablePacked : ∀ (e : ℕ) (l : List Extent), Decidable (Packed e l)
  | _, [] => .isTrue trivial
  | e, x :: xs =>
    have := decidablePacked (e + x.len) xs
    inferInstanceAs (Decidable ((0 < x.len → x.start = e) ∧ _))

theorem packed_of_append {l l' : List Extent} : ∀ {e : ℕ}, Packed e (l ++ l') → Packed e l := by
  induction l with
  | nil => exact fun _ => trivial
  | cons x l ih => exact fun h => ⟨h.1, ih h.2⟩

/-- No empty extent in front of a non-empty one starts before the extents in front of it would
end if they lay side by side from `e` on. -/
def Roomy : ℕ → List Extent → Prop
  | _, [] => True
  | e, x :: xs => (x.len = 0 → (∃ y ∈ xs, 0 < y.len) → e ≤ x.start) ∧ Roomy (e + x.len) xs

instance decidableRoomy : ∀ (e : ℕ) (l : List Extent), Decidable (Roomy e l)
  | _, [] => .isTrue trivial
  | e, x :: xs =>
    have := decidableRoomy (e + x.len) xs
    inferInstanceAs (Decidable ((x.len = 0 → (∃ y ∈ xs, 0 < y.len) → e ≤ x.start) ∧ _))

/-- Each extent moved to the end of its predecessor, unless it starts before that. -/
def slide : ℕ → List Extent → List Extent
  | _, [] => []
  | e, x :: xs => ⟨min x.start e, x.len⟩ :: slide (min x.start e + x.len) xs

/-- The image after the moves, each a copy of the bytes as they are at that time. -/
def slideImage : ℕ → List Extent → List α → List α
  | _, [], m => m
  | e, x :: xs, m => slideImage (min x.start e + x.len) xs
      (if e < x.start then splice m e (slice m x.start x.len) else m)

/-- The new start of the first non-empty extent that moves. -/
def firstMoved : ℕ → List Extent → Option ℕ
  | _, [] => none
  | e, x :: xs => if e < x.start ∧ 0 < x.len then some e else firstMoved (min x.start e + x.len) xs

/-! ## Basic facts -/

@[simp] theorem total_nil : total [] = 0 := rfl
@[simp] theorem total_cons (x : Extent) (l : List Extent) : total (x :: l) = x.len + total l := rfl

@[simp] theorem total_append (l l' : List Extent) : total (l ++ l') = total l + total l' := by
  simp [total]

section Cons

variable (xs) (m)

theorem slide_cons_of_lt (h : e < x.start) :
    slide e (x :: xs) = ⟨e, x.len⟩ :: slide (e + x.len) xs := by
  simp only [slide, min_eq_right h.le]

theorem slide_cons_of_le (h : x.start ≤ e) : slide e (x :: xs) = x :: slide x.stop xs := by
  simp only [slide, min_eq_left h]
  rfl

theorem slideImage_cons_of_lt (h : e < x.start) : slideImage e (x :: xs) m =
    slideImage (e + x.len) xs (splice m e (slice m x.start x.len)) := by
  simp only [slideImage, min_eq_right h.le, if_pos h]

theorem slideImage_cons_of_le (h : x.start ≤ e) :
    slideImage e (x :: xs) m = slideImage x.stop xs m := by
  simp only [slideImage, min_eq_left h, if_neg h.not_gt]
  rfl

theorem firstMoved_cons_of_lt (h : e < x.start) (hx : 0 < x.len) :
    firstMoved e (x :: xs) = some e := if_pos ⟨h, hx⟩

theorem firstMoved_cons_of_empty (h : e < x.start) (hx : x.len = 0) :
    firstMoved e (x :: xs) = firstMoved (e + x.len) xs := by
  simp only [firstMoved, min_eq_right h.le]
  exact if_neg fun h' => h'.2.ne' hx

theorem firstMoved_cons_of_le (h : x.start ≤ e) :
    firstMoved e (x :: xs) = firstMoved x.stop xs := by
  simp only [firstMoved, min_eq_left h]
  exact if_neg fun h' => h'.1.not_ge h

end Cons

theorem map_len_slide : ∀ (l : List Extent) (e : ℕ), (slide e l).map len = l.map len := by
  intro l
  induction l with
  | nil => intro e; rfl
  | cons x xs ih =>
    intro e
    simp only [slide, List.map_cons, ih]

@[simp] theorem total_slide (e : ℕ) (l : List Extent) : total (slide e l) = total l := by
  unfold total
  rw [map_len_slide]

/-- A moved extent starts no later than before. -/
theorem slide_le : ∀ (l : List Extent) (e : ℕ),
    List.Forall₂ (fun x y => y.start ≤ x.start ∧ y.len = x.len) l (slide e l) := by
  intro l
  induction l with
  | nil => intro e; exact List.Forall₂.nil
  | cons x xs ih =>
    intro e
    exact List.Forall₂.cons ⟨min_le_left _ _, rfl⟩ (ih _)

/-- A slid extent starts at the end of the others at the latest. -/
theorem slide_start_le : ∀ (l : List Extent) (e : ℕ), ∀ y ∈ slide e l, y.start ≤ e + total l := by
  intro l
  induction l with
  | nil => intro e y hy; cases hy
  | cons x xs ih =>
    intro e y hy
    rw [total_cons]
    rcases List.mem_cons.mp hy with rfl | hy
    · exact (min_le_right _ _).trans (Nat.le_add_right _ _)
    · have := ih _ y hy
      omega

theorem slide_ge : ∀ (l : List Extent) (e b : ℕ), b ≤ e → (∀ x ∈ l, b ≤ x.start) →
    ∀ y ∈ slide e l, b ≤ y.start := by
  intro l
  induction l with
  | nil => intro e b _ _ y hy; cases hy
  | cons x xs ih =>
    intro e b hb hl y hy
    have hx := hl x List.mem_cons_self
    rcases List.mem_cons.mp hy with rfl | hy
    · exact le_min hx hb
    · exact ih _ b (by omega) (fun z hz => hl z (List.mem_cons_of_mem _ hz)) y hy

/-- Sliding keeps the order of the starts. -/
theorem slide_sorted : ∀ (l : List Extent) (e : ℕ), l.Pairwise (fun x y => x.start ≤ y.start) →
    (slide e l).Pairwise fun x y => x.start ≤ y.start := by
  intro l
  induction l with
  | nil => intro e _; exact List.Pairwise.nil
  | cons x xs ih =>
    intro e hl
    obtain ⟨hx, hxs⟩ := List.pairwise_cons.mp hl
    refine List.pairwise_cons.mpr ⟨fun y hy => ?_, ih _ hxs⟩
    exact slide_ge xs _ (min x.start e) (Nat.le_add_right _ _)
      (fun z hz => (min_le_left _ _).trans (hx z hz)) y hy

theorem above_tail (hl : (x :: xs).Pairwise Before) (ha : Above e (x :: xs)) :
    Above (e + x.len) xs := by
  intro y hy h0
  obtain ⟨hxy, -⟩ := List.pairwise_cons.mp hl
  obtain ⟨-, h2⟩ := hxy y hy
  rcases Nat.eq_zero_or_pos x.len with hx | hx
  · rw [hx]
    exact ha y (List.mem_cons_of_mem _ hy) h0
  · have h1 := ha x List.mem_cons_self hx
    have := h2 hx h0
    unfold stop at this
    omega

/-- Extents in order that do not overlap fill no more than the space they lie in. -/
theorem total_le_of_inside {n : ℕ} : ∀ {l : List Extent} {e : ℕ}, l.Pairwise Before →
    Above e l → Inside n l → e ≤ n → e + total l ≤ n := by
  intro l
  induction l with
  | nil => intro e _ _ _ he; simpa using he
  | cons x xs ih =>
    intro e hl ha hin he
    have htail := above_tail hl ha
    have hx : e + x.len ≤ n := by
      rcases Nat.eq_zero_or_pos x.len with h0 | h0
      · omega
      · have h1 := ha x List.mem_cons_self h0
        have h2 := hin x List.mem_cons_self h0
        unfold stop at h2
        omega
    have := ih (List.pairwise_cons.mp hl).2 htail
      (fun y hy => hin y (List.mem_cons_of_mem _ hy)) hx
    rw [total_cons]
    omega

/-- What moves first has bytes, so it ends within the packed extents. -/
theorem firstMoved_lt : ∀ {l : List Extent} {e h : ℕ}, firstMoved e l = some h →
    h < e + total l := by
  intro l
  induction l with
  | nil =>
    intro e h hf
    cases hf
  | cons x xs ih =>
    intro e h hf
    rw [total_cons]
    simp only [firstMoved] at hf
    split_ifs at hf with hc
    · obtain rfl := Option.some.inj hf
      omega
    · have := ih hf
      omega

theorem packed_of_empty : ∀ (l : List Extent) (e : ℕ), (∀ x ∈ l, x.len = 0) → Packed e l := by
  intro l
  induction l with
  | nil => intro e _; trivial
  | cons x xs ih =>
    intro e h
    refine ⟨fun h0 => ?_, ih _ fun y hy => h y (List.mem_cons_of_mem _ hy)⟩
    have := h x List.mem_cons_self
    omega

/-- Empty extents behind all others leave room. -/
theorem roomy_of_ranked : ∀ (l : List Extent) (e : ℕ),
    (l.Pairwise fun x y => 0 < y.len → 0 < x.len) → Roomy e l := by
  intro l
  induction l with
  | nil => exact fun _ _ => trivial
  | cons x xs ih =>
    intro e hl
    obtain ⟨hx, hxs⟩ := List.pairwise_cons.mp hl
    refine ⟨?_, ih _ hxs⟩
    rintro h0 ⟨y, hy, hpos⟩
    exact absurd (hx y hy hpos) h0.not_gt

theorem roomy_of_empty (l : List Extent) (e : ℕ) (h : ∀ x ∈ l, x.len = 0) : Roomy e l :=
  roomy_of_ranked l e (List.pairwise_of_forall_mem_list fun _ _ y hy h0 => by
    have := h y hy
    omega)

theorem Roomy.of_append : ∀ {l l' : List Extent} {e : ℕ}, Roomy e (l ++ l') → Roomy e l := by
  intro l
  induction l with
  | nil => intro l' e _; trivial
  | cons x xs ih =>
    intro l' e h
    refine ⟨fun h0 hex => h.1 h0 ?_, ih h.2⟩
    obtain ⟨y, hy, hy0⟩ := hex
    exact ⟨y, List.mem_append_left _ hy, hy0⟩

theorem slide_empty (l : List Extent) (e : ℕ) (h : ∀ x ∈ l, x.len = 0) :
    ∀ x ∈ slide e l, x.len = 0 := by
  intro x hx
  have : x.len ∈ (slide e l).map len := List.mem_map_of_mem hx
  rw [map_len_slide] at this
  obtain ⟨y, hy, hyx⟩ := List.mem_map.mp this
  exact hyx.symm.trans (h y hy)

theorem slideImage_empty : ∀ (l : List Extent) (e : ℕ) (m : List α), (∀ x ∈ l, x.len = 0) →
    slideImage e l m = m := by
  intro l
  induction l with
  | nil => intro e m _; rfl
  | cons x xs ih =>
    intro e m h
    have hx := h x List.mem_cons_self
    simp only [slideImage, hx, slice_zero, splice_nil, ite_self]
    exact ih _ _ fun y hy => h y (List.mem_cons_of_mem _ hy)

/-- Without a non-empty extent left, the rest is empty. -/
theorem firstMoved_empty : ∀ (l : List Extent) (e : ℕ), (∀ x ∈ l, x.len = 0) →
    firstMoved e l = none := by
  intro l
  induction l with
  | nil => exact fun _ _ => rfl
  | cons x xs ih =>
    intro e h
    have hx := h x List.mem_cons_self
    unfold firstMoved
    rw [if_neg (by omega)]
    exact ih _ fun y hy => h y (List.mem_cons_of_mem _ hy)

/-- Empty extents at the end are moved without a trace. -/
theorem slideImage_append_empty {l' : List Extent} (h : ∀ x ∈ l', x.len = 0) :
    ∀ (l : List Extent) (e : ℕ) (m : List α), slideImage e (l ++ l') m = slideImage e l m := by
  intro l
  induction l with
  | nil => exact fun e m => slideImage_empty l' e m h
  | cons x xs ih => exact fun e m => ih _ _

theorem firstMoved_append_empty {l' : List Extent} (h : ∀ x ∈ l', x.len = 0) :
    ∀ (l : List Extent) (e : ℕ), firstMoved e (l ++ l') = firstMoved e l := by
  intro l
  induction l with
  | nil => exact fun e => firstMoved_empty l' e h
  | cons x xs ih =>
    intro e
    rw [List.cons_append]
    unfold firstMoved
    rw [ih]

theorem empty_of_not_exists (h : ¬ ∃ y ∈ xs, 0 < y.len) : ∀ y ∈ xs, y.len = 0 := by
  intro y hy
  by_contra h0
  exact h ⟨y, hy, Nat.pos_of_ne_zero h0⟩

/-! ## Packed extents -/

theorem Packed.above : ∀ {l : List Extent} {e : ℕ}, Packed e l → Above e l := by
  intro l
  induction l with
  | nil => intro e _ x hx; cases hx
  | cons x xs ih =>
    intro e hp y hy h0
    rcases List.mem_cons.mp hy with rfl | hy
    · exact (hp.1 h0).ge
    · exact (Nat.le_add_right _ _).trans (ih hp.2 y hy h0)

theorem Packed.inside : ∀ {l : List Extent} {e : ℕ}, Packed e l → Inside (e + total l) l := by
  intro l
  induction l with
  | nil => intro e _ x hx; cases hx
  | cons x xs ih =>
    intro e hp y hy h0
    rw [total_cons]
    rcases List.mem_cons.mp hy with rfl | hy
    · unfold stop
      rw [hp.1 h0]
      omega
    · have := ih hp.2 y hy h0
      omega

/-- Extents in order are packed if and only if they end within the sum of their lengths. -/
theorem packed_iff_inside : ∀ {l : List Extent} {e : ℕ}, l.Pairwise Before → Above e l →
    (Packed e l ↔ Inside (e + total l) l) := by
  intro l
  induction l with
  | nil => exact fun _ _ => iff_of_true trivial fun x hx => by cases hx
  | cons x xs ih =>
    intro e hl ha
    refine ⟨Packed.inside, fun hin => ?_⟩
    obtain ⟨hx, hxs⟩ := List.pairwise_cons.mp hl
    rw [total_cons] at hin
    refine ⟨fun h0 => ?_, (ih hxs (above_tail hl ha)).mpr fun y hy => ?_⟩
    · -- from the start of the first one on there is room for all
      have hstart : Above x.start (x :: xs) := by
        intro y hy _
        rcases List.mem_cons.mp hy with rfl | hy
        · exact le_rfl
        · exact (hx y hy).1
      have hle := ha x List.mem_cons_self h0
      have hstop := hin x List.mem_cons_self h0
      unfold stop at hstop
      have := total_le_of_inside hl hstart hin (by omega)
      rw [total_cons] at this
      omega
    · rw [Nat.add_assoc]
      exact hin y (List.mem_cons_of_mem _ hy)

/-- Packed extents follow each other. -/
theorem Packed.pairwise : ∀ {l : List Extent} {e : ℕ}, Packed e l →
    l.Pairwise fun x y => 0 < x.len → 0 < y.len → x.stop ≤ y.start := by
  intro l
  induction l with
  | nil => intro e _; exact List.Pairwise.nil
  | cons x xs ih =>
    intro e hp
    refine List.pairwise_cons.mpr ⟨fun y hy hx h0 => ?_, ih hp.2⟩
    have := hp.2.above y hy h0
    unfold stop
    rw [hp.1 hx]
    exact this

/-- Every position from `e` to the end of packed extents lies in one of them. -/
theorem Packed.covers : ∀ {l : List Extent} {e : ℕ}, Packed e l → ∀ i, e ≤ i → i < e + total l →
    ∃ x ∈ l, 0 < x.len ∧ x.start ≤ i ∧ i < x.stop := by
  intro l
  induction l with
  | nil => intro e _ i h1 h2; simp at h2; omega
  | cons x xs ih =>
    intro e hp i h1 h2
    rw [total_cons] at h2
    by_cases hi : i < e + x.len
    · have hx : 0 < x.len := by omega
      refine ⟨x, List.mem_cons_self, hx, ?_, ?_⟩ <;> unfold stop at * <;> rw [hp.1 hx] <;> omega
    · obtain ⟨y, hy, h⟩ := ih hp.2 i (by omega) (by omega)
      exact ⟨y, List.mem_cons_of_mem _ hy, h⟩

/-! ## With room -/

/-- In a packed list a non-empty extent starts behind all before it. -/
theorem Packed.start_eq : ∀ {A B : List Extent} {e : ℕ}, Packed e (A ++ x :: B) → 0 < x.len →
    x.start = e + total A := by
  intro A
  induction A with
  | nil => exact fun h hx => h.1 hx
  | cons y ys ih =>
    intro B e h hx
    rw [ih h.2 hx, total_cons]
    omega

/-- A list of non-empty extents slides onto itself if and only if nothing is moved. -/
theorem firstMoved_eq_none_iff : ∀ {l : List Extent} {e : ℕ}, (∀ x ∈ l, 0 < x.len) →
    (firstMoved e l = none ↔ slide e l = l) := by
  intro l
  induction l with
  | nil => exact fun _ => iff_of_true rfl rfl
  | cons x xs ih =>
    intro e hpos
    by_cases hlt : e < x.start
    · rw [firstMoved_cons_of_lt xs hlt (hpos x List.mem_cons_self), slide_cons_of_lt xs hlt]
      refine iff_of_false (Option.some_ne_none e) fun h => ?_
      have hstart : e = x.start := congrArg start (List.cons.inj h).1
      omega
    · have hle := Nat.le_of_not_lt hlt
      rw [firstMoved_cons_of_le xs hle, slide_cons_of_le xs hle,
        ih fun y hy => hpos y (List.mem_cons_of_mem x hy)]
      simp

/-- With room, nothing moves if and only if the extents are packed already. -/
theorem firstMoved_eq_none_iff_packed : ∀ {l : List Extent} {e : ℕ}, l.Pairwise Before →
    Above e l → Roomy e l → (firstMoved e l = none ↔ Packed e l) := by
  intro l
  induction l with
  | nil => exact fun _ _ _ => iff_of_true rfl trivial
  | cons x xs ih =>
    intro e hl ha hr
    have htail := ih (List.pairwise_cons.mp hl).2 (above_tail hl ha) hr.2
    rcases Nat.eq_zero_or_pos x.len with hx | hx
    · by_cases hxs : ∃ y ∈ xs, 0 < y.len
      · have hmin := min_eq_right (hr.1 hx hxs)
        simp only [firstMoved, Packed, hmin, hx, lt_irrefl, and_false, if_false, false_imp_iff,
          true_and]
        rwa [hx] at htail
      · -- nothing has bytes
        have hempty : ∀ y ∈ x :: xs, y.len = 0 :=
          List.forall_mem_cons.mpr ⟨hx, empty_of_not_exists hxs⟩
        exact iff_of_true (firstMoved_empty _ e hempty) (packed_of_empty _ e hempty)
    · have he := ha x List.mem_cons_self hx
      by_cases hlt : e < x.start
      · rw [firstMoved_cons_of_lt xs hlt hx]
        exact iff_of_false (Option.some_ne_none e) fun h => hlt.ne' (h.1 hx)
      · obtain rfl : x.start = e := by omega
        rw [firstMoved_cons_of_le xs le_rfl]
        exact htail.trans ⟨fun h => ⟨fun _ => rfl, h⟩, fun h => h.2⟩

/-- The first move goes to the first free element. -/
theorem firstMoved_spec : ∀ {l : List Extent} {e h : ℕ}, l.Pairwise Before → Above e l →
    Roomy e l → firstMoved e l = some h → e ≤ h ∧ Free h l ∧ ∀ i, e ≤ i → i < h → ¬ Free i l := by
  intro l
  induction l with
  | nil =>
    intro e h _ _ _ hf
    cases hf
  | cons x xs ih =>
    intro e h hl ha hr hf
    have htail := @ih (e + x.len) h (List.pairwise_cons.mp hl).2 (above_tail hl ha) hr.2
    rcases Nat.eq_zero_or_pos x.len with hx | hx
    · by_cases hxs : ∃ y ∈ xs, 0 < y.len
      · have hmin := min_eq_right (hr.1 hx hxs)
        simp only [firstMoved, hx, lt_irrefl, and_false, if_false, hmin] at hf
        obtain ⟨hle, hfree, hcov⟩ := htail (by rwa [hx])
        rw [hx, add_zero] at hle hcov
        refine ⟨hle, List.forall_mem_cons.mpr ⟨?_, hfree⟩, fun i h1 h2 hi => ?_⟩
        · unfold stop
          omega
        · exact hcov i h1 h2 (List.forall_mem_cons.mp hi).2
      · rw [firstMoved_empty _ e (List.forall_mem_cons.mpr ⟨hx, empty_of_not_exists hxs⟩)] at hf
        cases hf
    · have he := ha x List.mem_cons_self hx
      by_cases hlt : e < x.start
      · -- all others start behind `x`
        rw [firstMoved_cons_of_lt xs hlt hx] at hf
        obtain rfl := Option.some.inj hf
        refine ⟨le_rfl, List.forall_mem_cons.mpr ⟨Or.inl hlt, fun y hy => Or.inl ?_⟩,
          fun i h1 h2 => by omega⟩
        exact hlt.trans_le ((List.pairwise_cons.mp hl).1 y hy).1
      · obtain rfl : x.start = e := by omega
        rw [firstMoved_cons_of_le xs le_rfl] at hf
        obtain ⟨hle, hfree, hcov⟩ := htail hf
        refine ⟨by omega, List.forall_mem_cons.mpr ⟨Or.inr hle, hfree⟩, fun i h1 h2 hi => ?_⟩
        obtain ⟨hix, hi⟩ := List.forall_mem_cons.mp hi
        unfold stop at hix
        exact hcov i (by omega) h2 hi

theorem firstMoved_lt_iff {h n : ℕ} (hl : l.Pairwise Before) (ha : Above 0 l) (hr : Roomy 0 l)
    (hf : firstMoved 0 l = some h) : h < n ↔ ∃ i < n, Free i l := by
  obtain ⟨-, hfree, hcov⟩ := firstMoved_spec hl ha hr hf
  refine ⟨fun hlt => ⟨h, hlt, hfree⟩, ?_⟩
  rintro ⟨i, hi, hif⟩
  by_contra hge
  exact hcov i (Nat.zero_le i) (by omega) hif

/-- Ordered extents with room end up packed. -/
theorem slide_packed : ∀ (l : List Extent) (e : ℕ), l.Pairwise Before → Above e l → Roomy e l →
    Packed e (slide e l) := by
  intro l
  induction l with
  | nil => intro e _ _ _; trivial
  | cons x xs ih =>
    intro e hl ha hr
    by_cases hlast : ∃ y ∈ x :: xs, 0 < y.len
    · have hmin : min x.start e = e ∨ ¬ ∃ y ∈ xs, 0 < y.len := by
        rcases Nat.eq_zero_or_pos x.len with hx | hx
        · by_cases hxs : ∃ y ∈ xs, 0 < y.len
          · exact Or.inl (min_eq_right (hr.1 hx hxs))
          · exact Or.inr hxs
        · exact Or.inl (min_eq_right (ha x List.mem_cons_self hx))
      rcases hmin with hmin | hxs
      · simp only [slide, hmin]
        exact ⟨fun _ => rfl,
          ih (e + x.len) (List.pairwise_cons.mp hl).2 (above_tail hl ha) hr.2⟩
      · -- only empty extents follow `x`, which is not empty itself
        have hempty := empty_of_not_exists hxs
        obtain ⟨y, hy, h0⟩ := hlast
        have hx : 0 < x.len := by
          rcases List.mem_cons.mp hy with rfl | hy
          · exact h0
          · exact absurd (hempty y hy) h0.ne'
        have hmin := min_eq_right (ha x List.mem_cons_self hx)
        simp only [slide, hmin]
        exact ⟨fun _ => rfl, packed_of_empty _ _ (slide_empty xs _ hempty)⟩
    · exact packed_of_empty _ _ (slide_empty _ _ (empty_of_not_exists hlast))

/-- One move of a non-empty extent: its bytes arrive, and nothing outside its new place changes. -/
theorem move_spec (he : e ≤ x.start) (hx : x.stop ≤ m.length) :
    (if e < x.start then splice m e (slice m x.start x.len) else m).length = m.length ∧
    slice (if e < x.start then splice m e (slice m x.start x.len) else m) e x.len =
      slice m x.start x.len ∧
    ∀ i, (i < e ∨ e + x.len ≤ i) →
      (if e < x.start then splice m e (slice m x.start x.len) else m)[i]? = m[i]? := by
  unfold stop at hx
  have hlen : (slice m x.start x.len).length = x.len := length_slice_of_le hx
  by_cases h : e < x.start
  · rw [if_pos h]
    refine ⟨length_splice (by omega), ?_, fun i hi => ?_⟩
    · have := @slice_splice_self _ m e (slice m x.start x.len) (by omega)
      rwa [hlen] at this
    · rw [getElem?_splice (by omega), if_neg (by omega)]
  · obtain rfl : e = x.start := by omega
    rw [if_neg h]
    exact ⟨rfl, rfl, fun _ _ => rfl⟩

/-- With room, sliding keeps the length of the image and every position before `e`, before the
first move, and behind the packed extents; the bytes of every extent arrive at its new place. -/
theorem slideImage_spec : ∀ (l : List Extent) (e : ℕ) (m : List α), l.Pairwise Before →
    Above e l → Roomy e l → Inside m.length l →
    (slideImage e l m).length = m.length ∧
    (∀ i, (i < e ∨ e + total l ≤ i ∨ ∀ h, firstMoved e l = some h → i < h) →
      (slideImage e l m)[i]? = m[i]?) ∧
    List.Forall₂ (fun x y => 0 < x.len →
      slice (slideImage e l m) y.start x.len = slice m x.start x.len) l (slide e l) := by
  intro l
  induction l with
  | nil => intro e m _ _ _ _; exact ⟨rfl, fun _ _ => rfl, List.Forall₂.nil⟩
  | cons x xs ih =>
    intro e m hl ha hr hin
    by_cases hsome : ∃ y ∈ x :: xs, 0 < y.len
    · -- `x` moves to `e`, with its bytes if it has any
      obtain ⟨m₁, hmin, hm₁, hlen₁, hself, hframe, hfirst⟩ : ∃ m₁ : List α, min x.start e = e ∧
          (if e < x.start then splice m e (slice m x.start x.len) else m) = m₁ ∧
          m₁.length = m.length ∧ slice m₁ e x.len = slice m x.start x.len ∧
          (∀ i, (i < e ∨ e + x.len ≤ i) → m₁[i]? = m[i]?) ∧
          (¬ (e < x.start ∧ 0 < x.len) → m₁ = m) := by
        rcases Nat.eq_zero_or_pos x.len with hx | hx
        · obtain ⟨y, hy, h0⟩ := hsome
          have hxs : ∃ y ∈ xs, 0 < y.len := by
            rcases List.mem_cons.mp hy with rfl | hy
            · omega
            · exact ⟨y, hy, h0⟩
          refine ⟨m, min_eq_right (hr.1 hx hxs), ?_, rfl, ?_, fun _ _ => rfl, fun _ => rfl⟩
          · rw [hx, slice_zero, splice_nil, ite_self]
          · rw [hx, slice_zero, slice_zero]
        · have he := ha x List.mem_cons_self hx
          obtain ⟨h1, h2, h3⟩ := move_spec he (hin x List.mem_cons_self hx)
          exact ⟨_, min_eq_right he, rfl, h1, h2, h3, fun h => if_neg fun h' => h ⟨h', hx⟩⟩
      have ha' := above_tail hl ha
      have hxs := (List.pairwise_cons.mp hl).2
      obtain ⟨h1, h2, h3⟩ := ih (e + x.len) m₁ hxs ha' hr.2 (by
        rw [hlen₁]
        exact fun y hy => hin y (List.mem_cons_of_mem _ hy))
      simp only [slideImage, slide, firstMoved, hmin, hm₁]
      refine ⟨h1.trans hlen₁, fun i hi => ?_, List.Forall₂.cons (fun _ => ?_) ?_⟩
      · rcases hi with hi | hi | hi
        · exact (h2 i (Or.inl (by omega))).trans (hframe i (Or.inl hi))
        · rw [total_cons] at hi
          exact (h2 i (Or.inr (Or.inl (by omega)))).trans (hframe i (Or.inr (by omega)))
        · by_cases hmv : e < x.start ∧ 0 < x.len
          · have hie : i < e := hi e (if_pos hmv)
            exact (h2 i (Or.inl (by omega))).trans (hframe i (Or.inl hie))
          · rw [if_neg hmv] at hi
            rw [h2 i (Or.inr (Or.inr hi)), hfirst hmv]
      · -- what follows leaves the new place of `x` alone
        rw [← hself, slice_eq_slice_iff]
        exact fun i hi => h2 _ (Or.inl (show e + i < e + x.len by omega))
      · refine ((List.forall₂_and_left (p := fun y => y ∈ xs) _ _).mpr ⟨fun _ h => h, h3⟩).imp ?_
        rintro y y' ⟨hy, h⟩ h0
        rw [h h0, slice_eq_slice_iff]
        have := ha' y hy h0
        exact fun i _ => hframe _ (Or.inr (by omega))
    · have hempty := empty_of_not_exists hsome
      rw [slideImage_empty _ _ _ hempty]
      refine ⟨rfl, fun _ _ => rfl, ?_⟩
      refine ((List.forall₂_and_left (p := fun y : Extent => y.len = 0) _ _).mpr
        ⟨hempty, slide_le (x :: xs) e⟩).imp ?_
      rintro y y' ⟨hy, -⟩ h0
      omega

/-! ## Without room -/

/-- Behind a position `e'` the first non-empty extent is pulled to `e'` or before. -/
theorem exists_pulled : ∀ (l : List Extent) (e : ℕ), (∃ x ∈ l, 0 < x.len) →
    ∃ y ∈ slide e l, 0 < y.len ∧ y.start ≤ e := by
  intro l
  induction l with
  | nil =>
    rintro e ⟨x, hx, -⟩
    cases hx
  | cons x xs ih =>
    rintro e ⟨y, hy, h0⟩
    rcases Nat.eq_zero_or_pos x.len with hx | hx
    · have hyx : y ∈ xs := by
        rcases List.mem_cons.mp hy with rfl | hy
        · omega
        · exact hy
      obtain ⟨z, hz, hz0, hze⟩ := ih (min x.start e + x.len) ⟨y, hyx, h0⟩
      refine ⟨z, List.mem_cons_of_mem _ hz, hz0, ?_⟩
      omega
    · exact ⟨_, List.mem_cons_self, hx, min_le_right _ _⟩

/-- Without room an extent is pulled onto one in front of it. -/
theorem overlap_of_not_roomy : ∀ (l : List Extent) (e : ℕ) (pre : List Extent),
    l.Pairwise Before → Above e l → ¬ Roomy e l →
    (∀ i < e, ∃ x ∈ pre, 0 < x.len ∧ x.start ≤ i ∧ i < x.stop) →
    ¬ (pre ++ slide e l).Pairwise Apart := by
  intro l
  induction l with
  | nil => intro e pre _ _ hr; exact absurd trivial hr
  | cons x xs ih =>
    intro e pre hl ha hr hcov hpair
    obtain ⟨-, hxs⟩ := List.pairwise_cons.mp hl
    by_cases hx : x.len = 0 ∧ (∃ y ∈ xs, 0 < y.len) ∧ x.start < e
    · -- the next non-empty extent follows `x` to a place in front of `e`
      obtain ⟨hx0, hsome, hlt⟩ := hx
      obtain ⟨y, hy, hy0, hye⟩ := exists_pulled xs (min x.start e + x.len) hsome
      obtain ⟨z, hz, hz0, hz1, hz2⟩ := hcov y.start (by omega)
      have hyl : y ∈ slide e (x :: xs) := List.mem_cons_of_mem _ hy
      have := (List.pairwise_append.mp hpair).2.2 z hz y hyl hz0 hy0
      unfold stop at this hz2
      omega
    · have hmin : x.len = 0 → (∃ y ∈ xs, 0 < y.len) → e ≤ x.start := fun h1 h2 => by
        by_contra h3
        exact hx ⟨h1, h2, by omega⟩
      have hr' : ¬ Roomy (e + x.len) xs := fun h => hr ⟨hmin, h⟩
      have hsome : ∃ y ∈ xs, 0 < y.len := by
        by_contra hno
        exact hr' (roomy_of_empty _ _ (empty_of_not_exists hno))
      have he : min x.start e = e := by
        rcases Nat.eq_zero_or_pos x.len with hx0 | hx0
        · exact min_eq_right (hmin hx0 hsome)
        · exact min_eq_right (ha x List.mem_cons_self hx0)
      refine ih (e + x.len) (pre ++ [⟨e, x.len⟩]) hxs (above_tail hl ha) hr' (fun i hi => ?_) ?_
      · by_cases hie : i < e
        · obtain ⟨z, hz, h⟩ := hcov i hie
          exact ⟨z, List.mem_append_left _ hz, h⟩
        · refine ⟨⟨e, x.len⟩, by simp, ?_, ?_, ?_⟩
          · show 0 < x.len
            omega
          · show e ≤ i
            omega
          · show i < e + x.len
            omega
      · simp only [slide, he] at hpair
        rw [List.append_assoc]
        exact hpair

end Extents
