import VirtualFileSystem.Hash
import VirtualFileSystem.Lib.ChainedSum

/-!
# The closed form of `fletcher`

The accumulators of `fletcher` are chained sums modulo `2 ^ 32 - 1`: each word of the padded buffer
counts with a binomial coefficient.  The reduction after every addition keeps the 64-bit sums far
from a wrap, and the bytes of an incomplete last word are hashed as if padded with null bytes.
-/

namespace Vfs

open FlatImage

/-! ## The accumulators -/

section Fletcher

variable {buf : List UInt8} {s : Accum} {w : ℕ}

/-- The accumulators modulo `2 ^ 32 - 1`. -/
def residue (s : Accum) : ChainedSum.State (ZMod maxFileDataLenMinusOne) where
  a := s.a
  b := s.b
  c := s.c
  d := s.d

/-- The accumulators are reduced. -/
structure Reduced (s : Accum) : Prop where
  a : s.a < maxFileDataLenMinusOne
  b : s.b < maxFileDataLenMinusOne
  c : s.c < maxFileDataLenMinusOne
  d : s.d < maxFileDataLenMinusOne

theorem Accum.step_reduced (s : Accum) (w : ℕ) : Reduced (s.step w) :=
  ⟨Nat.mod_lt _ (by decide), Nat.mod_lt _ (by decide), Nat.mod_lt _ (by decide),
    Nat.mod_lt _ (by decide)⟩

theorem word_lt (buf : List UInt8) (i : ℕ) : word buf i < 2 ^ 32 := by
  have h1 := leVal_lt (cell 4 buf i)
  have h2 : (cell 4 buf i).length ≤ 4 := by
    unfold cell
    rw [length_slice]
    exact Nat.min_le_left _ _
  exact h1.trans_le (Nat.pow_le_pow_right (by decide) (by omega))

/-- One step of the loop, without the wrap of its sums. -/
theorem residue_step (hs : Reduced s) (hw : w < 2 ^ 32) :
    residue (s.step w) = (residue s).step (w : ZMod maxFileDataLenMinusOne) := by
  have hadd : ∀ u v : ℕ, u < maxFileDataLenMinusOne → v < 2 ^ 32 →
      ((toU64 (u + v) % maxFileDataLenMinusOne : ℕ) : ZMod maxFileDataLenMinusOne) = u + v := by
    intro u v hu hv
    unfold maxFileDataLenMinusOne at hu
    have : toU64 ((u : ℤ) + v) = u + v := by
      exact_mod_cast toU64_of_lt (n := u + v) (by omega)
    rw [this, ZMod.natCast_mod, Nat.cast_add]
  have hlt : ∀ u : ℕ, u % maxFileDataLenMinusOne < 2 ^ 32 := fun u =>
    (Nat.mod_lt u (by decide)).trans (by decide)
  have ha := hadd s.a w hs.a hw
  have hb := hadd s.b _ hs.b (hlt (toU64 (s.a + w)))
  have hc := hadd s.c _ hs.c (hlt (toU64 (s.b + (toU64 (s.a + w) % maxFileDataLenMinusOne : ℕ))))
  have hd := hadd s.d _ hs.d (hlt (toU64 (s.c +
    (toU64 (s.b + (toU64 (s.a + w) % maxFileDataLenMinusOne : ℕ)) % maxFileDataLenMinusOne : ℕ))))
  rw [ha] at hb
  rw [hb] at hc
  rw [hc] at hd
  unfold residue Accum.step ChainedSum.State.step
  ext
  · exact ha
  · exact hb
  · exact hc
  · exact hd

/-- The words the loop reads, modulo `2 ^ 32 - 1`. -/
def words (buf : List UInt8) (i n : ℕ) : List (ZMod maxFileDataLenMinusOne) :=
  (List.range' i n).map fun j => (word buf j : ZMod maxFileDataLenMinusOne)

theorem fletcherLoop_run (buf : List UInt8) : ∀ (n i : ℕ) (s : Accum), Reduced s →
    residue (fletcherLoop buf i n s) = ChainedSum.run (residue s) (words buf i n) ∧
      Reduced (fletcherLoop buf i n s) := by
  intro n
  induction n with
  | zero => exact fun _ _ hs => ⟨rfl, hs⟩
  | succ n ih =>
    intro i s hs
    obtain ⟨h1, h2⟩ := ih (i + 1) (s.step (word buf i)) (s.step_reduced _)
    refine ⟨?_, h2⟩
    show residue (fletcherLoop buf (i + 1) n (s.step (word buf i))) = _
    rw [h1, residue_step hs (word_lt buf i)]
    rfl

theorem fletcherLoop_succ (buf : List UInt8) : ∀ (n i : ℕ) (s : Accum),
    fletcherLoop buf i (n + 1) s = (fletcherLoop buf i n s).step (word buf (i + n)) := by
  intro n
  induction n with
  | zero => exact fun _ _ => rfl
  | succ n ih =>
    intro i s
    show fletcherLoop buf (i + 1) (n + 1) (s.step (word buf i)) = _
    rw [ih, show i + 1 + n = i + (n + 1) by omega]
    rfl

end Fletcher

/-! ## The padded buffer -/

/-- The buffer with null bytes up to a multiple of four. -/
def padded (buf : List UInt8) : List UInt8 :=
  buf ++ List.replicate ((4 - buf.length % 4) % 4) 0

/-- The number of words hashed. -/
def wordCount (buf : List UInt8) : ℕ := (padded buf).length / 4

/-- The accumulators before word `i`. -/
def accumAt (buf : List UInt8) (i : ℕ) : Accum := fletcherLoop buf 0 i ⟨0, 0, 0, 0⟩

/-- The sums of one iteration fit into 64 bits. -/
def NoWrap (s : Accum) (w : ℕ) : Prop :=
  s.a + w < 2 ^ 64 ∧ s.b + (s.step w).a < 2 ^ 64 ∧ s.c + (s.step w).b < 2 ^ 64 ∧
    s.d + (s.step w).c < 2 ^ 64

/-- What accumulator `t` ends with. -/
def closedForm (t : ℕ) (buf : List UInt8) : ℕ :=
  (∑ i ∈ Finset.range (wordCount buf),
    (wordCount buf - 1 - i + t).choose t * leVal (cell 4 (padded buf) i)) % maxFileDataLenMinusOne

section Padded

variable (buf : List UInt8)

theorem leVal_append_zeros (bs : List UInt8) (n : ℕ) :
    leVal (bs ++ List.replicate n 0) = leVal bs := by
  induction bs with
  | nil =>
    induction n with
    | zero => rfl
    | succ n ih =>
      show (0 : UInt8).toNat + 2 ^ 8 * leVal ([] ++ List.replicate n 0) = _
      rw [ih]
      rfl
  | cons b bs ih =>
    show b.toNat + 2 ^ 8 * leVal (bs ++ List.replicate n 0) = b.toNat + 2 ^ 8 * leVal bs
    rw [ih]

/-- The padding does not change a word. -/
theorem word_append_zeros (n i : ℕ) : word (buf ++ List.replicate n 0) i = word buf i := by
  unfold word cell slice
  rw [List.drop_append, List.take_append, List.drop_replicate, List.take_replicate,
    leVal_append_zeros]

theorem wordCount_eq :
    wordCount buf = if buf.length % 4 = 0 then buf.length / 4 else buf.length / 4 + 1 := by
  unfold wordCount padded
  rw [List.length_append, List.length_replicate]
  split_ifs <;> omega

/-- The loop and the branch behind it hash all words of the padded buffer alike. -/
theorem fletcher_eq_accumAt : fletcher buf =
    le32 (accumAt buf (wordCount buf)).a ++ le32 (accumAt buf (wordCount buf)).b ++
      le32 (accumAt buf (wordCount buf)).c ++ le32 (accumAt buf (wordCount buf)).d := by
  have hlast : (if buf.length % 4 ≠ 0 then
      (accumAt buf (buf.length / 4)).step (word buf (buf.length / 4))
      else accumAt buf (buf.length / 4)) = accumAt buf (wordCount buf) := by
    rw [wordCount_eq]
    by_cases h : buf.length % 4 = 0
    · rw [if_neg (not_not.mpr h), if_pos h]
    · rw [if_pos h, if_neg h, accumAt, accumAt, fletcherLoop_succ, Nat.zero_add]
  rw [← hlast]
  rfl

theorem accumAt_reduced (i : ℕ) : Reduced (accumAt buf i) :=
  (fletcherLoop_run buf i 0 _ ⟨by decide, by decide, by decide, by decide⟩).2

theorem noWrap (i : ℕ) : NoWrap (accumAt buf i) (word buf i) := by
  obtain ⟨ha, hb, hc, hd⟩ := accumAt_reduced buf i
  obtain ⟨ha', hb', hc', -⟩ := (accumAt buf i).step_reduced (word buf i)
  have hw := word_lt buf i
  unfold maxFileDataLenMinusOne at *
  exact ⟨by omega, by omega, by omega, by omega⟩

/-- The accumulators modulo `2 ^ 32 - 1` are the weighted sums of the words. -/
theorem residue_accumAt (n : ℕ) : residue (accumAt buf n) =
    ⟨ChainedSum.weighted 0 (fun i => (word buf i : ZMod maxFileDataLenMinusOne)) n,
      ChainedSum.weighted 1 (fun i => (word buf i : ZMod maxFileDataLenMinusOne)) n,
      ChainedSum.weighted 2 (fun i => (word buf i : ZMod maxFileDataLenMinusOne)) n,
      ChainedSum.weighted 3 (fun i => (word buf i : ZMod maxFileDataLenMinusOne)) n⟩ := by
  rw [← ChainedSum.run_eq_weighted, List.range_eq_range', accumAt,
    (fletcherLoop_run buf n 0 _ ⟨by decide, by decide, by decide, by decide⟩).1]
  unfold residue words
  rw [Nat.cast_zero]

/-- An accumulator whose residue is the weighted sum holds the closed form. -/
theorem closedForm_of_residue {t x : ℕ} (hx : x < maxFileDataLenMinusOne)
    (h : (x : ZMod maxFileDataLenMinusOne) =
      ChainedSum.weighted t (fun i => (word buf i : ZMod maxFileDataLenMinusOne))
        (wordCount buf)) : x = closedForm t buf := by
  have hsum : ((∑ i ∈ Finset.range (wordCount buf),
      (wordCount buf - 1 - i + t).choose t * leVal (cell 4 (padded buf) i) : ℕ) :
        ZMod maxFileDataLenMinusOne) = x := by
    rw [h, ChainedSum.weighted]
    push_cast
    refine Finset.sum_congr rfl fun i _ => ?_
    rw [show leVal (cell 4 (padded buf) i) = word buf i from word_append_zeros buf _ i]
  unfold closedForm
  rw [(ZMod.natCast_eq_natCast_iff' _ _ _).mp hsum, Nat.mod_eq_of_lt hx]

theorem fletcher_eq_closedForm : fletcher buf = le32 (closedForm 0 buf) ++
    le32 (closedForm 1 buf) ++ le32 (closedForm 2 buf) ++ le32 (closedForm 3 buf) := by
  have hr := accumAt_reduced buf (wordCount buf)
  have hres := residue_accumAt buf (wordCount buf)
  rw [fletcher_eq_accumAt,
    closedForm_of_residue buf hr.a (congrArg ChainedSum.State.a hres),
    closedForm_of_residue buf hr.b (congrArg ChainedSum.State.b hres),
    closedForm_of_residue buf hr.c (congrArg ChainedSum.State.c hres),
    closedForm_of_residue buf hr.d (congrArg ChainedSum.State.d hres)]

/-- Null bytes that fill up the last word are the padding. -/
theorem padded_append_zeros {n : ℕ}
    (h : wordCount (buf ++ List.replicate n 0) = wordCount buf) :
    padded (buf ++ List.replicate n 0) = padded buf := by
  rw [wordCount_eq, wordCount_eq, List.length_append, List.length_replicate] at h
  unfold padded
  rw [List.append_assoc, List.replicate_append_replicate, List.length_append,
    List.length_replicate]
  congr 2
  split_ifs at h <;> omega

end Padded

/-- `fletcher` is its closed form on every buffer: no sum wraps on the way, and null bytes that do
not start a word are not seen. -/
theorem fletcher_closed (buf : List UInt8) :
    fletcher buf = le32 (closedForm 0 buf) ++ le32 (closedForm 1 buf) ++
      le32 (closedForm 2 buf) ++ le32 (closedForm 3 buf) ∧
    (∀ i < wordCount buf, NoWrap (accumAt buf i) (word buf i)) ∧
    ∀ n < 4, wordCount (buf ++ List.replicate n 0) = wordCount buf →
      fletcher (buf ++ List.replicate n 0) = fletcher buf := by
  refine ⟨fletcher_eq_closedForm buf, fun i _ => noWrap buf i, fun n _ h => ?_⟩
  have hform : ∀ t, closedForm t (buf ++ List.replicate n 0) = closedForm t buf := by
    intro t
    unfold closedForm
    rw [h, padded_append_zeros buf h]
  rw [fletcher_eq_closedForm, fletcher_eq_closedForm]
  simp only [hform]

/-- One byte and its padding. -/
theorem fletcher_closed_byte : fletcher ([1] ++ List.replicate 3 0) = fletcher [1] :=
  (fletcher_closed [1]).2.2 3 (by decide) (by decide)

example : fletcher ((le32 1000 ++ le32 5361 ++ le32 112 ++ le32 20256).take 13) =
    le32 6505 ++ le32 20339 ++ le32 42534 ++ le32 74090 := by decide

end Vfs
