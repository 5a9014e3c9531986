import VirtualFileSystem.Arr
import Mathlib.Data.List.InsertIdx
import Mathlib.Data.List.Perm.Basic
import Mathlib.Data.List.Nodup

/-!
# The arrays keep their back-pointers

`IdxOk t h l`: every element of `l` stores its own position.  Insertion and removal are
`insertAt` and `List.erase` on the list, keep `IdxOk`, and change nothing in the heap but positions
of the array's kind (`PosOnly`).
-/

namespace Vfs

/-- The records agree in everything but the stored positions. -/
def FileT.Same (f g : FileT) : Prop :=
  f.name = g.name ∧ f.offset = g.offset ∧ f.length = g.length ∧ f.index = g.index

theorem FileT.Same.refl (f : FileT) : f.Same f := ⟨rfl, rfl, rfl, rfl⟩

theorem FileT.Same.trans {f g k : FileT} (h1 : f.Same g) (h2 : g.Same k) : f.Same k :=
  ⟨h1.1.trans h2.1, h1.2.1.trans h2.2.1, h1.2.2.1.trans h2.2.2.1, h1.2.2.2.trans h2.2.2.2⟩

/-- Every element of `l` stores its own position. -/
def IdxOk (t : ArrType) (h : Heap) (l : List Ptr) : Prop :=
  ∀ (i : ℕ) (p : Ptr), l[i]? = some p → (h p).pos t = i

/-- The heaps differ in nothing but stored positions of kind `t`. -/
def PosOnly (t : ArrType) (h h' : Heap) : Prop :=
  ∀ q, h' q = (h q).setPos t ((h' q).pos t)

section PosOnly

variable {t : ArrType} {h h' h'' : Heap}

theorem PosOnly.refl (t : ArrType) (h : Heap) : PosOnly t h h := fun q => by simp

theorem PosOnly.trans (h1 : PosOnly t h h') (h2 : PosOnly t h' h'') : PosOnly t h h'' := by
  intro q
  rw [h2 q, h1 q]
  simp

theorem PosOnly.name (hp : PosOnly t h h') (q : Ptr) : (h' q).name = (h q).name := by
  rw [hp q]; simp

theorem PosOnly.offset (hp : PosOnly t h h') (q : Ptr) : (h' q).offset = (h q).offset := by
  rw [hp q]; simp

theorem PosOnly.length (hp : PosOnly t h h') (q : Ptr) : (h' q).length = (h q).length := by
  rw [hp q]; simp

theorem PosOnly.index (hp : PosOnly t h h') (q : Ptr) : (h' q).index = (h q).index := by
  rw [hp q]; simp

theorem PosOnly.same (hp : PosOnly t h h') (q : Ptr) : (h' q).Same (h q) :=
  ⟨hp.name q, hp.offset q, hp.length q, hp.index q⟩

/-- The positions in the other array are kept. -/
theorem PosOnly.pos_of_ne (hp : PosOnly t h h') {t' : ArrType} (ht : t' ≠ t) (q : Ptr) :
    (h' q).pos t' = (h q).pos t' := by
  rw [hp q]
  cases t <;> cases t' <;> first | rfl | exact absurd rfl ht

theorem posOnly_set (t : ArrType) (h : Heap) (p : Ptr) (v : ℤ) :
    PosOnly t h (h.set p ((h p).setPos t v)) := by
  intro q
  by_cases hq : q = p
  · subst hq; simp
  · rw [Heap.set_of_ne _ _ hq]; simp

theorem IdxOk.congr_pos {l : List Ptr} (hi : IdxOk t h l)
    (hp : ∀ p ∈ l, (h' p).pos t = (h p).pos t) : IdxOk t h' l := by
  intro i p hl
  rw [hp p (List.mem_of_getElem? hl), hi i p hl]

end PosOnly

theorem IdxOk.nodup {t : ArrType} {h : Heap} {l : List Ptr} (hi : IdxOk t h l) : l.Nodup := by
  rw [List.nodup_iff_getElem?_ne_getElem?]
  intro i j hij hj heq
  obtain ⟨p, hp⟩ : ∃ p, l[j]? = some p := ⟨l[j], List.getElem?_eq_getElem hj⟩
  have h1 := hi j p hp
  have h2 := hi i p (heq.trans hp)
  omega

theorem IdxOk.getElem?_pos {t : ArrType} {h : Heap} {l : List Ptr} (hi : IdxOk t h l) {p : Ptr}
    (hp : p ∈ l) : ∃ i : ℕ, (h p).pos t = i ∧ l[i]? = some p := by
  obtain ⟨i, hl⟩ := List.getElem?_of_mem hp
  exact ⟨i, hi i p hl, hl⟩

/-! ## Shifts -/

section Shift

variable {t : ArrType}

theorem shiftStep_fst {d : ℤ} {i j : ℕ} {buf : List Ptr} {h : Heap} {p : Ptr}
    (hp : buf[i]? = some p) : (shiftStep t d i j (buf, h)).1 = buf.set j p := by
  simp [shiftStep, List.getD_eq_getElem?_getD, hp]

theorem shiftStep_snd {d : ℤ} {i j : ℕ} {buf : List Ptr} {h : Heap} {p : Ptr}
    (hp : buf[i]? = some p) :
    (shiftStep t d i j (buf, h)).2 = h.set p ((h p).setPos t ((h p).pos t + d)) := by
  simp [shiftStep, List.getD_eq_getElem?_getD, hp]

/-- What a shift by `d` of the segment from `a` to `b` leaves in the heap. -/
structure Shifted (t : ArrType) (d : ℤ) (a b : ℕ) (buf : List Ptr) (h h' : Heap) : Prop where
  posOnly : PosOnly t h h'
  inside : ∀ i p, a ≤ i → i < b → buf[i]? = some p → (h' p).pos t = i + d
  outside : ∀ q, (∀ i, a ≤ i → i < b → buf[i]? ≠ some q) → h' q = h q

/-- Shifting the element at `k` first, and then the rest of the segment. -/
theorem Shifted.cons {d : ℤ} {a b a' b' k : ℕ} {buf buf' : List Ptr} {p : Ptr}
    (hseg : ∀ i, a' ≤ i ∧ i < b' ↔ (a ≤ i ∧ i < b) ∧ i ≠ k) (hk : a ≤ k ∧ k < b)
    (hset : ∀ i, a' ≤ i → i < b' → buf'[i]? = buf[i]?) (hp : buf[k]? = some p)
    (hpos : (h p).pos t = (k : ℤ)) (hne : ∀ i q, a' ≤ i → i < b' → buf[i]? = some q → q ≠ p)
    (hsh : Shifted t d a' b' buf' (h.set p ((h p).setPos t ((h p).pos t + d))) h') :
    Shifted t d a b buf h h' := by
  refine ⟨(posOnly_set t h p _).trans hsh.posOnly, fun i q h1 h2 hq => ?_, fun q hq => ?_⟩
  · by_cases hi : i = k
    · subst hi
      obtain rfl : q = p := Option.some_inj.mp (hq.symm.trans hp)
      rw [hsh.outside q (fun i h1 h2 hi => ?_)]
      · simp [hpos]
      · rw [hset i h1 h2] at hi
        exact hne i q h1 h2 hi rfl
    · obtain ⟨h3, h4⟩ := (hseg i).mpr ⟨⟨h1, h2⟩, hi⟩
      exact hsh.inside i q h3 h4 (by rwa [hset i h3 h4])
  · rw [hsh.outside q (fun i h1 h2 hi => ?_)]
    · refine Heap.set_of_ne _ _ ?_
      rintro rfl
      exact hq k hk.1 hk.2 hp
    · rw [hset i h1 h2] at hi
      obtain ⟨⟨h3, h4⟩, -⟩ := (hseg i).mp ⟨h1, h2⟩
      exact hq i h3 h4 hi

/-- The right shift moves each element of the segment one slot up. -/
theorem rshiftLoop_spec (start : ℕ) : ∀ (n : ℕ) (buf : List Ptr) (h : Heap),
    start + n < buf.length →
    (∀ i p, start ≤ i → i < start + n → buf[i]? = some p → (h p).pos t = i) →
    (rshiftLoop t start n (buf, h)).1.length = buf.length ∧
    (∀ j, (rshiftLoop t start n (buf, h)).1[j]? =
      if start < j ∧ j ≤ start + n then buf[j - 1]? else buf[j]?) ∧
    Shifted t 1 start (start + n) buf h (rshiftLoop t start n (buf, h)).2 := by
  intro n
  induction n with
  | zero =>
    intro buf h _ _
    refine ⟨rfl, fun j => ?_, PosOnly.refl t h, fun i p h1 h2 => by omega, fun q _ => rfl⟩
    rw [if_neg (by omega)]
    rfl
  | succ n ih =>
    intro buf h hlen hpos
    obtain ⟨p, hp⟩ : ∃ p, buf[start + n]? = some p :=
      ⟨_, List.getElem?_eq_getElem (by omega)⟩
    have hpp := hpos _ _ (by omega) (by omega) hp
    have hset : ∀ j, j ≠ start + n + 1 → (buf.set (start + n + 1) p)[j]? = buf[j]? :=
      fun j hj => List.getElem?_set_ne (Ne.symm hj)
    have hne : ∀ i q, start ≤ i → i < start + n → buf[i]? = some q → q ≠ p := by
      rintro i q h1 h2 hq rfl
      have := hpos i _ h1 (by omega) hq
      omega
    have hih := ih (buf.set (start + n + 1) p) (h.set p ((h p).setPos t ((h p).pos t + 1)))
      (by rw [List.length_set]; omega) (by
        intro i q h1 h2 hq
        rw [hset i (by omega)] at hq
        rw [Heap.set_of_ne _ _ (hne i q h1 h2 hq)]
        exact hpos i q h1 (by omega) hq)
    have hunf : rshiftLoop t start (n + 1) (buf, h) =
        rshiftLoop t start n (buf.set (start + n + 1) p,
          h.set p ((h p).setPos t ((h p).pos t + 1))) := by
      rw [rshiftLoop, ← shiftStep_fst (t := t) (d := 1) (h := h) hp, ← shiftStep_snd hp]
    rw [hunf]
    obtain ⟨hl, hget, hsh⟩ := hih
    refine ⟨by rw [hl, List.length_set], fun j => ?_, Shifted.cons (k := start + n)
      (fun i => by omega) (by omega) (fun i h1 h2 => hset i (by omega)) hp hpp hne hsh⟩
    rw [hget]
    by_cases hj : j = start + n + 1
    · subst hj
      rw [if_neg (by omega), if_pos (by omega), List.getElem?_set_self (by omega), ← hp]
      rfl
    · by_cases hin : start < j ∧ j ≤ start + n
      · rw [if_pos hin, if_pos (by omega), hset _ (by omega)]
      · rw [if_neg hin, if_neg (by omega), hset _ hj]

/-- The left shift moves each element of the segment one slot down. -/
theorem lshiftLoop_spec : ∀ (n start : ℕ) (buf : List Ptr) (h : Heap),
    0 < start → start + n ≤ buf.length →
    (∀ i p, start ≤ i → i < start + n → buf[i]? = some p → (h p).pos t = i) →
    (lshiftLoop t start n (buf, h)).1.length = buf.length ∧
    (∀ j, (lshiftLoop t start n (buf, h)).1[j]? =
      if start ≤ j + 1 ∧ j + 1 < start + n then buf[j + 1]? else buf[j]?) ∧
    Shifted t (-1) start (start + n) buf h (lshiftLoop t start n (buf, h)).2 := by
  intro n
  induction n with
  | zero =>
    intro start buf h _ _ _
    refine ⟨rfl, fun j => ?_, PosOnly.refl t h, fun i p h1 h2 => by omega, fun q _ => rfl⟩
    rw [if_neg (by omega)]
    rfl
  | succ n ih =>
    intro start buf h h0 hlen hpos
    obtain ⟨p, hp⟩ : ∃ p, buf[start]? = some p := ⟨_, List.getElem?_eq_getElem (by omega)⟩
    have hpp := hpos _ _ le_rfl (by omega) hp
    have hset : ∀ j, j ≠ start - 1 → (buf.set (start - 1) p)[j]? = buf[j]? :=
      fun j hj => List.getElem?_set_ne (Ne.symm hj)
    have hne : ∀ i q, start + 1 ≤ i → i < start + 1 + n → buf[i]? = some q → q ≠ p := by
      rintro i q h1 h2 hq rfl
      have := hpos i _ (by omega) (by omega) hq
      omega
    have hih := ih (start + 1) (buf.set (start - 1) p)
      (h.set p ((h p).setPos t ((h p).pos t + -1))) (by omega) (by rw [List.length_set]; omega) (by
        intro i q h1 h2 hq
        rw [hset i (by omega)] at hq
        rw [Heap.set_of_ne _ _ (hne i q h1 h2 hq)]
        exact hpos i q (by omega) (by omega) hq)
    have hunf : lshiftLoop t start (n + 1) (buf, h) =
        lshiftLoop t (start + 1) n (buf.set (start - 1) p,
          h.set p ((h p).setPos t ((h p).pos t + -1))) := by
      rw [lshiftLoop, ← shiftStep_fst (t := t) (d := -1) (h := h) hp, ← shiftStep_snd hp]
    rw [hunf]
    obtain ⟨hl, hget, hsh⟩ := hih
    refine ⟨by rw [hl, List.length_set], fun j => ?_, Shifted.cons (k := start)
      (fun i => by omega) (by omega) (fun i h1 h2 => hset i (by omega)) hp hpp hne hsh⟩
    rw [hget]
    by_cases hj : j + 1 = start
    · rw [if_neg (by omega), if_pos (by omega), show j = start - 1 by omega,
        List.getElem?_set_self (by omega), ← hp, show start - 1 + 1 = start by omega]
    · by_cases hin : start + 1 ≤ j + 1 ∧ j + 1 < start + 1 + n
      · rw [if_pos hin, if_pos (by omega), hset _ (by omega)]
      · rw [if_neg hin, if_neg (by omega), hset _ (by omega)]

end Shift

/-! ## Insertion and removal -/

/-- `l` with `p` put at position `i`. -/
def insertAt (l : List Ptr) (i : ℕ) (p : Ptr) : List Ptr := l.take i ++ p :: l.drop i

theorem insertAt_perm (l : List Ptr) (i : ℕ) (p : Ptr) : (insertAt l i p).Perm (p :: l) := by
  unfold insertAt
  calc (l.take i ++ p :: l.drop i).Perm (p :: (l.take i ++ l.drop i)) := List.perm_middle
    _ = p :: l := by rw [List.take_append_drop]

theorem mem_insertAt {l : List Ptr} {i : ℕ} {p q : Ptr} :
    q ∈ insertAt l i p ↔ q = p ∨ q ∈ l := by
  rw [(insertAt_perm l i p).mem_iff, List.mem_cons]

theorem getElem?_insertAt {l : List Ptr} {i : ℕ} {p : Ptr} (hi : i ≤ l.length) (j : ℕ) :
    (insertAt l i p)[j]? = if j < i then l[j]? else if j = i then some p else l[j - 1]? := by
  have hlen : (l.take i).length = i := by rw [List.length_take]; omega
  unfold insertAt
  rcases Nat.lt_trichotomy j i with h | h | h
  · rw [if_pos h, List.getElem?_append_left (by omega), List.getElem?_take, if_pos h]
  · subst h
    rw [if_neg (by omega), if_pos rfl, List.getElem?_append_right (by omega), hlen, Nat.sub_self,
      List.getElem?_cons_zero]
  · obtain ⟨k, rfl⟩ : ∃ k, j = i + (k + 1) := ⟨j - i - 1, by omega⟩
    rw [if_neg (by omega), if_neg (by omega), List.getElem?_append_right (by omega), hlen,
      Nat.add_sub_cancel_left, List.getElem?_cons_succ, List.getElem?_drop]
    rfl

/-- What inserting `p` at position `i` leaves. -/
structure Inserted (i : ℕ) (p : Ptr) (arr : Arr) (h : Heap) (arr' : Arr) (h' : Heap) : Prop where
  le : i ≤ arr.list.length
  arr_eq : arr' = { arr with list := insertAt arr.list i p }
  posOnly : PosOnly arr.type h h'
  idxOk : IdxOk arr.type h' arr'.list
  outside : ∀ q ∉ arr'.list, h' q = h q

/-- The buffer and the heap once the elements from `i` on have been shifted up, if there are any. -/
theorem insertShift_spec {i : ℕ} {arr : Arr} {h : Heap} (hi : i ≤ arr.list.length)
    (hok : IdxOk arr.type h arr.list) :
    ∃ buf h₁, (if (i : ℤ) < arr.size then arrRshift arr.type i (arr.size - 1) (arr.list ++ [0], h)
        else (arr.list ++ [0], h)) = (buf, h₁) ∧ buf.length = arr.list.length + 1 ∧
      (∀ j, buf[j]? = if i < j ∧ j ≤ arr.list.length then arr.list[j - 1]?
        else (arr.list ++ [0])[j]?) ∧
      Shifted arr.type 1 i arr.list.length (arr.list ++ [0]) h h₁ := by
  have hsize : arr.size = arr.list.length := rfl
  by_cases hlt : (i : ℤ) < arr.size
  · rw [if_pos hlt]
    have hn : i + (arr.list.length - i) = arr.list.length := by omega
    have hspec := rshiftLoop_spec (t := arr.type) i (arr.list.length - i) (arr.list ++ [0]) h
      (by simp; omega) (by
        intro j q h1 h2 hq
        rw [List.getElem?_append_left (by omega)] at hq
        exact hok j q hq)
    rw [hn] at hspec
    obtain ⟨hl, hg, hs⟩ := hspec
    refine ⟨(rshiftLoop arr.type i (arr.list.length - i) (arr.list ++ [0], h)).1, _, ?_, ?_,
      fun j => ?_, hs⟩
    · rw [arrRshift, show arr.size - 1 + 1 - i = arr.list.length - i by omega]
    · rw [hl, List.length_append]
      rfl
    · rw [hg]
      split_ifs with hj
      · rw [List.getElem?_append_left (by omega)]
      · rfl
  · rw [if_neg hlt]
    refine ⟨_, _, rfl, by simp, fun j => ?_, PosOnly.refl _ _, fun j q h1 h2 => by omega,
      fun q _ => rfl⟩
    rw [if_neg (by omega)]

theorem arrInsert_spec {i : ℕ} {p : Ptr} {arr : Arr} {h : Heap} (hi : i ≤ arr.list.length)
    (hcap : arr.list.length < arr.capacity) (hok : IdxOk arr.type h arr.list)
    (hp : p ∉ arr.list) :
    ∃ arr' h', arrInsert i p arr h = .ok (arr', h') ∧ Inserted i p arr h arr' h' := by
  have hstart : (i : ℤ).toNat = i := rfl
  have hsize : arr.size = arr.list.length := rfl
  obtain ⟨buf, h₁, hst, hlen, hget, hsh⟩ := insertShift_spec hi hok
  refine ⟨{ arr with list := buf.set i p }, h₁.set p ((h₁ p).setPos arr.type i), ?_, ?_⟩
  · unfold arrInsert
    rw [Run.assert_of (by omega), Run.assert_of (by omega)]
    simp only [Run.ok_bind, hstart, hst]
    rfl
  have hlist : buf.set i p = insertAt arr.list i p := by
    refine List.ext_getElem? fun j => ?_
    rw [getElem?_insertAt hi]
    rcases Nat.lt_trichotomy j i with hj | hj | hj
    · rw [List.getElem?_set_ne (by omega), hget, if_neg (by omega), if_pos hj,
        List.getElem?_append_left (by omega)]
    · subst hj
      rw [List.getElem?_set_self (by omega), if_neg (by omega), if_pos rfl]
    · rw [List.getElem?_set_ne (by omega), hget, if_neg (show ¬ j < i by omega),
        if_neg (show ¬ j = i by omega)]
      by_cases hjl : j ≤ arr.list.length
      · rw [if_pos ⟨hj, hjl⟩]
      · rw [if_neg (by omega), List.getElem?_eq_none (by simp; omega),
          List.getElem?_eq_none (by omega)]
  refine ⟨hi, by rw [hlist], hsh.posOnly.trans (posOnly_set _ _ _ _), ?_, ?_⟩
  · -- every element of the new list stores its position
    show IdxOk arr.type _ (buf.set i p)
    rw [hlist]
    intro j q hq
    rw [getElem?_insertAt hi] at hq
    have hbuf : ∀ k : ℕ, arr.list[k]? = some q → (arr.list ++ [0])[k]? = some q := by
      intro k hk
      rwa [List.getElem?_append_left (List.getElem?_eq_some_iff.mp hk).1]
    have hqp : ∀ k : ℕ, arr.list[k]? = some q → q ≠ p := by
      rintro k hk rfl
      exact hp (List.mem_of_getElem? hk)
    by_cases h1 : j < i
    · rw [if_pos h1] at hq
      rw [Heap.set_of_ne _ _ (hqp j hq), hsh.outside q]
      · exact hok j q hq
      · intro k hk1 hk2 hk
        rw [List.getElem?_append_left hk2] at hk
        have := hok k q hk
        have := hok j q hq
        omega
    · rw [if_neg h1] at hq
      by_cases h2 : j = i
      · rw [if_pos h2] at hq
        obtain rfl := Option.some_inj.mp hq
        simp [h2]
      · rw [if_neg h2] at hq
        have hlt := (List.getElem?_eq_some_iff.mp hq).1
        rw [Heap.set_of_ne _ _ (hqp _ hq), hsh.inside (j - 1) q (by omega) hlt (hbuf _ hq)]
        omega
  · intro q hq
    have hq' : q ∉ insertAt arr.list i p := by rwa [← hlist]
    rw [mem_insertAt, not_or] at hq'
    rw [Heap.set_of_ne _ _ hq'.1]
    refine hsh.outside q fun k h1 h2 hk => hq'.2 ?_
    rw [List.getElem?_append_left h2] at hk
    exact List.mem_of_getElem? hk

/-- What removing `p` leaves. -/
structure Removed (p : Ptr) (arr : Arr) (h : Heap) (arr' : Arr) (h' : Heap) : Prop where
  mem : p ∈ arr.list
  arr_eq : arr' = { arr with list := arr.list.erase p }
  posOnly : PosOnly arr.type h h'
  idxOk : IdxOk arr.type h' arr'.list
  pos_eq : (h' p).pos arr.type = -1
  outside : ∀ q ∉ arr.list, h' q = h q

theorem erase_eq_take_drop {l : List Ptr} (hl : l.Nodup) {i : ℕ} {p : Ptr}
    (hp : l[i]? = some p) : l.erase p = l.take i ++ l.drop (i + 1) := by
  obtain ⟨hi, rfl⟩ := List.getElem?_eq_some_iff.mp hp
  rw [hl.erase_getElem, List.eraseIdx_eq_take_drop_succ]

/-- The buffer and the heap once the elements behind `i` have been shifted down, if there are
any. -/
theorem removeShift_spec {i : ℕ} {arr : Arr} {h : Heap} (hi : i < arr.list.length)
    (hok : IdxOk arr.type h arr.list) :
    ∃ buf h₁, (if (i : ℤ) < (arr.size : ℤ) - 1 then
        arrLshift arr.type (i + 1) (arr.size - 1) (arr.list, h) else (arr.list, h)) = (buf, h₁) ∧
      buf.length = arr.list.length ∧
      (∀ j, buf[j]? = if i ≤ j ∧ j + 1 < arr.list.length then arr.list[j + 1]?
        else arr.list[j]?) ∧
      Shifted arr.type (-1) (i + 1) arr.list.length arr.list h h₁ := by
  have hsize : arr.size = arr.list.length := rfl
  by_cases hlt : (i : ℤ) < (arr.size : ℤ) - 1
  · rw [if_pos hlt]
    have hn : i + 1 + (arr.list.length - (i + 1)) = arr.list.length := by omega
    have hspec := lshiftLoop_spec (t := arr.type) (arr.list.length - (i + 1)) (i + 1) arr.list h
      (by omega) (by omega) (fun j q _ _ hq => hok j q hq)
    rw [hn] at hspec
    obtain ⟨hl, hg, hs⟩ := hspec
    refine ⟨(lshiftLoop arr.type (i + 1) (arr.list.length - (i + 1)) (arr.list, h)).1, _, ?_, hl,
      fun j => ?_, hs⟩
    · rw [arrLshift, show arr.size - 1 + 1 - (i + 1) = arr.list.length - (i + 1) by omega]
    · rw [hg]
      by_cases hj : i ≤ j ∧ j + 1 < arr.list.length
      · rw [if_pos hj, if_pos (by omega)]
      · rw [if_neg hj, if_neg (by omega)]
  · rw [if_neg hlt]
    refine ⟨_, _, rfl, rfl, fun j => ?_, PosOnly.refl _ _, fun j q h1 h2 => by omega,
      fun q _ => rfl⟩
    rw [if_neg (by omega)]

theorem arrRemove_spec {i : ℕ} {p : Ptr} {arr : Arr} {h : Heap} (hok : IdxOk arr.type h arr.list)
    (hp : arr.list[i]? = some p) :
    ∃ arr' h', arrRemove i arr h = .ok (p, arr', h') ∧ Removed p arr h arr' h' := by
  obtain ⟨hi, hpi⟩ := List.getElem?_eq_some_iff.mp hp
  have hsize : arr.size = arr.list.length := rfl
  have hstart : (i : ℤ).toNat = i := rfl
  obtain ⟨buf, h₁, hst, hlen, hget, hsh⟩ := removeShift_spec hi hok
  refine ⟨{ arr with list := buf.take (arr.size - 1) }, h₁.set p ((h₁ p).setPos arr.type (-1)),
    ?_, ?_⟩
  · unfold arrRemove arrGet
    have hrange : (0 : ℤ) ≤ i ∧ (i : ℤ) < arr.size := by omega
    have hgetD : arr.list.getD i 0 = p := by rw [List.getD_eq_getElem?_getD, hp]; rfl
    rw [Run.assert_of hrange]
    simp only [Run.ok_bind, hstart, hst, Run.pure_eq, hgetD]
  have hlist : buf.take (arr.size - 1) = arr.list.erase p := by
    rw [erase_eq_take_drop hok.nodup hp]
    have hl : (arr.list.take i).length = i := by rw [List.length_take]; omega
    refine List.ext_getElem? fun j => ?_
    rw [List.getElem?_take, hget]
    by_cases hj : j < i
    · rw [if_pos (by omega), if_neg (by omega), List.getElem?_append_left (by omega),
        List.getElem?_take, if_pos hj]
    · rw [List.getElem?_append_right (by omega), hl, List.getElem?_drop,
        show i + 1 + (j - i) = j + 1 by omega]
      by_cases hjl : j + 1 < arr.list.length
      · rw [if_pos (by omega), if_pos (by omega)]
      · rw [if_neg (by omega), List.getElem?_eq_none (by omega)]
  have hmem : ∀ q, q ∈ arr.list.erase p ↔ q ≠ p ∧ q ∈ arr.list := fun q => hok.nodup.mem_erase_iff
  refine ⟨List.mem_of_getElem? hp, by rw [hlist], hsh.posOnly.trans (posOnly_set _ _ _ _), ?_,
    by simp, ?_⟩
  · show IdxOk arr.type _ (buf.take (arr.size - 1))
    intro j q hq
    have hqp : q ≠ p := ((hmem q).mp (hlist ▸ List.mem_of_getElem? hq)).1
    have hjl : j < arr.size - 1 := by
      have := (List.getElem?_eq_some_iff.mp hq).1
      rw [List.length_take] at this
      omega
    rw [List.getElem?_take, if_pos hjl, hget] at hq
    rw [Heap.set_of_ne _ _ hqp]
    by_cases hj : i ≤ j
    · rw [if_pos (by omega)] at hq
      rw [hsh.inside (j + 1) q (by omega) (by omega) hq]
      omega
    · rw [if_neg (by omega)] at hq
      rw [hsh.outside q fun k h1 h2 hk => ?_]
      · exact hok j q hq
      · have := hok k q hk
        have := hok j q hq
        omega
  · intro q hq
    have hqp : q ≠ p := fun he => hq (he ▸ List.mem_of_getElem? hp)
    rw [Heap.set_of_ne _ _ hqp]
    exact hsh.outside q fun k _ _ hk => hq (List.mem_of_getElem? hk)

/-! ## Searching -/

section Search

variable {f : FileT} {arr : Arr} {h : Heap} {insert : Bool}

/-- The comparison of `f` with the element at position `m`. -/
def cmpAt (f : FileT) (arr : Arr) (h : Heap) (m : ℕ) : ℤ :=
  match arr.list[m]? with
  | some p => cmpKey f (h p) arr.type
  | none => 0

theorem cmpAt_eq {m : ℕ} {p : Ptr} (hp : arr.list[m]? = some p) :
    cmpAt f arr h m = cmpKey f (h p) arr.type := by
  unfold cmpAt; rw [hp]

theorem probe_eq {m : ℕ} (hm : m < arr.list.length) :
    (arr.list[m]?.map fun p => cmpKey f (h p) arr.type) = some (cmpAt f arr h m) := by
  unfold cmpAt
  rw [List.getElem?_eq_getElem hm]
  rfl

/-- The search ends, reads only positions of the list, and answers `-1` or a position. -/
theorem arrGetIndex_total : ∃ r, arrGetIndex f arr h insert = .ok r ∧
    (r = -1 ∨ (0 ≤ r ∧ r ≤ arr.list.length ∧ (insert = false → r < arr.list.length))) := by
  unfold arrGetIndex
  have hsize : arr.size = arr.list.length := rfl
  by_cases h0 : arr.size = 0
  · rw [if_pos h0]
    cases insert
    · exact ⟨_, rfl, Or.inl rfl⟩
    · exact ⟨_, rfl, Or.inr ⟨le_rfl, by simp, by simp⟩⟩
  rw [if_neg h0]
  by_cases hz : insert ∧ arr.type = .offset ∧ f.length = 0
  · rw [if_pos hz]
    exact ⟨_, rfl, Or.inr ⟨by simp, by rw [hsize], by simp [hz.1]⟩⟩
  rw [if_neg hz]
  have hprobe : ∀ m, 0 ≤ m → m ≤ arr.size - 1 →
      ((arr.list[m]?.map fun p => cmpKey f (h p) arr.type)).isSome := by
    intro m _ hm
    rw [probe_eq (by omega)]
    rfl
  obtain ⟨r, hr, hb⟩ := @Bisect.bisect_total
    (fun m => arr.list[m]?.map fun p => cmpKey f (h p) arr.type) insert (arr.size + 1) 0
    (arr.size - 1) (by omega) (by omega) hprobe
  simp only [hr]
  exact ⟨r, rfl, hb.imp_right fun hb => ⟨by omega, by omega, fun hi => by have := hb.2.2 hi; omega⟩⟩

/-- With an equal element in a signed array, the search finds it. -/
theorem arrGetIndex_of_zero (hs : Bisect.Signed (cmpAt f arr h) arr.list.length) {z : ℕ}
    (hz : z < arr.list.length) (hc : cmpAt f arr h z = 0)
    (hl : ¬ (insert ∧ arr.type = .offset ∧ f.length = 0)) :
    arrGetIndex f arr h insert = .ok (if insert then -1 else (z : ℤ)) := by
  unfold arrGetIndex
  have hsize : arr.size = arr.list.length := rfl
  rw [if_neg (by omega), if_neg hl]
  simp only [Bisect.bisect_of_zero hs (fun m hm => probe_eq hm) hc (arr.size + 1) 0 (arr.size - 1)
    (by omega) (by omega) (by omega) (by omega)]

/-- Without one, the search closes in on the position that splits the array. -/
theorem arrGetIndex_of_splits {p : ℕ} (hp : Bisect.Splits (cmpAt f arr h) arr.list.length p)
    (hl : ¬ (insert ∧ arr.type = .offset ∧ f.length = 0)) :
    arrGetIndex f arr h insert = .ok (if insert then (p : ℤ) else -1) := by
  unfold arrGetIndex
  have hsize : arr.size = arr.list.length := rfl
  have hle := hp.le
  by_cases h0 : arr.size = 0
  · rw [if_pos h0]
    obtain rfl : p = 0 := by omega
    rfl
  rw [if_neg h0, if_neg hl]
  simp only [Bisect.bisect_of_splits (fun m hm => probe_eq hm) hp (arr.size + 1) 0 (arr.size - 1)
    (by omega) (by omega) (by omega) (by omega) (by omega)]

/-- A search depends on the comparisons, and on whether the key of an offset array is empty. -/
theorem arrGetIndex_congr_cmp {f' : FileT} {h' : Heap}
    (hh : ∀ p ∈ arr.list, cmpKey f' (h' p) arr.type = cmpKey f (h p) arr.type)
    (h0 : arr.type = .offset → f'.length = f.length) (insert : Bool) :
    arrGetIndex f' arr h' insert = arrGetIndex f arr h insert := by
  have hprobe : (fun m : ℕ => arr.list[m]?.map fun p => cmpKey f' (h' p) arr.type) =
      fun m : ℕ => arr.list[m]?.map fun p => cmpKey f (h p) arr.type := by
    funext m
    cases hm : arr.list[m]? with
    | none => rfl
    | some p => rw [Option.map_some, Option.map_some, hh p (List.mem_of_getElem? hm)]
  have hempty : (insert ∧ arr.type = .offset ∧ f'.length = 0) ↔
      (insert ∧ arr.type = .offset ∧ f.length = 0) :=
    and_congr_right fun _ => and_congr_right fun ht => by rw [h0 ht]
  unfold arrGetIndex
  simp only [hprobe, hempty]

/-- A search depends on the names, offsets and lengths of the key and of the elements only. -/
theorem arrGetIndex_congr {f' : FileT} {h' : Heap} (hf : f'.Same f)
    (hh : ∀ p ∈ arr.list, (h' p).Same (h p)) :
    arrGetIndex f' arr h' insert = arrGetIndex f arr h insert := by
  refine arrGetIndex_congr_cmp (fun p hp => ?_) (fun _ => hf.2.2.1) insert
  obtain ⟨h1, h2, h3, -⟩ := hh p hp
  simp only [cmpKey, hf.1, hf.2.1, h1, h2, h3]

/-- Zero size files go to the end of an offset array. -/
theorem arrGetIndex_of_empty (ht : arr.type = .offset) (hf : f.length = 0) :
    arrGetIndex f arr h true = .ok (arr.list.length : ℤ) := by
  unfold arrGetIndex
  by_cases h0 : arr.size = 0
  · rw [if_pos h0, show arr.list.length = 0 from h0]
    rfl
  · rw [if_neg h0, if_pos ⟨rfl, ht, hf⟩]
    rfl

end Search

end Vfs
