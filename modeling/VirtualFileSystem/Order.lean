import VirtualFileSystem.ArrSpec

/-!
# The two orders of the arrays

`strncmp` on the first 63 bytes is a strict total order of file names.  `cmp_key` on offsets is not
an order: it never finds zero size files, and sends the search past those resized to zero.  In an
array sorted by its key both comparisons split at the place the key belongs.
-/

namespace Vfs

/-! ## Names -/

theorem strncmp_swap : ∀ (n : ℕ) (xs ys : List UInt8), strncmp ys xs n = -strncmp xs ys n := by
  intro n
  induction n with
  | zero => intro xs ys; cases xs <;> cases ys <;> rfl
  | succ n ih =>
    intro xs ys
    cases xs with
    | nil => cases ys <;> simp [strncmp]
    | cons x xs =>
      cases ys with
      | nil => simp [strncmp]
      | cons y ys =>
        simp only [strncmp]
        by_cases h : x = y
        · rw [if_pos h, if_pos h.symm, ih]
        · rw [if_neg h, if_neg (Ne.symm h)]
          omega

theorem toNat_pos_of_ne_zero {b : UInt8} (h : 0 ≠ b) : 0 < b.toNat := by
  rcases Nat.eq_zero_or_pos b.toNat with h0 | h0
  · exact absurd (UInt8.toNat_inj.mp h0).symm h
  · exact h0

theorem strncmp_eq_zero : ∀ (n : ℕ) (xs ys : List UInt8), 0 ∉ xs → 0 ∉ ys →
    (strncmp xs ys n = 0 ↔ xs.take n = ys.take n) := by
  intro n
  induction n with
  | zero => intro xs ys _ _; cases xs <;> cases ys <;> simp [strncmp]
  | succ n ih =>
    intro xs ys hx hy
    cases xs with
    | nil =>
      cases ys with
      | nil => simp [strncmp]
      | cons y ys =>
        have := toNat_pos_of_ne_zero (List.ne_of_not_mem_cons hy)
        simp only [strncmp, List.take_nil, List.take_succ_cons]
        constructor
        · intro h; omega
        · intro h; cases h
    | cons x xs =>
      cases ys with
      | nil =>
        have := toNat_pos_of_ne_zero (List.ne_of_not_mem_cons hx)
        simp only [strncmp, List.take_nil, List.take_succ_cons]
        constructor
        · intro h; omega
        · intro h; cases h
      | cons y ys =>
        simp only [strncmp, List.take_succ_cons, List.cons.injEq]
        by_cases h : x = y
        · rw [if_pos h, ih xs ys (List.not_mem_of_not_mem_cons hx)
            (List.not_mem_of_not_mem_cons hy)]
          simp [h]
        · rw [if_neg h]
          have hne : x.toNat ≠ y.toNat := fun he => h (UInt8.toNat_inj.mp he)
          constructor
          · intro h'; omega
          · intro h'; exact absurd h'.1 h

theorem strncmp_trans : ∀ (n : ℕ) (xs ys zs : List UInt8), 0 ∉ xs → 0 ∉ ys → 0 ∉ zs →
    strncmp xs ys n < 0 → strncmp ys zs n ≤ 0 → strncmp xs zs n < 0 := by
  intro n
  induction n with
  | zero => intro xs ys zs _ _ _ h; cases xs <;> cases ys <;> simp [strncmp] at h
  | succ n ih =>
    intro xs ys zs hx hy hz h1 h2
    cases xs with
    | nil =>
      cases ys with
      | nil => simp [strncmp] at h1
      | cons y ys =>
        have hy0 := toNat_pos_of_ne_zero (List.ne_of_not_mem_cons hy)
        cases zs with
        | nil => simp only [strncmp] at h2; omega
        | cons z zs =>
          have hz0 := toNat_pos_of_ne_zero (List.ne_of_not_mem_cons hz)
          simp only [strncmp]
          omega
    | cons x xs =>
      have hx0 := toNat_pos_of_ne_zero (List.ne_of_not_mem_cons hx)
      cases ys with
      | nil => simp only [strncmp] at h1; omega
      | cons y ys =>
        have hy0 := toNat_pos_of_ne_zero (List.ne_of_not_mem_cons hy)
        cases zs with
        | nil => simp only [strncmp] at h2; omega
        | cons z zs =>
          simp only [strncmp] at h1 h2 ⊢
          have hxy : x.toNat = y.toNat → x = y := UInt8.toNat_inj.mp
          by_cases e1 : x = y
          · subst e1
            rw [if_pos rfl] at h1
            by_cases e2 : x = z
            · rw [if_pos e2] at h2 ⊢
              exact ih _ _ _ (List.not_mem_of_not_mem_cons hx) (List.not_mem_of_not_mem_cons hy)
                (List.not_mem_of_not_mem_cons hz) h1 h2
            · rw [if_neg e2] at h2 ⊢
              have : x.toNat ≠ z.toNat := fun he => e2 (UInt8.toNat_inj.mp he)
              omega
          · rw [if_neg e1] at h1
            by_cases e2 : y = z
            · subst e2
              rw [if_neg e1]
              exact h1
            · rw [if_neg e2] at h2
              rw [if_neg (fun e3 => by subst e3; omega)]
              omega

/-- The comparison of two file names: `strncmp` over 63 bytes. -/
def nameCmp (a b : FileName) : ℤ := strncmp a.bytes b.bytes (nameLen - 1)

theorem FileName.take_bytes (a : FileName) : a.bytes.take (nameLen - 1) = a.bytes := by
  have := a.length_lt
  exact List.take_of_length_le (by unfold nameLen at *; omega)

theorem nameCmp_eq_zero {a b : FileName} : nameCmp a b = 0 ↔ a = b := by
  unfold nameCmp
  rw [strncmp_eq_zero _ _ _ a.nul_free b.nul_free, a.take_bytes, b.take_bytes]
  exact ⟨FileName.ext, fun h => h ▸ rfl⟩

theorem nameCmp_swap (a b : FileName) : nameCmp b a = -nameCmp a b := strncmp_swap _ _ _

theorem nameCmp_trans {a b c : FileName} (h1 : nameCmp a b < 0) (h2 : nameCmp b c ≤ 0) :
    nameCmp a c < 0 :=
  strncmp_trans _ _ _ _ a.nul_free b.nul_free c.nul_free h1 h2

theorem nameCmp_trans' {a b c : FileName} (h1 : nameCmp a b ≤ 0) (h2 : nameCmp b c < 0) :
    nameCmp a c < 0 := by
  rcases h1.lt_or_eq with h | h
  · exact nameCmp_trans h h2.le
  · rwa [nameCmp_eq_zero.mp h]

/-! ## Name arrays -/

/-- The names along `l` increase strictly. -/
def NameSorted (h : Heap) (l : List Ptr) : Prop :=
  l.Pairwise fun p q => nameCmp (h p).name (h q).name < 0

instance (h : Heap) (l : List Ptr) : Decidable (NameSorted h l) := by
  unfold NameSorted; infer_instance

section NameArr

variable {f : FileT} {arr : Arr} {h : Heap}

theorem cmpAt_name (ht : arr.type = .name) {m : ℕ} {p : Ptr} (hp : arr.list[m]? = some p) :
    cmpAt f arr h m = nameCmp f.name (h p).name := by
  rw [cmpAt_eq hp, ht]; rfl

/-- A comparison of positions of a list reads as one of its elements. -/
theorem pairwise_getElem? {R : Ptr → Ptr → Prop} {l : List Ptr} (hl : l.Pairwise R) {i j : ℕ}
    {p q : Ptr} (hij : i < j) (hp : l[i]? = some p) (hq : l[j]? = some q) : R p q := by
  obtain ⟨hi, rfl⟩ := List.getElem?_eq_some_iff.mp hp
  obtain ⟨hj, rfl⟩ := List.getElem?_eq_some_iff.mp hq
  exact List.pairwise_iff_getElem.mp hl i j hi hj hij

theorem signed_name (ht : arr.type = .name) (hs : NameSorted h arr.list) :
    Bisect.Signed (cmpAt f arr h) arr.list.length := by
  intro i j hij hj hc
  have hp := List.getElem?_eq_getElem (hij.trans hj)
  have hq := List.getElem?_eq_getElem hj
  rw [cmpAt_name ht hp] at hc
  rw [cmpAt_name ht hq]
  exact nameCmp_trans' hc (pairwise_getElem? hs hij hp hq)

/-- Whatever the order of the array, a search answers only with an element of equal key. -/
theorem arrGetIndex_sound {r : ℤ} (hr : arrGetIndex f arr h false = .ok r) (h0 : 0 ≤ r) :
    ∃ p, arr.list[r.toNat]? = some p ∧ cmpKey f (h p) arr.type = 0 := by
  unfold arrGetIndex at hr
  by_cases h1 : arr.size = 0
  · rw [if_pos h1] at hr
    have : (-1 : ℤ) = r := Except.ok.inj hr
    omega
  · rw [if_neg h1, if_neg (by simp)] at hr
    dsimp only at hr
    split at hr
    · rename_i v hv
      obtain rfl := Except.ok.inj hr
      have := Bisect.bisect_sound _ _ _ hv h0
      rw [Option.map_eq_some_iff] at this
      exact this
    · cases hr

/-- Whatever the order of a name array, a name that is not found can be inserted. -/
theorem arrGetIndex_insert_of_search (ht : arr.type = .name)
    (hr : arrGetIndex f arr h false = .ok (-1)) :
    ∃ i : ℕ, arrGetIndex f arr h true = .ok (i : ℤ) := by
  unfold arrGetIndex at hr ⊢
  by_cases h1 : arr.size = 0
  · rw [if_pos h1]
    exact ⟨0, rfl⟩
  · rw [if_neg h1, if_neg (by simp)] at hr
    rw [if_neg h1, if_neg (by rw [ht]; rintro ⟨-, h3, -⟩; cases h3)]
    dsimp only at hr
    split at hr
    · rename_i v hv
      obtain rfl := Except.ok.inj hr
      obtain ⟨i, hi⟩ := Bisect.bisect_insert_of_search _ _ _ hv
      simp only [hi]
      exact ⟨i, rfl⟩
    · cases hr

/-- A search in a name array depends on the names only. -/
theorem arrGetIndex_name_congr (ht : arr.type = .name) {f' : FileT} {h' : Heap}
    (hf : f'.name = f.name) (hh : ∀ p ∈ arr.list, (h' p).name = (h p).name) (insert : Bool) :
    arrGetIndex f' arr h' insert = arrGetIndex f arr h insert := by
  refine arrGetIndex_congr_cmp (fun p hp => ?_) (fun ho => ?_) insert
  · rw [ht]
    simp only [cmpKey, hf, hh p hp]
  · rw [ht] at ho
    cases ho

/-- The search for a name finds the file of that name. -/
theorem arrGetIndex_name_of_mem (ht : arr.type = .name) (hs : NameSorted h arr.list) {i : ℕ}
    {p : Ptr} (hp : arr.list[i]? = some p) (hn : (h p).name = f.name) (insert : Bool) :
    arrGetIndex f arr h insert = .ok (if insert then -1 else (i : ℤ)) := by
  refine arrGetIndex_of_zero (signed_name ht hs) (List.getElem?_eq_some_iff.mp hp).1 ?_ ?_
  · rw [cmpAt_name ht hp, nameCmp_eq_zero, hn]
  · rintro ⟨-, h2, -⟩
    rw [ht] at h2
    cases h2

/-- Without a file of that name, it finds the place where one belongs. -/
theorem arrGetIndex_name_of_not_mem (ht : arr.type = .name) (hs : NameSorted h arr.list)
    (hn : ∀ p ∈ arr.list, (h p).name ≠ f.name) (insert : Bool) :
    ∃ i, Bisect.Splits (cmpAt f arr h) arr.list.length i ∧
      arrGetIndex f arr h insert = .ok (if insert then (i : ℤ) else -1) := by
  obtain ⟨i, hi⟩ := Bisect.exists_splits (signed_name (f := f) ht hs) (by
    intro m hm hc
    have hp := List.getElem?_eq_getElem hm
    rw [cmpAt_name ht hp, nameCmp_eq_zero] at hc
    exact hn _ (List.mem_of_getElem? hp) hc.symm)
  refine ⟨i, hi, arrGetIndex_of_splits hi ?_⟩
  rintro ⟨-, h2, -⟩
  rw [ht] at h2
  cases h2

/-- A pairwise relation survives the insertion of an element at a place where it fits. -/
theorem pairwise_insertAt {R : Ptr → Ptr → Prop} {l : List Ptr} (hl : l.Pairwise R) {i : ℕ}
    {p : Ptr} (h1 : ∀ j q, j < i → l[j]? = some q → R q p)
    (h2 : ∀ j q, i ≤ j → l[j]? = some q → R p q) : (insertAt l i p).Pairwise R := by
  unfold insertAt
  have hsplit : (l.take i ++ l.drop i).Pairwise R := by rwa [List.take_append_drop]
  rw [List.pairwise_append] at hsplit
  obtain ⟨ha, hb, hab⟩ := hsplit
  refine List.pairwise_append.mpr ⟨ha, List.pairwise_cons.mpr ⟨?_, hb⟩, ?_⟩
  · intro q hq
    obtain ⟨j, hj⟩ := List.getElem?_of_mem hq
    rw [List.getElem?_drop] at hj
    exact h2 _ q (Nat.le_add_right _ _) hj
  · intro q hq r hr
    rcases List.mem_cons.mp hr with rfl | hr
    · obtain ⟨j, hj⟩ := List.getElem?_of_mem hq
      rw [List.getElem?_take] at hj
      split_ifs at hj with hji
      exact h1 j q hji hj
    · exact hab q hq r hr

theorem nameSorted_insertAt (ht : arr.type = .name) {p : Ptr} {i : ℕ}
    (hs : NameSorted h arr.list) (hi : Bisect.Splits (cmpAt (h p) arr h) arr.list.length i) :
    NameSorted h (insertAt arr.list i p) := by
  refine pairwise_insertAt hs (fun j q hj hq => ?_) (fun j q hj hq => ?_)
  · have := hi.before j hj
    rw [cmpAt_name ht hq] at this
    rw [nameCmp_swap]
    omega
  · have := hi.after j hj (List.getElem?_eq_some_iff.mp hq).1
    rwa [cmpAt_name ht hq] at this

end NameArr

/-! ## Offset arrays -/

/-- The offsets along `l` do not decrease. -/
def OffsetSorted (h : Heap) (l : List Ptr) : Prop :=
  l.Pairwise fun p q => (h p).offset ≤ (h q).offset

instance (h : Heap) (l : List Ptr) : Decidable (OffsetSorted h l) := by
  unfold OffsetSorted; infer_instance

section OffsetArr

variable {f : FileT} {arr : Arr} {h : Heap}

/-- Where no non-zero size file has the key's offset, `cmp_key` splits at the key's offset. -/
theorem cmpKey_offset {b : FileT} (hf : f.offset < maxFileDataLen)
    (hb : 0 < b.length → b.offset ≠ f.offset) :
    (b.offset ≤ f.offset → 0 < cmpKey f b .offset) ∧
      (f.offset < b.offset → cmpKey f b .offset < 0) := by
  constructor
  · intro hle
    simp only [cmpKey]
    rw [if_neg (by omega)]
    split_ifs <;> omega
  · intro hlt
    simp only [cmpKey]
    rw [if_pos hlt]
    omega

/-- The search for the place of a non-zero size file ends behind the offsets up to its own. -/
theorem arrGetIndex_offset (ht : arr.type = .offset) (hs : OffsetSorted h arr.list)
    (hf : f.offset < maxFileDataLen) (hl : 0 < f.length)
    (hn : ∀ p ∈ arr.list, 0 < (h p).length → (h p).offset ≠ f.offset) :
    ∃ i, i ≤ arr.list.length ∧ arrGetIndex f arr h true = .ok (i : ℤ) ∧
      (∀ (j : ℕ) q, j < i → arr.list[j]? = some q → (h q).offset ≤ f.offset) ∧
      (∀ (j : ℕ) q, i ≤ j → arr.list[j]? = some q → f.offset < (h q).offset) := by
  have hkey : ∀ (m : ℕ) p, arr.list[m]? = some p →
      ((h p).offset ≤ f.offset → 0 < cmpAt f arr h m) ∧
        (f.offset < (h p).offset → cmpAt f arr h m < 0) := by
    intro m p hp
    rw [cmpAt_eq hp, ht]
    exact cmpKey_offset hf (hn p (List.mem_of_getElem? hp))
  have hsigned : Bisect.Signed (cmpAt f arr h) arr.list.length := by
    intro i j hij hj hc
    have hp := List.getElem?_eq_getElem (hij.trans hj)
    have hq := List.getElem?_eq_getElem hj
    have hle := pairwise_getElem? hs hij hp hq
    refine (hkey j _ hq).2 ?_
    by_contra hcon
    have := (hkey i _ hp).1 (by omega)
    omega
  have hnz : ∀ m < arr.list.length, cmpAt f arr h m ≠ 0 := by
    intro m hm
    have hp := List.getElem?_eq_getElem hm
    rcases Nat.lt_or_ge f.offset (h arr.list[m]).offset with hlt | hge
    · exact ((hkey m _ hp).2 hlt).ne
    · exact ((hkey m _ hp).1 hge).ne'
  obtain ⟨i, hi⟩ := Bisect.exists_splits hsigned hnz
  refine ⟨i, hi.le, arrGetIndex_of_splits hi (by simp; omega), ?_, ?_⟩
  · intro j q hj hq
    by_contra hcon
    have := (hkey j q hq).2 (by omega)
    have := hi.before j hj
    omega
  · intro j q hj hq
    by_contra hcon
    have := (hkey j q hq).1 (by omega)
    have := hi.after j hj (List.getElem?_eq_some_iff.mp hq).1
    omega

end OffsetArr

end Vfs
