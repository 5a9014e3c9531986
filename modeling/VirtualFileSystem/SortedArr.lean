import VirtualFileSystem.Order
import VirtualFileSystem.Lib.Trace

/-!
# The sorted arrays as a data structure

`KeyOrdered` is the order in which the binary search of `arr_get_index` is at home; on offsets it
is finer than the order by offset.  In such a list the search is exact, and an insertion at the
position it answers keeps the order.  From that follows what any interleaving of
`arr_sorted_insert` and `arr_remove` leaves in an array.
-/

namespace Vfs

/-! ## The search -/

/-- The files in front of and behind each other in an offset array.  At one offset the empty files
resized to zero stand in front of the file that has bytes there, the newly created ones behind. -/
def OffsetBefore (a b : FileT) : Prop :=
  a.offset < b.offset ∨
    a.offset = b.offset ∧ if a.offset < maxFileDataLen then a.length = 0 else b.length = 0

instance (a b : FileT) : Decidable (OffsetBefore a b) := by
  unfold OffsetBefore; infer_instance

/-- The order of an array of the given kind. -/
def KeyOrdered (t : ArrType) (h : Heap) (l : List Ptr) : Prop :=
  match t with
  | .offset => l.Pairwise fun p q => OffsetBefore (h p) (h q)
  | .name => NameSorted h l

instance (t : ArrType) (h : Heap) (l : List Ptr) : Decidable (KeyOrdered t h l) := by
  unfold KeyOrdered; cases t <;> infer_instance

/-- `g` is the file a search for the key of `f` is after: the file of that name, or the file that
has bytes at that offset. -/
def SameKey (t : ArrType) (f g : FileT) : Prop :=
  match t with
  | .offset => g.offset = f.offset ∧ 0 < g.length
  | .name => g.name = f.name

instance (t : ArrType) (f g : FileT) : Decidable (SameKey t f g) := by
  unfold SameKey; cases t <;> infer_instance

section Search

variable {f g : FileT} {t : ArrType} {arr : Arr} {h : Heap}

theorem cmpKey_eq_zero : cmpKey f g t = 0 ↔ SameKey t f g := by
  cases t with
  | offset =>
    simp only [cmpKey, SameKey]
    split_ifs <;> constructor <;> intro hc <;> first | omega | exact hc.elim
  | name =>
    simp only [cmpKey, SameKey]
    exact nameCmp_eq_zero.trans eq_comm

/-- Against an offset the comparison goes left exactly at the files behind it. -/
theorem cmpKey_offset_neg : cmpKey f g .offset < 0 ↔
    f.offset < g.offset ∨ f.offset = g.offset ∧ g.length = 0 ∧ maxFileDataLen ≤ g.offset := by
  simp only [cmpKey]
  split_ifs <;> constructor <;> intro hc <;> omega

theorem cmpKey_offset_pos : 0 < cmpKey f g .offset ↔
    g.offset < f.offset ∨ g.offset = f.offset ∧ g.length = 0 ∧ g.offset < maxFileDataLen := by
  simp only [cmpKey]
  split_ifs <;> constructor <;> intro hc <;> omega

/-- Along an ordered array the comparison changes its sign as the search expects. -/
theorem signed_of_ordered (hs : KeyOrdered arr.type h arr.list) :
    Bisect.Signed (cmpAt f arr h) arr.list.length := by
  cases ht : arr.type with
  | name =>
    rw [ht] at hs
    exact signed_name ht hs
  | offset =>
    rw [ht] at hs
    intro i j hij hj hc
    have hp := List.getElem?_eq_getElem (hij.trans hj)
    have hq := List.getElem?_eq_getElem hj
    have hb : OffsetBefore _ _ := pairwise_getElem? hs hij hp hq
    have hpos := (cmpKey_offset_pos (f := f) (g := h arr.list[i])).mpr
    rw [cmpAt_eq hp, ht] at hc
    rw [cmpAt_eq hq, ht, cmpKey_offset_neg]
    unfold OffsetBefore at hb
    split_ifs at hb with hlt <;> omega

/-- The key goes where it splits the comparison. -/
theorem keyOrdered_insertAt {p : Ptr} {i : ℕ} (hs : KeyOrdered arr.type h arr.list)
    (hi : Bisect.Splits (cmpAt (h p) arr h) arr.list.length i) :
    KeyOrdered arr.type h (insertAt arr.list i p) := by
  cases ht : arr.type with
  | name =>
    rw [ht] at hs
    exact nameSorted_insertAt ht hs hi
  | offset =>
    rw [ht] at hs
    refine pairwise_insertAt hs (fun j q hj hq => ?_) (fun j q hj hq => ?_)
    · have hb := hi.before j hj
      rw [cmpAt_eq hq, ht, cmpKey_offset_pos] at hb
      unfold OffsetBefore
      split_ifs <;> omega
    · have hb := hi.after j hj (List.getElem?_eq_some_iff.mp hq).1
      rw [cmpAt_eq hq, ht, cmpKey_offset_neg] at hb
      unfold OffsetBefore
      split_ifs <;> omega

/-- In an ordered array the search finds the file of equal key if there is one, and the place for
it otherwise. -/
theorem arrGetIndex_ordered (hs : KeyOrdered arr.type h arr.list) {insert : Bool}
    (hl : ¬ (insert ∧ arr.type = .offset ∧ f.length = 0)) :
    (∃ (z : ℕ) (q : Ptr), arr.list[z]? = some q ∧ SameKey arr.type f (h q) ∧
        arrGetIndex f arr h insert = .ok (if insert then -1 else (z : ℤ))) ∨
      (∀ q ∈ arr.list, ¬ SameKey arr.type f (h q)) ∧
        ∃ i, Bisect.Splits (cmpAt f arr h) arr.list.length i ∧
          arrGetIndex f arr h insert = .ok (if insert then (i : ℤ) else -1) := by
  have hsigned := signed_of_ordered (f := f) hs
  by_cases hex : ∃ q ∈ arr.list, SameKey arr.type f (h q)
  · obtain ⟨q, hq, hk⟩ := hex
    obtain ⟨z, hz⟩ := List.getElem?_of_mem hq
    refine Or.inl ⟨z, q, hz, hk, arrGetIndex_of_zero hsigned
      (List.getElem?_eq_some_iff.mp hz).1 ?_ hl⟩
    rw [cmpAt_eq hz]
    exact cmpKey_eq_zero.mpr hk
  · have hnone : ∀ q ∈ arr.list, ¬ SameKey arr.type f (h q) := fun q hq hk => hex ⟨q, hq, hk⟩
    obtain ⟨i, hi⟩ := Bisect.exists_splits hsigned (by
      intro m hm hc
      rw [cmpAt_eq (List.getElem?_eq_getElem hm)] at hc
      exact hnone _ (List.getElem_mem hm) (cmpKey_eq_zero.mp hc))
    exact Or.inr ⟨hnone, i, hi, arrGetIndex_of_splits hi hl⟩

end Search

/-- The binary search ends inside every list.  In an ordered one it finds the file of equal key
exactly when there is one, and an insertion where it says keeps the order. -/
theorem arrGetIndex_exact (arr : Arr) (h : Heap) :
    (∀ (f : FileT) (insert : Bool), ∃ r, arrGetIndex f arr h insert = .ok r ∧
      (r = -1 ∨ 0 ≤ r ∧ r ≤ if insert then (arr.size : ℤ) else arr.size - 1)) ∧
    (KeyOrdered arr.type h arr.list →
      (∀ f : FileT, ∃ r, arrGetIndex f arr h false = .ok r ∧
        (r = -1 ↔ ∀ q ∈ arr.list, ¬ SameKey arr.type f (h q)) ∧
        (0 ≤ r → ∃ q, arr.list[r.toNat]? = some q ∧ SameKey arr.type f (h q))) ∧
      (∀ p : Ptr, (arr.type = .offset → 0 < (h p).length) →
        ∃ r, arrGetIndex (h p) arr h true = .ok r ∧
        (r = -1 ↔ ∃ q ∈ arr.list, SameKey arr.type (h p) (h q)) ∧
        (0 ≤ r → KeyOrdered arr.type h (insertAt arr.list r.toNat p)))) := by
  refine ⟨fun f insert => ?_, fun hs => ⟨fun f => ?_, fun p hp => ?_⟩⟩
  · obtain ⟨r, hr, hb⟩ := @arrGetIndex_total f arr h insert
    have hsize : arr.size = arr.list.length := rfl
    refine ⟨r, hr, hb.imp_right fun hb => ⟨hb.1, ?_⟩⟩
    cases insert with
    | true => simpa [hsize] using hb.2.1
    | false =>
      have := hb.2.2 rfl
      simp only [Bool.false_eq_true, if_false]
      omega
  · rcases @arrGetIndex_ordered f arr h hs false (by simp) with
      ⟨z, q, hz, hk, hr⟩ | ⟨hnone, i, hi, hr⟩
    · refine ⟨z, hr, ⟨fun hneg => by omega, fun hnone => ?_⟩, fun _ => ⟨q, hz, hk⟩⟩
      exact absurd hk (hnone q (List.mem_of_getElem? hz))
    · exact ⟨-1, hr, ⟨fun _ => hnone, fun _ => rfl⟩, fun h0 => by omega⟩
  · have hl : ¬ ((true : Bool) ∧ arr.type = .offset ∧ (h p).length = 0) := by
      rintro ⟨-, ht, h0⟩
      have := hp ht
      omega
    rcases arrGetIndex_ordered (f := h p) hs hl with
      ⟨z, q, hz, hk, hr⟩ | ⟨hnone, i, hi, hr⟩
    · exact ⟨-1, hr, ⟨fun _ => ⟨q, List.mem_of_getElem? hz, hk⟩, fun _ => rfl⟩,
        fun h0 => by omega⟩
    · refine ⟨i, hr, ⟨fun hneg => by omega, ?_⟩, fun _ => keyOrdered_insertAt hs hi⟩
      rintro ⟨q, hq, hk⟩
      exact absurd hk (hnone q hq)

/-- With an empty file in front of the one that has bytes at its offset. -/
theorem arrGetIndex_exact_zeroLength :
    let arr : Arr := ⟨4, .offset, [0, 1, 2]⟩
    let h : Heap := fun p => ⟨.ofField [], [0, 5, 5].getD p 0, [5, 0, 3].getD p 0, 0, p, p⟩
    ∃ r, arrGetIndex (h 2) arr h false = .ok r ∧
      (r = -1 ↔ ∀ q ∈ arr.list, ¬ SameKey .offset (h 2) (h q)) ∧
      (0 ≤ r → ∃ q, arr.list[r.toNat]? = some q ∧ SameKey .offset (h 2) (h q)) := by
  intro arr h
  exact ((arrGetIndex_exact arr h).2 (by decide)).1 (h 2)

/-! ## Insertions and removals -/

/-- What happens to an array: the two calls, and a change of a record by the rest of the program. -/
inductive ArrOp
  | insert (p : Ptr)
  | remove (i : ℤ)
  | edit (p : Ptr) (f : FileT)

/-- What an operation did: `arr_sorted_insert` answered `r`, or `arr_remove` gave `p` back. -/
inductive ArrEvent
  | inserted (p : Ptr) (r : ℤ)
  | removed (p : Ptr)
  | edited

def ArrOp.step : ArrOp → Arr × Heap → Run (ArrEvent × Arr × Heap)
  | .insert p, (arr, h) => do
    let (r, arr, h) ← arrSortedInsert p arr h
    pure (.inserted p r, arr, h)
  | .remove i, (arr, h) => do
    let (p, arr, h) ← arrRemove i arr h
    pure (.removed p, arr, h)
  | .edit p f, (arr, h) => pure (.edited, arr, h.set p f)

/-- The keys of an offset array: empty files at `MAX_FILE_DATA_LEN`, all others below. -/
def KeyRule (t : ArrType) (f : FileT) : Prop :=
  match t with
  | .offset => if f.length = 0 then f.offset = maxFileDataLen else f.offset < maxFileDataLen
  | .name => True

instance (t : ArrType) (f : FileT) : Decidable (KeyRule t f) := by
  unfold KeyRule; cases t <;> infer_instance

/-- The records have the same key. -/
def KeptKey (t : ArrType) (f g : FileT) : Prop :=
  match t with
  | .offset => g.offset = f.offset
  | .name => g.name = f.name

instance (t : ArrType) (f g : FileT) : Decidable (KeptKey t f g) := by
  unfold KeptKey; cases t <;> infer_instance

/-- What the callers keep to: only files outside the array are inserted, only while there is room,
only valid positions are removed, and the key of a file stays while the array holds it.  The stored
positions are the array's own. -/
def ArrOp.Allowed : ArrOp → Arr × Heap → Prop
  | .insert p, (arr, h) => p ∉ arr.list ∧ arr.size < arr.capacity ∧ KeyRule arr.type (h p)
  | .remove i, (arr, _) => 0 ≤ i ∧ i < arr.size
  | .edit p f, (arr, h) => f.pos arr.type = (h p).pos arr.type ∧
      (p ∈ arr.list → KeptKey arr.type (h p) f ∧ KeyRule arr.type f)

instance (op : ArrOp) (s : Arr × Heap) : Decidable (op.Allowed s) := by
  cases op <;> unfold ArrOp.Allowed <;> infer_instance

/-- `p` was inserted with a non-negative result and not removed since. -/
def Held (es : List ArrEvent) (p : Ptr) : Prop :=
  Trace.Since (fun e => ∃ r, e = .inserted p r ∧ 0 ≤ r) (fun e => e = .removed p) es

/-- `p` was removed and not inserted again since. -/
def Gone (es : List ArrEvent) (p : Ptr) : Prop :=
  Trace.Since (fun e => e = .removed p) (fun e => ∃ r, e = .inserted p r ∧ 0 ≤ r) es

/-- The array holds a file that keeps `f` out: one of its name, or one that has bytes at its
offset when `f` has bytes too. -/
def Clash (t : ArrType) (h : Heap) (l : List Ptr) (f : FileT) : Prop :=
  match t with
  | .offset => 0 < f.length ∧ ∃ q ∈ l, (h q).offset = f.offset ∧ 0 < (h q).length
  | .name => ∃ q ∈ l, (h q).name = f.name

/-- Sorted by the key: strictly by name, or strictly by offset among the files with bytes, all of
which stand in front of the empty ones. -/
def KeySorted (t : ArrType) (h : Heap) (l : List Ptr) : Prop :=
  match t with
  | .offset => l.Pairwise fun p q =>
      0 < (h q).length → 0 < (h p).length ∧ (h p).offset < (h q).offset
  | .name => NameSorted h l

section Keys

variable {t : ArrType} {h h' : Heap} {l : List Ptr}

/-- Under the rule for keys the order is one of the offsets alone. -/
theorem offsetBefore_iff {a b : FileT} (ha : KeyRule .offset a) (hb : KeyRule .offset b) :
    OffsetBefore a b ↔ a.offset < b.offset ∨ a.offset = b.offset ∧ a.offset = maxFileDataLen := by
  unfold KeyRule at ha hb
  unfold OffsetBefore
  split_ifs at ha hb ⊢ <;> constructor <;> intro h <;> omega

theorem KeyOrdered.keySorted (hs : KeyOrdered t h l) (hr : ∀ p ∈ l, KeyRule t (h p)) :
    KeySorted t h l := by
  cases t with
  | name => exact hs
  | offset =>
    refine List.Pairwise.imp_of_mem (fun {p q} hp hq hb => ?_) hs
    have hrp : KeyRule .offset (h p) := hr p hp
    have hrq : KeyRule .offset (h q) := hr q hq
    rw [offsetBefore_iff hrp hrq] at hb
    unfold KeyRule at hrp hrq
    split_ifs at hrp hrq <;> intro h0 <;> omega

/-- The order survives changes that keep the keys. -/
theorem KeyOrdered.congr (hs : KeyOrdered t h l) (hr : ∀ p ∈ l, KeyRule t (h p))
    (hr' : ∀ p ∈ l, KeyRule t (h' p)) (hk : ∀ p ∈ l, KeptKey t (h p) (h' p)) :
    KeyOrdered t h' l := by
  cases t with
  | name =>
    refine List.Pairwise.imp_of_mem (fun {p q} hp hq hb => ?_) hs
    have hkp : (h' p).name = (h p).name := hk p hp
    have hkq : (h' q).name = (h q).name := hk q hq
    rwa [hkp, hkq]
  | offset =>
    refine List.Pairwise.imp_of_mem (fun {p q} hp hq hb => ?_) hs
    have hkp : (h' p).offset = (h p).offset := hk p hp
    have hkq : (h' q).offset = (h q).offset := hk q hq
    rw [offsetBefore_iff (hr p hp) (hr q hq)] at hb
    rwa [offsetBefore_iff (hr' p hp) (hr' q hq), hkp, hkq]

theorem PosOnly.keyRule (hp : PosOnly t h h') {q : Ptr} (hr : KeyRule t (h q)) :
    KeyRule t (h' q) := by
  cases t with
  | name => trivial
  | offset =>
    unfold KeyRule at *
    rwa [hp.offset, hp.length]

theorem PosOnly.keptKey (hp : PosOnly t h h') (q : Ptr) : KeptKey t (h q) (h' q) := by
  cases t with
  | name => exact hp.name q
  | offset => exact hp.offset q

/-- Positions do not matter to the order. -/
theorem KeyOrdered.posOnly (hs : KeyOrdered t h l) (hr : ∀ p ∈ l, KeyRule t (h p))
    (hp : PosOnly t h h') : KeyOrdered t h' l :=
  hs.congr hr (fun q hq => hp.keyRule (hr q hq)) fun q _ => hp.keptKey q

theorem KeyOrdered.sublist {l' : List Ptr} (hs : KeyOrdered t h l) (hl : l'.Sublist l) :
    KeyOrdered t h l' := by
  cases t with
  | name => exact List.Pairwise.sublist hl hs
  | offset => exact List.Pairwise.sublist hl hs

end Keys

section Insert

variable {arr : Arr} {h : Heap} {p : Ptr}

/-- An empty file is appended. -/
theorem keyOrdered_append (ht : arr.type = .offset) (hs : KeyOrdered arr.type h arr.list)
    (hr : ∀ q ∈ arr.list, KeyRule arr.type (h q)) (hp : KeyRule arr.type (h p))
    (h0 : (h p).length = 0) : KeyOrdered arr.type h (insertAt arr.list arr.list.length p) := by
  rw [ht] at hs hr hp ⊢
  refine pairwise_insertAt hs (fun j q _ hq => ?_) (fun j q hj hq => ?_)
  · have hrq := hr q (List.mem_of_getElem? hq)
    rw [offsetBefore_iff hrq hp]
    unfold KeyRule at hp hrq
    split_ifs at hp hrq <;> omega
  · have := (List.getElem?_eq_some_iff.mp hq).1
    omega

/-- The position for a file is `-1` exactly on a clash, and keeps the order otherwise. -/
theorem arrGetIndex_insert (hs : KeyOrdered arr.type h arr.list)
    (hr : ∀ q ∈ arr.list, KeyRule arr.type (h q)) (hp : KeyRule arr.type (h p)) :
    (arrGetIndex (h p) arr h true = .ok (-1) ∧ Clash arr.type h arr.list (h p)) ∨
      ∃ i : ℕ, arrGetIndex (h p) arr h true = .ok (i : ℤ) ∧ i ≤ arr.list.length ∧
        ¬ Clash arr.type h arr.list (h p) ∧ KeyOrdered arr.type h (insertAt arr.list i p) := by
  by_cases h0 : arr.type = .offset ∧ (h p).length = 0
  · obtain ⟨ht, h0⟩ := h0
    refine Or.inr ⟨_, arrGetIndex_of_empty ht h0, le_rfl, ?_, keyOrdered_append ht hs hr hp h0⟩
    rw [ht]
    rintro ⟨hpos, -⟩
    omega
  have hclash : Clash arr.type h arr.list (h p) ↔
      ∃ q ∈ arr.list, SameKey arr.type (h p) (h q) := by
    cases ht : arr.type with
    | name => exact Iff.rfl
    | offset => exact and_iff_right (Nat.pos_of_ne_zero fun hz => h0 ⟨ht, hz⟩)
  rw [hclash]
  rcases @arrGetIndex_ordered (h p) arr h hs true (fun hl => h0 hl.2) with
    ⟨z, q, hz, hk, hi⟩ | ⟨hnone, i, hi, hri⟩
  · exact Or.inl ⟨hi, q, List.mem_of_getElem? hz, hk⟩
  · refine Or.inr ⟨i, hri, hi.le, ?_, keyOrdered_insertAt hs hi⟩
    rintro ⟨q, hq, hk⟩
    exact hnone q hq hk

/-- `arr_sorted_insert`: it changes nothing on a clash, and puts the file in its place otherwise. -/
theorem arrSortedInsert_spec (hok : IdxOk arr.type h arr.list)
    (hs : KeyOrdered arr.type h arr.list) (hr : ∀ q ∈ arr.list, KeyRule arr.type (h q))
    (hmem : p ∉ arr.list) (hcap : arr.size < arr.capacity) (hp : KeyRule arr.type (h p)) :
    (arrSortedInsert p arr h = .ok (-1, arr, h) ∧ Clash arr.type h arr.list (h p)) ∨
      ∃ (i : ℕ) (arr' : Arr) (h' : Heap), arrSortedInsert p arr h = .ok ((i : ℤ), arr', h') ∧
        ¬ Clash arr.type h arr.list (h p) ∧ KeyOrdered arr.type h (insertAt arr.list i p) ∧
        Inserted i p arr h arr' h' := by
  rcases arrGetIndex_insert hs hr hp with ⟨hi, hc⟩ | ⟨i, hi, hle, hc, hord⟩
  · refine Or.inl ⟨?_, hc⟩
    unfold arrSortedInsert
    rw [Run.assert_of hcap, Run.ok_bind, hi]
    rfl
  · obtain ⟨arr', h', hins, hI⟩ := arrInsert_spec hle hcap hok hmem
    refine Or.inr ⟨i, arr', h', ?_, hc, hord, hI⟩
    unfold arrSortedInsert
    rw [Run.assert_of hcap, Run.ok_bind, hi, Run.ok_bind, if_neg (by omega), hins]
    rfl

end Insert

/-- What holds of an array after the events `es`. -/
structure ArrKept (t : ArrType) (es : List ArrEvent) (s : Arr × Heap) : Prop where
  type_eq : s.1.type = t
  held : ∀ p, p ∈ s.1.list ↔ Held es p
  gone : ∀ p, Gone es p → p ∉ s.1.list ∧ (s.2 p).pos t = -1
  idxOk : IdxOk t s.2 s.1.list
  rule : ∀ p ∈ s.1.list, KeyRule t (s.2 p)
  ordered : KeyOrdered t s.2 s.1.list

section Step

variable {t : ArrType} {es : List ArrEvent} {arr : Arr} {h : Heap} {p q : Ptr} {r : ℤ}

theorem held_inserted : Held (es ++ [.inserted p r]) q ↔ (q = p ∧ 0 ≤ r) ∨ Held es q := by
  unfold Held
  rw [Trace.since_snoc]
  constructor
  · rintro (⟨r', he, h0⟩ | ⟨hq, -⟩)
    · cases he
      exact Or.inl ⟨rfl, h0⟩
    · exact Or.inr hq
  · rintro (⟨rfl, h0⟩ | hq)
    · exact Or.inl ⟨r, rfl, h0⟩
    · exact Or.inr ⟨hq, by simp⟩

theorem held_removed : Held (es ++ [.removed p]) q ↔ q ≠ p ∧ Held es q := by
  unfold Held
  rw [Trace.since_snoc]
  constructor
  · rintro (⟨r', he, -⟩ | ⟨hq, hne⟩)
    · cases he
    · exact ⟨fun he => hne (by rw [he]), hq⟩
  · rintro ⟨hne, hq⟩
    exact Or.inr ⟨hq, fun he => hne (by cases he; rfl)⟩

theorem held_edited : Held (es ++ [.edited]) q ↔ Held es q := by
  unfold Held
  rw [Trace.since_snoc]
  simp

theorem gone_inserted (hq : Gone (es ++ [.inserted p r]) q) :
    Gone es q ∧ (0 ≤ r → q ≠ p) := by
  rcases Trace.since_snoc.mp hq with he | ⟨hq, hne⟩
  · cases he
  · exact ⟨hq, fun h0 he => hne ⟨r, by rw [he], h0⟩⟩

theorem gone_removed (hq : Gone (es ++ [.removed p]) q) : q = p ∨ Gone es q := by
  rcases Trace.since_snoc.mp hq with he | ⟨hq, -⟩
  · cases he
    exact Or.inl rfl
  · exact Or.inr hq

theorem gone_edited (hq : Gone (es ++ [.edited]) q) : Gone es q := by
  rcases Trace.since_snoc.mp hq with he | ⟨hq, -⟩
  · cases he
  · exact hq

theorem ArrKept.insert (hk : ArrKept t es (arr, h)) (ha : (ArrOp.insert p).Allowed (arr, h)) :
    ∃ e s', ArrOp.step (.insert p) (arr, h) = .ok (e, s') ∧ ArrKept t (es ++ [e]) s' := by
  obtain ⟨rfl, hheld, hout, hok, hrule, hord⟩ := hk
  dsimp only at hheld hout hok hrule hord
  obtain ⟨hmem, hcap, hp⟩ := ha
  rcases arrSortedInsert_spec hok hord hrule hmem hcap hp with
    ⟨hr, -⟩ | ⟨i, arr', h', hr, -, hord', hI⟩
  · refine ⟨.inserted p (-1), (arr, h), by simp [ArrOp.step, hr], rfl, fun q => ?_, fun q hq => ?_,
      hok, hrule, hord⟩
    · rw [held_inserted, ← hheld q]
      simp
    · exact hout q (gone_inserted hq).1
  · obtain rfl := hI.arr_eq
    have hrule' : ∀ q ∈ insertAt arr.list i p, KeyRule arr.type (h q) := by
      intro q hq
      rcases mem_insertAt.mp hq with rfl | hq
      · exact hp
      · exact hrule q hq
    refine ⟨.inserted p i, ({ arr with list := insertAt arr.list i p }, h'),
      by simp [ArrOp.step, hr], rfl, fun q => ?_, fun q hq => ?_, hI.idxOk,
      fun q hq => hI.posOnly.keyRule (hrule' q hq), hord'.posOnly hrule' hI.posOnly⟩
    · rw [held_inserted, ← hheld q, mem_insertAt]
      simp
    · obtain ⟨hq, hne⟩ := gone_inserted hq
      obtain ⟨hnot, hpos⟩ := hout q hq
      have hnot' : q ∉ insertAt arr.list i p := by
        rw [mem_insertAt]
        exact not_or.mpr ⟨hne (by omega), hnot⟩
      refine ⟨hnot', ?_⟩
      dsimp only
      rw [hI.outside q hnot', hpos]

theorem ArrKept.remove (hk : ArrKept t es (arr, h)) (ha : (ArrOp.remove r).Allowed (arr, h)) :
    ∃ e s', ArrOp.step (.remove r) (arr, h) = .ok (e, s') ∧ ArrKept t (es ++ [e]) s' := by
  obtain ⟨rfl, hheld, hout, hok, hrule, hord⟩ := hk
  dsimp only at hheld hout hok hrule hord
  obtain ⟨h0, hlt⟩ := ha
  obtain ⟨i, rfl⟩ := Int.eq_ofNat_of_zero_le h0
  have hi : i < arr.list.length := by exact_mod_cast hlt
  obtain ⟨arr', h', hr, hR⟩ := arrRemove_spec hok (List.getElem?_eq_getElem hi)
  obtain rfl := hR.arr_eq
  have hsub : ∀ q ∈ arr.list.erase arr.list[i], q ∈ arr.list := fun q => List.mem_of_mem_erase
  have hord' : KeyOrdered arr.type h (arr.list.erase arr.list[i]) :=
    hord.sublist List.erase_sublist
  refine ⟨.removed arr.list[i], ({ arr with list := arr.list.erase arr.list[i] }, h'),
    by simp [ArrOp.step, hr], rfl, fun q => ?_, fun q hq => ?_, hR.idxOk,
    fun q hq => hR.posOnly.keyRule (hrule q (hsub q hq)),
    hord'.posOnly (fun q hq => hrule q (hsub q hq)) hR.posOnly⟩
  · rw [held_removed, ← hheld q]
    exact hok.nodup.mem_erase_iff
  · rcases gone_removed hq with rfl | hq
    · exact ⟨fun hm => (hok.nodup.mem_erase_iff.mp hm).1 rfl, hR.pos_eq⟩
    · obtain ⟨hnot, hpos⟩ := hout q hq
      refine ⟨fun hm => hnot (hsub q hm), ?_⟩
      dsimp only
      rw [hR.outside q hnot, hpos]

theorem ArrKept.edit {f : FileT} (hk : ArrKept t es (arr, h))
    (ha : (ArrOp.edit p f).Allowed (arr, h)) :
    ∃ e s', ArrOp.step (.edit p f) (arr, h) = .ok (e, s') ∧ ArrKept t (es ++ [e]) s' := by
  obtain ⟨rfl, hheld, hout, hok, hrule, hord⟩ := hk
  dsimp only at hheld hout hok hrule hord
  obtain ⟨hpos, hkey⟩ := ha
  have hpos' : ∀ q, (h.set p f q).pos arr.type = (h q).pos arr.type := by
    intro q
    by_cases hq : q = p
    · rw [hq, Heap.set_self, hpos]
    · rw [Heap.set_of_ne _ _ hq]
  have hkey' : ∀ q ∈ arr.list, KeptKey arr.type (h q) (h.set p f q) ∧
      KeyRule arr.type (h.set p f q) := by
    intro q hm
    by_cases hq : q = p
    · subst hq
      rw [Heap.set_self]
      exact hkey hm
    · rw [Heap.set_of_ne _ _ hq]
      refine ⟨?_, hrule q hm⟩
      cases arr.type <;> rfl
  refine ⟨.edited, (arr, h.set p f), rfl, rfl, fun q => ?_, fun q hq => ?_,
    hok.congr_pos fun q _ => hpos' q, fun q hq => (hkey' q hq).2,
    hord.congr hrule (fun q hq => (hkey' q hq).2) (fun q hq => (hkey' q hq).1)⟩
  · rw [held_edited, ← hheld q]
  · obtain ⟨hnot, hp⟩ := hout q (gone_edited hq)
    exact ⟨hnot, (hpos' q).trans hp⟩

/-- Every allowed operation completes and keeps the array in order. -/
theorem ArrKept.step {op : ArrOp} {s : Arr × Heap} (hk : ArrKept t es s) (ha : op.Allowed s) :
    ∃ e s', op.step s = .ok (e, s') ∧ ArrKept t (es ++ [e]) s' := by
  obtain ⟨arr, h⟩ := s
  cases op with
  | insert p => exact hk.insert ha
  | remove i => exact hk.remove ha
  | edit p f => exact hk.edit ha

theorem arrKept_nil (t : ArrType) (capacity : ℕ) (h : Heap) :
    ArrKept t [] (⟨capacity, t, []⟩, h) where
  type_eq := rfl
  held p := ⟨fun hp => absurd hp List.not_mem_nil, fun hp => absurd hp Trace.not_since_nil⟩
  gone p hp := absurd hp Trace.not_since_nil
  idxOk i p hp := by simp at hp
  rule p hp := absurd hp List.not_mem_nil
  ordered := by cases t <;> exact List.Pairwise.nil

end Step

/-- After any interleaving of allowed operations on an array that `arr_init` made: the array holds
the files inserted and not removed since, each once, sorted, with their positions, and the next
insertion is refused exactly on a clash, without an effect. -/
theorem sortedArr_run {capacity : ℤ} {t : ArrType} {arr₀ : Arr}
    (h₀ : arrInit capacity t = .ok arr₀) (heap : Heap) (ops : List ArrOp)
    (hops : Trace.Along ArrOp.step ArrOp.Allowed ops (arr₀, heap)) :
    ∃ es arr h, Trace.run ArrOp.step ops (arr₀, heap) = .ok (es, arr, h) ∧
      (∀ p, p ∈ arr.list ↔ Held es p) ∧ arr.list.Nodup ∧ KeySorted t h arr.list ∧
      IdxOk t h arr.list ∧ (∀ p, Gone es p → (h p).pos t = -1) ∧
      ∀ p, (ArrOp.insert p).Allowed (arr, h) →
        ∃ r arr' h', arrSortedInsert p arr h = .ok (r, arr', h') ∧
          (r = -1 ↔ Clash t h arr.list (h p)) ∧ (r = -1 → arr' = arr ∧ h' = h) ∧
          (r ≠ -1 → 0 ≤ r ∧ arr'.list[r.toNat]? = some p) := by
  have hinit : ArrKept t [] (arr₀, heap) := by
    obtain ⟨_, -, harr⟩ := Run.bind_eq_ok.mp h₀
    obtain rfl := Except.ok.inj harr
    exact arrKept_nil t _ heap
  obtain ⟨es, ⟨arr, h⟩, hrun, hk⟩ := Trace.run_history
    (fun _ _ _ hk ha => hk.step ha) ops [] _ hinit hops
  obtain ⟨rfl, hheld, hout, hok, hrule, hord⟩ := hk
  refine ⟨es, arr, h, hrun, hheld, hok.nodup, hord.keySorted hrule, hok,
    fun p hp => (hout p hp).2, ?_⟩
  rintro p ⟨hmem, hcap, hp⟩
  rcases arrSortedInsert_spec hok hord hrule hmem hcap hp with
    ⟨hr, hc⟩ | ⟨i, arr', h', hr, hc, -, hI⟩
  · exact ⟨-1, arr, h, hr, ⟨fun _ => hc, fun _ => rfl⟩, fun _ => ⟨rfl, rfl⟩,
      fun hne => absurd rfl hne⟩
  · refine ⟨i, arr', h', hr, ⟨fun hneg => by omega, fun hcl => absurd hcl hc⟩,
      fun hneg => by omega, fun _ => ⟨by omega, ?_⟩⟩
    rw [hI.arr_eq, Int.toNat_natCast, getElem?_insertAt hI.le]
    simp

/-- Two files go in, one of them twice. -/
theorem sortedArr_run_twice :
    let heap : Heap := fun p =>
      ⟨.ofField [], if p = 1 then maxFileDataLen else 0, if p = 1 then 0 else 8, 0, -1, -1⟩
    let ops : List ArrOp := [.insert 1, .insert 0, .insert 2, .remove 0, .insert 2]
    ∃ es arr h, Trace.run ArrOp.step ops (⟨4, .offset, []⟩, heap) = .ok (es, arr, h) ∧
      (∀ p, p ∈ arr.list ↔ Held es p) ∧ arr.list.Nodup ∧ KeySorted .offset h arr.list ∧
      IdxOk .offset h arr.list ∧ (∀ p, Gone es p → (h p).pos .offset = -1) ∧
      ∀ p, (ArrOp.insert p).Allowed (arr, h) →
        ∃ r arr' h', arrSortedInsert p arr h = .ok (r, arr', h') ∧
          (r = -1 ↔ Clash .offset h arr.list (h p)) ∧ (r = -1 → arr' = arr ∧ h' = h) ∧
          (r ≠ -1 → 0 ≤ r ∧ arr'.list[r.toNat]? = some p) := by
  intro heap ops
  exact @sortedArr_run 4 .offset _ rfl heap ops (by decide)

end Vfs
