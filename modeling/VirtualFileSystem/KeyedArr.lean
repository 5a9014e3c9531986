import VirtualFileSystem.Lib.KeyedSet
import VirtualFileSystem.SortedArr

/-!
# Arrays and their keys

For its callers an array is a set of files under keys: names, or offsets of the files that hold
bytes.  Calls that search by a key (`arrGetByKey`, `arrRemoveByKey`) and insertions refine the
calls of such a set (`KeyedSet.Keyed`), and the array stays sorted.
-/

namespace Vfs

open KeyedSet

/-- What an array is searched for. -/
inductive Key
  | offset (o : ℕ)
  | name (n : FileName)
  deriving DecidableEq

/-- The key of a file in an array of kind `t`; files of size zero share the offset, which is no
key. -/
def keyOf (t : ArrType) (f : FileT) : Option Key :=
  match t with
  | .offset => if f.length = 0 then none else some (.offset f.offset)
  | .name => some (.name f.name)

/-- The key that a search for `f` looks for. -/
def soughtKey (t : ArrType) (f : FileT) : Key :=
  match t with
  | .offset => .offset f.offset
  | .name => .name f.name

/-- The key that `f` stands for can be looked for. -/
def Sought (t : ArrType) (fileDataLen : ℕ) (f : FileT) : Prop :=
  match t with
  | .offset => f.offset < fileDataLen
  | .name => f.name.bytes ≠ []

instance (t : ArrType) (fileDataLen : ℕ) (f : FileT) : Decidable (Sought t fileDataLen f) := by
  unfold Sought; cases t <;> infer_instance

/-- The calls that use the keys of an array. -/
inductive KeyedOp
  | insert (p : Ptr)
  | get (f : FileT)
  | remove (f : FileT)

/-- The call on an array; an insertion answers with the file unless it is refused. -/
def KeyedOp.exec (fileDataLen : ℕ) : KeyedOp → Arr × Heap → Run (Option Ptr × Arr × Heap)
  | .insert p, (arr, h) => do
    let (r, arr, h) ← arrSortedInsert p arr h
    pure (if r < 0 then none else some p, arr, h)
  | .get f, (arr, h) => do
    let r ← arrGetByKey f arr h fileDataLen
    pure (r, arr, h)
  | .remove f, (arr, h) => arrRemoveByKey f arr h fileDataLen

section Keyed

variable {t : ArrType} {f g : FileT} {h h' heap : Heap} {l : List Ptr} {arr : Arr}
  {fileDataLen capacity : ℕ} {p : Ptr} {s : Keyed fun p => keyOf t (heap p)}

/-- The call on a set of files with the keys they have in `heap`. -/
def KeyedOp.reference (fileDataLen : ℕ) (t : ArrType) (heap : Heap) :
    KeyedOp → (Keyed fun p => keyOf t (heap p)) → Option Ptr × Keyed fun p => keyOf t (heap p)
  | .insert p, s => s.insert p
  | .get f, s => (if Sought t fileDataLen f then s.find (soughtKey t f) else none, s)
  | .remove f, s => if Sought t fileDataLen f then s.remove (soughtKey t f) else (none, s)

/-- Only a file that is not in the array is inserted, and only while there is room. -/
def KeyedOp.Allowed (capacity : ℕ) (t : ArrType) (heap : Heap) :
    KeyedOp → (Keyed fun p => keyOf t (heap p)) → Prop
  | .insert p, s => p ∉ s.items ∧ s.items.length < capacity ∧ KeyRule t (heap p)
  | .get _, _ | .remove _, _ => True

instance (op : KeyedOp) : Decidable (op.Allowed capacity t heap s) := by
  cases op <;> unfold KeyedOp.Allowed <;> infer_instance

theorem keyOf_same (hf : f.Same g) : keyOf t f = keyOf t g := by
  unfold keyOf
  rw [hf.1, hf.2.1, hf.2.2.1]

theorem sameKey_iff : SameKey t f g ↔ keyOf t g = some (soughtKey t f) := by
  cases t with
  | offset =>
    unfold SameKey keyOf soughtKey
    dsimp only
    split_ifs with h0
    · simp [h0]
    · simp [Nat.pos_of_ne_zero h0]
  | name =>
    unfold SameKey keyOf soughtKey
    simp

theorem clash_iff_keyOf :
    Clash t h l f ↔ ∃ q ∈ l, keyOf t f ≠ none ∧ keyOf t (h q) = keyOf t f := by
  cases t with
  | offset =>
    unfold Clash keyOf
    dsimp only
    constructor
    · rintro ⟨h0, q, hq, ho, hq0⟩
      refine ⟨q, hq, ?_⟩
      rw [if_neg h0.ne', if_neg hq0.ne', ho]
      exact ⟨Option.some_ne_none _, rfl⟩
    · rintro ⟨q, hq, hne, heq⟩
      have h0 : f.length ≠ 0 := fun h0 => hne (if_pos h0)
      rw [if_neg h0] at heq
      split_ifs at heq with hq0
      exact ⟨Nat.pos_of_ne_zero h0, q, hq, by simpa using heq, Nat.pos_of_ne_zero hq0⟩
  | name =>
    unfold Clash keyOf
    simp

/-- The array holds the files of the set, sorted, and only positions were written. -/
structure Reflects (t : ArrType) (capacity : ℕ) (heap : Heap) (a : Arr × Heap)
    (s : Keyed fun p => keyOf t (heap p)) : Prop where
  type_eq : a.1.type = t
  capacity_eq : a.1.capacity = capacity
  perm : a.1.list.Perm s.items
  idxOk : IdxOk t a.2 a.1.list
  rule : ∀ p ∈ a.1.list, KeyRule t (a.2 p)
  ordered : KeyOrdered t a.2 a.1.list
  posOnly : PosOnly t heap a.2

theorem Reflects.key (hr : Reflects t capacity heap (arr, h) s) (p : Ptr) :
    keyOf t (h p) = keyOf t (heap p) := keyOf_same (hr.posOnly.same p)

theorem Reflects.clash_iff (hr : Reflects t capacity heap (arr, h) s) :
    Clash t h arr.list (h p) ↔ s.Taken p := by
  rw [clash_iff_keyOf]
  unfold Keyed.Taken
  constructor
  · rintro ⟨q, hq, hne, heq⟩
    rw [hr.key] at hne heq
    rw [hr.key] at heq
    exact ⟨q, hr.perm.mem_iff.mp hq, hne, heq⟩
  · rintro ⟨q, hq, hne, heq⟩
    refine ⟨q, hr.perm.mem_iff.mpr hq, ?_⟩
    rw [hr.key, hr.key]
    exact ⟨hne, heq⟩

/-- An insertion is refused if the key is taken. -/
theorem Reflects.insert (hr : Reflects t capacity heap (arr, h) s)
    (ha : (KeyedOp.insert p).Allowed capacity t heap s) :
    ∃ a, (KeyedOp.insert p).exec fileDataLen (arr, h) = .ok ((s.insert p).1, a) ∧
      Reflects t capacity heap a (s.insert p).2 := by
  obtain ⟨hmem, hroom, hrule⟩ := ha
  obtain rfl := hr.type_eq
  have hmem' : p ∉ arr.list := fun hp => hmem (hr.perm.mem_iff.mp hp)
  have hlen : arr.size < arr.capacity := by
    have hl := hr.perm.length_eq
    have hc := hr.capacity_eq
    dsimp only at hl hc
    unfold Arr.size
    omega
  rcases arrSortedInsert_spec hr.idxOk hr.ordered hr.rule hmem' hlen (hr.posOnly.keyRule hrule)
    with ⟨hrun, hclash⟩ | ⟨i, arr', h', hrun, hclash, hord, hins⟩
  · have hs : s.insert p = (none, s) := dif_neg fun hn => hn.2 (hr.clash_iff.mp hclash)
    refine ⟨(arr, h), ?_, ?_⟩
    · rw [hs]
      unfold KeyedOp.exec
      simp only [hrun, Run.ok_bind]
      rfl
    · rw [hs]
      exact hr
  · have hfree : p ∉ s.items ∧ ¬ s.Taken p := ⟨hmem, fun ht => hclash (hr.clash_iff.mpr ht)⟩
    have hs : (s.insert p).1 = some p ∧ (s.insert p).2.items = p :: s.items := by
      unfold Keyed.insert
      rw [dif_pos hfree]
      exact ⟨rfl, rfl⟩
    have harr := hins.arr_eq
    refine ⟨(arr', h'), ?_, ?_⟩
    · rw [hs.1]
      unfold KeyedOp.exec
      simp only [hrun, Run.ok_bind]
      rw [if_neg (by omega)]
      rfl
    · have hmem_iff : ∀ q ∈ arr'.list, q = p ∨ q ∈ arr.list := fun q hq => by
        rw [harr] at hq
        exact mem_insertAt.mp hq
      have hrule' : ∀ q ∈ arr'.list, KeyRule arr.type (h q) := fun q hq => by
        rcases hmem_iff q hq with rfl | hq
        · exact hr.posOnly.keyRule hrule
        · exact hr.rule q hq
      exact
        { type_eq := by rw [harr]
          capacity_eq := by rw [harr]; exact hr.capacity_eq
          perm := by
            rw [hs.2, harr]
            exact (insertAt_perm arr.list i p).trans (hr.perm.cons p)
          idxOk := hins.idxOk
          rule := fun q hq => hins.posOnly.keyRule (hrule' q hq)
          ordered := by
            have hord' : KeyOrdered arr.type h arr'.list := by rw [harr]; exact hord
            exact hord'.posOnly hrule' hins.posOnly
          posOnly := hr.posOnly.trans hins.posOnly }

theorem validKey_iff (ht : arr.type = t) : validKey f arr fileDataLen ↔ Sought t fileDataLen f := by
  subst ht
  exact Iff.rfl

/-- A search finds the file that has the key. -/
theorem Reflects.search (hr : Reflects t capacity heap (arr, h) s) (f : FileT) :
    arrGetByKey f arr h fileDataLen =
      .ok (if Sought t fileDataLen f then s.find (soughtKey t f) else none) := by
  obtain rfl := hr.type_eq
  unfold arrGetByKey
  by_cases hv : Sought arr.type fileDataLen f
  · rw [if_neg (not_not.mpr ((validKey_iff rfl).mpr hv)), if_pos hv]
    rcases @arrGetIndex_ordered f arr h hr.ordered false (by simp)
      with ⟨z, q, hq, hsame, hz⟩ | ⟨hnone, i, -, hz⟩
    · have hmem : q ∈ arr.list := List.mem_of_getElem? hq
      have hkey : keyOf arr.type (heap q) = some (soughtKey arr.type f) := by
        rw [← hr.key]
        exact sameKey_iff.mp hsame
      have hlt : z < arr.list.length := (List.getElem?_eq_some_iff.mp hq).1
      have hget : arrGet z arr = .ok q := by
        unfold arrGet
        rw [Run.assert_of (by unfold Arr.size; omega), Run.ok_bind, Int.toNat_natCast,
          List.getD_eq_getElem?_getD, hq]
        rfl
      rw [hz, Run.ok_bind, if_neg (by simp), Keyed.find_of_mem (hr.perm.mem_iff.mp hmem) hkey]
      simp only [Bool.false_eq_true, if_false, hget, Run.ok_bind, Run.pure_eq]
    · have hfind : s.find (soughtKey arr.type f) = none := by
        cases hf : s.find (soughtKey arr.type f) with
        | none => rfl
        | some q =>
          obtain ⟨hq, hk⟩ := Keyed.mem_of_find hf
          refine absurd (sameKey_iff.mpr ?_) (hnone q (hr.perm.mem_iff.mpr hq))
          rw [hr.key]
          exact hk
      rw [hz, Run.ok_bind, hfind]
      rfl
  · rw [if_pos (fun hk => hv ((validKey_iff rfl).mp hk)), if_neg hv]
    rfl

/-- Taking a file out of the array takes it out of the set. -/
theorem Reflects.erase (hr : Reflects t capacity heap (arr, h) s) (hp : p ∈ s.items) :
    ∃ a, arrRemove ((h p).pos t) arr h = .ok (p, a) ∧
      Reflects t capacity heap a (s.erase p) := by
  obtain rfl := hr.type_eq
  obtain ⟨i, hpos, hi⟩ := hr.idxOk.getElem?_pos (hr.perm.mem_iff.mpr hp)
  obtain ⟨arr', h', hrun, hrem⟩ := arrRemove_spec hr.idxOk hi
  have harr := hrem.arr_eq
  have hsub : arr'.list.Sublist arr.list := by
    rw [harr]
    exact List.erase_sublist
  have hrule : ∀ q ∈ arr'.list, KeyRule arr.type (h q) := fun q hq => hr.rule q (hsub.subset hq)
  refine ⟨(arr', h'), by rw [hpos]; exact hrun, ?_⟩
  exact
    { type_eq := by rw [harr]
      capacity_eq := by rw [harr]; exact hr.capacity_eq
      perm := by rw [harr]; exact hr.perm.erase p
      idxOk := hrem.idxOk
      rule := fun q hq => hrem.posOnly.keyRule (hrule q hq)
      ordered := (hr.ordered.sublist hsub).posOnly hrule hrem.posOnly
      posOnly := hr.posOnly.trans hrem.posOnly }

/-- A removal takes out the file that has the key. -/
theorem Reflects.remove (hr : Reflects t capacity heap (arr, h) s) (f : FileT) :
    ∃ a, (KeyedOp.remove f).exec fileDataLen (arr, h) =
        .ok (((KeyedOp.remove f).reference fileDataLen t heap s).1, a) ∧
      Reflects t capacity heap a ((KeyedOp.remove f).reference fileDataLen t heap s).2 := by
  have hsearch : arrGetByKey f arr h fileDataLen = _ := hr.search f
  unfold KeyedOp.exec KeyedOp.reference arrRemoveByKey
  dsimp only
  by_cases hv : Sought t fileDataLen f
  · rw [if_pos hv] at hsearch
    rw [if_pos hv, if_neg (not_not.mpr ((validKey_iff hr.type_eq).mpr hv)), hsearch, Run.ok_bind]
    unfold Keyed.remove
    cases hf : s.find (soughtKey t f) with
    | none => exact ⟨(arr, h), rfl, hr⟩
    | some q =>
      obtain ⟨a, hrun, ha⟩ := hr.erase (Keyed.mem_of_find hf).1
      have htype : arr.type = t := hr.type_eq
      refine ⟨a, ?_, ha⟩
      dsimp only
      rw [htype, hrun]
      rfl
  · rw [if_neg hv, if_pos (fun hk => hv ((validKey_iff hr.type_eq).mp hk))]
    exact ⟨(arr, h), rfl, hr⟩

/-- One call. -/
theorem Reflects.step {op : KeyedOp} {a : Arr × Heap} (hr : Reflects t capacity heap a s)
    (ha : op.Allowed capacity t heap s) :
    ∃ a', op.exec fileDataLen a = .ok ((op.reference fileDataLen t heap s).1, a') ∧
      Reflects t capacity heap a' (op.reference fileDataLen t heap s).2 := by
  obtain ⟨arr, h⟩ := a
  cases op with
  | insert p => exact hr.insert ha
  | get f =>
    refine ⟨(arr, h), ?_, hr⟩
    unfold KeyedOp.exec
    simp only [hr.search f, Run.ok_bind]
    rfl
  | remove f => exact hr.remove f

/-- **Arrays are sets under keys.**  From a new array every run of insertions, searches and
removals by key completes and answers as the set of files does; the array holds the files of the
set, sorted, each at the position it stores. -/
theorem keyedArr_run {capacity : ℤ} {arr₀ : Arr} (h₀ : arrInit capacity t = .ok arr₀)
    (heap : Heap) (fileDataLen : ℕ) (ops : List KeyedOp)
    (hops : Trace.Along (fun op s => (.ok (op.reference fileDataLen t heap s) : Run _))
      (fun op => op.Allowed capacity.toNat t heap) ops (Keyed.empty _)) :
    ∃ rs arr h s, Trace.run (KeyedOp.exec fileDataLen) ops (arr₀, heap) = .ok (rs, arr, h) ∧
      Trace.run (fun op s => (.ok (op.reference fileDataLen t heap s) : Run _)) ops
        (Keyed.empty _) = .ok (rs, s) ∧
      arr.list.Perm s.items ∧ KeySorted t h arr.list ∧ IdxOk t h arr.list ∧
      ∀ p, (h p).Same (heap p) := by
  obtain ⟨_, -, harr⟩ := Run.bind_eq_ok.mp h₀
  obtain rfl := Except.ok.inj harr
  have hnew : Reflects t capacity.toNat heap (⟨capacity.toNat, t, []⟩, heap) (Keyed.empty _) :=
    { type_eq := rfl
      capacity_eq := rfl
      perm := List.Perm.nil
      idxOk := fun i p hp => by simp at hp
      rule := fun p hp => absurd hp List.not_mem_nil
      ordered := by cases t <;> exact List.Pairwise.nil
      posOnly := PosOnly.refl t heap }
  obtain ⟨rs, ⟨arr, h⟩, s, hrun, href, hr⟩ := @Trace.run_follows _ _ _ _ _
    (KeyedOp.exec fileDataLen) (KeyedOp.reference fileDataLen t heap)
    (Reflects t capacity.toNat heap) (fun op => op.Allowed capacity.toNat t heap)
    (fun _ _ _ hr ha => hr.step ha) ops _ _ hnew hops
  exact ⟨rs, arr, h, s, hrun, href, hr.perm, hr.ordered.keySorted hr.rule, hr.idxOk,
    hr.posOnly.same⟩

end Keyed

/-- Files 0 and 3 want one offset, and file 1 has size zero. -/
def sharedHeap : Heap := fun p =>
  if p = 1 then ⟨.ofField [], maxFileDataLen, 0, 0, -1, -1⟩
  else ⟨.ofField [], if p = 2 then 8 else 0, 8, 0, -1, -1⟩

/-- File 3 goes in once file 0 was taken out, and the file of size zero is not found. -/
def sharedOps : List KeyedOp :=
  [.insert 0, .insert 1, .insert 2, .insert 3, .remove (sharedHeap 3), .insert 3,
    .get (sharedHeap 0), .remove (sharedHeap 1)]

set_option maxRecDepth 20000 in
theorem keyedArr_run_shared : ∃ rs arr h,
    Trace.run (KeyedOp.exec 256) sharedOps (⟨4, .offset, []⟩, sharedHeap) = .ok (rs, arr, h) ∧
    rs = [some 0, some 1, some 2, none, some 0, some 3, some 3, none] ∧
    arr.list.Perm [3, 2, 1] ∧ KeySorted .offset h arr.list := by
  obtain ⟨rs, arr, h, s, hrun, href, hperm, hsorted, -, -⟩ :=
    @keyedArr_run .offset 4 _ rfl sharedHeap 256 sharedOps (by decide +kernel)
  obtain ⟨x, hx, hrs, hitems⟩ := Run.holds_iff.mp
    (show Run.Holds (Trace.run (fun op s =>
        (.ok (KeyedOp.reference 256 .offset sharedHeap op s) : Run _)) sharedOps (Keyed.empty _))
      (fun x => x.1 = [some 0, some 1, some 2, none, some 0, some 3, some 3, none] ∧
        x.2.items = [3, 2, 1]) by decide +kernel)
  obtain rfl := Except.ok.inj (href.symm.trans hx)
  exact ⟨rs, arr, h, hrun, hrs, hitems ▸ hperm, hsorted⟩

end Vfs
