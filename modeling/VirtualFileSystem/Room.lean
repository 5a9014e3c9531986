import VirtualFileSystem.Repack
import VirtualFileSystem.MirrorCalls

/-!
# Room for a file

The offset array is lined up if its extents come in order and do not overlap.  On such an array
the first-fit search of `new_file_offset` ends and returns free room only, an insertion of a file
that takes free room keeps the array lined up, and a repack with room leaves everything behind the
files free.
-/

namespace Vfs

open FlatImage Extents

/-- The extents of the files come in order, and no two of them overlap. -/
def Lined (h : Heap) (l : List Ptr) : Prop := (exts h l).Pairwise Extent.Before

/-- Files at the sentinel offset are empty. -/
def SentinelEmpty (h : Heap) (l : List Ptr) : Prop :=
  ∀ p ∈ l, maxFileDataLen ≤ (h p).offset → (h p).length = 0

/-- No file uses a byte of `[o, o + length)`. -/
def FreeAt (h : Heap) (l : List Ptr) (o length : ℕ) : Prop :=
  ∀ p ∈ l, 0 < (h p).length → (h p).offset + (h p).length ≤ o ∨ o + length ≤ (h p).offset

/-- No room for `length` bytes of `file_data` starts before `e`. -/
def NoRoomBefore (length : ℕ) (s : Filesys) (e : ℕ) : Prop :=
  ∀ o, FreeAt s.heap s.oList.list o length → o + length ≤ s.fileDataLen → e ≤ o

instance (h : Heap) (l : List Ptr) : Decidable (Lined h l) := by
  unfold Lined; infer_instance

section Lined

variable {h h' : Heap} {l l' : List Ptr} {p q : Ptr} {o length : ℕ}

theorem Lined.rel (hl : Lined h l) :
    l.Pairwise fun p q => (ext h p).Before (ext h q) := List.pairwise_map.mp hl

theorem Lined.sorted (hl : Lined h l) : OffsetSorted h l := hl.rel.imp fun hpq => hpq.1

theorem Lined.congr (hl : Lined h l)
    (hh : ∀ p ∈ l, (h' p).offset = (h p).offset ∧ (h' p).length = (h p).length) :
    Lined h' l := by
  unfold Lined
  rwa [exts_congr hh]

theorem Lined.sublist (hl : Lined h l) (hs : l'.Sublist l) : Lined h l' :=
  hl.rel.sublist hs |>.map _ fun _ _ hpq => hpq

theorem Lined.apart (hl : Lined h l) (hp : p ∈ l) (hq : q ∈ l) (hne : p ≠ q) :
    (ext h p).Apart (ext h q) := by
  have hpair : (exts h l).Pairwise Extent.Apart :=
    List.Pairwise.imp (fun {x y} hxy h0 h1 => Or.inl (hxy.2 h0 h1)) hl
  exact apart_of_pairwise hpair p hp q hq hne

/-- A file takes free room between the files in front of it and those behind it. -/
theorem lined_insertAt {i : ℕ} (hl : Lined h l)
    (hh : ∀ q ∈ l, (h' q).offset = (h q).offset ∧ (h' q).length = (h q).length)
    (h1 : ∀ (j : ℕ) q, j < i → l[j]? = some q → (h q).offset ≤ (h' p).offset)
    (h2 : ∀ (j : ℕ) q, i ≤ j → l[j]? = some q → (h' p).offset < (h q).offset)
    (hfree : FreeAt h l (h' p).offset (h' p).length) : Lined h' (insertAt l i p) := by
  refine List.pairwise_map.mpr (pairwise_insertAt (hl.congr hh).rel ?_ ?_)
  · intro j q hj hq
    have hmem := List.mem_of_getElem? hq
    have hle := h1 j q hj hq
    unfold Extent.Before Extent.stop
    simp only [ext_start, ext_len, (hh q hmem).1, (hh q hmem).2]
    refine ⟨hle, fun h0 hp0 => ?_⟩
    have := hfree q hmem h0
    omega
  · intro j q hj hq
    have hmem := List.mem_of_getElem? hq
    have hlt := h2 j q hj hq
    unfold Extent.Before Extent.stop
    simp only [ext_start, ext_len, (hh q hmem).1, (hh q hmem).2]
    refine ⟨hlt.le, fun hp0 h0 => ?_⟩
    have := hfree q hmem h0
    omega

/-- A file takes free room behind all others. -/
theorem lined_append (hl : Lined h l)
    (hh : ∀ q ∈ l, (h' q).offset = (h q).offset ∧ (h' q).length = (h q).length)
    (h1 : ∀ q ∈ l, (h q).offset ≤ (h' p).offset)
    (hfree : FreeAt h l (h' p).offset (h' p).length) :
    Lined h' (insertAt l l.length p) := by
  refine lined_insertAt hl hh (fun j q _ hq => h1 q (List.mem_of_getElem? hq)) ?_ hfree
  intro j q hj hq
  rw [List.getElem?_eq_none hj] at hq
  cases hq

end Lined

/-! ## The next non-zero size file -/

section FindNext

variable {h : Heap} {l : List Ptr} {q : Ptr}

theorem findNextNonzero_eq_some (hf : findNextNonzero h l = some q) :
    ∃ A B, l = A ++ q :: B ∧ (∀ p ∈ A, (h p).length = 0) ∧ 0 < (h q).length ∧
      (h q).offset < maxFileDataLen := by
  induction l with
  | nil => cases hf
  | cons p ps ih =>
    simp only [findNextNonzero] at hf
    split_ifs at hf with h1 h2
    · obtain rfl := Option.some.inj hf
      exact ⟨[], ps, rfl, by simp, h2, by omega⟩
    · obtain ⟨A, B, rfl, hA, hq⟩ := ih hf
      refine ⟨p :: A, B, rfl, fun r hr => ?_, hq⟩
      rcases List.mem_cons.mp hr with rfl | hr
      · omega
      · exact hA r hr

theorem findNextNonzero_eq_none (hs : OffsetSorted h l) (hse : SentinelEmpty h l)
    (hf : findNextNonzero h l = none) : ∀ p ∈ l, (h p).length = 0 := by
  induction l with
  | nil => intro p hp; cases hp
  | cons p ps ih =>
    obtain ⟨hp, hps⟩ := List.pairwise_cons.mp hs
    simp only [findNextNonzero] at hf
    split_ifs at hf with h1 h2
    · -- behind a file at the sentinel offset there are only such files
      intro r hr
      refine hse r hr ?_
      rcases List.mem_cons.mp hr with rfl | hr
      · exact h1
      · exact h1.trans (hp r hr)
    · intro r hr
      rcases List.mem_cons.mp hr with rfl | hr
      · omega
      · exact ih hps (fun r hr => hse r (List.mem_cons_of_mem _ hr)) hf r hr

theorem findNextNonzero_congr {h' : Heap} (hh : ∀ p ∈ l, (h' p).Same (h p)) :
    findNextNonzero h' l = findNextNonzero h l := by
  induction l with
  | nil => rfl
  | cons p ps ih =>
    obtain ⟨-, ho, hlen, -⟩ := hh p List.mem_cons_self
    simp only [findNextNonzero, ho, hlen, ih fun r hr => hh r (List.mem_cons_of_mem _ hr)]

/-- The next non-zero size file starts before every other one. -/
theorem findNextNonzero_le (hl : Lined h l) (hf : findNextNonzero h l = some q) :
    ∀ p ∈ l, 0 < (h p).length → (h q).offset ≤ (h p).offset := by
  obtain ⟨A, B, rfl, hA, hq⟩ := findNextNonzero_eq_some hf
  intro p hp h0
  rcases List.mem_append.mp hp with hp | hp
  · exact absurd (hA p hp) h0.ne'
  · rcases List.mem_cons.mp hp with rfl | hp
    · exact le_rfl
    · have := (List.pairwise_append.mp hl.sorted).2.1
      exact (List.pairwise_cons.mp this).1 p hp

end FindNext

/-! ## The search of `new_file_offset` -/

section Gap

variable {length : ℕ} {s : Filesys} {p : Ptr} {A B : List Ptr}

/-- The elements behind a file start behind its stored position. -/
theorem drop_oIndex (hi : IdxOk .offset s.heap s.oList.list) (hl : s.oList.list = A ++ p :: B) :
    s.oList.list.drop ((s.heap p).oIndex + 1).toNat = B := by
  have hp : s.oList.list[A.length]? = some p := by rw [hl]; simp
  have hpos : (s.heap p).oIndex = A.length := hi A.length p hp
  rw [hpos, hl, show ((A.length : ℤ) + 1).toNat = A.length + 1 by omega, List.append_cons]
  exact List.drop_left' (by simp)

/-- The end of an extent in `file_data`, as the searches compute it. -/
theorem endOf_eq {h : Heap} (ho : (h p).offset < maxFileDataLen) (hlen : (h p).length < 2 ^ 32) :
    toU64 ((h p).offset + (h p).length) = (h p).offset + (h p).length := by
  unfold maxFileDataLen at ho
  exact_mod_cast toU64_of_lt (n := (h p).offset + (h p).length) (by omega)

theorem gapAfter_eq {a b : ℕ} (hle : b ≤ a) (ha : a ≤ 2 ^ 32) : toU64 ((a : ℤ) - b) = a - b := by
  rw [toU64_of_nonneg (by omega) (by omega)]
  omega

/-- What the search needs of the state. -/
structure Searchable (s : Filesys) : Prop where
  idxOk : IdxOk .offset s.heap s.oList.list
  lined : Lined s.heap s.oList.list
  sentinel : SentinelEmpty s.heap s.oList.list
  inside : ∀ p ∈ s.oList.list, 0 < (s.heap p).length →
    (s.heap p).offset + (s.heap p).length ≤ s.fileDataLen
  length_lt : ∀ p ∈ s.oList.list, (s.heap p).length < 2 ^ 32
  fileDataLen_le : s.fileDataLen ≤ 2 ^ 32

theorem Searchable.offset_lt (hs : Searchable s) (hp : p ∈ s.oList.list)
    (h0 : 0 < (s.heap p).length) : (s.heap p).offset < maxFileDataLen := by
  by_contra hcon
  exact h0.ne' (hs.sentinel p hp (by omega))

/-- In a lined up array every non-zero size file in front of another ends before it starts. -/
theorem Searchable.stop_le (hs : Searchable s) (hl : s.oList.list = A ++ p :: B) {q : Ptr}
    (hq : q ∈ A) (h0 : 0 < (s.heap q).length) (h1 : 0 < (s.heap p).length) :
    (s.heap q).offset + (s.heap q).length ≤ (s.heap p).offset := by
  have hrel := hs.lined.rel
  rw [hl] at hrel
  exact ((List.pairwise_append.mp hrel).2.2 q hq p List.mem_cons_self).2 h0 h1

/-- Without room before a file, and without enough room in front of it, there is none before its
end. -/
theorem NoRoomBefore.skip {e : ℕ} (hn : NoRoomBefore length s e) (hp : p ∈ s.oList.list)
    (h0 : 0 < (s.heap p).length) (hgap : (s.heap p).offset - e < length) :
    NoRoomBefore length s ((s.heap p).offset + (s.heap p).length) := by
  intro o hfree hin
  have hle := hn o hfree hin
  rcases hfree p hp h0 with h | h <;> omega

/-- Behind the last file with bytes there are none. -/
theorem Searchable.stop_le_last (hs : Searchable s) {A B : List Ptr} {q : Ptr}
    (hl : s.oList.list = A ++ q :: B) (hB : ∀ p ∈ B, (s.heap p).length = 0)
    (h0 : 0 < (s.heap q).length) : ∀ p ∈ s.oList.list, 0 < (s.heap p).length →
      (s.heap p).offset + (s.heap p).length ≤ (s.heap q).offset + (s.heap q).length := by
  intro p hp hp0
  rw [hl, List.mem_append, List.mem_cons] at hp
  rcases hp with hp | rfl | hp
  · exact (hs.stop_le hl hp hp0 h0).trans (Nat.le_add_right _ _)
  · exact le_rfl
  · exact absurd (hB p hp) hp0.ne'

/-- A large enough gap between two neighbours with bytes is free. -/
theorem Searchable.freeAt_gap (hs : Searchable s) {A C D : List Ptr} {prev curr : Ptr}
    (hl : s.oList.list = A ++ prev :: (C ++ curr :: D)) (hC : ∀ p ∈ C, (s.heap p).length = 0)
    (h0 : 0 < (s.heap prev).length)
    (hroom : (s.heap prev).offset + (s.heap prev).length + length ≤ (s.heap curr).offset) :
    FreeAt s.heap s.oList.list ((s.heap prev).offset + (s.heap prev).length) length := by
  have hrel := hs.lined.rel
  rw [hl, ← List.cons_append, ← List.append_assoc] at hrel
  intro p hp hp0
  rw [hl, List.mem_append, List.mem_cons, List.mem_append, List.mem_cons] at hp
  rcases hp with hp | rfl | hp | rfl | hp
  · exact Or.inl ((hs.stop_le hl hp hp0 h0).trans (Nat.le_add_right _ _))
  · exact Or.inl le_rfl
  · exact absurd (hC p hp) hp0.ne'
  · exact Or.inr hroom
  · have hle : (s.heap curr).offset ≤ (s.heap p).offset :=
      ((List.pairwise_cons.mp (List.pairwise_append.mp hrel).2.1).1 p hp).1
    exact Or.inr (hroom.trans hle)

/-- The loop looks at every gap between two neighbours until one is large enough. -/
theorem gapLoop_spec (hs : Searchable s) :
    ∀ (fuel : ℕ) (A : List Ptr) (prev : Ptr) (B : List Ptr), s.oList.list = A ++ prev :: B →
      B.length ≤ fuel → 0 < (s.heap prev).length →
      NoRoomBefore length s ((s.heap prev).offset + (s.heap prev).length) →
      ∃ r, gapLoop length s fuel prev (findNextNonzero s.heap B) = .ok r ∧
        (∀ o, r = .inl o → (FreeAt s.heap s.oList.list o length ∧ o + length ≤ s.fileDataLen) ∧
          NoRoomBefore length s o) ∧
        (∀ last, r = .inr last → (last ∈ s.oList.list ∧ 0 < (s.heap last).length ∧
          ∀ p ∈ s.oList.list, 0 < (s.heap p).length →
            (s.heap p).offset + (s.heap p).length ≤
              (s.heap last).offset + (s.heap last).length) ∧
          NoRoomBefore length s ((s.heap last).offset + (s.heap last).length)) := by
  intro fuel
  induction fuel with
  | zero =>
    intro A prev B hl hB h0 hnr
    obtain rfl := List.length_eq_zero_iff.mp (Nat.le_zero.mp hB)
    refine ⟨.inr prev, rfl, by simp, fun last he => ?_⟩
    obtain rfl := Sum.inr.inj he
    exact ⟨⟨by rw [hl]; simp, h0, hs.stop_le_last hl (fun p hp => by cases hp) h0⟩, hnr⟩
  | succ fuel ih =>
    intro A prev B hl hB h0 hnr
    have hmem : ∀ p ∈ A ++ prev :: B, p ∈ s.oList.list := fun p hp => hl ▸ hp
    have hprev : prev ∈ s.oList.list := hmem prev (by simp)
    have hBsub : B.Sublist s.oList.list := by
      rw [hl, List.append_cons]
      exact List.sublist_append_right _ _
    cases hf : findNextNonzero s.heap B with
    | none =>
      have hB0 := findNextNonzero_eq_none (hs.lined.sublist hBsub).sorted
        (fun p hp => hs.sentinel p (hBsub.subset hp)) hf
      refine ⟨.inr prev, by simp [gapLoop], by simp, fun last he => ?_⟩
      obtain rfl := Sum.inr.inj he
      exact ⟨⟨hprev, h0, hs.stop_le_last hl hB0 h0⟩, hnr⟩
    | some curr =>
      obtain ⟨C, D, rfl, hC, hc0, hcmax⟩ := findNextNonzero_eq_some hf
      have hl' : s.oList.list = (A ++ prev :: C) ++ curr :: D := by
        rw [hl, List.append_assoc, List.cons_append]
      have hcurr : curr ∈ s.oList.list := hmem curr (by simp)
      have hstop := hs.stop_le hl' (q := prev) (by simp) h0 hc0
      have hgap : toU64 ((s.heap curr).offset -
          toU64 ((s.heap prev).offset + (s.heap prev).length)) =
          (s.heap curr).offset - ((s.heap prev).offset + (s.heap prev).length) := by
        rw [endOf_eq (hs.offset_lt hprev h0) (hs.length_lt prev hprev)]
        exact gapAfter_eq hstop (by unfold maxFileDataLen at hcmax; omega)
      simp only [gapLoop]
      rw [hgap]
      by_cases hroom : (s.heap curr).offset - ((s.heap prev).offset + (s.heap prev).length) ≥ length
      · rw [if_pos hroom, endOf_eq (hs.offset_lt hprev h0) (hs.length_lt prev hprev)]
        refine ⟨_, rfl, fun o ho => ?_, by simp⟩
        obtain rfl := Sum.inl.inj ho
        have hin := hs.inside curr hcurr hc0
        exact ⟨⟨hs.freeAt_gap hl hC h0 (by omega), by omega⟩, hnr⟩
      · rw [if_neg hroom]
        have hdrop : findNextNonzeroFile ((s.heap curr).oIndex + 1) s.oList s.heap =
            findNextNonzero s.heap D := by
          unfold findNextNonzeroFile
          rw [drop_oIndex hs.idxOk hl']
        rw [hdrop]
        refine ih (A ++ prev :: C) curr D hl' ?_ hc0 (hnr.skip hcurr hc0 (by omega))
        simp only [List.length_append, List.length_cons] at hB
        omega

/-- The first-fit search ends with the first room there is, or finds that there is none. -/
theorem findGap_firstFit (hs : Searchable s) (hle : length ≤ s.fileDataLen) :
    ∃ r, findGap length s = .ok r ∧
      (∀ o, r = some o → (FreeAt s.heap s.oList.list o length ∧ o + length ≤ s.fileDataLen) ∧
        NoRoomBefore length s o) ∧
      (r = none → ∀ o, FreeAt s.heap s.oList.list o length → s.fileDataLen < o + length) := by
  unfold findGap findNextNonzeroFile
  simp only [Int.toNat_zero, List.drop_zero]
  have hstart : NoRoomBefore length s 0 := fun o _ _ => Nat.zero_le o
  cases hf : findNextNonzero s.heap s.oList.list with
  | none =>
    have h0 := findNextNonzero_eq_none hs.lined.sorted hs.sentinel hf
    refine ⟨some 0, rfl, fun o ho => ?_, by simp⟩
    obtain rfl := Option.some.inj ho
    exact ⟨⟨fun p hp hp0 => absurd (h0 p hp) hp0.ne', by omega⟩, hstart⟩
  | some first =>
    obtain ⟨A, B, hl, hA, hf0, hmax⟩ := findNextNonzero_eq_some hf
    have hfirst : first ∈ s.oList.list := by rw [hl]; simp
    simp only
    by_cases hroom : (s.heap first).offset ≥ length
    · rw [if_pos hroom]
      refine ⟨some 0, rfl, fun o ho => ?_, by simp⟩
      obtain rfl := Option.some.inj ho
      refine ⟨⟨fun p hp hp0 => Or.inr ?_, by omega⟩, hstart⟩
      have := findNextNonzero_le hs.lined hf p hp hp0
      omega
    · rw [if_neg hroom, drop_oIndex hs.idxOk hl]
      obtain ⟨r, hr, hinl, hinr⟩ := gapLoop_spec hs s.oList.size A first B hl (by
        unfold Arr.size
        rw [hl]
        simp
        omega) hf0 (hstart.skip hfirst hf0 (by omega))
      rw [hr]
      cases r with
      | inl o =>
        refine ⟨some o, rfl, fun o' ho => ?_, by simp⟩
        obtain rfl := Option.some.inj ho
        exact hinl o rfl
      | inr last =>
        obtain ⟨⟨hlast, hl0, hmaxStop⟩, hnr⟩ := hinr last rfl
        have hin := hs.inside last hlast hl0
        have hend := endOf_eq (hs.offset_lt hlast hl0) (hs.length_lt last hlast)
        have hgap : toU64 ((s.fileDataLen : ℤ) -
            toU64 ((s.heap last).offset + (s.heap last).length)) =
            s.fileDataLen - ((s.heap last).offset + (s.heap last).length) := by
          rw [hend]
          exact gapAfter_eq hin hs.fileDataLen_le
        simp only [Run.ok_bind]
        rw [hgap]
        by_cases hfit : s.fileDataLen - ((s.heap last).offset + (s.heap last).length) ≥ length
        · rw [if_pos hfit, hend]
          refine ⟨_, rfl, fun o ho => ?_, by simp⟩
          obtain rfl := Option.some.inj ho
          exact ⟨⟨fun p hp hp0 => Or.inl (hmaxStop p hp hp0), by omega⟩, hnr⟩
        · rw [if_neg hfit]
          refine ⟨none, rfl, by simp, fun _ o hfree => ?_⟩
          -- room inside `file_data` would start behind the last file
          by_contra hcon
          have := hnr o hfree (by omega)
          omega

/-- The room the search returns is free. -/
theorem findGap_spec (hs : Searchable s) (hle : length ≤ s.fileDataLen) :
    ∃ r, findGap length s = .ok r ∧ ∀ o, r = some o →
      FreeAt s.heap s.oList.list o length ∧ o + length ≤ s.fileDataLen := by
  obtain ⟨r, hr, hsome, -⟩ := findGap_firstFit hs hle
  exact ⟨r, hr, fun o ho => (hsome o ho).1⟩

end Gap

/-! ## Repacking with room -/

section Repack

variable {s s' : Filesys} {ho : ℤ} {l : List Ptr} {h : Heap}

theorem total_exts (h : Heap) (l : List Ptr) : total (exts h l) = totalLength h l := by
  unfold total exts totalLength
  rw [List.map_map]
  rfl

theorem exts_append (h : Heap) (l l' : List Ptr) : exts h (l ++ l') = exts h l ++ exts h l' :=
  List.map_append

/-- A repack with room packs the files: they stay lined up, end within the sum of their lengths,
and only files at the sentinel offset start behind it. -/
structure PackedBy (s s' : Filesys) : Prop where
  lined : Lined s'.heap s.oList.list
  stop_le : ∀ p ∈ s.oList.list, 0 < (s'.heap p).length →
    (s'.heap p).offset + (s'.heap p).length ≤ totalLength s.heap s.oList.list
  start_le : ∀ p ∈ s.oList.list, (s'.heap p).offset ≤ totalLength s.heap s.oList.list ∨
    maxFileDataLen ≤ (s.heap p).offset ∧ (s'.heap p).offset = (s.heap p).offset

theorem repackHelper_packedBy (hnd : s.oList.list.Nodup)
    (hlen : ∀ p ∈ s.oList.list, (s.heap p).length < 2 ^ 32)
    (hlined : Lined s.heap s.oList.list) (hse : SentinelEmpty s.heap s.oList.list)
    (htotal : totalLength s.heap s.oList.list ≤ maxFileDataLen)
    (hroomy : Roomy 0 (exts s.heap s.oList.list)) (hused : 0 < s.used)
    (hr : repackHelper s = .ok (ho, s')) : PackedBy s s' := by
  obtain ⟨hi, hl, hhi⟩ := movable_split hlined.sorted
  have hroomy : Roomy 0 (exts s.heap (movable s)) := by
    rw [hl, exts_append] at hroomy
    exact hroomy.of_append
  rcases repackHelper_slid hnd hlen hr with ⟨hnil | h0, rfl, -⟩ | ⟨-, hslid, -⟩
  · refine ⟨hlined, ?_, ?_⟩ <;> rw [hnil] <;> intro p hp <;> cases hp
  · omega
  have hlo : Lined s.heap (movable s) := hlined.sublist (hl ▸ List.sublist_append_left _ _)
  have hhi0 : ∀ p ∈ hi, (s.heap p).length = 0 := fun p hp =>
    hse p (by rw [hl]; simp [hp]) (hhi p hp)
  have hsum : total (exts s.heap (movable s)) = totalLength s.heap s.oList.list := by
    have hz : total (exts s.heap hi) = 0 := by
      unfold total exts
      rw [List.map_map]
      exact List.sum_eq_zero fun x hx => by
        obtain ⟨p, hp, rfl⟩ := List.mem_map.mp hx
        exact hhi0 p hp
    rw [← total_exts, hl, exts_append, total_append, hz]
    rfl
  have hpacked : Packed 0 (exts s'.heap (movable s)) := by
    rw [hslid.slides]
    exact slide_packed _ 0 hlo (above_zero _) hroomy
  have hstart : ∀ p ∈ movable s, (s'.heap p).offset ≤ totalLength s.heap s.oList.list := by
    intro p hp
    have hmem : ext s'.heap p ∈ exts s'.heap (movable s) := List.mem_map_of_mem hp
    rw [hslid.slides] at hmem
    have := slide_start_le _ _ _ hmem
    rw [hsum] at this
    simpa using this
  have hhis : ∀ p ∈ hi, s'.heap p = s.heap p := by
    intro p hp
    refine hslid.outside p fun hm => ?_
    rw [hl] at hnd
    exact (List.nodup_append.mp hnd).2.2 p hm p hp rfl
  have htot' : total (exts s'.heap (movable s)) = totalLength s.heap s.oList.list := by
    rw [hslid.slides, total_slide, hsum]
  refine ⟨?_, ?_, ?_⟩
  · rw [hl]
    unfold Lined
    rw [exts_append]
    refine List.pairwise_append.mpr ⟨?_, ?_, ?_⟩
    · have hsorted : (exts s'.heap (movable s)).Pairwise fun x y => x.start ≤ y.start := by
        rw [hslid.slides]
        exact slide_sorted _ 0 (hlo.imp fun hxy => hxy.1)
      exact (hsorted.and hpacked.pairwise).imp id
    · rw [exts_congr fun p hp => by rw [hhis p hp]; exact ⟨rfl, rfl⟩]
      exact hlined.sublist (hl ▸ List.sublist_append_right _ _)
    · intro x hx y hy
      obtain ⟨p, hp, rfl⟩ := List.mem_map.mp hx
      obtain ⟨q, hq, rfl⟩ := List.mem_map.mp hy
      have h1 := hstart p hp
      have h2 := hhi q hq
      unfold Extent.Before
      simp only [ext_start, ext_len, hhis q hq, hhi0 q hq]
      exact ⟨by omega, fun _ h => absurd h (lt_irrefl 0)⟩
  · intro p hp hp0
    rw [hl, List.mem_append] at hp
    rcases hp with hp | hp
    · have := hpacked.inside (ext s'.heap p) (List.mem_map_of_mem hp) hp0
      rw [htot', Nat.zero_add] at this
      exact this
    · rw [hhis p hp, hhi0 p hp] at hp0
      exact absurd hp0 (lt_irrefl 0)
  · intro p hp
    rw [hl, List.mem_append] at hp
    rcases hp with hp | hp
    · exact Or.inl (hstart p hp)
    · exact Or.inr ⟨hhi p hp, by rw [hhis p hp]⟩

end Repack

end Vfs
