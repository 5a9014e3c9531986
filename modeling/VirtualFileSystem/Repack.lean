import VirtualFileSystem.Lib.Extents
import VirtualFileSystem.Init

/-!
# Repacking slides the extents

`repack_helper` slides the files of `o_list` up to the first one at the sentinel offset, the head of
the list included.  In memory, in `file_data` and in the offset it returns it agrees with `slide`,
`slideImage` and `firstMoved`, whatever the state.  Whether it preserves contents is then a question
about extents: it does exactly if the files of size zero leave room.
-/

namespace Vfs

open FlatImage Extents

/-! ## Extents of files -/

/-- The extent of a file. -/
def ext (h : Heap) (p : Ptr) : Extent := ⟨(h p).offset, (h p).length⟩

/-- The extents of files, in order. -/
def exts (h : Heap) (l : List Ptr) : List Extent := l.map (ext h)

@[simp] theorem ext_start (h : Heap) (p : Ptr) : (ext h p).start = (h p).offset := rfl
@[simp] theorem ext_len (h : Heap) (p : Ptr) : (ext h p).len = (h p).length := rfl

@[simp] theorem exts_nil (h : Heap) : exts h [] = [] := rfl
@[simp] theorem exts_cons (h : Heap) (p : Ptr) (l : List Ptr) :
    exts h (p :: l) = ext h p :: exts h l := rfl

theorem exts_congr {h h' : Heap} {l : List Ptr}
    (hh : ∀ p ∈ l, (h' p).offset = (h p).offset ∧ (h' p).length = (h p).length) :
    exts h' l = exts h l := by
  refine List.map_congr_left fun p hp => ?_
  unfold ext
  rw [(hh p hp).1, (hh p hp).2]

/-- The files the loop of `repack_helper` reaches. -/
def reached (h : Heap) (l : List Ptr) : List Ptr :=
  l.takeWhile fun p => (h p).offset < maxFileDataLen

/-- The files `repack_helper` slides: the head of `o_list`, and the loop's. -/
def movable (s : Filesys) : List Ptr :=
  match s.oList.list with
  | [] => []
  | p :: ps => p :: reached s.heap ps

/-- The offset `repack_helper` returns for the first non-zero size file that moved. -/
def hashStart (o : Option ℕ) : ℤ :=
  match o with
  | none => -1
  | some h => h

section Reached

variable {h h' : Heap} {p : Ptr} {l ps : List Ptr}

theorem reached_cons_of_lt (hp : (h p).offset < maxFileDataLen) :
    reached h (p :: ps) = p :: reached h ps := by
  simp [reached, hp]

theorem reached_cons_of_ge (hp : maxFileDataLen ≤ (h p).offset) : reached h (p :: ps) = [] := by
  simp [reached, hp]

theorem reached_congr (hh : ∀ p ∈ l, (h' p).offset = (h p).offset) :
    reached h' l = reached h l := by
  induction l with
  | nil => rfl
  | cons p ps ih =>
    have ih := ih fun q hq => hh q (List.mem_cons_of_mem _ hq)
    by_cases hp : (h p).offset < maxFileDataLen
    · rw [reached_cons_of_lt (by rw [hh p List.mem_cons_self]; exact hp), reached_cons_of_lt hp, ih]
    · rw [reached_cons_of_ge (by rw [hh p List.mem_cons_self]; omega),
        reached_cons_of_ge (by omega)]

theorem prefix_reached (h : Heap) (l : List Ptr) : reached h l <+: l := List.takeWhile_prefix _

end Reached

/-! ## The loop -/

/-- The files `lo` slid from the end `e` of their predecessor, the others stayed. -/
structure Slid (e : ℕ) (lo : List Ptr) (s s' : Filesys) : Prop where
  slides : exts s'.heap lo = slide e (exts s.heap lo)
  file : s'.file = slideImage e (exts s.heap lo) s.file
  outside : ∀ q ∉ lo, s'.heap q = s.heap q

theorem repackMove_file {p : Ptr} {new : ℕ} {s s' : Filesys} (hr : repackMove p new s = .ok s') :
    s'.file = splice s.file (toU32 new) (slice s.file (s.heap p).offset (s.heap p).length) ∧
      s'.heap = s.heap.set p { s.heap p with offset := toU32 new } := by
  obtain ⟨file, rfl, -, h0, h1⟩ := repackMove_post hr
  refine ⟨?_, rfl⟩
  rcases Nat.eq_zero_or_pos (s.heap p).length with hz | hz
  · rw [hz, slice_zero, splice_nil]
    exact h0 hz
  · exact (h1 hz).2

section Slid

variable {e : ℕ} {p : Ptr} {lo : List Ptr} {s s₁ s' : Filesys}

/-- A file that starts at or before the end of its predecessor stays. -/
theorem Slid.cons_stay (h : Slid ((s.heap p).offset + (s.heap p).length) lo s s') (hp : p ∉ lo)
    (hle : (s.heap p).offset ≤ e) : Slid e (p :: lo) s s' := by
  have hext : ext s'.heap p = ext s.heap p := by
    unfold ext
    rw [h.outside p hp]
  have hle' : (ext s.heap p).start ≤ e := hle
  refine ⟨?_, ?_, fun q hq => ?_⟩
  · rw [exts_cons, exts_cons, slide_cons_of_le _ hle', hext, h.slides]
    rfl
  · rw [exts_cons, slideImage_cons_of_le _ _ hle', h.file]
    rfl
  · rw [List.mem_cons, not_or] at hq
    exact h.outside q hq.2

/-- A file that starts behind the end of its predecessor is moved there. -/
theorem Slid.cons_moved (h : Slid (e + (s.heap p).length) lo s₁ s') (hp : p ∉ lo)
    (hlt : e < (s.heap p).offset)
    (hfile : s₁.file = splice s.file e (slice s.file (s.heap p).offset (s.heap p).length))
    (hheap : s₁.heap = s.heap.set p { s.heap p with offset := e }) : Slid e (p :: lo) s s' := by
  have hother : ∀ q, q ≠ p → s₁.heap q = s.heap q := fun q hq => by
    rw [hheap, Heap.set_of_ne _ _ hq]
  have hexts : exts s₁.heap lo = exts s.heap lo := exts_congr fun q hq => by
    rw [hother q fun he => hp (he ▸ hq)]
    exact ⟨rfl, rfl⟩
  have hext : ext s'.heap p = ⟨e, (ext s.heap p).len⟩ := by
    unfold ext
    rw [h.outside p hp, hheap, Heap.set_self]
  have hlt' : e < (ext s.heap p).start := hlt
  refine ⟨?_, ?_, fun q hq => ?_⟩
  · rw [exts_cons, exts_cons, slide_cons_of_lt _ hlt', hext, h.slides, hexts]
    rfl
  · rw [exts_cons, slideImage_cons_of_lt _ _ hlt', h.file, hexts, hfile]
    rfl
  · rw [List.mem_cons, not_or] at hq
    rw [h.outside q hq.2, hother q hq.1]

end Slid

theorem repackLoop_slid : ∀ (ps : List Ptr) (prev : Ptr) (ho ho' : ℤ) (s s' : Filesys),
    (prev :: ps).Nodup → (∀ p ∈ prev :: ps, (s.heap p).length < 2 ^ 32) →
    (s.heap prev).offset < maxFileDataLen → -1 ≤ ho → repackLoop prev ps ho s = .ok (ho', s') →
    Slid ((s.heap prev).offset + (s.heap prev).length) (reached s.heap ps) s s' ∧
      ho' = if 0 ≤ ho then ho else hashStart (firstMoved
        ((s.heap prev).offset + (s.heap prev).length) (exts s.heap (reached s.heap ps))) := by
  intro ps
  induction ps with
  | nil =>
    intro prev ho ho' s s' _ _ _ hho hr
    obtain ⟨rfl, rfl⟩ := Prod.mk.inj (Except.ok.inj hr)
    refine ⟨⟨rfl, rfl, fun _ _ => rfl⟩, ?_⟩
    simp only [reached, List.takeWhile_nil, exts_nil, firstMoved, hashStart]
    split_ifs <;> omega
  | cons p ps ih =>
    intro prev ho ho' s s' hnd hlen hprev hho hr
    obtain ⟨-, hnd'⟩ := List.nodup_cons.mp hnd
    have hpps : p ∉ ps := (List.nodup_cons.mp hnd').1
    have hreached : p ∉ reached s.heap ps := fun h => hpps ((prefix_reached _ _).subset h)
    have hend : toU64 ((s.heap prev).offset + (s.heap prev).length) =
        (s.heap prev).offset + (s.heap prev).length := by
      have := hlen prev List.mem_cons_self
      unfold maxFileDataLen at hprev
      exact_mod_cast toU64_of_lt (n := (s.heap prev).offset + (s.heap prev).length) (by omega)
    simp only [repackLoop, hend] at hr
    obtain ⟨e, he⟩ : ∃ e, e = (s.heap prev).offset + (s.heap prev).length := ⟨_, rfl⟩
    rw [← he] at hr ⊢
    by_cases h1 : (s.heap p).offset ≥ maxFileDataLen
    · -- the first file at the sentinel offset ends the loop
      rw [if_pos h1] at hr
      obtain ⟨rfl, rfl⟩ := Prod.mk.inj (Except.ok.inj hr)
      rw [reached_cons_of_ge h1]
      refine ⟨⟨rfl, rfl, fun _ _ => rfl⟩, ?_⟩
      simp only [exts_nil, firstMoved, hashStart]
      split_ifs <;> omega
    rw [if_neg h1] at hr
    have hlt : (s.heap p).offset < maxFileDataLen := by omega
    rw [reached_cons_of_lt hlt, exts_cons]
    by_cases h2 : (s.heap p).offset > e
    · rw [if_pos h2] at hr
      obtain ⟨s₁, hm, hr⟩ := Run.bind_eq_ok.mp hr
      obtain ⟨hfile, hheap⟩ := repackMove_file hm
      rw [toU32_of_lt (by unfold maxFileDataLen at hlt; omega)] at hfile hheap
      have hself : s₁.heap p = { s.heap p with offset := e } := by rw [hheap, Heap.set_self]
      have hps : ∀ q ∈ ps, s₁.heap q = s.heap q := fun q hq => by
        have hqp : q ≠ p := fun h => hpps (h ▸ hq)
        rw [hheap, Heap.set_of_ne _ _ hqp]
      have hreach : reached s₁.heap ps = reached s.heap ps :=
        reached_congr fun q hq => by rw [hps q hq]
      have hexts : exts s₁.heap (reached s.heap ps) = exts s.heap (reached s.heap ps) :=
        exts_congr fun q hq => by rw [hps q ((prefix_reached _ _).subset hq)]; exact ⟨rfl, rfl⟩
      obtain ⟨hslid, hho'⟩ := ih p _ ho' s₁ s' hnd' (fun q hq => by
        rcases List.mem_cons.mp hq with rfl | hq
        · rw [hself]
          exact hlen q (List.mem_cons_of_mem _ List.mem_cons_self)
        · rw [hps q hq]
          exact hlen q (List.mem_cons_of_mem _ (List.mem_cons_of_mem _ hq)))
        (by rw [hself]; exact lt_trans h2 hlt) (by split_ifs <;> omega) hr
      rw [hreach, hself] at hslid
      rw [hreach, hself, hexts] at hho'
      refine ⟨hslid.cons_moved hreached h2 hfile hheap, ?_⟩
      have h2' : e < (ext s.heap p).start := h2
      rw [hho']
      by_cases h0 : (s.heap p).length = 0
      · rw [firstMoved_cons_of_empty _ h2' h0]
        rw [if_neg (show ¬ (ho < 0 ∧ (s.heap p).length ≠ 0) from fun h => h.2 h0)]
        rfl
      · rw [firstMoved_cons_of_lt _ h2' (Nat.pos_of_ne_zero h0)]
        by_cases hho0 : 0 ≤ ho
        · rw [if_neg (show ¬ (ho < 0 ∧ _) by omega), if_pos hho0, if_pos hho0]
        · rw [if_pos (show ho < 0 ∧ (s.heap p).length ≠ 0 from ⟨by omega, h0⟩), if_neg hho0,
            if_pos (by omega)]
          rfl
    · rw [if_neg h2] at hr
      obtain ⟨hslid, hho'⟩ := ih p ho ho' s s' hnd'
        (fun q hq => hlen q (List.mem_cons_of_mem _ hq)) hlt hho hr
      refine ⟨hslid.cons_stay hreached (not_lt.mp h2), ?_⟩
      have h2' : (ext s.heap p).start ≤ e := not_lt.mp h2
      rw [hho', firstMoved_cons_of_le _ h2']
      rfl

/-- `repack_helper` does nothing, or slides the movable files from offset zero. -/
theorem repackHelper_slid {s s' : Filesys} {ho : ℤ} (hnd : s.oList.list.Nodup)
    (hlen : ∀ p ∈ s.oList.list, (s.heap p).length < 2 ^ 32)
    (hr : repackHelper s = .ok (ho, s')) :
    ((s.oList.list = [] ∨ s.used ≤ 0) ∧ s' = s ∧ ho = -1) ∨
    (0 < s.used ∧ Slid 0 (movable s) s s' ∧
      ho = hashStart (firstMoved 0 (exts s.heap (movable s)))) := by
  unfold repackHelper at hr
  unfold movable
  cases hl : s.oList.list with
  | nil =>
    rw [hl] at hr
    obtain ⟨rfl, rfl⟩ := Prod.mk.inj (Except.ok.inj hr)
    exact Or.inl ⟨Or.inl rfl, rfl, rfl⟩
  | cons p ps =>
    rw [hl] at hr hnd hlen
    dsimp only at hr ⊢
    by_cases hu : s.used ≤ 0
    · rw [if_pos hu] at hr
      obtain ⟨rfl, rfl⟩ := Prod.mk.inj (Except.ok.inj hr)
      exact Or.inl ⟨Or.inr hu, rfl, rfl⟩
    rw [if_neg hu] at hr
    refine Or.inr ⟨by omega, ?_⟩
    have hpps : p ∉ ps := (List.nodup_cons.mp hnd).1
    have hmem : ∀ q ∈ reached s.heap ps, q ∈ ps := fun q hq => (prefix_reached _ _).subset hq
    by_cases h0 : (s.heap p).offset > 0
    · rw [if_pos h0] at hr
      obtain ⟨s₁, hm, hr⟩ := Run.bind_eq_ok.mp hr
      obtain ⟨hfile, hheap⟩ := repackMove_file hm
      have hself : s₁.heap p = { s.heap p with offset := 0 } := by
        rw [hheap, Heap.set_self]
        rfl
      have hother : ∀ q, q ≠ p → s₁.heap q = s.heap q := fun q hq => by
        rw [hheap, Heap.set_of_ne _ _ hq]
      have hps : ∀ q ∈ ps, s₁.heap q = s.heap q := fun q hq => hother q fun h => hpps (h ▸ hq)
      have hreach : reached s₁.heap ps = reached s.heap ps :=
        reached_congr fun q hq => by rw [hps q hq]
      have hexts : exts s₁.heap (reached s.heap ps) = exts s.heap (reached s.heap ps) :=
        exts_congr fun q hq => by rw [hps q (hmem q hq)]; exact ⟨rfl, rfl⟩
      obtain ⟨⟨he, hf, hout⟩, hho'⟩ := repackLoop_slid ps p _ ho s₁ s' hnd (fun q hq => by
        rcases List.mem_cons.mp hq with rfl | hq
        · rw [hself]
          exact hlen q List.mem_cons_self
        · rw [hps q hq]
          exact hlen q (List.mem_cons_of_mem _ hq))
        (by rw [hself]; exact (by decide : 0 < maxFileDataLen)) (by split_ifs <;> omega) hr
      rw [hreach, hself, hexts] at he hf hho'
      rw [hreach] at hout
      have hp' : s'.heap p = s₁.heap p := hout p fun h => hpps (hmem p h)
      have hext : ext s'.heap p = ⟨0, (ext s.heap p).len⟩ := by
        unfold ext
        rw [hp', hself]
      have h0' : 0 < (ext s.heap p).start := h0
      refine ⟨⟨?_, ?_, fun q hq => ?_⟩, ?_⟩
      · rw [exts_cons, exts_cons, slide_cons_of_lt _ h0', hext, he]
        rfl
      · rw [exts_cons, slideImage_cons_of_lt _ _ h0', hf, hfile]
        rfl
      · rw [List.mem_cons, not_or] at hq
        rw [hout q hq.2, hother q hq.1]
      · rw [hho', exts_cons]
        by_cases hz : (s.heap p).length = 0
        · rw [firstMoved_cons_of_empty _ h0' hz, if_neg (not_not.mpr hz), if_neg (by decide)]
          rfl
        · rw [firstMoved_cons_of_lt _ h0' (Nat.pos_of_ne_zero hz), if_pos hz, if_pos le_rfl]
          rfl
    · rw [if_neg h0] at hr
      have hzero : (s.heap p).offset = 0 := by omega
      obtain ⟨⟨he, hf, hout⟩, hho'⟩ := repackLoop_slid ps p _ ho s s' hnd hlen
        (by rw [hzero]; decide) (by omega) hr
      have hp' : s'.heap p = s.heap p := hout p fun h => hpps (hmem p h)
      have hext : ext s'.heap p = ext s.heap p := by
        unfold ext
        rw [hp']
      have h0' : (ext s.heap p).start ≤ 0 := hzero.le
      refine ⟨⟨?_, ?_, fun q hq => ?_⟩, ?_⟩
      · rw [exts_cons, exts_cons, slide_cons_of_le _ h0', hext, he]
        rfl
      · rw [exts_cons, slideImage_cons_of_le _ _ h0', hf]
        rfl
      · rw [List.mem_cons, not_or] at hq
        exact hout q hq.2
      · rw [hho', if_neg (by decide), exts_cons, firstMoved_cons_of_le _ h0']
        rfl

/-! ## Contents -/

/-- `o_list` is sorted by offset, and the extents of its files lie apart inside `file_data`. -/
structure ExtentsOk (s : Filesys) : Prop where
  sorted : OffsetSorted s.heap s.oList.list
  apart : ∀ p ∈ s.oList.list, ∀ q ∈ s.oList.list, p ≠ q → (ext s.heap p).Apart (ext s.heap q)
  inside : ∀ p ∈ s.oList.list, 0 < (s.heap p).length →
    (s.heap p).offset + (s.heap p).length ≤ s.fileDataLen

/-- Every non-zero size file has its length and its bytes, and no two extents overlap. -/
structure ContentsKept (s s' : Filesys) : Prop where
  bytes : ∀ p ∈ s.oList.list, 0 < (s.heap p).length → (s'.heap p).length = (s.heap p).length ∧
    slice s'.file (s'.heap p).offset (s'.heap p).length =
      slice s.file (s.heap p).offset (s.heap p).length
  apart : ∀ p ∈ s.oList.list, ∀ q ∈ s.oList.list, p ≠ q → (ext s'.heap p).Apart (ext s'.heap q)

section Contents

variable {s s' : Filesys} {h : Heap} {l : List Ptr}

theorem before_exts (hs : OffsetSorted h l) (hnd : l.Nodup)
    (ha : ∀ p ∈ l, ∀ q ∈ l, p ≠ q → (ext h p).Apart (ext h q)) :
    (exts h l).Pairwise Extent.Before := by
  unfold exts
  rw [List.pairwise_map]
  refine List.Pairwise.imp_of_mem (fun {p q} hp hq hpq => ⟨hpq.1, fun h0 h1 => ?_⟩) (hs.and hnd)
  have hle : (ext h p).start ≤ (ext h q).start := hpq.1
  rcases ha p hp q hq hpq.2 h0 h1 with h2 | h2
  · exact h2
  · unfold Extent.stop at h2
    omega

theorem ExtentsOk.before (hok : ExtentsOk s) (hnd : s.oList.list.Nodup) :
    (exts s.heap s.oList.list).Pairwise Extent.Before := before_exts hok.sorted hnd hok.apart

/-- The movable files come first, and the files behind them are at the sentinel offset or behind
it. -/
theorem movable_split (hs : OffsetSorted s.heap s.oList.list) :
    ∃ hi, s.oList.list = movable s ++ hi ∧ ∀ p ∈ hi, maxFileDataLen ≤ (s.heap p).offset := by
  unfold movable
  cases hl : s.oList.list with
  | nil => exact ⟨[], rfl, by simp⟩
  | cons p ps =>
    refine ⟨ps.dropWhile fun q => (s.heap q).offset < maxFileDataLen, ?_, fun q hq => ?_⟩
    · simp [reached]
    · rw [hl] at hs
      have hsorted : OffsetSorted s.heap ps := (List.pairwise_cons.mp hs).2
      -- the first file that stops the loop is at the sentinel offset, the others behind it
      have hdrop := hsorted.sublist (List.dropWhile_sublist
        (fun q => decide ((s.heap q).offset < maxFileDataLen)))
      cases hd : ps.dropWhile fun q => (s.heap q).offset < maxFileDataLen with
      | nil =>
        rw [hd] at hq
        cases hq
      | cons r rs =>
        have hr : maxFileDataLen ≤ (s.heap r).offset := by
          have := List.head_dropWhile_not (l := ps)
            (fun q => decide ((s.heap q).offset < maxFileDataLen)) (by rw [hd]; simp)
          simp only [hd, List.head_cons, decide_eq_false_iff_not] at this
          omega
        rw [hd] at hq hdrop
        rcases List.mem_cons.mp hq with rfl | hq
        · exact hr
        · exact hr.trans ((List.pairwise_cons.mp hdrop).1 q hq)

theorem above_zero (l : List Extent) : Above 0 l := fun _ _ _ => Nat.zero_le _

/-- The extents in front of a non-empty one fit in front of it. -/
theorem total_le_start : ∀ {l : List Extent} {e : ℕ} {y : Extent}, l.Pairwise Extent.Before →
    Above e l → (∀ x ∈ l, x.Before y) → 0 < y.len → e ≤ y.start → e + total l ≤ y.start := by
  intro l
  induction l with
  | nil => intro e y _ _ _ _ he; simpa using he
  | cons x xs ih =>
    intro e y hl ha hy h0 he
    rw [total_cons, ← Nat.add_assoc]
    refine ih (List.pairwise_cons.mp hl).2 (above_tail hl ha)
      (fun z hz => hy z (List.mem_cons_of_mem _ hz)) h0 ?_
    rcases Nat.eq_zero_or_pos x.len with hx | hx
    · omega
    · have h1 := (hy x List.mem_cons_self).2 hx h0
      have h2 := ha x List.mem_cons_self hx
      unfold Extent.stop at h1
      omega

theorem apart_of_pairwise (hp : (exts h l).Pairwise Extent.Apart) :
    ∀ p ∈ l, ∀ q ∈ l, p ≠ q → (ext h p).Apart (ext h q) := by
  unfold exts at hp
  rw [List.pairwise_map] at hp
  intro p hpl q hql hpq
  have hsymm : Std.Symm fun a b => (ext h a).Apart (ext h b) := ⟨fun _ _ h => h.symm⟩
  exact hp.forall hpl hql hpq

theorem pairwise_of_apart (hnd : l.Nodup)
    (ha : ∀ p ∈ l, ∀ q ∈ l, p ≠ q → (ext h p).Apart (ext h q)) :
    (exts h l).Pairwise Extent.Apart := by
  unfold exts
  rw [List.pairwise_map]
  exact hnd.pairwise_of_forall_ne ha

/-- The bytes of a file that slid with room are at its new offset. -/
theorem Slid.bytes {lo : List Ptr} (hs : Slid 0 lo s s')
    (hlo : (exts s.heap lo).Pairwise Extent.Before) (hroomy : Roomy 0 (exts s.heap lo))
    (hin : Inside s.file.length (exts s.heap lo)) :
    ∀ p ∈ lo, 0 < (s.heap p).length →
      slice s'.file (s'.heap p).offset (s.heap p).length =
        slice s.file (s.heap p).offset (s.heap p).length := by
  obtain ⟨-, -, h3⟩ := slideImage_spec (exts s.heap lo) 0 s.file hlo (above_zero _) hroomy hin
  rw [← hs.slides, ← hs.file] at h3
  unfold exts at h3
  rw [List.forall₂_map_left_iff, List.forall₂_map_right_iff, List.forall₂_same] at h3
  exact h3

/-- **Repacking preserves contents** exactly if the files of size zero leave room. -/
theorem repackHelper_contentsKept_iff {ho : ℤ} (hnd : s.oList.list.Nodup)
    (hlen : ∀ p ∈ s.oList.list, (s.heap p).length < 2 ^ 32) (hok : ExtentsOk s)
    (hr : repackHelper s = .ok (ho, s')) :
    ContentsKept s s' ↔ s.used ≤ 0 ∨ Roomy 0 (exts s.heap (movable s)) := by
  have hframe := repackHelper_frame hr
  rcases repackHelper_slid hnd hlen hr with ⟨hidle, rfl, -⟩ | ⟨hused, hslid, -⟩
  · refine iff_of_true ⟨fun p _ _ => ⟨rfl, rfl⟩, hok.apart⟩ ?_
    rcases hidle with hl | hu
    · right
      unfold movable
      rw [hl]
      trivial
    · exact Or.inl hu
  obtain ⟨hi, hsplit, hhi⟩ := movable_split hok.sorted
  have hbefore := hok.before hnd
  have hexts : exts s'.heap s.oList.list =
      slide 0 (exts s.heap (movable s)) ++ exts s.heap hi := by
    have hnot : ∀ q ∈ hi, q ∉ movable s := by
      rw [hsplit] at hnd
      exact fun q hq hm => List.disjoint_of_nodup_append hnd hm hq
    rw [hsplit, ← hslid.slides]
    unfold exts
    rw [List.map_append]
    congr 1
    refine List.map_congr_left fun q hq => ?_
    unfold ext
    rw [hslid.outside q (hnot q hq)]
  have hsplit' : exts s.heap s.oList.list = exts s.heap (movable s) ++ exts s.heap hi := by
    rw [hsplit]
    exact List.map_append
  rw [hsplit', List.pairwise_append] at hbefore
  obtain ⟨hlo, hhib, hcross⟩ := hbefore
  constructor
  · intro hk
    right
    by_contra hroomy
    have hpair := pairwise_of_apart hnd hk.apart
    rw [hexts] at hpair
    exact overlap_of_not_roomy _ 0 [] hlo (above_zero _) hroomy (fun i hi => by omega)
      (List.pairwise_append.mp hpair).1
  · intro hroomy
    have hroomy := hroomy.resolve_left (by omega)
    have hin : Inside s.file.length (exts s.heap (movable s)) := by
      intro x hx h0
      obtain ⟨p, hp, rfl⟩ := List.mem_map.mp hx
      exact hok.inside p (by rw [hsplit]; exact List.mem_append_left _ hp) h0
    have hpacked := slide_packed _ 0 hlo (above_zero _) hroomy
    -- a file behind the movable ones starts behind all of them
    have hfit : ∀ q ∈ hi, 0 < (s.heap q).length →
        0 + total (exts s.heap (movable s)) ≤ (s.heap q).offset := fun q hq h0 =>
      total_le_start hlo (above_zero _)
        (fun x hx => hcross x hx (ext s.heap q) (List.mem_map_of_mem hq)) h0 (Nat.zero_le _)
    refine ⟨fun p hp h0 => ?_, apart_of_pairwise ?_⟩
    · rw [hframe.offsetOnly.length p]
      refine ⟨rfl, ?_⟩
      rw [hsplit] at hp hnd
      rcases List.mem_append.mp hp with hp | hp
      · exact hslid.bytes hlo hroomy hin p hp h0
      · have hnot : p ∉ movable s := fun hm => List.disjoint_of_nodup_append hnd hm hp
        obtain ⟨-, h2, -⟩ := slideImage_spec _ 0 s.file hlo (above_zero _) hroomy hin
        rw [hslid.outside p hnot, hslid.file, slice_eq_slice_iff]
        have := hfit p hp h0
        exact fun i _ => h2 _ (Or.inr (Or.inl (by omega)))
    · rw [hexts, List.pairwise_append]
      refine ⟨hpacked.pairwise.imp fun h hx hy => Or.inl (h hx hy), ?_, fun x hx y hy hx0 hy0 => ?_⟩
      · exact hhib.imp fun h hx hy => Or.inl (h.2 hx hy)
      · obtain ⟨q, hq, rfl⟩ := List.mem_map.mp hy
        have h1 := hpacked.inside x hx hx0
        rw [total_slide] at h1
        exact Or.inl (h1.trans (hfit q hq hy0))

/-- **Repacking preserves contents** exactly if no file of size zero that keeps an offset in
`file_data` starts, in front of a non-zero size file, before the end of the files in front of it. -/
theorem repack_contentsKept_iff (hnd : s.oList.list.Nodup)
    (hlen : ∀ p ∈ s.oList.list, (s.heap p).length < 2 ^ 32) (hok : ExtentsOk s)
    (hr : repack s = .ok s') :
    ContentsKept s s' ↔ s.used ≤ 0 ∨ Roomy 0 (exts s.heap (movable s)) := by
  obtain ⟨ho, s₁, h1, hhash⟩ := repack_frame hr
  rw [← repackHelper_contentsKept_iff hnd hlen hok h1]
  have hsame := hhash.heap_file
  constructor
  · rintro ⟨hb, ha⟩
    rw [hsame.1, hsame.2] at hb
    rw [hsame.1] at ha
    exact ⟨hb, ha⟩
  · rintro ⟨hb, ha⟩
    rw [← hsame.1, ← hsame.2] at hb
    rw [← hsame.1] at ha
    exact ⟨hb, ha⟩

end Contents

instance (s : Filesys) : Decidable (ExtentsOk s) :=
  decidable_of_iff (OffsetSorted s.heap s.oList.list ∧
    (∀ p ∈ s.oList.list, ∀ q ∈ s.oList.list, p ≠ q → (ext s.heap p).Apart (ext s.heap q)) ∧
    ∀ p ∈ s.oList.list, 0 < (s.heap p).length →
      (s.heap p).offset + (s.heap p).length ≤ s.fileDataLen)
    ⟨fun h => ⟨h.1, h.2.1, h.2.2⟩, fun h => ⟨h.1, h.2, h.3⟩⟩

/-- A gap in front of `b` and behind it, where the empty file `c` keeps an offset, and `d` behind
it. -/
def gapCalls : List Call :=
  [.create (.ofByte 97 nul_ne_97) 2, .create (.ofByte 98 nul_ne_98) 2,
    .create (.ofByte 99 nul_ne_99) 1, .create (.ofByte 100 nul_ne_100) 3,
    .write (.ofByte 98 nul_ne_98) 0 2 [1, 2], .write (.ofByte 100 nul_ne_100) 0 3 [3, 4, 5],
    .delete (.ofByte 97 nul_ne_97), .resize (.ofByte 98 nul_ne_98) 1,
    .resize (.ofByte 99 nul_ne_99) 0]

/-- The offsets and lengths of the files in `o_list`. -/
def spans (s : Filesys) : List (ℕ × ℕ) :=
  s.oList.list.map fun p => ((s.heap p).offset, (s.heap p).length)

set_option maxRecDepth 20000 in
/-- `b`, the empty file and `d` move down, the two with their bytes. -/
theorem repack_contentsKept_gap : ∃ s₀ as s s',
    initFs (zeros 256) (zeros 288) (zeros 16) = .ok s₀ ∧ Trace.run exec gapCalls s₀ = .ok (as, s) ∧
    repack s = .ok s' ∧ spans s = [(2, 1), (4, 0), (5, 3)] ∧
    spans s' = [(0, 1), (1, 0), (1, 3)] ∧ s'.file.take 4 = [1, 3, 4, 5] ∧
    ContentsKept s s' := by
  obtain ⟨s₀, hinit, hrun⟩ := Run.holds_iff.mp
    (show Run.Holds (initFs (zeros 256) (zeros 288) (zeros 16)) (fun s₀ =>
      Run.Holds (Trace.run exec gapCalls s₀) fun r =>
        ((r.2.oList.list.Nodup ∧ (∀ p ∈ r.2.oList.list, (r.2.heap p).length < 2 ^ 32) ∧
          ExtentsOk r.2) ∧ Roomy 0 (exts r.2.heap (movable r.2)) ∧
          spans r.2 = [(2, 1), (4, 0), (5, 3)]) ∧
        Run.Holds (repack r.2) fun s' =>
          spans s' = [(0, 1), (1, 0), (1, 3)] ∧ s'.file.take 4 = [1, 3, 4, 5])
      by decide +kernel)
  obtain ⟨⟨as, s⟩, hcalls, ⟨⟨hnd, hlen, hok⟩, hroomy, hbefore⟩, hrep⟩ := Run.holds_iff.mp hrun
  obtain ⟨s', hr, hafter, hbytes⟩ := Run.holds_iff.mp hrep
  exact ⟨s₀, as, s, s', hinit, hcalls, hr, hbefore, hafter, hbytes,
    (repack_contentsKept_iff hnd hlen hok hr).mpr (Or.inr hroomy)⟩

set_option maxRecDepth 20000 in
/-- A file of size zero that keeps its offset inside the file in front of it: the file behind it
is moved onto that one. -/
theorem repack_contentsKept_fails : ¬ ∀ s s' : Filesys, s.oList.list.Nodup →
    (∀ p ∈ s.oList.list, (s.heap p).length < 2 ^ 32) → ExtentsOk s → repack s = .ok s' →
    ContentsKept s s' := by
  intro h
  obtain ⟨s₀, -, hrun⟩ := Run.holds_iff.mp
    (show Run.Holds (initFs (zeros 256) (zeros 216) (zeros 16)) (fun s₀ =>
      Run.Holds (Trace.run exec [.create (.ofByte 97 (by decide)) 2,
        .create (.ofByte 98 (by decide)) 1, .create (.ofByte 99 (by decide)) 1,
        .resize (.ofByte 98 (by decide)) 0, .resize (.ofByte 97 (by decide)) 3] s₀) fun r =>
        (r.2.oList.list.Nodup ∧
          (∀ p ∈ r.2.oList.list, (r.2.heap p).length < 2 ^ 32) ∧ ExtentsOk r.2) ∧
          Run.Holds (repack r.2) fun s' => ¬ ∀ p ∈ r.2.oList.list, ∀ q ∈ r.2.oList.list,
            p ≠ q → (ext s'.heap p).Apart (ext s'.heap q))
      by decide +kernel)
  obtain ⟨⟨as, s⟩, -, ⟨hnd, hlen, hok⟩, hrep⟩ := Run.holds_iff.mp hrun
  obtain ⟨s', hr, hbad⟩ := Run.holds_iff.mp hrep
  exact hbad (h s s' hnd hlen hok hr).apart

end Vfs
