import VirtualFileSystem.Rehash

/-!
# Repacking a well-formed filesystem

`repack_helper` keeps the order of `o_list` and puts the files with bytes side by side from the
start of `file_data`; it returns the first byte it changed, or `-1` when it moved nothing, and a
second call finds nothing to do.
-/

namespace Vfs

open FlatImage Extents

section Compact

variable {k : ℕ} {s s' : Filesys} {p : Ptr} {ho : ℤ}

theorem WellFormed.sentinelEmpty (ha : Addressable s) (hw : WellFormed s) :
    SentinelEmpty s.heap s.oList.list := by
  intro p hp hge
  by_contra h0
  have := ha p (hw.layout.live hp) (Nat.pos_of_ne_zero h0)
  omega

theorem WellFormed.arranged (hw : WellFormed s) (ha : Addressable s) : Arranged s where
  idxOk := hw.mirror.liveOk.offsets.idxOk
  lined := hw.layout.lined
  sentinel := hw.sentinelEmpty ha
  inside := fun p hp hpos => by
    rcases hw.layout.range p (hw.layout.live hp) with ⟨-, h0⟩ | h
    · omega
    · exact h
  length_lt := fun p hp => hw.mirror.counted.length_lt p (hw.layout.live hp)

/-- The files a repack may move are those with bytes. -/
theorem WellFormed.movable_pos (hw : WellFormed s) (ha : Addressable s) (hused : 0 < s.used) :
    ∀ p ∈ movable s, 0 < (s.heap p).length ∧ (s.heap p).offset < maxFileDataLen := by
  have hpos : ∀ p ∈ s.oList.list, (s.heap p).offset < maxFileDataLen →
      0 < (s.heap p).length ∧ (s.heap p).offset < maxFileDataLen := by
    intro p hp hlt
    refine ⟨Nat.pos_of_ne_zero fun h0 => ?_, hlt⟩
    have := hw.sentinel p (hw.layout.live hp) h0
    omega
  unfold movable
  split
  · simp
  · rename_i p ps hl
    rw [hl] at hpos
    intro q hq
    rcases List.mem_cons.mp hq with rfl | hq
    · -- an empty file in front would leave only empty files
      apply hpos q List.mem_cons_self
      by_contra hge
      have hempty : ∀ r ∈ q :: ps, (s.heap r).length = 0 := by
        have hsorted := hw.layout.lined.sorted
        rw [hl] at hsorted
        intro r hr
        refine hw.sentinelEmpty ha r (hl ▸ hr) ?_
        rcases List.mem_cons.mp hr with rfl | hr
        · exact Nat.le_of_not_lt hge
        · have : (s.heap q).offset ≤ (s.heap r).offset := List.rel_of_pairwise_cons hsorted hr
          omega
      have htotal := hw.layout.total_eq hw.mirror
      rw [hl] at htotal
      have : totalLength s.heap (q :: ps) = 0 := List.sum_eq_zero fun n hn => by
        obtain ⟨r, hr, rfl⟩ := List.mem_map.mp hn
        exact hempty r hr
      omega
    · refine hpos q (List.mem_cons_of_mem p ((prefix_reached s.heap ps).subset hq)) ?_
      simpa using List.mem_takeWhile_imp hq

/-- What a repack leaves: the order, the files with bytes side by side, the empty ones where they
were, and the new offsets in the directory. -/
structure Compacted (s s' : Filesys) : Prop where
  order : s'.oList = s.oList
  place : ∀ A p B, s.oList.list = A ++ p :: B → 0 < (s.heap p).length →
    (s'.heap p).offset = totalLength s.heap A
  fills : ∀ i : ℕ, (i : ℤ) < s.used ↔ ∃ p ∈ s.oList.list,
    (s'.heap p).offset ≤ i ∧ i < (s'.heap p).offset + (s.heap p).length
  empty : ∀ p ∈ s.oList.list, (s.heap p).length = 0 → (s'.heap p).offset = maxFileDataLen
  entry : ∀ p ∈ s.oList.list, 0 < (s.heap p).length →
    entryOffset (Vfs.entry s'.dir (s'.heap p).index) = (s'.heap p).offset

/-- The movable files are packed, the others are empty and stay. -/
theorem repackHelper_packed (hw : WellFormed s) (ha : Addressable s)
    (hr : repackHelper s = .ok (ho, s')) :
    ∃ lo hi, s.oList.list = lo ++ hi ∧ Packed 0 (exts s'.heap lo) ∧
      (∀ p ∈ lo, 0 < (s.heap p).length ∧ (s.heap p).offset < maxFileDataLen) ∧
      (∀ p ∈ hi, (s.heap p).length = 0 ∧ s'.heap p = s.heap p) ∧
      (ho = -1 ↔ exts s'.heap lo = exts s.heap lo) := by
  have har := hw.arranged ha
  have hnd := har.idxOk.nodup
  obtain ⟨hi, hl, hhi⟩ := movable_split har.lined.sorted
  rcases repackHelper_slid hnd har.length_lt hr with ⟨hidle, rfl, rfl⟩ | ⟨hused, hslid, rfl⟩
  · -- without bytes nothing is movable
    refine ⟨[], s'.oList.list, rfl, trivial, by simp, fun p hp => ⟨?_, rfl⟩, by simp⟩
    rcases hidle with hnil | h0
    · rw [hnil] at hp
      cases hp
    · exact hw.layout.empty_of_used hw.mirror h0 p hp
  have hlo := hw.movable_pos ha hused
  have hbefore : (exts s.heap (movable s)).Pairwise Extent.Before :=
    har.lined.sublist (hl ▸ List.sublist_append_left _ _)
  have hroomy : Roomy 0 (exts s.heap (movable s)) := by
    have := hw.roomy_of ha
    rw [hl, exts_append] at this
    exact this.of_append
  refine ⟨movable s, hi, hl, ?_, hlo, fun p hp => ⟨?_, ?_⟩, ?_⟩
  · rw [hslid.slides]
    exact slide_packed _ 0 hbefore (above_zero _) hroomy
  · exact har.sentinel p (hl ▸ List.mem_append_right _ hp) (hhi p hp)
  · apply hslid.outside
    intro hm
    rw [hl] at hnd
    exact (List.nodup_append.mp hnd).2.2 p hm p hp rfl
  · rw [hslid.slides, ← firstMoved_eq_none_iff]
    · cases firstMoved 0 (exts s.heap (movable s)) with
      | none => exact iff_of_true rfl rfl
      | some b =>
        refine iff_of_false (fun h => ?_) (Option.some_ne_none b)
        have : (b : ℤ) = -1 := h
        omega
    · intro x hx
      obtain ⟨q, hq, rfl⟩ := List.mem_map.mp hx
      exact (hlo q hq).1

theorem totalLength_append (h : Heap) (A B : List Ptr) :
    totalLength h (A ++ B) = totalLength h A + totalLength h B := by
  unfold totalLength
  rw [List.map_append, List.sum_append]

theorem totalLength_eq_zero {h : Heap} {A : List Ptr} (hA : ∀ p ∈ A, (h p).length = 0) :
    totalLength h A = 0 := List.sum_eq_zero fun n hn => by
  obtain ⟨p, hp, rfl⟩ := List.mem_map.mp hn
  exact hA p hp

theorem repackHelper_compacted (hw : WellFormed s) (ha : Addressable s)
    (hr : repackHelper s = .ok (ho, s')) : Compacted s s' := by
  obtain ⟨lo, hi, hl, hpacked, hlo, hhi, -⟩ := repackHelper_packed hw ha hr
  have hf := repackHelper_frame hr
  have hm := repackHelper_mirror (by decide) hw.mirror hr
  have hlen : ∀ A, totalLength s'.heap A = totalLength s.heap A := fun A =>
    totalLength_congr fun q _ => hf.offsetOnly.length q
  have hmem : ∀ p ∈ s.oList.list, 0 < (s.heap p).length → p ∈ lo := fun p hp hpos => by
    rw [hl, List.mem_append] at hp
    exact hp.resolve_right fun h => absurd (hhi p h).1 hpos.ne'
  have hused : s.used = totalLength s.heap lo := by
    rw [hw.layout.total_eq hw.mirror, hl, totalLength_append,
      totalLength_eq_zero fun p hp => (hhi p hp).1, Nat.add_zero]
  refine ⟨by rw [hf.eq], fun A p B hAB hpos => ?_, fun i => ⟨fun hilt => ?_, ?_⟩,
    fun p hp h0 => ?_, fun p hp hpos => ?_⟩
  · -- the part of the array in front of `p` lies in front of the empty files
    obtain ⟨C, hC⟩ : ∃ C, lo = A ++ p :: C := by
      rcases List.append_eq_append_iff.mp (hl.symm.trans hAB) with ⟨D, hD, hE⟩ | ⟨D, hD, hE⟩
      · cases D with
        | nil =>
          rw [List.nil_append] at hE
          exact absurd (hhi p (hE ▸ List.mem_cons_self)).1 hpos.ne'
        | cons d D =>
          have hp : p ∈ hi := by
            rw [hE]
            exact List.mem_append_right _ List.mem_cons_self
          exact absurd (hhi p hp).1 hpos.ne'
      · cases D with
        | nil =>
          rw [List.nil_append] at hE
          exact absurd (hhi p (hE ▸ List.mem_cons_self)).1 hpos.ne'
        | cons d D =>
          obtain ⟨rfl, -⟩ := List.cons.inj hE
          exact ⟨D, hD⟩
    have hplace := hpacked
    rw [hC, exts_append, exts_cons] at hplace
    have hstart := hplace.start_eq (by rw [ext_len, hf.offsetOnly.length]; exact hpos)
    rw [Nat.zero_add, total_exts, hlen] at hstart
    exact hstart
  · obtain ⟨x, hx, -, h1, h2⟩ := hpacked.covers i (Nat.zero_le i)
      (by rw [total_exts, hlen]; omega)
    obtain ⟨q, hq, rfl⟩ := List.mem_map.mp hx
    refine ⟨q, hl ▸ List.mem_append_left hi hq, h1, ?_⟩
    rw [← hf.offsetOnly.length q]
    exact h2
  · rintro ⟨p, hp, h1, h2⟩
    have hpos : 0 < (s.heap p).length := by omega
    have hpos' : 0 < (ext s'.heap p).len := by rwa [ext_len, hf.offsetOnly.length]
    have hin := hpacked.inside _ (List.mem_map_of_mem (hmem p hp hpos)) hpos'
    rw [total_exts, hlen] at hin
    unfold Extent.stop at hin
    rw [ext_start, ext_len, hf.offsetOnly.length] at hin
    omega
  · have hp' : p ∈ hi := by
      rw [hl, List.mem_append] at hp
      exact hp.resolve_left fun h => absurd h0 (hlo p h).1.ne'
    rw [(hhi p hp').2]
    exact hw.sentinel p (hw.layout.live hp) h0
  · have hlt := ha p (hw.layout.live hp) hpos
    have hle := hf.offset_le p
    refine (hm.dir.entry p ?_).offset (hle.trans_lt hlt)
    rw [hf.kept.live]
    exact hw.layout.live hp

/-! ## A second repack -/

/-- The loop leaves files alone that lie side by side. -/
theorem repackLoop_idle : ∀ (ps : List Ptr) (prev : Ptr) (ho : ℤ) (s : Filesys),
    (∀ p ∈ prev :: ps, (s.heap p).length < 2 ^ 32) → (s.heap prev).offset < maxFileDataLen →
    (∀ p ∈ reached s.heap ps, 0 < (s.heap p).length) →
    Packed ((s.heap prev).offset + (s.heap prev).length) (exts s.heap (reached s.heap ps)) →
    repackLoop prev ps ho s = .ok (ho, s) := by
  intro ps
  induction ps with
  | nil => exact fun _ _ _ _ _ _ _ => rfl
  | cons p ps ih =>
    intro prev ho s hlen hprev hpos hpk
    have hend : toU64 ((s.heap prev).offset + (s.heap prev).length) =
        (s.heap prev).offset + (s.heap prev).length :=
      endOf_eq hprev (hlen prev List.mem_cons_self)
    simp only [repackLoop, hend]
    by_cases hge : (s.heap p).offset ≥ maxFileDataLen
    · rw [if_pos hge]
      rfl
    · have hlt := Nat.lt_of_not_le hge
      rw [reached_cons_of_lt hlt] at hpos hpk
      obtain ⟨hstart, hrest⟩ := hpk
      have heq : (s.heap p).offset = (s.heap prev).offset + (s.heap prev).length :=
        hstart (hpos p List.mem_cons_self)
      rw [if_neg hge, if_neg (by omega)]
      refine ih p ho s (fun q hq => hlen q (List.mem_cons_of_mem prev hq)) hlt
        (fun q hq => hpos q (List.mem_cons_of_mem p hq)) ?_
      rw [heq]
      exact hrest

theorem reached_append {h : Heap} {A B : List Ptr} (hA : ∀ p ∈ A, (h p).offset < maxFileDataLen)
    (hB : ∀ p ∈ B, maxFileDataLen ≤ (h p).offset) : reached h (A ++ B) = A := by
  unfold reached
  rw [List.takeWhile_append_of_pos fun p hp => decide_eq_true (hA p hp)]
  cases B with
  | nil => simp
  | cons b B =>
    have hb := hB b List.mem_cons_self
    rw [List.takeWhile_cons_of_neg (by simpa using hb), List.append_nil]

/-- A repack of packed files does nothing. -/
theorem repackHelper_idle (hw : WellFormed s) (ha : Addressable s)
    (hr : repackHelper s = .ok (ho, s')) : repackHelper s' = .ok (-1, s') := by
  obtain ⟨lo, hi, hl, hpacked, hlo, hhi, -⟩ := repackHelper_packed hw ha hr
  have hf := repackHelper_frame hr
  have hlist : s'.oList.list = lo ++ hi := by rw [hf.eq, ← hl]
  have hmax : ∀ p ∈ hi, maxFileDataLen ≤ (s'.heap p).offset := fun p hp => by
    have hlive := hw.layout.live (hl ▸ List.mem_append_right lo hp)
    rw [(hhi p hp).2, hw.sentinel p hlive (hhi p hp).1]
  have hlt : ∀ p ∈ lo, (s'.heap p).offset < maxFileDataLen := fun p hp =>
    (hf.offset_le p).trans_lt (hlo p hp).2
  unfold repackHelper
  rw [hlist]
  cases lo with
  | nil =>
    cases hi with
    | nil => rfl
    | cons q qs =>
      -- only empty files: nothing is used
      have hused : s'.used ≤ 0 := by
        rw [hf.used, hw.layout.total_eq hw.mirror, hl, List.nil_append,
          totalLength_eq_zero fun p hp => (hhi p hp).1]
        exact le_rfl
      simp only [List.nil_append]
      rw [if_pos hused]
      rfl
  | cons p ps =>
    have hused : ¬ s'.used ≤ 0 := by
      have hpos := (hlo p List.mem_cons_self).1
      have := hw.layout.total_eq hw.mirror
      have : (s.heap p).length ≤ totalLength s.heap s.oList.list :=
        length_le_totalLength (hl ▸ List.mem_append_left hi List.mem_cons_self)
      rw [hf.used]
      omega
    obtain ⟨hstart, hrest⟩ := hpacked
    have hzero : (s'.heap p).offset = 0 := hstart (by
      rw [ext_len, hf.offsetOnly.length]
      exact (hlo p List.mem_cons_self).1)
    have hreach : reached s'.heap (ps ++ hi) = ps :=
      reached_append (fun q hq => hlt q (List.mem_cons_of_mem p hq)) hmax
    simp only [List.cons_append]
    rw [if_neg hused, if_neg (by omega)]
    apply repackLoop_idle
    · intro q hq
      rw [hf.offsetOnly.length]
      exact (hw.arranged ha).length_lt q (hl ▸ hq)
    · exact hlt p List.mem_cons_self
    · rw [hreach]
      intro q hq
      rw [hf.offsetOnly.length]
      exact (hlo q (List.mem_cons_of_mem p hq)).1
    · rw [hreach, hzero]
      exact hrest

/-! ## The report -/

theorem WellFormed.empty_of_used (hw : WellFormed s) (h0 : s.used ≤ 0) :
    ∀ p ∈ s.oList.list, (s.heap p).length = 0 := hw.layout.empty_of_used hw.mirror h0

/-- Repacking keeps the tree coherent: the range hashed holds every byte that changed. -/
theorem repack_keepsCoherent (hw : WellFormed s) (ha : Addressable s) (hp : Perfect k s)
    (hk : k ≤ 30) (hc : Coherent k s) (hr : repack s = .ok s') : Coherent k s' :=
  repack_coherent hw.mirror hw.layout (hw.arranged ha) hp hk hc (hw.roomy_of ha) hr

/-- A repack returns `-1` when no file moved, otherwise the first byte it may have changed; the
bytes in front of it and behind the used ones stay. -/
structure Reported (s : Filesys) (ho : ℤ) (s' : Filesys) : Prop where
  idle : ho = -1 ↔ ∀ p ∈ s.live, (s'.heap p).offset = (s.heap p).offset
  start : ho ≠ -1 → 0 ≤ ho
  bytes : ∀ i : ℕ, (i : ℤ) < ho ∨ s.used ≤ i → s'.file[i]? = s.file[i]?
  same : ho = -1 → s'.file = s.file

theorem repackHelper_reported (hw : WellFormed s) (ha : Addressable s)
    (hr : repackHelper s = .ok (ho, s')) : Reported s ho s' := by
  have har := hw.arranged ha
  have hf := repackHelper_frame hr
  have hused := hw.layout.total_eq hw.mirror
  obtain ⟨lo, hi, hl, -, -, hhi, hidle⟩ := repackHelper_packed hw ha hr
  obtain ⟨-, hho⟩ := repackHelper_image har hw.empty_of_used hr
  have hcases : ho = -1 ∨ 0 ≤ ho := by
    rw [hho]
    cases firstMoved 0 (exts s.heap s.oList.list) with
    | none => exact Or.inl rfl
    | some b => exact Or.inr (Int.natCast_nonneg b)
  have hframe := fun i => repackHelper_frame_file har hw.empty_of_used (hw.roomy_of ha) hr (i := i)
  refine ⟨?_, fun h => hcases.resolve_left h, fun i hi => hframe i ?_, fun h => ?_⟩
  · rw [hidle]
    constructor
    · intro hexts p hp
      have hp' := hw.layout.mem hp
      rw [hl, List.mem_append] at hp'
      rcases hp' with hp' | hp'
      · exact congrArg Extent.start (List.map_inj_left.mp hexts p hp')
      · rw [(hhi p hp').2]
    · intro h
      refine List.map_inj_left.mpr fun p hp => ?_
      unfold ext
      rw [h p (hw.layout.live (hl ▸ List.mem_append_left hi hp)), hf.offsetOnly.length]
  · rcases hi with hi | hi
    · exact Or.inl fun _ => hi
    · exact Or.inr (by omega)
  · apply List.ext_getElem?
    intro i
    exact hframe i (Or.inl fun h0 => by omega)

/-- **Repacking.** It compacts the files and reports what changed, a second one does nothing, and a
coherent tree stays coherent. -/
theorem repackHelper_compacts (hw : WellFormed s) (ha : Addressable s) :
    ∃ ho s', repackHelper s = .ok (ho, s') ∧ Compacted s s' ∧ Reported s ho s' ∧
      repackHelper s' = .ok (-1, s') ∧
      ∀ k ≤ 30, Perfect k s → Coherent k s → ∀ t, repack s = .ok t → Coherent k t := by
  have har := hw.arranged ha
  have hreach : Reachable s s.oList.list := fun p hp =>
    ⟨hw.mirror.entry_le (hw.layout.live hp), har.inside p hp⟩
  obtain ⟨ho, s', hr, -⟩ := repackHelper_total hreach
  exact ⟨ho, s', hr, repackHelper_compacted hw ha hr, repackHelper_reported hw ha hr,
    repackHelper_idle hw ha hr, fun k hk hp hc t ht => repack_keepsCoherent hw ha hp hk hc ht⟩

end Compact

/-- A directory with the file `a` of one byte at offset 5 and the empty file `b`. -/
def gapDir : List UInt8 :=
  [97] ++ zeros 63 ++ [5, 0, 0, 0, 1, 0, 0, 0] ++ [98] ++ zeros 71

set_option maxRecDepth 20000 in
theorem gapDir_distinct : DistinctNames (gapDir.length / metaLen) gapDir ∧
    ExtentsDisjoint (gapDir.length / metaLen) gapDir := by
  constructor
  · unfold DistinctNames
    decide +kernel
  · decide +kernel

set_option maxRecDepth 20000 in
theorem gapDir_wellFormed {s : Filesys}
    (hinit : initFs (zeros 256) gapDir (zeros 16) = .ok s) : WellFormed s := by
  refine initFs_wellFormed gapDir_distinct.1 ?_ gapDir_distinct.2 hinit
  unfold ExtentsInside
  decide +kernel

/-- A directory with `a` of two bytes at offset 5, the empty file `b`, and `c` of two bytes at
offset 10. -/
def gapsDir : List UInt8 :=
  [97] ++ zeros 63 ++ [5, 0, 0, 0, 2, 0, 0, 0] ++ [98] ++ zeros 71 ++ [99] ++ zeros 63 ++
    [10, 0, 0, 0, 2, 0, 0, 0]

/-- The bytes of its files, between null bytes. -/
def gapsFile : List UInt8 := zeros 5 ++ [1, 2] ++ zeros 3 ++ [3, 4] ++ zeros 244

section Gaps

variable {file hash : List UInt8} {s : Filesys}

set_option maxRecDepth 20000 in
theorem gapsDir_distinct : DistinctNames (gapsDir.length / metaLen) gapsDir ∧
    ExtentsDisjoint (gapsDir.length / metaLen) gapsDir := by
  constructor
  · unfold DistinctNames
    decide +kernel
  · decide +kernel

set_option maxRecDepth 20000 in
theorem gapsDir_wellFormed (hlen : 12 ≤ file.length)
    (hinit : initFs file gapsDir hash = .ok s) : WellFormed s := by
  refine initFs_wellFormed gapsDir_distinct.1 (fun i hi hu h0 => ?_) gapsDir_distinct.2 hinit
  have hin : ExtentsInside (gapsDir.length / metaLen) gapsDir 12 := by
    unfold ExtentsInside
    decide +kernel
  exact (hin i hi hu h0).trans hlen

end Gaps

set_option maxRecDepth 20000 in
/-- Both files with bytes move, `a` to the start and `c` behind it. -/
theorem repackHelper_compacts_gap : ∃ s, initFs gapsFile gapsDir (zeros 16) = .ok s ∧
    ∃ ho s', repackHelper s = .ok (ho, s') ∧ s'.file.take 4 = [1, 2, 3, 4] ∧
      Compacted s s' ∧ Reported s ho s' ∧ repackHelper s' = .ok (-1, s') ∧
      ∀ k ≤ 30, Perfect k s → Coherent k s → ∀ t, repack s = .ok t → Coherent k t := by
  obtain ⟨s, hinit, hrun⟩ := Run.holds_iff.mp
    (show Run.Holds (initFs gapsFile gapsDir (zeros 16)) (fun s =>
      Run.Holds (repackHelper s) fun r => r.2.file.take 4 = [1, 2, 3, 4]) by decide +kernel)
  obtain ⟨⟨ho₁, s₁⟩, hr₁, hbytes⟩ := Run.holds_iff.mp hrun
  obtain ⟨ho, s', hr, hcompacted⟩ := repackHelper_compacts (gapsDir_wellFormed (by decide) hinit)
    (initFs_addressable gapsDir_distinct.1 gapsDir_distinct.2 hinit)
  obtain ⟨rfl, rfl⟩ := Prod.mk.inj (Except.ok.inj (hr.symm.trans hr₁))
  exact ⟨s, hinit, ho, s', hr, hbytes, hcompacted⟩

end Vfs
