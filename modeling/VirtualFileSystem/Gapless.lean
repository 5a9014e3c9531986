import VirtualFileSystem.RefinementRun

/-!
# States without gaps

The files with bytes fill the first `used` bytes of `file_data`, as a repack leaves them.  In such
a state a file with bytes is relocated only if another one follows it, which is then the first to
move, so that the rehashed range holds every byte that changes; and a file of size zero grows
safely if it is the only one.
-/

namespace Vfs

open FlatImage Extents ByteStore

/-- The files with bytes end within the first `used` bytes. -/
def Gapless (s : Filesys) : Prop :=
  ∀ p ∈ s.live, 0 < (s.heap p).length → ((s.heap p).offset + (s.heap p).length : ℤ) ≤ s.used

instance (s : Filesys) : Decidable (Gapless s) := by unfold Gapless; infer_instance

/-- No other file has size zero. -/
def OnlyEmpty (p : Ptr) (s : Filesys) : Prop :=
  ∀ q ∈ s.live, q ≠ p → 0 < (s.heap q).length

section Gapless

variable {w k : ℕ} {s s₁ s' : Filesys} {p q : Ptr} {length copy : ℕ} {ho : ℤ}

theorem gapless_iff_packed (hm : Mirror w s) (hL : Layout s) :
    Gapless s ↔ Packed 0 (exts s.heap s.oList.list) := by
  rw [packed_iff_inside hL.lined (above_zero _), total_exts, zero_add]
  have hused := hL.total_eq hm
  constructor
  · intro hg x hx h0
    obtain ⟨q, hq, rfl⟩ := List.mem_map.mp hx
    have := hg q (hL.live hq) h0
    show (s.heap q).offset + (s.heap q).length ≤ _
    omega
  · intro hin q hq h0
    have : (s.heap q).offset + (s.heap q).length ≤ totalLength s.heap s.oList.list :=
      hin (ext s.heap q) (List.mem_map_of_mem (hL.mem hq)) h0
    omega

theorem Gapless.congr (hg : Gapless s) (hlive : s'.live = s.live) (hused : s'.used = s.used)
    (hh : ∀ q ∈ s.live, (s'.heap q).offset = (s.heap q).offset ∧
      (s'.heap q).length = (s.heap q).length) : Gapless s' := by
  unfold Gapless
  rw [hlive, hused]
  intro q hq
  rw [(hh q hq).1, (hh q hq).2]
  exact hg q hq

theorem EmptyAtSentinel.congr (he : EmptyAtSentinel s) (hlive : s'.live = s.live)
    (hh : ∀ q ∈ s.live, (s'.heap q).offset = (s.heap q).offset ∧
      (s'.heap q).length = (s.heap q).length) : EmptyAtSentinel s' := by
  unfold EmptyAtSentinel
  rw [hlive]
  intro q hq
  rw [(hh q hq).1, (hh q hq).2]
  exact he q hq

/-- A repack leaves the files at the sentinel offset alone, if a file in front of them is not. -/
theorem repackHelper_sentinel (hnd : s.oList.list.Nodup)
    (hlen : ∀ p ∈ s.oList.list, (s.heap p).length < 2 ^ 32)
    (hs : OffsetSorted s.heap s.oList.list) (hp : p ∈ s.oList.list)
    (hlt : (s.heap p).offset < maxFileDataLen) (hr : repackHelper s = .ok (ho, s'))
    (hq : maxFileDataLen ≤ (s.heap q).offset) : s'.heap q = s.heap q := by
  rcases repackHelper_slid hnd hlen hr with ⟨-, rfl, -⟩ | ⟨-, hslid, -⟩
  · rfl
  refine hslid.outside q fun hmem => ?_
  unfold movable at hmem
  cases hl : s.oList.list with
  | nil =>
    rw [hl] at hp
    cases hp
  | cons a as =>
    rw [hl] at hmem hp hs
    rcases List.mem_cons.mp hmem with rfl | hmem
    · -- the head is not behind the file that is not at the sentinel
      rcases List.mem_cons.mp hp with rfl | hp
      · omega
      · have := (List.pairwise_cons.mp hs).1 p hp
        omega
    · have := List.mem_takeWhile_imp hmem
      simp only [decide_eq_true_eq] at this
      omega

/-! ## Growing -/

/-- A file with bytes that needs a relocation has another one behind it. -/
theorem follower (hm : Mirror w s) (hL : Layout s) (hfdl : s.fileDataLen ≤ 2 ^ 32)
    (hg : Gapless s) (hp : p ∈ s.live) (hpos : 0 < (s.heap p).length)
    (hroom : s.used + length ≤ s.fileDataLen + (s.heap p).length)
    (hreq : repackRequired p length s) :
    ∃ A B q C, s.oList.list = A ++ p :: (B ++ q :: C) ∧ 0 < (s.heap q).length := by
  obtain ⟨A, B, hl⟩ := List.append_of_mem (hL.mem hp)
  have hstop := hg p hp hpos
  have hle := hL.used_le hm hfdl
  unfold repackRequired findNextNonzeroFile at hreq
  rw [drop_oIndex hm.liveOk.offsets.idxOk hl] at hreq
  cases hf : findNextNonzero s.heap B with
  | none =>
    -- up to the end of `file_data` there is room
    rw [hf] at hreq
    dsimp only at hreq
    rw [gapAfter_eq (by omega) hfdl] at hreq
    omega
  | some q =>
    obtain ⟨B₁, C, rfl, -, h0, -⟩ := findNextNonzero_eq_some hf
    exact ⟨A, B₁, q, C, hl, h0⟩

/-- Without the file in front of it, a file does not start behind all others. -/
theorem not_packed_others (hm : Mirror w s) (hL : Layout s) (hg : Gapless s)
    {A B C : List Ptr} (hl : s.oList.list = A ++ p :: (B ++ q :: C))
    (hpos : 0 < (s.heap p).length) (h0 : 0 < (s.heap q).length) :
    ¬ Packed 0 (exts s.heap (others p s)) := by
  intro hpk
  have hpA : p ∉ A := fun h => by
    have hnd : s.oList.list.Nodup := hm.liveOk.offsets.nodup
    rw [hl] at hnd
    exact (List.nodup_append.mp hnd).2.2 p h p List.mem_cons_self rfl
  have hothers : others p s = (A ++ B) ++ q :: C := by
    unfold others
    rw [hl, List.erase_append_right _ hpA, List.erase_cons_head, List.append_assoc]
  have hall := (gapless_iff_packed hm hL).mp hg
  rw [hl, show A ++ p :: (B ++ q :: C) = (A ++ p :: B) ++ q :: C by simp, exts_append,
    exts_cons] at hall
  rw [hothers, exts_append, exts_cons] at hpk
  have h1 := hall.start_eq h0
  have h2 := hpk.start_eq h0
  rw [total_exts, totalLength_append, totalLength_cons] at h1
  rw [total_exts, totalLength_append] at h2
  omega

/-- Growing without gaps gives no block outside the rehashed range another hash. -/
theorem Gapless.rehashed (hg : Gapless s) (hm : Mirror w s) (hL : Layout s)
    (he : EmptyAtSentinel s) (hpf : Perfect k s) (hk : k ≤ 23) (hp : p ∈ s.live)
    (hcopy : copy ≤ (s.heap p).length) (hgrow : (s.heap p).length < length)
    (hroom : s.used + length ≤ s.fileDataLen + (s.heap p).length)
    (hrel : Relocates p length s) : Rehashed k p length copy s := by
  have hfdl := hpf.fileDataLen_le31 hk
  rw [rehashed_iff hm hL he hpf hk hp hcopy hgrow hroom]
  intro hpk
  rcases Nat.eq_zero_or_pos (s.heap p).length with h0 | hpos
  · -- no bytes are taken along
    obtain rfl : copy = 0 := by omega
    intro blk _ _
    rw [slice_zero, splice_nil]
    rfl
  · have hlt := hL.addressable (by omega) p hp hpos
    unfold Relocates at hrel
    rw [if_neg (by omega)] at hrel
    obtain ⟨A, B, q, C, hl, hq⟩ := follower hm hL (by omega) hg hp hpos hroom hrel
    exact absurd hpk (not_packed_others hm hL hg hl hpos hq)

/-- Without gaps a file with bytes may grow, and one without if it is the only one. -/
theorem Gapless.growSafe (hg : Gapless s) (hm : Mirror w s) (hL : Layout s)
    (he : EmptyAtSentinel s) (hfdl : s.fileDataLen ≤ 2 ^ 32) (hp : p ∈ s.live)
    (hgrow : (s.heap p).length < length) (honly : (s.heap p).length = 0 → OnlyEmpty p s) :
    GrowSafe p length s := by
  obtain ⟨-, hroomy, -⟩ := hL.others_slide he hfdl p
  have hsub : (others p s).Sublist s.oList.list := List.erase_sublist
  have hrest : ∀ r ∈ others p s, r ∈ s.live ∧ r ≠ p := fun r hr =>
    have h := (hm.liveOk.offsets.nodup.mem_erase_iff).mp hr
    ⟨hL.live h.2, h.1⟩
  unfold GrowSafe
  rcases Nat.eq_zero_or_pos (s.heap p).length with h0 | hpos
  · have hothers : ∀ r ∈ others p s, 0 < (s.heap r).length := fun r hr =>
      honly h0 r (hrest r hr).1 (hrest r hr).2
    rw [if_pos (he p hp h0).ge]
    cases hf : findNextNonzero s.heap (s.oList.list.erase p) with
    | none =>
      have hzero := findNextNonzero_eq_none (hL.lined.sublist hsub).sorted
        (fun r hr => hL.sentinelEmpty hfdl r (hsub.subset hr)) hf
      exact fun r hr => absurd (hzero r hr) (hothers r hr).ne'
    | some q =>
      -- the first file starts at zero
      obtain ⟨A, B, hl, hA, hq, -⟩ := findNextNonzero_eq_some hf
      have hqlive := (hrest q (by unfold others; rw [hl]; simp)).1
      have hall := (gapless_iff_packed hm hL).mp hg
      obtain ⟨A', B', hl'⟩ := List.append_of_mem (hL.mem hqlive)
      rw [hl', exts_append, exts_cons] at hall
      have hstart := hall.start_eq hq
      rw [total_exts] at hstart
      refine ⟨?_, hroomy, fun r hr => hL.addressable hfdl r (hrest r hr).1 (hothers r hr)⟩
      have hzero : totalLength s.heap A' = 0 := by
        refine totalLength_eq_zero fun r hr => ?_
        by_contra hr0
        have hrlive : r ∈ s.live := hL.live (by rw [hl']; simp [hr])
        have hrp : r ≠ p := fun h => hr0 (h ▸ h0)
        have hfirst := findNextNonzero_le (hL.lined.sublist hsub) hf r
          ((List.mem_erase_of_ne hrp).mpr (hL.mem hrlive)) (Nat.pos_of_ne_zero hr0)
        have hrel := hL.lined.rel
        rw [hl'] at hrel
        have := ((List.pairwise_append.mp hrel).2.2 r hr q List.mem_cons_self).2
          (Nat.pos_of_ne_zero hr0) hq
        unfold Extent.stop at this
        simp only [ext_start, ext_len] at this
        omega
      show (s.heap q).offset < length
      simp only [ext_start] at hstart
      omega
  · have hlt := hL.addressable hfdl p hp hpos
    rw [if_neg (by omega)]
    by_cases hreq : repackRequired p length s
    · rw [if_pos hreq]
      exact ⟨hroomy, fun h => absurd h hpos.ne'⟩
    · rw [if_neg hreq]
      exact fun h => absurd h hpos.ne'

/-- What growing leaves of a state without gaps: the files end within the bytes used from then on,
and the empty ones stay where they were. -/
structure Snug (p : Ptr) (length : ℕ) (s s' : Filesys) : Prop where
  self : ((s'.heap p).offset + length : ℤ) ≤ s.used + length - (s.heap p).length
  others : ∀ q ∈ s.live, q ≠ p → 0 < (s.heap q).length →
    ((s'.heap q).offset + (s.heap q).length : ℤ) ≤ s.used + length - (s.heap p).length
  empty : ∀ q ∈ s.live, q ≠ p → (s.heap q).length = 0 → (s'.heap q).offset = maxFileDataLen

theorem growNewFile_snug (hm : Mirror w s) (hL : Layout s) (he : EmptyAtSentinel s)
    (hfdl : s.fileDataLen ≤ 2 ^ 32) (hg : Gapless s) (hp : p ∈ s.live)
    (hge : (s.heap p).offset ≥ maxFileDataLen) (honly : OnlyEmpty p s)
    (hr : growNewFile p length s = .ok (ho, s')) : Snug p length s s' := by
  have h0 : (s.heap p).length = 0 := hL.sentinelEmpty hfdl p (hL.mem hp) hge
  have hempty : ∀ q ∈ s.live, q ≠ p → (s.heap q).length = 0 →
      (s'.heap q).offset = maxFileDataLen := fun q hq hqp h =>
    absurd h (honly q hq hqp).ne'
  have hused := hL.total_eq hm
  have hle := hL.used_le hm hfdl
  obtain ⟨s₁, s₂, o, ht, hcase, hpl⟩ := growNewFile_steps hm.liveOk hp hr
  have hself : (s'.heap p).offset = o := hpl.same_self.2.1
  rcases hcase with ⟨-, rfl, rfl, -⟩ | ⟨hrep, hf, ho', q, hq, -⟩
  · refine ⟨by rw [hself]; omega, fun q hq hqp hpos => ?_, hempty⟩
    rw [(hpl.same_of_ne hqp).2.1, ht.posOnly.offset]
    have := hg q hq hpos
    omega
  · obtain ⟨-, hroomy, -⟩ := hL.others_slide he hfdl p
    have htotal := hL.total_erase hm hp
    have hused₂ : s₂.used = s.used := hf.used.trans ht.used
    have hpos : 0 < s.used := by
      rw [findNext_takenOut ht] at hq
      obtain ⟨A, B, hl, -, hq0, -⟩ := findNextNonzero_eq_some hq
      have := length_le_totalLength (h := s.heap) (p := q) (L := s.oList.list.erase p)
        (by rw [hl]; simp)
      omega
    have hpk := ht.packedBy hm hL hfdl hp hle hroomy hpos hrep
    rw [hused₂, toU64_of_nonneg (by omega) (by omega)] at ho'
    refine ⟨by rw [hself]; omega, fun q hq hqp hq0 => ?_, hempty⟩
    have hlen : (s₂.heap q).length = (s.heap q).length :=
      (hf.offsetOnly.length q).trans (ht.posOnly.length q)
    have := hpk.stop_le q (ht.mem hL hq hqp) (by omega)
    rw [ht.total] at this
    rw [(hpl.same_of_ne hqp).2.1]
    omega

theorem relocateFile_snug (hm : Mirror w s) (hL : Layout s) (he : EmptyAtSentinel s)
    (hfdl : s.fileDataLen ≤ 2 ^ 32) (hg : Gapless s) (hp : p ∈ s.live)
    (hpos : 0 < (s.heap p).length) (hreq : repackRequired p length s)
    (hroom : s.used + length ≤ s.fileDataLen + (s.heap p).length)
    (hr : relocateFile p copy s = .ok (ho, s')) : Snug p length s s' := by
  have hle := hL.used_le hm hfdl
  have hlep := hm.length_le_used hp
  obtain ⟨A, B, r, C, hl, hr0⟩ := follower hm hL hfdl hg hp hpos hroom hreq
  obtain ⟨s₁, s₂, temp, file, -, ht, hrep, hf, -, hpl⟩ := relocateFile_steps hm.liveOk hp hr
  obtain ⟨-, hroomy, -⟩ := hL.others_slide he hfdl p
  have htotal := hL.total_erase hm hp
  have hused₂ : s₂.used = s.used := hf.used.trans ht.used
  have hpk := ht.packedBy hm hL hfdl hp hle hroomy (by omega) hrep
  have hself : (s'.heap p).offset = toU64 (s₂.used - (s.heap p).length) := hpl.same_self.2.1
  rw [hused₂, toU64_of_nonneg (by omega) (by omega)] at hself
  have hlen : ∀ q, (s₂.heap q).length = (s.heap q).length := fun q =>
    (hf.offsetOnly.length q).trans (ht.posOnly.length q)
  refine ⟨by rw [hself]; omega, fun q hq hqp hq0 => ?_, fun q hq hqp hq0 => ?_⟩
  · have := hpk.stop_le q (ht.mem hL hq hqp) (by rw [hlen]; exact hq0)
    rw [ht.total, hlen] at this
    rw [(hpl.same_of_ne hqp).2.1]
    show (((s₂.heap q).offset : ℤ) + _) ≤ _
    omega
  · -- the file behind it keeps the head of the array away from the sentinel
    have hnd : s.oList.list.Nodup := hm.liveOk.offsets.nodup
    have hrp : r ≠ p := by
      rw [hl] at hnd
      have := (List.nodup_cons.mp (List.nodup_append.mp hnd).2.1).1
      exact fun h => this (h ▸ by simp)
    have hrlive : r ∈ s.live := hL.live (by rw [hl]; simp)
    have hsent := repackHelper_sentinel (q := q) ht.arrOk.nodup (fun x hx => ?_) ?_
      (ht.mem hL hrlive hrp) ?_ hrep ?_
    · rw [(hpl.same_of_ne hqp).2.1]
      show (s₂.heap q).offset = _
      rw [hsent, ht.posOnly.offset]
      exact he q hq hq0
    · rw [ht.posOnly.length]
      refine hm.counted.length_lt x (hL.live ?_)
      have : x ∈ s₁.oList.list := hx
      rw [ht.list] at this
      exact List.mem_of_mem_erase this
    · rw [ht.list]
      refine ((hL.lined.sublist List.erase_sublist).congr fun x _ => ?_).sorted
      exact ⟨ht.posOnly.offset x, ht.posOnly.length x⟩
    · rw [ht.posOnly.offset]
      exact hL.addressable hfdl r hrlive hr0
    · rw [ht.posOnly.offset]
      exact (he q hq hq0).ge

theorem makeRoom_snug (hm : Mirror w s) (hL : Layout s) (he : EmptyAtSentinel s)
    (hfdl : s.fileDataLen ≤ 2 ^ 32) (hg : Gapless s) (hp : p ∈ s.live)
    (hgrow : (s.heap p).length < length)
    (hroom : s.used + length ≤ s.fileDataLen + (s.heap p).length)
    (honly : (s.heap p).length = 0 → OnlyEmpty p s)
    (hr : makeRoom p length copy s = .ok (ho, s')) : Snug p length s s' := by
  have hpos : (s.heap p).offset < maxFileDataLen → 0 < (s.heap p).length := fun hlt =>
    Nat.pos_of_ne_zero fun h0 => by
      have := he p hp h0
      omega
  rcases makeRoom_post hr with ⟨hge, hr⟩ | ⟨hlo, hreq, hr⟩ | ⟨hlo, -, -, rfl⟩
  · exact growNewFile_snug hm hL he hfdl hg hp hge
      (honly (hL.sentinelEmpty hfdl p (hL.mem hp) hge)) hr
  · exact relocateFile_snug hm hL he hfdl hg hp (hpos hlo) hreq hroom hr
  · have := hg p hp (hpos hlo)
    refine ⟨by omega, fun q hq _ hq0 => ?_, fun q hq _ h0 => he q hq h0⟩
    have := hg q hq hq0
    omega

end Gapless

/-! ## Calls -/

/-- The state is in order, and its empty files are at the sentinel offset. -/
structure Healthy (k : ℕ) (s : Filesys) : Prop where
  sound : Sound k s
  empty : EmptyAtSentinel s

/-- A file may grow: there are no gaps, and it is the only empty file if it is empty. -/
def GrowTame (p : Ptr) (s : Filesys) : Prop :=
  Gapless s ∧ ((s.heap p).length = 0 → OnlyEmpty p s)

/-- Files grow in states without gaps, no file with bytes is cut to nothing, and renaming keeps the
order of the names. -/
structure Call.Tame (c : Call) (s : Filesys) : Prop where
  grows : c.Grows (fun p length _ =>
    s.used + length ≤ s.fileDataLen + (s.heap p).length → GrowTame p s) s
  order : c.KeepsOrder s
  cuts : ∀ name, c = .resize name 0 → ∀ p ∈ s.live, lookup name s = .ok (some p) →
    (s.heap p).length = 0

/-- The call may leave a gap: it deletes or cuts a file with bytes. -/
def Call.Gaps : Call → Filesys → Prop
  | .delete name, s => ∃ p ∈ s.live, lookup name s = .ok (some p) ∧ 0 < (s.heap p).length
  | .resize name length, s =>
    ∃ p ∈ s.live, lookup name s = .ok (some p) ∧ length < (s.heap p).length
  | _, _ => False

theorem Healthy.wellFormed {k : ℕ} {s : Filesys} (hs : Healthy k s) : WellFormed s :=
  ⟨hs.sound.mirror, hs.sound.layout, hs.sound.names, hs.empty⟩

section Calls

variable {k length copy : ℕ} {s s₁ s' : Filesys} {p : Ptr} {c : Call} {a : Answer} {ho : ℤ}
  {name : CString}

/-- A tame call is safe. -/
theorem Call.Tame.safe (h : c.Tame s) (hs : Healthy k s) (hk : k ≤ 23) : c.Safe k s := by
  obtain ⟨⟨hm, hL, -, hpf, -⟩, he⟩ := hs
  have hfdl := hpf.fileDataLen_le31 hk
  have hrepack := hL.repackSafe he (by omega) c
  obtain ⟨hgrows, horder, -⟩ := h
  refine ⟨?_, horder, ?_⟩
  · cases c with
    | create name length => exact hrepack
    | repack => exact hrepack
    | resize name length =>
      show GrowsSafely name 0 length s
      unfold GrowsSafely
      split
      · rename_i p hl
        intro _ hgrow hroom
        have hp := (hm.liveOk.lookup hl).1
        obtain ⟨hg, honly⟩ := hgrows p hp hl hgrow hroom
        exact hg.growSafe hm hL he (by omega) hp hgrow honly
      · trivial
    | write name offset count buf =>
      show GrowsSafely name offset (offset + count) s
      unfold GrowsSafely
      split
      · rename_i p hl
        intro hoff hgrow hroom
        have hp := (hm.liveOk.lookup hl).1
        obtain ⟨hg, honly⟩ := hgrows p hp hl hoff hgrow hroom
        exact hg.growSafe hm hL he (by omega) hp hgrow honly
      · trivial
    | delete _ => trivial
    | rename _ _ => trivial
    | read _ _ _ => trivial
    | size _ => trivial
  · cases c with
    | resize name length =>
      intro p hp hl hgrow hroom hrel
      obtain ⟨hg, -⟩ := hgrows p hp hl hgrow hroom
      exact hg.rehashed hm hL he hpf hk hp le_rfl hgrow hroom hrel
    | write name offset count buf =>
      intro p hp hl hoff hgrow hroom hrel
      obtain ⟨hg, -⟩ := hgrows p hp hl hoff hgrow hroom
      exact hg.rehashed hm hL he hpf hk hp hoff hgrow hroom hrel
    | create _ _ => trivial
    | repack => trivial
    | delete _ => trivial
    | rename _ _ => trivial
    | read _ _ _ => trivial
    | size _ => trivial

/-- What is kept of the places of the files. -/
structure Places (gapless : Prop) (s' : Filesys) : Prop where
  empty : EmptyAtSentinel s'
  gapless : gapless → Gapless s'

theorem Places.congr {P : Prop} (h : Places P s) (hlive : s'.live = s.live)
    (hused : s'.used = s.used) (hheap : s'.heap = s.heap) : Places P s' := by
  have hh : ∀ q ∈ s.live, (s'.heap q).offset = (s.heap q).offset ∧
      (s'.heap q).length = (s.heap q).length := fun q _ => by rw [hheap]; exact ⟨rfl, rfl⟩
  exact ⟨h.empty.congr hlive hh, fun hP => (h.gapless hP).congr hlive hused hh⟩

theorem Places.imp {P Q : Prop} (h : Places P s') (hPQ : Q → P) : Places Q s' :=
  ⟨h.empty, fun hq => h.gapless (hPQ hq)⟩

theorem HashFrame.places {P : Prop} (hf : HashFrame s s') (h : Places P s) : Places P s' :=
  h.congr hf.kept.live (by rw [hf.eq]) hf.heap_file.1

theorem writeNullFile_places {P : Prop} {o n : ℤ} (h : Places P s)
    (hr : writeNullFile o n s = .ok s') : Places P s' := by
  rcases writeNullFile_post hr with ⟨-, rfl⟩ | ⟨-, -, -, -, rfl⟩
  · exact h
  · exact h.congr rfl rfl rfl

theorem Snug.places (h : Snug p length s s₁) (hm : Mirror (nameLen - 1) s)
    (hm₁ : Mirror (nameLen - 1) s₁) (hk : RoomMade p s s₁) (hp : p ∈ s.live)
    (hlen : length < 2 ^ 32) (hpos : 0 < length)
    (hroom : s.used + length ≤ s.fileDataLen + (s.heap p).length)
    (hfdl : s.fileDataLen ≤ 2 ^ 32) (dir : List UInt8) {P : Prop} :
    Places P (setLength p length (s.heap p).length dir s₁) := by
  have hself := setLength_self (p := p) hlen (s.heap p).length dir s₁
  have hne : ∀ q, q ≠ p → (setLength p length (s.heap p).length dir s₁).heap q = s₁.heap q :=
    fun q hq => setLength_of_ne hq _ dir s₁
  have hle := hm.length_le_used hp
  have hused₁ : s₁.used = s.used := by
    rw [hm₁.counted.used, hm.counted.used, hk.live, totalLength_congr fun q _ => hk.length q]
  have hused : (setLength p length (s.heap p).length dir s₁).used =
      s.used + length - (s.heap p).length := by
    show toI64 (s₁.used + _) = _
    rw [hused₁, toI64_of_bounds (by omega) (by omega)]
    ring
  have hlive : (setLength p length (s.heap p).length dir s₁).live = s.live := hk.live
  refine ⟨fun q hq h0 => ?_, fun _ q hq h0 => ?_⟩
  · rw [hlive] at hq
    by_cases hqp : q = p
    · subst hqp
      rw [hself] at h0
      exact absurd h0 hpos.ne'
    · rw [hne q hqp] at h0 ⊢
      exact h.empty q hq hqp ((hk.length q).symm.trans h0)
  · rw [hlive] at hq
    rw [hused]
    by_cases hqp : q = p
    · subst hqp
      rw [hself]
      exact h.self
    · rw [hne q hqp] at h0 ⊢
      rw [hk.length q] at h0 ⊢
      exact h.others q hq hqp h0

theorem resizeFileHelper_places (hs : Healthy k s) (hk : k ≤ 23) (hp : p ∈ s.live)
    (hlen : length < 2 ^ 32) (hroom : s.used + length ≤ s.fileDataLen + (s.heap p).length)
    (htame : (s.heap p).length < length → GrowTame p s)
    (hcuts : length = 0 → (s.heap p).length = 0)
    (hr : resizeFileHelper p length copy s = .ok (ho, s')) :
    Places (Gapless s ∧ (s.heap p).length ≤ length) s' := by
  obtain ⟨⟨hm, hL, -, hpf, -⟩, he⟩ := hs
  have hfdl := hpf.fileDataLen_le31 hk
  rcases resizeFileHelper_post hr with ⟨-, rfl, -⟩ | ⟨hne, s₁, hcase, -, rfl⟩
  · exact ⟨he, fun h => h.1⟩
  rcases hcase with ⟨hlt, rfl, -⟩ | ⟨hlt, hr⟩
  · -- a file that is cut keeps its place and some of its bytes
    refine ⟨fun q hq h0 => ?_, fun h => absurd h.2 (by omega)⟩
    by_cases hqp : q = p
    · subst hqp
      rw [setLength_self hlen] at h0
      have := hcuts h0
      omega
    · rw [setLength_of_ne hqp] at h0 ⊢
      exact he q hq h0
  · obtain ⟨hg, honly⟩ := htame hlt
    obtain ⟨hm₁, hk₁⟩ := makeRoom_mirror (by decide) hm (hL.inRange (by omega)) hp hr
    exact (makeRoom_snug hm hL he (by omega) hg hp hlt hroom honly hr).places hm hm₁ hk₁ hp hlen
      (by omega) hroom (by omega) _

theorem createFileAt_gapless (hs : Healthy k s) (hk : k ≤ 23) (hg : Gapless s)
    (hne : name.bytes ≠ []) (hl : lookup name s = .ok none) (hlen : length < 2 ^ 32)
    (hroom : s.used + length ≤ s.fileDataLen) (hslot : s.indexCount < s.indexLen)
    (hr : createFileAt name length s = .ok s') : Gapless s' := by
  have hw := hs.wellFormed
  have hm := hw.mirror
  have hL := hw.layout
  have hfdl := hs.sound.perfect.fileDataLen_le31 hk
  have hsafe : 0 < length → findGap length s = .ok none → Roomy 0 (exts s.heap s.oList.list) :=
    fun _ _ => hw.roomy (by omega)
  have hused := hL.total_eq hm
  have hused0 : 0 ≤ s.used := by omega
  have hw' := createFileAt_wellFormed hw (by omega) hne hl hlen hroom hslot hr
  obtain ⟨o, ho, s₁, hnew, hz⟩ := createFileAt_zeroed hm.liveOk hne hl hlen (by omega)
    (fun o ho s₁ h => (newFileOffset_free hm hL (by omega) hroom hsafe h).2.2) hr
  -- the other files end where they may, and the new one starts there at the latest
  have hplaces : (0 < length → (o : ℤ) ≤ s.used) ∧ ∀ q ∈ s.live, 0 < (s₁.heap q).length →
      ((s₁.heap q).offset + (s₁.heap q).length : ℤ) ≤ s.used := by
    obtain ⟨-, ⟨rfl, -, ⟨rfl, -⟩ | ⟨-, hgap⟩⟩ | ⟨hpos, hgap, hrep, rfl⟩⟩ := newFileOffset_post hnew
    · exact ⟨fun h => absurd h (lt_irrefl _), hg⟩
    · refine ⟨fun _ => ?_, hg⟩
      obtain ⟨r, hr', hfree, -⟩ := findGap_firstFit (hL.searchable hm (by omega))
        (show length ≤ s₁.fileDataLen by omega)
      obtain rfl : some o = r := Except.ok.inj (hgap.symm.trans hr')
      have := (hfree o rfl).2 (totalLength s₁.heap s₁.oList.list) (fun q hq h0 => Or.inl ?_)
        (by omega)
      · omega
      · have := hg q (hL.live hq) h0
        omega
    · obtain ⟨q, hq, hq0⟩ := exists_of_findGap_none hgap
      have hle := length_le_totalLength (h := s.heap) hq
      obtain ⟨-, hpk⟩ := repackHelper_layout hm hL (by omega) (by omega) (hsafe hpos hgap) hrep
      have hf := repackHelper_frame hrep
      refine ⟨fun _ => ?_, fun r hr h0 => ?_⟩
      · rw [hf.used, toU64_of_nonneg hused0 (by omega)]
        omega
      · have := (hpk (by omega)).stop_le r (hL.mem hr) h0
        omega
  have hused' : s'.used = s.used + length := by
    rw [hw'.mirror.counted.used, hz.live, totalLength_cons, hz.new.2.2,
      totalLength_congr fun q hq => (hz.old q hq).2.2.1,
      totalLength_congr fun q _ => hz.frame.offsetOnly.length q, hm.counted.used]
    push_cast
    ring
  intro q hq h0
  rw [hz.live, List.mem_cons] at hq
  rw [hused']
  rcases hq with rfl | hq
  · rw [hz.new.2.2] at h0 ⊢
    rw [hz.new.2.1]
    have := hplaces.1 h0
    omega
  · have hsame := hz.old q hq
    rw [hsame.2.1, hsame.2.2.1]
    rw [hsame.2.2.1] at h0
    have := hplaces.2 q hq h0
    omega

/-- A repack closes all gaps. -/
theorem repack_places {P : Prop} (hs : Healthy k s) (hk : k ≤ 23) (hr : repack s = .ok s') :
    Places P s' := by
  have hw := hs.wellFormed
  have hfdl := hs.sound.perfect.fileDataLen_le31 hk
  obtain ⟨ho, s₁, h1, hframe⟩ := repack_frame hr
  have hf := repackHelper_frame h1
  have hc := repackHelper_compacted hw (hw.addressable (by omega)) h1
  refine hframe.places ⟨fun q hq h0 => ?_, fun _ q hq h0 => ?_⟩
  · rw [hf.kept.live] at hq
    rw [hf.offsetOnly.length] at h0
    exact hc.empty q (hw.layout.mem hq) h0
  · rw [hf.kept.live] at hq
    rw [hf.offsetOnly.length] at h0 ⊢
    rw [hf.used]
    have hfill := (hc.fills ((s₁.heap q).offset + (s.heap q).length - 1)).mpr
      ⟨q, hw.layout.mem hq, by omega, by omega⟩
    omega

theorem resizeFileAt_places (hs : Healthy k s) (hk : k ≤ 23) (hp : p ∈ s.live)
    (hlen : length < 2 ^ 32) (hroom : s.used + length ≤ s.fileDataLen + (s.heap p).length)
    (htame : (s.heap p).length < length → GrowTame p s)
    (hcuts : length = 0 → (s.heap p).length = 0) (hr : resizeFileAt p length s = .ok s') :
    Places (Gapless s ∧ (s.heap p).length ≤ length) s' := by
  obtain ⟨ho, s₁, h1, h2⟩ := resizeFileAt_post hr
  have hpl := resizeFileHelper_places hs hk hp hlen hroom htame hcuts h1
  rcases h2 with ⟨-, rfl⟩ | ⟨-, s₂, h2, h3⟩
  · exact hpl
  · exact (hashEither_frame h3).places (writeNullFile_places hpl h2)

theorem writeFileAt_places {offset count : ℕ} {buf : List UInt8} (hs : Healthy k s) (hk : k ≤ 23)
    (hp : p ∈ s.live) (hlen : offset + count < 2 ^ 32)
    (hroom : s.used + (offset + count : ℕ) ≤ s.fileDataLen + (s.heap p).length)
    (htame : (s.heap p).length < offset + count → GrowTame p s)
    (hr : writeFileAt p offset count buf s = .ok s') : Places (Gapless s) s' := by
  obtain ⟨ho, s₁, h1, -, -, h2⟩ := writeFileAt_post hr
  have hsum : toU64 (offset + count) = offset + count := by
    exact_mod_cast toU64_of_lt (n := offset + count) (by omega)
  rw [hsum] at h1
  suffices hpl : Places (Gapless s) s₁ from (hashEither_frame h2).places (hpl.congr rfl rfl rfl)
  rcases h1 with ⟨-, -, rfl⟩ | ⟨hgt, h1⟩
  · exact ⟨hs.empty, id⟩
  · have hpl := resizeFileHelper_places hs hk hp hlen hroom htame (fun h0 => by omega) h1
    exact hpl.imp fun hg => ⟨hg, hgt.le⟩

theorem Deleted.places (hd : Deleted p s s') (he : EmptyAtSentinel s) :
    Places (Gapless s ∧ (s.heap p).length = 0) s' := by
  have hlive : s'.live = s.live.erase p := by rw [hd.eq]
  refine ⟨fun q hq h0 => ?_, ?_⟩
  · rw [hlive] at hq
    rw [(hd.same q).2.1]
    rw [(hd.same q).2.2.1] at h0
    exact he q (List.mem_of_mem_erase hq) h0
  · rintro ⟨hg, h0⟩ q hq hq0
    have hused : s'.used = s.used := by
      rw [hd.eq, h0]
      simp
    rw [hlive] at hq
    rw [hused, (hd.same q).2.1, (hd.same q).2.2.1]
    rw [(hd.same q).2.2.1] at hq0
    exact hg q (List.mem_of_mem_erase hq) hq0

/-- A tame call keeps empty files at the sentinel; without gaps it leaves none, unless it deletes or
cuts a file with bytes. -/
theorem exec_places (hs : Healthy k s) (hk : k ≤ 23) (hsmall : c.Small) (htame : c.Tame s)
    (hr : exec c s = .ok (a, s')) : Places (c = .repack ∨ Gapless s ∧ ¬ c.Gaps s) s' := by
  have hw := hs.wellFormed
  have hm := hw.mirror
  have hfdl := hs.sound.perfect.fileDataLen_le31 hk
  have hused := hm.counted.used
  have hbound := hm.counted.totalLength_le
  have hnames := hsmall.named
  obtain ⟨hgrows, -, hcuts⟩ := htame
  cases exec_effect hm.liveOk hr with
  | idle =>
    by_cases hc : c = .repack
    · subst hc
      exact repack_places hs hk (exec_repack_post hr).2
    · exact ⟨hs.empty, fun h => (h.resolve_left hc).1⟩
  | @create name length _ _ hl hadm hat =>
    have hlen : length < 2 ^ 32 := hsmall.2
    have hne := hnames name (by simp [Call.names])
    push Not at hadm
    rw [toU64_of_nonneg (by omega) (by omega)] at hadm
    have hroom : s.used + length ≤ s.fileDataLen := by omega
    refine ⟨(createFileAt_wellFormed hw (by omega) hne hl hlen hroom hadm.2 hat).sentinel, ?_⟩
    exact fun h =>
      createFileAt_gapless hs hk (h.resolve_left (by simp)).1 hne hl hlen hroom hadm.2 hat
  | @resize name length p _ _ hl hadm hat =>
    have hlen : length < 2 ^ 32 := hsmall.2
    have hp := (hm.liveOk.lookup hl).1
    have hroom := admitted_le hm hp (by omega) hadm
    refine (resizeFileAt_places hs hk hp hlen hroom (fun h => hgrows p hp hl h hroom)
      (fun h0 => by subst h0; exact hcuts name rfl p hp hl) hat).imp fun h => ?_
    obtain ⟨hg, hgap⟩ := h.resolve_left (by simp)
    exact ⟨hg, not_lt.mp fun h => hgap ⟨p, hp, hl, h⟩⟩
  | @write name offset count buf p _ _ hl hoff hadm hat =>
    obtain ⟨hoff32, hcount32, -⟩ : offset < 2 ^ 32 ∧ count < 2 ^ 32 ∧ count ≤ buf.length := hsmall.2
    have hp := (hm.liveOk.lookup hl).1
    have hroom := admitted_le hm hp (show offset + count < 2 ^ 63 + 2 ^ 32 by omega)
      (by push_cast; rw [← add_assoc]; exact hadm)
    have hlep := hm.length_le_used hp
    exact (writeFileAt_places hs hk hp (by omega) hroom
      (fun h => hgrows p hp hl hoff h hroom) hat).imp fun h => (h.resolve_left (by simp)).1
  | @delete name p _ _ hl hd =>
    have hp := (hm.liveOk.lookup hl).1
    refine (hd.places hs.empty).imp fun h => ?_
    obtain ⟨hg, hgap⟩ := h.resolve_left (by simp)
    refine ⟨hg, ?_⟩
    by_contra h0
    exact hgap ⟨p, hp, hl, Nat.pos_of_ne_zero h0⟩
  | @rename old new p _ hl hnew hb =>
    have hh : ∀ q ∈ s.live, (s.heap.set p { s.heap p with name := new.toFileName } q).offset =
        (s.heap q).offset ∧
        (s.heap.set p { s.heap p with name := new.toFileName } q).length = (s.heap q).length := by
      intro q _
      by_cases hq : q = p
      · subst hq
        simp
      · simp [Heap.set_of_ne _ _ hq]
    exact ⟨hs.empty.congr rfl hh, fun h =>
      (h.resolve_left (by simp)).1.congr rfl rfl hh⟩
  | repack hat => exact repack_places hs hk hat

end Calls

end Vfs
