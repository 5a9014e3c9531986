import VirtualFileSystem.Mirror

/-!
# The directory mirrors memory, call by call

Creating, deleting and renaming keep `Mirror` and `InRange`, and so does every call.
-/

namespace Vfs

open FlatImage

/-! ## Creating -/

section Create

variable {w : ℕ} {s s' : Filesys} {p : Ptr} {name : FileName} {o length i : ℕ}

/-- The entry `write_dir_file` leaves, and the entries it does not touch. -/
theorem Created.entry (hc : Created name o length i s s') (hlen : length < 2 ^ 32)
    (hw : nameLen - 1 ≤ w ∧ w ≤ nameLen) :
    EntryOk w (entry s'.dir i) (s'.heap s.next) ∧
      ∀ j, j ≠ i → Vfs.entry s'.dir j = Vfs.entry s.dir j := by
  obtain ⟨d₁, d₂, hd1, hd2, hd3⟩ := hc.dir
  obtain ⟨s₁, hreg, he⟩ := hc.registered
  have hnew : (s'.heap s.next).Same ⟨name, o, length, i, -1, -1⟩ := by
    rw [he]
    exact hreg.new
  have hin : metaLen * i + metaLen ≤ s.dir.length := by
    have := hc.dir_le
    unfold nameLen offsetLen metaLen at *
    omega
  have hlt := name.length_lt
  have hb1 : 0 + (name.bytes ++ [0]).length ≤ metaLen := by
    simp only [List.length_append, List.length_singleton]
    unfold nameLen metaLen at *
    omega
  have hb2 : nameLen + (dirOffsetBytes o).length ≤ metaLen := by
    rw [length_dirOffsetBytes]; decide
  have hb3 : nameLen + offsetLen + (le32 length).length ≤ metaLen := by
    rw [length_le32]; decide
  have hd1' : d₁ = splice s.dir (metaLen * i + 0) (name.bytes ++ [0]) := hd1
  have hl1 : d₁.length = s.dir.length := by
    rw [hd1', length_splice (by omega)]
  have hl2 : d₂.length = s.dir.length := by
    rw [hd2, length_splice (by omega), hl1]
  constructor
  · unfold Vfs.entry
    rw [hd3, cell_splice_self hb3 (by omega), hd2, cell_splice_self hb2 (by omega), hd1',
      cell_splice_self hb1 (by omega)]
    have := entryOk_write (w := w) (e := cell metaLen s.dir i) (f := s'.heap s.next) hw
      (length_cell (by omega)) (by rw [hnew.2.2.1]; exact hlen)
    rwa [hnew.1, hnew.2.1, hnew.2.2.1] at this
  · intro j hj
    unfold Vfs.entry
    rw [hd3, cell_splice_of_ne hb3 (by omega) hj, hd2, cell_splice_of_ne hb2 (by omega) hj, hd1',
      cell_splice_of_ne hb1 (by omega) hj]

/-- A new file in a free slot, accounted for in the counters. -/
theorem Registered.counted {s₁ : Filesys} (hreg : Registered name o length i s s₁) (hs : LiveOk s)
    (hcnt : Counted s) (hi : s.index[i]? = some 0) (hroom : s.live.length < s.indexLen)
    (hlen : length < 2 ^ 32) (hlive' : s'.live = s₁.live) (hheap : s'.heap = s₁.heap)
    (hindexLen : s'.indexLen = s.indexLen) (hindex : s'.index = s.index.set i 1)
    (hcount : s'.indexCount = s.indexCount + 1) (hused : s'.used = toI64 (s.used + length)) :
    Counted s' := by
  have hilt : i < s.indexLen := by
    rw [← hcnt.index_length]
    exact (List.getElem?_eq_some_iff.mp hi).1
  have hfresh : s.next ∉ s.live := fun hmem => (hs.fresh _ hmem).false
  have hlive : s'.live = s.next :: s.live := hlive'.trans hreg.live
  have hnew : (s'.heap s.next).Same ⟨name, o, length, i, -1, -1⟩ := by
    rw [hheap]
    exact hreg.new
  have hold : ∀ q ∈ s.live, (s'.heap q).Same (s.heap q) := fun q hq => by
    rw [hheap]
    exact hreg.old q fun h => hfresh (h ▸ hq)
  have hsum : totalLength s'.heap s.live = totalLength s.heap s.live :=
    totalLength_congr fun q hq => (hold q hq).2.2.1
  refine ⟨?_, ?_, fun j hj => ?_, ?_, ?_, ?_, fun q hq => ?_⟩
  · rw [hindexLen]
    exact hcnt.indexLen_le
  · rw [hindex, List.length_set, hindexLen]
    exact hcnt.index_length
  · rw [hindexLen] at hj
    rw [hindex, hlive]
    by_cases hji : j = i
    · subst hji
      rw [List.getElem?_set_self (by rw [hcnt.index_length]; exact hilt)]
      exact Or.inl ⟨rfl, s.next, List.mem_cons_self, hnew.2.2.2⟩
    · rw [List.getElem?_set_ne (Ne.symm hji)]
      refine (hcnt.slot j hj).imp (fun h => ⟨h.1, ?_⟩) (fun h => ⟨h.1, fun q hq => ?_⟩)
      · obtain ⟨q, hq, hqi⟩ := h.2
        exact ⟨q, List.mem_cons_of_mem _ hq, (hold q hq).2.2.2.trans hqi⟩
      · rcases List.mem_cons.mp hq with rfl | hq
        · rw [hnew.2.2.2]
          exact Ne.symm hji
        · rw [(hold q hq).2.2.2]
          exact h.2 q hq
  · rw [hcount, hlive, hcnt.count, List.length_cons]
    omega
  · rw [hlive, hindexLen, List.length_cons]
    exact hroom
  · have h48 := hcnt.totalLength_le
    have hnl : (s'.heap s.next).length = length := hnew.2.2.1
    rw [hused, hlive, totalLength_cons, hsum, hnl, hcnt.used, toI64_of_bounds (by omega) (by omega)]
    push_cast
    exact Int.add_comm _ _
  · rw [hlive] at hq
    rcases List.mem_cons.mp hq with rfl | hq
    · rw [hnew.2.2.1]
      exact hlen
    · rw [(hold q hq).2.2.1]
      exact hcnt.length_lt q hq

/-- A new file in a free slot. -/
theorem Created.mirror (hc : Created name o length i s s') (hm : Mirror w s)
    (hw : nameLen - 1 ≤ w ∧ w ≤ nameLen) (hi : s.index[i]? = some 0)
    (hroom : s.indexCount < s.indexLen) (hlen : length < 2 ^ 32) :
    Mirror w { s' with used := toI64 (s'.used + length) } := by
  obtain ⟨hentry, hother⟩ := hc.entry (w := w) hlen hw
  obtain ⟨s₁, hreg, he⟩ := hc.registered
  have hcnt := hm.counted
  have hilt : i < s.indexLen := by
    rw [← hcnt.index_length]
    exact (List.getElem?_eq_some_iff.mp hi).1
  have hfree : ∀ q ∈ s.live, (s.heap q).index ≠ i := by
    rcases hcnt.slot i hilt with h | h
    · rw [h.1] at hi
      cases hi
    · exact h.2
  have hfresh : s.next ∉ s.live := fun hmem => (hm.liveOk.fresh _ hmem).false
  have hheap : s'.heap = s₁.heap := by rw [he]
  have hnew : (s'.heap s.next).Same ⟨name, o, length, i, -1, -1⟩ := by
    rw [hheap]
    exact hreg.new
  have hold : ∀ q ∈ s.live, (s'.heap q).Same (s.heap q) := fun q hq => by
    rw [hheap]
    exact hreg.old q fun h => hfresh (h ▸ hq)
  have hlive : s'.live = s.next :: s.live := by rw [he, ← hreg.live]
  have hused : s'.used = s.used := by rw [he, hreg.eq]
  have hcount : s'.indexCount = s.indexCount + 1 := by rw [he]
  have hindex : s'.index = s.index.set i 1 := by rw [he]
  refine ⟨hc.liveOk.used _, ?_, ?_⟩
  · refine hreg.counted hm.liveOk hcnt hi (by have := hcnt.count; omega) hlen ?_ ?_ ?_ hindex hcount
      ?_
    · rw [he]
    · rw [he]
    · exact hc.shape.indexLen
    · rw [hused]
  · show DirInv w s'.live s'.heap s'.dir s'.indexLen
    rw [hlive, hc.shape.indexLen]
    refine hm.dir.cons (f := s'.heap s.next) hfresh (by rw [hnew.2.2.2]; exact hilt) ?_ hc.shape.dir
      ?_ ?_ rfl hold
    · rw [hnew.2.2.2]
      exact hfree
    · rw [hnew.2.2.2]
      exact hother
    · rw [hnew.2.2.2]
      exact hentry

theorem gapLoop_lt : ∀ (fuel : ℕ) (prev : Ptr) (curr : Option Ptr),
    gapLoop length s fuel prev curr = .ok (.inl o) → o < 2 ^ 64 := by
  intro fuel
  induction fuel with
  | zero =>
    intro prev curr hr
    cases curr <;> cases hr
  | succ fuel ih =>
    intro prev curr hr
    cases curr with
    | none => cases hr
    | some curr =>
      simp only [gapLoop] at hr
      split_ifs at hr
      · obtain rfl := Sum.inl.inj (Except.ok.inj hr)
        unfold toU64
        omega
      · exact ih _ _ hr

theorem findGap_lt (hr : findGap length s = .ok (some o)) : o < 2 ^ 64 := by
  unfold findGap at hr
  split at hr
  · obtain rfl := Option.some_inj.mp (Except.ok.inj hr)
    omega
  · split_ifs at hr
    · obtain rfl := Option.some_inj.mp (Except.ok.inj hr)
      omega
    · obtain ⟨g, hg, hr⟩ := Run.bind_eq_ok.mp hr
      cases g with
      | inl o' =>
        obtain rfl := Option.some_inj.mp (Except.ok.inj hr)
        exact gapLoop_lt _ _ _ hg
      | inr last =>
        dsimp only at hr
        split_ifs at hr
        · obtain rfl := Option.some_inj.mp (Except.ok.inj hr)
          unfold toU64
          omega
        · cases hr

theorem newFileOffset_mirror {ho ho' : ℤ} (hw : w ≤ nameLen) (hm : Mirror w s)
    (hr : newFileOffset length ho s = .ok (o, ho', s')) :
    Mirror w s' ∧ (length = 0 → o = maxFileDataLen) ∧ (0 < length → o < 2 ^ 64) := by
  obtain ⟨-, ⟨rfl, -, h⟩ | ⟨hl, -, hrep, rfl⟩⟩ := newFileOffset_post hr
  · refine ⟨hm, fun h0 => ?_, fun h0 => ?_⟩
    · rcases h with ⟨-, rfl⟩ | ⟨hl, -⟩
      · rfl
      · omega
    · rcases h with ⟨hl, -⟩ | ⟨-, hg⟩
      · omega
      · exact findGap_lt hg
  · refine ⟨repackHelper_mirror hw hm hrep, fun h0 => by omega, fun _ => ?_⟩
    unfold toU64
    omega

theorem createFileAt_mirror {name : CString} (hw : nameLen - 1 ≤ w ∧ w ≤ nameLen)
    (hm : Mirror w s) (hin : InRange s) (hfdl : s.fileDataLen ≤ 2 ^ 32) (hfit : length < 2 ^ 32)
    (hne : name.bytes ≠ []) (hl : lookup name s = .ok none) (hroom : s.indexCount < s.indexLen)
    (hr : createFileAt name length s = .ok s') : Mirror w s' ∧ InRange s' := by
  obtain ⟨i, o, ho, s₁, s₂, h1, h2, hf, hc, h3⟩ := createFileAt_steps hm.liveOk hne hl hr
  obtain ⟨hm₁, ho0, ho1⟩ := newFileOffset_mirror hw.2 hm h2
  have hlen : length ≤ s.fileDataLen := (newFileOffset_post h2).1.1
  have hin₁ := hf.inRange hin
  have hindex : s₁.index = s.index := by rw [hf.eq]
  have hcount : s₁.indexCount = s.indexCount := by rw [hf.eq]
  have hm₂ := hc.mirror hm₁ hw (by rw [hindex]; exact newFileIndex_post h1)
    (by rw [hcount, hf.kept.shape.indexLen]; exact hroom) (toU32_lt _)
  rw [toU32_of_lt hfit] at hm₂ hc
  obtain ⟨s₁', hreg, he⟩ := hc.registered
  have hlive : s₂.live = s₁.next :: s₁.live := by rw [he, hreg.eq]
  have hheap : s₂.heap = s₁'.heap := by rw [he]
  have hused : s₂.used = s₁.used := by rw [he, hreg.eq]
  -- the other files are in range; the new one is once its bytes are written
  have hin₂ : (o ≤ maxFileDataLen ∧ (0 < length → o + length ≤ s₂.fileDataLen)) → InRange s₂ := by
    intro hnew q hq
    rw [hlive] at hq
    rw [hheap]
    rcases List.mem_cons.mp hq with rfl | hq
    · rw [hreg.new.2.1, hreg.new.2.2.1]
      exact hnew
    · have hne : q ≠ s₁.next := (hm₁.liveOk.fresh q hq).ne
      have hsame := hreg.old q hne
      rw [hsame.2.1, hsame.2.2.1]
      have := hin₁ q hq
      unfold Filesys.fileDataLen at *
      rwa [hc.shape.file]
  rcases h3 with ⟨h0, rfl⟩ | ⟨h0, s₃, h3, h4⟩
  · subst h0
    refine ⟨?_, hin₂ ⟨(ho0 rfl).le, fun h => absurd h (lt_irrefl _)⟩⟩
    have h48 := hm₁.counted.totalLength_le
    have hu : toI64 (s'.used + (0 : ℕ)) = s'.used := by
      rw [hused, hm₁.counted.used]
      exact toI64_of_bounds (by omega) (by omega)
    rw [hu] at hm₂
    exact hm₂
  · have hlt := ho1 h0
    have hb : o + length ≤ s₂.file.length ∧
        s₃ = { s₂ with file := splice s₂.file o (List.replicate length 0) } := by
      have hll : toI64 (length : ℤ) = length := toI64_of_lt (by omega)
      rcases writeNullFile_post h3 with ⟨hc0, -⟩ | ⟨-, -, hc1, hc2, hc3⟩
      · rw [hll] at hc0
        exact absurd (by exact_mod_cast hc0) h0.not_ge
      · rw [toI64_of_nonneg hlt hc1, hll] at hc2 hc3
        exact ⟨by exact_mod_cast hc2, hc3⟩
    obtain ⟨hb, rfl⟩ := hb
    have hin₃ : InRange { s₂ with
        file := splice s₂.file o (List.replicate length 0), used := toI64 (s₂.used + length) } := by
      refine (hin₂ ⟨?_, fun _ => hb⟩).congr rfl rfl (length_splice (by simpa using hb))
      have := hc.shape.file
      have := hf.kept.shape.file
      unfold Filesys.fileDataLen maxFileDataLen at *
      omega
    have hframe := hashEither_frame h4
    exact ⟨hframe.mirror (hm₂.file _), hframe.inRange hin₃⟩

end Create

/-! ## Deleting and renaming -/

section Delete

variable {w : ℕ} {s s' : Filesys} {p : Ptr}

theorem Deleted.mirror (hd : Deleted p s s') (hm : Mirror w s) (hp : p ∈ s.live) : Mirror w s' := by
  have hcnt := hm.counted
  have hnd := hm.liveOk.nodup
  have hin := hm.dir.bound p hp
  have hlive : s'.live = s.live.erase p := by rw [hd.eq]
  have hindexLen : s'.indexLen = s.indexLen := by rw [hd.eq]
  have hindex : s'.index = s.index.set (s.heap p).index 0 := by rw [hd.eq]
  have hcount : s'.indexCount = s.indexCount - 1 := by rw [hd.eq]
  have hused : s'.used = s.used - (s.heap p).length := by rw [hd.eq]
  have hdir : s'.dir = splice s.dir (metaLen * (s.heap p).index) [0] := by rw [hd.eq]
  have hmem : ∀ q, q ∈ s'.live ↔ q ≠ p ∧ q ∈ s.live := fun q => by
    rw [hlive]
    exact hnd.mem_erase_iff
  have hpos : 0 < s.live.length := List.length_pos_of_mem hp
  have hlen : s'.live.length = s.live.length - 1 := by
    rw [hlive]
    exact List.length_erase_of_mem hp
  refine ⟨hd.liveOk, ⟨?_, ?_, fun j hj => ?_, ?_, ?_, ?_, fun q hq => ?_⟩, ?_⟩
  · rw [hindexLen]
    exact hcnt.indexLen_le
  · rw [hindex, List.length_set, hindexLen]
    exact hcnt.index_length
  · rw [hindexLen] at hj
    rw [hindex]
    by_cases hji : j = (s.heap p).index
    · subst hji
      rw [List.getElem?_set_self (by rw [hcnt.index_length]; exact hin)]
      refine Or.inr ⟨rfl, fun q hq he => ?_⟩
      obtain ⟨hqp, hql⟩ := (hmem q).mp hq
      rw [(hd.same q).2.2.2] at he
      exact hqp (hm.dir.inj q hql p hp he)
    · rw [List.getElem?_set_ne (Ne.symm hji)]
      refine (hcnt.slot j hj).imp (fun h => ⟨h.1, ?_⟩) (fun h => ⟨h.1, fun q hq => ?_⟩)
      · obtain ⟨q, hq, hqi⟩ := h.2
        refine ⟨q, (hmem q).mpr ⟨fun hqp => hji ?_, hq⟩, (hd.same q).2.2.2.trans hqi⟩
        rw [← hqp, hqi]
      · rw [(hd.same q).2.2.2]
        exact h.2 q ((hmem q).mp hq).2
  · rw [hcount, hcnt.count, hlen]
    omega
  · rw [hlen, hindexLen]
    have := hcnt.live_le
    omega
  · have hsum := totalLength_erase (h := s.heap) hp
    have he : totalLength s'.heap s'.live = totalLength s.heap (s.live.erase p) := by
      rw [hlive]
      exact totalLength_congr fun q _ => (hd.same q).2.2.1
    rw [hused, he, hcnt.used]
    omega
  · rw [(hd.same q).2.2.1]
    exact hcnt.length_lt q ((hmem q).mp hq).2
  · rw [hlive, hdir, hindexLen]
    exact (hm.dir.erase hnd hp).congr fun q _ => hd.same q

theorem Deleted.inRange (hd : Deleted p s s') (hin : InRange s) : InRange s' := by
  intro q hq
  have hlive : s'.live = s.live.erase p := by rw [hd.eq]
  rw [hlive] at hq
  have := hin q (List.mem_of_mem_erase hq)
  unfold Filesys.fileDataLen at *
  rwa [(hd.same q).2.1, (hd.same q).2.2.1, hd.shape.file]

theorem renamed_mirror (hw : nameLen - 1 ≤ w) (hm : Mirror w s) (hp : p ∈ s.live)
    (new : FileName) :
    Mirror w { s with
      heap := s.heap.set p { s.heap p with name := new }
      dir := splice s.dir (metaLen * (s.heap p).index) (new.bytes ++ [0]) } := by
  have hin := hm.dir.bound p hp
  have hlt := new.length_lt
  have hsame : ∀ q, (s.heap.set p { s.heap p with name := new } q).length = (s.heap q).length ∧
      (s.heap.set p { s.heap p with name := new } q).index = (s.heap q).index := by
    intro q
    by_cases hq : q = p
    · subst hq; rw [Heap.set_self]; exact ⟨rfl, rfl⟩
    · rw [Heap.set_of_ne _ _ hq]; exact ⟨rfl, rfl⟩
  refine ⟨renamed_liveOk hm.liveOk _ _, hm.counted.congr rfl rfl rfl rfl rfl fun q _ => hsame q, ?_⟩
  refine hm.dir.update (o := 0) hp rfl ?_
    ((hm.dir.entry p hp).setName hw (entry_length hm.dir.size hin) new)
  simp only [List.length_append, List.length_singleton]
  unfold nameLen metaLen at *
  omega

theorem renamed_inRange (hin : InRange s) (new : FileName) (dir : List UInt8) :
    InRange { s with heap := s.heap.set p { s.heap p with name := new }, dir := dir } := by
  intro q hq
  have := hin q hq
  by_cases hqp : q = p
  · subst hqp
    simpa only [Filesys.fileDataLen, Heap.set_self] using this
  · simpa only [Filesys.fileDataLen, Heap.set_of_ne _ _ hqp] using this

end Delete

/-! ## Every call -/

/-- The lengths the call asks for are at most `n`. -/
def Call.Fits (n : ℕ) : Call → Prop
  | .create _ length | .resize _ length => length ≤ n
  | _ => True

/-- The lengths the call asks for fit 32 bits, in a `file_data` of `n` bytes. -/
def Call.Fits32 (n : ℕ) : Call → Prop
  | .create _ length | .resize _ length => length < 2 ^ 32
  | .write _ offset count _ => offset + count ≤ n → offset + count < 2 ^ 32
  | _ => True

instance (n : ℕ) (c : Call) : Decidable (c.Fits n) := by
  cases c <;> unfold Call.Fits <;> infer_instance

instance (n : ℕ) (c : Call) : Decidable (c.Fits32 n) := by
  cases c <;> unfold Call.Fits32 <;> infer_instance

theorem Call.Fits.fits32 {n : ℕ} {c : Call} (hn : n < 2 ^ 32) (h : c.Fits n) : c.Fits32 n := by
  cases c with
  | create name length => exact lt_of_le_of_lt h hn
  | resize name length => exact lt_of_le_of_lt h hn
  | write name offset count buf => exact fun h' => lt_of_le_of_lt h' hn
  | _ => trivial

/-- One step lemma: the directory keeps mirroring memory. -/
theorem exec_mirror {w : ℕ} {c : Call} {s s' : Filesys} {a : Answer}
    (hw : nameLen - 1 ≤ w ∧ w ≤ nameLen) (hm : Mirror w s) (hin : InRange s)
    (hfdl : s.fileDataLen ≤ 2 ^ 32) (hc : c.Named) (hfit : c.Fits32 s.fileDataLen)
    (hr : exec c s = .ok (a, s')) : Mirror w s' ∧ InRange s' := by
  cases exec_effect hm.liveOk hr with
  | idle => exact ⟨hm, hin⟩
  | @create name length _ _ hl hroom hat =>
    refine createFileAt_mirror hw hm hin hfdl hfit (hc name (by simp [Call.names])) hl ?_ hat
    rw [not_or] at hroom
    omega
  | resize hl hadm hat =>
    exact resizeFileAt_mirror hw.2 hm hin (hm.liveOk.lookup hl).1 hfdl hfit hat
  | write hl hoff hadm hat =>
    exact writeFileAt_mirror hw.2 hm hin (hm.liveOk.lookup hl).1 hfdl hfit hat
  | delete hl hd => exact ⟨hd.mirror hm (hm.liveOk.lookup hl).1, hd.inRange hin⟩
  | rename hl hnew hb =>
    exact ⟨renamed_mirror hw.1 hm (hm.liveOk.lookup hl).1 _, renamed_inRange hin _ _⟩
  | repack hat => exact repack_mirror hw.2 hm hin hat

end Vfs
