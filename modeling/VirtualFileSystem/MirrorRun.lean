import VirtualFileSystem.Load

/-!
# The directory mirrors memory in every reachable state

After `init_fs` on a directory with distinct names and extents inside `file_data`, every completed
sequence of calls leaves a directory that mirrors memory.  `init_fs` reads 63 bytes of a name, so
names are compared within 63 bytes, or within the field if its name is terminated there.
-/

namespace Vfs

open FlatImage

/-- The slots, the entries and the counters describe the elements of `n_list`. -/
structure MirrorsDirectory (w : ℕ) (s : Filesys) : Prop where
  slot : ∀ i < s.indexLen, s.index[i]? = some 1 ↔
    ∃! p, p ∈ s.nList.list ∧ (s.heap p).index = i
  bit : ∀ i < s.indexLen, s.index[i]? = some 0 ∨ s.index[i]? = some 1
  bound : ∀ p ∈ s.nList.list, (s.heap p).index < s.indexLen
  entry : ∀ p ∈ s.nList.list,
    entryName w (entry s.dir (s.heap p).index) = (s.heap p).name.bytes ∧
    entryLength (entry s.dir (s.heap p).index) = (s.heap p).length ∧
    ((s.heap p).length ≠ 0 → entryOffset (entry s.dir (s.heap p).index) = (s.heap p).offset)
  free : ∀ i < s.indexLen, s.index[i]? = some 0 → (Vfs.entry s.dir i)[0]? = some 0
  count : s.indexCount = s.nList.list.length
  used : s.used = totalLength s.heap s.nList.list

theorem Mirror.mirrorsDirectory {w : ℕ} {s : Filesys} (hm : Mirror w s) (hin : InRange s)
    (hfdl : s.fileDataLen < 2 ^ 32) : MirrorsDirectory w s := by
  have hmem : ∀ p, p ∈ s.nList.list ↔ p ∈ s.live := fun p => hm.liveOk.perm.mem_iff
  have hc := hm.counted
  refine ⟨fun i hi => ⟨fun h1 => ?_, fun h1 => ?_⟩, fun i hi => ?_, fun p hp => ?_, fun p hp => ?_,
    fun i hi h0 => ?_, ?_, ?_⟩
  · rcases hc.slot i hi with ⟨-, p, hp, hpi⟩ | ⟨h0, -⟩
    · refine ⟨p, ⟨(hmem p).mpr hp, hpi⟩, fun q hq => ?_⟩
      exact hm.dir.inj q ((hmem q).mp hq.1) p hp (hq.2.trans hpi.symm)
    · rw [h0] at h1
      cases h1
  · obtain ⟨p, ⟨hp, hpi⟩, -⟩ := h1
    rcases hc.slot i hi with ⟨h, -⟩ | ⟨-, hf⟩
    · exact h
    · exact absurd hpi (hf p ((hmem p).mp hp))
  · exact (hc.slot i hi).symm.imp (·.1) (·.1)
  · exact hm.dir.bound p ((hmem p).mp hp)
  · have he := hm.dir.entry p ((hmem p).mp hp)
    refine ⟨he.name, he.length, fun hne => he.offset ?_⟩
    have := (hin p ((hmem p).mp hp)).2 (Nat.pos_of_ne_zero hne)
    unfold maxFileDataLen
    omega
  · refine hm.dir.free i hi fun p hp hpi => ?_
    rcases hc.slot i hi with ⟨h, -⟩ | ⟨-, hf⟩
    · rw [h] at h0
      cases h0
    · exact hf p hp hpi
  · rw [hc.count, hm.liveOk.perm.length_eq]
  · rw [hc.used, totalLength_perm hm.liveOk.perm]

/-! ## Directories `init_fs` accepts -/

/-- The entries in use have distinct names, as `init_fs` reads them. -/
def DistinctNames (n : ℕ) (d : List UInt8) : Prop :=
  ∀ i < n, ∀ j < n, Used (entry d i) → Used (entry d j) →
    entryName (nameLen - 1) (entry d i) = entryName (nameLen - 1) (entry d j) → i = j

/-- The extents of the entries in use lie inside `file_data`. -/
def ExtentsInside (n : ℕ) (d : List UInt8) (fileDataLen : ℕ) : Prop :=
  ∀ i < n, Used (entry d i) → entryLength (entry d i) ≠ 0 →
    entryOffset (entry d i) + entryLength (entry d i) ≤ fileDataLen

/-- The extents of the entries in use are pairwise disjoint. -/
def ExtentsDisjoint (n : ℕ) (d : List UInt8) : Prop :=
  ∀ i < n, ∀ j < n, i ≠ j → Used (entry d i) → Used (entry d j) →
    entryLength (entry d i) ≠ 0 → entryLength (entry d j) ≠ 0 →
    entryOffset (entry d i) + entryLength (entry d i) ≤ entryOffset (entry d j) ∨
      entryOffset (entry d j) + entryLength (entry d j) ≤ entryOffset (entry d i)

instance (n : ℕ) (d : List UInt8) : Decidable (ExtentsDisjoint n d) :=
  decidable_of_iff (∀ i < n, ∀ j < n, (i ≠ j ∧ Used (entry d i) ∧ Used (entry d j) ∧
      entryLength (entry d i) ≠ 0 ∧ entryLength (entry d j) ≠ 0) →
    entryOffset (entry d i) + entryLength (entry d i) ≤ entryOffset (entry d j) ∨
      entryOffset (entry d j) + entryLength (entry d j) ≤ entryOffset (entry d i))
    ⟨fun h i hi j hj h1 h2 h3 h4 h5 => h i hi j hj ⟨h1, h2, h3, h4, h5⟩,
      fun h i hi j hj ⟨h1, h2, h3, h4, h5⟩ => h i hi j hj h1 h2 h3 h4 h5⟩

/-- Every name in use is terminated within its field. -/
def NamesTerminated (n : ℕ) (d : List UInt8) : Prop :=
  ∀ i < n, Used (entry d i) → (0 : UInt8) ∈ (entry d i).take nameLen

section Init

variable {w n : ℕ} {file dir hash : List UInt8} {s s₀ : Filesys}

theorem dirOk_of (hsize : metaLen * n ≤ dir.length) (hd : DistinctNames n dir)
    (hw : w = nameLen - 1 ∨ (w = nameLen ∧ NamesTerminated n dir)) : DirOk w n dir := by
  refine ⟨hsize, ?_, fun i hi hu => ?_, hd⟩
  · rcases hw with rfl | ⟨rfl, -⟩ <;> decide
  · rcases hw with rfl | ⟨rfl, ht⟩
    · rfl
    · exact entryName_of_terminated (ht i hi hu)

/-- The extents of the files read so far are in range. -/
theorem LoadStep.inRange {i : ℕ} {s' : Filesys} (h : LoadStep i s s') (hl : LiveOk s)
    (hin : InRange s) (he : Used (entry s.dir i) → entryLength (entry s.dir i) ≠ 0 →
      entryOffset (entry s.dir i) + entryLength (entry s.dir i) ≤ s.fileDataLen) :
    InRange s' := by
  cases h with
  | skip hu => exact hin
  | load hu s₁ hreg =>
    have hlive := hreg.live
    have hfile : s₁.file = s.file := by rw [hreg.eq]
    intro p hp
    have hp' : p ∈ s.next :: s.live := hlive ▸ hp
    show (s₁.heap p).offset ≤ _ ∧ (_ → (s₁.heap p).offset + (s₁.heap p).length ≤ s₁.file.length)
    rw [hfile]
    rcases List.mem_cons.mp hp' with rfl | hp
    · rw [hreg.new.2.1, hreg.new.2.2.1]
      unfold loadOffset
      split_ifs with h0
      · exact ⟨le_rfl, fun hpos => absurd h0 hpos.ne'⟩
      · exact ⟨(entryOffset_lt _).le, fun _ => he hu h0⟩
    · have hsame := hreg.old p (hl.fresh p hp).ne
      rw [hsame.2.1, hsame.2.2.1]
      exact hin p hp

/-- `init_fs` on an accepted directory leaves a directory that mirrors memory. -/
theorem initFs_mirror (hd : DistinctNames (dir.length / metaLen) dir)
    (hw : w = nameLen - 1 ∨ (w = nameLen ∧ NamesTerminated (dir.length / metaLen) dir))
    (he : ExtentsInside (dir.length / metaLen) dir file.length)
    (hr : initFs file dir hash = .ok s₀) :
    Mirror w s₀ ∧ InRange s₀ ∧ s₀.file.length = file.length := by
  obtain ⟨-, n, hn, hsize, hr⟩ := initFs_post hr
  have hle : n ≤ dir.length / metaLen :=
    (Nat.le_div_iff_mul_le (by decide)).mpr (by rw [Nat.mul_comm]; exact hsize)
  have hd' : DirOk w n dir := by
    refine dirOk_of hsize (fun i hi j hj => hd i (hi.trans_le hle) j (hj.trans_le hle)) ?_
    exact hw.imp_right fun h => ⟨h.1, fun i hi => h.2 i (hi.trans_le hle)⟩
  obtain ⟨s', hr', hdir, hsh, hl, hin⟩ := initLoop_induct (w := w) (n := n)
    (s := initState file dir hash ⟨n, .offset, []⟩ ⟨n, .name, []⟩)
    (I := fun _ s => InRange s ∧ s.file.length = file.length) rfl hd'
    (fun i s₁ s₂ hi hdir hl hI hls => by
      refine ⟨hls.inRange hl.liveOk hI.1 fun hu h0 => ?_, ?_⟩
      · have hdir' : s₁.dir = dir := hdir
        rw [hdir'] at hu h0 ⊢
        unfold Filesys.fileDataLen
        rw [hI.2]
        exact he i (hi.trans_le hle) hu h0
      · exact hls.shape.1.file.trans hI.2)
    n 0 _ (Nat.zero_add n) rfl (Shape.refl _) (initState_loaded hn)
    ⟨fun p hp => by simp [initState] at hp, rfl⟩
  obtain rfl : s₀ = s' := Except.ok.inj (hr.symm.trans hr')
  have hn' : n = s₀.indexLen := hsh.indexLen.symm
  refine ⟨⟨hl.liveOk, hl.counted, ?_⟩, hin.1, hin.2⟩
  rw [← hn']
  exact hl.dir

end Init

/-- **The directory mirror over runs.**  After `init_fs` on distinct names and extents inside
`file_data`, the directory mirrors memory in every state that completed calls reach. -/
theorem mirrorsDirectory_run {w : ℕ} {file dir hash : List UInt8} {s₀ s : Filesys}
    {cs : List Call} {as : List Answer} (hfdl : file.length < 2 ^ 32)
    (hd : DistinctNames (dir.length / metaLen) dir)
    (hw : w = nameLen - 1 ∨ (w = nameLen ∧ NamesTerminated (dir.length / metaLen) dir))
    (he : ExtentsInside (dir.length / metaLen) dir file.length)
    (hinit : initFs file dir hash = .ok s₀) (hnamed : ∀ c ∈ cs, c.Named)
    (hfits : ∀ c ∈ cs, c.Fits file.length) (hrun : Trace.run exec cs s₀ = .ok (as, s)) :
    MirrorsDirectory w s := by
  obtain ⟨hm₀, hin₀, hfile₀⟩ := initFs_mirror hd hw he hinit
  have hw' : nameLen - 1 ≤ w ∧ w ≤ nameLen := by
    rcases hw with rfl | ⟨rfl, -⟩ <;> decide
  have hnamed' : Trace.Along exec (fun c _ => c.Named) cs s₀ :=
    Trace.along_of_forall (fun _ _ h => h) cs s₀ hnamed
  have hsafe := hnamed'.and (Trace.along_of_forall (P := fun c _ => c.Fits file.length)
    (fun _ _ h => h) cs s₀ hfits)
  have hI := Trace.run_induct
    (I := fun s => Mirror w s ∧ InRange s ∧ s.file.length = file.length)
    (fun c s a s' hI hP hr => by
      obtain ⟨hm, hin, hfile⟩ := hI
      obtain ⟨hm', hin'⟩ := exec_mirror hw' hm hin (by unfold Filesys.fileDataLen; omega) hP.1
        (by unfold Filesys.fileDataLen; rw [hfile]; exact hP.2.fits32 hfdl) hr
      exact ⟨hm', hin', (exec_liveOk hm.liveOk hP.1 hr).2.shape.file.trans hfile⟩)
    cs s₀ s as ⟨hm₀, hin₀, hfile₀⟩ hsafe hrun
  refine hI.1.mirrorsDirectory hI.2.1 ?_
  unfold Filesys.fileDataLen
  rw [hI.2.2]
  exact hfdl

set_option maxRecDepth 20000 in
/-- A directory with the file `a` of ten bytes, and four calls. -/
theorem mirrorsDirectory_run_four :
    ∃ s₀ as s, initFs (zeros 256) ([97] ++ zeros 67 ++ [10, 0, 0, 0] ++ zeros 72) (zeros 16) =
        .ok s₀ ∧
      Trace.run exec [.create (.ofByte 98 (by decide)) 5,
        .rename (.ofByte 97 (by decide)) (.ofByte 99 (by decide)),
        .resize (.ofByte 98 (by decide)) 0, .delete (.ofByte 98 (by decide))] s₀ = .ok (as, s) ∧
      MirrorsDirectory nameLen s := by
  obtain ⟨s₀, hinit, hrun⟩ := Run.holds_iff.mp
    (show Run.Holds (initFs (zeros 256) ([97] ++ zeros 67 ++ [10, 0, 0, 0] ++ zeros 72) (zeros 16))
      (fun s₀ => Run.Holds (Trace.run exec [.create (.ofByte 98 (by decide)) 5,
        .rename (.ofByte 97 (by decide)) (.ofByte 99 (by decide)),
        .resize (.ofByte 98 (by decide)) 0, .delete (.ofByte 98 (by decide))] s₀)
        fun _ => True) by decide +kernel)
  obtain ⟨⟨as, s⟩, hr, -⟩ := Run.holds_iff.mp hrun
  refine ⟨s₀, as, s, hinit, hr, mirrorsDirectory_run (w := nameLen) (by decide) ?_
    (Or.inr ⟨rfl, ?_⟩) ?_ hinit (by decide) (by decide) hr⟩
  · unfold DistinctNames
    decide +kernel
  · unfold NamesTerminated
    decide +kernel
  · unfold ExtentsInside
    decide +kernel

set_option maxRecDepth 20000 in
/-- A name of 64 bytes fills its field, and `init_fs` reads 63 of them. -/
theorem mirrorsDirectory_fails : ¬ ∀ (file dir hash : List UInt8) (s₀ s : Filesys)
    (cs : List Call) (as : List Answer), file.length < 2 ^ 32 →
    DistinctNames (dir.length / metaLen) dir → ExtentsDisjoint (dir.length / metaLen) dir →
    ExtentsInside (dir.length / metaLen) dir file.length → initFs file dir hash = .ok s₀ →
    (∀ c ∈ cs, c.Named) → (∀ c ∈ cs, c.Fits file.length) →
    Trace.run exec cs s₀ = .ok (as, s) → MirrorsDirectory nameLen s := by
  intro h
  obtain ⟨s₀, hinit, hbad⟩ := Run.holds_iff.mp
    (show Run.Holds (initFs (zeros 256) (List.replicate 64 97 ++ zeros 8) (zeros 16))
      (fun s₀ => ¬ ∀ p ∈ s₀.nList.list,
        entryName nameLen (entry s₀.dir (s₀.heap p).index) = (s₀.heap p).name.bytes)
      by decide +kernel)
  refine hbad fun p hp => ((h (zeros 256) (List.replicate 64 97 ++ zeros 8) (zeros 16) s₀ s₀ [] []
    (by decide) ?_ ?_ ?_ hinit (by decide) (by decide) rfl).entry p hp).1
  · unfold DistinctNames
    decide +kernel
  · -- there is one entry only
    have hone : (List.replicate 64 97 ++ zeros 8 : List UInt8).length / metaLen = 1 := by decide
    intro i hi j hj hij
    omega
  · unfold ExtentsInside
    decide +kernel

end Vfs
