import VirtualFileSystem.Compact

/-!
# First fit

`new_file_offset` returns the first room there is.  Where there is none, a file with bytes is not at
its packed place, so the repack moves one, and what it leaves behind the used bytes is free.
-/

namespace Vfs

/-- No file uses a byte of `[o, o + length)`, a range of `file_data`. -/
def Fits (length : ℕ) (s : Filesys) (o : ℕ) : Prop :=
  FreeAt s.heap s.oList.list o length ∧ o + length ≤ s.fileDataLen

section FirstFit

variable {s s' : Filesys} {length : ℕ} {ho ho' : ℤ}

/-- The used bytes behind a repack hold all files that have any. -/
theorem Compacted.stop_le (hc : Compacted s s') (hf : RepackFrame s s') {p : Ptr}
    (hp : p ∈ s.oList.list) (h0 : 0 < (s.heap p).length) :
    (((s'.heap p).offset + (s'.heap p).length : ℕ) : ℤ) ≤ s.used := by
  have hlast := (hc.fills ((s'.heap p).offset + (s.heap p).length - 1)).mpr
    ⟨p, hp, by omega, by omega⟩
  rw [hf.offsetOnly.length]
  omega

/-- A repack that moves nothing leaves room behind the files, so there was some. -/
theorem fits_of_idle (hw : WellFormed s) (ha : Addressable s)
    (hroom : s.used + length ≤ s.fileDataLen) (hr : repackHelper s = .ok (-1, s')) :
    Fits length s s.used.toNat := by
  have hc := repackHelper_compacted hw ha hr
  have hf := repackHelper_frame hr
  have hused := hw.layout.total_eq hw.mirror
  have hsame := (repackHelper_reported hw ha hr).idle.mp rfl
  refine ⟨fun p hp hp0 => Or.inl ?_, by omega⟩
  have hstop := hc.stop_le hf hp hp0
  rw [hf.offsetOnly.length, hsame p (hw.layout.live hp)] at hstop
  omega

/-- What `new_file_offset` leaves when it repacks. -/
structure Cleared (s : Filesys) (o : ℕ) (ho : ℤ) (s' : Filesys) : Prop where
  repacked : repackHelper s = .ok (ho, s')
  start : 0 ≤ ho
  offset : (o : ℤ) = s.used ∧ s'.used = s.used
  free : ∀ p ∈ s'.oList.list, (s'.heap p).offset + (s'.heap p).length ≤ o ∨
    s'.fileDataLen ≤ (s'.heap p).offset

theorem cleared_of_noFit (hw : WellFormed s) (hfdl : s.fileDataLen ≤ 2 ^ 32)
    (hroom : s.used + length ≤ s.fileDataLen) (hno : ∀ o, ¬ Fits length s o) :
    ∃ ho s', repackHelper s = .ok (ho, s') ∧ Cleared s (toU64 s'.used) ho s' := by
  have ha := hw.layout.addressable hfdl
  have hused := hw.layout.total_eq hw.mirror
  have hreach : Reachable s s.oList.list := fun p hp =>
    ⟨hw.mirror.entry_le (hw.layout.live hp), (hw.arranged ha).inside p hp⟩
  obtain ⟨ho, s', hr, -⟩ := repackHelper_total hreach
  have hc := repackHelper_compacted hw ha hr
  have hrep := repackHelper_reported hw ha hr
  have hf := repackHelper_frame hr
  have hmoved : ho ≠ -1 := by
    rintro rfl
    exact hno _ (fits_of_idle hw ha hroom hr)
  have heq : s'.used = s.used := hf.used
  have hoff : ((toU64 s'.used : ℕ) : ℤ) = s.used := by
    rw [heq, toU64_of_nonneg (by omega) (by omega)]
    omega
  refine ⟨ho, s', hr, hr, hrep.start hmoved, ⟨hoff, heq⟩, fun p hp => ?_⟩
  rw [hc.order] at hp
  rcases Nat.eq_zero_or_pos (s.heap p).length with hp0 | hp0
  · -- the empty files are behind `file_data`
    right
    rw [hc.empty p hp hp0, Filesys.fileDataLen, hf.file_length]
    exact hfdl
  · left
    have := hc.stop_le hf hp hp0
    omega

/-- `new_file_offset` returns the least offset with room and moves nothing, or, where there is no
room in one piece, packs the files and returns the place behind them. -/
theorem newFileOffset_firstFit (hw : WellFormed s) (hfdl : s.fileDataLen ≤ 2 ^ 32)
    (h0 : 0 < length) (hroom : s.used + length ≤ s.fileDataLen) (ho : ℤ) :
    ((∃ o, Fits length s o) → ∃ o, newFileOffset length ho s = .ok (o, ho, s) ∧
      IsLeast {o | Fits length s o} o) ∧
    ((¬ ∃ o, Fits length s o) → ∃ o ho' s', newFileOffset length ho s = .ok (o, ho', s') ∧
      Cleared s o ho' s') := by
  have hused := hw.layout.total_eq hw.mirror
  have hle : length ≤ s.fileDataLen := by omega
  have hsum : toU64 (s.used + length) ≤ s.fileDataLen := by
    rw [toU64_of_nonneg (by omega) (by omega)]
    omega
  obtain ⟨r, hr, hsome, hnone⟩ := findGap_firstFit (hw.layout.searchable hw.mirror hfdl) hle
  cases r with
  | some o =>
    obtain ⟨hfit, hleast⟩ := hsome o rfl
    refine ⟨fun _ => ⟨o, ?_, hfit, fun o' ho' => hleast o' ho'.1 ho'.2⟩,
      fun hno => absurd ⟨o, hfit⟩ hno⟩
    unfold newFileOffset
    rw [Run.assert_of hle, Run.ok_bind, Run.assert_of hsum, Run.ok_bind, if_neg h0.ne', hr]
    rfl
  | none =>
    have hno : ∀ o, ¬ Fits length s o := fun o hfit => by
      have := hnone rfl o hfit.1
      have := hfit.2
      omega
    refine ⟨fun ⟨o, hfit⟩ => absurd hfit (hno o), fun _ => ?_⟩
    obtain ⟨ho', s', hrep, hc⟩ := cleared_of_noFit hw hfdl hroom hno
    refine ⟨_, ho', s', ?_, hc⟩
    unfold newFileOffset
    rw [Run.assert_of hle, Run.ok_bind, Run.assert_of hsum, Run.ok_bind, if_neg h0.ne', hr,
      Run.ok_bind]
    simp only [hrep, Run.ok_bind, Run.pure_eq]

end FirstFit

set_option maxRecDepth 20000 in
/-- Behind the byte at offset 5 there are only 250 others. -/
theorem newFileOffset_firstFit_gap :
    ∃ s, initFs (zeros 256) gapDir (zeros 16) = .ok s ∧
      ((∃ o, Fits 251 s o) → ∃ o, newFileOffset 251 (-1) s = .ok (o, -1, s) ∧
        IsLeast {o | Fits 251 s o} o) ∧
      ((¬ ∃ o, Fits 251 s o) → ∃ o ho' s', newFileOffset 251 (-1) s = .ok (o, ho', s') ∧
        Cleared s o ho' s') := by
  obtain ⟨s, hinit, hused, hlen⟩ := Run.holds_iff.mp
    (show Run.Holds (initFs (zeros 256) gapDir (zeros 16))
      (fun s => s.used = 1 ∧ s.fileDataLen = 256) by decide +kernel)
  exact ⟨s, hinit, newFileOffset_firstFit (gapDir_wellFormed hinit) (by omega) (by decide)
    (by omega) (-1)⟩

end Vfs
