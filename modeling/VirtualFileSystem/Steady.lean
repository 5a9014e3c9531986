import VirtualFileSystem.Compact
import VirtualFileSystem.Gapless

/-!
# Runs that leave no gaps

As long as no bytes are given free, the files fill the front of `file_data` at every moment, and a
repack finds nothing to do.
-/

namespace Vfs

open Extents

/-- No file with bytes is deleted or cut, an empty file grows if it is the only one, and renaming
keeps the order of the names. -/
structure Call.Steady (c : Call) (s : Filesys) : Prop where
  grows : c.Grows (fun p length _ =>
    s.used + length ≤ s.fileDataLen + (s.heap p).length → (s.heap p).length = 0 → OnlyEmpty p s) s
  order : c.KeepsOrder s
  keeps : ¬ c.Gaps s

instance decidableGaps : ∀ (c : Call) (s : Filesys), Decidable (c.Gaps s)
  | .delete name, s => inferInstanceAs (Decidable (∃ p ∈ s.live,
      lookup name s = .ok (some p) ∧ 0 < (s.heap p).length))
  | .resize name length, s => inferInstanceAs (Decidable (∃ p ∈ s.live,
      lookup name s = .ok (some p) ∧ length < (s.heap p).length))
  | .create _ _, _ | .write _ _ _ _, _ | .rename _ _, _ | .repack, _ | .read _ _ _, _
  | .size _, _ => .isFalse id

instance (p : Ptr) (s : Filesys) : Decidable (OnlyEmpty p s) := by unfold OnlyEmpty; infer_instance

instance (c : Call) (s : Filesys) : Decidable (c.Steady s) :=
  decidable_of_iff (c.Grows (fun p length _ => s.used + length ≤ s.fileDataLen + (s.heap p).length →
      (s.heap p).length = 0 → OnlyEmpty p s) s ∧ c.KeepsOrder s ∧ ¬ c.Gaps s)
    ⟨fun h => ⟨h.1, h.2.1, h.2.2⟩, fun h => ⟨h.grows, h.order, h.keeps⟩⟩

section Steady

variable {k : ℕ} {s s' : Filesys} {c : Call} {cs : List Call}

theorem Call.Steady.tame (h : c.Steady s) (hg : Gapless s) : c.Tame s := by
  obtain ⟨hgrows, horder, hkeeps⟩ := h
  refine ⟨?_, horder, ?_⟩
  · cases c with
    | resize name length =>
      exact fun p hp hl hlt hroom => ⟨hg, hgrows p hp hl hlt hroom⟩
    | write name offset count buf =>
      exact fun p hp hl hoff hlt hroom => ⟨hg, hgrows p hp hl hoff hlt hroom⟩
    | create _ _ => trivial
    | delete _ => trivial
    | rename _ _ => trivial
    | repack => trivial
    | read _ _ _ => trivial
    | size _ => trivial
  · rintro name rfl p hp hl
    by_contra h0
    exact hkeeps ⟨p, hp, hl, Nat.pos_of_ne_zero h0⟩

/-- Without gaps there is nothing to move. -/
theorem Gapless.repackHelper (hg : Gapless s) (hw : WellFormed s)
    (hfdl : s.fileDataLen ≤ 2 ^ 32) : Vfs.repackHelper s = .ok (-1, s) := by
  have ha := hw.addressable hfdl
  have hpacked := (gapless_iff_packed hw.mirror hw.layout).mp hg
  have hlen := (hw.arranged ha).length_lt
  have hmove := hw.movable_pos ha
  unfold movable at hmove
  unfold Vfs.repackHelper
  cases hl : s.oList.list with
  | nil => rfl
  | cons p ps =>
    rw [hl] at hpacked hlen hmove
    dsimp only
    by_cases hused : s.used ≤ 0
    · rw [if_pos hused]
      rfl
    have hmove := hmove (not_le.mp hused)
    obtain ⟨hstart, hrest⟩ := hpacked
    obtain ⟨hpos, hlt⟩ := hmove p List.mem_cons_self
    have hzero : (s.heap p).offset = 0 := hstart hpos
    rw [if_neg hused, if_neg (by omega)]
    refine repackLoop_idle ps p (-1) s hlen hlt
      (fun q hq => (hmove q (List.mem_cons_of_mem p hq)).1) ?_
    obtain ⟨hi, hhi⟩ := prefix_reached s.heap ps
    rw [hzero]
    refine @packed_of_append _ (exts s.heap hi) _ ?_
    rw [← exts_append, hhi]
    exact hrest

/-- One steady call. -/
theorem Call.Steady.step (h : c.Steady s) (hs : Healthy k s) (hk : k ≤ 23) (hg : Gapless s)
    (hsmall : c.Small) : ∃ a s', exec c s = .ok (a, s') ∧ Healthy k s' ∧ Gapless s' := by
  have htame := h.tame hg
  obtain ⟨a, s', hr, -, hs'⟩ := exec_sound hs.sound hk hsmall (htame.safe hs hk)
  have hplaces := exec_places hs hk hsmall htame hr
  exact ⟨a, s', hr, ⟨hs', hplaces.empty⟩, hplaces.gapless (Or.inr ⟨hg, h.keeps⟩)⟩

/-- **Runs that leave no gaps.**  Calls that give no bytes free complete, keep the files with bytes
exactly over the first `used` bytes, and leave nothing for a repack to do. -/
theorem steady_run (hs : Healthy k s) (hk : k ≤ 23) (hg : Gapless s)
    (hsmall : ∀ c ∈ cs, c.Small) (hall : Trace.Along exec Call.Steady cs s) :
    ∃ as s', Trace.run exec cs s = .ok (as, s') ∧ Healthy k s' ∧ repack s' = .ok s' ∧
      ∀ i : ℕ, (i : ℤ) < s'.used ↔ ∃ p ∈ s'.live,
        (s'.heap p).offset ≤ i ∧ i < (s'.heap p).offset + (s'.heap p).length := by
  have hall' : Trace.Along exec (fun c s => c.Small ∧ c.Steady s) cs s :=
    (Trace.along_of_forall (fun _ _ => id) cs s hsmall).and hall
  obtain ⟨as, s', hr, hs', hg'⟩ := Trace.run_history (I := fun _ s => Healthy k s ∧ Gapless s)
    (fun c _ s hI hc => by
      obtain ⟨a, s', hr, h⟩ := hc.2.step hI.1 hk hI.2 hc.1
      exact ⟨a, s', hr, h⟩) cs [] s ⟨hs, hg⟩ hall'
  have hw := hs'.wellFormed
  have hfdl := hs'.sound.perfect.fileDataLen_le31 hk
  have hidle := hg'.repackHelper hw (by omega)
  have hfills := (repackHelper_compacted hw (hw.addressable (by omega)) hidle).fills
  refine ⟨as, s', hr, hs', ?_, fun i => (hfills i).trans ?_⟩
  · unfold repack
    rw [hidle]
    rfl
  · have hmem : ∀ p, p ∈ s'.oList.list ↔ p ∈ s'.live :=
      fun p => ⟨hs'.sound.layout.live, hs'.sound.layout.mem⟩
    simp only [hmem]

end Steady

/-- Files are created, written and enlarged. -/
def steadyCalls : List Call :=
  [.create (.ofByte 97 nul_ne_97) 3, .create (.ofByte 98 nul_ne_98) 0,
    .write (.ofByte 98 nul_ne_98) 0 4 [1, 2, 3, 4], .resize (.ofByte 97 nul_ne_97) 10,
    .rename (.ofByte 98 nul_ne_98) (.ofByte 99 nul_ne_99),
    .write (.ofByte 99 nul_ne_99) 4 2 [5, 6]]

set_option maxRecDepth 20000 in
/-- Both files are moved on the way, and fill the first 16 bytes in the end. -/
theorem steady_run_moves : ∃ s as s', initFs (zeros 256) (zeros 144) (zeros 16) = .ok s ∧
    Trace.run exec steadyCalls s = .ok (as, s') ∧ repack s' = .ok s' ∧
    ∀ i : ℕ, (i : ℤ) < s'.used ↔ ∃ p ∈ s'.live,
      (s'.heap p).offset ≤ i ∧ i < (s'.heap p).offset + (s'.heap p).length := by
  obtain ⟨s, hinit, hlive, hall⟩ := Run.holds_iff.mp
    (show Run.Holds (initFs (zeros 256) (zeros 144) (zeros 16)) (fun s => s.live = [] ∧
      Trace.Along exec Call.Steady steadyCalls s) by decide +kernel)
  have hsound : Sound 0 s := (initFs_zero_sound (k := 0) (by decide)
    (fun b hb => eq_zero_of_mem_zeros hb) hinit).1
  have hs : Healthy 0 s := ⟨hsound, fun p hp => by rw [hlive] at hp; cases hp⟩
  obtain ⟨as, s', hr, -, hidle, hfills⟩ := steady_run hs (by decide)
    (fun p hp => by rw [hlive] at hp; cases hp) (by decide) hall
  exact ⟨s, as, s', hinit, hr, hidle, hfills⟩

end Vfs
