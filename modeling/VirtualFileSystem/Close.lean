import VirtualFileSystem.Scan
import VirtualFileSystem.LayoutRun

/-!
# Closing the filesystem (`close_fs`, `free_arr`, `free_arr_list`)

The records are freed through `o_list`, which then empties both arrays so that `n_list` does not
free them again.  If `o_list` is empty and `n_list` is not, the records are freed through `n_list`,
and emptying `o_list` touches memory that was freed before.
-/

namespace Vfs

open FlatImage

/-! ## Freeing -/

/-- What is left to free: the records, and the elements of each array that is not freed yet. -/
structure Closing where
  live : List Ptr
  lists : ArrType → Option (List Ptr)

/-- `free_file` of the records of a list, in turn.  Freeing a record twice is a fault. -/
def freeFiles : List Ptr → List Ptr → Run (List Ptr)
  | [], live => pure live
  | p :: ps, live => if p ∈ live then freeFiles ps (live.erase p) else .error .outOfBounds

/-- The elements of an array.  Touching one that was freed is a fault. -/
def Closing.list (t : ArrType) (c : Closing) : Run (List Ptr) :=
  match c.lists t with
  | some l => pure l
  | none => .error .outOfBounds

/-- `fs->o_list->size = 0`, or the same of `n_list`. -/
def Closing.clear (t : ArrType) (c : Closing) : Run Closing := do
  let _ ← c.list t
  pure { c with lists := Function.update c.lists t (some []) }

/-- `free_arr_list`. -/
def freeArrList (t : ArrType) (c : Closing) : Run Closing := do
  let list ← c.list t
  if list.length > 0 then do
    let live ← freeFiles list c.live
    -- both arrays are emptied, whichever of them is freed
    let c ← Closing.clear .offset { c with live := live }
    c.clear .name
  else pure c

/-- `free_arr`. -/
def freeArr (t : ArrType) (c : Closing) : Run Closing := do
  let c ← freeArrList t c
  pure { c with lists := Function.update c.lists t none }

/-- `close_fs`, with the records it leaves allocated. -/
def closeFs : Option Filesys → Run (List Ptr)
  | none => pure []
  | some s => do
    let c ← freeArr .offset ⟨s.live, fun t => some (s.arr t).list⟩
    let c ← freeArr .name c
    pure c.live

/-! ## What is freed -/

section Close

variable {k : ℕ} {s s' : Filesys} {l live r : List Ptr}

/-- Freeing a list completes if it holds no record more often than there is one. -/
theorem freeFiles_eq_ok :
    freeFiles l live = .ok r ↔ l.Subperm live ∧ r = live.diff l := by
  induction l generalizing live with
  | nil => simp [freeFiles, eq_comm]
  | cons p ps ih =>
    unfold freeFiles
    rw [List.diff_cons]
    by_cases hp : p ∈ live
    · rw [if_pos hp, ih]
      refine and_congr_left fun _ => ?_
      rw [← List.subperm_cons p, (List.perm_cons_erase hp).symm.subperm_left]
    · rw [if_neg hp]
      exact ⟨nofun, fun h => absurd (h.1.subset List.mem_cons_self) hp⟩

theorem ArrOk.subperm {t : ArrType} (hs : ArrOk t s) : (s.arr t).list.Subperm s.live :=
  hs.nodup.subperm hs.mem_live

/-- Freeing an array that holds records. -/
theorem freeArrList_of {t : ArrType} {c : Closing} (hl : c.lists t = some l) (h0 : l ≠ [])
    (hsub : l.Subperm c.live) : freeArrList t c =
      Closing.clear .offset { c with live := c.live.diff l } >>= Closing.clear .name := by
  unfold freeArrList Closing.list
  rw [hl]
  simp only [Run.pure_eq, Run.ok_bind]
  rw [if_pos (List.length_pos_iff.mpr h0), freeFiles_eq_ok.mpr ⟨hsub, rfl⟩]
  rfl

theorem freeArrList_nil {t : ArrType} {c : Closing} (hl : c.lists t = some []) :
    freeArrList t c = .ok c := by
  unfold freeArrList Closing.list
  rw [hl]
  rfl

/-- **Closing.**  Every record of `o_list` is freed once, unless there are only records that it does
not hold: then freed memory is touched. -/
theorem closeFs_eq (hs : LiveOk s) : closeFs (some s) =
    if s.oList.list = [] ∧ s.nList.list ≠ [] then .error .outOfBounds
    else .ok (s.live.diff s.oList.list) := by
  obtain ⟨c, hc⟩ : ∃ c : Closing, c = ⟨s.live, fun t => some (s.arr t).list⟩ := ⟨_, rfl⟩
  have hlists : ∀ t, c.lists t = some (s.arr t).list := fun t => by rw [hc]
  have hlive : c.live = s.live := by rw [hc]
  have hclose : closeFs (some s) =
      freeArr .offset c >>= fun c => freeArr .name c >>= fun c => .ok c.live := by
    rw [hc]
    rfl
  rw [hclose]
  by_cases ho : s.oList.list = []
  · have h1 : freeArr .offset c = .ok ⟨s.live, Function.update c.lists .offset none⟩ := by
      unfold freeArr
      rw [freeArrList_nil ((hlists .offset).trans (congrArg some ho)), ← hlive]
      rfl
    rw [h1, Run.ok_bind]
    have hn : (⟨s.live, Function.update c.lists .offset none⟩ : Closing).lists .name =
        some s.nList.list := hlists .name
    by_cases hn0 : s.nList.list = []
    · rw [if_neg (fun h => h.2 hn0), ho, List.diff_nil]
      unfold freeArr
      rw [freeArrList_nil (by rw [hn, hn0])]
      rfl
    · rw [if_pos ⟨ho, hn0⟩]
      unfold freeArr
      rw [freeArrList_of hn hn0 hs.names.subperm]
      rfl
  · rw [if_neg (fun h => ho h.1)]
    unfold freeArr
    rw [freeArrList_of (hlists .offset) ho (by rw [hlive]; exact hs.offsets.subperm), hlive]
    simp only [Closing.clear, Closing.list, hlists, Run.pure_eq, Run.ok_bind,
      Function.update_of_ne (show ArrType.name ≠ .offset by decide)]
    rfl

theorem diff_self (l : List Ptr) : l.diff l = [] := by
  induction l with
  | nil => rfl
  | cons p ps ih => rw [List.diff_cons, List.erase_cons_head, ih]

/-- With every record in `o_list` all are freed, each once. -/
theorem closeFs_layout (hs : LiveOk s) (hL : Layout s) : closeFs (some s) = .ok [] := by
  rw [closeFs_eq hs, if_neg, hL.perm.diff_left s.live, diff_self]
  · rintro ⟨h, h0⟩
    have hlive := hL.perm
    rw [h] at hlive
    exact h0 (List.perm_nil.mp (hs.perm.trans hlive.symm))

/-- **Closing after any run.**  From a directory of distinct names, whose extents may overlap, and
whatever was called, closing touches freed memory if `o_list` alone is empty; otherwise it frees
each record once, but for those `o_list` has lost. -/
theorem closeFs_run {file dir hash : List UInt8} {s₀ : Filesys} {cs : List Call}
    {as : List Answer} (hd : DistinctNames (dir.length / metaLen) dir)
    (hinit : initFs file dir hash = .ok s₀) (hnamed : ∀ c ∈ cs, c.Named)
    (hrun : Trace.run exec cs s₀ = .ok (as, s)) :
    closeFs (some s) = (if s.oList.list = [] ∧ s.nList.list ≠ [] then .error .outOfBounds
      else .ok (s.live.diff s.oList.list)) ∧
    (closeFs (some s) = .ok [] ↔ ∀ p ∈ s.live, p ∈ s.oList.list) := by
  obtain ⟨hscan, -, hdir, -, hsize⟩ := initFs_scanned hinit
  have hle : s₀.indexLen ≤ dir.length / metaLen :=
    (Nat.le_div_iff_mul_le (by decide)).mpr (by rw [Nat.mul_comm]; exact hsize)
  have hs₀ : LiveOk s₀ := hscan.liveOk (by
    rw [hdir]
    exact fun i hi j hj => hd i (hi.trans_le hle) j (hj.trans_le hle))
  have hs : LiveOk s := Trace.run_induct (P := fun c _ => c.Named)
    (fun c s a s' hI hP hr => (exec_liveOk hI hP hr).1) cs s₀ s as hs₀
    (Trace.along_of_forall (fun _ _ h => h) cs s₀ hnamed) hrun
  refine ⟨closeFs_eq hs, ?_⟩
  rw [closeFs_eq hs]
  constructor
  · intro h p hp
    split_ifs at h with hbad
    have hdiff : s.live.diff s.oList.list = [] := Except.ok.inj h
    by_contra hno
    have hmem : p ∈ s.live.diff s.oList.list := hs.nodup.mem_sdiff_iff.mpr ⟨hp, hno⟩
    rw [hdiff] at hmem
    cases hmem
  · intro hall
    rw [if_neg]
    · refine congrArg _ (List.eq_nil_iff_forall_not_mem.mpr fun p hp => ?_)
      obtain ⟨hp, hno⟩ := hs.nodup.mem_sdiff_iff.mp hp
      exact hno (hall p hp)
    · rintro ⟨h, h0⟩
      obtain ⟨p, hp⟩ := List.exists_mem_of_ne_nil _ h0
      have hmem := hall p (hs.mem_live hp)
      rw [h] at hmem
      cases hmem

end Close

/-- Two files of one byte at offset 0. -/
def overlapDir : List UInt8 :=
  [97] ++ zeros 67 ++ [1, 0, 0, 0] ++ [98] ++ zeros 67 ++ [1, 0, 0, 0]

set_option maxRecDepth 20000 in
/-- After the first of two files at one offset is deleted, closing touches freed memory. -/
theorem closeFs_run_overlap : ∃ s₀ as s, initFs (zeros 256) overlapDir (zeros 16) = .ok s₀ ∧
    Trace.run exec [.delete (.ofByte 97 (by decide))] s₀ = .ok (as, s) ∧ s.live.length = 1 ∧
    closeFs (some s) = .error .outOfBounds := by
  obtain ⟨s₀, hinit, hrun⟩ := Run.holds_iff.mp
    (show Run.Holds (initFs (zeros 256) overlapDir (zeros 16)) (fun s₀ =>
      Run.Holds (Trace.run exec [.delete (.ofByte 97 (by decide))] s₀) fun r =>
        r.2.live.length = 1 ∧ r.2.oList.list = [] ∧ r.2.nList.list ≠ []) by decide +kernel)
  obtain ⟨⟨as, s⟩, hr, h1, ho, hn⟩ := Run.holds_iff.mp hrun
  have hclose := (closeFs_run (by unfold DistinctNames; decide +kernel) hinit
    (by decide +kernel) hr).1
  rw [if_pos ⟨ho, hn⟩] at hclose
  exact ⟨s₀, as, s, hinit, hr, h1, hclose⟩

end Vfs
