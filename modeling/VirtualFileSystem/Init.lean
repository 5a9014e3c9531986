import VirtualFileSystem.System

/-!
# Opening a filesystem

On images of null bytes `init_fs` finds no file: the state is `initState` with empty arrays.  On any
images it reads the directory only, whatever the bytes and the sizes of the two others.
-/

namespace Vfs

open FlatImage

/-- An image of null bytes. -/
def zeros (n : ℕ) : List UInt8 := List.replicate n 0

@[simp] theorem length_zeros (n : ℕ) : (zeros n).length = n := List.length_replicate

theorem eq_zero_of_mem_zeros {n : ℕ} {b : UInt8} (h : b ∈ zeros n) : b = 0 :=
  List.eq_of_mem_replicate h

section Zero

variable {file dir hash : List UInt8} {s s' : Filesys}

theorem initLoop_zero : ∀ (n i : ℕ) (s s' : Filesys), (∀ b ∈ s.dir, b = 0) →
    initLoop i n s = .ok s' → s' = s := by
  intro n
  induction n with
  | zero =>
    intro i s s' _ hr
    exact (Except.ok.inj hr).symm
  | succ n ih =>
    intro i s s' hz hr
    obtain ⟨name, hn, hr⟩ := Run.bind_eq_ok.mp hr
    obtain ⟨-, rfl⟩ := memRead_eq_ok.mp hn
    have hhead : (slice s.dir (((metaLen * i : ℕ) : ℤ)).toNat (nameLen - 1)).headD 0 = 0 := by
      cases hs : slice s.dir (((metaLen * i : ℕ) : ℤ)).toNat (nameLen - 1) with
      | nil => rfl
      | cons b bs =>
        refine hz b (mem_of_mem_slice (hs ▸ List.mem_cons_self))
    rw [if_neg (not_not.mpr hhead)] at hr
    exact ih (i + 1) s s' hz hr

theorem arrInit_post {c : ℤ} {t : ArrType} {arr : Arr} (hr : arrInit c t = .ok arr) :
    (0 ≤ c ∧ c ≤ maxNumFiles) ∧ arr = ⟨c.toNat, t, []⟩ := by
  obtain ⟨_, h, hr⟩ := Run.bind_eq_ok.mp hr
  exact ⟨Run.assert_eq_ok.mp h, (Except.ok.inj hr).symm⟩

/-- A completed `init_fs` ran its loop over the whole entries of the directory. -/
theorem initFs_post (hr : initFs file dir hash = .ok s) :
    (file ≠ [] ∧ dir ≠ [] ∧ hash ≠ []) ∧ ∃ n, n ≤ maxNumFiles ∧ metaLen * n ≤ dir.length ∧
      initLoop 0 n (initState file dir hash ⟨n, .offset, []⟩ ⟨n, .name, []⟩) = .ok s := by
  obtain ⟨_, h1, hr⟩ := Run.bind_eq_ok.mp hr
  have hle : (toI32 (dir.length / metaLen : ℕ)).toNat ≤ dir.length / metaLen := by
    generalize dir.length / metaLen = m
    unfold toI32
    rw [Int.bmod_def]
    split_ifs <;> omega
  generalize toI32 (dir.length / metaLen : ℕ) = c at hr hle
  obtain ⟨oList, h2, hr⟩ := Run.bind_eq_ok.mp hr
  obtain ⟨nList, h3, hr⟩ := Run.bind_eq_ok.mp hr
  obtain ⟨hb, rfl⟩ := arrInit_post h2
  obtain ⟨-, rfl⟩ := arrInit_post h3
  refine ⟨Run.assert_eq_ok.mp h1, c.toNat, Int.toNat_le.mpr hb.2, ?_, hr⟩
  calc metaLen * c.toNat ≤ metaLen * (dir.length / metaLen) := Nat.mul_le_mul_left _ hle
    _ ≤ dir.length := Nat.mul_div_le _ _

theorem initFs_zero (hz : ∀ b ∈ dir, b = 0) (hr : initFs file dir hash = .ok s) :
    ∃ n, n ≤ maxNumFiles ∧ metaLen * n ≤ dir.length ∧
      s = initState file dir hash ⟨n, .offset, []⟩ ⟨n, .name, []⟩ := by
  obtain ⟨-, n, h1, h2, hr⟩ := initFs_post hr
  exact ⟨n, h1, h2, initLoop_zero n 0 _ _ hz hr⟩

theorem initState_liveOk (n : ℕ) :
    LiveOk (initState file dir hash ⟨n, .offset, []⟩ ⟨n, .name, []⟩) := by
  refine ⟨⟨rfl, ?_, ?_, ?_, rfl⟩, ⟨rfl, ?_, ?_, ?_, rfl⟩, List.Perm.refl _, ?_⟩
  · intro i p hp
    simp [initState] at hp
  · intro p hp
    simp [initState] at hp
  · intro p hp
    simp [initState] at hp
  · intro i p hp
    simp [initState] at hp
  · intro p hp
    simp [initState] at hp
  · intro p hp
    simp [initState] at hp
  · intro p hp
    simp [initState] at hp

end Zero

/-! ## Other images -/

/-- The state over other images, with a tree of the given size. -/
def Filesys.over (file hash : List UInt8) (treeLen leafOffset : ℤ) (s : Filesys) : Filesys :=
  { s with file := file, hash := hash, treeLen := treeLen, leafOffset := leafOffset }

section Over

variable {file dir hash file' hash' : List UInt8} {s s' : Filesys}
  {treeLen leafOffset : ℤ}

theorem sortedInsert_over (t : ArrType) (p : Ptr) (hr : sortedInsert t p s = .ok s') :
    sortedInsert t p (s.over file hash treeLen leafOffset) =
      .ok (s'.over file hash treeLen leafOffset) := by
  obtain ⟨⟨r, arr, heap⟩, h1, hr⟩ := Run.bind_eq_ok.mp hr
  obtain rfl := Except.ok.inj hr
  have harr : (s.over file hash treeLen leafOffset).arr t = s.arr t := by cases t <;> rfl
  have hset : (s.over file hash treeLen leafOffset).setArr t arr heap =
      (s.setArr t arr heap).over file hash treeLen leafOffset := by cases t <;> rfl
  exact Run.bind_eq_ok.mpr ⟨(r, arr, heap), by rw [harr]; exact h1, congrArg Except.ok hset⟩

/-- Loading reads the directory only. -/
theorem initLoop_over : ∀ (n i : ℕ) (s s' : Filesys), initLoop i n s = .ok s' →
    initLoop i n (s.over file hash treeLen leafOffset) =
      .ok (s'.over file hash treeLen leafOffset) := by
  intro n
  induction n with
  | zero =>
    intro i s s' hr
    obtain rfl := Except.ok.inj hr
    rfl
  | succ n ih =>
    intro i s s' hr
    obtain ⟨name, hname, hr⟩ := Run.bind_eq_ok.mp hr
    refine Run.bind_eq_ok.mpr ⟨name, hname, ?_⟩
    by_cases hu : name.headD 0 ≠ 0
    · rw [if_pos hu] at hr ⊢
      obtain ⟨lengthBytes, h1, hr⟩ := Run.bind_eq_ok.mp hr
      obtain ⟨offset, h2, hr⟩ := Run.bind_eq_ok.mp hr
      obtain ⟨s₁, h3, hr⟩ := Run.bind_eq_ok.mp hr
      obtain ⟨s₂, h4, hr⟩ := Run.bind_eq_ok.mp hr
      exact Run.bind_eq_ok.mpr ⟨lengthBytes, h1, Run.bind_eq_ok.mpr ⟨offset, h2,
        Run.bind_eq_ok.mpr ⟨_, sortedInsert_over _ _ h3, Run.bind_eq_ok.mpr
          ⟨_, sortedInsert_over _ _ h4, ih _ _ _ hr⟩⟩⟩⟩
    · rw [if_neg hu] at hr ⊢
      exact ih (i + 1) s s' hr

/-- So does `init_fs`, but for the sizes of the other images. -/
theorem initFs_over (hne : file ≠ [] ∧ hash ≠ []) (hr : initFs file' dir hash' = .ok s) :
    initFs file dir hash = .ok (s.over file hash (toI32 (hash.length / hashLen : ℕ))
      ((toI32 (hash.length / hashLen : ℕ)).tdiv 2)) := by
  obtain ⟨_, h1, hr⟩ := Run.bind_eq_ok.mp hr
  obtain ⟨oList, h2, hr⟩ := Run.bind_eq_ok.mp hr
  obtain ⟨nList, h3, hr⟩ := Run.bind_eq_ok.mp hr
  have hdir := (Run.assert_eq_ok.mp h1).2.1
  exact Run.bind_eq_ok.mpr ⟨(), Run.assert_of ⟨hne.1, hdir, hne.2⟩, Run.bind_eq_ok.mpr
    ⟨oList, h2, Run.bind_eq_ok.mpr ⟨nList, h3, initLoop_over _ 0 _ s hr⟩⟩⟩

/-- `init_fs` keeps the images and takes the size of the tree from `hash_data`. -/
theorem initFs_images (hr : initFs file dir hash = .ok s) :
    s.over file hash (toI32 (hash.length / hashLen : ℕ))
      ((toI32 (hash.length / hashLen : ℕ)).tdiv 2) = s := by
  obtain ⟨⟨hfile, -, hhash⟩, -⟩ := initFs_post hr
  exact Except.ok.inj ((initFs_over ⟨hfile, hhash⟩ hr).symm.trans hr)

end Over

end Vfs
