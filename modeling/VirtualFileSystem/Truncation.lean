import VirtualFileSystem.Admission

/-!
# Truncated names

Names are stored in 63 bytes and searched by their first 63 bytes, so a call cannot tell two names
that agree on these.  The one exception is `rename_file`: it compares its two arguments in full, and
takes a name that is the old one only up to byte 63 for the name of another file.
-/

namespace Vfs

open FlatImage

/-! ## Names that agree on their first 63 bytes -/

/-- `strncmp` over 63 bytes finds no difference. -/
def CString.Alike (a b : CString) : Prop := strncmp a.bytes b.bytes (nameLen - 1) = 0

instance (a b : CString) : Decidable (a.Alike b) := by unfold CString.Alike; infer_instance

/-- The calls differ in their names only, and these agree on their first 63 bytes. -/
inductive Call.Alike : Call → Call → Prop
  | create {a b : CString} (h : a.Alike b) (length : ℕ) :
      Alike (.create a length) (.create b length)
  | resize {a b : CString} (h : a.Alike b) (length : ℕ) :
      Alike (.resize a length) (.resize b length)
  | write {a b : CString} (h : a.Alike b) (offset count : ℕ) (buf : List UInt8) :
      Alike (.write a offset count buf) (.write b offset count buf)
  | delete {a b : CString} (h : a.Alike b) : Alike (.delete a) (.delete b)
  | rename {old old' new new' : CString} (h : old.Alike old') (hnew : new.Alike new') :
      Alike (.rename old new) (.rename old' new')
  | repack : Alike .repack .repack
  | read {a b : CString} (h : a.Alike b) (offset count : ℕ) :
      Alike (.read a offset count) (.read b offset count)
  | size {a b : CString} (h : a.Alike b) : Alike (.size a) (.size b)

section Alike

variable {a b old old' new new' : CString} {c c' : Call} {s : Filesys}

theorem CString.alike_iff : a.Alike b ↔ a.toFileName = b.toFileName := by
  unfold CString.Alike
  rw [strncmp_eq_zero _ _ _ a.nul_free b.nul_free]
  exact ⟨fun h => FileName.ext h, fun h => congrArg FileName.bytes h⟩

theorem CString.Alike.toFileName (h : a.Alike b) : a.toFileName = b.toFileName :=
  CString.alike_iff.mp h

theorem CString.Alike.symm (h : a.Alike b) : b.Alike a :=
  CString.alike_iff.mpr h.toFileName.symm

/-- Such names are looked up alike, -/
theorem CString.Alike.lookup (h : a.Alike b) (s : Filesys) : lookup a s = lookup b s := by
  unfold Vfs.lookup nameKey
  rw [h.toFileName]

/-- and stored alike. -/
theorem CString.Alike.updateFileName (h : a.Alike b) (p : Ptr) (s : Filesys) :
    updateFileName a p s = updateFileName b p s := by
  unfold Vfs.updateFileName
  rw [h.toFileName]

theorem CString.Alike.createFileAt (h : a.Alike b) (length : ℕ) (s : Filesys) :
    createFileAt a length s = createFileAt b length s := by
  unfold Vfs.createFileAt
  rw [h.toFileName]

/-! ## The comparison in full -/

/-- The two calls rename a file to itself alike: where the file exists, the first is given one name
twice exactly when the second is. -/
def ComparedAlike : Call → Call → Filesys → Prop
  | .rename old new, .rename old' new', s =>
    old.bytes ≠ [] → (∃ p ∈ s.live, (s.heap p).name = old.toFileName) → (old = new ↔ old' = new')
  | _, _, _ => True

theorem renameFile_self {p : Ptr} (hp : lookup a s = .ok (some p)) :
    renameFile a a s = .ok (0, s) := by
  unfold renameFile
  rw [hp, Run.ok_bind]
  dsimp only
  rw [if_pos rfl]
  rfl

/-- A name that is the old one up to byte 63 is taken for that of another file. -/
theorem renameFile_alike {p : Ptr} (h : old.Alike new) (hne : old ≠ new)
    (hp : lookup old s = .ok (some p)) : renameFile old new s = .ok (1, s) := by
  unfold renameFile
  rw [hp, Run.ok_bind]
  dsimp only
  rw [if_neg hne, ← h.lookup, hp]
  rfl

theorem renameFile_none (hp : lookup old s = .ok none) : renameFile old new s = .ok (1, s) := by
  unfold renameFile
  rw [hp]
  rfl

/-- Renaming depends on the first 63 bytes of the names, and on whether they are equal. -/
theorem renameFile_congr (h : old.Alike old') (hnew : new.Alike new')
    (heq : old = new ↔ old' = new') : renameFile old new s = renameFile old' new' s := by
  unfold renameFile
  rw [h.lookup, hnew.lookup]
  simp only [heq, hnew.updateFileName]

/-- Renaming a file to itself under one name or two: the answers differ. -/
theorem renameFile_told {p : Ptr} (h : old.Alike old') (hnew : new.Alike new')
    (hp : lookup old s = .ok (some p)) (hsame : old = new) (hne : old' ≠ new') :
    renameFile old new s = .ok (0, s) ∧ renameFile old' new' s = .ok (1, s) := by
  subst hsame
  have hp' : lookup old' s = .ok (some p) := by rw [← h.lookup, hp]
  refine ⟨renameFile_self hp, renameFile_alike ?_ hne hp'⟩
  rw [CString.alike_iff, ← h.toFileName, ← hnew.toFileName]

theorem renameFile_alike_iff (hs : LiveOk s) (hn : NameSorted s.heap s.nList.list)
    (h : old.Alike old') (hnew : new.Alike new') :
    renameFile old new s = renameFile old' new' s ↔
      (old.bytes ≠ [] → (∃ p ∈ s.live, (s.heap p).name = old.toFileName) →
        (old = new ↔ old' = new')) := by
  have hi := hs.nameIndex hn
  by_cases hne : old.bytes = []
  · have hnone : lookup old s = .ok none := by
      unfold lookup arrGetByKey
      rw [if_pos]
      · rfl
      · rw [validKey_name hs.names.type_eq]
        simp [CString.toFileName, hne]
    rw [renameFile_none hnone, renameFile_none (by rw [← h.lookup, hnone])]
    exact iff_of_true rfl fun h => absurd hne h
  by_cases hex : ∃ p ∈ s.live, (s.heap p).name = old.toFileName
  · obtain ⟨p, hp, hpn⟩ := hex
    have hl : lookup old s = .ok (some p) := (hi.lookup_eq_some hne).mpr ⟨hp, hpn⟩
    have hl' : lookup old' s = .ok (some p) := by rw [← h.lookup, hl]
    constructor
    · intro heq _ _
      constructor
      · intro hsame
        by_contra hdiff
        obtain ⟨h0, h1⟩ := renameFile_told h hnew hl hsame hdiff
        rw [h0, h1] at heq
        cases heq
      · intro hsame
        by_contra hdiff
        obtain ⟨h0, h1⟩ := renameFile_told h.symm hnew.symm hl' hsame hdiff
        rw [h0, h1] at heq
        cases heq
    · intro hcond
      exact renameFile_congr h hnew (hcond hne ⟨p, hp, hpn⟩)
  · have hnone : lookup old s = .ok none :=
      (hi.lookup_eq_none hne).mpr fun p hp hpn => hex ⟨p, hp, hpn⟩
    rw [renameFile_none hnone, renameFile_none (by rw [← h.lookup, hnone])]
    exact iff_of_true rfl fun _ h => absurd h hex

/-- A call that returns a code only answers as its function does. -/
theorem code_injective {m m' : Run (ℤ × Filesys)}
    (h : (do let (r, t) ← m; pure ((r, []), t) : Run (Answer × Filesys)) =
      (do let (r, t) ← m'; pure ((r, []), t) : Run (Answer × Filesys))) : m = m' := by
  cases m with
  | error e =>
    cases m' with
    | error e' => cases h; rfl
    | ok x' => cases h
  | ok x =>
    cases m' with
    | error e' => cases h
    | ok x' =>
      obtain ⟨h1, h2⟩ := Prod.mk.inj (Except.ok.inj h)
      exact congrArg _ (Prod.ext (Prod.mk.inj h1).1 h2)

/-- Calls that differ in the bytes behind the 63rd of their names behave alike, the comparison of
`rename_file` apart. -/
theorem exec_alike_iff (hs : LiveOk s) (hn : NameSorted s.heap s.nList.list) (hc : c.Alike c') :
    exec c s = exec c' s ↔ ComparedAlike c c' s := by
  cases hc with
  | create h length =>
    refine iff_of_true ?_ trivial
    simp only [exec, createFile, h.lookup, h.createFileAt]
  | resize h length =>
    refine iff_of_true ?_ trivial
    simp only [exec, resizeFile, h.lookup]
  | write h offset count buf =>
    refine iff_of_true ?_ trivial
    simp only [exec, writeFile, h.lookup]
  | delete h =>
    refine iff_of_true ?_ trivial
    simp only [exec, deleteFile, h.lookup]
  | rename h hnew =>
    rw [ComparedAlike, ← renameFile_alike_iff hs hn h hnew]
    refine ⟨fun heq => code_injective heq, fun heq => ?_⟩
    simp only [exec, heq]
  | repack => exact iff_of_true rfl trivial
  | read h offset count =>
    refine iff_of_true ?_ trivial
    simp only [exec, readFile, h.lookup]
  | size h =>
    refine iff_of_true ?_ trivial
    simp only [exec, fileSize, h.lookup]

end Alike

/-- A directory with one file of one byte, whose name fills the 63 bytes of its field. -/
def longDir : List UInt8 := List.replicate 63 97 ++ zeros 5 ++ [1, 0, 0, 0]

set_option maxRecDepth 20000 in
theorem longDir_wellFormed {s : Filesys}
    (hinit : initFs (zeros 256) longDir (zeros 16) = .ok s) : WellFormed s := by
  refine initFs_wellFormed ?_ ?_ ?_ hinit
  · unfold DistinctNames
    decide +kernel
  · unfold ExtentsInside
    decide +kernel
  · decide +kernel

/-- A name of 64 bytes, of which the file in `longDir` has the first 63. -/
def longName (b : UInt8) (h : 0 ∉ List.replicate 63 97 ++ [b]) : CString :=
  ⟨List.replicate 63 97 ++ [b], h⟩

set_option maxRecDepth 20000 in
/-- The file is resized alike under two names of 64 bytes, equal but for the last one. -/
theorem exec_alike_resize : ∃ s s', initFs (zeros 256) longDir (zeros 16) = .ok s ∧
    exec (.resize (longName 97 (by decide)) 5) s = .ok ((0, []), s') ∧
    exec (.resize (longName 98 (by decide)) 5) s = .ok ((0, []), s') ∧
    Run.Holds (fileSize (longName 99 (by decide)) s') (· = 5) := by
  obtain ⟨s, hinit, hrun⟩ := Run.holds_iff.mp
    (show Run.Holds (initFs (zeros 256) longDir (zeros 16)) (fun s =>
      Run.Holds (exec (.resize (longName 97 (by decide)) 5) s) fun r => r.1 = (0, []) ∧
        Run.Holds (fileSize (longName 99 (by decide)) r.2) (· = 5)) by decide +kernel)
  obtain ⟨⟨a, s'⟩, hr, rfl, hsize⟩ := Run.holds_iff.mp hrun
  have hw := longDir_wellFormed hinit
  have halike : exec (.resize (longName 97 (by decide)) 5) s =
      exec (.resize (longName 98 (by decide)) 5) s :=
    (exec_alike_iff hw.mirror.liveOk hw.names (.resize (by decide) 5)).mpr trivial
  exact ⟨s, s', hinit, hr, halike ▸ hr, hsize⟩

set_option maxRecDepth 20000 in
/-- Renaming that file from a name of 64 bytes to the same name returns 0, to one with another last
byte it returns 1. -/
theorem exec_alike_fails : ¬ ∀ (s : Filesys) (c c' : Call), WellFormed s → c.Named → c'.Named →
    c.Alike c' → exec c s = exec c' s := by
  intro h
  obtain ⟨s, hinit, h0, h1⟩ := Run.holds_iff.mp
    (show Run.Holds (initFs (zeros 256) longDir (zeros 16)) (fun s =>
      Run.Holds (exec (.rename (longName 97 (by decide)) (longName 97 (by decide))) s)
        (fun r => r.1 = (0, [])) ∧
      Run.Holds (exec (.rename (longName 97 (by decide)) (longName 98 (by decide))) s)
        (fun r => r.1 = (1, []))) by decide +kernel)
  obtain ⟨r, hr, hr0⟩ := Run.holds_iff.mp h0
  obtain ⟨r', hr', hr1⟩ := Run.holds_iff.mp h1
  have heq := h s (.rename (longName 97 (by decide)) (longName 97 (by decide)))
    (.rename (longName 97 (by decide)) (longName 98 (by decide))) (longDir_wellFormed hinit)
    (by decide) (by decide) (.rename (by decide) (by decide))
  rw [hr, hr'] at heq
  obtain rfl := Except.ok.inj heq
  rw [hr0] at hr1
  exact absurd hr1 (by decide)

end Vfs
