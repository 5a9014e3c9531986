import Mathlib.Data.List.AList
import VirtualFileSystem.Lib.ByteImage

/-!
# Byte strings under names

A finite map from names to byte strings, which together fit a capacity, with a bound on their
number: what a store of files is for its callers.  A call that would leave more bytes or more names
than fit is refused and changes nothing.
-/

namespace ByteStore

open FlatImage

variable {κ : Type}

/-- The number of bytes under all names. -/
def total (l : List (Σ _ : κ, List UInt8)) : ℕ := (l.map fun e => e.2.length).sum

/-- The byte strings, with the bounds they keep. -/
structure Store (κ : Type) where
  files : AList fun _ : κ => List UInt8
  capacity : ℕ
  maxFiles : ℕ
  fits : total files.entries ≤ capacity
  room : files.entries.length ≤ maxFiles

/-! ## Totals -/

section Total

variable {l l' : List (Σ _ : κ, List UInt8)} {name new : κ} {bytes : List UInt8}
  {files : AList fun _ : κ => List UInt8}

@[simp] theorem total_nil : total ([] : List (Σ _ : κ, List UInt8)) = 0 := rfl

@[simp] theorem total_cons (e : Σ _ : κ, List UInt8) (l : List (Σ _ : κ, List UInt8)) :
    total (e :: l) = e.2.length + total l := List.sum_cons

theorem total_perm (h : l.Perm l') : total l = total l' := (h.map _).sum_eq

variable [DecidableEq κ]

theorem entries_insert (name : κ) (bytes : List UInt8) (files : AList fun _ : κ => List UInt8) :
    (files.insert name bytes).entries = ⟨name, bytes⟩ :: (files.erase name).entries := rfl

/-- Taking out what stands under a name. -/
theorem erase_perm {r : List (Σ _ : κ, List UInt8)} (h : files.entries.Perm (⟨name, bytes⟩ :: r)) :
    (files.erase name).entries.Perm r := by
  have hrest : List.kerase name (⟨name, bytes⟩ :: r) = r :=
    @List.kerase_cons_eq κ (fun _ => List UInt8) _ name ⟨name, bytes⟩ r rfl
  have := List.Perm.kerase (a := name) files.nodupKeys h
  rwa [hrest] at this

theorem perm_of_lookup (h : files.lookup name = some bytes) :
    files.entries.Perm (⟨name, bytes⟩ :: (files.erase name).entries) := by
  obtain ⟨r, hr⟩ : ∃ r, files.entries.Perm (⟨name, bytes⟩ :: r) :=
    ⟨_, List.perm_cons_erase (AList.mem_lookup_iff.mp h)⟩
  exact hr.trans ((erase_perm hr).symm.cons _)

theorem erase_of_lookup_none (h : files.lookup name = none) :
    (files.erase name).entries = files.entries :=
  List.kerase_of_notMem_keys fun hk => AList.lookup_eq_none.mp h (AList.mem_keys.mpr hk)

theorem lookup_of_perm {r : List (Σ _ : κ, List UInt8)}
    (h : files.entries.Perm (⟨name, bytes⟩ :: r)) : files.lookup name = some bytes :=
  AList.mem_lookup_iff.mpr (h.mem_iff.mpr List.mem_cons_self)

theorem erase_bounds (name : κ) (files : AList fun _ : κ => List UInt8) :
    total (files.erase name).entries ≤ total files.entries ∧
      (files.erase name).entries.length ≤ files.entries.length := by
  cases h : files.lookup name with
  | none => rw [erase_of_lookup_none h]; exact ⟨le_rfl, le_rfl⟩
  | some bytes =>
    have hp := perm_of_lookup h
    rw [total_perm hp, hp.length_eq]
    simp

/-- Moving what stands under a name to another leaves totals as they are. -/
theorem move_bounds (h : files.lookup name = some bytes) (hnew : files.lookup new = none) :
    total ((files.erase name).insert new bytes).entries = total files.entries ∧
      ((files.erase name).insert new bytes).entries.length = files.entries.length := by
  have hp := perm_of_lookup h
  have hfree : (files.erase name).lookup new = none := by
    by_cases he : new = name
    · rw [he]
      exact AList.lookup_erase name files
    · rw [AList.lookup_erase_ne he]
      exact hnew
  rw [entries_insert, erase_of_lookup_none hfree, total_perm hp, hp.length_eq]
  exact ⟨rfl, rfl⟩

end Total

/-! ## Calls -/

namespace Store

/-- No names yet. -/
def empty (κ : Type) (capacity maxFiles : ℕ) : Store κ :=
  ⟨∅, capacity, maxFiles, Nat.zero_le _, Nat.zero_le _⟩

variable [DecidableEq κ]

/-- The byte strings do not exceed the bounds of the store. -/
def Fits (files : AList fun _ : κ => List UInt8) (m : Store κ) : Prop :=
  total files.entries ≤ m.capacity ∧ files.entries.length ≤ m.maxFiles

instance (files : AList fun _ : κ => List UInt8) (m : Store κ) : Decidable (Fits files m) := by
  unfold Fits; infer_instance

/-- The store with other byte strings, if they fit, and else the code for a refusal. -/
def replaceBy (files : AList fun _ : κ => List UInt8) (refusal : ℤ) (m : Store κ) : ℤ × Store κ :=
  if h : Fits files m then (0, { m with files := files, fits := h.1, room := h.2 })
  else (refusal, m)

/-- A new name for null bytes. -/
def create (name : κ) (length : ℕ) (m : Store κ) : ℤ × Store κ :=
  match m.files.lookup name with
  | some _ => (1, m)
  | none => m.replaceBy (m.files.insert name (List.replicate length 0)) 2

/-- The bytes cut, or followed by null bytes. -/
def resize (name : κ) (length : ℕ) (m : Store κ) : ℤ × Store κ :=
  match m.files.lookup name with
  | none => (1, m)
  | some bytes => m.replaceBy (m.files.insert name
      (bytes.take length ++ List.replicate (length - bytes.length) 0)) 2

/-- The bytes from `offset` on replaced, and more behind the end. -/
def write (name : κ) (offset : ℕ) (data : List UInt8) (m : Store κ) : ℤ × Store κ :=
  match m.files.lookup name with
  | none => (1, m)
  | some bytes =>
    if offset > bytes.length then (2, m)
    else m.replaceBy (m.files.insert name (splice bytes offset data)) 3

def delete (name : κ) (m : Store κ) : ℤ × Store κ :=
  match m.files.lookup name with
  | none => (1, m)
  | some _ => (0, { m with
      files := m.files.erase name
      fits := (erase_bounds name m.files).1.trans m.fits
      room := (erase_bounds name m.files).2.trans m.room })

/-- The bytes under another name; they always fit. -/
def rename (old new : κ) (m : Store κ) : ℤ × Store κ :=
  match m.files.lookup old with
  | none => (1, m)
  | some bytes =>
    if old = new then (0, m)
    else match m.files.lookup new with
      | some _ => (1, m)
      | none => m.replaceBy ((m.files.erase old).insert new bytes) 1

def read (name : κ) (offset count : ℕ) (m : Store κ) : ℤ × List UInt8 :=
  match m.files.lookup name with
  | none => (1, [])
  | some bytes => if offset + count > bytes.length then (2, []) else (0, slice bytes offset count)

def size (name : κ) (m : Store κ) : ℤ :=
  match m.files.lookup name with
  | none => -1
  | some bytes => bytes.length

/-! ## Room -/

section Room

variable {m : Store κ} {name new : κ} {bytes : List UInt8}
  {files : AList fun _ : κ => List UInt8} {refusal : ℤ}

omit [DecidableEq κ] in
theorem replaceBy_code (h : Fits files m) : (m.replaceBy files refusal).1 = 0 := by
  unfold replaceBy
  rw [dif_pos h]

omit [DecidableEq κ] in
theorem replaceBy_files (h : Fits files m) : (m.replaceBy files refusal).2.files = files := by
  unfold replaceBy
  rw [dif_pos h]

omit [DecidableEq κ] in
theorem replaceBy_refused (h : ¬ Fits files m) : m.replaceBy files refusal = (refusal, m) :=
  dif_neg h

theorem length_le_total (h : m.files.lookup name = some bytes) :
    bytes.length ≤ total m.files.entries := by
  rw [total_perm (perm_of_lookup h), total_cons]
  exact Nat.le_add_right _ _

theorem fits_insert_some (h : m.files.lookup name = some bytes) (data : List UInt8) :
    Fits (m.files.insert name data) m ↔
      total m.files.entries + data.length ≤ m.capacity + bytes.length := by
  have hp := perm_of_lookup h
  have h1 := total_perm hp
  have h2 := hp.length_eq
  have hroom := m.room
  unfold Fits
  rw [entries_insert]
  simp only [total_cons, List.length_cons] at h1 h2 ⊢
  omega

theorem fits_insert_none (h : m.files.lookup name = none) (data : List UInt8) :
    Fits (m.files.insert name data) m ↔
      total m.files.entries + data.length ≤ m.capacity ∧
        m.files.entries.length < m.maxFiles := by
  unfold Fits
  rw [entries_insert, erase_of_lookup_none h]
  simp only [total_cons, List.length_cons]
  omega

theorem fits_move (h : m.files.lookup name = some bytes) (hnew : m.files.lookup new = none) :
    Fits ((m.files.erase name).insert new bytes) m := by
  obtain ⟨h1, h2⟩ := move_bounds h hnew
  exact ⟨h1.trans_le m.fits, h2.trans_le m.room⟩

end Room

end Store

end ByteStore
