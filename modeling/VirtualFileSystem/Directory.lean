import VirtualFileSystem.Calls

/-!
# Directory entries

An entry of `dir_table` decodes to a name, an offset and a length.  `DirInv` says that the entries
of some files decode to them and that every other entry starts with a NUL.  A write within one
entry keeps `DirInv` when that entry decodes to the updated file.

The name is what precedes the first NUL of the first `w` bytes, for a width `w` of 63, as `init_fs`
reads it, or 64, the whole field.
-/

namespace Vfs

open FlatImage

/-! ## Decoding -/

/-- Entry `i` of a directory. -/
def entry (d : List UInt8) (i : ℕ) : List UInt8 := cell metaLen d i

/-- The name in an entry: the bytes before the first NUL of the first `w`. -/
def entryName (w : ℕ) (e : List UInt8) : List UInt8 := (e.take w).takeWhile (· ≠ 0)

def entryOffset (e : List UInt8) : ℕ := leVal (slice e nameLen 4)

def entryLength (e : List UInt8) : ℕ := leVal (slice e (nameLen + offsetLen) 4)

/-- The entry decodes to the file, whose offset counts when it lies in `file_data`. -/
structure EntryOk (w : ℕ) (e : List UInt8) (f : FileT) : Prop where
  name : entryName w e = f.name.bytes
  offset : f.offset < maxFileDataLen → entryOffset e = f.offset
  length : entryLength e = f.length

section Decode

variable {w : ℕ} {e : List UInt8} {o : ℕ} {bs : List UInt8}

theorem take_eq_slice (l : List UInt8) (n : ℕ) : l.take n = slice l 0 n := by simp [slice]

theorem entryName_splice_of_le (ho : w ≤ o) (hb : o + bs.length ≤ e.length) :
    entryName w (splice e o bs) = entryName w e := by
  unfold entryName
  rw [take_eq_slice, take_eq_slice, slice_splice_of_disjoint hb (Or.inl (by omega))]

theorem entryOffset_splice_of_disjoint (ho : o + bs.length ≤ nameLen ∨ nameLen + offsetLen ≤ o)
    (hb : o + bs.length ≤ e.length) : entryOffset (splice e o bs) = entryOffset e := by
  unfold entryOffset
  rw [slice_splice_of_disjoint hb (by unfold offsetLen at ho; omega)]

theorem entryLength_splice_of_le (ho : o + bs.length ≤ nameLen + offsetLen)
    (hb : o + bs.length ≤ e.length) : entryLength (splice e o bs) = entryLength e := by
  unfold entryLength
  rw [slice_splice_of_disjoint hb (Or.inr ho)]

/-- A name written with its terminator is read back. -/
theorem entryName_splice_name (hw : nameLen - 1 ≤ w) (name : FileName) :
    entryName w (splice e 0 (name.bytes ++ [0])) = name.bytes := by
  have hlt := name.length_lt
  have hpos : ∀ b ∈ name.bytes, decide (b ≠ 0) = true := by
    intro b hb
    simp only [ne_eq, decide_eq_true_eq]
    rintro rfl
    exact name.nul_free hb
  unfold entryName splice
  rw [List.take_zero, List.nil_append, List.append_assoc, List.take_append,
    List.take_of_length_le (by omega), List.takeWhile_append_of_pos hpos]
  cases hk : w - name.bytes.length with
  | zero => simp
  | succ k => simp

theorem entryOffset_splice_self {n : ℕ} (hn : n < maxFileDataLen)
    (hb : nameLen + 4 ≤ e.length) : entryOffset (splice e nameLen (dirOffsetBytes n)) = n := by
  unfold entryOffset dirOffsetBytes
  rw [if_neg (by omega)]
  have := @slice_splice_self _ e nameLen (le32 n) hb
  rw [length_le32] at this
  rw [this, leVal_le32 hn]

theorem entryLength_splice_self {n : ℕ} (hn : n < 2 ^ 32)
    (hb : nameLen + offsetLen + 4 ≤ e.length) :
    entryLength (splice e (nameLen + offsetLen) (le32 n)) = n := by
  unfold entryLength
  have := @slice_splice_self _ e (nameLen + offsetLen) (le32 n) hb
  rw [length_le32] at this
  rw [this, leVal_le32 hn]

variable {f : FileT}

theorem EntryOk.setOffset (hw : w ≤ nameLen) (he : e.length = metaLen) (h : EntryOk w e f)
    (n : ℕ) : EntryOk w (splice e nameLen (dirOffsetBytes n)) { f with offset := n } where
  name := by
    rw [entryName_splice_of_le hw (by simp [he, nameLen, metaLen])]
    exact h.name
  offset := fun hn => entryOffset_splice_self hn (by simp [he, nameLen, metaLen])
  length := by
    rw [entryLength_splice_of_le (by simp [offsetLen]) (by simp [he, nameLen, metaLen])]
    exact h.length

theorem EntryOk.setLength (hw : w ≤ nameLen) (he : e.length = metaLen) (h : EntryOk w e f)
    {n : ℕ} (hn : n < 2 ^ 32) :
    EntryOk w (splice e (nameLen + offsetLen) (le32 n)) { f with length := n } where
  name := by
    rw [entryName_splice_of_le (by omega) (by simp [he, nameLen, offsetLen, metaLen])]
    exact h.name
  offset := fun ho => by
    rw [entryOffset_splice_of_disjoint (Or.inr le_rfl) (by simp [he, nameLen, offsetLen, metaLen])]
    exact h.offset ho
  length := entryLength_splice_self hn (by simp [he, nameLen, offsetLen, metaLen])

theorem EntryOk.setName (hw : nameLen - 1 ≤ w) (he : e.length = metaLen) (h : EntryOk w e f)
    (name : FileName) : EntryOk w (splice e 0 (name.bytes ++ [0])) { f with name := name } := by
  have hlt := name.length_lt
  have hb : 0 + (name.bytes ++ [0]).length ≤ e.length := by
    simp only [List.length_append, List.length_singleton, he]
    unfold nameLen metaLen at *
    omega
  refine ⟨entryName_splice_name hw name, fun ho => ?_, ?_⟩
  · rw [entryOffset_splice_of_disjoint (Or.inl (by simp; omega)) hb]
    exact h.offset ho
  · rw [entryLength_splice_of_le (by simp; omega) hb]
    exact h.length

/-- A file written to an entry is read back, whatever the entry held. -/
theorem entryOk_write (hw : nameLen - 1 ≤ w ∧ w ≤ nameLen) (he : e.length = metaLen)
    (hf : f.length < 2 ^ 32) :
    EntryOk w (splice (splice (splice e 0 (f.name.bytes ++ [0])) nameLen (dirOffsetBytes f.offset))
      (nameLen + offsetLen) (le32 f.length)) f := by
  have hlt := f.name.length_lt
  have hl1 : (splice e 0 (f.name.bytes ++ [0])).length = metaLen := by
    rw [length_splice _, he]
    simp only [List.length_append, List.length_singleton, he]
    unfold nameLen metaLen at *
    omega
  have hl2 : (splice (splice e 0 (f.name.bytes ++ [0])) nameLen
      (dirOffsetBytes f.offset)).length = metaLen := by
    rw [length_splice _, hl1]
    simp [hl1, nameLen, metaLen]
  refine ⟨?_, fun ho => ?_, ?_⟩
  · rw [entryName_splice_of_le (by omega) (by rw [hl2]; simp [nameLen, offsetLen, metaLen]),
      entryName_splice_of_le hw.2 (by rw [hl1]; simp [nameLen, metaLen]),
      entryName_splice_name hw.1]
  · rw [entryOffset_splice_of_disjoint (Or.inr le_rfl)
      (by rw [hl2]; simp [nameLen, offsetLen, metaLen]),
      entryOffset_splice_self ho (by rw [hl1]; simp [nameLen, metaLen])]
  · exact entryLength_splice_self hf (by rw [hl2]; simp [nameLen, offsetLen, metaLen])

end Decode

/-! ## The directory as a whole -/

/-- The entries of the files `L` decode to them; every other entry starts with a NUL. -/
structure DirInv (w : ℕ) (L : List Ptr) (h : Heap) (d : List UInt8) (n : ℕ) : Prop where
  size : metaLen * n ≤ d.length
  bound : ∀ p ∈ L, (h p).index < n
  inj : ∀ p ∈ L, ∀ q ∈ L, (h p).index = (h q).index → p = q
  entry : ∀ p ∈ L, EntryOk w (entry d (h p).index) (h p)
  free : ∀ i < n, (∀ p ∈ L, (h p).index ≠ i) → (Vfs.entry d i)[0]? = some 0

section DirInv

variable {w : ℕ} {L : List Ptr} {h h' : Heap} {d : List UInt8} {n : ℕ}

theorem entry_length {i : ℕ} (hs : metaLen * n ≤ d.length) (hi : i < n) :
    (entry d i).length = metaLen := by
  refine length_cell ?_
  have : metaLen * (i + 1) ≤ metaLen * n := Nat.mul_le_mul_left _ hi
  rw [Nat.mul_add, Nat.mul_one] at this
  omega

theorem metaLen_mul_le {i : ℕ} (hs : metaLen * n ≤ d.length) (hi : i < n) :
    metaLen * i + metaLen ≤ d.length := by
  have : metaLen * (i + 1) ≤ metaLen * n := Nat.mul_le_mul_left _ hi
  rw [Nat.mul_add, Nat.mul_one] at this
  omega

/-- `DirInv` depends on the fields an entry stores and on the index only. -/
theorem DirInv.congr (hd : DirInv w L h d n)
    (hh : ∀ p ∈ L, (h' p).name = (h p).name ∧ (h' p).offset = (h p).offset ∧
      (h' p).length = (h p).length ∧ (h' p).index = (h p).index) : DirInv w L h' d n where
  size := hd.size
  bound := fun p hp => by rw [(hh p hp).2.2.2]; exact hd.bound p hp
  inj := fun p hp q hq he => by
    rw [(hh p hp).2.2.2, (hh q hq).2.2.2] at he
    exact hd.inj p hp q hq he
  entry := fun p hp => by
    obtain ⟨h1, h2, h3, h4⟩ := hh p hp
    have := hd.entry p hp
    rw [h4]
    exact ⟨by rw [h1]; exact this.name, fun ho => by rw [h2]; exact this.offset (h2 ▸ ho),
      by rw [h3]; exact this.length⟩
  free := fun i hi hf => hd.free i hi fun p hp => by
    rw [← (hh p hp).2.2.2]
    exact hf p hp

/-- A write within the entry of one file of `L`, whose record changes with it. -/
theorem DirInv.update (hd : DirInv w L h d n) {p : Ptr} (hp : p ∈ L) {f : FileT} {o : ℕ}
    {bs : List UInt8} (hi : f.index = (h p).index) (ho : o + bs.length ≤ metaLen)
    (he : EntryOk w (splice (Vfs.entry d (h p).index) o bs) f) :
    DirInv w L (h.set p f) (splice d (metaLen * (h p).index + o) bs) n := by
  have hin := metaLen_mul_le hd.size (hd.bound p hp)
  have hidx : ∀ q, (h.set p f q).index = (h q).index := by
    intro q
    by_cases hq : q = p
    · subst hq; rw [Heap.set_self, hi]
    · rw [Heap.set_of_ne _ _ hq]
  refine ⟨?_, fun q hq => ?_, fun q hq r hr heq => ?_, fun q hq => ?_, fun i hi' hf => ?_⟩
  · rw [length_splice (by omega)]
    exact hd.size
  · rw [hidx]
    exact hd.bound q hq
  · rw [hidx, hidx] at heq
    exact hd.inj q hq r hr heq
  · rw [hidx]
    by_cases hqp : q = p
    · subst hqp
      unfold Vfs.entry
      rw [Heap.set_self, cell_splice_self ho hin]
      exact he
    · rw [Heap.set_of_ne _ _ hqp]
      unfold Vfs.entry
      rw [cell_splice_of_ne ho hin (fun heq => hqp (hd.inj q hq p hp heq))]
      exact hd.entry q hq
  · have hne : i ≠ (h p).index := fun heq => hf p hp (by rw [hidx, heq])
    unfold Vfs.entry
    rw [cell_splice_of_ne ho hin hne]
    exact hd.free i hi' fun q hq => by rw [← hidx]; exact hf q hq

/-- A file written to a free entry joins the files of the directory. -/
theorem DirInv.cons (hd : DirInv w L h d n) {p : Ptr} {f : FileT} {d' : List UInt8}
    (hp : p ∉ L) (hi : f.index < n) (hfree : ∀ q ∈ L, (h q).index ≠ f.index)
    (hlen : d'.length = d.length) (hne : ∀ j, j ≠ f.index → Vfs.entry d' j = Vfs.entry d j)
    (he : EntryOk w (Vfs.entry d' f.index) f) (hpf : h' p = f)
    (hh : ∀ q ∈ L, (h' q).name = (h q).name ∧ (h' q).offset = (h q).offset ∧
      (h' q).length = (h q).length ∧ (h' q).index = (h q).index) :
    DirInv w (p :: L) h' d' n := by
  have hd' := hd.congr hh
  refine ⟨by rw [hlen]; exact hd.size, ?_, ?_, ?_, ?_⟩
  · intro q hq
    rcases List.mem_cons.mp hq with rfl | hq
    · rw [hpf]; exact hi
    · exact hd'.bound q hq
  · intro q hq r hr heq
    rcases List.mem_cons.mp hq with rfl | hqL <;> rcases List.mem_cons.mp hr with rfl | hrL
    · rfl
    · rw [hpf, (hh r hrL).2.2.2] at heq
      exact absurd heq.symm (hfree r hrL)
    · rw [hpf, (hh q hqL).2.2.2] at heq
      exact absurd heq (hfree q hqL)
    · exact hd'.inj q hqL r hrL heq
  · intro q hq
    rcases List.mem_cons.mp hq with rfl | hqL
    · rw [hpf]; exact he
    · rw [hne _ (by rw [(hh q hqL).2.2.2]; exact hfree q hqL)]
      exact hd'.entry q hqL
  · intro i hi' hf
    have hif : i ≠ f.index := fun heq => hf p List.mem_cons_self (by rw [hpf, heq])
    rw [hne i hif]
    exact hd'.free i hi' fun q hq => hf q (List.mem_cons_of_mem _ hq)

/-- A NUL written to the name of a file takes it out of the directory. -/
theorem DirInv.erase (hd : DirInv w L h d n) (hL : L.Nodup) {p : Ptr} (hp : p ∈ L) :
    DirInv w (L.erase p) h (splice d (metaLen * (h p).index) [0]) n := by
  have hin := metaLen_mul_le hd.size (hd.bound p hp)
  have hb : 0 + ([0] : List UInt8).length ≤ metaLen := by simp [metaLen]
  have hmem : ∀ q, q ∈ L.erase p ↔ q ≠ p ∧ q ∈ L := fun q => hL.mem_erase_iff
  have hrw : splice d (metaLen * (h p).index) [0] = splice d (metaLen * (h p).index + 0) [0] := rfl
  rw [hrw]
  refine ⟨?_, fun q hq => ?_, fun q hq r hr heq => ?_, fun q hq => ?_, fun i hi hf => ?_⟩
  · rw [length_splice (by simp [metaLen] at *; omega)]
    exact hd.size
  · exact hd.bound q ((hmem q).mp hq).2
  · exact hd.inj q ((hmem q).mp hq).2 r ((hmem r).mp hr).2 heq
  · obtain ⟨hqp, hqL⟩ := (hmem q).mp hq
    unfold Vfs.entry
    rw [cell_splice_of_ne hb hin (fun heq => hqp (hd.inj q hqL p hp heq))]
    exact hd.entry q hqL
  · by_cases hip : i = (h p).index
    · subst hip
      unfold Vfs.entry
      rw [cell_splice_self hb hin, getElem?_splice (by
        have := entry_length hd.size (hd.bound p hp)
        unfold Vfs.entry at this
        rw [this]
        exact hb)]
      rfl
    · unfold Vfs.entry
      rw [cell_splice_of_ne hb hin hip]
      refine hd.free i hi fun q hq heq => ?_
      by_cases hqp : q = p
      · exact hip (by rw [← heq, hqp])
      · exact hf q ((hmem q).mpr ⟨hqp, hq⟩) heq

end DirInv

end Vfs
