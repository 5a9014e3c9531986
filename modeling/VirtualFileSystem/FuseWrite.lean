import VirtualFileSystem.Confidential
import VirtualFileSystem.Fuse

/-!
# What a FUSE write stores

`myfuse_write` compares `offset + length - f_size`, a `size_t`, with the free bytes.  For a write
that ends in front of the end of the file the difference wraps, and the number of bytes becomes the
number of free bytes.
-/

namespace Vfs

open FlatImage Extents Interleave

/-- The bytes of `file_data` no file takes. -/
def freeBytes (s : Filesys) : ℕ := (s.fileDataLen - s.used).toNat

/-- The bytes of a write that fit into a file of `size` bytes and the free bytes behind it. -/
def fitting (size offset length free : ℕ) : ℕ := min length (size - offset + free)

/-- The number of bytes `myfuse_write` decides on. -/
def clamped (size offset length free : ℕ) : ℕ :=
  if offset + length < size ∨ size + free < offset + length then free else length

/-- Where the clamp is right: the write reaches the end of the file, and either fits or starts
there; or it ends in front of it with as many bytes as there are free.  The number has to be an
`int`, and the new length a `uint32_t`. -/
def ClampFits (size offset length free : ℕ) : Prop :=
  (size ≤ offset + length ∧ (offset + length ≤ size + free ∨ offset = size) ∨
    offset + length < size ∧ length = free) ∧
  fitting size offset length free < 2 ^ 31 ∧ offset + fitting size offset length free < 2 ^ 32

instance (size offset length free : ℕ) : Decidable (ClampFits size offset length free) := by
  unfold ClampFits
  infer_instance

/-- With no other operation running the write returns the number of bytes that fit, has stored
these bytes of the buffer, and changed no other file. -/
def WritesReported (name : CString) (offset : ℕ) (buf : List UInt8) (p : Ptr) (s : Filesys) :
    Prop :=
  let n := fitting (s.heap p).length offset buf.length (freeBytes s)
  ∃ s', (myfuseWrite (some name.path) (some buf) buf.length offset).alone Access.exec s =
      .ok (⟨n, []⟩, s') ∧
    Stored p ((bytesOf s p).take offset ++ buf.take n ++ (bytesOf s p).drop (offset + n)) s s'

section Clamp

variable {size offset length free : ℕ}

theorem ClampFits.clamped_eq (h : ClampFits size offset length free) (hoff : offset ≤ size) :
    clamped size offset length free = fitting size offset length free := by
  obtain ⟨h, -, -⟩ := h
  unfold clamped fitting
  split_ifs with hc
  · omega
  · omega

theorem toI32_lt (x : ℤ) : toI32 x < 2 ^ 31 := by
  unfold toI32
  rw [Int.bmod_def]
  omega

theorem clampFits_of (hoff : offset ≤ size) (hfree : free ≤ 2 ^ 32)
    (hle : clamped size offset length free ≤ length)
    (hcode : toI32 (clamped size offset length free) = fitting size offset length free)
    (hlt : offset + fitting size offset length free < 2 ^ 32) :
    ClampFits size offset length free := by
  have h31 := toI32_lt (clamped size offset length free)
  refine ⟨?_, by omega, hlt⟩
  unfold clamped at hle hcode
  unfold fitting at hcode hlt
  split_ifs at hle hcode with hc
  · -- the number decided on is the one of free bytes
    have hkept : toI32 free = free ∨ free = 2 ^ 32 ∧ toI32 free = 0 := by
      unfold toI32 at hcode ⊢
      rw [Int.bmod_def] at hcode ⊢
      omega
    omega
  · omega

end Clamp

section Alone

variable {name : CString} {offset n : ℕ} {buf : List UInt8} {p : Ptr} {s s' : Filesys} {r : Reply}

theorem onFile_path (hne : name.bytes ≠ []) (k : CString → Handler) (b : List UInt8) :
    onFile (some name.path) b k = k name := by
  have hroot : ¬ isRoot name.path := by
    unfold isRoot CString.path
    simpa using hne
  unfold onFile
  dsimp only
  rw [if_neg hroot]
  rfl

theorem exec_size_of (hl : lookup name s = .ok (some p)) :
    Access.exec (.call (.size name)) s = .ok ((((s.heap p).length : ℤ), []), s) := by
  show (do let r ← fileSize name s; pure ((r, []), s) : Run (Answer × Filesys)) = _
  unfold fileSize
  rw [hl]
  rfl

theorem exec_code {m : Run (ℤ × Filesys)} {code : ℤ} (h : m = .ok (code, s')) :
    (do let (r, t) ← m; pure ((r, []), t) : Run (Answer × Filesys)) = .ok ((code, []), s') := by
  rw [h]
  rfl

theorem storeBytes_alone :
    (storeBytes name offset n buf).alone Access.exec s = .ok (r, s') ↔
      n ≤ buf.length ∧ r = ⟨toI32 n, []⟩ ∧
        ∃ code, writeFile name (toU64 offset) n (buf.take n) s = .ok (code, s') := by
  unfold storeBytes
  rw [alone_lift_eq_ok]
  simp only [alone_step_eq_ok]
  constructor
  · rintro ⟨temp, hread, a, t, hexec, hdone⟩
    obtain ⟨⟨-, hn⟩, rfl⟩ := memRead_eq_ok.mp hread
    obtain ⟨rfl, rfl⟩ := Prod.mk.inj (Except.ok.inj hdone)
    have hwrite := (code_post (m := writeFile name (toU64 offset) n _ s) hexec).1
    rw [show slice buf (0 : ℤ).toNat n = buf.take n by simp [slice]] at hwrite
    exact ⟨by omega, rfl, a.1, hwrite⟩
  · rintro ⟨hn, rfl, code, hwrite⟩
    refine ⟨buf.take n, memRead_eq_ok.mpr ⟨⟨le_rfl, by omega⟩, by simp [slice]⟩, (code, []), s',
      ?_, rfl⟩
    exact exec_code hwrite

end Alone

section Write

variable {k offset : ℕ} {name : CString} {buf : List UInt8} {p : Ptr} {s s' : Filesys}

/-- The sizes of a well-formed state. -/
theorem WellFormed.sizes (hw : WellFormed s) (hfdl : s.fileDataLen ≤ 2 ^ 32) (hp : p ∈ s.live) :
    (s.heap p).length < 2 ^ 32 ∧ ((s.heap p).length : ℤ) ≤ s.used ∧
      s.used + freeBytes s = s.fileDataLen := by
  have hle := hw.layout.used_le hw.mirror hfdl
  have hused := hw.mirror.length_le_used hp
  unfold freeBytes
  exact ⟨hw.mirror.counted.length_lt p hp, hused, by omega⟩

theorem myfuseWrite_alone (hw : WellFormed s) (hfdl : s.fileDataLen ≤ 2 ^ 32)
    (hl : lookup name s = .ok (some p)) (hoff : offset ≤ (s.heap p).length)
    (hlen : buf.length < 2 ^ 64) :
    (myfuseWrite (some name.path) (some buf) buf.length offset).alone Access.exec s =
      (storeBytes name offset (clamped (s.heap p).length offset buf.length (freeBytes s))
        buf).alone Access.exec s := by
  obtain ⟨h1, h2, h3⟩ := hw.sizes hfdl (hw.mirror.liveOk.lookup hl).1
  have hspace : toU64 (s.fileDataLen - s.used) = freeBytes s := by
    rw [toU64_of_nonneg (by omega) (by omega)]
    rfl
  have hexec : Access.exec .space s = .ok (((freeBytes s : ℤ), []), s) := by
    show Except.ok ((((toU64 (s.fileDataLen - s.used) : ℕ) : ℤ), ([] : List UInt8)), s) = _
    rw [hspace]
  have hcond : ((toU64 ((offset : ℤ) + buf.length - (s.heap p).length) : ℕ) : ℤ) > freeBytes s ↔
      offset + buf.length < (s.heap p).length ∨
        (s.heap p).length + freeBytes s < offset + buf.length := by
    unfold toU64
    omega
  unfold myfuseWrite
  dsimp only
  rw [onFile_path (ne_nil_of_lookup hw.mirror.liveOk.names.type_eq hl),
    alone_step (exec_size_of hl)]
  dsimp only
  rw [if_neg (by omega), if_neg (by omega), alone_step hexec]
  dsimp only
  unfold clamped
  by_cases hc : offset + buf.length < (s.heap p).length ∨
      (s.heap p).length + freeBytes s < offset + buf.length
  · rw [if_pos (hcond.mpr hc), if_pos hc, alone_step hexec]
    rfl
  · rw [if_neg (hcond.not.mpr hc), if_neg hc]

theorem writeFileAt_length_lt {count : ℕ} (hlt : (s.heap p).length < 2 ^ 32)
    (hr : writeFileAt p offset count buf s = .ok s') : (s'.heap p).length < 2 ^ 32 := by
  obtain ⟨ho, s₁, hcase, -, -, hhash⟩ := writeFileAt_post hr
  have hheap : s'.heap = s₁.heap := (hashEither_frame hhash).heap_file.1
  rw [hheap]
  rcases hcase with ⟨-, -, rfl⟩ | ⟨-, h1⟩
  · exact hlt
  · rcases resizeFileHelper_post h1 with ⟨-, rfl, -⟩ | ⟨-, s₀, -, -, he⟩
    · exact hlt
    · rw [he]
      simp only [setLength, Heap.set_self]
      exact toU32_lt _

/-- A write never leaves a length of more than 32 bits. -/
theorem writeFile_length_lt {count : ℕ} {code : ℤ} (hlt : (s.heap p).length < 2 ^ 32)
    (hl : lookup name s = .ok (some p))
    (hr : writeFile name offset count buf s = .ok (code, s')) : (s'.heap p).length < 2 ^ 32 := by
  rcases writeFile_post hr with ⟨-, rfl, -⟩ | ⟨q, hq, hcase⟩
  · exact hlt
  obtain rfl : p = q := Option.some_inj.mp (Except.ok.inj (hl.symm.trans hq))
  rcases hcase with ⟨-, rfl, -⟩ | ⟨-, rfl, -⟩ | ⟨-, -, -, ⟨-, rfl⟩ | ⟨-, hat⟩⟩
  · exact hlt
  · exact hlt
  · exact hlt
  · exact writeFileAt_length_lt hlt hat

/-- A write of as many bytes as fit stores them. -/
theorem writeFile_fitting {n : ℕ} (hw : WellFormed s) (hpf : Perfect k s) (hk : k ≤ 24)
    (hl : lookup name s = .ok (some p)) (hoff : offset ≤ (s.heap p).length) (hn : n ≤ buf.length)
    (hfit : offset + n ≤ (s.heap p).length + freeBytes s) (hlt : offset + n < 2 ^ 32) :
    ∃ s', writeFile name offset n (buf.take n) s = .ok (0, s') ∧
      Stored p ((bytesOf s p).take offset ++ buf.take n ++ (bytesOf s p).drop (offset + n))
        s s' := by
  have hfdl := hpf.fileDataLen_le hk
  have hp := (hw.mirror.liveOk.lookup hl).1
  obtain ⟨h1, h2, h3⟩ := hw.sizes hfdl hp
  have htake : (buf.take n).length = n := by
    rw [List.length_take, Nat.min_eq_left hn]
  rcases Nat.eq_zero_or_pos n with rfl | hpos
  · refine ⟨s, ?_, ?_⟩
    · have hcheck : ¬ toU64 (s.used + offset + (0 : ℕ) - (s.heap p).length) > s.fileDataLen := by
        rw [toU64_of_nonneg (by omega) (by omega)]
        omega
      unfold writeFile
      rw [hl, Run.ok_bind]
      dsimp only
      rw [if_neg (by omega), if_neg hcheck, if_pos rfl]
      rfl
    · rw [List.take_zero, List.append_nil, Nat.add_zero, List.take_append_drop]
      exact stored_nothing (bytesOf_length (hw.layout.extentsApart hfdl) hp)
  · have hroom : s.used + (offset + (buf.take n).length : ℕ) ≤
        s.fileDataLen + (s.heap p).length := by omega
    obtain ⟨s', hat⟩ := writeFileAt_total hw.mirror hw.layout hpf hk hp hoff
      (le_refl (buf.take n).length) (by omega) (by omega) hroom
    have hwrite := writeFile_of hl hoff (by omega) h2 hroom (by omega) hat
    have hstored := (writeFileAt_bytes (Nat.sub_le _ _) hw.mirror hw.layout hfdl hp hoff (by omega)
      (by omega) hroom (fun _ => hw.growClear (hw.addressable hfdl) hp _) hat).1
    unfold splice at hstored
    rw [htake] at hwrite hstored
    exact ⟨s', hwrite, hstored⟩

/-- **FUSE writes.**  On a well-formed state with a perfect tree a write stores what it reports
exactly when the clamp decides for the number of bytes that fit. -/
theorem writesReported_iff (hw : WellFormed s) (hpf : Perfect k s) (hk : k ≤ 24)
    (hl : lookup name s = .ok (some p)) (hoff : offset ≤ (s.heap p).length)
    (hlen : buf.length < 2 ^ 64) :
    WritesReported name offset buf p s ↔
      ClampFits (s.heap p).length offset buf.length (freeBytes s) := by
  have hfdl := hpf.fileDataLen_le hk
  have hp := (hw.mirror.liveOk.lookup hl).1
  obtain ⟨h1, h2, h3⟩ := hw.sizes hfdl hp
  have hoffset : toU64 (offset : ℤ) = offset := toU64_of_lt (by omega)
  unfold WritesReported
  dsimp only
  rw [myfuseWrite_alone hw hfdl hl hoff hlen]
  simp only [storeBytes_alone, hoffset]
  have hn : fitting (s.heap p).length offset buf.length (freeBytes s) ≤ buf.length :=
    min_le_left _ _
  have hfit : offset + fitting (s.heap p).length offset buf.length (freeBytes s) ≤
      (s.heap p).length + freeBytes s := by
    unfold fitting
    omega
  constructor
  · rintro ⟨s', ⟨hle, hcode, code, hwrite⟩, hstored⟩
    have hcode := (Reply.mk.inj hcode).1.symm
    apply clampFits_of hoff (by omega) hle hcode
    by_contra hge
    -- the file would have `2 ^ 32` bytes, and its length would be zero
    have hsize := hstored.size
    rw [List.length_append, List.length_append, List.length_take, List.length_take,
      List.length_drop, bytesOf_length (hw.layout.extentsApart hfdl) hp] at hsize
    have hlt := writeFile_length_lt h1 hl hwrite
    clear hcode hle
    omega
  · intro hfits
    obtain ⟨s', hwrite, hstored⟩ := writeFile_fitting hw hpf hk hl hoff hn hfit hfits.2.2
    refine ⟨s', ⟨?_, ?_, 0, ?_⟩, hstored⟩
    · rw [hfits.clamped_eq hoff]
      exact hn
    · have h31 := hfits.2.1
      rw [hfits.clamped_eq hoff, toI32_of_bounds (by omega) (by omega)]
    · rw [hfits.clamped_eq hoff]
      exact hwrite

end Write

/-! ## A file of four bytes -/

/-- A directory with the file `a` of the first four bytes. -/
def fourBytes : List UInt8 := [97] ++ zeros 67 ++ [4, 0, 0, 0]

/-- The state with the file of four bytes and a coherent tree of one node. -/
structure FourBytes (s : Filesys) (p : Ptr) : Prop where
  wellFormed : WellFormed s
  perfect : Perfect 0 s
  coherent : Coherent 0 s
  found : lookup (.ofByte 97 (by decide)) s = .ok (some p)
  length : (s.heap p).length = 4
  free : freeBytes s = 252

set_option maxRecDepth 20000 in
theorem fourBytes_loaded :
    ∃ s p, initFs (zeros 256) fourBytes (fletcher (zeros 256)) = .ok s ∧ FourBytes s p := by
  obtain ⟨s, hinit, ⟨h1, h2, h3⟩, hleaf, hfree, hlook⟩ := Run.holds_iff.mp
    (show Run.Holds (initFs (zeros 256) fourBytes (fletcher (zeros 256))) (fun s =>
      (s.file.length = 256 ∧ s.hash.length = 16 ∧ s.leafOffset = 0) ∧
      node s 0 = fletcher (block s 0) ∧ freeBytes s = 252 ∧
      Run.Holds (lookup (.ofByte 97 (by decide)) s) fun r =>
        ∃ p ∈ s.live, r = some p ∧ (s.heap p).length = 4) by decide +kernel)
  obtain ⟨r, hl, p, -, rfl, hlen⟩ := Run.holds_iff.mp hlook
  refine ⟨s, p, hinit, ⟨initFs_wellFormed ?_ ?_ ?_ hinit, ⟨h1, h2, h3⟩, ⟨fun n hn => ?_,
    fun b hb => ?_⟩, hl, hlen, hfree⟩⟩
  · unfold DistinctNames
    decide +kernel
  · rw [length_zeros]
    unfold ExtentsInside
    decide +kernel
  · decide +kernel
  · exact absurd hn (Nat.not_lt_zero n)
  · obtain rfl : b = 0 := by omega
    exact hleaf

/-- Two bytes behind the four. -/
theorem writesReported_append : ∃ s p,
    initFs (zeros 256) fourBytes (fletcher (zeros 256)) = .ok s ∧
    WritesReported (.ofByte 97 (by decide)) 4 [9, 8] p s := by
  obtain ⟨s, p, hinit, h⟩ := fourBytes_loaded
  refine ⟨s, p, hinit, ?_⟩
  apply (writesReported_iff h.wellFormed h.perfect (by decide) h.found (by rw [h.length])
    (by decide)).mpr
  rw [h.length, h.free]
  decide

/-- One byte over the second of the four: the copy reads past the buffer. -/
theorem writesReported_fails : ¬ ∀ (k : ℕ) (s : Filesys) (p : Ptr) (name : CString) (offset : ℕ)
    (buf : List UInt8), WellFormed s → Perfect k s → k ≤ 24 → Coherent k s →
    lookup name s = .ok (some p) → offset ≤ (s.heap p).length → buf.length < 2 ^ 64 →
    WritesReported name offset buf p s := by
  intro hall
  obtain ⟨s, p, -, h⟩ := fourBytes_loaded
  have hoff : 1 ≤ (s.heap p).length := by
    rw [h.length]
    decide
  obtain ⟨s', hr, -⟩ := hall 0 s p _ 1 [9] h.wellFormed h.perfect (by decide) h.coherent h.found
    hoff (by decide)
  rw [myfuseWrite_alone h.wellFormed (h.perfect.fileDataLen_le (by decide)) h.found hoff
    (by decide), h.length, h.free] at hr
  have hle := (storeBytes_alone.mp hr).1
  exact absurd hle (by decide)

end Vfs
