import VirtualFileSystem.Lib.Regions
import VirtualFileSystem.Serve

/-!
# Files written and read in pieces

The kernel hands the daemon a long write or read in pieces.  Whatever the pieces, the file ends up
with the bytes that were written, and they are what is read.
-/

namespace Vfs

open FlatImage ByteStore

/-- The pieces are written one behind the other. -/
def writeChunks (path : CString) : ℕ → List (List UInt8) → List Operation
  | _, [] => []
  | offset, chunk :: chunks =>
    .file (.write (some path) (some chunk) chunk.length offset) ::
      writeChunks path (offset + chunk.length) chunks

/-- As many bytes are asked for as the buffers hold, one buffer behind the other. -/
def readChunks (path : CString) : ℕ → List ℕ → List Operation
  | _, [] => []
  | offset, n :: sizes =>
    .file (.read (some path) (some (zeros n)) n offset) :: readChunks path (offset + n) sizes

/-- The bytes a read reported. -/
def Response.data : Response → List UInt8
  | .reply r => r.buf.take r.code.toNat
  | .attr _ _ | .names _ _ => []

/-- The file holds the bytes, and may grow by `room` more. -/
structure Extendable (name : CString) (bytes : List UInt8) (room : ℕ) (l : Ledger) : Prop where
  found : l.store.files.lookup name.bytes = some bytes
  room : total l.store.files.entries + room ≤ l.store.capacity
  grows : l.MayGrow name.bytes bytes

section Stream

variable {k room : ℕ} {s : Filesys} {l : Ledger} {name : CString} {bytes chunk : List UInt8}

theorem not_root (hne : name.bytes ≠ []) : ¬ isRoot name.path := fun h =>
  hne (List.cons.inj h).2

theorem namesFile_path (hne : name.bytes ≠ []) (hlen : name.bytes.length < nameLen) :
    NamesFile (some name.path) := by
  rintro p ⟨rfl⟩ -
  exact ⟨hne, hlen⟩

theorem serveAt_path (hne : name.bytes ≠ []) (buf : List UInt8) (l : Ledger)
    (f : CString → Option (List UInt8) → Reply × Ledger) :
    l.serveAt (some name.path) buf f = f name (l.store.files.lookup name.bytes) :=
  if_neg (not_root hne)

theorem splice_end (bytes chunk : List UInt8) :
    splice bytes bytes.length chunk = bytes ++ chunk := by
  unfold splice
  rw [List.take_length, List.drop_eq_nil_of_le (Nat.le_add_right _ _), List.append_nil]

/-- What a piece that fits leaves behind. -/
theorem Extendable.append (h : Extendable name bytes (chunk.length + room) l) {l' : Ledger}
    (hl' : l' = l.after (.write name bytes.length chunk.length chunk)) :
    Extendable name (bytes ++ chunk) room l' ∧
      ∀ n, n ≠ name.bytes → l'.store.files.lookup n = l.store.files.lookup n := by
  obtain ⟨hl, hroom, hpacked, hgrow⟩ := h
  have hfits : Store.Fits (l.store.files.insert name.bytes (bytes ++ chunk)) l.store := by
    rw [Store.fits_insert_some hl, List.length_append]
    omega
  have hwrite : l.store.write name.bytes bytes.length (chunk.take chunk.length) =
      l.store.replaceBy (l.store.files.insert name.bytes (bytes ++ chunk)) 3 := by
    unfold Store.write
    rw [hl, List.take_length]
    dsimp only
    rw [if_neg (lt_irrefl _), splice_end]
  have hstore : l'.store = (l.store.replaceBy
      (l.store.files.insert name.bytes (bytes ++ chunk)) 3).2 := by
    rw [hl', ← hwrite]
    rfl
  have hfiles : l'.store.files = l.store.files.insert name.bytes (bytes ++ chunk) := by
    rw [hstore, Store.replaceBy_files hfits]
  have hcap : l'.store.capacity = l.store.capacity := by
    rw [hstore]
    exact (Store.replaceBy_bounds _ _ _).1
  have hothers : ∀ n, n ≠ name.bytes → l'.store.files.lookup n = l.store.files.lookup n :=
    fun n hn => by rw [hfiles, AList.lookup_insert_ne hn]
  refine ⟨⟨?_, ?_, ?_, fun hempty e he hne => ?_⟩, hothers⟩
  · rw [hfiles, AList.lookup_insert]
  · have htotal := total_insert l.store.files name.bytes (bytes ++ chunk)
    rw [hl, Option.getD_some, List.length_append] at htotal
    rw [hfiles, hcap]
    omega
  · rw [hl']
    exact hpacked
  · -- if nothing was written yet, the other files are as they were
    obtain ⟨h0, -⟩ := List.append_eq_nil_iff.mp hempty
    have hold := hothers e.1 hne
    rw [AList.mem_lookup_iff.mpr he] at hold
    exact hgrow h0 e (AList.mem_lookup_iff.mp hold.symm) hne

/-- The operation that writes a piece behind the end, and what it comes to. -/
theorem Extendable.write (h : Extendable name bytes (chunk.length + room) l)
    (hne : name.bytes ≠ []) (hlen : name.bytes.length < nameLen) (hc : chunk.length < 2 ^ 31)
    {o : Operation}
    (ho : o = .file (.write (some name.path) (some chunk) chunk.length bytes.length)) :
    o.Proper l ∧ o.serve l = (.reply ⟨chunk.length, []⟩,
      l.after (.write name bytes.length chunk.length chunk)) := by
  obtain ⟨hl, hroom, hgrow⟩ := h
  have hle := Store.length_le_total hl
  have hn : clamped bytes.length (bytes.length : ℤ).toNat chunk.length l.free = chunk.length := by
    unfold clamped Ledger.free
    exact if_neg (by omega)
  subst ho
  constructor
  · refine ⟨namesFile_path hne hlen, by omega, by omega, ?_⟩
    rintro b ⟨rfl⟩ p ⟨rfl⟩ - data hdata
    obtain rfl := Option.some_inj.mp (hl.symm.trans hdata)
    dsimp only
    rw [hn]
    refine ⟨le_rfl, ?_⟩
    rintro data hdata - - -
    obtain rfl := Option.some_inj.mp (hl.symm.trans hdata)
    exact hgrow
  · have hserve : (Request.write (some name.path) (some chunk) chunk.length bytes.length).serve l =
        (⟨toI32 chunk.length, []⟩, l.after (.write name bytes.length chunk.length chunk)) := by
      rw [Request.serve, serveAt_path hne, hl]
      dsimp only
      rw [if_neg (lt_irrefl _), hn, List.take_length, Int.toNat_natCast]
    have h31 : toI32 chunk.length = chunk.length := toI32_of_bounds (by omega) (by omega)
    show (Response.reply (Request.serve _ l).1, (Request.serve _ l).2) = _
    rw [hserve, h31]

/-- The pieces of a write are stored one behind the other. -/
theorem write_chunks (hk : k ≤ 23) (hne : name.bytes ≠ []) (hlen : name.bytes.length < nameLen) :
    ∀ (chunks : List (List UInt8)) (bytes : List UInt8) (s : Filesys) (l : Ledger),
      InStep k s l → Extendable name bytes (chunks.flatten.length + room) l →
      (∀ c ∈ chunks, c.length < 2 ^ 31) →
      ∃ s' l', Trace.run Operation.run (writeChunks name.path bytes.length chunks) s =
          .ok (chunks.map fun c => .reply ⟨c.length, []⟩, s') ∧ InStep k s' l' ∧
        Extendable name (bytes ++ chunks.flatten) room l' ∧
        ∀ n, n ≠ name.bytes → l'.store.files.lookup n = l.store.files.lookup n := by
  intro chunks
  induction chunks with
  | nil =>
    intro bytes s l hs h _
    rw [List.flatten_nil, List.length_nil, Nat.zero_add] at h
    rw [List.flatten_nil, List.append_nil]
    exact ⟨s, l, rfl, hs, h, fun _ _ => rfl⟩
  | cons c chunks ih =>
    intro bytes s l hs h hc
    rw [List.flatten_cons, List.length_append, Nat.add_assoc] at h
    obtain ⟨hproper, hserve⟩ := h.write hne hlen (hc c List.mem_cons_self) rfl
    obtain ⟨hext, hothers⟩ := h.append rfl
    obtain ⟨s₁, hrun, hs₁⟩ := Operation.run_follows hs hk hproper
    rw [hserve] at hrun hs₁
    obtain ⟨s', l', hrest, hs', hext', hothers'⟩ := ih (bytes ++ c) s₁ _ hs₁ hext
      fun d hd => hc d (List.mem_cons_of_mem c hd)
    refine ⟨s', l', ?_, hs', ?_, fun n hn => (hothers' n hn).trans (hothers n hn)⟩
    · rw [List.length_append] at hrest
      exact Trace.run_cons_eq_ok.mpr ⟨_, s₁, _, hrun, hrest, rfl⟩
    · rwa [List.flatten_cons, ← List.append_assoc]

/-- A read of as many bytes as the buffer holds. -/
theorem read_chunk (hs : InStep k s l) (hk : k ≤ 23) (hne : name.bytes ≠ [])
    (hlen : name.bytes.length < nameLen) (hl : l.store.files.lookup name.bytes = some bytes)
    {n offset : ℕ} (hn : n < 2 ^ 31) :
    ∃ r s', (Operation.file (.read (some name.path) (some (zeros n)) n offset)).run s =
      .ok (r, s') ∧ InStep k s' l ∧ r.data = slice bytes offset n := by
  have hproper : (Operation.file (.read (some name.path) (some (zeros n)) n offset)).Proper l := by
    refine ⟨namesFile_path hne hlen, by omega, ?_⟩
    rintro b ⟨rfl⟩
    exact (length_zeros n).ge
  obtain ⟨s', hrun, hs'⟩ := Operation.run_follows hs hk hproper
  have hserve : (Request.read (some name.path) (some (zeros n)) n offset).serve l =
      if (offset : ℤ) ≥ bytes.length then (⟨0, zeros n⟩, l)
      else (⟨toI32 (min n (bytes.length - offset) : ℕ),
        splice (zeros n) 0 (slice bytes offset (min n (bytes.length - offset)))⟩, l) := by
    rw [Request.serve, serveAt_path hne, hl]
    rfl
  have hledger : ((Operation.file (.read (some name.path) (some (zeros n)) n offset)).serve l).2 =
      l := by
    show ((Request.read (some name.path) (some (zeros n)) n offset).serve l).2 = l
    rw [hserve]
    split
    · rfl
    · rfl
  rw [hledger] at hs'
  refine ⟨_, s', hrun, hs', ?_⟩
  show ((Request.read (some name.path) (some (zeros n)) n offset).serve l).1.buf.take
    ((Request.read (some name.path) (some (zeros n)) n offset).serve l).1.code.toNat = _
  rw [hserve]
  split_ifs with heof
  · have hnil : slice bytes offset n = [] := by
      unfold slice
      rw [List.drop_eq_nil_of_le (by omega), List.take_nil]
    rw [hnil]
    rfl
  · have hcode : toI32 (min n (bytes.length - offset) : ℕ) =
        ((min n (bytes.length - offset) : ℕ) : ℤ) := toI32_of_bounds (by omega) (by omega)
    have hdata : (slice bytes offset (min n (bytes.length - offset))).length =
        min n (bytes.length - offset) := length_slice_of_le (by omega)
    have hfit : 0 + (slice bytes offset (min n (bytes.length - offset))).length ≤
        (zeros n).length := by
      rw [hdata, length_zeros]
      omega
    have hhead := slice_splice_self hfit
    rw [hdata] at hhead
    dsimp only
    rw [hcode, Int.toNat_natCast]
    -- the reported bytes end where the file does
    refine Eq.trans hhead ?_
    unfold slice
    rw [← List.length_drop, ← List.take_eq_take_min]

/-- The pieces of a read are the bytes, as far as the buffers and the file go. -/
theorem read_chunks (hk : k ≤ 23) (hne : name.bytes ≠ []) (hlen : name.bytes.length < nameLen) :
    ∀ (sizes : List ℕ) (offset : ℕ) (s : Filesys), InStep k s l →
      l.store.files.lookup name.bytes = some bytes → (∀ n ∈ sizes, n < 2 ^ 31) →
      ∃ rs s', Trace.run Operation.run (readChunks name.path offset sizes) s = .ok (rs, s') ∧
        InStep k s' l ∧ (rs.map Response.data).flatten = slice bytes offset sizes.sum := by
  intro sizes
  induction sizes with
  | nil => exact fun offset s hs _ _ => ⟨[], s, rfl, hs, rfl⟩
  | cons n sizes ih =>
    intro offset s hs hl hn
    obtain ⟨r, s₁, hrun, hs₁, hdata⟩ :=
      @read_chunk k s l name bytes hs hk hne hlen hl n offset (hn n List.mem_cons_self)
    obtain ⟨rs, s', hrest, hs', hflat⟩ :=
      ih (offset + n) s₁ hs₁ hl fun m hm => hn m (List.mem_cons_of_mem n hm)
    refine ⟨r :: rs, s', Trace.run_cons_eq_ok.mpr ⟨r, s₁, rs, hrun, hrest, rfl⟩, hs', ?_⟩
    rw [List.map_cons, List.flatten_cons, hdata, hflat, List.sum_cons, slice_append_slice]

/-- **Writing and reading in pieces.**  Pieces written behind the end of a file, one after the
other, are all taken; then any reads one after the other from the start report the old bytes and
the pieces, as far as the buffers go; the other files keep their bytes. -/
theorem streamed (hs : InStep k s l) (hk : k ≤ 23) (hne : name.bytes ≠ [])
    (hlen : name.bytes.length < nameLen) {chunks : List (List UInt8)} {sizes : List ℕ}
    (h : Extendable name bytes chunks.flatten.length l) (hc : ∀ c ∈ chunks, c.length < 2 ^ 31)
    (hn : ∀ n ∈ sizes, n < 2 ^ 31) :
    ∃ rs s' l', Trace.run Operation.run
        (writeChunks name.path bytes.length chunks ++ readChunks name.path 0 sizes) s =
          .ok ((chunks.map fun c => .reply ⟨c.length, []⟩) ++ rs, s') ∧
      (rs.map Response.data).flatten = (bytes ++ chunks.flatten).take sizes.sum ∧
      InStep k s' l' ∧ l'.store.files.lookup name.bytes = some (bytes ++ chunks.flatten) ∧
      ∀ n, n ≠ name.bytes → l'.store.files.lookup n = l.store.files.lookup n := by
  obtain ⟨s₁, l', hwrites, hs₁, hext, hothers⟩ :=
    @write_chunks k 0 name hk hne hlen chunks bytes s l hs h hc
  obtain ⟨rs, s', hreads, hs', hflat⟩ := read_chunks hk hne hlen sizes 0 s₁ hs₁ hext.found hn
  refine ⟨rs, s', l', Trace.run_append hwrites hreads, hflat, hs', hext.found, hothers⟩

end Stream

set_option maxRecDepth 20000 in
/-- Three pieces are written to a new file, and read with other sizes past its end. -/
theorem streamed_pieces : ∃ s₀ s rs s', initFs (zeros 256) (zeros 216) (zeros 16) = .ok s₀ ∧
    (Operation.file (.create (some (bytePath 98 (by decide))))).run s₀ = .ok (.reply ⟨0, []⟩, s) ∧
    Trace.run Operation.run (writeChunks (bytePath 98 (by decide)) 0 [[1, 2], [], [3, 4, 5]] ++
      readChunks (bytePath 98 (by decide)) 0 [1, 3, 7]) s =
        .ok ([.reply ⟨2, []⟩, .reply ⟨0, []⟩, .reply ⟨3, []⟩] ++ rs, s') ∧
    (rs.map Response.data).flatten = [1, 2, 3, 4, 5] := by
  obtain ⟨s₀, hinit, hs₀⟩ :=
    blank_mounted (k := 0) (n := 3) (by decide) (by decide) (by decide)
  obtain ⟨s, hcreate, hs⟩ := Operation.run_follows
    (o := .file (.create (some (bytePath 98 (by decide))))) hs₀ (by decide) (by decide)
  obtain ⟨rs, s', l', hrun, hdata, -⟩ := @streamed 0 s _ (.ofByte 98 (by decide)) [] hs (by decide)
    (by decide) (by decide) [[1, 2], [], [3, 4, 5]] [1, 3, 7]
    ⟨by decide +kernel, by decide +kernel, by decide +kernel⟩ (by decide) (by decide)
  exact ⟨s₀, s, rs, s', hinit, hcreate, hrun, hdata⟩

end Vfs
