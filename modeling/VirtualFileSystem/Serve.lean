import VirtualFileSystem.Daemon

/-!
# What the daemon replies

The replies of one operation after the other, as a table over the reference store: which error
number stands for what, how many bytes a read delivers and a write takes, and that a listing is the
sorted list of names.  Requests that meet the contract are served as the table says.
-/

namespace Vfs

open FlatImage ByteStore Interleave

/-! ## The table -/

/-- What follows the slash of a path. -/
def CString.tail (path : CString) : CString :=
  ⟨path.bytes.tail, fun h => path.nul_free (List.mem_of_mem_tail h)⟩

/-- A path that is not the root names a file, and the name fits. -/
def NamesFile (path : Option CString) : Prop :=
  ∀ p ∈ path, ¬ isRoot p → p.bytes.tail ≠ [] ∧ p.bytes.tail.length < nameLen

instance (path : Option CString) : Decidable (NamesFile path) := by
  unfold NamesFile; infer_instance

/-- The ledger behind a call. -/
def Ledger.after (c : Call) (l : Ledger) : Ledger := ((Action.call c).next l).2

/-- A reply about the bytes under the name in a path. -/
def Ledger.serveAt (path : Option CString) (buf : List UInt8) (l : Ledger)
    (f : CString → Option (List UInt8) → Reply × Ledger) : Reply × Ledger :=
  match path with
  | none => (⟨-einval, buf⟩, l)
  | some path =>
    if isRoot path then (⟨-eisdir, buf⟩, l)
    else f path.tail (l.store.files.lookup path.tail.bytes)

/-- The number of bytes no file holds. -/
def Ledger.free (l : Ledger) : ℕ := l.store.capacity - total l.store.files.entries

/-- The reply to a request, and the ledger behind it. -/
def Request.serve : Request → Ledger → Reply × Ledger
  | .unlink path, l => l.serveAt path [] fun name bytes =>
    match bytes with
    | none => (⟨-enoent, []⟩, l)
    | some _ => (⟨0, []⟩, l.after (.delete name))
  | .rename (some old) (some new), l =>
    if isRoot old ∨ isRoot new then (⟨-eisdir, []⟩, l)
    else match l.store.files.lookup old.tail.bytes with
      | none => (⟨-enoent, []⟩, l)
      | some _ =>
        if old.tail.bytes = new.tail.bytes then (⟨0, []⟩, l)
        else match l.store.files.lookup new.tail.bytes with
          | some _ => (⟨-enoent, []⟩, l)
          | none => (⟨0, []⟩, l.after (.rename old.tail new.tail))
  | .rename _ _, l => (⟨-einval, []⟩, l)
  | .truncate path length, l =>
    if length < 0 then (⟨-einval, []⟩, l)
    else l.serveAt path [] fun name bytes =>
      match bytes with
      | none => (⟨-enoent, []⟩, l)
      | some bytes =>
        if length.toNat ≤ l.free + bytes.length then
          (⟨0, []⟩, l.after (.resize name length.toNat))
        else (⟨-enospc, []⟩, l)
  | .openFile path, l => l.serveAt path [] fun _ bytes =>
    match bytes with
    | none => (⟨-enoent, []⟩, l)
    | some _ => (⟨0, []⟩, l)
  | .create path, l => l.serveAt path [] fun name bytes =>
    match bytes with
    | some _ => (⟨-eexist, []⟩, l)
    | none =>
      if l.store.files.entries.length < l.store.maxFiles then (⟨0, []⟩, l.after (.create name 0))
      else (⟨-enospc, []⟩, l)
  | .read _ none _ _, l => (⟨-einval, []⟩, l)
  | .read path (some buf) length offset, l => l.serveAt path buf fun _ bytes =>
    match bytes with
    | none => (⟨-enoent, buf⟩, l)
    | some bytes =>
      if offset ≥ bytes.length then (⟨0, buf⟩, l)
      else
        let n := min length (bytes.length - offset.toNat)
        (⟨toI32 n, splice buf 0 (slice bytes offset.toNat n)⟩, l)
  | .write _ none _ _, l => (⟨-einval, []⟩, l)
  | .write path (some buf) length offset, l => l.serveAt path [] fun name bytes =>
    match bytes with
    | none => (⟨-enoent, []⟩, l)
    | some bytes =>
      if offset > bytes.length then (⟨-einval, []⟩, l)
      else
        let n := clamped bytes.length offset.toNat length l.free
        (⟨toI32 n, []⟩, l.after (.write name offset.toNat n (buf.take n)))

/-- The response to an operation, and the ledger behind it. -/
def Operation.serve : Operation → Ledger → Response × Ledger
  | .file r, l => (.reply (r.serve l).1, (r.serve l).2)
  | .getattr path, l =>
    if path.bytes.head? ≠ some 47 then (.attr (-einval) none, l)
    else if isRoot path then
      (.attr 0 (some ⟨total l.store.files.entries, .directory⟩), l)
    else match l.store.files.lookup path.tail.bytes with
      | none => (.attr (-enoent) (some ⟨0, .unset⟩), l)
      | some bytes => (.attr 0 (some ⟨bytes.length, .regular⟩), l)
  | .readdir path, l =>
    if isRoot path then (.names 0 (sortedNames l.store), l) else (.names (-enotdir) [], l)
  | .release, l => (.reply ⟨0, []⟩, l)

/-! ## Requests that meet the contract -/

/-- Names fit, offsets are not negative, buffers hold the bytes, and the calls are allowed.  A write
that the clamp makes longer than its buffer is left out. -/
def Request.Proper : Request → Ledger → Prop
  | .unlink path, _ | .openFile path, _ | .create path, _ => NamesFile path
  | .rename old new, l => NamesFile old ∧ NamesFile new ∧ ∀ o ∈ old, ∀ n ∈ new,
      ¬ isRoot o → ¬ isRoot n → (Call.rename o.tail n.tail).Allowed l
  | .truncate path length, l => NamesFile path ∧ length < 2 ^ 32 ∧ ∀ p ∈ path, ¬ isRoot p →
      (Call.resize p.tail length.toNat).Allowed l
  | .read path buf length offset, _ => NamesFile path ∧ 0 ≤ offset ∧ ∀ b ∈ buf, length ≤ b.length
  | .write path buf length offset, l => NamesFile path ∧ 0 ≤ offset ∧ length < 2 ^ 32 ∧
      ∀ b ∈ buf, ∀ p ∈ path, ¬ isRoot p → ∀ bytes ∈ l.store.files.lookup p.tail.bytes,
        let n := clamped bytes.length offset.toNat length l.free
        n ≤ b.length ∧ (Call.write p.tail offset.toNat n (b.take n)).Allowed l

def Operation.Proper : Operation → Ledger → Prop
  | .file r, l => r.Proper l
  | .getattr path, _ => NamesFile (some path)
  | .readdir _, _ | .release, _ => True

instance decidableRequest : ∀ (r : Request) (l : Ledger), Decidable (r.Proper l)
  | .unlink path, _ | .openFile path, _ | .create path, _ =>
    inferInstanceAs (Decidable (NamesFile path))
  | .rename old new, l => inferInstanceAs (Decidable (NamesFile old ∧ NamesFile new ∧
      ∀ o ∈ old, ∀ n ∈ new, ¬ isRoot o → ¬ isRoot n → (Call.rename o.tail n.tail).Allowed l))
  | .truncate path length, l => inferInstanceAs (Decidable (NamesFile path ∧ length < 2 ^ 32 ∧
      ∀ p ∈ path, ¬ isRoot p → (Call.resize p.tail length.toNat).Allowed l))
  | .read path buf length offset, _ =>
    inferInstanceAs (Decidable (NamesFile path ∧ 0 ≤ offset ∧ ∀ b ∈ buf, length ≤ b.length))
  | .write path buf length offset, l => inferInstanceAs (Decidable
      (NamesFile path ∧ 0 ≤ offset ∧ length < 2 ^ 32 ∧
        ∀ b ∈ buf, ∀ p ∈ path, ¬ isRoot p → ∀ bytes ∈ l.store.files.lookup p.tail.bytes,
          let n := clamped bytes.length offset.toNat length l.free
          n ≤ b.length ∧ (Call.write p.tail offset.toNat n (b.take n)).Allowed l))

instance decidableOperation : ∀ (o : Operation) (l : Ledger), Decidable (o.Proper l)
  | .file r, l => decidableRequest r l
  | .getattr path, _ => inferInstanceAs (Decidable (NamesFile (some path)))
  | .readdir _, _ | .release, _ => .isTrue trivial

/-- Alone and within the contract the handler comes to the reply and the ledger. -/
abbrev Serves (p : Handler) (l : Ledger) (x : Reply × Ledger) : Prop :=
  Gives (fun a => (Touch.access a).next) (fun a => (Touch.access a).Allowed) p l x.1 x.2

section Serve

variable {l : Ledger} {path : Option CString} {buf : List UInt8} {name : CString} {c : Call}
  {x : Reply × Ledger} {k : Answer → Handler} {bytes : List UInt8} {r : Request}

/-- A call whose answer and ledger are known. -/
theorem serves_call {a : Answer} {l' : Ledger} (hs : c.Small) (ha : c.Allowed l)
    (hnext : (Action.call c).next l = (a, l')) (h : Serves (k a) l' x) :
    Serves (.step (.call c) k) l x := by
  refine Gives.step (a := Access.call c) ⟨hs, ha⟩ ?_
  show Serves (k ((Action.call c).next l).1) ((Action.call c).next l).2 x
  rw [hnext]
  exact h

theorem copyName_tail {path : CString} (hne : path.bytes ≠ []) (k : CString → Handler) :
    copyName path k = k path.tail := by
  cases path with
  | mk bytes hnul =>
    cases bytes with
    | nil => exact absurd rfl hne
    | cons b bytes => rfl

theorem serves_onFile {k : CString → Handler} {f : CString → Option (List UInt8) → Reply × Ledger}
    (hn : NamesFile path)
    (h : ∀ p ∈ path, ¬ isRoot p → p.tail.bytes ≠ [] ∧ p.tail.bytes.length < nameLen →
      Serves (k p.tail) l (f p.tail (l.store.files.lookup p.tail.bytes))) :
    Serves (onFile path buf k) l (l.serveAt path buf f) := by
  unfold onFile Ledger.serveAt
  cases path with
  | none => exact .done _ _
  | some p =>
    by_cases hroot : isRoot p
    · dsimp only
      rw [if_pos hroot, if_pos hroot]
      exact .done _ _
    · obtain ⟨hne, hlen⟩ := hn p rfl hroot
      dsimp only
      rw [if_neg hroot, if_neg hroot, copyName_tail fun h0 => hne (by rw [h0]; rfl)]
      exact h p rfl hroot ⟨hne, hlen⟩

theorem named_one (h : name.bytes ≠ [] ∧ name.bytes.length < nameLen) :
    ∀ n ∈ [name], n.bytes ≠ [] ∧ n.bytes.length < nameLen := fun n hn => by
  rw [List.mem_singleton.mp hn]
  exact h

/-! ### Calls -/

theorem next_done {a : Answer} (h : (c.reference l.store).1 = a) :
    (Action.call c).next l = (a, l.after c) := Prod.ext h rfl

/-- A call that changes nothing. -/
theorem next_same {a : Answer} (h : c.reference l.store = (a, l.store))
    (hp : c.packs l = l.packed) : (Action.call c).next l = (a, l) := by
  show ((c.reference l.store).1, (⟨(c.reference l.store).2, c.packs l⟩ : Ledger)) = (a, l)
  rw [h, hp]

theorem delete_next : (Action.call (.delete name)).next l =
    match l.store.files.lookup name.bytes with
    | none => ((1, []), l)
    | some _ => ((0, []), l.after (.delete name)) := by
  cases hl : l.store.files.lookup name.bytes with
  | none =>
    exact next_same (by simp [Call.reference, coded, Store.delete, hl]) (by simp [Call.packs, hl])
  | some bytes => exact next_done (by simp [Call.reference, coded, Store.delete, hl])

theorem size_next : (Action.call (.size name)).next l =
    match l.store.files.lookup name.bytes with
    | none => ((-1, []), l)
    | some bytes => ((bytes.length, []), l) := by
  cases hl : l.store.files.lookup name.bytes with
  | none => exact next_same (by simp [Call.reference, Store.size, hl]) rfl
  | some bytes => exact next_same (by simp [Call.reference, Store.size, hl]) rfl

theorem create_next : (Action.call (.create name 0)).next l =
    match l.store.files.lookup name.bytes with
    | some _ => ((1, []), l)
    | none =>
      if l.store.files.entries.length < l.store.maxFiles then ((0, []), l.after (.create name 0))
      else ((2, []), l) := by
  cases hl : l.store.files.lookup name.bytes with
  | some bytes => exact next_same (by simp [Call.reference, coded, Store.create, hl]) rfl
  | none =>
    have hfits := Store.fits_insert_none hl (List.replicate 0 0)
    have hcap := l.store.fits
    have hcreate : l.store.create name.bytes 0 =
        l.store.replaceBy (l.store.files.insert name.bytes (List.replicate 0 0)) 2 := by
      unfold Store.create
      rw [hl]
    dsimp only
    split_ifs with hroom
    · refine next_done ?_
      show ((l.store.create name.bytes 0).1, []) = _
      rw [hcreate, Store.replaceBy_code (hfits.mpr ⟨hcap, hroom⟩)]
    · refine next_same ?_ rfl
      show coded (l.store.create name.bytes 0) = _
      rw [hcreate, Store.replaceBy_refused fun h => hroom (hfits.mp h).2]
      rfl

theorem resize_next {length : ℕ} : (Action.call (.resize name length)).next l =
    match l.store.files.lookup name.bytes with
    | none => ((1, []), l)
    | some bytes =>
      if length ≤ l.free + bytes.length then ((0, []), l.after (.resize name length))
      else ((2, []), l) := by
  cases hl : l.store.files.lookup name.bytes with
  | none =>
    exact next_same (by simp [Call.reference, coded, Store.resize, hl]) (by simp [Call.packs, hl])
  | some bytes =>
    obtain ⟨data, hdata⟩ : ∃ data : List UInt8,
        data = bytes.take length ++ List.replicate (length - bytes.length) 0 := ⟨_, rfl⟩
    have hlen : data.length = length := by
      rw [hdata, List.length_append, List.length_take, List.length_replicate]
      omega
    have hfits := Store.fits_insert_some hl data
    have hcap := l.store.fits
    have hresize : l.store.resize name.bytes length =
        l.store.replaceBy (l.store.files.insert name.bytes data) 2 := by
      unfold Store.resize
      rw [hl, hdata]
    rw [hlen] at hfits
    unfold Ledger.free
    dsimp only
    split_ifs with hroom
    · refine next_done ?_
      show ((l.store.resize name.bytes length).1, []) = _
      rw [hresize, Store.replaceBy_code (hfits.mpr (by omega))]
    · refine next_same ?_ ?_
      · show coded (l.store.resize name.bytes length) = _
        rw [hresize, Store.replaceBy_refused fun h => hroom (by have := hfits.mp h; omega)]
        rfl
      · -- a file that cannot grow is not cut
        show (l.packed && (l.store.files.lookup name.bytes).all fun b => b.length ≤ length) = _
        rw [hl, Option.all_some, decide_eq_true (by omega), Bool.and_true]

theorem rename_next {new : CString} : (Action.call (.rename name new)).next l =
    match l.store.files.lookup name.bytes with
    | none => ((1, []), l)
    | some _ =>
      if name.bytes = new.bytes then ((0, []), l)
      else match l.store.files.lookup new.bytes with
        | some _ => ((1, []), l)
        | none => ((0, []), l.after (.rename name new)) := by
  cases hl : l.store.files.lookup name.bytes with
  | none => exact next_same (by simp [Call.reference, coded, Store.rename, hl]) rfl
  | some bytes =>
    dsimp only
    split_ifs with hsame
    · refine next_same ?_ rfl
      show coded (l.store.rename name.bytes new.bytes) = _
      unfold Store.rename
      rw [hl]
      dsimp only
      rw [if_pos hsame]
      rfl
    · cases hnew : l.store.files.lookup new.bytes with
      | some bytes' =>
        refine next_same ?_ rfl
        show coded (l.store.rename name.bytes new.bytes) = _
        unfold Store.rename
        rw [hl]
        dsimp only
        rw [if_neg hsame, hnew]
        rfl
      | none =>
        refine next_done ?_
        show ((l.store.rename name.bytes new.bytes).1, []) = _
        unfold Store.rename
        rw [hl]
        dsimp only
        rw [if_neg hsame, hnew]
        dsimp only
        rw [Store.replaceBy_code (Store.fits_move hl hnew)]

/-! ### Handlers -/

theorem serves_unlink (hp : (Request.unlink path).Proper l) :
    Serves (myfuseUnlink path) l ((Request.unlink path).serve l) := by
  refine serves_onFile hp fun p _ _ hn => ?_
  refine serves_call ⟨named_one hn, trivial⟩ trivial delete_next ?_
  cases l.store.files.lookup p.tail.bytes with
  | none => exact .done _ _
  | some bytes => exact .done _ _

theorem serves_open (hp : (Request.openFile path).Proper l) :
    Serves (myfuseOpen path) l ((Request.openFile path).serve l) := by
  refine serves_onFile hp fun p _ _ hn => ?_
  refine serves_call ⟨named_one hn, trivial⟩ trivial size_next ?_
  cases l.store.files.lookup p.tail.bytes with
  | none => exact .done _ _
  | some bytes =>
    dsimp only
    rw [if_neg (by omega)]
    exact .done _ _

theorem serves_create (hp : (Request.create path).Proper l) :
    Serves (myfuseCreate path) l ((Request.create path).serve l) := by
  refine serves_onFile hp fun p _ _ hn => ?_
  refine serves_call ⟨named_one hn, by norm_num⟩ trivial create_next ?_
  cases l.store.files.lookup p.tail.bytes with
  | some bytes => exact .done _ _
  | none =>
    by_cases hroom : l.store.files.entries.length < l.store.maxFiles
    · simp only [if_pos hroom]
      exact .done _ _
    · simp only [if_neg hroom]
      exact .done _ _

theorem serves_truncate {length : ℤ} (hp : (Request.truncate path length).Proper l) :
    Serves (myfuseTruncate path length) l ((Request.truncate path length).serve l) := by
  obtain ⟨hn, hlt, hallowed⟩ := hp
  by_cases h0 : length < 0
  · rw [show myfuseTruncate path length = _ from if_pos h0,
      show (Request.truncate path length).serve l = _ from if_pos h0]
    exact .done _ _
  · rw [show myfuseTruncate path length = _ from if_neg h0,
      show (Request.truncate path length).serve l = _ from if_neg h0]
    refine serves_onFile hn fun p hpath hroot hn => ?_
    rw [toU64_of_nonneg (by omega) (by omega)]
    refine serves_call ⟨named_one hn, ?_⟩ (hallowed p hpath hroot) resize_next ?_
    · show length.toNat < 2 ^ 32
      omega
    · cases l.store.files.lookup p.tail.bytes with
      | none => exact .done _ _
      | some bytes =>
        by_cases hroom : length.toNat ≤ l.free + bytes.length
        · simp only [if_pos hroom]
          exact .done _ _
        · simp only [if_neg hroom]
          exact .done _ _

theorem serves_rename {oldpath newpath : Option CString}
    (hp : (Request.rename oldpath newpath).Proper l) :
    Serves (myfuseRename oldpath newpath) l ((Request.rename oldpath newpath).serve l) := by
  obtain ⟨hold, hnew, hallowed⟩ := hp
  cases oldpath with
  | none => exact .done _ _
  | some old =>
    cases newpath with
    | none => exact .done _ _
    | some new =>
      by_cases hroot : isRoot old ∨ isRoot new
      · rw [show myfuseRename (some old) (some new) = _ from if_pos hroot,
          show (Request.rename (some old) (some new)).serve l = _ from if_pos hroot]
        exact .done _ _
      · rw [show myfuseRename (some old) (some new) = _ from if_neg hroot,
          show (Request.rename (some old) (some new)).serve l = _ from if_neg hroot]
        obtain ⟨ho, hn⟩ := not_or.mp hroot
        have hon := hold old rfl ho
        have hnn := hnew new rfl hn
        rw [copyName_tail fun h0 => hon.1 (by rw [h0]; rfl),
          copyName_tail fun h0 => hnn.1 (by rw [h0]; rfl)]
        refine serves_call ⟨fun n hmem => ?_, trivial⟩ (hallowed old rfl new rfl ho hn)
          rename_next ?_
        · rcases List.mem_cons.mp hmem with rfl | hmem
          · exact hon
          · exact named_one hnn n hmem
        · cases l.store.files.lookup old.tail.bytes with
          | none => exact .done _ _
          | some bytes =>
            by_cases hsame : old.tail.bytes = new.tail.bytes
            · simp only [if_pos hsame]
              exact .done _ _
            · simp only [if_neg hsame]
              cases l.store.files.lookup new.tail.bytes with
              | some bytes' => exact .done _ _
              | none => exact .done _ _

section Bytes

variable {n length : ℕ} {offset : ℤ}

/-- Reading bytes of the file fills the buffer with them. -/
theorem serves_fetch (hn : name.bytes ≠ [] ∧ name.bytes.length < nameLen)
    (hl : l.store.files.lookup name.bytes = some bytes) (hlt : bytes.length < 2 ^ 32)
    (h0 : 0 ≤ offset) (hin : offset.toNat + n ≤ bytes.length) (hbuf : n ≤ buf.length) :
    Serves (fetchBytes name offset n buf) l
      (⟨toI32 n, splice buf 0 (slice bytes offset.toNat n)⟩, l) := by
  have hread : (Call.read name offset.toNat n).reference l.store =
      ((0, slice bytes offset.toNat n), l.store) := by
    show (l.store.read name.bytes offset.toNat n, l.store) = _
    unfold Store.read
    rw [hl]
    dsimp only
    rw [if_neg (by omega)]
  have hlen : (slice bytes offset.toNat n).length = n := by
    rw [length_slice]
    omega
  unfold fetchBytes
  rw [toU64_of_nonneg h0 (by omega)]
  refine serves_call ⟨named_one hn, ?_⟩ trivial (next_same hread rfl) ?_
  · show offset.toNat < 2 ^ 32 ∧ n < 2 ^ 32
    omega
  · refine Gives.lift (x := splice buf 0 (slice bytes offset.toNat n)) ?_ (.done _ _)
    exact memWrite_eq_ok.mpr ⟨⟨le_rfl, by rw [hlen]; omega⟩, rfl⟩

theorem serves_read {buf : Option (List UInt8)} (hcap : l.store.capacity ≤ 2 ^ 31)
    (hp : (Request.read path buf length offset).Proper l) :
    Serves (myfuseRead path buf length offset) l
      ((Request.read path buf length offset).serve l) := by
  obtain ⟨hname, h0, hbuf⟩ := hp
  cases buf with
  | none => exact .done _ _
  | some buf =>
    have hbuf := hbuf buf rfl
    refine serves_onFile hname fun p _ _ hn => ?_
    refine serves_call ⟨named_one hn, trivial⟩ trivial size_next ?_
    cases hl : l.store.files.lookup p.tail.bytes with
    | none => exact .done _ _
    | some bytes =>
      have hle := Store.length_le_total hl
      have hfits := l.store.fits
      dsimp only
      rw [if_neg (show ¬ ((bytes.length : ℤ) < 0) by omega)]
      by_cases heof : offset ≥ bytes.length
      · rw [if_pos heof, if_pos heof]
        exact .done _ _
      · rw [if_neg heof, if_neg heof]
        have hsub : subI64 (bytes.length : ℤ) offset = .ok ((bytes.length : ℤ) - offset) :=
          if_pos ⟨by omega, by omega⟩
        have hleft : toU64 ((bytes.length : ℤ) - offset) = bytes.length - offset.toNat := by
          rw [toU64_of_nonneg (by omega) (by omega)]
          omega
        refine Gives.lift hsub ?_
        rw [hleft]
        by_cases hlong : length > bytes.length - offset.toNat
        · rw [if_pos hlong, Nat.min_eq_right (by omega)]
          exact serves_fetch hn hl (by omega) h0 (by omega) (by omega)
        · rw [if_neg hlong, Nat.min_eq_left (by omega)]
          exact serves_fetch hn hl (by omega) h0 (by omega) hbuf

theorem serves_store (hn : name.bytes ≠ [] ∧ name.bytes.length < nameLen) (h0 : 0 ≤ offset)
    (hoff : offset < 2 ^ 32) (hlt : n < 2 ^ 32) (hbuf : n ≤ buf.length)
    (ha : (Call.write name offset.toNat n (buf.take n)).Allowed l) :
    Serves (storeBytes name offset n buf) l
      (⟨toI32 n, []⟩, l.after (.write name offset.toNat n (buf.take n))) := by
  unfold storeBytes
  rw [toU64_of_nonneg h0 (by omega)]
  refine Gives.lift (x := buf.take n) ?_ ?_
  · rw [take_eq_slice]
    exact memRead_eq_ok.mpr ⟨⟨le_rfl, by omega⟩, rfl⟩
  · refine serves_call ⟨named_one hn, ?_⟩ ha (next_done rfl) (.done _ _)
    show offset.toNat < 2 ^ 32 ∧ n < 2 ^ 32 ∧ n ≤ (buf.take n).length
    rw [List.length_take]
    omega

/-- Reading the room that is left. -/
theorem serves_space (hcap : l.store.capacity ≤ 2 ^ 31) (h : Serves (k ((l.free : ℕ), [])) l x) :
    Serves (.step .space k) l x := by
  have hfits := l.store.fits
  have hfree : toU64 ((l.store.capacity : ℤ) - total l.store.files.entries) = l.free := by
    rw [toU64_of_nonneg (by omega) (by omega)]
    unfold Ledger.free
    omega
  refine Gives.step (a := Access.space) trivial ?_
  show Serves (k (((toU64 ((l.store.capacity : ℤ) - total l.store.files.entries) : ℕ) : ℤ), [])) l x
  rw [hfree]
  exact h

theorem serves_write {buf : Option (List UInt8)} (hcap : l.store.capacity ≤ 2 ^ 31)
    (hp : (Request.write path buf length offset).Proper l) :
    Serves (myfuseWrite path buf length offset) l
      ((Request.write path buf length offset).serve l) := by
  obtain ⟨hname, h0, hlt, hallowed⟩ := hp
  cases buf with
  | none => exact .done _ _
  | some buf =>
    refine serves_onFile hname fun p hpath hroot hn => ?_
    have hallowed := hallowed buf rfl p hpath hroot
    refine serves_call ⟨named_one hn, trivial⟩ trivial size_next ?_
    cases hl : l.store.files.lookup p.tail.bytes with
    | none => exact .done _ _
    | some bytes =>
      obtain ⟨hbuf, ha⟩ := hallowed bytes hl
      have hle := Store.length_le_total hl
      have hfits := l.store.fits
      have hfree : l.free ≤ l.store.capacity := Nat.sub_le _ _
      dsimp only
      rw [if_neg (show ¬ ((bytes.length : ℤ) < 0) by omega)]
      by_cases hbehind : offset > bytes.length
      · rw [if_pos hbehind, if_pos hbehind]
        exact .done _ _
      · rw [if_neg hbehind, if_neg hbehind]
        refine serves_space hcap ?_
        -- the difference is a `size_t`, so a write inside the file counts as one that does not fit
        have hcmp : ((toU64 (offset + length - (bytes.length : ℤ)) : ℕ) : ℤ) > (l.free : ℕ) ↔
            offset.toNat + length < bytes.length ∨
              bytes.length + l.free < offset.toNat + length := by
          unfold toU64
          omega
        unfold clamped at hbuf ha ⊢
        by_cases hclamp : offset.toNat + length < bytes.length ∨
            bytes.length + l.free < offset.toNat + length
        · rw [if_pos hclamp] at hbuf ha ⊢
          rw [if_pos (hcmp.mpr hclamp)]
          refine serves_space hcap ?_
          exact serves_store hn h0 (by omega) (by omega) hbuf ha
        · rw [if_neg hclamp] at hbuf ha ⊢
          rw [if_neg fun h => hclamp (hcmp.mp h)]
          exact serves_store hn h0 (by omega) hlt hbuf ha

end Bytes

/-- **Requests.**  Every request that keeps the contract comes to the reply in the table. -/
theorem serves_request (hcap : l.store.capacity ≤ 2 ^ 31) (hp : r.Proper l) :
    Serves r.handler l (r.serve l) := by
  cases r with
  | unlink path => exact serves_unlink hp
  | rename oldpath newpath => exact serves_rename hp
  | truncate path length => exact serves_truncate hp
  | openFile path => exact serves_open hp
  | create path => exact serves_create hp
  | read path buf length offset => exact serves_read hcap hp
  | write path buf length offset => exact serves_write hcap hp

/-! ### Operations -/

/-- Alone and within the contract the operation comes to the response and the ledger. -/
abbrev Operation.Gives (o : Operation) (l : Ledger) : Prop :=
  Interleave.Gives Touch.next Touch.Allowed o.program l (o.serve l).1 (o.serve l).2

theorem getattr_gives {path : CString} (hn : NamesFile (some path)) :
    (Operation.getattr path).Gives l := by
  show Interleave.Gives _ _ (myfuseGetattr path) l _ _
  have hslash : strncmp path.bytes [47] 1 ≠ 0 ↔ path.bytes.head? ≠ some 47 := by
    cases path with
    | mk bytes hnul =>
      cases bytes with
      | nil => simp [strncmp]
      | cons b bytes =>
        by_cases hb : b = 47
        · simp [strncmp, hb]
        · have hne : b.toNat ≠ 47 := fun h => hb (UInt8.toNat_inj.mp h)
          simp [strncmp, hb]
          omega
  by_cases hhead : path.bytes.head? ≠ some 47
  · rw [show myfuseGetattr path = _ from if_pos (hslash.mpr hhead),
      show (Operation.getattr path).serve l = _ from if_pos hhead]
    exact .done _ _
  by_cases hroot : isRoot path
  · rw [show myfuseGetattr path = _ from (if_neg (mt hslash.mp hhead)).trans (if_pos hroot),
      show (Operation.getattr path).serve l = _ from (if_neg hhead).trans (if_pos hroot)]
    exact Interleave.Gives.step (a := Touch.used) trivial (.done _ _)
  · rw [show myfuseGetattr path = _ from (if_neg (mt hslash.mp hhead)).trans (if_neg hroot),
      show (Operation.getattr path).serve l = _ from (if_neg hhead).trans (if_neg hroot)]
    have hname := hn path rfl hroot
    cases path with
    | mk bytes hnul =>
      cases bytes with
      | nil => exact absurd rfl hname.1
      | cons b bytes =>
        have hfree : (0 : UInt8) ∉ bytes := fun h0 => hnul (List.mem_cons_of_mem _ h0)
        have hsize : Touch.Allowed (.access (.call (.size ⟨bytes, hfree⟩))) l :=
          ⟨⟨named_one hname, trivial⟩, trivial⟩
        refine Interleave.Gives.step hsize ?_
        have hnext : Touch.next (.access (.call (.size ⟨bytes, hfree⟩))) l = _ := size_next
        rw [hnext, show (CString.tail ⟨b :: bytes, hnul⟩).bytes = bytes from rfl]
        cases l.store.files.lookup bytes with
        | none => exact .done _ _
        | some data =>
          dsimp only
          rw [if_neg (by omega)]
          exact .done _ _

/-- The loop of the listing collects the names from `i` on. -/
theorem fillNames_gives : ∀ (n i : ℕ) (names : List (List UInt8)),
    i + n = l.store.files.entries.length →
    Interleave.Gives Touch.next Touch.Allowed (fillNames i n names) l
      (.names 0 (names ++ (sortedNames l.store).drop i)) l := by
  have hlen : (sortedNames l.store).length = l.store.files.entries.length :=
    (List.length_insertionSort _ _).trans (List.length_map _)
  intro n
  induction n with
  | zero =>
    intro i names hi
    rw [List.drop_of_length_le (by omega), List.append_nil]
    exact .done _ _
  | succ n ih =>
    intro i names hi
    have hdrop : (sortedNames l.store).drop i =
        (sortedNames l.store).getD i [] :: (sortedNames l.store).drop (i + 1) := by
      rw [List.drop_eq_getElem_cons (by omega), List.getD_eq_getElem?_getD,
        List.getElem?_eq_getElem (by omega), Option.getD_some]
    refine Interleave.Gives.step (a := Touch.listName i) (show i < _ by omega) ?_
    rw [hdrop, List.append_cons names ((sortedNames l.store).getD i [])]
    exact ih (i + 1) _ (by omega)

theorem readdir_gives {path : CString} : (Operation.readdir path).Gives l := by
  show Interleave.Gives _ _ (myfuseReaddir path) l _ _
  by_cases hroot : isRoot path
  · rw [show myfuseReaddir path = _ from if_pos hroot,
      show (Operation.readdir path).serve l = _ from if_pos hroot]
    exact Interleave.Gives.step (a := Touch.listSize) trivial
      (fillNames_gives _ 0 [] (Nat.zero_add _))
  · rw [show myfuseReaddir path = _ from if_neg hroot,
      show (Operation.readdir path).serve l = _ from if_neg hroot]
    exact .done _ _

theorem operation_gives {o : Operation} (hcap : l.store.capacity ≤ 2 ^ 31) (hp : o.Proper l) :
    o.Gives l := by
  cases o with
  | file r => exact Interleave.Gives.map (serves_request hcap hp)
  | getattr path => exact getattr_gives hp
  | readdir path => exact readdir_gives
  | release => exact .done _ _

end Serve

/-! ## The daemon from its start to its end -/

section Run

variable {k : ℕ} {s : Filesys} {l : Ledger} {o : Operation} {file dir hash : List UInt8}

/-- An operation served alone. -/
def Operation.run (o : Operation) (s : Filesys) : Run (Response × Filesys) :=
  o.program.alone Touch.exec s

/-- An operation that keeps the contract is served as the table says. -/
theorem Operation.run_follows (hs : InStep k s l) (hk : k ≤ 23) (hp : o.Proper l) :
    ∃ s', o.run s = .ok ((o.serve l).1, s') ∧ InStep k s' (o.serve l).2 := by
  obtain ⟨hfdl, -, -, -, hcap, -⟩ := hs.healthy.sound.sizes hk hs.describes.represents
  have hsim : ∀ a s l, InStep k s l → Touch.Allowed a l →
      ∃ s', a.exec s = .ok ((a.next l).1, s') ∧ InStep k s' (a.next l).2 :=
    fun a s l hs ha => Touch.exec_follows hs hk ha
  exact (operation_gives (by omega) hp).refines hsim s hs

/-- **The daemon.**  Started on valid images whose hashes are right, it replies to every sequence of
operations that keeps the contract as the table says; when it is stopped, the images describe the
files of the table and every record is freed. -/
theorem daemon_serves (h : ValidImages k file dir hash) :
    ∃ s₀ m, myfuseInit (some file) (some dir) (some hash) = .ok (some s₀) ∧
      m.files.entries.Perm (imageFiles (dir.length / metaLen) file dir) ∧
      m.capacity = file.length ∧ m.maxFiles = dir.length / metaLen ∧
      (Coherent k s₀ → ∀ (ops : List Operation) (l₀ : Ledger),
        l₀ = ⟨m, imagesPacked (dir.length / metaLen) file dir⟩ →
        Trace.Along (answering Fault Operation.serve) Operation.Proper ops l₀ →
        ∃ rs s l, Trace.run Operation.run ops s₀ = .ok (rs, s) ∧
          Trace.run (answering Fault Operation.serve) ops l₀ = .ok (rs, l) ∧
          Leaves k s l ∧ myfuseDestroy (some s) = .ok []) := by
  obtain ⟨s₀, m, hr, hw, hm, hpf, hfiles, hcap, hmax, hd⟩ := h.mount
  refine ⟨s₀, m, ?_, hfiles, hcap, hmax, fun hc ops l₀ hl₀ hp => ?_⟩
  · show (initFs file dir hash >>= fun s => pure (some s)) = _
    rw [hr]
    rfl
  have hin : InStep k s₀ l₀ := by
    rw [hl₀]
    exact hw.inStep hm hpf hc hd
  obtain ⟨rs, s, l, hrun, htable, hs⟩ := @Trace.run_follows _ _ _ _ _ Operation.run Operation.serve
    (InStep k) Operation.Proper (fun o s l hs hp => Operation.run_follows hs h.depth hp) ops s₀ l₀
    hin hp
  have hleaves := hs.leaves h.depth
  exact ⟨rs, s, l, hrun, htable, hleaves, hleaves.freed⟩

end Run

/-- The path of a file whose name is one byte. -/
def bytePath (b : UInt8) (h : 0 ≠ b) : CString := (CString.ofByte b h).path

/-- Two files are created, the first of them is written and read, and the root is listed. -/
def listingOps : List Operation :=
  [.file (.create (some (bytePath 98 nul_ne_98))),
    .file (.write (some (bytePath 98 nul_ne_98)) (some [7, 8, 9]) 3 0),
    .file (.create (some (bytePath 97 nul_ne_97))),
    .file (.read (some (bytePath 98 nul_ne_98)) (some [0, 0, 0, 0]) 4 1),
    .getattr (bytePath 98 nul_ne_98), .readdir rootPath]

set_option maxRecDepth 20000 in
/-- The bytes written are read behind the offset, and the names are listed in order. -/
theorem daemon_serves_listing : ∃ s₀ rs s l,
    myfuseInit (some (zeros 256)) (some (zeros 216)) (some (zeros 16)) = .ok (some s₀) ∧
    Trace.run Operation.run listingOps s₀ = .ok (rs, s) ∧
    rs.drop 3 = [.reply ⟨2, [8, 9, 0, 0]⟩, .attr 0 (some ⟨3, .regular⟩), .names 0 [[97], [98]]] ∧
    Leaves 0 s l := by
  have hblank : ValidImages 0 (zeros 256) (zeros 216) (zeros 16) :=
    blank_valid (n := 3) (by decide) (by decide) (by decide)
  obtain ⟨s₀, m, hinit, hperm, hcap, hmax, hrun⟩ := daemon_serves hblank
  have himage : imageFiles ((zeros 216).length / metaLen) (zeros 256) (zeros 216) = [] := by
    decide +kernel
  have hpacked : imagesPacked ((zeros 216).length / metaLen) (zeros 256) (zeros 216) = true := by
    decide +kernel
  rw [himage] at hperm
  obtain rfl : m = Store.empty _ 256 3 := by
    obtain ⟨⟨entries, hnd⟩, capacity, maxFiles, h1, h2⟩ := m
    obtain rfl : entries = _ := List.perm_nil.mp hperm
    obtain rfl : capacity = _ := hcap
    obtain rfl : maxFiles = _ := hmax
    rfl
  have hc : Coherent 0 s₀ := by
    obtain ⟨s', hr, he⟩ := Run.bind_eq_ok.mp (show (initFs (zeros 256) (zeros 216) (zeros 16) >>=
      fun s => pure (some s)) = .ok (some s₀) from hinit)
    obtain rfl : s' = s₀ := Option.some_inj.mp (Except.ok.inj he)
    obtain ⟨-, hfile, -, hhash, -⟩ := initFs_scanned hr
    exact coherent_of_zeros hfile hhash
  obtain ⟨rs, s, l, hex, htable, hleaves, -⟩ := hrun hc listingOps ⟨Store.empty _ 256 3, true⟩
    (by rw [hpacked]) (by decide +kernel)
  refine ⟨s₀, rs, s, l, hinit, hex, ?_, hleaves⟩
  obtain ⟨x, hx, hlast⟩ := Run.holds_iff.mp
    (show Run.Holds (Trace.run (answering Fault Operation.serve) listingOps
      ⟨Store.empty _ 256 3, true⟩) (fun x => x.1.drop 3 = [.reply ⟨2, [8, 9, 0, 0]⟩,
        .attr 0 (some ⟨3, .regular⟩), .names 0 [[97], [98]]]) by decide +kernel)
  obtain rfl := Except.ok.inj (htable.symm.trans hx)
  exact hlast

end Vfs
