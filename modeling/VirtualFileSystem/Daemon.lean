import VirtualFileSystem.FuseRuns
import VirtualFileSystem.Session

/-!
# The daemon (`myfuse.c`)

All handlers of `operations`.  `myfuse_getattr` and `myfuse_readdir` read the filesystem without its
lock: `used`, the size of `n_list`, and then one name after the other.  Under any interleaving that
keeps the contract the daemon gives the replies it would give over the reference store, where a
listing is the sorted list of names.
-/

namespace Vfs

open FlatImage ByteStore Interleave

/-! ## Handlers that take no lock -/

/-- One access of any handler: those of the handlers that lock, `used`, the size of `n_list`, and
the name of one of its files. -/
inductive Touch
  | access (a : Access)
  | used
  | listSize
  | listName (i : ℕ)

/-- Behind the end of `n_list` the code reads a pointer that a removal left there and that may no
longer be valid.  Here such a read is a fault. -/
def Touch.exec : Touch → Filesys → Run (Answer × Filesys)
  | .access a, s => a.exec s
  | .used, s => pure ((s.used, []), s)
  | .listSize, s => pure ((s.nList.size, []), s)
  | .listName i, s =>
    match s.nList.list[i]? with
    | some p => pure ((0, (s.heap p).name.bytes), s)
    | none => .error .outOfBounds

/-- `st_mode`: null, `S_IFDIR` or `S_IFREG`. -/
inductive Mode
  | unset
  | directory
  | regular
  deriving DecidableEq, Repr

/-- The fields of `struct stat` that are set. -/
structure Stat where
  size : ℤ
  mode : Mode
  deriving DecidableEq, Repr

/-- What a handler leaves: its code and buffer, the attributes it filled in, or the names it passed
to `filler`. -/
inductive Response
  | reply (r : Reply)
  | attr (code : ℤ) (stat : Option Stat)
  | names (code : ℤ) (names : List (List UInt8))
  deriving DecidableEq, Repr

abbrev Program := Prog Touch Answer Fault Response

def enotdir : ℤ := 20

theorem nul_notMem_tail {b : UInt8} {name : List UInt8} (h : 0 ∉ b :: name) : 0 ∉ name :=
  fun h0 => h (List.mem_cons_of_mem _ h0)

/-- `myfuse_getattr`: the attributes are cleared once the path is known to begin with a slash. -/
def myfuseGetattr (path : CString) : Program :=
  if strncmp path.bytes [47] 1 ≠ 0 then .done (.attr (-einval) none)
  else if isRoot path then
    .step .used fun used => .done (.attr 0 (some ⟨used.1, .directory⟩))
  else match path with
    | ⟨[], _⟩ => .fail .outOfBounds
    | ⟨_ :: name, h⟩ =>
      .step (.access (.call (.size ⟨name, nul_notMem_tail h⟩))) fun size =>
        if size.1 < 0 then .done (.attr (-enoent) (some ⟨0, .unset⟩))
        else .done (.attr 0 (some ⟨size.1, .regular⟩))

/-- The loop of `myfuse_readdir` over `n` names from `i` on. -/
def fillNames : ℕ → ℕ → List (List UInt8) → Program
  | _, 0, names => .done (.names 0 names)
  | i, n + 1, names => .step (.listName i) fun name => fillNames (i + 1) n (names ++ [name.2])

/-- `myfuse_readdir`: the size of `n_list` is read once. -/
def myfuseReaddir (path : CString) : Program :=
  if isRoot path then .step .listSize fun size => fillNames 0 size.1.toNat []
  else .done (.names (-enotdir) [])

/-- `myfuse_release`. -/
def myfuseRelease : Program := .done (.reply ⟨0, []⟩)

/-- `myfuse_init`, where a file is given by its bytes and a missing file name by `none`. -/
def myfuseInit (fileData directoryTable hashData : Option (List UInt8)) : Run (Option Filesys) :=
  match fileData, directoryTable, hashData with
  | some file, some dir, some hash => do
    let s ← initFs file dir hash
    pure (some s)
  | _, _, _ => pure none

/-- `myfuse_destroy`. -/
def myfuseDestroy (fs : Option Filesys) : Run (List Ptr) :=
  match fs with
  | none => pure []
  | some s => closeFs (some s)

/-- A request to the daemon. -/
inductive Operation
  | file (r : Request)
  | getattr (path : CString)
  | readdir (path : CString)
  | release

def Operation.program : Operation → Program
  | .file r => r.handler.map .access .reply
  | .getattr path => myfuseGetattr path
  | .readdir path => myfuseReaddir path
  | .release => myfuseRelease

/-- One operation a thread, none of which has made an access. -/
def serving {σ : Type} (ops : ℕ → Operation) (s : σ) : Config Touch Answer Fault Response σ :=
  ⟨s, fun i => (ops i).program⟩

/-! ## The order of the names -/

/-- Byte strings in the order of their first differing bytes. -/
def ByteLE (a b : List UInt8) : Prop := a.map UInt8.toNat ≤ b.map UInt8.toNat

instance : DecidableRel ByteLE := fun a b => by unfold ByteLE; infer_instance

instance : Std.Total ByteLE := ⟨fun _ _ => le_total _ _⟩

instance : IsTrans (List UInt8) ByteLE := ⟨fun _ _ _ => le_trans⟩

theorem ByteLE.antisymm {a b : List UInt8} (hab : ByteLE a b) (hba : ByteLE b a) : a = b :=
  List.map_injective_iff.mpr (fun _ _ h => UInt8.toNat_inj.mp h) (le_antisymm hab hba)

/-- The names in the order of their bytes. -/
def sortedNames (m : Store (List UInt8)) : List (List UInt8) := m.files.keys.insertionSort ByteLE

section Names

variable {s : Filesys} {m : Store (List UInt8)}

/-- `strncmp` compares bytes. -/
theorem strncmp_neg_iff : ∀ (n : ℕ) (xs ys : List UInt8), 0 ∉ xs → 0 ∉ ys →
    (strncmp xs ys n < 0 ↔ (xs.take n).map UInt8.toNat < (ys.take n).map UInt8.toNat)
  | 0, xs, ys, _, _ => by simp [strncmp]
  | n + 1, [], [], _, _ => by simp [strncmp]
  | n + 1, [], y :: ys, _, hy => by
    have hy0 : y ≠ 0 := fun h => hy (h ▸ List.mem_cons_self)
    have hpos : 0 < y.toNat := Nat.pos_of_ne_zero fun h => hy0 (UInt8.toNat_inj.mp h)
    simp [strncmp, hpos]
  | n + 1, x :: xs, [], _, _ => by
    simp [strncmp]
  | n + 1, x :: xs, y :: ys, hx, hy => by
    have ih := strncmp_neg_iff n xs ys (fun h => hx (List.mem_cons_of_mem _ h))
      (fun h => hy (List.mem_cons_of_mem _ h))
    unfold strncmp
    rw [List.take_succ_cons, List.take_succ_cons, List.map_cons, List.map_cons,
      List.cons_lt_cons_iff]
    by_cases hxy : x = y
    · subst hxy
      rw [if_pos rfl, ih]
      simp
    · rw [if_neg hxy]
      have hne : x.toNat ≠ y.toNat := fun h => hxy (UInt8.toNat_inj.mp h)
      omega

theorem nameCmp_neg_iff (a b : FileName) :
    nameCmp a b < 0 ↔ a.bytes.map UInt8.toNat < b.bytes.map UInt8.toNat := by
  unfold nameCmp
  rw [strncmp_neg_iff _ _ _ a.nul_free b.nul_free, a.take_bytes, b.take_bytes]

/-- `n_list` holds the names of the store in order. -/
theorem Represents.sortedNames (hrep : Represents s m) (hperm : s.nList.list.Perm s.live)
    (hn : NameSorted s.heap s.nList.list) :
    (s.nList.list.map fun p => (s.heap p).name.bytes) = Vfs.sortedNames m := by
  have hkeys : (s.nList.list.map fun p => (s.heap p).name.bytes).Perm m.files.keys := by
    refine (hperm.map _).trans ?_
    have hmap := hrep.files.map Sigma.fst
    unfold contents at hmap
    rw [List.map_map] at hmap
    exact hmap
  refine List.Perm.eq_of_pairwise (fun a b _ _ => ByteLE.antisymm) ?_
    (List.pairwise_insertionSort ByteLE _) (hkeys.trans (List.perm_insertionSort ByteLE _).symm)
  rw [List.pairwise_map]
  exact List.Pairwise.imp (fun h => ((nameCmp_neg_iff _ _).mp h).le) hn

end Names

/-! ## The daemon over the reference store -/

/-- What an access answers and does to the ledger. -/
def Touch.next : Touch → Ledger → Answer × Ledger
  | .access (.call c), l => (Action.call c).next l
  | .access .space, l =>
    ((toU64 ((l.store.capacity : ℤ) - total l.store.files.entries), []), l)
  | .used, l => ((total l.store.files.entries, []), l)
  | .listSize, l => ((l.store.files.entries.length, []), l)
  | .listName i, l => ((0, (sortedNames l.store).getD i []), l)

/-- The contract for one access: calls keep it, and a listing ends where the list does. -/
def Touch.Allowed : Touch → Ledger → Prop
  | .access (.call c), l => c.Small ∧ c.Allowed l
  | .listName i, l => i < l.store.files.entries.length
  | .access .space, _ | .used, _ | .listSize, _ => True

instance decidableTouch : ∀ (a : Touch) (l : Ledger), Decidable (a.Allowed l)
  | .access (.call c), l => inferInstanceAs (Decidable (c.Small ∧ c.Allowed l))
  | .listName i, l => inferInstanceAs (Decidable (i < l.store.files.entries.length))
  | .access .space, _ | .used, _ | .listSize, _ => .isTrue trivial

section Follow

variable {k : ℕ} {s : Filesys} {l : Ledger} {a : Touch}

/-- An allowed access completes, answers as the ledger says and leaves both in step. -/
theorem Touch.exec_follows (hs : InStep k s l) (hk : k ≤ 23) (ha : a.Allowed l) :
    ∃ s', a.exec s = .ok ((a.next l).1, s') ∧ InStep k s' (a.next l).2 := by
  obtain ⟨-, -, -, htotal, hcap, -⟩ := hs.healthy.sound.sizes hk hs.describes.represents
  have hperm := hs.healthy.sound.mirror.liveOk.perm
  have hcount : s.nList.size = l.store.files.entries.length := by
    rw [hs.describes.represents.count]
    exact hperm.length_eq
  cases a with
  | access a =>
    cases a with
    | call c =>
      have ha : (Action.call c).Allowed l := ha
      exact Action.exec_follows hs hk ha
    | space =>
      refine ⟨s, ?_, hs⟩
      show Except.ok ((((toU64 (s.fileDataLen - s.used) : ℕ) : ℤ), []), s) = _
      rw [← htotal, ← hcap]
      rfl
  | used =>
    refine ⟨s, ?_, hs⟩
    show Except.ok ((s.used, []), s) = _
    rw [← htotal]
    rfl
  | listSize =>
    refine ⟨s, ?_, hs⟩
    show Except.ok (((s.nList.size : ℤ), []), s) = _
    rw [hcount]
    rfl
  | listName i =>
    have hi : i < s.nList.list.length := by
      rw [show s.nList.list.length = _ from hcount]
      exact ha
    have hget : s.nList.list[i]? = some s.nList.list[i] := List.getElem?_eq_getElem hi
    have hname : (sortedNames l.store).getD i [] = (s.heap s.nList.list[i]).name.bytes := by
      rw [← hs.describes.represents.sortedNames hperm hs.healthy.sound.names,
        List.getD_eq_getElem?_getD, List.getElem?_map, hget]
      rfl
    refine ⟨s, ?_, hs⟩
    show Touch.exec (.listName i) s = .ok ((0, (sortedNames l.store).getD i []), s)
    rw [hname]
    simp only [Touch.exec, hget, Run.pure_eq]

/-- The threads take the same turns over the filesystem as over the ledger. -/
theorem serving_follows (hs : InStep k s l) (hk : k ≤ 23) {ops : ℕ → Operation}
    {schedule : List ℕ} {d : Config Touch Answer Fault Response Ledger}
    {es : List (Option (Event Touch Answer Ledger))}
    (hall : Trace.Along (turn (answering Fault Touch.next)) (Ready Touch.Allowed) schedule
      (serving ops l))
    (hrun : Trace.run (turn (answering Fault Touch.next)) schedule (serving ops l) = .ok (es, d)) :
    ∃ es' c, Trace.run (turn Touch.exec) schedule (serving ops s) = .ok (es', c) ∧
      c.threads = d.threads ∧ InStep k c.shared d.shared := by
  have hsim : ∀ a s l, InStep k s l → Touch.Allowed a l →
      ∃ s', a.exec s = .ok ((a.next l).1, s') ∧ InStep k s' (a.next l).2 :=
    fun a s l hs ha => Touch.exec_follows hs hk ha
  exact turns_refine hsim schedule (serving ops s) (serving ops l) d es rfl hs hall hrun

/-- **The daemon under any interleaving.**  As long as the accesses keep the contract the threads
come to the same ends over the filesystem as over the reference store. -/
theorem daemon_refines (hs : InStep k s l) (hk : k ≤ 23) {ops : ℕ → Operation}
    {schedule : List ℕ} {d : Config Touch Answer Fault Response Ledger}
    {es : List (Option (Event Touch Answer Ledger))}
    (hall : Trace.Along (turn (answering Fault Touch.next)) (Ready Touch.Allowed) schedule
      (serving ops l))
    (hrun : Trace.run (turn (answering Fault Touch.next)) schedule (serving ops l) = .ok (es, d)) :
    ∃ es' c, Trace.run (turn Touch.exec) schedule (serving ops s) = .ok (es', c) ∧
      c.threads = d.threads ∧ Leaves k c.shared d.shared := by
  obtain ⟨es', c, hr, hthreads, hend⟩ := serving_follows hs hk hall hrun
  exact ⟨es', c, hr, hthreads, hend.leaves hk⟩

end Follow

/-- The path `/`. -/
def rootPath : CString := ⟨[47], by decide⟩

/-- The root is listed while `b` is created. -/
def listedOps : ℕ → Operation
  | 0 => .readdir rootPath
  | 1 => .file (.create (some ⟨[47, 98], by decide⟩))
  | _ => .release

set_option maxRecDepth 20000 in
/-- A listing that began before the file was created does not show it. -/
theorem daemon_refines_listing : ∃ s es c l, initFs (zeros 256) soloDir (zeros 16) = .ok s ∧
    Trace.run (turn Touch.exec) [0, 1, 0, 0, 1] (serving listedOps s) = .ok (es, c) ∧
    (c.threads 0).result = some (.names 0 [[97]]) ∧
    (c.threads 1).result = some (.reply ⟨0, []⟩) ∧ Leaves 0 c.shared l := by
  obtain ⟨s, hr, hs⟩ := solo_mounted
  obtain ⟨⟨es, d⟩, hrun, hlisted, hcreated⟩ := Run.holds_iff.mp
    (show Run.Holds (Trace.run (turn (answering Fault Touch.next)) [0, 1, 0, 0, 1]
      (serving listedOps ⟨soloStore, false⟩)) (fun x =>
        (x.2.threads 0).result = some (.names 0 [[97]]) ∧
        (x.2.threads 1).result = some (.reply ⟨0, []⟩)) by decide +kernel)
  obtain ⟨es', c, hexec, hthreads, hleaves⟩ :=
    daemon_refines hs (by decide) (by decide +kernel) hrun
  rw [← hthreads] at hlisted hcreated
  exact ⟨s, es', c, d.shared, hr, hexec, hlisted, hcreated, hleaves⟩

end Vfs
