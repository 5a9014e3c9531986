import VirtualFileSystem.Lib.Regions
import VirtualFileSystem.Serve

/-!
# Requests that keep apart

A request takes the lock several times, and others may come in between.  It is served as if it were
alone if no other request writes what it reads: the bytes of its files, the names, the number of
bytes in use.
-/

namespace Vfs

open FlatImage ByteStore Interleave

/-- A region of the reference store. -/
abbrev Area := Region (List UInt8)

/-! ## What calls read and write -/

/-- Creating an empty file does not depend on the bytes in use. -/
def Call.reads : Call → List Area
  | .create name length => [.bytes name.bytes, .names] ++ if length = 0 then [] else [.room]
  | .resize name _ | .write name _ _ _ => [.bytes name.bytes, .room]
  | .delete name | .read name _ _ | .size name => [.bytes name.bytes]
  | .rename old new => [.bytes old.bytes, .bytes new.bytes]
  | .repack => []

def Call.writes : Call → List Area
  | .create name length => [.bytes name.bytes, .names] ++ if length = 0 then [] else [.room]
  | .resize name _ | .write name _ _ _ => [.bytes name.bytes, .room]
  | .delete name => [.bytes name.bytes, .names, .room]
  | .rename old new => [.bytes old.bytes, .bytes new.bytes, .names]
  | .repack | .read _ _ _ | .size _ => []

def Touch.reads : Touch → List Area
  | .access (.call c) => c.reads
  | .access .space | .used => [.room]
  | .listSize | .listName _ => [.names]

def Touch.writes : Touch → List Area
  | .access (.call c) => c.writes
  | .access .space | .used | .listSize | .listName _ => []

section Calls

variable {m m' : Store (List UInt8)} {c : Call} {x : Area} 
  {f : Store (List UInt8) → ℤ × Store (List UInt8)}

theorem agree_coded (h : Store.Agree f m m') : Store.Agree (fun m => coded (f m)) m m' :=
  ⟨congrArg (fun code => (code, [])) h.answer, h.effect⟩

/-- What a call answers and leaves depends on what it reads. -/
theorem Call.reference_agree (h : ∀ x ∈ c.reads, Store.Alike x m m') :
    Store.Agree c.reference m m' := by
  cases c with
  | create name length =>
    refine agree_coded (Store.create_agree (h _ (by simp [Call.reads])) (h _ (by simp [Call.reads]))
      fun h0 => h _ (by simp [Call.reads, h0]))
  | resize name length =>
    exact agree_coded (Store.resize_agree (h _ (by simp [Call.reads])) (h _ (by simp [Call.reads])))
  | write name offset count buf =>
    exact agree_coded (Store.write_agree (h _ (by simp [Call.reads])) (h _ (by simp [Call.reads])))
  | delete name => exact agree_coded (Store.delete_agree (h _ (by simp [Call.reads])))
  | rename old new =>
    exact agree_coded (Store.rename_agree (h _ (by simp [Call.reads])) (h _ (by simp [Call.reads])))
  | repack => exact ⟨rfl, fun _ => id⟩
  | read name offset count =>
    exact ⟨Store.read_alike (h _ (by simp [Call.reads])), fun _ => id⟩
  | size name =>
    have hsize := Store.size_alike (h (.bytes name.bytes) (by simp [Call.reads]))
    exact ⟨congrArg (fun size => (size, [])) hsize, fun _ => id⟩

/-- A call leaves the regions that it does not write. -/
theorem Call.reference_alike (hx : x ∉ c.writes) : Store.Alike x m (c.reference m).2 := by
  cases c with
  | create name length =>
    simp only [Call.writes, List.mem_append, List.mem_cons, not_or] at hx
    obtain ⟨⟨hb, hk, -⟩, hr⟩ := hx
    refine Store.create_alike hb hk fun he => ?_
    by_contra h0
    rw [if_neg h0, he] at hr
    exact hr (List.mem_singleton_self _)
  | resize name length =>
    simp only [Call.writes, List.mem_cons, not_or] at hx
    exact Store.resize_alike hx.1 hx.2.1
  | write name offset count buf =>
    simp only [Call.writes, List.mem_cons, not_or] at hx
    exact Store.write_alike hx.1 hx.2.1
  | delete name =>
    simp only [Call.writes, List.mem_cons, not_or] at hx
    exact Store.delete_alike hx.1 hx.2.1 hx.2.2.1
  | rename old new =>
    simp only [Call.writes, List.mem_cons, not_or] at hx
    exact Store.rename_alike hx.1 hx.2.1 hx.2.2.1
  | repack => exact Store.Alike.refl x m
  | read name offset count => exact Store.Alike.refl x m
  | size name => exact Store.Alike.refl x m

/-- Names that are the same are listed in the same order. -/
theorem sortedNames_eq (h : m.files.keys.Perm m'.files.keys) : sortedNames m = sortedNames m' := by
  refine List.Perm.eq_of_pairwise (fun a b _ _ => ByteLE.antisymm)
    (List.pairwise_insertionSort ByteLE _) (List.pairwise_insertionSort ByteLE _) ?_
  exact (List.perm_insertionSort ByteLE _).trans (h.trans (List.perm_insertionSort ByteLE _).symm)

end Calls

/-- The regions that the accesses of the daemon read and write. -/
def touchFootprints : Footprints Touch.next Area where
  alike := fun x l l' => Store.Alike x l.store l'.store
  reads := fun a => {x | x ∈ a.reads}
  writes := fun a => {x | x ∈ a.writes}
  trans := fun _ _ _ _ => Store.Alike.trans
  answer := fun a l l' h => by
    cases a with
    | access a =>
      cases a with
      | call c => exact (Call.reference_agree h).answer
      | space =>
        have hroom := h .room (List.mem_singleton_self _)
        have ht : total l.store.files.entries = total l'.store.files.entries := hroom.region
        simp only [Touch.next, hroom.capacity, ht]
    | used =>
      have ht : total l.store.files.entries = total l'.store.files.entries :=
        (h .room (List.mem_singleton_self _)).region
      simp only [Touch.next, ht]
    | listSize =>
      have hk : l.store.files.keys.Perm l'.store.files.keys :=
        (h .names (List.mem_singleton_self _)).region
      have hlen := hk.length_eq
      simp only [AList.keys, List.keys, List.length_map] at hlen
      simp only [Touch.next, hlen]
    | listName i =>
      have hk : l.store.files.keys.Perm l'.store.files.keys :=
        (h .names (List.mem_singleton_self _)).region
      simp only [Touch.next, sortedNames_eq hk]
  effect := fun a l l' h x hx => by
    cases a with
    | access a =>
      cases a with
      | call c => exact (Call.reference_agree h).effect x hx
      | space => exact hx
    | used => exact hx
    | listSize => exact hx
    | listName i => exact hx
  frame := fun a l x hx => by
    cases a with
    | access a =>
      cases a with
      | call c => exact Call.reference_alike hx
      | space => exact Store.Alike.refl x _
    | used => exact Store.Alike.refl x _
    | listSize => exact Store.Alike.refl x _
    | listName i => exact Store.Alike.refl x _

/-! ## What requests read and write -/

/-- The bytes of the file that a path names. -/
def fileOf (path : Option CString) : List Area := path.toList.map fun path => .bytes path.tail.bytes

def Request.reads : Request → List Area
  | .unlink path | .openFile path | .read path _ _ _ => fileOf path
  | .rename old new => fileOf old ++ fileOf new
  | .truncate path _ | .write path _ _ _ => fileOf path ++ [.room]
  | .create path => fileOf path ++ [.names]

def Request.writes : Request → List Area
  | .unlink path => fileOf path ++ [.names, .room]
  | .rename old new => fileOf old ++ fileOf new ++ [.names]
  | .truncate path _ | .write path _ _ _ => fileOf path ++ [.room]
  | .create path => fileOf path ++ [.names]
  | .openFile _ | .read _ _ _ _ => []

/-- The size of the root is the number of bytes in use. -/
def Operation.reads : Operation → List Area
  | .file r => r.reads
  | .getattr path => if isRoot path then [.room] else fileOf (some path)
  | .readdir _ => [.names]
  | .release => []

def Operation.writes : Operation → List Area
  | .file r => r.writes
  | .getattr _ | .readdir _ | .release => []

/-- The access reads and writes what is listed. -/
def Touch.Within (reads writes : List Area) (a : Touch) : Prop :=
  a.reads ⊆ reads ∧ a.writes ⊆ writes

section Programs

variable {reads writes : List Area} {path : Option CString} {buf : List UInt8} {P : Access → Prop}
  {name : CString} {c : Call}

theorem only_reply (code : ℤ) : (reply code buf).Only P := .done _

theorem only_copyName {path : CString} {k : CString → Handler} (h : (k path.tail).Only P) :
    (copyName path k).Only P := by
  cases path with
  | mk bytes hnul =>
    cases bytes with
    | nil => exact .fail _
    | cons b bytes => exact h

theorem only_onFile {k : CString → Handler} (h : ∀ p ∈ path, (k p.tail).Only P) :
    (onFile path buf k).Only P := by
  cases path with
  | none => exact only_reply _
  | some p =>
    unfold onFile
    dsimp only
    split
    · exact only_reply _
    · exact only_copyName (h p rfl)

/-- Asking for the size of a file reads its bytes. -/
theorem within_size {p : CString} (hr : fileOf (some p) ⊆ reads) :
    (Touch.access (.call (.size p.tail))).Within reads writes := ⟨hr, List.nil_subset _⟩

theorem within_space (hr : .room ∈ reads) : (Touch.access .space).Within reads writes :=
  ⟨List.cons_subset.mpr ⟨hr, List.nil_subset _⟩, List.nil_subset _⟩

theorem only_codes {x y z : ℤ} {ret : Answer} :
    (if ret.1 = 1 then reply x [] else if ret.1 = 2 then reply y [] else reply z []).Only P := by
  split
  · exact only_reply x
  · split
    · exact only_reply y
    · exact only_reply z

theorem only_code {n x y : ℤ} {ret : Answer} :
    (if ret.1 = n then reply x [] else reply y []).Only P := by
  split
  · exact only_reply x
  · exact only_reply y

theorem only_fetchBytes {offset : ℤ} {n : ℕ}
    (h : P (.call (.read name (toU64 offset) n))) : (fetchBytes name offset n buf).Only P := by
  refine .step h fun ret => .lift fun buf => ?_
  split
  · exact only_reply _
  · exact only_reply _

theorem only_storeBytes {offset : ℤ} {n : ℕ}
    (h : ∀ bytes, P (.call (.write name (toU64 offset) n bytes))) :
    (storeBytes name offset n buf).Only P :=
  .lift fun bytes => .step (h bytes) fun _ => only_reply _

/-- The handlers keep to the regions listed for their request. -/
theorem Request.handler_only (r : Request) :
    r.handler.Only fun a => (Touch.access a).Within r.reads r.writes := by
  cases r with
  | unlink path =>
    refine only_onFile fun p hp => .step ?_ fun ret => only_code
    obtain rfl := Option.mem_def.mp hp
    exact ⟨List.Subset.refl _, List.Subset.refl _⟩
  | rename oldpath newpath =>
    cases oldpath with
    | none => exact only_reply _
    | some old =>
      cases newpath with
      | none => exact only_reply _
      | some new =>
        show (if isRoot old ∨ isRoot new then _ else _ : Handler).Only _
        split
        · exact only_reply _
        · refine only_copyName (only_copyName (.step ?_ fun ret => only_code))
          exact ⟨List.Subset.refl _, List.Subset.refl _⟩
  | truncate path length =>
    show (if length < 0 then _ else _ : Handler).Only _
    split
    · exact only_reply _
    · refine only_onFile fun p hp => .step ?_ fun ret => only_codes
      obtain rfl := Option.mem_def.mp hp
      exact ⟨List.Subset.refl _, List.Subset.refl _⟩
  | openFile path =>
    refine only_onFile fun p hp => .step ?_ fun ret => ?_
    · obtain rfl := Option.mem_def.mp hp
      exact within_size (List.Subset.refl _)
    · split
      · exact only_reply _
      · exact only_reply _
  | create path =>
    refine only_onFile fun p hp => .step ?_ fun ret => only_codes
    obtain rfl := Option.mem_def.mp hp
    exact ⟨List.Subset.refl _, List.Subset.refl _⟩
  | read path buf length offset =>
    cases buf with
    | none => exact only_reply _
    | some buf =>
      refine only_onFile fun p hp => ?_
      obtain rfl := Option.mem_def.mp hp
      refine .step (within_size (List.Subset.refl _)) fun fSize => ?_
      split
      · exact only_reply _
      · split
        · exact only_reply _
        · refine .lift fun left => ?_
          split
          · exact only_fetchBytes ⟨List.Subset.refl _, List.Subset.refl _⟩
          · exact only_fetchBytes ⟨List.Subset.refl _, List.Subset.refl _⟩
  | write path buf length offset =>
    cases buf with
    | none => exact only_reply _
    | some buf =>
      refine only_onFile fun p hp => ?_
      obtain rfl := Option.mem_def.mp hp
      refine .step (within_size (List.subset_append_left _ _)) fun fSize => ?_
      split
      · exact only_reply _
      · split
        · exact only_reply _
        · refine .step (within_space (by simp [Request.reads])) fun space => ?_
          split
          · refine .step (within_space (by simp [Request.reads])) fun space => ?_
            exact only_storeBytes fun bytes => ⟨List.Subset.refl _, List.Subset.refl _⟩
          · exact only_storeBytes fun bytes => ⟨List.Subset.refl _, List.Subset.refl _⟩

theorem fillNames_only (P : Touch → Prop) (hP : ∀ i, P (.listName i)) :
    ∀ (n i : ℕ) (names : List (List UInt8)), (fillNames i n names).Only P := by
  intro n
  induction n with
  | zero => exact fun i names => .done _
  | succ n ih => exact fun i names => .step (hP i) fun name => ih (i + 1) _

theorem Operation.program_only (o : Operation) :
    o.program.Only fun a => a.Within o.reads o.writes := by
  cases o with
  | file r => exact Prog.Only.map _ r.handler_only
  | getattr path =>
    show (myfuseGetattr path).Only _
    by_cases hroot : isRoot path
    · rw [show (Operation.getattr path).reads = _ from if_pos hroot]
      unfold myfuseGetattr
      rw [if_pos hroot]
      split
      · exact .done _
      · exact .step ⟨List.Subset.refl _, List.Subset.refl _⟩ fun _ => .done _
    · rw [show (Operation.getattr path).reads = _ from if_neg hroot]
      unfold myfuseGetattr
      rw [if_neg hroot]
      split
      · exact .done _
      · cases path with
        | mk bytes hnul =>
          cases bytes with
          | nil => exact .fail _
          | cons b bytes =>
            refine .step (within_size (List.Subset.refl _)) fun size => ?_
            split
            · exact .done _
            · exact .done _
  | readdir path =>
    show (myfuseReaddir path).Only _
    unfold myfuseReaddir
    split
    · refine .step ⟨List.Subset.refl _, List.Subset.refl _⟩ fun size => ?_
      exact fillNames_only _ (fun i => ⟨List.Subset.refl _, List.Subset.refl _⟩) _ _ _
    · exact .done _
  | release => exact .done _

end Programs

section Apart

variable {k i : ℕ} {s : Filesys} {l : Ledger} {ops : ℕ → Operation} {schedule : List ℕ}
  {d : Config Touch Answer Fault Response Ledger} {es : List (Option (Event Touch Answer Ledger))}

/-- No other operation writes what operation `i` reads. -/
def Undisturbed (ops : ℕ → Operation) (i : ℕ) : Prop :=
  ∀ j ≠ i, ∀ x ∈ (ops j).writes, x ∉ (ops i).reads

/-- **Requests that keep apart.**  Under any interleaving within the contract an operation that no
other one disturbs responds as it does alone, and leaves what it reads as it does alone. -/
theorem operation_undisturbed (hs : InStep k s l) (hk : k ≤ 23) (hp : (ops i).Proper l)
    (hapart : Undisturbed ops i)
    (hall : Trace.Along (turn (answering Fault Touch.next)) (Ready Touch.Allowed) schedule
      (serving ops l))
    (hrun : Trace.run (turn (answering Fault Touch.next)) schedule (serving ops l) = .ok (es, d)) :
    ∃ es' c, Trace.run (turn Touch.exec) schedule (serving ops s) = .ok (es', c) ∧
      c.threads = d.threads ∧ InStep k c.shared d.shared ∧
      ∀ r, c.threads i = .done r → r = ((ops i).serve l).1 ∧
        ∀ x ∈ (ops i).reads, Store.Alike x ((ops i).serve l).2.store d.shared.store := by
  obtain ⟨es', c, hr, hthreads, hend⟩ := serving_follows hs hk hall hrun
  refine ⟨es', c, hr, hthreads, hend, fun r hdone => ?_⟩
  have hcap : l.store.capacity ≤ 2 ^ 31 := by
    obtain ⟨hfdl, -, -, -, hcap, -⟩ := hs.healthy.sound.sizes hk hs.describes.represents
    omega
  have hmine : ((serving ops l).threads i).Only fun a =>
      touchFootprints.reads a ⊆ {x | x ∈ (ops i).reads} :=
    (ops i).program_only.mono fun a ha x hx => ha.1 hx
  have hyours : ∀ j ≠ i, ((serving ops l).threads j).Only fun a =>
      ∀ x ∈ {x | x ∈ (ops i).reads}, x ∉ touchFootprints.writes a := fun j hj =>
    (ops j).program_only.mono fun a ha x hx hw => hapart j hj x (ha.2 hw) hx
  obtain ⟨u, hgives, halike⟩ := turns_apart touchFootprints schedule (serving ops l) d es l hmine
    hyours (fun x _ => Store.Alike.refl x l.store) (operation_gives hcap hp) hrun
  rw [← hthreads, hdone] at hgives
  obtain ⟨hresponse, hledger⟩ := gives_done.mp hgives
  refine ⟨hresponse.symm, fun x hx => ?_⟩
  rw [hledger]
  exact halike x hx

end Apart

/-- The file `a` is read while `b` is created and the root is looked at. -/
def apartOps : ℕ → Operation
  | 0 => .file (.read (some (bytePath 97 nul_ne_97)) (some [7, 7, 7, 7]) 4 0)
  | 1 => .file (.create (some (bytePath 98 nul_ne_98)))
  | 2 => .getattr rootPath
  | _ => .release

set_option maxRecDepth 20000 in
/-- The reader is told the byte of the file. -/
theorem operation_undisturbed_reader : ∃ s es c, initFs (zeros 256) soloDir (zeros 16) = .ok s ∧
    Trace.run (turn Touch.exec) [0, 1, 2, 0] (serving apartOps s) = .ok (es, c) ∧
    (c.threads 0).result = some (.reply ⟨1, [0, 7, 7, 7]⟩) := by
  obtain ⟨s, hr, hs⟩ := solo_mounted
  have hapart : Undisturbed apartOps 0 := by
    intro j hj
    match j with
    | 0 => exact absurd rfl hj
    | 1 => decide
    | 2 => exact nofun
    | j + 3 => exact nofun
  obtain ⟨⟨es, d⟩, hrun, hend⟩ := Run.holds_iff.mp
    (show Run.Holds (Trace.run (turn (answering Fault Touch.next)) [0, 1, 2, 0]
      (serving apartOps ⟨soloStore, false⟩)) (fun x => (x.2.threads 0).result =
        some (.reply ⟨1, [0, 7, 7, 7]⟩)) by decide +kernel)
  obtain ⟨es', c, hexec, hthreads, -⟩ := operation_undisturbed hs (by decide) (by decide +kernel)
    hapart (by decide +kernel) hrun
  refine ⟨s, es', c, hr, hexec, ?_⟩
  rw [hthreads]
  exact hend

end Vfs
