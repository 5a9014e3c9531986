import VirtualFileSystem.Lib.Mutex
import VirtualFileSystem.Session

/-!
# Threads and the lock (`LOCK` and `UNLOCK` in `helper.h`)

Every function of `myfilesystem.c` that a thread calls on a mounted filesystem takes its lock before
the first access and gives it back on each way out.  In whatever pieces the functions touch the
filesystem, threads that keep the contract are answered as by the reference store, in the order in
which they took the lock.
-/

namespace Vfs

open FlatImage Interleave

/-- The functions that take the lock. -/
inductive Entry
  | call (c : Call)
  | computeHashTree
  | computeHashBlock (b : ℕ)

def Entry.action : Entry → Action
  | .call c => .call c
  | .computeHashTree => .computeHashTree
  | .computeHashBlock b => .computeHashBlock b

/-- What the function answers and does to the ledger. -/
abbrev Entry.next (e : Entry) (l : Ledger) : Answer × Ledger := e.action.next l

/-- What the contract allows. -/
abbrev Entry.Allowed (e : Entry) (l : Ledger) : Prop := e.action.Allowed l

/-- The functions in pieces, which come to what the function does if nothing comes between them. -/
structure Cut (A B : Type) where
  access : A → Filesys → Run (B × Filesys)
  body : Entry → Prog A B Fault Answer
  agrees : ∀ e s, (body e).alone access s = e.action.exec s

/-- Threads that have made no call on the filesystem yet. -/
def Cut.start {A B R : Type} (cut : Cut A B) (clients : ℕ → Prog Entry Answer Fault R)
    (s : Filesys) : Machine A B Fault R Filesys :=
  ⟨s, false, fun i => (clients i).guarded cut.body⟩

section Threads

variable {A B R : Type} {k : ℕ} {s : Filesys} {l : Ledger}

/-- **The lock.**  If the threads keep the contract in every order of their calls, then no
interleaving of the pieces faults, and the threads come as far as over the reference store in the
order in which they took the lock.  The lock is given back if the thread that has it goes on, and
then the images describe the files of that store. -/
theorem locked_calls (cut : Cut A B) (hs : InStep k s l) (hk : k ≤ 23)
    {clients : ℕ → Prog Entry Answer Fault R} {moves : List ℕ}
    (hkeep : ∀ order, order.Sublist moves →
      Trace.Along (turn (answering Fault Entry.next)) (Going Entry.Allowed) order ⟨l, clients⟩) :
    ∃ taken m es d, Trace.run (move cut.access) moves (cut.start clients s) = .ok (taken, m) ∧
      taken.reduceOption.Sublist moves ∧
      Trace.run (turn (answering Fault Entry.next)) taken.reduceOption ⟨l, clients⟩ =
        .ok (es, d) ∧
      (∀ i r, m.threads i = .done r → d.threads i = .done r) ∧
      ∃ h n os s', Trace.run (move cut.access) (List.replicate n h) m =
          .ok (os, cut.start d.threads s') ∧
        (m.locked = false → n = 0) ∧ Leaves k s' d.shared := by
  have hsim : ∀ e s l, InStep k s l → Entry.Allowed e l →
      ∃ s', atomic cut.access cut.body e s = .ok ((e.next l).1, s') ∧ InStep k s' (e.next l).2 := by
    intro e s l hs ha
    obtain ⟨s', hr, hs'⟩ := Action.exec_follows hs hk ha
    exact ⟨s', (cut.agrees e s).trans hr, hs'⟩
  obtain ⟨taken, m, es, d, hr, hsub, hcalls, s', hw, hs'⟩ := moves_refine hsim hs hkeep
  obtain ⟨h, n, os, hrel, hn⟩ := hw.released
  exact ⟨taken, m, es, d, hr, hsub, hcalls, fun _ _ => hw.done, h, n, os, s', hrel, hn,
    hs'.leaves hk⟩

end Threads

/-! ## Two functions in pieces -/

/-- `write_file` up to the hashes: its code, or the range of bytes to hash. -/
def writeBytes (filename : CString) (offset count : ℕ) (buf : List UInt8) (s : Filesys) :
    Run ((ℤ ⊕ ℤ × ℤ) × Filesys) := do
  match ← lookup filename s with
  | none => pure (.inl 1, s)
  | some p =>
    if offset > (s.heap p).length then pure (.inl 2, s)
    else if toU64 (s.used + offset + count - (s.heap p).length) > s.fileDataLen then
      pure (.inl 3, s)
    else if count = 0 then pure (.inl 0, s)
    else do
      let (hashOffset, s) ← (if toU64 (offset + count) > (s.heap p).length then
          resizeFileHelper p (toU64 (offset + count)) offset s
        else pure (-1, s) : Run (ℤ × Filesys))
      let hashOffset := toI32 hashOffset
      let data ← memRead buf 0 count
      let file ← memWrite s.file (((s.heap p).offset + offset : ℕ) : ℤ) data
      let s := { s with file := file }
      if hashOffset ≥ 0 then pure (.inr (hashOffset, s.used - hashOffset), s)
      else pure (.inr (toI64 ((s.heap p).offset + offset), toI64 count), s)

/-- A piece: a whole function, the bytes of a write or their hashes, or a node of the tree. -/
inductive Piece
  | whole (e : Entry)
  | writeBytes (filename : CString) (offset count : ℕ) (buf : List UInt8)
  | hashRange (offset length : ℤ)
  | leafOffset
  | node (n : ℤ)

/-- What a piece answers: what its function returns, or what the next pieces are given. -/
inductive Found
  | answer (a : Answer)
  | code (r : ℤ ⊕ ℤ × ℤ)
  | index (n : ℤ)

def Piece.exec : Piece → Filesys → Run (Found × Filesys)
  | .whole e, s => do
    let (a, s) ← e.action.exec s
    pure (.answer a, s)
  | .writeBytes filename offset count buf, s => do
    let (r, s) ← Vfs.writeBytes filename offset count buf s
    pure (.code r, s)
  | .hashRange offset length, s => do
    let s ← computeHashBlockRange offset length s
    pure (.answer (0, []), s)
  | .leafOffset, s => pure (.index s.leafOffset, s)
  | .node n, s => do
    let h ← hashNode n s
    let s ← writeNode n h s
    pure (.answer (0, []), s)

abbrev Pieces := Prog Piece Found Fault Answer

/-- The loop of `compute_hash_tree`, a node a piece. -/
def nodePieces : ℕ → ℤ → ℤ → ℤ → Pieces
  | 0, _, _, _ => .fail .diverges
  | fuel + 1, n, count, level =>
    if level > 0 then .step (.node n) fun _ =>
      if count + 1 < level then nodePieces fuel (n + 1) (count + 1) level
      else nodePieces fuel (level.tdiv 2 - 1) 0 (level.tdiv 2)
    else .done (0, [])

/-- `write_file` and `compute_hash_tree` in pieces, and every other function as one piece. -/
def Entry.pieces : Entry → Pieces
  | .call (.write filename offset count buf) => .step (.writeBytes filename offset count buf) fun
    | .code (.inl r) => .done (r, [])
    | .code (.inr range) => .step (.hashRange range.1 range.2) fun _ => .done (0, [])
    | .answer _ | .index _ => .fail .assertion
  | .computeHashTree => .step .leafOffset fun
    | .index n => nodePieces (2 * (n + 1).toNat + 2) n 0 (n + 1)
    | .answer _ | .code _ => .fail .assertion
  | e => .step (.whole e) fun
    | .answer a => .done a
    | .code _ | .index _ => .fail .assertion

section Pieces

variable {s : Filesys}

/-- `write_file` is its bytes, and then their hashes. -/
theorem writeFile_pieces (filename : CString) (offset count : ℕ) (buf : List UInt8) (s : Filesys) :
    writeFile filename offset count buf s =
      writeBytes filename offset count buf s >>= fun x =>
        match x.1 with
        | .inl r => pure (r, x.2)
        | .inr range => computeHashBlockRange range.1 range.2 x.2 >>= fun s => pure (0, s) := by
  unfold writeFile writeBytes
  cases lookup filename s with
  | error e => rfl
  | ok q =>
    cases q with
    | none => rfl
    | some p =>
      simp only [Run.ok_bind]
      by_cases hoff : offset > (s.heap p).length
      · simp only [if_pos hoff, pure_bind]
      by_cases hroom : toU64 (s.used + offset + count - (s.heap p).length) > s.fileDataLen
      · simp only [if_neg hoff, if_pos hroom, pure_bind]
      by_cases h0 : count = 0
      · simp only [if_neg hoff, if_neg hroom, if_pos h0, pure_bind]
      simp only [if_neg hoff, if_neg hroom, if_neg h0]
      unfold writeFileAt
      simp only [bind_assoc]
      refine bind_congr fun x => bind_congr fun data => bind_congr fun file => ?_
      split_ifs
      · simp only [pure_bind]
      · simp only [pure_bind]

theorem nodePieces_alone : ∀ (fuel : ℕ) (n count level : ℤ) (s : Filesys),
    (nodePieces fuel n count level).alone Piece.exec s =
      (hashTreeLoop fuel n count level s >>= fun s => pure ((0, []), s)) := by
  intro fuel
  induction fuel with
  | zero => exact fun _ _ _ _ => rfl
  | succ fuel ih =>
    intro n count level s
    unfold nodePieces hashTreeLoop
    by_cases hl : level > 0
    · rw [if_pos hl, if_pos hl, alone_step_bind]
      simp only [Piece.exec, bind_assoc]
      refine bind_congr fun h => bind_congr fun t => ?_
      simp only [pure_bind]
      split_ifs
      · exact ih _ _ _ _
      · exact ih _ _ _ _
    · rw [if_neg hl, if_neg hl]
      rfl

/-- In pieces every function does what it does. -/
theorem pieces_agree (e : Entry) (s : Filesys) :
    e.pieces.alone Piece.exec s = e.action.exec s := by
  have hwhole : ∀ e' : Entry, (Prog.step (.whole e') fun
      | .answer a => .done a
      | .code _ | .index _ => .fail .assertion : Pieces).alone Piece.exec s =
        e'.action.exec s := by
    intro e'
    rw [alone_step_bind]
    simp only [Piece.exec, bind_assoc, pure_bind]
    exact bind_pure _
  cases e with
  | call c =>
    cases c with
    | write filename offset count buf =>
      unfold Entry.pieces
      rw [alone_step_bind]
      show _ = writeFile filename offset count buf s >>= _
      rw [writeFile_pieces]
      simp only [Piece.exec, bind_assoc, pure_bind]
      refine bind_congr fun x => ?_
      obtain ⟨r | range, t⟩ := x
      · rfl
      · dsimp only
        rw [alone_step_bind]
        simp only [Piece.exec, bind_assoc, pure_bind]
        rfl
    | create _ _ => exact hwhole _
    | resize _ _ => exact hwhole _
    | delete _ => exact hwhole _
    | rename _ _ => exact hwhole _
    | repack => exact hwhole _
    | read _ _ _ => exact hwhole _
    | size _ => exact hwhole _
  | computeHashTree =>
    unfold Entry.pieces
    rw [alone_step_bind]
    exact nodePieces_alone _ _ _ _ s
  | computeHashBlock b => exact hwhole _

end Pieces

def pieces : Cut Piece Found := ⟨Piece.exec, Entry.pieces, pieces_agree⟩

/-- One thread writes the byte of `a`, and another one reads it. -/
def sharedClients : ℕ → Prog Entry Answer Fault Answer
  | 0 => .step (.call (.write (.ofByte 97 nul_ne_97) 0 1 [7])) .done
  | 1 => .step (.call (.read (.ofByte 97 nul_ne_97) 0 1)) .done
  | _ => .done (0, [])

set_option maxRecDepth 20000 in
/-- The reader comes between the byte and its hash, waits, and reads the byte that was written. -/
theorem locked_calls_waits : ∃ s m s', ∃ d : Config Entry Answer Fault Answer Ledger,
    initFs (zeros 256) soloDir (zeros 16) = .ok s ∧
    Trace.run (move pieces.access) [0, 0, 1, 0, 0, 1, 1, 1] (pieces.start sharedClients s) =
      .ok ([some 0, none, none, none, none, some 1, none, none], m) ∧
    m = pieces.start d.threads s' ∧ (d.threads 1).result = some (0, [7]) ∧
    Leaves 0 s' d.shared := by
  obtain ⟨s, hinit, hs⟩ := solo_mounted
  have hkeep : ∀ order ∈ [0, 0, 1, 0, 0, 1, 1, 1].sublists,
      Trace.Along (turn (answering Fault Entry.next)) (Going Entry.Allowed) order
        ⟨⟨soloStore, false⟩, sharedClients⟩ := by decide +kernel
  obtain ⟨taken, m, es, d, hrun, -, hcalls, -, h, n, os, s', hrel, hn, hleaves⟩ :=
    locked_calls pieces hs (by decide) fun order ho => hkeep order (List.mem_sublists.mpr ho)
  obtain ⟨s₁, hinit₁, hholds⟩ := Run.holds_iff.mp
    (show Run.Holds (initFs (zeros 256) soloDir (zeros 16)) (fun s =>
      Run.Holds (Trace.run (move pieces.access) [0, 0, 1, 0, 0, 1, 1, 1]
        (pieces.start sharedClients s)) fun x =>
          x.1 = [some 0, none, none, none, none, some 1, none, none] ∧ x.2.locked = false)
      by decide +kernel)
  obtain rfl := Except.ok.inj (hinit.symm.trans hinit₁)
  obtain ⟨⟨taken₁, m₁⟩, hrun₁, rfl, hfree⟩ := Run.holds_iff.mp hholds
  obtain ⟨rfl, rfl⟩ := Prod.mk.inj (Except.ok.inj (hrun.symm.trans hrun₁))
  obtain ⟨x, hx, hread⟩ := Run.holds_iff.mp
    (show Run.Holds (Trace.run (turn (answering Fault Entry.next)) [0, 1]
      ⟨⟨soloStore, false⟩, sharedClients⟩) (fun x => (x.2.threads 1).result = some (0, [7]))
      by decide +kernel)
  obtain rfl := Except.ok.inj (hcalls.symm.trans hx)
  -- the lock is free, so nothing is left to do
  rw [hn hfree] at hrel
  obtain ⟨-, rfl⟩ := Prod.mk.inj (Except.ok.inj hrel)
  exact ⟨s, _, s', d, hinit, hrun, rfl, hread, hleaves⟩

end Vfs
