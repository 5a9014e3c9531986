import VirtualFileSystem.Lib.Trace
import VirtualFileSystem.Live

/-!
# Sequences of calls

The exported functions as the inputs of one transition function.  A call answers with its code and
the bytes it delivers; the reachable states are those at the end of a run.
-/

namespace Vfs

open FlatImage

/-- A call with its arguments. -/
inductive Call
  | create (filename : CString) (length : ℕ)
  | resize (filename : CString) (length : ℕ)
  | write (filename : CString) (offset count : ℕ) (buf : List UInt8)
  | delete (filename : CString)
  | rename (oldname newname : CString)
  | repack
  | read (filename : CString) (offset count : ℕ)
  | size (filename : CString)

/-- The code a call returns and the bytes it copies to the caller. -/
abbrev Answer := ℤ × List UInt8

def exec : Call → Filesys → Run (Answer × Filesys)
  | .create filename length, s => do
    let (r, s) ← createFile filename length s
    pure ((r, []), s)
  | .resize filename length, s => do
    let (r, s) ← resizeFile filename length s
    pure ((r, []), s)
  | .write filename offset count buf, s => do
    let (r, s) ← writeFile filename offset count buf s
    pure ((r, []), s)
  | .delete filename, s => do
    let (r, s) ← deleteFile filename s
    pure ((r, []), s)
  | .rename oldname newname, s => do
    let (r, s) ← renameFile oldname newname s
    pure ((r, []), s)
  | .repack, s => do
    let s ← repack s
    pure ((0, []), s)
  | .read filename offset count, s => do
    let (r, data) ← readFile filename offset count s
    pure ((r, data), s)
  | .size filename, s => do
    let r ← fileSize filename s
    pure ((r, []), s)

/-- The names a call is given. -/
def Call.names : Call → List CString
  | .create filename _ | .resize filename _ | .write filename _ _ _ | .delete filename
  | .read filename _ _ | .size filename => [filename]
  | .rename oldname newname => [oldname, newname]
  | .repack => []

/-- Every name the call is given is non-empty. -/
def Call.Named (c : Call) : Prop := ∀ name ∈ c.names, name.bytes ≠ []

instance (c : Call) : Decidable c.Named := by unfold Call.Named; infer_instance

/-- What a completed call did: nothing (it only reads, it refuses, or there is nothing to do), or
the work behind its checks. -/
inductive Effect : Call → Filesys → Filesys → Prop
  | idle {c : Call} {s : Filesys} : Effect c s s
  | create {name : CString} {length : ℕ} {s s' : Filesys} (hl : lookup name s = .ok none)
      (hroom : ¬ (toU64 (s.used + length) > s.fileDataLen ∨ s.indexCount ≥ s.indexLen))
      (hr : createFileAt name length s = .ok s') : Effect (.create name length) s s'
  | resize {name : CString} {length : ℕ} {p : Ptr} {s s' : Filesys}
      (hl : lookup name s = .ok (some p))
      (hadm : toU64 (s.used + length - (s.heap p).length) ≤ s.fileDataLen)
      (hr : resizeFileAt p length s = .ok s') : Effect (.resize name length) s s'
  | write {name : CString} {offset count : ℕ} {buf : List UInt8} {p : Ptr} {s s' : Filesys}
      (hl : lookup name s = .ok (some p)) (hoff : offset ≤ (s.heap p).length)
      (hadm : toU64 (s.used + offset + count - (s.heap p).length) ≤ s.fileDataLen)
      (hr : writeFileAt p offset count buf s = .ok s') : Effect (.write name offset count buf) s s'
  | delete {name : CString} {p : Ptr} {s s' : Filesys} (hl : lookup name s = .ok (some p))
      (hd : Deleted p s s') : Effect (.delete name) s s'
  | rename {old new : CString} {p : Ptr} {s : Filesys} (hl : lookup old s = .ok (some p))
      (hnew : lookup new s = .ok none)
      (hb : metaLen * (s.heap p).index + (new.toFileName.bytes.length + 1) ≤ s.dir.length) :
      Effect (.rename old new) s { s with
        heap := s.heap.set p { s.heap p with name := new.toFileName }
        dir := splice s.dir (metaLen * (s.heap p).index) (new.toFileName.bytes ++ [0]) }
  | repack {s s' : Filesys} (hr : repack s = .ok s') : Effect .repack s s'

/-- What a completed call changed: a file was created, deleted or renamed, or the live files were
kept with their names. -/
inductive Changed (c : Call) (s s' : Filesys) : Prop
  | kept (h : Kept s s')
  | created (s₁ s₂ : Filesys) (name : FileName) (o length i : ℕ) (hs : LiveOk s₁)
      (h1 : Kept s s₁) (h2 : Created name o length i s₁ s₂) (h3 : Kept s₂ s')
  | deleted (p : Ptr) (h : Deleted p s s')
  | renamed (p : Ptr) (old new : CString) (hc : c = .rename old new)
      (hp : lookup old s = .ok (some p))
      (hnew : lookup new s = .ok none) (dir : List UInt8) (hdir : dir.length = s.dir.length)
      (h : s' = { s with
        heap := s.heap.set p { s.heap p with name := new.toFileName }, dir := dir })

section Exec

variable {s s' : Filesys} {a : Answer}

theorem exec_read_post {name : CString} {o n : ℕ} (hr : exec (.read name o n) s = .ok (a, s')) :
    s' = s ∧ readFile name o n s = .ok a := by
  obtain ⟨x, hx, hr⟩ := Run.bind_eq_ok.mp hr
  obtain ⟨rfl, rfl⟩ := Prod.mk.inj (Except.ok.inj hr)
  exact ⟨rfl, hx⟩

theorem exec_size_post {name : CString} (hr : exec (.size name) s = .ok (a, s')) :
    s' = s ∧ fileSize name s = .ok a.1 := by
  obtain ⟨x, hx, hr⟩ := Run.bind_eq_ok.mp hr
  obtain ⟨rfl, rfl⟩ := Prod.mk.inj (Except.ok.inj hr)
  exact ⟨rfl, hx⟩

theorem exec_repack_post (hr : exec .repack s = .ok (a, s')) :
    a = (0, []) ∧ repack s = .ok s' := by
  obtain ⟨x, hx, hr⟩ := Run.bind_eq_ok.mp hr
  obtain ⟨rfl, rfl⟩ := Prod.mk.inj (Except.ok.inj hr)
  exact ⟨rfl, hx⟩

/-- A call that returns a code only. -/
theorem code_post {m : Run (ℤ × Filesys)}
    (hr : (do let (r, t) ← m; pure ((r, []), t) : Run (Answer × Filesys)) = .ok (a, s')) :
    m = .ok (a.1, s') ∧ a.2 = [] := by
  obtain ⟨⟨r, t⟩, hx, hr⟩ := Run.bind_eq_ok.mp hr
  obtain ⟨rfl, rfl⟩ := Prod.mk.inj (Except.ok.inj hr)
  exact ⟨hx, rfl⟩

theorem exec_effect {c : Call} (hs : LiveOk s) (hr : exec c s = .ok (a, s')) : Effect c s s' := by
  cases c with
  | create name length =>
    rcases createFile_post (code_post hr).1 with ⟨-, rfl, -⟩ | ⟨-, rfl, -⟩ | ⟨-, hl, hroom, hr⟩
    · exact .idle
    · exact .idle
    · exact .create hl hroom hr
  | resize name length =>
    rcases resizeFile_post (code_post hr).1 with
      ⟨-, rfl, -⟩ | ⟨p, hl, ⟨-, rfl, -⟩ | ⟨-, hadm, ⟨-, rfl⟩ | ⟨-, hr⟩⟩⟩
    · exact .idle
    · exact .idle
    · exact .idle
    · exact .resize hl hadm hr
  | write name offset count buf =>
    rcases writeFile_post (code_post hr).1 with ⟨-, rfl, -⟩ |
      ⟨p, hl, ⟨-, rfl, -⟩ | ⟨-, rfl, -⟩ | ⟨-, hoff, hadm, ⟨-, rfl⟩ | ⟨-, hr⟩⟩⟩
    · exact .idle
    · exact .idle
    · exact .idle
    · exact .idle
    · exact .write hl hoff hadm hr
  | delete name =>
    rcases deleteFile_steps hs (code_post hr).1 with ⟨-, rfl, -⟩ | ⟨-, p, hl, hd⟩
    · exact .idle
    · exact .delete hl hd
  | rename old new =>
    rcases renameFile_post (code_post hr).1 with ⟨rfl, -⟩ | ⟨-, -, p, hl, hnew, hb, rfl⟩
    · exact .idle
    · exact .rename hl hnew hb
  | repack => exact .repack (exec_repack_post hr).2
  | read name o n =>
    obtain rfl := (exec_read_post hr).1
    exact .idle
  | size name =>
    obtain rfl := (exec_size_post hr).1
    exact .idle

/-- One step lemma for all calls: the arrays stay in order, and the change is one of four. -/
theorem exec_liveOk {c : Call} (hs : LiveOk s) (hc : c.Named) (hr : exec c s = .ok (a, s')) :
    LiveOk s' ∧ Changed c s s' := by
  cases exec_effect hs hr with
  | idle => exact ⟨hs, .kept (Kept.refl _)⟩
  | @create name length _ _ hl hroom hat =>
    obtain ⟨i, o, s₁, s₂, hf, hcr, hs', hk⟩ :=
      createFileAt_liveOk hs (hc name (by simp [Call.names])) hl hat
    exact ⟨hs', .created s₁ s₂ _ _ _ _ (hf.liveOk hs) hf.kept hcr hk⟩
  | resize hl hadm hat => exact (resizeFileAt_liveOk hs (hs.lookup hl).1 hat).imp_right .kept
  | write hl hoff hadm hat => exact (writeFileAt_liveOk hs (hs.lookup hl).1 hat).imp_right .kept
  | delete hl hd => exact ⟨hd.liveOk, .deleted _ hd⟩
  | rename hl hnew hb =>
    exact ⟨renamed_liveOk hs _ _, .renamed _ _ _ rfl hl hnew _ (length_splice (by simpa using hb))
      rfl⟩
  | repack hat => exact (repack_liveOk hs hat).imp_right .kept

theorem Changed.shape {c : Call} (h : Changed c s s') : Shape s s' := by
  cases h with
  | kept h => exact h.shape
  | created s₁ s₂ name o length i hs h1 h2 h3 => exact (h1.shape.trans h2.shape).trans h3.shape
  | deleted p h => exact h.shape
  | renamed p old new hc hp hnew dir hdir h =>
    subst h
    exact ⟨rfl, hdir, rfl, rfl, rfl, rfl⟩

end Exec

end Vfs
