import VirtualFileSystem.FuseWrite

/-!
# Concurrent requests

The handlers as threads over the filesystem.  The size a handler looked up can be out of date when
it reads or writes, and the codes for a missing file, a range behind the end and a lack of space do
not reach the caller.  Where no access meets them, a positive result is what was read or written.
-/

namespace Vfs

open FlatImage Interleave

/-! ## Requests -/

/-- A request with its arguments. -/
inductive Request
  | unlink (path : Option CString)
  | rename (oldpath newpath : Option CString)
  | truncate (path : Option CString) (length : ℤ)
  | openFile (path : Option CString)
  | create (path : Option CString)
  | read (path : Option CString) (buf : Option (List UInt8)) (length : ℕ) (offset : ℤ)
  | write (path : Option CString) (buf : Option (List UInt8)) (length : ℕ) (offset : ℤ)

def Request.handler : Request → Handler
  | .unlink path => myfuseUnlink path
  | .rename oldpath newpath => myfuseRename oldpath newpath
  | .truncate path length => myfuseTruncate path length
  | .openFile path => myfuseOpen path
  | .create path => myfuseCreate path
  | .read path buf length offset => myfuseRead path buf length offset
  | .write path buf length offset => myfuseWrite path buf length offset

abbrev FuseEvent := Event Access Answer Filesys

/-- One request a thread, none of which has made an access. -/
def start (reqs : ℕ → Request) (s : Filesys) : Config Access Answer Fault Reply Filesys :=
  ⟨s, fun i => (reqs i).handler⟩

/-! ## What a positive result promises -/

/-- The `read_file` step returned zero and filled the buffer with as many bytes of the file as the
request returned. -/
def ReadFilled (path : Option CString) (buf : List UInt8) (offset : ℤ) (r : Reply)
    (es : List FuseEvent) : Prop :=
  ∃ e ∈ es, ∃ (name : CString) (n : ℕ) (p : Ptr),
    path.map (·.bytes.tail) = some name.bytes ∧
    e.access = .call (.read name (toU64 offset) n) ∧ e.answer.1 = 0 ∧ r.code = n ∧
    e.answer.2.length = n ∧ r.buf = splice buf 0 e.answer.2 ∧
    lookup name e.before = .ok (some p) ∧
    toU64 offset + n ≤ (e.before.heap p).length ∧
    e.answer.2 = slice e.before.file (toU64 ((e.before.heap p).offset + toU64 offset)) n

/-- The `write_file` step returned zero and stored as many bytes of the buffer as the request
returned. -/
def WriteStored (path : Option CString) (buf : List UInt8) (offset : ℤ) (r : Reply)
    (es : List FuseEvent) : Prop :=
  ∃ e ∈ es, ∃ (name : CString) (n : ℕ) (p : Ptr),
    path.map (·.bytes.tail) = some name.bytes ∧
    e.access = .call (.write name (toU64 offset) n (buf.take n)) ∧ e.answer.1 = 0 ∧
    r.code = n ∧ n ≤ buf.length ∧ lookup name e.before = .ok (some p) ∧
    slice (bytesOf e.after p) (toU64 offset) n = buf.take n

/-- A positive result of a read or a write is true. -/
def Request.Honest (r : Reply) (es : List FuseEvent) : Request → Prop
  | .read path buf _ offset => 0 < r.code → ReadFilled path (buf.getD []) offset r es
  | .write path buf _ offset => 0 < r.code → WriteStored path (buf.getD []) offset r es
  | _ => True

/-! ## Accesses that go through -/

/-- `read_file` finds the file, and the range ends in it. -/
def ReadGoesThrough (name : CString) (offset count : ℕ) (s : Filesys) : Prop :=
  Run.Holds (lookup name s) fun r => ∃ p ∈ r.toList, offset + count ≤ (s.heap p).length

/-- `write_file` finds the file, and the range starts in it and fits into `file_data`. -/
def WriteGoesThrough (name : CString) (offset count : ℕ) (s : Filesys) : Prop :=
  Run.Holds (lookup name s) fun r => ∃ p ∈ r.toList, offset ≤ (s.heap p).length ∧
    toU64 (s.used + offset + count - (s.heap p).length) ≤ s.fileDataLen

/-- The access goes through if the handler is to return a positive number.  Lengths have 32
bits. -/
def Access.Admitted : Access → Filesys → Prop
  | .call (.read name offset count), s => 0 < toI32 count →
    ReadGoesThrough name offset count s ∧ offset + count < 2 ^ 32
  | .call (.write name offset count _), s => 0 < toI32 count →
    WriteGoesThrough name offset count s ∧ offset + count < 2 ^ 32
  | _, _ => True

instance (name : CString) (offset count : ℕ) (s : Filesys) :
    Decidable (ReadGoesThrough name offset count s) := by
  unfold ReadGoesThrough
  infer_instance

instance (name : CString) (offset count : ℕ) (s : Filesys) :
    Decidable (WriteGoesThrough name offset count s) := by
  unfold WriteGoesThrough
  infer_instance

instance (a : Access) (s : Filesys) : Decidable (a.Admitted s) := by
  unfold Access.Admitted
  split <;> infer_instance

theorem admitted_read {name : CString} {offset count : ℕ} {s : Filesys} :
    (Access.call (.read name offset count)).Admitted s ↔
      (0 < toI32 count → ReadGoesThrough name offset count s ∧ offset + count < 2 ^ 32) := Iff.rfl

theorem admitted_write {name : CString} {offset count : ℕ} {buf : List UInt8} {s : Filesys} :
    (Access.call (.write name offset count buf)).Admitted s ↔
      (0 < toI32 count → WriteGoesThrough name offset count s ∧ offset + count < 2 ^ 32) := Iff.rfl

section Calls

variable {name : CString} {offset count : ℕ} {s s' : Filesys} {p : Ptr} {a : Answer}

theorem toI32_pos {n : ℕ} (hlt : n < 2 ^ 32) (h : 0 < toI32 n) : 0 < n ∧ toI32 n = n := by
  have he : toI32 (n : ℤ) = n := toI32_of_nonneg (by omega) (by omega) h.le
  rw [he] at h
  exact ⟨by exact_mod_cast h, he⟩

/-- A read that goes through fills the buffer unless a hash is wrong. -/
theorem readFile_through (hgo : ReadGoesThrough name offset count s) (hpos : 0 < count)
    (hlt : offset + count < 2 ^ 32) (hr : readFile name offset count s = .ok a) (h3 : a.1 ≠ 3) :
    ∃ p, lookup name s = .ok (some p) ∧ offset + count ≤ (s.heap p).length ∧ a.1 = 0 ∧
      a.2.length = count ∧ a.2 = slice s.file (toU64 ((s.heap p).offset + offset)) count := by
  obtain ⟨q, hl, p, hp, hin⟩ := Run.holds_iff.mp hgo
  obtain rfl : q = some p := Option.mem_toList.mp hp
  refine ⟨p, hl, hin, ?_⟩
  have h64 : toU64 ((offset : ℤ) + count) = offset + count := by
    exact_mod_cast toU64_of_lt (n := offset + count) (by omega)
  unfold readFile at hr
  rw [hl, Run.ok_bind] at hr
  dsimp only at hr
  rw [h64, if_neg (by omega)] at hr
  obtain ⟨bad, -, hr⟩ := Run.bind_eq_ok.mp hr
  split_ifs at hr with hbad h0
  · obtain rfl := Except.ok.inj hr
    exact absurd rfl h3
  · omega
  · obtain ⟨data, hdata, hr⟩ := Run.bind_eq_ok.mp hr
    obtain rfl := Except.ok.inj hr
    obtain ⟨⟨-, hend⟩, rfl⟩ := memRead_eq_ok.mp hdata
    exact ⟨rfl, length_slice_of_le (by omega), rfl⟩

/-- A write that goes through returns zero and leaves the buffer in the file. -/
theorem writeFile_through {buf : List UInt8} {code : ℤ}
    (hgo : WriteGoesThrough name offset count s) (hpos : 0 < count)
    (hlt : offset + count < 2 ^ 32)
    (hr : writeFile name offset count buf s = .ok (code, s')) :
    ∃ p, lookup name s = .ok (some p) ∧ code = 0 ∧
      slice (bytesOf s' p) offset count = buf.take count := by
  obtain ⟨q, hl, p, hp, hoff, hroom⟩ := Run.holds_iff.mp hgo
  obtain rfl : q = some p := Option.mem_toList.mp hp
  refine ⟨p, hl, ?_⟩
  rcases writeFile_post hr with ⟨-, -, hl'⟩ | ⟨q, hl', hcase⟩
  · cases hl.symm.trans hl'
  obtain rfl : p = q := Option.some_inj.mp (Except.ok.inj (hl.symm.trans hl'))
  rcases hcase with ⟨-, -, h⟩ | ⟨-, -, -, h⟩ | ⟨rfl, -, -, ⟨h, -⟩ | ⟨-, hat⟩⟩
  · exact absurd hoff h.not_ge
  · exact absurd hroom h.not_ge
  · omega
  refine ⟨rfl, ?_⟩
  have h64 : toU64 ((offset : ℤ) + count) = offset + count := by
    exact_mod_cast toU64_of_lt (n := offset + count) (by omega)
  obtain ⟨ho, s₁, hcase, hbuf, hin, hhash⟩ := writeFileAt_post hat
  rw [h64] at hcase
  have hframe : HashFrame
      { s₁ with file := splice s₁.file ((s₁.heap p).offset + offset) (buf.take count) } s' :=
    hashEither_frame hhash
  obtain ⟨hheap, hfile⟩ := hframe.heap_file
  have hend : offset + count ≤ (s₁.heap p).length := by
    rcases hcase with ⟨hle, -, rfl⟩ | ⟨hgrow, h1⟩
    · exact hle
    · rcases resizeFileHelper_post h1 with ⟨he, -⟩ | ⟨-, s₀, -, -, he⟩
      · omega
      · rw [he, setLength_self hlt]
  have htake : (buf.take count).length = count := by
    rw [List.length_take, Nat.min_eq_left hbuf]
  unfold bytesOf
  rw [hheap, hfile]
  dsimp only
  rw [slice_slice _ hend]
  have hself := @slice_splice_self _ s₁.file ((s₁.heap p).offset + offset) (buf.take count)
    (by omega)
  rwa [htake] at hself

end Calls

/-! ## One request -/

section Request

variable {path : Option CString} {name : CString} {buf : List UInt8} {length n : ℕ} {offset : ℤ}
  {r : Reply} {es : List FuseEvent} {k : CString → Handler}

theorem path_reply {code : ℤ} (h : Path Access.exec es (reply code buf) (.done r)) :
    r.code = code ∧ r.buf = buf := by
  obtain ⟨-, h⟩ := path_done.mp h
  obtain rfl := Prog.done.inj h
  exact ⟨rfl, rfl⟩

theorem path_reply_pos {code : ℤ} (h : Path Access.exec es (reply code buf) (.done r))
    (hpos : 0 < r.code) : 0 < code := by
  rwa [(path_reply h).1] at hpos

theorem path_onFile (h : Path Access.exec es (onFile path buf k) (.done r)) (hpos : 0 < r.code) :
    ∃ name : CString, path.map (·.bytes.tail) = some name.bytes ∧
      Path Access.exec es (k name) (.done r) := by
  unfold onFile at h
  cases path with
  | none =>
    exact absurd (path_reply_pos h hpos) (by decide)
  | some path =>
    dsimp only at h
    split_ifs at h with hroot
    · exact absurd (path_reply_pos h hpos) (by decide)
    · obtain ⟨bytes, hnul⟩ := path
      cases bytes with
      | nil =>
        obtain ⟨-, h⟩ := path_fail.mp h
        cases h
      | cons b bytes => exact ⟨⟨bytes, fun h0 => hnul (List.mem_cons_of_mem _ h0)⟩, rfl, h⟩

theorem path_fetchBytes (hname : path.map (·.bytes.tail) = some name.bytes)
    (h : Path Access.exec es (fetchBytes name offset n buf) (.done r)) (hpos : 0 < r.code)
    (hadm : ∀ e ∈ es, e.access.Admitted e.before) : ReadFilled path buf offset r es := by
  obtain ⟨e, es', rfl, hacc, hexec, h⟩ := path_step_done.mp h
  obtain ⟨buf', hbuf, h⟩ := path_lift_done.mp h
  obtain ⟨-, rfl⟩ := memWrite_eq_ok.mp hbuf
  have hread := (@exec_read_post e.before e.after _ _ _ _ hexec).2
  split_ifs at h with h3
  · exact absurd (path_reply_pos h hpos) (by decide)
  have hcount := path_reply_pos h hpos
  obtain ⟨hret, hbuf'⟩ := path_reply h
  have hgo := hadm e List.mem_cons_self
  rw [hacc] at hgo
  obtain ⟨hgo, hlt⟩ := admitted_read.mp hgo hcount
  obtain ⟨h0, hcode⟩ := toI32_pos (by omega) hcount
  obtain ⟨p, hl, hin, hzero, hlen, hdata⟩ := readFile_through hgo h0 hlt hread h3
  exact ⟨e, List.mem_cons_self, name, n, p, hname, hacc, hzero, hret.trans hcode, hlen, hbuf', hl,
    hin, hdata⟩

theorem path_storeBytes (hname : path.map (·.bytes.tail) = some name.bytes)
    (h : Path Access.exec es (storeBytes name offset n buf) (.done r)) (hpos : 0 < r.code)
    (hadm : ∀ e ∈ es, e.access.Admitted e.before) : WriteStored path buf offset r es := by
  obtain ⟨temp, htemp, h⟩ := path_lift_done.mp h
  obtain ⟨⟨-, hn⟩, rfl⟩ := memRead_eq_ok.mp htemp
  rw [show slice buf (0 : ℤ).toNat n = buf.take n by simp [slice]] at h
  obtain ⟨e, es', rfl, hacc, hexec, h⟩ := path_step_done.mp h
  have hcount := path_reply_pos h hpos
  have hret := (path_reply h).1
  have hwrite := (code_post (m := writeFile name (toU64 offset) n _ e.before) hexec).1
  have hgo := hadm e List.mem_cons_self
  rw [hacc] at hgo
  obtain ⟨hgo, hlt⟩ := admitted_write.mp hgo hcount
  obtain ⟨h0, hcode⟩ := toI32_pos (by omega) hcount
  obtain ⟨p, hl, hzero, hdata⟩ := writeFile_through hgo h0 hlt hwrite
  rw [List.take_take, Nat.min_self] at hdata
  exact ⟨e, List.mem_cons_self, name, n, p, hname, hacc, hzero, hret.trans hcode, by omega, hl,
    hdata⟩

theorem ReadFilled.cons (e : FuseEvent) (h : ReadFilled path buf offset r es) :
    ReadFilled path buf offset r (e :: es) := by
  obtain ⟨e', he, h⟩ := h
  exact ⟨e', List.mem_cons_of_mem e he, h⟩

theorem WriteStored.cons (e : FuseEvent) (h : WriteStored path buf offset r es) :
    WriteStored path buf offset r (e :: es) := by
  obtain ⟨e', he, h⟩ := h
  exact ⟨e', List.mem_cons_of_mem e he, h⟩

/-- A read that returns a positive number has filled its buffer. -/
theorem myfuseRead_honest
    (h : Path Access.exec es (myfuseRead path (some buf) length offset) (.done r))
    (hpos : 0 < r.code) (hadm : ∀ e ∈ es, e.access.Admitted e.before) :
    ReadFilled path buf offset r es := by
  obtain ⟨name, hname, h⟩ := path_onFile h hpos
  obtain ⟨e, es', rfl, -, -, h⟩ := path_step_done.mp h
  have hadm' : ∀ e ∈ es', e.access.Admitted e.before := fun e' he =>
    hadm e' (List.mem_cons_of_mem e he)
  apply ReadFilled.cons
  split_ifs at h
  · exact absurd (path_reply_pos h hpos) (by decide)
  · exact absurd (path_reply_pos h hpos) (by decide)
  · obtain ⟨left, -, h⟩ := path_lift_done.mp h
    split_ifs at h
    · exact path_fetchBytes hname h hpos hadm'
    · exact path_fetchBytes hname h hpos hadm'

/-- A write that returns a positive number has stored its bytes. -/
theorem myfuseWrite_honest
    (h : Path Access.exec es (myfuseWrite path (some buf) length offset) (.done r))
    (hpos : 0 < r.code) (hadm : ∀ e ∈ es, e.access.Admitted e.before) :
    WriteStored path buf offset r es := by
  obtain ⟨name, hname, h⟩ := path_onFile h hpos
  obtain ⟨e, es', rfl, -, -, h⟩ := path_step_done.mp h
  have hadm' : ∀ e ∈ es', e.access.Admitted e.before := fun e' he =>
    hadm e' (List.mem_cons_of_mem e he)
  apply WriteStored.cons
  split_ifs at h
  · exact absurd (path_reply_pos h hpos) (by decide)
  · exact absurd (path_reply_pos h hpos) (by decide)
  obtain ⟨e₁, es₁, rfl, -, -, h⟩ := path_step_done.mp h
  apply WriteStored.cons
  have hadm₁ : ∀ e ∈ es₁, e.access.Admitted e.before := fun e' he =>
    hadm' e' (List.mem_cons_of_mem e₁ he)
  split_ifs at h
  · -- the free bytes were read a second time
    obtain ⟨e₂, es₂, rfl, -, -, h⟩ := path_step_done.mp h
    apply WriteStored.cons
    exact path_storeBytes hname h hpos fun e' he => hadm₁ e' (List.mem_cons_of_mem e₂ he)
  · exact path_storeBytes hname h hpos hadm₁

end Request

/-! ## Any interleaving -/

/-- **No false success.**  In a run of any requests in any interleaving, whose reads and writes of
the filesystem all go through, every positive result of a read or a write is true. -/
theorem honest_run {reqs : ℕ → Request} {schedule : List ℕ} {s : Filesys}
    {c : Config Access Answer Fault Reply Filesys} {es : List (Option FuseEvent)}
    (hadm : Trace.Along (turn Access.exec) (Ready Access.Admitted) schedule (start reqs s))
    (hrun : Trace.run (turn Access.exec) schedule (start reqs s) = .ok (es, c)) (i : ℕ) (r : Reply)
    (hdone : c.threads i = .done r) : (reqs i).Honest r (eventsOf i es) := by
  have hpath : Path Access.exec (eventsOf i es) (reqs i).handler (.done r) :=
    hdone ▸ run_path i schedule (start reqs s) c es hrun
  have hall : ∀ e ∈ eventsOf i es, e.access.Admitted e.before := fun e he =>
    run_events schedule (start reqs s) c es hadm hrun e (mem_eventsOf he)
  cases hreq : reqs i with
  | read path buf length offset =>
    rw [hreq] at hpath
    intro hpos
    cases buf with
    | none =>
      exact absurd (path_reply_pos hpath hpos) (by decide)
    | some buf => exact myfuseRead_honest hpath hpos hall
  | write path buf length offset =>
    rw [hreq] at hpath
    intro hpos
    cases buf with
    | none =>
      exact absurd (path_reply_pos hpath hpos) (by decide)
    | some buf => exact myfuseWrite_honest hpath hpos hall
  | unlink path => trivial
  | rename oldpath newpath => trivial
  | truncate path length => trivial
  | openFile path => trivial
  | create path => trivial

/-- Two bytes written behind the first four of `a`, and three bytes of `a` read. -/
def writeAndRead : ℕ → Request
  | 0 => .write (some (CString.ofByte 97 nul_ne_97).path) (some [9, 8]) 2 4
  | _ => .read (some (CString.ofByte 97 nul_ne_97).path) (some [1, 1, 1]) 3 0

set_option maxRecDepth 20000 in
/-- The requests take turns, and every access goes through. -/
theorem honest_run_turns : ∃ s es c r,
    initFs (zeros 256) fourBytes (fletcher (zeros 256)) = .ok s ∧
    Trace.run (turn Access.exec) [0, 1, 0, 1, 0] (start writeAndRead s) = .ok (es, c) ∧
    c.threads 0 = .done r ∧ (writeAndRead 0).Honest r (eventsOf 0 es) := by
  obtain ⟨s, hinit, hadm, hrun⟩ := Run.holds_iff.mp
    (show Run.Holds (initFs (zeros 256) fourBytes (fletcher (zeros 256))) (fun s =>
      Trace.Along (turn Access.exec) (Ready Access.Admitted) [0, 1, 0, 1, 0]
        (start writeAndRead s) ∧
      Run.Holds (Trace.run (turn Access.exec) [0, 1, 0, 1, 0] (start writeAndRead s)) fun x =>
        (x.2.threads 0).result = some ⟨2, []⟩) by decide +kernel)
  obtain ⟨⟨es, c⟩, hr, hdone⟩ := Run.holds_iff.mp hrun
  exact ⟨s, es, c, ⟨2, []⟩, hinit, hr, result_eq_some.mp hdone,
    honest_run hadm hr 0 ⟨2, []⟩ (result_eq_some.mp hdone)⟩

/-- Two bytes of `a` read, and `a` deleted. -/
def readAndUnlink : ℕ → Request
  | 0 => .read (some (CString.ofByte 97 nul_ne_97).path) (some [1, 1]) 2 0
  | _ => .unlink (some (CString.ofByte 97 nul_ne_97).path)

set_option maxRecDepth 20000 in
/-- The file is deleted after its size was looked up, and the read returns two. -/
theorem honest_fails : ¬ ∀ (file dir hash : List UInt8) (s : Filesys) (reqs : ℕ → Request)
    (schedule : List ℕ) (c : Config Access Answer Fault Reply Filesys)
    (es : List (Option FuseEvent)) (i : ℕ) (r : Reply), initFs file dir hash = .ok s →
    Trace.run (turn Access.exec) schedule (start reqs s) = .ok (es, c) →
    c.threads i = .done r → (reqs i).Honest r (eventsOf i es) := by
  intro hall
  obtain ⟨s, hinit, hrun⟩ := Run.holds_iff.mp
    (show Run.Holds (initFs (zeros 256) fourBytes (fletcher (zeros 256))) (fun s =>
      Run.Holds (Trace.run (turn Access.exec) [0, 1, 0] (start readAndUnlink s)) fun x =>
        (x.2.threads 0).result = some ⟨2, [1, 1]⟩ ∧
          ∀ e ∈ eventsOf 0 x.1, e.answer.1 ≠ 0) by decide +kernel)
  obtain ⟨⟨es, c⟩, hr, hdone, hcodes⟩ := Run.holds_iff.mp hrun
  have hhonest := hall _ _ _ s readAndUnlink _ c es 0 _ hinit hr (result_eq_some.mp hdone)
  obtain ⟨e, he, name, n, p, -, -, hzero, -⟩ := hhonest (by decide)
  exact hcodes e he hzero

end Vfs
