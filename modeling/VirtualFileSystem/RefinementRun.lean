import VirtualFileSystem.Refinement

/-!
# Runs against the reference store

As long as extents stay lined up, renamings keep the order of names and relocations leave no stale
hash, every call keeps the state in order and answers as the reference store does.  By simulation
so does every run from null images.
-/

namespace Vfs

open FlatImage Extents ByteStore

/-! ## The reference -/

def coded (x : ℤ × Store (List UInt8)) : Answer × Store (List UInt8) := ((x.1, []), x.2)

/-- What a call does to the reference store. -/
def Call.reference : Call → Store (List UInt8) → Answer × Store (List UInt8)
  | .create name length, m => coded (m.create name.bytes length)
  | .resize name length, m => coded (m.resize name.bytes length)
  | .write name offset count buf, m => coded (m.write name.bytes offset (buf.take count))
  | .delete name, m => coded (m.delete name.bytes)
  | .rename old new, m => coded (m.rename old.bytes new.bytes)
  | .repack, m => ((0, []), m)
  | .read name offset count, m => (m.read name.bytes offset count, m)
  | .size name, m => ((m.size name.bytes, []), m)

/-- Names fit a name field and are not empty, numbers are below `2 ^ 32`, and the buffer holds the
bytes to write. -/
def Call.Small (c : Call) : Prop :=
  (∀ name ∈ c.names, name.bytes ≠ [] ∧ name.bytes.length < nameLen) ∧
  match c with
  | .create _ length | .resize _ length => length < 2 ^ 32
  | .write _ offset count buf => offset < 2 ^ 32 ∧ count < 2 ^ 32 ∧ count ≤ buf.length
  | .read _ offset count => offset < 2 ^ 32 ∧ count < 2 ^ 32
  | .delete _ | .rename _ _ | .repack | .size _ => True

instance decidableSmall : ∀ c : Call, Decidable c.Small
  | .create _ length | .resize _ length => inferInstanceAs (Decidable (_ ∧ length < 2 ^ 32))
  | .write _ _ _ _ => inferInstanceAs (Decidable (_ ∧ _ ∧ _ ∧ _))
  | .read _ _ _ => inferInstanceAs (Decidable (_ ∧ _ ∧ _))
  | .delete _ | .rename _ _ | .repack | .size _ => inferInstanceAs (Decidable (_ ∧ True))

/-- A relocation that has room leaves no block with another hash than the one stored. -/
def Call.FitsRehashed (k : ℕ) (c : Call) (s : Filesys) : Prop :=
  c.Grows (fun p length copy => s.used + length ≤ s.fileDataLen + (s.heap p).length →
    Relocates p length s → Rehashed k p length copy s) s

/-- Extents stay lined up, names in order and hashes right. -/
def Call.Safe (k : ℕ) (c : Call) (s : Filesys) : Prop :=
  c.LayoutSafe s ∧ c.KeepsOrder s ∧ c.FitsRehashed k s

instance (k : ℕ) (c : Call) (s : Filesys) : Decidable (c.Safe k s) := by
  unfold Call.Safe Call.FitsRehashed
  infer_instance

/-! ## Every call -/

section Exec

variable {k : ℕ} {s s' : Filesys} {m : Store (List UInt8)} {c : Call} {a : Answer}
  {data : List UInt8}

theorem Call.Small.named (h : c.Small) : c.Named := fun name hn => (h.1 name hn).1

theorem Call.Small.bounds {n : ℕ} (h : c.Small) (hn : n < 2 ^ 32) :
    c.InBounds ∧ c.Sized ∧ c.Fits32 n := by
  obtain ⟨-, h⟩ := h
  cases c with
  | create name length =>
    have h : length < 2 ^ 32 := h
    exact ⟨h.trans (by norm_num), h.trans (by norm_num), h⟩
  | resize name length =>
    have h : length < 2 ^ 32 := h
    exact ⟨h.trans (by norm_num), h.trans (by norm_num), h⟩
  | write name offset count buf =>
    obtain ⟨hoff, hcount, hbuf⟩ : offset < 2 ^ 32 ∧ count < 2 ^ 32 ∧ count ≤ buf.length := h
    exact ⟨⟨hoff.trans (by norm_num), hcount.trans (by norm_num), hbuf⟩,
      ⟨hoff.trans (by norm_num), hcount.trans (by norm_num)⟩, fun hle => hle.trans_lt hn⟩
  | read name offset count =>
    obtain ⟨hoff, hcount⟩ : offset < 2 ^ 32 ∧ count < 2 ^ 32 := h
    exact ⟨⟨hoff.trans (by norm_num), hcount.trans (by norm_num)⟩,
      ⟨hoff.trans (by norm_num), hcount.trans (by norm_num)⟩, trivial⟩
  | delete name => exact ⟨trivial, trivial, trivial⟩
  | rename old new => exact ⟨trivial, trivial, trivial⟩
  | repack => exact ⟨trivial, trivial, trivial⟩
  | size name => exact ⟨trivial, trivial, trivial⟩

theorem Call.Safe.repackSafe (h : c.Safe k s) : c.RepackSafe s := by
  have hlayout := h.1
  cases c with
  | create name length => exact hlayout
  | repack => exact hlayout
  | resize _ _ => trivial
  | write _ _ _ _ => trivial
  | delete _ => trivial
  | rename _ _ => trivial
  | read _ _ _ => trivial
  | size _ => trivial

/-- A relocation that was made had room. -/
theorem Call.Safe.rehashes (h : c.Safe k s) (hm : Mirror (nameLen - 1) s) (hsmall : c.Small)
    (hr : exec c s = .ok ((0, data), s')) : c.Rehashes k s := by
  have hrehashed := h.2.2
  cases c with
  | resize name length =>
    have hlen : length < 2 ^ 32 := hsmall.2
    intro p hp hl hgrow
    refine hrehashed p hp hl hgrow ?_
    rcases resizeFile_post (code_post hr).1 with ⟨h0, -⟩ | ⟨q, hq, ⟨h0, -⟩ | ⟨-, hadm, -⟩⟩
    · cases h0
    · cases h0
    obtain rfl : p = q := Option.some_inj.mp (Except.ok.inj (hl.symm.trans hq))
    exact admitted_le hm hp (by omega) hadm
  | write name offset count buf =>
    obtain ⟨hoff32, hcount32, -⟩ : offset < 2 ^ 32 ∧ count < 2 ^ 32 ∧ count ≤ buf.length := hsmall.2
    intro p hp hl hoff hgrow
    refine hrehashed p hp hl hoff hgrow ?_
    rcases writeFile_post (code_post hr).1 with
      ⟨h0, -⟩ | ⟨q, hq, ⟨h0, -⟩ | ⟨h0, -⟩ | ⟨-, -, hadm, -⟩⟩
    · cases h0
    · cases h0
    · cases h0
    obtain rfl : p = q := Option.some_inj.mp (Except.ok.inj (hl.symm.trans hq))
    rw [add_assoc, ← Nat.cast_add] at hadm
    exact admitted_le hm hp (by omega) hadm
  | create _ _ => trivial
  | delete _ => trivial
  | rename _ _ => trivial
  | repack => trivial
  | read _ _ _ => trivial
  | size _ => trivial

/-- A safe call completes and keeps the state in order. -/
theorem exec_sound (hs : Sound k s) (hk : k ≤ 23) (hsmall : c.Small) (hsafe : c.Safe k s) :
    ∃ a s', exec c s = .ok (a, s') ∧ Shape s s' ∧ Sound k s' := by
  have hfdl := hs.perfect.fileDataLen_le31 hk
  obtain ⟨hb, hsize, hfit⟩ := hsmall.bounds (show s.fileDataLen < 2 ^ 32 by omega)
  obtain ⟨⟨r, data⟩, s', hr, hfail⟩ :=
    exec_total hs.mirror hs.layout hs.perfect hk hsmall.named hb
  refine ⟨_, s', hr, (exec_liveOk hs.mirror.liveOk hsmall.named hr).2.shape, ?_⟩
  by_cases h0 : r = 0
  · subst h0
    have hm := exec_mirror (by decide) hs.mirror (hs.layout.inRange (by omega)) (by omega)
      hsmall.named hfit hr
    have hn := exec_nameSorted hs.mirror.liveOk hs.names hsmall.named hsafe.2.1 hr
    obtain ⟨hpf, hiff⟩ := exec_rehashed hs.mirror hs.layout hs.perfect hk hs.coherent hsize
      hsafe.repackSafe hr
    exact ⟨hm.1, exec_layout hs.mirror hs.layout (by omega) hsmall.named hfit hsafe.1 hr, hn.2, hpf,
      hiff.mpr (hsafe.rehashes hs.mirror hsmall hr)⟩
  · rw [hfail h0]
    exact hs

theorem coded_represents {r : ℤ × Store (List UInt8)} (ha : a.2 = [])
    (h : a.1 = r.1 ∧ Represents s' r.2) : a = (coded r).1 ∧ Represents s' (coded r).2 :=
  ⟨Prod.ext h.1 ha, h.2⟩

/-- A safe call answers as the reference does. -/
theorem exec_refines (hs : Sound k s) (hk : k ≤ 23) (hrep : Represents s m) (hsmall : c.Small)
    (hsafe : c.Safe k s) : ∃ s', exec c s = .ok ((c.reference m).1, s') ∧ Sound k s' ∧
      Represents s' (c.reference m).2 := by
  obtain ⟨a, s', hr, hshape, hs'⟩ := exec_sound hs hk hsmall hsafe
  suffices h : a = (c.reference m).1 ∧ Represents s' (c.reference m).2 from
    ⟨s', by rw [← h.1]; exact hr, hs', h.2⟩
  have hnames := hsmall.1
  have hlayout := hsafe.1
  cases c with
  | create name length =>
    obtain ⟨hne, hlen⟩ := hnames name (by simp [Call.names])
    obtain ⟨hr, ha⟩ := code_post hr
    exact coded_represents ha
      (createFile_represents hs hk hrep hne hlen hsmall.2 hlayout hshape hr)
  | resize name length =>
    obtain ⟨hne, hlen⟩ := hnames name (by simp [Call.names])
    obtain ⟨hr, ha⟩ := code_post hr
    exact coded_represents ha
      (resizeFile_represents hs hk hrep hne hlen hsmall.2 hlayout hshape hr)
  | write name offset count buf =>
    obtain ⟨hne, hlen⟩ := hnames name (by simp [Call.names])
    obtain ⟨hoff, hcount, hbuf⟩ : offset < 2 ^ 32 ∧ count < 2 ^ 32 ∧ count ≤ buf.length := hsmall.2
    obtain ⟨hr, ha⟩ := code_post hr
    exact coded_represents ha
      (writeFile_represents hs hk hrep hne hlen hoff hcount hbuf hlayout hshape hr)
  | delete name =>
    obtain ⟨hne, hlen⟩ := hnames name (by simp [Call.names])
    obtain ⟨hr, ha⟩ := code_post hr
    exact coded_represents ha (deleteFile_represents hs hk hrep hne hlen hshape hr)
  | rename old new =>
    obtain ⟨hne, hlen⟩ := hnames old (by simp [Call.names])
    obtain ⟨hnew, hnlen⟩ := hnames new (by simp [Call.names])
    obtain ⟨hr, ha⟩ := code_post hr
    exact coded_represents ha
      (renameFile_represents hs hk hrep hne hlen hnew hnlen hshape hr)
  | repack =>
    obtain ⟨rfl, hat⟩ := exec_repack_post hr
    exact ⟨rfl, repack_represents hs hk hrep hlayout hshape hat⟩
  | read name offset count =>
    obtain ⟨hne, hlen⟩ := hnames name (by simp [Call.names])
    obtain ⟨hoff, hcount⟩ : offset < 2 ^ 32 ∧ count < 2 ^ 32 := hsmall.2
    obtain ⟨rfl, hr⟩ := exec_read_post hr
    rw [readFile_represents hs hk hrep hne hlen hoff hcount] at hr
    exact ⟨(Except.ok.inj hr).symm, hrep⟩
  | size name =>
    obtain ⟨hne, hlen⟩ := hnames name (by simp [Call.names])
    obtain ⟨x, hx, hr⟩ := Run.bind_eq_ok.mp hr
    rw [fileSize_represents hs hk hrep hne hlen] at hx
    obtain rfl := Except.ok.inj hx
    obtain ⟨rfl, rfl⟩ := Prod.mk.inj (Except.ok.inj hr)
    exact ⟨rfl, hrep⟩

end Exec

/-! ## Runs -/

/-- The answers of the reference to a list of calls. -/
def references (cs : List Call) (m : Store (List UInt8)) :
    Run (List Answer × Store (List UInt8)) :=
  Trace.run (fun c m => .ok (c.reference m)) cs m

section Runs

variable {k : ℕ} {dir : List UInt8} {s₀ : Filesys} {cs : List Call}

theorem cell_zeros {w n i : ℕ} (h : w * i + w ≤ n) : cell w (zeros n) i = zeros w := by
  unfold cell slice zeros
  rw [List.drop_replicate, List.take_replicate]
  congr 1
  omega

/-- The tree over null images is right: the hash of null bytes is null. -/
theorem coherent_of_zeros {s : Filesys} (hfile : s.file = zeros (blockLen * 2 ^ k))
    (hhash : s.hash = zeros (hashLen * (2 ^ (k + 1) - 1))) : Coherent k s := by
  have hnull : fletcher (zeros 32) = zeros hashLen ∧ fletcher (zeros 256) = zeros hashLen := by
    decide +kernel
  have hpow : 2 ^ (k + 1) = 2 * 2 ^ k := by ring
  have hnode : ∀ n < 2 ^ (k + 1) - 1, node s n = zeros hashLen := by
    intro n hn
    unfold node
    rw [hhash, cell_zeros]
    rw [← Nat.mul_succ]
    exact Nat.mul_le_mul_left _ hn
  refine ⟨fun n hn => ?_, fun b hb => ?_⟩
  · show node s n = hashPair (node s (2 * n + 1)) (node s (2 * n + 2))
    rw [hnode n (by omega), hnode (2 * n + 1) (by omega), hnode (2 * n + 2) (by omega)]
    exact hnull.1.symm
  · have hblock : block s b = zeros 256 := by
      unfold block
      rw [hfile, cell_zeros]
      · rfl
      · rw [← Nat.mul_succ]
        exact Nat.mul_le_mul_left _ hb
    show node s (leaf k b) = fletcher (block s b)
    rw [hblock, hnull.2, hnode]
    unfold leaf
    omega

/-- Null images are in order, and represent the empty store. -/
theorem initFs_zero_sound (hk : k ≤ 23) (hzero : ∀ b ∈ dir, b = 0)
    (hinit : initFs (zeros (blockLen * 2 ^ k)) dir (zeros (hashLen * (2 ^ (k + 1) - 1))) = .ok s₀) :
    Sound k s₀ ∧ Represents s₀ (Store.empty _ s₀.fileDataLen s₀.indexLen) := by
  obtain ⟨hm, hL, -⟩ := initFs_zero_layout hzero hinit
  have hp := initFs_perfect (by omega) (length_zeros _) (length_zeros _) hinit
  obtain ⟨n, -, -, rfl⟩ := initFs_zero hzero hinit
  exact ⟨⟨hm, hL, List.Pairwise.nil, hp, coherent_of_zeros rfl rfl⟩, List.Perm.nil, rfl, rfl⟩

/-- **Refinement.**  From null images every run of safe calls answers as the reference does. -/
theorem refinement_run (hk : k ≤ 23) (hzero : ∀ b ∈ dir, b = 0)
    (hinit : initFs (zeros (blockLen * 2 ^ k)) dir (zeros (hashLen * (2 ^ (k + 1) - 1))) = .ok s₀)
    (hsmall : ∀ c ∈ cs, c.Small) (hsafe : Trace.Along exec (Call.Safe k) cs s₀) :
    ∃ as s m, Trace.run exec cs s₀ = .ok (as, s) ∧
      references cs (Store.empty _ s₀.fileDataLen s₀.indexLen) = .ok (as, m) ∧
      Represents s m ∧ Trusted k s := by
  have hsmall' : Trace.Along exec (fun c _ => c.Small) cs s₀ :=
    Trace.along_of_forall (fun _ _ h => h) cs s₀ hsmall
  obtain ⟨as, s, m, hrun, href, hs, hrep⟩ := @Trace.run_simulates _ _ _ _ _ exec
    (fun c s => c.Small ∧ c.Safe k s) Call.reference (fun s m => Sound k s ∧ Represents s m)
    (fun c s m hR hP => exec_refines hR.1 hk hR.2 hP.1 hP.2) cs s₀ _
    (initFs_zero_sound hk hzero hinit) (hsmall'.and hsafe)
  exact ⟨as, s, m, hrun, href, hrep, hs.coherent.trusted hs.perfect⟩

end Runs

set_option maxRecDepth 20000 in
/-- The answers to the calls of `shuffleCalls`, and to a read behind them. -/
theorem refinement_run_shuffle : ∃ s₀ as s m,
    initFs (zeros 256) (zeros 216) (zeros 16) = .ok s₀ ∧
    Trace.run exec (shuffleCalls ++ [.read (.ofByte 98 (by decide)) 0 1]) s₀ = .ok (as, s) ∧
    references (shuffleCalls ++ [.read (.ofByte 98 (by decide)) 0 1])
      (Store.empty _ s₀.fileDataLen s₀.indexLen) = .ok (as, m) ∧
    Represents s m ∧ Trusted 0 s := by
  obtain ⟨s₀, hinit, hsafe⟩ := Run.holds_iff.mp
    (show Run.Holds (initFs (zeros 256) (zeros 216) (zeros 16)) (Trace.Along exec (Call.Safe 0)
      (shuffleCalls ++ [.read (.ofByte 98 (by decide)) 0 1])) by decide +kernel)
  obtain ⟨as, s, m, h⟩ := refinement_run (by decide) (fun _ => eq_zero_of_mem_zeros) hinit
    (by decide +kernel) hsafe
  exact ⟨s₀, as, s, m, hinit, h⟩

set_option maxRecDepth 20000 in
/-- After renaming the first of two files behind the second the second is not found. -/
theorem refinement_run_fails : ¬ ∀ (k : ℕ) (dir : List UInt8) (s₀ s : Filesys) (cs : List Call)
    (as as' : List Answer) (m : Store (List UInt8)), k ≤ 23 → (∀ b ∈ dir, b = 0) →
    initFs (zeros (blockLen * 2 ^ k)) dir (zeros (hashLen * (2 ^ (k + 1) - 1))) = .ok s₀ →
    (∀ c ∈ cs, c.Small) → Trace.run exec cs s₀ = .ok (as, s) →
    references cs (Store.empty _ s₀.fileDataLen s₀.indexLen) = .ok (as', m) → as = as' := by
  intro h
  obtain ⟨cs, hsmall, hbad⟩ : ∃ cs : List Call, (∀ c ∈ cs, c.Small) ∧
      Run.Holds (initFs (zeros 256) (zeros 144) (zeros 16)) fun s₀ =>
        Run.Holds (Trace.run exec cs s₀) fun r =>
          Run.Holds (references cs (Store.empty _ s₀.fileDataLen s₀.indexLen)) fun r' =>
            r.1 ≠ r'.1 :=
    ⟨[.create (.ofByte 97 (by decide)) 0, .create (.ofByte 98 (by decide)) 0,
      .rename (.ofByte 97 (by decide)) (.ofByte 99 (by decide)), .size (.ofByte 98 (by decide))],
      by decide +kernel, by decide +kernel⟩
  obtain ⟨s₀, hinit, hbad⟩ := Run.holds_iff.mp hbad
  obtain ⟨⟨as, s⟩, hr, hbad⟩ := Run.holds_iff.mp hbad
  obtain ⟨⟨as', m⟩, hr', hne⟩ := Run.holds_iff.mp hbad
  exact hne (h 0 _ s₀ s cs as as' m (by decide) (fun _ => eq_zero_of_mem_zeros) hinit hsmall hr hr')

end Vfs
