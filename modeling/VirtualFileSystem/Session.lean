import VirtualFileSystem.FullHash
import VirtualFileSystem.Remount

/-!
# Sessions under a contract

Rules a client can keep that knows only what it was answered: it follows the reference store, and
whether bytes were given free since the last repack.  Under these rules every session answers as the
reference does, through remounts and recomputed hashes, from any valid images.
-/

namespace Vfs

open FlatImage Extents ByteStore

/-! ## The contract -/

/-- The reference store, and whether the files are known to lie without gaps. -/
structure Ledger where
  store : Store (List UInt8)
  packed : Bool

/-- There is room for the bytes to become `length` many. -/
def Ledger.Room (bytes : List UInt8) (length : ℕ) (l : Ledger) : Prop :=
  total l.store.files.entries + length ≤ l.store.capacity + bytes.length

/-- The bytes under the name may become more: there are no gaps, and no other name is empty if
this one is. -/
def Ledger.MayGrow (name bytes : List UInt8) (l : Ledger) : Prop :=
  l.packed = true ∧ (bytes = [] → ∀ e ∈ l.store.files.entries, e.1 ≠ name → e.2 ≠ [])

/-- What a client may call: bytes grow without gaps only, and from nothing only while no other name
is empty; bytes are not cut to nothing; and a new name stands among the others where the old one
did. -/
def Call.Allowed : Call → Ledger → Prop
  | .resize name length, l => ∀ bytes ∈ l.store.files.lookup name.bytes,
      (length = 0 → bytes = []) ∧
      (bytes.length < length → l.Room bytes length → l.MayGrow name.bytes bytes)
  | .write name offset count _, l => ∀ bytes ∈ l.store.files.lookup name.bytes,
      offset ≤ bytes.length → bytes.length < offset + count → l.Room bytes (offset + count) →
        l.MayGrow name.bytes bytes
  | .rename old new, l => old.bytes ∈ l.store.files → new.bytes ∉ l.store.files →
      ∀ n ∈ l.store.files.keys, n ≠ old.bytes →
        (strncmp n old.bytes (nameLen - 1) < 0 ↔ strncmp n new.bytes (nameLen - 1) < 0)
  | .create _ _, _ | .delete _, _ | .repack, _ | .read _ _ _, _ | .size _, _ => True

instance (bytes : List UInt8) (length : ℕ) (l : Ledger) : Decidable (l.Room bytes length) := by
  unfold Ledger.Room; infer_instance

instance (name bytes : List UInt8) (l : Ledger) : Decidable (l.MayGrow name bytes) := by
  unfold Ledger.MayGrow; infer_instance

instance decidableAllowed : ∀ (c : Call) (l : Ledger), Decidable (c.Allowed l)
  | .resize name length, l => inferInstanceAs (Decidable (∀ bytes ∈ l.store.files.lookup name.bytes,
      (length = 0 → bytes = []) ∧
      (bytes.length < length → l.Room bytes length → l.MayGrow name.bytes bytes)))
  | .write name offset count _, l => inferInstanceAs (Decidable
      (∀ bytes ∈ l.store.files.lookup name.bytes, offset ≤ bytes.length →
        bytes.length < offset + count → l.Room bytes (offset + count) →
          l.MayGrow name.bytes bytes))
  | .rename old new, l => inferInstanceAs (Decidable (old.bytes ∈ l.store.files →
      new.bytes ∉ l.store.files → ∀ n ∈ l.store.files.keys, n ≠ old.bytes →
        (strncmp n old.bytes (nameLen - 1) < 0 ↔ strncmp n new.bytes (nameLen - 1) < 0)))
  | .create _ _, _ | .delete _, _ | .repack, _ | .read _ _ _, _ | .size _, _ => .isTrue trivial

/-- Whether the files are known to lie without gaps behind the call. -/
def Call.packs : Call → Ledger → Bool
  | .repack, _ => true
  | .delete name, l => l.packed && (l.store.files.lookup name.bytes).all fun bytes => bytes = []
  | .resize name length, l =>
    l.packed && (l.store.files.lookup name.bytes).all fun bytes => bytes.length ≤ length
  | .create _ _, l | .write _ _ _ _, l | .rename _ _, l | .read _ _ _, l | .size _, l => l.packed

/-- The ledger describes the state. -/
structure Ledger.Describes (l : Ledger) (s : Filesys) : Prop where
  represents : Represents s l.store
  gapless : l.packed = true → Gapless s

section Contract

variable {k : ℕ} {s s' : Filesys} {l : Ledger} {c : Call} {p q : Ptr} {name : CString}
  {length : ℕ}

/-- A file that is not the named one has another name. -/
theorem Represents.other (hrep : Represents s l.store) (hs : Sound k s) (hm : Mountable s)
    (hp : p ∈ s.live) (hq : q ∈ s.live) (hpq : q ≠ p) :
    named s q ∈ l.store.files.entries ∧ (named s q).1 ≠ (s.heap p).name.bytes := by
  refine ⟨hrep.files.mem_iff.mp (List.mem_map_of_mem hq), fun he => hpq ?_⟩
  -- the search for the name finds both
  obtain ⟨r, -, hr⟩ := hs.nameIndex.search (s.heap p) (hm.named p hp)
  have hn : (s.heap q).name = (s.heap p).name := FileName.ext he
  exact Option.some_inj.mp (((hr q).mpr ⟨hq, hn⟩).symm.trans ((hr p).mpr ⟨hp, rfl⟩))

/-- Under the contract a file that may grow for the client may grow for the filesystem. -/
theorem Ledger.Describes.growTame (hd : l.Describes s) (hs : Healthy k s) (hk : k ≤ 23)
    (hm : Mountable s) (hlen : name.bytes.length < nameLen)
    (hl : lookup name s = .ok (some p))
    (hgrow : l.Room (bytesOf s p) length → l.MayGrow name.bytes (bytesOf s p))
    (hroom : s.used + length ≤ s.fileDataLen + (s.heap p).length) : GrowTame p s := by
  obtain ⟨hfdl, -, -, htotal, hcap, -⟩ := hs.sound.sizes hk hd.represents
  obtain ⟨hp, hn, -, -, hbytes⟩ := hs.sound.found hk hd.represents hlen hl
  obtain ⟨hpacked, honly⟩ := hgrow (by unfold Ledger.Room; omega)
  refine ⟨hd.gapless hpacked, fun h0 q hq hqp => ?_⟩
  obtain ⟨hmem, hne⟩ := hd.represents.other hs.sound hm hp hq hqp
  rw [hn, toFileName_bytes hlen] at hne
  have hq0 := honly (List.length_eq_zero_iff.mp (hbytes.trans h0)) _ hmem hne
  rw [← bytesOf_length (hs.sound.layout.extentsApart (by omega)) hq]
  exact List.length_pos_iff.mpr hq0

/-- The name of a live file is one of the store's, and fits. -/
theorem Represents.key (hrep : Represents s l.store) (hp : p ∈ s.live) :
    (s.heap p).name.bytes ∈ l.store.files.keys :=
  List.mem_map.mpr ⟨named s p, hrep.files.mem_iff.mp (List.mem_map_of_mem hp), rfl⟩

/-- What the contract allows is tame. -/
theorem Call.Allowed.tame (ha : c.Allowed l) (hs : Healthy k s) (hk : k ≤ 23)
    (hm : Mountable s) (hd : l.Describes s) (hsmall : c.Small) : c.Tame s := by
  have hnames := hsmall.1
  cases c with
  | resize name length =>
    obtain ⟨-, hlen⟩ := hnames name (by simp [Call.names])
    refine ⟨fun p hp hl hgrow hroom => ?_, trivial, fun name' he p hp hl => ?_⟩
    · obtain ⟨-, -, -, hfound, hbytes⟩ := hs.sound.found hk hd.represents hlen hl
      exact hd.growTame hs hk hm hlen hl ((ha _ hfound).2 (hbytes.symm ▸ hgrow)) hroom
    · obtain ⟨rfl, rfl⟩ : name = name' ∧ length = 0 := by
        injection he with h1 h2
        exact ⟨h1, h2⟩
      obtain ⟨-, -, -, hfound, hbytes⟩ := hs.sound.found hk hd.represents hlen hl
      rw [← hbytes, (ha _ hfound).1 rfl]
      rfl
  | write name offset count buf =>
    obtain ⟨-, hlen⟩ := hnames name (by simp [Call.names])
    refine ⟨fun p hp hl hoff hgrow hroom => ?_, trivial, fun _ he => by cases he⟩
    obtain ⟨-, -, -, hfound, hbytes⟩ := hs.sound.found hk hd.represents hlen hl
    exact hd.growTame hs hk hm hlen hl
      (ha _ hfound (hbytes.symm ▸ hoff) (hbytes.symm ▸ hgrow)) hroom
  | rename old new =>
    obtain ⟨-, hold⟩ := hnames old (by simp [Call.names])
    obtain ⟨-, hnew⟩ := hnames new (by simp [Call.names])
    refine ⟨trivial, fun p hp hn hmiss q hq hqp => ?_, fun _ he => by cases he⟩
    obtain ⟨-, hne⟩ := hd.represents.other hs.sound hm hp hq hqp
    have hold' : old.bytes ∈ l.store.files := by
      have hkey := hd.represents.key hp
      rw [hn, toFileName_bytes hold] at hkey
      exact AList.mem_keys.mpr hkey
    have hnew' := AList.lookup_eq_none.mp (hd.represents.lookup_none hnew hmiss)
    unfold nameCmp
    rw [hn, toFileName_bytes hold] at hne
    rw [toFileName_bytes hold, toFileName_bytes hnew]
    exact ha hold' hnew' _ (hd.represents.key hq) hne
  | create _ _ => exact ⟨trivial, trivial, fun _ he => by cases he⟩
  | delete _ => exact ⟨trivial, trivial, fun _ he => by cases he⟩
  | repack => exact ⟨trivial, trivial, fun _ he => by cases he⟩
  | read _ _ _ => exact ⟨trivial, trivial, fun _ he => by cases he⟩
  | size _ => exact ⟨trivial, trivial, fun _ he => by cases he⟩

/-- A call that leaves a gap is one after which none is excluded. -/
theorem Call.packs_gaps (hs : Healthy k s) (hk : k ≤ 23) (hd : l.Describes s) (hsmall : c.Small)
    (hp : c.packs l = true) : c = .repack ∨ Gapless s ∧ ¬ c.Gaps s := by
  have hnames := hsmall.1
  cases c with
  | repack => exact Or.inl rfl
  | delete name =>
    obtain ⟨-, hlen⟩ := hnames name (by simp [Call.names])
    obtain ⟨hpk, hall⟩ := Bool.and_eq_true_iff.mp hp
    refine Or.inr ⟨hd.gapless hpk, ?_⟩
    rintro ⟨p, -, hl, h0⟩
    obtain ⟨-, -, -, hfound, hbytes⟩ := hs.sound.found hk hd.represents hlen hl
    rw [hfound, Option.all_some, decide_eq_true_iff] at hall
    rw [← hbytes, hall] at h0
    exact absurd h0 (lt_irrefl 0)
  | resize name length =>
    obtain ⟨-, hlen⟩ := hnames name (by simp [Call.names])
    obtain ⟨hpk, hall⟩ := Bool.and_eq_true_iff.mp hp
    refine Or.inr ⟨hd.gapless hpk, ?_⟩
    rintro ⟨p, -, hl, h0⟩
    obtain ⟨-, -, -, hfound, hbytes⟩ := hs.sound.found hk hd.represents hlen hl
    rw [hfound, Option.all_some, decide_eq_true_iff] at hall
    omega
  | create _ _ => exact Or.inr ⟨hd.gapless hp, id⟩
  | write _ _ _ _ => exact Or.inr ⟨hd.gapless hp, id⟩
  | rename _ _ => exact Or.inr ⟨hd.gapless hp, id⟩
  | read _ _ _ => exact Or.inr ⟨hd.gapless hp, id⟩
  | size _ => exact Or.inr ⟨hd.gapless hp, id⟩

end Contract

/-! ## Sessions -/

/-- What a client does: it calls, it has hashes computed anew, or it closes the filesystem and
mounts the images again. -/
inductive Action
  | call (c : Call)
  | computeHashTree
  | computeHashBlock (b : ℕ)
  | remount

def Action.exec : Action → Filesys → Run (Answer × Filesys)
  | .call c, s => Vfs.exec c s
  | .computeHashTree, s => do
    let s ← Vfs.computeHashTree s
    pure ((0, []), s)
  | .computeHashBlock b, s => do
    let s ← Vfs.computeHashBlock b s
    pure ((0, []), s)
  | .remount, s => do
    let s ← Vfs.remount s
    pure ((0, []), s)

/-- What the contract allows. -/
def Action.Allowed : Action → Ledger → Prop
  | .call c, l => c.Small ∧ c.Allowed l
  | .computeHashBlock b, l => blockLen * b < l.store.capacity
  | .computeHashTree, _ | .remount, _ => True

instance decidableAction : ∀ (a : Action) (l : Ledger), Decidable (a.Allowed l)
  | .call c, l => inferInstanceAs (Decidable (c.Small ∧ c.Allowed l))
  | .computeHashBlock b, l => inferInstanceAs (Decidable (blockLen * b < l.store.capacity))
  | .computeHashTree, _ | .remount, _ => .isTrue trivial

/-- What an action does to the ledger: calls go to the store, and nothing else can be seen. -/
def Action.next : Action → Ledger → Answer × Ledger
  | .call c, l => ((c.reference l.store).1, ⟨(c.reference l.store).2, c.packs l⟩)
  | .computeHashTree, l | .computeHashBlock _, l | .remount, l => ((0, []), l)

/-- The ledger along a list of actions. -/
abbrev Action.record (a : Action) (l : Ledger) : Run (Answer × Ledger) := .ok (a.next l)

/-- The state is in order, can be mounted again, and is described by the ledger. -/
structure InStep (k : ℕ) (s : Filesys) (l : Ledger) : Prop where
  healthy : Healthy k s
  mountable : Mountable s
  describes : l.Describes s

section Session

variable {k n : ℕ} {s s' t : Filesys} {l : Ledger} {a : Action} {file dir hash : List UInt8}

/-- Hashes that are right stay as they are when they are computed anew. -/
theorem Coherent.rehashed (hc : Coherent k s) (hp : Perfect k s) (hf : HashFrame s t)
    (hc' : Coherent k t) : t = s := by
  have hfile : t.file = s.file := by rw [hf.eq]
  rw [hf.eq, hc.unique hc' hp (hp.congr hf.kept.shape) hfile]

theorem Coherent.computeHashTree (hc : Coherent k s) (hp : Perfect k s) (hk : k ≤ 23) :
    Vfs.computeHashTree s = .ok s := by
  obtain ⟨t, hr, hf, hc'⟩ := computeHashTree_right hp hk
  rw [hr, hc.rehashed hp hf hc']

theorem Coherent.computeHashBlock (hc : Coherent k s) (hp : Perfect k s) (hk : k ≤ 23) {b : ℕ}
    (hb : b < 2 ^ k) : Vfs.computeHashBlock b s = .ok s := by
  have hbs : ∀ x ∈ [b], x < 2 ^ k := fun x hx => by
    rw [List.mem_singleton.mp hx]
    exact hb
  obtain ⟨t, hr, hh⟩ := computeHashBlocks_hashed hk [b] s hp hbs
  obtain ⟨t', hr', hr⟩ := Run.bind_eq_ok.mp hr
  obtain rfl : t' = t := Except.ok.inj hr
  have hc' := (hh.coherent_iff hbs hc rfl).mpr fun _ _ _ => rfl
  rw [hr', hc.rehashed hp hh.frame hc']

/-- An allowed action completes, answers as the ledger says and leaves both in step. -/
theorem Action.exec_follows (hs : InStep k s l) (hk : k ≤ 23) (ha : a.Allowed l) :
    ∃ s', a.exec s = .ok ((a.next l).1, s') ∧ InStep k s' (a.next l).2 := by
  obtain ⟨hh, hm, hd⟩ := hs
  cases a with
  | call c =>
    obtain ⟨hsmall, ha⟩ := ha
    have htame := ha.tame hh hk hm hd hsmall
    obtain ⟨s', hr, hs', hrep⟩ :=
      exec_refines hh.sound hk hd.represents hsmall (htame.safe hh hk)
    have hplaces := exec_places hh hk hsmall htame hr
    exact ⟨s', hr, ⟨hs', hplaces.empty⟩, exec_mountable hh.sound.mirror.liveOk hsmall.named hm hr,
      hrep, fun hp => hplaces.gapless (Call.packs_gaps hh hk hd hsmall hp)⟩
  | computeHashTree =>
    refine ⟨s, ?_, hh, hm, hd⟩
    show (Vfs.computeHashTree s >>= fun s => pure ((0, []), s)) = _
    rw [hh.sound.coherent.computeHashTree hh.sound.perfect hk]
    rfl
  | computeHashBlock b =>
    have hb : blockLen * b < l.store.capacity := ha
    refine ⟨s, ?_, hh, hm, hd⟩
    show (Vfs.computeHashBlock b s >>= fun s => pure ((0, []), s)) = _
    rw [hh.sound.coherent.computeHashBlock hh.sound.perfect hk]
    · rfl
    · rw [hd.represents.capacity, hh.sound.perfect.fileDataLen] at hb
      unfold blockLen at hb
      omega
  | remount =>
    obtain ⟨s', hr, h⟩ := hh.remount hk hm
    refine ⟨s', ?_, h.healthy, h.mountable, ⟨h.contents.trans hd.represents.files, ?_, ?_⟩,
      fun hp => h.gapless (hd.gapless hp)⟩
    · show (Vfs.remount s >>= fun s => pure ((0, []), s)) = _
      rw [hr]
      rfl
    · unfold Filesys.fileDataLen
      rw [h.images.1]
      exact hd.represents.capacity
    · rw [h.indexLen]
      exact hd.represents.maxFiles

/-- There is a store of the files of a state in order. -/
theorem WellFormed.represented (hw : WellFormed s) (hm : Mountable s) (hpf : Perfect k s)
    (hk : k ≤ 23) : ∃ m : Store (List UInt8), m.files.entries = contents s ∧
      m.capacity = s.fileDataLen ∧ m.maxFiles = s.indexLen ∧ Represents s m := by
  have hfdl := hpf.fileDataLen_le31 hk
  have hx := hw.layout.extentsApart (by omega)
  have htotal := total_contents hw.mirror hx
  have hused := hw.layout.used_le hw.mirror (by omega)
  have hnodup : (contents s).NodupKeys := by
    unfold List.NodupKeys List.keys contents
    rw [List.map_map]
    refine hw.mirror.liveOk.nodup.map_on fun p hp q hq he => ?_
    obtain ⟨r, -, hr⟩ := hw.nameIndex.search (s.heap p) (hm.named p hp)
    have hn : (s.heap p).name = (s.heap q).name := FileName.ext he
    exact Option.some_inj.mp (((hr p).mpr ⟨hp, rfl⟩).symm.trans ((hr q).mpr ⟨hq, hn.symm⟩))
  have hfits : total (contents s) ≤ s.fileDataLen := by omega
  have hroom : (contents s).length ≤ s.indexLen := by
    unfold contents
    rw [List.length_map]
    exact hw.mirror.counted.live_le
  exact ⟨⟨⟨contents s, hnodup⟩, s.fileDataLen, s.indexLen, hfits, hroom⟩, rfl, rfl, rfl,
    List.Perm.refl _, rfl, rfl⟩

theorem WellFormed.inStep (hw : WellFormed s) (hm : Mountable s) (hpf : Perfect k s)
    (hc : Coherent k s) (hd : l.Describes s) : InStep k s l :=
  ⟨⟨⟨hw.mirror, hw.layout, hw.names, hpf, hc⟩, hw.sentinel⟩, hm, hd⟩

theorem HashFrame.wellFormed (hf : HashFrame s t) (hw : WellFormed s) : WellFormed t := by
  refine ⟨hf.mirror hw.mirror, hf.layout hw.layout, ?_, ?_⟩
  · rw [hf.eq]
    exact hw.names
  · rw [hf.eq]
    exact hw.sentinel

theorem HashFrame.describes (hf : HashFrame s t) (hd : l.Describes s) : l.Describes t := by
  obtain ⟨⟨hfiles, hcap, hmax⟩, hg⟩ := hd
  rw [hf.eq]
  exact ⟨⟨hfiles, hcap, hmax⟩, hg⟩

/-- Images of sizes the program handles, and a valid directory. -/
structure ValidImages (k : ℕ) (file dir hash : List UInt8) : Prop where
  depth : k ≤ 23
  fileLen : file.length = blockLen * 2 ^ k
  hashLen : hash.length = Vfs.hashLen * (2 ^ (k + 1) - 1)
  dirNe : dir ≠ []
  entries : dir.length / metaLen ≤ maxNumFiles
  valid : DirectoryValid (dir.length / metaLen) dir file.length

/-- The files that the directory describes end within as many bytes as they have together. -/
def imagesPacked (n : ℕ) (file dir : List UInt8) : Bool :=
  decide (∀ i < n, Used (entry dir i) → entryLength (entry dir i) ≠ 0 →
    entryOffset (entry dir i) + entryLength (entry dir i) ≤ total (imageFiles n file dir))

theorem ValidImages.ne (h : ValidImages k file dir hash) : file ≠ [] ∧ dir ≠ [] ∧ hash ≠ [] := by
  have hpow := Nat.two_pow_pos k
  refine ⟨fun h0 => ?_, h.dirNe, fun h0 => ?_⟩
  · have hlen := h.fileLen
    rw [h0] at hlen
    unfold blockLen at hlen
    simp only [List.length_nil] at hlen
    omega
  · have hlen := h.hashLen
    rw [h0, Nat.pow_succ] at hlen
    unfold Vfs.hashLen at hlen
    simp only [List.length_nil] at hlen
    omega

/-- Mounting valid images gives a state in order, but for the hashes, and a ledger of the files
they describe. -/
theorem ValidImages.mount (h : ValidImages k file dir hash) :
    ∃ s m, initFs file dir hash = .ok s ∧ WellFormed s ∧ Mountable s ∧ Perfect k s ∧
      m.files.entries.Perm (imageFiles (dir.length / metaLen) file dir) ∧
      m.capacity = file.length ∧ m.maxFiles = dir.length / metaLen ∧
      Ledger.Describes ⟨m, imagesPacked (dir.length / metaLen) file dir⟩ s := by
  obtain ⟨s, hr, hlen⟩ := initFs_completes h.ne h.entries
  obtain ⟨hscan, hfile, hdir, -, -⟩ := initFs_scanned hr
  have hdepth := h.depth
  have hw : WellFormed s := (initFs_wellFormed_iff hr).mpr (by rw [hlen]; exact h.valid)
  have hm := initFs_mountable hr h.entries
  have hpf : Perfect k s := initFs_perfect (by omega) h.fileLen h.hashLen hr
  have hcontents : (contents s).Perm (imageFiles (dir.length / metaLen) file dir) := by
    rw [← hlen]
    exact initFs_contents hr
  have hfdl : s.fileDataLen = file.length := by
    unfold Filesys.fileDataLen
    rw [hfile]
  obtain ⟨m, hentries, hcap, hmax, hrep⟩ := hw.represented hm hpf hdepth
  refine ⟨s, m, hr, hw, hm, hpf, hentries ▸ hcontents, hcap.trans hfdl, hmax.trans hlen, hrep,
    fun hpacked p hp h0 => ?_⟩
  have hrec := hscan.record p hp
  have hoff := hrec.offset
  rw [hrec.length] at h0
  rw [hdir] at hrec hoff h0
  unfold loadOffset at hoff
  rw [if_neg h0.ne'] at hoff
  have hle := of_decide_eq_true hpacked _ (hlen ▸ hscan.bound p hp) hrec.used h0.ne'
  rw [← total_perm hcontents] at hle
  have htotal := total_contents hw.mirror
    (hw.layout.extentsApart (by have := hpf.fileDataLen_le31 hdepth; omega))
  rw [hoff, hrec.length, ← htotal]
  exact_mod_cast hle

/-- What a session leaves: images that describe the files of the ledger, hashes that verify, and no
record that closing would not free. -/
structure Leaves (k : ℕ) (s : Filesys) (l : Ledger) : Prop where
  files : (imageFiles (s.dir.length / metaLen) s.file s.dir).Perm l.store.files.entries
  valid : DirectoryValid (s.dir.length / metaLen) s.dir s.file.length
  trusted : Trusted k s
  freed : closeFs (some s) = .ok []

theorem InStep.leaves (h : InStep k s l) (hk : k ≤ 23) : Leaves k s l := by
  obtain ⟨hh, hm, hd⟩ := h
  refine ⟨?_, ?_, hh.sound.coherent.trusted hh.sound.perfect,
    closeFs_layout hh.sound.mirror.liveOk hh.sound.layout⟩
  · rw [← hm.indexLen]
    exact (hh.described hk hm).pictured.contents_perm.symm.trans hd.represents.files
  · rw [← hm.indexLen]
    exact hh.directoryValid hk hm

/-- Mounted and hashed anew, valid images are in step with a ledger of their files. -/
theorem ValidImages.hashed (h : ValidImages k file dir hash) :
    ∃ s₀ s₁ m, initFs file dir hash = .ok s₀ ∧ computeHashTree s₀ = .ok s₁ ∧
      m.files.entries.Perm (imageFiles (dir.length / metaLen) file dir) ∧
      m.capacity = file.length ∧ m.maxFiles = dir.length / metaLen ∧
      InStep k s₁ ⟨m, imagesPacked (dir.length / metaLen) file dir⟩ := by
  obtain ⟨s₀, m, hr, hw, hm, hpf, hfiles, hcap, hmax, hd⟩ := h.mount
  obtain ⟨s₁, hr₁, hf, hc⟩ := computeHashTree_right hpf h.depth
  exact ⟨s₀, s₁, m, hr, hr₁, hfiles, hcap, hmax, (hf.wellFormed hw).inStep (hm.kept hf.kept)
    (hpf.congr hf.kept.shape) hc (hf.describes hd)⟩

/-- A session that keeps the contract completes and is answered as the ledger says. -/
theorem InStep.session {as : List Action} (hs : InStep k s l) (hk : k ≤ 23)
    (ha : Trace.Along Action.record Action.Allowed as l) :
    ∃ bs s' l', Trace.run Action.exec as s = .ok (bs, s') ∧
      Trace.run Action.record as l = .ok (bs, l') ∧ InStep k s' l' :=
  @Trace.run_follows _ _ _ _ _ Action.exec Action.next (InStep k) Action.Allowed
    (fun _ _ _ hs ha => Action.exec_follows hs hk ha) as s l hs ha

/-- Knowing less of the gaps, and counting the files in another order. -/
theorem InStep.weaken (hs : InStep k s l) {l' : Ledger}
    (hfiles : l.store.files.entries.Perm l'.store.files.entries)
    (hcap : l'.store.capacity = l.store.capacity) (hmax : l'.store.maxFiles = l.store.maxFiles)
    (hpacked : l'.packed = true → l.packed = true) : InStep k s l' := by
  obtain ⟨hh, hm, ⟨hrep, hc, hx⟩, hg⟩ := hs
  exact ⟨hh, hm, ⟨hrep.trans hfiles, hcap.trans hc, hmax.trans hx⟩, fun h => hg (hpacked h)⟩

/-- **The layout does not show.**  Valid images of one size that describe the same files, wherever
their bytes and entries lie and whatever the free space and the hashes hold, cannot be told apart
by any session under the contract. -/
theorem layout_unobservable {file' dir' hash' : List UInt8} (h : ValidImages k file dir hash)
    (h' : ValidImages k file' dir' hash') (hmax : dir'.length / metaLen = dir.length / metaLen)
    (hsame : (imageFiles (dir'.length / metaLen) file' dir').Perm
      (imageFiles (dir.length / metaLen) file dir)) :
    ∃ s₀ s t₀ t l, initFs file dir hash = .ok s₀ ∧ computeHashTree s₀ = .ok s ∧
      initFs file' dir' hash' = .ok t₀ ∧ computeHashTree t₀ = .ok t ∧
      l.store.files.entries.Perm (imageFiles (dir.length / metaLen) file dir) ∧
      l.store.capacity = file.length ∧ l.store.maxFiles = dir.length / metaLen ∧
      l.packed = (imagesPacked (dir.length / metaLen) file dir &&
        imagesPacked (dir'.length / metaLen) file' dir') ∧
      ∀ as, Trace.Along Action.record Action.Allowed as l →
        ∃ bs s' t', Trace.run Action.exec as s = .ok (bs, s') ∧
          Trace.run Action.exec as t = .ok (bs, t') ∧
          (contents t').Perm (contents s') := by
  obtain ⟨s₀, s, m, hr, hc, hfiles, hcap, hmax₁, hs⟩ := h.hashed
  obtain ⟨t₀, t, m', hr', hc', hfiles', hcap', hmax', ht⟩ := h'.hashed
  have hlen : file'.length = file.length := h'.fileLen.trans h.fileLen.symm
  -- The ledger knows that there are no gaps only if neither pair of images has one.
  let l : Ledger := ⟨m, imagesPacked (dir.length / metaLen) file dir &&
    imagesPacked (dir'.length / metaLen) file' dir'⟩
  have hs' : InStep k s l :=
    hs.weaken (List.Perm.refl _) rfl rfl fun hp => (Bool.and_eq_true_iff.mp hp).1
  have ht' : InStep k t l :=
    ht.weaken (hfiles'.trans (hsame.trans hfiles.symm)) (by dsimp only [l]; omega)
      (by dsimp only [l]; omega) fun hp => (Bool.and_eq_true_iff.mp hp).2
  refine ⟨s₀, s, t₀, t, l, hr, hc, hr', hc', hfiles, hcap, hmax₁, rfl, fun as ha => ?_⟩
  obtain ⟨bs, s', l', hrun, hrec, hs'⟩ := hs'.session h.depth ha
  obtain ⟨bs', t', l'', hrun', hrec', ht'⟩ := ht'.session h.depth ha
  obtain ⟨rfl, rfl⟩ := Prod.mk.inj (Except.ok.inj (hrec.symm.trans hrec'))
  exact ⟨bs, s', t', hrun, hrun',
    ht'.describes.represents.files.trans hs'.describes.represents.files.symm⟩

theorem not_used_zeros (n i : ℕ) : ¬ Used (entry (zeros n) i) := by
  unfold Used
  rw [not_not]
  cases he : entry (zeros n) i with
  | nil => rfl
  | cons b bs =>
    have hb : b ∈ entry (zeros n) i := by rw [he]; exact List.mem_cons_self
    exact eq_zero_of_mem_zeros (mem_of_mem_slice hb)

/-- Images of null bytes are valid. -/
theorem blank_valid (hk : k ≤ 23) (hn0 : 0 < n) (hn : n ≤ maxNumFiles) :
    ValidImages k (zeros (blockLen * 2 ^ k)) (zeros (metaLen * n))
      (zeros (hashLen * (2 ^ (k + 1) - 1))) where
  depth := hk
  fileLen := length_zeros _
  hashLen := length_zeros _
  dirNe h := by
    have hlen := congrArg List.length h
    rw [length_zeros, List.length_nil] at hlen
    unfold metaLen at hlen
    omega
  entries := by rwa [length_zeros, Nat.mul_div_cancel_left n (by decide)]
  valid :=
    { names := fun i _ _ _ hu => absurd hu (not_used_zeros _ i)
      inside := fun i _ hu => absurd hu (not_used_zeros _ i)
      disjoint := fun i _ _ _ _ hu => absurd hu (not_used_zeros _ i) }

/-- Null bytes are in step with a store without files. -/
theorem blank_mounted (hk : k ≤ 23) (hn0 : 0 < n) (hn : n ≤ maxNumFiles) :
    ∃ s, initFs (zeros (blockLen * 2 ^ k)) (zeros (metaLen * n))
        (zeros (hashLen * (2 ^ (k + 1) - 1))) = .ok s ∧
      InStep k s ⟨Store.empty _ (blockLen * 2 ^ k) n, true⟩ := by
  obtain ⟨s, m, hr, hw, hm, hpf, hperm, hcap, hmax, hd⟩ := (blank_valid hk hn0 hn).mount
  have hentries : (zeros (metaLen * n)).length / metaLen = n := by
    rw [length_zeros, Nat.mul_div_cancel_left n (by decide)]
  have hpacked : imagesPacked n (zeros (blockLen * 2 ^ k)) (zeros (metaLen * n)) = true :=
    decide_eq_true fun i _ hu => absurd hu (not_used_zeros _ i)
  have himage : imageFiles n (zeros (blockLen * 2 ^ k)) (zeros (metaLen * n)) = [] := by
    unfold imageFiles
    rw [List.map_eq_nil_iff, List.filter_eq_nil_iff]
    exact fun i _ hu => not_used_zeros _ i (of_decide_eq_true hu)
  rw [hentries, hpacked] at hd
  rw [hentries, himage] at hperm
  rw [length_zeros] at hcap
  rw [hentries] at hmax
  obtain rfl : m = Store.empty _ (blockLen * 2 ^ k) n := by
    obtain ⟨⟨entries, hnd⟩, capacity, maxFiles, h1, h2⟩ := m
    obtain rfl : entries = _ := List.perm_nil.mp hperm
    obtain rfl : capacity = _ := hcap
    obtain rfl : maxFiles = _ := hmax
    rfl
  obtain ⟨-, hfile, -, hhash, -⟩ := initFs_scanned hr
  exact ⟨s, hr, hw.inStep hm hpf (coherent_of_zeros hfile hhash) hd⟩

end Session

/-- A directory with the file `a` of one byte at offset 5, and room for two more. -/
def soloDir : List UInt8 := [97] ++ zeros 63 ++ [5, 0, 0, 0, 1, 0, 0, 0] ++ zeros 144

set_option maxRecDepth 20000 in
theorem soloDir_valid : ValidImages 0 (zeros 256) soloDir (zeros 16) where
  depth := by decide
  fileLen := by decide
  hashLen := by decide
  dirNe := by decide
  entries := by decide
  valid :=
    { names := by unfold DistinctNames; decide +kernel
      inside := by unfold ExtentsInside; decide +kernel
      disjoint := by decide +kernel }

/-- The store that `soloDir` describes over null bytes. -/
def soloStore : Store (List UInt8) :=
  ⟨⟨[⟨[97], [0]⟩], List.nodupKeys_singleton _⟩, 256, 3, by simp [ByteStore.total], by simp⟩

set_option maxRecDepth 20000 in
/-- Mounted, `soloDir` over null bytes is in step with its store. -/
theorem solo_mounted : ∃ s, initFs (zeros 256) soloDir (zeros 16) = .ok s ∧
    InStep 0 s ⟨soloStore, false⟩ := by
  obtain ⟨s, m, hr, hw, hm, hpf, hperm, hcap, hmax, hd⟩ := soloDir_valid.mount
  have himage : imageFiles (soloDir.length / metaLen) (zeros 256) soloDir = [⟨[97], [0]⟩] := by
    decide +kernel
  have hpacked : imagesPacked (soloDir.length / metaLen) (zeros 256) soloDir = false := by
    decide +kernel
  rw [himage] at hperm
  rw [hpacked] at hd
  obtain rfl : m = soloStore := by
    obtain ⟨⟨entries, hnd⟩, capacity, maxFiles, h1, h2⟩ := m
    obtain rfl : entries = _ := List.perm_singleton.mp hperm
    obtain rfl : capacity = _ := hcap
    obtain rfl : maxFiles = _ := hmax
    rfl
  obtain ⟨-, hfile, -, hhash, -⟩ := initFs_scanned hr
  exact ⟨s, hr, hw.inStep hm hpf (coherent_of_zeros hfile hhash) hd⟩

/-- A file is created, grows once the other one was moved, and is read after a remount. -/
def soloSession : List Action :=
  [.call (.create (.ofByte 98 nul_ne_98) 0), .remount, .call .repack,
    .call (.write (.ofByte 98 nul_ne_98) 0 2 [1, 2]), .computeHashBlock 0,
    .call (.delete (.ofByte 97 nul_ne_97)), .computeHashTree, .call .repack, .remount,
    .call (.read (.ofByte 98 nul_ne_98) 0 2)]

/-- The file of `soloDir` in another entry and at another offset. -/
def movedDir : List UInt8 :=
  zeros 72 ++ [97] ++ zeros 63 ++ [0, 0, 0, 0, 1, 0, 0, 0] ++ zeros 72

set_option maxRecDepth 20000 in
theorem movedDir_valid : ValidImages 0 ([0] ++ List.replicate 255 9) movedDir (zeros 16) where
  depth := by decide
  fileLen := by decide
  hashLen := by decide
  dirNe := by decide
  entries := by decide
  valid :=
    { names := by unfold DistinctNames; decide +kernel
      inside := by unfold ExtentsInside; decide +kernel
      disjoint := by decide +kernel }

set_option maxRecDepth 20000 in
/-- The session answers the same over `movedDir`, whose free bytes are not null. -/
theorem layout_unobservable_moved : ∃ s₀ s t₀ t bs s' t',
    initFs (zeros 256) soloDir (zeros 16) = .ok s₀ ∧ computeHashTree s₀ = .ok s ∧
    initFs ([0] ++ List.replicate 255 9) movedDir (zeros 16) = .ok t₀ ∧
    computeHashTree t₀ = .ok t ∧ Trace.run Action.exec soloSession s = .ok (bs, s') ∧
    Trace.run Action.exec soloSession t = .ok (bs, t') ∧
    (contents t').Perm (contents s') := by
  obtain ⟨s₀, s, t₀, t, l, hr, hc, hr', hc', hperm, hcap, hmax, hpacked, hrun⟩ :=
    layout_unobservable soloDir_valid movedDir_valid (by decide) (by decide +kernel)
  have himage : imageFiles (soloDir.length / metaLen) (zeros 256) soloDir = [⟨[97], [0]⟩] := by
    decide +kernel
  have hgaps : imagesPacked (soloDir.length / metaLen) (zeros 256) soloDir = false := by
    decide +kernel
  rw [himage] at hperm
  rw [hgaps, Bool.false_and] at hpacked
  obtain rfl : l = ⟨soloStore, false⟩ := by
    obtain ⟨⟨⟨entries, hnd⟩, capacity, maxFiles, h1, h2⟩, packed⟩ := l
    obtain rfl : entries = _ := List.perm_singleton.mp hperm
    obtain rfl : capacity = _ := hcap
    obtain rfl : maxFiles = _ := hmax
    obtain rfl : packed = _ := hpacked
    rfl
  obtain ⟨bs, s', t', hs, ht, hsame⟩ := hrun soloSession (by decide +kernel)
  exact ⟨s₀, s, t₀, t, bs, s', t', hr, hc, hr', hc', hs, ht, hsame⟩

end Vfs
