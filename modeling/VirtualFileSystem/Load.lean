import VirtualFileSystem.MirrorCalls
import VirtualFileSystem.NameIndex

/-!
# Reading the directory

The loop of `init_fs` after `i` entries: `n_list` is sorted, and the entries before `i` describe
the live files.  With distinct names no insertion into `n_list` fails, so the loop keeps this, and
at its end the directory mirrors memory.
-/

namespace Vfs

open FlatImage

/-! ## Entries as `init_fs` reads them -/

/-- The entry holds a file: its first byte is not NUL. -/
def Used (e : List UInt8) : Prop := e.headD 0 ≠ 0

/-- The name `init_fs` gives the file of an entry. -/
def loadName (e : List UInt8) : FileName := FileName.ofField (e.take (nameLen - 1))

/-- The offset `init_fs` gives the file of an entry. -/
def loadOffset (e : List UInt8) : ℕ :=
  if entryLength e = 0 then maxFileDataLen else entryOffset e

instance (e : List UInt8) : Decidable (Used e) := by unfold Used; infer_instance

section Entry

variable {d e : List UInt8} {i n : ℕ}

theorem loadName_bytes (e : List UInt8) : (loadName e).bytes = entryName (nameLen - 1) e := by
  unfold loadName FileName.ofField entryName
  simp only [List.take_take, Nat.min_self]

theorem memRead_entry {o k : ℕ} (hin : metaLen * i + metaLen ≤ d.length) (ho : o + k ≤ metaLen) :
    memRead d ((metaLen * i + o : ℕ) : ℤ) k = .ok (slice (entry d i) o k) := by
  rw [memRead_of (by omega)]
  unfold entry cell
  rw [slice_slice d ho]

theorem entryLength_lt (e : List UInt8) : entryLength e < 2 ^ 32 := by
  have h := leVal_lt (slice e (nameLen + offsetLen) 4)
  have hl : (slice e (nameLen + offsetLen) 4).length ≤ 4 := by rw [length_slice]; omega
  calc entryLength e < 2 ^ (8 * (slice e (nameLen + offsetLen) 4).length) := h
    _ ≤ 2 ^ 32 := Nat.pow_le_pow_right (by omega) (by omega)

theorem entryOffset_lt (e : List UInt8) : entryOffset e < 2 ^ 32 := by
  have h := leVal_lt (slice e nameLen 4)
  have hl : (slice e nameLen 4).length ≤ 4 := by rw [length_slice]; omega
  calc entryOffset e < 2 ^ (8 * (slice e nameLen 4).length) := h
    _ ≤ 2 ^ 32 := Nat.pow_le_pow_right (by omega) (by omega)

/-- The name read within 63 bytes is the name within the whole field if that has a NUL. -/
theorem entryName_of_terminated (h : (0 : UInt8) ∈ e.take nameLen) :
    entryName nameLen e = entryName (nameLen - 1) e := by
  unfold entryName
  have hsplit : e.take nameLen = e.take (nameLen - 1) ++ (e.drop (nameLen - 1)).take 1 := by
    rw [← List.take_add]
    rfl
  rw [hsplit, List.takeWhile_append]
  split_ifs with hall
  · -- no NUL among the first 63 bytes, so the last one is it
    have hself : (e.take (nameLen - 1)).takeWhile (· ≠ 0) = e.take (nameLen - 1) :=
      (List.takeWhile_prefix _).eq_of_length hall
    have hnot : (0 : UInt8) ∉ e.take (nameLen - 1) := by
      rw [← hself]
      exact fun hm => by simpa using List.mem_takeWhile_imp hm
    rw [hsplit] at h
    have hlast := (List.mem_append.mp h).resolve_left hnot
    have hnil : ((e.drop (nameLen - 1)).take 1).takeWhile (· ≠ 0) = [] := by
      cases hd : e.drop (nameLen - 1) with
      | nil => rfl
      | cons b bs =>
        rw [hd] at hlast
        obtain rfl : (0 : UInt8) = b := by simpa using hlast
        simp
    rw [hnil, List.append_nil, hself]
  · rfl

end Entry

/-! ## One iteration -/

/-- One iteration in terms of the entry it reads. -/
theorem initLoop_succ {i n : ℕ} {s : Filesys} (hin : metaLen * i + metaLen ≤ s.dir.length) :
    initLoop i (n + 1) s =
      if Used (entry s.dir i) then do
        let s₁ ← sortedInsert .offset s.next (fileInit (loadName (entry s.dir i))
          (loadOffset (entry s.dir i)) (entryLength (entry s.dir i)) i s).2
        let s₂ ← sortedInsert .name s.next s₁
        initLoop (i + 1) n { s₂ with
          used := toI64 (s₂.used + (s₂.heap s.next).length)
          index := s₂.index.set i 1
          indexCount := s₂.indexCount + 1 }
      else initLoop (i + 1) n s := by
  have h1 : memRead s.dir ((metaLen * i : ℕ) : ℤ) (nameLen - 1) =
      .ok ((entry s.dir i).take (nameLen - 1)) := by
    rw [take_eq_slice]
    exact memRead_entry (o := 0) hin (by decide)
  have h2 := memRead_entry (o := nameLen + offsetLen) (k := 4) hin (by decide)
  have h3 := memRead_entry (o := nameLen) (k := 4) hin (by decide)
  have hhead : ((entry s.dir i).take (nameLen - 1)).headD 0 = (entry s.dir i).headD 0 := by
    cases entry s.dir i <;> rfl
  have hoff : (if leVal (slice (entry s.dir i) (nameLen + offsetLen) 4) = 0 then
        pure maxFileDataLen
      else do
        let offsetBytes ← memRead s.dir ((metaLen * i + nameLen : ℕ) : ℤ) 4
        pure (leVal offsetBytes) : Run ℕ) = .ok (loadOffset (entry s.dir i)) := by
    unfold loadOffset entryLength
    rw [h3]
    split_ifs <;> rfl
  rw [initLoop, h1, Run.ok_bind, hhead]
  by_cases hu : Used (entry s.dir i)
  · have hu' : (entry s.dir i).headD 0 ≠ 0 := hu
    rw [if_pos hu, if_pos hu', h2, Run.ok_bind]
    simp only [hoff, Run.ok_bind]
    rfl
  · have hu' : ¬ (entry s.dir i).headD 0 ≠ 0 := hu
    rw [if_neg hu, if_neg hu']

/-! ## The loop -/

/-- The state after `i` entries. -/
structure Loaded (w i : ℕ) (s : Filesys) : Prop where
  liveOk : LiveOk s
  sorted : NameSorted s.heap s.nList.list
  counted : Counted s
  live_le : s.live.length ≤ i
  dir : DirInv w s.live s.heap s.dir i
  used : ∀ p ∈ s.live, Used (entry s.dir (s.heap p).index)

/-- What `init_fs` relies on: among the first `n` entries, those in use have distinct names, and
the names end where those of the width `w` do. -/
structure DirOk (w n : ℕ) (d : List UInt8) : Prop where
  size : metaLen * n ≤ d.length
  width : nameLen - 1 ≤ w ∧ w ≤ nameLen
  name : ∀ i < n, Used (entry d i) → entryName w (entry d i) = entryName (nameLen - 1) (entry d i)
  distinct : ∀ i < n, ∀ j < n, Used (entry d i) → Used (entry d j) →
    entryName (nameLen - 1) (entry d i) = entryName (nameLen - 1) (entry d j) → i = j

/-- What the iteration over entry `i` does. -/
inductive LoadStep (i : ℕ) (s : Filesys) : Filesys → Prop
  | skip (hu : ¬ Used (entry s.dir i)) : LoadStep i s s
  | load (hu : Used (entry s.dir i)) (s₁ : Filesys)
      (h : Registered (loadName (entry s.dir i)) (loadOffset (entry s.dir i))
        (entryLength (entry s.dir i)) i s s₁) :
      LoadStep i s { s₁ with
        used := toI64 (s.used + entryLength (entry s.dir i))
        index := s.index.set i 1
        indexCount := s.indexCount + 1 }

section Loop

variable {w i n : ℕ} {s s' s₁ : Filesys}

/-- The name of the next entry is new. -/
theorem Loaded.name_ne (hl : Loaded w i s) (hd : DirOk w n s.dir) (hi : i < n)
    (hu : Used (entry s.dir i)) : ∀ p ∈ s.live, (s.heap p).name ≠ loadName (entry s.dir i) := by
  intro p hp he
  have hlt := hl.dir.bound p hp
  have hup := hl.used p hp
  have hname := (hl.dir.entry p hp).name
  rw [he, loadName_bytes, hd.name _ (hlt.trans hi) hup] at hname
  exact hlt.ne (hd.distinct _ (hlt.trans hi) i hi hup hu hname)

theorem Loaded.free (hl : Loaded w i s) (hi : i < s.indexLen) :
    s.index[i]? = some 0 := by
  rcases hl.counted.slot i hi with ⟨-, p, hp, hpi⟩ | h
  · exact absurd hpi (hl.dir.bound p hp).ne
  · exact h.1

theorem LoadStep.shape (h : LoadStep i s s') : Shape s s' ∧ s'.dir = s.dir := by
  cases h with
  | skip hu => exact ⟨Shape.refl _, rfl⟩
  | load hu s₁ h =>
    have hd : s₁.dir = s.dir := by rw [h.eq]
    refine ⟨⟨?_, ?_, ?_, ?_, ?_, ?_⟩, hd⟩
    · show s₁.file.length = _
      rw [h.eq]
    · show s₁.dir.length = _
      rw [h.eq]
    · show s₁.hash.length = _
      rw [h.eq]
    · show s₁.indexLen = _
      rw [h.eq]
    · show s₁.treeLen = _
      rw [h.eq]
    · show s₁.leafOffset = _
      rw [h.eq]

/-- An entry that is not in use is free. -/
theorem DirInv.skip {live : List Ptr} {h : Heap} {d : List UInt8} (hd : DirInv w live h d i)
    (hsize : metaLen * (i + 1) ≤ d.length) (helen : (Vfs.entry d i).length = metaLen)
    (hu : ¬ Used (Vfs.entry d i)) : DirInv w live h d (i + 1) := by
  refine ⟨hsize, fun p hp => (hd.bound p hp).trans (Nat.lt_succ_self _), hd.inj, hd.entry,
    fun j hj hf => ?_⟩
  by_cases hji : j = i
  · subst hji
    have hzero : (Vfs.entry d j).headD 0 = 0 := not_not.mp hu
    cases he : Vfs.entry d j with
    | nil =>
      rw [he] at helen
      cases helen
    | cons b bs =>
      rw [he] at hzero
      have hb : b = 0 := hzero
      simp [hb]
  · exact hd.free j (by omega) hf

/-- An entry in use belongs to the file that is read from it. -/
theorem DirInv.load {live : List Ptr} {p : Ptr} {h : Heap} {d : List UInt8}
    (hd : DirInv w live h d i) (hsize : metaLen * (i + 1) ≤ d.length) (hindex : (h p).index = i)
    (hentry : EntryOk w (Vfs.entry d i) (h p)) : DirInv w (p :: live) h d (i + 1) := by
  refine ⟨hsize, fun q hq => ?_, fun q hq r hr he => ?_, fun q hq => ?_, fun j hj hf => ?_⟩
  · rcases List.mem_cons.mp hq with hqp | hq
    · rw [hqp, hindex]
      exact Nat.lt_succ_self _
    · exact (hd.bound q hq).trans (Nat.lt_succ_self _)
  · rcases List.mem_cons.mp hq with hqp | hq
    · rcases List.mem_cons.mp hr with hrp | hr
      · exact hqp.trans hrp.symm
      · rw [hqp, hindex] at he
        exact absurd he.symm (hd.bound r hr).ne
    · rcases List.mem_cons.mp hr with hrp | hr
      · rw [hrp, hindex] at he
        exact absurd he (hd.bound q hq).ne
      · exact hd.inj q hq r hr he
  · rcases List.mem_cons.mp hq with hqp | hq
    · rw [hqp, hindex]
      exact hentry
    · exact hd.entry q hq
  · have hji : j ≠ i := fun he => hf p List.mem_cons_self (hindex.trans he.symm)
    exact hd.free j (by omega) fun q hq => hf q (List.mem_cons_of_mem _ hq)

theorem Loaded.step (hl : Loaded w i s) (hd : DirOk w n s.dir) (hi : i < n)
    (hn : n = s.indexLen) (h : LoadStep i s s') : Loaded w (i + 1) s' := by
  have hsize : metaLen * (i + 1) ≤ s.dir.length :=
    (Nat.mul_le_mul_left _ hi).trans hd.size
  cases h with
  | skip hu =>
    exact ⟨hl.liveOk, hl.sorted, hl.counted, hl.live_le.trans (Nat.le_succ _),
      hl.dir.skip hsize (entry_length hd.size hi) hu, hl.used⟩
  | load hu s₁ hreg =>
    have hfresh : s.next ∉ s.live := fun hm => (hl.liveOk.fresh _ hm).false
    have hold : ∀ q ∈ s.live, (s₁.heap q).Same (s.heap q) :=
      fun q hq => hreg.old q fun he => hfresh (he ▸ hq)
    have hlive := hreg.live
    have hdir : s₁.dir = s.dir := by rw [hreg.eq]
    have hindex : (s₁.heap s.next).index = i := hreg.new.2.2.2
    have hentry : EntryOk w (entry s.dir i) (s₁.heap s.next) := by
      refine ⟨?_, fun ho => ?_, ?_⟩
      · rw [hreg.new.1, loadName_bytes]
        exact hd.name i hi hu
      · rw [hreg.new.2.1] at ho ⊢
        unfold loadOffset at ho ⊢
        split_ifs at ho ⊢
        · exact absurd ho (lt_irrefl _)
        · rfl
      · rw [hreg.new.2.2.1]
    have hroom : s.live.length < s.indexLen := lt_of_le_of_lt hl.live_le (hn ▸ hi)
    refine ⟨?_, hreg.nameSorted hl.liveOk hl.sorted, ?_, ?_, ?_, ?_⟩
    · exact ⟨hreg.liveOk.offsets.congr rfl rfl (fun _ => rfl) rfl,
        hreg.liveOk.names.congr rfl rfl (fun _ => rfl) rfl, hreg.liveOk.perm, hreg.liveOk.fresh⟩
    · refine hreg.counted hl.liveOk hl.counted (hl.free (hn ▸ hi)) hroom (entryLength_lt _) rfl rfl
        ?_ rfl rfl rfl
      show s₁.indexLen = _
      rw [hreg.eq]
    · show s₁.live.length ≤ _
      rw [hlive, List.length_cons]
      exact Nat.succ_le_succ hl.live_le
    · show DirInv w s₁.live s₁.heap s₁.dir (i + 1)
      rw [hlive, hdir]
      exact (hl.dir.congr hold).load hsize hindex hentry
    · intro p hp
      show Used (entry s₁.dir (s₁.heap p).index)
      rw [hdir]
      have hp' : p ∈ s.next :: s.live := hlive ▸ hp
      rcases List.mem_cons.mp hp' with rfl | hp
      · rw [hindex]
        exact hu
      · rw [(hold p hp).2.2.2]
        exact hl.used p hp

/-- From a loaded state the iteration completes, and it is a `LoadStep`. -/
theorem Loaded.initLoop_succ (hl : Loaded w i s) (hd : DirOk w n s.dir) (hi : i < n)
    (hn : n = s.indexLen) (m : ℕ) :
    ∃ s', LoadStep i s s' ∧ initLoop i (m + 1) s = initLoop (i + 1) m s' := by
  rw [Vfs.initLoop_succ (metaLen_mul_le hd.size hi)]
  by_cases hu : Used (entry s.dir i)
  · have hroom : s.live.length < s.indexLen := lt_of_le_of_lt hl.live_le (hn ▸ hi)
    obtain ⟨j, -, hj⟩ := arrGetIndex_name_of_not_mem
      (f := ⟨loadName (entry s.dir i), loadOffset (entry s.dir i), entryLength (entry s.dir i), i,
        -1, -1⟩) hl.liveOk.names.type_eq hl.sorted
      (fun p hp => hl.name_ne hd hi hu p (hl.liveOk.mem_live hp)) true
    obtain ⟨s₁, s₂, h1, h2⟩ := register_total hl.liveOk hroom (loadName (entry s.dir i))
      (loadOffset (entry s.dir i)) (entryLength (entry s.dir i)) i
    have hreg := registered_post hl.liveOk ⟨j, hj⟩ h1 h2
    refine ⟨_, .load hu s₂ hreg, ?_⟩
    have hused : s₂.used = s.used := by rw [hreg.eq]
    have hindex : s₂.index = s.index := by rw [hreg.eq]
    have hcount : s₂.indexCount = s.indexCount := by rw [hreg.eq]
    rw [if_pos hu, h1, Run.ok_bind, h2, Run.ok_bind, hused, hindex, hcount, hreg.new.2.2.1]
  · exact ⟨s, .skip hu, if_neg hu⟩

/-- The loop completes, and what its steps preserve holds at its end. -/
theorem initLoop_induct {I : ℕ → Filesys → Prop} (hn : n = s.indexLen) (hd : DirOk w n s.dir)
    (hstep : ∀ i s₁ s₂, i < n → s₁.dir = s.dir → Loaded w i s₁ → I i s₁ → LoadStep i s₁ s₂ →
      I (i + 1) s₂) :
    ∀ (m i : ℕ) (s₁ : Filesys), i + m = n → s₁.dir = s.dir → Shape s s₁ → Loaded w i s₁ → I i s₁ →
      ∃ s', initLoop i m s₁ = .ok s' ∧ s'.dir = s.dir ∧ Shape s s' ∧ Loaded w n s' ∧ I n s' := by
  intro m
  induction m with
  | zero =>
    intro i s₁ him hdir hsh hl hI
    obtain rfl : i = n := him
    exact ⟨s₁, rfl, hdir, hsh, hl, hI⟩
  | succ m ih =>
    intro i s₁ him hdir hsh hl hI
    have hd₁ : DirOk w n s₁.dir := hdir ▸ hd
    have hn₁ : n = s₁.indexLen := hn.trans hsh.indexLen.symm
    obtain ⟨s₂, hls, heq⟩ := hl.initLoop_succ hd₁ (by omega) hn₁ m
    obtain ⟨hsh₂, hdir₂⟩ := hls.shape
    rw [heq]
    exact ih (i + 1) s₂ (by omega) (hdir₂.trans hdir) (hsh.trans hsh₂)
      (hl.step hd₁ (by omega) hn₁ hls) (hstep i s₁ s₂ (by omega) hdir hl hI hls)

/-- The state before the loop. -/
theorem initState_loaded {file dir hash : List UInt8} (hn : n ≤ maxNumFiles) :
    Loaded w 0 (initState file dir hash ⟨n, .offset, []⟩ ⟨n, .name, []⟩) := by
  refine ⟨initState_liveOk n, List.Pairwise.nil, ⟨hn, ?_, fun i hi => Or.inr ⟨?_, ?_⟩, rfl,
    Nat.zero_le _, rfl, ?_⟩, le_rfl, ⟨by simp, ?_, ?_, ?_, ?_⟩, ?_⟩
  · simp [initState]
  · have hi' : i < n := hi
    simp [initState, hi']
  all_goals simp [initState]

end Loop

end Vfs
