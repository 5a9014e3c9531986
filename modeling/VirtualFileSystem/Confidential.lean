import VirtualFileSystem.ReadBack

/-!
# What a read can depend on

`read_file` checks the end of the range modulo `2 ^ 64`.  Where the sum does not wrap, the code and
the bytes are a function of the file alone.  Where it wraps to a value inside the file, the call
reads in front of the file, or stops outside `file_data`.
-/

namespace Vfs

open FlatImage

/-- Reading stays inside the file, and needs no block from `2 ^ 31` on. -/
def ReadFits (offset count : ℕ) (p : Ptr) (s : Filesys) : Prop :=
  (s.heap p).length < (offset + count) % 2 ^ 64 ∨
    offset + count < 2 ^ 64 ∧ (count = 0 ∨ (s.heap p).offset + offset + count ≤ 2 ^ 31)

instance (offset count : ℕ) (p : Ptr) (s : Filesys) : Decidable (ReadFits offset count p s) := by
  unfold ReadFits
  infer_instance

/-- From both states the call returns the same code and the same bytes, and bytes from inside the
file only. -/
def ReadsAlike (name : CString) (offset count : ℕ) (p : Ptr) (s t : Filesys) : Prop :=
  ∃ code data, readFile name offset count s = .ok (code, data) ∧
    readFile name offset count t = .ok (code, data) ∧
    (data ≠ [] → offset + count ≤ (s.heap p).length ∧ data = slice (bytesOf s p) offset count)

section Read

variable {k j offset count : ℕ} {s t : Filesys} {p q : Ptr} {name : CString}

theorem toU64_add (offset count : ℕ) :
    toU64 ((offset : ℤ) + count) = (offset + count) % 2 ^ 64 := by
  unfold toU64
  omega

/-- Blocks from `2 ^ 23` on are not verified: the address of the block overflows. -/
theorem verifyBlocks_bound (hp : Perfect k s) (hc : Coherent k s) {r : ℤ} :
    ∀ (n i : ℕ), verifyBlocks i n s = .ok r → 0 < n → i + n ≤ 2 ^ 23 := by
  intro n
  induction n with
  | zero =>
    intro i _ h0
    exact absurd h0 (lt_irrefl 0)
  | succ n ih =>
    intro i hr _
    obtain ⟨m, hm, hr⟩ := Run.bind_eq_ok.mp hr
    obtain ⟨ok, hok, hr⟩ := Run.bind_eq_ok.mp hr
    obtain rfl := verifyPath_coherent hp hc _ _ ok hok
    rw [if_pos rfl] at hr
    -- the leaf was hashed
    have hleaf : m = ((leaf k i : ℕ) : ℤ) := by
      unfold addI32 at hm
      split_ifs at hm
      have := Except.ok.inj hm
      rw [hp.leafOffset_eq] at this
      rw [← this]
      unfold leaf
      push_cast
      rfl
    rw [hleaf] at hok
    have hlt : i < 2 ^ 23 := by
      simp only [verifyPath] at hok
      rw [if_pos (Int.natCast_nonneg _)] at hok
      obtain ⟨h, hh, -⟩ := Run.bind_eq_ok.mp hok
      have := (hashNode_post hp hh).2
      unfold leaf at this
      omega
    rcases Nat.eq_zero_or_pos n with rfl | hpos
    · omega
    · have := ih (i + 1) (by exact_mod_cast hr) hpos
      omega

theorem verifyHashRange_bound (hp : Perfect k s) (hk : k ≤ 24) (hc : Coherent k s) {o l : ℕ}
    {r : ℤ} (hl : 0 < l) (hin : o + l ≤ s.file.length) (hr : verifyHashRange o l s = .ok r) :
    o + l ≤ 2 ^ 31 := by
  have h2 := two_pow_le_of_le hk
  obtain ⟨i, n, hi, hn, hle, heq⟩ := touched_eq hp hl hin
  have hlast : (o + l - 1) / blockLen ∈ touched o l := by
    unfold touched Touches blockLen
    simp only [Set.mem_ofPred_eq]
    omega
  rw [heq] at hlast
  obtain ⟨h1, h2'⟩ := hlast
  unfold verifyHashRange at hr
  rw [if_neg (by omega)] at hr
  dsimp only at hr
  rw [hi, toI32_of_bounds (by omega) (by omega), ← hi, hn, hi] at hr
  have := verifyBlocks_bound hp hc n i hr (by omega)
  unfold blockLen at h2'
  omega

/-- What a read that fits returns. -/
theorem readFile_fits {w : ℕ} (hm : Mirror w s) (hL : Layout s) (hp : Perfect k s) (hk : k ≤ 24)
    (hc : Coherent k s)
    (hl : lookup name s = .ok (some p)) (hfits : ReadFits offset count p s) :
    readFile name offset count s =
      if (s.heap p).length < (offset + count) % 2 ^ 64 then .ok (2, [])
      else .ok (0, slice (bytesOf s p) offset count) := by
  have hlive := (hm.liveOk.lookup hl).1
  have hlen := hm.counted.length_lt p hlive
  split_ifs with hgt
  · unfold readFile
    rw [hl, Run.ok_bind]
    dsimp only
    rw [toU64_add, if_pos hgt]
    rfl
  obtain ⟨hsum, hcase⟩ := hfits.resolve_left hgt
  rw [Nat.mod_eq_of_lt hsum] at hgt
  rcases Nat.eq_zero_or_pos count with rfl | hpos
  · unfold readFile
    rw [hl, Run.ok_bind]
    dsimp only
    rw [toU64_add, Nat.mod_eq_of_lt hsum, if_neg hgt, slice_zero]
    rfl
  · have hin := (hL.extentsApart (hp.fileDataLen_le hk)).inside p hlive (by omega)
    have hroom : (s.heap p).offset + offset + count ≤ s.file.length := by
      unfold Filesys.fileDataLen at hin
      omega
    rw [readFile_of_verified hp hk hl (by omega) hroom (hcase.resolve_left hpos.ne')
      fun b hb => hc.verified (touched_lt hp hroom b hb)]
    unfold bytesOf
    rw [slice_slice _ (by omega)]

/-- A read that does not fit returns bytes that are not in the range asked for, if it returns. -/
theorem readFile_leaks (hw : WellFormed s) (hp : Perfect k s) (hk : k ≤ 24) (hc : Coherent k s)
    (hl : lookup name s = .ok (some p)) (ho : offset < 2 ^ 64) (hfits : ¬ ReadFits offset count p s)
    {a : ℤ × List UInt8} (hr : readFile name offset count s = .ok a) :
    a.2 ≠ [] ∧ (s.heap p).length < offset + count := by
  have hlive := (hw.mirror.liveOk.lookup hl).1
  have hlen := hw.mirror.counted.length_lt p hlive
  unfold ReadFits at hfits
  push Not at hfits
  obtain ⟨hle, hfits⟩ := hfits
  unfold readFile at hr
  rw [hl, Run.ok_bind] at hr
  dsimp only at hr
  rw [toU64_add, if_neg hle.not_gt] at hr
  obtain ⟨bad, hbad, hr⟩ := Run.bind_eq_ok.mp hr
  rw [if_neg (not_not.mpr (verifyHashRange_coherent hp hc hbad))] at hr
  have h0 : count ≠ 0 := by
    rintro rfl
    exact (hfits (by omega)).1 rfl
  rw [if_neg h0] at hr
  obtain ⟨data, hdata, hr⟩ := Run.bind_eq_ok.mp hr
  obtain rfl := Except.ok.inj hr
  obtain ⟨⟨hge, hin⟩, rfl⟩ := memRead_eq_ok.mp hdata
  constructor
  · intro hnil
    have hlen0 := congrArg List.length hnil
    rw [length_slice_of_le (by omega), List.length_nil] at hlen0
    exact h0 hlen0
  · by_contra hle'
    -- without a wrap only the blocks from `2 ^ 31` on are left, and they do not verify
    have hsum : offset + count < 2 ^ 64 := by omega
    obtain ⟨-, hbig⟩ := hfits hsum
    have hx := (hw.layout.extentsApart (hp.fileDataLen_le hk)).inside p hlive (by omega)
    have hroom : (s.heap p).offset + offset + count ≤ s.file.length := by
      unfold Filesys.fileDataLen at hx
      omega
    have hfdl : s.file.length ≤ 2 ^ 32 := hp.fileDataLen_le hk
    rw [← Nat.cast_add, toI64_of_lt (by omega), toI64_of_lt (by omega)] at hbad
    have := verifyHashRange_bound hp hk hc (by omega) hroom hbad
    omega

/-- **Confidentiality.**  From two well-formed coherent states that agree on the file a read returns
the same, from inside the file, exactly when it fits in both. -/
theorem readsAlike_iff (hs : WellFormed s) (ht : WellFormed t) (hps : Perfect k s)
    (hpt : Perfect j t) (hk : k ≤ 24) (hj : j ≤ 24) (hcs : Coherent k s) (hct : Coherent j t)
    (hls : lookup name s = .ok (some p)) (hlt : lookup name t = .ok (some q))
    (hlen : (t.heap q).length = (s.heap p).length) (hbytes : bytesOf t q = bytesOf s p)
    (ho : offset < 2 ^ 64) :
    ReadsAlike name offset count p s t ↔ ReadFits offset count p s ∧ ReadFits offset count q t := by
  constructor
  · rintro ⟨code, data, h1, h2, hin⟩
    constructor
    · by_contra hfits
      obtain ⟨hne, hgt⟩ := readFile_leaks hs hps hk hcs hls ho hfits h1
      exact absurd (hin hne).1 hgt.not_ge
    · by_contra hfits
      obtain ⟨hne, hgt⟩ := readFile_leaks ht hpt hj hct hlt ho hfits h2
      rw [hlen] at hgt
      exact absurd (hin hne).1 hgt.not_ge
  · rintro ⟨hfs, hft⟩
    have h1 := readFile_fits hs.mirror hs.layout hps hk hcs hls hfs
    have h2 := readFile_fits ht.mirror ht.layout hpt hj hct hlt hft
    rw [hlen, hbytes] at h2
    by_cases hgt : (s.heap p).length < (offset + count) % 2 ^ 64
    · rw [if_pos hgt] at h1 h2
      exact ⟨2, [], h1, h2, fun h => absurd rfl h⟩
    · rw [if_neg hgt] at h1 h2
      refine ⟨0, _, h1, h2, fun _ => ⟨?_, rfl⟩⟩
      rw [Nat.mod_eq_of_lt (hfs.resolve_left hgt).1] at hgt
      omega

end Read

/-! ## A byte of another file -/

/-- A block that starts with the byte `x`. -/
def startsWith (x : UInt8) : List UInt8 := x :: zeros 255

/-- What the file systems with one byte in `a` and one in `b` have in common. -/
structure SecondFile (x : UInt8) (s : Filesys) (p : Ptr) : Prop where
  wellFormed : WellFormed s
  perfect : Perfect 0 s
  coherent : Coherent 0 s
  found : lookup (.ofByte 98 (by decide)) s = .ok (some p)
  bytes : (s.heap p).length = 1 ∧ bytesOf s p = [0]
  before : readFile (.ofByte 98 (by decide)) (2 ^ 64 - 1) 1 s = .ok (0, [x])

set_option maxRecDepth 20000 in
theorem secondFile_of {x : UInt8} (hx : x = 0 ∨ x = 1) :
    ∃ s p, initFs (startsWith x) twoFiles (fletcher (startsWith x)) = .ok s ∧ SecondFile x s p := by
  have hrun : Run.Holds (initFs (startsWith x) twoFiles (fletcher (startsWith x))) fun s =>
      ((s.file.length = 256 ∧ s.hash.length = 16 ∧ s.leafOffset = 0) ∧
        node s 0 = fletcher (block s 0)) ∧
      Run.Holds (lookup (.ofByte 98 (by decide)) s) (fun r => ∃ p ∈ s.live, r = some p ∧
        (s.heap p).length = 1 ∧ bytesOf s p = [0]) ∧
      Run.Holds (readFile (.ofByte 98 (by decide)) (2 ^ 64 - 1) 1 s) fun r => r = (0, [x]) := by
    rcases hx with rfl | rfl
    · decide +kernel
    · decide +kernel
  obtain ⟨s, hinit, ⟨⟨h1, h2, h3⟩, hleaf⟩, hlook, hread⟩ := Run.holds_iff.mp hrun
  obtain ⟨r, hl, p, -, rfl, hlen, hbytes⟩ := Run.holds_iff.mp hlook
  obtain ⟨r, hr, rfl⟩ := Run.holds_iff.mp hread
  refine ⟨s, p, hinit, twoFiles_wellFormed rfl hinit, ⟨h1, h2, h3⟩,
    ⟨fun n hn => ?_, fun b hb => ?_⟩, hl, ⟨hlen, hbytes⟩, hr⟩
  · exact absurd hn (Nat.not_lt_zero n)
  · obtain rfl : b = 0 := by omega
    exact hleaf

/-- Two states that differ in the byte of `a`, and a read of the byte of `b`. -/
theorem readsAlike_two : ∃ s t p q,
    initFs (startsWith 0) twoFiles (fletcher (startsWith 0)) = .ok s ∧
    initFs (startsWith 1) twoFiles (fletcher (startsWith 1)) = .ok t ∧
    (ReadsAlike (.ofByte 98 (by decide)) 0 1 p s t ↔ ReadFits 0 1 p s ∧ ReadFits 0 1 q t) := by
  obtain ⟨s, p, hs, h⟩ := secondFile_of (Or.inl rfl)
  obtain ⟨t, q, ht, h'⟩ := secondFile_of (Or.inr rfl)
  exact ⟨s, t, p, q, hs, ht, readsAlike_iff h.wellFormed h'.wellFormed h.perfect h'.perfect
    (by decide) (by decide) h.coherent h'.coherent h.found h'.found
    (h'.bytes.1.trans h.bytes.1.symm) (h'.bytes.2.trans h.bytes.2.symm) (by norm_num)⟩

/-- With the offset `2 ^ 64 - 1` the read of `b` returns the byte of `a`. -/
theorem readsAlike_fails : ¬ ∀ (k j : ℕ) (s t : Filesys) (p q : Ptr) (name : CString)
    (offset count : ℕ), WellFormed s → WellFormed t → Perfect k s → Perfect j t → k ≤ 24 →
    j ≤ 24 → Coherent k s → Coherent j t → lookup name s = .ok (some p) →
    lookup name t = .ok (some q) → (t.heap q).length = (s.heap p).length →
    bytesOf t q = bytesOf s p → offset < 2 ^ 64 → count < 2 ^ 64 →
    ReadsAlike name offset count p s t := by
  intro hall
  obtain ⟨s, p, -, h⟩ := secondFile_of (Or.inl rfl)
  obtain ⟨t, q, -, h'⟩ := secondFile_of (Or.inr rfl)
  obtain ⟨code, data, h1, h2, -⟩ := hall 0 0 s t p q _ (2 ^ 64 - 1) 1 h.wellFormed h'.wellFormed
    h.perfect h'.perfect (by decide) (by decide) h.coherent h'.coherent h.found h'.found
    (h'.bytes.1.trans h.bytes.1.symm) (h'.bytes.2.trans h.bytes.2.symm) (by norm_num) (by norm_num)
  rw [h.before] at h1
  rw [h'.before] at h2
  have he := h1.trans h2.symm
  exact absurd he (by decide)

end Vfs
