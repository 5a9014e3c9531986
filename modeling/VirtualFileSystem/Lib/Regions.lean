import VirtualFileSystem.Lib.ByteStore

/-!
# Regions of a store

What a call answers, and what it leaves of a region of the store, depends on a few regions only: the
bytes under the names it is given, the set of names, the number of bytes in all.
-/

namespace ByteStore

/-- A region of a store: the bytes under a name, the names, or the number of bytes in all. -/
inductive Region (κ : Type)
  | bytes (name : κ)
  | names
  | room
  deriving DecidableEq

variable {κ : Type} [DecidableEq κ]

/-- The region is the same on both sides. -/
def Region.Alike :
    Region κ → AList (fun _ : κ => List UInt8) → AList (fun _ : κ => List UInt8) → Prop
  | .bytes name, f, g => f.lookup name = g.lookup name
  | .names, f, g => f.keys.Perm g.keys
  | .room, f, g => total f.entries = total g.entries

/-- The stores have the same bounds, and the same region. -/
structure Store.Alike (x : Region κ) (m m' : Store κ) : Prop where
  capacity : m.capacity = m'.capacity
  maxFiles : m.maxFiles = m'.maxFiles
  region : x.Alike m.files m'.files

/-! ## Files -/

section Files

variable {x : Region κ} {f g h : AList fun _ : κ => List UInt8} {name new : κ}
  {data : List UInt8}

theorem Region.Alike.refl (x : Region κ) (f : AList fun _ : κ => List UInt8) : x.Alike f f := by
  cases x with
  | bytes name => exact Eq.refl (f.lookup name)
  | names => exact List.Perm.refl f.keys
  | room => exact Eq.refl (total f.entries)

theorem Region.Alike.trans (h1 : x.Alike f g) (h2 : x.Alike g h) : x.Alike f h := by
  cases x with
  | bytes name => exact Eq.trans h1 h2
  | names => exact List.Perm.trans h1 h2
  | room => exact Eq.trans h1 h2

/-- Stored anew, the bytes under a name count instead of the old ones. -/
theorem total_insert (f : AList fun _ : κ => List UInt8) (name : κ) (data : List UInt8) :
    total (f.insert name data).entries + ((f.lookup name).getD []).length =
      total f.entries + data.length := by
  rw [entries_insert, total_cons]
  cases hl : f.lookup name with
  | none =>
    rw [erase_of_lookup_none hl]
    simp only [Option.getD_none, List.length_nil]
    omega
  | some bytes =>
    have ht := total_perm (perm_of_lookup hl)
    simp only [total_cons] at ht
    simp only [Option.getD_some]
    omega

theorem total_erase (f : AList fun _ : κ => List UInt8) (name : κ) :
    total (f.erase name).entries + ((f.lookup name).getD []).length = total f.entries := by
  have h := total_insert f name []
  rw [entries_insert, total_cons] at h
  simpa using h

/-- Storing bytes under a name that stands for the same on both sides keeps each region alike. -/
theorem Region.Alike.insert (hx : x.Alike f g) (hn : f.lookup name = g.lookup name)
    (data : List UInt8) : x.Alike (f.insert name data) (g.insert name data) := by
  cases x with
  | bytes n =>
    show (f.insert name data).lookup n = (g.insert name data).lookup n
    by_cases hne : n = name
    · subst hne
      rw [AList.lookup_insert, AList.lookup_insert]
    · rw [AList.lookup_insert_ne hne, AList.lookup_insert_ne hne]
      exact hx
  | names =>
    show (f.insert name data).keys.Perm (g.insert name data).keys
    rw [AList.keys_insert, AList.keys_insert]
    exact (List.Perm.erase name hx).cons name
  | room =>
    have hf := total_insert f name data
    have hg := total_insert g name data
    have ht : total f.entries = total g.entries := hx
    show total (f.insert name data).entries = total (g.insert name data).entries
    rw [hn] at hf
    omega

theorem Region.Alike.erase (hx : x.Alike f g) (hn : f.lookup name = g.lookup name) :
    x.Alike (f.erase name) (g.erase name) := by
  cases x with
  | bytes n =>
    show (f.erase name).lookup n = (g.erase name).lookup n
    by_cases hne : n = name
    · subst hne
      rw [AList.lookup_erase, AList.lookup_erase]
    · rw [AList.lookup_erase_ne hne, AList.lookup_erase_ne hne]
      exact hx
  | names =>
    show (f.erase name).keys.Perm (g.erase name).keys
    rw [AList.keys_erase, AList.keys_erase]
    exact List.Perm.erase name hx
  | room =>
    have hf := total_erase f name
    have hg := total_erase g name
    have ht : total f.entries = total g.entries := hx
    show total (f.erase name).entries = total (g.erase name).entries
    rw [hn] at hf
    omega

/-- The bytes under a name move to a new one. -/
theorem Region.Alike.move (hx : x.Alike f g) (hn : f.lookup name = g.lookup name)
    (hnew : f.lookup new = g.lookup new) (data : List UInt8) :
    x.Alike ((f.erase name).insert new data) ((g.erase name).insert new data) :=
  (hx.erase hn).insert (Region.Alike.erase (x := .bytes new) hnew hn) data

/-- Storing bytes under a name leaves the other names theirs. -/
theorem alike_insert_bytes (hne : new ≠ name) (data : List UInt8) :
    (Region.bytes new).Alike f (f.insert name data) := (AList.lookup_insert_ne hne).symm

theorem alike_erase_bytes (hne : new ≠ name) : (Region.bytes new).Alike f (f.erase name) :=
  (AList.lookup_erase_ne hne).symm

/-- Storing bytes under one of the names adds none. -/
theorem alike_insert_names (hmem : name ∈ f) (data : List UInt8) :
    Region.names.Alike f (f.insert name data) := by
  show f.keys.Perm (f.insert name data).keys
  rw [AList.keys_insert]
  exact List.perm_cons_erase (AList.mem_keys.mp hmem)

end Files

/-! ## Calls -/

namespace Store

section Calls

variable {x : Region κ} {m m' m'' : Store κ} {f g : AList fun _ : κ => List UInt8} {name new : κ}
  {refusal : ℤ} {length offset count : ℕ} {data : List UInt8}

theorem Alike.refl (x : Region κ) (m : Store κ) : Alike x m m :=
  ⟨rfl, rfl, Region.Alike.refl x m.files⟩

theorem Alike.trans (h1 : Alike x m m') (h2 : Alike x m' m'') : Alike x m m'' :=
  ⟨h1.capacity.trans h2.capacity, h1.maxFiles.trans h2.maxFiles, h1.region.trans h2.region⟩

omit [DecidableEq κ] in
theorem replaceBy_bounds (f : AList fun _ : κ => List UInt8) (refusal : ℤ) (m : Store κ) :
    (m.replaceBy f refusal).2.capacity = m.capacity ∧
      (m.replaceBy f refusal).2.maxFiles = m.maxFiles := by
  unfold replaceBy
  split
  · exact ⟨rfl, rfl⟩
  · exact ⟨rfl, rfl⟩

omit [DecidableEq κ] in
theorem replaceBy_code_eq (hfits : Fits f m ↔ Fits g m') :
    (m.replaceBy f refusal).1 = (m'.replaceBy g refusal).1 := by
  unfold replaceBy
  by_cases h : Fits f m
  · rw [dif_pos h, dif_pos (hfits.mp h)]
  · rw [dif_neg h, dif_neg (mt hfits.mpr h)]

/-- Stores that look alike do so behind a call that both admit or both refuse. -/
theorem Alike.replaceBy (hm : Alike x m m') (hfits : Fits f m ↔ Fits g m')
    (hf : x.Alike f g) : Alike x (m.replaceBy f refusal).2 (m'.replaceBy g refusal).2 := by
  unfold Store.replaceBy
  by_cases h : Fits f m
  · rw [dif_pos h, dif_pos (hfits.mp h)]
    exact ⟨hm.capacity, hm.maxFiles, hf⟩
  · rw [dif_neg h, dif_neg (mt hfits.mpr h)]
    exact hm

theorem alike_replaceBy (hf : x.Alike m.files f) : Alike x m (m.replaceBy f refusal).2 := by
  unfold Store.replaceBy
  split
  · exact ⟨rfl, rfl, hf⟩
  · exact Alike.refl x m

/-- What a call answers depends on stores that look alike only, and so does what it leaves of each
region. -/
structure Agree {α : Type} (call : Store κ → α × Store κ) (m m' : Store κ) : Prop where
  answer : (call m).1 = (call m').1
  effect : ∀ x, Alike x m m' → Alike x (call m).2 (call m').2

/-- Both stores are left as they are. -/
theorem agree_of_eq {α : Type} {call : Store κ → α × Store κ} (a : α) (h : call m = (a, m))
    (h' : call m' = (a, m')) : Agree call m m' := by
  constructor
  · rw [h, h']
  · intro x hx
    rw [h, h']
    exact hx

theorem agree_replaceBy {call : Store κ → ℤ × Store κ} (refusal : ℤ)
    (h : call m = m.replaceBy f refusal) (h' : call m' = m'.replaceBy g refusal)
    (hfits : Fits f m ↔ Fits g m')
    (hf : ∀ x, Alike x m m' → x.Alike f g) : Agree call m m' := by
  constructor
  · rw [h, h']
    exact replaceBy_code_eq hfits
  · intro x hx
    rw [h, h']
    exact hx.replaceBy hfits (hf x hx)

/-- The same bytes are stored under a name, and there is as much room. -/
theorem agree_insert {call : Store κ → ℤ × Store κ} (hn : Alike (.bytes name) m m')
    (hr : Alike .room m m') {bytes : List UInt8} (hl : m.files.lookup name = some bytes)
    (data : List UInt8) (refusal : ℤ)
    (h : call m = m.replaceBy (m.files.insert name data) refusal)
    (h' : call m' = m'.replaceBy (m'.files.insert name data) refusal) : Agree call m m' := by
  have ht : total m.files.entries = total m'.files.entries := hr.region
  have hl' : m'.files.lookup name = some bytes := Eq.trans (Eq.symm hn.region) hl
  refine agree_replaceBy refusal h h' ?_ fun x hx => hx.region.insert hn.region data
  rw [fits_insert_some hl, fits_insert_some hl', ht, hn.capacity]

theorem create_agree (hn : Alike (.bytes name) m m') (hk : Alike .names m m')
    (hr : length ≠ 0 → Alike .room m m') : Agree (create name length) m m' := by
  have hl' : m'.files.lookup name = m.files.lookup name := Eq.symm hn.region
  cases hl : m.files.lookup name with
  | some bytes =>
    rw [hl] at hl'
    exact agree_of_eq 1 (by unfold create; rw [hl]) (by unfold create; rw [hl'])
  | none =>
    rw [hl] at hl'
    refine agree_replaceBy 2 (by unfold create; rw [hl]) (by unfold create; rw [hl']) ?_
      fun x hx => hx.region.insert hn.region _
    have hcount : m.files.entries.length = m'.files.entries.length := by
      simpa only [AList.keys, List.keys, List.length_map] using List.Perm.length_eq hk.region
    have hcap := hk.capacity
    have hmax := hk.maxFiles
    have hm := m.fits
    have hm' := m'.fits
    rw [fits_insert_none hl, fits_insert_none hl', List.length_replicate]
    by_cases h0 : length = 0
    · omega
    · have ht : total m.files.entries = total m'.files.entries := (hr h0).region
      omega

theorem resize_agree (hn : Alike (.bytes name) m m') (hr : Alike .room m m') :
    Agree (resize name length) m m' := by
  have hl' : m'.files.lookup name = m.files.lookup name := Eq.symm hn.region
  cases hl : m.files.lookup name with
  | none =>
    rw [hl] at hl'
    exact agree_of_eq 1 (by unfold resize; rw [hl]) (by unfold resize; rw [hl'])
  | some bytes =>
    rw [hl] at hl'
    exact agree_insert hn hr hl (bytes.take length ++ List.replicate (length - bytes.length) 0) 2
      (by unfold resize; rw [hl]) (by unfold resize; rw [hl'])

theorem write_agree (hn : Alike (.bytes name) m m') (hr : Alike .room m m') :
    Agree (write name offset data) m m' := by
  have hl' : m'.files.lookup name = m.files.lookup name := Eq.symm hn.region
  cases hl : m.files.lookup name with
  | none =>
    rw [hl] at hl'
    exact agree_of_eq 1 (by unfold write; rw [hl]) (by unfold write; rw [hl'])
  | some bytes =>
    rw [hl] at hl'
    by_cases hoff : offset > bytes.length
    · exact agree_of_eq 2 (by simp only [write, hl, if_pos hoff])
        (by simp only [write, hl', if_pos hoff])
    · exact agree_insert hn hr hl (FlatImage.splice bytes offset data) 3
        (by simp only [write, hl, if_neg hoff]) (by simp only [write, hl', if_neg hoff])

theorem delete_agree (hn : Alike (.bytes name) m m') : Agree (delete name) m m' := by
  have hl' : m'.files.lookup name = m.files.lookup name := Eq.symm hn.region
  cases hl : m.files.lookup name with
  | none =>
    rw [hl] at hl'
    exact agree_of_eq 1 (by unfold delete; rw [hl]) (by unfold delete; rw [hl'])
  | some bytes =>
    rw [hl] at hl'
    refine ⟨by unfold delete; rw [hl, hl'], fun x hx => ?_⟩
    unfold delete
    rw [hl, hl']
    exact ⟨hx.capacity, hx.maxFiles, hx.region.erase hn.region⟩

theorem rename_agree (hn : Alike (.bytes name) m m') (hnew : Alike (.bytes new) m m') :
    Agree (rename name new) m m' := by
  have hl' : m'.files.lookup name = m.files.lookup name := Eq.symm hn.region
  have hk' : m'.files.lookup new = m.files.lookup new := Eq.symm hnew.region
  cases hl : m.files.lookup name with
  | none =>
    rw [hl] at hl'
    exact agree_of_eq 1 (by unfold rename; rw [hl]) (by unfold rename; rw [hl'])
  | some bytes =>
    rw [hl] at hl'
    by_cases he : name = new
    · exact agree_of_eq 0 (by simp only [rename, hl, if_pos he])
        (by simp only [rename, hl', if_pos he])
    · cases hk : m.files.lookup new with
      | some _ =>
        rw [hk] at hk'
        exact agree_of_eq 1 (by simp only [rename, hl, if_neg he, hk])
          (by simp only [rename, hl', if_neg he, hk'])
      | none =>
        rw [hk] at hk'
        exact agree_replaceBy 1 (by simp only [rename, hl, if_neg he, hk])
          (by simp only [rename, hl', if_neg he, hk'])
          ⟨fun _ => fits_move hl' hk', fun _ => fits_move hl hk⟩
          fun x hx => hx.region.move hn.region hnew.region bytes

theorem read_alike (hn : Alike (.bytes name) m m') :
    m.read name offset count = m'.read name offset count := by
  have hl : m.files.lookup name = m'.files.lookup name := hn.region
  unfold read
  rw [hl]

theorem size_alike (hn : Alike (.bytes name) m m') : m.size name = m'.size name := by
  have hl : m.files.lookup name = m'.files.lookup name := hn.region
  unfold size
  rw [hl]

/-! ### What a call leaves alone -/

theorem create_alike (hx : x ≠ .bytes name) (hk : x ≠ .names) (hr : x = .room → length = 0) :
    Alike x m (m.create name length).2 := by
  unfold create
  cases hl : m.files.lookup name with
  | some bytes => exact Alike.refl x m
  | none =>
    refine alike_replaceBy ?_
    cases x with
    | bytes n => exact alike_insert_bytes (fun he => hx (congrArg _ he)) _
    | names => exact absurd rfl hk
    | room =>
      have ht := total_insert m.files name (List.replicate length 0)
      rw [hl, hr rfl] at ht
      show total m.files.entries = total (m.files.insert name (List.replicate length 0)).entries
      rw [hr rfl]
      exact ht.symm

/-- Other bytes under a name that is there change those and the room. -/
theorem alike_other_bytes {old : List UInt8} (hl : m.files.lookup name = some old)
    (hx : x ≠ .bytes name) (hr : x ≠ .room) (bytes : List UInt8) :
    Alike x m (m.replaceBy (m.files.insert name bytes) refusal).2 := by
  refine alike_replaceBy ?_
  cases x with
  | bytes n => exact alike_insert_bytes (fun he => hx (congrArg _ he)) _
  | names => exact alike_insert_names (AList.lookup_isSome.mp (by rw [hl]; rfl)) _
  | room => exact absurd rfl hr

theorem resize_alike (hx : x ≠ .bytes name) (hr : x ≠ .room) :
    Alike x m (m.resize name length).2 := by
  unfold resize
  cases hl : m.files.lookup name with
  | none => exact Alike.refl x m
  | some bytes =>
    exact alike_other_bytes hl hx hr _

theorem write_alike (hx : x ≠ .bytes name) (hr : x ≠ .room) :
    Alike x m (m.write name offset data).2 := by
  unfold write
  cases hl : m.files.lookup name with
  | none => exact Alike.refl x m
  | some bytes =>
    dsimp only
    split
    · exact Alike.refl x m
    · exact alike_other_bytes hl hx hr _

theorem delete_alike (hx : x ≠ .bytes name) (hk : x ≠ .names) (hr : x ≠ .room) :
    Alike x m (m.delete name).2 := by
  unfold delete
  cases hl : m.files.lookup name with
  | none => exact Alike.refl x m
  | some bytes =>
    refine ⟨rfl, rfl, ?_⟩
    cases x with
    | bytes n => exact alike_erase_bytes fun he => hx (congrArg _ he)
    | names => exact absurd rfl hk
    | room => exact absurd rfl hr

theorem rename_alike (hx : x ≠ .bytes name) (hnew : x ≠ .bytes new) (hk : x ≠ .names) :
    Alike x m (m.rename name new).2 := by
  unfold rename
  cases hl : m.files.lookup name with
  | none => exact Alike.refl x m
  | some bytes =>
    dsimp only
    split
    · exact Alike.refl x m
    · cases hl' : m.files.lookup new with
      | some _ => exact Alike.refl x m
      | none =>
        refine alike_replaceBy ?_
        cases x with
        | bytes n =>
          exact (alike_erase_bytes fun he => hx (congrArg _ he)).trans
            (alike_insert_bytes (fun he => hnew (congrArg _ he)) bytes)
        | names => exact absurd rfl hk
        | room => exact (move_bounds hl hl').1.symm

end Calls

end Store

end ByteStore
