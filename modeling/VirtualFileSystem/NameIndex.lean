import VirtualFileSystem.Init

/-!
# The name index

`n_list` is strictly sorted by name, and a search finds exactly the live files.  Renaming changes
the key of a file where it stands, so the index survives a renaming only if the new name compares
with the other names as the old one did.
-/

namespace Vfs

/-- `n_list` is strictly sorted, and `arr_get_by_key` finds the live file of a name. -/
structure NameIndex (s : Filesys) : Prop where
  sorted : NameSorted s.heap s.nList.list
  search : ∀ key : FileT, key.name.bytes ≠ [] →
    ∃ r, arrGetByKey key s.nList s.heap s.fileDataLen = .ok r ∧
      ∀ p, r = some p ↔ p ∈ s.live ∧ (s.heap p).name = key.name

section Index

variable {s s' : Filesys}

theorem LiveOk.nameIndex (hs : LiveOk s) (hn : NameSorted s.heap s.nList.list) : NameIndex s where
  sorted := hn
  search := by
    intro key hkey
    have ht : s.nList.type = .name := hs.names.type_eq
    have hv : validKey key s.nList s.fileDataLen := by
      unfold validKey
      rw [ht]
      exact hkey
    unfold arrGetByKey
    rw [if_neg (not_not.mpr hv)]
    by_cases hex : ∃ p ∈ s.live, (s.heap p).name = key.name
    · obtain ⟨p, hp, hpn⟩ := hex
      obtain ⟨i, hi⟩ := List.getElem?_of_mem (hs.perm.mem_iff.mpr hp)
      rw [arrGetIndex_name_of_mem ht hn hi hpn]
      obtain ⟨hlt, rfl⟩ := List.getElem?_eq_some_iff.mp hi
      have hb : 0 ≤ (i : ℤ) ∧ (i : ℤ) < s.nList.size := ⟨by omega, by exact_mod_cast hlt⟩
      have hget : arrGet i s.nList = .ok (s.nList.list[i]) := by
        unfold arrGet
        rw [Run.assert_of hb]
        simp [List.getD_eq_getElem?_getD, hlt]
      refine ⟨some s.nList.list[i], ?_, fun q => ?_⟩
      · simp only [Bool.false_eq_true, if_false, Run.ok_bind, if_neg (show ¬ (i : ℤ) < 0 by omega),
          hget, Run.pure_eq]
      · rw [Option.some_inj]
        constructor
        · rintro rfl
          exact ⟨hp, hpn⟩
        · rintro ⟨hq, hqn⟩
          obtain ⟨j, hj⟩ := List.getElem?_of_mem (hs.perm.mem_iff.mpr hq)
          -- two files of one name would compare below each other
          rcases Nat.lt_trichotomy i j with hij | rfl | hij
          · have := pairwise_getElem? hn hij hi hj
            rw [hpn, hqn, nameCmp_eq_zero.mpr rfl] at this
            exact absurd this (lt_irrefl _)
          · exact Option.some_inj.mp (hi.symm.trans hj)
          · have := pairwise_getElem? hn hij hj hi
            rw [hpn, hqn, nameCmp_eq_zero.mpr rfl] at this
            exact absurd this (lt_irrefl _)
    · have hno : ∀ p ∈ s.nList.list, (s.heap p).name ≠ key.name := fun p hp he =>
        hex ⟨p, hs.mem_live hp, he⟩
      obtain ⟨i, -, hget⟩ := arrGetIndex_name_of_not_mem ht hn hno false
      rw [hget]
      refine ⟨none, rfl, fun p => ?_⟩
      constructor
      · intro h
        cases h
      · rintro ⟨hp, hpn⟩
        exact absurd ⟨p, hp, hpn⟩ hex

/-- A lookup answers with the live file of that name, if there is one. -/
theorem NameIndex.lookup_eq_some (hi : NameIndex s) {name : CString} (hne : name.bytes ≠ [])
    {p : Ptr} : lookup name s = .ok (some p) ↔ p ∈ s.live ∧ (s.heap p).name = name.toFileName := by
  obtain ⟨r, hr, hiff⟩ := hi.search (nameKey name) (toFileName_ne_nil hne)
  have hr' : lookup name s = .ok r := hr
  rw [hr', ← show (nameKey name).name = name.toFileName from rfl, ← hiff p]
  exact ⟨Except.ok.inj, fun h => by rw [h]⟩

theorem NameIndex.lookup_eq_none (hi : NameIndex s) {name : CString} (hne : name.bytes ≠ []) :
    lookup name s = .ok none ↔ ∀ p ∈ s.live, (s.heap p).name ≠ name.toFileName := by
  obtain ⟨r, hr, hiff⟩ := hi.search (nameKey name) (toFileName_ne_nil hne)
  have hr' : lookup name s = .ok r := hr
  rw [hr']
  constructor
  · intro h p hp hn
    have := (hiff p).mpr ⟨hp, hn⟩
    rw [Except.ok.inj h] at this
    cases this
  · intro h
    cases r with
    | none => rfl
    | some p =>
      obtain ⟨hp, hn⟩ := (hiff p).mp rfl
      exact absurd hn (h p hp)

/-! ## Steps -/

theorem nameSorted_congr {h h' : Heap} {l : List Ptr} (hs : NameSorted h l)
    (hh : ∀ p ∈ l, (h' p).name = (h p).name) : NameSorted h' l := by
  refine List.Pairwise.imp_of_mem (fun {p q} hp hq hpq => ?_) hs
  rw [hh p hp, hh q hq]
  exact hpq

theorem Kept.nameSorted (hk : Kept s s') (hn : NameSorted s.heap s.nList.list) :
    NameSorted s'.heap s'.nList.list := by
  rw [hk.nList]
  exact nameSorted_congr hn fun p _ => hk.name p

theorem Registered.nameSorted {name : FileName} {o length i : ℕ}
    (hr : Registered name o length i s s') (hs : LiveOk s)
    (hn : NameSorted s.heap s.nList.list) : NameSorted s'.heap s'.nList.list := by
  have ht : s.nList.type = .name := hs.names.type_eq
  obtain ⟨j, harr, hj⟩ := hr.nSearch
  have hfresh : s.next ∉ s.nList.list := fun hm => (hs.fresh _ (hs.names.mem_live _ hm)).false
  have hsame : ∀ q ∈ s.nList.list, (s'.heap q).Same (s.heap q) :=
    fun q hq => hr.old q fun he => hfresh (he ▸ hq)
  have hnew : ∀ p ∈ s.nList.list, (s.heap p).name ≠ name := by
    intro p hp hpn
    obtain ⟨m, hm⟩ := List.getElem?_of_mem hp
    rw [arrGetIndex_name_of_mem ht hn hm hpn true] at hj
    simp at hj
  have hn' : NameSorted s'.heap s.nList.list := nameSorted_congr hn fun p hp => (hsame p hp).1
  obtain ⟨m, hsplit, hm⟩ := arrGetIndex_name_of_not_mem (f := s'.heap s.next) ht hn'
    (fun p hp => by rw [(hsame p hp).1, hr.new.1]; exact hnew p hp) true
  rw [arrGetIndex_congr hr.new hsame, hj] at hm
  obtain rfl : j = m := by simpa using hm
  rw [harr]
  exact nameSorted_insertAt ht hn' hsplit

theorem Created.nameSorted {name : FileName} {o length i : ℕ} (hc : Created name o length i s s')
    (hs : LiveOk s) (hn : NameSorted s.heap s.nList.list) :
    NameSorted s'.heap s'.nList.list := by
  obtain ⟨s₁, hr, he⟩ := hc.registered
  have := hr.nameSorted hs hn
  rw [he]
  exact this

theorem Deleted.nameSorted {p : Ptr} (hd : Deleted p s s')
    (hn : NameSorted s.heap s.nList.list) : NameSorted s'.heap s'.nList.list := by
  rw [hd.nList]
  refine nameSorted_congr ?_ fun q _ => (hd.same q).1
  exact hn.sublist List.erase_sublist

/-- A name that compares with the others as the old one did may take its place. -/
theorem nameSorted_rename {p : Ptr} {new : FileName} (hn : NameSorted s.heap s.nList.list)
    (hord : ∀ q ∈ s.nList.list, q ≠ p → ((s.heap q).name ≠ new ∧
      (nameCmp (s.heap q).name (s.heap p).name < 0 ↔ nameCmp (s.heap q).name new < 0))) :
    NameSorted (s.heap.set p { s.heap p with name := new }) s.nList.list := by
  have hnd : s.nList.list.Pairwise (· ≠ ·) := hn.imp fun {a b} hab he => by
    rw [he, nameCmp_eq_zero.mpr rfl] at hab
    exact absurd hab (lt_irrefl _)
  refine List.Pairwise.imp_of_mem (fun {a b} ha hb hab => ?_) (hn.and hnd)
  obtain ⟨hlt, hne⟩ := hab
  by_cases hap : a = p
  · subst hap
    rw [Heap.set_self, Heap.set_of_ne _ _ (Ne.symm hne)]
    obtain ⟨hbn, hiff⟩ := hord b hb (Ne.symm hne)
    have h1 : ¬ nameCmp (s.heap b).name new < 0 := fun hlt' => by
      have := hiff.mpr hlt'
      rw [nameCmp_swap] at this
      omega
    have h2 : nameCmp (s.heap b).name new ≠ 0 := fun h => hbn (nameCmp_eq_zero.mp h)
    show nameCmp new (s.heap b).name < 0
    rw [nameCmp_swap]
    omega
  · rw [Heap.set_of_ne _ _ hap]
    by_cases hbp : b = p
    · subst hbp
      rw [Heap.set_self]
      exact (hord a ha hne).2.mp hlt
    · rwa [Heap.set_of_ne _ _ hbp]

end Index

/-- A renaming that goes through gives the file a name that compares with every other name as its
old one did. -/
def Call.KeepsOrder : Call → Filesys → Prop
  | .rename old new, s => ∀ p ∈ s.live, (s.heap p).name = old.toFileName →
      (∀ q ∈ s.live, (s.heap q).name ≠ new.toFileName) → ∀ q ∈ s.live, q ≠ p →
        (nameCmp (s.heap q).name old.toFileName < 0 ↔
          nameCmp (s.heap q).name new.toFileName < 0)
  | _, _ => True

instance decidableKeepsOrder : ∀ (c : Call) (s : Filesys), Decidable (c.KeepsOrder s)
  | .rename old new, s => inferInstanceAs (Decidable (∀ p ∈ s.live,
      (s.heap p).name = old.toFileName → (∀ q ∈ s.live, (s.heap q).name ≠ new.toFileName) →
        ∀ q ∈ s.live, q ≠ p → (nameCmp (s.heap q).name old.toFileName < 0 ↔
          nameCmp (s.heap q).name new.toFileName < 0)))
  | .create _ _, _ | .resize _ _, _ | .write _ _ _ _, _ | .delete _, _ | .repack, _
  | .read _ _ _, _ | .size _, _ => .isTrue trivial

/-- One step lemma: the arrays stay in order and `n_list` sorted. -/
theorem exec_nameSorted {c : Call} {s s' : Filesys} {a : Answer} (hs : LiveOk s)
    (hn : NameSorted s.heap s.nList.list) (hc : c.Named) (hk : c.KeepsOrder s)
    (hr : exec c s = .ok (a, s')) : LiveOk s' ∧ NameSorted s'.heap s'.nList.list := by
  obtain ⟨hs', hch⟩ := exec_liveOk hs hc hr
  refine ⟨hs', ?_⟩
  cases hch with
  | kept h => exact h.nameSorted hn
  | created s₁ s₂ name o length i hs₁ h1 h2 h3 =>
    exact h3.nameSorted (h2.nameSorted hs₁ (h1.nameSorted hn))
  | deleted p h => exact h.nameSorted hn
  | renamed p old new hc' hp hnew dir hdir h =>
    subst hc' h
    obtain ⟨hpl, hpn⟩ := hs.lookup hp
    have hfree := ((hs.nameIndex hn).lookup_eq_none (hc new (by simp [Call.names]))).mp hnew
    refine nameSorted_rename hn fun q hq hqp => ?_
    have hql := hs.mem_live hq
    rw [hpn]
    exact ⟨hfree q hql, hk p hpl hpn hfree q hql hqp⟩

/-- **The name index over runs.**  From null images, whatever the calls and their arguments, the
index is right in every state reached as long as renamings keep the order of names. -/
theorem nameIndex_run {file dir hash : List UInt8} {s₀ s : Filesys} {cs : List Call}
    {as : List Answer} (hzero : ∀ b ∈ dir, b = 0) (hinit : initFs file dir hash = .ok s₀)
    (hnamed : ∀ c ∈ cs, c.Named) (hord : Trace.Along exec Call.KeepsOrder cs s₀)
    (hrun : Trace.run exec cs s₀ = .ok (as, s)) : NameIndex s := by
  obtain ⟨n, -, -, rfl⟩ := initFs_zero hzero hinit
  have hsafe := (Trace.along_of_forall (P := fun c _ => c.Named) (fun _ _ h => h) cs _ hnamed).and
    hord
  have hI := Trace.run_induct (I := fun s => LiveOk s ∧ NameSorted s.heap s.nList.list)
    (fun c s a s' hI hP hr => exec_nameSorted hI.1 hI.2 hP.1 hP.2 hr) cs _ s as
    ⟨initState_liveOk n, List.Pairwise.nil⟩ hsafe hrun
  exact hI.1.nameIndex hI.2

set_option maxRecDepth 10000 in
/-- Two files, and a renaming that keeps their order. -/
theorem nameIndex_run_ordered :
    ∃ s₀ as s, initFs (zeros 256) (zeros 144) (zeros 16) = .ok s₀ ∧
      Trace.run exec [.create (.ofByte 97 (by decide)) 0, .create (.ofByte 98 (by decide)) 0,
        .rename (.ofByte 98 (by decide)) (.ofByte 99 (by decide))] s₀ = .ok (as, s) ∧
      NameIndex s := by
  obtain ⟨s₀, hinit, hord, hrun⟩ := Run.holds_iff.mp
    (show Run.Holds (initFs (zeros 256) (zeros 144) (zeros 16)) (fun s₀ =>
      Trace.Along exec Call.KeepsOrder [.create (.ofByte 97 (by decide)) 0,
        .create (.ofByte 98 (by decide)) 0,
        .rename (.ofByte 98 (by decide)) (.ofByte 99 (by decide))] s₀ ∧
      Run.Holds (Trace.run exec [.create (.ofByte 97 (by decide)) 0,
        .create (.ofByte 98 (by decide)) 0,
        .rename (.ofByte 98 (by decide)) (.ofByte 99 (by decide))] s₀) fun _ => True)
      by decide +kernel)
  obtain ⟨⟨as, s⟩, hr, -⟩ := Run.holds_iff.mp hrun
  exact ⟨s₀, as, s, hinit, hr, nameIndex_run (fun _ => eq_zero_of_mem_zeros) hinit
    (by decide +kernel) hord hr⟩

set_option maxRecDepth 10000 in
/-- Renaming the first of two files behind the second leaves `n_list` out of order. -/
theorem nameIndex_fails : ¬ ∀ (file dir hash : List UInt8) (s₀ s : Filesys) (cs : List Call)
    (as : List Answer), (∀ b ∈ file, b = 0) → (∀ b ∈ dir, b = 0) → (∀ b ∈ hash, b = 0) →
    initFs file dir hash = .ok s₀ → (∀ c ∈ cs, c.Named) → Trace.run exec cs s₀ = .ok (as, s) →
    NameIndex s := by
  intro h
  obtain ⟨s₀, hinit, hrun⟩ := Run.holds_iff.mp
    (show Run.Holds (initFs (zeros 256) (zeros 144) (zeros 16)) (fun s₀ =>
      Run.Holds (Trace.run exec [.create (.ofByte 97 (by decide)) 0,
        .create (.ofByte 98 (by decide)) 0,
        .rename (.ofByte 97 (by decide)) (.ofByte 99 (by decide))] s₀)
        fun r => ¬ NameSorted r.2.heap r.2.nList.list) by decide +kernel)
  obtain ⟨⟨as, s⟩, hr, hbad⟩ := Run.holds_iff.mp hrun
  exact hbad (h _ _ _ s₀ s _ as (fun _ => eq_zero_of_mem_zeros) (fun _ => eq_zero_of_mem_zeros)
    (fun _ => eq_zero_of_mem_zeros) hinit (by decide +kernel) hr).sorted

end Vfs
