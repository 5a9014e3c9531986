import VirtualFileSystem.SortedArr
import VirtualFileSystem.AllOrNothing

/-!
# Every directory `init_fs` accepts

Nothing is asked of the directory: names may repeat and extents overlap.  The loop of `init_fs`
makes a record of every used entry and counts it, but an array only takes the first record of each
name, and the first non-zero size one of each offset.  So the state is well-formed exactly if the
directory is valid.
-/

namespace Vfs

open FlatImage Extents

/-! ## One insertion -/

/-- What an insertion into the array of kind `t` leaves: the file is in it unless it clashes. -/
structure Entered (t : ArrType) (p : Ptr) (s s' : Filesys) : Prop where
  arrOk : ArrOk t s'
  posOnly : PosOnly t s.heap s'.heap
  eq : s' = s.setArr t (s'.arr t) s'.heap
  ordered : KeyOrdered t s'.heap (s'.arr t).list
  mem_iff : ∀ q, q ∈ (s'.arr t).list ↔ q ∈ (s.arr t).list ∨
    q = p ∧ ¬ Clash t s.heap (s.arr t).list (s.heap p)

section Enter

variable {t : ArrType} {p : Ptr} {s s' : Filesys} {name : FileName} {o length i : ℕ}

theorem sortedInsert_entered (hs : ArrOk t s) (hp : p ∈ s.live) (hmem : p ∉ (s.arr t).list)
    (hcap : (s.arr t).list.length < (s.arr t).capacity)
    (hord : KeyOrdered t s.heap (s.arr t).list) (hrule : ∀ q ∈ s.live, KeyRule t (s.heap q)) :
    ∃ s', sortedInsert t p s = .ok s' ∧ Entered t p s s' := by
  have ht := hs.type_eq
  have hspec := arrSortedInsert_spec (p := p) (by rw [ht]; exact hs.idxOk)
    (by rw [ht]; exact hord) (by rw [ht]; exact fun q hq => hrule q (hs.mem_live q hq)) hmem hcap
    (by rw [ht]; exact hrule p hp)
  simp only [ht] at hspec
  unfold sortedInsert
  rcases hspec with ⟨hr, hclash⟩ | ⟨j, arr, h, hr, hclash, hord', hins⟩
  · rw [hr]
    refine ⟨_, rfl, ?_⟩
    rw [setArr_self]
    refine ⟨hs, PosOnly.refl t s.heap, by rw [setArr_self], hord, fun q => ?_⟩
    exact ⟨Or.inl, fun h => h.resolve_right fun h => h.2 hclash⟩
  · rw [hr]
    have hpos := hins.posOnly
    rw [ht] at hpos
    refine ⟨_, rfl, hs.inserted hins hp, ?_, ?_, ?_, fun q => ?_⟩
    · rw [setArr_heap]
      exact hpos
    · rw [setArr_arr, setArr_heap]
    · rw [setArr_arr, setArr_heap, hins.arr_eq]
      refine hord'.posOnly (fun q hq => ?_) hpos
      rcases (insertAt_perm _ _ _).mem_iff.mp hq with _ | ⟨_, hq⟩
      · exact hrule p hp
      · exact hrule q (hs.mem_live q hq)
    · rw [setArr_arr, hins.arr_eq, (insertAt_perm _ _ _).mem_iff, List.mem_cons]
      exact ⟨fun h => h.symm.imp_right fun h => ⟨h, hclash⟩, fun h => h.symm.imp_left And.left⟩

/-- A record that is added to both arrays, as far as each takes it. -/
structure Recorded (f : FileT) (s s' : Filesys) : Prop where
  arrOk : ∀ t, ArrOk t s'
  same : ∀ q, (s'.heap q).Same (s.heap.set s.next f q)
  ordered : ∀ t, KeyOrdered t s'.heap (s'.arr t).list
  mem_iff : ∀ t q, q ∈ (s'.arr t).list ↔ q ∈ (s.arr t).list ∨
    q = s.next ∧ ¬ Clash t s.heap (s.arr t).list f
  eq : s' = { s with
    heap := s'.heap, next := s.next + 1, live := s.next :: s.live
    oList := s'.oList, nList := s'.nList }

theorem FileT.Same.keyRule {f g : FileT} (h : f.Same g) (hr : KeyRule t g) : KeyRule t f := by
  cases t with
  | offset =>
    unfold KeyRule at *
    dsimp only at *
    rw [h.2.1, h.2.2.1]
    exact hr
  | name => trivial

theorem FileT.Same.keptKey {f g : FileT} (h : f.Same g) : KeptKey t g f := by
  cases t with
  | offset => exact h.2.1
  | name => exact h.1

theorem KeyOrdered.same {h h' : Heap} {l : List Ptr} (hord : KeyOrdered t h l)
    (hrule : ∀ q ∈ l, KeyRule t (h q)) (hh : ∀ q ∈ l, (h' q).Same (h q)) : KeyOrdered t h' l :=
  hord.congr hrule (fun q hq => (hh q hq).keyRule (hrule q hq)) fun q hq => (hh q hq).keptKey

theorem clash_congr {h h' : Heap} {l : List Ptr} {f g : FileT} (hfg : f.Same g)
    (hh : ∀ q ∈ l, (h' q).Same (h q)) : Clash t h' l f ↔ Clash t h l g := by
  cases t with
  | offset =>
    unfold Clash
    dsimp only
    rw [hfg.2.2.1]
    refine and_congr_right fun _ => ?_
    refine exists_congr fun q => and_congr_right fun hq => ?_
    rw [(hh q hq).2.1, (hh q hq).2.2.1, hfg.2.1]
  | name =>
    unfold Clash
    dsimp only
    refine exists_congr fun q => and_congr_right fun hq => ?_
    rw [(hh q hq).1, hfg.1]

/-- With room in the arrays both insertions of a new record complete. -/
theorem record_total (hs : ∀ t, ArrOk t s) (hfresh : ∀ p ∈ s.live, p < s.next)
    (hroom : s.live.length < s.indexLen) (hord : ∀ t, KeyOrdered t s.heap (s.arr t).list)
    (hrule : ∀ t, ∀ q ∈ s.live, KeyRule t (s.heap q))
    (hnew : ∀ t, KeyRule t ⟨name, o, length, i, -1, -1⟩) :
    ∃ s₁ s₂, sortedInsert .offset s.next (fileInit name o length i s).2 = .ok s₁ ∧
      sortedInsert .name s.next s₁ = .ok s₂ ∧ Recorded ⟨name, o, length, i, -1, -1⟩ s s₂ := by
  obtain ⟨f, hf⟩ : ∃ f : FileT, f = ⟨name, o, length, i, -1, -1⟩ := ⟨_, rfl⟩
  obtain ⟨s₀, hs₀⟩ : ∃ s₀, s₀ = (fileInit name o length i s).2 := ⟨_, rfl⟩
  rw [← hf] at hnew
  rw [← hf, ← hs₀]
  have harr₀ : ∀ t, s₀.arr t = s.arr t := fun t => by rw [hs₀]; cases t <;> rfl
  have hheap₀ : s₀.heap = s.heap.set s.next f := by rw [hs₀, hf]; rfl
  have hlive₀ : s₀.live = s.next :: s.live := by rw [hs₀]; rfl
  have hne : ∀ q ∈ s.live, q ≠ s.next := fun q hq => (hfresh q hq).ne
  have hold₀ : ∀ q ∈ s.live, s₀.heap q = s.heap q := fun q hq => by
    rw [hheap₀, Heap.set_of_ne _ _ (hne q hq)]
  have hself₀ : s₀.heap s.next = f := by rw [hheap₀, Heap.set_self]
  have hok₀ : ∀ t, ArrOk t s₀ := fun t => hs₀ ▸ fileInit_arrOk (hs t) hfresh name o length i
  have hmem : ∀ t, s.next ∉ (s.arr t).list := fun t h =>
    (hfresh _ ((hs t).mem_live _ h)).false
  have hcap : ∀ t, (s.arr t).list.length < (s.arr t).capacity := fun t => by
    have hle := (hs t).length_le
    have := (hs t).capacity
    omega
  have hrule₀ : ∀ t, ∀ q ∈ s₀.live, KeyRule t (s₀.heap q) := fun t q hq => by
    rw [hlive₀] at hq
    rcases List.mem_cons.mp hq with rfl | hq
    · rw [hself₀]
      exact hnew t
    · rw [hold₀ q hq]
      exact hrule t q hq
  have hord₀ : ∀ t, KeyOrdered t s₀.heap (s₀.arr t).list := fun t => by
    rw [harr₀]
    refine (hord t).same (fun q hq => hrule t q ((hs t).mem_live q hq)) fun q hq => ?_
    rw [hold₀ q ((hs t).mem_live q hq)]
    exact FileT.Same.refl _
  have hclash₀ : ∀ t, Clash t s₀.heap (s.arr t).list f ↔ Clash t s.heap (s.arr t).list f :=
    fun t => clash_congr (FileT.Same.refl f) fun q hq => by
      rw [hold₀ q ((hs t).mem_live q hq)]
      exact FileT.Same.refl _
  -- into `o_list`
  obtain ⟨s₁, h1, he₁⟩ := sortedInsert_entered (hok₀ .offset)
    (show s.next ∈ s₀.live by rw [hlive₀]; exact List.mem_cons_self)
    (by rw [harr₀]; exact hmem _) (by rw [harr₀]; exact hcap _) (hord₀ _) (hrule₀ _)
  have hn₁ : s₁.arr .name = s.arr .name := by
    rw [he₁.eq, setArr_arr_of_ne _ _ _ _ (by decide), harr₀]
  have hlive₁ : s₁.live = s₀.live := by rw [he₁.eq, setArr_live]
  have hok₁ : ArrOk .name s₁ := by
    rw [he₁.eq]
    exact (hok₀ .name).of_posOnly (by decide) he₁.posOnly
  have hrule₁ : ∀ t, ∀ q ∈ s₁.live, KeyRule t (s₁.heap q) := fun t q hq =>
    (he₁.posOnly.same q).keyRule (hrule₀ t q (hlive₁ ▸ hq))
  -- into `n_list`
  obtain ⟨s₂, h2, he₂⟩ := sortedInsert_entered hok₁
    (show s.next ∈ s₁.live by rw [hlive₁, hlive₀]; exact List.mem_cons_self)
    (by rw [hn₁]; exact hmem _) (by rw [hn₁]; exact hcap _)
    (by
      rw [hn₁, ← harr₀]
      exact (hord₀ .name).same (fun q hq => hrule₀ _ q ((hok₀ .name).mem_live q hq))
        fun q _ => he₁.posOnly.same q)
    (hrule₁ _)
  have ho₂ : s₂.arr .offset = s₁.arr .offset := by
    rw [he₂.eq, setArr_arr_of_ne _ _ _ _ (by decide)]
  have hsame : ∀ q, (s₂.heap q).Same (s₀.heap q) := fun q =>
    (he₂.posOnly.same q).trans (he₁.posOnly.same q)
  refine ⟨s₁, s₂, h1, h2, ?_, fun q => hheap₀ ▸ hsame q, ?_, ?_, ?_⟩
  · rintro (_ | _)
    · rw [he₂.eq]
      exact he₁.arrOk.of_posOnly (by decide) he₂.posOnly
    · exact he₂.arrOk
  · rintro (_ | _)
    · rw [ho₂]
      exact he₁.ordered.same (fun q hq => hrule₁ _ q (he₁.arrOk.mem_live q hq))
        fun q _ => he₂.posOnly.same q
    · exact he₂.ordered
  · rintro (_ | _) q
    · rw [ho₂, he₁.mem_iff, harr₀, hself₀, hclash₀]
    · rw [he₂.mem_iff, hn₁]
      refine or_congr_right (and_congr_right fun _ => not_congr ?_)
      refine (clash_congr ?_ fun r hr => ?_).trans (hclash₀ .name)
      · rw [← hself₀]
        exact he₁.posOnly.same _
      · exact he₁.posOnly.same r
  · rw [he₂.eq, he₁.eq, hs₀]
    rfl

end Enter

/-! ## The loop -/

/-- Two files that exclude each other from the array of kind `t`. -/
def Clashes (t : ArrType) (f g : FileT) : Prop :=
  match t with
  | .offset => 0 < f.length ∧ g.offset = f.offset ∧ 0 < g.length
  | .name => g.name = f.name

theorem clash_iff {t : ArrType} {h : Heap} {l : List Ptr} {f : FileT} :
    Clash t h l f ↔ ∃ q ∈ l, Clashes t f (h q) := by
  cases t with
  | offset =>
    constructor
    · rintro ⟨h0, q, hq, he, hq0⟩
      exact ⟨q, hq, h0, he, hq0⟩
    · rintro ⟨q, hq, h0, he, hq0⟩
      exact ⟨h0, q, hq, he, hq0⟩
  | name => exact Iff.rfl

theorem Clashes.symm {t : ArrType} {f g : FileT} (h : Clashes t f g) : Clashes t g f := by
  cases t with
  | offset => exact ⟨h.2.2, h.2.1.symm, h.1⟩
  | name => exact Eq.symm h

theorem Clashes.trans {t : ArrType} {f g k : FileT} (h1 : Clashes t f g) (h2 : Clashes t g k) :
    Clashes t f k := by
  cases t with
  | offset => exact ⟨h1.1, h2.2.1.trans h1.2.1, h2.2.2⟩
  | name => exact Eq.trans h2 h1

theorem clashes_same {t : ArrType} {f f' g g' : FileT} (hf : f'.Same f) (hg : g'.Same g) :
    Clashes t f' g' ↔ Clashes t f g := by
  cases t with
  | offset =>
    unfold Clashes
    dsimp only
    rw [hf.2.1, hf.2.2.1, hg.2.1, hg.2.2.1]
  | name =>
    unfold Clashes
    dsimp only
    rw [hf.1, hg.1]

/-- The record `init_fs` makes of an entry. -/
structure RecordOf (e : List UInt8) (f : FileT) : Prop where
  used : Used e
  name : f.name = loadName e
  offset : f.offset = loadOffset e
  length : f.length = entryLength e

/-- After `i` entries: a record for every used one, each in the arrays if it is the first that
belongs there, and the counters of all of them. -/
structure Scanned (i : ℕ) (s : Filesys) : Prop where
  arrOk : ∀ t, ArrOk t s
  nodup : s.live.Nodup
  fresh : ∀ p ∈ s.live, p < s.next
  record : ∀ p ∈ s.live, RecordOf (entry s.dir (s.heap p).index) (s.heap p)
  bound : ∀ p ∈ s.live, (s.heap p).index < i
  inj : ∀ p ∈ s.live, ∀ q ∈ s.live, (s.heap p).index = (s.heap q).index → p = q
  loaded : ∀ j < i, Used (entry s.dir j) → ∃ p ∈ s.live, (s.heap p).index = j
  ordered : ∀ t, KeyOrdered t s.heap (s.arr t).list
  first : ∀ t, ∀ p ∈ s.live, (p ∈ (s.arr t).list ↔
    ∀ q ∈ s.live, Clashes t (s.heap p) (s.heap q) → (s.heap p).index ≤ (s.heap q).index)
  indexLen_le : s.indexLen ≤ maxNumFiles
  index_length : s.index.length = s.indexLen
  slot : ∀ j < s.indexLen, s.index[j]? = some (if ∃ p ∈ s.live, (s.heap p).index = j then 1 else 0)
  count : s.indexCount = s.live.length
  live_le : s.live.length ≤ i
  used : s.used = totalLength s.heap s.live

section Scan

variable {t : ArrType} {s s' s₁ : Filesys} {f : FileT} {i n : ℕ}

theorem RecordOf.keyRule {e : List UInt8} (h : RecordOf e f) (t : ArrType) : KeyRule t f := by
  cases t with
  | offset =>
    unfold KeyRule
    dsimp only
    rw [h.offset, h.length]
    unfold loadOffset
    have := entryOffset_lt e
    unfold maxFileDataLen
    split_ifs
    · rfl
    · omega
  | name => trivial

/-- A file that clashes with a live one clashes with one in the array. -/
theorem Scanned.clash_of_live (hs : Scanned i s) {q : Ptr} (hq : q ∈ s.live)
    (hc : Clashes t f (s.heap q)) : Clash t s.heap (s.arr t).list f := by
  -- downwards along the entries to the first of its key
  suffices h : ∀ (j : ℕ) (q : Ptr), q ∈ s.live → (s.heap q).index = j → Clashes t f (s.heap q) →
      Clash t s.heap (s.arr t).list f from h _ q hq rfl hc
  intro j
  induction j using Nat.strong_induction_on with
  | _ j ih =>
    intro q hq hj hc
    by_cases hmem : q ∈ (s.arr t).list
    · exact clash_iff.mpr ⟨q, hmem, hc⟩
    · rw [hs.first t q hq] at hmem
      push Not at hmem
      obtain ⟨r, hr, hcr, hlt⟩ := hmem
      exact ih _ (hj ▸ hlt) r hr rfl (hc.trans hcr)

/-- An entry that is not in use is passed over. -/
theorem Scanned.skip (hs : Scanned i s) (hu : ¬ Used (entry s.dir i)) : Scanned (i + 1) s where
  arrOk := hs.arrOk
  nodup := hs.nodup
  fresh := hs.fresh
  record := hs.record
  bound := fun p hp => (hs.bound p hp).trans (Nat.lt_succ_self i)
  inj := hs.inj
  loaded := fun j hj hj' => by
    rcases Nat.lt_succ_iff_lt_or_eq.mp hj with hj | rfl
    · exact hs.loaded j hj hj'
    · exact absurd hj' hu
  ordered := hs.ordered
  first := hs.first
  indexLen_le := hs.indexLen_le
  index_length := hs.index_length
  slot := hs.slot
  count := hs.count
  live_le := hs.live_le.trans (Nat.le_succ i)
  used := hs.used

/-- One live record more, and the others as they were but for positions. -/
structure OneMore (f : FileT) (s s₁ : Filesys) : Prop where
  live : s₁.live = s.next :: s.live
  self : (s₁.heap s.next).Same f
  old : ∀ q ∈ s.live, (s₁.heap q).Same (s.heap q)

theorem Recorded.oneMore (hrec : Recorded f s s₁) (hfresh : ∀ p ∈ s.live, p < s.next) :
    OneMore f s s₁ where
  live := by rw [hrec.eq]
  self := by
    have := hrec.same s.next
    rwa [Heap.set_self] at this
  old := fun q hq => by
    have := hrec.same q
    rwa [Heap.set_of_ne _ _ (hfresh q hq).ne] at this

theorem OneMore.mem_live (ho : OneMore f s s₁) {p : Ptr} (hp : p ∈ s₁.live) :
    p = s.next ∨ p ∈ s.live := List.mem_cons.mp (ho.live ▸ hp)

/-- No two records are of one entry. -/
theorem Scanned.inj_step (hs : Scanned i s) (ho : OneMore f s s₁) (hfi : f.index = i) :
    ∀ p ∈ s₁.live, ∀ q ∈ s₁.live, (s₁.heap p).index = (s₁.heap q).index → p = q := by
  have hself : (s₁.heap s.next).index = i := ho.self.2.2.2.trans hfi
  intro p hp q hq he
  rcases ho.mem_live hp with rfl | hp <;> rcases ho.mem_live hq with rfl | hq
  · rfl
  · rw [hself, (ho.old q hq).2.2.2] at he
    exact absurd he (hs.bound q hq).ne'
  · rw [hself, (ho.old p hp).2.2.2] at he
    exact absurd he (hs.bound p hp).ne
  · rw [(ho.old p hp).2.2.2, (ho.old q hq).2.2.2] at he
    exact hs.inj p hp q hq he

/-- The new record comes last, and is taken if nothing before it clashes. -/
theorem Scanned.first_step (hs : Scanned i s) (hrec : Recorded f s s₁) (hfi : f.index = i)
    (t : ArrType) {p : Ptr} (hp : p ∈ s₁.live) :
    p ∈ (s₁.arr t).list ↔ ∀ q ∈ s₁.live, Clashes t (s₁.heap p) (s₁.heap q) →
      (s₁.heap p).index ≤ (s₁.heap q).index := by
  have ho := hrec.oneMore hs.fresh
  have hself : (s₁.heap s.next).index = i := ho.self.2.2.2.trans hfi
  have hmem : ∀ q ∈ s.live, q ∈ s₁.live := fun q hq => ho.live ▸ List.mem_cons_of_mem _ hq
  rw [hrec.mem_iff t p]
  rcases ho.mem_live hp with rfl | hp
  · have hout : s.next ∉ (s.arr t).list := fun h =>
      (hs.fresh _ ((hs.arrOk t).mem_live _ h)).false
    rw [hself]
    constructor
    · rintro (h | ⟨-, hno⟩) q hq hc
      · exact absurd h hout
      rcases ho.mem_live hq with rfl | hq
      · exact hself.ge
      · rw [clashes_same ho.self (ho.old q hq)] at hc
        exact absurd (hs.clash_of_live hq hc) hno
    · intro h
      refine Or.inr ⟨rfl, fun hc => ?_⟩
      obtain ⟨q, hq, hc⟩ := clash_iff.mp hc
      have hq := (hs.arrOk t).mem_live q hq
      have hle := h q (hmem q hq) ((clashes_same ho.self (ho.old q hq)).mpr hc)
      rw [(ho.old q hq).2.2.2] at hle
      exact absurd (hs.bound q hq) hle.not_gt
  · have hpne : p ≠ s.next := (hs.fresh p hp).ne
    rw [or_iff_left fun h => hpne h.1, hs.first t p hp, (ho.old p hp).2.2.2]
    constructor
    · intro h q hq hc
      rcases ho.mem_live hq with rfl | hq
      · rw [hself]
        exact (hs.bound p hp).le
      · rw [(ho.old q hq).2.2.2]
        exact h q hq ((clashes_same (ho.old p hp) (ho.old q hq)).mp hc)
    · intro h q hq hc
      have := h q (hmem q hq) ((clashes_same (ho.old p hp) (ho.old q hq)).mpr hc)
      rwa [(ho.old q hq).2.2.2] at this

/-- The entry is marked, and no other. -/
theorem Scanned.slot_step (hs : Scanned i s) (ho : OneMore f s s₁) (hfi : f.index = i)
    (hi : i < s.indexLen) : ∀ j < s.indexLen, (s.index.set i 1)[j]? =
      some (if ∃ p ∈ s₁.live, (s₁.heap p).index = j then 1 else 0) := by
  have hself : (s₁.heap s.next).index = i := ho.self.2.2.2.trans hfi
  rw [ho.live]
  intro j hj
  by_cases hji : j = i
  · subst hji
    rw [List.getElem?_set_self (by rw [hs.index_length]; exact hi),
      if_pos ⟨s.next, List.mem_cons_self, hself⟩]
  · rw [List.getElem?_set_ne (Ne.symm hji), hs.slot j hj]
    congr 1
    refine if_congr ?_ rfl rfl
    constructor
    · rintro ⟨p, hp, he⟩
      exact ⟨p, List.mem_cons_of_mem _ hp, (ho.old p hp).2.2.2.trans he⟩
    · rintro ⟨p, hp, he⟩
      rcases List.mem_cons.mp hp with rfl | hp
      · exact absurd (he.symm.trans hself) hji
      · exact ⟨p, hp, (ho.old p hp).2.2.2.symm.trans he⟩

/-- The lengths of the records add up without wrapping. -/
theorem Scanned.used_step (hs : Scanned i s) (ho : OneMore f s s₁) (hi : i < s.indexLen)
    (hlen : f.length < 2 ^ 32) :
    toI64 (s.used + (s₁.heap s.next).length) = (totalLength s₁.heap s₁.live : ℤ) := by
  have hbound : totalLength s.heap s.live ≤ 2 ^ 48 := by
    have h1 := totalLength_le (h := s.heap) (L := s.live) (b := 2 ^ 32) fun q hq => by
      rw [(hs.record q hq).length]
      exact (entryLength_lt _).le
    have h2 := hs.live_le
    have h3 := hs.indexLen_le
    unfold maxNumFiles at h3
    calc totalLength s.heap s.live ≤ s.live.length * 2 ^ 32 := h1
      _ ≤ 2 ^ 16 * 2 ^ 32 := Nat.mul_le_mul_right _ (by omega)
      _ = 2 ^ 48 := by norm_num
  have htotal : totalLength s₁.heap s₁.live = totalLength s.heap s.live + f.length := by
    rw [ho.live, totalLength_cons, ho.self.2.2.1,
      totalLength_congr fun q hq => (ho.old q hq).2.2.1]
    omega
  rw [htotal, ho.self.2.2.1, hs.used, toI64_of_bounds (by omega) (by omega)]
  push_cast
  rfl

/-- A used entry adds its record. -/
theorem Scanned.record_step (hs : Scanned i s) (hi : i < s.indexLen)
    (hu : Used (entry s.dir i)) (hrec : Recorded ⟨loadName (entry s.dir i),
      loadOffset (entry s.dir i), entryLength (entry s.dir i), i, -1, -1⟩ s s₁) :
    Scanned (i + 1) { s₁ with
      used := toI64 (s₁.used + (s₁.heap s.next).length)
      index := s₁.index.set i 1
      indexCount := s₁.indexCount + 1 } := by
  have ho := hrec.oneMore hs.fresh
  have hself : (s₁.heap s.next).index = i := ho.self.2.2.2
  have hdir : s₁.dir = s.dir := by rw [hrec.eq]
  have hlen : s₁.indexLen = s.indexLen := by rw [hrec.eq]
  have hindex : s₁.index = s.index := by rw [hrec.eq]
  have hused : s₁.used = s.used := by rw [hrec.eq]
  have hinj := hs.inj_step ho rfl
  refine ⟨fun t => ?_, ?_, ?_, ?_, ?_, hinj, ?_, fun t => ?_, fun t p hp => ?_, ?_, ?_, ?_, ?_, ?_,
    ?_⟩
  · exact (hrec.arrOk t).congr (by cases t <;> rfl) rfl (fun _ => rfl) rfl
  · show s₁.live.Nodup
    rw [ho.live]
    exact List.nodup_cons.mpr ⟨fun h => (hs.fresh _ h).false, hs.nodup⟩
  · show ∀ p ∈ s₁.live, p < s₁.next
    rw [ho.live, hrec.eq]
    intro p hp
    rcases List.mem_cons.mp hp with rfl | hp
    · exact Nat.lt_succ_self _
    · exact (hs.fresh p hp).trans (Nat.lt_succ_self _)
  · show ∀ p ∈ s₁.live, RecordOf (entry s₁.dir (s₁.heap p).index) (s₁.heap p)
    rw [hdir]
    intro p hp
    rcases ho.mem_live hp with rfl | hp
    · rw [hself]
      exact ⟨hu, ho.self.1, ho.self.2.1, ho.self.2.2.1⟩
    · have h := ho.old p hp
      have hr := hs.record p hp
      rw [h.2.2.2]
      exact ⟨hr.used, h.1.trans hr.name, h.2.1.trans hr.offset, h.2.2.1.trans hr.length⟩
  · show ∀ p ∈ s₁.live, (s₁.heap p).index < i + 1
    intro p hp
    rcases ho.mem_live hp with rfl | hp
    · rw [hself]
      exact Nat.lt_succ_self i
    · rw [(ho.old p hp).2.2.2]
      exact (hs.bound p hp).trans (Nat.lt_succ_self i)
  · show ∀ j < i + 1, Used (entry s₁.dir j) → ∃ p ∈ s₁.live, (s₁.heap p).index = j
    rw [ho.live, hdir]
    intro j hj hj'
    rcases Nat.lt_succ_iff_lt_or_eq.mp hj with hj | rfl
    · obtain ⟨p, hp, he⟩ := hs.loaded j hj hj'
      exact ⟨p, List.mem_cons_of_mem _ hp, (ho.old p hp).2.2.2.trans he⟩
    · exact ⟨s.next, List.mem_cons_self, hself⟩
  · have := hrec.ordered t
    cases t <;> exact this
  · have := hs.first_step hrec rfl t hp
    cases t <;> exact this
  · show s₁.indexLen ≤ maxNumFiles
    rw [hlen]
    exact hs.indexLen_le
  · show (s₁.index.set i 1).length = s₁.indexLen
    rw [List.length_set, hindex, hlen]
    exact hs.index_length
  · show ∀ j < s₁.indexLen, (s₁.index.set i 1)[j]? =
      some (if ∃ p ∈ s₁.live, (s₁.heap p).index = j then 1 else 0)
    rw [hlen, hindex]
    exact hs.slot_step ho rfl hi
  · show s₁.indexCount + 1 = (s₁.live.length : ℤ)
    rw [ho.live, hrec.eq, List.length_cons, hs.count]
    push_cast
    rfl
  · show s₁.live.length ≤ i + 1
    rw [ho.live, List.length_cons]
    exact Nat.succ_le_succ hs.live_le
  · show toI64 (s₁.used + (s₁.heap s.next).length) = (totalLength s₁.heap s₁.live : ℤ)
    rw [hused]
    exact hs.used_step ho hi (entryLength_lt _)

theorem initState_scanned {file dir hash : List UInt8} (hn : n ≤ maxNumFiles) :
    Scanned 0 (initState file dir hash ⟨n, .offset, []⟩ ⟨n, .name, []⟩) where
  arrOk := fun t => by
    have hs := @initState_liveOk file dir hash n
    cases t
    · exact hs.offsets
    · exact hs.names
  nodup := List.nodup_nil
  fresh := by simp [initState]
  record := by simp [initState]
  bound := by simp [initState]
  inj := by simp [initState]
  loaded := fun j hj => absurd hj (Nat.not_lt_zero j)
  ordered := fun t => by cases t <;> exact List.Pairwise.nil
  first := by simp [initState]
  indexLen_le := hn
  index_length := List.length_replicate
  slot := fun j hj => by
    have hj : j < n := hj
    simp [initState, hj]
  count := rfl
  live_le := le_rfl
  used := rfl

theorem Scanned.loop (hn : n = s.indexLen) (hsize : metaLen * n ≤ s.dir.length) :
    ∀ (m i : ℕ) (s₁ : Filesys), i + m = n → s₁.dir = s.dir → Shape s s₁ → Scanned i s₁ →
      ∃ s', initLoop i m s₁ = .ok s' ∧ s'.dir = s.dir ∧ Shape s s' ∧ Scanned n s' := by
  intro m
  induction m with
  | zero =>
    intro i s₁ hi hdir hsh hs
    rw [Nat.add_zero] at hi
    subst hi
    exact ⟨s₁, rfl, hdir, hsh, hs⟩
  | succ m ih =>
    intro i s₁ hi hdir hsh hs
    have hin : metaLen * i + metaLen ≤ s₁.dir.length := by
      rw [hdir]
      calc metaLen * i + metaLen = metaLen * (i + 1) := by ring
        _ ≤ metaLen * n := Nat.mul_le_mul_left _ (by omega)
        _ ≤ s.dir.length := hsize
    rw [initLoop_succ hin]
    by_cases hu : Used (entry s₁.dir i)
    · have hlen : s₁.indexLen = s.indexLen := hsh.indexLen
      have hnew : ∀ t, KeyRule t ⟨loadName (entry s₁.dir i), loadOffset (entry s₁.dir i),
          entryLength (entry s₁.dir i), i, -1, -1⟩ := fun t =>
        RecordOf.keyRule ⟨hu, rfl, rfl, rfl⟩ t
      obtain ⟨s₂, s₃, h1, h2, hrec⟩ := record_total hs.arrOk hs.fresh
        (by have := hs.live_le; omega) hs.ordered (fun t q hq => (hs.record q hq).keyRule t) hnew
      rw [if_pos hu, h1, Run.ok_bind, h2, Run.ok_bind]
      refine ih (i + 1) _ (by omega) ?_ ?_ (hs.record_step (by omega) hu hrec)
      · show s₃.dir = s.dir
        rw [hrec.eq]
        exact hdir
      · refine hsh.trans ?_
        rw [hrec.eq]
        exact ⟨rfl, rfl, rfl, rfl, rfl, rfl⟩
    · rw [if_neg hu]
      exact ih (i + 1) s₁ (by omega) hdir hsh (hs.skip hu)

end Scan

/-! ## All images -/

/-- The directory holds each name once, and its extents lie apart inside `file_data`. -/
structure DirectoryValid (n : ℕ) (d : List UInt8) (fileDataLen : ℕ) : Prop where
  names : DistinctNames n d
  inside : ExtentsInside n d fileDataLen
  disjoint : ExtentsDisjoint n d

/-- The entry is the first one in use that has the name. -/
def FirstNamed (name : FileName) (d : List UInt8) (i : ℕ) : Prop :=
  Used (entry d i) ∧ loadName (entry d i) = name ∧
    ∀ j < i, Used (entry d j) → loadName (entry d j) ≠ name

section Images

variable {file dir hash : List UInt8} {s : Filesys} {i : ℕ} {name : CString}

theorem toNat_toI32_le (m : ℕ) : (toI32 (m : ℕ)).toNat ≤ m := by
  unfold toI32
  rw [Int.bmod_def]
  split_ifs <;> omega

theorem initFs_scanned (hr : initFs file dir hash = .ok s) :
    Scanned s.indexLen s ∧ s.file = file ∧ s.dir = dir ∧ s.hash = hash ∧
      metaLen * s.indexLen ≤ dir.length := by
  obtain ⟨-, n, hn, hsize, hloop⟩ := initFs_post hr
  obtain ⟨s', hr', hdir, hsh, hs⟩ := Scanned.loop (n := n)
    (s := initState file dir hash ⟨n, .offset, []⟩ ⟨n, .name, []⟩) rfl hsize n 0 _
    (Nat.zero_add n) rfl (Shape.refl _) (initState_scanned hn)
  obtain rfl : s = s' := Except.ok.inj (hloop.symm.trans hr')
  have hlen : s.indexLen = n := hsh.indexLen
  have himages := initFs_images hr
  refine ⟨by rw [hlen]; exact hs, ?_, hdir, ?_, by rw [hlen]; exact hsize⟩
  · rw [← himages]
    rfl
  · rw [← himages]
    rfl

/-- The number of entries is counted in 32 bits. -/
theorem initFs_indexLen32 (hr : initFs file dir hash = .ok s) :
    (s.indexLen : ℤ) = toI32 (dir.length / metaLen : ℕ) := by
  have hdiv := toNat_toI32_le (dir.length / metaLen)
  obtain ⟨_, -, hr⟩ := Run.bind_eq_ok.mp hr
  generalize toI32 (dir.length / metaLen : ℕ) = c at hr hdiv
  obtain ⟨oList, h2, hr⟩ := Run.bind_eq_ok.mp hr
  obtain ⟨nList, h3, hr⟩ := Run.bind_eq_ok.mp hr
  obtain ⟨hb, rfl⟩ := arrInit_post h2
  obtain ⟨-, rfl⟩ := arrInit_post h3
  obtain ⟨s', hr', -, hsh, -⟩ := Scanned.loop (n := c.toNat)
    (s := initState file dir hash ⟨c.toNat, .offset, []⟩ ⟨c.toNat, .name, []⟩) rfl
    (calc metaLen * c.toNat ≤ metaLen * (dir.length / metaLen) := Nat.mul_le_mul_left _ hdiv
      _ ≤ dir.length := Nat.mul_div_le _ _)
    c.toNat 0 _ (Nat.zero_add _) rfl (Shape.refl _) (initState_scanned (by omega))
  obtain rfl : s = s' := Except.ok.inj (hr.symm.trans hr')
  rw [hsh.indexLen]
  exact Int.toNat_of_nonneg hb.1

theorem initFs_indexLen (hr : initFs file dir hash = .ok s)
    (hle : dir.length / metaLen ≤ maxNumFiles) : s.indexLen = dir.length / metaLen := by
  have h32 := initFs_indexLen32 hr
  generalize dir.length / metaLen = m at h32 hle ⊢
  unfold maxNumFiles at hle
  rw [toI32_of_bounds (by omega) (by omega)] at h32
  exact Int.ofNat.inj h32

/-- `init_fs` accepts any three non-empty images whose number of directory entries, in 32 bits, is
one the arrays can hold. -/
theorem initFs_accepts_iff : (∃ s, initFs file dir hash = .ok s) ↔
    (file ≠ [] ∧ dir ≠ [] ∧ hash ≠ []) ∧ 0 ≤ toI32 (dir.length / metaLen : ℕ) ∧
      toI32 (dir.length / metaLen : ℕ) ≤ maxNumFiles := by
  constructor
  · rintro ⟨s, hr⟩
    refine ⟨(initFs_post hr).1, ?_⟩
    obtain ⟨_, -, hr⟩ := Run.bind_eq_ok.mp hr
    obtain ⟨oList, h2, -⟩ := Run.bind_eq_ok.mp hr
    exact (arrInit_post h2).1
  · rintro ⟨hne, h0, hle⟩
    obtain ⟨c, hc⟩ : ∃ c, c = toI32 (dir.length / metaLen : ℕ) := ⟨_, rfl⟩
    have hdiv : c.toNat ≤ dir.length / metaLen := hc ▸ toNat_toI32_le _
    rw [← hc] at h0 hle
    obtain ⟨s, hr, -⟩ := Scanned.loop (n := c.toNat)
      (s := initState file dir hash ⟨c.toNat, .offset, []⟩ ⟨c.toNat, .name, []⟩) rfl
      (calc metaLen * c.toNat ≤ metaLen * (dir.length / metaLen) := Nat.mul_le_mul_left _ hdiv
        _ ≤ dir.length := Nat.mul_div_le _ _)
      c.toNat 0 _ (Nat.zero_add _) rfl (Shape.refl _) (initState_scanned (by omega))
    refine ⟨s, ?_⟩
    unfold initFs arrInit
    rw [Run.assert_of hne, ← hc, Run.assert_of (show 0 ≤ c ∧ c ≤ maxNumFiles from ⟨h0, hle⟩)]
    exact hr

theorem Scanned.lookup (hs : Scanned i s) (hne : name.bytes ≠ []) :
    ∃ r, Vfs.lookup name s = .ok r ∧
      ∀ p, r = some p ↔ p ∈ s.nList.list ∧ (s.heap p).name = name.toFileName := by
  have ht : s.nList.type = .name := (hs.arrOk .name).type_eq
  have hsorted : NameSorted s.heap s.nList.list := hs.ordered .name
  obtain ⟨r, hr⟩ := lookup_total name s
  refine ⟨r, hr, fun p => ?_⟩
  constructor
  · rintro rfl
    exact lookup_some ht hr
  · rintro ⟨hp, hpn⟩
    obtain ⟨j, hj⟩ := List.getElem?_of_mem hp
    cases r with
    | none =>
      have h1 := lookup_none ht hne hr
      rw [arrGetIndex_name_of_mem (f := nameKey name) ht hsorted hj hpn] at h1
      have : (j : ℤ) = -1 := Except.ok.inj h1
      omega
    | some q =>
      obtain ⟨hq, hqn⟩ := lookup_some ht hr
      -- both are the first of their name
      have hpl := (hs.arrOk .name).mem_live p hp
      have hql := (hs.arrOk .name).mem_live q hq
      have h1 := (hs.first .name p hpl).mp hp q hql (hqn.trans hpn.symm)
      have h2 := (hs.first .name q hql).mp hq p hpl (hpn.trans hqn.symm)
      rw [hs.inj q hql p hpl (Nat.le_antisymm h2 h1)]

/-- **Duplicate names.**  After mounting any directory a lookup finds the record of the first used
entry that has the name, and of no other. -/
theorem initFs_lookup (hr : initFs file dir hash = .ok s) (hne : name.bytes ≠ []) :
    ∃ r, Vfs.lookup name s = .ok r ∧
      (∀ p, r = some p ↔ p ∈ s.live ∧ FirstNamed name.toFileName dir (s.heap p).index) ∧
      (r = none ↔ ∀ i < s.indexLen, ¬ FirstNamed name.toFileName dir i) := by
  obtain ⟨hs, -, hdir, -⟩ := initFs_scanned hr
  obtain ⟨r, hl, hiff⟩ := hs.lookup hne
  have hfirst : ∀ p ∈ s.live, (p ∈ s.nList.list ∧ (s.heap p).name = name.toFileName ↔
      FirstNamed name.toFileName dir (s.heap p).index) := by
    intro p hp
    have hrec := hs.record p hp
    rw [hdir] at hrec
    have hmem : p ∈ s.nList.list ↔ _ := hs.first .name p hp
    unfold FirstNamed
    rw [hmem, ← hrec.name]
    constructor
    · rintro ⟨hmin, hn⟩
      refine ⟨hrec.used, hn, fun j hj hu hjn => ?_⟩
      obtain ⟨q, hq, rfl⟩ := hs.loaded j (hj.trans (hs.bound p hp)) (hdir.symm ▸ hu)
      have hrecq := hs.record q hq
      rw [hdir] at hrecq
      exact absurd (hmin q hq ((hrecq.name.trans hjn).trans hn.symm)) hj.not_ge
    · rintro ⟨-, hn, hmin⟩
      refine ⟨fun q hq hc => ?_, hn⟩
      by_contra hlt
      have hrecq := hs.record q hq
      rw [hdir] at hrecq
      have hqn : (s.heap q).name = (s.heap p).name := hc
      exact hmin _ (not_le.mp hlt) hrecq.used (hrecq.name.symm.trans (hqn.trans hn))
  have hsome : ∀ p, r = some p ↔
      p ∈ s.live ∧ FirstNamed name.toFileName dir (s.heap p).index := by
    intro p
    rw [hiff p]
    constructor
    · intro h
      have hp := (hs.arrOk .name).mem_live p h.1
      exact ⟨hp, (hfirst p hp).mp h⟩
    · exact fun h => (hfirst p h.1).mpr h.2
  refine ⟨r, hl, hsome, ?_⟩
  constructor
  · rintro rfl i hi h
    obtain ⟨p, hp, rfl⟩ := hs.loaded i hi (hdir.symm ▸ h.1)
    cases (hsome p).mpr ⟨hp, h⟩
  · intro h
    cases r with
    | none => rfl
    | some p =>
      obtain ⟨hp, hf⟩ := (hsome p).mp rfl
      exact absurd hf (h _ (hs.bound p hp))

/-- In a directory of distinct names no two records have one name. -/
theorem Scanned.named_once (hs : Scanned i s) (hd : DistinctNames i s.dir) {p q : Ptr}
    (hp : p ∈ s.live) (hq : q ∈ s.live) (hn : (s.heap q).name = (s.heap p).name) : p = q := by
  have hrp := hs.record p hp
  have hrq := hs.record q hq
  rw [hrp.name, hrq.name] at hn
  have hbytes := congrArg FileName.bytes hn
  rw [loadName_bytes, loadName_bytes] at hbytes
  exact (hs.inj q hq p hp (hd _ (hs.bound q hq) _ (hs.bound p hp) hrq.used hrp.used hbytes)).symm

/-- Then `n_list` holds every record. -/
theorem Scanned.liveOk (hs : Scanned i s) (hd : DistinctNames i s.dir) : LiveOk s := by
  refine ⟨hs.arrOk .offset, hs.arrOk .name, ?_, hs.fresh⟩
  refine (List.perm_ext_iff_of_nodup (hs.arrOk .name).nodup hs.nodup).mpr fun p => ?_
  refine ⟨(hs.arrOk .name).mem_live p, fun hp => (hs.first .name p hp).mpr fun q hq hc => ?_⟩
  rw [hs.named_once hd hp hq hc]

/-- In a valid directory nothing clashes. -/
theorem Scanned.alone (hs : Scanned i s) {fileDataLen : ℕ}
    (hv : DirectoryValid i s.dir fileDataLen) {t : ArrType} {p q : Ptr} (hp : p ∈ s.live)
    (hq : q ∈ s.live) (hc : Clashes t (s.heap p) (s.heap q)) : p = q := by
  cases t with
  | name => exact hs.named_once hv.names hp hq hc
  | offset =>
    have hrp := hs.record p hp
    have hrq := hs.record q hq
    obtain ⟨h0, he, h1⟩ := hc
    by_contra hne
    have hidx : (s.heap p).index ≠ (s.heap q).index := fun h => hne (hs.inj p hp q hq h)
    rw [hrp.length] at h0
    rw [hrq.length] at h1
    have hd := hv.disjoint _ (hs.bound p hp) _ (hs.bound q hq) hidx hrp.used hrq.used h0.ne' h1.ne'
    rw [hrp.offset, hrq.offset] at he
    unfold loadOffset at he
    rw [if_neg h0.ne', if_neg h1.ne'] at he
    omega

theorem Scanned.perm (hs : Scanned i s) {fileDataLen : ℕ}
    (hv : DirectoryValid i s.dir fileDataLen) (t : ArrType) : (s.arr t).list.Perm s.live := by
  refine (List.perm_ext_iff_of_nodup (hs.arrOk t).nodup hs.nodup).mpr fun p => ?_
  refine ⟨(hs.arrOk t).mem_live p, fun hp => (hs.first t p hp).mpr fun q hq hc => ?_⟩
  rw [hs.alone hv hp hq hc]

theorem Scanned.mirror (hs : Scanned s.indexLen s) {fileDataLen : ℕ}
    (hv : DirectoryValid s.indexLen s.dir fileDataLen)
    (hsize : metaLen * s.indexLen ≤ s.dir.length) : Mirror (nameLen - 1) s where
  liveOk := hs.liveOk hv.names
  counted :=
    { indexLen_le := hs.indexLen_le
      index_length := hs.index_length
      slot := fun j hj => by
        rw [hs.slot j hj]
        by_cases h : ∃ p ∈ s.live, (s.heap p).index = j
        · rw [if_pos h]
          exact Or.inl ⟨rfl, h⟩
        · rw [if_neg h]
          push Not at h
          exact Or.inr ⟨rfl, h⟩
      count := hs.count
      live_le := hs.live_le
      used := hs.used
      length_lt := fun p hp => by
        rw [(hs.record p hp).length]
        exact entryLength_lt _ }
  dir :=
    { size := hsize
      bound := hs.bound
      inj := hs.inj
      entry := fun p hp => by
        have hrec := hs.record p hp
        refine ⟨?_, fun hlt => ?_, hrec.length.symm⟩
        · rw [hrec.name, loadName_bytes]
        · rw [hrec.offset] at hlt ⊢
          unfold loadOffset at *
          split_ifs at hlt ⊢
          · exact absurd hlt (lt_irrefl _)
          · rfl
      free := fun j hj hno => by
        have hlen := entry_length hsize hj
        have hu : ¬ Used (entry s.dir j) := fun hu => by
          obtain ⟨p, hp, he⟩ := hs.loaded j hj hu
          exact hno p hp he
        unfold Used at hu
        cases he : entry s.dir j with
        | nil =>
          rw [he] at hlen
          cases hlen
        | cons b bs =>
          rw [he] at hu
          simpa using hu }

/-- A well-formed state was mounted from a valid directory. -/
theorem Scanned.directoryValid (hs : Scanned s.indexLen s) (hw : WellFormed s) :
    DirectoryValid s.indexLen s.dir s.file.length := by
  have hfirst : ∀ t, ∀ p ∈ s.live, ∀ q ∈ s.live, Clashes t (s.heap p) (s.heap q) → p = q := by
    intro t p hp q hq hc
    have hmem : ∀ r ∈ s.live, r ∈ (s.arr t).list := fun r hr => by
      cases t
      · exact hw.layout.mem hr
      · exact hw.mirror.liveOk.perm.mem_iff.mpr hr
    have h1 := (hs.first t p hp).mp (hmem p hp) q hq hc
    have h2 := (hs.first t q hq).mp (hmem q hq) p hp hc.symm
    exact hs.inj p hp q hq (Nat.le_antisymm h1 h2)
  refine ⟨fun i hi j hj hui huj hn => ?_, fun i hi hu h0 => ?_,
    fun i hi j hj hij hui huj h0 h1 => ?_⟩
  · obtain ⟨p, hp, rfl⟩ := hs.loaded i hi hui
    obtain ⟨q, hq, rfl⟩ := hs.loaded j hj huj
    rw [← loadName_bytes, ← loadName_bytes, ← (hs.record p hp).name,
      ← (hs.record q hq).name] at hn
    rw [hfirst .name p hp q hq (FileName.ext hn.symm)]
  · obtain ⟨p, hp, rfl⟩ := hs.loaded i hi hu
    have hrec := hs.record p hp
    have hoff := hrec.offset
    unfold loadOffset at hoff
    rw [if_neg h0] at hoff
    rw [← hoff, ← hrec.length]
    rcases hw.layout.range p hp with ⟨-, h⟩ | h
    · rw [hrec.length] at h
      exact absurd h h0
    · exact h
  · obtain ⟨p, hp, rfl⟩ := hs.loaded i hi hui
    obtain ⟨q, hq, rfl⟩ := hs.loaded j hj huj
    have hrp := hs.record p hp
    have hrq := hs.record q hq
    have hop := hrp.offset
    have hoq := hrq.offset
    unfold loadOffset at hop hoq
    rw [if_neg h0] at hop
    rw [if_neg h1] at hoq
    have hpq : p ≠ q := fun h => hij (congrArg _ (congrArg _ h))
    have hap := hw.layout.lined.apart (hw.layout.mem hp) (hw.layout.mem hq) hpq
      (by rw [ext_len, hrp.length]; omega) (by rw [ext_len, hrq.length]; omega)
    unfold Extent.stop at hap
    simp only [ext_start, ext_len, hop, hoq, hrp.length, hrq.length] at hap
    exact hap

theorem Scanned.wellFormed (hs : Scanned s.indexLen s) (hsize : metaLen * s.indexLen ≤ s.dir.length)
    (hv : DirectoryValid s.indexLen s.dir s.file.length) : WellFormed s := by
  have hm := hs.mirror hv hsize
  have hoff : ∀ p ∈ s.live, (s.heap p).length ≠ 0 →
      (s.heap p).offset = entryOffset (entry s.dir (s.heap p).index) := fun p hp h0 => by
    have hrec := hs.record p hp
    rw [hrec.length] at h0
    rw [hrec.offset]
    unfold loadOffset
    rw [if_neg h0]
  have hempty : ∀ p ∈ s.live, (s.heap p).length = 0 → (s.heap p).offset = maxFileDataLen :=
    fun p hp h0 => by
      have hrec := hs.record p hp
      rw [hrec.length] at h0
      rw [hrec.offset]
      unfold loadOffset
      rw [if_pos h0]
  have hperm : s.oList.list.Perm s.live := hs.perm hv .offset
  refine ⟨hm, ⟨hperm, ?_, fun p hp => ?_⟩, hs.ordered .name, hempty⟩
  · refine before_exts ?_ (hs.arrOk .offset).nodup fun p hp q hq hpq h0 h1 => ?_
    · have hord : KeyOrdered .offset s.heap s.oList.list := hs.ordered .offset
      refine List.Pairwise.imp (fun {p q} h => ?_) hord
      rcases h with h | h
      · exact h.le
      · exact h.1.le
    · have hp := hperm.mem_iff.mp hp
      have hq := hperm.mem_iff.mp hq
      rw [ext_len] at h0 h1
      have hrp := hs.record p hp
      have hrq := hs.record q hq
      have hd := hv.disjoint _ (hs.bound p hp) _ (hs.bound q hq)
        (fun h => hpq (hs.inj p hp q hq h)) hrp.used hrq.used
        (by rw [← hrp.length]; exact h0.ne') (by rw [← hrq.length]; exact h1.ne')
      unfold Extent.stop
      simp only [ext_start, ext_len, hoff p hp h0.ne', hoff q hq h1.ne', hrp.length, hrq.length]
      exact hd
  · rcases Nat.eq_zero_or_pos (s.heap p).length with h0 | h0
    · exact Or.inl ⟨hempty p hp h0, h0⟩
    · have hrec := hs.record p hp
      refine Or.inr ?_
      rw [hoff p hp h0.ne', hrec.length]
      exact hv.inside _ (hs.bound p hp) hrec.used (by rw [← hrec.length]; exact h0.ne')

/-- Mounting gives a well-formed state exactly if the directory is valid. -/
theorem initFs_wellFormed_iff (hr : initFs file dir hash = .ok s) :
    WellFormed s ↔ DirectoryValid s.indexLen dir file.length := by
  obtain ⟨hs, rfl, rfl, -, hsize⟩ := initFs_scanned hr
  exact ⟨hs.directoryValid, hs.wellFormed hsize⟩

end Images

/-- Two entries of the name `a`, each of one byte. -/
def twinDir : List UInt8 :=
  97 :: zeros 67 ++ [1, 0, 0, 0] ++ 97 :: zeros 63 ++ [1, 0, 0, 0, 1, 0, 0, 0]

set_option maxRecDepth 20000 in
/-- Of two records of one name the first is found. -/
theorem initFs_lookup_twin : ∃ s p, initFs (zeros 256) twinDir (zeros 16) = .ok s ∧
    s.live.length = 2 ∧ Vfs.lookup (.ofByte 97 (by decide)) s = .ok (some p) ∧
    (s.heap p).index = 0 := by
  obtain ⟨s, hinit, hs⟩ := Run.holds_iff.mp
    (show Run.Holds (initFs (zeros 256) twinDir (zeros 16)) (fun s => s.live.length = 2 ∧
      s.indexLen = 2) by decide +kernel)
  obtain ⟨r, hl, hsome, hnone⟩ := @initFs_lookup _ _ _ _ (.ofByte 97 (by decide))
    hinit (by decide)
  have hfirst : FirstNamed (CString.ofByte 97 (by decide)).toFileName twinDir 0 := by
    unfold FirstNamed
    decide +kernel
  cases r with
  | none => exact absurd hfirst (hnone.mp rfl 0 (by omega))
  | some p =>
    obtain ⟨hp, hu, hn, hmin⟩ := (hsome p).mp rfl
    refine ⟨s, p, hinit, hs.1, hl, ?_⟩
    by_contra h0
    exact hmin 0 (by omega) hfirst.1 hfirst.2.1

end Vfs
