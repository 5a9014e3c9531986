import VirtualFileSystem.Lib.Trace

/-!
# Threads over a shared state

A program touches the shared state only through atomic accesses, and computes on their answers in
between.  Threads take turns in any order, one access a turn.  What a thread saw is a path through
its program, whatever the others did between its accesses.
-/

namespace Interleave

/-- A program: its result, its failure, or an access and what follows each answer. -/
inductive Prog (A B E R : Type)
  | done (r : R)
  | fail (e : E)
  | step (a : A) (k : B → Prog A B E R)

/-- An access a thread made, with the states around it. -/
structure Event (A B σ : Type) where
  thread : ℕ
  access : A
  answer : B
  before : σ
  after : σ

/-- The shared state and what is left of each thread. -/
structure Config (A B E R σ : Type) where
  shared : σ
  threads : ℕ → Prog A B E R

section Interleave

variable {A B E R σ α : Type}

/-- Going on with the value of a local computation. -/
def Prog.lift : Except E α → (α → Prog A B E R) → Prog A B E R
  | .error e, _ => .fail e
  | .ok a, k => k a

/-- The program with no other thread in between. -/
def Prog.alone (exec : A → σ → Except E (B × σ)) : Prog A B E R → σ → Except E (R × σ)
  | .done r, s => .ok (r, s)
  | .fail e, _ => .error e
  | .step a k, s =>
    match exec a s with
    | .error e => .error e
    | .ok (b, s') => (k b).alone exec s'

/-- The result of a program that finished. -/
def Prog.result : Prog A B E R → Option R
  | .done r => some r
  | .fail _ => none
  | .step _ _ => none

/-- Thread `i` makes its next access, if it has one. -/
def turn (exec : A → σ → Except E (B × σ)) (i : ℕ) (c : Config A B E R σ) :
    Except E (Option (Event A B σ) × Config A B E R σ) :=
  match c.threads i with
  | .done _ => .ok (none, c)
  | .fail e => .error e
  | .step a k =>
    match exec a c.shared with
    | .error e => .error e
    | .ok (b, s) => .ok (some ⟨i, a, b, c.shared, s⟩, ⟨s, Function.update c.threads i (k b)⟩)

/-- The accesses of thread `i`. -/
def eventsOf (i : ℕ) (es : List (Option (Event A B σ))) : List (Event A B σ) :=
  es.filterMap (Option.filter (fun e => e.thread = i))

/-- The events lead through the program from `p` to `q`. -/
def Path (exec : A → σ → Except E (B × σ)) :
    List (Event A B σ) → Prog A B E R → Prog A B E R → Prop
  | [], p, q => q = p
  | e :: es, .step a k, q =>
    e.access = a ∧ exec a e.before = .ok (e.answer, e.after) ∧ Path exec es (k e.answer) q
  | _ :: _, .done _, _ => False
  | _ :: _, .fail _, _ => False

variable {exec : A → σ → Except E (B × σ)} {c c' : Config A B E R σ} {i : ℕ} {a : A}
  {k : B → Prog A B E R} {r : R} {es : List (Event A B σ)} {q : Prog A B E R} {s s' : σ}

/-! ## One program -/

theorem alone_step {b : B} (h : exec a s = .ok (b, s')) :
    (Prog.step a k).alone exec s = (k b).alone exec s' := by
  simp only [Prog.alone, h]

/-- The first access, and the rest of the program. -/
theorem alone_step_bind :
    (Prog.step a k).alone exec s = exec a s >>= fun x => (k x.1).alone exec x.2 := by
  cases hx : exec a s with
  | error e => simp only [Prog.alone, hx]; rfl
  | ok x => exact alone_step hx

theorem alone_step_eq_ok {x : R × σ} :
    (Prog.step a k).alone exec s = .ok x ↔
      ∃ b s₁, exec a s = .ok (b, s₁) ∧ (k b).alone exec s₁ = .ok x := by
  constructor
  · intro h
    cases hx : exec a s with
    | error e =>
      simp only [Prog.alone, hx] at h
      cases h
    | ok y => exact ⟨y.1, y.2, rfl, (alone_step hx).symm.trans h⟩
  · rintro ⟨b, s₁, hx, h⟩
    exact (alone_step hx).trans h

theorem alone_lift_eq_ok {m : Except E α} {f : α → Prog A B E R} {x : R × σ} :
    (Prog.lift m f).alone exec s = .ok x ↔ ∃ y, m = .ok y ∧ (f y).alone exec s = .ok x := by
  cases m with
  | error e => simp [Prog.lift, Prog.alone]
  | ok y => simp [Prog.lift]

theorem result_eq_some : q.result = some r ↔ q = .done r := by
  cases q with
  | done r' => simp [Prog.result]
  | fail e => simp [Prog.result]
  | step a k => simp [Prog.result]

theorem path_done : Path exec es (.done r) q ↔ es = [] ∧ q = .done r := by
  cases es with
  | nil => simp [Path]
  | cons e es => simp [Path]

theorem path_fail {e : E} : Path exec es (.fail e) q ↔ es = [] ∧ q = .fail e := by
  cases es with
  | nil => simp [Path]
  | cons e es => simp [Path]

/-- A program that finished made its first access. -/
theorem path_step_done :
    Path exec es (.step a k) (.done r) ↔ ∃ e es', es = e :: es' ∧ e.access = a ∧
      exec a e.before = .ok (e.answer, e.after) ∧ Path exec es' (k e.answer) (.done r) := by
  cases es with
  | nil => simp [Path]
  | cons e es =>
    constructor
    · intro h
      exact ⟨e, es, rfl, h⟩
    · rintro ⟨e', es', he, h⟩
      obtain ⟨rfl, rfl⟩ := List.cons.inj he
      exact h

theorem path_lift_done {m : Except E α} {f : α → Prog A B E R} :
    Path exec es (.lift m f) (.done r) ↔ ∃ x, m = .ok x ∧ Path exec es (f x) (.done r) := by
  cases m with
  | error e => simp [Prog.lift, path_fail]
  | ok x => simp [Prog.lift]

/-! ## Turns -/

/-- A turn of a finished thread changes nothing, and any other turn is one access. -/
theorem turn_cases {o : Option (Event A B σ)} (h : turn exec i c = .ok (o, c')) :
    (o = none ∧ c' = c ∧ ∃ r, c.threads i = .done r) ∨
    ∃ a k b s, c.threads i = .step a k ∧ exec a c.shared = .ok (b, s) ∧
      o = some ⟨i, a, b, c.shared, s⟩ ∧ c' = ⟨s, Function.update c.threads i (k b)⟩ := by
  unfold turn at h
  cases hp : c.threads i with
  | done r =>
    rw [hp] at h
    obtain ⟨rfl, rfl⟩ := Prod.mk.inj (Except.ok.inj h)
    exact Or.inl ⟨rfl, rfl, r, rfl⟩
  | fail e =>
    rw [hp] at h
    cases h
  | step a k =>
    rw [hp] at h
    dsimp only at h
    cases hx : exec a c.shared with
    | error e =>
      rw [hx] at h
      cases h
    | ok x =>
      obtain ⟨b, s⟩ := x
      rw [hx] at h
      obtain ⟨rfl, rfl⟩ := Prod.mk.inj (Except.ok.inj h)
      exact Or.inr ⟨a, k, b, s, rfl, hx, rfl, rfl⟩

theorem eventsOf_none (es : List (Option (Event A B σ))) :
    eventsOf i (none :: es) = eventsOf i es := rfl

theorem eventsOf_self {e : Event A B σ} (he : e.thread = i) (es : List (Option (Event A B σ))) :
    eventsOf i (some e :: es) = e :: eventsOf i es := by
  simp [eventsOf, Option.filter, he]

theorem eventsOf_other {e : Event A B σ} (he : e.thread ≠ i) (es : List (Option (Event A B σ))) :
    eventsOf i (some e :: es) = eventsOf i es := by
  simp [eventsOf, Option.filter, he]

/-- **What a thread sees.**  In any run the accesses of a thread are a path through its program. -/
theorem run_path (i : ℕ) : ∀ (schedule : List ℕ) (c c' : Config A B E R σ)
    (es : List (Option (Event A B σ))), Trace.run (turn exec) schedule c = .ok (es, c') →
    Path exec (eventsOf i es) (c.threads i) (c'.threads i) := by
  intro schedule
  induction schedule with
  | nil =>
    intro c c' es h
    obtain ⟨rfl, rfl⟩ := Prod.mk.inj (Except.ok.inj h)
    rfl
  | cons j schedule ih =>
    intro c c' es h
    obtain ⟨o, c₁, es', h1, h2, rfl⟩ := Trace.run_cons_eq_ok.mp h
    have hrest := ih c₁ c' es' h2
    rcases turn_cases h1 with ⟨rfl, rfl, -⟩ | ⟨a, k, b, s, hp, hx, rfl, rfl⟩
    · rw [eventsOf_none]
      exact hrest
    · dsimp only at hrest
      by_cases hj : j = i
      · subst hj
        rw [Function.update_self] at hrest
        rw [eventsOf_self (e := ⟨j, a, b, c.shared, s⟩) rfl, hp]
        exact ⟨rfl, hx, hrest⟩
      · rw [Function.update_of_ne (Ne.symm hj)] at hrest
        rw [eventsOf_other (e := ⟨j, a, b, c.shared, s⟩) hj]
        exact hrest

/-- The access thread `i` is about to make meets the condition. -/
def Ready (Q : A → σ → Prop) (i : ℕ) (c : Config A B E R σ) : Prop :=
  match c.threads i with
  | .step a _ => Q a c.shared
  | .done _ => True
  | .fail _ => True

instance (Q : A → σ → Prop) [∀ a s, Decidable (Q a s)] (i : ℕ) (c : Config A B E R σ) :
    Decidable (Ready Q i c) :=
  match h : c.threads i with
  | .step a _ => decidable_of_iff (Q a c.shared) (by unfold Ready; rw [h])
  | .done _ => .isTrue (by unfold Ready; rw [h]; trivial)
  | .fail _ => .isTrue (by unfold Ready; rw [h]; trivial)

/-- A condition on every access of a run holds of every event. -/
theorem run_events {Q : A → σ → Prop} : ∀ (schedule : List ℕ) (c c' : Config A B E R σ)
    (es : List (Option (Event A B σ))), Trace.Along (turn exec) (Ready Q) schedule c →
    Trace.run (turn exec) schedule c = .ok (es, c') →
    ∀ e, some e ∈ es → Q e.access e.before := by
  intro schedule
  induction schedule with
  | nil =>
    intro c c' es _ h e he
    obtain ⟨rfl, -⟩ := Prod.mk.inj (Except.ok.inj h)
    cases he
  | cons j schedule ih =>
    intro c c' es hal h e he
    obtain ⟨o, c₁, es', h1, h2, rfl⟩ := Trace.run_cons_eq_ok.mp h
    obtain ⟨hready, hal'⟩ := Trace.along_cons.mp hal
    rcases List.mem_cons.mp he with rfl | he
    · rcases turn_cases h1 with ⟨h0, -⟩ | ⟨a, k, b, s, hp, -, ho, -⟩
      · cases h0
      · obtain rfl := Option.some_inj.mp ho
        unfold Ready at hready
        rw [hp] at hready
        exact hready
    · exact ih c₁ c' es' (hal' o c₁ h1) h2 e he

theorem mem_eventsOf {e : Event A B σ} {es : List (Option (Event A B σ))}
    (he : e ∈ eventsOf i es) : some e ∈ es := by
  obtain ⟨o, ho, hf⟩ := List.mem_filterMap.mp he
  rw [Option.filter_eq_some_iff] at hf
  exact hf.1 ▸ ho

end Interleave

/-! ## Two levels of the shared state -/

section Refine

variable {A A' B E R R' σ τ α : Type} {exec : A → σ → Except E (B × σ)} {next : A → τ → B × τ}
  {sim : σ → τ → Prop} {Q : A → τ → Prop} {p : Prog A B E R} {r : R} {t t' : τ}

/-- The program with its accesses and its result under other names. -/
def Prog.map (f : A → A') (g : R → R') : Prog A B E R → Prog A' B E R'
  | .done r => .done (g r)
  | .fail e => .fail e
  | .step a k => .step (f a) fun b => (k b).map f g

/-- The accesses of a system that never fails. -/
abbrev answering (E : Type) (next : A → τ → B × τ) (a : A) (t : τ) : Except E (B × τ) :=
  .ok (next a t)

/-- With no other thread in between every access of the program meets the condition, and it comes
to its end. -/
inductive Gives (next : A → τ → B × τ) (Q : A → τ → Prop) : Prog A B E R → τ → R → τ → Prop
  | done (r : R) (t : τ) : Gives next Q (.done r) t r t
  | step {a : A} {k : B → Prog A B E R} {t t' : τ} {r : R} (ha : Q a t)
      (h : Gives next Q (k (next a t).1) (next a t).2 r t') : Gives next Q (.step a k) t r t'

theorem Gives.lift {m : Except E α} {x : α} {f : α → Prog A B E R} (hm : m = .ok x)
    (h : Gives next Q (f x) t r t') : Gives next Q (.lift m f) t r t' := by
  rw [hm]
  exact h

theorem Gives.map {f : A' → A} {g : R → R'} {p : Prog A' B E R}
    (h : Gives (fun a => next (f a)) (fun a => Q (f a)) p t r t') :
    Gives next Q (p.map f g) t (g r) t' := by
  induction h with
  | done r t => exact .done (g r) t
  | step ha _ ih => exact .step ha ih

/-- If each access simulates its abstract one, so does a program alone. -/
theorem Gives.refines
    (hsim : ∀ a s t, sim s t → Q a t → ∃ s', exec a s = .ok ((next a t).1, s') ∧
      sim s' (next a t).2) (h : Gives next Q p t r t') :
    ∀ s, sim s t → ∃ s', p.alone exec s = .ok (r, s') ∧ sim s' t' := by
  induction h with
  | done r t => exact fun s hs => ⟨s, rfl, hs⟩
  | step ha _ ih =>
    intro s hs
    obtain ⟨s₁, hx, hs₁⟩ := hsim _ s _ hs ha
    obtain ⟨s', hr, hs'⟩ := ih s₁ hs₁
    exact ⟨s', (alone_step hx).trans hr, hs'⟩

/-- **Refinement under any interleaving.**  If each access simulates its abstract one, then threads
over the concrete state take the same turns to the same ends as over the abstract one. -/
theorem turns_refine
    (hsim : ∀ a s t, sim s t → Q a t → ∃ s', exec a s = .ok ((next a t).1, s') ∧
      sim s' (next a t).2) :
    ∀ (schedule : List ℕ) (c : Config A B E R σ) (d d' : Config A B E R τ)
      (es : List (Option (Event A B τ))), c.threads = d.threads → sim c.shared d.shared →
      Trace.Along (turn (answering E next)) (Ready Q) schedule d →
      Trace.run (turn (answering E next)) schedule d = .ok (es, d') →
      ∃ es' c', Trace.run (turn exec) schedule c = .ok (es', c') ∧ c'.threads = d'.threads ∧
        sim c'.shared d'.shared := by
  intro schedule
  induction schedule with
  | nil =>
    intro c d d' es hthreads hs _ h
    obtain ⟨-, rfl⟩ := Prod.mk.inj (Except.ok.inj h)
    exact ⟨[], c, rfl, hthreads, hs⟩
  | cons j schedule ih =>
    intro c d d' es hthreads hs hal h
    obtain ⟨o, d₁, es₁, h1, h2, rfl⟩ := Trace.run_cons_eq_ok.mp h
    obtain ⟨hready, hal'⟩ := Trace.along_cons.mp hal
    suffices hturn : ∃ o' c₁, turn exec j c = .ok (o', c₁) ∧ c₁.threads = d₁.threads ∧
        sim c₁.shared d₁.shared by
      obtain ⟨o', c₁, hc, hthreads₁, hs₁⟩ := hturn
      obtain ⟨es', c', hr, hend⟩ := ih c₁ d₁ d' es₁ hthreads₁ hs₁ (hal' o d₁ h1) h2
      exact ⟨o' :: es', c', Trace.run_cons_eq_ok.mpr ⟨o', c₁, es', hc, hr, rfl⟩, hend⟩
    have hj : c.threads j = d.threads j := congrFun hthreads j
    unfold turn
    rw [hj]
    rcases turn_cases h1 with ⟨-, rfl, r, hp⟩ | ⟨a, k, b, t, hp, hx, -, rfl⟩
    · rw [hp]
      exact ⟨none, c, rfl, hthreads, hs⟩
    · unfold Ready at hready
      rw [hp] at hready ⊢
      obtain ⟨s₁, hexec, hs₁⟩ := hsim a c.shared d.shared hs hready
      obtain ⟨rfl, rfl⟩ := Prod.mk.inj (Except.ok.inj hx)
      dsimp only
      rw [hexec]
      exact ⟨_, _, rfl, congrArg (fun f => Function.update f j _) hthreads, hs₁⟩

end Refine

/-! ## Threads that do not touch what another one reads -/

section Apart

variable {A A' B E R R' τ ρ α : Type} {next : A → τ → B × τ} {Q : A → τ → Prop} {P : A → Prop}

/-- Every access the program can make meets the condition. -/
inductive Prog.Only (P : A → Prop) : Prog A B E R → Prop
  | done (r : R) : Only P (.done r)
  | fail (e : E) : Only P (.fail e)
  | step {a : A} {k : B → Prog A B E R} (ha : P a) (hk : ∀ b, Only P (k b)) : Only P (.step a k)

theorem Prog.Only.mono {P' : A → Prop} {p : Prog A B E R} (h : p.Only P) (hP : ∀ a, P a → P' a) :
    p.Only P' := by
  induction h with
  | done r => exact .done r
  | fail e => exact .fail e
  | step ha _ ih => exact .step (hP _ ha) ih

theorem Prog.only_step {a : A} {k : B → Prog A B E R} :
    (Prog.step a k).Only P ↔ P a ∧ ∀ b, (k b).Only P := by
  constructor
  · rintro ⟨⟩
    exact ⟨by assumption, by assumption⟩
  · exact fun h => .step h.1 h.2

theorem gives_step {a : A} {k : B → Prog A B E R} {t t' : τ} {r : R} :
    Gives next Q (.step a k) t r t' ↔ Q a t ∧ Gives next Q (k (next a t).1) (next a t).2 r t' := by
  constructor
  · rintro ⟨⟩
    exact ⟨by assumption, by assumption⟩
  · exact fun h => .step h.1 h.2

theorem gives_done {r r' : R} {t t' : τ} :
    Gives next Q (.done r : Prog A B E R) t r' t' ↔ r' = r ∧ t' = t := by
  constructor
  · rintro ⟨⟩
    exact ⟨rfl, rfl⟩
  · rintro ⟨rfl, rfl⟩
    exact .done _ _

theorem Prog.Only.lift {m : Except E α} {f : α → Prog A B E R} (h : ∀ x, (f x).Only P) :
    (Prog.lift m f).Only P := by
  cases m with
  | error e => exact .fail e
  | ok x => exact h x

theorem Prog.Only.map {f : A' → A} (g : R → R') {p : Prog A' B E R}
    (h : p.Only fun a => P (f a)) : (p.map f g).Only P := by
  induction h with
  | done r => exact .done (g r)
  | fail e => exact .fail e
  | step ha _ ih => exact .step ha ih

/-- The parts of the shared state that accesses read and write.  States can be alike in a part; what
an access answers and leaves depends on the parts that it reads. -/
structure Footprints (next : A → τ → B × τ) (ρ : Type) where
  alike : ρ → τ → τ → Prop
  reads : A → Set ρ
  writes : A → Set ρ
  trans : ∀ x t u v, alike x t u → alike x u v → alike x t v
  answer : ∀ a t u, (∀ x ∈ reads a, alike x t u) → (next a t).1 = (next a u).1
  effect : ∀ a t u, (∀ x ∈ reads a, alike x t u) →
    ∀ x, alike x t u → alike x (next a t).2 (next a u).2
  frame : ∀ a t, ∀ x ∉ writes a, alike x t (next a t).2

/-- **A thread among others that keep apart.**  If no other thread writes a part that thread `i`
reads, then thread `i` comes to the end that it comes to alone, and to states that are alike in
these parts. -/
theorem turns_apart (F : Footprints next ρ) {S : Set ρ} {i : ℕ} {r : R} {t' : τ} :
    ∀ (schedule : List ℕ) (c d : Config A B E R τ) (es : List (Option (Event A B τ))) (t : τ),
      (c.threads i).Only (fun a => F.reads a ⊆ S) →
      (∀ j ≠ i, (c.threads j).Only fun a => ∀ x ∈ S, x ∉ F.writes a) →
      (∀ x ∈ S, F.alike x t c.shared) → Gives next Q (c.threads i) t r t' →
      Trace.run (turn (answering E next)) schedule c = .ok (es, d) →
      ∃ u, Gives next Q (d.threads i) u r t' ∧ ∀ x ∈ S, F.alike x u d.shared := by
  intro schedule
  induction schedule with
  | nil =>
    intro c d es t _ _ hS hg h
    obtain ⟨-, rfl⟩ := Prod.mk.inj (Except.ok.inj h)
    exact ⟨t, hg, hS⟩
  | cons j schedule ih =>
    intro c d es t hmine hyours hS hg h
    obtain ⟨o, c₁, es₁, h1, h2, rfl⟩ := Trace.run_cons_eq_ok.mp h
    rcases turn_cases h1 with ⟨-, rfl, -, -⟩ | ⟨a, k, b, u, hp, hx, -, rfl⟩
    · exact ih c₁ d es₁ t hmine hyours hS hg h2
    obtain ⟨rfl, rfl⟩ := Prod.mk.inj (Except.ok.inj hx)
    by_cases hj : j = i
    · -- the thread itself is answered as it would be alone
      subst hj
      rw [hp] at hmine hg
      obtain ⟨hreads, hk⟩ := Prog.only_step.mp hmine
      obtain ⟨-, hrest⟩ := gives_step.mp hg
      have hagree := fun x hx => hS x (hreads hx)
      have hans := F.answer a t c.shared hagree
      refine ih _ d es₁ (next a t).2 ?_ (fun l hl => ?_)
        (fun x hx => F.effect a t c.shared hagree x (hS x hx)) ?_ h2
      · dsimp only
        rw [Function.update_self]
        exact hk _
      · dsimp only
        rw [Function.update_of_ne hl]
        exact hyours l hl
      · dsimp only
        rw [Function.update_self, ← hans]
        exact hrest
    · -- another one writes nothing that the thread reads
      have hother := hyours j hj
      rw [hp] at hother
      obtain ⟨hwrites, hk⟩ := Prog.only_step.mp hother
      have hi : i ≠ j := Ne.symm hj
      refine ih _ d es₁ t ?_ (fun l hl => ?_) (fun x hx =>
        F.trans x _ _ _ (hS x hx) (F.frame a c.shared x (hwrites x hx))) ?_ h2
      · dsimp only
        rw [Function.update_of_ne hi]
        exact hmine
      · dsimp only
        by_cases hlj : l = j
        · subst hlj
          rw [Function.update_self]
          exact hk _
        · rw [Function.update_of_ne hlj]
          exact hyours l hl
      · dsimp only
        rw [Function.update_of_ne hi]
        exact hg

end Apart

/-! ## Programs of one access -/

section Serial

variable {A A' B E R R' σ : Type} {exec : A → σ → Except E (B × σ)} {c c' : Config A B E R σ}

/-- The program makes one access at most. -/
inductive Prog.Single : Prog A B E R → Prop
  | done (r : R) : Single (.done r)
  | fail (e : E) : Single (.fail e)
  | step (a : A) {k : B → Prog A B E R} (h : ∀ b, ∃ r, k b = .done r) : Single (.step a k)

theorem Prog.Single.map (f : A' → A) (g : R → R') {p : Prog A' B E R} (h : p.Single) :
    (p.map f g).Single := by
  cases h with
  | done r => exact .done (g r)
  | fail e => exact .fail e
  | step a h =>
    refine .step (f a) fun b => ?_
    obtain ⟨r, hr⟩ := h b
    exact ⟨g r, by rw [hr]; rfl⟩

/-- The threads in the order of their first turns, but for those that had one before. -/
def started : List ℕ → List ℕ → List ℕ
  | _, [] => []
  | before, i :: schedule =>
    if i ∈ before then started before schedule else i :: started (i :: before) schedule

theorem notMem_started : ∀ (schedule before : List ℕ), ∀ i ∈ before,
    i ∉ started before schedule := by
  intro schedule
  induction schedule with
  | nil => exact fun before i _ => List.not_mem_nil
  | cons j schedule ih =>
    intro before i hi
    unfold started
    split
    · exact ih before i hi
    · next hj =>
      rintro (_ | ⟨_, hmem⟩)
      · exact hj hi
      · exact ih (j :: before) i (List.mem_cons_of_mem j hi) hmem

theorem first_turn {j : ℕ} {o : Option (Event A B σ)} (hs : (c.threads j).Single)
    (h : turn exec j c = .ok (o, c')) :
    ∃ r, c'.threads j = .done r ∧ (c.threads j).alone exec c.shared = .ok (r, c'.shared) ∧
      ∀ i, i ≠ j → c'.threads i = c.threads i := by
  rcases turn_cases h with ⟨-, rfl, r, hp⟩ | ⟨a, k, b, s, hp, hx, -, rfl⟩
  · exact ⟨r, hp, by rw [hp]; rfl, fun _ _ => rfl⟩
  · rw [hp] at hs
    obtain ⟨r, hr⟩ : ∃ r, k b = .done r := by
      cases hs with
      | step a h => exact h b
    refine ⟨r, ?_, ?_, fun i hi => Function.update_of_ne hi _ _⟩
    · dsimp only
      rw [Function.update_self, hr]
    · rw [hp, alone_step hx, hr]
      rfl

/-- **Programs of one access are serial.**  Any interleaving of them is the run of the programs one
after the other, in the order of their first turns. -/
theorem turns_serial : ∀ (schedule before : List ℕ) (c c' : Config A B E R σ)
    (es : List (Option (Event A B σ))), (∀ i ∈ before, ∃ r, c.threads i = .done r) →
    (∀ i ∈ schedule, i ∉ before → (c.threads i).Single) →
    Trace.run (turn exec) schedule c = .ok (es, c') →
    ∃ rs, Trace.run (fun i s => (c.threads i).alone exec s) (started before schedule) c.shared =
        .ok (rs, c'.shared) ∧
      List.Forall₂ (fun i r => c'.threads i = .done r) (started before schedule) rs ∧
      ∀ i ∈ before, c'.threads i = c.threads i := by
  intro schedule
  induction schedule with
  | nil =>
    intro before c c' es _ _ h
    obtain ⟨-, rfl⟩ := Prod.mk.inj (Except.ok.inj h)
    exact ⟨[], rfl, .nil, fun _ _ => rfl⟩
  | cons j schedule ih =>
    intro before c c' es hdone hsingle h
    obtain ⟨o, c₁, es₁, h1, h2, rfl⟩ := Trace.run_cons_eq_ok.mp h
    have hrest := fun i hi => hsingle i (List.mem_cons_of_mem j hi)
    unfold started
    by_cases hj : j ∈ before
    · rw [if_pos hj]
      obtain ⟨r, hr⟩ := hdone j hj
      rcases turn_cases h1 with ⟨-, rfl, -⟩ | ⟨a, k, b, s, hp, -⟩
      · exact ih before c₁ c' es₁ hdone hrest h2
      · rw [hr] at hp
        cases hp
    · rw [if_neg hj]
      -- the first turn of a thread is all of its program
      obtain ⟨r, hr, halone, hothers⟩ := first_turn (hsingle j List.mem_cons_self hj) h1
      have hne : ∀ i ∈ before, i ≠ j := fun i hi he => hj (he ▸ hi)
      have hdone₁ : ∀ i ∈ j :: before, ∃ r, c₁.threads i = .done r := by
        intro i hi
        rcases List.mem_cons.mp hi with rfl | hi
        · exact ⟨r, hr⟩
        · rw [hothers i (hne i hi)]
          exact hdone i hi
      have hsingle₁ : ∀ i ∈ schedule, i ∉ j :: before → (c₁.threads i).Single := by
        intro i hi hnot
        rw [List.mem_cons, not_or] at hnot
        obtain ⟨hij, hib⟩ := hnot
        rw [hothers i hij]
        exact hrest i hi hib
      obtain ⟨rs, hrun, hends, hkept⟩ := ih (j :: before) c₁ c' es₁ hdone₁ hsingle₁ h2
      refine ⟨r :: rs, ?_, .cons ((hkept j List.mem_cons_self).trans hr) hends, fun i hi =>
        (hkept i (List.mem_cons_of_mem j hi)).trans (hothers i (hne i hi))⟩
      refine Trace.run_cons_eq_ok.mpr ⟨r, c₁.shared, rs, halone, ?_, rfl⟩
      rw [← hrun]
      refine Trace.run_congr fun i hi s => ?_
      have hij : i ≠ j := fun he =>
        notMem_started schedule (j :: before) j List.mem_cons_self (he ▸ hi)
      rw [hothers i hij]

end Serial

end Interleave
