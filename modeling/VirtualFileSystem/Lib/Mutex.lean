import VirtualFileSystem.Lib.Interleave

/-!
# Calls under one lock

The body of a call makes many accesses to the shared state.  Every call takes the lock before its
body and gives it back behind it.  Whatever the interleaving of the accesses, it is one of whole
calls, in the order in which they took the lock.
-/

namespace Interleave

/-- A program that also takes a lock and gives it back. -/
inductive Locking (A B E R : Type)
  | done (r : R)
  | fail (e : E)
  | step (a : A) (k : B → Locking A B E R)
  | lock (p : Locking A B E R)
  | unlock (p : Locking A B E R)

/-- The shared state, whether the lock is taken, and what is left of each thread. -/
structure Machine (A B E R σ : Type) where
  shared : σ
  locked : Bool
  threads : ℕ → Locking A B E R

section Mutex

variable {A B E O S R σ : Type}

/-- A body, and what follows its result. -/
def Prog.into : Prog A B E S → (S → Locking A B E R) → Locking A B E R
  | .done r, k => k r
  | .fail e, _ => .fail e
  | .step a p, k => .step a fun b => (p b).into k

/-- A program of calls, where each call takes the lock, runs its body and gives the lock back. -/
def Prog.guarded (body : O → Prog A B E S) : Prog O S E R → Locking A B E R
  | .done r => .done r
  | .fail e => .fail e
  | .step o k => .lock ((body o).into fun r => .unlock ((k r).guarded body))

/-- Thread `i` makes its next move, and stays where it is as long as it waits for the lock.  The
output tells who took the lock. -/
def move (exec : A → σ → Except E (B × σ)) (i : ℕ) (m : Machine A B E R σ) :
    Except E (Option ℕ × Machine A B E R σ) :=
  match m.threads i with
  | .done _ => .ok (none, m)
  | .fail e => .error e
  | .lock p =>
    if m.locked then .ok (none, m)
    else .ok (some i, ⟨m.shared, true, Function.update m.threads i p⟩)
  | .unlock p => .ok (none, ⟨m.shared, false, Function.update m.threads i p⟩)
  | .step a k =>
    match exec a m.shared with
    | .error e => .error e
    | .ok (b, s) => .ok (none, ⟨s, m.locked, Function.update m.threads i (k b)⟩)

/-- What a call does if nothing comes between its accesses. -/
abbrev atomic (exec : A → σ → Except E (B × σ)) (body : O → Prog A B E S) (o : O) (s : σ) :
    Except E (S × σ) :=
  (body o).alone exec s

/-- The machine as threads that make whole calls.  A call that has the lock is done already, as the
rest of its body will leave it. -/
inductive Whole (exec : A → σ → Except E (B × σ)) (body : O → Prog A B E S) :
    Machine A B E R σ → Config O S E R σ → Prop
  | free (s : σ) (ps : ℕ → Prog O S E R) :
    Whole exec body ⟨s, false, fun i => (ps i).guarded body⟩ ⟨s, ps⟩
  | held {s s' : σ} {b : Prog A B E S} {r : S} (ps : ℕ → Prog O S E R) (h : ℕ)
      (k : S → Prog O S E R) (hb : b.alone exec s = .ok (r, s')) :
    Whole exec body
      ⟨s, true, Function.update (fun i => (ps i).guarded body) h
        (b.into fun r => .unlock ((k r).guarded body))⟩
      ⟨s', Function.update ps h (k r)⟩

variable {exec : A → σ → Except E (B × σ)} {body : O → Prog A B E S} {m m' : Machine A B E R σ}
  {c c' : Config O S E R σ} {i : ℕ} {s s' : σ}

/-! ## Moves -/

theorem guarded_update (ps : ℕ → Prog O S E R) (h : ℕ) (p : Prog O S E R) :
    Function.update (fun i => (ps i).guarded body) h (p.guarded body) =
      fun i => (Function.update ps h p i).guarded body :=
  funext fun i => (Function.apply_update (fun _ p => Prog.guarded body p) ps h p i).symm

/-- A body does not finish its thread. -/
theorem into_ne_done {b : Prog A B E S} {p : S → Locking A B E R} {r : R} :
    b.into (fun r => .unlock (p r)) ≠ .done r := by
  cases b with
  | done r' => exact fun h => by cases h
  | fail e => exact fun h => by cases h
  | step a k => exact fun h => by cases h

theorem guarded_done {p : Prog O S E R} {r : R} : p.guarded body = .done r ↔ p = .done r := by
  cases p with
  | done r' => simp [Prog.guarded]
  | fail e => simp [Prog.guarded]
  | step o k => simp [Prog.guarded]

/-- With the lock free, a move is nothing, a failure, or the start of a call. -/
theorem move_free (s : σ) (ps : ℕ → Prog O S E R) (i : ℕ) :
    (∃ e, turn (atomic exec body) i ⟨s, ps⟩ = .error e) ∨
    (∃ m', move exec i ⟨s, false, fun i => (ps i).guarded body⟩ = .ok (none, m') ∧
      Whole exec body m' ⟨s, ps⟩) ∨
    ∃ m' o c', move exec i ⟨s, false, fun i => (ps i).guarded body⟩ = .ok (some i, m') ∧
      turn (atomic exec body) i ⟨s, ps⟩ = .ok (o, c') ∧ Whole exec body m' c' := by
  unfold move turn
  cases hp : ps i with
  | done r =>
    simp only [hp, Prog.guarded]
    exact Or.inr (Or.inl ⟨_, rfl, .free s ps⟩)
  | fail e =>
    simp only [hp]
    exact Or.inl ⟨e, rfl⟩
  | step o k =>
    simp only [hp, Prog.guarded]
    cases hb : atomic exec body o s with
    | error e => exact Or.inl ⟨e, rfl⟩
    | ok x => exact Or.inr (Or.inr ⟨_, _, _, rfl, rfl, .held ps i k hb⟩)

/-- The thread that has the lock goes on with its body or gives the lock back. -/
theorem move_holder {b : Prog A B E S} {r : S} (ps : ℕ → Prog O S E R) (h : ℕ)
    (k : S → Prog O S E R) (hb : b.alone exec s = .ok (r, s')) :
    (b = .done r ∧ s' = s ∧
      move exec h ⟨s, true, Function.update (fun i => (ps i).guarded body) h
          (b.into fun r => .unlock ((k r).guarded body))⟩ =
        .ok (none, ⟨s, false, fun i => (Function.update ps h (k r) i).guarded body⟩)) ∨
    ∃ a p b' s₁, b = .step a p ∧ (p b').alone exec s₁ = .ok (r, s') ∧
      move exec h ⟨s, true, Function.update (fun i => (ps i).guarded body) h
          (b.into fun r => .unlock ((k r).guarded body))⟩ =
        .ok (none, ⟨s₁, true, Function.update (fun i => (ps i).guarded body) h
          ((p b').into fun r => .unlock ((k r).guarded body))⟩) := by
  unfold move
  dsimp only
  rw [Function.update_self]
  cases b with
  | done r' =>
    obtain ⟨rfl, rfl⟩ := Prod.mk.inj (Except.ok.inj hb)
    refine Or.inl ⟨rfl, rfl, ?_⟩
    simp only [Prog.into, Function.update_idem, guarded_update]
  | fail e => cases hb
  | step a p =>
    obtain ⟨b', s₁, hx, hrest⟩ := alone_step_eq_ok.mp hb
    refine Or.inr ⟨a, p, b', s₁, rfl, hrest, ?_⟩
    simp only [Prog.into, hx, Function.update_idem]

/-- Another thread waits, unless it has failed. -/
theorem move_waits {s s' : σ} (ps : ℕ → Prog O S E R) {h i : ℕ} (hi : i ≠ h) (p : Locking A B E R)
    (q : Prog O S E R) :
    (∃ e, turn (atomic exec body) i ⟨s', Function.update ps h q⟩ = .error e) ∨
    move exec i ⟨s, true, Function.update (fun i => (ps i).guarded body) h p⟩ =
      .ok (none, ⟨s, true, Function.update (fun i => (ps i).guarded body) h p⟩) := by
  unfold move turn
  dsimp only
  rw [Function.update_of_ne hi, Function.update_of_ne hi]
  cases hp : ps i with
  | done r => exact Or.inr rfl
  | fail e => exact Or.inl ⟨e, rfl⟩
  | step o k => exact Or.inr rfl

/-- **A move.**  It is nothing to the whole calls, or a thread takes the lock and makes one. -/
theorem Whole.move_cases (hw : Whole exec body m c) (i : ℕ) :
    (∃ e, turn (atomic exec body) i c = .error e) ∨
    (∃ m', move exec i m = .ok (none, m') ∧ Whole exec body m' c) ∨
    ∃ m' o c', move exec i m = .ok (some i, m') ∧
      turn (atomic exec body) i c = .ok (o, c') ∧ Whole exec body m' c' := by
  cases hw with
  | free s ps => exact move_free s ps i
  | @held s s' b r ps h k hb =>
    by_cases hi : i = h
    · subst hi
      refine Or.inr (Or.inl ?_)
      rcases move_holder ps i k hb with ⟨rfl, rfl, hm⟩ | ⟨a, p, b', s₁, rfl, hrest, hm⟩
      · exact ⟨_, hm, .free s' (Function.update ps i (k r))⟩
      · exact ⟨_, hm, .held ps i k hrest⟩
    · rcases move_waits ps hi _ (k r) with he | hm
      · exact Or.inl he
      · exact Or.inr (Or.inl ⟨_, hm, .held ps h k hb⟩)

/-- **Atomicity.**  If no order of whole calls fails, then no interleaving of their accesses does,
and it comes to what the calls come to in the order in which they took the lock. -/
theorem Whole.moves : ∀ (moves : List ℕ) {m : Machine A B E R σ} {c : Config O S E R σ},
    Whole exec body m c →
    (∀ order, order.Sublist moves →
      ∃ x, Trace.run (turn (atomic exec body)) order c = .ok x) →
    ∃ taken m' es c', Trace.run (move exec) moves m = .ok (taken, m') ∧
      taken.reduceOption.Sublist moves ∧
      Trace.run (turn (atomic exec body)) taken.reduceOption c = .ok (es, c') ∧
      Whole exec body m' c' := by
  intro moves
  induction moves with
  | nil => exact fun hw _ => ⟨[], _, [], _, rfl, .slnil, rfl, hw⟩
  | cons i moves ih =>
    intro m c hw hok
    rcases hw.move_cases i with ⟨e, he⟩ | ⟨m₁, hm, hw₁⟩ | ⟨m₁, o, c₁, hm, hc, hw₁⟩
    · obtain ⟨x, hx⟩ := hok [i] (List.singleton_sublist.mpr List.mem_cons_self)
      unfold Trace.run at hx
      rw [he] at hx
      cases hx
    · obtain ⟨taken, m', es, c', hr, hsub, hcalls, hw'⟩ :=
        ih hw₁ fun order h => hok order (h.cons i)
      exact ⟨none :: taken, m', es, c', Trace.run_cons_eq_ok.mpr ⟨_, _, _, hm, hr, rfl⟩,
        hsub.cons i, hcalls, hw'⟩
    · obtain ⟨taken, m', es, c', hr, hsub, hcalls, hw'⟩ := ih hw₁ fun order h => by
        obtain ⟨⟨es, d⟩, hx⟩ := hok (i :: order) (h.cons_cons i)
        obtain ⟨o', c₂, es', hc', hrest, -⟩ := Trace.run_cons_eq_ok.mp hx
        obtain ⟨-, rfl⟩ := Prod.mk.inj (Except.ok.inj (hc.symm.trans hc'))
        exact ⟨_, hrest⟩
      exact ⟨some i :: taken, m', o :: es, c', Trace.run_cons_eq_ok.mpr ⟨_, _, _, hm, hr, rfl⟩,
        hsub.cons_cons i, Trace.run_cons_eq_ok.mpr ⟨o, c₁, es, hc, hcalls, rfl⟩, hw'⟩

/-- A thread that has finished has made all its calls. -/
theorem Whole.done (hw : Whole exec body m c) {r : R} (h : m.threads i = .done r) :
    c.threads i = .done r := by
  cases hw with
  | free s ps => exact guarded_done.mp h
  | @held s s' b r' ps j k hb =>
    dsimp only at h ⊢
    by_cases hi : i = j
    · subst hi
      rw [Function.update_self] at h
      exact absurd h into_ne_done
    · rw [Function.update_of_ne hi] at h ⊢
      exact guarded_done.mp h

/-- **No deadlock.**  Some thread, if it goes on alone, gives the lock back. -/
theorem Whole.released (hw : Whole exec body m c) :
    ∃ h n os, Trace.run (move exec) (List.replicate n h) m =
        .ok (os, ⟨c.shared, false, fun i => (c.threads i).guarded body⟩) ∧
      (m.locked = false → n = 0) := by
  cases hw with
  | free s ps => exact ⟨0, 0, [], rfl, fun _ => rfl⟩
  | @held s s' b r ps h k hb =>
    suffices hrun : ∃ n os, Trace.run (move exec) (List.replicate n h)
        ⟨s, true, Function.update (fun i => (ps i).guarded body) h
          (b.into fun r => .unlock ((k r).guarded body))⟩ =
        .ok (os, ⟨s', false, fun i => (Function.update ps h (k r) i).guarded body⟩) by
      obtain ⟨n, os, hr⟩ := hrun
      exact ⟨h, n, os, hr, fun hl => by cases hl⟩
    -- by induction on the rest of the body
    induction b generalizing s with
    | done r' =>
      rcases move_holder ps h k hb with ⟨-, rfl, hm⟩ | ⟨a, p, b', s₁, hs, -⟩
      · exact ⟨1, [none], Trace.run_cons_eq_ok.mpr ⟨_, _, [], hm, rfl, rfl⟩⟩
      · cases hs
    | fail e => cases hb
    | step a p ih =>
      rcases move_holder ps h k hb with ⟨hd, -⟩ | ⟨a', p', b', s₁, hs, hrest, hm⟩
      · cases hd
      · obtain ⟨rfl, rfl⟩ := Prog.step.inj hs
        obtain ⟨n, os, hr⟩ := ih b' hrest
        exact ⟨n + 1, none :: os, Trace.run_cons_eq_ok.mpr ⟨_, _, os, hm, hr, rfl⟩⟩

end Mutex

/-! ## Calls of an abstract system -/

section Refine

variable {A B E O S R σ τ : Type} {exec : A → σ → Except E (B × σ)} {body : O → Prog A B E S}
  {next : O → τ → S × τ} {sim : σ → τ → Prop} {Q : O → τ → Prop}

/-- Thread `i` has not failed, and the access it is about to make meets the condition. -/
def Going (Q : O → τ → Prop) (i : ℕ) (c : Config O S E R τ) : Prop :=
  match c.threads i with
  | .step o _ => Q o c.shared
  | .done _ => True
  | .fail _ => False

instance (Q : O → τ → Prop) [∀ o t, Decidable (Q o t)] (i : ℕ) (c : Config O S E R τ) :
    Decidable (Going Q i c) :=
  match h : c.threads i with
  | .step o _ => decidable_of_iff (Q o c.shared) (by unfold Going; rw [h])
  | .done _ => .isTrue (by unfold Going; rw [h]; trivial)
  | .fail _ => .isFalse (by unfold Going; rw [h]; exact id)

theorem Going.ready {i : ℕ} {c : Config O S E R τ} (h : Going Q i c) : Ready Q i c := by
  unfold Going at h
  unfold Ready
  cases hp : c.threads i with
  | done r => trivial
  | fail e => trivial
  | step o k =>
    rw [hp] at h
    exact h

/-- Threads over the abstract system do not fail by themselves. -/
theorem Going.turn {i : ℕ} {c : Config O S E R τ} (h : Going Q i c) :
    ∃ x, turn (answering E next) i c = .ok x := by
  unfold Going at h
  unfold Interleave.turn
  cases hp : c.threads i with
  | done r => exact ⟨_, rfl⟩
  | fail e =>
    rw [hp] at h
    exact absurd h id
  | step o k => exact ⟨_, rfl⟩

theorem going_run {order : List ℕ} {c : Config O S E R τ}
    (h : Trace.Along (turn (answering E next)) (Going Q) order c) :
    ∃ es d, Trace.run (turn (answering E next)) order c = .ok (es, d) := by
  obtain ⟨es, d, hr, -⟩ := Trace.run_history (I := fun _ _ => True)
    (fun i _ c _ hg => by
      obtain ⟨⟨o, c'⟩, hx⟩ := Going.turn hg
      exact ⟨o, c', hx, trivial⟩) order [] c trivial h
  exact ⟨es, d, hr⟩

/-- **Refinement under a lock.**  If the calls, each taken alone, simulate an abstract system as
long as a condition holds, and the threads keep the condition in every order of their calls, then
no interleaving of the accesses fails, and the threads come as far as over the abstract system in
the order in which they took the lock. -/
theorem moves_refine
    (hsim : ∀ o s t, sim s t → Q o t → ∃ s', atomic exec body o s = .ok ((next o t).1, s') ∧
      sim s' (next o t).2) {moves : List ℕ} {s : σ} {t : τ} {ps : ℕ → Prog O S E R}
    (hs : sim s t) (hkeep : ∀ order, order.Sublist moves →
      Trace.Along (turn (answering E next)) (Going Q) order ⟨t, ps⟩) :
    ∃ taken m es d, Trace.run (move exec) moves ⟨s, false, fun i => (ps i).guarded body⟩ =
        .ok (taken, m) ∧ taken.reduceOption.Sublist moves ∧
      Trace.run (turn (answering E next)) taken.reduceOption ⟨t, ps⟩ = .ok (es, d) ∧
      ∃ s', Whole exec body m ⟨s', d.threads⟩ ∧ sim s' d.shared := by
  have hcalls : ∀ order, order.Sublist moves →
      ∃ es d es' c', Trace.run (turn (answering E next)) order ⟨t, ps⟩ = .ok (es, d) ∧
        Trace.run (turn (atomic exec body)) order ⟨s, ps⟩ = .ok (es', c') ∧
        c'.threads = d.threads ∧ sim c'.shared d.shared := by
    intro order ho
    obtain ⟨es, d, hr⟩ := going_run (hkeep order ho)
    have hready := Trace.Along.mono (fun i c => Going.ready) (hkeep order ho)
    obtain ⟨es', c', hc, hthreads, hsim'⟩ :=
      turns_refine hsim order ⟨s, ps⟩ ⟨t, ps⟩ d es rfl hs hready hr
    exact ⟨es, d, es', c', hr, hc, hthreads, hsim'⟩
  obtain ⟨taken, m, es, c, hr, hsub, hc, hw⟩ := (Whole.free s ps).moves moves fun order ho => by
    obtain ⟨-, -, es', c', -, hc, -⟩ := hcalls order ho
    exact ⟨_, hc⟩
  obtain ⟨es', d, es₁, c₁, hd, hc₁, hthreads, hs'⟩ := hcalls _ hsub
  obtain ⟨-, rfl⟩ := Prod.mk.inj (Except.ok.inj (hc.symm.trans hc₁))
  refine ⟨taken, m, es', d, hr, hsub, hd, c.shared, ?_, hs'⟩
  rw [← hthreads]
  exact hw

end Refine

end Interleave
