import Mathlib.Tactic

/-!
# Runs of a fallible transition function

A step takes an input and a state and returns an output and a state, or fails.  `run` iterates it
over a list of inputs.  An invariant of the steps is an invariant of the runs, and a simulation
between the steps of two systems is one between their runs.
-/

namespace Trace

section Trace

variable {α β ε σ τ : Type}

/-- The outputs and the last state of a list of inputs. -/
def run (step : α → σ → Except ε (β × σ)) : List α → σ → Except ε (List β × σ)
  | [], s => .ok ([], s)
  | a :: as, s =>
    match step a s with
    | .error e => .error e
    | .ok (b, s') =>
      match run step as s' with
      | .error e => .error e
      | .ok (bs, s'') => .ok (b :: bs, s'')

/-- Every input meets the condition in the state it is applied to. -/
def Along (step : α → σ → Except ε (β × σ)) (P : α → σ → Prop) : List α → σ → Prop
  | [], _ => True
  | a :: as, s => P a s ∧
    match step a s with
    | .ok (_, s') => Along step P as s'
    | .error _ => True

variable {step : α → σ → Except ε (β × σ)} {P : α → σ → Prop}

instance decidableAlong [∀ a s, Decidable (P a s)] : ∀ as s, Decidable (Along step P as s)
  | [], _ => .isTrue trivial
  | a :: as, s =>
    have : Decidable (match step a s with
        | .ok (_, s') => Along step P as s'
        | .error _ => True) :=
      match step a s with
      | .ok (_, s') => decidableAlong as s'
      | .error _ => .isTrue trivial
    inferInstanceAs (Decidable (P a s ∧ _))

theorem along_cons {a : α} {as : List α} {s : σ} :
    Along step P (a :: as) s ↔
      P a s ∧ ∀ b s', step a s = .ok (b, s') → Along step P as s' := by
  cases h : step a s with
  | error e => simp [Along, h]
  | ok x =>
    obtain ⟨b, s'⟩ := x
    simp only [Along, h]
    exact and_congr_right fun _ => ⟨fun hp c t he => by cases he; exact hp, fun hp => hp b s' rfl⟩

theorem run_cons_eq_ok {a : α} {as : List α} {s s'' : σ} {bs : List β} :
    run step (a :: as) s = .ok (bs, s'') ↔
      ∃ b s' bs', step a s = .ok (b, s') ∧ run step as s' = .ok (bs', s'') ∧ bs = b :: bs' := by
  constructor
  · intro h
    unfold run at h
    split at h
    · cases h
    · rename_i b s' hb
      split at h
      · cases h
      · rename_i bs' s₂ hbs
        obtain ⟨rfl, rfl⟩ := Prod.mk.inj (Except.ok.inj h)
        exact ⟨b, s', bs', hb, hbs, rfl⟩
  · rintro ⟨b, s', bs', hb, hbs, rfl⟩
    simp only [run, hb, hbs]

theorem run_append {as as' : List α} {bs bs' : List β} : ∀ {s s' s'' : σ},
    run step as s = .ok (bs, s') → run step as' s' = .ok (bs', s'') →
    run step (as ++ as') s = .ok (bs ++ bs', s'') := by
  induction as generalizing bs with
  | nil =>
    intro s s' s'' h h'
    obtain ⟨rfl, rfl⟩ := Prod.mk.inj (Except.ok.inj h)
    exact h'
  | cons a as ih =>
    intro s s' s'' h h'
    obtain ⟨b, s₁, bs₁, h1, h2, rfl⟩ := run_cons_eq_ok.mp h
    exact run_cons_eq_ok.mpr ⟨b, s₁, bs₁ ++ bs', h1, ih h2 h', rfl⟩

theorem run_congr {step' : α → σ → Except ε (β × σ)} : ∀ {as : List α} {s : σ},
    (∀ a ∈ as, ∀ s, step a s = step' a s) → run step as s = run step' as s := by
  intro as
  induction as with
  | nil => exact fun _ => rfl
  | cons a as ih =>
    intro s h
    have hrest := fun s => @ih s fun b hb => h b (List.mem_cons_of_mem a hb)
    simp only [run, h a List.mem_cons_self, hrest]

theorem run_map {γ : Type} (f : γ → α) : ∀ {cs : List γ} {s : σ},
    run step (cs.map f) s = run (fun c => step (f c)) cs s := by
  intro cs
  induction cs with
  | nil => exact rfl
  | cons c cs ih =>
    intro s
    simp only [List.map_cons, run, ih]

/-- What every step under the condition preserves holds at the end of a run. -/
theorem run_induct {I : σ → Prop}
    (hstep : ∀ a s b s', I s → P a s → step a s = .ok (b, s') → I s') :
    ∀ (as : List α) (s s' : σ) (bs : List β), I s → Along step P as s →
      run step as s = .ok (bs, s') → I s' := by
  intro as
  induction as with
  | nil =>
    intro s s' bs hI _ hr
    obtain ⟨-, rfl⟩ := Prod.mk.inj (Except.ok.inj hr)
    exact hI
  | cons a as ih =>
    intro s s' bs hI hP hr
    obtain ⟨b, s₁, bs', hb, hr', rfl⟩ := run_cons_eq_ok.mp hr
    obtain ⟨hPa, hPas⟩ := along_cons.mp hP
    exact ih s₁ s' bs' (hstep a s b s₁ hI hPa hb) (hPas b s₁ hb) hr'

/-- What every step under the condition keeps of the outputs so far and the state holds at the end
of a run, and the run completes. -/
theorem run_history {I : List β → σ → Prop}
    (hstep : ∀ a bs s, I bs s → P a s → ∃ b s', step a s = .ok (b, s') ∧ I (bs ++ [b]) s') :
    ∀ (as : List α) (bs : List β) (s : σ), I bs s → Along step P as s →
      ∃ cs s', run step as s = .ok (cs, s') ∧ I (bs ++ cs) s' := by
  intro as
  induction as with
  | nil =>
    intro bs s hI _
    exact ⟨[], s, rfl, by rwa [List.append_nil]⟩
  | cons a as ih =>
    intro bs s hI hP
    obtain ⟨hPa, hPas⟩ := along_cons.mp hP
    obtain ⟨b, s₁, hb, hI₁⟩ := hstep a bs s hI hPa
    obtain ⟨cs, s', hr, hI'⟩ := ih (bs ++ [b]) s₁ hI₁ (hPas b s₁ hb)
    refine ⟨b :: cs, s', run_cons_eq_ok.mpr ⟨b, s₁, cs, hb, hr, rfl⟩, ?_⟩
    rwa [List.append_assoc] at hI'

/-- A condition on the inputs alone holds along every run of inputs that meet it. -/
theorem along_of_forall {Q : α → Prop} (hQ : ∀ a s, Q a → P a s) :
    ∀ (as : List α) (s : σ), (∀ a ∈ as, Q a) → Along step P as s := by
  intro as
  induction as with
  | nil => intro s _; trivial
  | cons a as ih =>
    intro s h
    exact along_cons.mpr ⟨hQ a s (h a List.mem_cons_self),
      fun b s' _ => ih s' fun x hx => h x (List.mem_cons_of_mem _ hx)⟩

theorem Along.mono {Q : α → σ → Prop} (h : ∀ a s, P a s → Q a s) : ∀ {as : List α} {s : σ},
    Along step P as s → Along step Q as s := by
  intro as
  induction as with
  | nil => intro s _; trivial
  | cons a as ih =>
    intro s hP
    obtain ⟨hPa, hPas⟩ := along_cons.mp hP
    exact along_cons.mpr ⟨h a s hPa, fun b s' hb => ih (hPas b s' hb)⟩

theorem Along.and {Q : α → σ → Prop} : ∀ {as : List α} {s : σ}, Along step P as s →
    Along step Q as s → Along step (fun a s => P a s ∧ Q a s) as s := by
  intro as
  induction as with
  | nil => intro s _ _; trivial
  | cons a as ih =>
    intro s hP hQ
    obtain ⟨hPa, hPas⟩ := along_cons.mp hP
    obtain ⟨hQa, hQas⟩ := along_cons.mp hQ
    exact along_cons.mpr ⟨⟨hPa, hQa⟩, fun b s' hb => ih (hPas b s' hb) (hQas b s' hb)⟩

/-- If related states answer alike and stay related, runs answer alike. -/
theorem run_simulates {next : α → τ → β × τ} {R : σ → τ → Prop}
    (hsim : ∀ a s t, R s t → P a s →
      ∃ s', step a s = .ok ((next a t).1, s') ∧ R s' (next a t).2) :
    ∀ (as : List α) (s : σ) (t : τ), R s t → Along step P as s →
      ∃ bs s' t', run step as s = .ok (bs, s') ∧
        run (fun a t => (.ok (next a t) : Except ε (β × τ))) as t = .ok (bs, t') ∧ R s' t' := by
  intro as
  induction as with
  | nil => intro s t hR _; exact ⟨[], s, t, rfl, rfl, hR⟩
  | cons a as ih =>
    intro s t hR hP
    obtain ⟨hPa, hPas⟩ := along_cons.mp hP
    obtain ⟨s₁, hb, hR₁⟩ := hsim a s t hR hPa
    obtain ⟨bs, s', t', h1, h2, hR'⟩ := ih s₁ _ hR₁ (hPas _ s₁ hb)
    exact ⟨_, s', t', run_cons_eq_ok.mpr ⟨_, s₁, bs, hb, h1, rfl⟩,
      run_cons_eq_ok.mpr ⟨_, _, bs, rfl, h2, rfl⟩, hR'⟩

/-- If related states answer alike and stay related as long as the inputs meet a condition on the
abstract side, runs answer alike. -/
theorem run_follows {next : α → τ → β × τ} {R : σ → τ → Prop} {Q : α → τ → Prop}
    (hsim : ∀ a s t, R s t → Q a t →
      ∃ s', step a s = .ok ((next a t).1, s') ∧ R s' (next a t).2) :
    ∀ (as : List α) (s : σ) (t : τ), R s t →
      Along (fun a t => (.ok (next a t) : Except ε (β × τ))) Q as t →
      ∃ bs s' t', run step as s = .ok (bs, s') ∧
        run (fun a t => (.ok (next a t) : Except ε (β × τ))) as t = .ok (bs, t') ∧ R s' t' := by
  intro as
  induction as with
  | nil => intro s t hR _; exact ⟨[], s, t, rfl, rfl, hR⟩
  | cons a as ih =>
    intro s t hR hQ
    obtain ⟨hQa, hQas⟩ := along_cons.mp hQ
    obtain ⟨s₁, hb, hR₁⟩ := hsim a s t hR hQa
    obtain ⟨bs, s', t', h1, h2, hR'⟩ := ih s₁ _ hR₁ (hQas _ _ rfl)
    exact ⟨_, s', t', run_cons_eq_ok.mpr ⟨_, s₁, bs, hb, h1, rfl⟩,
      run_cons_eq_ok.mpr ⟨_, _, bs, rfl, h2, rfl⟩, hR'⟩

end Trace

/-! ## Histories -/

section History

variable {β : Type} {P Q : β → Prop}

/-- An event of `P` happened, and none of `Q` has happened since. -/
def Since (P Q : β → Prop) (es : List β) : Prop :=
  ∃ before e after, es = before ++ e :: after ∧ P e ∧ ∀ x ∈ after, ¬ Q x

theorem not_since_nil : ¬ Since P Q [] := by
  rintro ⟨before, e, after, he, -, -⟩
  simp at he

theorem since_snoc {es : List β} {e : β} : Since P Q (es ++ [e]) ↔ P e ∨ Since P Q es ∧ ¬ Q e := by
  constructor
  · rintro ⟨before, x, after, he, hx, hafter⟩
    rcases List.eq_nil_or_concat after with rfl | ⟨init, y, rfl⟩
    · obtain ⟨-, hxe⟩ := List.append_inj' he rfl
      obtain rfl : e = x := by simpa using hxe
      exact Or.inl hx
    · have he' : es ++ [e] = (before ++ x :: init) ++ [y] := by simpa using he
      obtain ⟨rfl, hye⟩ := List.append_inj' he' rfl
      obtain rfl : e = y := by simpa using hye
      exact Or.inr ⟨⟨before, x, init, rfl, hx, fun z hz => hafter z (by simp [hz])⟩,
        hafter e (by simp)⟩
  · rintro (he | ⟨⟨before, x, after, rfl, hx, hafter⟩, hQ⟩)
    · exact ⟨es, e, [], rfl, he, by simp⟩
    · refine ⟨before, x, after ++ [e], by simp, hx, fun z hz => ?_⟩
      rcases List.mem_append.mp hz with hz | hz
      · exact hafter z hz
      · obtain rfl := List.mem_singleton.mp hz
        exact hQ

end History

end Trace
