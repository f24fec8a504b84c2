import Mathlib.Data.Option.Basic

/-! Runs of a machine along a list of events: properties of every state and of every step, and
the simulation rule for two runs of the same machine. -/

namespace OsProject

variable {σ ε ω : Type*}

section Invariants

variable (step : σ → ε → σ)

/-- `P` holds in every state of the run. -/
def Always (P : σ → Prop) : σ → List ε → Prop
  | s, [] => P s
  | s, e :: es => P s ∧ Always P (step s e) es

/-- Every step of the run meets `C`. -/
def Meets (C : σ → ε → Prop) : σ → List ε → Prop
  | _, [] => True
  | s, e :: es => C s e ∧ Meets C (step s e) es

/-- `P` holds in every state of the run up to the first step that meets `D`. -/
def Until (P : σ → Prop) (D : σ → ε → Prop) : σ → List ε → Prop
  | s, [] => P s
  | s, e :: es => P s ∧ (D s e ∨ Until P D (step s e) es)

instance (C : σ → ε → Prop) [∀ s e, Decidable (C s e)] :
    ∀ (s : σ) (es : List ε), Decidable (Meets step C s es)
  | _, [] => inferInstanceAs (Decidable True)
  | s, e :: es =>
    have := instDecidableMeets C (step s e) es
    inferInstanceAs (Decidable (C s e ∧ Meets step C (step s e) es))

variable {step}

theorem meets_congr {C D : σ → ε → Prop} (h : ∀ s e, C s e ↔ D s e) (s : σ) (es : List ε) :
    Meets step C s es ↔ Meets step D s es := by
  induction es generalizing s with
  | nil => rfl
  | cons e es ih => exact and_congr (h s e) (ih _)

theorem Meets.imp {C D : σ → ε → Prop} (h : ∀ s e, C s e → D s e) {s : σ} {es : List ε}
    (hC : Meets step C s es) : Meets step D s es := by
  induction es generalizing s with
  | nil => trivial
  | cons e es ih => exact ⟨h s e hC.1, ih hC.2⟩

theorem meets_append {C : σ → ε → Prop} {s : σ} {es es' : List ε} :
    Meets step C s (es ++ es') ↔ Meets step C s es ∧ Meets step C (es.foldl step s) es' := by
  induction es generalizing s with
  | nil => exact (and_iff_right trivial).symm
  | cons e es ih =>
    rw [List.cons_append, List.foldl_cons, Meets, Meets, ih, and_assoc]

theorem Always.last {P : σ → Prop} {s : σ} {es : List ε} (h : Always step P s es) :
    P (es.foldl step s) := by
  induction es generalizing s with
  | nil => exact h
  | cons e es ih => exact ih h.2

theorem always_of_meets {I P : σ → Prop} {A : σ → ε → Prop}
    (hstep : ∀ s e, I s → A s e → I (step s e)) (hP : ∀ s, I s → P s) {s : σ} (hs : I s)
    {es : List ε} (hA : Meets step A s es) : Always step P s es := by
  induction es generalizing s with
  | nil => exact hP s hs
  | cons e es ih => exact ⟨hP s hs, ih (hstep s e hs hA.1) hA.2⟩

theorem meets_of_mem {C : σ → ε → Prop} {es : List ε} (h : ∀ e ∈ es, ∀ s, C s e) (s : σ) :
    Meets step C s es := by
  induction es generalizing s with
  | nil => trivial
  | cons e es ih =>
    exact ⟨h e List.mem_cons_self s, ih (fun e he => h e (List.mem_cons_of_mem _ he)) _⟩

theorem meets_true (s : σ) (es : List ε) : Meets step (fun _ _ => True) s es :=
  meets_of_mem (fun _ _ _ => trivial) s

theorem always_of_inv {I P : σ → Prop} (hstep : ∀ s e, I s → I (step s e)) (hP : ∀ s, I s → P s)
    {s : σ} (hs : I s) (es : List ε) : Always step P s es :=
  always_of_meets (fun s e hi _ => hstep s e hi) hP hs (meets_true s es)

theorem until_of_step {P Q : σ → Prop} {D : σ → ε → Prop}
    (hstep : ∀ s e, Q s → ¬ D s e → Q (step s e)) (hP : ∀ s, Q s → P s) {s : σ} (hs : Q s)
    (es : List ε) : Until step P D s es := by
  induction es generalizing s with
  | nil => exact hP s hs
  | cons e es ih =>
    refine ⟨hP s hs, ?_⟩
    by_cases hd : D s e
    · exact .inl hd
    · exact .inr (ih (hstep s e hs hd))

theorem inv_of_meets {I : σ → Prop} {A : σ → ε → Prop} (hstep : ∀ s e, I s → A s e → I (step s e))
    {s : σ} (hs : I s) {es : List ε} (hA : Meets step A s es) : I (es.foldl step s) := by
  induction es generalizing s with
  | nil => exact hs
  | cons e es ih => exact ih (hstep s e hs hA.1) hA.2

theorem meets_of_inv {I : σ → Prop} {A C : σ → ε → Prop}
    (hstep : ∀ s e, I s → A s e → I (step s e)) (hC : ∀ s e, I s → A s e → C s e) {s : σ}
    (hs : I s) {es : List ε} (hA : Meets step A s es) : Meets step C s es := by
  induction es generalizing s with
  | nil => trivial
  | cons e es ih => exact ⟨hC s e hs hA.1, ih (hstep s e hs hA.1) hA.2⟩

theorem meets_iff_of_inv {I : σ → Prop} {C D : σ → ε → Prop} (hstep : ∀ s e, I s → I (step s e))
    (h : ∀ s e, I s → (C s e ↔ D s e)) {s : σ} (hs : I s) (es : List ε) :
    Meets step C s es ↔ Meets step D s es := by
  induction es generalizing s with
  | nil => rfl
  | cons e es ih => exact and_congr (h s e hs) (ih (hstep s e hs))

theorem always_iff_meets_of_inv {I P : σ → Prop} {A C : σ → ε → Prop}
    (hI : ∀ s e, I s → A s e → I (step s e))
    (h : ∀ s e, I s → A s e → P s → (P (step s e) ↔ C s e)) {s : σ} (hi : I s) (hs : P s)
    {es : List ε} (hA : Meets step A s es) : Always step P s es ↔ Meets step C s es := by
  induction es generalizing s with
  | nil => exact iff_of_true hs trivial
  | cons e es ih =>
    rw [Always, Meets, and_iff_right hs, ← h s e hi hA.1 hs]
    have hrest := fun hnext => ih (hI s e hi hA.1) hnext hA.2
    constructor
    · intro hall
      have hnext : P (step s e) := by
        cases es with
        | nil => exact hall
        | cons e' es' => exact hall.1
      exact ⟨hnext, (hrest hnext).mp hall⟩
    · rintro ⟨hnext, hmeets⟩
      exact (hrest hnext).mpr hmeets

theorem always_iff_meets {P : σ → Prop} {C : σ → ε → Prop}
    (h : ∀ s e, P s → (P (step s e) ↔ C s e)) {s : σ} (hs : P s) (es : List ε) :
    Always step P s es ↔ Meets step C s es :=
  always_iff_meets_of_inv (I := fun _ => True) (fun _ _ _ _ => trivial) (fun s e _ _ => h s e)
    trivial hs (meets_true s es)

end Invariants

section Simulation

/-- What is seen along the events. A step without a next state ends the machine. -/
def observe (step : σ → ε → ω × Option σ) : σ → List ε → List ω
  | _, [] => []
  | s, e :: es =>
    match step s e with
    | (o, none) => [o]
    | (o, some t) => o :: observe step t es

/-- One step of both runs from related states shows the same, and either both runs end or they
reach related states. -/
def Simulates (step : σ → ε → ω × Option σ) (R : σ → σ → Prop) : Prop :=
  ∀ s t e, R s t → (step s e).1 = (step t e).1 ∧ Option.Rel R (step s e).2 (step t e).2

theorem Simulates.observe_eq {step : σ → ε → ω × Option σ} {R : σ → σ → Prop}
    (hsim : Simulates step R) {s t : σ} (h : R s t) (es : List ε) :
    observe step s es = observe step t es := by
  induction es generalizing s t with
  | nil => rfl
  | cons e es ih =>
    obtain ⟨hobs, hrel⟩ := hsim s t e h
    rcases hs : step s e with ⟨o, s'⟩
    rcases ht : step t e with ⟨o', t'⟩
    rw [hs, ht] at hobs hrel
    cases hrel with
    | none =>
      subst hobs
      simp [observe, hs, ht]
    | some hR =>
      subst hobs
      simp [observe, hs, ht, ih hR]

end Simulation

end OsProject
