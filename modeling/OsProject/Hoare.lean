import Mathlib.Data.List.Basic

/-! Pre- and postconditions for programs with a state and exceptions. `wp x Q E s` says that
`x`, started in `s`, either returns and establishes `Q`, or fails with an error that meets `E`. -/

namespace OsProject

variable {σ ε α β : Type}

def wp (x : StateT σ (Except ε) α) (Q : α → σ → Prop) (E : ε → Prop) (s : σ) : Prop :=
  match x s with
  | .ok r => Q r.1 r.2
  | .error e => E e

variable {Q : α → σ → Prop} {E : ε → Prop} {s : σ}

@[simp] theorem wp_pure (a : α) : wp (pure a) Q E s ↔ Q a s := Iff.rfl

@[simp] theorem wp_throw (e : ε) : wp (throw e : StateT σ (Except ε) α) Q E s ↔ E e := Iff.rfl

@[simp] theorem wp_bind (x : StateT σ (Except ε) β) (f : β → StateT σ (Except ε) α) :
    wp (x >>= f) Q E s ↔ wp x (fun b t => wp (f b) Q E t) E s := by
  simp only [wp, bind, StateT.bind, Except.bind]
  cases x s <;> rfl

theorem wp_map {β : Type} (f : β → α) (x : StateT σ (Except ε) β) :
    wp (f <$> x) Q E s ↔ wp x (fun b t => Q (f b) t) E s := by
  rw [map_eq_pure_bind, wp_bind]
  rfl

@[simp] theorem wp_get {Q : σ → σ → Prop} :
    wp (get : StateT σ (Except ε) σ) Q E s ↔ Q s s := Iff.rfl

@[simp] theorem wp_set {Q : PUnit → σ → Prop} (t : σ) :
    wp (set t : StateT σ (Except ε) PUnit) Q E s ↔ Q ⟨⟩ t := Iff.rfl

@[simp] theorem wp_modify {Q : PUnit → σ → Prop} (f : σ → σ) :
    wp (modify f : StateT σ (Except ε) PUnit) Q E s ↔ Q ⟨⟩ (f s) := Iff.rfl

@[simp] theorem wp_ite (c : Prop) [Decidable c] (x y : StateT σ (Except ε) α) :
    wp (if c then x else y) Q E s ↔ (c → wp x Q E s) ∧ (¬ c → wp y Q E s) := by
  by_cases hc : c <;> simp [hc]

theorem wp_mono {x : StateT σ (Except ε) α} {Q' : α → σ → Prop} {E' : ε → Prop}
    (h : wp x Q E s) (hQ : ∀ a t, Q a t → Q' a t) (hE : ∀ e, E e → E' e) : wp x Q' E' s := by
  unfold wp at h ⊢
  cases hx : x s with
  | ok r =>
    rw [hx] at h
    exact hQ _ _ h
  | error e =>
    rw [hx] at h
    exact hE _ h

theorem wp_post {x : StateT σ (Except ε) α} {Q' : α → σ → Prop} (h : wp x Q E s)
    (hQ : ∀ a t, Q a t → Q' a t) : wp x Q' E s :=
  wp_mono h hQ fun _ he => he

theorem wp_seq {x : StateT σ (Except ε) α} {f : α → StateT σ (Except ε) β} {R : β → σ → Prop}
    (h : wp x Q E s) (hf : ∀ a t, Q a t → wp (f a) R E t) : wp (x >>= f) R E s :=
  (wp_bind x f).2 (wp_post h hf)

theorem wp_and {x : StateT σ (Except ε) α} {Q' : α → σ → Prop} {E' : ε → Prop} (h : wp x Q E s)
    (h' : wp x Q' E' s) : wp x (fun a t => Q a t ∧ Q' a t) (fun e => E e ∧ E' e) s := by
  unfold wp at h h' ⊢
  cases hx : x s with
  | ok r =>
    rw [hx] at h h'
    exact ⟨h, h'⟩
  | error e =>
    rw [hx] at h h'
    exact ⟨h, h'⟩

theorem wp_ok {x : StateT σ (Except ε) α} {a : α} {t : σ} (h : wp x Q E s)
    (hx : x s = .ok (a, t)) : Q a t := by
  unfold wp at h
  rwa [hx] at h

theorem wp_error {x : StateT σ (Except ε) α} {e : ε} (h : wp x Q E s) (hx : x s = .error e) :
    E e := by
  unfold wp at h
  rwa [hx] at h

theorem exists_ok_of_wp {x : StateT σ (Except ε) α} (h : wp x Q (fun _ => False) s) :
    ∃ a t, x s = .ok (a, t) ∧ Q a t := by
  unfold wp at h
  cases hx : x s with
  | ok r =>
    rw [hx] at h
    exact ⟨r.1, r.2, rfl, h⟩
  | error e =>
    rw [hx] at h
    exact h.elim

theorem eq_ok_of_wp {x : StateT σ (Except ε) α} {a : α} {t : σ}
    (h : wp x (fun b u => b = a ∧ u = t) (fun _ => False) s) : x s = .ok (a, t) := by
  obtain ⟨_, _, hx, rfl, rfl⟩ := exists_ok_of_wp h
  exact hx

theorem exists_of_bind_ok {x : StateT σ (Except ε) α} {f : α → StateT σ (Except ε) β} {b : β} {u : σ}
    (h : (x >>= f) s = .ok (b, u)) : ∃ a t, x s = .ok (a, t) ∧ f a t = .ok (b, u) := by
  have hwp : wp (x >>= f) (fun b' u' => b' = b ∧ u' = u) (fun _ => False) s := by
    unfold wp
    rw [h]
    exact ⟨rfl, rfl⟩
  rw [wp_bind] at hwp
  obtain ⟨a, t, hx, hf⟩ := exists_ok_of_wp hwp
  exact ⟨a, t, hx, eq_ok_of_wp hf⟩

def returned (x : StateT σ (Except ε) α) (s : σ) : Option α := (x s).toOption.map Prod.fst

theorem exists_of_returned {x : StateT σ (Except ε) α} {a : α} (h : returned x s = some a) :
    ∃ t, x s = .ok (a, t) := by
  unfold returned at h
  cases hx : x s with
  | ok r =>
    rw [hx] at h
    exact ⟨r.2, congrArg Except.ok (Prod.ext (Option.some.inj h) rfl)⟩
  | error e =>
    rw [hx] at h
    cases h

def zoom {ρ ε' : Type} (part : σ → ρ) (put : ρ → σ → σ) (err : ε' → ε)
    (x : StateT ρ (Except ε') α) : StateT σ (Except ε) α := fun s =>
  match x (part s) with
  | .ok (a, t) => .ok (a, put t s)
  | .error e => .error (err e)

theorem wp_zoom {ρ ε' : Type} {part : σ → ρ} {put : ρ → σ → σ} {err : ε' → ε}
    {x : StateT ρ (Except ε') α} : wp (zoom part put err x) Q E s ↔
      wp x (fun a t => Q a (put t s)) (fun e => E (err e)) (part s) := by
  unfold wp zoom
  cases x (part s) with
  | ok r => rfl
  | error e => rfl

theorem bind_of_error {x : StateT σ (Except ε) β} {f : β → StateT σ (Except ε) α} {e : ε}
    (h : x s = .error e) : (x >>= f) s = .error e := by
  simp only [bind, StateT.bind, Except.bind, h]

theorem wp_forM {γ : Type} {f : γ → StateT σ (Except ε) PUnit} {I : List γ → σ → Prop}
    (hstep : ∀ a l t, I (a :: l) t → wp (f a) (fun _ u => I l u) E t) {l : List γ} {t : σ}
    (h : I l t) : wp (forM l f) (fun _ u => I [] u) E t := by
  induction l generalizing t with
  | nil => exact h
  | cons a l ih =>
    rw [List.forM_cons]
    exact wp_seq (hstep a l t h) fun _ _ hu => ih hu

def Maintains (I : σ → Prop) (E : ε → Prop) (x : StateT σ (Except ε) α) : Prop :=
  ∀ s, I s → wp x (fun _ t => I t) E s

namespace Maintains

variable {I : σ → Prop}

theorem pure (a : α) : Maintains I E (Pure.pure a) := fun _ h => h

theorem throw {e : ε} (h : E e) : Maintains I E (throwThe ε e : StateT σ (Except ε) α) := fun _ _ => h

theorem bind {x : StateT σ (Except ε) β} {f : β → StateT σ (Except ε) α} (hx : Maintains I E x)
    (hf : ∀ b, Maintains I E (f b)) : Maintains I E (x >>= f) :=
  fun s hs => wp_seq (hx s hs) fun b t ht => hf b t ht

theorem get_bind {f : σ → StateT σ (Except ε) α} (hf : ∀ s, Maintains I E (f s)) :
    Maintains I E (get >>= f) := fun s hs => hf s s hs

theorem modify {f : σ → σ} (hf : ∀ s, I s → I (f s)) :
    Maintains I E (modify f : StateT σ (Except ε) PUnit) := fun s hs => hf s hs

theorem ite {c : Prop} [Decidable c] {x y : StateT σ (Except ε) α} (hx : Maintains I E x)
    (hy : Maintains I E y) : Maintains I E (if c then x else y) := by
  split_ifs
  · exact hx
  · exact hy

theorem forM {γ : Type} {f : γ → StateT σ (Except ε) PUnit} (hf : ∀ a, Maintains I E (f a))
    (l : List γ) : Maintains I E (forM l f) :=
  fun _ hs => wp_forM (I := fun _ => I) (fun a _ t ht => hf a t ht) hs

end Maintains

end OsProject
