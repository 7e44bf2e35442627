/-! # Steps that may fail half-way

A step reads and changes a state and ends with a value or a failure; either way the state it reached
stays. These lemmas take a run of steps apart.
-/

namespace SegmentedLog.Stepwise

universe u

variable {ε σ α β : Type u} {s t : σ} {a : α} {b : β} {e : ε}
  {m : EStateM ε σ α} {f : α → EStateM ε σ β}

theorem bind_eq_ok :
    (m >>= f) s = .ok b t ↔ ∃ a u, m s = .ok a u ∧ f a u = .ok b t := by
  show EStateM.bind m f s = _ ↔ _
  unfold EStateM.bind
  cases m s <;> simp [and_assoc]

theorem bind_eq_error :
    (m >>= f) s = .error e t ↔
      m s = .error e t ∨ ∃ a u, m s = .ok a u ∧ f a u = .error e t := by
  show EStateM.bind m f s = _ ↔ _
  unfold EStateM.bind
  cases m s <;> simp [and_assoc]

/-- A run of steps goes on from where the first one ended. -/
theorem bind_of_ok (h : m s = .ok a t) : (m >>= f) s = f a t := by
  show EStateM.bind m f s = _
  simp only [EStateM.bind, h]

theorem bind_of_error (h : m s = .error e t) : (m >>= f) s = .error e t := by
  show EStateM.bind m f s = _
  simp only [EStateM.bind, h]

theorem get_bind {g : σ → EStateM ε σ β} : (get >>= g) s = g s s := rfl

theorem set_bind {u : σ} {g : PUnit → EStateM ε σ β} : (set u >>= g) s = g ⟨⟩ u := rfl

theorem modify_bind {h : σ → σ} {g : PUnit → EStateM ε σ β} :
    (modify h >>= g) s = g ⟨⟩ (h s) := rfl

theorem pure_eq_ok {c : α} : (pure a : EStateM ε σ α) s = .ok c t ↔ a = c ∧ s = t := by
  show EStateM.Result.ok a s = _ ↔ _
  simp

theorem get_eq_ok {u : σ} : (get : EStateM ε σ σ) s = .ok u t ↔ s = u ∧ s = t := by
  show EStateM.Result.ok s s = _ ↔ _
  simp

theorem set_eq_ok {u : σ} {x : PUnit} : (set u : EStateM ε σ PUnit) s = .ok x t ↔ u = t := by
  show EStateM.Result.ok PUnit.unit u = _ ↔ _
  simp

theorem modify_eq_ok {g : σ → σ} {x : PUnit} :
    (modify g : EStateM ε σ PUnit) s = .ok x t ↔ g s = t := by
  show EStateM.Result.ok PUnit.unit (g s) = _ ↔ _
  simp

theorem throw_ne_ok : (throw e : EStateM ε σ α) s ≠ .ok a t := by
  show EStateM.Result.error e s ≠ _
  simp

/-! ## What steps leave alone and how they fail -/

/-- Whether steps keep what `f` sees of the state, however they end, and fail with causes that have
`P` only. -/
def Within {τ : Type u} (f : σ → τ) (P : ε → Prop) (m : EStateM ε σ α) : Prop :=
  ∀ s, match m s with
    | .ok _ t => f t = f s
    | .error e t => f t = f s ∧ P e

namespace Within

variable {τ : Type u} {g : σ → τ} {P : ε → Prop}

theorem of_ok (hm : Within g P m) (h : m s = .ok a t) : g t = g s := by
  have hs := hm s
  rw [h] at hs
  exact hs

theorem of_error (hm : Within g P m) (h : m s = .error e t) : g t = g s ∧ P e := by
  have hs := hm s
  rw [h] at hs
  exact hs

theorem pure (a : α) : Within g P (pure a : EStateM ε σ α) := fun _ => rfl

theorem get : Within g P (get : EStateM ε σ σ) := fun _ => rfl

theorem throw (h : P e) : Within g P (throw e : EStateM ε σ α) := fun _ => ⟨rfl, h⟩

theorem modify {h : σ → σ} (hg : ∀ s, g (h s) = g s) :
    Within g P (modify h : EStateM ε σ PUnit) := hg

theorem set {u : σ} (hu : ∀ s, g u = g s) : Within g P (set u : EStateM ε σ PUnit) := hu

theorem bind (hm : Within g P m) (hf : ∀ a, Within g P (f a)) : Within g P (m >>= f) := by
  intro s
  cases hs : m s with
  | error e t =>
    rw [bind_of_error hs]
    exact hm.of_error hs
  | ok a t =>
    rw [bind_of_ok hs]
    have hkept := hm.of_ok hs
    cases ht : f a t with
    | ok b u => exact ((hf a).of_ok ht).trans hkept
    | error e u => exact ⟨((hf a).of_error ht).1.trans hkept, ((hf a).of_error ht).2⟩

theorem ite {p : Prop} [Decidable p] {m' : EStateM ε σ α} (hm : Within g P m)
    (hm' : Within g P m') : Within g P (if p then m else m') := by
  split
  · exact hm
  · exact hm'

theorem forM {γ : Type u} {step : γ → EStateM ε σ PUnit} (h : ∀ c, Within g P (step c))
    (cs : List γ) : Within g P (cs.forM step) := by
  induction cs with
  | nil => exact pure _
  | cons c cs ih => exact bind (h c) fun _ => ih

theorem foldlM {γ : Type u} {step : α → γ → EStateM ε σ α} (h : ∀ a c, Within g P (step a c))
    (cs : List γ) (a : α) : Within g P (cs.foldlM step a) := by
  induction cs generalizing a with
  | nil => exact pure a
  | cons c cs ih => exact bind (h a c) fun a => ih a

end Within

/-! ## What steps keep true -/

/-- Whether steps that start in `s` leave a state that has `I`, however they end. -/
def Leaves (I : σ → Prop) (m : EStateM ε σ α) (s : σ) : Prop :=
  match m s with
  | .ok _ t => I t
  | .error _ t => I t

def left (m : EStateM ε σ α) (s : σ) : σ :=
  match m s with
  | .ok _ t => t
  | .error _ t => t

namespace Leaves

variable {I : σ → Prop}

theorem holds_left (hm : Leaves I m s) : I (left m s) := by
  unfold Leaves at hm
  unfold left
  cases hs : m s with
  | ok a t =>
    rw [hs] at hm
    exact hm
  | error e t =>
    rw [hs] at hm
    exact hm

theorem of_ok (hm : Leaves I m s) (h : m s = .ok a t) : I t := by
  unfold Leaves at hm
  rw [h] at hm
  exact hm

theorem of_error (hm : Leaves I m s) (h : m s = .error e t) : I t := by
  unfold Leaves at hm
  rw [h] at hm
  exact hm

/-- What holds of every state that agrees with the first one in what steps leave alone. -/
theorem of_kept {τ : Type u} {g : σ → τ} {P : ε → Prop} (hm : Within g P m)
    (h : ∀ t, g t = g s → I t) : Leaves I m s := by
  unfold Leaves
  cases hs : m s with
  | ok a t => exact h t (hm.of_ok hs)
  | error e t => exact h t (hm.of_error hs).1

/-- What steps leave alone keeps the properties it has. -/
theorem of_within {τ : Type u} {g : σ → τ} {P : ε → Prop} {J : τ → Prop} (hm : Within g P m)
    (h : J (g s)) : Leaves (fun s => J (g s)) m s := by
  refine of_kept hm fun t ht => ?_
  rw [ht]
  exact h

/-- Steps are looked at one by one, each from a state that the ones before have left. -/
theorem bind (hm : Leaves I m s) (hf : ∀ a t, m s = .ok a t → I t → Leaves I (f a) t) :
    Leaves I (m >>= f) s := by
  unfold Leaves
  cases h : m s with
  | error e t =>
    rw [bind_of_error h]
    exact hm.of_error h
  | ok a t =>
    rw [bind_of_ok h]
    exact hf a t h (hm.of_ok h)

theorem get_bind {k : σ → EStateM ε σ β} (h : Leaves I (k s) s) : Leaves I (get >>= k) s := h

theorem modify_bind {g : σ → σ} {k : PUnit → EStateM ε σ β} (h : Leaves I (k ⟨⟩) (g s)) :
    Leaves I (modify g >>= k) s := h

theorem ite {p : Prop} [Decidable p] {m' : EStateM ε σ α} (hm : p → Leaves I m s)
    (hm' : ¬ p → Leaves I m' s) : Leaves I (if p then m else m') s := by
  split
  · next h => exact hm h
  · next h => exact hm' h

theorem forM {γ : Type u} {step : γ → EStateM ε σ PUnit}
    (h : ∀ c s, I s → Leaves I (step c) s) (cs : List γ) (hs : I s) :
    Leaves I (cs.forM step) s := by
  induction cs generalizing s with
  | nil => exact hs
  | cons c cs ih => exact (h c s hs).bind fun _ _ _ => ih

theorem foldlM {γ : Type u} {step : α → γ → EStateM ε σ α}
    (h : ∀ a c s, I s → Leaves I (step a c) s) (cs : List γ) (hs : I s) :
    Leaves I (cs.foldlM step a) s := by
  induction cs generalizing a s with
  | nil => exact hs
  | cons c cs ih => exact (h a c s hs).bind fun _ _ _ => ih

end Leaves

/-! ## What steps end with -/

/-- Whether steps that start in `s` end with a value and a state that have `Q`, or fail in a state
that has `E`. -/
structure Ends (Q : α → σ → Prop) (E : σ → Prop) (m : EStateM ε σ α) (s : σ) : Prop where
  ok : ∀ {a t}, m s = .ok a t → Q a t
  error : ∀ {e t}, m s = .error e t → E t

namespace Ends

variable {Q : α → σ → Prop} {R : β → σ → Prop} {E : σ → Prop}

theorem of_ok (h : m s = .ok a t) (ht : Q a t) : Ends Q E m s := by
  constructor
  · intro b u h'
    cases h.symm.trans h'
    exact ht
  · intro e u h'
    cases h.symm.trans h'

theorem of_error (h : m s = .error e t) (ht : E t) : Ends Q E m s := by
  constructor
  · intro b u h'
    cases h.symm.trans h'
  · intro e u h'
    cases h.symm.trans h'
    exact ht

theorem of_eq {m' : EStateM ε σ α} (h : m s = m' s) (hm : Ends Q E m' s) : Ends Q E m s :=
  ⟨fun hs => hm.ok (h.symm.trans hs), fun hs => hm.error (h.symm.trans hs)⟩

theorem of_leaves (hm : Leaves E m s) : Ends (fun _ => E) E m s :=
  ⟨fun h => hm.of_ok h, fun h => hm.of_error h⟩

theorem leaves (hm : Ends (fun _ => E) E m s) : Leaves E m s := by
  unfold Leaves
  cases hs : m s with
  | ok a t => exact hm.ok hs
  | error e t => exact hm.error hs

theorem bind (hm : Ends Q E m s) (hf : ∀ a t, Q a t → Ends R E (f a) t) :
    Ends R E (m >>= f) s := by
  constructor
  · intro b u h
    obtain ⟨a, t, ha, hb⟩ := bind_eq_ok.mp h
    exact (hf a t (hm.ok ha)).ok hb
  · intro e u h
    rcases bind_eq_error.mp h with herror | ⟨a, t, ha, herror⟩
    · exact hm.error herror
    · exact (hf a t (hm.ok ha)).error herror

theorem get_bind {k : σ → EStateM ε σ β} (h : Ends R E (k s) s) : Ends R E (get >>= k) s :=
  ⟨h.ok, h.error⟩

theorem modify_bind {g : σ → σ} {k : PUnit → EStateM ε σ β} (h : Ends R E (k ⟨⟩) (g s)) :
    Ends R E (modify g >>= k) s := ⟨h.ok, h.error⟩

/-- Folding keeps what relates the value to the state. -/
theorem foldlM {γ : Type u} {step : α → γ → EStateM ε σ α}
    (h : ∀ a c s, Q a s → Ends Q E (step a c) s) (cs : List γ) (ha : Q a s) :
    Ends Q E (cs.foldlM step a) s := by
  induction cs generalizing a s with
  | nil => exact of_ok rfl ha
  | cons c cs ih => exact (h a c s ha).bind fun _ _ => ih

end Ends

/-! ## Runs -/

/-- Runs of actions that return, from `s` on. Between them the state may change as `env` tells. -/
inductive Run (act : α → σ → Option σ) (env : σ → σ → Prop) (s : σ) : List α → σ → Prop
  | nil : Run act env s [] s
  | act {as : List α} {a : α} {t u : σ} (hrun : Run act env s as t) (hact : act a t = some u) :
      Run act env s (as ++ [a]) u
  | env {as : List α} {t u : σ} (hrun : Run act env s as t) (henv : env t u) :
      Run act env s as u

/-- One action after the other, with nothing in between, is a run. -/
theorem Run.of_foldlM {act : α → σ → Option σ} {env : σ → σ → Prop} {as : List α}
    (h : as.foldlM (fun s a => act a s) s = some t) : Run act env s as t := by
  suffices hmore : ∀ (done as : List α) (u : σ), Run act env s done u →
      as.foldlM (fun s a => act a s) u = some t → Run act env s (done ++ as) t from
    hmore [] as s .nil h
  intro done as
  induction as generalizing done with
  | nil =>
    intro u hrun hfold
    cases hfold
    rw [List.append_nil]
    exact hrun
  | cons a as ih =>
    intro u hrun hfold
    obtain ⟨v, hact, hrest⟩ := Option.bind_eq_some_iff.mp hfold
    have hmore := ih (done ++ [a]) v (.act hrun hact) hrest
    rw [List.append_assoc] at hmore
    exact hmore

/-! ## Steps without a state -/

variable {x : Except ε α} {g : α → Except ε β}

theorem exceptBind_eq_ok : (x >>= g) = .ok b ↔ ∃ a, x = .ok a ∧ g a = .ok b := by
  cases x with
  | error cause =>
    constructor
    · intro h
      cases h
    · rintro ⟨a, h, -⟩
      cases h
  | ok a =>
    constructor
    · intro h
      exact ⟨a, rfl, h⟩
    · rintro ⟨_, h, hg⟩
      cases h
      exact hg

theorem exceptBind_eq_error :
    (x >>= g) = .error e ↔ x = .error e ∨ ∃ a, x = .ok a ∧ g a = .error e := by
  cases x with
  | error cause =>
    constructor
    · intro h
      cases h
      exact .inl rfl
    · rintro (h | ⟨a, h, -⟩)
      · cases h
        rfl
      · cases h
  | ok a =>
    constructor
    · intro h
      exact .inr ⟨a, rfl, h⟩
    · rintro (h | ⟨_, h, hg⟩)
      · cases h
      · cases h
        exact hg

end SegmentedLog.Stepwise
