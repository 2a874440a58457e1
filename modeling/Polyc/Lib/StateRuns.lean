import Mathlib.Tactic.Common

/-!
# Runs with a state and errors

Programs that change a state and may stop with an error.  A run of a program from a state gives a
value and a state that satisfy `Q`, or an error that satisfies `E`.
-/

namespace StateRuns

variable {σ ε α β : Type}

/-- A run of `m` from `s` gives a value and a state that satisfy `Q`, or an error that satisfies
`E`. -/
def Ensures (E : ε → Prop) (m : StateT σ (Except ε) α) (s : σ) (Q : α → σ → Prop) : Prop :=
  match m s with
  | .ok (a, s') => Q a s'
  | .error e => E e

variable {E : ε → Prop}

/-- A program that only gives a value. -/
theorem Ensures.pure {a : α} {s : σ} {Q : α → σ → Prop} (h : Q a s) :
  Ensures E (Pure.pure a) s Q
  := h

/-- A program that reads the state. -/
theorem Ensures.get {s : σ} {Q : σ → σ → Prop} (h : Q s s) :
  Ensures E (get : StateT σ (Except ε) σ) s Q
  := h

/-- A program that changes the state. -/
theorem Ensures.modify {f : σ → σ} {s : σ} {Q : PUnit → σ → Prop} (h : Q ⟨⟩ (f s)) :
  Ensures E (modify f : StateT σ (Except ε) PUnit) s Q
  := h

/-- One program after another. -/
theorem Ensures.bind {m : StateT σ (Except ε) α} {f : α → StateT σ (Except ε) β} {s : σ}
    {P : α → σ → Prop} {Q : β → σ → Prop} (hm : Ensures E m s P)
    (hf : ∀ a s', P a s' → Ensures E (f a) s' Q) :
  Ensures E (m >>= f) s Q
  := by
  rw [Ensures] at hm
  have hbind : (m >>= f) s = match m s with
      | .ok (a, s') => f a s'
      | .error e => .error e := by
    change (m s >>= fun p => f p.1 p.2) = _
    cases m s <;> rfl
  rw [Ensures, hbind]
  cases hms : m s with
  | ok p =>
    rw [hms] at hm
    apply hf p.1 p.2 hm
  | error e =>
    rw [hms] at hm
    apply hm

/-- One program under a condition, and another one otherwise. -/
theorem Ensures.ite {c : Prop} [Decidable c] {m m' : StateT σ (Except ε) α} {s : σ}
    {Q : α → σ → Prop} (h : c → Ensures E m s Q) (h' : ¬ c → Ensures E m' s Q) :
  Ensures E (if c then m else m') s Q
  := by
  split
  case isTrue hc => apply h hc
  case isFalse hc => apply h' hc

/-- A program that comes before another one under a condition. -/
theorem Ensures.ite_bind {c : Prop} [Decidable c] {m : StateT σ (Except ε) PUnit}
    {f : PUnit → StateT σ (Except ε) β} {s : σ} {P : σ → Prop} {Q : β → σ → Prop}
    (hm : c → Ensures E m s fun _ s' => P s') (hn : ¬ c → P s)
    (hf : ∀ s', P s' → Ensures E (f ⟨⟩) s' Q) :
  Ensures E (if c then m >>= f else f ⟨⟩) s Q
  := by
  split
  case isTrue hc => apply Ensures.bind (hm hc) fun _ => hf
  case isFalse hc => apply hf s (hn hc)

/-- What does not end does not go on. -/
theorem Ensures.never_bind {m : StateT σ (Except ε) α} {f : α → StateT σ (Except ε) β} {s : σ}
    {Q : β → σ → Prop} (hm : Ensures E m s fun _ _ => False) :
  Ensures E (m >>= f) s Q
  := by
  apply Ensures.bind hm
  intro _ _ hfalse
  cases hfalse

/-- A run satisfies what follows from what it satisfies. -/
theorem Ensures.mono {m : StateT σ (Except ε) α} {s : σ} {P Q : α → σ → Prop} (hm : Ensures E m s P)
    (h : ∀ a s', P a s' → Q a s') :
  Ensures E m s Q
  := by
  rw [Ensures] at hm ⊢
  cases hms : m s with
  | ok p =>
    rw [hms] at hm
    apply h p.1 p.2 hm
  | error e =>
    rw [hms] at hm
    apply hm

/-- A run that gives a value satisfies what it satisfies, and it is the run. -/
theorem Ensures.with_eq {m : StateT σ (Except ε) α} {s : σ} {Q : α → σ → Prop} (hm : Ensures E m s Q) :
  Ensures E m s fun a s' => m s = .ok (a, s') ∧ Q a s'
  := by
  rw [Ensures] at hm ⊢
  cases hms : m s with
  | ok p =>
    rw [hms] at hm
    exact ⟨rfl, hm⟩
  | error e =>
    rw [hms] at hm
    apply hm

/-- A run that ends without an error. -/
theorem Ensures.of_ok {m : StateT σ (Except ε) α} {s s' : σ} {a : α} {Q : α → σ → Prop}
    (hm : Ensures E m s Q) (h : m s = .ok (a, s')) :
  Q a s'
  := by
  rw [Ensures, h] at hm
  apply hm

/-- A run that ends with an error. -/
theorem Ensures.of_error {m : StateT σ (Except ε) α} {s : σ} {e : ε} {Q : α → σ → Prop}
    (hm : Ensures E m s Q) (h : m s = .error e) :
  E e
  := by
  rw [Ensures, h] at hm
  apply hm

/-! ### Programs that may give up -/

/-- A program is another one, except where it gives up with an error. -/
def Upto (e : ε) (m m' : StateT σ (Except ε) α) : Prop := ∀ s, m s = .error e ∨ m s = m' s

variable {e : ε} {m m' m'' : StateT σ (Except ε) α}

/-- A program is itself. -/
theorem Upto.refl (m : StateT σ (Except ε) α) :
  Upto e m m
  := fun _ => Or.inr rfl

/-- A program that gives up is any other one. -/
theorem Upto.throw (m : StateT σ (Except ε) α) :
  Upto e (throw e) m
  := fun _ => Or.inl rfl

/-- What gives up more often, twice. -/
theorem Upto.trans (h : Upto e m m') (h' : Upto e m' m'') :
  Upto e m m''
  := by
  intro s
  rcases h s with hs | hs
  · left
    apply hs
  · rw [hs]
    apply h' s

/-- One program after another. -/
theorem Upto.bind {f f' : α → StateT σ (Except ε) β} (h : Upto e m m')
    (hf : ∀ a, Upto e (f a) (f' a)) :
  Upto e (m >>= f) (m' >>= f')
  := by
  have hbind (m : StateT σ (Except ε) α) (f : α → StateT σ (Except ε) β) (s : σ) :
      (m >>= f) s = (m s >>= fun p => f p.1 p.2) := rfl
  intro s
  rw [hbind, hbind]
  rcases h s with hs | hs
  · left
    rw [hs]
    rfl
  · rw [hs]
    cases m' s with
    | error => right; rfl
    | ok p => apply hf p.1 p.2

/-- One program under a condition, and another one otherwise. -/
theorem Upto.ite {c : Prop} [Decidable c] {m₁ m₂ m₁' m₂' : StateT σ (Except ε) α}
    (h₁ : Upto e m₁ m₁') (h₂ : Upto e m₂ m₂') :
  Upto e (if c then m₁ else m₂) (if c then m₁' else m₂')
  := by
  split
  · apply h₁
  · apply h₂

/-- A program under a condition, and another one after it. -/
theorem Upto.ite_bind {c : Prop} [Decidable c] {m : StateT σ (Except ε) PUnit}
    {f f' : PUnit → StateT σ (Except ε) β} (hf : ∀ a, Upto e (f a) (f' a)) :
  Upto e (if c then m >>= f else f ⟨⟩) (if c then m >>= f' else f' ⟨⟩)
  := by
  apply Upto.ite
  · apply Upto.bind (Upto.refl m) hf
  · apply hf

/-- A program that gives up less often gives what was given. -/
theorem Upto.eq_ok {s : σ} {p : α × σ} (h : Upto e m m') (hm : m s = .ok p) :
  m' s = .ok p
  := by
  rcases h s with hs | hs
  · simp only [hm, reduceCtorEq] at hs
  · rw [← hs, hm]

/-- A program that gives up more often gives what was given, or gives up. -/
theorem Upto.runs {s : σ} {p : α × σ} (h : Upto e m m') (hm : m' s = .ok p) :
  Ensures (· = e) m s fun a s' => (a, s') = p
  := by
  rw [Ensures]
  rcases h s with hs | hs
  · rw [hs]
  · rw [hs, hm]

end StateRuns
