import RTThread.Runs

namespace RTThread

/-- A specification that takes part in the events can go from `x` to `y` with this history. -/
def Follows {τ ε : Type} (spec : τ → ε → τ → Prop) (x : τ) : List ε → τ → Prop
  | [], y => y = x
  | e :: es, y => ∃ z, spec x e z ∧ Follows spec z es y

section
variable {σ α τ ε : Type} {step : σ → α → Option σ} {ok : σ → α → Prop} {start : σ → Prop}
  {spec : τ → ε → τ → Prop} {history : σ → List ε} {fits : σ → τ → Prop} {s : σ} {x y z : τ}
  {es : List ε} {e : ε}

theorem Follows.append (h : Follows spec x es y) (he : spec y e z) :
    Follows spec x (es ++ [e]) z := by
  induction es generalizing x with
  | nil =>
    obtain rfl := h
    exact ⟨z, he, rfl⟩
  | cons e' es ih =>
    obtain ⟨w, hw, hrest⟩ := h
    exact ⟨w, hw, ih hrest⟩

/-- What a step of the program does, seen from the specification's state after it: nothing, or one
event that leads there from a state that fitted before. -/
def StepsBack (spec : τ → ε → τ → Prop) (history : σ → List ε) (fits : σ → τ → Prop)
    (s s' : σ) : Prop :=
  history s' = history s ∧ (∀ y, fits s' y → fits s y) ∨
    ∃ e, history s' = history s ++ [e] ∧ ∀ y, fits s' y → ∃ x, fits s x ∧ spec x e y

/-- If every step goes back so, the specification can follow every run to each state that fits. The
choices of the specification are made as late as `fits` leaves them open. -/
theorem Reach.follows (hstart : ∀ s, start s → history s = [] ∧ ∀ y, fits s y → y = x)
    (hstep : ∀ s a s', Reach step ok start s → ok s a → step s a = some s' →
      StepsBack spec history fits s s')
    (hr : Reach step ok start s) : ∀ y, fits s y → Follows spec x (history s) y := by
  induction hr with
  | start h =>
    intro y hy
    rw [(hstart _ h).1]
    exact (hstart _ h).2 y hy
  | @step s s' a hr ha hs ih =>
    intro y hy
    rcases hstep s a s' hr ha hs with ⟨hsame, hback⟩ | ⟨e, hmore, hback⟩
    · rw [hsame]
      exact ih y (hback y hy)
    · obtain ⟨w, hw, he⟩ := hback y hy
      rw [hmore]
      exact (ih w hw).append he

end

end RTThread
