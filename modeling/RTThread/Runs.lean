import Mathlib.Tactic

namespace RTThread

/-- The states of runs that begin in a start state and whose steps all meet `ok`. -/
inductive Reach {σ α : Type} (step : σ → α → Option σ) (ok : σ → α → Prop) (start : σ → Prop) :
    σ → Prop where
  | start {s} (h : start s) : Reach step ok start s
  | step {s s' a} (hr : Reach step ok start s) (ha : ok s a) (hs : step s a = some s') :
    Reach step ok start s'

section
variable {σ α : Type} {step : σ → α → Option σ} {ok : σ → α → Prop} {start I : σ → Prop}
  {s s' : σ} {as : List α}

/-- What the start states have and each allowed step keeps holds in every state reached. -/
theorem Reach.invariant (hstart : ∀ s, start s → I s)
    (hstep : ∀ s a s', I s → ok s a → step s a = some s' → I s') (hr : Reach step ok start s) :
    I s := by
  induction hr with
  | start h => exact hstart _ h
  | step _ ha hs ih => exact hstep _ _ _ ih ha hs

def runFrom (step : σ → α → Option σ) : List α → σ → Option σ
  | [], s => some s
  | a :: as, s => (step s a).bind (runFrom step as)

/-- Each step of the run from `s` meets `ok` where it is taken. -/
def RunMeets (step : σ → α → Option σ) (ok : σ → α → Prop) : List α → σ → Prop
  | [], _ => True
  | a :: as, s => ok s a ∧ ∀ s' ∈ step s a, RunMeets step ok as s'

instance decidableRunMeets [∀ s a, Decidable (ok s a)] :
    ∀ as s, Decidable (RunMeets step ok as s)
  | [], _ => isTrue trivial
  | a :: as, s =>
    have : Decidable (∀ s' ∈ step s a, RunMeets step ok as s') :=
      match step s a with
      | none => isTrue fun s' hs => by simp at hs
      | some s1 => @decidable_of_iff _ (RunMeets step ok as s1) (by simp)
          (decidableRunMeets as s1)
    inferInstanceAs (Decidable (_ ∧ _))

theorem Reach.runFrom (hok : RunMeets step ok as s) (hr : Reach step ok start s)
    (hs : runFrom step as s = some s') : Reach step ok start s' := by
  induction as generalizing s with
  | nil => exact Option.some.inj hs ▸ hr
  | cons a as ih =>
    obtain ⟨s1, h1, hs⟩ := Option.bind_eq_some_iff.mp hs
    exact ih (hok.2 s1 h1) (hr.step hok.1 h1) hs

theorem runMeets_of_forall (hok : ∀ s, ∀ a ∈ as, ok s a) : RunMeets step ok as s := by
  induction as generalizing s with
  | nil => exact trivial
  | cons a as ih =>
    exact ⟨hok s a List.mem_cons_self, fun s' _ =>
      ih fun s b hb => hok s b (List.mem_cons_of_mem a hb)⟩

theorem runFrom_append (as bs : List α) (s : σ) :
    runFrom step (as ++ bs) s = (runFrom step as s).bind (runFrom step bs) := by
  induction as generalizing s with
  | nil => rfl
  | cons a as ih =>
    show (step s a).bind (runFrom step (as ++ bs)) = ((step s a).bind (runFrom step as)).bind _
    cases step s a with
    | none => rfl
    | some s1 => exact ih s1

/-- A run meets `ok` when a first part of it does and then the rest. -/
theorem runMeets_append_iff {bs : List α} : RunMeets step ok (as ++ bs) s ↔
    RunMeets step ok as s ∧ ∀ s' ∈ runFrom step as s, RunMeets step ok bs s' := by
  induction as generalizing s with
  | nil =>
    constructor
    · intro h
      refine ⟨trivial, fun s' hs => ?_⟩
      obtain rfl := Option.some.inj hs
      exact h
    · exact fun h => h.2 s rfl
  | cons a as ih =>
    constructor
    · rintro ⟨ha, hrest⟩
      refine ⟨⟨ha, fun s1 h1 => (ih.mp (hrest s1 h1)).1⟩, fun s' hs => ?_⟩
      obtain ⟨s1, h1, hs⟩ := Option.bind_eq_some_iff.mp hs
      exact (ih.mp (hrest s1 h1)).2 s' hs
    · rintro ⟨⟨ha, has⟩, hbs⟩
      exact ⟨ha, fun s1 h1 => ih.mpr ⟨has s1 h1, fun s' hs => hbs s' (Option.bind_eq_some_iff.mpr ⟨s1, h1, hs⟩)⟩⟩

/-- What the last step of a run meets. -/
theorem RunMeets.last {a : α} (h : RunMeets step ok (as ++ [a]) s)
    (hrun : runFrom step as s = some s') : ok s' a := by
  induction as generalizing s with
  | nil =>
    obtain rfl := Option.some.inj hrun
    exact h.1
  | cons b as ih =>
    obtain ⟨s1, h1, hrun⟩ := Option.bind_eq_some_iff.mp hrun
    exact ih (h.2 s1 h1) hrun

/-- Two conditions that agree at each step of a run hold of the same runs. -/
theorem runMeets_iff {ok' : σ → α → Prop}
    (hiff : ∀ s a s', I s → step s a = some s' → (ok s a ↔ ok' s a))
    (hstep : ∀ s a s', I s → ok s a → step s a = some s' → I s') (h : I s)
    (hrun : runFrom step as s = some s') : RunMeets step ok as s ↔ RunMeets step ok' as s := by
  induction as generalizing s with
  | nil => exact Iff.rfl
  | cons a as ih =>
    obtain ⟨s1, h1, hrun⟩ := Option.bind_eq_some_iff.mp hrun
    have hhere := hiff s a s1 h h1
    constructor
    · rintro ⟨hok, hrest⟩
      refine ⟨hhere.mp hok, fun s2 h2 => ?_⟩
      obtain rfl := Option.some.inj (h1.symm.trans h2)
      exact (ih (hstep s a s1 h hok h1) hrun).mp (hrest s1 h1)
    · rintro ⟨hok, hrest⟩
      refine ⟨hhere.mpr hok, fun s2 h2 => ?_⟩
      obtain rfl := Option.some.inj (h1.symm.trans h2)
      exact (ih (hstep s a s1 h (hhere.mpr hok) h1) hrun).mpr (hrest s1 h1)

/-- The same where each action of the run decides both, whether or not the run goes on. -/
theorem runMeets_congr {ok' : σ → α → Prop} (hiff : ∀ s, ∀ a ∈ as, I s → (ok s a ↔ ok' s a))
    (hstep : ∀ s, ∀ a ∈ as, ∀ s', I s → ok s a → step s a = some s' → I s') (h : I s) :
    RunMeets step ok as s ↔ RunMeets step ok' as s := by
  induction as generalizing s with
  | nil => exact Iff.rfl
  | cons a as ih =>
    have hhere := hiff s a List.mem_cons_self h
    have hkeeps := fun s' => hstep s a List.mem_cons_self s' h
    have hrest := fun s' => @ih s' (fun s b hb => hiff s b (List.mem_cons_of_mem a hb))
      fun s b hb => hstep s b (List.mem_cons_of_mem a hb)
    constructor
    · rintro ⟨hok, hafter⟩
      exact ⟨hhere.mp hok, fun s' hs => (hrest s' (hkeeps s' hok hs)).mp (hafter s' hs)⟩
    · rintro ⟨hok, hafter⟩
      exact ⟨hhere.mpr hok, fun s' hs =>
        (hrest s' (hkeeps s' (hhere.mpr hok) hs)).mpr (hafter s' hs)⟩

end

/-- The answers of a run of calls that always return, and the state it ends in. -/
def runAnswers {σ α β : Type} (call : σ → α → β × σ) (s : σ) : List α → List β × σ
  | [] => ([], s)
  | a :: as =>
    let (b, s1) := call s a
    let (bs, s2) := runAnswers call s1 as
    (b :: bs, s2)

/-- If related states give equal answers and stay related at each call, so do runs of calls. -/
theorem runAnswers_refines {σ τ α β : Type} {call : σ → α → β × σ} {spec : τ → α → β × τ}
    {R : σ → τ → Prop}
    (hcall : ∀ s t a, R s t → (call s a).1 = (spec t a).1 ∧ R (call s a).2 (spec t a).2)
    {s : σ} {t : τ} (h : R s t) (as : List α) :
    (runAnswers call s as).1 = (runAnswers spec t as).1 ∧
      R (runAnswers call s as).2 (runAnswers spec t as).2 := by
  induction as generalizing s t with
  | nil => exact ⟨rfl, h⟩
  | cons a as ih =>
    obtain ⟨hanswer, hnext⟩ := hcall s t a h
    obtain ⟨hanswers, hend⟩ := ih hnext
    exact ⟨congrArg₂ List.cons hanswer hanswers, hend⟩

/-- A run answers as its specification does, and shows its states, exactly if each call does. -/
theorem runAnswers_eq_iff {σ τ α β : Type} {call : σ → α → β × σ} {spec : τ → α → β × τ}
    {view : σ → τ} {s : σ} {as : List α} :
    (∀ n, (runAnswers call s (as.take n)).1 = (runAnswers spec (view s) (as.take n)).1 ∧
      view (runAnswers call s (as.take n)).2 = (runAnswers spec (view s) (as.take n)).2) ↔
    RunMeets (fun s a => some (call s a).2)
      (fun s a => (call s a).1 = (spec (view s) a).1 ∧ view (call s a).2 = (spec (view s) a).2)
      as s := by
  induction as generalizing s with
  | nil => simp [runAnswers, RunMeets]
  | cons a as ih =>
    constructor
    · intro h
      obtain ⟨hanswer, hview⟩ := h 1
      have hanswer : (call s a).1 = (spec (view s) a).1 := by simpa [runAnswers] using hanswer
      have hview : view (call s a).2 = (spec (view s) a).2 := by simpa [runAnswers] using hview
      refine ⟨⟨hanswer, hview⟩, fun s' hs => ?_⟩
      obtain rfl := Option.some.inj hs
      apply ih.mp
      intro n
      obtain ⟨hanswers, hend⟩ := h (n + 1)
      rw [hview]
      exact ⟨(List.cons.inj hanswers).2, hend⟩
    · rintro ⟨⟨hanswer, hview⟩, hrest⟩ n
      cases n with
      | zero => exact ⟨rfl, rfl⟩
      | succ n =>
        obtain ⟨hanswers, hend⟩ := ih.mpr (hrest _ rfl) n
        rw [hview] at hanswers hend
        exact ⟨congrArg₂ List.cons hanswer hanswers, hend⟩

end RTThread
