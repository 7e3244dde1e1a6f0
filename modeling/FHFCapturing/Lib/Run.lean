import Mathlib.Init

/-!
# Runs of a fallible step function

A system is a step function that either fails or gives the next state; a run folds it over a
list of events. An invariant that every step keeps holds along every run, and a step that keeps
an invariant and cannot fail from it makes every run succeed (`run_invariant`). Two variants:
a run whose every step meets a condition on the state it is taken from (`AllSteps`,
`run_invariant_of_allSteps`), and a run carried along with a history variable that only watches
the states and events (`observed`). `run_filter_related` compares a run with the run without some
of its events, and `run_refines_of_allSteps` with the run of a system that sees only some of
them. For a system whose turns never fail, `run_simulates` is forward simulation by runs, and
`exists_turns_of_measure` leads it to a final state.
-/

namespace Run

variable {σ ε η err : Type}

/-- The state after a list of events, or the first failure. -/
def run (step : σ → ε → Except err σ) : σ → List ε → Except err σ
  | s, [] => .ok s
  | s, e :: es =>
      match step s e with
      | .ok s' => run step s' es
      | .error x => .error x

variable {step : σ → ε → Except err σ}

@[simp] theorem run_nil (s : σ) : run step s [] = .ok s := rfl

theorem run_cons_of_ok {s s' : σ} {e : ε} (h : step s e = .ok s') (es : List ε) :
    run step s (e :: es) = run step s' es := by
  simp [run, h]

theorem run_append_of_ok {s s' : σ} {es : List ε} (h : run step s es = .ok s')
    (fs : List ε) : run step s (es ++ fs) = run step s' fs := by
  induction es generalizing s with
  | nil => simp only [run_nil, Except.ok.injEq] at h; simp [h]
  | cons e es ih =>
    cases hstep : step s e with
    | error x => simp [run, hstep] at h
    | ok s₁ =>
      rw [run_cons_of_ok hstep] at h
      rw [List.cons_append, run_cons_of_ok hstep, ih h]

theorem run_singleton {s s' : σ} {e : ε} (h : step s e = .ok s') : run step s [e] = .ok s' := by
  rw [run_cons_of_ok h, run_nil]

/-! ## Invariants -/

/-- Every step of the run is taken from a state in which `C` allows it. -/
def AllSteps (step : σ → ε → Except err σ) (C : σ → ε → Prop) : σ → List ε → Prop
  | _, [] => True
  | s, e :: es => C s e ∧ ∀ s', step s e = .ok s' → AllSteps step C s' es

/-- On a concrete run the condition can be checked. -/
instance decidableAllSteps (step : σ → ε → Except err σ) (C : σ → ε → Prop)
    [∀ s e, Decidable (C s e)] : ∀ (s : σ) (es : List ε), Decidable (AllSteps step C s es)
  | _, [] => inferInstanceAs (Decidable True)
  | s, e :: es =>
      match h : step s e with
      | .ok s' =>
          have := decidableAllSteps step C s' es
          decidable_of_iff (C s e ∧ AllSteps step C s' es)
            ⟨fun hC => ⟨hC.1, fun _ heq => Except.ok.inj (h.symm.trans heq) ▸ hC.2⟩,
              fun hC => ⟨hC.1, hC.2 s' h⟩⟩
      | .error _ =>
          decidable_of_iff (C s e)
            ⟨fun hC => ⟨hC, fun _ heq => nomatch h.symm.trans heq⟩, fun hC => hC.1⟩

theorem allSteps_of_forall {C : σ → ε → Prop} {es : List ε} (h : ∀ e ∈ es, ∀ s, C s e) (s : σ) :
    AllSteps step C s es := by
  induction es generalizing s with
  | nil => trivial
  | cons e es ih =>
    obtain ⟨hhead, htail⟩ := List.forall_mem_cons.mp h
    exact ⟨hhead s, fun s' _ => ih htail s'⟩

/-- The invariant rule for an invariant that also speaks about the events so far, under a condition
on the steps. Induction on the events still to come. -/
theorem run_events_invariant_of_allSteps {I : List ε → σ → Prop} {C : σ → ε → Prop}
    (hstep : ∀ pre s e, I pre s → C s e → ∃ s', step s e = .ok s' ∧ I (pre ++ [e]) s')
    {s : σ} {es : List ε} (hs : I [] s) (hC : AllSteps step C s es) :
    ∃ s', run step s es = .ok s' ∧ I es s' := by
  -- induction with the events before as a parameter
  have hfrom : ∀ (es pre : List ε) (s : σ), I pre s → AllSteps step C s es →
      ∃ s', run step s es = .ok s' ∧ I (pre ++ es) s' := by
    intro es
    induction es with
    | nil => exact fun pre s hs _ => ⟨s, rfl, by rwa [List.append_nil]⟩
    | cons e es ih =>
      intro pre s hs hC
      obtain ⟨s₁, hok, hI⟩ := hstep pre s e hs hC.1
      obtain ⟨s₂, hrun, hI'⟩ := ih (pre ++ [e]) s₁ hI (hC.2 s₁ hok)
      exact ⟨s₂, by rw [run_cons_of_ok hok, hrun], by simpa using hI'⟩
  exact hfrom es [] s hs hC

/-- The invariant rule for an invariant that also speaks about the events so far. -/
theorem run_events_invariant {I : List ε → σ → Prop}
    (hstep : ∀ pre s e, I pre s → ∃ s', step s e = .ok s' ∧ I (pre ++ [e]) s')
    {s : σ} (hs : I [] s) (es : List ε) : ∃ s', run step s es = .ok s' ∧ I es s' :=
  run_events_invariant_of_allSteps (fun pre s e h _ => hstep pre s e h) hs
    (allSteps_of_forall (C := fun _ _ => True) (fun _ _ _ => trivial) s)

/-- The invariant rule under a condition on the steps. -/
theorem run_invariant_of_allSteps {I : σ → Prop} {C : σ → ε → Prop}
    (hstep : ∀ s e, I s → C s e → ∃ s', step s e = .ok s' ∧ I s')
    {s : σ} {es : List ε} (hs : I s) (hC : AllSteps step C s es) :
    ∃ s', run step s es = .ok s' ∧ I s' :=
  run_events_invariant_of_allSteps (I := fun _ s => I s) (fun _ s e => hstep s e) hs hC

/-- The invariant rule: a step that never fails from `I` and keeps `I` carries it along every
run. -/
theorem run_invariant {I : σ → Prop} (hstep : ∀ s e, I s → ∃ s', step s e = .ok s' ∧ I s')
    {s : σ} (hs : I s) (es : List ε) : ∃ s', run step s es = .ok s' ∧ I s' :=
  run_events_invariant (I := fun _ s => I s) (fun _ s e => hstep s e) hs es

/-! ## Simulation -/

/-- Forward simulation: if every turn of another system is matched from `R`-related states by some
events, all of the kind `K`, then so is every sequence of turns. Induction on the turns. -/
theorem run_simulates {γ τ : Type} (next : γ → τ → γ) {R : γ → σ → Prop} {K : ε → Prop}
    (hturn : ∀ c s t, R c s →
      ∃ es s', (∀ e ∈ es, K e) ∧ run step s es = .ok s' ∧ R (next c t) s')
    {c : γ} {s : σ} (h : R c s) (ts : List τ) :
    ∃ es s', (∀ e ∈ es, K e) ∧ run step s es = .ok s' ∧ R (ts.foldl next c) s' := by
  induction ts generalizing c s with
  | nil => exact ⟨[], s, by simp, rfl, h⟩
  | cons t ts ih =>
    obtain ⟨es₁, s₁, hK₁, hrun₁, h₁⟩ := hturn c s t h
    obtain ⟨es₂, s₂, hK₂, hrun₂, h₂⟩ := ih h₁
    -- the steps for the first turn, then those for the others
    refine ⟨es₁ ++ es₂, s₂, ?_, ?_, h₂⟩
    · intro e he
      exact (List.mem_append.mp he).elim (hK₁ e) (hK₂ e)
    · rw [run_append_of_ok hrun₁, hrun₂]

/-- Two runs side by side, the second without the events that are not to be kept: if the first
alone stays related over those, and both together over the others, so do the runs. Induction on
the events. -/
theorem run_filter_related {R : σ → σ → Prop} {keep : ε → Bool}
    (hkeep : ∀ s t e, R s t → keep e = true →
      ∃ s' t', step s e = .ok s' ∧ step t e = .ok t' ∧ R s' t')
    (hskip : ∀ s t e, R s t → keep e = false → ∃ s', step s e = .ok s' ∧ R s' t)
    {s t : σ} (h : R s t) (es : List ε) :
    ∃ s' t', run step s es = .ok s' ∧ run step t (es.filter keep) = .ok t' ∧ R s' t' := by
  induction es generalizing s t with
  | nil => exact ⟨s, t, rfl, rfl, h⟩
  | cons e es ih =>
    cases he : keep e with
    -- an event that both runs make, or that only the first makes
    | true =>
      obtain ⟨s₁, t₁, hs, ht, h₁⟩ := hkeep s t e h he
      obtain ⟨s', t', hs', ht', h'⟩ := ih h₁
      rw [List.filter_cons_of_pos he]
      exact ⟨s', t', by rw [run_cons_of_ok hs, hs'], by rw [run_cons_of_ok ht, ht'], h'⟩
    | false =>
      obtain ⟨s₁, hs, h₁⟩ := hskip s t e h he
      obtain ⟨s', t', hs', ht', h'⟩ := ih h₁
      rw [List.filter_cons_of_neg (by simp [he])]
      exact ⟨s', t', by rw [run_cons_of_ok hs, hs'], ht', h'⟩

/-- Refinement with stuttering, under a condition on the steps: a step that is visible as an event
of another system is matched by that event there, and a step that is not visible by none. Induction
on the events. -/
theorem run_refines_of_allSteps {τ δ : Type} {next : τ → δ → Except err τ} {visible : ε → Option δ}
    {R : σ → τ → Prop} {C : σ → ε → Prop}
    (hstep : ∀ s t e, R s t → C s e →
      ∃ s' t', step s e = .ok s' ∧ run next t (visible e).toList = .ok t' ∧ R s' t')
    {s : σ} {t : τ} {es : List ε} (h : R s t) (hC : AllSteps step C s es) :
    ∃ s' t', run step s es = .ok s' ∧ run next t (es.filterMap visible) = .ok t' ∧ R s' t' := by
  induction es generalizing s t with
  | nil => exact ⟨s, t, rfl, rfl, h⟩
  | cons e es ih =>
    obtain ⟨s₁, t₁, hs, ht, h₁⟩ := hstep s t e h hC.1
    obtain ⟨s', t', hs', ht', h'⟩ := ih h₁ (hC.2 s₁ hs)
    refine ⟨s', t', by rw [run_cons_of_ok hs, hs'], ?_, h'⟩
    -- the visible part of the first event, and of the others
    have hsplit : (e :: es).filterMap visible = (visible e).toList ++ es.filterMap visible := by
      cases hv : visible e with
      | none => rw [List.filterMap_cons_none hv]; rfl
      | some d => rw [List.filterMap_cons_some hv]; rfl
    rw [hsplit, run_append_of_ok ht, ht']

/-! ## Progress -/

/-- The progress rule: if from every state with `I` that is not yet final some turn keeps `I` and
decreases a measure, then some turns lead to a final state. Induction on the measure. -/
theorem exists_turns_of_measure {γ τ : Type} (next : γ → τ → γ) {I final : γ → Prop}
    (measure : γ → Nat)
    (hturn : ∀ c, I c → ¬ final c → ∃ t, I (next c t) ∧ measure (next c t) < measure c)
    {c : γ} (h : I c) : ∃ ts : List τ, final (ts.foldl next c) := by
  induction hm : measure c using Nat.strongRecOn generalizing c with
  | ind m ih =>
    by_cases hfinal : final c
    · exact ⟨[], hfinal⟩
    · obtain ⟨t, ht, hlt⟩ := hturn c h hfinal
      obtain ⟨ts, hts⟩ := ih _ (hm ▸ hlt) ht rfl
      exact ⟨t :: ts, hts⟩

/-- The progress rule for a step that may fail. -/
theorem exists_run_of_measure {I final : σ → Prop} (measure : σ → Nat)
    (hstep : ∀ s, I s → ¬ final s → ∃ e s', step s e = .ok s' ∧ I s' ∧ measure s' < measure s)
    {s : σ} (h : I s) : ∃ es s', run step s es = .ok s' ∧ I s' ∧ final s' := by
  induction hm : measure s using Nat.strongRecOn generalizing s with
  | ind m ih =>
    by_cases hfinal : final s
    · exact ⟨[], s, rfl, h, hfinal⟩
    · obtain ⟨e, s₁, hok, h₁, hlt⟩ := hstep s h hfinal
      obtain ⟨es, s', hrun, h'⟩ := ih _ (hm ▸ hlt) h₁ rfl
      exact ⟨e :: es, s', by rw [run_cons_of_ok hok, hrun], h'⟩

/-! ## History variables -/

/-- The step function with a history variable: `obs` updates it from the state before, the
event and the state after, and the run itself does not read it. -/
def observed (step : σ → ε → Except err σ) (obs : σ → ε → σ → η → η) :
    σ × η → ε → Except err (σ × η)
  | (s, h), e =>
      match step s e with
      | .ok s' => .ok (s', obs s e s' h)
      | .error x => .error x

theorem observed_of_ok {obs : σ → ε → σ → η → η} {s s' : σ} {e : ε} (hok : step s e = .ok s')
    (h : η) : observed step obs (s, h) e = .ok (s', obs s e s' h) := by
  simp [observed, hok]

/-- A run with a history variable is a run. -/
theorem run_of_observed {obs : σ → ε → σ → η → η} {s s' : σ} {h h' : η} {es : List ε}
    (hrun : run (observed step obs) (s, h) es = .ok (s', h')) : run step s es = .ok s' := by
  induction es generalizing s h with
  | nil => exact congrArg Except.ok (Prod.mk.inj (Except.ok.inj hrun)).1
  | cons e es ih =>
    cases hstep : step s e with
    | error x => simp [run, observed, hstep] at hrun
    | ok s₁ =>
      rw [run_cons_of_ok (observed_of_ok hstep h)] at hrun
      rw [run_cons_of_ok hstep]
      exact ih hrun

/-- The invariant rule for a run with a history variable. -/
theorem run_observed_invariant {obs : σ → ε → σ → η → η} {I : σ → η → Prop}
    (hstep : ∀ s h e, I s h → ∃ s', step s e = .ok s' ∧ I s' (obs s e s' h))
    {s : σ} {h : η} (hs : I s h) (es : List ε) :
    ∃ s' h', run (observed step obs) (s, h) es = .ok (s', h') ∧ I s' h' := by
  have hinv : ∀ (p : σ × η) (e : ε), I p.1 p.2 →
      ∃ p', observed step obs p e = .ok p' ∧ I p'.1 p'.2 := by
    rintro ⟨s, h⟩ e hI
    obtain ⟨s', hok, hI'⟩ := hstep s h e hI
    exact ⟨(s', obs s e s' h), observed_of_ok hok h, hI'⟩
  obtain ⟨⟨s', h'⟩, hrun, hI'⟩ :=
    run_invariant (I := fun p : σ × η => I p.1 p.2) hinv (s := (s, h)) hs es
  exact ⟨s', h', hrun, hI'⟩

/-- The invariant rule with both a history variable and the events so far. -/
theorem run_observed_events_invariant {obs : σ → ε → σ → η → η} {I : List ε → σ → η → Prop}
    (hstep : ∀ pre s h e, I pre s h → ∃ s', step s e = .ok s' ∧ I (pre ++ [e]) s' (obs s e s' h))
    {s : σ} {h : η} (hs : I [] s h) (es : List ε) :
    ∃ s' h', run (observed step obs) (s, h) es = .ok (s', h') ∧ I es s' h' := by
  have hinv : ∀ (pre : List ε) (p : σ × η) (e : ε), I pre p.1 p.2 →
      ∃ p', observed step obs p e = .ok p' ∧ I (pre ++ [e]) p'.1 p'.2 := by
    rintro pre ⟨s, h⟩ e hI
    obtain ⟨s', hok, hI'⟩ := hstep pre s h e hI
    exact ⟨(s', obs s e s' h), observed_of_ok hok h, hI'⟩
  obtain ⟨⟨s', h'⟩, hrun, hI'⟩ :=
    run_events_invariant (I := fun pre (p : σ × η) => I pre p.1 p.2) hinv (s := (s, h)) hs es
  exact ⟨s', h', hrun, hI'⟩

end Run
