import WolServer.CString

/-!
# Runs of a machine

A machine is a partial step: from a state, a label – what the outside world
answers – either gives the next state and the list of effects of the step,
or cannot happen. `Runs.run` takes a list of labels. This module is a
library and names no machine.

The one rule is `Runs.run_invariant`: a property of the state *and of the
effects so far* that every step keeps holds after every run. Keeping the
trace in the property is what makes it a history: a fact such as “the slot
holds what the connection last asked for” is about the state on one side and
about the trace on the other.
-/

namespace Runs

variable {σ ι ε : Type} (step : σ → ι → Option (σ × List ε))

/-- **A run**: the state after a list of labels, and the effects of all the
steps in order. -/
def run : σ → List ι → Option (σ × List ε)
  | s, [] => some (s, [])
  | s, i :: is =>
    match step s i with
    | none => none
    | some (s₁, es) => (run s₁ is).map (fun r => (r.1, es ++ r.2))

variable {step}

theorem run_cons_eq_some {s s' : σ} {i : ι} {is : List ι} {tr : List ε} :
    run step s (i :: is) = some (s', tr) ↔
      ∃ s₁ es tr', step s i = some (s₁, es) ∧ run step s₁ is = some (s', tr')
        ∧ tr = es ++ tr' := by
  rw [run]
  cases h : step s i with
  | none => simp
  | some p =>
    obtain ⟨s₁, es⟩ := p
    simp only [Option.map_eq_some_iff, Option.some.injEq, Prod.mk.injEq]
    constructor
    · rintro ⟨⟨s₂, tr'⟩, hrun, rfl, rfl⟩
      exact ⟨s₁, es, tr', ⟨rfl, rfl⟩, hrun, rfl⟩
    · rintro ⟨_, _, tr', ⟨rfl, rfl⟩, hrun, rfl⟩
      exact ⟨(s', tr'), hrun, rfl, rfl⟩

/-- One step is a run. -/
theorem run_single {s s' : σ} {i : ι} {es : List ε} (h : step s i = some (s', es)) :
    run step s [i] = some (s', es) :=
  run_cons_eq_some.mpr ⟨s', es, [], h, rfl, (List.append_nil es).symm⟩

/-- **Runs compose.** -/
theorem run_append {s s₁ s₂ : σ} {is js : List ι} {tr₁ tr₂ : List ε}
    (h₁ : run step s is = some (s₁, tr₁)) (h₂ : run step s₁ js = some (s₂, tr₂)) :
    run step s (is ++ js) = some (s₂, tr₁ ++ tr₂) := by
  induction is generalizing s tr₁ with
  | nil =>
    obtain ⟨rfl, rfl⟩ := Prod.mk.inj (Option.some.inj h₁)
    exact h₂
  | cons i is ih =>
    obtain ⟨m, es, tr, hstep, hrun, rfl⟩ := run_cons_eq_some.mp h₁
    exact run_cons_eq_some.mpr ⟨m, es, tr ++ tr₂, hstep, ih hrun, List.append_assoc ..⟩

/-- A run is cut in two anywhere. -/
theorem run_append_eq_some {s s' : σ} {is js : List ι} {tr : List ε} :
    run step s (is ++ js) = some (s', tr) ↔
      ∃ m tr₁ tr₂, run step s is = some (m, tr₁) ∧ run step m js = some (s', tr₂)
        ∧ tr = tr₁ ++ tr₂ := by
  constructor
  · intro h
    induction is generalizing s tr with
    | nil => exact ⟨s, [], tr, rfl, h, rfl⟩
    | cons i is ih =>
      obtain ⟨m, es, tr', hs, hrun, rfl⟩ := run_cons_eq_some.mp h
      obtain ⟨m', tr₁, tr₂, h₁, h₂, rfl⟩ := ih hrun
      exact ⟨m', es ++ tr₁, tr₂, run_cons_eq_some.mpr ⟨m, es, tr₁, hs, h₁, rfl⟩, h₂,
        (List.append_assoc ..).symm⟩
  · rintro ⟨m, tr₁, tr₂, h₁, h₂, rfl⟩
    exact run_append h₁ h₂

/-- **The invariant rule.** A property of the state and the trace that holds
at the start, and that every step by a label of the kind `L` keeps, holds
after every run by such labels. -/
theorem run_invariant (Inv : σ → List ε → Prop) (L : ι → Prop)
    (hstep : ∀ {s i s' es tr}, Inv s tr → L i → step s i = some (s', es) → Inv s' (tr ++ es))
    {s s' : σ} {is : List ι} {tr tr' : List ε} (h₀ : Inv s tr) (hL : ∀ i ∈ is, L i)
    (hrun : run step s is = some (s', tr')) : Inv s' (tr ++ tr') := by
  induction is generalizing s tr tr' with
  | nil =>
    obtain ⟨rfl, rfl⟩ := Prod.mk.inj (Option.some.inj hrun)
    rw [List.append_nil]
    exact h₀
  | cons i is ih =>
    obtain ⟨m, es, tr₁, hs, hr, rfl⟩ := run_cons_eq_some.mp hrun
    rw [← List.append_assoc]
    exact ih (hstep h₀ (hL i List.mem_cons_self) hs)
      (fun j hj => hL j (List.mem_cons_of_mem i hj)) hr

/-- **Effects, step by step.** If the effects of each step have a property
exactly when the step meets a condition, the effects of a run have it exactly
when every step of the run meets the condition. -/
theorem forall_effects_iff (Q : ε → Prop) (C : σ → ι → Prop)
    (hstep : ∀ {s i s' es}, step s i = some (s', es) → ((∀ e ∈ es, Q e) ↔ C s i))
    {s s' : σ} {is : List ι} {tr : List ε} (hrun : run step s is = some (s', tr)) :
    (∀ e ∈ tr, Q e) ↔ ∀ before i after m tr₁, is = before ++ i :: after →
      run step s before = some (m, tr₁) → C m i := by
  induction is generalizing s tr with
  | nil =>
    obtain ⟨rfl, rfl⟩ := Prod.mk.inj (Option.some.inj hrun)
    refine ⟨fun _ before i after m tr₁ h => ?_, fun _ => List.forall_mem_nil _⟩
    exact absurd (congrArg List.length h) (by simp)
  | cons i is ih =>
    obtain ⟨m, es, tr', hs, hr, rfl⟩ := run_cons_eq_some.mp hrun
    rw [List.forall_mem_append, hstep hs, ih hr]
    constructor
    · rintro ⟨hC, hrest⟩ before j after m' tr₁ heq hbefore
      cases before with
      | nil =>
        obtain ⟨rfl, rfl⟩ := List.cons.inj heq
        obtain ⟨rfl, rfl⟩ := Prod.mk.inj (Option.some.inj hbefore)
        exact hC
      | cons b before =>
        obtain ⟨rfl, rfl⟩ := List.cons.inj heq
        obtain ⟨m₁, es₁, tr₂, hs₁, hr₁, rfl⟩ := run_cons_eq_some.mp hbefore
        obtain ⟨rfl, rfl⟩ := Prod.mk.inj (Option.some.inj (hs.symm.trans hs₁))
        exact hrest before j after m' tr₂ rfl hr₁
    · intro h
      refine ⟨h [] i is s [] rfl rfl, fun before j after m' tr₁ heq hbefore => ?_⟩
      exact h (i :: before) j after m' (es ++ tr₁) (by rw [heq]; rfl)
        (run_cons_eq_some.mpr ⟨m, es, tr₁, hs, hbefore, rfl⟩)

/-! ## Stamped effects -/

variable (step) in
/-- **The machine with its effects stamped**: each carries what `f` says of
the label of its step – the time at which it happened, say. -/
def stamp {τ : Type} (f : ι → τ) (s : σ) (i : ι) : Option (σ × List (τ × ε)) :=
  (step s i).map (fun r => (r.1, r.2.map (fun e => (f i, e))))

theorem stamp_eq_some {τ : Type} {f : ι → τ} {s s' : σ} {i : ι} {tr : List (τ × ε)} :
    stamp step f s i = some (s', tr) ↔
      ∃ es, step s i = some (s', es) ∧ tr = es.map (fun e => (f i, e)) := by
  unfold stamp
  rw [Option.map_eq_some_iff]
  constructor
  · rintro ⟨⟨s₁, es⟩, hs, heq⟩
    obtain ⟨rfl, rfl⟩ := Prod.mk.inj heq
    exact ⟨es, hs, rfl⟩
  · rintro ⟨es, hs, rfl⟩
    exact ⟨(s', es), hs, rfl⟩

/-- **Every run can be stamped.** -/
theorem exists_stamp {τ : Type} (f : ι → τ) {s s' : σ} {is : List ι} {tr : List ε}
    (h : run step s is = some (s', tr)) :
    ∃ tr', run (stamp step f) s is = some (s', tr') ∧ tr'.map Prod.snd = tr := by
  induction is generalizing s tr with
  | nil =>
    obtain ⟨rfl, rfl⟩ := Prod.mk.inj (Option.some.inj h)
    exact ⟨[], rfl, rfl⟩
  | cons i is ih =>
    obtain ⟨m, es, tr', hs, hrun, rfl⟩ := run_cons_eq_some.mp h
    obtain ⟨st, hst, rfl⟩ := ih hrun
    refine ⟨es.map (fun e => (f i, e)) ++ st, run_cons_eq_some.mpr
      ⟨m, _, st, stamp_eq_some.mpr ⟨es, hs, rfl⟩, hst, rfl⟩, ?_⟩
    rw [List.map_append, List.map_map]
    exact congrArg (· ++ _) (List.map_id es)

end Runs
