import Mathlib.Data.List.Basic

/-!
# Messages in lanes

Messages in flight are kept in one list, and each belongs to a lane. A message
is delivered when it is the first of its lane, whatever is before it in
others; what is sent is put behind everything. So in each lane what was sent
is what was delivered, in this order, and what is in flight
(`Lanes.Run.conserved`).

Nothing here is about messages or programs in particular: a system is any
relation with labels, each of which says what was delivered and what was sent.
-/

namespace Lanes

variable {σ M P L : Type} [DecidableEq L]

/-- **The message is next in its lane.** -/
def Front (lane : P → L) (flight : List P) (p : P) (rest : List P) : Prop :=
  ∃ before after, flight = before ++ p :: after ∧ rest = before ++ after
    ∧ ∀ q ∈ before, lane q ≠ lane p

/-- The messages of a lane. -/
def inLane (lane : P → L) (l : L) (ps : List P) : List P := ps.filter (fun p => lane p = l)

@[simp] theorem inLane_nil (lane : P → L) (l : L) : inLane lane l [] = [] := rfl

@[simp] theorem inLane_append (lane : P → L) (l : L) (ps qs : List P) :
    inLane lane l (ps ++ qs) = inLane lane l ps ++ inLane lane l qs := List.filter_append ..

theorem mem_inLane {lane : P → L} {l : L} {ps : List P} {p : P} :
    p ∈ inLane lane l ps ↔ p ∈ ps ∧ lane p = l := by
  rw [inLane, List.mem_filter, decide_eq_true_iff]

/-- Messages of other lanes are none of this one. -/
theorem inLane_eq_nil {lane : P → L} {l : L} {ps : List P} (h : ∀ p ∈ ps, lane p ≠ l) :
    inLane lane l ps = [] :=
  List.filter_eq_nil_iff.mpr (fun p hp hl => h p hp (of_decide_eq_true hl))

/-- **A message that is next comes before what is left of its lane**, and the
other lanes do not change. -/
theorem inLane_front {lane : P → L} {flight rest : List P} {p : P}
    (h : Front lane flight p rest) (l : L) :
    inLane lane l flight = inLane lane l [p] ++ inLane lane l rest := by
  obtain ⟨before, after, rfl, rfl, hbefore⟩ := h
  rw [← List.singleton_append, inLane_append, inLane_append, inLane_append]
  by_cases hl : lane p = l
  · rw [inLane_eq_nil (fun q hq => hl ▸ hbefore q hq), List.nil_append, List.nil_append]
  · have hp : inLane lane l [p] = [] :=
      inLane_eq_nil (fun q hq => List.mem_singleton.mp hq ▸ hl)
    rw [hp, List.nil_append, List.nil_append]

/-- **A run of a system**, with its labels. -/
inductive Run (step : σ → M → σ → Prop) (s₀ : σ) : List M → σ → Prop
  | nil : Run step s₀ [] s₀
  | snoc {tr : List M} {s s' : σ} {m : M} (h : Run step s₀ tr s) (hstep : step s m s') :
      Run step s₀ (tr ++ [m]) s'

variable {step : σ → M → σ → Prop} {s₀ s : σ} {tr : List M}

/-- What every step keeps, a run keeps. -/
theorem Run.invariant (Inv : List M → σ → Prop) (h : Run step s₀ tr s) (h₀ : Inv [] s₀)
    (hstep : ∀ {tr s m s'}, Run step s₀ tr s → Inv tr s → step s m s' → Inv (tr ++ [m]) s') :
    Inv tr s := by
  induction h with
  | nil => exact h₀
  | snoc hrun hs ih => exact hstep hrun ih hs

/-- What every step with a label of a kind keeps, a run of such steps keeps. -/
theorem Run.invariant_of (ok : M → Prop) (Inv : σ → Prop) (h : Run step s₀ tr s)
    (hok : ∀ m ∈ tr, ok m) (h₀ : Inv s₀)
    (hstep : ∀ {tr s m s'}, Run step s₀ tr s → ok m → Inv s → step s m s' → Inv s') : Inv s := by
  induction h with
  | nil => exact h₀
  | snoc hrun hs ih =>
    have ih := ih (fun m hm => hok m (List.mem_append_left _ hm))
    exact hstep hrun (hok _ (List.mem_append_right _ (List.mem_singleton_self _))) ih hs

/-- **In each lane, what was there and what was sent is what was delivered, and
what is in flight**, if it is so for each step that was taken. -/
theorem Run.conserved {lane : P → L} {l : L} {flight : σ → List P} {taken added : M → List P}
    (h : Run step s₀ tr s)
    (hstep : ∀ m ∈ tr, ∀ {s s'}, step s m s' →
      inLane lane l (flight s) ++ inLane lane l (added m)
        = inLane lane l (taken m) ++ inLane lane l (flight s')) :
    inLane lane l (flight s₀) ++ inLane lane l (tr.flatMap added)
      = inLane lane l (tr.flatMap taken) ++ inLane lane l (flight s) := by
  induction h with
  | nil => simp
  | snoc hrun hs ih =>
    have ih := ih (fun m hm => hstep m (List.mem_append_left _ hm))
    have hlast := hstep _ (List.mem_append_right _ (List.mem_singleton_self _)) hs
    simp only [List.flatMap_append, List.flatMap_singleton, inLane_append]
    rw [← List.append_assoc, ih, List.append_assoc, List.append_assoc, hlast]

end Lanes
