import Mathlib

/-!
# Opening and closing

A program opens resources and closes them – descriptors, say, which the
system hands out again once they are closed. What it did is a list of events,
the ledger; what it still holds is a set.

`Ledger.Holds` ties the two: of every resource, the ledger says that it was
opened and closed in turn, and then opened once more if it is held. A ledger
with which nothing is held is settled: whatever was opened has been closed,
once. The rules say how an event changes what is held. This module is a
library and names no program.
-/

namespace Ledger

/-- **An event** of a resource. -/
inductive Event (ρ : Type) where
  | opened (r : ρ)
  | closed (r : ρ)
deriving DecidableEq

variable {ρ : Type} [DecidableEq ρ]

/-- The resource an event is about. -/
def Event.resource : Event ρ → ρ
  | .opened r => r
  | .closed r => r

/-- The events of a resource, in order. -/
def about (r : ρ) (es : List (Event ρ)) : List (Event ρ) :=
  es.filter (fun e => decide (e.resource = r))

/-- **The ledger leaves these resources held.** Each was opened and closed in
turn, and the ones that are held once more opened. -/
def Holds (es : List (Event ρ)) (held : Finset ρ) : Prop :=
  ∀ r, ∃ k, about r es = (List.replicate k [Event.opened r, .closed r]).flatten
    ++ if r ∈ held then [.opened r] else []

/-- **Every resource that was opened has been closed exactly once** before it
was opened again. -/
def Settled (es : List (Event ρ)) : Prop :=
  ∀ r, ∃ k, about r es = (List.replicate k [Event.opened r, .closed r]).flatten

theorem about_snoc (r : ρ) (es : List (Event ρ)) (e : Event ρ) :
    about r (es ++ [e]) = about r es ++ if e.resource = r then [e] else [] := by
  rw [about, List.filter_append, List.filter_singleton]
  by_cases h : e.resource = r <;> simp [about, h]

theorem holds_nil : Holds ([] : List (Event ρ)) ∅ := fun _ => ⟨0, rfl⟩

/-- Opening a resource that is not held. -/
theorem Holds.opened {es : List (Event ρ)} {held : Finset ρ} (h : Holds es held) {r : ρ}
    (hr : r ∉ held) : Holds (es ++ [.opened r]) (insert r held) := by
  intro q
  obtain ⟨k, hk⟩ := h q
  refine ⟨k, ?_⟩
  rw [about_snoc, hk]
  by_cases hq : r = q
  · subst hq
    simp [Event.resource, hr]
  · simp [Event.resource, hq, Finset.mem_insert, Ne.symm hq]

/-- Closing a resource that is held. -/
theorem Holds.closed {es : List (Event ρ)} {held : Finset ρ} (h : Holds es held) {r : ρ}
    (hr : r ∈ held) : Holds (es ++ [.closed r]) (held.erase r) := by
  intro q
  obtain ⟨k, hk⟩ := h q
  by_cases hq : r = q
  · subst hq
    refine ⟨k + 1, ?_⟩
    rw [about_snoc, hk, List.replicate_succ', List.flatten_append]
    simp [Event.resource, hr]
  · refine ⟨k, ?_⟩
    rw [about_snoc, hk]
    simp [Event.resource, hq, Finset.mem_erase, Ne.symm hq]

/-- **Opening and closing again changes nothing.** -/
theorem Holds.used {es : List (Event ρ)} {held : Finset ρ} (h : Holds es held) {r : ρ}
    (hr : r ∉ held) : Holds (es ++ [.opened r, .closed r]) held := by
  have hboth := (h.opened hr).closed (Finset.mem_insert_self r held)
  rwa [Finset.erase_insert hr, List.append_assoc] at hboth

/-- The number of times a resource was opened is known from the length of its
events, so a ledger is settled exactly when nothing is held. -/
theorem Holds.settled_iff_empty {es : List (Event ρ)} {held : Finset ρ} (h : Holds es held) :
    Settled es ↔ held = ∅ := by
  constructor
  · intro hset
    refine Finset.eq_empty_of_forall_notMem (fun r hr => ?_)
    obtain ⟨k, hk⟩ := h r
    obtain ⟨j, hj⟩ := hset r
    -- an odd number of events is not an even one
    have hlen := congrArg List.length (hk.symm.trans hj)
    simp [hr] at hlen
    omega
  · rintro rfl r
    obtain ⟨k, hk⟩ := h r
    exact ⟨k, by simpa using hk⟩

end Ledger
