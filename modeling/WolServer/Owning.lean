import Mathlib

/-!
# Owning memory

A program gets blocks of memory and frees them again. Any of its requests may
be refused, and nothing else frees what it forgets. A `Store` is the memory
it does this in: the blocks that are live, whether one was freed that was not,
and which of the requests to come are granted. A block has a number of its
own, also after it was freed, so a block that is freed twice is a fault.

`Owns A x post` is what is to be known of a program `x`: it starts with the
blocks `A`, whatever else is live, and ends with blocks that `post` says, with
everything else as it was. The rules follow the program, and `Owns.frame` lets
a part of it be seen by itself. This module is a library and names no program.
-/

namespace Owning

/-- **The memory** of a program. -/
structure Store where
  /-- Whether each of the requests to come is granted. -/
  outcomes : ℕ → Bool
  /-- The number of the next block. -/
  next : ℕ
  /-- The blocks that are live. -/
  live : Multiset ℕ
  /-- A block was freed that was not live, or something that must be so was
  not. -/
  fault : Bool
  /-- A request was refused. -/
  refused : Bool
  /-- No block is live twice. -/
  distinct : live.Nodup
  /-- The next block is a new one. -/
  below : ∀ b ∈ live, b < next

namespace Store

/-- Nothing is live, and the requests have these outcomes. -/
def empty (outcomes : ℕ → Bool) : Store where
  outcomes := outcomes
  next := 0
  live := 0
  fault := false
  refused := false
  distinct := Multiset.nodup_zero
  below := fun _ h => absurd h (Multiset.notMem_zero _)

/-- No request will be refused. -/
def Plenty (s : Store) : Prop := ∀ n, s.outcomes n = true

end Store

/-- A request for a block. -/
def malloc : StateM Store (Option ℕ) := fun s =>
  if s.outcomes 0 = true then
    (some s.next,
      { s with
        outcomes := fun n => s.outcomes (n + 1)
        next := s.next + 1
        live := s.next ::ₘ s.live
        distinct := Multiset.nodup_cons.mpr
          ⟨fun h => absurd (s.below s.next h) (Nat.lt_irrefl _), s.distinct⟩
        below := fun b hb => (Multiset.mem_cons.mp hb).elim (fun h => h ▸ Nat.lt_succ_self _)
          (fun h => Nat.lt_succ_of_lt (s.below b h)) })
  else (none, { s with outcomes := fun n => s.outcomes (n + 1), refused := true })

/-- A block is given back. -/
def free (b : ℕ) : StateM Store Unit := fun s =>
  ((), if b ∈ s.live then
      { s with
        live := s.live.erase b
        distinct := s.distinct.erase b
        below := fun c hc => s.below c (Multiset.mem_of_mem_erase hc) }
    else { s with fault := true })

/-- A block is read or written, which must be live. -/
def touch (b : ℕ) : StateM Store Unit := fun s =>
  ((), if b ∈ s.live then s else { s with fault := true })

/-- Something that must be so. -/
def require (c : Prop) [Decidable c] : StateM Store Unit := fun s =>
  ((), if c then s else { s with fault := true })

/-- **What a run leaves**: the blocks `L` beside those it has nothing to do
with, and whether a request was refused. -/
structure Leaves (F : Multiset ℕ) (s s' : Store) (e : Bool) (L : Multiset ℕ) : Prop where
  live : s'.live = L + F
  fault : s'.fault = s.fault
  refused : s'.refused = (s.refused || e)
  plenty : s.Plenty → e = false ∧ s'.Plenty

/-- **A program that owns blocks.** It starts with the blocks `A`, whatever
else is live. It frees nothing that is not its own, and what it returns,
whether a request was refused and the blocks it leaves are as `post` says. -/
def Owns {α : Type} (A : Multiset ℕ) (x : StateM Store α)
    (post : α → Bool → Multiset ℕ → Prop) : Prop :=
  ∀ F s, s.live = A + F →
    ∃ e L, Leaves F s (x s).2 e L ∧ post (x s).1 e L

namespace Owns

variable {α β : Type} {A B C : Multiset ℕ} {x : StateM Store α}
  {post post' : α → Bool → Multiset ℕ → Prop}

/-- What is known may be weakened. -/
theorem weaken (h : Owns A x post) (hpost : ∀ a e L, post a e L → post' a e L) :
    Owns A x post' := by
  intro F s hs
  obtain ⟨e, L, hleaves, ha⟩ := h F s hs
  exact ⟨e, L, hleaves, hpost _ e L ha⟩

/-- **The frame**: more blocks change nothing. -/
theorem frame (h : Owns B x post) (hA : A = B + C)
    (hpost : ∀ a e L, post a e L → post' a e (L + C)) : Owns A x post' := by
  intro F s hs
  obtain ⟨e, L, hleaves, ha⟩ := h (C + F) s (by rw [hs, hA, add_assoc])
  exact ⟨e, L + C, ⟨by rw [hleaves.live, add_assoc], hleaves.fault, hleaves.refused,
    hleaves.plenty⟩, hpost _ e L ha⟩

theorem pure {a : α} (h : post a false A) : Owns A (pure a) post :=
  fun _ s hs => ⟨false, A, ⟨hs, rfl, (Bool.or_false s.refused).symm, fun hp => ⟨rfl, hp⟩⟩, h⟩

/-- **One program after another**: what is known of the first is that the
second can follow. -/
theorem bind {f : α → StateM Store β} {post : β → Bool → Multiset ℕ → Prop}
    (h : Owns A x (fun a e L => Owns L (f a) (fun b e' => post b (e || e')))) :
    Owns A (x >>= f) post := by
  intro F s hs
  obtain ⟨e, L, hleaves, ha⟩ := h F s hs
  obtain ⟨e', M, hleaves', hb⟩ := ha F (x s).2 hleaves.live
  refine ⟨e || e', M, ⟨hleaves'.live, hleaves'.fault.trans hleaves.fault, ?_, ?_⟩, hb⟩
  · rw [show ((x >>= f) s).2 = (f (x s).1 (x s).2).2 from rfl, hleaves'.refused, hleaves.refused,
      Bool.or_assoc]
  · intro hp
    obtain ⟨he, hp'⟩ := hleaves.plenty hp
    obtain ⟨he', hp''⟩ := hleaves'.plenty hp'
    exact ⟨by rw [he, he', Bool.false_or], hp''⟩

/-- A request is refused, or there is one more block. -/
theorem malloc {post : Option ℕ → Bool → Multiset ℕ → Prop}
    (hsome : ∀ b, post (some b) false ({b} + A)) (hnone : post none true A) :
    Owns A malloc post := by
  intro F s hs
  by_cases h : s.outcomes 0 = true
  · rw [show Owning.malloc s = _ from if_pos h]
    refine ⟨false, {s.next} + A, ⟨?_, rfl, (Bool.or_false _).symm, ?_⟩, hsome s.next⟩
    · rw [add_assoc, ← hs, Multiset.singleton_add]
    · exact fun hp => ⟨rfl, fun n => hp (n + 1)⟩
  · rw [show Owning.malloc s = _ from if_neg h]
    exact ⟨true, A, ⟨hs, rfl, (Bool.or_true _).symm, fun hp => absurd (hp 0) h⟩, hnone⟩

/-- A block of its own is given back. -/
theorem free {b : ℕ} {post : Unit → Bool → Multiset ℕ → Prop} (hA : A = {b} + B)
    (h : post () false B) : Owns A (free b) post := by
  intro F s hs
  have hcons : s.live = b ::ₘ (B + F) := by rw [hs, hA, add_assoc, Multiset.singleton_add]
  have hb : b ∈ s.live := by
    rw [hcons]
    exact Multiset.mem_cons_self b _
  have herase : s.live.erase b = B + F := by rw [hcons, Multiset.erase_cons_head]
  rw [show Owning.free b s = _ from congrArg (Prod.mk ()) (if_pos hb)]
  exact ⟨false, B, ⟨herase, rfl, (Bool.or_false _).symm, fun hp => ⟨rfl, hp⟩⟩, h⟩

/-- A block of its own is read or written. -/
theorem touch {b : ℕ} {post : Unit → Bool → Multiset ℕ → Prop} (hA : A = {b} + B)
    (h : post () false A) : Owns A (touch b) post := by
  intro F s hs
  have hb : b ∈ s.live := by
    rw [hs, hA, add_assoc, Multiset.singleton_add]
    exact Multiset.mem_cons_self b _
  rw [show Owning.touch b s = _ from congrArg (Prod.mk ()) (if_pos hb)]
  exact ⟨false, A, ⟨hs, rfl, (Bool.or_false s.refused).symm, fun hp => ⟨rfl, hp⟩⟩, h⟩

/-- What must be so is so. -/
theorem require {c : Prop} [Decidable c] {post : Unit → Bool → Multiset ℕ → Prop} (hc : c)
    (h : post () false A) : Owns A (require c) post := by
  rw [show Owning.require c = Pure.pure () from funext fun s => congrArg (Prod.mk ()) (if_pos hc)]
  exact .pure h

/-- What is freed unless a flag is set. -/
theorem unlessFlag {flag : Bool} {x : StateM Store Unit}
    {post : Unit → Bool → Multiset ℕ → Prop} (hA : A = (if flag = true then 0 else C) + B)
    (hx : post () false B → Owns (C + B) x post) (h : post () false B) :
    Owns A (if flag = true then Pure.pure () else x) post := by
  rw [hA]
  split
  · rw [zero_add]
    exact .pure h
  · exact hx h

/-- The program takes the branch that what is said of it takes. -/
theorem ite {ρ : Type} {R : ρ → α → Bool → Multiset ℕ → Prop} {c : Prop} [Decidable c] {y : ρ}
    {x' : StateM Store α} {z : ρ} (h : c → Owns A x (R y)) (h' : ¬c → Owns A x' (R z)) :
    Owns A (if c then x else x') (R (if c then y else z)) := by
  by_cases hc : c
  · rw [if_pos hc, if_pos hc]
    exact h hc
  · rw [if_neg hc, if_neg hc]
    exact h' hc

/-- **A run from a store that holds what the program starts with.** -/
theorem run (h : Owns A x post) {s : Store} (hs : s.live = A) (hfault : s.fault = false) :
    ∃ refused, (x s).2.fault = false ∧ (x s).2.refused = (s.refused || refused)
      ∧ (s.Plenty → refused = false) ∧ post (x s).1 refused (x s).2.live := by
  obtain ⟨e, L, hleaves, ha⟩ := h 0 s (by rw [hs, add_zero])
  have hL : (x s).2.live = L := by rw [hleaves.live, add_zero]
  exact ⟨e, hleaves.fault.trans hfault, hleaves.refused, fun hp => (hleaves.plenty hp).1,
    by rwa [hL]⟩

end Owns

end Owning
