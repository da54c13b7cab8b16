import Mathlib

/-!
# Filling an output from the front of a list

A loop reads the items of a list one after the other into an output, and
breaks at the first item it cannot read (`Filling.loop`). By then it has
written the ones before. `Filling.fill` is what such a loop comes to, whatever
it reads: the items at the front that are of the right kind, as many as were
asked for at most, are in the output, and the loop has succeeded if there are
that many (`Filling.loop_eq_fill`).

To be atomic is to write nothing without success. `Filling.atomic_fill_iff`
says when filling is: all the items are there, or what stands in front of the
first bad one stands in the output already. This module is a library and names
no program.
-/

namespace Filling

variable {α β : Type} (is : β → Bool) (read : β → α → α) (n : ℕ) (cs : List β) (value : ℕ → α)

/-- The items at the front that are of the kind, no more than `n`. -/
def front : List β := (cs.take n).takeWhile is

/-- The output, with what is at the front read into it. -/
def output : ℕ → α := fun i =>
  match (front is n cs)[i]? with
  | none => value i
  | some c => read c (value i)

/-- **What a loop that reads the front comes to**: whether there were `n` items
of the kind, and the output afterwards. -/
def fill : Bool × (ℕ → α) :=
  (decide ((front is n cs).length = n), output is read n cs value)

/-- **A loop that reads items**, from its `i`: the `i` it ends with, and the
output. -/
def loop : ℕ → List β → (ℕ → α) → ℕ × (ℕ → α)
  | i, [], value => (i, value)
  | i, c :: cs, value =>
    if n > i then
      if is c = true then loop (i + 1) cs (Function.update value i (read c (value i)))
      else (i, value)
    else (i, value)

/-- The first `n` items are there, and all of them are of the kind. -/
def AllFirst : Prop := n ≤ cs.length ∧ ∀ c ∈ cs.take n, is c = true

/-- **All or nothing**: success exactly if the first `n` items are there and of
the kind, the output is read from them then, and else it is as it was. -/
structure Atomic (r : Bool × (ℕ → α)) : Prop where
  true_iff : r.1 = true ↔ AllFirst is n cs
  read_eq : r.1 = true → ∀ i c, i < n → cs[i]? = some c → r.2 i = read c (value i)
  unchanged : r.1 = false → r.2 = value

/-- What is read from the front stands in the output already. -/
def Stands : Prop := ∀ i c, (front is n cs)[i]? = some c → read c (value i) = value i

variable {is read n cs value}

theorem front_nil : front is n [] = [] := by rw [front, List.take_nil, List.takeWhile_nil]

theorem front_zero : front is 0 cs = [] := by rw [front, List.take_zero, List.takeWhile_nil]

theorem front_cons_of_pos {c : β} (h : is c = true) :
    front is (n + 1) (c :: cs) = c :: front is n cs := by
  rw [front, List.take_succ_cons, List.takeWhile_cons_of_pos h]
  rfl

theorem front_cons_of_neg {c : β} (h : ¬ is c = true) : front is (n + 1) (c :: cs) = [] := by
  rw [front, List.take_succ_cons, List.takeWhile_cons_of_neg h]

/-- Nothing is written when nothing is at the front. -/
theorem output_of_nil (h : front is n cs = []) : output is read n cs value = value := by
  funext i
  rw [output, h]
  rfl

/-- The first item is read into the first place. -/
theorem output_cons_zero {c : β} (h : is c = true) :
    output is read (n + 1) (c :: cs) value 0 = read c (value 0) := by
  rw [output, front_cons_of_pos h]
  rfl

/-- The others are read into the places behind it. -/
theorem output_cons_succ {c : β} (h : is c = true) (i : ℕ) :
    output is read (n + 1) (c :: cs) value (i + 1)
      = output is read n cs (fun j => value (j + 1)) i := by
  rw [output, front_cons_of_pos h, List.getElem?_cons_succ]
  rfl

/-! ## The loop fills -/

/-- What a loop that starts at `i` has done when it ends: it has left what is
before `i`, and filled what is behind. -/
structure FillsFrom (is : β → Bool) (read : β → α → α) (m i : ℕ) (cs : List β) (value : ℕ → α)
    (r : ℕ × (ℕ → α)) : Prop where
  stop : r.1 = i + (front is m cs).length
  before : ∀ j < i, r.2 j = value j
  behind : ∀ d, r.2 (i + d) = output is read m cs (fun d => value (i + d)) d

/-- A loop that breaks at once has nothing to fill. -/
theorem fillsFrom_of_nil (h : front is n cs = []) (i : ℕ) (value : ℕ → α) :
    FillsFrom is read n i cs value (i, value) where
  stop := by
    rw [h]
    rfl
  before _ _ := rfl
  behind _ := by rw [output_of_nil h]

/-- An item is read, and the rest of the list fills what is behind it. -/
theorem FillsFrom.cons {i : ℕ} {c : β} {r : ℕ × (ℕ → α)} (hc : is c = true)
    (h : FillsFrom is read n (i + 1) cs (Function.update value i (read c (value i))) r) :
    FillsFrom is read (n + 1) i (c :: cs) value r where
  stop := by
    rw [h.stop, front_cons_of_pos hc, List.length_cons]
    omega
  before j hj := by rw [h.before j (Nat.lt_succ_of_lt hj), Function.update_of_ne hj.ne]
  behind d := by
    cases d with
    | zero =>
      rw [output_cons_zero hc]
      show r.2 i = read c (value i)
      rw [h.before i (Nat.lt_succ_self i), Function.update_self]
    | succ d =>
      rw [show i + (d + 1) = i + 1 + d by omega, h.behind d, output_cons_succ hc]
      refine congrFun (congrArg _ (funext fun e => ?_)) d
      rw [Function.update_of_ne (by omega), show i + 1 + e = i + (e + 1) by omega]

/-- The loop fills, by induction on the list. -/
theorem loop_fills (is : β → Bool) (read : β → α → α) (m i : ℕ) (cs : List β) (value : ℕ → α) :
    FillsFrom is read m i cs value (loop is read (i + m) i cs value) := by
  induction cs generalizing i m value with
  | nil => exact fillsFrom_of_nil front_nil i value
  | cons c cs ih =>
    rw [loop]
    cases m with
    | zero =>
      rw [if_neg (show ¬ i + 0 > i by omega)]
      exact fillsFrom_of_nil front_zero i value
    | succ m =>
      rw [if_pos (show i + (m + 1) > i by omega)]
      by_cases hc : is c = true
      · rw [if_pos hc, show i + (m + 1) = i + 1 + m by omega]
        exact (ih m (i + 1) _).cons hc
      · rw [if_neg hc]
        exact fillsFrom_of_nil (front_cons_of_neg hc) i value

/-- No more is read than was asked for. -/
theorem loop_le (is : β → Bool) (read : β → α → α) (n : ℕ) (cs : List β) (value : ℕ → α) :
    (loop is read n 0 cs value).1 ≤ n := by
  have hstop := (loop_fills is read n 0 cs value).stop
  rw [Nat.zero_add, Nat.zero_add] at hstop
  rw [hstop]
  refine (List.takeWhile_prefix is).length_le.trans ?_
  exact List.length_take_le _ _

/-- **The loop comes to filling.** -/
theorem loop_eq_fill (is : β → Bool) (read : β → α → α) (n : ℕ) (cs : List β) (value : ℕ → α) :
    (decide ((loop is read n 0 cs value).1 = n), (loop is read n 0 cs value).2)
      = fill is read n cs value := by
  obtain ⟨hend, -, hfilled⟩ := loop_fills is read n 0 cs value
  simp only [Nat.zero_add] at hend hfilled
  refine Prod.ext ?_ (funext hfilled)
  rw [hend]
  rfl

/-! ## All or nothing -/

/-- There are `n` items at the front exactly when the first `n` are of the
kind. -/
theorem length_front_iff : (front is n cs).length = n ↔ AllFirst is n cs := by
  have hle : (front is n cs).length ≤ (cs.take n).length :=
    (List.takeWhile_prefix is).length_le
  rw [List.length_take] at hle
  constructor
  · intro h
    have hall : front is n cs = cs.take n := by
      refine (List.takeWhile_prefix is).eq_of_length ?_
      show (front is n cs).length = _
      rw [List.length_take]
      omega
    exact ⟨by omega, List.takeWhile_eq_self_iff.mp hall⟩
  · rintro ⟨hlen, hall⟩
    rw [front, List.takeWhile_eq_self_iff.mpr hall, List.length_take]
    omega

/-- All the items are at the front then. -/
theorem front_eq (h : AllFirst is n cs) : front is n cs = cs.take n :=
  List.takeWhile_eq_self_iff.mpr h.2

/-- Of no items, the first ones are not there. -/
theorem not_allFirst_nil (hn : 0 < n) : ¬ AllFirst is n [] := by
  rintro ⟨hlen, -⟩
  exact absurd hlen (Nat.not_le.mpr hn)

/-- Of no items, nothing has to stand in the output. -/
theorem stands_nil : Stands is read n [] value := by
  intro i c hc
  rw [front_nil] at hc
  cases hc

/-- To fail at once is all or nothing when the items are not there. -/
theorem atomic_refused_iff : Atomic is read n cs value (false, value) ↔ ¬ AllFirst is n cs := by
  constructor
  · intro h hall
    exact Bool.false_ne_true (h.true_iff.mpr hall)
  · intro h
    refine ⟨iff_of_false Bool.false_ne_true h, fun htrue => ?_, fun _ => rfl⟩
    exact absurd htrue Bool.false_ne_true

/-- **Filling is all or nothing exactly when all the items are there, or those
at the front stand in the output already.** -/
theorem atomic_fill_iff :
    Atomic is read n cs value (fill is read n cs value)
      ↔ AllFirst is n cs ∨ Stands is read n cs value := by
  have hiff : (fill is read n cs value).1 = true ↔ AllFirst is n cs := by
    rw [← length_front_iff]
    exact decide_eq_true_iff
  by_cases hall : AllFirst is n cs
  · refine iff_of_true ⟨hiff, fun _ i c hi hc => ?_, fun hfalse => ?_⟩ (Or.inl hall)
    · show output is read n cs value i = _
      rw [output, front_eq hall, List.getElem?_take_of_lt hi, hc]
    · rw [hiff.mpr hall] at hfalse
      cases hfalse
  · have hfalse : (fill is read n cs value).1 = false :=
      Bool.eq_false_of_not_eq_true (fun h => hall (hiff.mp h))
    rw [or_iff_right hall]
    constructor
    · intro h i c hc
      have hi : output is read n cs value i = value i := congrFun (h.unchanged hfalse) i
      rw [output, hc] at hi
      exact hi
    · intro h
      refine ⟨hiff, fun htrue => absurd (hiff.mp htrue) hall, fun _ => ?_⟩
      funext i
      show output is read n cs value i = value i
      rw [output]
      split
      · rfl
      · rename_i c hc
        exact h i c hc

end Filling
