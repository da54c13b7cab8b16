import Mathlib

/-!
# Positions in a tree

A tree is a type with a list of children for each of its values. A node of
it is named by the way to it from the root, the index of a child at each
step. Two nodes may be equal as values and stand at two positions – so
positions are what a pointer into a tree points to, and what is counted when
nodes are.

`Position.encard_below` is the rule for counting. A number that obeys the
recursion “the children, and what is below each of them” is the number of
positions below the root. This module is a library and names no tree.
-/

/-- A position: the index of a child at each step down from the root. -/
abbrev Position := List ℕ

namespace Position

variable {α : Type} (children : α → List α)

/-- The node at a position. -/
def nodeAt : α → Position → Option α
  | a, [] => some a
  | a, i :: p => (children a)[i]?.bind (fun c => nodeAt c p)

/-- **The positions below the root.** -/
def below (a : α) : Set Position := {p | p ≠ [] ∧ (nodeAt children a p).isSome = true}

/-- The positions of a list of trees, each behind its index. -/
def forest (cs : List α) : Set Position :=
  {p | ∃ i q c, p = i :: q ∧ cs[i]? = some c ∧ (nodeAt children c q).isSome = true}

variable {children}

theorem nodeAt_cons (a : α) (i : ℕ) (p : Position) :
    nodeAt children a (i :: p) = (children a)[i]?.bind (fun c => nodeAt children c p) := rfl

/-- A way is gone in two parts. -/
theorem nodeAt_append (a : α) (p q : Position) :
    nodeAt children a (p ++ q) = (nodeAt children a p).bind (fun b => nodeAt children b q) := by
  induction p generalizing a with
  | nil => rfl
  | cons i p ih =>
    rw [List.cons_append, nodeAt_cons, nodeAt_cons, Option.bind_assoc]
    refine congrArg _ (funext fun c => ?_)
    exact ih c

/-- The last step of a way is to a child. -/
theorem nodeAt_snoc (a : α) (p : Position) (i : ℕ) :
    nodeAt children a (p ++ [i]) = (nodeAt children a p).bind (fun b => (children b)[i]?) := by
  rw [nodeAt_append]
  refine congrArg _ (funext fun b => ?_)
  rw [nodeAt_cons]
  exact Option.bind_fun_some _

/-! ## Counting -/

theorem below_eq_forest (a : α) : below children a = forest children (children a) := by
  ext p
  cases p with
  | nil =>
    refine iff_of_false (fun h => h.1 rfl) ?_
    rintro ⟨i, q, c, h, -⟩
    cases h
  | cons i q =>
    show (_ ∧ (nodeAt children a (i :: q)).isSome = true) ↔ _
    rw [nodeAt_cons, Option.isSome_bind, Option.any_eq_true]
    constructor
    · rintro ⟨-, c, hc, hq⟩
      exact ⟨i, q, c, rfl, hc, hq⟩
    · rintro ⟨i, q, c, ⟨⟩, hc, hq⟩
      exact ⟨List.cons_ne_nil _ _, c, hc, hq⟩

/-- The positions of a tree are the root and those below it. -/
theorem setOf_isSome (a : α) :
    {p | (nodeAt children a p).isSome = true} = insert [] (below children a) := by
  ext p
  by_cases hp : p = []
  · subst hp
    exact iff_of_true rfl (Set.mem_insert _ _)
  · exact ⟨fun h => Or.inr ⟨hp, h⟩, fun h => (h.resolve_left hp).2⟩

/-- The positions of a list of trees: those of the first tree, and those of the
others, whose index is one higher. -/
theorem forest_cons (c : α) (cs : List α) :
    forest children (c :: cs)
      = (0 :: ·) '' {p | (nodeAt children c p).isSome = true}
        ∪ List.modifyHead (· + 1) '' forest children cs := by
  ext p
  constructor
  · rintro ⟨i, q, d, rfl, hd, hq⟩
    cases i with
    | zero =>
      cases hd
      exact Or.inl ⟨q, hq, rfl⟩
    | succ i => exact Or.inr ⟨i :: q, ⟨i, q, d, rfl, hd, hq⟩, rfl⟩
  · rintro (⟨q, hq, rfl⟩ | ⟨_, ⟨i, q, d, rfl, hd, hq⟩, rfl⟩)
    · exact ⟨0, q, c, rfl, rfl, hq⟩
    · exact ⟨i + 1, q, d, rfl, hd, hq⟩

/-- The two parts have no position in common. -/
theorem disjoint_forest (s : Set Position) (cs : List α) :
    Disjoint ((0 :: ·) '' s) (List.modifyHead (· + 1) '' forest children cs) := by
  rw [Set.disjoint_left]
  rintro _ ⟨q, -, rfl⟩ ⟨_, ⟨i, q', c, rfl, -⟩, h⟩
  cases h

theorem modifyHead_injective :
    Function.Injective (List.modifyHead (· + 1) : Position → Position) := by
  intro p q h
  cases p with
  | nil =>
    cases q with
    | nil => rfl
    | cons j q => cases h
  | cons i p =>
    cases q with
    | nil => cases h
    | cons j q =>
      have h' : (i + 1) :: p = (j + 1) :: q := h
      rw [List.cons.injEq, Nat.add_right_cancel_iff] at h'
      rw [h'.1, h'.2]

/-- The number of positions of a list of trees. -/
theorem encard_forest {size : α → ℕ} {cs : List α}
    (h : ∀ c ∈ cs, (below children c).encard = size c) :
    (forest children cs).encard = ((cs.map (fun c => size c + 1)).sum : ℕ) := by
  induction cs with
  | nil =>
    have hempty : forest children [] = ∅ := by
      ext p
      refine iff_of_false ?_ (Set.notMem_empty p)
      rintro ⟨i, q, c, -, hc, -⟩
      cases hc
    rw [hempty, Set.encard_empty]
    rfl
  | cons c cs ih =>
    have hroot : [] ∉ below children c := fun hmem => hmem.1 rfl
    have hfirst : ((0 :: ·) '' {p | (nodeAt children c p).isSome = true}).encard
        = (size c + 1 : ℕ) := by
      rw [Function.Injective.encard_image List.cons_injective, setOf_isSome,
        Set.encard_insert_of_notMem hroot, h c List.mem_cons_self]
      rfl
    rw [forest_cons, Set.encard_union_eq (disjoint_forest _ _), hfirst,
      modifyHead_injective.encard_image, ih (fun d hd => h d (List.mem_cons_of_mem c hd)),
      List.map_cons, List.sum_cons]
    rfl

/-- **Counting by recursion.** What obeys the recursion is the number of
positions below the root. -/
theorem encard_below {size : α → ℕ}
    (hsize : ∀ a, size a = ((children a).map (fun c => size c + 1)).sum) (a : α) :
    (below children a).encard = size a := by
  induction hn : size a using Nat.strongRecOn generalizing a with
  | ind n ih =>
    have hchild : ∀ c ∈ children a, (below children c).encard = size c := by
      intro c hc
      have hle : size c + 1 ≤ size a := by
        rw [hsize a]
        exact List.single_le_sum (fun _ _ => Nat.zero_le _) _
          (List.mem_map_of_mem (f := fun c => size c + 1) hc)
      exact ih (size c) (by omega) c rfl
    rw [below_eq_forest, encard_forest hchild, ← hsize a, hn]

/-- The number of positions below the root. -/
theorem ncard_below {size : α → ℕ}
    (hsize : ∀ a, size a = ((children a).map (fun c => size c + 1)).sum) (a : α) :
    (below children a).ncard = size a := by
  rw [Set.ncard_def, encard_below hsize]
  rfl

end Position
