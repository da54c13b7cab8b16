import Mathlib

/-!
# Doubly linked chains

A node points to the first of its children, and each child to the one before
it and the one after it. `Links` is these three pointers, and
`Chains.Chained h f` says that they spell lists: the children of `a` are
`f a`, no node is a child twice, and a node that is nobody's child points
nowhere.

A part of a chain is `Chains.Seg`, which says what its ends point to, so that
a chain falls into parts wherever one likes (`Chains.seg_append`) and a change
at an end is a change of one pointer (`Chains.Seg.setNext`,
`Chains.Seg.setPrev`). `Chains.Chained.update` is how an operation on the list
of one node is shown to keep all of them. This module is a library and names no
program.
-/

/-- The pointers between nodes. -/
structure Links (α : Type) where
  /-- The first child. -/
  child : α → Option α
  /-- The next child of the same node. -/
  next : α → Option α
  /-- The previous child of the same node. -/
  prev : α → Option α

variable {α : Type}

namespace Links

/-- `while (c && n > 0) c = c->next, n--`. -/
def walk (h : Links α) : ℕ → Option α → Option α
  | 0, c => c
  | _ + 1, none => none
  | n + 1, some c => h.walk n (h.next c)

/-- `while (c->next) c = c->next`, for a number of nodes. -/
def last (h : Links α) : ℕ → α → α
  | 0, c => c
  | n + 1, c => (h.next c).elim c (h.last n)

end Links

namespace Chains

/-- **A part of a chain**, between the nodes `p` and `q`, if there are such
nodes. -/
def Seg (h : Links α) : Option α → List α → Option α → Prop
  | _, [], _ => True
  | p, x :: xs, q => h.prev x = p ∧ h.next x = xs.head?.or q ∧ Seg h (some x) xs q

variable {h h' : Links α} {p q : Option α} {xs ys : List α}

/-- **Two parts, and what is between them.** -/
theorem seg_append : Seg h p (xs ++ ys) q
    ↔ Seg h p xs (ys.head?.or q) ∧ Seg h (xs.getLast?.or p) ys q := by
  induction xs generalizing p with
  | nil => simp [Seg]
  | cons x xs ih =>
    rw [List.cons_append, Seg, Seg, ih, and_assoc, and_assoc]
    have hhead : (xs ++ ys).head?.or q = xs.head?.or (ys.head?.or q) := by
      cases xs <;> simp
    have hlast : (x :: xs).getLast?.or p = xs.getLast?.or (some x) := by
      cases xs with
      | nil => rfl
      | cons y ys => rw [List.getLast?_cons_cons, List.getLast?_cons]; rfl
    rw [hhead, hlast]

/-- A part of a chain reads the pointers of its nodes only. -/
theorem Seg.congr (hs : Seg h p xs q)
    (hsame : ∀ x ∈ xs, h'.next x = h.next x ∧ h'.prev x = h.prev x) : Seg h' p xs q := by
  induction xs generalizing p with
  | nil => trivial
  | cons x xs ih =>
    obtain ⟨hprev, hnext, hs⟩ := hs
    have hx := hsame x List.mem_cons_self
    exact ⟨hx.2.trans hprev, hx.1.trans hnext,
      ih hs (fun y hy => hsame y (List.mem_cons_of_mem x hy))⟩

/-- The walk along a chain comes to the node of that index. -/
theorem Seg.walk (hs : Seg h p xs none) (n : ℕ) : h.walk n xs.head? = xs[n]? := by
  induction n generalizing p xs with
  | zero => cases xs <;> rfl
  | succ n ih =>
    cases xs with
    | nil => rfl
    | cons x xs =>
      obtain ⟨-, hnext, hs⟩ := hs
      rw [List.head?_cons, Links.walk, hnext, Option.or_none, ih hs, List.getElem?_cons_succ]

/-- The walk to the end of a chain comes to its last node. -/
theorem Seg.last {x : α} (hs : Seg h p (x :: xs) none) {n : ℕ} (hn : xs.length ≤ n) :
    (x :: xs).getLast? = some (h.last n x) := by
  induction n generalizing p x xs with
  | zero =>
    obtain rfl := List.length_eq_zero_iff.mp (Nat.le_zero.mp hn)
    rfl
  | succ n ih =>
    obtain ⟨-, hnext, hs⟩ := hs
    rw [Option.or_none] at hnext
    rw [Links.last, hnext]
    cases xs with
    | nil => rfl
    | cons y ys =>
      rw [List.getLast?_cons_cons]
      exact ih hs (Nat.le_of_succ_le_succ hn)

/-- **The pointers spell lists**: the children of `a` are `f a`. -/
structure Chained (h : Links α) (f : α → List α) : Prop where
  /-- A node points to its first child. -/
  first : ∀ a, h.child a = (f a).head?
  /-- The children point to each other. -/
  seg : ∀ a, Seg h none (f a) none
  /-- No node is a child twice, -/
  nodup : ∀ a, (f a).Nodup
  /-- nor of two nodes. -/
  apart : ∀ {a b x}, x ∈ f a → x ∈ f b → a = b
  /-- What is nobody's child points nowhere. -/
  loose : ∀ x, (∀ a, x ∉ f a) → h.next x = none ∧ h.prev x = none

/-- What a child points to. -/
theorem Chained.links {h : Links α} {f : α → List α} (hc : Chained h f) {a x : α}
    {l r : List α} (ha : f a = l ++ x :: r) : h.next x = r.head? ∧ h.prev x = l.getLast? := by
  have hseg := hc.seg a
  rw [ha] at hseg
  obtain ⟨-, hprev, hnext, -⟩ := seg_append.mp hseg
  rw [Option.or_none] at hprev hnext
  exact ⟨hnext, hprev⟩

/-- **The lists determine the pointers.** -/
theorem Chained.unique {h h' : Links α} {f : α → List α} (hc : Chained h f)
    (hc' : Chained h' f) : h = h' := by
  have hlinks : ∀ x, h.next x = h'.next x ∧ h.prev x = h'.prev x := fun x => by
    by_cases hx : ∃ a, x ∈ f a
    · obtain ⟨a, ha⟩ := hx
      obtain ⟨l, r, ha⟩ := List.append_of_mem ha
      rw [(hc.links ha).1, (hc.links ha).2, (hc'.links ha).1, (hc'.links ha).2]
      exact ⟨rfl, rfl⟩
    · have hx : ∀ a, x ∉ f a := fun a ha => hx ⟨a, ha⟩
      rw [(hc.loose x hx).1, (hc.loose x hx).2, (hc'.loose x hx).1, (hc'.loose x hx).2]
      exact ⟨rfl, rfl⟩
  cases h
  cases h'
  congr 1
  · exact funext (fun a => (hc.first a).trans (hc'.first a).symm)
  · exact funext (fun x => (hlinks x).1)
  · exact funext (fun x => (hlinks x).2)

end Chains

/-! ## Changing a pointer -/

namespace Links

variable [DecidableEq α]

/-- `a->child = v`. -/
def setChild (h : Links α) (a : α) (v : Option α) : Links α :=
  { h with child := Function.update h.child a v }

/-- `x->next = v`. -/
def setNext (h : Links α) (x : α) (v : Option α) : Links α :=
  { h with next := Function.update h.next x v }

/-- `x->prev = v`. -/
def setPrev (h : Links α) (x : α) (v : Option α) : Links α :=
  { h with prev := Function.update h.prev x v }

/-- `if (x) x->next = v`. -/
def setNextOf (h : Links α) (x v : Option α) : Links α := x.elim h (h.setNext · v)

/-- `if (x) x->prev = v`. -/
def setPrevOf (h : Links α) (x v : Option α) : Links α := x.elim h (h.setPrev · v)

variable (h : Links α) (a x y : α) (o v : Option α)

@[simp] theorem setChild_child : (h.setChild a v).child = Function.update h.child a v := rfl
@[simp] theorem setChild_next : (h.setChild a v).next = h.next := rfl
@[simp] theorem setChild_prev : (h.setChild a v).prev = h.prev := rfl
@[simp] theorem setNext_child : (h.setNext x v).child = h.child := rfl
@[simp] theorem setNext_prev : (h.setNext x v).prev = h.prev := rfl
@[simp] theorem setPrev_child : (h.setPrev x v).child = h.child := rfl
@[simp] theorem setPrev_next : (h.setPrev x v).next = h.next := rfl
@[simp] theorem setNextOf_child : (h.setNextOf o v).child = h.child := by cases o <;> rfl
@[simp] theorem setNextOf_prev : (h.setNextOf o v).prev = h.prev := by cases o <;> rfl
@[simp] theorem setPrevOf_child : (h.setPrevOf o v).child = h.child := by cases o <;> rfl
@[simp] theorem setPrevOf_next : (h.setPrevOf o v).next = h.next := by cases o <;> rfl

@[simp] theorem setNext_next : (h.setNext x v).next y = if y = x then v else h.next y :=
  Function.update_apply ..

@[simp] theorem setPrev_prev : (h.setPrev x v).prev y = if y = x then v else h.prev y :=
  Function.update_apply ..

@[simp] theorem setNextOf_next :
    (h.setNextOf o v).next y = if some y = o then v else h.next y := by
  cases o with
  | none => rfl
  | some x => simp [setNextOf]

@[simp] theorem setPrevOf_prev :
    (h.setPrevOf o v).prev y = if some y = o then v else h.prev y := by
  cases o with
  | none => rfl
  | some x => simp [setPrevOf]

end Links

namespace Chains

variable [DecidableEq α] {h h' : Links α} {p q v : Option α} {xs : List α}

/-- **The end of a part points elsewhere.** -/
theorem Seg.congr_end (hs : Seg h p xs q) (hxs : xs.Nodup)
    (hnext : ∀ x ∈ xs, h'.next x = if some x = xs.getLast? then v else h.next x)
    (hprev : ∀ x ∈ xs, h'.prev x = h.prev x) : Seg h' p xs v := by
  rcases List.eq_nil_or_concat xs with rfl | ⟨ys, y, rfl⟩
  · trivial
  rw [List.concat_eq_append] at hs hxs hnext hprev ⊢
  obtain ⟨hys, hy, -, -⟩ := seg_append.mp hs
  rw [List.getLast?_concat] at hnext
  have hmem : y ∈ ys ++ [y] := List.mem_append_right ys List.mem_cons_self
  refine seg_append.mpr ⟨hys.congr (fun x hx => ?_), (hprev y hmem).trans hy, ?_, trivial⟩
  · have hx' : x ∈ ys ++ [y] := List.mem_append_left _ hx
    have hne : x ≠ y := (List.nodup_append.mp hxs).2.2 x hx y List.mem_cons_self
    exact ⟨(hnext x hx').trans (if_neg (fun e => hne (Option.some.inj e))), hprev x hx'⟩
  · rw [hnext y hmem, if_pos rfl]
    rfl

/-- **The start of a part points elsewhere.** -/
theorem Seg.congr_start (hs : Seg h p xs q) (hxs : xs.Nodup)
    (hnext : ∀ x ∈ xs, h'.next x = h.next x)
    (hprev : ∀ x ∈ xs, h'.prev x = if some x = xs.head? then v else h.prev x) :
    Seg h' v xs q := by
  cases xs with
  | nil => trivial
  | cons x xs =>
    obtain ⟨-, hx, hs⟩ := hs
    have hmem : x ∈ x :: xs := List.mem_cons_self
    refine ⟨(hprev x hmem).trans (if_pos rfl), (hnext x hmem).trans hx,
      hs.congr (fun y hy => ?_)⟩
    have hy' : y ∈ x :: xs := List.mem_cons_of_mem x hy
    have hne : y ≠ x := fun e : y = x => (List.nodup_cons.mp hxs).1 (e ▸ hy)
    exact ⟨hnext y hy', (hprev y hy').trans (if_neg (fun e => hne (Option.some.inj e)))⟩

/-- **One list changes.** Its nodes are old ones or loose ones, those that it
has lost are loose now, and no other node has changed. -/
theorem Chained.update {f : α → List α} (hc : Chained h f) {a : α} {ys : List α}
    (hchild : h'.child = Function.update h.child a ys.head?) (hseg : Seg h' none ys none)
    (hnodup : ys.Nodup) (hfrom : ∀ y ∈ ys, y ∈ f a ∨ ∀ b, y ∉ f b)
    (hsame : ∀ x, x ∉ f a → x ∉ ys → h'.next x = h.next x ∧ h'.prev x = h.prev x)
    (hlost : ∀ x ∈ f a, x ∉ ys → h'.next x = none ∧ h'.prev x = none) :
    Chained h' (Function.update f a ys) := by
  -- a child of another node is none of these
  have hother : ∀ {b x}, b ≠ a → x ∈ f b → x ∉ f a ∧ x ∉ ys := fun {b x} hb hx => by
    have hxa : x ∉ f a := fun hxa => hb (hc.apart hx hxa)
    exact ⟨hxa, fun hxy => (hfrom x hxy).elim hxa (fun hfree => hfree b hx)⟩
  refine ⟨fun b => ?_, fun b => ?_, fun b => ?_, fun {b c x} hb hc' => ?_, fun x hx => ?_⟩
  · rw [hchild]
    by_cases hb : b = a
    · subst hb
      rw [Function.update_self, Function.update_self]
    · rw [Function.update_of_ne hb, Function.update_of_ne hb, hc.first]
  · by_cases hb : b = a
    · subst hb
      rwa [Function.update_self]
    · rw [Function.update_of_ne hb]
      exact (hc.seg b).congr (fun x hx => hsame x (hother hb hx).1 (hother hb hx).2)
  · by_cases hb : b = a
    · subst hb
      rwa [Function.update_self]
    · rw [Function.update_of_ne hb]
      exact hc.nodup b
  · by_cases hba : b = a <;> by_cases hca : c = a
    · rw [hba, hca]
    · subst hba
      rw [Function.update_self] at hb
      rw [Function.update_of_ne hca] at hc'
      exact absurd hb (hother hca hc').2
    · subst hca
      rw [Function.update_self] at hc'
      rw [Function.update_of_ne hba] at hb
      exact absurd hc' (hother hba hb).2
    · rw [Function.update_of_ne hba] at hb
      rw [Function.update_of_ne hca] at hc'
      exact hc.apart hb hc'
  · have hxy : x ∉ ys := by simpa using hx a
    by_cases hxa : x ∈ f a
    · exact hlost x hxa hxy
    · rw [(hsame x hxa hxy).1, (hsame x hxa hxy).2]
      refine hc.loose x (fun b => ?_)
      by_cases hb : b = a
      · rwa [hb]
      · have hxb := hx b
        rwa [Function.update_of_ne hb] at hxb

/-- **A part of a list is replaced**: `ys` stands where `m` stood. The last
node before it and the first one after it point to the new part, which points
to them, the old part is loose, and no other pointer has changed. -/
theorem Chained.splice {f : α → List α} (hc : Chained h f) {a : α} {l m r n : List α}
    (ha : f a = l ++ (m ++ r)) (hys : n.Nodup) (hnew : ∀ y ∈ n, ∀ b, y ∉ f b)
    (hchild : h'.child = Function.update h.child a (l ++ (n ++ r)).head?)
    (hmid : Seg h' l.getLast? n r.head?)
    (hnext : ∀ x, x ∉ m → x ∉ n →
      h'.next x = if some x = l.getLast? then (n ++ r).head? else h.next x)
    (hprev : ∀ x, x ∉ m → x ∉ n →
      h'.prev x = if some x = r.head? then (l ++ n).getLast? else h.prev x)
    (hlost : ∀ x ∈ m, h'.next x = none ∧ h'.prev x = none) :
    Chained h' (Function.update f a (l ++ (n ++ r))) := by
  have hnodup := hc.nodup a
  rw [ha] at hnodup
  obtain ⟨hl, hmr, hlmr⟩ := List.nodup_append.mp hnodup
  obtain ⟨-, hr, hmr⟩ := List.nodup_append.mp hmr
  have hysl : ∀ x ∈ l, x ∉ m ∧ x ∉ n := fun x hx =>
    ⟨fun hm => hlmr x hx x (List.mem_append_left r hm) rfl,
      fun hy => hnew x hy a (by rw [ha]; exact List.mem_append_left _ hx)⟩
  have hysr : ∀ x ∈ r, x ∉ m ∧ x ∉ n := fun x hx =>
    ⟨fun hm => hmr x hm x hx rfl,
      fun hy => hnew x hy a (by
        rw [ha]
        exact List.mem_append_right _ (List.mem_append_right _ hx))⟩
  have hlr : ∀ x ∈ l, ∀ y ∈ r, x ≠ y := fun x hx y hy =>
    hlmr x hx y (List.mem_append_right m hy)
  have hsegl := hc.seg a
  rw [ha] at hsegl
  obtain ⟨hsegl, hsegr⟩ := seg_append.mp hsegl
  obtain ⟨-, hsegr⟩ := seg_append.mp hsegr
  have hseg : Seg h' none (l ++ (n ++ r)) none := by
    refine seg_append.mpr ⟨hsegl.congr_end hl (fun x hx => ?_) (fun x hx => ?_),
      seg_append.mpr ⟨by rwa [Option.or_none, Option.or_none],
        hsegr.congr_start hr (fun x hx => ?_) (fun x hx => ?_)⟩⟩
    · rw [Option.or_none]
      exact hnext x (hysl x hx).1 (hysl x hx).2
    · rw [hprev x (hysl x hx).1 (hysl x hx).2]
      exact if_neg (fun e => hlr x hx x (List.mem_of_mem_head? e.symm) rfl)
    · rw [hnext x (hysr x hx).1 (hysr x hx).2]
      exact if_neg (fun e => hlr x (List.mem_of_mem_getLast? e.symm) x hx rfl)
    · rw [hprev x (hysr x hx).1 (hysr x hx).2, Option.or_none, List.getLast?_append]
  refine hc.update hchild hseg ?_ (fun y hy => ?_) (fun x hx hx' => ?_) (fun x hx hx' => ?_)
  · refine List.nodup_append.mpr ⟨hl, List.nodup_append.mpr ⟨hys, hr, fun x hx y hy e => ?_⟩,
      fun x hx y hy e => ?_⟩
    · exact (hysr y hy).2 (e ▸ hx)
    · subst e
      exact (List.mem_append.mp hy).elim (hysl x hx).2 (fun hy => hlr x hx x hy rfl)
  · rw [ha]
    rcases List.mem_append.mp hy with hy | hy
    · exact Or.inl (List.mem_append_left _ hy)
    · rcases List.mem_append.mp hy with hy | hy
      · exact Or.inr (hnew y hy)
      · exact Or.inl (List.mem_append_right _ (List.mem_append_right _ hy))
  · rw [ha] at hx
    simp only [List.mem_append, not_or] at hx hx'
    refine ⟨(hnext x hx.2.1 hx'.2.1).trans (if_neg (fun e => ?_)),
      (hprev x hx.2.1 hx'.2.1).trans (if_neg (fun e => ?_))⟩
    · exact hx.1 (List.mem_of_mem_getLast? e.symm)
    · exact hx.2.2 (List.mem_of_mem_head? e.symm)
  · rw [ha] at hx
    simp only [List.mem_append, not_or] at hx hx'
    exact hlost x ((hx.resolve_left hx'.1).resolve_right hx'.2.2)

end Chains
