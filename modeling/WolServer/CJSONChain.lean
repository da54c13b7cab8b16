import WolServer.CJSONClient
import WolServer.Chains

/-!
# The children of a node, as `cJSON.cpp` keeps them

The children of an array or an object are a doubly linked list, and the
functions that edit it change a pointer here and a pointer there, with a branch
for the first child and one for the end. They are modelled pointer by pointer
over `WolServer.Chains`. The memory has a number of nodes, and a walk to the
end of a list takes no more steps than that.

`CJSONChain.run_chained` is the result: after any sequence of edits, each of an
item that is nobody's child, the pointers spell the lists that the edits of
`WolServer.CJSONClient` make.
-/

namespace CJSONChain

variable {α : Type} [DecidableEq α] [Fintype α]

/-- `suffix_object`. -/
def suffixObject (h : Links α) (prev item : α) : Links α :=
  (h.setNext prev (some item)).setPrev item (some prev)

/-- **`cJSON_AddItemToArray`.** -/
def addItemToArray (h : Links α) (array item : α) : Links α :=
  match h.child array with
  | none => h.setChild array (some item)
  | some c => suffixObject h (h.last (Fintype.card α) c) item

/-- `cJSON_GetArrayItem`. -/
def getArrayItem (h : Links α) (array : α) (which : ℤ) : Option α :=
  h.walk which.toNat (h.child array)

/-- **`cJSON_InsertItemInArray`.** -/
def insertItemInArray (h : Links α) (array : α) (which : ℤ) (newitem : α) : Links α :=
  match getArrayItem h array which with
  | none => addItemToArray h array newitem
  | some c =>
    let h := h.setNext newitem (some c)
    let h := h.setPrev newitem (h.prev c)
    let h := h.setPrev c (some newitem)
    if some c = h.child array then h.setChild array (some newitem)
    else h.setNextOf (h.prev newitem) (some newitem)

/-- **`cJSON_DetachItemFromArray`**: the child, and the pointers. -/
def detachItemFromArray (h : Links α) (array : α) (which : ℤ) : Option α × Links α :=
  match getArrayItem h array which with
  | none => (none, h)
  | some c =>
    let h := h.setNextOf (h.prev c) (h.next c)
    let h := h.setPrevOf (h.next c) (h.prev c)
    let h := if some c = h.child array then h.setChild array (h.next c) else h
    (some c, (h.setNext c none).setPrev c none)

/-- **`cJSON_ReplaceItemInArray`**: the old child, which is deleted, and the
pointers. -/
def replaceItemInArray (h : Links α) (array : α) (which : ℤ) (newitem : α) :
    Option α × Links α :=
  match getArrayItem h array which with
  | none => (none, h)
  | some c =>
    let h := h.setNext newitem (h.next c)
    let h := h.setPrev newitem (h.prev c)
    let h := h.setPrevOf (h.next newitem) (some newitem)
    let h := if some c = h.child array then h.setChild array (some newitem)
      else h.setNextOf (h.prev newitem) (some newitem)
    (some c, (h.setNext c none).setPrev c none)

/-! ## One edit -/

open Chains

variable {h : Links α} {f : α → List α}

omit [DecidableEq α] [Fintype α] in
theorem getArrayItem_eq (hc : Chained h f) (array : α) (which : ℤ) :
    getArrayItem h array which = (f array)[which.toNat]? := by
  rw [getArrayItem, hc.first, (hc.seg array).walk]

omit [DecidableEq α] [Fintype α] in
/-- **The list around the child of an index**, and what the edits make of
it. -/
theorem edits_at {xs : List α} {i : ℕ} {c : α} (h : xs[i]? = some c) :
    ∃ l r, xs = l ++ c :: r ∧ (∀ x, xs.insertIdx i x = l ++ x :: c :: r)
      ∧ (∀ x, xs.set i x = l ++ x :: r) ∧ xs.eraseIdx i = l ++ r := by
  induction xs generalizing i with
  | nil => cases h
  | cons y ys ih =>
    cases i with
    | zero =>
      obtain rfl : y = c := Option.some.inj h
      exact ⟨[], ys, rfl, fun _ => rfl, fun _ => rfl, rfl⟩
    | succ i =>
      obtain ⟨l, r, rfl, hinsert, hset, herase⟩ := ih h
      exact ⟨y :: l, r, rfl, fun x => congrArg (y :: ·) (hinsert x),
        fun x => congrArg (y :: ·) (hset x), congrArg (y :: ·) herase⟩

omit [DecidableEq α] [Fintype α] in
/-- No child is a child twice. -/
theorem not_mem_sides {l r : List α} {c : α} (h : (l ++ c :: r).Nodup) : c ∉ l ∧ c ∉ r :=
  ⟨fun hmem => (List.nodup_append.mp h).2.2 c hmem c List.mem_cons_self rfl,
    (List.nodup_cons.mp (List.nodup_append.mp h).2.1).1⟩

/-- **An item is added at the end.** -/
theorem addItemToArray_chained (hc : Chained h f) {array item : α} (hitem : ∀ a, item ∉ f a) :
    Chained (addItemToArray h array item) (Function.update f array (f array ++ [item])) := by
  have hloose := hc.loose item hitem
  have hnew : ∀ y ∈ [item], ∀ b, y ∉ f b := fun y hy => List.mem_singleton.mp hy ▸ hitem
  unfold addItemToArray
  rw [hc.first]
  cases hf : f array with
  | nil =>
    refine hc.splice (l := []) (m := []) (r := []) (n := [item]) hf (List.nodup_singleton item)
      hnew rfl ⟨hloose.2, hloose.1, trivial⟩ (fun x _ _ => rfl) (fun x _ _ => rfl)
      (fun x hx => absurd hx List.not_mem_nil)
  | cons c cs =>
    have hseg := hc.seg array
    have hlen := (hc.nodup array).length_le_card
    rw [hf] at hseg hlen
    have hlast := hseg.last (n := Fintype.card α) (Nat.le_of_succ_le hlen)
    have hne : item ≠ h.last (Fintype.card α) c := fun e => by
      refine hitem array ?_
      rw [hf, e]
      exact List.mem_of_mem_getLast? hlast
    refine hc.splice (l := c :: cs) (m := []) (r := []) (n := [item]) (by rw [hf]; simp)
      (List.nodup_singleton item) hnew ?_ ⟨?_, ?_, trivial⟩ (fun x _ _ => ?_) (fun x _ hx => ?_)
      (fun x hx => absurd hx List.not_mem_nil)
    · refine (Function.update_eq_self_iff.mpr ?_).symm
      show (c :: cs).head? = h.child array
      rw [hc.first, hf]
    · simp [suffixObject, hlast]
    · simp [suffixObject, hne, hloose.1]
    · simp [suffixObject, hlast]
    · have hx : x ≠ item := fun e => hx (e ▸ List.mem_cons_self)
      simp [suffixObject, hx]

/-- **An item is inserted before the child of an index**, or at the end. -/
theorem insertItemInArray_chained (hc : Chained h f) {array newitem : α}
    (hitem : ∀ a, newitem ∉ f a) (which : ℤ) :
    Chained (insertItemInArray h array which newitem)
      (Function.update f array (insertChild (f array) which newitem)) := by
  have hnew : ∀ y ∈ [newitem], ∀ b, y ∉ f b := fun y hy => List.mem_singleton.mp hy ▸ hitem
  unfold insertItemInArray
  rw [getArrayItem_eq hc]
  cases hw : (f array)[which.toNat]? with
  | none =>
    rw [insertChild, if_neg (Nat.not_lt.mpr (List.getElem?_eq_none_iff.mp hw))]
    exact addItemToArray_chained hc hitem
  | some c =>
    obtain ⟨hlt, -⟩ := List.getElem?_eq_some_iff.mp hw
    obtain ⟨l, r, hf, hinsert, -, -⟩ := edits_at hw
    have hne : newitem ≠ c := fun e => hitem array (e ▸ List.mem_of_getElem? hw)
    obtain ⟨-, hprev⟩ := hc.links hf
    have hnodup := hc.nodup array
    rw [hf] at hnodup
    rw [insertChild, if_pos hlt, hinsert]
    dsimp only
    have hchild := hc.first array
    rw [hf] at hchild
    cases l with
    | nil =>
      rw [if_pos (by simp [hchild])]
      refine hc.splice (l := []) (m := []) (r := c :: r) (n := [newitem]) hf
        (List.nodup_singleton newitem) hnew rfl ⟨?_, ?_, trivial⟩ (fun x _ hx => ?_)
        (fun x _ hx => ?_) (fun x hx => absurd hx List.not_mem_nil)
      · simp [hne, hprev]
      · simp
      · have hx : x ≠ newitem := fun e => hx (e ▸ List.mem_cons_self)
        simp [hx]
      · have hx : x ≠ newitem := fun e => hx (e ▸ List.mem_cons_self)
        simp [hx]
    | cons y ys =>
      have hcl : c ∉ y :: ys := fun hmem =>
        (List.nodup_append.mp hnodup).2.2 c hmem c List.mem_cons_self rfl
      obtain ⟨p, hp⟩ : ∃ p, (y :: ys).getLast? = some p := ⟨_, List.getLast?_cons⟩
      have hpl := List.mem_of_mem_getLast? hp
      have hpc : p ≠ c := fun e => hcl (e ▸ hpl)
      have hpn : newitem ≠ p := fun e => hitem array (by
        rw [hf, e]
        exact List.mem_append_left _ hpl)
      rw [hp] at hprev
      rw [if_neg (by simp [hchild, show c ≠ y from fun e => hcl (e ▸ List.mem_cons_self)])]
      refine hc.splice (l := y :: ys) (m := []) (r := c :: r) (n := [newitem]) hf
        (List.nodup_singleton newitem) hnew ?_ ⟨?_, ?_, trivial⟩ (fun x _ hx => ?_)
        (fun x _ hx => ?_) (fun x hx => absurd hx List.not_mem_nil)
      · simpa using (Function.update_eq_self_iff.mpr hchild.symm).symm
      · simp [hne, hprev, hp]
      · simp [hne, hprev, hpn]
      · have hx : x ≠ newitem := fun e => hx (e ▸ List.mem_cons_self)
        simp [hne, hprev, hp, hx]
      · have hx : x ≠ newitem := fun e => hx (e ▸ List.mem_cons_self)
        have hend : (y :: ys ++ [newitem]).getLast? = some newitem := List.getLast?_concat ..
        rw [hend]
        simp [hx]

omit [Fintype α] in
/-- **The child of an index is taken out**, and points nowhere. -/
theorem detachItemFromArray_chained (hc : Chained h f) (array : α) (which : ℤ) :
    (detachItemFromArray h array which).1 = (f array)[which.toNat]?
      ∧ Chained (detachItemFromArray h array which).2
        (Function.update f array ((f array).eraseIdx which.toNat)) := by
  unfold detachItemFromArray
  rw [getArrayItem_eq hc]
  cases hw : (f array)[which.toNat]? with
  | none =>
    rw [List.eraseIdx_of_length_le (List.getElem?_eq_none_iff.mp hw), Function.update_eq_self]
    exact ⟨rfl, hc⟩
  | some c =>
    refine ⟨rfl, ?_⟩
    obtain ⟨l, r, hf, -, -, herase⟩ := edits_at hw
    obtain ⟨hnext, hprev⟩ := hc.links hf
    have hnodup := hc.nodup array
    have hchild := hc.first array
    rw [hf] at hnodup hchild
    obtain ⟨hcl, hcr⟩ := not_mem_sides hnodup
    rw [herase]
    dsimp only
    refine hc.splice (l := l) (m := [c]) (r := r) (n := []) hf List.nodup_nil
      (fun y hy => absurd hy List.not_mem_nil) ?_ trivial (fun x hx _ => ?_) (fun x hx _ => ?_)
      (fun x hx => ?_)
    · cases l with
      | nil => simp [hchild, hprev, hnext]
      | cons y ys =>
        have hcy : c ≠ y := fun e => hcl (e ▸ List.mem_cons_self)
        simp [hchild, hcy]
    · have hx : x ≠ c := fun e => hx (e ▸ List.mem_cons_self)
      simp [apply_ite Links.next, hprev, hnext, hx]
    · have hx : x ≠ c := fun e => hx (e ▸ List.mem_cons_self)
      have hend : some c ≠ l.getLast? := fun e => hcl (List.mem_of_mem_getLast? e.symm)
      simp [apply_ite Links.prev, hprev, hnext, hx, hend]
    · obtain rfl := List.mem_singleton.mp hx
      simp

omit [Fintype α] in
/-- **The child of an index is replaced**, and the old one points nowhere. -/
theorem replaceItemInArray_chained (hc : Chained h f) {array newitem : α}
    (hitem : ∀ a, newitem ∉ f a) (which : ℤ) :
    (replaceItemInArray h array which newitem).1 = (f array)[which.toNat]?
      ∧ Chained (replaceItemInArray h array which newitem).2
        (Function.update f array ((f array).set which.toNat newitem)) := by
  have hnew : ∀ y ∈ [newitem], ∀ b, y ∉ f b := fun y hy => List.mem_singleton.mp hy ▸ hitem
  unfold replaceItemInArray
  rw [getArrayItem_eq hc]
  cases hw : (f array)[which.toNat]? with
  | none =>
    rw [List.set_eq_of_length_le (List.getElem?_eq_none_iff.mp hw), Function.update_eq_self]
    exact ⟨rfl, hc⟩
  | some c =>
    refine ⟨rfl, ?_⟩
    obtain ⟨l, r, hf, -, hset, -⟩ := edits_at hw
    have hne : newitem ≠ c := fun e => hitem array (e ▸ List.mem_of_getElem? hw)
    obtain ⟨hnext, hprev⟩ := hc.links hf
    have hnodup := hc.nodup array
    have hchild := hc.first array
    rw [hf] at hnodup hchild
    obtain ⟨hcl, hcr⟩ := not_mem_sides hnodup
    rw [hset]
    dsimp only
    have hnl : some newitem ≠ l.getLast? := fun e => hitem array (by
      rw [hf]
      exact List.mem_append_left _ (List.mem_of_mem_getLast? e.symm))
    have hnr : some newitem ≠ r.head? := fun e => hitem array (by
      rw [hf]
      exact List.mem_append_right _ (List.mem_cons_of_mem c (List.mem_of_mem_head? e.symm)))
    cases l with
    | nil =>
      rw [if_pos (by simp [hchild])]
      refine hc.splice (l := []) (m := [c]) (r := r) (n := [newitem]) hf
        (List.nodup_singleton newitem) hnew ?_ ⟨?_, ?_, trivial⟩ (fun x hx hx' => ?_)
        (fun x hx hx' => ?_) (fun x hx => ?_)
      · simp
      · simp [hne, hprev, hnext, hnr]
      · simp [hne, hnext]
      · have hx : x ≠ c := fun e => hx (e ▸ List.mem_cons_self)
        have hx' : x ≠ newitem := fun e => hx' (e ▸ List.mem_cons_self)
        simp [hx, hx']
      · have hx : x ≠ c := fun e => hx (e ▸ List.mem_cons_self)
        have hx' : x ≠ newitem := fun e => hx' (e ▸ List.mem_cons_self)
        simp [hx, hx', hnext]
      · obtain rfl := List.mem_singleton.mp hx
        simp
    | cons y ys =>
      have hcy : c ≠ y := fun e => hcl (e ▸ List.mem_cons_self)
      rw [if_neg (by simp [hchild, hcy])]
      refine hc.splice (l := y :: ys) (m := [c]) (r := r) (n := [newitem]) hf
        (List.nodup_singleton newitem) hnew ?_ ⟨?_, ?_, trivial⟩ (fun x hx hx' => ?_)
        (fun x hx hx' => ?_) (fun x hx => ?_)
      · simp [hchild]
      · simp [hne, hprev, hnext, hnr]
      · simp [hne, hprev, hnext, hnr, hnl]
      · have hx : x ≠ c := fun e => hx (e ▸ List.mem_cons_self)
        have hx' : x ≠ newitem := fun e => hx' (e ▸ List.mem_cons_self)
        simp [hx, hx', hprev, hnext, hnr]
      · have hx : x ≠ c := fun e => hx (e ▸ List.mem_cons_self)
        have hx' : x ≠ newitem := fun e => hx' (e ▸ List.mem_cons_self)
        have hend : (y :: ys ++ [newitem]).getLast? = some newitem := List.getLast?_concat ..
        rw [hend]
        simp [hx, hx', hnext]
      · obtain rfl := List.mem_singleton.mp hx
        simp

/-! ## Any edits -/

/-- **An edit** of the children of a node. -/
inductive Edit (α : Type) where
  | addItem (array item : α)
  | insertItem (array : α) (which : ℤ) (newitem : α)
  | detachItem (array : α) (which : ℤ)
  | replaceItem (array : α) (which : ℤ) (newitem : α)

/-- The edit of the pointers. -/
def Edit.pointers (h : Links α) : Edit α → Links α
  | .addItem array item => addItemToArray h array item
  | .insertItem array which newitem => insertItemInArray h array which newitem
  | .detachItem array which => (detachItemFromArray h array which).2
  | .replaceItem array which newitem => (replaceItemInArray h array which newitem).2

omit [Fintype α] in
/-- The edit of the lists. -/
def Edit.lists (f : α → List α) : Edit α → α → List α
  | .addItem array item => Function.update f array (f array ++ [item])
  | .insertItem array which newitem =>
    Function.update f array (insertChild (f array) which newitem)
  | .detachItem array which => Function.update f array ((f array).eraseIdx which.toNat)
  | .replaceItem array which newitem =>
    Function.update f array ((f array).set which.toNat newitem)

/-- The item that is put somewhere is nobody's child. -/
def Edit.Legal (f : α → List α) : Edit α → Prop
  | .addItem _ item | .insertItem _ _ item | .replaceItem _ _ item => ∀ a, item ∉ f a
  | .detachItem _ _ => True

instance (f : α → List α) (e : Edit α) : Decidable (e.Legal f) :=
  match e with
  | .addItem _ item | .insertItem _ _ item | .replaceItem _ _ item =>
    inferInstanceAs (Decidable (∀ a, item ∉ f a))
  | .detachItem _ _ => inferInstanceAs (Decidable True)

/-- Each edit is legal when its turn comes. -/
def LegalRun : (α → List α) → List (Edit α) → Prop
  | _, [] => True
  | f, e :: es => e.Legal f ∧ LegalRun (e.lists f) es

/-- **An edit of the pointers is the edit of the lists.** -/
theorem edit_chained (hc : Chained h f) {e : Edit α} (he : e.Legal f) :
    Chained (e.pointers h) (e.lists f) := by
  cases e with
  | addItem array item => exact addItemToArray_chained hc he
  | insertItem array which newitem => exact insertItemInArray_chained hc he which
  | detachItem array which => exact (detachItemFromArray_chained hc array which).2
  | replaceItem array which newitem => exact (replaceItemInArray_chained hc he which).2

/-- **After any legal edits the pointers spell the lists** that the edits
make. -/
theorem run_chained (es : List (Edit α)) (hc : Chained h f) (hes : LegalRun f es) :
    Chained (es.foldl Edit.pointers h) (es.foldl Edit.lists f) := by
  induction es generalizing h f with
  | nil => exact hc
  | cons e es ih => exact ih (edit_chained hc hes.1) hes.2

omit [DecidableEq α] [Fintype α] in
/-- Nodes that point nowhere are nobody's children. -/
theorem chained_nil : Chained (⟨fun _ => none, fun _ => none, fun _ => none⟩ : Links α)
    (fun _ => []) where
  first _ := rfl
  seg _ := trivial
  nodup _ := List.nodup_nil
  apart h := absurd h List.not_mem_nil
  loose _ _ := ⟨rfl, rfl⟩

/-- Three items are added to a node, the first of them taken out, and put back
before the last. -/
theorem run_chained_four :
    let es : List (Edit (Fin 4)) := [.addItem 0 1, .addItem 0 2, .addItem 0 3, .detachItem 0 0,
      .insertItem 0 1 1]
    Chained (es.foldl Edit.pointers ⟨fun _ => none, fun _ => none, fun _ => none⟩)
      (es.foldl Edit.lists (fun _ => [])) :=
  run_chained _ chained_nil ⟨by decide, by decide, by decide, trivial, by decide, trivial⟩

/-- **Inserting and taking out again changes no pointer.** -/
theorem detach_insert (hc : Chained h f) {array newitem : α} (hitem : ∀ a, newitem ∉ f a)
    {which : ℤ} (hwhich : which.toNat < (f array).length) :
    detachItemFromArray (insertItemInArray h array which newitem) array which
      = (some newitem, h) := by
  have hinsert : Chained (insertItemInArray h array which newitem) _ :=
    insertItemInArray_chained hc hitem which
  obtain ⟨hitem', hdetach⟩ := detachItemFromArray_chained hinsert array which
  rw [Function.update_self, insertChild, if_pos hwhich] at hitem' hdetach
  rw [List.eraseIdx_insertIdx_self, Function.update_idem, Function.update_eq_self] at hdetach
  refine Prod.ext (hitem'.trans ?_) (hdetach.unique hc)
  rw [List.getElem?_insertIdx_self, if_pos hwhich.le]

end CJSONChain
