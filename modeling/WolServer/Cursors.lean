import WolServer.CJSONComplete
import WolServer.LibJson
import WolServer.Position

/-!
# The cursors of a `Lib_Json`

A `Lib_Json` keeps two pointers into its tree, `child` to an object and
`array` to an array, and the functions that load them search from the root or
from where a cursor stands. A pointer is the position of its node
(`WolServer.Position`), so “inside the tree” is something to be proved of it.

`loadChildObject` and `loadChildArray` go through `getValueObject` and
`getValueArray`, which look at the type of what they find.
`loadChildObjectFromChildArrayByIndex` walks the list of the elements by
itself and looks at nothing: an index below zero finds the first element, and
an element that is no object becomes the `child`.
`LibJson.lawful_iff` says that this is all that goes wrong: in a run of any
length, the cursors stand where they should and every call answers as it
should exactly when no call by index finds such an element.
-/

namespace LibJson

/-- The node at a position of a tree. -/
def nodeAt (root : CJSON) (p : Position) : Option CJSON := Position.nodeAt CJSON.child root p

/-- **The cursors of a `Lib_Json`.** -/
structure Cursors where
  /-- `child`. -/
  child : Option Position
  /-- `array`. -/
  array : Option Position
deriving DecidableEq

/-- A call that moves the cursors. -/
inductive CursorCall where
  | loadChildObject (name : Option Bytes) (fromChild : Bool)
  | loadChildArray (name : Option Bytes) (fromChild : Bool)
  | loadChildObjectFromChildArrayByIndex (index : ℤ) (fromChild : Bool)
  | releaseChild
deriving DecidableEq

/-! ## Functions -/

/-- `(true == fromChild) ? ((NULL != cursor) ? cursor : root) : root`. -/
def source (cursor : Option Position) (fromChild : Bool) : Position :=
  if fromChild = true then cursor.getD [] else []

/-- What `GetObjectItemValueS` stores for an item of a type, of the node at
`p`: the pointer to it. -/
def getObjectItemValue (type : CJSONType) (p : Position) (node : CJSON) (name : Option Bytes) :
    Option Position :=
  match name with
  | none => none
  | some name =>
    if name = [] then none
    else
      match node.child.findIdx? (fun c => CJSON.strcaseEq c.string name),
          node.getObjectItem name with
      | some i, some pTemp => if pTemp.type = type then some (p ++ [i]) else none
      | _, _ => none

/-- `Lib_Json::getValueObject`, without `dup`: the pointer it stores when it
returns true. -/
def getValueObject := getObjectItemValue .object

/-- `Lib_Json::getValueArray`: the pointer it stores when it returns true. -/
def getValueArray := getObjectItemValue .array

/-- `Lib_Json::loadChildObject`: its result, and the cursors afterwards. -/
def loadChildObject (root : CJSON) (s : Cursors) (name : Option Bytes) (fromChild : Bool) :
    Bool × Cursors :=
  let p := source s.child fromChild
  match nodeAt root p with
  | none => (false, s)
  | some node =>
    if node.type = .object then
      match getValueObject p node name with
      | none => (false, s)
      | some value => (true, { s with child := some value })
    else (false, s)

/-- `Lib_Json::loadChildArray`: its result, and the cursors afterwards. -/
def loadChildArray (root : CJSON) (s : Cursors) (name : Option Bytes) (fromChild : Bool) :
    Bool × Cursors :=
  let p := source s.child fromChild
  match nodeAt root p with
  | none => (false, s)
  | some node =>
    if node.type = .object then
      match getValueArray p node name with
      | none => (false, s)
      | some value => (true, { s with array := some value })
    else (false, s)

/-- The loop of `loadChildObjectFromChildArrayByIndex`, from its `i`: the
index of the element it stops at, if the list does not end before. -/
def walk (index : ℤ) : ℕ → List CJSON → Option ℕ
  | _, [] => none
  | i, _ :: next => if index > i then walk index (i + 1) next else some i

/-- `Lib_Json::loadChildObjectFromChildArrayByIndex`: its result, and the
cursors afterwards. -/
def loadChildObjectFromChildArrayByIndex (root : CJSON) (s : Cursors) (index : ℤ)
    (fromChild : Bool) : Bool × Cursors :=
  let p := source s.array fromChild
  match nodeAt root p with
  | none => (false, s)
  | some node =>
    if node.type = .array then
      match walk index 0 node.child with
      | none => (false, s)
      | some i => (true, { s with child := some (p ++ [i]) })
    else (false, s)

/-- A call: its result, unless it is `void`, and the cursors afterwards. -/
def moveCursors (root : CJSON) (s : Cursors) : CursorCall → Option Bool × Cursors
  | .loadChildObject name fromChild =>
    let r := loadChildObject root s name fromChild
    (some r.1, r.2)
  | .loadChildArray name fromChild =>
    let r := loadChildArray root s name fromChild
    (some r.1, r.2)
  | .loadChildObjectFromChildArrayByIndex index fromChild =>
    let r := loadChildObjectFromChildArrayByIndex root s index fromChild
    (some r.1, r.2)
  | .releaseChild => (none, ⟨none, none⟩)

/-- **The cursors after a sequence of calls.** -/
def cursorsAfter (root : CJSON) (calls : List CursorCall) : Cursors :=
  calls.foldl (fun s call => (moveCursors root s call).2) ⟨none, none⟩

/-! ## What the cursors are for -/

/-- The pointer points to a node of the tree, of this type. -/
def PointsTo (root : CJSON) (type : CJSONType) (p : Position) : Prop :=
  ∃ node, nodeAt root p = some node ∧ node.type = type

/-- **The cursors stand where they should**: on an object and on an array of
the tree, or nowhere. -/
structure Inside (root : CJSON) (s : Cursors) : Prop where
  child : ∀ p, s.child = some p → PointsTo root .object p
  array : ∀ p, s.array = some p → PointsTo root .array p

/-- The array that is searched has an object at the index. -/
def HasObjectAt (root : CJSON) (s : Cursors) (index : ℤ) (fromChild : Bool) : Prop :=
  PointsTo root .array (source s.array fromChild) ∧ 0 ≤ index
    ∧ PointsTo root .object (source s.array fromChild ++ [index.toNat])

/-- **A call answers as it should.** -/
structure Answers (root : CJSON) (s : Cursors) (call : CursorCall) : Prop where
  /-- A call that returns false changes nothing. -/
  refused : (moveCursors root s call).1 = some false → (moveCursors root s call).2 = s
  /-- A call by index returns true exactly when there is an object. -/
  byIndex : ∀ index fromChild, call = .loadChildObjectFromChildArrayByIndex index fromChild →
    ((moveCursors root s call).1 = some true ↔ HasObjectAt root s index fromChild)
  /-- That object is the `child` then. -/
  found : ∀ index fromChild, call = .loadChildObjectFromChildArrayByIndex index fromChild →
    (moveCursors root s call).1 = some true →
    (moveCursors root s call).2.child = some (source s.array fromChild ++ [index.toNat])

/-- **The law of the cursors** in a sequence of calls. -/
def Lawful (root : CJSON) (calls : List CursorCall) : Prop :=
  (∀ before after, calls = before ++ after → Inside root (cursorsAfter root before))
    ∧ ∀ before call after, calls = before ++ call :: after →
      Answers root (cursorsAfter root before) call

/-- **A call is careful**: a call by index finds no element, or the index is
not below zero and the element is an object. -/
def Careful (root : CJSON) (s : Cursors) : CursorCall → Prop
  | .loadChildObjectFromChildArrayByIndex index fromChild =>
    PointsTo root .array (source s.array fromChild) →
      (nodeAt root (source s.array fromChild ++ [index.toNat])).isSome = true →
      0 ≤ index ∧ PointsTo root .object (source s.array fromChild ++ [index.toNat])
  | _ => True

variable {root : CJSON} {s : Cursors} {call : CursorCall} {calls : List CursorCall}

/-! ## Single calls -/

/-- A child, by the position behind its parent's. -/
theorem nodeAt_snoc {p : Position} {node : CJSON} (h : nodeAt root p = some node) (i : ℕ) :
    nodeAt root (p ++ [i]) = node.child[i]? := by
  rw [nodeAt, Position.nodeAt_snoc]
  show (nodeAt root p).bind _ = _
  rw [h, Option.bind_some]

/-- **What is stored points to an item of the type.** -/
theorem pointsTo_of_getObjectItemValue {type : CJSONType} {p q : Position} {node : CJSON}
    {name : Option Bytes} (hp : nodeAt root p = some node)
    (h : getObjectItemValue type p node name = some q) : PointsTo root type q := by
  unfold getObjectItemValue at h
  split at h
  · cases h
  rename_i name
  split_ifs at h
  split at h
  · rename_i i pTemp hi hitem
    split_ifs at h with htype
    obtain rfl := Option.some.inj h
    -- the position and the node are those of the same child
    rw [CJSON.getObjectItem, List.find?_eq_bind_findIdx?_getElem?, hi, Option.bind_some] at hitem
    exact ⟨pTemp, (nodeAt_snoc hp i).trans hitem, htype⟩
  · cases h

/-- **Loading a cursor** from the node at `p` does nothing, or stores a pointer
to an item of the type. -/
theorem load_cases (root : CJSON) (s : Cursors) (type : CJSONType) (p : Position)
    (name : Option Bytes) (store : Position → Cursors) {r : Bool × Cursors}
    (hr : r = match nodeAt root p with
      | none => (false, s)
      | some node =>
        if node.type = .object then
          match getObjectItemValue type p node name with
          | none => (false, s)
          | some value => (true, store value)
        else (false, s)) :
    r = (false, s) ∨ ∃ q, PointsTo root type q ∧ r = (true, store q) := by
  rw [hr]
  split
  · exact Or.inl rfl
  rename_i node hnode
  split
  · split
    · exact Or.inl rfl
    · rename_i q hq
      exact Or.inr ⟨q, pointsTo_of_getObjectItemValue hnode hq, rfl⟩
  · exact Or.inl rfl

/-- What `loadChildObject` does: nothing, or the `child` is an object then. -/
theorem loadChildObject_cases (root : CJSON) (s : Cursors) (name : Option Bytes)
    (fromChild : Bool) :
    loadChildObject root s name fromChild = (false, s)
      ∨ ∃ q, PointsTo root .object q
        ∧ loadChildObject root s name fromChild = (true, { s with child := some q }) :=
  load_cases root s .object _ name (fun q => { s with child := some q }) rfl

/-- What `loadChildArray` does: nothing, or the `array` is an array then. -/
theorem loadChildArray_cases (root : CJSON) (s : Cursors) (name : Option Bytes)
    (fromChild : Bool) :
    loadChildArray root s name fromChild = (false, s)
      ∨ ∃ q, PointsTo root .array q
        ∧ loadChildArray root s name fromChild = (true, { s with array := some q }) :=
  load_cases root s .array _ name (fun q => { s with array := some q }) rfl

/-- What does nothing or succeeds, does nothing without success. -/
theorem unchanged_of_cases {r : Bool × Cursors} {Q : Position → Prop} {store : Position → Cursors}
    (h : r = (false, s) ∨ ∃ q, Q q ∧ r = (true, store q)) (hfalse : some r.1 = some false) :
    r.2 = s := by
  rcases h with rfl | ⟨q, -, rfl⟩
  · rfl
  · cases hfalse

/-- The loop stops at the index – at the first element, if it is below
zero. -/
theorem walk_eq (index : ℤ) (i : ℕ) (cs : List CJSON) :
    walk index i cs
      = if max i index.toNat < i + cs.length then some (max i index.toNat) else none := by
  induction cs generalizing i with
  | nil =>
    rw [if_neg (by rw [List.length_nil]; omega)]
    rfl
  | cons c cs ih =>
    rw [walk, ih, List.length_cons]
    by_cases hi : index > i
    · have hmax : max (i + 1) index.toNat = max i index.toNat := by omega
      have hlen : i + 1 + cs.length = i + (cs.length + 1) := by omega
      rw [if_pos hi, hmax, hlen]
    · have hmax : max i index.toNat = i := by omega
      rw [if_neg hi, hmax, if_pos (by omega)]

/-- **What a call by index does**: nothing where the array it searches has no
element there, or that element is the `child` then, whatever it is. -/
theorem loadChildObjectFromChildArrayByIndex_eq (root : CJSON) (s : Cursors) (index : ℤ)
    (fromChild : Bool) :
    let p := source s.array fromChild
    (loadChildObjectFromChildArrayByIndex root s index fromChild = (false, s)
        ∧ ¬ (PointsTo root .array p ∧ (nodeAt root (p ++ [index.toNat])).isSome = true))
      ∨ (loadChildObjectFromChildArrayByIndex root s index fromChild
          = (true, { s with child := some (p ++ [index.toNat]) })
        ∧ PointsTo root .array p ∧ (nodeAt root (p ++ [index.toNat])).isSome = true) := by
  unfold loadChildObjectFromChildArrayByIndex
  dsimp only
  split
  · rename_i hnode
    refine Or.inl ⟨rfl, ?_⟩
    rintro ⟨⟨node, hp, -⟩, -⟩
    rw [hnode] at hp
    cases hp
  rename_i node hnode
  by_cases htype : node.type = .array
  · rw [if_pos htype, walk_eq, Nat.zero_max, Nat.zero_add, nodeAt_snoc hnode, isSome_getElem?]
    by_cases hlt : index.toNat < node.child.length
    · rw [if_pos hlt]
      exact Or.inr ⟨rfl, ⟨node, hnode, htype⟩, hlt⟩
    · rw [if_neg hlt]
      exact Or.inl ⟨rfl, fun h => hlt h.2⟩
  · rw [if_neg htype]
    refine Or.inl ⟨rfl, ?_⟩
    rintro ⟨⟨other, hp, hother⟩, -⟩
    rw [hnode] at hp
    obtain rfl := Option.some.inj hp
    exact htype hother

theorem PointsTo.isSome {type : CJSONType} {p : Position} (h : PointsTo root type p) :
    (nodeAt root p).isSome = true := by
  obtain ⟨node, hnode, -⟩ := h
  rw [hnode]
  rfl

/-- **A call by index answers as it should exactly when it is careful.** -/
theorem answers_byIndex_iff (root : CJSON) (s : Cursors) (index : ℤ) (fromChild : Bool) :
    Answers root s (.loadChildObjectFromChildArrayByIndex index fromChild)
      ↔ Careful root s (.loadChildObjectFromChildArrayByIndex index fromChild) := by
  have hmove : moveCursors root s (.loadChildObjectFromChildArrayByIndex index fromChild)
      = (some (loadChildObjectFromChildArrayByIndex root s index fromChild).1,
        (loadChildObjectFromChildArrayByIndex root s index fromChild).2) := rfl
  rcases loadChildObjectFromChildArrayByIndex_eq root s index fromChild with
    ⟨hr, hnone⟩ | ⟨hr, harray, helem⟩
  · -- no element: the call returns false, and there is no object
    rw [hr] at hmove
    refine iff_of_true ⟨fun _ => by rw [hmove], ?_, ?_⟩ (fun ha he => absurd ⟨ha, he⟩ hnone)
    · rintro _ _ ⟨⟩
      rw [hmove]
      exact iff_of_false (fun h => by cases h) (fun h => hnone ⟨h.1, h.2.2.isSome⟩)
    · rintro _ _ ⟨⟩ htrue
      rw [hmove] at htrue
      cases htrue
  · rw [hr] at hmove
    constructor
    · exact fun h _ _ => ((h.byIndex index fromChild rfl).mp (by rw [hmove])).2
    · intro h
      refine ⟨fun hfalse => ?_, ?_, ?_⟩
      · rw [hmove] at hfalse
        cases hfalse
      · rintro _ _ ⟨⟩
        rw [hmove]
        exact iff_of_true rfl ⟨harray, h harray helem⟩
      · rintro _ _ ⟨⟩ -
        rw [hmove]

/-- **A call answers as it should exactly when it is careful.** -/
theorem answers_iff (root : CJSON) (s : Cursors) (call : CursorCall) :
    Answers root s call ↔ Careful root s call := by
  cases call with
  | loadChildObject name fromChild =>
    have hrefused := unchanged_of_cases (loadChildObject_cases root s name fromChild)
    exact iff_of_true ⟨hrefused, fun _ _ => nofun, fun _ _ => nofun⟩ trivial
  | loadChildArray name fromChild =>
    have hrefused := unchanged_of_cases (loadChildArray_cases root s name fromChild)
    exact iff_of_true ⟨hrefused, fun _ _ => nofun, fun _ _ => nofun⟩ trivial
  | releaseChild => exact iff_of_true ⟨nofun, fun _ _ => nofun, fun _ _ => nofun⟩ trivial
  | loadChildObjectFromChildArrayByIndex index fromChild =>
    exact answers_byIndex_iff root s index fromChild

/-- **A careful call leaves the cursors where they should stand.** -/
theorem Inside.moveCursors (h : Inside root s) (hcareful : Careful root s call) :
    Inside root (moveCursors root s call).2 := by
  cases call with
  | loadChildObject name fromChild =>
    show Inside root (loadChildObject root s name fromChild).2
    rcases loadChildObject_cases root s name fromChild with hr | ⟨q, hq, hr⟩
    · rw [hr]
      exact h
    · rw [hr]
      refine ⟨?_, h.array⟩
      rintro _ ⟨⟩
      exact hq
  | loadChildArray name fromChild =>
    show Inside root (loadChildArray root s name fromChild).2
    rcases loadChildArray_cases root s name fromChild with hr | ⟨q, hq, hr⟩
    · rw [hr]
      exact h
    · rw [hr]
      refine ⟨h.child, ?_⟩
      rintro _ ⟨⟩
      exact hq
  | releaseChild => exact ⟨fun _ => nofun, fun _ => nofun⟩
  | loadChildObjectFromChildArrayByIndex index fromChild =>
    show Inside root (loadChildObjectFromChildArrayByIndex root s index fromChild).2
    rcases loadChildObjectFromChildArrayByIndex_eq root s index fromChild with
      ⟨hr, -⟩ | ⟨hr, harray, helem⟩
    · rw [hr]
      exact h
    · rw [hr]
      refine ⟨?_, h.array⟩
      rintro _ ⟨⟩
      exact (hcareful harray helem).2

/-! ## Sequences of calls -/

theorem cursorsAfter_snoc (root : CJSON) (calls : List CursorCall) (call : CursorCall) :
    cursorsAfter root (calls ++ [call]) = (moveCursors root (cursorsAfter root calls) call).2 := by
  unfold cursorsAfter
  rw [List.foldl_append]
  rfl

/-- Careful calls leave the cursors where they should stand, by induction on
the calls from the last one. -/
theorem inside_cursorsAfter (hcareful : ∀ before call after, calls = before ++ call :: after →
    Careful root (cursorsAfter root before) call) : Inside root (cursorsAfter root calls) := by
  induction calls using List.reverseRecOn with
  | nil => exact ⟨fun _ => nofun, fun _ => nofun⟩
  | append_singleton calls call ih =>
    rw [cursorsAfter_snoc]
    refine (ih (fun before c after heq => ?_)).moveCursors (hcareful calls call [] rfl)
    exact hcareful before c (after ++ [call]) (by rw [heq]; simp)

/-- **The law of the cursors holds of a sequence of calls exactly when every
call is careful**: each call by index finds no element, or an object at an
index that is not below zero. -/
theorem lawful_iff (root : CJSON) (calls : List CursorCall) :
    Lawful root calls ↔ ∀ before call after, calls = before ++ call :: after →
      Careful root (cursorsAfter root before) call := by
  constructor
  · exact fun h before call after heq => (answers_iff root _ call).mp (h.2 before call after heq)
  · intro h
    refine ⟨fun before after heq => ?_, fun before call after heq =>
      (answers_iff root _ call).mpr (h before call after heq)⟩
    refine inside_cursorsAfter (fun before' call after' heq' => ?_)
    exact h before' call (after' ++ after) (by rw [heq, heq']; simp)

/-- **A number becomes the `child`**, and an index below zero finds it. -/
theorem number_becomes_child :
    ∃ root, CJSON.parse (lit "[1]") = some root
      ∧ ¬ Lawful root [.loadChildObjectFromChildArrayByIndex 0 true]
      ∧ ¬ Lawful root [.loadChildObjectFromChildArrayByIndex (-1) true] := by
  refine ⟨_, rfl, fun h => ?_, fun h => ?_⟩
  · obtain ⟨node, hnode, htype⟩ := (h.1 [_] [] rfl).child [0] rfl
    cases hnode
    cases htype
  · have hobject := ((h.2 [] _ [] rfl).byIndex (-1) true rfl).mp rfl
    exact absurd hobject.2.1 (by decide)

end LibJson
