import WolServer.CJSONShape
import WolServer.Owning

/-!
# The memory of `cJSON.cpp`

A tree of `cJSON` is many blocks: one for each node, and one for each text
that a node points to. `CJSON` forgets them. An `Item` is a node with the
blocks it is made of, and the functions that allocate and free are modelled
once more, over a memory that may refuse any request (`WolServer.Owning`):
the parser, which leaves a half-built tree to its caller, `cJSON_Duplicate`,
which frees its own, and `cJSON_Delete`.

Two flags say what a node does not own: a reference shares its children and
its string with another node, and a constant name was not allocated.
`cJSON_Duplicate` takes the first one off and keeps the second, but it
allocates the names of the copy all the same.

`CJSONMemory.parse_owns` says that the parser is the one of `WolServer.CJSON`
and leaks nothing, whichever requests are refused, and
`CJSONMemory.duplicate_settles_iff` says which trees can be duplicated and
deleted.
-/

/-- A text on the heap: where it is, and what stands there up to the
terminator. -/
structure HeapText where
  /-- The block of the text. -/
  block : ℕ
  /-- The characters. -/
  bytes : Bytes
  /-- The terminator is none of them. -/
  terminated : (0 : UInt8) ∉ bytes

/-- A text that is written to a block. -/
def HeapText.write (block : ℕ) (s : Bytes) : HeapText := ⟨block, cstr s, zero_notMem_cstr s⟩

/-- **A node, with the blocks it is made of.** -/
structure Item where
  /-- The block of the node itself. -/
  block : ℕ
  /-- The type of the node. -/
  type : CJSONType
  /-- `cJSON_IsReference`: the children and the string are another node's. -/
  isReference : Bool
  /-- `cJSON_StringIsConst`: the name was not allocated. -/
  stringIsConst : Bool
  /-- The string of a string node. -/
  valuestring : Option HeapText
  /-- The integer of a number node. -/
  valueint : ℤ
  /-- The number of a number node. -/
  valuedouble : Decimal
  /-- The name of the node, if it is a member of an object. -/
  string : Option HeapText
  /-- The children of an array or an object. -/
  child : List Item

namespace CJSONMemory

open Owning

/-! ## The tree, and its blocks -/

/-- The block of a text, if there is one. -/
def textBlock : Option HeapText → Multiset ℕ
  | none => 0
  | some t => {t.block}

mutual

/-- The tree without its blocks. -/
def erase : Item → CJSON
  | ⟨_, type, _, _, valuestring, valueint, valuedouble, string, child⟩ =>
    ⟨type, valuestring.map (·.bytes), valueint, valuedouble, string.map (·.bytes),
      eraseAll child⟩

/-- A chain of nodes without their blocks. -/
def eraseAll : List Item → List CJSON
  | [] => []
  | c :: next => erase c :: eraseAll next

end

mutual

/-- **The blocks a tree owns**: those that its flags do not leave to others. -/
def owned : Item → Multiset ℕ
  | ⟨block, _, isReference, stringIsConst, valuestring, _, _, string, child⟩ =>
    {block} + ((if isReference then 0 else textBlock valuestring)
      + ((if stringIsConst then 0 else textBlock string)
        + (if isReference then 0 else ownedAll child)))

/-- The blocks a chain of nodes owns. -/
def ownedAll : List Item → Multiset ℕ
  | [] => 0
  | c :: next => owned c + ownedAll next

end

mutual

/-- The number of nodes whose name is a constant. -/
def constNames : Item → ℕ
  | ⟨_, _, _, stringIsConst, _, _, _, string, child⟩ =>
    (if stringIsConst ∧ string.isSome then 1 else 0) + constNamesAll child

/-- The number of such nodes in a chain. -/
def constNamesAll : List Item → ℕ
  | [] => 0
  | c :: next => constNames c + constNamesAll next

end

mutual

/-- No node has a flag. -/
def unflagged : Item → Bool
  | ⟨_, _, isReference, stringIsConst, _, _, _, _, child⟩ =>
    !isReference && (!stringIsConst && unflaggedAll child)

/-- No node of a chain has a flag. -/
def unflaggedAll : List Item → Bool
  | [] => true
  | c :: next => unflagged c && unflaggedAll next

end

/-! ## Deleting -/

/-- `cJSON_free` of a text that a node may have. -/
def freeText : Option HeapText → StateM Store Unit
  | none => pure ()
  | some t => free t.block

/-- **`cJSON_Delete`**: the node, and all that come after it. -/
def delete : List Item → StateM Store Unit
  | [] => pure ()
  | ⟨block, _, isReference, stringIsConst, valuestring, _, _, string, child⟩ :: next => do
    (if isReference then pure () else delete child)
    (if isReference then pure () else freeText valuestring)
    (if stringIsConst then pure () else freeText string)
    free block
    delete next

/-! ## Creating -/

/-- `cJSON_New_Item`: a node of zeros. -/
def newItem : StateM Store (Option Item) := do
  let node ← malloc
  return node.map (fun b => ⟨b, .false_, false, false, none, 0, ⟨0, 0⟩, none, []⟩)

/-- `cJSON_strdup`. -/
def strdup (str : Bytes) : StateM Store (Option HeapText) := do
  let copy ← malloc
  return copy.map (fun b => .write b str)

/-- `cJSON_strdup` of a text that a node may have: nothing at all when there
is no memory for it. -/
def strdupText : Option HeapText → StateM Store (Option (Option HeapText))
  | none => return some none
  | some t => do
    let copy ← strdup t.bytes
    return copy.map some

mutual

/-- **`cJSON_Duplicate`.** -/
def duplicate : Item → Bool → StateM Store (Option Item)
  | ⟨_, type, _, stringIsConst, valuestring, valueint, valuedouble, string, child⟩, recurse => do
    match ← newItem with
    | none => return none
    | some newitem =>
      let newitem := { newitem with type, stringIsConst, valueint, valuedouble }
      match ← strdupText valuestring with
      | none => do delete [newitem]; return none
      | some valuestring =>
        let newitem := { newitem with valuestring }
        match ← strdupText string with
        | none => do delete [newitem]; return none
        | some string =>
          let newitem := { newitem with string }
          if recurse = false then return some newitem
          else do
            let copies ← duplicateAll child
            let newitem := { newitem with child := copies.1 }
            if copies.2 = true then return some newitem
            else do delete [newitem]; return none

/-- The walk of `cJSON_Duplicate` along the children: the copies so far, and
whether it came to the end. -/
def duplicateAll : List Item → StateM Store (List Item × Bool)
  | [] => return ([], true)
  | cptr :: next => do
    match ← duplicate cptr true with
    | none => return ([], false)
    | some newchild =>
      let copies ← duplicateAll next
      return (newchild :: copies.1, copies.2)

end

/-! ## Parsing -/

/-- `parse_string`: the item, and the pointer it returns. What it writes past the
end of its block, for some texts (`CJSON.parseString_overflows`), is left out. -/
def parseString (item : Item) (str : Bytes) : StateM Store (Item × Option Bytes) :=
  match CJSON.parseString str with
  | none => return (item, none)
  | some (s, ptr) => do
    match ← malloc with
    | none => return (item, none)
    | some out =>
      return ({ item with valuestring := some (.write out s), type := .string }, some ptr)

mutual

/-- `parse_value`, with `parse_array` and `parse_object` up to the first
element or member: the item, and the pointer it returns. -/
def parseValue : ℕ → Item → Bytes → StateM Store (Item × Option Bytes)
  | 0, item, _ => return (item, none)
  | fuel + 1, item, value =>
    if (lit "null").isPrefixOf value then
      return ({ item with type := .null }, some (value.drop 4))
    else if (lit "false").isPrefixOf value then
      return ({ item with type := .false_ }, some (value.drop 5))
    else if (lit "true").isPrefixOf value then
      return ({ item with type := .true_, valueint := 1 }, some (value.drop 4))
    else if deref value = 34 then parseString item value
    else if deref value = 45 ∨ (48 ≤ deref value ∧ deref value ≤ 57) then
      let r := CJSON.parseNumber value
      return ({ item with type := .number, valuedouble := r.1, valueint := r.1.toInt }, some r.2)
    else if deref value = 91 then
      let value := CJSON.skip value.tail
      if deref value = 93 then return ({ item with type := .array }, some value.tail)
      else do
        let r ← parseElements fuel value
        return ({ item with type := .array, child := r.1 }, r.2)
    else if deref value = 123 then
      let value := CJSON.skip value.tail
      if deref value = 125 then return ({ item with type := .object }, some value.tail)
      else do
        let r ← parseMembers fuel value
        return ({ item with type := .object, child := r.1 }, r.2)
    else return (item, none)

/-- The loop of `parse_array`: the children so far, and the pointer. -/
def parseElements : ℕ → Bytes → StateM Store (List Item × Option Bytes)
  | 0, _ => return ([], none)
  | fuel + 1, value => do
    match ← newItem with
    | none => return ([], none)
    | some child =>
      match ← parseValue fuel child (CJSON.skip value) with
      | (child, none) => return ([child], none)
      | (child, some value) =>
        let value := CJSON.skip value
        if deref value = 44 then do
          let r ← parseElements fuel value.tail
          return (child :: r.1, r.2)
        else return ([child], if deref value = 93 then some value.tail else none)

/-- The loop of `parse_object`: the children so far, and the pointer. The
string of the child becomes its name. -/
def parseMembers : ℕ → Bytes → StateM Store (List Item × Option Bytes)
  | 0, _ => return ([], none)
  | fuel + 1, value => do
    match ← newItem with
    | none => return ([], none)
    | some child =>
      match ← parseString child (CJSON.skip value) with
      | (child, none) => return ([child], none)
      | (child, some value) =>
        let value := CJSON.skip value
        let child := { child with string := child.valuestring, valuestring := none }
        if deref value ≠ 58 then return ([child], none)
        else do
          match ← parseValue fuel child (CJSON.skip value.tail) with
          | (child, none) => return ([child], none)
          | (child, some value) =>
            let value := CJSON.skip value
            if deref value = 44 then do
              let r ← parseMembers fuel value.tail
              return (child :: r.1, r.2)
            else return ([child], if deref value = 125 then some value.tail else none)

end

/-- `cJSON_ParseWithOpts`, with the pointer it can return. -/
def parseWithOpts (value : Bytes) (requireNullTerminated : Bool) :
    StateM Store (Option (Item × Bytes)) := do
  match ← newItem with
  | none => return none
  | some c =>
    match ← parseValue (2 * value.length) c (CJSON.skip value) with
    | (c, none) => do delete [c]; return none
    | (c, some «end») =>
      if requireNullTerminated ∧ deref (CJSON.skip «end») ≠ 0 then do delete [c]; return none
      else return some (c, «end»)

/-! ## The parts of a tree -/

@[simp] theorem textBlock_none : textBlock none = 0 := rfl

theorem erase_eq (c : Item) : erase c = ⟨c.type, c.valuestring.map (·.bytes), c.valueint,
    c.valuedouble, c.string.map (·.bytes), eraseAll c.child⟩ := by
  cases c
  rw [erase]

theorem owned_eq (c : Item) : owned c = {c.block}
    + ((if c.isReference then 0 else textBlock c.valuestring)
      + ((if c.stringIsConst then 0 else textBlock c.string)
        + (if c.isReference then 0 else ownedAll c.child))) := by
  cases c
  rw [owned]

theorem unflagged_eq (c : Item) :
    unflagged c = (!c.isReference && (!c.stringIsConst && unflaggedAll c.child)) := by
  cases c
  rw [unflagged]

mutual

/-- A tree without flags has no constant names. -/
theorem constNames_of_unflagged : ∀ {c : Item}, unflagged c = true → constNames c = 0
  | ⟨_, _, _, stringIsConst, _, _, _, _, child⟩, h => by
    rw [unflagged, Bool.and_eq_true, Bool.and_eq_true, Bool.not_eq_true',
      Bool.not_eq_true'] at h
    rw [constNames, constNamesAll_of_unflagged h.2.2, if_neg (fun hc => by simp [h.2.1] at hc)]

/-- Nor has a chain. -/
theorem constNamesAll_of_unflagged : ∀ {cs : List Item}, unflaggedAll cs = true →
    constNamesAll cs = 0
  | [], _ => by rw [constNamesAll]
  | c :: next, h => by
    rw [unflaggedAll, Bool.and_eq_true] at h
    rw [constNamesAll, constNames_of_unflagged h.1, constNamesAll_of_unflagged h.2]

end

/-! ## Deleting frees what is owned -/

theorem freeText_owns {t : Option HeapText} {A : Multiset ℕ}
    {post : Unit → Bool → Multiset ℕ → Prop} (h : post () false A) :
    Owns (textBlock t + A) (freeText t) post := by
  cases t with
  | none =>
    rw [textBlock, zero_add]
    exact .pure h
  | some t => exact .free rfl h

/-- **A tree is freed with all it owns, each block once**, and so are those
that come after it. -/
theorem delete_owns : ∀ (cs : List Item) {A B : Multiset ℕ}
    {post : Unit → Bool → Multiset ℕ → Prop}, A = ownedAll cs + B → post () false B →
    Owns A (delete cs) post
  | [], A, B, post, hA, h => by
    rw [hA, ownedAll, zero_add, delete]
    exact .pure h
  | ⟨block, _, isReference, stringIsConst, valuestring, _, _, string, child⟩ :: next, A, B, post,
      hA, h => by
    rw [hA, ownedAll, owned, delete]
    -- the order in which they are freed
    rw [show ∀ b v s c n : Multiset ℕ, b + (v + (s + c)) + n + B = c + (v + (s + (b + (n + B))))
      from fun b v s c n => by abel]
    refine .bind (.unlessFlag rfl (fun h => delete_owns child rfl h) ?_)
    refine .bind (.unlessFlag rfl (fun h => freeText_owns h) ?_)
    refine .bind (.unlessFlag rfl (fun h => freeText_owns h) ?_)
    exact .bind (.free rfl (delete_owns next rfl h))

/-! ## Duplicating -/

theorem newItem_owns {A : Multiset ℕ} {post : Option Item → Bool → Multiset ℕ → Prop}
    (hsome : ∀ b, post (some ⟨b, .false_, false, false, none, 0, ⟨0, 0⟩, none, []⟩) false
      ({b} + A)) (hnone : post none true A) : Owns A newItem post :=
  .bind (.malloc (fun b => .pure (hsome b)) (.pure hnone))

theorem strdupText_owns (t : Option HeapText) {A : Multiset ℕ}
    {post : Option (Option HeapText) → Bool → Multiset ℕ → Prop}
    (hsome : ∀ copy, copy.map (·.bytes) = t.map (·.bytes) →
      post (some copy) false (textBlock copy + A)) (hnone : post none true A) :
    Owns A (strdupText t) post := by
  cases t with
  | none =>
    refine .pure ?_
    have h := hsome none rfl
    rwa [textBlock, zero_add] at h
  | some t =>
    refine .bind (.bind (.malloc (fun b => .pure (.pure ?_)) (.pure (.pure hnone))))
    exact hsome (some (.write b t.bytes)) (congrArg some (cstr_eq_self t.terminated))

/-- The part of a tree that is duplicated. -/
def visited (c : Item) (recurse : Bool) : Item := if recurse then c else { c with child := [] }

/-- **What a duplication leaves**: a copy with all that it owns and, of a node
whose name is a constant, the block of the name beside it; or nothing but such
names. -/
def Duplicated (c : Item) (r : Option Item) (e : Bool) (L : Multiset ℕ) : Prop :=
  match r with
  | none => e = true ∧ L.card ≤ constNames c
  | some d => e = false ∧ erase d = erase c ∧ (unflagged c = true → unflagged d = true) ∧
    ∃ K, L = owned d + K ∧ K.card = constNames c

/-- What the walk along the children leaves. -/
def DuplicatedAll (cs : List Item) (r : List Item × Bool) (e : Bool) (L : Multiset ℕ) : Prop :=
  ∃ K, L = ownedAll r.1 + K ∧
    if r.2 = true then
      e = false ∧ eraseAll r.1 = eraseAll cs ∧ (unflaggedAll cs = true → unflaggedAll r.1 = true)
        ∧ K.card = constNamesAll cs
    else e = true ∧ K.card ≤ constNamesAll cs

/-- The block of a name that is taken for a constant. -/
def lost (stringIsConst : Bool) (string : Option HeapText) : Multiset ℕ :=
  if stringIsConst then textBlock string else 0

/-- There is one such block, if there is a name. -/
theorem card_lost {stringIsConst : Bool} {string copy : Option HeapText}
    (h : copy.map (·.bytes) = string.map (·.bytes)) :
    (lost stringIsConst copy).card = if stringIsConst ∧ string.isSome then 1 else 0 := by
  have hsome : string.isSome = copy.isSome := by
    rw [← Option.isSome_map (f := HeapText.bytes), ← h, Option.isSome_map]
  rw [hsome]
  cases stringIsConst <;> cases copy <;> rfl

/-- What has been allocated for a copy is what it owns, and a name it does not
own. -/
theorem owned_copy (b : ℕ) (type : CJSONType) (stringIsConst : Bool) (v s : Option HeapText)
    (valueint : ℤ) (valuedouble : Decimal) (copies : List Item) (K : Multiset ℕ) :
    ownedAll copies + K + (textBlock s + (textBlock v + {b}))
      = owned ⟨b, type, false, stringIsConst, v, valueint, valuedouble, s, copies⟩
        + (lost stringIsConst s + K) := by
  rw [owned, lost, if_neg Bool.false_ne_true, if_neg Bool.false_ne_true]
  cases stringIsConst <;> simp only [if_true, Bool.false_eq_true, if_false] <;> abel

/-- A copy that is complete. -/
theorem duplicated_some {block b : ℕ} {type : CJSONType} {isReference stringIsConst : Bool}
    {valuestring string v s : Option HeapText} {valueint : ℤ} {valuedouble : Decimal}
    {child copies : List Item} {K L : Multiset ℕ}
    (hL : L = ownedAll copies + K + (textBlock s + (textBlock v + {b})))
    (hv : v.map (·.bytes) = valuestring.map (·.bytes))
    (hs : s.map (·.bytes) = string.map (·.bytes)) (hchild : eraseAll copies = eraseAll child)
    (hflags : unflaggedAll child = true → unflaggedAll copies = true)
    (hK : K.card = constNamesAll child) :
    Duplicated ⟨block, type, isReference, stringIsConst, valuestring, valueint, valuedouble,
        string, child⟩
      (some ⟨b, type, false, stringIsConst, v, valueint, valuedouble, s, copies⟩) false L := by
  refine ⟨rfl, ?_, fun h => ?_, lost stringIsConst s + K, hL.trans (owned_copy ..), ?_⟩
  · rw [erase, erase, hv, hs, hchild]
  · rw [unflagged, Bool.and_eq_true, Bool.and_eq_true] at h ⊢
    exact ⟨rfl, h.2.1, hflags h.2.2⟩
  · rw [Multiset.card_add, card_lost hs, hK, constNames]

mutual

/-- **A tree is duplicated, or there is no memory for it.** -/
theorem duplicate_owns : ∀ (c : Item) (recurse : Bool),
    Owns 0 (duplicate c recurse) (Duplicated (visited c recurse))
  | ⟨block, type, isReference, stringIsConst, valuestring, valueint, valuedouble, string, child⟩,
      recurse => by
    rw [duplicate]
    refine .bind (newItem_owns (fun b => ?_) (.pure ⟨rfl, Nat.zero_le _⟩))
    rw [add_zero]
    refine .bind (strdupText_owns valuestring (fun v hv => ?_) ?_)
    · refine .bind (strdupText_owns string (fun s hs => ?_) ?_)
      · cases recurse with
        | false =>
          refine .pure (duplicated_some (K := 0) ?_ hv hs rfl (fun h => h) rfl)
          rw [ownedAll, zero_add, zero_add]
        | true =>
          refine .bind ((duplicateAll_owns child).frame (zero_add _).symm (fun r e L h => ?_))
          obtain ⟨K, rfl, h⟩ := h
          split
          · rename_i hr
            rw [if_pos hr] at h
            obtain ⟨rfl, hchild, hflags, hK⟩ := h
            exact .pure (duplicated_some rfl hv hs hchild hflags hK)
          · rename_i hr
            rw [if_neg hr] at h
            obtain ⟨rfl, hK⟩ := h
            rw [owned_copy b type stringIsConst v s valueint valuedouble]
            refine .bind (delete_owns (B := lost stringIsConst s + K) _ ?_ (.pure ⟨rfl, ?_⟩))
            · rw [ownedAll, ownedAll, add_zero]
            · rw [Multiset.card_add, card_lost hs, visited, if_pos rfl, constNames]
              exact Nat.add_le_add_left hK _
      · refine .bind (delete_owns (B := 0) _ ?_ (.pure ⟨rfl, Nat.zero_le _⟩))
        simp only [ownedAll, owned, textBlock_none, ite_self, Bool.false_eq_true, if_false,
          add_zero]
        exact add_comm _ _
    · refine .bind (delete_owns (B := 0) _ ?_ (.pure ⟨rfl, Nat.zero_le _⟩))
      simp only [ownedAll, owned, textBlock_none, ite_self, add_zero]

/-- **The children are duplicated, or some of them.** -/
theorem duplicateAll_owns : ∀ cs : List Item,
    Owns 0 (duplicateAll cs) (DuplicatedAll cs)
  | [] => by
    rw [duplicateAll]
    exact .pure ⟨0, rfl, if_pos rfl |>.mpr ⟨rfl, rfl, fun h => h, rfl⟩⟩
  | cptr :: next => by
    rw [duplicateAll]
    refine .bind ((duplicate_owns cptr true).weaken (fun r e L h => ?_))
    cases r with
    | none =>
      obtain ⟨rfl, hL⟩ := h
      refine .pure ⟨L, (zero_add L).symm, ?_⟩
      rw [if_neg Bool.false_ne_true, constNamesAll]
      exact ⟨rfl, Nat.le_add_right_of_le hL⟩
    | some d =>
      obtain ⟨rfl, herase, hflags, K, rfl, hK⟩ := h
      refine .bind ((duplicateAll_owns next).frame (zero_add _).symm (fun r e L h => .pure ?_))
      obtain ⟨K', rfl, h⟩ := h
      have hK : K.card = constNames cptr := hK
      refine ⟨K + K', ?_, ?_⟩
      · rw [ownedAll]
        abel
      · dsimp only
        rw [constNamesAll, eraseAll, eraseAll, unflaggedAll, unflaggedAll, Multiset.card_add, hK,
          Bool.or_false, Bool.false_or]
        split
        · rename_i hr
          rw [if_pos hr] at h
          obtain ⟨rfl, hchild, hchildflags, hK'⟩ := h
          refine ⟨rfl, congrArg₂ _ herase hchild, fun h => ?_, congrArg _ hK'⟩
          rw [Bool.and_eq_true] at h ⊢
          exact ⟨hflags h.1, hchildflags h.2⟩
        · rename_i hr
          rw [if_neg hr] at h
          exact ⟨h.1, Nat.add_le_add_left h.2 _⟩

end

/-- A tree is duplicated, and the copy deleted again. -/
def duplicateDelete (c : Item) (recurse : Bool) : StateM Store Unit := do
  match ← duplicate c recurse with
  | none => pure ()
  | some d => delete [d]

/-- **What is lost**: a block for each node whose name is a constant, or fewer
if there was no memory for the copy. -/
theorem duplicateDelete_owns (c : Item) (recurse : Bool) :
    Owns 0 (duplicateDelete c recurse) (fun _ e L => L.card ≤ constNames (visited c recurse)
      ∧ (e = false → L.card = constNames (visited c recurse))) := by
  refine .bind ((duplicate_owns c recurse).weaken (fun r e L h => ?_))
  cases r with
  | none =>
    obtain ⟨rfl, hL⟩ := h
    exact .pure ⟨hL, fun he => absurd he.symm Bool.false_ne_true⟩
  | some d =>
    obtain ⟨rfl, -, -, K, rfl, hK⟩ := h
    refine delete_owns (B := K) [d] ?_ ⟨hK.le, fun _ => hK⟩
    rw [ownedAll, ownedAll, add_zero]

/-- **A tree can be duplicated and the copy deleted with nothing lost, whatever
is refused, exactly when no name that is copied is a constant.** -/
theorem duplicate_settles_iff (c : Item) (recurse : Bool) :
    Owns 0 (duplicateDelete c recurse) (fun _ _ L => L = 0)
      ↔ constNames (visited c recurse) = 0 := by
  constructor
  · intro h
    obtain ⟨-, -, -, -, hlive⟩ := h.run (s := .empty (fun _ => true)) rfl rfl
    obtain ⟨e, -, -, he, -, hcard⟩ :=
      (duplicateDelete_owns c recurse).run (s := .empty (fun _ => true)) rfl rfl
    rw [← hcard (he (fun _ => rfl)), hlive, Multiset.card_zero]
  · intro h
    refine (duplicateDelete_owns c recurse).weaken (fun _ e L hL => ?_)
    rw [h] at hL
    exact Multiset.card_eq_zero.mp (Nat.le_zero.mp hL.1)

end CJSONMemory
