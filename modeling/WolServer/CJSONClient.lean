import WolServer.CJSONOwned
import WolServer.Stores

/-!
# Operations on trees of blocks

What a program does with the trees of `cJSON.cpp` beyond parsing and printing:
it creates them, stores strings into them, moves one into another and takes a
child out again. Each operation is modelled on the trees alone (`CJSON`), as
if there were always memory, and on `Item`s, where any request may be refused;
and of each there is a lemma that says what is left.

The children of a node are a list here, and no node has a flag:
`cJSON_AddItemToObject` frees the name of its item also when that is a
constant.
-/

/-! ## Lists of children -/

/-- `cJSON_InsertItemInArray`, on the children: before the child at an index,
or at the end. -/
def insertChild {α : Type} (child : List α) (which : ℤ) (newitem : α) : List α :=
  if which.toNat < child.length then child.insertIdx which.toNat newitem else child ++ [newitem]

theorem insertChild_perm {α : Type} (child : List α) (which : ℤ) (newitem : α) :
    (insertChild child which newitem).Perm (newitem :: child) := by
  unfold insertChild
  split
  · rename_i h
    exact List.perm_insertIdx newitem child h.le
  · exact List.perm_append_singleton newitem child

theorem map_insertChild {α β : Type} (f : α → β) (child : List α) (which : ℤ) (newitem : α) :
    (insertChild child which newitem).map f = insertChild (child.map f) which (f newitem) := by
  unfold insertChild
  rw [List.length_map]
  split
  · rw [List.map_insertIdx]
  · rw [List.map_append, List.map_singleton]

namespace CJSON

/-- `cJSON_CreateNumber`. -/
def createNumber (num : Decimal) : CJSON :=
  { newItem with type := .number, valuedouble := num, valueint := num.toInt }

/-- `cJSON_CreateString`, if there is memory for the string. -/
def createString (string : Bytes) : CJSON :=
  { newItem with type := .string, valuestring := some (cstr string) }

/-- `cJSON_AddItemToArray`. -/
def addItemToArray (array item : CJSON) : CJSON := { array with child := array.child ++ [item] }

/-- `cJSON_AddItemToObject`, if there is memory for the name. -/
def addItemToObject (object : CJSON) (string : Bytes) (item : CJSON) : CJSON :=
  object.addItemToArray { item with string := some (cstr string) }

/-- `cJSON_InsertItemInArray`. -/
def insertItemInArray (array : CJSON) (which : ℤ) (newitem : CJSON) : CJSON :=
  { array with child := insertChild array.child which newitem }

/-- `cJSON_DetachItemFromArray`: the child, and the array without it. -/
def detachItemFromArray (array : CJSON) (which : ℤ) : Option (CJSON × CJSON) :=
  array.child[which.toNat]?.map
    (fun c => (c, { array with child := array.child.eraseIdx which.toNat }))

/-- `cJSON_ReplaceItemInArray`: the array with the new child, if there was an
old one. -/
def replaceItemInArray (array : CJSON) (which : ℤ) (newitem : CJSON) : Option CJSON :=
  array.child[which.toNat]?.map
    (fun _ => { array with child := array.child.set which.toNat newitem })

end CJSON

namespace CJSONMemory

open Owning

/-! ## Chains -/

theorem eraseAll_eq_map (cs : List Item) : eraseAll cs = cs.map erase := by
  induction cs with
  | nil => rw [eraseAll, List.map_nil]
  | cons c cs ih => rw [eraseAll, ih, List.map_cons]

theorem ownedAll_eq_sum (cs : List Item) : ownedAll cs = (cs.map owned).sum := by
  induction cs with
  | nil => rw [ownedAll, List.map_nil, List.sum_nil]
  | cons c cs ih => rw [ownedAll, ih, List.map_cons, List.sum_cons]

theorem unflaggedAll_iff {cs : List Item} :
    unflaggedAll cs = true ↔ ∀ c ∈ cs, unflagged c = true := by
  induction cs with
  | nil => simp [unflaggedAll]
  | cons c cs ih => rw [unflaggedAll, Bool.and_eq_true, ih, List.forall_mem_cons]

theorem ownedAll_perm {cs ds : List Item} (h : cs.Perm ds) : ownedAll cs = ownedAll ds := by
  rw [ownedAll_eq_sum, ownedAll_eq_sum]
  exact (h.map owned).sum_eq

/-- One node and the others. -/
theorem ownedAll_eraseIdx {cs : List Item} {i : ℕ} {c : Item} (h : cs[i]? = some c) :
    ownedAll cs = owned c + ownedAll (cs.eraseIdx i) := by
  obtain ⟨hi, rfl⟩ := List.getElem?_eq_some_iff.mp h
  exact ownedAll_perm (List.getElem_cons_eraseIdx_perm hi).symm

theorem ownedAll_set {cs : List Item} {i : ℕ} {c : Item} (h : cs[i]? = some c) (d : Item) :
    ownedAll (cs.set i d) = owned d + ownedAll (cs.eraseIdx i) := by
  obtain ⟨hi, -⟩ := List.getElem?_eq_some_iff.mp h
  rw [ownedAll_eraseIdx (List.getElem?_set_self hi), List.eraseIdx_set_eq]

/-- What a node owns that has no flag. -/
theorem owned_of_unflagged {c : Item} (h : unflagged c = true) : owned c = {c.block}
    + (textBlock c.valuestring + (textBlock c.string + ownedAll c.child)) := by
  rw [unflagged_eq, Bool.and_eq_true, Bool.and_eq_true, Bool.not_eq_true',
    Bool.not_eq_true'] at h
  rw [owned_eq, h.1, h.2.1]
  simp only [Bool.false_eq_true, if_false]

/-! ## Operations on trees -/

/-- `cJSON_CreateString`. -/
def createString (string : Bytes) : StateM Store (Option Item) := do
  match ← newItem with
  | none => return none
  | some item => do
    let copy ← strdup string
    return some { item with type := .string, valuestring := copy }

/-- `cJSON_AddItemToArray`. -/
def addItemToArray (array item : Item) : Item := { array with child := array.child ++ [item] }

/-- `cJSON_AddItemToObject`: the old name is freed, whatever it is, and the
new one copied. -/
def addItemToObject (object : Item) (string : Bytes) (item : Item) : StateM Store Item := do
  freeText item.string
  let copy ← strdup string
  return addItemToArray object { item with string := copy }

/-- `cJSON_InsertItemInArray`. -/
def insertItemInArray (array : Item) (which : ℤ) (newitem : Item) : Item :=
  { array with child := insertChild array.child which newitem }

/-- `cJSON_DetachItemFromArray`: the child, and the array without it. -/
def detachItemFromArray (array : Item) (which : ℤ) : Option (Item × Item) :=
  array.child[which.toNat]?.map
    (fun c => (c, { array with child := array.child.eraseIdx which.toNat }))

/-- `cJSON_ReplaceItemInArray`: the array with the new child, if there was an
old one, which is deleted. -/
def replaceItemInArray (array : Item) (which : ℤ) (newitem : Item) :
    StateM Store (Option Item) :=
  match array.child[which.toNat]? with
  | none => return none
  | some c => do
    delete [c]
    return some { array with child := array.child.set which.toNat newitem }

/-- `cJSON_strcasecmp` of the name of a node. -/
def named (name : Bytes) (c : Item) : Bool :=
  CJSON.strcaseEq (c.string.map (·.bytes)) name

/-- `Lib_Json::putValueString`: its result, and the tree. -/
def putValueString (root : Item) (name buffer : Bytes) : StateM Store (Bool × Item) :=
  if name = [] then return (false, root)
  else
    let i := root.child.findIdx (named name)
    match root.child[i]? with
    | none => return (false, root)
    | some pTemp =>
      if pTemp.type = .string then do
        -- the old string is freed first
        freeText pTemp.valuestring
        let copy ← strdup buffer
        return (copy.isSome,
          { root with child := root.child.set i { pTemp with valuestring := copy } })
      else return (false, root)

/-! ## What they leave -/

/-- **A tree that is left**, with all it owns; and when nothing was refused,
it is this one. -/
def Left (c : CJSON) (r : Item) (e : Bool) (L : Multiset ℕ) : Prop :=
  L = owned r ∧ unflagged r = true ∧ (e = false → erase r = c)

variable {A : Multiset ℕ}

/-- A text that is copied, or no text. -/
theorem strdup_owns {str : Bytes} {post : Option HeapText → Bool → Multiset ℕ → Prop}
    (hsome : ∀ t : HeapText, t.bytes = cstr str → post (some t) false ({t.block} + A))
    (hnone : post none true A) : Owns A (strdup str) post :=
  .bind (.malloc (fun b => .pure (hsome (.write b str) rfl)) (.pure hnone))

theorem createString_owns (string : Bytes) : Owns 0 (createString string) (fun r e L =>
    match r with
    | none => e = true ∧ L = 0
    | some c => Left (CJSON.createString string) c e L) := by
  refine .bind (newItem_owns (fun b => ?_) (.pure ⟨rfl, rfl⟩))
  refine .bind (strdup_owns (fun t ht => .pure ⟨?_, rfl, fun _ => ?_⟩)
    (.pure ⟨?_, rfl, fun he => absurd he.symm Bool.false_ne_true⟩))
  · rw [owned_of_unflagged rfl]
    simp only [textBlock, ownedAll, add_zero]
    exact add_comm _ _
  · rw [erase, Option.map_some, ht]
    rfl
  · exact owned_new b

/-- Other children, of a node without flags. -/
theorem left_child {c : Item} (hc : unflagged c = true) {l : List Item}
    (hcs : ∀ e ∈ l, unflagged e = true) {B L : Multiset ℕ}
    (hL : L + ownedAll c.child = owned c + (ownedAll l + B)) :
    L = owned { c with child := l } + B ∧ unflagged { c with child := l } = true
      ∧ erase { c with child := l } = { erase c with child := l.map erase } := by
  have hnew : unflagged { c with child := l } = true := by
    rw [unflagged_eq, Bool.and_eq_true, Bool.and_eq_true] at hc ⊢
    exact ⟨hc.1, hc.2.1, unflaggedAll_iff.mpr hcs⟩
  refine ⟨add_right_cancel (b := ownedAll c.child) (hL.trans ?_), hnew, ?_⟩
  · rw [owned_of_unflagged hc, owned_of_unflagged hnew]
    abel
  · rw [erase_eq, erase_eq, eraseAll_eq_map]

theorem unflagged_child {c : Item} (hc : unflagged c = true) :
    ∀ e ∈ c.child, unflagged e = true := by
  rw [unflagged_eq, Bool.and_eq_true, Bool.and_eq_true] at hc
  exact unflaggedAll_iff.mp hc.2.2

/-- **A child is added with all it owns.** -/
theorem insertItemInArray_left {array newitem : Item} (ha : unflagged array = true)
    (hn : unflagged newitem = true) (which : ℤ) :
    Left ((erase array).insertItemInArray which (erase newitem))
      (insertItemInArray array which newitem) false (owned newitem + owned array) := by
  have hperm := insertChild_perm array.child which newitem
  obtain ⟨howned, hflags, herase⟩ := left_child (B := 0) ha
    (l := insertChild array.child which newitem) (L := owned newitem + owned array)
    (fun e he => (List.mem_cons.mp (hperm.mem_iff.mp he)).elim (fun h => h ▸ hn)
      (unflagged_child ha e)) (by rw [ownedAll_perm hperm, ownedAll]; abel)
  refine ⟨howned.trans (add_zero _), hflags, fun _ => herase.trans ?_⟩
  rw [map_insertChild, CJSON.insertItemInArray, erase_eq array, eraseAll_eq_map]

theorem addItemToArray_left {array item : Item} (ha : unflagged array = true)
    (hi : unflagged item = true) : Left ((erase array).addItemToArray (erase item))
      (addItemToArray array item) false (owned item + owned array) := by
  have h := insertItemInArray_left ha hi array.child.length
  have hlen : (erase array).child.length = array.child.length := by
    rw [erase_eq, eraseAll_eq_map, List.length_map]
  rwa [CJSON.insertItemInArray, insertItemInArray, insertChild, insertChild, hlen,
    Int.toNat_natCast, if_neg (Nat.lt_irrefl _), if_neg (Nat.lt_irrefl _)] at h

/-- **A child is added under a name**, and the old name freed. -/
theorem addItemToObject_owns {object item : Item} (ho : unflagged object = true)
    (hi : unflagged item = true) (string : Bytes) :
    Owns (owned item + owned object) (addItemToObject object string item)
      (Left ((erase object).addItemToObject string (erase item))) := by
  obtain ⟨b, type, isReference, stringIsConst, v, valueint, valuedouble, name, child⟩ := item
  have hflags : ∀ s, unflagged ⟨b, type, isReference, stringIsConst, v, valueint, valuedouble, s,
      child⟩ = true := fun s => by
    rw [unflagged] at hi ⊢
    exact hi
  have howned : ∀ s, owned ⟨b, type, isReference, stringIsConst, v, valueint, valuedouble, s,
      child⟩ + owned object
        = textBlock s + ({b} + (textBlock v + ownedAll child) + owned object) := fun s => by
    rw [owned_of_unflagged (hflags s)]
    abel
  rw [howned]
  refine .bind (freeText_owns (.bind (strdup_owns (fun t ht => .pure ?_) (.pure ?_))))
  · have h := addItemToArray_left ho (hflags (some t))
    rw [howned] at h
    refine ⟨h.1, h.2.1, fun _ => (h.2.2 rfl).trans ?_⟩
    rw [CJSON.addItemToObject, erase, erase, Option.map_some, ht]
  · have h := addItemToArray_left ho (hflags none)
    rw [howned, textBlock_none, zero_add] at h
    exact ⟨h.1, h.2.1, fun he => absurd he.symm Bool.false_ne_true⟩

/-- **A child is taken out with all it owns.** -/
theorem detachItemFromArray_left {array : Item} (ha : unflagged array = true) (which : ℤ) :
    match detachItemFromArray array which with
    | none => (erase array).detachItemFromArray which = none
    | some (c, rest) => owned array = owned c + owned rest ∧ unflagged c = true
      ∧ unflagged rest = true
      ∧ (erase array).detachItemFromArray which = some (erase c, erase rest) := by
  have hchild : (erase array).child = array.child.map erase := by
    rw [erase_eq, eraseAll_eq_map]
  rw [detachItemFromArray, CJSON.detachItemFromArray, hchild, List.getElem?_map]
  cases hc : array.child[which.toNat]? with
  | none => rfl
  | some c =>
    obtain ⟨howned, hflags, herase⟩ := left_child (B := owned c) ha
      (l := array.child.eraseIdx which.toNat) (L := owned array)
      (fun e he => unflagged_child ha e (List.mem_of_mem_eraseIdx he))
      (by rw [ownedAll_eraseIdx hc]; abel)
    refine ⟨howned.trans (add_comm _ _), unflagged_child ha c (List.mem_of_getElem? hc), hflags, ?_⟩
    rw [herase, List.eraseIdx_map]
    rfl

/-- **The old child is deleted and the new one put in its place**, or nothing
happens at all. -/
theorem replaceItemInArray_owns {array newitem : Item} (ha : unflagged array = true)
    (hn : unflagged newitem = true) (which : ℤ) :
    Owns (owned newitem + owned array) (replaceItemInArray array which newitem) (fun r e L =>
      match r with
      | none => e = false ∧ L = owned newitem + owned array
        ∧ (erase array).replaceItemInArray which (erase newitem) = none
      | some r => e = false ∧ ∃ c,
        (erase array).replaceItemInArray which (erase newitem) = some c ∧ Left c r e L) := by
  have hchild : (erase array).child = array.child.map erase := by
    rw [erase_eq, eraseAll_eq_map]
  rw [replaceItemInArray, CJSON.replaceItemInArray, hchild, List.getElem?_map]
  cases hc : array.child[which.toNat]? with
  | none => exact .pure ⟨rfl, rfl, rfl⟩
  | some c =>
    obtain ⟨howned, hflags, herase⟩ := left_child (B := owned c) ha
      (l := array.child.set which.toNat newitem) (L := owned newitem + owned array)
      (fun e he => (List.mem_or_eq_of_mem_set he).elim (unflagged_child ha e) (fun h => h ▸ hn))
      (by rw [ownedAll_set hc, ownedAll_eraseIdx hc]; abel)
    rw [howned, add_comm]
    refine .bind (delete_owns [c] ?_ (.pure ⟨rfl, _, rfl, rfl, hflags, fun _ => ?_⟩))
    · rw [ownedAll, ownedAll, add_zero]
    · rw [herase, List.map_set]

/-- Where the first child of a name stands. -/
theorem findIdx_erase (root : Item) (name : Bytes) :
    (erase root).child.findIdx (fun c => CJSON.strcaseEq c.string name)
      = root.child.findIdx (named name) := by
  rw [erase_eq, eraseAll_eq_map, List.findIdx_map]
  congr 1
  funext c
  rw [Function.comp_apply, erase_eq, named]

theorem getObjectItem_erase (root : Item) (name : Bytes) : (erase root).getObjectItem name
    = root.child[root.child.findIdx (named name)]?.map erase := by
  rw [CJSON.getObjectItem, List.find?_eq_getElem?_findIdx, findIdx_erase, erase_eq,
    eraseAll_eq_map, List.getElem?_map]

/-- A string node that is stored into is stored into in the tree. -/
theorem storeItem_erase {root p : Item} {name : Bytes}
    (hp : root.child[root.child.findIdx (named name)]? = some p) (f : CJSON → CJSON) :
    (erase root).storeItem name f = { erase root with
      child := (root.child.map erase).set (root.child.findIdx (named name)) (f (erase p)) } := by
  obtain ⟨hi, rfl⟩ := List.getElem?_eq_some_iff.mp hp
  rw [CJSON.storeItem, findIdx_erase, erase_eq, eraseAll_eq_map]
  congr 1
  rw [List.modify_eq_set_getElem?, List.getElem?_map, List.getElem?_eq_getElem hi]
  rfl

/-- **One child changes**, and the rest is owned as before. -/
theorem owned_set {root p : Item} (hr : unflagged root = true) {i : ℕ}
    (hp : root.child[i]? = some p) : ∃ S, owned root = owned p + S ∧ ∀ p', unflagged p' = true →
      owned { root with child := root.child.set i p' } = owned p' + S
        ∧ unflagged { root with child := root.child.set i p' } = true
        ∧ erase { root with child := root.child.set i p' }
          = { erase root with child := (root.child.map erase).set i (erase p') } := by
  refine ⟨{root.block} + (textBlock root.valuestring + (textBlock root.string
    + ownedAll (root.child.eraseIdx i))), ?_, fun p' hp' => ?_⟩
  · rw [owned_of_unflagged hr, ownedAll_eraseIdx hp]
    abel
  · obtain ⟨howned, hflags, herase⟩ := left_child (B := 0) hr (l := root.child.set i p')
      (L := owned p' + ({root.block} + (textBlock root.valuestring + (textBlock root.string
        + ownedAll (root.child.eraseIdx i)))))
      (fun e he => (List.mem_or_eq_of_mem_set he).elim (unflagged_child hr e) (fun h => h ▸ hp'))
      (by rw [owned_of_unflagged hr, ownedAll_set hp, ownedAll_eraseIdx hp]; abel)
    exact ⟨by rw [howned, add_zero], hflags, by rw [herase, List.map_set]⟩

/-- **A string is stored**, and the old one freed. -/
theorem putValueString_owns {root : Item} (hr : unflagged root = true) (name buffer : Bytes) :
    Owns (owned root) (putValueString root name buffer) (fun r e L => L = owned r.2
      ∧ unflagged r.2 = true ∧ LibJson.putValueString (!e) (some (erase root)) (some name)
        (some buffer) = (r.1, some (erase r.2))) := by
  rw [putValueString]
  unfold LibJson.putValueString
  dsimp only
  by_cases hname : name = []
  · rw [if_pos hname]
    exact .pure ⟨rfl, hr, by rw [if_pos hname]⟩
  rw [if_neg hname]
  simp only [if_neg hname]
  rw [getObjectItem_erase]
  cases hp : root.child[root.child.findIdx (named name)]? with
  | none => exact .pure ⟨rfl, hr, rfl⟩
  | some p =>
    have htype : (erase p).type = p.type := by rw [erase_eq]
    dsimp only [Option.map_some]
    rw [htype]
    by_cases hstring : p.type = .string
    · rw [if_pos hstring]
      simp only [if_pos hstring]
      obtain ⟨S, hroot, hset⟩ := owned_set hr hp
      have hflags := unflagged_child hr p (List.mem_of_getElem? hp)
      have hstore := storeItem_erase hp
      obtain ⟨b, type, isReference, stringIsConst, old, valueint, valuedouble, string, child⟩ := p
      have hp' : ∀ v, unflagged ⟨b, type, isReference, stringIsConst, v, valueint, valuedouble,
          string, child⟩ = true := fun v => by
        rw [unflagged] at hflags ⊢
        exact hflags
      have howned : ∀ v, owned ⟨b, type, isReference, stringIsConst, v, valueint, valuedouble,
          string, child⟩ + S = textBlock v + ({b} + (textBlock string + ownedAll child) + S) :=
        fun v => by
          rw [owned_of_unflagged (hp' v)]
          abel
      rw [hroot, howned]
      refine .bind (freeText_owns (.bind (strdup_owns (fun t ht => .pure ?_) (.pure ?_))))
      · obtain ⟨hset, hflags, herase⟩ := hset _ (hp' (some t))
        refine ⟨(hset.trans (howned _)).symm, hflags, ?_⟩
        rw [herase, hstore, erase, erase, Option.map_some, ht]
        rfl
      · obtain ⟨hset, hflags, herase⟩ := hset _ (hp' none)
        rw [howned, textBlock_none, zero_add] at hset
        refine ⟨hset.symm, hflags, ?_⟩
        rw [herase, hstore, erase, erase]
        rfl
    · rw [if_neg hstring]
      simp only [if_neg hstring]
      exact .pure ⟨rfl, hr, rfl⟩

end CJSONMemory
