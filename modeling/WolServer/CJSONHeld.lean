import WolServer.CJSONClient

/-!
# What a client of `cJSON.cpp` holds

A program holds some trees at a time, and what it holds should be all that it
has allocated. `CJSONMemory.run_owns` says that it is, after any operations
and whatever is refused: exactly the blocks of the trees that are held are
live, each in one of them, and nothing was freed twice. When nothing was
refused, the trees are what the operations make of them.
-/

namespace CJSONMemory

open Owning

/-- **An operation** of a client, on the root of a tree that it holds: what is
inside a tree is reached by detaching it. Trees are named by their places among
those that are held; a tree that moves into another is taken out first, and the
other named among the rest. -/
inductive Op where
  /-- `cJSON_Parse`. -/
  | parse (value : Bytes)
  /-- `cJSON_CreateNull`, `cJSON_CreateBool`, `cJSON_CreateArray` and
  `cJSON_CreateObject`. -/
  | create (type : CJSONType) (h : type ≠ .number ∧ type ≠ .string)
  /-- `cJSON_CreateNumber`. -/
  | createNumber (num : Decimal)
  /-- `cJSON_CreateString`. -/
  | createString (string : Bytes)
  /-- `cJSON_Duplicate`. -/
  | duplicate (i : ℕ) (recurse : Bool)
  /-- `cJSON_Delete`. -/
  | delete (i : ℕ)
  /-- `Lib_Json::putValueString`. -/
  | putValueString (i : ℕ) (name buffer : Bytes)
  /-- `cJSON_AddItemToArray`. -/
  | addToArray (j i : ℕ)
  /-- `cJSON_AddItemToObject`. -/
  | addToObject (j i : ℕ) (string : Bytes)
  /-- `cJSON_InsertItemInArray`. -/
  | insert (j i : ℕ) (which : ℤ)
  /-- `cJSON_ReplaceItemInArray`. -/
  | replace (j i : ℕ) (which : ℤ)
  /-- `cJSON_DetachItemFromArray`. -/
  | detach (i : ℕ) (which : ℤ)

/-- **An operation on the memory**: the trees that are held afterwards. -/
def step : Op → List Item → StateM Store (List Item)
  | .parse value, held => do
    match ← parseWithOpts value false with
    | none => return held
    | some r => return r.1 :: held
  | .create type _, held => do
    match ← newItem with
    | none => return held
    | some item => return { item with type } :: held
  | .createNumber num, held => do
    match ← newItem with
    | none => return held
    | some item =>
      return { item with type := .number, valuedouble := num, valueint := num.toInt } :: held
  | .createString string, held => do
    match ← createString string with
    | none => return held
    | some item => return item :: held
  | .duplicate i recurse, held =>
    match held[i]? with
    | none => return held
    | some c => do
      match ← duplicate c recurse with
      | none => return held
      | some d => return d :: held
  | .delete i, held =>
    match held[i]? with
    | none => return held
    | some c => do
      delete [c]
      return held.eraseIdx i
  | .putValueString i name buffer, held =>
    match held[i]? with
    | none => return held
    | some c => do
      let r ← putValueString c name buffer
      return held.set i r.2
  | .addToArray j i, held =>
    match held[j]?, (held.eraseIdx j)[i]? with
    | some item, some array => return (held.eraseIdx j).set i (addItemToArray array item)
    | _, _ => return held
  | .addToObject j i string, held =>
    match held[j]?, (held.eraseIdx j)[i]? with
    | some item, some object => do
      let object ← addItemToObject object string item
      return (held.eraseIdx j).set i object
    | _, _ => return held
  | .insert j i which, held =>
    match held[j]?, (held.eraseIdx j)[i]? with
    | some newitem, some array =>
      return (held.eraseIdx j).set i (insertItemInArray array which newitem)
    | _, _ => return held
  | .replace j i which, held =>
    match held[j]?, (held.eraseIdx j)[i]? with
    | some newitem, some array => do
      match ← replaceItemInArray array which newitem with
      | none => return held
      | some array => return (held.eraseIdx j).set i array
    | _, _ => return held
  | .detach i which, held =>
    match held[i]? with
    | none => return held
    | some array =>
      match detachItemFromArray array which with
      | none => return held
      | some (c, array) => return c :: held.set i array

/-- **An operation on the trees**, when there is memory for it. -/
def apply : Op → List CJSON → List CJSON
  | .parse value, held => (CJSON.parse value).toList ++ held
  | .create type _, held => { CJSON.newItem with type } :: held
  | .createNumber num, held => CJSON.createNumber num :: held
  | .createString string, held => CJSON.createString string :: held
  | .duplicate i recurse, held =>
    (held[i]?.map (fun c => if recurse then c else { c with child := [] })).toList ++ held
  | .delete i, held => held.eraseIdx i
  | .putValueString i name buffer, held =>
    match held[i]? with
    | none => held
    | some c =>
      match (LibJson.putValueString true (some c) (some name) (some buffer)).2 with
      | none => held
      | some c => held.set i c
  | .addToArray j i, held =>
    match held[j]?, (held.eraseIdx j)[i]? with
    | some item, some array => (held.eraseIdx j).set i (array.addItemToArray item)
    | _, _ => held
  | .addToObject j i string, held =>
    match held[j]?, (held.eraseIdx j)[i]? with
    | some item, some object => (held.eraseIdx j).set i (object.addItemToObject string item)
    | _, _ => held
  | .insert j i which, held =>
    match held[j]?, (held.eraseIdx j)[i]? with
    | some newitem, some array => (held.eraseIdx j).set i (array.insertItemInArray which newitem)
    | _, _ => held
  | .replace j i which, held =>
    match held[j]?, (held.eraseIdx j)[i]? with
    | some newitem, some array =>
      match array.replaceItemInArray which newitem with
      | none => held
      | some array => (held.eraseIdx j).set i array
    | _, _ => held
  | .detach i which, held =>
    match held[i]? with
    | none => held
    | some array =>
      match array.detachItemFromArray which with
      | none => held
      | some (c, array) => c :: held.set i array

/-- Operations one after another. -/
def run : List Op → List Item → StateM Store (List Item)
  | [], held => return held
  | op :: ops, held => do
    let held ← step op held
    run ops held

/-- **What is held**: all that is owned by the trees and nothing else; and when
nothing was refused, these are the trees. -/
def Held (cs : List CJSON) (r : List Item) (e : Bool) (L : Multiset ℕ) : Prop :=
  L = ownedAll r ∧ unflaggedAll r = true ∧ (e = false → r.map erase = cs)

/-- One more tree is held. -/
theorem Left.held_cons {c : CJSON} {r : Item} {e : Bool} {L : Multiset ℕ} (h : Left c r e L)
    {held : List Item} (hheld : unflaggedAll held = true) :
    Held (c :: held.map erase) (r :: held) e (L + ownedAll held) := by
  obtain ⟨rfl, hflags, herase⟩ := h
  refine ⟨by rw [ownedAll], by rw [unflaggedAll, hflags, hheld]; rfl, fun he => ?_⟩
  rw [List.map_cons, herase he]

/-- One tree has changed. -/
theorem Left.held_set {c : CJSON} {r : Item} {e : Bool} {L : Multiset ℕ} (h : Left c r e L)
    {held : List Item} (hheld : unflaggedAll held = true) {i : ℕ} {old : Item}
    (hi : held[i]? = some old) :
    Held ((held.map erase).set i c) (held.set i r) e (L + ownedAll (held.eraseIdx i)) := by
  obtain ⟨rfl, hflags, herase⟩ := h
  refine ⟨(ownedAll_set hi r).symm, unflaggedAll_iff.mpr (fun d hd => ?_), fun he => ?_⟩
  · exact (List.mem_or_eq_of_mem_set hd).elim (unflaggedAll_iff.mp hheld d) (fun h => h ▸ hflags)
  · rw [List.map_set, herase he]

/-- Nothing has changed. -/
theorem held_same {held : List Item} (hheld : unflaggedAll held = true) :
    Held (held.map erase) held false (ownedAll held) := ⟨rfl, hheld, fun _ => rfl⟩

/-- There was no memory. -/
theorem held_refused {cs : List CJSON} {held : List Item} (hheld : unflaggedAll held = true) :
    Held cs held true (ownedAll held) :=
  ⟨rfl, hheld, fun he => absurd he.symm Bool.false_ne_true⟩

/-- One tree and the others. -/
theorem eraseIdx_map_erase (held : List Item) (i : ℕ) :
    (held.map erase).eraseIdx i = (held.eraseIdx i).map erase := by
  rw [List.eraseIdx_map]

theorem unflaggedAll_eraseIdx {held : List Item} (h : unflaggedAll held = true) (i : ℕ) :
    unflaggedAll (held.eraseIdx i) = true :=
  unflaggedAll_iff.mpr (fun c hc => unflaggedAll_iff.mp h c (List.mem_of_mem_eraseIdx hc))

theorem unflagged_of_getElem? {held : List Item} (h : unflaggedAll held = true) {i : ℕ}
    {c : Item} (hc : held[i]? = some c) : unflagged c = true :=
  unflaggedAll_iff.mp h c (List.mem_of_getElem? hc)

/-- What is duplicated of a tree without flags. -/
theorem unflagged_visited {c : Item} (hc : unflagged c = true) (recurse : Bool) :
    unflagged (visited c recurse) = true ∧ erase (visited c recurse)
      = if recurse then erase c else { erase c with child := [] } := by
  cases recurse with
  | true => exact ⟨hc, rfl⟩
  | false =>
    rw [unflagged_eq, Bool.and_eq_true, Bool.and_eq_true] at hc
    refine ⟨?_, ?_⟩
    · rw [unflagged_eq, Bool.and_eq_true, Bool.and_eq_true]
      exact ⟨hc.1, hc.2.1, rfl⟩
    · rw [erase_eq, erase_eq]
      rfl

/-- **Every operation leaves what is held.** -/
theorem step_owns (op : Op) {held : List Item} (hheld : unflaggedAll held = true) :
    Owns (ownedAll held) (step op held) (Held (apply op (held.map erase))) := by
  cases op with
  | parse value =>
    rw [step, apply]
    refine .bind ((parse_owns value false).frame (zero_add _).symm (fun r e L h => ?_))
    cases r with
    | none =>
      obtain ⟨rfl, h⟩ := h
      refine .pure ⟨zero_add _, hheld, fun he => ?_⟩
      obtain rfl : e = false := by rwa [Bool.or_false] at he
      have hread := h.resolve_left Bool.false_ne_true
      rw [CJSON.parse, hread]
      rfl
    | some r =>
      obtain ⟨rfl, hflags, rfl, hread⟩ := h
      rw [CJSON.parse, hread]
      exact .pure (Left.held_cons ⟨rfl, hflags, fun _ => rfl⟩ hheld)
  | create type h =>
    rw [step, apply]
    refine .bind (newItem_owns (fun b => .pure ?_) (.pure (held_refused hheld)))
    refine Left.held_cons ⟨?_, rfl, fun _ => ?_⟩ hheld
    · simp only [owned, textBlock_none, ite_self, ownedAll, add_zero]
    · rw [erase]
      rfl
  | createNumber num =>
    rw [step, apply]
    refine .bind (newItem_owns (fun b => .pure ?_) (.pure (held_refused hheld)))
    refine Left.held_cons ⟨?_, rfl, fun _ => ?_⟩ hheld
    · simp only [owned, textBlock_none, ite_self, ownedAll, add_zero]
    · rw [erase]
      rfl
  | createString string =>
    rw [step, apply]
    refine .bind ((createString_owns string).frame (zero_add _).symm (fun r e L h => ?_))
    cases r with
    | none =>
      obtain ⟨rfl, rfl⟩ := h
      rw [zero_add]
      exact .pure (held_refused hheld)
    | some c =>
      refine .pure ?_
      rw [Bool.or_false]
      exact Left.held_cons h hheld
  | duplicate i recurse =>
    rw [step, apply, List.getElem?_map]
    cases hi : held[i]? with
    | none => exact .pure (held_same hheld)
    | some c =>
      have hc := unflagged_of_getElem? hheld hi
      obtain ⟨hvisited, herase⟩ := unflagged_visited hc recurse
      refine .bind ((duplicate_owns c recurse).frame (zero_add _).symm (fun r e L h => ?_))
      have hnames := constNames_of_unflagged hvisited
      cases r with
      | none =>
        obtain ⟨rfl, hL⟩ := h
        rw [hnames, Nat.le_zero, Multiset.card_eq_zero] at hL
        rw [hL, zero_add]
        exact .pure (held_refused hheld)
      | some d =>
        obtain ⟨rfl, hd, hflags, K, rfl, hK⟩ := h
        rw [hnames, Multiset.card_eq_zero] at hK
        rw [hK, add_zero]
        exact .pure (Left.held_cons ⟨rfl, hflags hvisited, fun _ => hd.trans herase⟩ hheld)
  | delete i =>
    rw [step, apply]
    cases hi : held[i]? with
    | none =>
      rw [eraseIdx_map_erase, List.eraseIdx_of_length_le (List.getElem?_eq_none_iff.mp hi)]
      exact .pure (held_same hheld)
    | some c =>
      rw [ownedAll_eraseIdx hi, eraseIdx_map_erase]
      refine .bind (delete_owns [c] ?_ (.pure (held_same (unflaggedAll_eraseIdx hheld i))))
      rw [ownedAll, ownedAll, add_zero]
  | putValueString i name buffer =>
    rw [step, apply, List.getElem?_map]
    cases hi : held[i]? with
    | none => exact .pure (held_same hheld)
    | some c =>
      rw [ownedAll_eraseIdx hi]
      refine .bind ((putValueString_owns (unflagged_of_getElem? hheld hi) name buffer).frame rfl
        (fun r e L h => .pure ?_))
      obtain ⟨rfl, hflags, hput⟩ := h
      have hleft : Left (erase r.2) r.2 (e || false) (owned r.2) := ⟨rfl, hflags, fun _ => rfl⟩
      obtain ⟨hL, hkept, hset⟩ := hleft.held_set hheld hi
      refine ⟨hL, hkept, fun he => ?_⟩
      obtain rfl : e = false := by rwa [Bool.or_false] at he
      have hput' : LibJson.putValueString true (some (erase c)) (some name) (some buffer)
        = (r.1, some (erase r.2)) := hput
      simp only [Option.map_some, hput']
      exact hset he
  | addToArray j i =>
    rw [step, apply, eraseIdx_map_erase, List.getElem?_map, List.getElem?_map]
    cases hj : held[j]? with
    | none => exact .pure (held_same hheld)
    | some item =>
      cases hi : (held.eraseIdx j)[i]? with
      | none => exact .pure (held_same hheld)
      | some array =>
        have hrest := unflaggedAll_eraseIdx hheld j
        refine .pure ?_
        rw [ownedAll_eraseIdx hj, ownedAll_eraseIdx hi, ← add_assoc]
        exact (addItemToArray_left (unflagged_of_getElem? hrest hi)
          (unflagged_of_getElem? hheld hj)).held_set hrest hi
  | addToObject j i string =>
    rw [step, apply, eraseIdx_map_erase, List.getElem?_map, List.getElem?_map]
    cases hj : held[j]? with
    | none => exact .pure (held_same hheld)
    | some item =>
      cases hi : (held.eraseIdx j)[i]? with
      | none => exact .pure (held_same hheld)
      | some object =>
        have hrest := unflaggedAll_eraseIdx hheld j
        rw [ownedAll_eraseIdx hj, ownedAll_eraseIdx hi, ← add_assoc]
        refine .bind ((addItemToObject_owns (unflagged_of_getElem? hrest hi)
          (unflagged_of_getElem? hheld hj) string).frame rfl (fun r e L h => .pure ?_))
        rw [Bool.or_false]
        exact h.held_set hrest hi
  | insert j i which =>
    rw [step, apply, eraseIdx_map_erase, List.getElem?_map, List.getElem?_map]
    cases hj : held[j]? with
    | none => exact .pure (held_same hheld)
    | some newitem =>
      cases hi : (held.eraseIdx j)[i]? with
      | none => exact .pure (held_same hheld)
      | some array =>
        have hrest := unflaggedAll_eraseIdx hheld j
        refine .pure ?_
        rw [ownedAll_eraseIdx hj, ownedAll_eraseIdx hi, ← add_assoc]
        exact (insertItemInArray_left (unflagged_of_getElem? hrest hi)
          (unflagged_of_getElem? hheld hj) which).held_set hrest hi
  | replace j i which =>
    rw [step, apply, eraseIdx_map_erase, List.getElem?_map, List.getElem?_map]
    cases hj : held[j]? with
    | none => exact .pure (held_same hheld)
    | some newitem =>
      cases hi : (held.eraseIdx j)[i]? with
      | none => exact .pure (held_same hheld)
      | some array =>
        have hrest := unflaggedAll_eraseIdx hheld j
        have hsplit : ownedAll held = owned newitem + owned array
            + ownedAll ((held.eraseIdx j).eraseIdx i) := by
          rw [ownedAll_eraseIdx hj, ownedAll_eraseIdx hi, ← add_assoc]
        rw [hsplit]
        refine .bind ((replaceItemInArray_owns (unflagged_of_getElem? hrest hi)
          (unflagged_of_getElem? hheld hj) which).frame rfl (fun r e L h => ?_))
        cases r with
        | none =>
          obtain ⟨rfl, rfl, hnone⟩ := h
          simp only [Option.map_some, hnone]
          rw [← hsplit]
          exact .pure (held_same hheld)
        | some r =>
          obtain ⟨rfl, c, hsome, h⟩ := h
          simp only [Option.map_some, hsome]
          exact .pure (h.held_set hrest hi)
  | detach i which =>
    rw [step, apply, List.getElem?_map]
    cases hi : held[i]? with
    | none => exact .pure (held_same hheld)
    | some array =>
      have h := detachItemFromArray_left (unflagged_of_getElem? hheld hi) which
      dsimp only [Option.map_some]
      cases hd : detachItemFromArray array which with
      | none =>
        rw [hd] at h
        dsimp only at h
        rw [h]
        exact .pure (held_same hheld)
      | some r =>
        obtain ⟨d, rest⟩ := r
        rw [hd] at h
        obtain ⟨howned, hflags, hrest, hdetach⟩ := h
        dsimp only
        rw [hdetach, ownedAll_eraseIdx hi, howned, add_assoc, add_comm (owned d)]
        obtain ⟨hL, hkept, hset⟩ := Left.held_set (e := false) ⟨rfl, hrest, fun _ => rfl⟩ hheld hi
        refine .pure ⟨by rw [ownedAll, hL, add_comm], by rw [unflaggedAll, hflags, hkept]; rfl,
          fun _ => ?_⟩
        rw [List.map_cons, hset rfl]

/-- **Whatever is refused, what is held is all that is left**, and when nothing
was refused, it is what the operations make of it. -/
theorem run_owns (ops : List Op) {held : List Item} (hheld : unflaggedAll held = true) :
    Owns (ownedAll held) (run ops held)
      (Held (ops.foldl (fun cs op => apply op cs) (held.map erase))) := by
  induction ops generalizing held with
  | nil => exact .pure (held_same hheld)
  | cons op ops ih =>
    rw [run]
    refine .bind ((step_owns op hheld).weaken (fun r e L h => ?_))
    obtain ⟨rfl, hflags, herase⟩ := h
    refine (ih hflags).weaken (fun r' e' L h => ?_)
    obtain ⟨hL, hflags', herase'⟩ := h
    refine ⟨hL, hflags', fun he => ?_⟩
    obtain ⟨he, he'⟩ := Bool.or_eq_false_iff.mp he
    rw [List.foldl_cons, ← herase he, herase' he']

/-- **A program that starts with nothing.** After any operations, whatever is
refused, exactly the blocks of the trees that it holds are live; if nothing was
refused, the trees are what the operations make; and when it deletes them,
nothing is left. -/
theorem run_settles (ops : List Op) (outcomes : ℕ → Bool) :
    let r := run ops [] (.empty outcomes)
    let s := (delete r.1 r.2).2
    (r.2.live = ownedAll r.1 ∧ r.2.fault = false)
      ∧ (r.2.refused = false → r.1.map erase = ops.foldl (fun cs op => apply op cs) [])
      ∧ s.live = 0 ∧ s.fault = false := by
  obtain ⟨e, hfault, hrefused, -, hlive, -, herase⟩ :=
    (run_owns ops (show unflaggedAll [] = true from rfl)).run (s := .empty outcomes) rfl rfl
  have hdelete : Owns (ownedAll (run ops [] (.empty outcomes)).1)
      (delete (run ops [] (.empty outcomes)).1) (fun _ _ L => L = 0) :=
    delete_owns _ (add_zero _).symm rfl
  obtain ⟨-, hfault', -, -, hnone⟩ := hdelete.run hlive hfault
  refine ⟨⟨hlive, hfault⟩, fun he => herase ?_, hnone, hfault'⟩
  rwa [hrefused] at he

end CJSONMemory
