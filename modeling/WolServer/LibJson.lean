import WolServer.CJSONComplete
import WolServer.Filling

/-!
# `Lib_Json`

The wrapper of `json.cpp` through which the server reads a request. The
handler never moves the cursors of a `Lib_Json`, so an object of it is its
root.
-/

namespace LibJson

/-- `Lib_Json::getObject(buffer, size)`. -/
def getObject (buffer : Bytes) (size : ℤ) : Option CJSON :=
  if 0 ≥ size then none else CJSON.parse buffer

/-- The string value of a member, if the member is there and is a string. -/
def stringValue (root : CJSON) (name : Bytes) : Option Bytes :=
  match root.getObjectItem name with
  | none => none
  | some item => if item.type = .string then item.valuestring else none

/-- `Lib_Json::getValueString`: the buffer it fills when it returns true. -/
def getValueString (root : CJSON) (name : Bytes) (size : ℕ) : Option Bytes :=
  if name = [] ∨ size = 0 then none
  else (stringValue root name).map (fun pTemp => strncpy pTemp size)

/-- The string of a node, if it is a string node. -/
def stringOf (item : CJSON) : Option Bytes :=
  if item.type = .string then item.valuestring else none

/-- The loop of `Lib_Json::getValueStringFromArray` over the children that are
left, from its `i`: whether it gets to its end, and the buffers. -/
def copyStrings (size n : ℕ) : ℕ → List CJSON → (ℕ → Bytes) → Bool × (ℕ → Bytes)
  | i, [], value => (decide (n ≤ i), value)
  | i, child :: next, value =>
    if n > i then
      match stringOf child with
      | none => (false, value)
      | some v =>
        copyStrings size n (i + 1) next
          (Function.update value i (strncpy v size ++ (value i).drop size))
    else (true, value)

/-- `Lib_Json::getValueStringFromArray`: its result, and the caller's buffers
afterwards. -/
def getValueStringFromArray (root : Option CJSON) (value : ℕ → Bytes) (size n : ℕ) :
    Bool × (ℕ → Bytes) :=
  match root with
  | none => (false, value)
  | some root =>
    if 0 < size ∧ 0 < n then copyStrings size n 0 root.child value else (false, value)

/-- **A buffer that is filled holds the front of the value exactly when the
value is shorter than the buffer.** -/
theorem getValueString_holdsFront {root : CJSON} {name buf : Bytes} {size : ℕ}
    (h : getValueString root name size = some buf) :
    ∃ v, stringValue root name = some v ∧ (HoldsFront buf v size ↔ (cstr v).length < size) := by
  unfold getValueString at h
  split at h
  · cases h
  · obtain ⟨v, hv, rfl⟩ := Option.map_eq_some_iff.mp h
    exact ⟨v, hv, holdsFront_strncpy_iff v size⟩

/-! ## The loop over strings fills -/

/-- The node is a string, with its text. -/
def isString (item : CJSON) : Bool := (stringOf item).isSome

/-- A string node, copied into a buffer. -/
def readString (size : ℕ) (item : CJSON) (buffer : Bytes) : Bytes :=
  match stringOf item with
  | none => buffer
  | some v => strncpy v size ++ buffer.drop size

/-- The loop is one that reads strings. -/
theorem copyStrings_eq (size n i : ℕ) (cs : List CJSON) (value : ℕ → Bytes) :
    copyStrings size n i cs value
      = (decide (n ≤ (Filling.loop isString (readString size) n i cs value).1),
          (Filling.loop isString (readString size) n i cs value).2) := by
  induction cs generalizing i value with
  | nil => rfl
  | cons c cs ih =>
    rw [copyStrings, Filling.loop]
    by_cases hi : n > i
    · rw [if_pos hi, if_pos hi, isString, readString]
      cases stringOf c with
      | none =>
        have hstop : (false, value) = (decide (n ≤ i), value) := by
          rw [decide_eq_false (Nat.not_le.mpr hi)]
        exact hstop
      | some v => exact ih (i + 1) _
    · rw [if_neg hi, if_neg hi, decide_eq_true (Nat.not_lt.mp hi)]

/-- **`getValueStringFromArray` fills**, if the buffers have a size. -/
theorem getValueStringFromArray_eq (root : CJSON) (value : ℕ → Bytes) {size n : ℕ}
    (hs : 0 < size) (hn : 0 < n) :
    getValueStringFromArray (some root) value size n
      = Filling.fill isString (readString size) n root.child value := by
  show (if 0 < size ∧ 0 < n then copyStrings size n 0 root.child value else _) = _
  rw [if_pos ⟨hs, hn⟩, copyStrings_eq, ← Filling.loop_eq_fill]
  have hle := Filling.loop_le isString (readString size) n root.child value
  have hend : n ≤ (Filling.loop isString (readString size) n 0 root.child value).1
      ↔ (Filling.loop isString (readString size) n 0 root.child value).1 = n :=
    ⟨fun h => le_antisymm hle h, fun h => h.ge⟩
  rw [decide_eq_decide.mpr hend]

/-- Strings have their texts. -/
theorem exists_strings {cs : List CJSON} (h : ∀ c ∈ cs, isString c = true) :
    ∃ vs : List Bytes, cs.map stringOf = vs.map some := by
  refine ⟨cs.map (fun c => (stringOf c).getD []), ?_⟩
  rw [List.map_map]
  refine List.map_congr_left (fun c hc => ?_)
  obtain ⟨v, hv⟩ := Option.isSome_iff_exists.mp (h c hc)
  rw [hv, Function.comp_apply, hv, Option.getD_some]

/-- **Each buffer that is filled from an array holds the front of its
element exactly when the element is shorter than the buffer.** -/
theorem getValueStringFromArray_holdsFront {root : CJSON} {value value' : ℕ → Bytes}
    {size n : ℕ} (h : getValueStringFromArray (some root) value size n = (true, value')) :
    ∃ vs : List Bytes, vs.length = n ∧ (root.child.take n).map stringOf = vs.map some
      ∧ ∀ i v, vs[i]? = some v →
        (HoldsFront ((value' i).take size) v size ↔ (cstr v).length < size) := by
  by_cases hsize : 0 < size ∧ 0 < n
  · rw [getValueStringFromArray_eq root value hsize.1 hsize.2] at h
    obtain ⟨htrue, rfl⟩ := Prod.mk.inj h
    have hall := Filling.length_front_iff.mp (of_decide_eq_true htrue)
    obtain ⟨vs, hvs⟩ := exists_strings hall.2
    have hlen : vs.length = n := by
      rw [← List.length_map some, ← hvs, List.length_map, List.length_take, min_eq_left hall.1]
    refine ⟨vs, hlen, hvs, fun i v hv => ?_⟩
    have hfilled : Filling.output isString (readString size) n root.child value i
        = strncpy v size ++ (value i).drop size := by
      obtain ⟨c, hc, hcv⟩ : ∃ c, (root.child.take n)[i]? = some c ∧ stringOf c = some v := by
        have hi := congrArg (·[i]?) hvs
        simp only [List.getElem?_map, hv] at hi
        exact Option.map_eq_some_iff.mp hi
      rw [Filling.output, Filling.front_eq hall, hc]
      show readString size c (value i) = _
      rw [readString, hcv]
    rw [hfilled, List.take_left' (length_strncpy v size)]
    exact holdsFront_strncpy_iff v size
  · have hrefused : getValueStringFromArray (some root) value size n = (false, value) :=
      if_neg hsize
    rw [hrefused] at h
    cases (Prod.mk.inj h).1

/-! ## Values as C strings -/

/-- The string value of a member, as a C string. -/
def textValue (root : CJSON) (name : Bytes) : Option Bytes := (stringValue root name).map cstr

/-- **A string that is read is the value, cut at the size of the buffer.** -/
theorem getValueString_eq (root : CJSON) {name : Bytes} {size : ℕ} (hn : name ≠ [])
    (hs : size ≠ 0) :
    (getValueString root name size).map cstr = (textValue root name).map (·.take size) := by
  unfold getValueString textValue
  rw [if_neg (not_or.mpr ⟨hn, hs⟩), Option.map_map, Option.map_map]
  refine congrFun (congrArg Option.map ?_) _
  funext v
  exact cstr_strncpy v size

/-- The cases of a read: there is no value, or the buffer holds it. -/
theorem getValueString_cases (root : CJSON) (name : Bytes) (size : ℕ) (hn : name ≠ [])
    (hs : size ≠ 0) :
    (textValue root name = none ∧ getValueString root name size = none)
      ∨ ∃ v buf, textValue root name = some v ∧ getValueString root name size = some buf
        ∧ cstr buf = v.take size := by
  have h := getValueString_eq root hn hs
  cases hv : textValue root name with
  | none =>
    rw [hv] at h
    exact Or.inl ⟨rfl, Option.map_eq_none_iff.mp h⟩
  | some v =>
    rw [hv] at h
    obtain ⟨buf, hbuf, hcut⟩ := Option.map_eq_some_iff.mp h
    exact Or.inr ⟨v, buf, rfl, hbuf, hcut⟩

end LibJson
