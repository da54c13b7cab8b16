import WolServer.LibJson
import WolServer.Stores

/-!
# Reading arrays

`getValueNumberFromArray` and `getValueStringFromArray` read the first `n`
elements of an array into an output of the caller's. They find out that there
are too few, or that one is of the wrong type, when they come to it, and by
then the elements before it are in the output. The getters for single values
write nothing when they return false.

The two loops are written apart, one in a macro and one in a function, and
both of them fill (`WolServer.Filling`): `LibJson.arrays_atomic_iff` says for
both when they are all or nothing. `getValueStringFromArray` alone returns false
for buffers of no size.

What a loop over numbers reads and writes is a `double`, so that an element is
taken here as it stands in memory, rounded (`LibJson.Child`), and not as the
decimal its text spells. `LibJson.parseDouble` is how `parse_number` rounds it.
A `double` is a `Float`: two of them are the same value if they have the same
sign, exponent and fraction, and there is one that is not a number.
-/

namespace LibJson

open Filling (fill AllFirst Atomic Stands)

/-! ## Elements in memory -/

/-- **A child as it stands in memory**: what the getters for numbers read of
it. -/
structure Child where
  /-- The type of the node. -/
  type : CJSONType
  /-- The integer of a number node. -/
  valueint : ℤ
  /-- The number of a number node. -/
  valuedouble : Float
deriving DecidableEq

/-- The integral part of a `double`, if it has one. -/
def truncated (d : Float) : Option ℤ :=
  match d.toModel.unpack with
  | .infinity _ | .notANumber => none
  | .zero _ => some 0
  | .finite sign mantissa exponent _ =>
    some (Float.Model.UnpackedFloat.roundToInt sign mantissa exponent)

/-- `n=(n*10.0)+(*num++ -'0')`, over digits: every step rounds. -/
def readDigits (n : Float) (num : Bytes) : Float :=
  num.foldl (fun n digit => n * 10 + Float.ofNat (digit.toNat - 48)) n

/-- **The `double` that `parse_number` makes of a text**, with the library's
`pow`. -/
def parseDouble (pow : Float → Float → Float) (num : Bytes) : Float :=
  let sign := CJSON.parseSign num
  let ip := CJSON.parseInteger sign.2
  let fp := CJSON.parseFraction ip.2
  let subscale := CJSON.parseExponent fp.2
  let n := readDigits (readDigits 0 ip.1) fp.1
  Float.ofInt sign.1 * n * pow 10 (Float.ofInt (subscale.1 - fp.1.length))

/-- The node that `parse_number` fills in: its integer is the integral part of
its `double`, where an `int` holds it. -/
structure Parsed (pow : Float → Float → Float) (num : Bytes) (child : Child) : Prop where
  type_eq : child.type = .number
  double_eq : child.valuedouble = parseDouble pow num
  int_eq : ∀ z ∈ truncated child.valuedouble, IntType.int.Holds z → child.valueint = z

/-! ## Functions -/

/-- The element types there is a `getValueNumberFromArray` for. -/
inductive ArrayType where
  | int
  | unsignedInt
  | longLong
  | unsignedLongLong
  | double
deriving DecidableEq

/-- **What an element of an output of numbers holds**: an integer, a `double`,
or what is left by a conversion that has no defined result. -/
inductive Number where
  | int (n : ℤ)
  | double (d : Float)
  | undefined
deriving DecidableEq

/-- A `double`, converted to an integer type: its integral part, where the
type holds it. -/
def convert (t : IntType) (d : Float) : Number :=
  match truncated d with
  | none => .undefined
  | some z => if t.Holds z then .int z else .undefined

/-- The loop of `GetValueNumberFromArray` for a field `k` and its conversion,
from its `i`: the `i` it ends with, and the output. -/
def copyNumbers (k : Child → Number) (n : ℕ) : ℕ → List Child → (ℕ → Number) → ℕ × (ℕ → Number)
  | i, [], value => (i, value)
  | i, child :: next, value =>
    if n > i then
      if child.type ≠ .number then (i, value)
      else copyNumbers k n (i + 1) next (Function.update value i (k child))
    else (i, value)

/-- `GetValueNumberFromArray` on a root, given by its children: its result, and
the output. -/
def getValueNumberFromArrayMacro (root : Option (List Child)) (value : ℕ → Number) (n : ℕ)
    (k : Child → Number) : Bool × (ℕ → Number) :=
  match root with
  | none => (false, value)
  | some child =>
    let r := copyNumbers k n 0 child value
    (decide (r.1 = n), r.2)

/-- **`Lib_Json::getValueNumberFromArray`**, by the type of its `value`. -/
def getValueNumberFromArray (root : Option (List Child)) (value : ℕ → Number) (n : ℕ) :
    ArrayType → Bool × (ℕ → Number)
  | .int =>
    getValueNumberFromArrayMacro root value n (fun child => .int (IntType.int.cast child.valueint))
  | .unsignedInt =>
    getValueNumberFromArrayMacro root value n
      (fun child => convert .unsignedInt child.valuedouble)
  | .longLong =>
    getValueNumberFromArrayMacro root value n (fun child => convert .longLong child.valuedouble)
  | .unsignedLongLong =>
    getValueNumberFromArrayMacro root value n
      (fun child => convert .unsignedLongLong child.valuedouble)
  | .double =>
    getValueNumberFromArrayMacro root value n (fun child => .double child.valuedouble)

/-! ## What is read -/

/-- The node is a number. -/
def isNumber (child : Child) : Bool := child.type = .number

/-- A number node, read as a type. -/
def ArrayType.read : ArrayType → Child → Number
  | .int, child => .int (IntType.int.cast child.valueint)
  | .unsignedInt, child => convert .unsignedInt child.valuedouble
  | .longLong, child => convert .longLong child.valuedouble
  | .unsignedLongLong, child => convert .unsignedLongLong child.valuedouble
  | .double, child => .double child.valuedouble

/-- The children of a root, if there is one. -/
def children (root : Option CJSON) : List CJSON :=
  match root with
  | none => []
  | some root => root.child

variable {n : ℕ}

/-- The overloads differ in what they read. -/
theorem getValueNumberFromArray_eq (root : Option (List Child)) (value : ℕ → Number) (n : ℕ)
    (t : ArrayType) :
    getValueNumberFromArray root value n t = getValueNumberFromArrayMacro root value n t.read := by
  cases t <;> rfl

/-- The loop over numbers is one that reads numbers. -/
theorem copyNumbers_eq (k : Child → Number) (n i : ℕ) (cs : List Child) (value : ℕ → Number) :
    copyNumbers k n i cs value = Filling.loop isNumber (fun c _ => k c) n i cs value := by
  induction cs generalizing i value with
  | nil => rfl
  | cons c cs ih =>
    rw [copyNumbers, Filling.loop]
    by_cases hc : c.type = .number
    · have his : isNumber c = true := decide_eq_true hc
      rw [if_neg (not_not_intro hc), if_pos his, ih (i + 1)]
    · have his : ¬ isNumber c = true := fun h => hc (of_decide_eq_true h)
      rw [if_pos hc, if_neg his]

/-- **`GetValueNumberFromArray` fills.** -/
theorem getValueNumberFromArrayMacro_eq (cs : List Child) (value : ℕ → Number) (n : ℕ)
    (k : Child → Number) :
    getValueNumberFromArrayMacro (some cs) value n k
      = fill isNumber (fun c _ => k c) n cs value := by
  rw [← Filling.loop_eq_fill, ← copyNumbers_eq]
  rfl

/-! ## All or nothing -/

/-- Buffers of no size are refused. -/
theorem getValueStringFromArray_zero (root : CJSON) (value : ℕ → Bytes) (n : ℕ) :
    getValueStringFromArray (some root) value 0 n = (false, value) := by
  unfold getValueStringFromArray
  exact if_neg (fun h => absurd h.1 (lt_irrefl 0))

/-- A buffer of no size has every string in it already. -/
theorem readString_zero (c : CJSON) (buffer : Bytes) : readString 0 c buffer = buffer := by
  unfold readString
  split
  · rfl
  · rw [strncpy, List.take_zero, List.drop_zero, List.nil_append]

/-- When the getters for numbers are all or nothing. -/
theorem numbers_atomic_iff (root : Option (List Child)) (hn : 0 < n) (t : ArrayType)
    (value : ℕ → Number) :
    Atomic isNumber (fun c _ => t.read c) n (root.getD []) value
        (getValueNumberFromArray root value n t)
      ↔ AllFirst isNumber n (root.getD [])
        ∨ Stands isNumber (fun c _ => t.read c) n (root.getD []) value := by
  rw [getValueNumberFromArray_eq]
  cases root with
  | none =>
    exact iff_of_true (Filling.atomic_refused_iff.mpr (Filling.not_allFirst_nil hn))
      (Or.inr Filling.stands_nil)
  | some cs =>
    rw [getValueNumberFromArrayMacro_eq]
    exact Filling.atomic_fill_iff

/-- When the getter for strings is all or nothing. -/
theorem strings_atomic_iff (root : Option CJSON) (hn : 0 < n) (size : ℕ) (value : ℕ → Bytes) :
    Atomic isString (readString size) n (children root) value
        (getValueStringFromArray root value size n)
      ↔ (AllFirst isString n (children root) → 0 < size)
        ∧ (¬ AllFirst isString n (children root) →
          Stands isString (readString size) n (children root) value) := by
  cases root with
  | none =>
    exact iff_of_true (Filling.atomic_refused_iff.mpr (Filling.not_allFirst_nil hn))
      ⟨fun h => absurd h (Filling.not_allFirst_nil hn), fun _ => Filling.stands_nil⟩
  | some root =>
    rcases Nat.eq_zero_or_pos size with rfl | hs
    · rw [getValueStringFromArray_zero, Filling.atomic_refused_iff]
      exact ⟨fun h => ⟨fun hall => absurd hall h, fun _ i c _ => readString_zero c (value i)⟩,
        fun h hall => absurd (h.1 hall) (lt_irrefl 0)⟩
    · rw [getValueStringFromArray_eq root value hs hn, and_iff_right (fun _ => hs),
        ← or_iff_not_imp_left]
      exact Filling.atomic_fill_iff

/-- **When the getters for arrays are all or nothing.** Those for numbers are
exactly when the first `n` children are there and all of them are numbers, or
the numbers before the first bad one stand in the output already. The one for
strings is exactly when the first `n` children are there, all of them are
strings, and the buffers have a size, or they are not and the strings before
the first bad one stand in the buffers already. -/
theorem arrays_atomic_iff {n : ℕ} (hn : 0 < n) :
    (∀ (root : Option (List Child)) (t : ArrayType) (value : ℕ → Number),
      Atomic isNumber (fun c _ => t.read c) n (root.getD []) value
          (getValueNumberFromArray root value n t)
        ↔ AllFirst isNumber n (root.getD [])
          ∨ Stands isNumber (fun c _ => t.read c) n (root.getD []) value)
      ∧ ∀ (root : Option CJSON) (size : ℕ) (value : ℕ → Bytes),
        Atomic isString (readString size) n (children root) value
            (getValueStringFromArray root value size n)
          ↔ (AllFirst isString n (children root) → 0 < size)
            ∧ (¬ AllFirst isString n (children root) →
              Stands isString (readString size) n (children root) value) :=
  ⟨fun root t value => numbers_atomic_iff root hn t value,
    fun root size value => strings_atomic_iff root hn size value⟩

/-- The elements of `[1,2]`. -/
def oneTwo : List Child := [⟨.number, 1, 1⟩, ⟨.number, 2, 2⟩]

/-- Two numbers are read. -/
theorem arrays_atomic_iff_two :
    Atomic isNumber (fun c _ => ArrayType.longLong.read c) 2 oneTwo (fun _ => .undefined)
      (getValueNumberFromArray (some oneTwo) (fun _ => .undefined) 2 .longLong) :=
  ((arrays_atomic_iff (by decide)).1 (some oneTwo) .longLong _).mpr
    (Or.inl ⟨by decide, fun c hc => by fin_cases hc <;> rfl⟩)

/-- The elements of `[1,"x"]`. -/
def oneX : List Child := [⟨.number, 1, 1⟩, ⟨.string, 0, 0⟩]

/-- **The call returns false, and the output has changed**: of `[1,"x"]`, the
number is in the output; and of `["x",1]`, the string is in its buffer. -/
theorem output_changed :
    Parsed (fun _ _ => 1) (lit "1") ⟨.number, 1, 1⟩
      ∧ ¬ Atomic isNumber (fun c _ => ArrayType.int.read c) 2 oneX (fun _ => .int 5)
        (getValueNumberFromArray (some oneX) (fun _ => .int 5) 2 .int)
      ∧ ¬ Atomic isString (readString 8) 2
        (children (some (CJSON.ofJson (.arr [.str (lit "x"), .num 1 0]))))
        (fun _ => List.replicate 8 0)
        (getValueStringFromArray (some (CJSON.ofJson (.arr [.str (lit "x"), .num 1 0])))
          (fun _ => List.replicate 8 0) 8 2) := by
  refine ⟨⟨rfl, by decide, by decide⟩, fun h => ?_, fun h => ?_⟩
  · have hfirst := congrFun (h.unchanged rfl) 0
    exact absurd hfirst (by decide)
  · have hfirst := congrFun (h.unchanged rfl) 0
    exact absurd hfirst (by decide)

/-- What counts is the number as it is rounded: of `[9007199254740993,"x"]`, the
element is in an output of 9007199254740992 already. -/
example : convert .longLong (parseDouble (fun _ _ => 1) (lit "9007199254740993"))
    = .int 9007199254740992 := by decide +kernel

end LibJson
