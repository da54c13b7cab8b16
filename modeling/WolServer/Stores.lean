import WolServer.CJSONPrint
import WolServer.LibJson
import WolServer.Significand

/-!
# Storing into a tree

`Lib_Json::putValueString` and `Lib_Json::putValueNumber` change a node in
place: the first child of a name. `CJSON.Stored` says what that is – the other
children, and the rest of that one, are what they were.

`putValueString` frees the old string before it has the new one. If `strdup`
then fails, the function returns false and the node is left without a string,
through which the next `getValueString` reads. `LibJson.allOrNothing_iff` says
that this is the only way it fails to be all or nothing.

A number is kept twice, as an `int` and as a `double`, and each overload of
`getValueNumber` reads one of the two. A `double` rounds an integer of more
than 53 bits (`WolServer.Significand`), and a short type does not hold every
`int`. `LibJson.integers_pass_iff` says which integers pass.
-/

namespace CJSON

/-! ## The first child of a name -/

/-- What is stored through the pointer that `cJSON_GetObjectItem` returns. -/
def storeItem (object : CJSON) (string : Bytes) (f : CJSON → CJSON) : CJSON :=
  { object with
    child := object.child.modify (object.child.findIdx (fun c => strcaseEq c.string string)) f }

/-- **Only one node has changed**: the first child of that name, which is of
that type. -/
def Stored (object : CJSON) (string : Bytes) (type : CJSONType) (f : CJSON → CJSON)
    (object' : CJSON) : Prop :=
  ∃ before item after, object.child = before ++ item :: after
    ∧ (∀ e ∈ before, strcaseEq e.string string = false)
    ∧ strcaseEq item.string string = true ∧ item.type = type
    ∧ object' = { object with child := before ++ f item :: after }

/-- Where the first child of a name stands. -/
theorem getObjectItem_eq_some_iff {object item : CJSON} {string : Bytes} :
    object.getObjectItem string = some item
      ↔ strcaseEq item.string string = true ∧ ∃ before after,
        object.child = before ++ item :: after
          ∧ ∀ e ∈ before, strcaseEq e.string string = false := by
  rw [getObjectItem, List.find?_eq_some_iff_append]
  simp only [Bool.not_eq_true']

/-- Storing, where the first child of the name stands. -/
theorem storeItem_eq {object item : CJSON} {string : Bytes} {before after : List CJSON}
    (hchild : object.child = before ++ item :: after)
    (hbefore : ∀ e ∈ before, strcaseEq e.string string = false)
    (hitem : strcaseEq item.string string = true) (f : CJSON → CJSON) :
    object.storeItem string f = { object with child := before ++ f item :: after } := by
  have hidx : (before ++ item :: after).findIdx (fun c => strcaseEq c.string string)
      = before.length := by
    rw [List.findIdx_append, List.findIdx_cons, hitem, List.findIdx_eq_length.mpr hbefore]
    simp
  have hmodify : (before ++ item :: after).modify before.length f = before ++ f item :: after := by
    rw [List.modify_eq_take_cons_drop (by simp)]
    simp
  rw [storeItem, hchild, hidx, hmodify]

/-- **A store changes the first child of the name, and nothing else.** -/
theorem storeItem_stored {object item : CJSON} {string : Bytes}
    (h : object.getObjectItem string = some item) (f : CJSON → CJSON) :
    Stored object string item.type f (object.storeItem string f) := by
  obtain ⟨hitem, before, after, hchild, hbefore⟩ := getObjectItem_eq_some_iff.mp h
  exact ⟨before, item, after, hchild, hbefore, hitem, rfl, storeItem_eq hchild hbefore hitem f⟩

/-- The name finds what was stored, when that has kept its name. -/
theorem getObjectItem_storeItem {object item : CJSON} {string : Bytes}
    (h : object.getObjectItem string = some item) {f : CJSON → CJSON}
    (hf : (f item).string = item.string) :
    (object.storeItem string f).getObjectItem string = some (f item) := by
  obtain ⟨hitem, before, after, hchild, hbefore⟩ := getObjectItem_eq_some_iff.mp h
  rw [storeItem_eq hchild hbefore hitem f]
  exact getObjectItem_eq_some_iff.mpr ⟨by rw [hf, hitem], before, after, rfl, hbefore⟩

/-- Nothing changes when the node is stored as it was. -/
theorem storeItem_eq_self {object item : CJSON} {string : Bytes}
    (h : object.getObjectItem string = some item) {f : CJSON → CJSON} (hf : f item = item) :
    object.storeItem string f = object := by
  obtain ⟨hitem, before, after, hchild, hbefore⟩ := getObjectItem_eq_some_iff.mp h
  rw [storeItem_eq hchild hbefore hitem f, hf, ← hchild]
  cases object
  rfl

end CJSON

namespace LibJson

/-! ## Strings -/

/-- `strdup`, which may get no memory. -/
def strdup (memory : Bool) (s : Bytes) : Option Bytes :=
  if memory = true then some (cstr s) else none

/-- **`Lib_Json::putValueString`**: its result, and the tree afterwards. -/
def putValueString (memory : Bool) (root : Option CJSON) (name buffer : Option Bytes) :
    Bool × Option CJSON :=
  match root, name, buffer with
  | some root, some name, some buffer =>
    if name = [] then (false, some root)
    else
      match root.getObjectItem name with
      | none => (false, some root)
      | some pTemp =>
        if pTemp.type = .string then
          -- the old string is freed first
          let valuestring := strdup memory buffer
          (valuestring.isSome,
            some (root.storeItem name (fun p => { p with valuestring := valuestring })))
        else (false, some root)
  | _, _, _ => (false, root)

/-- **All or nothing**: the new string is stored and nothing else has changed,
or nothing has; and a string that was there to be read is there to be read. -/
def AllOrNothing (memory : Bool) (root : CJSON) (name buffer : Option Bytes) : Prop :=
  let r := putValueString memory (some root) name buffer
  ((r.1 = true ∧ ∃ n b root', name = some n ∧ buffer = some b ∧ r.2 = some root'
        ∧ CJSON.Stored root n .string (fun p => { p with valuestring := some (cstr b) }) root')
      ∨ (r.1 = false ∧ r.2 = some root))
    ∧ ∀ n root', name = some n → r.2 = some root' → (stringValue root n).isSome = true →
      (stringValue root' n).isSome = true

/-- A call that changes nothing is nothing. -/
theorem allOrNothing_of_unchanged {memory : Bool} {root : CJSON} {name buffer : Option Bytes}
    (h : putValueString memory (some root) name buffer = (false, some root)) :
    AllOrNothing memory root name buffer := by
  unfold AllOrNothing
  rw [h]
  refine ⟨Or.inr ⟨rfl, rfl⟩, fun n root' _ hroot hs => ?_⟩
  rwa [← Option.some.inj hroot]

/-- What a string node is read as. -/
theorem stringValue_eq {root item : CJSON} {name : Bytes}
    (h : root.getObjectItem name = some item) (hitem : item.type = .string) :
    stringValue root name = item.valuestring := by
  rw [stringValue, h]
  exact if_pos hitem

/-- **What `putValueString` does**: nothing, where there is no string to
replace, or it stores what `strdup` returns. -/
theorem putValueString_cases (memory : Bool) (root : CJSON) (name buffer : Option Bytes) :
    (putValueString memory (some root) name buffer = (false, some root)
        ∧ ∀ n b, name = some n → buffer = some b → n ≠ [] → stringValue root n = none)
      ∨ ∃ n b item, name = some n ∧ buffer = some b ∧ n ≠ []
        ∧ root.getObjectItem n = some item ∧ item.type = .string
        ∧ putValueString memory (some root) name buffer = ((strdup memory b).isSome,
          some (root.storeItem n (fun p => { p with valuestring := strdup memory b }))) := by
  cases name with
  | none => exact Or.inl ⟨rfl, fun _ _ h => by cases h⟩
  | some n =>
  cases buffer with
  | none => exact Or.inl ⟨rfl, fun _ _ _ h => by cases h⟩
  | some b =>
  by_cases hn : n = []
  · refine Or.inl ⟨if_pos hn, ?_⟩
    rintro _ _ ⟨⟩ - hne
    exact absurd hn hne
  cases hitem : root.getObjectItem n with
  | none =>
    refine Or.inl ⟨by simp only [putValueString, if_neg hn, hitem], ?_⟩
    rintro _ _ ⟨⟩ - -
    rw [stringValue, hitem]
  | some item =>
  by_cases htype : item.type = .string
  · refine Or.inr ⟨n, b, item, rfl, rfl, hn, hitem, htype, ?_⟩
    simp only [putValueString, if_neg hn, hitem, if_pos htype]
  · refine Or.inl ⟨by simp only [putValueString, if_neg hn, hitem, if_neg htype], ?_⟩
    rintro _ _ ⟨⟩ - -
    rw [stringValue, hitem]
    exact if_neg htype

/-- **`putValueString` is all or nothing exactly when `strdup` has memory, or
there is no string to replace.** -/
theorem allOrNothing_iff (memory : Bool) (root : CJSON) (name buffer : Option Bytes) :
    AllOrNothing memory root name buffer
      ↔ memory = true ∨ ∀ n b, name = some n → buffer = some b → n ≠ [] →
        stringValue root n = none := by
  rcases putValueString_cases memory root name buffer with
    ⟨hput, hnone⟩ | ⟨n, b, item, rfl, rfl, hn, hitem, htype, hput⟩
  · exact iff_of_true (allOrNothing_of_unchanged hput) (Or.inr hnone)
  have hvalue := stringValue_eq hitem htype
  have hfound := CJSON.getObjectItem_storeItem hitem
    (f := fun p => { p with valuestring := strdup memory b }) rfl
  have hafter := stringValue_eq hfound htype
  cases memory with
  | true =>
    have hstored := CJSON.storeItem_stored hitem
      (fun p => { p with valuestring := strdup true b })
    rw [htype] at hstored
    refine iff_of_true ?_ (Or.inl rfl)
    unfold AllOrNothing
    rw [hput]
    refine ⟨Or.inl ⟨rfl, n, b, _, rfl, rfl, rfl, hstored⟩, ?_⟩
    rintro _ _ ⟨⟩ ⟨⟩ -
    rw [hafter]
    rfl
  | false =>
    -- the node is left without a string
    cases hstring : item.valuestring with
    | none =>
      have hsame : root.storeItem n (fun p => { p with valuestring := strdup false b }) = root :=
        CJSON.storeItem_eq_self hitem (by cases item; cases hstring; rfl)
      rw [hsame] at hput
      refine iff_of_true (allOrNothing_of_unchanged hput) (Or.inr ?_)
      rintro _ _ ⟨⟩ - -
      exact hvalue.trans hstring
    | some s =>
      refine iff_of_false (fun h => ?_) ?_
      · have hread := h.2 n _ rfl (by rw [hput]) (by rw [hvalue, hstring]; rfl)
        rw [hafter] at hread
        cases hread
      · rintro (h | h)
        · cases h
        · have hnone := h n b rfl rfl hn
          rw [hvalue, hstring] at hnone
          cases hnone

/-- **The old string is gone, and there is no new one**: `strdup` fails, and
the member `name` has no string any more. -/
theorem old_string_lost :
    ¬ AllOrNothing false (CJSON.ofJson (.obj [(lit "name", .str (lit "old"))]))
      (some (lit "name")) (some (lit "new")) := by
  intro h
  have hread := h.2 (lit "name") _ rfl rfl (by decide)
  exact absurd hread (by decide)

/-! ## Integers -/

/-- The integer types that numbers are read into. -/
inductive IntType where
  | short
  | unsignedShort
  | int
  | unsignedInt
  | longLong
  | unsignedLongLong
deriving DecidableEq

namespace IntType

/-- The least number of the type. -/
def min : IntType → ℤ
  | .short => -2 ^ 15
  | .int => -2 ^ 31
  | .longLong => -2 ^ 63
  | .unsignedShort | .unsignedInt | .unsignedLongLong => 0

/-- The greatest number of the type. -/
def max : IntType → ℤ
  | .short => 2 ^ 15 - 1
  | .unsignedShort => 2 ^ 16 - 1
  | .int => 2 ^ 31 - 1
  | .unsignedInt => 2 ^ 32 - 1
  | .longLong => 2 ^ 63 - 1
  | .unsignedLongLong => 2 ^ 64 - 1

/-- The number is one of the type. -/
def Holds (t : IntType) (n : ℤ) : Prop := t.min ≤ n ∧ n ≤ t.max

instance (t : IntType) (n : ℤ) : Decidable (t.Holds n) := inferInstanceAs (Decidable (_ ∧ _))

/-- A number converted to the type, by cutting its high bits. -/
def cast (t : IntType) (n : ℤ) : ℤ := (n - t.min) % (t.max - t.min + 1) + t.min

/-- **Only the numbers of a type survive the conversion.** -/
theorem cast_eq_self_iff (t : IntType) (n : ℤ) : t.cast n = n ↔ t.Holds n := by
  have hpos : 0 < t.max - t.min + 1 := by cases t <;> decide
  constructor
  · intro h
    have hlo := Int.emod_nonneg (n - t.min) hpos.ne'
    have hhi := Int.emod_lt_of_pos (n - t.min) hpos
    unfold cast at h
    exact ⟨by omega, by omega⟩
  · rintro ⟨hlo, hhi⟩
    rw [cast, Int.emod_eq_of_lt (by omega) (by omega), Int.sub_add_cancel]

end IntType

/-- An integer, as a `double`. -/
def doubleOf (n : ℤ) : Decimal := ⟨n.sign * Significand.round 53 n.natAbs, 0⟩

/-- What a call of `getValueNumber` comes to: it returns false, or true and a
value – or it converts a `double` to a type that does not hold its integer
part, which has no defined result. -/
inductive Read where
  | refused
  | value (n : ℤ)
  | undefined
deriving DecidableEq

/-- A `double`, converted to an integer type. -/
def fromDouble (t : IntType) (d : Decimal) : Read :=
  if t.Holds d.toInt then .value d.toInt else .undefined

/-- `GetValueNumberFromObject`, for a field `k` and its conversion. -/
def getValueNumberFromObject (root : Option CJSON) (name : Bytes) (k : CJSON → Read) : Read :=
  match root.bind (·.getObjectItem name) with
  | none => .refused
  | some t => if t.type = .number then k t else .refused

/-- **`Lib_Json::getValueNumber`**, by the type of its `value`. -/
def getValueNumber (root : Option CJSON) (name : Bytes) : IntType → Read
  | .short => getValueNumberFromObject root name (fun t => .value (IntType.short.cast t.valueint))
  | .unsignedShort =>
    getValueNumberFromObject root name (fun t => .value (IntType.unsignedShort.cast t.valueint))
  | .int => getValueNumberFromObject root name (fun t => .value (IntType.int.cast t.valueint))
  | .unsignedInt =>
    getValueNumberFromObject root name (fun t => fromDouble .unsignedInt t.valuedouble)
  | .longLong => getValueNumberFromObject root name (fun t => fromDouble .longLong t.valuedouble)
  | .unsignedLongLong =>
    getValueNumberFromObject root name (fun t => fromDouble .unsignedLongLong t.valuedouble)

/-- `GetValueNumberToObject`, for an integer. -/
def getValueNumberToObject (root : Option CJSON) (name : Bytes) (value : ℤ) :
    Bool × Option CJSON :=
  match root with
  | none => (false, none)
  | some root =>
    match root.getObjectItem name with
    | none => (false, some root)
    | some t =>
      if t.type = .number then
        (true, some (root.storeItem name (fun t =>
          { t with valueint := IntType.int.cast value, valuedouble := doubleOf value })))
      else (false, some root)

/-- **`Lib_Json::putValueNumber`** of an `unsigned int`, an `int`, an
`unsigned long long int` or a `long long int`. -/
def putValueNumber (root : Option CJSON) (name : Bytes) (value : ℤ) : Bool × Option CJSON :=
  getValueNumberToObject root name value

/-- The types there is a `putValueNumber` for. -/
def putTypes : List IntType := [.unsignedInt, .int, .unsignedLongLong, .longLong]

/-- **What is put is what is got**, and no other node has changed. -/
def Passes (root : CJSON) (name : Bytes) (t : IntType) (v : ℤ) : Prop :=
  let r := putValueNumber (some root) name v
  r.1 = true → getValueNumber r.2 name t = .value v
    ∧ ∃ root' i d, r.2 = some root' ∧ CJSON.Stored root name .number
        (fun item => { item with valueint := i, valuedouble := d }) root'

/-- **A number is read as itself, or refused.** -/
def ReadsOnly (root : CJSON) (name : Bytes) (t : IntType) (n : ℤ) : Prop :=
  getValueNumber (some root) name t = .refused ∨ getValueNumber (some root) name t = .value n

/-- **No `double` is nearer to an integer than the one it is stored as.** -/
theorem doubleOf_nearest (n m : ℤ) (hm : Significand.Fits 53 m.natAbs) :
    |n - (doubleOf n).mantissa| ≤ |n - m| := by
  have hself := Significand.round_nearest (by decide) n.natAbs hm
  have hzero := Significand.round_nearest (by decide) n.natAbs
    (Significand.fits_of_lt (p := 53) (n := 0) (by decide))
  unfold doubleOf
  dsimp only
  rcases lt_trichotomy n 0 with hn | rfl | hn
  · rw [Int.sign_eq_neg_one_of_neg hn]
    rw [abs_le'] at *
    cases abs_cases (n - m) <;> cases abs_cases ((n.natAbs : ℤ) - m.natAbs) <;>
      cases abs_cases ((n.natAbs : ℤ) - (0 : ℕ)) <;> omega
  · simp
  · rw [Int.sign_eq_one_of_pos hn]
    rw [abs_le'] at *
    cases abs_cases (n - m) <;> cases abs_cases ((n.natAbs : ℤ) - m.natAbs) <;>
      cases abs_cases ((n.natAbs : ℤ) - (0 : ℕ)) <;> omega

/-- An integer is its own `double` exactly when it has 53 significant bits at
most. -/
theorem toInt_doubleOf_iff (n : ℤ) :
    (doubleOf n).toInt = n ↔ Significand.Fits 53 n.natAbs := by
  have hint : (doubleOf n).toInt = n.sign * Significand.round 53 n.natAbs := by
    simp [doubleOf, Decimal.toInt]
  have hsign := Int.sign_mul_natAbs n
  rw [hint, ← Significand.round_eq_self_iff (by decide)]
  constructor
  · intro h
    rcases lt_trichotomy n 0 with hn | rfl | hn
    · rw [Int.sign_eq_neg_one_of_neg hn] at h
      omega
    · decide
    · rw [Int.sign_eq_one_of_pos hn] at h
      omega
  · intro h
    rw [h, hsign]

/-- What a number node is read as. -/
def readAs (t : IntType) (item : CJSON) : Read :=
  if t = .short ∨ t = .unsignedShort ∨ t = .int then .value (t.cast item.valueint)
  else fromDouble t item.valuedouble

/-- The overloads read one field or the other. -/
theorem getValueNumber_eq {root item : CJSON} {name : Bytes}
    (h : root.getObjectItem name = some item) (hitem : item.type = .number) (t : IntType) :
    getValueNumber (some root) name t = readAs t item := by
  have hread : ∀ k, getValueNumberFromObject (some root) name k = k item := fun k => by
    unfold getValueNumberFromObject
    rw [Option.bind_some, h]
    exact if_pos hitem
  cases t <;> exact hread _

/-- A `double` is read as a number of the type exactly when that is its
integer part. -/
theorem fromDouble_eq_value_iff {t : IntType} {d : Decimal} {n : ℤ} (hn : t.Holds n) :
    fromDouble t d = .value n ↔ d.toInt = n := by
  unfold fromDouble
  split
  · rw [Read.value.injEq]
  · rename_i hout
    refine iff_of_false (fun h => by cases h) ?_
    rintro rfl
    exact hout hn

/-- A `double` that is an integer has this integer part. -/
theorem toInt_of_toRat {d : Decimal} {n : ℤ} (h : d.toRat = n) : d.toInt = n := by
  unfold Decimal.toRat at h
  unfold Decimal.toInt
  split
  · rename_i he
    obtain ⟨k, hk⟩ := Int.eq_ofNat_of_zero_le he
    rw [hk, zpow_natCast] at h
    rw [hk, Int.toNat_natCast]
    exact_mod_cast h
  · rename_i he
    obtain ⟨k, hk⟩ := Int.eq_ofNat_of_zero_le (show 0 ≤ -d.exponent by omega)
    have hpow : ((10 : ℚ) ^ k) ≠ 0 := pow_ne_zero _ (by norm_num)
    have hexp : d.exponent = -(k : ℤ) := by omega
    rw [hexp, zpow_neg, zpow_natCast, ← div_eq_mul_inv, div_eq_iff hpow] at h
    have hmantissa : d.mantissa = n * 10 ^ k := by exact_mod_cast h
    rw [hk, Int.toNat_natCast, hmantissa, Int.mul_tdiv_cancel _ (by positivity)]

/-- A number node that holds an integer is read as that integer by the types
that hold it, and by no other. -/
theorem readAs_eq_value_iff {item : CJSON} {n : ℤ} (h : item.HoldsInt n) (t : IntType) :
    readAs t item = .value n ↔ t.Holds n := by
  obtain ⟨-, -, hint, hdouble⟩ := h
  unfold readAs
  split
  · rw [Read.value.injEq, hint]
    exact t.cast_eq_self_iff n
  · rw [fromDouble, toInt_of_toRat hdouble]
    split
    · rename_i hn
      exact iff_of_true rfl hn
    · rename_i hn
      exact iff_of_false (fun h => by cases h) hn

/-- An integer that is put is got exactly when it has 53 significant bits at
most. -/
theorem readAs_put_iff {t : IntType} (ht : t ∈ putTypes) {v : ℤ} (hv : t.Holds v) (item : CJSON) :
    readAs t { item with valueint := IntType.int.cast v, valuedouble := doubleOf v } = .value v
      ↔ Significand.Fits 53 v.natAbs := by
  by_cases hint : t = .int
  · subst hint
    have hself := (IntType.int.cast_eq_self_iff v).mpr hv
    have hfits : v.natAbs < 2 ^ 53 := by
      obtain ⟨hlo, hhi⟩ := hv
      simp only [IntType.min, IntType.max] at hlo hhi
      omega
    refine iff_of_true ?_ (Significand.fits_of_lt hfits)
    rw [readAs, if_pos (Or.inr (Or.inr rfl)), hself, hself]
  · have hdouble : ¬ (t = .short ∨ t = .unsignedShort ∨ t = .int) := by
      rintro (rfl | rfl | rfl)
      · exact absurd ht (by decide)
      · exact absurd ht (by decide)
      · exact hint rfl
    rw [readAs, if_neg hdouble, fromDouble_eq_value_iff hv, toInt_doubleOf_iff]

/-- **What `putValueNumber` does**: nothing, where the name finds no number, or
it stores the value in both fields. -/
theorem putValueNumber_cases (root : CJSON) (name : Bytes) (value : ℤ) :
    (putValueNumber (some root) name value = (false, some root)
        ∧ ∀ item, root.getObjectItem name = some item → item.type ≠ .number)
      ∨ ∃ item, root.getObjectItem name = some item ∧ item.type = .number
        ∧ putValueNumber (some root) name value = (true, some (root.storeItem name (fun t =>
          { t with valueint := IntType.int.cast value, valuedouble := doubleOf value }))) := by
  rcases Option.eq_none_or_eq_some (root.getObjectItem name) with hitem | ⟨item, hitem⟩
  · refine Or.inl ⟨by simp only [putValueNumber, getValueNumberToObject, hitem], ?_⟩
    rw [hitem]
    exact fun _ h => by cases h
  by_cases htype : item.type = .number
  · refine Or.inr ⟨item, hitem, htype, ?_⟩
    simp only [putValueNumber, getValueNumberToObject, hitem, if_pos htype]
  · refine Or.inl ⟨by simp only [putValueNumber, getValueNumberToObject, hitem, if_neg htype], ?_⟩
    rw [hitem]
    rintro _ ⟨⟩
    exact htype

/-- **Which integers pass through a tree unchanged.** One that is put is got
again exactly when the name finds no number or the integer has 53 significant
bits at most; and a number node with an `int` is read as it exactly by the
types that hold it. -/
theorem integers_pass_iff (root : CJSON) (name : Bytes) :
    (∀ t ∈ putTypes, ∀ v, t.Holds v → (Passes root name t v
        ↔ ∀ item, root.getObjectItem name = some item → item.type = .number →
          Significand.Fits 53 v.natAbs))
      ∧ ∀ item n, root.getObjectItem name = some item → item.type = .number → item.HoldsInt n →
        ∀ t, ReadsOnly root name t n ↔ t.Holds n := by
  refine ⟨fun t ht v hv => ?_, fun item n hitem htype hn t => ?_⟩
  · rcases putValueNumber_cases root name v with ⟨hput, hnone⟩ | ⟨item, hitem, htype, hput⟩
    · exact iff_of_true (fun h => by rw [hput] at h; cases h)
        (fun item hitem htype => absurd htype (hnone item hitem))
    have hstored := CJSON.storeItem_stored hitem
      (fun t => { t with valueint := IntType.int.cast v, valuedouble := doubleOf v })
    have hfound := CJSON.getObjectItem_storeItem hitem (f := fun t =>
      { t with valueint := IntType.int.cast v, valuedouble := doubleOf v }) rfl
    rw [htype] at hstored
    unfold Passes
    rw [hput]
    dsimp only
    rw [getValueNumber_eq hfound htype t, readAs_put_iff ht hv, imp_iff_right rfl]
    constructor
    · exact fun h _ _ _ => h.1
    · exact fun h => ⟨h item hitem htype, _, _, _, rfl, hstored⟩
  · have hread := getValueNumber_eq hitem htype t
    have hnever : readAs t item ≠ .refused := by
      unfold readAs fromDouble
      split_ifs <;> simp
    unfold ReadsOnly
    rw [hread, or_iff_right hnever, readAs_eq_value_iff hn]

/-- The two parts, of the member `n` of a tree. -/
theorem integers_pass_iff_member :
    Passes (CJSON.ofJson (.obj [(lit "n", .num 7 0)])) (lit "n") .longLong (2 ^ 53)
      ∧ ReadsOnly (CJSON.ofJson (.obj [(lit "n", .num 7 0)])) (lit "n") .short 7 := by
  have hboth := integers_pass_iff (CJSON.ofJson (.obj [(lit "n", .num 7 0)])) (lit "n")
  refine ⟨(hboth.1 .longLong (by decide) _ (by decide)).mpr (fun _ _ _ => ⟨1, 53, by decide, rfl⟩),
    (hboth.2 _ 7 rfl rfl ⟨by decide, by decide, rfl, CJSON.toRat_intCast 7⟩ .short).mpr
      (by decide)⟩

/-- **Two integers that do not pass**: one of 54 bits is stored as its
neighbour, and an `int` above the range of `short` is cut. -/
theorem integers_changed :
    ¬ Passes (CJSON.ofJson (.obj [(lit "n", .num 7 0)])) (lit "n") .longLong (2 ^ 53 + 1)
      ∧ ¬ ReadsOnly (CJSON.ofJson (.obj [(lit "n", .num 70000 0)])) (lit "n") .short 70000 := by
  constructor
  · intro h
    exact absurd (h rfl).1 (by decide)
  · rintro (h | h) <;> exact absurd h (by decide)

end LibJson
