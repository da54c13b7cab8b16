import WolServer.JsonText

/-!
# The JSON parser of `cJSON.cpp`

The parser the server reads its requests with, function by function. A
`const char *` is the list of bytes from it on (`WolServer.CString`), and a
parse function returns the node it fills and the pointer it returns, or
nothing where the source returns a null pointer.

Three things of the source are left out: the error pointer `ep`, the
reference and constant-name flags that only the editing functions set
(`WolServer.CJSONMemory`), and the size of the buffer `parse_string` allocates,
which some texts overflow (`CJSON.parseString_overflows`). Allocation succeeds.
A number is kept as the decimal the text spells. The `double` in `valuedouble`
is what `parse_number` makes of it: rounded at each digit, and not a number for
`0e400` (`LibJson.parseDouble`).

The parser recurses through three functions, which the model lets count a
fuel down. `CJSON.parse` gives them twice the length of the text, and that
is always enough (`CJSON.parseValue_fuel`).
-/

/-- The type of a node. -/
inductive CJSONType where
  | false_
  | true_
  | null
  | number
  | string
  | array
  | object
deriving DecidableEq

/-- The number a text spells, `mantissa · 10 ^ exponent`. -/
structure Decimal where
  /-- The significand, with its sign. -/
  mantissa : ℤ
  /-- The power of ten it is scaled by. -/
  exponent : ℤ
deriving DecidableEq

/-- `(int)n`: the integer part of a number. -/
def Decimal.toInt (d : Decimal) : ℤ :=
  if 0 ≤ d.exponent then d.mantissa * 10 ^ d.exponent.toNat
  else d.mantissa.tdiv (10 ^ (-d.exponent).toNat)

/-- **A node**, with the list of its children in place of the `child` and
`next` pointers. -/
structure CJSON where
  /-- The type of the node. -/
  type : CJSONType
  /-- The string of a string node. -/
  valuestring : Option Bytes
  /-- The integer of a number node. -/
  valueint : ℤ
  /-- The number of a number node. -/
  valuedouble : Decimal
  /-- The name of the node, if it is a member of an object. -/
  string : Option Bytes
  /-- The children of an array or an object. -/
  child : List CJSON

namespace CJSON

/-- `cJSON_New_Item`: a node of zeros. -/
def newItem : CJSON := ⟨.false_, none, 0, ⟨0, 0⟩, none, []⟩

/-- `skip`: past white space and control characters, never past the
terminator. -/
def skip (p : Bytes) : Bytes := p.dropWhile (fun b => b ≠ 0 ∧ b ≤ 32)

/-! ## Strings -/

/-- `parse_hex4`: four hexadecimal digits, or zero. -/
def parseHex4 (str : Bytes) : ℕ :=
  (JsonText.hex4 (deref str) (deref (str.drop 1)) (deref (str.drop 2))
    (deref (str.drop 3))).getD 0

/-- A continuation byte: the low six bits of a code point, marked. -/
def continuation (uc : ℕ) : UInt8 := ((uc ||| 0x80) &&& 0xBF).toUInt8

/-- The bytes `parse_string` writes for a code point. -/
def transcode (uc : ℕ) : Bytes :=
  if uc < 0x80 then [uc.toUInt8]
  else if uc < 0x800 then [(uc >>> 6 ||| 0xC0).toUInt8, continuation uc]
  else if uc < 0x10000 then
    [(uc >>> 12 ||| 0xE0).toUInt8, continuation (uc >>> 6), continuation uc]
  else
    [(uc >>> 18 ||| 0xF0).toUInt8, continuation (uc >>> 12), continuation (uc >>> 6),
      continuation uc]

/-- The `\u` escape, from the letter: what it writes, and the pointer to the
last character it used. A null character and half of a surrogate pair write
nothing. -/
def parseUnicode (ptr : Bytes) : Bytes × Bytes :=
  let uc := parseHex4 (ptr.drop 1)
  let ptr := ptr.drop 4
  if (0xDC00 ≤ uc ∧ uc ≤ 0xDFFF) ∨ uc = 0 then ([], ptr)
  else if 0xD800 ≤ uc ∧ uc ≤ 0xDBFF then
    if deref (ptr.drop 1) ≠ 92 ∨ deref (ptr.drop 2) ≠ 117 then ([], ptr)
    else
      let uc2 := parseHex4 (ptr.drop 3)
      let ptr := ptr.drop 6
      if uc2 < 0xDC00 ∨ 0xDFFF < uc2 then ([], ptr)
      else (transcode (0x10000 + ((uc &&& 0x3FF) <<< 10 ||| (uc2 &&& 0x3FF))), ptr)
  else (transcode uc, ptr)

/-- The `switch` on the character after a backslash. -/
def parseEscape (ptr : Bytes) : Bytes × Bytes :=
  if deref ptr = 98 then ([8], ptr)
  else if deref ptr = 102 then ([12], ptr)
  else if deref ptr = 110 then ([10], ptr)
  else if deref ptr = 114 then ([13], ptr)
  else if deref ptr = 116 then ([9], ptr)
  else if deref ptr = 117 then parseUnicode ptr
  else ([deref ptr], ptr)

/-- The loop of `parse_string`: the bytes it writes, and where it stops. -/
def parseStringLoop : ℕ → Bytes → Bytes × Bytes
  | 0, ptr => ([], ptr)
  | fuel + 1, ptr =>
    if deref ptr = 34 ∨ deref ptr = 0 then ([], ptr)
    else if deref ptr ≠ 92 then
      let r := parseStringLoop fuel ptr.tail
      (deref ptr :: r.1, r.2)
    else
      let e := parseEscape ptr.tail
      let r := parseStringLoop fuel e.2.tail
      (e.1 ++ r.1, r.2)

/-- `parse_string`: the string it fills in, and the pointer after it. A
string that the text does not close ends where the text does. -/
def parseString (str : Bytes) : Option (Bytes × Bytes) :=
  if deref str ≠ 34 then none
  else
    let r := parseStringLoop str.length str.tail
    some (cstr r.1, if deref r.2 = 34 then r.2.tail else r.2)

/-! ## Numbers -/

/-- The digits at a pointer, and the pointer after them. -/
def digitSpan (num : Bytes) : Bytes × Bytes := num.span isDigit

/-- The sign of `parse_number`, and the pointer after it. -/
def parseSign (num : Bytes) : ℤ × Bytes :=
  if deref num = 45 then (-1, num.tail) else (1, num)

/-- The integer part of `parse_number`: a zero is passed over, and digits
that start with another are read. -/
def parseInteger (num : Bytes) : Bytes × Bytes :=
  let num := if deref num = 48 then num.tail else num
  if 49 ≤ deref num ∧ deref num ≤ 57 then digitSpan num else ([], num)

/-- The optional fraction part of `parse_number`: a point counts if a digit
follows it. -/
def parseFraction (num : Bytes) : Bytes × Bytes :=
  if deref num = 46 ∧ isDigit (deref num.tail) then digitSpan num.tail else ([], num)

/-- The optional exponent of `parse_number`: its value, and the pointer
after it. -/
def parseExponent (num : Bytes) : ℤ × Bytes :=
  if deref num = 101 ∨ deref num = 69 then
    let num := num.tail
    let signed : ℤ × Bytes :=
      if deref num = 43 then (1, num.tail)
      else if deref num = 45 then (-1, num.tail) else (1, num)
    let ds := digitSpan signed.2
    (signed.1 * digitsFrom 0 ds.1, ds.2)
  else (0, num)

/-- `parse_number`: the number, and the pointer after it. -/
def parseNumber (num : Bytes) : Decimal × Bytes :=
  let sign := parseSign num
  let ip := parseInteger sign.2
  let fp := parseFraction ip.2
  let subscale := parseExponent fp.2
  (⟨sign.1 * digitsFrom 0 (ip.1 ++ fp.1), subscale.1 - fp.1.length⟩, subscale.2)

/-! ## Values -/

mutual

/-- `parse_value`, with `parse_array` and `parse_object` up to the first
element or member. -/
def parseValue : ℕ → Bytes → Option (CJSON × Bytes)
  | 0, _ => none
  | fuel + 1, value =>
    if (lit "null").isPrefixOf value then some ({ newItem with type := .null }, value.drop 4)
    else if (lit "false").isPrefixOf value then
      some ({ newItem with type := .false_ }, value.drop 5)
    else if (lit "true").isPrefixOf value then
      some ({ newItem with type := .true_, valueint := 1 }, value.drop 4)
    else if deref value = 34 then
      (parseString value).map
        (fun r => ({ newItem with type := .string, valuestring := some r.1 }, r.2))
    else if deref value = 45 ∨ (48 ≤ deref value ∧ deref value ≤ 57) then
      let r := parseNumber value
      some ({ newItem with type := .number, valuedouble := r.1, valueint := r.1.toInt }, r.2)
    else if deref value = 91 then
      let value := skip value.tail
      if deref value = 93 then some ({ newItem with type := .array }, value.tail)
      else (parseElements fuel value).map
        (fun r => ({ newItem with type := .array, child := r.1 }, r.2))
    else if deref value = 123 then
      let value := skip value.tail
      if deref value = 125 then some ({ newItem with type := .object }, value.tail)
      else (parseMembers fuel value).map
        (fun r => ({ newItem with type := .object, child := r.1 }, r.2))
    else none

/-- The loop of `parse_array`: an element, and after a comma the next. -/
def parseElements : ℕ → Bytes → Option (List CJSON × Bytes)
  | 0, _ => none
  | fuel + 1, value =>
    match parseValue fuel (skip value) with
    | none => none
    | some (item, value) =>
      let value := skip value
      if deref value = 44 then
        (parseElements fuel value.tail).map (fun r => (item :: r.1, r.2))
      else if deref value = 93 then some ([item], value.tail)
      else none

/-- The loop of `parse_object`: a name, a colon and a value, and after a
comma the next. -/
def parseMembers : ℕ → Bytes → Option (List CJSON × Bytes)
  | 0, _ => none
  | fuel + 1, value =>
    match parseString (skip value) with
    | none => none
    | some (name, value) =>
      let value := skip value
      if deref value ≠ 58 then none
      else match parseValue fuel (skip value.tail) with
        | none => none
        | some (item, value) =>
          let item := { item with string := some name }
          let value := skip value
          if deref value = 44 then
            (parseMembers fuel value.tail).map (fun r => (item :: r.1, r.2))
          else if deref value = 125 then some ([item], value.tail)
          else none

end

/-- `cJSON_ParseWithOpts`, with the pointer it can return: the node of the
value at the front of the text, and what follows the value. -/
def parseWithOpts (value : Bytes) (requireNullTerminated : Bool) : Option (CJSON × Bytes) :=
  match parseValue (2 * value.length) (skip value) with
  | none => none
  | some (c, «end») =>
    if requireNullTerminated ∧ deref (skip «end») ≠ 0 then none else some (c, «end»)

/-- `cJSON_Parse`. -/
def parse (value : Bytes) : Option CJSON := (parseWithOpts value false).map Prod.fst

/-! ## Looking a member up -/

/-- `tolower`, in the C locale. -/
def tolower (b : UInt8) : UInt8 := if 65 ≤ b ∧ b ≤ 90 then b + 32 else b

/-- `cJSON_strcasecmp(s1, s2) == 0`; a missing name is equal to no string. -/
def strcaseEq (s1 : Option Bytes) (s2 : Bytes) : Bool :=
  match s1 with
  | none => false
  | some s1 => s1.map tolower == s2.map tolower

/-- `cJSON_GetObjectItem`: the first child of that name. -/
def getObjectItem (object : CJSON) (string : Bytes) : Option CJSON :=
  object.child.find? (fun c => strcaseEq c.string string)

end CJSON
