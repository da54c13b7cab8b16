import WolServer.CString

/-!
# JSON texts

What a JSON text is, and which value it denotes: the grammar of the
standard over bytes, as a relation. This module is a library – it names no
program – and it is what "well-formed JSON that parses to" means everywhere
else in the development.

`JsonText.Derives t p r` reads: at the front of `t` stands a text of the
phrase `p`, and `r` is what follows it. Keeping the rest in the relation
means that no derivation splits a list, and that a text standing before
other bytes is no harder to speak about than a text standing alone.

The values are the plain ones. A string is the bytes it denotes, escapes
resolved and characters encoded in UTF-8; an escape for half of a surrogate
pair denotes no character, so it is no text of any string. A number is its
decimal significand and exponent. An object is the list of its members in
order.

Two facts are general. `Derives.append`: a text is a text whatever follows
it – except for a number, which ends where something other than a digit
stands. `Derives.length_le`: no text of a value is shorter than
`Json.minSize`, which charges two bytes for every quote, backslash and
control character of a string. A program that writes such a character as it
is therefore writes fewer bytes than any text of the value needs.
-/

/-- A JSON value. -/
inductive Json where
  /-- The literal `null`. -/
  | null
  /-- The literals `true` and `false`. -/
  | bool (b : Bool)
  /-- The number `m · 10 ^ e`. -/
  | num (m e : ℤ)
  /-- The string of these bytes. -/
  | str (s : Bytes)
  /-- The array of these elements. -/
  | arr (vs : List Json)
  /-- The object of these members. -/
  | obj (ms : List (Bytes × Json))

namespace JsonText

/-! ## Strings -/

/-- The value of a hexadecimal digit. -/
def hexVal (b : UInt8) : Option ℕ :=
  if 48 ≤ b ∧ b ≤ 57 then some (b.toNat - 48)
  else if 65 ≤ b ∧ b ≤ 70 then some (b.toNat - 55)
  else if 97 ≤ b ∧ b ≤ 102 then some (b.toNat - 87)
  else none

/-- The bytes that are digits, and their values. -/
theorem toNat_of_hexVal {x : UInt8} {v : ℕ} (h : hexVal x = some v) :
    (48 ≤ x.toNat ∧ x.toNat ≤ 57 ∧ v = x.toNat - 48)
      ∨ (65 ≤ x.toNat ∧ x.toNat ≤ 70 ∧ v = x.toNat - 55)
      ∨ (97 ≤ x.toNat ∧ x.toNat ≤ 102 ∧ v = x.toNat - 87) := by
  unfold hexVal at h
  split_ifs at h with h₁ h₂ h₃
  · exact Or.inl ⟨h₁.1, h₁.2, (Option.some.inj h).symm⟩
  · exact Or.inr (Or.inl ⟨h₂.1, h₂.2, (Option.some.inj h).symm⟩)
  · exact Or.inr (Or.inr ⟨h₃.1, h₃.2, (Option.some.inj h).symm⟩)

/-- The value of a digit is below sixteen. -/
theorem hexVal_lt {x : UInt8} {v : ℕ} (h : hexVal x = some v) : v < 16 := by
  rcases toNat_of_hexVal h with h | h | h <;> omega

/-- The value of four hexadecimal digits. -/
def hex4 (a b c d : UInt8) : Option ℕ := do
  return (((← hexVal a) * 16 + (← hexVal b)) * 16 + (← hexVal c)) * 16 + (← hexVal d)

/-- The characters written `\"`, `\\`, `\/`, `\b`, `\f`, `\n`, `\r`, `\t`:
the letter after the backslash, and the byte it stands for. -/
def simpleEscape : UInt8 → Option UInt8
  | 34 => some 34
  | 92 => some 92
  | 47 => some 47
  | 98 => some 8
  | 102 => some 12
  | 110 => some 10
  | 114 => some 13
  | 116 => some 9
  | _ => none

/-- A byte that a string may not hold as it is: a quote, a backslash or a
control character. -/
def special (b : UInt8) : Bool := b < 32 || b == 34 || b == 92

/-- **The rest of a string, after its opening quote**: the text, the bytes
it denotes, and what follows the closing quote. -/
inductive StrBody : Bytes → Bytes → Bytes → Prop
  /-- The closing quote. -/
  | close (r : Bytes) : StrBody (34 :: r) [] r
  /-- A byte that stands for itself. -/
  | plain {b : UInt8} {t s r : Bytes} (hb : special b = false) (h : StrBody t s r) :
      StrBody (b :: t) (b :: s) r
  /-- A two-byte escape. -/
  | escape {e b : UInt8} {t s r : Bytes} (he : simpleEscape e = some b)
      (h : StrBody t s r) : StrBody (92 :: e :: t) (b :: s) r
  /-- `\uXXXX`, a character of the basic plane. -/
  | unicode {h₁ h₂ h₃ h₄ : UInt8} {c : Char} {t s r : Bytes}
      (hc : hex4 h₁ h₂ h₃ h₄ = some c.toNat) (h : StrBody t s r) :
      StrBody (92 :: 117 :: h₁ :: h₂ :: h₃ :: h₄ :: t) (String.utf8EncodeChar c ++ s) r
  /-- `\uXXXX\uXXXX`, a surrogate pair. -/
  | pair {h₁ h₂ h₃ h₄ l₁ l₂ l₃ l₄ : UInt8} {hi lo : ℕ} {c : Char} {t s r : Bytes}
      (hhi : hex4 h₁ h₂ h₃ h₄ = some hi) (hlo : hex4 l₁ l₂ l₃ l₄ = some lo)
      (hi₀ : 0xD800 ≤ hi) (hi₁ : hi < 0xDC00) (lo₀ : 0xDC00 ≤ lo) (lo₁ : lo < 0xE000)
      (hc : c.toNat = 0x10000 + (hi - 0xD800) * 0x400 + (lo - 0xDC00))
      (h : StrBody t s r) :
      StrBody (92 :: 117 :: h₁ :: h₂ :: h₃ :: h₄ :: 92 :: 117 :: l₁ :: l₂ :: l₃ :: l₄ :: t)
        (String.utf8EncodeChar c ++ s) r

/-! ## Numbers -/

/-- A run of digits. -/
def Digits (ds : Bytes) : Prop := ∀ b ∈ ds, isDigit b = true

/-- The integer part of a number: `0`, or digits that start with another. -/
def IntPart (ip : Bytes) : Prop :=
  ip = [48] ∨ ∃ d ds, ip = d :: ds ∧ d ≠ 48 ∧ isDigit d = true ∧ Digits ds

/-- The exponent part of a number. -/
structure Exponent where
  /-- Whether it is written with a capital `E`. -/
  capital : Bool
  /-- Its sign, `true` for a minus, if one is written. -/
  sign : Option Bool
  /-- Its digits. -/
  digits : Bytes

/-- The text of an exponent part. -/
def Exponent.text (x : Exponent) : Bytes :=
  (if x.capital then 69 else 101) ::
    ((match x.sign with
      | none => []
      | some true => [45]
      | some false => [43]) ++ x.digits)

/-- The value of an exponent part. -/
def Exponent.val (x : Exponent) : ℤ :=
  if x.sign = some true then -(digitsFrom 0 x.digits : ℤ) else digitsFrom 0 x.digits

/-- The fraction part of a number, from the digits after the point. -/
def fracText (fp : Bytes) : Bytes := if fp = [] then [] else 46 :: fp

/-- **A numeral**: its text, its significand and its exponent. -/
inductive Numeral : Bytes → ℤ → ℤ → Prop
  /-- A sign, an integer part, a fraction part and an exponent part. -/
  | mk (neg : Bool) (ip fp : Bytes) (x : Option Exponent) (hip : IntPart ip)
      (hfp : Digits fp)
      (hx : ∀ y ∈ x, y.digits ≠ [] ∧ Digits y.digits) :
      Numeral ((if neg then [45] else []) ++ (ip ++ (fracText fp ++ (x.elim [] Exponent.text))))
        ((if neg then -1 else 1) * (digitsFrom 0 (ip ++ fp) : ℤ))
        (x.elim 0 Exponent.val - fp.length)

/-- Where a number ends: before a byte that could not continue it. -/
def NumEnd (r : Bytes) : Prop :=
  ∀ b ∈ r.head?, isDigit b = false ∧ b ≠ 46 ∧ b ≠ 101 ∧ b ≠ 69

/-! ## Values -/

/-- White space before a token. -/
inductive Ws : Bytes → Bytes → Prop
  /-- None. -/
  | nil (t : Bytes) : Ws t t
  /-- A space, tab, line feed or carriage return, and more of them. -/
  | cons {b : UInt8} {t r : Bytes} (hb : b = 32 ∨ b = 9 ∨ b = 10 ∨ b = 13) (h : Ws t r) :
      Ws (b :: t) r

/-- What stands inside a text: a value, or what follows the opening bracket
of an array or of an object that is not empty. -/
inductive Phrase where
  /-- A value. -/
  | value (v : Json)
  /-- The elements of an array, and its closing bracket. -/
  | elements (vs : List Json)
  /-- The members of an object, and its closing brace. -/
  | members (ms : List (Bytes × Json))

/-- **The grammar**: `Derives t p r` says that `t` starts with a text of the
phrase `p` and goes on with `r`. -/
inductive Derives : Bytes → Phrase → Bytes → Prop
  | null (r : Bytes) : Derives (lit "null" ++ r) (.value .null) r
  | true_ (r : Bytes) : Derives (lit "true" ++ r) (.value (.bool true)) r
  | false_ (r : Bytes) : Derives (lit "false" ++ r) (.value (.bool false)) r
  | num {t : Bytes} {m e : ℤ} {r : Bytes} (h : Numeral t m e) (hr : NumEnd r) :
      Derives (t ++ r) (.value (.num m e)) r
  | str {t s r : Bytes} (h : StrBody t s r) : Derives (34 :: t) (.value (.str s)) r
  | arrNil {t r : Bytes} (h : Ws t (93 :: r)) : Derives (91 :: t) (.value (.arr [])) r
  | arr {t r : Bytes} {vs : List Json} (h : Derives t (.elements vs) r) :
      Derives (91 :: t) (.value (.arr vs)) r
  | objNil {t r : Bytes} (h : Ws t (125 :: r)) : Derives (123 :: t) (.value (.obj [])) r
  | obj {t r : Bytes} {ms : List (Bytes × Json)} (h : Derives t (.members ms) r) :
      Derives (123 :: t) (.value (.obj ms)) r
  | lastElement {t t₁ t₂ r : Bytes} {v : Json} (h₁ : Ws t t₁)
      (h₂ : Derives t₁ (.value v) t₂) (h₃ : Ws t₂ (93 :: r)) :
      Derives t (.elements [v]) r
  | element {t t₁ t₂ t₃ r : Bytes} {v : Json} {vs : List Json} (h₁ : Ws t t₁)
      (h₂ : Derives t₁ (.value v) t₂) (h₃ : Ws t₂ (44 :: t₃))
      (h₄ : Derives t₃ (.elements vs) r) : Derives t (.elements (v :: vs)) r
  | lastMember {t t₁ t₂ t₃ t₄ t₅ r k : Bytes} {v : Json} (h₁ : Ws t (34 :: t₁))
      (h₂ : StrBody t₁ k t₂) (h₃ : Ws t₂ (58 :: t₃)) (h₄ : Ws t₃ t₄)
      (h₅ : Derives t₄ (.value v) t₅) (h₆ : Ws t₅ (125 :: r)) :
      Derives t (.members [(k, v)]) r
  | member {t t₁ t₂ t₃ t₄ t₅ t₆ r k : Bytes} {v : Json} {ms : List (Bytes × Json)}
      (h₁ : Ws t (34 :: t₁)) (h₂ : StrBody t₁ k t₂) (h₃ : Ws t₂ (58 :: t₃)) (h₄ : Ws t₃ t₄)
      (h₅ : Derives t₄ (.value v) t₅) (h₆ : Ws t₅ (44 :: t₆))
      (h₇ : Derives t₆ (.members ms) r) : Derives t (.members ((k, v) :: ms)) r

/-- **A JSON text of a value**: the value, with white space around it. -/
def IsText (v : Json) (t : Bytes) : Prop :=
  ∃ t₁ t₂, Ws t t₁ ∧ Derives t₁ (.value v) t₂ ∧ Ws t₂ []

/-- **A JSON object**: a text that is an object from its first byte to its
last. -/
def IsObject (t : Bytes) : Prop := ∃ ms, Derives t (.value (.obj ms)) []

/-! ## A text goes on being one -/

/-- White space is white space whatever follows. -/
theorem Ws.append {t r : Bytes} (h : Ws t r) (x : Bytes) : Ws (t ++ x) (r ++ x) := by
  induction h with
  | nil t => exact Ws.nil _
  | cons hb _ ih => exact Ws.cons hb ih

/-- A string is a string whatever follows. -/
theorem StrBody.append {t s r : Bytes} (h : StrBody t s r) (x : Bytes) :
    StrBody (t ++ x) s (r ++ x) := by
  induction h with
  | close r => exact StrBody.close _
  | plain hb _ ih => exact StrBody.plain hb ih
  | escape he _ ih => exact StrBody.escape he ih
  | unicode hc _ ih => exact StrBody.unicode hc ih
  | pair hhi hlo hi₀ hi₁ lo₀ lo₁ hc _ ih =>
    exact StrBody.pair hhi hlo hi₀ hi₁ lo₀ lo₁ hc ih

/-- White space before something is not nothing. -/
theorem Ws.ne_nil {t r : Bytes} {b : UInt8} (h : Ws t (b :: r)) : t ≠ [] := by
  rintro rfl
  cases h

/-- A number ends before any byte that does not continue it, whatever follows
the byte. -/
theorem NumEnd.append {r x : Bytes} (hr : NumEnd r) (hx : r = [] → NumEnd x) :
    NumEnd (r ++ x) := by
  cases r with
  | nil => exact hx rfl
  | cons b r => exact hr

/-- **A text is a text whatever follows it** – unless it is a number at the end
of the text, which the bytes that follow must not continue. -/
theorem Derives.append {t r : Bytes} {p : Phrase} (h : Derives t p r) {x : Bytes}
    (hx : r = [] → ∀ m e, p = .value (.num m e) → NumEnd x) : Derives (t ++ x) p (r ++ x) := by
  induction h with
  | null r => exact Derives.null _
  | true_ r => exact Derives.true_ _
  | false_ r => exact Derives.false_ _
  | num h hr =>
    rw [List.append_assoc]
    exact Derives.num h (hr.append (fun hnil => hx hnil _ _ rfl))
  | str h => exact Derives.str (h.append x)
  | arrNil h => exact Derives.arrNil (h.append x)
  | arr _ ih => exact Derives.arr (ih (fun _ _ _ h => by cases h))
  | objNil h => exact Derives.objNil (h.append x)
  | obj _ ih => exact Derives.obj (ih (fun _ _ _ h => by cases h))
  | lastElement h₁ _ h₃ ih =>
    exact Derives.lastElement (h₁.append x) (ih (fun hnil => absurd hnil h₃.ne_nil))
      (h₃.append x)
  | element h₁ _ h₃ _ ih₂ ih₄ =>
    exact Derives.element (h₁.append x) (ih₂ (fun hnil => absurd hnil h₃.ne_nil)) (h₃.append x)
      (ih₄ (fun _ _ _ h => by cases h))
  | lastMember h₁ h₂ h₃ h₄ _ h₆ ih =>
    exact Derives.lastMember (h₁.append x) (h₂.append x) (h₃.append x) (h₄.append x)
      (ih (fun hnil => absurd hnil h₆.ne_nil)) (h₆.append x)
  | member h₁ h₂ h₃ h₄ _ h₆ _ ih₅ ih₇ =>
    exact Derives.member (h₁.append x) (h₂.append x) (h₃.append x) (h₄.append x)
      (ih₅ (fun hnil => absurd hnil h₆.ne_nil)) (h₆.append x) (ih₇ (fun _ _ _ h => by cases h))

/-- An object is not empty. -/
theorem IsObject.ne_nil {t : Bytes} (h : IsObject t) : t ≠ [] := by
  obtain ⟨ms, h⟩ := h
  generalize hp : Phrase.value (.obj ms) = p at h
  cases h with
  | objNil | obj => exact List.cons_ne_nil _ _
  | _ => cases hp

/-! ## The least size of a text -/

/-- The least number of bytes between the quotes of a string: one for a byte
that stands for itself, two for one that has to be escaped. -/
def strSize (s : Bytes) : ℕ := s.length + s.countP special

end JsonText

mutual

/-- **The least size of a text of a value.** -/
def Json.minSize : Json → ℕ
  | .null => 4
  | .bool b => if b then 4 else 5
  | .num m _ => (decimal m.natAbs).length
  | .str s => JsonText.strSize s + 2
  | .arr [] => 2
  | .arr (v :: vs) => 1 + Json.elementsSize (v :: vs)
  | .obj [] => 2
  | .obj (m :: ms) => 1 + Json.membersSize (m :: ms)

/-- The least size of elements, each with the comma or bracket after it. -/
def Json.elementsSize : List Json → ℕ
  | [] => 0
  | v :: vs => v.minSize + 1 + Json.elementsSize vs

/-- The least size of members, each with its colon and the comma or brace
after it. -/
def Json.membersSize : List (Bytes × Json) → ℕ
  | [] => 0
  | (k, v) :: ms => JsonText.strSize k + 3 + v.minSize + 1 + Json.membersSize ms

end

namespace Json

theorem minSize_obj (m : Bytes × Json) (ms : List (Bytes × Json)) :
    (Json.obj (m :: ms)).minSize = 1 + membersSize (m :: ms) := by
  rw [Json.minSize]

theorem minSize_arr (vs : List Json) : (Json.arr vs).minSize = 2 + (elementsSize vs - 1) := by
  cases vs with
  | nil => rfl
  | cons v vs =>
    rw [Json.minSize, Json.elementsSize]
    omega

theorem elementsSize_map {α : Type} (v : α → Json) (l : List α) :
    elementsSize (l.map v) = (l.map (fun a => (v a).minSize + 1)).sum := by
  induction l with
  | nil => rfl
  | cons a l ih => rw [List.map_cons, elementsSize, ih, List.map_cons, List.sum_cons]

end Json

namespace JsonText

/-- The least size of a phrase. -/
def Phrase.minSize : Phrase → ℕ
  | .value v => v.minSize
  | .elements vs => Json.elementsSize vs
  | .members ms => Json.membersSize ms

theorem Ws.length_le {t r : Bytes} (h : Ws t r) : r.length ≤ t.length := by
  induction h with
  | nil t => exact le_rfl
  | cons _ _ ih => exact ih.trans (Nat.le_succ _)

theorem strSize_cons (b : UInt8) (s : Bytes) :
    strSize (b :: s) = strSize s + 1 + if special b then 1 else 0 := by
  unfold strSize
  rw [List.countP_cons, List.length_cons]
  omega

/-- Escaped as `n` bytes or more, `n` being twice their number, some bytes
take no less room than they need. -/
theorem strSize_append_le (u s : Bytes) {n : ℕ} (hu : 2 * u.length ≤ n) :
    strSize (u ++ s) ≤ strSize s + n := by
  have := List.countP_le_length (p := special) (l := u)
  unfold strSize
  rw [List.length_append, List.countP_append]
  omega

theorem length_utf8EncodeChar_le (c : Char) : (String.utf8EncodeChar c).length ≤ 4 := by
  rw [String.length_utf8EncodeChar]
  exact Char.utf8Size_le_four c

theorem length_utf8EncodeChar_le_three {c : Char} (h : c.toNat < 0x10000) :
    (String.utf8EncodeChar c).length ≤ 3 := by
  have h' : c.val.toNat ≤ 65535 := Nat.le_of_lt_succ h
  simp only [String.utf8EncodeChar]
  split_ifs <;> simp

/-- Four hexadecimal digits write a number of sixteen bits. -/
theorem hex4_lt {a b c d : UInt8} {n : ℕ} (h : hex4 a b c d = some n) : n < 0x10000 := by
  simp only [hex4, Option.pure_def, Option.bind_eq_bind, Option.bind_eq_some_iff,
    Option.some.injEq] at h
  obtain ⟨va, ha, vb, hb, vc, hc, vd, hd, rfl⟩ := h
  have := hexVal_lt ha
  have := hexVal_lt hb
  have := hexVal_lt hc
  have := hexVal_lt hd
  omega

/-- No text of a string is shorter than its bytes need. -/
theorem StrBody.length_le {t s r : Bytes} (h : StrBody t s r) :
    r.length + strSize s + 1 ≤ t.length := by
  induction h with
  | close r => simp [strSize]
  | plain hb _ ih =>
    rw [strSize_cons, hb, List.length_cons, if_neg Bool.false_ne_true]
    omega
  | escape _ _ ih =>
    rw [strSize_cons, List.length_cons, List.length_cons]
    split <;> omega
  | @unicode _ _ _ _ c t s r hc _ ih =>
    have hlen := length_utf8EncodeChar_le_three (hex4_lt hc)
    have := strSize_append_le (String.utf8EncodeChar c) s (n := 6) (by omega)
    simp only [List.length_cons]
    omega
  | @pair _ _ _ _ _ _ _ _ _ _ c t s r _ _ _ _ _ _ _ _ ih =>
    have hlen := length_utf8EncodeChar_le c
    have := strSize_append_le (String.utf8EncodeChar c) s (n := 12) (by omega)
    simp only [List.length_cons]
    omega

theorem IntPart.digits {ip : Bytes} (h : IntPart ip) : Digits ip := by
  rcases h with rfl | ⟨d, ds, rfl, -, hd, hds⟩
  · intro b hb
    rw [List.mem_singleton.mp hb]
    rfl
  · exact List.forall_mem_cons.mpr ⟨hd, hds⟩

theorem IntPart.ne_nil {ip : Bytes} (h : IntPart ip) : ip ≠ [] := by
  rcases h with rfl | ⟨d, ds, rfl, -⟩ <;> simp

/-- No numeral is shorter than the numeral of its significand. -/
theorem Numeral.length_le {t : Bytes} {m e : ℤ} (h : Numeral t m e) :
    (decimal m.natAbs).length ≤ t.length := by
  obtain ⟨neg, ip, fp, x, hip, hfp, hx⟩ := h
  have hds : Digits (ip ++ fp) := fun b hb =>
    (List.mem_append.mp hb).elim (hip.digits b) (hfp b)
  have hne : ip ++ fp ≠ [] := fun h0 => hip.ne_nil (List.append_eq_nil_iff.mp h0).1
  have hval : ((if neg then -1 else 1) * (digitsFrom 0 (ip ++ fp) : ℤ)).natAbs
      = digitsFrom 0 (ip ++ fp) := by
    cases neg <;> simp
  have hfrac : fp.length ≤ (fracText fp).length := by
    unfold fracText
    split
    · simp_all
    · simp
  have hlen := length_decimal_digitsFrom_le hne hds
  rw [hval]
  simp only [List.length_append] at hlen ⊢
  omega

/-- **No text of a phrase is shorter than its least size.** -/
theorem Derives.length_le {t r : Bytes} {p : Phrase} (h : Derives t p r) :
    r.length + p.minSize ≤ t.length := by
  induction h with
  | null r => simp [Phrase.minSize, Json.minSize, lit]
  | true_ r => simp [Phrase.minSize, Json.minSize, lit]
  | false_ r => simp [Phrase.minSize, Json.minSize, lit]
  | num h hr =>
    have := h.length_le
    simp only [Phrase.minSize, Json.minSize, List.length_append]
    omega
  | str h =>
    have := h.length_le
    simp only [Phrase.minSize, Json.minSize, List.length_cons]
    omega
  | arrNil h | objNil h =>
    have := h.length_le
    simp only [Phrase.minSize, Json.minSize, List.length_cons] at *
    omega
  | @arr t r vs h ih =>
    cases vs with
    | nil => cases h
    | cons v vs =>
      simp only [Phrase.minSize, Json.minSize, List.length_cons] at *
      omega
  | @obj t r ms h ih =>
    cases ms with
    | nil => cases h
    | cons m ms =>
      simp only [Phrase.minSize, Json.minSize, List.length_cons] at *
      omega
  | lastElement h₁ _ h₃ ih =>
    have := h₁.length_le
    have := h₃.length_le
    simp only [Phrase.minSize, Json.elementsSize, List.length_cons] at *
    omega
  | element h₁ _ h₃ _ ih₂ ih₄ =>
    have := h₁.length_le
    have := h₃.length_le
    simp only [Phrase.minSize, Json.elementsSize, List.length_cons] at *
    omega
  | lastMember h₁ h₂ h₃ h₄ _ h₆ ih =>
    have := h₁.length_le
    have := h₂.length_le
    have := h₃.length_le
    have := h₄.length_le
    have := h₆.length_le
    simp only [Phrase.minSize, Json.membersSize, List.length_cons] at *
    omega
  | member h₁ h₂ h₃ h₄ _ h₆ _ ih₅ ih₇ =>
    have := h₁.length_le
    have := h₂.length_le
    have := h₃.length_le
    have := h₄.length_le
    have := h₆.length_le
    simp only [Phrase.minSize, Json.membersSize, List.length_cons] at *
    omega

/-! ## Texts a program prints -/

/-- Bytes that may stand in a string as they are. -/
def Plain (s : Bytes) : Prop := ∀ b ∈ s, special b = false

instance (s : Bytes) : Decidable (Plain s) := inferInstanceAs (Decidable (∀ b ∈ s, _))

theorem plain_iff_countP {s : Bytes} : Plain s ↔ s.countP special = 0 := by
  simp only [Plain, List.countP_eq_zero, Bool.not_eq_true]

/-- **Bytes that stand for themselves, between quotes.** -/
theorem strBody_of_plain {s : Bytes} (hs : Plain s) (r : Bytes) :
    StrBody (s ++ 34 :: r) s r := by
  induction s with
  | nil => exact StrBody.close r
  | cons b s ih =>
    exact StrBody.plain (hs b List.mem_cons_self)
      (ih (fun c hc => hs c (List.mem_cons_of_mem b hc)))

/-- A printed number is a numeral of that number. -/
theorem numeral_decimal (n : ℕ) : Numeral (decimal n) n 0 := by
  have hip : IntPart (decimal n) := (decimal_shape n).imp id
    (fun ⟨d, ds, h, hne, hd, hds⟩ => ⟨d, ds, h, hne, hd, hds⟩)
  have h := Numeral.mk false (decimal n) [] none hip (fun _ h => absurd h List.not_mem_nil)
    (fun _ h => absurd h (Option.not_mem_none _))
  simpa [fracText, digitsFrom_decimal] using h

/-- A printed number, before a byte that ends it. -/
theorem derives_decimal (n : ℕ) {r : Bytes} (hr : NumEnd r) :
    Derives (decimal n ++ r) (.value (.num n 0)) r :=
  Derives.num (numeral_decimal n) hr

/-- A printed string. -/
theorem derives_str {s : Bytes} (hs : Plain s) (r : Bytes) :
    Derives (34 :: (s ++ 34 :: r)) (.value (.str s)) r := Derives.str (strBody_of_plain hs r)

/-- A printed member, and the members after it. -/
theorem derives_member {name t t' r : Bytes} {v : Json} {ms : List (Bytes × Json)}
    (hn : Plain name) (hv : Derives t (.value v) (44 :: t')) (hms : Derives t' (.members ms) r) :
    Derives (34 :: (name ++ 34 :: 58 :: t)) (.members ((name, v) :: ms)) r :=
  Derives.member (Ws.nil _) (strBody_of_plain hn _) (Ws.nil _) (Ws.nil _) hv (Ws.nil _) hms

/-- The last member. -/
theorem derives_lastMember {name t r : Bytes} {v : Json} (hn : Plain name)
    (hv : Derives t (.value v) (125 :: r)) :
    Derives (34 :: (name ++ 34 :: 58 :: t)) (.members [(name, v)]) r :=
  Derives.lastMember (Ws.nil _) (strBody_of_plain hn _) (Ws.nil _) (Ws.nil _) hv (Ws.nil _)

/-- **A printed array**: the texts of its elements, joined with commas. -/
theorem derives_arr {α : Type} (f : α → Bytes) (v : α → Json) {l : List α}
    (hf : ∀ a ∈ l, ∀ r, NumEnd r → Derives (f a ++ r) (.value (v a)) r) (r : Bytes) :
    Derives (91 :: ([44].intercalate (l.map f) ++ 93 :: r)) (.value (.arr (l.map v))) r := by
  have hcomma : ∀ r, NumEnd (44 :: r) := fun r b hb => by
    obtain rfl : 44 = b := Option.some.inj hb
    decide
  have hclose : NumEnd (93 :: r) := fun b hb => by
    obtain rfl : 93 = b := Option.some.inj hb
    decide
  have helems : ∀ (a : α) (l : List α),
      (∀ b ∈ a :: l, ∀ r, NumEnd r → Derives (f b ++ r) (.value (v b)) r) →
      Derives ([44].intercalate ((a :: l).map f) ++ 93 :: r) (.elements ((a :: l).map v)) r := by
    intro a l
    induction l generalizing a with
    | nil =>
      intro h
      exact Derives.lastElement (Ws.nil _)
        (by simpa using h a List.mem_cons_self (93 :: r) hclose) (Ws.nil _)
    | cons b l ih =>
      intro h
      have htext : [44].intercalate ((a :: b :: l).map f) ++ 93 :: r
          = f a ++ 44 :: ([44].intercalate ((b :: l).map f) ++ 93 :: r) := by
        rw [List.map_cons, List.map_cons, List.intercalate_cons_cons]
        simp
      rw [htext]
      exact Derives.element (Ws.nil _) (h a List.mem_cons_self _ (hcomma _)) (Ws.nil _)
        (ih b (fun c hc => h c (List.mem_cons_of_mem a hc)))
  cases l with
  | nil => exact Derives.arrNil (Ws.nil _)
  | cons a l => exact Derives.arr (helems a l hf)

/-- No text of a value is shorter than its least size. -/
theorem IsText.minSize_le {v : Json} {t : Bytes} (h : IsText v t) : v.minSize ≤ t.length := by
  obtain ⟨t₁, t₂, h₁, hv, -⟩ := h
  have hlen : t₂.length + v.minSize ≤ t₁.length := hv.length_le
  have := h₁.length_le
  omega

end JsonText
