import WolServer.CJSONComplete
import WolServer.CJSONShape

/-!
# The printer of `cJSON.cpp`

`cJSON_Print` and `cJSON_PrintUnformatted`, function by function, on the path
that allocates each piece of text by itself: the path through a print buffer
is for `cJSON_PrintBuffered`, which nothing calls.

Every piece is an allocation, and a text is printed when all of them succeed.
The model threads the heap through the functions – whether each of the
allocations to come succeeds – and gives up at the first that does not. The
source prints the rest of an object after a member that failed, and gives up
then; nobody sees the difference. Lengths are not bounded, where those of the
source are of type `int`.

A number that is not an integer is printed by `sprintf` from a double, and
this text is a parameter, `sprintf`.

`CJSON.print_prints` is the result: a tree as the parser builds it, whose
numbers are integers, is printed as a JSON text of a value whose node is the
same tree again.
-/

/-- The value of a number. -/
def Decimal.toRat (d : Decimal) : ℚ := d.mantissa * (10 : ℚ) ^ d.exponent

/-- The heap: whether each of the allocations to come succeeds. -/
abbrev Heap := ℕ → Bool

namespace CJSON

/-- `cJSON_malloc`. -/
def malloc : StateT Heap Option Unit :=
  fun heap => if heap 0 = true then some ((), fun n => heap (n + 1)) else none

/-! ## Strings and numbers -/

/-- A hexadecimal digit, in lower case. -/
def hexDigit (n : ℕ) : UInt8 := if n < 10 then (48 + n).toUInt8 else (87 + n).toUInt8

/-- What `print_string_ptr` writes for a character. -/
def escape (token : UInt8) : Bytes :=
  if token > 31 ∧ token ≠ 34 ∧ token ≠ 92 then [token]
  else if token = 92 then [92, 92]
  else if token = 34 then [92, 34]
  else if token = 8 then [92, 98]
  else if token = 12 then [92, 102]
  else if token = 10 then [92, 110]
  else if token = 13 then [92, 114]
  else if token = 9 then [92, 116]
  else [92, 117, 48, 48, hexDigit (token.toNat / 16), hexDigit (token.toNat % 16)]

/-- `print_string_ptr`. -/
def printStringPtr (str : Option Bytes) : StateT Heap Option Bytes :=
  match str with
  -- the source reads through the null pointer
  | none => fun _ => none
  | some str => do
    malloc
    return 34 :: ((if (cstr str).any JsonText.special then (cstr str).flatMap escape
      else cstr str) ++ [34])

/-- `%d`. -/
def signedDecimal (n : ℤ) : Bytes := (if n < 0 then [45] else []) ++ decimal n.natAbs

/-- `print_number`. -/
def printNumber (sprintf : Decimal → Bytes) (valueint : ℤ) (d : Decimal) :
    StateT Heap Option Bytes := do
  malloc
  return if d.toRat = 0 then lit "0"
    else if |(valueint : ℚ) - d.toRat| ≤ 1 / 2 ^ 52 ∧ d.toRat ≤ 2147483647
        ∧ d.toRat ≥ -2147483648 then signedDecimal valueint
    else sprintf d

/-! ## Arrays and objects -/

/-- A line feed, in a formatted text. -/
def newline (fmt : Bool) : Bytes := if fmt = true then [10] else []

/-- Tabulators, in a formatted text. -/
def tabs (fmt : Bool) (n : ℕ) : Bytes := if fmt = true then List.replicate n 9 else []

/-- The loop of `print_array` that composes the output. -/
def composeElements (fmt : Bool) : List Bytes → Bytes
  | [] => []
  | entry :: entries =>
    entry ++ ((if entries.isEmpty then [] else 44 :: if fmt = true then [32] else [])
      ++ composeElements fmt entries)

/-- The loop of `print_object` that composes the output, from the names and
the entries. -/
def composeMembers (fmt : Bool) (depth : ℕ) : List (Bytes × Bytes) → Bytes
  | [] => []
  | (name, entry) :: members =>
    tabs fmt depth ++ (name ++ (58 :: tabs fmt 1 ++ (entry
      ++ ((if members.isEmpty then [] else [44]) ++ (newline fmt
        ++ composeMembers fmt depth members)))))

mutual

/-- `print_value`, with `print_array` and `print_object`. -/
def printValue (sprintf : Decimal → Bytes) :
    CJSON → ℕ → Bool → StateT Heap Option Bytes
  | ⟨.null, _, _, _, _, _⟩, _, _ => do malloc; return lit "null"
  | ⟨.false_, _, _, _, _, _⟩, _, _ => do malloc; return lit "false"
  | ⟨.true_, _, _, _, _, _⟩, _, _ => do malloc; return lit "true"
  | ⟨.number, _, valueint, valuedouble, _, _⟩, _, _ => printNumber sprintf valueint valuedouble
  | ⟨.string, valuestring, _, _, _, _⟩, _, _ => printStringPtr valuestring
  | ⟨.array, _, _, _, _, child⟩, depth, fmt =>
    if child.isEmpty then do malloc; return lit "[]"
    else do
      malloc
      let entries ← printElements sprintf child (depth + 1) fmt
      malloc
      return 91 :: (composeElements fmt entries ++ [93])
  | ⟨.object, _, _, _, _, child⟩, depth, fmt =>
    if child.isEmpty then do
      malloc
      return 123 :: (newline fmt ++ (tabs fmt (depth - 1) ++ [125]))
    else do
      -- the entries and the names
      malloc
      malloc
      let members ← printMembers sprintf child (depth + 1) fmt
      malloc
      return 123 :: (newline fmt ++ (composeMembers fmt (depth + 1) members
        ++ (tabs fmt depth ++ [125])))

/-- The loop of `print_array` that retrieves the results. -/
def printElements (sprintf : Decimal → Bytes) :
    List CJSON → ℕ → Bool → StateT Heap Option (List Bytes)
  | [], _, _ => return []
  | child :: next, depth, fmt => do
    let ret ← printValue sprintf child depth fmt
    let entries ← printElements sprintf next depth fmt
    return ret :: entries

/-- The loop of `print_object` that collects the results: the names, and the
entries. -/
def printMembers (sprintf : Decimal → Bytes) :
    List CJSON → ℕ → Bool → StateT Heap Option (List (Bytes × Bytes))
  | [], _, _ => return []
  | child :: next, depth, fmt => do
    let str ← printStringPtr child.string
    let ret ← printValue sprintf child depth fmt
    let members ← printMembers sprintf next depth fmt
    return (str, ret) :: members

end

/-- `cJSON_Print` and `cJSON_PrintUnformatted`: the text, if it is
printed. -/
def print (sprintf : Decimal → Bytes) (item : CJSON) (fmt : Bool) (heap : Heap) : Option Bytes :=
  (printValue sprintf item 0 fmt heap).map Prod.fst

/-! ## Trees that can be told apart -/

/-- The node holds an integer of type `int`, in both of its fields. -/
def HoldsInt (c : CJSON) (n : ℤ) : Prop :=
  -2147483648 ≤ n ∧ n ≤ 2147483647 ∧ c.valueint = n ∧ c.valuedouble.toRat = n

/-- The numbers of the tree are integers of type `int`. -/
inductive Integral : CJSON → Prop
  | mk {c : CJSON} (number : c.type = .number → ∃ n, HoldsInt c n)
      (child : ∀ e ∈ c.child, Integral e) : Integral c

theorem Integral.child {c : CJSON} (h : Integral c) : ∀ e ∈ c.child, Integral e := by
  cases h with
  | mk _ child => exact child

/-- **Two trees are equal**, in structure, names and values. The name of the
root is no matter of its tree. -/
inductive Same : CJSON → CJSON → Prop
  | mk {c d : CJSON} (type : c.type = d.type)
      (text : c.type = .string → c.valuestring = d.valuestring)
      (number : c.type = .number →
        c.valueint = d.valueint ∧ c.valuedouble.toRat = d.valuedouble.toRat)
      (names : c.child.map (·.string) = d.child.map (·.string))
      (child : List.Forall₂ Same c.child d.child) : Same c d

/-- The name of a node is no matter of its tree. -/
theorem Same.named {c d : CJSON} (h : Same c d) (name : Option Bytes) :
    Same c { d with string := name } := by
  cases h with
  | mk type text number names child => exact .mk type text number names child

/-! ## What is printed is a text -/

/-- A step after another has a result when both have. -/
theorem bind_eq_some {α β : Type} {x : StateT Heap Option α} {f : α → StateT Heap Option β}
    {heap heap' : Heap} {b : β} :
    (x >>= f) heap = some (b, heap')
      ↔ ∃ a heap₁, x heap = some (a, heap₁) ∧ f a heap₁ = some (b, heap') := by
  constructor
  · intro h
    obtain ⟨⟨a, heap₁⟩, hx, hf⟩ := Option.bind_eq_some_iff.mp h
    exact ⟨a, heap₁, hx, hf⟩
  · rintro ⟨a, heap₁, hx, hf⟩
    exact Option.bind_eq_some_iff.mpr ⟨(a, heap₁), hx, hf⟩

theorem pure_eq_some {α : Type} {a b : α} {heap heap' : Heap}
    (h : (pure a : StateT Heap Option α) heap = some (b, heap')) : a = b :=
  (Prod.mk.inj (Option.some.inj h)).1

/-- The digits of a byte below 32 are read back. -/
theorem hex4_hexDigit : ∀ n < 32,
    JsonText.hex4 48 48 (hexDigit (n / 16)) (hexDigit (n % 16)) = some n := by decide

/-- **What `print_string_ptr` writes for a character**: the character itself,
a letter behind a backslash, or its code. -/
theorem escape_cases (b : UInt8) :
    (escape b = [b] ∧ JsonText.special b = false)
      ∨ (∃ e, escape b = [92, e] ∧ JsonText.simpleEscape e = some b)
      ∨ (b.toNat < 32 ∧ escape b
        = [92, 117, 48, 48, hexDigit (b.toNat / 16), hexDigit (b.toNat % 16)]) := by
  unfold escape
  split_ifs with hplain h₁ h₂ h₃ h₄ h₅ h₆ h₇
  · refine Or.inl ⟨rfl, ?_⟩
    have hlow : ¬ b < 32 := fun h => absurd (UInt8.lt_iff_toNat_lt.mp h)
      (Nat.not_lt.mpr (UInt8.lt_iff_toNat_lt.mp hplain.1))
    simp [JsonText.special, hlow, hplain.2.1, hplain.2.2]
  · exact Or.inr (Or.inl ⟨92, rfl, by rw [h₁]; rfl⟩)
  · exact Or.inr (Or.inl ⟨34, rfl, by rw [h₂]; rfl⟩)
  · exact Or.inr (Or.inl ⟨98, rfl, by rw [h₃]; rfl⟩)
  · exact Or.inr (Or.inl ⟨102, rfl, by rw [h₄]; rfl⟩)
  · exact Or.inr (Or.inl ⟨110, rfl, by rw [h₅]; rfl⟩)
  · exact Or.inr (Or.inl ⟨114, rfl, by rw [h₆]; rfl⟩)
  · exact Or.inr (Or.inl ⟨116, rfl, by rw [h₇]; rfl⟩)
  · refine Or.inr (Or.inr ⟨?_, rfl⟩)
    by_contra hlarge
    have h31 : b > 31 := UInt8.lt_iff_toNat_lt.mpr (Nat.le_of_not_lt hlarge)
    exact hplain ⟨h31, h₂, h₁⟩

/-- The character of a byte below 32 is encoded as that byte. -/
theorem utf8EncodeChar_of_lt : ∀ n < 32,
    (Char.ofNat n).toNat = n ∧ String.utf8EncodeChar (Char.ofNat n) = [n.toUInt8] := by decide

/-- What is written for a character denotes it. -/
theorem strBody_escape {t s r : Bytes} (b : UInt8) (h : JsonText.StrBody t s r) :
    JsonText.StrBody (escape b ++ t) (b :: s) r := by
  rcases escape_cases b with ⟨he, hb⟩ | ⟨e, he, hb⟩ | ⟨hb, he⟩
  · rw [he]
    exact .plain hb h
  · rw [he]
    exact .escape hb h
  · obtain ⟨hnat, hutf⟩ := utf8EncodeChar_of_lt b.toNat hb
    have hchar : b :: s = String.utf8EncodeChar (Char.ofNat b.toNat) ++ s := by
      rw [hutf, List.singleton_append, Nat.toUInt8, UInt8.ofNat_toNat]
    rw [he, hchar]
    exact .unicode ((hex4_hexDigit b.toNat hb).trans (congrArg some hnat.symm)) h

/-- **An escaped string denotes the string.** -/
theorem strBody_flatMap_escape (s r : Bytes) :
    JsonText.StrBody (s.flatMap escape ++ 34 :: r) s r := by
  induction s with
  | nil => exact .close r
  | cons b s ih =>
    rw [List.flatMap_cons, List.append_assoc]
    exact strBody_escape b ih

/-- A string with nothing to escape is written as it is. -/
theorem flatMap_escape_of_plain {s : Bytes} (hs : JsonText.Plain s) : s.flatMap escape = s := by
  induction s with
  | nil => rfl
  | cons b s ih =>
    have hb : escape b = [b] := by
      have hspecial := hs b List.mem_cons_self
      simp only [JsonText.special, Bool.or_eq_false_iff, decide_eq_false_iff_not,
        beq_eq_false_iff_ne, ne_eq] at hspecial
      refine if_pos ⟨?_, hspecial.1.2, hspecial.2⟩
      exact UInt8.lt_iff_toNat_lt.mpr (Nat.lt_of_succ_le
        (Nat.le_of_not_lt (fun h => hspecial.1.1 (UInt8.lt_iff_toNat_lt.mpr h))))
    rw [List.flatMap_cons, hb, ih (fun c hc => hs c (List.mem_cons_of_mem b hc))]
    rfl

/-- A string without a NUL loses none. -/
theorem dropNul_eq_self {s : Bytes} (hs : (0 : UInt8) ∉ s) : dropNul s = s :=
  List.filter_eq_self.mpr (fun b hb => decide_eq_true (fun h0 : b = 0 => hs (h0 ▸ hb)))

/-- What `print_string_ptr` prints, when it prints. -/
theorem printStringPtr_eq {s text : Bytes} {heap heap' : Heap} (hs : (0 : UInt8) ∉ s)
    (h : printStringPtr (some s) heap = some (text, heap')) :
    text = 34 :: (s.flatMap escape ++ [34]) := by
  obtain ⟨-, heap₁, -, hret⟩ := bind_eq_some.mp h
  rw [← pure_eq_some hret, cstr_eq_self hs]
  split
  · rfl
  · rename_i hany
    rw [flatMap_escape_of_plain (fun b hb => ?_)]
    by_contra hb'
    exact hany (List.any_eq_true.mpr ⟨b, hb, Bool.not_eq_false _ ▸ hb'⟩)

/-- A printed number, behind a sign or without one, is a numeral. -/
theorem numeral_sign_decimal (neg : Bool) (m : ℕ) :
    JsonText.Numeral ((if neg then [45] else []) ++ decimal m) ((if neg then -1 else 1) * (m : ℤ))
      0 := by
  have hip : JsonText.IntPart (decimal m) := (decimal_shape m).imp id
    (fun ⟨d, ds, h, hne, hd, hds⟩ => ⟨d, ds, h, hne, hd, hds⟩)
  have h := JsonText.Numeral.mk neg (decimal m) [] none hip
    (fun _ h => absurd h List.not_mem_nil) (fun _ h => absurd h (Option.not_mem_none _))
  simpa [JsonText.fracText, digitsFrom_decimal] using h

/-- A printed integer is a numeral of it. -/
theorem numeral_signedDecimal (n : ℤ) : JsonText.Numeral (signedDecimal n) n 0 := by
  have h := numeral_sign_decimal (decide (n < 0)) n.natAbs
  have hval : (if decide (n < 0) = true then (-1 : ℤ) else 1) * (n.natAbs : ℤ) = n := by
    by_cases hn : n < 0
    · rw [if_pos (decide_eq_true hn)]
      omega
    · rw [if_neg (by simpa using hn)]
      omega
  rw [hval] at h
  simpa [signedDecimal] using h

@[simp] theorem toRat_intCast (n : ℤ) : Decimal.toRat ⟨n, 0⟩ = n := by
  simp [Decimal.toRat]

/-- What `print_number` prints for an integer of type `int`. -/
theorem printNumber_eq {sprintf : Decimal → Bytes} {n : ℤ} {d : Decimal} {text : Bytes}
    {heap heap' : Heap} (hlo : -2147483648 ≤ n) (hhi : n ≤ 2147483647) (hd : d.toRat = n)
    (h : printNumber sprintf n d heap = some (text, heap')) : text = signedDecimal n := by
  obtain ⟨-, heap₁, -, hret⟩ := bind_eq_some.mp h
  rw [← pure_eq_some hret, hd, sub_self, abs_zero]
  split
  · rename_i hzero
    obtain rfl : n = 0 := by exact_mod_cast hzero
    rfl
  · exact if_pos ⟨by positivity, by exact_mod_cast hhi, by exact_mod_cast hlo⟩

/-- The text is a text of the value, before anything that ends a number. -/
def Prints (text : Bytes) (v : Json) : Prop :=
  ∀ r, JsonText.NumEnd r → JsonText.Derives (text ++ r) (.value v) r

/-- The same of a name and its value. -/
def PrintsMember (member : Bytes × Bytes) (m : Bytes × Json) : Prop :=
  member.1 = 34 :: (m.1.flatMap escape ++ [34]) ∧ Prints member.2 m.2

/-- White space. -/
def White (w : Bytes) : Prop := ∀ b ∈ w, b = 32 ∨ b = 9 ∨ b = 10 ∨ b = 13

theorem ws_append {w : Bytes} (hw : White w) (r : Bytes) : JsonText.Ws (w ++ r) r := by
  induction w with
  | nil => exact .nil r
  | cons b w ih =>
    exact .cons (hw b List.mem_cons_self) (ih (fun c hc => hw c (List.mem_cons_of_mem b hc)))

/-- White space and a closing bracket end a number. -/
theorem numEnd_white {w : Bytes} (hw : White w) {b : UInt8} (hb : b = 93 ∨ b = 125) (r : Bytes) :
    JsonText.NumEnd (w ++ b :: r) := by
  cases w with
  | nil =>
    rintro c hc
    obtain rfl : b = c := Option.some.inj hc
    rcases hb with rfl | rfl <;> decide
  | cons a w =>
    rintro c hc
    obtain rfl : a = c := Option.some.inj hc
    rcases hw a List.mem_cons_self with rfl | rfl | rfl | rfl <;> decide

theorem numEnd_comma (r : Bytes) : JsonText.NumEnd (44 :: r) := by
  rintro c hc
  obtain rfl : 44 = c := Option.some.inj hc
  decide

theorem white_newline (fmt : Bool) : White (newline fmt) := by
  cases fmt with
  | false => exact fun _ h => absurd h List.not_mem_nil
  | true => exact fun _ h => by rw [List.mem_singleton.mp h]; decide

theorem white_tabs (fmt : Bool) (n : ℕ) : White (tabs fmt n) := by
  cases fmt with
  | false => exact fun _ h => absurd h List.not_mem_nil
  | true => exact fun _ h => by rw [List.eq_of_mem_replicate h]; decide

theorem White.append {w w' : Bytes} (hw : White w) (hw' : White w') : White (w ++ w') :=
  fun b hb => (List.mem_append.mp hb).elim (hw b) (hw' b)

/-- **The elements that `print_array` composes**, behind white space. -/
theorem derives_composeElements (fmt : Bool) {entry : Bytes} {entries : List Bytes} {v : Json}
    {vs : List Json} (hv : Prints entry v) (hvs : List.Forall₂ Prints entries vs) {w : Bytes}
    (hw : White w) (r : Bytes) :
    JsonText.Derives (w ++ (composeElements fmt (entry :: entries) ++ 93 :: r))
      (.elements (v :: vs)) r := by
  induction hvs generalizing entry v w with
  | nil =>
    refine .lastElement (ws_append hw _) ?_ (.nil _)
    have hlast := hv (93 :: r) (numEnd_white (w := []) (fun _ h => absurd h List.not_mem_nil)
      (Or.inl rfl) r)
    simpa [composeElements] using hlast
  | @cons entry' v' entries vs hv' _ ih =>
    have hsep : White (if fmt = true then [32] else []) := by
      cases fmt with
      | false => exact fun _ h => absurd h List.not_mem_nil
      | true => exact fun _ h => by rw [List.mem_singleton.mp h]; decide
    refine .element (ws_append hw _) ?_ (.nil _) (ih hv' hsep)
    have hnext := hv (44 :: ((if fmt = true then [32] else [])
      ++ (composeElements fmt (entry' :: entries) ++ 93 :: r))) (numEnd_comma _)
    rw [composeElements, List.isEmpty_cons, if_neg Bool.false_ne_true]
    simpa only [List.append_assoc, List.cons_append] using hnext

/-- **The members that `print_object` composes**, behind white space. -/
theorem derives_composeMembers (fmt : Bool) (depth : ℕ) {member : Bytes × Bytes}
    {members : List (Bytes × Bytes)} {m : Bytes × Json} {ms : List (Bytes × Json)}
    (hm : PrintsMember member m) (hms : List.Forall₂ PrintsMember members ms) {w w' : Bytes}
    (hw : White w) (hw' : White w') (r : Bytes) :
    JsonText.Derives (w ++ (composeMembers fmt depth (member :: members) ++ (w' ++ 125 :: r)))
      (.members (m :: ms)) r := by
  induction hms generalizing member m w with
  | nil =>
    obtain ⟨name, entry⟩ := member
    obtain ⟨k, v⟩ := m
    obtain ⟨rfl, hv⟩ := hm
    have hlast := hv (newline fmt ++ (w' ++ 125 :: r)) (by
      rw [← List.append_assoc]
      exact numEnd_white ((white_newline fmt).append hw') (Or.inr rfl) r)
    have hend : JsonText.Ws (newline fmt ++ (w' ++ 125 :: r)) (125 :: r) := by
      rw [← List.append_assoc]
      exact ws_append ((white_newline fmt).append hw') _
    have h := JsonText.Derives.lastMember (ws_append (hw.append (white_tabs fmt depth)) _)
      (strBody_flatMap_escape k _) (.nil _) (ws_append (white_tabs fmt 1) _) hlast hend
    simpa [composeMembers] using h
  | @cons member' m' members ms hm' _ ih =>
    obtain ⟨name, entry⟩ := member
    obtain ⟨k, v⟩ := m
    obtain ⟨rfl, hv⟩ := hm
    have hnext := hv (44 :: (newline fmt ++ (composeMembers fmt depth (member' :: members)
      ++ (w' ++ 125 :: r)))) (numEnd_comma _)
    have h := JsonText.Derives.member (ws_append (hw.append (white_tabs fmt depth)) _)
      (strBody_flatMap_escape k _) (.nil _) (ws_append (white_tabs fmt 1) _) hnext (.nil _)
      (ih hm' (white_newline fmt))
    rw [composeMembers, List.isEmpty_cons, if_neg Bool.false_ne_true]
    simpa only [List.append_assoc, List.cons_append, List.nil_append, List.singleton_append] using h

/-- What is printed for a tree is a text of a value whose node is the tree. -/
def PrintsTree (c : CJSON) (text : Bytes) : Prop := ∃ v, Prints text v ∧ Same c (ofJson v)

/-- The node of a value has no name. -/
theorem ofJson_string (v : Json) : (ofJson v).string = none := by
  cases v with
  | bool b => cases b <;> rfl
  | _ => rfl

@[simp] theorem ofJson_num_valueint (n : ℤ) : (ofJson (.num n 0)).valueint = n := by
  simp [ofJson, Decimal.toInt]

/-- A node without children that is printed as a value. -/
theorem printsTree_leaf {c : CJSON} {text : Bytes} {v : Json} (hv : Prints text v)
    (hleaf : c.child = []) (hleaf' : (ofJson v).child = []) (type : c.type = (ofJson v).type)
    (hstring : c.type = .string → c.valuestring = (ofJson v).valuestring)
    (hnumber : c.type = .number → c.valueint = (ofJson v).valueint
      ∧ c.valuedouble.toRat = (ofJson v).valuedouble.toRat) : PrintsTree c text :=
  ⟨v, hv, .mk type hstring hnumber (by rw [hleaf, hleaf']) (by rw [hleaf, hleaf']; exact .nil)⟩

/-- Elements have no names, printed or read back. -/
theorem map_string_ofElements {cs : List CJSON} {vs : List Json}
    (h : List.Forall₂ Same cs (ofElements vs)) (hcs : ∀ c ∈ cs, c.string = none) :
    cs.map (·.string) = (ofElements vs).map (·.string) := by
  induction vs generalizing cs with
  | nil =>
    cases h
    rfl
  | cons v vs ih =>
    cases h with
    | @cons c _ cs _ _ h =>
      rw [ofElements, List.map_cons, List.map_cons, hcs c List.mem_cons_self,
        ih h (fun e he => hcs e (List.mem_cons_of_mem c he)), ofJson_string]

/-- **What is printed for a node** that is no array and no object. -/
inductive LeafText (c : CJSON) : Bytes → Prop
  | null (h : c.type = .null) : LeafText c (lit "null")
  | false_ (h : c.type = .false_) : LeafText c (lit "false")
  | true_ (h : c.type = .true_) : LeafText c (lit "true")
  | number {n : ℤ} (h : c.type = .number) (hn : HoldsInt c n) : LeafText c (signedDecimal n)
  | string {s : Bytes} (h : c.type = .string) (hs : c.valuestring = some s)
      (hnul : (0 : UInt8) ∉ s) : LeafText c (34 :: (s.flatMap escape ++ [34]))

/-- A leaf has no children. -/
theorem LeafText.child_eq_nil {c : CJSON} {text : Bytes} (hb : Built c) (h : LeafText c text) :
    c.child = [] := by
  cases h with
  | null h | false_ h | true_ h | number h | string h =>
    exact hb.leaf (by rw [h]; decide) (by rw [h]; decide)

/-- Such a text is a text of the node. -/
theorem LeafText.printsTree {c : CJSON} {text : Bytes} (hb : Built c) (h : LeafText c text) :
    PrintsTree c text := by
  have hleaf := h.child_eq_nil hb
  cases h with
  | null h =>
    exact printsTree_leaf (v := .null) (fun r _ => .null r) hleaf rfl h
      (fun hs => by rw [h] at hs; cases hs) (fun hs => by rw [h] at hs; cases hs)
  | false_ h =>
    exact printsTree_leaf (v := .bool false) (fun r _ => .false_ r) hleaf rfl h
      (fun hs => by rw [h] at hs; cases hs) (fun hs => by rw [h] at hs; cases hs)
  | true_ h =>
    exact printsTree_leaf (v := .bool true) (fun r _ => .true_ r) hleaf rfl h
      (fun hs => by rw [h] at hs; cases hs) (fun hs => by rw [h] at hs; cases hs)
  | @number n h hn =>
    refine printsTree_leaf (v := .num n 0) (fun r hr => .num (numeral_signedDecimal n) hr) hleaf rfl
      h (fun hs => by rw [h] at hs; cases hs) (fun _ => ⟨?_, ?_⟩)
    · rw [hn.2.2.1, ofJson_num_valueint]
    · rw [hn.2.2.2]
      exact (toRat_intCast n).symm
  | @string s h hs hnul =>
    refine printsTree_leaf (v := .str s) (fun r _ => ?_) hleaf rfl h (fun _ => ?_)
      (fun hn => by rw [h] at hn; cases hn)
    · rw [List.cons_append, List.append_assoc]
      exact .str (strBody_flatMap_escape s r)
    · rw [hs]
      exact congrArg some (dropNul_eq_self hnul).symm

/-- **What is printed**: the text of a leaf, or something in brackets. -/
theorem printValue_cases {sprintf : Decimal → Bytes} {c : CJSON} (hb : Built c)
    (hi : Integral c) {depth : ℕ} {fmt : Bool} {heap heap' : Heap} {text : Bytes}
    (h : printValue sprintf c depth fmt heap = some (text, heap')) :
    LeafText c text ∨ (c.type = .array ∧ deref text = 91)
      ∨ (c.type = .object ∧ deref text = 123) := by
  obtain ⟨number, -⟩ := hi
  have hstring := hb.text
  obtain ⟨type, valuestring, valueint, valuedouble, name, child⟩ := c
  cases type with
  | null | false_ | true_ =>
    rw [printValue] at h
    obtain ⟨-, heap₁, -, h⟩ := bind_eq_some.mp h
    rw [← pure_eq_some h]
    exact Or.inl (by constructor; rfl)
  | number =>
    obtain ⟨n, hlo, hhi, rfl, hd⟩ := number rfl
    rw [printValue] at h
    rw [printNumber_eq hlo hhi hd h]
    exact Or.inl (.number rfl ⟨hlo, hhi, rfl, hd⟩)
  | string =>
    obtain ⟨s, rfl, hnul⟩ := hstring rfl
    rw [printValue] at h
    rw [printStringPtr_eq hnul h]
    exact Or.inl (.string rfl rfl hnul)
  | array =>
    refine Or.inr (Or.inl ⟨rfl, ?_⟩)
    rw [printValue] at h
    split at h
    · obtain ⟨-, heap₁, -, h⟩ := bind_eq_some.mp h
      rw [← pure_eq_some h]
      rfl
    · obtain ⟨-, heap₁, -, h⟩ := bind_eq_some.mp h
      obtain ⟨entries, heap₂, -, h⟩ := bind_eq_some.mp h
      obtain ⟨-, heap₃, -, h⟩ := bind_eq_some.mp h
      rw [← pure_eq_some h]
      rfl
  | object =>
    refine Or.inr (Or.inr ⟨rfl, ?_⟩)
    rw [printValue] at h
    split at h
    · obtain ⟨-, heap₁, -, h⟩ := bind_eq_some.mp h
      rw [← pure_eq_some h]
      rfl
    · obtain ⟨-, heap₁, -, h⟩ := bind_eq_some.mp h
      obtain ⟨-, heap₂, -, h⟩ := bind_eq_some.mp h
      obtain ⟨members, heap₃, -, h⟩ := bind_eq_some.mp h
      obtain ⟨-, heap₄, -, h⟩ := bind_eq_some.mp h
      rw [← pure_eq_some h]
      rfl

/-- The entries of an array, and the values they are texts of. -/
theorem printElements_prints {sprintf : Decimal → Bytes} {cs : List CJSON} {depth : ℕ}
    {fmt : Bool} {heap heap' : Heap} {entries : List Bytes}
    (ih : ∀ c ∈ cs, ∀ {heap heap' text},
      printValue sprintf c depth fmt heap = some (text, heap') → PrintsTree c text)
    (h : printElements sprintf cs depth fmt heap = some (entries, heap')) :
    ∃ vs, List.Forall₂ Prints entries vs ∧ List.Forall₂ Same cs (ofElements vs) := by
  induction cs generalizing heap heap' entries with
  | nil =>
    rw [printElements] at h
    rw [← pure_eq_some h]
    exact ⟨[], .nil, .nil⟩
  | cons c cs ihcs =>
    rw [printElements] at h
    obtain ⟨ret, heap₁, hret, h⟩ := bind_eq_some.mp h
    obtain ⟨rest, heap₂, hrest, h⟩ := bind_eq_some.mp h
    obtain ⟨v, hv, hsame⟩ := ih c List.mem_cons_self hret
    obtain ⟨vs, hvs, hsames⟩ := ihcs (fun e he => ih e (List.mem_cons_of_mem c he)) hrest
    rw [← pure_eq_some h]
    exact ⟨v :: vs, .cons hv hvs, .cons hsame hsames⟩

/-- The names and entries of an object, and the members they are texts of. -/
theorem printMembers_prints {sprintf : Decimal → Bytes} {cs : List CJSON} {depth : ℕ}
    {fmt : Bool} {heap heap' : Heap} {members : List (Bytes × Bytes)}
    (hnames : ∀ c ∈ cs, ∃ s, c.string = some s ∧ (0 : UInt8) ∉ s)
    (ih : ∀ c ∈ cs, ∀ {heap heap' text},
      printValue sprintf c depth fmt heap = some (text, heap') → PrintsTree c text)
    (h : printMembers sprintf cs depth fmt heap = some (members, heap')) :
    ∃ ms, List.Forall₂ PrintsMember members ms ∧ List.Forall₂ Same cs (ofMembers ms)
      ∧ cs.map (·.string) = (ofMembers ms).map (·.string) := by
  induction cs generalizing heap heap' members with
  | nil =>
    rw [printMembers] at h
    rw [← pure_eq_some h]
    exact ⟨[], .nil, .nil, rfl⟩
  | cons c cs ihcs =>
    rw [printMembers] at h
    obtain ⟨str, heap₁, hstr, h⟩ := bind_eq_some.mp h
    obtain ⟨ret, heap₂, hret, h⟩ := bind_eq_some.mp h
    obtain ⟨rest, heap₃, hrest, h⟩ := bind_eq_some.mp h
    obtain ⟨s, hs, hnul⟩ := hnames c List.mem_cons_self
    rw [hs] at hstr
    obtain ⟨v, hv, hsame⟩ := ih c List.mem_cons_self hret
    obtain ⟨ms, hms, hsames, hstrings⟩ := ihcs (fun e he => hnames e (List.mem_cons_of_mem c he))
      (fun e he => ih e (List.mem_cons_of_mem c he)) hrest
    rw [← pure_eq_some h]
    refine ⟨(s, v) :: ms, .cons ⟨printStringPtr_eq hnul hstr, hv⟩ hms,
      .cons (hsame.named _) hsames, ?_⟩
    rw [ofMembers, List.map_cons, List.map_cons, hs, hstrings, dropNul_eq_self hnul]

/-- **A tree as the parser builds it, whose numbers are integers, is printed
as a text of it**, by induction on the tree. -/
theorem printValue_prints {sprintf : Decimal → Bytes} {c : CJSON} (hb : Built c)
    (hi : Integral c) {depth : ℕ} {fmt : Bool} {heap heap' : Heap} {text : Bytes}
    (h : printValue sprintf c depth fmt heap = some (text, heap')) : PrintsTree c text := by
  induction hb generalizing depth heap heap' text with
  | @mk c leaf string elements members built ih =>
    have hb : Built c := .mk leaf string elements members built
    have hchild := hi.child
    have ih := fun e he {depth heap heap' text} =>
      @ih e he (hchild e he) depth heap heap' text
    have hcases := printValue_cases hb hi h
    obtain ⟨type, valuestring, valueint, valuedouble, name, child⟩ := c
    dsimp only at *
    cases type with
    | null | false_ | true_ | number | string =>
      refine (hcases.resolve_right ?_).printsTree hb
      rintro (⟨ht, -⟩ | ⟨ht, -⟩) <;> cases ht
    | array =>
      rw [printValue] at h
      cases child with
      | nil =>
        obtain ⟨-, heap₁, -, h⟩ := bind_eq_some.mp h
        rw [← pure_eq_some h]
        exact ⟨.arr [], fun r _ => .arrNil (.nil _), .mk rfl (fun h => by cases h)
          (fun h => by cases h) rfl .nil⟩
      | cons c cs =>
        rw [List.isEmpty_cons, if_neg Bool.false_ne_true] at h
        obtain ⟨-, heap₁, -, h⟩ := bind_eq_some.mp h
        obtain ⟨entries, heap₂, hentries, h⟩ := bind_eq_some.mp h
        obtain ⟨-, heap₃, -, h⟩ := bind_eq_some.mp h
        obtain ⟨vs, hvs, hsame⟩ := printElements_prints (fun e he => ih e he) hentries
        rw [← pure_eq_some h]
        refine ⟨.arr vs, fun r _ => ?_,
          .mk rfl (fun h => by cases h) (fun h => by cases h) ?_ hsame⟩
        · cases hvs with
          | nil => cases hsame
          | cons hv hvs =>
            have helems := derives_composeElements fmt hv hvs (w := [])
              (fun _ h => absurd h List.not_mem_nil) r
            simpa using JsonText.Derives.arr helems
        · exact map_string_ofElements hsame (elements rfl)
    | object =>
      rw [printValue] at h
      cases child with
      | nil =>
        obtain ⟨-, heap₁, -, h⟩ := bind_eq_some.mp h
        rw [← pure_eq_some h]
        refine ⟨.obj [], fun r _ => ?_,
          .mk rfl (fun h => by cases h) (fun h => by cases h) rfl .nil⟩
        have hend := ws_append ((white_newline fmt).append (white_tabs fmt (depth - 1))) (125 :: r)
        simpa using JsonText.Derives.objNil hend
      | cons c cs =>
        rw [List.isEmpty_cons, if_neg Bool.false_ne_true] at h
        obtain ⟨-, heap₁, -, h⟩ := bind_eq_some.mp h
        obtain ⟨-, heap₂, -, h⟩ := bind_eq_some.mp h
        obtain ⟨entries, heap₃, hentries, h⟩ := bind_eq_some.mp h
        obtain ⟨-, heap₄, -, h⟩ := bind_eq_some.mp h
        obtain ⟨ms, hms, hsame, hnames⟩ := printMembers_prints (members rfl)
          (fun e he => ih e he) hentries
        rw [← pure_eq_some h]
        refine ⟨.obj ms, fun r _ => ?_,
          .mk rfl (fun h => by cases h) (fun h => by cases h) hnames hsame⟩
        cases hms with
        | nil => cases hsame
        | cons hm hms =>
          have hmembers := derives_composeMembers fmt (depth + 1) hm hms (white_newline fmt)
            (white_tabs fmt depth) r
          simpa using JsonText.Derives.obj hmembers

/-- **`cJSON_Print` prints a text of the tree.** -/
theorem print_prints {sprintf : Decimal → Bytes} {c : CJSON} (hb : Built c) (hi : Integral c)
    {fmt : Bool} {heap : Heap} {text : Bytes} (h : print sprintf c fmt heap = some text) :
    PrintsTree c text := by
  obtain ⟨⟨text', heap'⟩, hprint, rfl⟩ := Option.map_eq_some_iff.mp h
  exact printValue_prints hb hi hprint

end CJSON
