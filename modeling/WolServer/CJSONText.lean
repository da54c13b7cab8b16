import WolServer.CJSONPrint

/-!
# The text of a tree

What `cJSON.cpp` prints for a tree, with nothing said of the memory it prints
it to: neither the pieces that `cJSON_Print` allocates nor the buffer that
`cJSON_PrintBuffered` grows. `CJSON.text` is the text, and
`CJSON.print_eq_text` says that it is what the printer of
`WolServer.CJSONPrint` prints when no allocation fails.
-/

namespace CJSON

variable (sprintf : Decimal → Bytes)

/-- The text of a string. -/
def stringText (str : Option Bytes) : Bytes :=
  34 :: ((if (cstr (str.getD [])).any JsonText.special then (cstr (str.getD [])).flatMap escape
    else cstr (str.getD [])) ++ [34])

/-- How long a character is in the text of a string. -/
def escapedLength (token : UInt8) : ℕ :=
  if token ∈ [34, 92, 8, 12, 10, 13, 9] then 2 else if token < 32 then 6 else 1

/-- How many bytes `print_string_ptr` asks for. -/
def stringSize (str : Option Bytes) : ℕ :=
  (if (cstr (str.getD [])).any JsonText.special then
    ((cstr (str.getD [])).map escapedLength).sum else (cstr (str.getD [])).length) + 3

/-- The text of a number. -/
def numberText (valueint : ℤ) (d : Decimal) : Bytes :=
  if d.toRat = 0 then lit "0"
  else if |(valueint : ℚ) - d.toRat| ≤ 1 / 2 ^ 52 ∧ d.toRat ≤ 2147483647
      ∧ d.toRat ≥ -2147483648 then signedDecimal valueint
  else sprintf d

/-- How many bytes `print_number` asks for. -/
def numberSize (valueint : ℤ) (d : Decimal) : ℕ :=
  if d.toRat = 0 then 2
  else if |(valueint : ℚ) - d.toRat| ≤ 1 / 2 ^ 52 ∧ d.toRat ≤ 2147483647
      ∧ d.toRat ≥ -2147483648 then 21
  else 64

/-- How many bytes `print_object` asks for when there are no members. -/
def emptyObjectSize (depth : ℕ) (fmt : Bool) : ℕ := if fmt = true then depth + 4 else 3

/-- How many bytes `print_array` asks for, for these elements. -/
def arraySize (fmt : Bool) (entries : List Bytes) : ℕ :=
  5 + (entries.map (fun ret => ret.length + 2 + if fmt = true then 1 else 0)).sum

/-- How many bytes `print_object` asks for, for these members. -/
def objectSize (fmt : Bool) (depth : ℕ) (members : List (Bytes × Bytes)) : ℕ :=
  7 + (if fmt = true then depth else 0)
    + (members.map (fun member => member.2.length + member.1.length + 2
      + if fmt = true then 2 + depth else 0)).sum

mutual

/-- **The text of a tree.** -/
def text : CJSON → ℕ → Bool → Bytes
  | ⟨.null, _, _, _, _, _⟩, _, _ => lit "null"
  | ⟨.false_, _, _, _, _, _⟩, _, _ => lit "false"
  | ⟨.true_, _, _, _, _, _⟩, _, _ => lit "true"
  | ⟨.number, _, valueint, valuedouble, _, _⟩, _, _ => numberText sprintf valueint valuedouble
  | ⟨.string, valuestring, _, _, _, _⟩, _, _ => stringText valuestring
  | ⟨.array, _, _, _, _, child⟩, depth, fmt =>
    if child.isEmpty then lit "[]"
    else 91 :: (composeElements fmt (textElements child (depth + 1) fmt) ++ [93])
  | ⟨.object, _, _, _, _, child⟩, depth, fmt =>
    if child.isEmpty then 123 :: (newline fmt ++ (tabs fmt (depth - 1) ++ [125]))
    else 123 :: (newline fmt ++ (composeMembers fmt (depth + 1) (textMembers child (depth + 1) fmt)
      ++ (tabs fmt depth ++ [125])))

/-- The texts of the elements of an array. -/
def textElements : List CJSON → ℕ → Bool → List Bytes
  | [], _, _ => []
  | child :: next, depth, fmt => text child depth fmt :: textElements next depth fmt

/-- The texts of the members of an object: of each the name, and the value. -/
def textMembers : List CJSON → ℕ → Bool → List (Bytes × Bytes)
  | [], _, _ => []
  | child :: next, depth, fmt =>
    (stringText child.string, text child depth fmt) :: textMembers next depth fmt

end

/-- **A tree that can be printed**: no string node is without a string, and no
member without a name. -/
inductive Printable : CJSON → Prop
  | mk {c : CJSON} (text : c.type = .string → c.valuestring.isSome)
      (members : c.type = .object → ∀ m ∈ c.child, m.string.isSome)
      (child : ∀ e ∈ c.child, Printable e) : Printable c

/-- The parser builds trees that can be printed. -/
theorem Built.printable {c : CJSON} (h : Built c) : Printable c := by
  induction h with
  | mk leaf text elements members built ih =>
    refine .mk (fun ht => ?_) (fun ht m hm => ?_) ih
    · obtain ⟨v, hv, -⟩ := text ht
      rw [hv]
      rfl
    · obtain ⟨s, hs, -⟩ := members ht m hm
      rw [hs]
      rfl

namespace Printable

variable {c : CJSON}

theorem text (h : Printable c) (ht : c.type = .string) : c.valuestring.isSome := by
  cases h with
  | mk text => exact text ht

theorem members (h : Printable c) (ht : c.type = .object) : ∀ m ∈ c.child, m.string.isSome := by
  cases h with
  | mk _ members => exact members ht

theorem child (h : Printable c) : ∀ e ∈ c.child, Printable e := by
  cases h with
  | mk _ _ child => exact child

end Printable

/-! ## The printer prints it -/

variable {sprintf}

theorem printStringPtr_text {str : Option Bytes} {heap heap' : Heap} {t : Bytes}
    (h : printStringPtr str heap = some (t, heap')) : t = stringText str := by
  cases str with
  | none => cases h
  | some s =>
    obtain ⟨-, heap₁, -, hret⟩ := bind_eq_some.mp h
    exact (pure_eq_some hret).symm

mutual

/-- **What is printed is the text**, by induction on the tree. -/
theorem printValue_text : ∀ (c : CJSON) {depth : ℕ} {fmt : Bool} {heap heap' : Heap} {t : Bytes},
    printValue sprintf c depth fmt heap = some (t, heap') → t = text sprintf c depth fmt
  | ⟨type, valuestring, valueint, valuedouble, string, child⟩, depth, fmt, heap, heap', t, h => by
    cases type with
    | null | false_ | true_ | number =>
      rw [printValue] at h
      obtain ⟨-, heap₁, -, hret⟩ := bind_eq_some.mp h
      rw [text]
      exact (pure_eq_some hret).symm
    | string =>
      rw [printValue] at h
      rw [text]
      exact printStringPtr_text h
    | array =>
      rw [printValue] at h
      rw [text]
      split at h
      · rename_i hempty
        obtain ⟨-, heap₁, -, hret⟩ := bind_eq_some.mp h
        rw [if_pos hempty]
        exact (pure_eq_some hret).symm
      · rename_i hempty
        obtain ⟨-, heap₁, -, h⟩ := bind_eq_some.mp h
        obtain ⟨entries, heap₂, hentries, h⟩ := bind_eq_some.mp h
        obtain ⟨-, heap₃, -, hret⟩ := bind_eq_some.mp h
        rw [if_neg hempty, ← printElements_text child hentries]
        exact (pure_eq_some hret).symm
    | object =>
      rw [printValue] at h
      rw [text]
      split at h
      · rename_i hempty
        obtain ⟨-, heap₁, -, hret⟩ := bind_eq_some.mp h
        rw [if_pos hempty]
        exact (pure_eq_some hret).symm
      · rename_i hempty
        obtain ⟨-, heap₁, -, h⟩ := bind_eq_some.mp h
        obtain ⟨-, heap₂, -, h⟩ := bind_eq_some.mp h
        obtain ⟨members, heap₃, hmembers, h⟩ := bind_eq_some.mp h
        obtain ⟨-, heap₄, -, hret⟩ := bind_eq_some.mp h
        rw [if_neg hempty, ← printMembers_text child hmembers]
        exact (pure_eq_some hret).symm

/-- So are the entries of an array. -/
theorem printElements_text : ∀ (cs : List CJSON) {depth : ℕ} {fmt : Bool} {heap heap' : Heap}
    {ts : List Bytes}, printElements sprintf cs depth fmt heap = some (ts, heap') →
    ts = textElements sprintf cs depth fmt
  | [], depth, fmt, heap, heap', ts, h => by
    rw [printElements] at h
    rw [textElements]
    exact (pure_eq_some h).symm
  | c :: cs, depth, fmt, heap, heap', ts, h => by
    rw [printElements] at h
    obtain ⟨ret, heap₁, hret, h⟩ := bind_eq_some.mp h
    obtain ⟨entries, heap₂, hentries, h⟩ := bind_eq_some.mp h
    rw [textElements, ← printValue_text c hret, ← printElements_text cs hentries]
    exact (pure_eq_some h).symm

/-- And the names and entries of an object. -/
theorem printMembers_text : ∀ (cs : List CJSON) {depth : ℕ} {fmt : Bool} {heap heap' : Heap}
    {ts : List (Bytes × Bytes)}, printMembers sprintf cs depth fmt heap = some (ts, heap') →
    ts = textMembers sprintf cs depth fmt
  | [], depth, fmt, heap, heap', ts, h => by
    rw [printMembers] at h
    rw [textMembers]
    exact (pure_eq_some h).symm
  | c :: cs, depth, fmt, heap, heap', ts, h => by
    rw [printMembers] at h
    obtain ⟨str, heap₁, hstr, h⟩ := bind_eq_some.mp h
    obtain ⟨ret, heap₂, hret, h⟩ := bind_eq_some.mp h
    obtain ⟨members, heap₃, hmembers, h⟩ := bind_eq_some.mp h
    rw [textMembers, ← printStringPtr_text hstr, ← printValue_text c hret,
      ← printMembers_text cs hmembers]
    exact (pure_eq_some h).symm

end

/-- **A text that `cJSON_Print` returns is the text of the tree.** -/
theorem print_eq_text {c : CJSON} {fmt : Bool} {heap : Heap} {t : Bytes}
    (h : print sprintf c fmt heap = some t) : t = text sprintf c 0 fmt := by
  obtain ⟨⟨t', heap'⟩, hprint, rfl⟩ := Option.map_eq_some_iff.mp h
  exact printValue_text c hprint

/-! ## There is room for it -/

/-- **The loop that counts is right about the length.** -/
theorem length_escape (b : UInt8) : (escape b).length = escapedLength b := by
  unfold escape escapedLength
  simp only [List.mem_cons, List.not_mem_nil, or_false]
  split_ifs <;> simp_all <;> grind

theorem length_flatMap_escape (s : Bytes) :
    (s.flatMap escape).length = (s.map escapedLength).sum := by
  rw [List.length_flatMap]
  exact congrArg List.sum (List.map_congr_left fun b _ => length_escape b)

/-- An `int` has at most eleven characters. -/
theorem length_signedDecimal_le {n : ℤ} (h : n.natAbs ≤ 2 ^ 31) :
    (signedDecimal n).length ≤ 11 := by
  have hlen : (decimal n.natAbs).length ≤ 9 + 1 := length_decimal_le (lt_of_le_of_lt h (by decide))
  have hsign : (if n < 0 then [45] else [] : Bytes).length ≤ 1 := by split_ifs <;> simp
  rw [signedDecimal, List.length_append]
  omega

/-- A number that is printed as an integer is an `int`. -/
theorem natAbs_le_of_near {n : ℤ} {d : ℚ} (h : |(n : ℚ) - d| ≤ 1 / 2 ^ 52) (hle : d ≤ 2147483647)
    (hge : d ≥ -2147483648) : n.natAbs ≤ 2 ^ 31 := by
  obtain ⟨hlo, hhi⟩ := abs_le.mp h
  have hn : (n : ℚ) < 2147483648 := by linarith
  have hn' : (-2147483649 : ℚ) < n := by linarith
  have hn : n < 2147483648 := by exact_mod_cast hn
  have hn' : -2147483649 < n := by exact_mod_cast hn'
  omega

/-- The text that `sprintf` makes of a number fits in the bytes that are asked
for, and has no terminator inside. -/
def Fits (sprintf : Decimal → Bytes) : Prop :=
  ∀ d, (sprintf d).length < 64 ∧ (0 : UInt8) ∉ sprintf d

theorem length_numberText_lt (hsprintf : Fits sprintf) (n : ℤ) (d : Decimal) :
    (numberText sprintf n d).length < numberSize n d := by
  unfold numberText numberSize
  split_ifs with hzero hint
  · exact Nat.one_lt_two
  · exact Nat.lt_of_le_of_lt (length_signedDecimal_le (natAbs_le_of_near hint.1 hint.2.1 hint.2.2))
      (by decide)
  · exact (hsprintf d).1

theorem numberSize_le (n : ℤ) (d : Decimal) : numberSize n d ≤ 64 := by
  unfold numberSize
  split_ifs <;> decide

theorem stringSize_eq (str : Option Bytes) : stringSize str = (stringText str).length + 1 := by
  unfold stringText stringSize
  split_ifs
  · rw [← length_flatMap_escape, List.length_cons, List.length_append, List.length_singleton]
  · rw [List.length_cons, List.length_append, List.length_singleton]

theorem length_tabs (fmt : Bool) (n : ℕ) :
    (tabs fmt n).length = if fmt = true then n else 0 := by
  cases fmt with
  | false => rfl
  | true => exact List.length_replicate

theorem length_newline (fmt : Bool) : (newline fmt).length = if fmt = true then 1 else 0 := by
  cases fmt <;> rfl

/-- There is room for an object without members. -/
theorem length_emptyObject (depth : ℕ) (fmt : Bool) :
    (123 :: (newline fmt ++ (tabs fmt (depth - 1) ++ [125]))).length < emptyObjectSize depth fmt
      ∧ emptyObjectSize depth fmt
        ≤ (123 :: (newline fmt ++ (tabs fmt (depth - 1) ++ [125]))).length + 3 := by
  simp only [List.length_cons, List.length_append, List.length_nil, length_newline, length_tabs,
    emptyObjectSize]
  split_ifs <;> omega

theorem arraySize_cons (fmt : Bool) (ret : Bytes) (entries : List Bytes) :
    arraySize fmt (ret :: entries)
      = arraySize fmt entries + (ret.length + 2 + if fmt = true then 1 else 0) := by
  rw [arraySize, List.map_cons, List.sum_cons, arraySize]
  omega

/-- **There is room for the elements of an array**, but not much more. -/
theorem length_composeElements (fmt : Bool) (entries : List Bytes) :
    (composeElements fmt entries).length + 5 ≤ arraySize fmt entries
      ∧ arraySize fmt entries ≤ 2 * (composeElements fmt entries).length + 8 := by
  induction entries with
  | nil => exact ⟨le_rfl, Nat.le_add_left 5 3⟩
  | cons ret entries ih =>
    rw [arraySize_cons, composeElements, List.length_append, List.length_append]
    cases entries with
    | nil =>
      have hnil : arraySize fmt [] = 5 := rfl
      rw [hnil, List.isEmpty_nil, if_pos rfl, composeElements, List.length_nil]
      split_ifs <;> omega
    | cons d entries =>
      rw [List.isEmpty_cons, if_neg Bool.false_ne_true, List.length_cons,
        apply_ite List.length, List.length_singleton, List.length_nil]
      split_ifs at ih ⊢ <;> omega

theorem objectSize_cons (fmt : Bool) (depth : ℕ) (str ret : Bytes)
    (members : List (Bytes × Bytes)) :
    objectSize fmt depth ((str, ret) :: members) = objectSize fmt depth members
      + (ret.length + str.length + 2 + if fmt = true then 2 + depth else 0) := by
  rw [objectSize, List.map_cons, List.sum_cons, objectSize]
  dsimp only
  omega

/-- **There is room for the members of an object**, but not much more. -/
theorem length_composeMembers (fmt : Bool) (depth : ℕ) (members : List (Bytes × Bytes)) :
    (composeMembers fmt depth members).length + 7 + (if fmt = true then depth else 0)
        ≤ objectSize fmt depth members
      ∧ objectSize fmt depth members ≤ 2 * (composeMembers fmt depth members).length + 8
        + if fmt = true then depth else 0 := by
  induction members with
  | nil =>
    rw [composeMembers, List.length_nil, show objectSize fmt depth []
      = 7 + if fmt = true then depth else 0 from rfl]
    omega
  | cons member members ih =>
    obtain ⟨str, ret⟩ := member
    rw [objectSize_cons, composeMembers]
    simp only [List.length_append, List.length_cons, length_tabs, length_newline,
      apply_ite List.length, List.length_nil]
    split_ifs at ih ⊢ <;> omega

end CJSON
