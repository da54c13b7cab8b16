import WolServer.JsonText

/-!
# Bytes in hexadecimal

A list of bytes – a hardware address, say – is written as text with two
hexadecimal digits for each byte and a separator between them. There are many
spellings of one list, because a digit above nine has two cases
(`HexText.Spelling`), and one that `printf` writes (`HexText.print`).
`HexText.IsHex` is a hexadecimal number of any length, with the sign and the
prefix that C allows. This module names nothing of any program.
-/

namespace HexText

open JsonText (hexVal hexVal_lt)

/-- **Two hexadecimal digits that spell a byte**, of either case. -/
inductive Spells : Bytes → UInt8 → Prop
  | digits {x y : UInt8} {v w : ℕ} (hx : hexVal x = some v) (hy : hexVal y = some w) :
      Spells [x, y] (v * 16 + w).toUInt8

/-- **A spelling of a list of bytes**, with a separator between them. -/
def Spelling (sep : UInt8) (bytes : List UInt8) (text : Bytes) : Prop :=
  ∃ ts, List.Forall₂ Spells ts bytes ∧ text = [sep].intercalate ts

/-- A spelling of the first byte, and of the others. -/
theorem Spelling.cons_cons {sep a b : UInt8} {bytes : List UInt8} {text : Bytes}
    (h : Spelling sep (a :: b :: bytes) text) :
    ∃ t rest, Spells t a ∧ Spelling sep (b :: bytes) rest ∧ text = t ++ sep :: rest := by
  obtain ⟨ts, hts, rfl⟩ := h
  cases hts with
  | @cons t _ ts _ ht hts =>
    cases hts with
    | @cons t' _ ts _ ht' hts =>
      refine ⟨t, [sep].intercalate (t' :: ts), ht, ⟨_, .cons ht' hts, rfl⟩, ?_⟩
      rw [List.intercalate_cons_cons, List.append_assoc, List.singleton_append]

/-- The spelling of a single byte. -/
theorem Spelling.singleton {sep a : UInt8} {text : Bytes} (h : Spelling sep [a] text) :
    Spells text a := by
  obtain ⟨ts, hts, rfl⟩ := h
  cases hts with
  | cons ht hts =>
    cases hts
    rw [List.intercalate_singleton]
    exact ht

/-! ## Printing -/

/-- The upper-case digit of a value below sixteen. -/
def digit (v : ℕ) : UInt8 := if v < 10 then (48 + v).toUInt8 else (55 + v).toUInt8

/-- `%02X` of a byte. -/
def printByte (b : UInt8) : Bytes := [digit (b.toNat / 16), digit (b.toNat % 16)]

/-- **`%02X` of each byte**, with a separator between them. -/
def print (sep : UInt8) (bytes : List UInt8) : Bytes := [sep].intercalate (bytes.map printByte)

theorem hexVal_digit {v : ℕ} (h : v < 16) : hexVal (digit v) = some v := by
  interval_cases v <;> rfl

theorem spells_printByte (b : UInt8) : Spells (printByte b) b := by
  have hb := b.toNat_lt
  have hspells := Spells.digits (hexVal_digit (show b.toNat / 16 < 16 by omega))
    (hexVal_digit (Nat.mod_lt b.toNat (by decide)))
  have hvalue : (b.toNat / 16 * 16 + b.toNat % 16).toUInt8 = b := by
    rw [Nat.div_add_mod' b.toNat 16]
    exact UInt8.ofNat_toNat
  rwa [hvalue] at hspells

/-- **What is printed is a spelling.** -/
theorem spelling_print (sep : UInt8) (bytes : List UInt8) :
    Spelling sep bytes (print sep bytes) := by
  refine ⟨bytes.map printByte, ?_, rfl⟩
  induction bytes with
  | nil => exact .nil
  | cons b bytes ih => exact .cons (spells_printByte b) ih

/-- A digit that is printed is no small letter. -/
theorem digit_lt {v : ℕ} (h : v < 16) : digit v < 97 := by
  interval_cases v <;> decide

/-- **The letters that are printed are capitals.** -/
theorem print_lt {sep : UInt8} (hsep : sep < 97) (bytes : List UInt8) :
    ∀ x ∈ print sep bytes, x < 97 := by
  intro x hx
  rcases mem_intercalate hx with rfl | ⟨t, ht, hx⟩
  · exact hsep
  · obtain ⟨b, -, rfl⟩ := List.mem_map.mp ht
    have hb := b.toNat_lt
    rcases List.mem_pair.mp hx with rfl | rfl
    · exact digit_lt (by omega)
    · exact digit_lt (by omega)

/-! ## Numbers -/

/-- The value of a run of digits. -/
def value (digits : Bytes) : ℕ := digits.foldl (fun n d => n * 16 + (hexVal d).getD 0) 0

/-- The byte is a hexadecimal digit. -/
def isDigit (b : UInt8) : Bool := (hexVal b).isSome

/-- **A hexadecimal number**, and its value: digits, behind a sign and a prefix
`0x` or without. -/
inductive IsHex : Bytes → ℤ → Prop
  | unsigned {sign pre digits : Bytes} (hsign : sign = [] ∨ sign = [43])
      (hpre : pre = [] ∨ pre = [48, 120] ∨ pre = [48, 88]) (hne : digits ≠ [])
      (hdigits : ∀ d ∈ digits, isDigit d = true) :
      IsHex (sign ++ (pre ++ digits)) (value digits)
  | negative {pre digits : Bytes}
      (hpre : pre = [] ∨ pre = [48, 120] ∨ pre = [48, 88]) (hne : digits ≠ [])
      (hdigits : ∀ d ∈ digits, isDigit d = true) :
      IsHex (45 :: (pre ++ digits)) (-value digits)

end HexText
