import WolServer.CJSONSteps

/-!
# What the parser accepts

**The parser reads every JSON text.** Where the grammar derives a value at
the front of a text, `parse_value` returns the node of that value and the
pointer to what follows it, whatever that is (`CJSON.parse_of_derives`).
The node is `CJSON.ofJson` of the value: names and strings are the ones the
text denotes, with the NULs left out, because a NUL can only be written as
an escape and `parse_string` drops that escape.

The parser reads more than JSON – it closes a string at the end of the text
by itself, and takes control characters as they are – so the converse does
not hold, and nothing below claims it.
-/

/-- A string without its NUL bytes. -/
def dropNul (s : Bytes) : Bytes := s.filter (fun b => b ≠ 0)

namespace CJSON

mutual

/-- **The node of a value.** -/
def ofJson : Json → CJSON
  | .null => { newItem with type := .null }
  | .bool true => { newItem with type := .true_, valueint := 1 }
  | .bool false => { newItem with type := .false_ }
  | .num m e => { newItem with type := .number, valuedouble := ⟨m, e⟩,
                               valueint := Decimal.toInt ⟨m, e⟩ }
  | .str s => { newItem with type := .string, valuestring := some (dropNul s) }
  | .arr vs => { newItem with type := .array, child := ofElements vs }
  | .obj ms => { newItem with type := .object, child := ofMembers ms }

/-- The nodes of the elements of an array. -/
def ofElements : List Json → List CJSON
  | [] => []
  | v :: vs => ofJson v :: ofElements vs

/-- The nodes of the members of an object. -/
def ofMembers : List (Bytes × Json) → List CJSON
  | [] => []
  | (k, v) :: ms => { ofJson v with string := some (dropNul k) } :: ofMembers ms

end

/-! ## Code points -/

set_option maxRecDepth 8000 in
/-- A continuation byte is the low six bits, marked. -/
theorem continuation_eq (uc : ℕ) : continuation uc = UInt8.ofNat (uc % 64 + 128) := by
  have hb : ∀ x < 256, ((x ||| 0x80) &&& 0xBF) = x % 64 + 128 := by decide
  have hmod : ((uc ||| 0x80) &&& 0xBF) = ((uc % 256 ||| 0x80) &&& 0xBF) := by
    refine Nat.eq_of_testBit_eq (fun i => ?_)
    rw [Nat.testBit_and, Nat.testBit_and, Nat.testBit_or, Nat.testBit_or,
      show (256 : ℕ) = 2 ^ 8 from rfl, Nat.testBit_mod_two_pow]
    by_cases hi : i < 8
    · simp [hi]
    · have : Nat.testBit 0xBF i = false :=
        Nat.testBit_lt_two_pow (lt_of_lt_of_le (by decide)
          (Nat.pow_le_pow_right (by decide) (Nat.le_of_not_lt hi)))
      rw [this, Bool.and_false, Bool.and_false]
  unfold continuation
  rw [hmod, hb _ (Nat.mod_lt _ (by decide)), Nat.mod_mod_of_dvd _ (by decide)]

/-- The first byte of an encoding: the high bits of the code point under a
mark that they do not reach. -/
theorem or_mark {x k a : ℕ} (hx : x < 2 ^ k) : x ||| 2 ^ k * a = x + 2 ^ k * a := by
  rw [Nat.lor_comm, ← Nat.two_pow_add_eq_or_of_lt hx, Nat.add_comm]

/-- **`parse_string` encodes a character in UTF-8.** -/
theorem transcode_toNat (c : Char) : transcode c.toNat = String.utf8EncodeChar c := by
  have hc : c.val.toNat < 0x110000 := by
    rcases c.valid with h | ⟨-, h⟩
    · exact lt_trans h (by decide)
    · exact h
  have htop : ∀ {x k a : ℕ}, x < 2 ^ k →
      (x ||| 2 ^ k * a).toUInt8 = UInt8.ofNat (x % 2 ^ k + 2 ^ k * a) :=
    fun hx => by rw [or_mark hx, Nat.mod_eq_of_lt hx]
  show transcode c.val.toNat = _
  generalize hv : c.val.toNat = v at hc
  simp only [transcode, String.utf8EncodeChar, hv, continuation_eq, Nat.shiftRight_eq_div_pow]
  by_cases h₁ : v < 0x80
  · rw [if_pos h₁, if_pos (show v ≤ 127 by omega)]
  rw [if_neg h₁, if_neg (show ¬ v ≤ 127 by omega)]
  by_cases h₂ : v < 0x800
  · rw [if_pos h₂, if_pos (show v ≤ 2047 by omega), show (0xC0 : ℕ) = 2 ^ 5 * 6 from rfl,
      htop (show v / 2 ^ 6 < 2 ^ 5 by omega)]
    norm_num
  rw [if_neg h₂, if_neg (show ¬ v ≤ 2047 by omega)]
  by_cases h₃ : v < 0x10000
  · rw [if_pos h₃, if_pos (show v ≤ 65535 by omega), show (0xE0 : ℕ) = 2 ^ 4 * 14 from rfl,
      htop (show v / 2 ^ 12 < 2 ^ 4 by omega)]
    norm_num
  rw [if_neg h₃, if_neg (show ¬ v ≤ 65535 by omega), show (0xF0 : ℕ) = 2 ^ 3 * 30 from rfl,
    htop (show v / 2 ^ 18 < 2 ^ 3 by omega)]
  norm_num

/-- No character but the null one has a NUL in its encoding. -/
theorem dropNul_utf8EncodeChar {c : Char} (hc : c.toNat ≠ 0) :
    dropNul (String.utf8EncodeChar c) = String.utf8EncodeChar c := by
  have hv : c.val.toNat < 0x110000 := by
    rcases c.valid with h | ⟨-, h⟩
    · exact lt_trans h (by decide)
    · exact h
  have hne : ∀ n : ℕ, 0 < n → n < 256 → (UInt8.ofNat n ≠ 0) := by
    intro n h0 h1 h
    have := congrArg UInt8.toNat h
    simp at this
    omega
  change c.val.toNat ≠ 0 at hc
  refine List.filter_eq_self.mpr (fun b hb => decide_eq_true ?_)
  simp only [String.utf8EncodeChar] at hb
  generalize c.val.toNat = v at *
  split_ifs at hb <;>
    simp only [List.mem_cons, List.not_mem_nil, or_false] at hb <;>
    rcases hb with rfl | rfl | rfl | rfl <;> exact hne _ (by omega) (by omega)

/-- A code point is not half of a surrogate pair. -/
theorem not_surrogate (c : Char) : ¬ (0xD800 ≤ c.toNat ∧ c.toNat ≤ 0xDFFF) := by
  rcases c.valid with h | ⟨h, -⟩
  · exact fun hs => absurd hs.1 (Nat.not_le.mpr h)
  · exact fun hs => absurd hs.2 (Nat.not_le.mpr h)

/-- The bits a surrogate pair carries are its offset in the code space. -/
theorem surrogate_bits {hi lo : ℕ} (hi₀ : 0xD800 ≤ hi) (hi₁ : hi < 0xDC00)
    (lo₀ : 0xDC00 ≤ lo) (lo₁ : lo < 0xE000) :
    ((hi &&& 0x3FF) <<< 10 ||| (lo &&& 0x3FF)) = (hi - 0xD800) * 0x400 + (lo - 0xDC00) := by
  have hmask : ∀ x, (x &&& 0x3FF) = x % 2 ^ 10 := fun x => Nat.and_two_pow_sub_one_eq_mod x 10
  rw [hmask, hmask, ← Nat.shiftLeft_add_eq_or_of_lt (Nat.mod_lt _ (by decide)),
    Nat.shiftLeft_eq]
  omega

/-! ## Strings -/

theorem dropNul_append (s u : Bytes) : dropNul (s ++ u) = dropNul s ++ dropNul u :=
  List.filter_append ..

theorem dropNul_cons {b : UInt8} (hb : b ≠ 0) (s : Bytes) : dropNul (b :: s) = b :: dropNul s := by
  simp [dropNul, hb]

theorem zero_notMem_dropNul (s : Bytes) : (0 : UInt8) ∉ dropNul s := by
  simp [dropNul]

/-- The parser reads four hexadecimal digits as the grammar does. -/
theorem parseHex4_of_hex4 {a b c d : UInt8} {n : ℕ} (h : JsonText.hex4 a b c d = some n)
    (t : Bytes) : parseHex4 (a :: b :: c :: d :: t) = n := by
  simp [parseHex4, h]

/-- A two-byte escape writes the byte it stands for. -/
theorem parseEscape_simple {e b : UInt8} (h : JsonText.simpleEscape e = some b) (t : Bytes) :
    parseEscape (e :: t) = ([b], e :: t) ∧ b ≠ 0 := by
  unfold JsonText.simpleEscape at h
  split at h
  all_goals first
    | injection h with h; subst h; exact ⟨rfl, by decide⟩
    | exact absurd h (by simp)

/-- An escape for a character of the basic plane writes its encoding, and
nothing for the null character. -/
theorem parseEscape_unicode {h₁ h₂ h₃ h₄ : UInt8} {c : Char}
    (hc : JsonText.hex4 h₁ h₂ h₃ h₄ = some c.toNat) (t : Bytes) :
    parseEscape (117 :: h₁ :: h₂ :: h₃ :: h₄ :: t)
      = (dropNul (String.utf8EncodeChar c), h₄ :: t) := by
  have hsur := not_surrogate c
  show parseUnicode (117 :: h₁ :: h₂ :: h₃ :: h₄ :: t) = _
  simp only [parseUnicode, List.drop_succ_cons, List.drop_zero, parseHex4_of_hex4 hc]
  by_cases h0 : c.toNat = 0
  · have hc0 : c = Char.ofNat 0 := by rw [← h0, Char.ofNat_toNat]
    rw [if_pos (Or.inr h0), hc0]
    rfl
  · rw [if_neg (by omega), if_neg (by omega), transcode_toNat, dropNul_utf8EncodeChar h0]

/-- An escaped surrogate pair writes the encoding of its character. -/
theorem parseEscape_pair {h₁ h₂ h₃ h₄ l₁ l₂ l₃ l₄ : UInt8} {hi lo : ℕ} {c : Char}
    (hhi : JsonText.hex4 h₁ h₂ h₃ h₄ = some hi) (hlo : JsonText.hex4 l₁ l₂ l₃ l₄ = some lo)
    (hi₀ : 0xD800 ≤ hi) (hi₁ : hi < 0xDC00) (lo₀ : 0xDC00 ≤ lo) (lo₁ : lo < 0xE000)
    (hc : c.toNat = 0x10000 + (hi - 0xD800) * 0x400 + (lo - 0xDC00)) (t : Bytes) :
    parseEscape (117 :: h₁ :: h₂ :: h₃ :: h₄ :: 92 :: 117 :: l₁ :: l₂ :: l₃ :: l₄ :: t)
      = (dropNul (String.utf8EncodeChar c), l₄ :: t) := by
  show parseUnicode _ = _
  simp only [parseUnicode, List.drop_succ_cons, List.drop_zero, parseHex4_of_hex4 hhi,
    parseHex4_of_hex4 hlo, surrogate_bits hi₀ hi₁ lo₀ lo₁]
  rw [if_neg (by omega), if_pos (by omega), if_neg (by simp [deref]), if_neg (by omega),
    ← Nat.add_assoc, ← hc, transcode_toNat, dropNul_utf8EncodeChar (by omega)]

/-- **The loop of `parse_string` reads every string of the grammar**, up to
its closing quote. -/
theorem parseStringLoop_of_strBody {t s r : Bytes} (h : JsonText.StrBody t s r) {n : ℕ}
    (hn : t.length ≤ n) : parseStringLoop n t = (dropNul s, 34 :: r) := by
  induction h generalizing n with
  | close r =>
    cases n with
    | zero => simp at hn
    | succ n => simp [parseStringLoop, deref, dropNul]
  | @plain b t s r hb _ ih =>
    cases n with
    | zero => simp at hn
    | succ n =>
      have hne : b ≠ 34 ∧ b ≠ 0 ∧ b ≠ 92 := by
        refine ⟨?_, ?_, ?_⟩ <;> rintro rfl <;> exact absurd hb (by decide)
      rw [parseStringLoop, if_neg (by simp [deref, hne]), if_pos (by simp [deref, hne]),
        List.tail_cons, ih (by simpa using hn), dropNul_cons hne.2.1]
      rfl
  | @escape e b t s r he _ ih =>
    cases n with
    | zero => simp at hn
    | succ n =>
      obtain ⟨hesc, hb⟩ := parseEscape_simple he t
      simp only [List.length_cons] at hn
      rw [parseStringLoop, if_neg (by simp [deref]), if_neg (by simp [deref]), List.tail_cons,
        hesc]
      simp only [List.tail_cons]
      rw [ih (by omega), dropNul_cons hb]
      rfl
  | unicode hc _ ih =>
    cases n with
    | zero => simp at hn
    | succ n =>
      simp only [List.length_cons] at hn
      rw [parseStringLoop, if_neg (by simp [deref]), if_neg (by simp [deref]), List.tail_cons,
        parseEscape_unicode hc]
      simp only [List.tail_cons]
      rw [ih (by omega), dropNul_append]
  | pair hhi hlo hi₀ hi₁ lo₀ lo₁ hc _ ih =>
    cases n with
    | zero => simp at hn
    | succ n =>
      simp only [List.length_cons] at hn
      rw [parseStringLoop, if_neg (by simp [deref]), if_neg (by simp [deref]), List.tail_cons,
        parseEscape_pair hhi hlo hi₀ hi₁ lo₀ lo₁ hc]
      simp only [List.tail_cons]
      rw [ih (by omega), dropNul_append]

/-- **`parse_string` reads every string.** -/
theorem parseString_of_strBody {t s r : Bytes} (h : JsonText.StrBody t s r) :
    parseString (34 :: t) = some (dropNul s, r) := by
  rw [parseString, if_neg (by simp [deref]), List.tail_cons,
    parseStringLoop_of_strBody h (by simp)]
  simp [deref, cstr_eq_self (zero_notMem_dropNul s)]

/-! ## Numbers -/

/-- The digits at a pointer are the run of digits there, when no digit
follows it. -/
theorem digitSpan_append {ds t : Bytes} (hds : JsonText.Digits ds)
    (ht : isDigit (deref t) = false) : digitSpan (ds ++ t) = (ds, t) := by
  have htake : t.takeWhile isDigit = [] := by
    cases t with
    | nil => rfl
    | cons b t => exact List.takeWhile_cons_of_neg (by simpa [deref] using ht)
  have hdrop : t.dropWhile isDigit = t := by
    cases t with
    | nil => rfl
    | cons b t => exact List.dropWhile_cons_of_neg (by simpa [deref] using ht)
  rw [digitSpan, List.span_eq_takeWhile_dropWhile, List.takeWhile_append_of_pos hds,
    List.dropWhile_append_of_pos hds, htake, hdrop, List.append_nil]

/-- The byte after a number continues none of its parts. -/
theorem deref_of_numEnd {r : Bytes} (hr : JsonText.NumEnd r) :
    isDigit (deref r) = false ∧ deref r ≠ 46 ∧ deref r ≠ 101 ∧ deref r ≠ 69 := by
  cases r with
  | nil => exact ⟨rfl, by decide, by decide, by decide⟩
  | cons b r => exact hr b rfl

/-- A digit is no sign. -/
theorem digit_ne_sign {b : UInt8} (h : isDigit b = true) : b ≠ 43 ∧ b ≠ 45 := by
  constructor <;> rintro rfl <;> exact absurd h (by decide)

/-- The exponent part is read in full. -/
theorem parseExponent_text {x : Option JsonText.Exponent}
    (hx : ∀ y ∈ x, y.digits ≠ [] ∧ JsonText.Digits y.digits) {r : Bytes}
    (hr : JsonText.NumEnd r) :
    parseExponent (x.elim [] JsonText.Exponent.text ++ r)
      = (x.elim 0 JsonText.Exponent.val, r) := by
  obtain ⟨hdig, -, he, hE⟩ := deref_of_numEnd hr
  cases x with
  | none =>
    show parseExponent r = (0, r)
    rw [parseExponent, if_neg (not_or.mpr ⟨he, hE⟩)]
  | some y =>
    obtain ⟨hne, hds⟩ := hx y rfl
    obtain ⟨d, ds, hy⟩ := List.exists_cons_of_ne_nil hne
    have hsign := digit_ne_sign (hds d (hy ▸ List.mem_cons_self))
    have hspan := digitSpan_append hds hdig
    obtain ⟨capital, sign, digits⟩ := y
    cases hy
    cases capital <;> rcases sign with _ | (_ | _) <;>
      simp_all [parseExponent, JsonText.Exponent.text, JsonText.Exponent.val, deref]

/-- Neither the exponent part nor what follows a number starts with a digit
or a point. -/
theorem deref_exponent {x : Option JsonText.Exponent} {r : Bytes} (hr : JsonText.NumEnd r) :
    isDigit (deref (x.elim [] JsonText.Exponent.text ++ r)) = false
      ∧ deref (x.elim [] JsonText.Exponent.text ++ r) ≠ 46 := by
  cases x with
  | none => exact ⟨(deref_of_numEnd hr).1, (deref_of_numEnd hr).2.1⟩
  | some y => cases hc : y.capital <;> simp [JsonText.Exponent.text, hc, deref, isDigit]

/-- The fraction part is read in full. -/
theorem parseFraction_text {fp t : Bytes} (hfp : JsonText.Digits fp)
    (ht : isDigit (deref t) = false ∧ deref t ≠ 46) :
    parseFraction (JsonText.fracText fp ++ t) = (fp, t) := by
  unfold parseFraction
  by_cases h : fp = []
  · subst h
    rw [JsonText.fracText, if_pos rfl, List.nil_append, if_neg (fun h => ht.2 h.1)]
  · obtain ⟨d, ds, rfl⟩ := List.exists_cons_of_ne_nil h
    rw [JsonText.fracText, if_neg h, if_pos ⟨rfl, hfp d List.mem_cons_self⟩]
    exact digitSpan_append hfp ht.1

/-- The first digit of a number is no zero, or the number has no further
digits. -/
theorem nonzero_digit {b : UInt8} (hd : isDigit b = true) (hne : b ≠ 48) :
    49 ≤ b ∧ b ≤ 57 := by
  simp only [isDigit, Bool.and_eq_true, decide_eq_true_eq] at hd
  refine ⟨?_, hd.2⟩
  have h48 := UInt8.le_iff_toNat_le.mp hd.1
  have h0 : b.toNat ≠ 48 := fun h => hne (UInt8.toNat_inj.mp h)
  rw [UInt8.le_iff_toNat_le]
  change 48 ≤ b.toNat at h48
  show 49 ≤ b.toNat
  omega

/-- The integer part is read in full: the digits read have its value. -/
theorem parseInteger_text {ip t : Bytes} (hip : JsonText.IntPart ip)
    (ht : isDigit (deref t) = false) :
    ∃ ds, parseInteger (ip ++ t) = (ds, t)
      ∧ ∀ fp, digitsFrom 0 (ds ++ fp) = digitsFrom 0 (ip ++ fp) := by
  rcases hip with rfl | ⟨d, ds, rfl, hne, hd, hds⟩
  · refine ⟨[], ?_, fun fp => rfl⟩
    have hlow : ¬ (49 ≤ deref t ∧ deref t ≤ 57) := by
      rintro ⟨h49, h57⟩
      have h48 : (48 : UInt8) ≤ deref t := UInt8.le_trans (by decide) h49
      rw [isDigit, decide_eq_true h48, decide_eq_true h57] at ht
      exact absurd ht (by decide)
    exact if_neg hlow
  · refine ⟨d :: ds, ?_, fun fp => rfl⟩
    unfold parseInteger
    rw [List.cons_append, deref_cons, if_neg hne]
    exact (if_pos (nonzero_digit hd hne)).trans
      (digitSpan_append (List.forall_mem_cons.mpr ⟨hd, hds⟩) ht)

/-- The sign is read, when there is one. -/
theorem parseSign_text (neg : Bool) {ip t : Bytes} (hip : JsonText.IntPart ip) :
    parseSign ((if neg then [45] else []) ++ (ip ++ t)) = (if neg then -1 else 1, ip ++ t) := by
  cases neg with
  | true => rfl
  | false =>
    obtain ⟨d, ds, hd⟩ := List.exists_cons_of_ne_nil hip.ne_nil
    have hsign := (digit_ne_sign (hip.digits d (hd ▸ List.mem_cons_self))).2
    rw [hd]
    exact if_neg hsign

/-- **`parse_number` reads every numeral.** -/
theorem parseNumber_of_numeral {t : Bytes} {m e : ℤ} (h : JsonText.Numeral t m e) {r : Bytes}
    (hr : JsonText.NumEnd r) : parseNumber (t ++ r) = (⟨m, e⟩, r) := by
  obtain ⟨neg, ip, fp, x, hip, hfp, hx⟩ := h
  have hend := deref_exponent (x := x) hr
  have hpoint : isDigit (deref (JsonText.fracText fp
      ++ (x.elim [] JsonText.Exponent.text ++ r))) = false := by
    unfold JsonText.fracText
    split
    · exact hend.1
    · rfl
  obtain ⟨ds, hint, hval⟩ := parseInteger_text hip hpoint
  simp only [List.append_assoc, parseNumber, parseSign_text neg hip, hint,
    parseFraction_text hfp hend, parseExponent_text hx hr, hval]

/-! ## Values -/

/-- `skip` passes white space. -/
theorem skip_of_ws {t r : Bytes} (h : JsonText.Ws t r) : skip t = skip r := by
  induction h with
  | nil t => rfl
  | cons hb _ ih =>
    rw [← ih]
    rcases hb with rfl | rfl | rfl | rfl <;> rfl

theorem skip_ws_cons {t r : Bytes} {b : UInt8} (h : JsonText.Ws t (b :: r)) (hb : 32 < b) :
    skip t = b :: r := by
  rw [skip_of_ws h, skip_cons hb]

/-- A text of a value starts with a printing character that closes nothing. -/
theorem derives_head {t r : Bytes} {v : Json} (h : JsonText.Derives t (.value v) r) :
    ∃ b t', t = b :: t' ∧ 32 < b ∧ b ≠ 93 := by
  generalize hp : JsonText.Phrase.value v = p at h
  cases h with
  | null r => exact ⟨110, _, rfl, by decide, by decide⟩
  | true_ r => exact ⟨116, _, rfl, by decide, by decide⟩
  | false_ r => exact ⟨102, _, rfl, by decide, by decide⟩
  | num h hr =>
    obtain ⟨neg, ip, fp, x, hip, -, -⟩ := h
    cases neg with
    | true => exact ⟨45, _, rfl, by decide, by decide⟩
    | false =>
      obtain ⟨d, ds, rfl⟩ := List.exists_cons_of_ne_nil hip.ne_nil
      have hd := hip.digits d List.mem_cons_self
      simp only [isDigit, Bool.and_eq_true, decide_eq_true_eq] at hd
      refine ⟨d, _, rfl, UInt8.lt_of_lt_of_le (by decide) hd.1, ?_⟩
      rintro rfl
      exact absurd hd.2 (by decide)
  | str h => exact ⟨34, _, rfl, by decide, by decide⟩
  | arrNil h => exact ⟨91, _, rfl, by decide, by decide⟩
  | arr h => exact ⟨91, _, rfl, by decide, by decide⟩
  | objNil h => exact ⟨123, _, rfl, by decide, by decide⟩
  | obj h => exact ⟨123, _, rfl, by decide, by decide⟩
  | _ => cases hp

/-- A numeral starts with a minus sign or a digit. -/
theorem numeral_head {t : Bytes} {m e : ℤ} (h : JsonText.Numeral t m e) :
    ∃ b t', t = b :: t' ∧ (b = 45 ∨ (48 ≤ b ∧ b ≤ 57)) := by
  obtain ⟨neg, ip, fp, x, hip, -, -⟩ := h
  cases neg with
  | true => exact ⟨45, _, rfl, Or.inl rfl⟩
  | false =>
    obtain ⟨d, ds, rfl⟩ := List.exists_cons_of_ne_nil hip.ne_nil
    have hd := hip.digits d List.mem_cons_self
    simp only [isDigit, Bool.and_eq_true, decide_eq_true_eq] at hd
    exact ⟨d, _, rfl, Or.inr hd⟩

/-- **What it is to read a phrase**: with fuel for the text, the parser of
the phrase returns its nodes and the rest. -/
def Reads (t : Bytes) (r : Bytes) : JsonText.Phrase → Prop
  | .value v => ∀ n, 2 * t.length ≤ n → parseValue n t = some (ofJson v, r)
  | .elements vs => ∀ n, 2 * t.length < n → parseElements n t = some (ofElements vs, r)
  | .members ms => ∀ n, 2 * t.length < n → parseMembers n t = some (ofMembers ms, r)

/-- **The parser reads every text of the grammar**, by induction on its
derivation. -/
theorem reads_of_derives {t r : Bytes} {p : JsonText.Phrase} (h : JsonText.Derives t p r) :
    Reads t r p := by
  induction h with
  | null r =>
    intro n hn
    obtain ⟨n, rfl⟩ : ∃ m, n = m + 1 := ⟨n - 1, by simp [lit] at hn; omega⟩
    rfl
  | true_ r =>
    intro n hn
    obtain ⟨n, rfl⟩ : ∃ m, n = m + 1 := ⟨n - 1, by simp [lit] at hn; omega⟩
    rfl
  | false_ r =>
    intro n hn
    obtain ⟨n, rfl⟩ : ∃ m, n = m + 1 := ⟨n - 1, by simp [lit] at hn; omega⟩
    rfl
  | @num t m e r h hr =>
    intro n hn
    have hread := parseNumber_of_numeral h hr
    obtain ⟨b, t', rfl, hb⟩ := numeral_head h
    obtain ⟨n, rfl⟩ : ∃ m, n = m + 1 := ⟨n - 1, by simp at hn; omega⟩
    rw [List.cons_append, parseValue_number n hb, ← List.cons_append, hread]
    rfl
  | str h =>
    intro n hn
    obtain ⟨n, rfl⟩ : ∃ m, n = m + 1 := ⟨n - 1, by simp at hn; omega⟩
    rw [parseValue_string, parseString_of_strBody h]
    rfl
  | arrNil h =>
    intro n hn
    obtain ⟨n, rfl⟩ : ∃ m, n = m + 1 := ⟨n - 1, by simp at hn; omega⟩
    rw [parseValue_array, skip_ws_cons h (by decide), deref_cons, if_pos rfl]
    rfl
  | @arr t r vs h ih =>
    intro n hn
    simp only [List.length_cons] at hn
    obtain ⟨n, rfl⟩ : ∃ m, n = m + 1 := ⟨n - 1, by omega⟩
    have hopen : deref (skip t) ≠ 93 := by
      cases h with
      | lastElement h₁ h₂ _ | element h₁ h₂ _ _ =>
        obtain ⟨b, t', rfl, hb, hne⟩ := derives_head h₂
        rw [skip_ws_cons h₁ hb]
        exact hne
    rw [parseValue_array, if_neg hopen, ih n (by omega)]
    rfl
  | objNil h =>
    intro n hn
    obtain ⟨n, rfl⟩ : ∃ m, n = m + 1 := ⟨n - 1, by simp at hn; omega⟩
    rw [parseValue_object, skip_ws_cons h (by decide), deref_cons, if_pos rfl]
    rfl
  | @obj t r ms h ih =>
    intro n hn
    simp only [List.length_cons] at hn
    obtain ⟨n, rfl⟩ : ∃ m, n = m + 1 := ⟨n - 1, by omega⟩
    have hopen : deref (skip t) ≠ 125 := by
      cases h with
      | lastMember h₁ _ _ _ _ _ | member h₁ _ _ _ _ _ _ =>
        rw [skip_ws_cons h₁ (by decide)]
        exact (by decide : (34 : UInt8) ≠ 125)
    rw [parseValue_object, if_neg hopen, ih n (by omega)]
    rfl
  | lastElement h₁ h₂ h₃ ih =>
    intro n hn
    obtain ⟨n, rfl⟩ : ∃ m, n = m + 1 := ⟨n - 1, by omega⟩
    obtain ⟨b, t', rfl, hb, -⟩ := derives_head h₂
    have := h₁.length_le
    rw [parseElements, skip_ws_cons h₁ hb, ih n (by omega)]
    dsimp only
    rw [skip_ws_cons h₃ (by decide)]
    rfl
  | element h₁ h₂ h₃ h₄ ih₂ ih₄ =>
    intro n hn
    obtain ⟨n, rfl⟩ : ∃ m, n = m + 1 := ⟨n - 1, by omega⟩
    obtain ⟨b, t', rfl, hb, -⟩ := derives_head h₂
    have := h₁.length_le
    have := h₂.length_le
    have := h₃.length_le
    simp only [List.length_cons] at *
    rw [parseElements, skip_ws_cons h₁ hb, ih₂ n (by rw [List.length_cons]; omega)]
    dsimp only
    rw [skip_ws_cons h₃ (by decide), deref_cons, if_pos rfl, List.tail_cons,
      ih₄ n (by omega)]
    rfl
  | lastMember h₁ h₂ h₃ h₄ h₅ h₆ ih =>
    intro n hn
    obtain ⟨n, rfl⟩ : ∃ m, n = m + 1 := ⟨n - 1, by omega⟩
    obtain ⟨b, t', rfl, hb, -⟩ := derives_head h₅
    have := h₁.length_le
    have := h₂.length_le
    have := h₃.length_le
    have := h₄.length_le
    simp only [List.length_cons] at *
    rw [parseMembers, skip_ws_cons h₁ (by decide), parseString_of_strBody h₂]
    dsimp only
    rw [skip_ws_cons h₃ (by decide), if_neg (by simp [deref]), List.tail_cons,
      skip_ws_cons h₄ hb, ih n (by rw [List.length_cons]; omega)]
    dsimp only
    rw [skip_ws_cons h₆ (by decide)]
    rfl
  | member h₁ h₂ h₃ h₄ h₅ h₆ h₇ ih₅ ih₇ =>
    intro n hn
    obtain ⟨n, rfl⟩ : ∃ m, n = m + 1 := ⟨n - 1, by omega⟩
    obtain ⟨b, t', rfl, hb, -⟩ := derives_head h₅
    have := h₁.length_le
    have := h₂.length_le
    have := h₃.length_le
    have := h₄.length_le
    have := h₅.length_le
    have := h₆.length_le
    simp only [List.length_cons] at *
    rw [parseMembers, skip_ws_cons h₁ (by decide), parseString_of_strBody h₂]
    dsimp only
    rw [skip_ws_cons h₃ (by decide), if_neg (by simp [deref]), List.tail_cons,
      skip_ws_cons h₄ hb, ih₅ n (by rw [List.length_cons]; omega)]
    dsimp only
    rw [skip_ws_cons h₆ (by decide), deref_cons, if_pos rfl, List.tail_cons,
      ih₇ n (by omega)]
    rfl

/-- **`cJSON_ParseWithOpts` reads the value at the front of a text**, and
its pointer is what follows the value. -/
theorem parseWithOpts_of_derives {t r : Bytes} {v : Json}
    (h : JsonText.Derives t (.value v) r) : parseWithOpts t false = some (ofJson v, r) := by
  obtain ⟨b, t', rfl, hb, -⟩ := derives_head h
  rw [parseWithOpts_false, skip_cons hb, reads_of_derives h _ le_rfl]

/-- **`cJSON_Parse` reads the value at the front of a text and ignores what
follows it.** -/
theorem parse_of_derives {t r : Bytes} {v : Json} (h : JsonText.Derives t (.value v) r) :
    parse t = some (ofJson v) := by
  rw [parse, parseWithOpts_of_derives h]
  rfl

end CJSON
