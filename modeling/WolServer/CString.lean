import Mathlib

/-!
# Bytes and C strings

The programs modelled here pass text around as C does: a pointer, and the
convention that the text ends at the first NUL byte. This module is the
small library that convention needs, and it names nothing of any program.

A pointer is the list of bytes from it on. Reading past the end of that
list reads a NUL, which is where a C program has left defined behaviour:
no list stands for what lies behind an array, and whether a program reads
there is a question about the array and not about the bytes that follow.

`CArray n` is the string a `char [n]` holds. Its two fields are what
`snprintf` into the array guarantees – a terminator inside the array and
no NUL before it – so a bound on the length of a stored string is read off
its type, and never proved about a run.
-/

/-- A sequence of bytes: what an array holds, or what lies at a pointer. -/
abbrev Bytes := List UInt8

/-- The bytes of an ASCII literal. -/
def lit (s : String) : Bytes := s.toList.map (fun c => c.toNat.toUInt8)

/-- `*p`: the byte at a pointer. -/
abbrev deref (p : Bytes) : UInt8 := p.headD 0

theorem deref_cons (b : UInt8) (p : Bytes) : deref (b :: p) = b := rfl

/-- **The C string at a pointer**: the bytes before the first NUL. -/
def cstr (p : Bytes) : Bytes := p.takeWhile (fun b => b ≠ 0)

theorem zero_notMem_cstr (p : Bytes) : (0 : UInt8) ∉ cstr p := by
  intro h
  simpa using List.mem_takeWhile_imp h

/-- Bytes with no NUL among them are their own C string. -/
theorem cstr_eq_self {p : Bytes} (h : (0 : UInt8) ∉ p) : cstr p = p := by
  refine List.takeWhile_eq_self_iff.mpr (fun b hb => ?_)
  simpa using fun h0 : b = 0 => h (h0 ▸ hb)

@[simp] theorem cstr_cstr (p : Bytes) : cstr (cstr p) = cstr p :=
  cstr_eq_self (zero_notMem_cstr p)

/-- Bytes with no NUL among them go on into what follows them. -/
theorem cstr_append {p : Bytes} (h : (0 : UInt8) ∉ p) (q : Bytes) :
    cstr (p ++ q) = p ++ cstr q := by
  refine List.takeWhile_append_of_pos (fun b hb => ?_)
  simpa using fun h0 : b = 0 => h (h0 ▸ hb)

/-- The terminator ends the string, whatever follows it. -/
theorem cstr_append_zero {p : Bytes} (h : (0 : UInt8) ∉ p) (q : Bytes) :
    cstr (p ++ 0 :: q) = p := by
  rw [cstr_append h, cstr, List.takeWhile_cons_of_neg (by decide), List.append_nil]

theorem length_cstr_le (p : Bytes) : (cstr p).length ≤ p.length :=
  (List.takeWhile_prefix _).length_le

theorem cstr_take (p : Bytes) (n : ℕ) : cstr (p.take n) = (cstr p).take n := by
  induction p generalizing n with
  | nil => simp [cstr]
  | cons b p ih =>
    cases n with
    | zero => simp [cstr]
    | succ n =>
      have ih := ih n
      by_cases hb : b = 0
      · simp [cstr, hb]
      · simpa [cstr, List.takeWhile_cons, hb] using ih

/-! ## Copying and printing -/

/-- `strncpy(dst, src, n)`: the `n` bytes it writes – the string, cut at
`n`, and NULs after it. A source of `n` bytes or more leaves no
terminator. -/
def strncpy (src : Bytes) (n : ℕ) : Bytes :=
  (cstr src ++ List.replicate n 0).take n

@[simp] theorem length_strncpy (src : Bytes) (n : ℕ) : (strncpy src n).length = n := by
  simp [strncpy]

/-- What a copy reads as: the string, cut at the size of the copy. -/
theorem cstr_strncpy (src : Bytes) (n : ℕ) :
    cstr (strncpy src n) = (cstr src).take n := by
  have hz : cstr (cstr src ++ List.replicate n 0) = cstr src := by
    cases n with
    | zero => simp
    | succ n => exact cstr_append_zero (zero_notMem_cstr src) _
  rw [strncpy, cstr_take, hz]

/-- **A copy is terminated exactly when the string is shorter than it.** -/
theorem zero_mem_strncpy_iff (src : Bytes) (n : ℕ) :
    (0 : UInt8) ∈ strncpy src n ↔ (cstr src).length < n := by
  rw [strncpy]
  constructor
  · intro h
    by_contra hn
    rw [List.take_append_of_le_length (Nat.le_of_not_lt hn)] at h
    exact zero_notMem_cstr src (List.mem_of_mem_take h)
  · intro h
    rw [List.take_append, List.take_of_length_le h.le]
    refine List.mem_append_right _ ?_
    rw [List.take_replicate, List.mem_replicate]
    exact ⟨by omega, rfl⟩

/-- **The buffer holds the front of a string**: a terminated string, the
longest front that leaves room for the terminator in `n` bytes. -/
structure HoldsFront (buf src : Bytes) (n : ℕ) : Prop where
  /-- The buffer has `n` bytes. -/
  length_eq : buf.length = n
  /-- One of them is the terminator. -/
  terminated : (0 : UInt8) ∈ buf
  /-- The string before it is the front of the source. -/
  cstr_eq : cstr buf = (cstr src).take (n - 1)

/-- A copy holds the front of its source only when it holds all of it. -/
theorem holdsFront_strncpy_iff (src : Bytes) (n : ℕ) :
    HoldsFront (strncpy src n) src n ↔ (cstr src).length < n := by
  refine ⟨fun h => (zero_mem_strncpy_iff src n).mp h.terminated, fun h => ?_⟩
  refine ⟨length_strncpy src n, (zero_mem_strncpy_iff src n).mpr h, ?_⟩
  rw [cstr_strncpy, List.take_of_length_le h.le, List.take_of_length_le (Nat.le_sub_one_of_lt h)]

/-! ## What the string functions look at -/

/-- The bytes `strlen`, `sscanf` and `%s` look at: the string and its
terminator. -/
def strlenReads (p : Bytes) : ℕ := (cstr p).length + 1

/-- The bytes of `p` that `strcmp(p, q)` looks at: up to the first
difference, or to the terminators. -/
def strcmpReads : Bytes → Bytes → ℕ
  | [], _ => 1
  | b :: p, q => if b ≠ 0 ∧ b = deref q then strcmpReads p q.tail + 1 else 1

/-- A comparison looks at no more than the whole string. -/
theorem strcmpReads_le_strlenReads (p q : Bytes) : strcmpReads p q ≤ strlenReads p := by
  induction p generalizing q with
  | nil => exact Nat.le_add_left 1 _
  | cons b p ih =>
    rw [strcmpReads]
    split
    · rename_i hb
      have hcons : cstr (b :: p) = b :: cstr p := List.takeWhile_cons_of_pos (by simpa using hb.1)
      rw [strlenReads, hcons, List.length_cons]
      exact Nat.add_le_add_right (ih q.tail) 1
    · exact Nat.le_add_left 1 _

/-- **A string is read inside its buffer exactly when the buffer holds a
terminator.** -/
theorem strlenReads_le_length_iff (p : Bytes) : strlenReads p ≤ p.length ↔ (0 : UInt8) ∈ p := by
  rw [strlenReads, Nat.succ_le_iff]
  constructor
  · intro h
    by_contra hz
    rw [cstr_eq_self hz] at h
    exact lt_irrefl _ h
  · intro hz
    refine lt_of_le_of_ne (length_cstr_le p) (fun h => zero_notMem_cstr p ?_)
    have hall : cstr p = p := (List.takeWhile_prefix _).eq_of_length h
    rwa [hall]

/-- `snprintf(buf, n, …)` of a text: the characters it stores in the
`n`-byte buffer, and its result – the length the text would have had. -/
def snprintf (n : ℕ) (text : Bytes) : Bytes × ℕ := (text.take (n - 1), text.length)

/-- **The result is a length of stored characters exactly when it is
smaller than the buffer.** -/
theorem snprintf_le_stored_iff {n : ℕ} (hn : 0 < n) (text : Bytes) :
    (snprintf n text).2 ≤ (snprintf n text).1.length ↔ (snprintf n text).2 < n := by
  simp only [snprintf, List.length_take]
  omega

/-- A text that fits is stored as it is. -/
theorem snprintf_of_lt {n : ℕ} {text : Bytes} (h : text.length < n) :
    snprintf n text = (text, text.length) := by
  rw [snprintf, List.take_of_length_le (Nat.le_sub_one_of_lt h)]

/-- **The string a `char [n]` holds.** -/
structure CArray (n : ℕ) where
  /-- The characters before the terminator. -/
  text : Bytes
  /-- The terminator lies inside the array. -/
  length_lt : text.length < n
  /-- No character before the terminator is a NUL. -/
  noNul : (0 : UInt8) ∉ text
deriving DecidableEq

namespace CArray

/-- `snprintf(a, sizeof(a), "%s", s)`: the array after printing a string
into it. -/
def print (n : ℕ) [NeZero n] (s : Bytes) : CArray n where
  text := (cstr s).take (n - 1)
  length_lt := by
    have := NeZero.pos n
    rw [List.length_take]
    omega
  noNul := fun h => zero_notMem_cstr s (List.mem_of_mem_take h)

@[simp] theorem print_text (n : ℕ) [NeZero n] (s : Bytes) :
    (print n s).text = (cstr s).take (n - 1) := rfl

/-- `memset(a, 0, sizeof(a))`: the empty string. -/
def zeroed (n : ℕ) [NeZero n] : CArray n := ⟨[], NeZero.pos n, List.not_mem_nil⟩

end CArray

/-! ## Joining -/

/-- The separator stands before every part but the first. -/
theorem intercalate_cons {sep : UInt8} (r : Bytes) (rs : List Bytes) :
    [sep].intercalate (r :: rs) = r ++ rs.flatMap (sep :: ·) := by
  induction rs generalizing r with
  | nil => simp
  | cons r' rs ih => rw [List.intercalate_cons_cons, ih, List.flatMap_cons, List.append_assoc]; rfl

/-- What is joined has the separator, and the bytes of its parts. -/
theorem mem_intercalate {sep : UInt8} {rs : List Bytes} {b : UInt8}
    (h : b ∈ [sep].intercalate rs) : b = sep ∨ ∃ r ∈ rs, b ∈ r := by
  cases rs with
  | nil => exact absurd h List.not_mem_nil
  | cons r rs =>
    rw [intercalate_cons, List.mem_append, List.mem_flatMap] at h
    rcases h with h | ⟨r', hr', h⟩
    · exact Or.inr ⟨r, List.mem_cons_self, h⟩
    · exact (List.mem_cons.mp h).imp id (fun h => ⟨r', List.mem_cons_of_mem r hr', h⟩)

/-! ## Decimal numerals -/

/-- `%u`: the decimal numeral of a number. -/
def decimal (n : ℕ) : Bytes := (Nat.toDigits 10 n).map (fun c => c.toNat.toUInt8)

/-- The byte is a decimal digit. -/
def isDigit (b : UInt8) : Bool := 48 ≤ b && b ≤ 57

/-- The value of a run of digits that continues a numeral of value `n`. -/
def digitsFrom (n : ℕ) (ds : Bytes) : ℕ := ds.foldl (fun n d => n * 10 + (d.toNat - 48)) n

theorem decimal_lt_ten {n : ℕ} (h : n < 10) : decimal n = [(48 + n).toUInt8] := by
  rw [decimal, Nat.toDigits_of_lt_base h]
  interval_cases n <;> rfl

/-- A numeral is the numeral of its tens and its last digit. -/
theorem decimal_of_ten_le {n : ℕ} (h : 10 ≤ n) :
    decimal n = decimal (n / 10) ++ [(48 + n % 10).toUInt8] := by
  have hd : n % 10 < 10 := Nat.mod_lt n (by decide)
  have hone : ([(n % 10).digitChar].map (fun c : Char => c.toNat.toUInt8))
      = [(48 + n % 10).toUInt8] := by
    rw [← decimal_lt_ten hd, decimal, Nat.toDigits_of_lt_base hd]
  rw [decimal, Nat.toDigits_of_base_le (by decide) h, List.map_append, hone]
  rfl

/-- A numeral has the value it was printed from. -/
theorem digitsFrom_decimal (n : ℕ) : digitsFrom 0 (decimal n) = n := by
  induction n using Nat.strongRecOn with
  | ind n ih =>
    by_cases h : n < 10
    · rw [decimal_lt_ten h]
      interval_cases n <;> rfl
    · have hlast : (48 + n % 10).toUInt8.toNat - 48 = n % 10 := by
        have hd : n % 10 < 10 := Nat.mod_lt n (by decide)
        interval_cases n % 10 <;> rfl
      have htens := ih (n / 10) (Nat.div_lt_self (by omega) (by decide))
      rw [decimal_of_ten_le (Nat.le_of_not_lt h)]
      unfold digitsFrom at htens ⊢
      rw [List.foldl_append, htens, List.foldl_cons, List.foldl_nil, hlast]
      omega

/-- **A numeral is a run of digits, with no leading zero but that of `0`.** -/
theorem decimal_shape (n : ℕ) :
    decimal n = [48] ∨ ∃ d ds, decimal n = d :: ds ∧ d ≠ 48
      ∧ isDigit d = true ∧ ∀ b ∈ ds, isDigit b = true := by
  induction n using Nat.strongRecOn with
  | ind n ih =>
    by_cases h : n < 10
    · rw [decimal_lt_ten h]
      interval_cases n <;> simp [isDigit]
    · have hlast : isDigit (48 + n % 10).toUInt8 = true := by
        have hd : n % 10 < 10 := Nat.mod_lt n (by decide)
        interval_cases n % 10 <;> rfl
      rw [decimal_of_ten_le (Nat.le_of_not_lt h)]
      refine Or.inr ?_
      rcases ih (n / 10) (Nat.div_lt_self (by omega) (by decide)) with
        h0 | ⟨d, ds, hd, hne, hdig, hds⟩
      · -- the tens are at least one, so their numeral is not `0`
        have hval := digitsFrom_decimal (n / 10)
        rw [h0] at hval
        have : n / 10 = 0 := hval.symm
        omega
      · refine ⟨d, ds ++ [(48 + n % 10).toUInt8], by rw [hd]; rfl, hne, hdig, fun b hb => ?_⟩
        rcases List.mem_append.mp hb with hb | hb
        · exact hds b hb
        · rw [List.mem_singleton.mp hb]
          exact hlast

/-- Every character of a numeral is a digit. -/
theorem isDigit_of_mem_decimal {n : ℕ} {b : UInt8} (h : b ∈ decimal n) : isDigit b = true := by
  rcases decimal_shape n with h0 | ⟨d, ds, hd, -, hdig, hds⟩
  · rw [h0] at h
    rw [List.mem_singleton.mp h]
    rfl
  · rw [hd] at h
    rcases List.mem_cons.mp h with rfl | h
    · exact hdig
    · exact hds b h

/-- A number below a power of ten has no more digits than the power. -/
theorem length_decimal_le {n k : ℕ} (h : n < 10 ^ (k + 1)) : (decimal n).length ≤ k + 1 := by
  induction k generalizing n with
  | zero => rw [decimal_lt_ten (by omega)]; simp
  | succ k ih =>
    by_cases h10 : n < 10
    · rw [decimal_lt_ten h10]
      simp
    · have hdiv : n / 10 < 10 ^ (k + 1) := by
        rw [Nat.div_lt_iff_lt_mul (by decide), ← pow_succ]
        exact h
      have := ih hdiv
      rw [decimal_of_ten_le (Nat.le_of_not_lt h10), List.length_append, List.length_singleton]
      omega

/-- The value of a run of digits is below the power of ten of its length. -/
theorem digitsFrom_lt {ds : Bytes} (hds : ∀ b ∈ ds, isDigit b = true) (n : ℕ) :
    digitsFrom n ds < (n + 1) * 10 ^ ds.length := by
  induction ds generalizing n with
  | nil => simp [digitsFrom]
  | cons d ds ih =>
    have hd : d.toNat ≤ 57 := by
      have := hds d List.mem_cons_self
      simp only [isDigit, Bool.and_eq_true, decide_eq_true_eq] at this
      exact UInt8.le_iff_toNat_le.mp this.2
    have hrec := ih (fun b hb => hds b (List.mem_cons_of_mem d hb)) (n * 10 + (d.toNat - 48))
    calc digitsFrom n (d :: ds)
        = digitsFrom (n * 10 + (d.toNat - 48)) ds := rfl
      _ < (n * 10 + (d.toNat - 48) + 1) * 10 ^ ds.length := hrec
      _ ≤ ((n + 1) * 10) * 10 ^ ds.length := Nat.mul_le_mul_right _ (by omega)
      _ = (n + 1) * 10 ^ (d :: ds).length := by rw [List.length_cons, pow_succ]; ring

/-- No run of digits is shorter than the numeral of its value. -/
theorem length_decimal_digitsFrom_le {ds : Bytes} (hne : ds ≠ [])
    (hds : ∀ b ∈ ds, isDigit b = true) :
    (decimal (digitsFrom 0 ds)).length ≤ ds.length := by
  obtain ⟨k, hk⟩ := Nat.exists_eq_succ_of_ne_zero (List.length_pos_iff.mpr hne).ne'
  have hlt := digitsFrom_lt hds 0
  rw [hk] at hlt ⊢
  exact length_decimal_le (by simpa using hlt)
