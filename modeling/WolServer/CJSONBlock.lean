import WolServer.CJSONComplete

/-!
# The block of a string

`parse_string` goes over a string twice. The first loop counts the characters
that it will need, and the block is allocated for these and a terminator; the
second one writes. The two loops do not read a `\u` alike: the first goes on
behind the letter, and the second jumps over four characters, whatever they
are – over the closing quote too, and over the terminator of the text.

`CJSON.parseString_fits` says that a string whose escapes are complete stays
in its block, and that both loops end where it ends; every string of a JSON
text is such a string. `CJSON.parseString_overflows` says that no other bound
holds: a string can be written any number of bytes past the end of its block.

A pointer is the list of bytes from it on, with whatever comes after the
terminator of the text.
-/

namespace CJSON

/-- The loop that counts: the count, and where it stops. -/
def countLoop : ℕ → Bytes → ℕ × Bytes
  | 0, ptr => (0, ptr)
  | fuel + 1, ptr =>
    if deref ptr = 34 ∨ deref ptr = 0 then (0, ptr)
    else
      -- an escaped quote is passed over
      let r := countLoop fuel (if deref ptr = 92 then ptr.tail.tail else ptr.tail)
      (r.1 + 1, r.2)

/-- The size of the block that `parse_string` allocates. -/
def blockSize (str : Bytes) : ℕ := (countLoop str.length str.tail).1 + 1

/-- The number of bytes that it writes to the block, with the terminator. -/
def bytesWritten (str : Bytes) : ℕ := (parseStringLoop str.length str.tail).1.length + 1

/-- **A string whose escapes are complete**: behind each backslash there is a
character, and behind each `\u` there are four hexadecimal digits. -/
inductive Complete4 : Bytes → Prop
  | stop {t : Bytes} (h : deref t = 34 ∨ deref t = 0) : Complete4 t
  | plain {b : UInt8} {t : Bytes} (hb : b ≠ 34 ∧ b ≠ 0 ∧ b ≠ 92) (h : Complete4 t) :
      Complete4 (b :: t)
  | escape {e : UInt8} {t : Bytes} (he : e ≠ 0 ∧ e ≠ 117) (h : Complete4 t) :
      Complete4 (92 :: e :: t)
  | unicode {a b c d : UInt8} {n : ℕ} {t : Bytes} (hn : JsonText.hex4 a b c d = some n)
      (h : Complete4 t) : Complete4 (92 :: 117 :: a :: b :: c :: d :: t)

/-! ## The two loops on such a string -/

theorem parseStringLoop_stop {t : Bytes} (h : deref t = 34 ∨ deref t = 0) (n : ℕ) :
    parseStringLoop n t = ([], t) := by
  cases n with
  | zero => rfl
  | succ n => rw [parseStringLoop, if_pos h]

theorem countLoop_stop {t : Bytes} (h : deref t = 34 ∨ deref t = 0) (n : ℕ) :
    countLoop n t = (0, t) := by
  cases n with
  | zero => rfl
  | succ n => rw [countLoop, if_pos h]

theorem countLoop_plain {b : UInt8} (hb : b ≠ 34 ∧ b ≠ 0 ∧ b ≠ 92) (n : ℕ) (t : Bytes) :
    countLoop (n + 1) (b :: t) = ((countLoop n t).1 + 1, (countLoop n t).2) := by
  rw [countLoop, if_neg (by simp [deref, hb]), if_neg (by simp [deref, hb]), List.tail_cons]

theorem countLoop_escape (e : UInt8) (n : ℕ) (t : Bytes) :
    countLoop (n + 1) (92 :: e :: t) = ((countLoop n t).1 + 1, (countLoop n t).2) := by
  rw [countLoop, if_neg (by simp [deref])]
  rfl

theorem length_transcode_le (uc : ℕ) : (transcode uc).length ≤ 4 := by
  unfold transcode
  split_ifs <;> simp

/-- A code point below `0x10000` takes three bytes at most. -/
theorem length_transcode_le_three {uc : ℕ} (h : uc < 0x10000) : (transcode uc).length ≤ 3 := by
  unfold transcode
  rw [if_pos h]
  split_ifs <;> simp

/-- Hexadecimal digits are neither quotes nor backslashes. -/
theorem hexVal_plain {b : UInt8} {v : ℕ} (h : JsonText.hexVal b = some v) :
    b ≠ 34 ∧ b ≠ 0 ∧ b ≠ 92 := by
  refine ⟨?_, ?_, ?_⟩ <;> rintro rfl <;> exact absurd h.symm (by simp [JsonText.hexVal])

/-- The first loop counts the four digits one by one. -/
theorem countLoop_hex4 {a b c d : UInt8} {n : ℕ} (h : JsonText.hex4 a b c d = some n) (m : ℕ)
    (t : Bytes) : countLoop (m + 4) (a :: b :: c :: d :: t)
      = ((countLoop m t).1 + 4, (countLoop m t).2) := by
  unfold JsonText.hex4 at h
  obtain ⟨va, ha, h⟩ := Option.bind_eq_some_iff.mp h
  obtain ⟨vb, hb, h⟩ := Option.bind_eq_some_iff.mp h
  obtain ⟨vc, hc, h⟩ := Option.bind_eq_some_iff.mp h
  obtain ⟨vd, hd, -⟩ := Option.bind_eq_some_iff.mp h
  rw [countLoop_plain (hexVal_plain ha), countLoop_plain (hexVal_plain hb),
    countLoop_plain (hexVal_plain hc), countLoop_plain (hexVal_plain hd)]

/-- Any other escape writes one byte. -/
theorem parseEscape_other {e : UInt8} (he : e ≠ 117) (t : Bytes) :
    ∃ x, parseEscape (e :: t) = ([x], e :: t) := by
  unfold parseEscape
  rw [if_neg (show ¬(deref (e :: t) = 117) from he)]
  split_ifs <;> exact ⟨_, rfl⟩

/-- **A `\u` writes at most three bytes**, or four when it is a pair. -/
theorem parseEscape_unicode_le {a b c d : UInt8} {n : ℕ} (hn : JsonText.hex4 a b c d = some n)
    (t : Bytes) : ∃ w : Bytes, (w.length ≤ 3
        ∧ parseEscape (117 :: a :: b :: c :: d :: t) = (w, d :: t))
      ∨ (w.length ≤ 4 ∧ deref t = 92 ∧ deref t.tail = 117
        ∧ parseEscape (117 :: a :: b :: c :: d :: t) = (w, (d :: t).drop 6)) := by
  have hlt := JsonText.hex4_lt hn
  show ∃ w : Bytes, (w.length ≤ 3 ∧ parseUnicode _ = _)
    ∨ (w.length ≤ 4 ∧ _ ∧ _ ∧ parseUnicode _ = _)
  have hpair : ¬(deref t ≠ 92 ∨ deref (t.drop 1) ≠ 117) → deref t = 92 ∧ deref t.tail = 117 :=
    fun h => by
      rw [not_or, not_ne_iff, not_ne_iff, List.drop_one] at h
      exact h
  unfold parseUnicode
  simp only [List.drop_succ_cons, List.drop_zero, parseHex4_of_hex4 hn]
  split_ifs with h₁ h₂ h₃ h₄
  · exact ⟨[], Or.inl ⟨Nat.zero_le _, rfl⟩⟩
  · exact ⟨[], Or.inl ⟨Nat.zero_le _, rfl⟩⟩
  · exact ⟨[], Or.inr ⟨Nat.zero_le _, (hpair h₃).1, (hpair h₃).2, rfl⟩⟩
  · exact ⟨_, Or.inr ⟨length_transcode_le _, (hpair h₃).1, (hpair h₃).2, rfl⟩⟩
  · exact ⟨_, Or.inl ⟨length_transcode_le_three hlt, rfl⟩⟩

/-- **The second loop writes no more than the first has counted**, and both
end at the quote or the terminator. -/
theorem loops_of_complete4 {k : ℕ} : ∀ {t : Bytes}, t.length ≤ k → Complete4 t →
    ∀ {n m : ℕ}, t.length ≤ n → t.length ≤ m →
    (parseStringLoop n t).1.length ≤ (countLoop m t).1
      ∧ (parseStringLoop n t).2 = (countLoop m t).2
      ∧ (deref (countLoop m t).2 = 34 ∨ deref (countLoop m t).2 = 0) := by
  induction k with
  | zero =>
    intro t hk _ n m _ _
    obtain rfl := List.length_eq_zero_iff.mp (Nat.le_zero.mp hk)
    rw [parseStringLoop_stop (Or.inr rfl), countLoop_stop (Or.inr rfl)]
    exact ⟨le_rfl, rfl, Or.inr rfl⟩
  | succ k ih =>
    intro t hk ht n m hn hm
    cases ht with
    | stop h =>
      rw [parseStringLoop_stop h, countLoop_stop h]
      exact ⟨le_rfl, rfl, h⟩
    | @plain b t hb h =>
      rw [List.length_cons] at hk hn hm
      obtain ⟨n, rfl⟩ : ∃ n', n = n' + 1 := ⟨n - 1, by omega⟩
      obtain ⟨m, rfl⟩ : ∃ m', m = m' + 1 := ⟨m - 1, by omega⟩
      obtain ⟨hlen, hend, hquote⟩ := ih (by omega) h (n := n) (m := m) (by omega) (by omega)
      rw [countLoop_plain hb, parseStringLoop, if_neg (by simp [deref, hb]),
        if_pos (by simp [deref, hb]), List.tail_cons]
      exact ⟨Nat.succ_le_succ hlen, hend, hquote⟩
    | @escape e t he h =>
      rw [List.length_cons, List.length_cons] at hk hn hm
      obtain ⟨n, rfl⟩ : ∃ n', n = n' + 1 := ⟨n - 1, by omega⟩
      obtain ⟨m, rfl⟩ : ∃ m', m = m' + 1 := ⟨m - 1, by omega⟩
      obtain ⟨hlen, hend, hquote⟩ := ih (by omega) h (n := n) (m := m) (by omega) (by omega)
      obtain ⟨x, hx⟩ := parseEscape_other he.2 t
      rw [countLoop_escape, parseStringLoop, if_neg (by simp [deref]), if_neg (by simp [deref]),
        List.tail_cons, hx]
      exact ⟨Nat.succ_le_succ hlen, hend, hquote⟩
    | @unicode a b c d v t hv h =>
      simp only [List.length_cons] at hk hn hm
      obtain ⟨n, rfl⟩ : ∃ n', n = n' + 1 := ⟨n - 1, by omega⟩
      obtain ⟨m, rfl⟩ : ∃ m', m = m' + 4 + 1 := ⟨m - 5, by omega⟩
      obtain ⟨w, ⟨hw, hesc⟩ | ⟨hw, hbackslash, hletter, hesc⟩⟩ := parseEscape_unicode_le hv t
      · obtain ⟨hlen, hend, hquote⟩ := ih (by omega) h (n := n) (m := m) (by omega) (by omega)
        rw [countLoop_escape, countLoop_hex4 hv, parseStringLoop, if_neg (by simp [deref]),
          if_neg (by simp [deref]), List.tail_cons, hesc]
        refine ⟨?_, hend, hquote⟩
        rw [List.length_append]
        exact (Nat.add_le_add hw hlen).trans (by omega)
      · -- the second half of the pair is complete as well
        cases h with
        | stop h => exact absurd hbackslash (by rcases h with h | h <;> rw [h] <;> decide)
        | plain hb h => exact absurd hbackslash hb.2.2
        | escape he h => exact absurd hletter he.2
        | @unicode a' b' c' d' v' t hv' h =>
          simp only [List.length_cons] at hk hn hm
          obtain ⟨m, rfl⟩ : ∃ m', m = m' + 4 + 1 := ⟨m - 5, by omega⟩
          obtain ⟨hlen, hend, hquote⟩ := ih (by omega) h (n := n) (m := m) (by omega) (by omega)
          rw [countLoop_escape, countLoop_hex4 hv, countLoop_escape, countLoop_hex4 hv',
            parseStringLoop, if_neg (by simp [deref]), if_neg (by simp [deref]), List.tail_cons,
            hesc]
          refine ⟨?_, hend, hquote⟩
          rw [List.length_append]
          exact (Nat.add_le_add hw hlen).trans (by omega)

/-- **A string whose escapes are complete stays in its block**, and neither
loop leaves the text. -/
theorem parseString_fits {t : Bytes} (h : Complete4 t) :
    bytesWritten (34 :: t) ≤ blockSize (34 :: t)
      ∧ (parseStringLoop (t.length + 1) t).2 = (countLoop (t.length + 1) t).2
      ∧ (deref (countLoop (t.length + 1) t).2 = 34 ∨ deref (countLoop (t.length + 1) t).2 = 0) := by
  obtain ⟨hlen, hend⟩ := loops_of_complete4 le_rfl h (Nat.le_succ _) (Nat.le_succ _)
  exact ⟨Nat.succ_le_succ hlen, hend⟩

/-- A line feed and an escaped letter are two bytes, and the terminator. -/
theorem parseString_fits_escapes :
    bytesWritten (lit "\"\\n\\u0041\"") ≤ blockSize (lit "\"\\n\\u0041\"")
    ∧ (parseStringLoop 10 (lit "\\n\\u0041\"")).2 = (countLoop 10 (lit "\\n\\u0041\"")).2
    ∧ (deref (countLoop 10 (lit "\\n\\u0041\"")).2 = 34
      ∨ deref (countLoop 10 (lit "\\n\\u0041\"")).2 = 0) :=
  parseString_fits (.escape (by decide) (.unicode (n := 0x41) rfl (.stop (Or.inl rfl))))

/-- **The escapes of a string of the grammar are complete.** -/
theorem complete4_of_strBody {t s r : Bytes} (h : JsonText.StrBody t s r) : Complete4 t := by
  induction h with
  | close r => exact .stop (Or.inl rfl)
  | @plain b t s r hb _ ih =>
    refine .plain ⟨?_, ?_, ?_⟩ ih <;> rintro rfl <;> exact absurd hb (by decide)
  | @escape e b t s r he _ ih =>
    refine .escape ⟨?_, ?_⟩ ih <;> rintro rfl <;> cases he
  | unicode hc _ ih => exact .unicode hc ih
  | pair hhi hlo _ _ _ _ _ _ ih => exact .unicode hhi (.unicode hlo ih)

/-! ## A string that does not stay in its block -/

/-- A `\u` before the closing quote, and what the second loop finds when it
has jumped. -/
def jumpText (n : ℕ) : Bytes := lit "\"\\u\"xyz" ++ (List.replicate n 97 ++ [34])

theorem jumpText_eq (n : ℕ) : jumpText n
    = 34 :: 92 :: 117 :: 34 :: 120 :: 121 :: 122 :: (List.replicate n 97 ++ [34]) := rfl

theorem length_jumpText (n : ℕ) : (jumpText n).length = n + 7 + 1 := by
  simp [jumpText_eq]

theorem parseStringLoop_replicate (n m : ℕ) (hm : n < m) (t : Bytes) :
    parseStringLoop m (List.replicate n 97 ++ 34 :: t) = (List.replicate n 97, 34 :: t) := by
  induction n generalizing m with
  | zero => exact parseStringLoop_stop (Or.inl rfl) m
  | succ n ih =>
    obtain ⟨m, rfl⟩ : ∃ m', m = m' + 1 := ⟨m - 1, by omega⟩
    rw [List.replicate_succ, List.cons_append, parseStringLoop, if_neg (by simp [deref]),
      if_pos (by simp [deref]), List.tail_cons, ih m (by omega)]
    rfl

/-- **No bound holds for any other string**: of this text, the block has two
bytes, and any number is written. -/
theorem parseString_overflows (n : ℕ) : (0 : UInt8) ∉ jumpText n
    ∧ blockSize (jumpText n) = 2 ∧ bytesWritten (jumpText n) = n + 1 := by
  refine ⟨?_, ?_, ?_⟩
  · intro h
    rcases List.mem_append.mp h with h | h
    · exact absurd h (by decide)
    · rcases List.mem_append.mp h with h | h
      · exact absurd (List.eq_of_mem_replicate h) (by decide)
      · exact absurd (List.mem_singleton.mp h) (by decide)
  · rw [blockSize, length_jumpText, jumpText_eq, List.tail_cons, countLoop_escape,
      countLoop_stop (Or.inl rfl)]
  · have hjump : parseEscape (117 :: 34 :: 120 :: 121 :: 122 :: (List.replicate n 97 ++ [34]))
        = ([], 122 :: (List.replicate n 97 ++ [34])) := rfl
    rw [bytesWritten, length_jumpText, jumpText_eq, List.tail_cons, parseStringLoop,
      if_neg (by simp [deref]), if_neg (by simp [deref]), List.tail_cons, hjump]
    simp only [List.tail_cons, parseStringLoop_replicate n (n + 7) (by omega), List.nil_append,
      List.length_replicate]

end CJSON
