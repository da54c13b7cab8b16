import WolServer.CJSONPrint
import WolServer.CJSONFront

/-!
# Printed texts that are cut

What the parser makes of the front of a printed text. A cut array or object is
refused (`CJSON.parse_cut`), and so is a cut literal. A cut number is another
number, and a cut string another string – with one exception: `parse_string`
closes a string at the end of the text by itself, so a string without its
closing quote is read as it was.

`CJSON.parse_take` puts this together: the front of a printed text is read as
the tree exactly when nothing of the text is missing, or nothing but the
closing quote of a string.
-/

namespace CJSON

/-! ## Strings -/

/-- The loop of `parse_string` reads what is written for a character. -/
theorem parseStringLoop_escape {b : UInt8} (hb : b ≠ 0) (n : ℕ) (t : Bytes) :
    parseStringLoop (n + 1) (escape b ++ t)
      = (b :: (parseStringLoop n t).1, (parseStringLoop n t).2) := by
  rcases escape_cases b with ⟨he, hplain⟩ | ⟨e, he, hsimple⟩ | ⟨hlow, he⟩
  · have hne : b ≠ 34 ∧ b ≠ 92 := by
      constructor <;> rintro rfl <;> exact absurd hplain (by decide)
    rw [he, List.singleton_append, parseStringLoop, deref_cons,
      if_neg (not_or.mpr ⟨hne.1, hb⟩), if_pos hne.2]
    rfl
  · rw [he, List.cons_append, parseStringLoop, deref_cons, if_neg (by decide), if_neg (by decide),
      List.tail_cons, List.singleton_append, (parseEscape_simple hsimple t).1]
    rfl
  · obtain ⟨hnat, hutf⟩ := utf8EncodeChar_of_lt b.toNat hlow
    have hdrop : dropNul (String.utf8EncodeChar (Char.ofNat b.toNat)) = [b] := by
      rw [hutf, Nat.toUInt8, UInt8.ofNat_toNat, dropNul_eq_self (by simpa using hb.symm)]
    have hesc := parseEscape_unicode
      ((hex4_hexDigit b.toNat hlow).trans (congrArg some hnat.symm)) t
    rw [hdrop] at hesc
    rw [he, List.cons_append, parseStringLoop, deref_cons, if_neg (by decide), if_neg (by decide),
      List.tail_cons]
    simp only [List.cons_append, List.nil_append]
    rw [hesc]
    rfl

/-- Of a part of what is written for a character, nothing is read. -/
theorem cstr_parseStringLoop_take (b : UInt8) {k : ℕ} (hk : k < (escape b).length) (n : ℕ) :
    cstr (parseStringLoop n ((escape b).take k)).1 = [] := by
  cases n with
  | zero => rfl
  | succ n =>
    have hnil : ∀ m, (parseStringLoop m []).1 = [] := fun m => by cases m <;> rfl
    rcases escape_cases b with ⟨he, -⟩ | ⟨e, he, -⟩ | ⟨-, he⟩ <;> rw [he] at hk ⊢ <;>
      simp only [List.length_cons, List.length_nil] at hk
    · obtain rfl : k = 0 := by omega
      rfl
    · interval_cases k
      · rfl
      · rfl
    · interval_cases k <;>
        simp [parseStringLoop, parseEscape, parseUnicode, parseHex4, JsonText.hex4,
          JsonText.hexVal, hnil, cstr]

/-- An escaped string that the text does not close is read to its end. -/
theorem parseStringLoop_unclosed {s : Bytes} (hs : (0 : UInt8) ∉ s) {n : ℕ}
    (hn : (s.flatMap escape).length ≤ n) : parseStringLoop n (s.flatMap escape) = (s, []) := by
  induction s generalizing n with
  | nil => cases n <;> rfl
  | cons b s ih =>
    obtain ⟨hb, hs⟩ := not_or.mp (mt List.mem_cons.mpr hs)
    have hpos : 0 < (escape b).length := by
      rcases escape_cases b with ⟨he, -⟩ | ⟨e, he, -⟩ | ⟨-, he⟩ <;> rw [he] <;> simp
    rw [List.flatMap_cons, List.length_append] at hn
    obtain ⟨n, rfl⟩ : ∃ m, n = m + 1 := ⟨n - 1, by omega⟩
    rw [List.flatMap_cons, parseStringLoop_escape (Ne.symm hb), ih hs (by omega)]

/-- **An escaped string that is cut is read as a shorter one.** -/
theorem length_parseStringLoop_take {s : Bytes} (hs : (0 : UInt8) ∉ s) {k : ℕ}
    (hk : k < (s.flatMap escape).length) (n : ℕ) :
    (cstr (parseStringLoop n ((s.flatMap escape).take k)).1).length < s.length := by
  induction s generalizing k n with
  | nil => exact absurd hk (Nat.not_lt_zero k)
  | cons b s ih =>
    obtain ⟨hb, hs⟩ := not_or.mp (mt List.mem_cons.mpr hs)
    rw [List.flatMap_cons, List.length_append] at hk
    rw [List.flatMap_cons, List.length_cons]
    rcases Nat.lt_or_ge k (escape b).length with hcut | hpast
    · -- the cut goes through what is written for the first character
      rw [List.take_append_of_le_length hcut.le, cstr_parseStringLoop_take b hcut]
      exact Nat.succ_pos _
    · cases n with
      | zero => exact Nat.succ_pos _
      | succ n =>
        have hrest := ih hs (k := k - (escape b).length) (by omega) n
        have hcons : cstr (b :: (parseStringLoop n ((s.flatMap escape).take
            (k - (escape b).length))).1) = b :: cstr (parseStringLoop n ((s.flatMap escape).take
            (k - (escape b).length))).1 :=
          List.takeWhile_cons_of_pos (decide_eq_true (Ne.symm hb))
        rw [List.take_append, List.take_of_length_le hpast, parseStringLoop_escape (Ne.symm hb)]
        dsimp only
        rw [hcons, List.length_cons]
        exact Nat.succ_lt_succ hrest

/-- What the parser makes of a text that starts with a quote. -/
theorem parse_quote (t : Bytes) : parse (34 :: t) = some { newItem with
    type := .string
    valuestring := some (cstr (parseStringLoop (t.length + 1) t).1) } := by
  have hfuel : 2 * (34 :: t).length = 2 * t.length + 1 + 1 := by
    rw [List.length_cons]
    omega
  rw [parse, parseWithOpts_false, skip_cons (by decide), hfuel, parseValue_string, parseString,
    if_neg (by simp [deref])]
  rfl

/-! ## Numbers -/

/-- The front of a numeral is the numeral of a smaller number. -/
theorem take_decimal {n k : ℕ} (hpos : 0 < k) (hk : k < (decimal n).length) :
    ∃ m < n, (decimal n).take k = decimal m := by
  induction n using Nat.strongRecOn with
  | ind n ih =>
    rcases Nat.lt_or_ge n 10 with h10 | h10
    · rw [decimal_lt_ten h10, List.length_singleton] at hk
      omega
    · have htens : n / 10 < n := Nat.div_lt_self (by omega) (by decide)
      rw [decimal_of_ten_le h10, List.length_append, List.length_singleton] at hk
      rw [decimal_of_ten_le h10, List.take_append_of_le_length (Nat.le_of_lt_succ hk)]
      rcases Nat.lt_or_ge k (decimal (n / 10)).length with hlt | hge
      · obtain ⟨m, hm, htake⟩ := ih (n / 10) htens hlt
        exact ⟨m, hm.trans htens, htake⟩
      · exact ⟨n / 10, htens, List.take_of_length_le hge⟩

/-- A number that is read alone. -/
theorem parse_sign_decimal (neg : Bool) (m : ℕ) :
    parse ((if neg then [45] else []) ++ decimal m)
      = some (ofJson (.num ((if neg then -1 else 1) * (m : ℤ)) 0)) := by
  have h := JsonText.Derives.num (numeral_sign_decimal neg m) (r := []) (fun _ h => by cases h)
  rw [List.append_nil] at h
  exact parse_of_derives h

/-- **A printed integer that is cut is read as another integer.** -/
theorem valueint_parse_take {n : ℤ} {k : ℕ} (hk : k < (signedDecimal n).length) {c : CJSON}
    (h : parse ((signedDecimal n).take k) = some c) : c.valueint ≠ n := by
  unfold signedDecimal at hk h
  by_cases hn : n < 0
  · rw [if_pos hn] at hk h
    rcases k with _ | _ | k
    · cases h
    · -- nothing but the sign
      have hsign : (parse [45]).map (·.valueint) = some 0 := by decide
      have hzero : some c.valueint = some 0 := by
        rw [← hsign]
        exact (congrArg (Option.map (·.valueint)) h).symm
      have := Option.some.inj hzero
      omega
    · rw [List.singleton_append, List.length_cons] at hk
      obtain ⟨m, hm, htake⟩ := take_decimal (Nat.succ_pos k) (Nat.lt_of_succ_lt_succ hk)
      rw [List.singleton_append, List.take_succ_cons, htake] at h
      have hparse := parse_sign_decimal true m
      rw [if_pos rfl, List.singleton_append, h] at hparse
      rw [Option.some.inj hparse, ofJson_num_valueint, if_pos rfl]
      omega
  · rw [if_neg hn, List.nil_append] at hk h
    rcases Nat.eq_zero_or_pos k with rfl | hpos
    · cases h
    · obtain ⟨m, hm, htake⟩ := take_decimal hpos hk
      have hparse := parse_sign_decimal false m
      rw [htake] at h
      rw [if_neg Bool.false_ne_true, List.nil_append, h] at hparse
      rw [Option.some.inj hparse, ofJson_num_valueint, if_neg Bool.false_ne_true]
      omega

/-! ## Printed texts -/

/-- Of a text, the first `k` bytes are there: nothing is missing, or nothing
but the closing quote of a string. -/
def Complete (c : CJSON) (text : Bytes) (k : ℕ) : Prop :=
  text.length ≤ k + if c.type = .string then 1 else 0

/-- What is printed for a leaf is not read as the leaf when it is cut. -/
theorem LeafText.not_same_take {c d : CJSON} {text : Bytes} {k : ℕ} (h : LeafText c text)
    (hk : ¬ Complete c text k) (hd : parse (text.take k) = some d) : ¬ Same c d := by
  unfold Complete at hk
  cases h with
  | null h | true_ h =>
    rw [h, if_neg (by decide)] at hk
    have hk : k < 4 := Nat.lt_of_not_le hk
    interval_cases k <;> cases hd
  | false_ h =>
    rw [h, if_neg (by decide)] at hk
    have hk : k < 5 := Nat.lt_of_not_le hk
    interval_cases k <;> cases hd
  | @number n h hn =>
    rw [h, if_neg (by decide)] at hk
    rintro ⟨-, -, hnumber, -, -⟩
    exact valueint_parse_take (Nat.lt_of_not_le hk) hd ((hnumber h).1.symm.trans hn.2.2.1)
  | @string s h hs hnul =>
    rw [if_pos h, List.length_cons, List.length_append, List.length_singleton] at hk
    rintro ⟨-, htext, -, -, -⟩
    cases k with
    | zero => cases hd
    | succ k =>
      have hshort : k < (s.flatMap escape).length := by omega
      rw [List.take_succ_cons, List.take_append_of_le_length hshort.le] at hd
      rw [parse_quote] at hd
      have hread := htext h
      rw [hs, ← Option.some.inj hd] at hread
      have hlen := length_parseStringLoop_take hnul hshort
        (((s.flatMap escape).take k).length + 1)
      rw [← Option.some.inj hread] at hlen
      exact lt_irrefl _ hlen

/-- **A leaf that is cut is read as itself** when nothing but the closing quote
of a string is missing. -/
theorem LeafText.same_take {c : CJSON} {text : Bytes} {k : ℕ} (hb : Built c)
    (h : LeafText c text) (hk : Complete c text k) (hshort : k < text.length) :
    ∃ d, parse (text.take k) = some d ∧ Same c d := by
  have hchild := h.child_eq_nil hb
  unfold Complete at hk
  cases h with
  | null ht | false_ ht | true_ ht | number ht =>
    rw [ht, if_neg (by decide)] at hk
    exact absurd hshort (Nat.not_lt.mpr hk)
  | @string s ht hs hnul =>
    rw [if_pos ht] at hk
    rw [List.length_cons, List.length_append, List.length_singleton] at hk hshort
    obtain rfl : k = (s.flatMap escape).length + 1 := by omega
    rw [List.take_succ_cons, List.take_left, parse_quote,
      parseStringLoop_unclosed hnul (Nat.le_succ _)]
    refine ⟨_, rfl, .mk ht (fun _ => ?_) (fun hn => ?_) ?_ ?_⟩
    · rw [hs, cstr_eq_self hnul]
    · rw [ht] at hn
      cases hn
    · rw [hchild]
      rfl
    · rw [hchild]
      exact .nil

/-- **An array or an object that is cut is refused.** -/
theorem parse_take_bracket {text : Bytes} {v : Json} {k : ℕ}
    (hderives : JsonText.Derives text (.value v) [])
    (hopen : deref text = 91 ∨ deref text = 123) (hshort : k < text.length) :
    parse (text.take k) = none := by
  rw [← List.take_append_drop k text] at hderives
  exact parse_cut hderives (by rwa [List.take_append_drop])
    (List.drop_eq_nil_iff.not.mpr (Nat.not_le.mpr hshort))

/-- Behind a number, a line feed is as good as the end. -/
theorem numEnd_take_newline (k : ℕ) : JsonText.NumEnd (List.take k [10]) := by
  cases k with
  | zero => exact fun _ h => by cases h
  | succ k =>
    rintro b hb
    obtain rfl : 10 = b := Option.some.inj hb
    decide

/-- **The front of a printed text is read as the tree exactly when it is
complete.** The line feed behind the text does not matter. -/
theorem parse_take {sprintf : Decimal → Bytes} {c : CJSON} (hb : Built c) (hi : Integral c)
    {fmt : Bool} {heap : Heap} {text : Bytes} (h : print sprintf c fmt heap = some text) (k : ℕ) :
    (∃ d, parse ((text ++ [10]).take k) = some d ∧ Same c d) ↔ Complete c text k := by
  obtain ⟨v, hv, hsame⟩ := print_prints hb hi h
  obtain ⟨⟨text', heap'⟩, hprint, rfl⟩ := Option.map_eq_some_iff.mp h
  have hcases := printValue_cases hb hi hprint
  dsimp only at *
  rcases Nat.lt_or_ge k text'.length with hshort | hlong
  · rw [List.take_append_of_le_length hshort.le]
    rcases hcases with hleaf | hbracket
    · constructor
      · rintro ⟨d, hd, hcd⟩
        by_contra hk
        exact hleaf.not_same_take hk hd hcd
      · exact fun hk => hleaf.same_take hb hk hshort
    · have hderives := hv [] (fun _ h => by cases h)
      rw [List.append_nil] at hderives
      have hnone := parse_take_bracket hderives (hbracket.imp And.right And.right) hshort
      have hstring : c.type ≠ .string := by
        rcases hbracket with ⟨ht, -⟩ | ⟨ht, -⟩
        · rw [ht]
          decide
        · rw [ht]
          decide
      rw [hnone, Complete, if_neg hstring]
      refine iff_of_false ?_ (Nat.not_le.mpr hshort)
      rintro ⟨d, hd, -⟩
      cases hd
  · have hcomplete : Complete c text' k := hlong.trans (Nat.le_add_right _ _)
    have hrest := numEnd_take_newline (k - text'.length)
    rw [List.take_append, List.take_of_length_le hlong]
    exact iff_of_true ⟨ofJson v, parse_of_derives (hv _ hrest), hsame⟩ hcomplete

end CJSON
