import WolServer.CJSON

/-!
# The steps of the parser

What one call of a parse function does: the equations of `parse_value` by
the first byte of the text (`CJSON.parseValue_head` says that there are no
others), and what a successful run of the loops of `parse_array` and
`parse_object` went through. The later modules reason with these and do not
unfold the parser again.

Two facts about every call follow. What is left is the end of the text
(`CJSON.parseValue_suffix`), so the recursion works on shorter and shorter
texts – and the fuel of the model never runs out
(`CJSON.parseValue_fuel`): the parser of the model refuses a text only where
the source does.
-/

namespace CJSON

/-! ## Equations -/

/-- `skip` stops at a printing character. -/
theorem skip_cons {b : UInt8} (hb : 32 < b) (t : Bytes) : skip (b :: t) = b :: t :=
  List.dropWhile_cons_of_neg (by simpa using fun _ => hb)

theorem skip_skip (t : Bytes) : skip (skip t) = skip t := List.dropWhile_idempotent _ _

/-- The loops of `parse_array` and `parse_object` skip white space first, so
white space skipped before them changes nothing. -/
theorem parseElements_skip (n : ℕ) (t : Bytes) : parseElements n (skip t) = parseElements n t := by
  cases n with
  | zero => rfl
  | succ n => rw [parseElements, parseElements, skip_skip]

theorem parseMembers_skip (n : ℕ) (t : Bytes) : parseMembers n (skip t) = parseMembers n t := by
  cases n with
  | zero => rfl
  | succ n => rw [parseMembers, parseMembers, skip_skip]

theorem parseValue_nil (n : ℕ) : parseValue n [] = none := by
  cases n <;> rfl

theorem parseElements_nil (n : ℕ) : parseElements n [] = none := by
  cases n with
  | zero => rfl
  | succ n => rw [parseElements, show skip [] = [] from rfl, parseValue_nil]

theorem parseMembers_nil (n : ℕ) : parseMembers n [] = none := by
  cases n <;> rfl

/-- A literal is no prefix of a text that starts with another letter. -/
theorem literal_ne (l : Bytes) {b : UInt8} (t : Bytes) (hl : l ≠ []) (h : deref l ≠ b) :
    ¬ l.isPrefixOf (b :: t) = true := by
  obtain ⟨c, cs, rfl⟩ := List.exists_cons_of_ne_nil hl
  rw [deref_cons] at h
  simp [List.isPrefixOf, h]

/-- The node of a number is parsed from its text. -/
theorem parseValue_number (n : ℕ) {b : UInt8} {t : Bytes} (hb : b = 45 ∨ (48 ≤ b ∧ b ≤ 57)) :
    parseValue (n + 1) (b :: t) =
      let r := parseNumber (b :: t)
      some ({ newItem with type := .number, valuedouble := r.1, valueint := r.1.toInt }, r.2) := by
  have hne : b ≠ 110 ∧ b ≠ 102 ∧ b ≠ 116 ∧ b ≠ 34 := by
    refine ⟨?_, ?_, ?_, ?_⟩ <;> rintro rfl <;> exact absurd hb (by decide)
  obtain ⟨hn, hf, ht, hq⟩ := hne
  rw [parseValue, if_neg (literal_ne (lit "null") t (by decide) hn.symm),
    if_neg (literal_ne (lit "false") t (by decide) hf.symm),
    if_neg (literal_ne (lit "true") t (by decide) ht.symm), deref_cons, if_neg hq, if_pos hb]

theorem parseValue_string (n : ℕ) (t : Bytes) :
    parseValue (n + 1) (34 :: t) = (parseString (34 :: t)).map
      (fun r => ({ newItem with type := .string, valuestring := some r.1 }, r.2)) := rfl

theorem parseValue_array (n : ℕ) (t : Bytes) :
    parseValue (n + 1) (91 :: t) =
      if deref (skip t) = 93 then some ({ newItem with type := .array }, (skip t).tail)
      else (parseElements n t).map
        (fun r => ({ newItem with type := .array, child := r.1 }, r.2)) := by
  rw [← parseElements_skip]
  rfl

theorem parseValue_object (n : ℕ) (t : Bytes) :
    parseValue (n + 1) (123 :: t) =
      if deref (skip t) = 125 then some ({ newItem with type := .object }, (skip t).tail)
      else (parseMembers n t).map
        (fun r => ({ newItem with type := .object, child := r.1 }, r.2)) := by
  rw [← parseMembers_skip]
  rfl

theorem parseValue_null (n : ℕ) (t : Bytes) :
    parseValue (n + 1) (110 :: t) =
      if (lit "null").isPrefixOf (110 :: t)
      then some ({ newItem with type := .null }, (110 :: t).drop 4) else none := rfl

theorem parseValue_false (n : ℕ) (t : Bytes) :
    parseValue (n + 1) (102 :: t) =
      if (lit "false").isPrefixOf (102 :: t)
      then some ({ newItem with type := .false_ }, (102 :: t).drop 5) else none := rfl

theorem parseValue_true (n : ℕ) (t : Bytes) :
    parseValue (n + 1) (116 :: t) =
      if (lit "true").isPrefixOf (116 :: t)
      then some ({ newItem with type := .true_, valueint := 1 }, (116 :: t).drop 4)
      else none := rfl

/-- The first byte of a value that is parsed says which kind of value it is. -/
theorem parseValue_head {n : ℕ} {b : UInt8} {t : Bytes} {y : CJSON × Bytes}
    (h : parseValue (n + 1) (b :: t) = some y) :
    b = 110 ∨ b = 102 ∨ b = 116 ∨ b = 34 ∨ (b = 45 ∨ (48 ≤ b ∧ b ≤ 57)) ∨ b = 91
      ∨ b = 123 := by
  by_contra hne
  simp only [not_or] at hne
  obtain ⟨hn, hf, ht, hq, hd, ha, ho⟩ := hne
  rw [parseValue, if_neg (literal_ne (lit "null") t (by decide) (Ne.symm hn)),
    if_neg (literal_ne (lit "false") t (by decide) (Ne.symm hf)),
    if_neg (literal_ne (lit "true") t (by decide) (Ne.symm ht)), deref_cons, if_neg hq,
    if_neg (not_or.mpr hd), if_neg ha, if_neg ho] at h
  exact absurd h (by simp)

theorem parseWithOpts_false (t : Bytes) :
    parseWithOpts t false = parseValue (2 * t.length) (skip t) := by
  rw [parseWithOpts]
  split
  · rename_i h
    exact h.symm
  · rename_i h
    rw [h, if_neg (fun h => Bool.false_ne_true h.1)]

/-! ## What a successful run went through -/

/-- What a successful run of the loop of `parse_array` did first. -/
theorem parseElements_cases {n : ℕ} {t r : Bytes} {cs : List CJSON}
    (h : parseElements (n + 1) t = some (cs, r)) :
    ∃ item v, parseValue n (skip t) = some (item, v) ∧
      ((deref (skip v) = 44 ∧ ∃ cs', parseElements n (skip v).tail = some (cs', r)
          ∧ cs = item :: cs')
        ∨ (deref (skip v) = 93 ∧ cs = [item] ∧ r = (skip v).tail)) := by
  rw [parseElements] at h
  split at h
  · exact absurd h (by simp)
  rename_i item v hval
  refine ⟨item, v, hval, ?_⟩
  dsimp only at h
  split at h
  · rename_i hcomma
    obtain ⟨y, hy, hcs⟩ := Option.map_eq_some_iff.mp h
    obtain ⟨rfl, rfl⟩ := Prod.mk.inj hcs
    exact Or.inl ⟨hcomma, y.1, hy, rfl⟩
  split at h
  · rename_i hclose
    injection h with h
    obtain ⟨rfl, rfl⟩ := Prod.mk.inj h
    exact Or.inr ⟨hclose, rfl, rfl⟩
  · exact absurd h (by simp)

/-- What a successful run of the loop of `parse_object` did first. -/
theorem parseMembers_cases {n : ℕ} {t r : Bytes} {cs : List CJSON}
    (h : parseMembers (n + 1) t = some (cs, r)) :
    ∃ name w item v, parseString (skip t) = some (name, w) ∧ deref (skip w) = 58 ∧
      parseValue n (skip (skip w).tail) = some (item, v) ∧
      ((deref (skip v) = 44 ∧ ∃ cs', parseMembers n (skip v).tail = some (cs', r)
          ∧ cs = { item with string := some name } :: cs')
        ∨ (deref (skip v) = 125 ∧ cs = [{ item with string := some name }]
          ∧ r = (skip v).tail)) := by
  rw [parseMembers] at h
  split at h
  · exact absurd h (by simp)
  rename_i name w hname
  dsimp only at h
  split at h
  · exact absurd h (by simp)
  rename_i hcolon
  split at h
  · exact absurd h (by simp)
  rename_i item v hval
  refine ⟨name, w, item, v, hname, not_not.mp hcolon, hval, ?_⟩
  split at h
  · rename_i hcomma
    obtain ⟨y, hy, hcs⟩ := Option.map_eq_some_iff.mp h
    obtain ⟨rfl, rfl⟩ := Prod.mk.inj hcs
    exact Or.inl ⟨hcomma, y.1, hy, rfl⟩
  split at h
  · rename_i hclose
    injection h with h
    obtain ⟨rfl, rfl⟩ := Prod.mk.inj h
    exact Or.inr ⟨hclose, rfl, rfl⟩
  · exact absurd h (by simp)

/-! ## What is left of the text -/

theorem skip_suffix (u : Bytes) : skip u <:+ u := List.dropWhile_suffix _

theorem parseUnicode_suffix (u : Bytes) : (parseUnicode u).2 <:+ u := by
  unfold parseUnicode
  dsimp only
  split
  · exact List.drop_suffix _ _
  split
  · split
    · exact List.drop_suffix _ _
    have hpair : (u.drop 4).drop 6 <:+ u := (List.drop_suffix _ _).trans (List.drop_suffix _ _)
    split <;> exact hpair
  · exact List.drop_suffix _ _

theorem parseEscape_suffix (u : Bytes) : (parseEscape u).2 <:+ u := by
  unfold parseEscape
  split_ifs
  all_goals first
    | exact List.suffix_rfl
    | exact parseUnicode_suffix u

theorem parseStringLoop_suffix (fuel : ℕ) (u : Bytes) : (parseStringLoop fuel u).2 <:+ u := by
  induction fuel generalizing u with
  | zero => exact List.suffix_rfl
  | succ fuel ih =>
    unfold parseStringLoop
    split
    · exact List.suffix_rfl
    split
    · exact (ih _).trans (List.tail_suffix u)
    · exact (ih _).trans ((List.tail_suffix _).trans
        ((parseEscape_suffix _).trans (List.tail_suffix u)))

theorem parseString_suffix {u p s : Bytes} (h : parseString u = some (s, p)) : p <:+ u := by
  unfold parseString at h
  split at h
  · exact absurd h (by simp)
  injection h with h
  obtain ⟨-, rfl⟩ := Prod.mk.inj h
  have hloop := (parseStringLoop_suffix u.length u.tail).trans (List.tail_suffix u)
  split
  · exact (List.tail_suffix _).trans hloop
  · exact hloop

/-- The pointer after a number is the one after its exponent. -/
theorem parseNumber_snd (u : Bytes) : (parseNumber u).2
    = (parseExponent (parseFraction (parseInteger (parseSign u).2).2).2).2 := by
  rw [parseNumber]

theorem parseNumber_suffix (u : Bytes) : (parseNumber u).2 <:+ u := by
  have hspan : ∀ u, (digitSpan u).2 <:+ u := fun u => by
    rw [digitSpan, List.span_eq_takeWhile_dropWhile]
    exact List.dropWhile_suffix _
  have hsign : ∀ u, (parseSign u).2 <:+ u := fun u => by
    unfold parseSign
    split
    exacts [List.tail_suffix u, List.suffix_rfl]
  have hint : ∀ u, (parseInteger u).2 <:+ u := fun u => by
    have hzero : (if deref u = 48 then u.tail else u) <:+ u := by
      split
      exacts [List.tail_suffix u, List.suffix_rfl]
    unfold parseInteger
    generalize (if deref u = 48 then u.tail else u) = v at hzero ⊢
    dsimp only
    split
    · exact (hspan _).trans hzero
    · exact hzero
  have hfrac : ∀ u, (parseFraction u).2 <:+ u := fun u => by
    unfold parseFraction
    split
    · exact (hspan _).trans (List.tail_suffix u)
    · exact List.suffix_rfl
  have hexp : ∀ u, (parseExponent u).2 <:+ u := fun u => by
    unfold parseExponent
    split
    · refine (hspan _).trans (List.IsSuffix.trans ?_ (List.tail_suffix u))
      split
      · exact List.tail_suffix _
      split
      exacts [List.tail_suffix _, List.suffix_rfl]
    · exact List.suffix_rfl
  rw [parseNumber_snd]
  exact (hexp _).trans ((hfrac _).trans ((hint _).trans (hsign u)))

/-- What a successful `parse_value` was: a node with no children, or the
loop of `parse_array` or of `parse_object`. -/
theorem parseValue_cases {n : ℕ} {b : UInt8} {t p : Bytes} {c : CJSON}
    (h : parseValue (n + 1) (b :: t) = some (c, p)) :
    (c.string = none ∧ c.child = [] ∧ p <:+ b :: t)
      ∨ (b = 91 ∧ ∃ cs, parseElements n t = some (cs, p)
          ∧ c = { newItem with type := .array, child := cs })
      ∨ (b = 123 ∧ ∃ cs, parseMembers n t = some (cs, p)
          ∧ c = { newItem with type := .object, child := cs }) := by
  have hlit : ∀ {l : Bytes} {c₀ : CJSON}, c₀.string = none → c₀.child = [] →
      (if l.isPrefixOf (b :: t) then some (c₀, (b :: t).drop l.length) else none)
        = some (c, p) → c.string = none ∧ c.child = [] ∧ p <:+ b :: t := fun h₁ h₂ h => by
    split at h
    · injection h with h
      obtain ⟨rfl, rfl⟩ := Prod.mk.inj h
      exact ⟨h₁, h₂, List.drop_suffix _ _⟩
    · exact absurd h (by simp)
  have hempty : (skip t).tail <:+ b :: t :=
    (List.tail_suffix _).trans ((skip_suffix t).trans (List.suffix_cons b t))
  rcases parseValue_head h with rfl | rfl | rfl | rfl | hd | rfl | rfl
  · exact Or.inl (hlit rfl rfl (parseValue_null n t ▸ h))
  · exact Or.inl (hlit rfl rfl (parseValue_false n t ▸ h))
  · exact Or.inl (hlit rfl rfl (parseValue_true n t ▸ h))
  · rw [parseValue_string] at h
    obtain ⟨y, hy, hc⟩ := Option.map_eq_some_iff.mp h
    obtain ⟨rfl, rfl⟩ := Prod.mk.inj hc
    exact Or.inl ⟨rfl, rfl, parseString_suffix hy⟩
  · rw [parseValue_number n hd] at h
    injection h with h
    obtain ⟨rfl, rfl⟩ := Prod.mk.inj h
    exact Or.inl ⟨rfl, rfl, parseNumber_suffix _⟩
  · rw [parseValue_array] at h
    split at h
    · injection h with h
      obtain ⟨rfl, rfl⟩ := Prod.mk.inj h
      exact Or.inl ⟨rfl, rfl, hempty⟩
    · obtain ⟨y, hy, hc⟩ := Option.map_eq_some_iff.mp h
      obtain ⟨rfl, rfl⟩ := Prod.mk.inj hc
      exact Or.inr (Or.inl ⟨rfl, y.1, hy, rfl⟩)
  · rw [parseValue_object] at h
    split at h
    · injection h with h
      obtain ⟨rfl, rfl⟩ := Prod.mk.inj h
      exact Or.inl ⟨rfl, rfl, hempty⟩
    · obtain ⟨y, hy, hc⟩ := Option.map_eq_some_iff.mp h
      obtain ⟨rfl, rfl⟩ := Prod.mk.inj hc
      exact Or.inr (Or.inr ⟨rfl, y.1, hy, rfl⟩)

/-- **What is left after a parse is the end of the text.** -/
theorem parse_suffix (n : ℕ) :
    (∀ {u p : Bytes} {c : CJSON}, parseValue n u = some (c, p) → p <:+ u)
      ∧ (∀ {u p : Bytes} {cs : List CJSON}, parseElements n u = some (cs, p) → p <:+ u)
      ∧ (∀ {u p : Bytes} {cs : List CJSON}, parseMembers n u = some (cs, p) → p <:+ u) := by
  induction n with
  | zero => refine ⟨fun h => ?_, fun h => ?_, fun h => ?_⟩ <;> cases h
  | succ n ih =>
    obtain ⟨ihv, ihe, ihm⟩ := ih
    refine ⟨fun {u p c} h => ?_, fun {u p cs} h => ?_, fun {u p cs} h => ?_⟩
    · cases u with
      | nil => rw [parseValue_nil] at h; cases h
      | cons b t =>
        rcases parseValue_cases h with ⟨-, -, hp⟩ | ⟨-, cs, hcs, -⟩ | ⟨-, cs, hcs, -⟩
        · exact hp
        · exact (ihe hcs).trans (List.suffix_cons b t)
        · exact (ihm hcs).trans (List.suffix_cons b t)
    · obtain ⟨item, v, hval, hnext⟩ := parseElements_cases h
      have hrest : (skip v).tail <:+ u := (List.tail_suffix _).trans
        ((skip_suffix v).trans ((ihv hval).trans (skip_suffix u)))
      rcases hnext with ⟨-, cs', hcs, -⟩ | ⟨-, -, rfl⟩
      · exact (ihe hcs).trans hrest
      · exact hrest
    · obtain ⟨name, w, item, v, hname, -, hval, hnext⟩ := parseMembers_cases h
      have hvalue : skip (skip w).tail <:+ u := (skip_suffix _).trans ((List.tail_suffix _).trans
        ((skip_suffix w).trans ((parseString_suffix hname).trans (skip_suffix u))))
      have hrest : (skip v).tail <:+ u := (List.tail_suffix _).trans
        ((skip_suffix v).trans ((ihv hval).trans hvalue))
      rcases hnext with ⟨-, cs', hcs, -⟩ | ⟨-, -, rfl⟩
      · exact (ihm hcs).trans hrest
      · exact hrest

theorem parseValue_suffix {n : ℕ} {u p : Bytes} {c : CJSON} (h : parseValue n u = some (c, p)) :
    p <:+ u := (parse_suffix n).1 h

/-! ## The fuel is enough -/

/-- A byte that is found at a pointer is read past by the next character. -/
theorem length_tail_of_deref {v : Bytes} {b : UInt8} (h : deref v = b) (hb : b ≠ 0) :
    v.tail.length + 1 = v.length := by
  cases v with
  | nil => exact absurd h.symm hb
  | cons c v => rfl

/-- **The fuel never runs out**: with twice the length of the text, one more
unit changes nothing, whether the text is parsed or refused. -/
theorem parse_fuel (n : ℕ) :
    (∀ t : Bytes, 2 * t.length ≤ n → parseValue (n + 1) t = parseValue n t)
      ∧ (∀ t : Bytes, 2 * t.length < n → parseElements (n + 1) t = parseElements n t)
      ∧ (∀ t : Bytes, 2 * t.length < n → parseMembers (n + 1) t = parseMembers n t) := by
  induction n with
  | zero =>
    refine ⟨fun t ht => ?_, fun t ht => absurd ht (by omega), fun t ht => absurd ht (by omega)⟩
    obtain rfl : t = [] := List.length_eq_zero_iff.mp (by omega)
    rfl
  | succ n ih =>
    obtain ⟨ihv, ihe, ihm⟩ := ih
    refine ⟨fun t ht => ?_, fun t ht => ?_, fun t ht => ?_⟩
    · cases t with
      | nil => rw [parseValue_nil, parseValue_nil]
      | cons b t =>
        rw [List.length_cons] at ht
        by_cases ha : b = 91
        · rw [ha, parseValue_array, parseValue_array, ihe t (by omega)]
        by_cases ho : b = 123
        · rw [ho, parseValue_object, parseValue_object, ihm t (by omega)]
        rw [parseValue, parseValue, deref_cons, if_neg ha, if_neg ha, if_neg ho, if_neg ho]
    · have hskip := (skip_suffix t).length_le
      rw [parseElements, parseElements, ihv (skip t) (by omega)]
      split
      · rfl
      rename_i item v hval
      dsimp only
      by_cases hcomma : deref (skip v) = 44
      · have htail := length_tail_of_deref hcomma (by decide)
        have hv := ((skip_suffix v).trans (parseValue_suffix hval)).length_le
        rw [if_pos hcomma, if_pos hcomma, ihe _ (by omega)]
      · rw [if_neg hcomma, if_neg hcomma]
    · have hskip := (skip_suffix t).length_le
      rw [parseMembers, parseMembers]
      split
      · rfl
      rename_i name w hname
      dsimp only
      have hw := ((skip_suffix w).trans (parseString_suffix hname)).length_le
      have hvalue := ((skip_suffix (skip w).tail).trans (List.tail_suffix _)).length_le
      rw [ihv (skip (skip w).tail) (by omega)]
      split
      · rfl
      split
      · rfl
      rename_i item v hval
      by_cases hcomma : deref (skip v) = 44
      · have htail := length_tail_of_deref hcomma (by decide)
        have hv := ((skip_suffix v).trans (parseValue_suffix hval)).length_le
        rw [if_pos hcomma, if_pos hcomma, ihm _ (by omega)]
      · rw [if_neg hcomma, if_neg hcomma]

/-- More fuel than `cJSON_Parse` gives changes nothing. -/
theorem parseValue_fuel {n : ℕ} {t : Bytes} (h : 2 * t.length ≤ n) :
    parseValue n t = parseValue (2 * t.length) t := by
  induction n, h using Nat.le_induction with
  | base => rfl
  | succ n hn ih => rw [(parse_fuel n).1 t hn, ih]

end CJSON
