import WolServer.CJSONComplete

/-!
# Parsers of the value at the front

The firmware reads what it receives with the `cJSON_Parse` of its SDK, which
is not part of the repository. `CJSON.FrontParser` is what the firmware
relies on: such a parser reads the value at the front of a buffer and
ignores what follows it, refuses the cut-off front of an array or an object,
and gives children to arrays and objects only.

`CJSON.frontParser` shows that the parser the repository does contain, in
`cJSON.cpp`, is one of them. The first property is the completeness of
`WolServer.CJSONComplete`. The second rests on a stability of the parser:
where it finds an array or an object and something is appended, it finds the
same one (`CJSON.stable`) – so if it found one in a part of a value, that one
would end before the whole does.
-/

namespace CJSON

/-- **A parser of the value at the front of a buffer.** -/
structure FrontParser (parse : Bytes → Option CJSON) : Prop where
  /-- The value at the front is read, and what follows it is ignored. -/
  value_front : ∀ {t r : Bytes} {v : Json},
    JsonText.Derives t (.value v) r → parse t = some (ofJson v)
  /-- The front of an array or an object, cut off before its end, is
  refused. -/
  bracket_cut : ∀ {u x : Bytes} {v : Json}, JsonText.Derives (u ++ x) (.value v) [] →
    deref (u ++ x) = 91 ∨ deref (u ++ x) = 123 → (92 : UInt8) ∉ u ++ x → x ≠ [] → parse u = none
  /-- What starts with a printing character other than a bracket has no
  children. -/
  no_bracket : ∀ {t : Bytes} {c : CJSON}, 32 < deref t → deref t ≠ 91 → deref t ≠ 123 →
    parse t = some c → c.child = []

/-! ## Steps that do not look past what they read -/

/-- A step over the text at a pointer does the same when more is appended. -/
def LocalOn {α : Type} (f : Bytes → α × Bytes) (u : Bytes) : Prop :=
  ∀ x, f (u ++ x) = ((f u).1, (f u).2 ++ x)

/-- A scan that stops inside the text stops there when more is appended. -/
theorem span_append {q : UInt8 → Bool} {u : Bytes} (h : u.dropWhile q ≠ []) (x : Bytes) :
    (u ++ x).takeWhile q = u.takeWhile q ∧ (u ++ x).dropWhile q = u.dropWhile q ++ x := by
  constructor
  · rw [List.takeWhile_append, if_neg]
    intro hlen
    have := congrArg List.length (List.takeWhile_append_dropWhile (p := q) (l := u))
    rw [List.length_append, hlen] at this
    exact h (List.length_eq_zero_iff.mp (by omega))
  · rw [List.dropWhile_append, if_neg (by simpa using h)]

theorem skip_append {u : Bytes} (h : skip u ≠ []) (x : Bytes) : skip (u ++ x) = skip u ++ x :=
  (span_append h x).2

theorem deref_append {u : Bytes} (h : u ≠ []) (x : Bytes) : deref (u ++ x) = deref u := by
  cases u with
  | nil => exact absurd rfl h
  | cons b u => rfl

theorem ne_nil_of_deref {u : Bytes} {b : UInt8} (h : deref u = b) (hb : b ≠ 0) : u ≠ [] := by
  rintro rfl
  exact hb h.symm

theorem digitSpan_local {u : Bytes} (h : (digitSpan u).2 ≠ []) : LocalOn digitSpan u := by
  intro x
  unfold digitSpan at h ⊢
  rw [List.span_eq_takeWhile_dropWhile] at h ⊢
  rw [List.span_eq_takeWhile_dropWhile, (span_append h x).1, (span_append h x).2]

theorem parseSign_local {u : Bytes} (h : (parseSign u).2 ≠ []) : LocalOn parseSign u := by
  intro x
  cases u with
  | nil => exact absurd rfl h
  | cons b u =>
    unfold parseSign
    rw [List.cons_append, deref_cons, deref_cons]
    split <;> rfl

theorem parseInteger_local {u : Bytes} (h : (parseInteger u).2 ≠ []) :
    LocalOn parseInteger u := by
  intro x
  unfold parseInteger at h ⊢
  have hu : u ≠ [] := by
    rintro rfl
    exact h rfl
  have hzero : (if deref (u ++ x) = 48 then (u ++ x).tail else u ++ x)
      = (if deref u = 48 then u.tail else u) ++ x := by
    rw [deref_append hu, List.tail_append_of_ne_nil hu]
    split <;> rfl
  rw [hzero]
  generalize (if deref u = 48 then u.tail else u) = v at h ⊢
  have hv : v ≠ [] := by
    rintro rfl
    exact h rfl
  dsimp only at h ⊢
  rw [deref_append hv]
  split at h
  · rename_i hd
    rw [if_pos hd, if_pos hd]
    exact digitSpan_local h x
  · rename_i hd
    rw [if_neg hd, if_neg hd]

theorem parseFraction_local {u : Bytes} (h : (parseFraction u).2 ≠ [])
    (hpoint : (parseFraction u).2 ≠ [46]) : LocalOn parseFraction u := by
  intro x
  have hu : u ≠ [] := by
    rintro rfl
    exact h rfl
  by_cases htail : u.tail = []
  · -- a point at the end is excluded, and any other byte decides at once
    have hb : deref u ≠ 46 := by
      obtain ⟨b, v, rfl⟩ := List.exists_cons_of_ne_nil hu
      obtain rfl : v = [] := htail
      rintro (rfl : b = 46)
      exact hpoint rfl
    unfold parseFraction
    rw [deref_append hu, if_neg (fun h => hb h.1), if_neg (fun h => hb h.1)]
  · unfold parseFraction at h ⊢
    rw [deref_append hu, List.tail_append_of_ne_nil hu, deref_append htail]
    split at h
    · rename_i hd
      rw [if_pos hd, if_pos hd]
      exact digitSpan_local h x
    · rename_i hd
      rw [if_neg hd, if_neg hd]

theorem parseExponent_local {u : Bytes} (h : (parseExponent u).2 ≠ []) :
    LocalOn parseExponent u := by
  intro x
  have hu : u ≠ [] := by
    rintro rfl
    exact h rfl
  unfold parseExponent at h ⊢
  rw [deref_append hu, List.tail_append_of_ne_nil hu]
  split at h
  · rename_i he
    rw [if_pos he, if_pos he]
    dsimp only at h ⊢
    generalize u.tail = v at h ⊢
    have hv : v ≠ [] := by
      rintro rfl
      exact h rfl
    have hsign : (if deref (v ++ x) = 43 then ((1 : ℤ), (v ++ x).tail)
        else if deref (v ++ x) = 45 then (-1, (v ++ x).tail) else (1, v ++ x))
        = (let p := if deref v = 43 then ((1 : ℤ), v.tail)
            else if deref v = 45 then (-1, v.tail) else (1, v)
          (p.1, p.2 ++ x)) := by
      rw [deref_append hv, List.tail_append_of_ne_nil hv]
      split
      · rfl
      split <;> rfl
    rw [hsign]
    dsimp only
    rw [digitSpan_local h x]
  · rename_i he
    rw [if_neg he, if_neg he]

/-- **`parse_number` does not look past a number** that ends before a byte
other than a point. -/
theorem parseNumber_local {u : Bytes} (h : (parseNumber u).2 ≠ [])
    (hpoint : deref (parseNumber u).2 ≠ 46) : LocalOn parseNumber u := by
  intro x
  rw [parseNumber_snd] at h hpoint
  have hfp : (parseFraction (parseInteger (parseSign u).2).2).2 ≠ [] := fun h0 => by
    rw [h0] at h
    exact h rfl
  have hfp' : (parseFraction (parseInteger (parseSign u).2).2).2 ≠ [46] := fun h0 => by
    rw [h0] at hpoint
    exact hpoint rfl
  have hip : (parseInteger (parseSign u).2).2 ≠ [] := fun h0 => by
    rw [h0] at hfp
    exact hfp rfl
  have hsign : (parseSign u).2 ≠ [] := fun h0 => by
    rw [h0] at hip
    exact hip rfl
  unfold parseNumber
  dsimp only
  rw [parseSign_local hsign x]
  dsimp only
  rw [parseInteger_local hip x]
  dsimp only
  rw [parseFraction_local hfp hfp' x]
  dsimp only
  rw [parseExponent_local h x]

theorem deref_drop_append {u : Bytes} {k : ℕ} (h : k < u.length) (x : Bytes) :
    deref ((u ++ x).drop k) = deref (u.drop k) := by
  rw [List.drop_append_of_le_length h.le]
  exact deref_append (List.drop_eq_nil_iff.not.mpr (Nat.not_le.mpr h)) x

theorem parseHex4_append {u : Bytes} (h : 4 ≤ u.length) (x : Bytes) :
    parseHex4 (u ++ x) = parseHex4 u := by
  unfold parseHex4
  rw [deref_drop_append (k := 1) (by omega), deref_drop_append (k := 2) (by omega),
    deref_drop_append (k := 3) (by omega), deref_append (List.ne_nil_of_length_pos (by omega))]

/-- The `\u` escape does not look past the character after it, and past that
one only when it is a backslash. -/
theorem parseUnicode_append {u : Bytes} (h : (parseUnicode u).2.tail ≠ [])
    (hesc : (parseUnicode u).2.tail ≠ [92]) : LocalOn parseUnicode u := by
  intro x
  have hlen : 6 ≤ u.length := by
    have hdrop : (parseUnicode u).2.length ≤ u.length - 4 := by
      unfold parseUnicode
      dsimp only
      split_ifs <;> simp only [List.length_drop] <;> omega
    have := List.length_pos_of_ne_nil h
    rw [List.length_tail] at this
    omega
  have h1 : (u ++ x).drop 1 = u.drop 1 ++ x := List.drop_append_of_le_length (by omega)
  have h4 : (u ++ x).drop 4 = u.drop 4 ++ x := List.drop_append_of_le_length (by omega)
  unfold parseUnicode at h hesc ⊢
  dsimp only at h hesc ⊢
  rw [h1, h4, parseHex4_append (by rw [List.length_drop]; omega)]
  generalize hv : u.drop 4 = v at h hesc ⊢
  have hvlen : 2 ≤ v.length := by
    rw [← hv, List.length_drop]
    omega
  by_cases hbad : (0xDC00 ≤ parseHex4 (u.drop 1) ∧ parseHex4 (u.drop 1) ≤ 0xDFFF)
      ∨ parseHex4 (u.drop 1) = 0
  · rw [if_pos hbad, if_pos hbad]
  rw [if_neg hbad] at h hesc ⊢
  rw [if_neg hbad]
  by_cases hhi : 0xD800 ≤ parseHex4 (u.drop 1) ∧ parseHex4 (u.drop 1) ≤ 0xDBFF
  · rw [if_pos hhi] at h hesc ⊢
    rw [if_pos hhi]
    have hd1 : deref ((v ++ x).drop 1) = deref (v.drop 1) := deref_drop_append (by omega) x
    by_cases hpair : deref (v.drop 1) ≠ 92 ∨ deref (v.drop 2) ≠ 117
    · rw [if_pos hpair] at h hesc
      have hpair' : deref ((v ++ x).drop 1) ≠ 92 ∨ deref ((v ++ x).drop 2) ≠ 117 := by
        by_cases hback : deref (v.drop 1) = 92
        · -- the backslash is not the last character, so the next one is there
          have hlong : 2 < v.length := by
            by_contra hshort
            obtain ⟨a, b, rfl⟩ := List.length_eq_two.mp (by omega : v.length = 2)
            obtain rfl : b = 92 := hback
            exact hesc rfl
          rw [deref_drop_append hlong]
          exact Or.inr (hpair.resolve_left (not_not.mpr hback))
        · exact Or.inl (hd1.symm ▸ hback)
      rw [if_pos hpair, if_pos hpair']
    · rw [if_neg hpair] at h
      have hlong : 8 ≤ v.length := by
        have hdrop : v.length - 6 ≠ 1 ∧ v.length - 6 ≠ 0 := by
          constructor <;> intro h0 <;> refine h ?_ <;> split_ifs <;>
            exact List.length_eq_zero_iff.mp (by
              rw [List.length_tail, List.length_drop, h0])
        omega
      have h3 : (v ++ x).drop 3 = v.drop 3 ++ x := List.drop_append_of_le_length (by omega)
      have h6 : (v ++ x).drop 6 = v.drop 6 ++ x := List.drop_append_of_le_length (by omega)
      rw [hd1, deref_drop_append (k := 2) (by omega), if_neg hpair, if_neg hpair, h3, h6,
        parseHex4_append (by rw [List.length_drop]; omega)]
      split <;> rfl
  · rw [if_neg hhi, if_neg hhi]

/-- Neither does the `switch` on the character after a backslash. -/
theorem parseEscape_append {u : Bytes} (h : (parseEscape u).2.tail ≠ [])
    (hesc : (parseEscape u).2.tail ≠ [92]) : LocalOn parseEscape u := by
  intro x
  have hu : u ≠ [] := by
    rintro rfl
    exact h rfl
  unfold parseEscape at h hesc ⊢
  rw [deref_append hu]
  split_ifs at h hesc ⊢
  all_goals first
    | rfl
    | exact parseUnicode_append h hesc x

/-- The loop of `parse_string` does not look past the place where it stops,
when it stops inside the text. -/
theorem parseStringLoop_append {n m : ℕ} {u : Bytes} (hn : u.length ≤ n) (hm : n ≤ m)
    (h : (parseStringLoop n u).2 ≠ []) (x : Bytes) :
    parseStringLoop m (u ++ x) = ((parseStringLoop n u).1, (parseStringLoop n u).2 ++ x) := by
  induction n generalizing m u with
  | zero => exact absurd (List.length_eq_zero_iff.mp (Nat.le_zero.mp hn)) h
  | succ n ih =>
    obtain ⟨m, rfl⟩ : ∃ k, m = k + 1 := ⟨m - 1, by omega⟩
    have hm : n ≤ m := Nat.le_of_succ_le_succ hm
    cases u with
    | nil => exact absurd rfl h
    | cons b u =>
      have hn : u.length ≤ n := Nat.le_of_succ_le_succ hn
      rw [List.cons_append, parseStringLoop, parseStringLoop, deref_cons, deref_cons]
      rw [parseStringLoop, deref_cons] at h
      by_cases hstop : b = 34 ∨ b = 0
      · rw [if_pos hstop, if_pos hstop, List.cons_append]
      rw [if_neg hstop] at h ⊢
      rw [if_neg hstop]
      by_cases hplain : b ≠ 92
      · rw [if_pos hplain] at h ⊢
        rw [if_pos hplain, List.tail_cons, ih hn hm h]
        rfl
      · rw [if_neg hplain] at h ⊢
        rw [if_neg hplain]
        dsimp only [List.tail_cons] at h ⊢
        have hlen := (parseEscape_suffix u).length_le
        have hrest : (parseEscape u).2.tail ≠ [] := fun h0 => by
          rw [h0] at h
          exact h (by cases n <;> rfl)
        have hback : (parseEscape u).2.tail ≠ [92] := fun h0 => by
          rw [h0] at h
          exact h (by
            cases n with
            | zero =>
              rw [List.length_eq_zero_iff.mp (Nat.le_zero.mp hn)] at hrest
              exact absurd rfl hrest
            | succ n => cases n <;> rfl)
        have hne : (parseEscape u).2 ≠ [] := fun h0 => by
          rw [h0] at hrest
          exact hrest rfl
        rw [parseEscape_append hrest hback, List.tail_append_of_ne_nil hne,
          ih (by rw [List.length_tail]; omega) hm h]

/-- `parse_string` does not look past the string, when something follows
it. -/
theorem parseString_append {u p s x : Bytes} (h : parseString u = some (s, p)) (hp : p ≠ []) :
    parseString (u ++ x) = some (s, p ++ x) := by
  unfold parseString at h ⊢
  split at h
  · exact absurd h (by simp)
  rename_i hq
  have hu : u ≠ [] := ne_nil_of_deref (not_not.mp hq) (by decide)
  obtain ⟨rfl, hrest⟩ := Prod.mk.inj (Option.some.inj h)
  have hstop : (parseStringLoop u.length u.tail).2 ≠ [] := fun h0 => by
    rw [h0] at hrest
    exact hp hrest.symm
  rw [deref_append hu, if_neg hq, List.tail_append_of_ne_nil hu]
  dsimp only
  rw [parseStringLoop_append (m := (u ++ x).length) (by rw [List.length_tail]; omega)
    (by rw [List.length_append]; omega) hstop]
  dsimp only
  rw [deref_append hstop, List.tail_append_of_ne_nil hstop, ← hrest]
  split <;> rfl

/-! ## Stability -/

/-- A literal is read the same when more is appended. -/
theorem literal_append {l u : Bytes} {c : CJSON} {y : CJSON × Bytes}
    (h : (if l.isPrefixOf u then some (c, u.drop l.length) else none) = some y) (x : Bytes) :
    (if l.isPrefixOf (u ++ x) then some (c, (u ++ x).drop l.length) else none)
      = some (y.1, y.2 ++ x) := by
  split at h
  · rename_i hpre
    have hpre : l <+: u := List.isPrefixOf_iff_prefix.mp hpre
    injection h with h
    subst h
    rw [if_pos (List.isPrefixOf_iff_prefix.mpr (hpre.trans (List.prefix_append u x))),
      List.drop_append_of_le_length hpre.length_le]
  · exact absurd h (by simp)

/-- A value that something other than a point follows ends where it does. -/
theorem end_of_skip {v : Bytes} {b : UInt8} (h : deref (skip v) = b) (hb : b ≠ 0)
    (hb' : b ≠ 46) : v ≠ [] ∧ deref v ≠ 46 ∧ skip v ≠ [] := by
  refine ⟨?_, fun h46 => ?_, ne_nil_of_deref h hb⟩
  · rintro rfl
    exact hb h.symm
  · obtain ⟨c, v, rfl⟩ := List.exists_cons_of_ne_nil (ne_nil_of_deref h46 (by decide))
    obtain rfl : c = 46 := h46
    rw [skip_cons (by decide)] at h
    exact hb' h.symm

/-- So does one that a comma or a closing bracket follows. -/
theorem end_of_next {v : Bytes} {close : UInt8} {P Q : Prop}
    (h : (deref (skip v) = 44 ∧ P) ∨ (deref (skip v) = close ∧ Q)) (hzero : close ≠ 0)
    (hpoint : close ≠ 46) : v ≠ [] ∧ deref v ≠ 46 ∧ skip v ≠ [] :=
  h.elim (fun h => end_of_skip h.1 (by decide) (by decide))
    (fun h => end_of_skip h.1 hzero hpoint)

/-- Nothing is no value. -/
theorem ne_nil_of_parseValue {n : ℕ} {u : Bytes} {r : CJSON × Bytes}
    (h : parseValue n u = some r) : u ≠ [] := by
  rintro rfl
  rw [parseValue_nil] at h
  cases h

/-- **Stability** of `parse_value`: what is parsed is parsed the same with
more fuel and when more is appended. A value that is no object or array has
to end before a byte other than a point. -/
def StableValue (n : ℕ) : Prop :=
  ∀ {m : ℕ} {u x p : Bytes} {c : CJSON}, n ≤ m → parseValue n u = some (c, p) →
    (deref u = 91 ∨ deref u = 123 ∨ (p ≠ [] ∧ deref p ≠ 46)) →
    parseValue m (u ++ x) = some (c, p ++ x)

/-- Stability of the loop of `parse_array`. -/
def StableElements (n : ℕ) : Prop :=
  ∀ {m : ℕ} {u x p : Bytes} {cs : List CJSON}, n ≤ m →
    parseElements n u = some (cs, p) → parseElements m (u ++ x) = some (cs, p ++ x)

/-- Stability of the loop of `parse_object`. -/
def StableMembers (n : ℕ) : Prop :=
  ∀ {m : ℕ} {u x p : Bytes} {cs : List CJSON}, n ≤ m →
    parseMembers n u = some (cs, p) → parseMembers m (u ++ x) = some (cs, p ++ x)

theorem stableElements_succ {n : ℕ} (hv : StableValue n) (he : StableElements n) :
    StableElements (n + 1) := by
  intro m u x p cs hm h
  obtain ⟨m, rfl⟩ : ∃ k, m = k + 1 := ⟨m - 1, by omega⟩
  have hm : n ≤ m := Nat.le_of_succ_le_succ hm
  obtain ⟨item, v, hval, hnext⟩ := parseElements_cases h
  have hu : skip u ≠ [] := ne_nil_of_parseValue hval
  obtain ⟨hv0, hv46, hskip⟩ := end_of_next hnext (by decide) (by decide)
  have hval' := hv (x := x) hm hval (Or.inr (Or.inr ⟨hv0, hv46⟩))
  rw [parseElements, skip_append hu, hval']
  dsimp only
  rw [skip_append hskip, deref_append hskip, List.tail_append_of_ne_nil hskip]
  rcases hnext with ⟨hcomma, cs', hcs, rfl⟩ | ⟨hclose, rfl, rfl⟩
  · rw [if_pos hcomma, he hm hcs]
    rfl
  · rw [if_neg (by rw [hclose]; decide), if_pos hclose]

theorem stableMembers_succ {n : ℕ} (hv : StableValue n) (hms : StableMembers n) :
    StableMembers (n + 1) := by
  intro m u x p cs hm h
  obtain ⟨m, rfl⟩ : ∃ k, m = k + 1 := ⟨m - 1, by omega⟩
  have hm : n ≤ m := Nat.le_of_succ_le_succ hm
  obtain ⟨name, w, item, v, hname, hcolon, hval, hnext⟩ := parseMembers_cases h
  have hu : skip u ≠ [] := fun h0 => by
    rw [h0] at hname
    exact absurd hname (by simp [parseString])
  obtain ⟨hw0, -, hskipw⟩ := end_of_skip hcolon (by decide) (by decide)
  have hval0 : skip (skip w).tail ≠ [] := ne_nil_of_parseValue hval
  obtain ⟨hv0, hv46, hskip⟩ := end_of_next hnext (by decide) (by decide)
  have hval' := hv (x := x) hm hval (Or.inr (Or.inr ⟨hv0, hv46⟩))
  rw [parseMembers, skip_append hu, parseString_append hname hw0]
  dsimp only
  rw [skip_append hskipw, deref_append hskipw, List.tail_append_of_ne_nil hskipw,
    if_neg (not_not.mpr hcolon), skip_append hval0, hval']
  dsimp only
  rw [skip_append hskip, deref_append hskip, List.tail_append_of_ne_nil hskip]
  rcases hnext with ⟨hcomma, cs', hcs, rfl⟩ | ⟨hclose, rfl, rfl⟩
  · rw [if_pos hcomma, hms hm hcs]
    rfl
  · rw [if_neg (by rw [hclose]; decide), if_pos hclose]

/-- An array or an object is read the same when more is appended, given that
its loop is. -/
theorem bracket_append {n m : ℕ} {close : UInt8} {t x p : Bytes} {c₀ c : CJSON}
    {f : List CJSON → CJSON} {loop : ℕ → Bytes → Option (List CJSON × Bytes)}
    (hclose : close ≠ 0) (hclose' : close ≠ 46) (hnil : loop n [] = none)
    (hskip : ∀ n t, loop n (skip t) = loop n t)
    (hloop : ∀ {p cs}, loop n t = some (cs, p) → loop m (t ++ x) = some (cs, p ++ x))
    (h : (if deref (skip t) = close then some (c₀, (skip t).tail)
      else (loop n t).map (fun r => (f r.1, r.2))) = some (c, p)) :
    (if deref (skip (t ++ x)) = close then some (c₀, (skip (t ++ x)).tail)
      else (loop m (t ++ x)).map (fun r => (f r.1, r.2))) = some (c, p ++ x) := by
  split at h
  · rename_i hend
    obtain ⟨-, -, hne⟩ := end_of_skip hend hclose hclose'
    injection h with h
    obtain ⟨rfl, rfl⟩ := Prod.mk.inj h
    rw [skip_append hne, deref_append hne, if_pos hend, List.tail_append_of_ne_nil hne]
  · rename_i hopen
    obtain ⟨y, hy, hc⟩ := Option.map_eq_some_iff.mp h
    obtain ⟨rfl, rfl⟩ := Prod.mk.inj hc
    have hne : skip t ≠ [] := fun h0 => by
      rw [← hskip, h0, hnil] at hy
      exact absurd hy (by simp)
    rw [skip_append hne, deref_append hne, if_neg hopen, hloop hy]
    rfl

theorem stableValue_succ {n : ℕ} (he : StableElements n) (hms : StableMembers n) :
    StableValue (n + 1) := by
  intro m u x p c hm h hend
  obtain ⟨m, rfl⟩ : ∃ k, m = k + 1 := ⟨m - 1, by omega⟩
  have hm : n ≤ m := Nat.le_of_succ_le_succ hm
  cases u with
  | nil =>
    rw [parseValue_nil] at h
    exact absurd h (by simp)
  | cons b t =>
    rcases parseValue_head h with rfl | rfl | rfl | rfl | hd | rfl | rfl
    · rw [parseValue_null] at h
      exact literal_append h x
    · rw [parseValue_false] at h
      exact literal_append h x
    · rw [parseValue_true] at h
      exact literal_append h x
    · rw [parseValue_string] at h
      obtain ⟨y, hy, hc⟩ := Option.map_eq_some_iff.mp h
      obtain ⟨rfl, rfl⟩ := Prod.mk.inj hc
      have hp : y.2 ≠ [] := by
        rcases hend with h | h | h
        · exact absurd h (by decide : (34 : UInt8) ≠ 91)
        · exact absurd h (by decide : (34 : UInt8) ≠ 123)
        · exact h.1
      rw [List.cons_append, parseValue_string, ← List.cons_append,
        parseString_append hy hp]
      rfl
    · rw [parseValue_number n hd] at h
      injection h with h
      obtain ⟨rfl, rfl⟩ := Prod.mk.inj h
      have hp : (parseNumber (b :: t)).2 ≠ [] ∧ deref (parseNumber (b :: t)).2 ≠ 46 := by
        rcases hend with h | h | h
        · obtain rfl : b = 91 := h
          exact absurd hd (by decide)
        · obtain rfl : b = 123 := h
          exact absurd hd (by decide)
        · exact h
      have hloc := parseNumber_local hp.1 hp.2 x
      rw [List.cons_append] at hloc
      rw [List.cons_append, parseValue_number m hd, hloc]
    · rw [parseValue_array] at h
      rw [List.cons_append, parseValue_array]
      exact bracket_append (by decide) (by decide) (parseElements_nil n) parseElements_skip
        (he hm) h
    · rw [parseValue_object] at h
      rw [List.cons_append, parseValue_object]
      exact bracket_append (by decide) (by decide) (parseMembers_nil n) parseMembers_skip
        (hms hm) h

/-- **Every parse is stable.** -/
theorem stable (n : ℕ) : StableValue n ∧ StableElements n ∧ StableMembers n := by
  induction n with
  | zero =>
    refine ⟨fun _ h _ => ?_, fun _ h => ?_, fun _ h => ?_⟩ <;> cases h
  | succ n ih =>
    obtain ⟨hv, he, hms⟩ := ih
    exact ⟨stableValue_succ he hms, stableElements_succ hv he, stableMembers_succ hv hms⟩

/-! ## The repository's parser -/

/-- The front of an array or an object, cut off before its end, is none to
the parser: what it read there it would read in the whole as well, and stop
before the end of it. -/
theorem parse_cut {u x : Bytes} {v : Json} (h : JsonText.Derives (u ++ x) (.value v) [])
    (hb : deref (u ++ x) = 91 ∨ deref (u ++ x) = 123) (hx : x ≠ []) : parse u = none := by
  cases u with
  | nil => rfl
  | cons b u =>
    have hb : b = 91 ∨ b = 123 := hb
    have hprint : 32 < b := by rcases hb with rfl | rfl <;> decide
    by_contra hsome
    obtain ⟨c, hc⟩ := Option.ne_none_iff_exists'.mp hsome
    obtain ⟨⟨c', p⟩, hp, -⟩ := Option.map_eq_some_iff.mp hc
    rw [parseWithOpts_false, skip_cons hprint] at hp
    have hlong : parseValue (2 * (b :: u ++ x).length) (b :: u ++ x) = some (c', p ++ x) :=
      (stable _).1 (by simp) hp (hb.imp id Or.inl)
    rw [reads_of_derives h _ le_rfl] at hlong
    injection hlong with hlong
    exact hx (List.append_eq_nil_iff.mp (congrArg Prod.snd hlong).symm).2

/-- **The repository's parser is a parser of the value at the front.** -/
theorem frontParser : FrontParser parse where
  value_front := parse_of_derives
  bracket_cut := fun h hb _ hx => parse_cut h hb hx
  no_bracket := by
    intro t c hprint harr hobj h
    cases t with
    | nil => exact absurd hprint (by decide)
    | cons b t =>
      obtain ⟨⟨c', p⟩, hp, rfl⟩ := Option.map_eq_some_iff.mp h
      have hprint : 32 < b := hprint
      rw [parseWithOpts_false, skip_cons hprint] at hp
      obtain ⟨n, hn⟩ : ∃ n, 2 * (b :: t).length = n + 1 :=
        ⟨2 * t.length + 1, by rw [List.length_cons]; omega⟩
      rw [hn] at hp
      rcases parseValue_cases hp with ⟨-, hleaf, -⟩ | ⟨h91, -⟩ | ⟨h123, -⟩
      · exact hleaf
      · exact absurd h91 harr
      · exact absurd h123 hobj

end CJSON
