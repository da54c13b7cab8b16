import WolServer.Server

/-!
# The text of a MAC address

The server reads a MAC address with `sscanf` and six conversions `%02x`, first
with colons between them and then with dashes. A conversion reads more than
two digits: white space before them is skipped, a sign may stand in place of
the first one, and when all six are read nobody asks whether the string ends.

`Server.Field` is what one conversion reads, and `Server.Scans` what six of
them read, both as grammars; `Server.scanFields_isSome_iff` says that the
model of `sscanf` reads just that, and `Server.Scans.unique` that a string is
read in one way only. A MAC address proper is `Server.IsMac`. The two come
apart exactly in the parts a conversion is generous about
(`Server.scanMac_iff_isMac_iff`).
-/

namespace Server

open JsonText (hexVal)

/-! ## One conversion -/

/-- **What `%02x` reads**: white space, and then two characters at most – a
sign and a digit, or one or two digits. -/
structure Field where
  /-- The white space that is skipped. -/
  space : Bytes
  /-- The sign. -/
  sign : Option UInt8
  /-- The digits. -/
  digits : Bytes
  /-- White space is white space. -/
  space_eq : ∀ b ∈ space, isspace b = true
  /-- A sign is a plus or a minus. -/
  sign_eq : ∀ b ∈ sign, b = 43 ∨ b = 45
  /-- The digits are hexadecimal. -/
  digits_eq : ∀ b ∈ digits, ∃ v, hexVal b = some v
  /-- The field has a width of two. -/
  width : digits.length = 1 ∨ (digits.length = 2 ∧ sign = none)

namespace Field

/-- The characters that are read. -/
def text (f : Field) : Bytes := f.space ++ (f.sign.toList ++ f.digits)

/-- **Where a conversion stops**: after two characters, or after a digit that
no other digit follows. A zero with an `x` behind it is the beginning of a
prefix and no number. -/
def EndsAt (f : Field) (rest : Bytes) : Prop :=
  f.sign = none → ∀ d, f.digits = [d] →
    hexVal (deref rest) = none ∧ ¬ (d = 48 ∧ (deref rest = 120 ∨ deref rest = 88))

/-- The field is digits and nothing else. -/
def Plain (f : Field) : Prop := f.space = [] ∧ f.sign = none

end Field

/-- A hexadecimal digit is neither a sign nor white space. -/
theorem hexVal_ne {b : UInt8} {v : ℕ} (h : hexVal b = some v) :
    b ≠ 43 ∧ b ≠ 45 ∧ b ≠ 120 ∧ b ≠ 88 ∧ b ≠ 58 ∧ b ≠ 0 ∧ isspace b = false := by
  have hne : ∀ c : UInt8, hexVal c = none → b ≠ c := by
    rintro c hc rfl
    rw [h] at hc
    cases hc
  refine ⟨hne 43 rfl, hne 45 rfl, hne 120 rfl, hne 88 rfl, hne 58 rfl, hne 0 rfl, ?_⟩
  rw [isspace, Bool.or_eq_false_iff, beq_eq_false_iff_ne]
  refine ⟨hne 32 rfl, ?_⟩
  rcases JsonText.toNat_of_hexVal h with ⟨hlo, -⟩ | ⟨hlo, -⟩ | ⟨hlo, -⟩
  all_goals
    simp only [Bool.and_eq_false_iff, decide_eq_false_iff_not, UInt8.le_iff_toNat_le]
    refine Or.inr ?_
    show ¬ b.toNat ≤ 13
    omega

/-- A pointer at a digit is at a character. -/
theorem exists_of_hexVal_deref {p : Bytes} {v : ℕ} (h : hexVal (deref p) = some v) :
    ∃ b q, p = b :: q ∧ hexVal b = some v := by
  cases p with
  | nil => cases h
  | cons b q => exact ⟨b, q, rfl, h⟩

/-- What a conversion reads is a field. -/
theorem field_of_scanHex {str rest : Bytes} {v : UInt32} (h : scanHex str = some (v, rest)) :
    ∃ f : Field, str = f.text ++ rest ∧ f.EndsAt rest := by
  have hspace : ∀ b ∈ str.takeWhile isspace, isspace b = true := fun b hb =>
    List.mem_takeWhile_imp hb
  have hstr := List.takeWhile_append_dropWhile (p := isspace) (l := str)
  unfold scanHex at h
  cases hdrop : str.dropWhile isspace with
  | nil =>
    rw [hdrop] at h
    cases h
  | cons a r =>
    rw [hdrop] at h hstr
    dsimp only at h
    by_cases hsign : a = 43 ∨ a = 45
    · -- a sign, and one digit
      rw [if_pos hsign] at h
      obtain ⟨w, hw, hpair⟩ := Option.map_eq_some_iff.mp h
      obtain ⟨-, rfl⟩ := Prod.mk.inj hpair
      obtain ⟨b, q, rfl, hb⟩ := exists_of_hexVal_deref hw
      refine ⟨⟨str.takeWhile isspace, some a, [b], hspace, ?_, ?_, Or.inl rfl⟩, ?_, ?_⟩
      · intro c hc
        obtain rfl := Option.some.inj hc
        exact hsign
      · exact List.forall_mem_singleton.mpr ⟨w, hb⟩
      · simpa [Field.text] using hstr.symm
      · exact fun hnone => by cases hnone
    rw [if_neg hsign] at h
    cases ha : hexVal a with
    | none =>
      rw [ha] at h
      cases h
    | some w =>
      rw [ha] at h
      dsimp only at h
      split at h
      · cases h
      rename_i hprefix
      cases hnext : hexVal (deref r) with
      | none =>
        -- one digit, and no other
        rw [hnext] at h
        obtain ⟨-, rfl⟩ := Prod.mk.inj (Option.some.inj h)
        refine ⟨⟨str.takeWhile isspace, none, [a], hspace, fun _ h => (by cases h),
          List.forall_mem_singleton.mpr ⟨w, ha⟩, Or.inl rfl⟩, ?_, ?_⟩
        · simpa [Field.text] using hstr.symm
        · intro _ d hd
          obtain rfl := (List.cons.inj hd).1
          exact ⟨hnext, hprefix⟩
      | some x =>
        rw [hnext] at h
        obtain ⟨-, rfl⟩ := Prod.mk.inj (Option.some.inj h)
        obtain ⟨b, q, rfl, hb⟩ := exists_of_hexVal_deref hnext
        refine ⟨⟨str.takeWhile isspace, none, [a, b], hspace, fun _ h => (by cases h),
          List.forall_mem_cons.mpr ⟨⟨w, ha⟩, List.forall_mem_singleton.mpr ⟨x, hb⟩⟩,
          Or.inr ⟨rfl, rfl⟩⟩, ?_, ?_⟩
        · simpa [Field.text] using hstr.symm
        · intro _ d hd
          cases (List.cons.inj hd).2

/-- The two characters of a field. -/
theorem Field.shape (f : Field) : (∃ a d, f.sign = some a ∧ f.digits = [d])
    ∨ (∃ d, f.sign = none ∧ f.digits = [d]) ∨ ∃ d e, f.sign = none ∧ f.digits = [d, e] := by
  rcases f.width with h | ⟨h, hsign⟩
  · obtain ⟨d, hd⟩ := List.length_eq_one_iff.mp h
    cases hsign : f.sign with
    | none => exact Or.inr (Or.inl ⟨d, rfl, hd⟩)
    | some a => exact Or.inl ⟨a, d, rfl, hd⟩
  · obtain ⟨d, e, hde⟩ := List.length_eq_two.mp h
    exact Or.inr (Or.inr ⟨d, e, hsign, hde⟩)

/-- White space ends at the sign or the first digit. -/
theorem Field.span_text (f : Field) (rest : Bytes) :
    (f.text ++ rest).takeWhile isspace = f.space
      ∧ (f.text ++ rest).dropWhile isspace = f.sign.toList ++ (f.digits ++ rest) := by
  have htext : f.text ++ rest = f.space ++ (f.sign.toList ++ (f.digits ++ rest)) := by
    simp [Field.text]
  obtain ⟨a, r, hfirst, ha⟩ :
      ∃ a r, f.sign.toList ++ (f.digits ++ rest) = a :: r ∧ isspace a = false := by
    rcases f.shape with ⟨a, d, hs, hd⟩ | ⟨d, hs, hd⟩ | ⟨d, e, hs, hd⟩
    · refine ⟨a, d :: rest, by rw [hs, hd]; rfl, ?_⟩
      rcases f.sign_eq a hs with rfl | rfl <;> rfl
    · obtain ⟨v, hv⟩ := f.digits_eq d (by simp [hd])
      exact ⟨d, rest, by rw [hs, hd]; rfl, (hexVal_ne hv).2.2.2.2.2.2⟩
    · obtain ⟨v, hv⟩ := f.digits_eq d (by simp [hd])
      exact ⟨d, e :: rest, by rw [hs, hd]; rfl, (hexVal_ne hv).2.2.2.2.2.2⟩
  have hneg : ¬ isspace a = true := by simp [ha]
  rw [htext, List.takeWhile_append_of_pos f.space_eq, List.dropWhile_append_of_pos f.space_eq,
    hfirst, List.takeWhile_cons_of_neg hneg, List.dropWhile_cons_of_neg hneg, List.append_nil]
  exact ⟨rfl, rfl⟩

/-- A conversion reads every field, and stops behind it. -/
theorem scanHex_field (f : Field) {rest : Bytes} (h : f.EndsAt rest) :
    ∃ v, scanHex (f.text ++ rest) = some (v, rest) := by
  unfold scanHex
  rw [(f.span_text rest).2]
  rcases f.shape with ⟨a, d, hs, hd⟩ | ⟨d, hs, hd⟩ | ⟨d, e, hs, hd⟩
  · obtain ⟨v, hv⟩ := f.digits_eq d (by simp [hd])
    rw [hs, hd]
    simp only [Option.toList_some, List.singleton_append]
    rw [if_pos (f.sign_eq a hs), deref_cons, hv]
    exact ⟨_, rfl⟩
  · obtain ⟨v, hv⟩ := f.digits_eq d (by simp [hd])
    obtain ⟨hend, hprefix⟩ := h hs d hd
    have hne := hexVal_ne hv
    rw [hs, hd]
    simp only [Option.toList_none, List.nil_append, List.singleton_append]
    rw [if_neg (not_or.mpr ⟨hne.1, hne.2.1⟩), hv]
    dsimp only
    rw [if_neg hprefix, hend]
    exact ⟨_, rfl⟩
  · obtain ⟨v, hv⟩ := f.digits_eq d (by simp [hd])
    obtain ⟨w, hw⟩ := f.digits_eq e (by simp [hd])
    have hne := hexVal_ne hv
    have hne' := hexVal_ne hw
    rw [hs, hd]
    simp only [Option.toList_none, List.nil_append, List.cons_append]
    rw [if_neg (not_or.mpr ⟨hne.1, hne.2.1⟩), hv]
    dsimp only
    rw [deref_cons, if_neg (fun h => h.2.elim hne'.2.2.1 hne'.2.2.2.1), hw]
    exact ⟨_, rfl⟩

/-- **A conversion reads a string in one way only.** -/
theorem Field.unique {f f' : Field} {rest rest' : Bytes} (h : f.EndsAt rest)
    (h' : f'.EndsAt rest') (heq : f.text ++ rest = f'.text ++ rest') :
    f = f' ∧ rest = rest' := by
  obtain ⟨v, hv⟩ := scanHex_field f h
  obtain ⟨v', hv'⟩ := scanHex_field f' h'
  rw [heq] at hv
  obtain ⟨-, rfl⟩ := Prod.mk.inj (Option.some.inj (hv.symm.trans hv'))
  have hspace : f.space = f'.space := by
    rw [← (f.span_text rest).1, heq, (f'.span_text rest).1]
  have hafter : f.sign.toList ++ f.digits = f'.sign.toList ++ f'.digits := by
    have hrest : (f.sign.toList ++ f.digits) ++ rest = (f'.sign.toList ++ f'.digits) ++ rest := by
      rw [List.append_assoc, List.append_assoc, ← (f.span_text rest).2, heq,
        (f'.span_text rest).2]
    exact List.append_cancel_right hrest
  -- no digit is a sign
  have hmixed : ∀ {g g' : Field} {a : UInt8}, g.sign = some a → g'.sign = none →
      g.sign.toList ++ g.digits ≠ g'.sign.toList ++ g'.digits := by
    intro g g' a hs hs' heq
    rw [hs, hs'] at heq
    obtain ⟨v, hv⟩ := g'.digits_eq a (by
      rw [Option.toList_none, List.nil_append] at heq
      rw [← heq]
      exact List.mem_cons_self)
    rcases g.sign_eq a hs with rfl | rfl <;> cases hv
  have hparts : f.sign = f'.sign ∧ f.digits = f'.digits := by
    cases hs : f.sign with
    | none =>
      cases hs' : f'.sign with
      | none =>
        rw [hs, hs'] at hafter
        exact ⟨rfl, hafter⟩
      | some a => exact absurd hafter.symm (hmixed hs' hs)
    | some a =>
      cases hs' : f'.sign with
      | none => exact absurd hafter (hmixed hs hs')
      | some a' =>
        rw [hs, hs'] at hafter
        obtain ⟨rfl, hdigits⟩ := List.cons.inj hafter
        exact ⟨rfl, hdigits⟩
  refine ⟨?_, rfl⟩
  cases f
  cases f'
  simp only [Field.mk.injEq]
  exact ⟨hspace, hparts.1, hparts.2⟩

/-! ## Six conversions -/

/-- **What a format of conversions reads**, with a separator between them:
the fields, the string, and what is left of it. -/
inductive Scans (sep : UInt8) : List Field → Bytes → Bytes → Prop
  /-- The last field. -/
  | last (f : Field) {rest : Bytes} (h : f.EndsAt rest) : Scans sep [f] (f.text ++ rest) rest
  /-- A field, the separator, and more. -/
  | more (f : Field) {fs : List Field} {t rest : Bytes} (h : Scans sep fs t rest) :
      Scans sep (f :: fs) (f.text ++ sep :: t) rest

/-- The characters that separate the bytes of an address. -/
def IsSep (sep : UInt8) : Prop := sep = 58 ∨ sep = 45

/-- A separator ends a conversion. -/
theorem endsAt_sep {sep : UInt8} (hsep : IsSep sep) (f : Field) (t : Bytes) :
    f.EndsAt (sep :: t) := by
  intro _ d _
  rw [deref_cons]
  rcases hsep with rfl | rfl <;> exact ⟨rfl, fun h => absurd h.2 (by decide)⟩

/-- **`sscanf` reads what the grammar says.** -/
theorem scanFields_isSome_iff {sep : UInt8} (hsep : IsSep sep) (n : ℕ) (str : Bytes) :
    (scanFields sep n str).isSome = true
      ↔ ∃ fs rest, fs.length = n + 1 ∧ Scans sep fs str rest := by
  induction n generalizing str with
  | zero =>
    rw [scanFields, Option.isSome_map]
    constructor
    · intro h
      obtain ⟨⟨v, rest⟩, hscan⟩ := Option.isSome_iff_exists.mp h
      obtain ⟨f, rfl, hend⟩ := field_of_scanHex hscan
      exact ⟨[f], rest, rfl, .last f hend⟩
    · rintro ⟨fs, rest, hlen, hscan⟩
      cases hscan with
      | last f hend =>
        obtain ⟨v, hv⟩ := scanHex_field f hend
        rw [hv]
        rfl
      | more f h => cases h <;> cases hlen
  | succ n ih =>
    rw [scanFields]
    constructor
    · intro h
      split at h
      · cases h
      rename_i v rest hscan
      split at h
      · rename_i hrest
        rw [Option.isSome_map, ih] at h
        obtain ⟨fs, rest', hlen, hscans⟩ := h
        obtain ⟨f, rfl, -⟩ := field_of_scanHex hscan
        have hne : sep ≠ 0 := by rcases hsep with rfl | rfl <;> decide
        obtain ⟨t, rfl⟩ : ∃ t, rest = sep :: t := by
          cases rest with
          | nil => exact absurd hrest.symm hne
          | cons b t => exact ⟨t, by rw [← hrest, deref_cons]⟩
        exact ⟨f :: fs, rest', by rw [List.length_cons, hlen], .more f hscans⟩
      · cases h
    · rintro ⟨fs, rest, hlen, hscan⟩
      cases hscan with
      | last f hend => cases hlen
      | @more f fs t _ hscans =>
        obtain ⟨v, hv⟩ := scanHex_field f (endsAt_sep hsep f t)
        rw [hv]
        dsimp only
        rw [deref_cons, if_pos rfl, Option.isSome_map, List.tail_cons, ih]
        exact ⟨fs, rest, Nat.succ.inj hlen, hscans⟩

/-- **A string is read as a number of fields in one way only**, whichever of
the two separators it has. -/
theorem Scans.unique {sep sep' : UInt8} {fs fs' : List Field} {t t' rest rest' : Bytes}
    (hsep : IsSep sep) (hsep' : IsSep sep') (h : Scans sep fs t rest)
    (h' : Scans sep' fs' t' rest') (hlen : fs.length = fs'.length) (ht : t = t') :
    fs = fs' ∧ rest = rest' := by
  induction h generalizing fs' t' with
  | last f hend =>
    cases h' with
    | last f' hend' =>
      obtain ⟨rfl, rfl⟩ := Field.unique hend hend' ht
      exact ⟨rfl, rfl⟩
    | more f' h' => cases h' <;> cases hlen
  | more f h ih =>
    cases h' with
    | last f' hend' => cases h <;> cases hlen
    | more f' h' =>
      obtain ⟨rfl, hrest⟩ := Field.unique (endsAt_sep hsep f _) (endsAt_sep hsep' f' _) ht
      obtain ⟨-, htail⟩ := List.cons.inj hrest
      obtain ⟨rfl, rfl⟩ := ih h' (Nat.succ.inj hlen) htail
      exact ⟨rfl, rfl⟩

/-- The two attempts succeed on what six conversions read. -/
theorem scanMac_isSome_iff (mac : Bytes) :
    (scanMac mac).isSome = true
      ↔ ∃ sep fs rest, IsSep sep ∧ fs.length = 6 ∧ Scans sep fs mac rest := by
  rw [scanMac, Option.isSome_map, Option.isSome_or, Bool.or_eq_true,
    scanFields_isSome_iff (Or.inl rfl), scanFields_isSome_iff (Or.inr rfl)]
  constructor
  · rintro (⟨fs, rest, hlen, h⟩ | ⟨fs, rest, hlen, h⟩)
    · exact ⟨58, fs, rest, Or.inl rfl, hlen, h⟩
    · exact ⟨45, fs, rest, Or.inr rfl, hlen, h⟩
  · rintro ⟨sep, fs, rest, rfl | rfl, hlen, h⟩
    · exact Or.inl ⟨fs, rest, hlen, h⟩
    · exact Or.inr ⟨fs, rest, hlen, h⟩

/-! ## MAC addresses -/

/-- One or two hexadecimal digits. -/
def IsGroup (g : Bytes) : Prop :=
  (g.length = 1 ∨ g.length = 2) ∧ ∀ b ∈ g, ∃ v, hexVal b = some v

/-- **The text of a MAC address**: six groups of one or two hexadecimal
digits, with colons between them or with dashes, and nothing else. -/
def IsMac (mac : Bytes) : Prop :=
  ∃ sep, IsSep sep ∧ ∃ gs : List Bytes, gs.length = 6 ∧ (∀ g ∈ gs, IsGroup g)
    ∧ mac = [sep].intercalate gs

/-- A group as a field. -/
theorem IsGroup.exists_field {g : Bytes} (h : IsGroup g) :
    ∃ f : Field, f.Plain ∧ f.text = g := by
  have hnone : ∀ b ∈ (none : Option UInt8), b = 43 ∨ b = 45 := fun _ hb => by cases hb
  exact ⟨⟨[], none, g, List.forall_mem_nil _, hnone, h.2, h.1.imp id (fun h => ⟨h, rfl⟩)⟩,
    ⟨rfl, rfl⟩, rfl⟩

/-- Groups with a separator between them are read as they are. -/
theorem scans_intercalate (sep : UInt8) {gs : List Bytes} (hne : gs ≠ [])
    (hgs : ∀ g ∈ gs, IsGroup g) :
    ∃ fs, fs.length = gs.length ∧ (∀ f ∈ fs, f.Plain) ∧ Scans sep fs ([sep].intercalate gs) [] := by
  induction gs with
  | nil => exact absurd rfl hne
  | cons g gs ih =>
    rw [List.forall_mem_cons] at hgs
    obtain ⟨f, hplain, htext⟩ := hgs.1.exists_field
    cases gs with
    | nil =>
      have hend : f.EndsAt [] := fun _ _ _ => ⟨rfl, fun h => absurd h.2 (by decide)⟩
      refine ⟨[f], rfl, List.forall_mem_singleton.mpr hplain, ?_⟩
      rw [List.intercalate_singleton, ← htext, ← List.append_nil f.text]
      exact .last f hend
    | cons g' gs =>
      obtain ⟨fs, hlen, hfs, hscans⟩ := ih (List.cons_ne_nil _ _) hgs.2
      refine ⟨f :: fs, congrArg Nat.succ hlen,
        List.forall_mem_cons.mpr ⟨hplain, hfs⟩, ?_⟩
      rw [List.intercalate_cons_cons, ← htext, List.append_assoc, List.singleton_append]
      exact .more f hscans

/-- A field that is digits and nothing else is a group. -/
theorem Field.Plain.isGroup {f : Field} (h : f.Plain) : IsGroup f.text := by
  have htext : f.text = f.digits := by rw [Field.text, h.1, h.2]; rfl
  rw [htext]
  exact ⟨f.width.imp id And.left, f.digits_eq⟩

/-- What is read as groups is groups with a separator between them. -/
theorem Scans.intercalate {sep : UInt8} {fs : List Field} {t rest : Bytes}
    (h : Scans sep fs t rest) : t = [sep].intercalate (fs.map Field.text) ++ rest := by
  induction h with
  | last f hend => rw [List.map_singleton, List.intercalate_singleton]
  | @more f fs t rest h ih =>
    have hcons : ∃ f' fs', fs = f' :: fs' := by
      cases h with
      | last f' _ => exact ⟨f', [], rfl⟩
      | more f' _ => exact ⟨f', _, rfl⟩
    obtain ⟨f', fs', rfl⟩ := hcons
    rw [ih, List.map_cons, List.map_cons, List.map_cons, List.intercalate_cons_cons]
    simp

/-- A MAC address is what six conversions read where they find groups only,
and the end of the string behind them. -/
theorem isMac_iff (mac : Bytes) :
    IsMac mac ↔ ∃ sep fs, IsSep sep ∧ fs.length = 6 ∧ Scans sep fs mac []
      ∧ ∀ f ∈ fs, f.Plain := by
  constructor
  · rintro ⟨sep, hsep, gs, hlen, hgs, rfl⟩
    obtain ⟨fs, hfs, hplain, hscans⟩ := scans_intercalate sep
      (List.length_pos_iff.mp (by omega)) hgs
    exact ⟨sep, fs, hsep, hfs.trans hlen, hscans, hplain⟩
  · rintro ⟨sep, fs, hsep, hlen, hscans, hplain⟩
    refine ⟨sep, hsep, fs.map Field.text, by rw [List.length_map, hlen], fun g hg => ?_, ?_⟩
    · obtain ⟨f, hf, rfl⟩ := List.mem_map.mp hg
      exact (hplain f hf).isGroup
    · rw [hscans.intercalate, List.append_nil]

/-- **A text is accepted exactly when it is a MAC address, unless it begins
with six fields that are not plain or goes on behind them.** -/
theorem scanMac_iff_isMac_iff (mac : Bytes) :
    ((scanMac mac).isSome = true ↔ IsMac mac)
      ↔ ∀ sep fs rest, IsSep sep → fs.length = 6 → Scans sep fs mac rest →
        (∀ f ∈ fs, f.Plain) ∧ rest = [] := by
  rw [scanMac_isSome_iff, isMac_iff]
  constructor
  · intro h sep fs rest hsep hlen hscans
    obtain ⟨sep', fs', hsep', hlen', hscans', hplain⟩ := h.mp ⟨sep, fs, rest, hsep, hlen, hscans⟩
    obtain ⟨rfl, rfl⟩ := hscans.unique hsep hsep' hscans' (hlen.trans hlen'.symm) rfl
    exact ⟨hplain, rfl⟩
  · intro h
    constructor
    · rintro ⟨sep, fs, rest, hsep, hlen, hscans⟩
      obtain ⟨hplain, rfl⟩ := h sep fs rest hsep hlen hscans
      exact ⟨sep, fs, hsep, hlen, hscans, hplain⟩
    · rintro ⟨sep, fs, hsep, hlen, hscans, -⟩
      exact ⟨sep, fs, [], hsep, hlen, hscans⟩

/-- The characters of a MAC address. -/
theorem IsMac.mem {mac : Bytes} (h : IsMac mac) {b : UInt8} (hb : b ∈ mac) :
    IsSep b ∨ ∃ v, hexVal b = some v := by
  obtain ⟨sep, hsep, gs, -, hgs, rfl⟩ := h
  rcases mem_intercalate hb with rfl | ⟨g, hg, hbg⟩
  · exact Or.inl hsep
  · exact Or.inr ((hgs g hg).2 b hbg)

/-- **A text that goes on behind six groups is accepted.** -/
theorem trailing_accepted :
    (scanMac (lit "0:1:2:3:4:5 and more")).isSome = true
      ∧ ¬ IsMac (lit "0:1:2:3:4:5 and more") := by
  refine ⟨by decide, fun h => ?_⟩
  rcases h.mem (show (32 : UInt8) ∈ lit "0:1:2:3:4:5 and more" by decide) with (h | h) | ⟨v, h⟩
  all_goals cases h

end Server
