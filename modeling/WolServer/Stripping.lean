import WolServer.JsonText

/-!
# Texts without their white space

A scan that copies a text and leaves out white space and comments, a byte at a
time. What it does to a byte depends only on where the byte is
(`Stripping.next`): inside of a string every byte is copied, and a slash is
held back until the byte after it tells whether it opens a comment. A comment
`/* … */` may be closed by the very star that opens it, so that `/*/` is one.
This module is a library – it names no program.

`Stripping.Keeps a a'` reads: between two tokens the scan copies `a` to `a'`,
and is between two tokens again. Texts of the grammar are kept
(`Stripping.keeps_of_derives`), so a text of a value becomes a text of the same
value, and one that the scan does not change again
(`Stripping.isText_strip`). Comments between tokens make no difference
(`Stripping.Commented.strip_eq`).
-/

namespace Stripping

/-- Where a byte of a text is. -/
inductive Place where
  /-- Outside of strings and comments. -/
  | code
  /-- There, behind a slash. -/
  | slash
  /-- In a comment that goes to the end of its line. -/
  | line
  /-- In a comment that goes to its closing mark. -/
  | block
  /-- There, behind a star. -/
  | star
  /-- In a string. -/
  | string
  /-- There, behind a backslash. -/
  | escape
  deriving DecidableEq, Repr

/-- A byte outside of strings and comments: where the next one is, and what is
copied. -/
def nextCode (b : UInt8) : Place × Bytes :=
  if b = 32 ∨ b = 9 ∨ b = 13 ∨ b = 10 then (.code, [])
  else if b = 47 then (.slash, [])
  else if b = 34 then (.string, [b])
  else (.code, [b])

/-- **A byte of the text**: where the next one is, and what is copied. -/
def next : Place → UInt8 → Place × Bytes
  | .code, b => nextCode b
  | .slash, b =>
    if b = 47 then (.line, [])
    else if b = 42 then (.star, [])
    else ((nextCode b).1, 47 :: (nextCode b).2)
  | .line, b => if b = 10 then (.code, []) else (.line, [])
  | .block, b => if b = 42 then (.star, []) else (.block, [])
  | .star, b => if b = 47 then (.code, []) else if b = 42 then (.star, []) else (.block, [])
  | .string, b => if b = 34 then (.code, [b]) else if b = 92 then (.escape, [b]) else (.string, [b])
  | .escape, b => (.string, [b])

/-- **The scan**: where it ends, and what it has copied. -/
def scan : Place → Bytes → Place × Bytes
  | p, [] => (p, [])
  | p, b :: t => ((scan (next p b).1 t).1, (next p b).2 ++ (scan (next p b).1 t).2)

/-- What is copied at the end of the text. A string or a comment that is not
closed there has no end. -/
def final : Place → Option Bytes
  | .code | .line => some []
  | .slash => some [47]
  | .block | .star | .string | .escape => none

/-- **What is left of a text**, from a place on. -/
def strip (p : Place) (t : Bytes) : Option Bytes :=
  (final (scan p t).1).map ((scan p t).2 ++ ·)

theorem scan_cons (p : Place) (b : UInt8) (t : Bytes) : scan p (b :: t)
    = ((scan (next p b).1 t).1, (next p b).2 ++ (scan (next p b).1 t).2) := rfl

theorem scan_append (p : Place) (t u : Bytes) : scan p (t ++ u)
    = ((scan (scan p t).1 u).1, (scan p t).2 ++ (scan (scan p t).1 u).2) := by
  induction t generalizing p with
  | nil => rfl
  | cons b t ih => rw [List.cons_append, scan_cons, ih, scan_cons, List.append_assoc]

/-- The scan of the rest goes on from where the front ends. -/
theorem strip_append (p : Place) (t u : Bytes) :
    strip p (t ++ u) = (strip (scan p t).1 u).map ((scan p t).2 ++ ·) := by
  unfold strip
  rw [scan_append, Option.map_map]
  congr 1
  funext x
  exact List.append_assoc _ _ _

theorem strip_cons (p : Place) (b : UInt8) (t : Bytes) :
    strip p (b :: t) = (strip (next p b).1 t).map ((next p b).2 ++ ·) := by
  rw [← List.singleton_append, strip_append]
  simp [scan]

/-- A byte that nothing is copied for. -/
theorem strip_skip {p q : Place} {b : UInt8} (h : next p b = (q, [])) (t : Bytes) :
    strip p (b :: t) = strip q t := by
  rw [strip_cons, h]
  exact Option.map_id'

/-- A slash that opens no comment is copied. -/
theorem strip_slash {t : Bytes} (hline : deref t ≠ 47) (hblock : deref t ≠ 42) :
    strip .slash t = (strip .code t).map ([47] ++ ·) := by
  cases t with
  | nil => rfl
  | cons b t =>
    rw [deref_cons] at hline hblock
    rw [strip_cons, strip_cons, Option.map_map, show next .slash b
      = ((nextCode b).1, 47 :: (nextCode b).2) by simp only [next, if_neg hline, if_neg hblock]]
    rfl

/-- A star that closes no comment is like any other byte of the comment. -/
theorem strip_star {t : Bytes} (h : deref t ≠ 47) : strip .star t = strip .block t := by
  cases t with
  | nil => rfl
  | cons b t =>
    rw [deref_cons] at h
    rw [strip_cons, strip_cons, show next .star b = next .block b by simp only [next, if_neg h]]

/-! ## What is copied is part of the text -/

/-- What the scan holds back. -/
def pending : Place → Bytes
  | .slash => [47]
  | _ => []

/-- A byte in code, and nothing else, is copied or held back. -/
theorem nextCode_sublist (b : UInt8) :
    ((nextCode b).2 ++ pending (nextCode b).1).Sublist [b] := by
  unfold nextCode
  split_ifs with h₁ h₂ h₃
  · exact List.nil_sublist _
  · rw [h₂]
    exact List.Sublist.refl _
  · exact List.Sublist.refl _
  · exact List.Sublist.refl _

/-- **A byte adds no more than itself.** -/
theorem next_sublist (p : Place) (b : UInt8) :
    ((next p b).2 ++ pending (next p b).1).Sublist (pending p ++ [b]) := by
  cases p with
  | code => exact nextCode_sublist b
  | slash =>
    simp only [next]
    split_ifs
    · exact List.nil_sublist _
    · exact List.nil_sublist _
    · exact (nextCode_sublist b).cons_cons 47
  | line | block | star =>
    simp only [next]
    split_ifs <;> exact List.nil_sublist _
  | string =>
    simp only [next]
    split_ifs <;> exact List.Sublist.refl _
  | escape => exact List.Sublist.refl _

theorem scan_sublist (p : Place) (t : Bytes) :
    ((scan p t).2 ++ pending (scan p t).1).Sublist (pending p ++ t) := by
  induction t generalizing p with
  | nil => rw [List.append_nil]; exact List.Sublist.refl _
  | cons b t ih =>
    rw [scan_cons, List.append_assoc]
    refine ((ih (next p b).1).append_left _).trans ?_
    rw [← List.append_assoc, ← List.singleton_append (l := t), ← List.append_assoc]
    exact (next_sublist p b).append_right t

/-- **What is left of a text is part of it.** -/
theorem sublist_of_strip {t u : Bytes} (h : strip .code t = some u) : u.Sublist t := by
  obtain ⟨w, hw, rfl⟩ := Option.map_eq_some_iff.mp h
  have hpending : w.Sublist (pending (scan .code t).1) := by
    revert hw
    cases (scan .code t).1 <;> intro hw <;> cases hw <;> exact List.Sublist.refl _
  exact (hpending.append_left _).trans (scan_sublist .code t)

/-! ## Texts of the grammar -/

/-- **Between two tokens the scan copies `a` to `a'`**, and `a'` to itself, and
is between two tokens again. -/
structure Keeps (a a' : Bytes) : Prop where
  /-- The scan copies `a` to `a'`. -/
  leaves : scan .code a = (.code, a')
  /-- It does not change `a'`. -/
  stays : scan .code a' = (.code, a')

theorem Keeps.nil : Keeps [] [] := ⟨rfl, rfl⟩

theorem scan_code_append {a a' b b' : Bytes} (ha : scan .code a = (.code, a'))
    (hb : scan .code b = (.code, b')) : scan .code (a ++ b) = (.code, a' ++ b') := by
  rw [scan_append, ha, hb]

theorem Keeps.append {a a' b b' : Bytes} (ha : Keeps a a') (hb : Keeps b b') :
    Keeps (a ++ b) (a' ++ b') :=
  ⟨scan_code_append ha.leaves hb.leaves, scan_code_append ha.stays hb.stays⟩

/-- A byte that is copied as it is. -/
theorem keeps_byte {b : UInt8} (hb : nextCode b = (.code, [b])) : Keeps [b] [b] := by
  have h : scan .code [b] = (.code, [b]) := by
    rw [scan_cons, show next .code b = (.code, [b]) from hb]
    rfl
  exact ⟨h, h⟩

/-- Bytes that are copied as they are. -/
theorem keeps_of_forall {a : Bytes} (h : ∀ b ∈ a, nextCode b = (.code, [b])) : Keeps a a := by
  induction a with
  | nil => exact Keeps.nil
  | cons b a ih =>
    exact (keeps_byte (h b List.mem_cons_self)).append
      (ih (fun c hc => h c (List.mem_cons_of_mem b hc)))

theorem Keeps.strip {a a' : Bytes} (h : Keeps a a') :
    Stripping.strip .code a = some a' ∧ Stripping.strip .code a' = some a' := by
  unfold Stripping.strip
  rw [h.leaves, h.stays]
  exact ⟨congrArg some (List.append_nil a'), congrArg some (List.append_nil a')⟩

/-- **White space is left out.** -/
theorem keeps_of_ws {t r : Bytes} (h : JsonText.Ws t r) : ∃ a, t = a ++ r ∧ Keeps a [] := by
  induction h with
  | nil t => exact ⟨[], rfl, Keeps.nil⟩
  | @cons b t r hb _ ih =>
    obtain ⟨a, rfl, ha⟩ := ih
    have hb' : Keeps [b] [] := by
      rcases hb with rfl | rfl | rfl | rfl <;> exact ⟨rfl, rfl⟩
    exact ⟨b :: a, rfl, hb'.append ha⟩

/-- In a string a byte is copied, and so is what follows up to the closing
quote. -/
theorem scan_string_cons {b : UInt8} (hquote : b ≠ 34) (hback : b ≠ 92) {a : Bytes}
    (ha : scan .string a = (.code, a)) : scan .string (b :: a) = (.code, b :: a) := by
  rw [scan_cons, show next .string b = (.string, [b]) by simp only [next, if_neg hquote,
    if_neg hback], ha]
  rfl

theorem scan_string_escape (e : UInt8) {a : Bytes} (ha : scan .string a = (.code, a)) :
    scan .string (92 :: e :: a) = (.code, 92 :: e :: a) := by
  rw [scan_cons, scan_cons, show next .string 92 = (.escape, [92]) from rfl,
    show next .escape e = (.string, [e]) from rfl, ha]
  rfl

theorem hexVal_ne {b : UInt8} {v : ℕ} (h : JsonText.hexVal b = some v) : b ≠ 34 ∧ b ≠ 92 := by
  constructor <;> (rintro rfl; cases h)

theorem scan_string_hex4 {b₁ b₂ b₃ b₄ : UInt8} {n : ℕ}
    (h : JsonText.hex4 b₁ b₂ b₃ b₄ = some n) {a : Bytes}
    (ha : scan .string a = (.code, a)) : scan .string (b₁ :: b₂ :: b₃ :: b₄ :: a)
      = (.code, b₁ :: b₂ :: b₃ :: b₄ :: a) := by
  simp only [JsonText.hex4, Option.pure_def, Option.bind_eq_bind, Option.bind_eq_some_iff] at h
  obtain ⟨_, h₁, _, h₂, _, h₃, _, h₄, -⟩ := h
  exact scan_string_cons (hexVal_ne h₁).1 (hexVal_ne h₁).2
    (scan_string_cons (hexVal_ne h₂).1 (hexVal_ne h₂).2
      (scan_string_cons (hexVal_ne h₃).1 (hexVal_ne h₃).2
        (scan_string_cons (hexVal_ne h₄).1 (hexVal_ne h₄).2 ha)))

/-- **A string is copied as it is.** -/
theorem scan_of_strBody {t s r : Bytes} (h : JsonText.StrBody t s r) :
    ∃ a, t = a ++ r ∧ scan .string a = (.code, a) ∧ ∀ x, JsonText.StrBody (a ++ x) s x := by
  induction h with
  | close r => exact ⟨[34], rfl, rfl, JsonText.StrBody.close⟩
  | @plain b t s r hb _ ih =>
    obtain ⟨a, rfl, ha, hx⟩ := ih
    have hquote : b ≠ 34 := by rintro rfl; cases hb
    have hback : b ≠ 92 := by rintro rfl; cases hb
    exact ⟨b :: a, rfl, scan_string_cons hquote hback ha,
      fun x => JsonText.StrBody.plain hb (hx x)⟩
  | @escape e b t s r he _ ih =>
    obtain ⟨a, rfl, ha, hx⟩ := ih
    exact ⟨92 :: e :: a, rfl, scan_string_escape e ha,
      fun x => JsonText.StrBody.escape he (hx x)⟩
  | unicode hc _ ih =>
    obtain ⟨a, rfl, ha, hx⟩ := ih
    exact ⟨92 :: 117 :: _ :: _ :: _ :: _ :: a, rfl,
      scan_string_escape 117 (scan_string_hex4 hc ha),
      fun x => JsonText.StrBody.unicode hc (hx x)⟩
  | pair hhi hlo hi₀ hi₁ lo₀ lo₁ hc _ ih =>
    obtain ⟨a, rfl, ha, hx⟩ := ih
    exact ⟨92 :: 117 :: _ :: _ :: _ :: _ :: 92 :: 117 :: _ :: _ :: _ :: _ :: a, rfl,
      scan_string_escape 117
        (scan_string_hex4 hhi (scan_string_escape 117 (scan_string_hex4 hlo ha))),
      fun x => JsonText.StrBody.pair hhi hlo hi₀ hi₁ lo₀ lo₁ hc (hx x)⟩

/-- A string, with both of its quotes. -/
theorem keeps_of_strBody {t s r : Bytes} (h : JsonText.StrBody t s r) :
    ∃ a, t = a ++ r ∧ Keeps (34 :: a) (34 :: a) ∧ ∀ x, JsonText.StrBody (a ++ x) s x := by
  obtain ⟨a, rfl, ha, hx⟩ := scan_of_strBody h
  have hscan : scan .code (34 :: a) = (.code, 34 :: a) := by
    rw [scan_cons, show next .code 34 = (.string, [34]) from rfl, ha]
    rfl
  exact ⟨a, rfl, ⟨hscan, hscan⟩, hx⟩

theorem nextCode_digit {b : UInt8} (h : isDigit b = true) : nextCode b = (.code, [b]) := by
  unfold nextCode
  rw [if_neg, if_neg, if_neg]
  · rintro rfl; cases h
  · rintro rfl; cases h
  · rintro (rfl | rfl | rfl | rfl) <;> cases h

theorem keeps_of_digits {ds : Bytes} (h : JsonText.Digits ds) : Keeps ds ds :=
  keeps_of_forall (fun b hb => nextCode_digit (h b hb))

/-- **A number is copied as it is.** -/
theorem keeps_of_numeral {t : Bytes} {m e : ℤ} (h : JsonText.Numeral t m e) : Keeps t t := by
  obtain ⟨neg, ip, fp, x, hip, hfp, hx⟩ := h
  have hsign : Keeps (if neg then [45] else []) (if neg then [45] else []) := by
    cases neg <;> exact ⟨rfl, rfl⟩
  have hfrac : Keeps (JsonText.fracText fp) (JsonText.fracText fp) := by
    unfold JsonText.fracText
    split
    · exact Keeps.nil
    · exact (keeps_byte (b := 46) rfl).append (keeps_of_digits hfp)
  have hexp : Keeps (x.elim [] JsonText.Exponent.text) (x.elim [] JsonText.Exponent.text) := by
    cases x with
    | none => exact Keeps.nil
    | some y =>
      have hletter : Keeps [if y.capital then 69 else 101] [if y.capital then 69 else 101] := by
        cases y.capital <;> exact ⟨rfl, rfl⟩
      refine hletter.append (Keeps.append ?_ (keeps_of_digits (hx y rfl).2))
      rcases y.sign with _ | _ | _ <;> exact ⟨rfl, rfl⟩
  exact hsign.append ((keeps_of_digits hip.digits).append (hfrac.append hexp))

/-- A number may end before a byte that is no part of one. -/
theorem numEnd_cons {b : UInt8} (hdigit : isDigit b = false) (hpoint : b ≠ 46)
    (hsmall : b ≠ 101) (hcapital : b ≠ 69) (x : Bytes) : JsonText.NumEnd (b :: x) := by
  intro c hc
  obtain rfl : b = c := Option.some.inj hc
  exact ⟨hdigit, hpoint, hsmall, hcapital⟩

/-- **The scan keeps every text of the grammar**: what it leaves of a phrase is
a text of the phrase. By induction on the derivation; what follows the phrase
may become any bytes that a number can end before. -/
theorem keeps_of_derives {t r : Bytes} {p : JsonText.Phrase} (h : JsonText.Derives t p r) :
    ∃ a a', t = a ++ r ∧ Keeps a a' ∧ ∀ x, JsonText.NumEnd x → JsonText.Derives (a' ++ x) p x := by
  induction h with
  | null r => exact ⟨lit "null", lit "null", rfl, ⟨by decide, by decide⟩, fun x _ => .null x⟩
  | true_ r => exact ⟨lit "true", lit "true", rfl, ⟨by decide, by decide⟩, fun x _ => .true_ x⟩
  | false_ r =>
    exact ⟨lit "false", lit "false", rfl, ⟨by decide, by decide⟩, fun x _ => .false_ x⟩
  | @num t m e r h _ => exact ⟨t, t, rfl, keeps_of_numeral h, fun x hx => .num h hx⟩
  | str h =>
    obtain ⟨a, rfl, ha, hx⟩ := keeps_of_strBody h
    exact ⟨34 :: a, 34 :: a, rfl, ha, fun x _ => .str (hx x)⟩
  | arrNil h =>
    obtain ⟨a, rfl, ha⟩ := keeps_of_ws h
    exact ⟨[91] ++ (a ++ [93]), [91, 93], by simp,
      (keeps_byte rfl).append (ha.append (keeps_byte rfl)), fun x _ => .arrNil (.nil _)⟩
  | arr _ ih =>
    obtain ⟨a, a', rfl, ha, hx⟩ := ih
    exact ⟨[91] ++ a, [91] ++ a', rfl, (keeps_byte rfl).append ha, fun x hend => .arr (hx x hend)⟩
  | objNil h =>
    obtain ⟨a, rfl, ha⟩ := keeps_of_ws h
    exact ⟨[123] ++ (a ++ [125]), [123, 125], by simp,
      (keeps_byte rfl).append (ha.append (keeps_byte rfl)), fun x _ => .objNil (.nil _)⟩
  | obj _ ih =>
    obtain ⟨a, a', rfl, ha, hx⟩ := ih
    exact ⟨[123] ++ a, [123] ++ a', rfl, (keeps_byte rfl).append ha, fun x hend => .obj (hx x hend)⟩
  | lastElement h₁ _ h₃ ih =>
    obtain ⟨a₁, rfl, ha₁⟩ := keeps_of_ws h₁
    obtain ⟨a₂, a₂', rfl, ha₂, hx⟩ := ih
    obtain ⟨a₃, rfl, ha₃⟩ := keeps_of_ws h₃
    refine ⟨a₁ ++ (a₂ ++ (a₃ ++ [93])), a₂' ++ [93], by simp,
      ha₁.append (ha₂.append (ha₃.append (keeps_byte rfl))), fun x _ => ?_⟩
    rw [List.append_assoc]
    exact .lastElement (.nil _) (hx _ (numEnd_cons rfl (by decide) (by decide) (by decide) x))
      (.nil _)
  | element h₁ _ h₃ _ ih₂ ih₄ =>
    obtain ⟨a₁, rfl, ha₁⟩ := keeps_of_ws h₁
    obtain ⟨a₂, a₂', rfl, ha₂, hx₂⟩ := ih₂
    obtain ⟨a₃, rfl, ha₃⟩ := keeps_of_ws h₃
    obtain ⟨a₄, a₄', rfl, ha₄, hx₄⟩ := ih₄
    refine ⟨a₁ ++ (a₂ ++ (a₃ ++ ([44] ++ a₄))), a₂' ++ ([44] ++ a₄'), by simp,
      ha₁.append (ha₂.append (ha₃.append ((keeps_byte rfl).append ha₄))), fun x hend => ?_⟩
    rw [List.append_assoc]
    exact .element (.nil _) (hx₂ _ (numEnd_cons rfl (by decide) (by decide) (by decide) _))
      (.nil _) (hx₄ x hend)
  | lastMember h₁ h₂ h₃ h₄ _ h₆ ih =>
    obtain ⟨a₁, rfl, ha₁⟩ := keeps_of_ws h₁
    obtain ⟨k, rfl, hk, hkx⟩ := keeps_of_strBody h₂
    obtain ⟨a₃, rfl, ha₃⟩ := keeps_of_ws h₃
    obtain ⟨a₄, rfl, ha₄⟩ := keeps_of_ws h₄
    obtain ⟨a₅, a₅', rfl, ha₅, hx⟩ := ih
    obtain ⟨a₆, rfl, ha₆⟩ := keeps_of_ws h₆
    refine ⟨a₁ ++ (34 :: k ++ (a₃ ++ ([58] ++ (a₄ ++ (a₅ ++ (a₆ ++ [125])))))),
      34 :: k ++ ([58] ++ (a₅' ++ [125])), by simp,
      ha₁.append (hk.append (ha₃.append ((keeps_byte rfl).append (ha₄.append
        (ha₅.append (ha₆.append (keeps_byte rfl))))))), fun x _ => ?_⟩
    rw [List.append_assoc, List.append_assoc, List.append_assoc]
    exact .lastMember (.nil _) (hkx _) (.nil _) (.nil _)
      (hx _ (numEnd_cons rfl (by decide) (by decide) (by decide) x)) (.nil _)
  | member h₁ h₂ h₃ h₄ _ h₆ _ ih₅ ih₇ =>
    obtain ⟨a₁, rfl, ha₁⟩ := keeps_of_ws h₁
    obtain ⟨k, rfl, hk, hkx⟩ := keeps_of_strBody h₂
    obtain ⟨a₃, rfl, ha₃⟩ := keeps_of_ws h₃
    obtain ⟨a₄, rfl, ha₄⟩ := keeps_of_ws h₄
    obtain ⟨a₅, a₅', rfl, ha₅, hx₅⟩ := ih₅
    obtain ⟨a₆, rfl, ha₆⟩ := keeps_of_ws h₆
    obtain ⟨a₇, a₇', rfl, ha₇, hx₇⟩ := ih₇
    refine ⟨a₁ ++ (34 :: k ++ (a₃ ++ ([58] ++ (a₄ ++ (a₅ ++ (a₆ ++ ([44] ++ a₇))))))),
      34 :: k ++ ([58] ++ (a₅' ++ ([44] ++ a₇'))), by simp,
      ha₁.append (hk.append (ha₃.append ((keeps_byte rfl).append (ha₄.append
        (ha₅.append (ha₆.append ((keeps_byte rfl).append ha₇))))))), fun x hend => ?_⟩
    rw [List.append_assoc, List.append_assoc, List.append_assoc, List.append_assoc]
    exact .member (.nil _) (hkx _) (.nil _) (.nil _)
      (hx₅ _ (numEnd_cons rfl (by decide) (by decide) (by decide) _)) (.nil _) (hx₇ x hend)

/-- **What is left of a text of a value is a text of that value**, and the scan
does not change it again. -/
theorem isText_strip {v : Json} {t : Bytes} (h : JsonText.IsText v t) :
    ∃ u, strip .code t = some u ∧ strip .code u = some u ∧ JsonText.Derives u (.value v) [] := by
  obtain ⟨t₁, t₂, h₁, hv, h₂⟩ := h
  obtain ⟨a₁, rfl, ha₁⟩ := keeps_of_ws h₁
  obtain ⟨a, a', rfl, ha, hx⟩ := keeps_of_derives hv
  obtain ⟨a₂, rfl, ha₂⟩ := keeps_of_ws h₂
  have hkeeps : Keeps (a₁ ++ (a ++ (a₂ ++ []))) a' := by
    simpa using ha₁.append (ha.append ha₂)
  refine ⟨a', hkeeps.strip.1, hkeeps.strip.2, ?_⟩
  have hnil : JsonText.NumEnd [] := fun b hb => by cases hb
  simpa using hx [] hnil

/-! ## Comments -/

/-- **A comment**: two slashes and the rest of the line, or what is between
`/*` and `*/`. The mark that closes it may not be in it before, and not end in
the star that opens it either. -/
inductive Comment : Bytes → Prop
  /-- `// …`, with the end of the line. -/
  | line {body : Bytes} (h : 10 ∉ body) : Comment (47 :: 47 :: body ++ [10])
  /-- `/* … */`. -/
  | block {body : Bytes} (h : ¬ [42, 47] <:+: 42 :: body) :
      Comment (47 :: 42 :: body ++ [42, 47])

/-- **A text with comments in it**, between bytes that are outside of
strings. -/
inductive Commented (t : Bytes) : Bytes → Prop
  /-- None. -/
  | refl : Commented t t
  /-- One more. -/
  | insert {a c b : Bytes} (h : Commented t (a ++ b)) (ha : (scan .code a).1 = .code)
      (hc : Comment c) : Commented t (a ++ (c ++ b))

/-- A line that does not end is left out. -/
theorem scan_line {body : Bytes} (h : 10 ∉ body) : scan .line body = (.line, []) := by
  induction body with
  | nil => rfl
  | cons b body ih =>
    obtain ⟨hb, hbody⟩ := not_or.mp (mt List.mem_cons.mpr h)
    rw [scan_cons, show next .line b = (.line, []) by simp only [next, if_neg (Ne.symm hb)],
      ih hbody]
    rfl

/-- The mark does not begin in the star that is before the text. -/
theorem deref_ne_slash {body : Bytes} (h : ¬ [42, 47] <:+: 42 :: body) : deref body ≠ 47 := by
  cases body with
  | nil => decide
  | cons b body =>
    rintro rfl
    exact h ⟨[], body, rfl⟩

/-- **A comment that is not closed is left out**, whether a star is before it or
not. -/
theorem scan_block {p : Place} {body : Bytes}
    (hp : p = .block ∨ p = .star ∧ deref body ≠ 47) (h : ¬ [42, 47] <:+: body) :
    ((scan p body).1 = .block ∨ (scan p body).1 = .star) ∧ (scan p body).2 = [] := by
  induction body generalizing p with
  | nil => exact ⟨hp.imp_right And.left, rfl⟩
  | cons b body ih =>
    have hbody : ¬ [42, 47] <:+: body :=
      mt (List.IsInfix.trans · (List.suffix_cons b body).isInfix) h
    have hnext : next p b = (if b = 42 then .star else .block, []) := by
      rcases hp with rfl | ⟨rfl, hfirst⟩
      · simp only [next]
        split_ifs <;> rfl
      · rw [deref_cons] at hfirst
        simp only [next, if_neg hfirst]
        split_ifs <;> rfl
    rw [scan_cons, hnext]
    refine ih ?_ hbody
    split_ifs with hb
    · exact Or.inr ⟨rfl, deref_ne_slash (hb ▸ h)⟩
    · exact Or.inl rfl

/-- **A comment is left out.** -/
theorem scan_comment {c : Bytes} (h : Comment c) : scan .code c = (.code, []) := by
  cases h with
  | @line body h =>
    rw [scan_append, show scan .code (47 :: 47 :: body) = scan .line body from rfl, scan_line h]
    rfl
  | @block body h =>
    have hbody : ¬ [42, 47] <:+: body :=
      mt (List.IsInfix.trans · (List.suffix_cons 42 body).isInfix) h
    obtain ⟨hplace, hcopied⟩ := scan_block (p := .star) (Or.inr ⟨rfl, deref_ne_slash h⟩) hbody
    rw [scan_append, show scan .code (47 :: 42 :: body) = scan .star body from rfl, hcopied]
    rcases hplace with hplace | hplace <;> rw [hplace] <;> rfl

/-- **Comments make no difference.** -/
theorem Commented.strip_eq {t u : Bytes} (h : Commented t u) : strip .code u = strip .code t := by
  induction h with
  | refl => rfl
  | insert _ ha hc ih =>
    rw [← ih, strip_append, strip_append, strip_append, ha, scan_comment hc]
    simp

end Stripping
