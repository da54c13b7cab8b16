import WolServer.HexText
import WolServer.MacText
import WolServer.TextStream

/-!
# Looking the default route up

`Lib_IfConfig::getDefaultRoute` reads `/proc/net/route` and takes the first
line of an interface whose destination is zero and whose gateway flag is set.
It reads the words of a line into one variable and does not look at whether
there was one left. An extraction at the end of a line leaves the variable as
it was – so of a line that ends too early, the last word is read again, as
the gateway or as the flags.

Nor does it look at what is a number: `strtoul` reads a word that is none as
zero. `DefaultRoute.Route` is a line that is a route, and
`DefaultRoute.Mistaken` one that is none and is taken for one.
`DefaultRoute.lookup_iff` says that the function finds the first route exactly
when no line before it is mistaken for one – unless the line has words enough
and leads to the same gateway.

Numbers have 32 bits here, as the variables have. The function for programs in
C, next to this one, counts the fields it reads.
-/

namespace DefaultRoute

open HexText (IsHex)
open Server (isspace)
open TextStream (extract words lines extract_snd words_extract ne_nil_of_mem_words)

/-! ## Functions -/

/-- What is behind the prefix `0x`: the whole string if it has none, and also
if no digit is behind it. -/
def skipPrefix (str : Bytes) : Bytes :=
  if deref str = 48 ∧ (deref (str.drop 1) = 120 ∨ deref (str.drop 1) = 88)
      ∧ HexText.isDigit (deref (str.drop 2)) = true then str.drop 2
  else str

/-- `strtoul(str, NULL, 16)`: after white space, a sign and a prefix `0x`, the
digits. It saturates at 64 bits. -/
def strtoul (str : Bytes) : ℕ :=
  let str := str.dropWhile isspace
  let negative := deref str = 45
  let str := if deref str = 43 ∨ deref str = 45 then str.tail else str
  let n := HexText.value ((skipPrefix str).takeWhile HexText.isDigit)
  if 2 ^ 64 ≤ n then 2 ^ 64 - 1 else if negative then (2 ^ 64 - n) % 2 ^ 64 else n

/-- **A line in the loop of `getDefaultRoute`**: the gateway, if the line is
taken. -/
def routeLine (ifname line : Bytes) : Option UInt32 :=
  if 1024 > line.length then
    -- `word.clear()`
    let e₀ := extract isspace line []
    if 0 < e₀.2.length ∧ cstr e₀.2 = cstr ifname then
      let e₁ := extract isspace e₀.1 e₀.2
      let dst := (strtoul e₁.2).toUInt32
      let e₂ := extract isspace e₁.1 e₁.2
      let gate := (strtoul e₂.2).toUInt32
      let e₃ := extract isspace e₂.1 e₂.2
      let flag := (strtoul e₃.2).toUInt32
      if 0 = dst ∧ 0x2 = flag &&& 0x2 then some gate else none
    else none
  else none

/-- The loop of `getDefaultRoute` over the lines: its result, and `*data`. -/
def routeLoop (ifname : Bytes) : List Bytes → UInt32 → Bool × UInt32
  | [], data => (false, data)
  | line :: rest, data =>
    match routeLine ifname line with
    | some gate => (true, gate)
    | none => routeLoop ifname rest data

/-- **`Lib_IfConfig::getDefaultRoute`** of the text of `/proc/net/route`: its
result, and `*data`. -/
def getDefaultRoute (text ifname : Bytes) (data : UInt32) : Bool × UInt32 :=
  routeLoop ifname (lines 10 text) data

/-! ## Routes -/

/-- **A line is a route** of an interface by a gateway: it is short, its words
are the name of the interface and three others at least, the first of them is
a hexadecimal number equal to zero, the third has the gateway flag, and the
second is the gateway. -/
def Route (ifname line : Bytes) (gate : ℕ) : Prop :=
  line.length < 1024 ∧ ∃ w₁ w₂ w₃ ws, words isspace line = cstr ifname :: w₁ :: w₂ :: w₃ :: ws
    ∧ IsHex w₁ 0 ∧ (strtoul w₃).testBit 1 = true ∧ gate = strtoul w₂

/-- **A line is mistaken for a route**: there is no third word and the second
has the gateway flag, or the first is read as zero and is no number, or the
name goes on behind a NUL. -/
def Mistaken (ifname line : Bytes) (gate : ℕ) : Prop :=
  line.length < 1024 ∧ ∃ w₀ w₁ w₂ ws, words isspace line = w₀ :: w₁ :: w₂ :: ws
    ∧ cstr w₀ = cstr ifname ∧ strtoul w₁ = 0 ∧ (strtoul (ws.headD w₂)).testBit 1 = true
    ∧ gate = strtoul w₂ ∧ (ws = [] ∨ ¬ IsHex w₁ 0 ∨ w₀ ≠ cstr ifname)

/-- The first line that is a route, is one by this gateway. -/
def FirstRoute (ifname : Bytes) (ls : List Bytes) (gate : ℕ) : Prop :=
  ∃ before line after, ls = before ++ line :: after
    ∧ (∀ l ∈ before, ∀ g, ¬ Route ifname l g) ∧ Route ifname line gate

/-- The line at which the loop stops. -/
def takenLine (ifname : Bytes) (ls : List Bytes) : Option Bytes :=
  ls.find? (fun line => (routeLine ifname line).isSome)

/-- **The first route is found**: the result is true exactly if there is one,
`*data` is its gateway then, and is as it was if there is none. A line with
fewer words is not taken for one. -/
structure Finds (ifname : Bytes) (ls : List Bytes) (data : UInt32) (r : Bool × UInt32) : Prop where
  true_iff : r.1 = true ↔ ∃ line ∈ ls, ∃ gate, Route ifname line gate
  gateway : r.1 = true → FirstRoute ifname ls r.2.toNat
  unchanged : r.1 = false → r.2 = data
  words_of_taken : ∀ line ∈ takenLine ifname ls, 4 ≤ (words isspace line).length

/-- **No line is mistaken before the first route**, or the first one that is
has four words and leads to the gateway of the first route. -/
def Unmistaken (ifname : Bytes) (ls : List Bytes) : Prop :=
  ∀ before line after gate, ls = before ++ line :: after →
    (∀ l ∈ before, ∀ g, ¬ Route ifname l g ∧ ¬ Mistaken ifname l g) →
    Mistaken ifname line gate →
    4 ≤ (words isspace line).length ∧ FirstRoute ifname after gate

/-- **The numbers fit 32 bits**: those of the words behind the first one of a
line. -/
def NumbersFit (ls : List Bytes) : Prop :=
  ∀ line ∈ ls, ∀ w ∈ (words isspace line).tail, strtoul w < 2 ^ 32

/-! ## Reading numbers -/

/-- A string of digits has no prefix. -/
theorem skipPrefix_digits {digits : Bytes} (hdigits : ∀ d ∈ digits, HexText.isDigit d = true) :
    skipPrefix digits = digits := by
  refine if_neg (fun ⟨_, hx, _⟩ => ?_)
  match digits, hdigits with
  | [], _ => simp at hx
  | [_], _ => simp at hx
  | _ :: e :: _, hdigits =>
    obtain ⟨v, hv⟩ := Option.isSome_iff_exists.mp (hdigits e (by simp))
    obtain ⟨-, -, hlower, hupper, -⟩ := Server.hexVal_ne hv
    exact hx.elim hlower hupper

/-- **What is behind the prefix are the digits.** -/
theorem skipPrefix_append {pre digits : Bytes}
    (hpre : pre = [] ∨ pre = [48, 120] ∨ pre = [48, 88]) (hne : digits ≠ [])
    (hdigits : ∀ d ∈ digits, HexText.isDigit d = true) : skipPrefix (pre ++ digits) = digits := by
  have hfirst : HexText.isDigit (deref digits) = true := by
    cases digits with
    | nil => exact absurd rfl hne
    | cons d ds => exact hdigits d List.mem_cons_self
  rcases hpre with rfl | rfl | rfl
  · exact skipPrefix_digits hdigits
  · exact if_pos ⟨rfl, Or.inl rfl, hfirst⟩
  · exact if_pos ⟨rfl, Or.inr rfl, hfirst⟩

/-- A number does not begin with a sign or with white space. -/
theorem deref_append {pre digits : Bytes}
    (hpre : pre = [] ∨ pre = [48, 120] ∨ pre = [48, 88]) (hne : digits ≠ [])
    (hdigits : ∀ d ∈ digits, HexText.isDigit d = true) :
    ∃ d ds, pre ++ digits = d :: ds ∧ d ≠ 43 ∧ d ≠ 45 ∧ isspace d = false := by
  rcases hpre with rfl | rfl | rfl
  · obtain ⟨d, ds, rfl⟩ := List.exists_cons_of_ne_nil hne
    obtain ⟨v, hv⟩ := Option.isSome_iff_exists.mp (hdigits d List.mem_cons_self)
    obtain ⟨hplus, hminus, -, -, -, -, hspace⟩ := Server.hexVal_ne hv
    exact ⟨d, ds, rfl, hplus, hminus, hspace⟩
  · exact ⟨48, 120 :: digits, rfl, by decide, by decide, by decide⟩
  · exact ⟨48, 88 :: digits, rfl, by decide, by decide, by decide⟩

/-- **`strtoul` reads a hexadecimal number** that is not negative and fits. -/
theorem strtoul_of_isHex {w : Bytes} {z : ℤ} (h : IsHex w z) (hz : 0 ≤ z) (hlt : z < 2 ^ 64) :
    (strtoul w : ℤ) = z := by
  cases h with
  | @unsigned sign pre digits hsign hpre hne hdigits =>
    obtain ⟨d, ds, hbody, hplus, hminus, hspace⟩ := deref_append hpre hne hdigits
    have hskip := skipPrefix_append hpre hne hdigits
    have hvalue : ¬ 18446744073709551616 ≤ HexText.value digits := by omega
    rw [hbody] at hskip ⊢
    rcases hsign with rfl | rfl
    · simp [strtoul, hspace, hplus, hminus, hskip, List.takeWhile_eq_self_iff.mpr hdigits, hvalue]
    · simp [strtoul, hskip, List.takeWhile_eq_self_iff.mpr hdigits, hvalue,
        show isspace 43 = false by decide]
  | @negative pre digits hpre hne hdigits =>
    have hvalue : HexText.value digits = 0 := by omega
    simp [strtoul, skipPrefix_append hpre hne hdigits, List.takeWhile_eq_self_iff.mpr hdigits,
      hvalue, show isspace 45 = false by decide]

/-! ## What a line is taken for -/

/-- **A line is taken for a route**, in terms of its words. -/
def Taken (ifname line : Bytes) (gate : ℕ) : Prop :=
  line.length < 1024 ∧ ∃ w₀ w₁ w₂ ws, words isspace line = w₀ :: w₁ :: w₂ :: ws
    ∧ cstr w₀ = cstr ifname ∧ strtoul w₁ = 0 ∧ (strtoul (ws.headD w₂)).testBit 1 = true
    ∧ gate = strtoul w₂

/-- A line is taken for at most one gateway. -/
theorem Taken.unique {ifname line : Bytes} {gate gate' : ℕ} (h : Taken ifname line gate)
    (h' : Taken ifname line gate') : gate = gate' := by
  obtain ⟨-, w₀, w₁, w₂, ws, hwords, -, -, -, rfl⟩ := h
  obtain ⟨-, v₀, v₁, v₂, vs, hwords', -, -, -, rfl⟩ := h'
  rw [hwords] at hwords'
  exact congrArg strtoul (Option.some.inj (congrArg (fun ws => ws[2]?) hwords'))

theorem Route.taken {ifname line : Bytes} {gate : ℕ} (h : Route ifname line gate) :
    Taken ifname line gate := by
  obtain ⟨hlen, w₁, w₂, w₃, ws, hwords, hhex, hflag, hgate⟩ := h
  have hzero := strtoul_of_isHex hhex le_rfl (by norm_num)
  exact ⟨hlen, cstr ifname, w₁, w₂, w₃ :: ws, hwords, cstr_cstr ifname, by exact_mod_cast hzero,
    hflag, hgate⟩

theorem Mistaken.taken {ifname line : Bytes} {gate : ℕ} (h : Mistaken ifname line gate) :
    Taken ifname line gate := by
  obtain ⟨hlen, w₀, w₁, w₂, ws, hwords, hname, hzero, hflag, hgate, -⟩ := h
  exact ⟨hlen, w₀, w₁, w₂, ws, hwords, hname, hzero, hflag, hgate⟩

/-- **A line that is taken for a route is one, or is mistaken for one.** -/
theorem Taken.route_or_mistaken {ifname line : Bytes} {gate : ℕ} (h : Taken ifname line gate) :
    Route ifname line gate ∨ Mistaken ifname line gate := by
  obtain ⟨hlen, w₀, w₁, w₂, ws, hwords, hname, hzero, hflag, hgate⟩ := h
  by_cases hbad : ws = [] ∨ ¬ IsHex w₁ 0 ∨ w₀ ≠ cstr ifname
  · exact Or.inr ⟨hlen, w₀, w₁, w₂, ws, hwords, hname, hzero, hflag, hgate, hbad⟩
  · push Not at hbad
    obtain ⟨hne, hhex, rfl⟩ := hbad
    obtain ⟨w₃, ws, rfl⟩ := List.exists_cons_of_ne_nil hne
    exact Or.inl ⟨hlen, w₁, w₂, w₃, ws, hwords, hhex, hflag, hgate⟩

/-- **A route is not mistaken for one.** -/
theorem Route.not_mistaken {ifname line : Bytes} {gate gate' : ℕ} (h : Route ifname line gate) :
    ¬ Mistaken ifname line gate' := by
  obtain ⟨-, w₁, w₂, w₃, ws, hwords, hhex, -, -⟩ := h
  rintro ⟨-, v₀, v₁, v₂, vs, hwords', -, -, -, -, hbad⟩
  rw [hwords] at hwords'
  obtain ⟨rfl, rfl, rfl, rfl⟩ : cstr ifname = v₀ ∧ w₁ = v₁ ∧ w₂ = v₂ ∧ w₃ :: ws = vs := by
    simpa using hwords'
  rcases hbad with hnil | hhex' | hname
  · exact List.cons_ne_nil _ _ hnil
  · exact hhex' hhex
  · exact hname rfl

/-- A line that is mistaken for a route is none. -/
theorem Mistaken.not_route {ifname line : Bytes} {gate : ℕ} (h : Mistaken ifname line gate)
    (gate' : ℕ) : ¬ Route ifname line gate' := fun hroute => hroute.not_mistaken h

/-- A route has four words. -/
theorem Route.words {ifname line : Bytes} {gate : ℕ} (h : Route ifname line gate) :
    4 ≤ (words isspace line).length := by
  obtain ⟨-, w₁, w₂, w₃, ws, hwords, -⟩ := h
  rw [hwords]
  simp

/-! ## What the loop does with a line -/

/-- The gateway flag, of a number of 32 bits. -/
theorem two_eq_and_iff (n : ℕ) : (0x2 : UInt32) = n.toUInt32 &&& 0x2 ↔ n.testBit 1 = true := by
  have hbit : (n % 2 ^ 32).testBit 1 = n.testBit 1 := by
    rw [Nat.testBit_mod_two_pow]
    rfl
  rw [← UInt32.toNat_inj, UInt32.toNat_and]
  show 2 = n % 2 ^ 32 &&& 2 ^ 1 ↔ _
  rw [Nat.and_two_pow, hbit]
  cases n.testBit 1 <;> decide

theorem zero_eq_toUInt32_iff {n : ℕ} (h : n < 2 ^ 32) : 0 = n.toUInt32 ↔ n = 0 := by
  rw [← UInt32.toNat_inj, UInt32.toNat_ofNat_of_lt' h, UInt32.toNat_zero, eq_comm]

/-- No number is zero and has the gateway flag. -/
theorem not_zero_and_flag (n : UInt32) : ¬ (0 = n ∧ 0x2 = n &&& 0x2) := by
  rintro ⟨rfl, h⟩
  exact absurd h (by decide)

/-- **The loop takes a line** exactly if its words say so. A line of three
words or less has its last word read again, and it is taken only if there are
three: the same word would have to be zero and have the flag. -/
theorem routeLine_eq_some_iff {ifname line : Bytes} {gate : UInt32}
    (hfit : ∀ w ∈ (words isspace line).tail, strtoul w < 2 ^ 32) :
    routeLine ifname line = some gate ↔ Taken ifname line gate.toNat := by
  have hmem : ∀ w ∈ words isspace line, w ≠ [] := fun w => ne_nil_of_mem_words
  simp only [routeLine, Taken, extract_snd, words_extract, Option.ite_none_right_eq_some, gt_iff_lt]
  generalize words isspace line = W at hfit hmem
  refine and_congr_right (fun _ => ?_)
  match W, hfit, hmem with
  | [], _, _ => simp
  | [w₀], _, _ => simp [not_zero_and_flag]
  | [w₀, w₁], _, _ => simp [not_zero_and_flag]
  | w₀ :: w₁ :: w₂ :: ws, hfit, hmem =>
    have hne : 0 < w₀.length := List.length_pos_iff.mpr (hmem w₀ (by simp))
    have hdst := zero_eq_toUInt32_iff (hfit w₁ (by simp))
    have hgate : (strtoul w₂).toUInt32 = gate ↔ gate.toNat = strtoul w₂ := by
      rw [← UInt32.toNat_inj, UInt32.toNat_ofNat_of_lt' (hfit w₂ (by simp)), eq_comm]
    simp only [List.tail_cons, List.headD_cons, hdst, two_eq_and_iff, hne, true_and,
      Option.some.injEq, hgate, and_assoc]
    constructor
    · exact fun h => ⟨w₀, w₁, w₂, ws, rfl, h⟩
    · rintro ⟨v₀, v₁, v₂, vs, hwords, h⟩
      cases hwords
      exact h

theorem routeLine_eq_none_iff {ifname line : Bytes}
    (hfit : ∀ w ∈ (words isspace line).tail, strtoul w < 2 ^ 32) :
    routeLine ifname line = none ↔ ∀ gate, ¬ Taken ifname line gate := by
  rw [Option.eq_none_iff_forall_ne_some]
  constructor
  · intro h gate htaken
    obtain ⟨-, w₀, w₁, w₂, ws, hwords, -, -, -, hgate⟩ := id htaken
    have hlt : gate < 2 ^ 32 := hgate ▸ hfit w₂ (by simp [hwords])
    refine h gate.toUInt32 ((routeLine_eq_some_iff hfit).mpr ?_)
    rwa [UInt32.toNat_ofNat_of_lt' hlt]
  · exact fun h gate hsome => h gate.toNat ((routeLine_eq_some_iff hfit).mp hsome)

/-! ## What it does with a file -/

theorem NumbersFit.of_cons {line : Bytes} {ls : List Bytes} (h : NumbersFit (line :: ls)) :
    NumbersFit ls := fun l hl => h l (List.mem_cons_of_mem line hl)

/-- **The first route** is the first line, or the line is none and the first
route comes after it. -/
theorem firstRoute_cons {ifname line : Bytes} {ls : List Bytes} {gate : ℕ} :
    FirstRoute ifname (line :: ls) gate ↔
      Route ifname line gate ∨ (∀ g, ¬ Route ifname line g) ∧ FirstRoute ifname ls gate := by
  constructor
  · rintro ⟨before, l, after, heq, hbefore, hroute⟩
    cases before with
    | nil =>
      obtain ⟨rfl, rfl⟩ := List.cons.inj heq
      exact Or.inl hroute
    | cons b before =>
      obtain ⟨rfl, rfl⟩ := List.cons.inj heq
      obtain ⟨hline, hbefore⟩ := List.forall_mem_cons.mp hbefore
      exact Or.inr ⟨hline, before, l, after, rfl, hbefore, hroute⟩
  · rintro (hroute | ⟨hline, before, l, after, rfl, hbefore, hroute⟩)
    · exact ⟨[], line, ls, rfl, List.forall_mem_nil _, hroute⟩
    · exact ⟨line :: before, l, after, rfl, List.forall_mem_cons.mpr ⟨hline, hbefore⟩, hroute⟩

/-- A line that is no route does not matter. -/
theorem firstRoute_cons_of_not {ifname line : Bytes} {ls : List Bytes} {gate : ℕ}
    (h : ∀ g, ¬ Route ifname line g) :
    FirstRoute ifname (line :: ls) gate ↔ FirstRoute ifname ls gate := by
  rw [firstRoute_cons, or_iff_right (h gate), and_iff_right h]

theorem FirstRoute.exists_route {ifname : Bytes} {ls : List Bytes} {gate : ℕ}
    (h : FirstRoute ifname ls gate) : ∃ line ∈ ls, ∃ gate, Route ifname line gate := by
  obtain ⟨before, line, after, rfl, -, hroute⟩ := h
  exact ⟨line, by simp, gate, hroute⟩

/-- **Nothing is mistaken** in the first line, or it is harmless, and if the
line is neither a route nor mistaken for one, nothing is after it. -/
theorem unmistaken_cons {ifname line : Bytes} {ls : List Bytes} :
    Unmistaken ifname (line :: ls) ↔
      (∀ gate, Mistaken ifname line gate →
        4 ≤ (words isspace line).length ∧ FirstRoute ifname ls gate)
      ∧ ((∀ g, ¬ Route ifname line g ∧ ¬ Mistaken ifname line g) → Unmistaken ifname ls) := by
  constructor
  · intro h
    refine ⟨fun gate => h [] line ls gate rfl (List.forall_mem_nil _), fun hline => ?_⟩
    rintro before l after gate rfl hbefore
    exact h (line :: before) l after gate rfl (List.forall_mem_cons.mpr ⟨hline, hbefore⟩)
  · rintro ⟨hfirst, hlater⟩ before l after gate heq hbefore
    cases before with
    | nil =>
      obtain ⟨rfl, rfl⟩ := List.cons.inj heq
      exact hfirst gate
    | cons b before =>
      obtain ⟨rfl, rfl⟩ := List.cons.inj heq
      obtain ⟨hline, hbefore⟩ := List.forall_mem_cons.mp hbefore
      exact hlater hline before l after gate rfl hbefore

/-- **A line that is not taken** changes nothing: not what is mistaken, -/
theorem unmistaken_cons_of_not {ifname line : Bytes} {ls : List Bytes}
    (h : ∀ g, ¬ Taken ifname line g) :
    Unmistaken ifname (line :: ls) ↔ Unmistaken ifname ls := by
  have hmistaken : ∀ g, ¬ Mistaken ifname line g := fun g hg => h g hg.taken
  have hroute : ∀ g, ¬ Route ifname line g := fun g hg => h g hg.taken
  rw [unmistaken_cons, and_iff_right (fun g hg => absurd hg (hmistaken g)),
    forall_prop_of_true (fun g => ⟨hroute g, hmistaken g⟩)]

/-- – and not what is found. -/
theorem finds_cons_of_not {ifname line : Bytes} {ls : List Bytes} {data : UInt32}
    {r : Bool × UInt32} (hnone : routeLine ifname line = none)
    (h : ∀ g, ¬ Route ifname line g) :
    Finds ifname (line :: ls) data r ↔ Finds ifname ls data r := by
  have htaken : takenLine ifname (line :: ls) = takenLine ifname ls :=
    List.find?_cons_of_neg (by simp [hnone])
  have hroutes : (∃ l ∈ line :: ls, ∃ g, Route ifname l g) ↔ ∃ l ∈ ls, ∃ g, Route ifname l g := by
    rw [List.exists_mem_cons_iff, or_iff_right (not_exists.mpr h)]
  constructor
  · rintro ⟨htrue, hgate, hdata, hwords⟩
    exact ⟨htrue.trans hroutes, fun hr => (firstRoute_cons_of_not h).mp (hgate hr), hdata,
      htaken ▸ hwords⟩
  · rintro ⟨htrue, hgate, hdata, hwords⟩
    exact ⟨htrue.trans hroutes.symm, fun hr => (firstRoute_cons_of_not h).mpr (hgate hr), hdata,
      htaken.symm ▸ hwords⟩

/-- **A line that is taken** is the only one that matters: for what is
mistaken, -/
theorem unmistaken_cons_of_taken {ifname line : Bytes} {ls : List Bytes} {gate : ℕ}
    (h : Taken ifname line gate) :
    Unmistaken ifname (line :: ls) ↔ (Mistaken ifname line gate →
      4 ≤ (words isspace line).length ∧ FirstRoute ifname ls gate) := by
  have hline : ¬ ∀ g, ¬ Route ifname line g ∧ ¬ Mistaken ifname line g := fun hno =>
    absurd h.route_or_mistaken (not_or.mpr (hno gate))
  rw [unmistaken_cons, and_iff_left (fun hno => absurd hno hline)]
  constructor
  · exact fun hfirst => hfirst gate
  · intro hfirst gate' hmistaken
    obtain rfl := h.unique hmistaken.taken
    exact hfirst hmistaken

/-- – and for what is found: its gateway, and that is right if the line is a
route, or if the first route has the same gateway. -/
theorem finds_cons_of_taken {ifname line : Bytes} {ls : List Bytes} {data gate : UInt32}
    (hsome : routeLine ifname line = some gate) (h : Taken ifname line gate.toNat) :
    Finds ifname (line :: ls) data (true, gate) ↔ (Mistaken ifname line gate.toNat →
      4 ≤ (words isspace line).length ∧ FirstRoute ifname ls gate.toNat) := by
  have htaken : takenLine ifname (line :: ls) = some line :=
    List.find?_cons_of_pos (by simp [hsome])
  constructor
  · rintro ⟨-, hgate, -, hwords⟩ hmistaken
    exact ⟨hwords line htaken, (firstRoute_cons_of_not hmistaken.not_route).mp (hgate rfl)⟩
  · intro hline
    have hfirst : 4 ≤ (words isspace line).length
        ∧ FirstRoute ifname (line :: ls) gate.toNat := by
      rcases h.route_or_mistaken with hroute | hmistaken
      · exact ⟨hroute.words, firstRoute_cons.mpr (Or.inl hroute)⟩
      · rw [firstRoute_cons_of_not hmistaken.not_route]
        exact hline hmistaken
    refine ⟨⟨fun _ => hfirst.2.exists_route, fun _ => rfl⟩, fun _ => hfirst.2,
      fun hr => absurd hr (by simp), fun l hl => ?_⟩
    rw [htaken] at hl
    obtain rfl := Option.some.inj hl
    exact hfirst.1

/-- **The loop finds the first route** exactly if no line is mistaken before
it. -/
theorem finds_routeLoop_iff {ifname : Bytes} {ls : List Bytes} {data : UInt32}
    (hfit : NumbersFit ls) :
    Finds ifname ls data (routeLoop ifname ls data) ↔ Unmistaken ifname ls := by
  induction ls with
  | nil =>
    refine ⟨fun _ before line after gate heq => ?_, fun _ => ?_⟩
    · exact absurd heq.symm (by simp)
    · exact ⟨by simp [routeLoop], fun hr => absurd hr (by simp [routeLoop]), fun _ => rfl,
        fun l hl => absurd hl (by simp [takenLine])⟩
  | cons line ls ih =>
    have hline := hfit line List.mem_cons_self
    cases hroute : routeLine ifname line with
    | none =>
      have hnot := (routeLine_eq_none_iff hline).mp hroute
      have hloop : routeLoop ifname (line :: ls) data = routeLoop ifname ls data := by
        rw [routeLoop, hroute]
      rw [hloop, finds_cons_of_not hroute (fun g h => hnot g h.taken), unmistaken_cons_of_not hnot]
      exact ih hfit.of_cons
    | some gate =>
      have htaken := (routeLine_eq_some_iff hline).mp hroute
      have hloop : routeLoop ifname (line :: ls) data = (true, gate) := by
        rw [routeLoop, hroute]
      rw [hloop, finds_cons_of_taken hroute htaken, unmistaken_cons_of_taken htaken]

/-- **The default route is looked up as it should be** exactly if no line is
mistaken for a route before the first one is reached. -/
theorem lookup_iff (text ifname : Bytes) (data : UInt32) (hfit : NumbersFit (lines 10 text)) :
    Finds ifname (lines 10 text) data (getDefaultRoute text ifname data)
      ↔ Unmistaken ifname (lines 10 text) :=
  finds_routeLoop_iff hfit

/-- A table with the default route of one interface. -/
def table : Bytes := lit "eth0 00000000 0101A8C0 0003\n"

theorem lookup_iff_table :
    Finds (lit "eth0") (lines 10 table) 0 (getDefaultRoute table (lit "eth0") 0) := by
  have hwords : words isspace (lit "eth0 00000000 0101A8C0 0003")
      = [lit "eth0", lit "00000000", lit "0101A8C0", lit "0003"] := by decide
  have hlines : lines 10 table = [lit "eth0 00000000 0101A8C0 0003"] := rfl
  have hfit : NumbersFit (lines 10 table) := by
    rw [hlines, NumbersFit, List.forall_mem_singleton, hwords]
    decide
  refine (lookup_iff table (lit "eth0") 0 hfit).mpr ?_
  have hzeros : ∀ d ∈ lit "00000000", HexText.isDigit d = true := by
    rw [show lit "00000000" = List.replicate 8 48 from rfl]
    exact fun d hd => List.eq_of_mem_replicate hd ▸ rfl
  have hroute : Route (lit "eth0") (lit "eth0 00000000 0101A8C0 0003") 0x0101A8C0 :=
    ⟨by decide, lit "00000000", lit "0101A8C0", lit "0003", [], hwords,
      @IsHex.unsigned [] [] (lit "00000000") (Or.inl rfl) (Or.inl rfl) (by decide) hzeros,
      by decide, by decide⟩
  rw [hlines, unmistaken_cons_of_taken hroute.taken]
  exact fun hmistaken => absurd hmistaken hroute.not_mistaken

/-- **A line that ends too early is taken for a route**: its last word is the
gateway, and read again it has the gateway flag. -/
theorem short_line_taken :
    NumbersFit (lines 10 (lit "eth0 0 2\n"))
      ∧ getDefaultRoute (lit "eth0 0 2\n") (lit "eth0") 0 = (true, 2)
      ∧ ¬ Finds (lit "eth0") (lines 10 (lit "eth0 0 2\n")) 0
          (getDefaultRoute (lit "eth0 0 2\n") (lit "eth0") 0) := by
  have hwords : words isspace (lit "eth0 0 2") = [lit "eth0", lit "0", lit "2"] := by decide
  have hlines : lines 10 (lit "eth0 0 2\n") = [lit "eth0 0 2"] := by decide
  have hresult : getDefaultRoute (lit "eth0 0 2\n") (lit "eth0") 0 = (true, 2) := by decide
  refine ⟨?_, hresult, fun hfinds => ?_⟩
  · rw [hlines, NumbersFit, List.forall_mem_singleton, hwords]
    decide
  · rw [hresult, hlines] at hfinds
    obtain ⟨line, hline, gate, hroute⟩ := hfinds.true_iff.mp rfl
    obtain rfl := List.mem_singleton.mp hline
    have hfour := hroute.words
    rw [hwords] at hfour
    exact absurd hfour (by decide)

end DefaultRoute
