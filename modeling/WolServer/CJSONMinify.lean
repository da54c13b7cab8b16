import WolServer.Stripping
import WolServer.CJSONComplete

/-!
# `cJSON_Minify`

The function that takes the white space and the comments out of a text, in
place: two pointers go over one block, `json` reads and `into` writes. The
model reads and writes the block by index, and stops at an index that is not
in it.

`CJSONMinify.minify_eq` says that the block starts with what
`Stripping.strip` leaves of the text, and that the bytes behind it are as they
were; `CJSONMinify.minify_outside_iff` says for which texts the function reads
behind the terminator.
-/

namespace CJSONMinify

/-- Why there is no result. -/
inductive Stop where
  /-- A byte outside of the block is read or written. -/
  | outside
  /-- The loops have run out of steps. -/
  | spent
  deriving DecidableEq, Repr

/-- The block, and the two pointers into it. -/
structure Cursor where
  mem : Bytes
  json : ℕ
  into : ℕ
  deriving DecidableEq, Repr

namespace Cursor

/-- `json[i]`. -/
def read (c : Cursor) (i : ℕ) : Except Stop UInt8 :=
  match c.mem[c.json + i]? with
  | some b => return b
  | none => throw .outside

/-- `json++`. -/
def skip (c : Cursor) : Cursor := { c with json := c.json + 1 }

/-- `*into++=*json++`. -/
def copy (c : Cursor) : Except Stop Cursor := do
  let b ← c.read 0
  if c.into < c.mem.length then
    return { mem := c.mem.set c.into b, json := c.json + 1, into := c.into + 1 }
  else throw .outside

/-- `*json=='/' && json[1]==b`. -/
def opens (c : Cursor) (b : UInt8) : Except Stop Bool := do
  if (← c.read 0) = 47 then return (← c.read 1) == b else return false

end Cursor

/-- `while (*json && *json!='\n') json++;` -/
def skipLine : ℕ → Cursor → Except Stop Cursor
  | 0, _ => throw .spent
  | fuel + 1, c => do
    let b ← c.read 0
    if b ≠ 0 ∧ b ≠ 10 then skipLine fuel c.skip else return c

/-- `while (*json && !(*json=='*' && json[1]=='/')) json++;` -/
def skipBlock : ℕ → Cursor → Except Stop Cursor
  | 0, _ => throw .spent
  | fuel + 1, c => do
    let b ← c.read 0
    if b = 0 then return c
    else if b = 42 then
      if (← c.read 1) = 47 then return c else skipBlock fuel c.skip
    else skipBlock fuel c.skip

/-- `while (*json && *json!='"'){if (*json=='\\') *into++=*json++;*into++=*json++;}` -/
def copyString : ℕ → Cursor → Except Stop Cursor
  | 0, _ => throw .spent
  | fuel + 1, c => do
    let b ← c.read 0
    if b ≠ 0 ∧ b ≠ 34 then
      let c ← if b = 92 then c.copy else pure c
      copyString fuel (← c.copy)
    else return c

/-- The body of the loop of `cJSON_Minify`. -/
def minifyStep (fuel : ℕ) (c : Cursor) : Except Stop Cursor := do
  let b ← c.read 0
  if b = 32 then return c.skip
  else if b = 9 then return c.skip
  else if b = 13 then return c.skip
  else if b = 10 then return c.skip
  else if ← c.opens 47 then skipLine fuel c
  else if ← c.opens 42 then return (← skipBlock fuel c).skip.skip
  else if b = 34 then (← copyString fuel (← c.copy)).copy
  else c.copy

/-- The loop of `cJSON_Minify`. -/
def minifyLoop : ℕ → Cursor → Except Stop Cursor
  | 0, _ => throw .spent
  | fuel + 1, c => do
    if (← c.read 0) = 0 then return c else minifyLoop fuel (← minifyStep (fuel + 1) c)

/-- **`cJSON_Minify`**, of the block that starts at `json`: the block
afterwards. -/
def minify (mem : Bytes) : Except Stop Bytes := do
  let c ← minifyLoop (mem.length + 1) ⟨mem, 0, 0⟩
  if c.into < c.mem.length then return c.mem.set c.into 0 else throw .outside

/-! ## The two pointers -/

/-- **Where the function is**: the block starts with what was copied, behind
which it is as it was; `into` is at the end of this and has not overtaken
`json`, and `rest` is still to be read. -/
structure At (orig out rest : Bytes) (c : Cursor) : Prop where
  mem_eq : c.mem = out ++ orig.drop out.length
  into_eq : c.into = out.length
  into_le : c.into ≤ c.json
  rest_eq : orig.drop c.json = rest

variable {orig out rest : Bytes} {c : Cursor}

/-- What is read is what was there, because nothing is written at `json` or
behind it. -/
theorem At.read (h : At orig out rest c) (i : ℕ) :
    c.read i = match rest[i]? with
      | some b => .ok b
      | none => .error .outside := by
  have hle : out.length ≤ c.json + i := by
    have := h.into_le
    rw [h.into_eq] at this
    omega
  have hmem : c.mem[c.json + i]? = rest[i]? := by
    rw [h.mem_eq, List.getElem?_append_right hle, List.getElem?_drop, ← h.rest_eq,
      List.getElem?_drop]
    congr 1
    omega
  unfold Cursor.read
  rw [hmem]
  rfl

theorem At.skip (h : At orig out rest c) : At orig out rest.tail c.skip := by
  refine ⟨h.mem_eq, h.into_eq, h.into_le.trans (Nat.le_succ _), ?_⟩
  rw [← h.rest_eq, List.tail_drop]
  rfl

/-- Where something is read there is something to write to. -/
theorem At.into_lt {b : UInt8} (h : At orig out (b :: rest) c) : out.length < orig.length := by
  have hle := h.into_le
  rw [h.into_eq] at hle
  by_contra hlen
  have hrest := h.rest_eq
  rw [List.drop_eq_nil_of_le (by omega)] at hrest
  cases hrest

/-- **A byte is written behind what was copied**, and the bytes behind it stay as
they are. -/
theorem At.set {b : UInt8} (h : At orig out (b :: rest) c) (x : UInt8) :
    c.into < c.mem.length
      ∧ c.mem.set c.into x = out ++ [x] ++ orig.drop (out ++ [x]).length := by
  have hlt := h.into_lt
  rw [h.mem_eq, h.into_eq]
  constructor
  · rw [List.length_append, List.length_drop]
    omega
  · rw [List.set_append_right _ _ le_rfl, Nat.sub_self, List.drop_eq_getElem_cons hlt,
      List.set_cons_zero, List.append_assoc, List.length_append]
    rfl

theorem At.copy {b : UInt8} (h : At orig out (b :: rest) c) :
    ∃ c', c.copy = .ok c' ∧ At orig (out ++ [b]) rest c' := by
  obtain ⟨hlt, hset⟩ := h.set b
  refine ⟨⟨c.mem.set c.into b, c.json + 1, c.into + 1⟩, ?_, hset, ?_,
    Nat.succ_le_succ h.into_le, h.skip.rest_eq⟩
  · unfold Cursor.copy
    rw [h.read 0]
    exact if_pos hlt
  · rw [List.length_append]
    exact congrArg (· + 1) h.into_eq

/-- `json[1]` is the byte behind the one that is read, or the terminator. -/
theorem At.read_one {b : UInt8} {t tail : Bytes} (h : At orig out (b :: t ++ 0 :: tail) c) :
    c.read 1 = .ok (deref t) := by
  rw [h.read 1]
  cases t <;> rfl

theorem At.opens {b : UInt8} {t tail : Bytes} (h : At orig out (b :: t ++ 0 :: tail) c)
    (x : UInt8) : c.opens x = .ok (b == 47 && deref t == x) := by
  unfold Cursor.opens
  rw [h.read 0, h.read_one]
  show (if b = 47 then Except.ok (deref t == x) else Except.ok false) = _
  by_cases hb : b = 47 <;> simp [hb]

/-! ## The loops -/

open Stripping

variable {tail : Bytes}

/-- **What a part of the function does** with a text `t` from a place of the scan
on, when the terminator and `tail` are behind the text: it has copied what the
scan copies up to a `u` that is still to be read; or the text is one that the
scan finds no end of, and when nothing is behind the terminator it has left the
block. -/
def Goes (orig out tail : Bytes) (p : Place) (t : Bytes) (n : ℕ) (r : Except Stop Cursor) :
    Prop :=
  (∃ c w u, r = .ok c ∧ At orig (out ++ w) (u ++ 0 :: tail) c ∧ 0 ∉ u ∧ u.length ≤ n
      ∧ strip p t = (strip .code u).map (w ++ ·))
    ∨ strip p t = none
      ∧ (tail = [] → r = .error .outside ∨ ∃ c out', r = .ok c ∧ At orig out' [] c)

/-- Something was copied before. -/
theorem Goes.after {p q : Place} {t t' w : Bytes} {n m : ℕ} {r : Except Stop Cursor}
    (h : Goes orig (out ++ w) tail q t' n r) (hn : n ≤ m)
    (ht : strip p t = (strip q t').map (w ++ ·)) : Goes orig out tail p t m r := by
  rcases h with ⟨c, w', u, hr, hc, h0, hu, hstrip⟩ | ⟨hnone, htail⟩
  · refine Or.inl ⟨c, w ++ w', u, hr, List.append_assoc out w w' ▸ hc, h0, hu.trans hn, ?_⟩
    rw [ht, hstrip, Option.map_map]
    congr 1
    funext x
    exact (List.append_assoc w w' x).symm
  · exact Or.inr ⟨by rw [ht, hnone]; rfl, htail⟩

/-- Nothing was. -/
theorem Goes.same {p q : Place} {t t' : Bytes} {n m : ℕ} {r : Except Stop Cursor}
    (h : Goes orig out tail q t' n r) (hn : n ≤ m) (ht : strip p t = strip q t') :
    Goes orig out tail p t m r := by
  refine Goes.after (w := []) (by rwa [List.append_nil]) hn ?_
  rw [ht]
  exact Option.map_id'.symm

/-- The scan is at code again. -/
theorem goes_code {t : Bytes} (h : At orig out (t ++ 0 :: tail) c) (h0 : (0 : UInt8) ∉ t) :
    Goes orig out tail .code t t.length (.ok c) :=
  Or.inl ⟨c, [], t, rfl, by rwa [List.append_nil], h0, le_rfl, Option.map_id'.symm⟩

theorem skipLine_goes {fuel : ℕ} {t : Bytes} (hfuel : t.length < fuel)
    (h : At orig out (t ++ 0 :: tail) c) (h0 : (0 : UInt8) ∉ t) :
    Goes orig out tail .line t t.length (skipLine fuel c) := by
  induction fuel generalizing t c with
  | zero => exact absurd hfuel (Nat.not_lt_zero _)
  | succ fuel ih =>
    unfold skipLine
    rw [h.read 0]
    cases t with
    | nil => exact (goes_code h h0).same le_rfl rfl
    | cons b t =>
      obtain ⟨hb, ht⟩ := not_or.mp (mt List.mem_cons.mpr h0)
      show Goes _ _ _ _ _ _ (if b ≠ 0 ∧ b ≠ 10 then skipLine fuel c.skip else .ok c)
      by_cases hline : b = 10
      · rw [if_neg (fun h => h.2 hline)]
        subst hline
        exact (goes_code h h0).same le_rfl
          ((strip_skip rfl t).trans (strip_skip (p := .code) rfl t).symm)
      · rw [if_pos ⟨Ne.symm hb, hline⟩]
        refine (ih (Nat.lt_of_succ_lt_succ hfuel) h.skip ht).same (Nat.le_succ _)
          (strip_skip ?_ t)
        simp only [next, if_neg hline]

theorem skipBlock_goes {fuel : ℕ} {t : Bytes} (hfuel : t.length < fuel)
    (h : At orig out (t ++ 0 :: tail) c) (h0 : (0 : UInt8) ∉ t) :
    Goes orig out tail .block t t.length
      (do return (← skipBlock fuel c).skip.skip) := by
  induction fuel generalizing t c with
  | zero => exact absurd hfuel (Nat.not_lt_zero _)
  | succ fuel ih =>
    unfold skipBlock
    rw [h.read 0]
    cases t with
    | nil =>
      refine Or.inr ⟨rfl, fun htail => Or.inr ⟨c.skip.skip, out, rfl, ?_⟩⟩
      subst htail
      exact h.skip.skip
    | cons b t =>
      obtain ⟨hb, ht⟩ := not_or.mp (mt List.mem_cons.mpr h0)
      have hrest := ih (Nat.lt_of_succ_lt_succ hfuel) h.skip ht
      rw [h.read_one]
      show Goes _ _ _ _ _ _ ((if b = 0 then Except.ok c
        else if b = 42 then if deref t = 47 then Except.ok c else skipBlock fuel c.skip
        else skipBlock fuel c.skip) >>= fun c => pure c.skip.skip)
      rw [if_neg (Ne.symm hb)]
      by_cases hstar : b = 42
      · subst hstar
        rw [if_pos rfl]
        by_cases hslash : deref t = 47
        · -- the mark that closes the comment
          rw [if_pos hslash]
          cases t with
          | nil => cases hslash
          | cons d t =>
            obtain rfl : d = 47 := hslash
            exact (goes_code h.skip.skip (not_or.mp (mt List.mem_cons.mpr ht)).2).same
              (by simp only [List.length_cons]; omega)
              ((strip_skip rfl _).trans (strip_skip (p := .star) rfl _))
        · rw [if_neg hslash]
          exact hrest.same (Nat.le_succ _) ((strip_skip rfl t).trans (strip_star hslash))
      · rw [if_neg hstar]
        refine hrest.same (Nat.le_succ _) (strip_skip ?_ t)
        simp only [next, if_neg hstar]

theorem copyString_goes {fuel : ℕ} {t : Bytes} (hfuel : t.length < fuel)
    (h : At orig out (t ++ 0 :: tail) c) (h0 : (0 : UInt8) ∉ t) :
    Goes orig out tail .string t t.length (copyString fuel c >>= Cursor.copy) := by
  induction fuel generalizing t out c with
  | zero => exact absurd hfuel (Nat.not_lt_zero _)
  | succ fuel ih =>
    unfold copyString
    rw [h.read 0]
    cases t with
    | nil =>
      obtain ⟨c', hcopy, hc'⟩ := h.copy
      refine Or.inr ⟨rfl, fun htail => Or.inr ⟨c', out ++ [0], hcopy, ?_⟩⟩
      exact htail ▸ hc'
    | cons b t =>
      obtain ⟨hb, ht⟩ := not_or.mp (mt List.mem_cons.mpr h0)
      obtain ⟨c', hcopy, hc'⟩ := h.copy
      show Goes _ _ _ _ _ _ ((if b ≠ 0 ∧ b ≠ 34 then
          if b = 92 then c.copy >>= fun c => c.copy >>= copyString fuel
          else c.copy >>= copyString fuel
        else .ok c) >>= Cursor.copy)
      by_cases hquote : b = 34
      · rw [if_neg (fun h => h.2 hquote)]
        show Goes _ _ _ _ _ _ c.copy
        subst hquote
        rw [hcopy]
        exact (goes_code hc' ht).after (Nat.le_succ _) (strip_cons .string 34 t)
      rw [if_pos ⟨Ne.symm hb, hquote⟩]
      by_cases hback : b = 92
      · subst hback
        rw [if_pos rfl, hcopy]
        show Goes _ _ _ _ _ _ ((c'.copy >>= copyString fuel) >>= Cursor.copy)
        cases t with
        | nil =>
          -- the terminator is copied for an escaped byte
          obtain ⟨c'', hcopy', hc''⟩ := hc'.copy
          rw [hcopy']
          refine Or.inr ⟨rfl, fun htail => Or.inl ?_⟩
          subst htail
          show copyString fuel c'' >>= Cursor.copy = _
          cases fuel with
          | zero => exact absurd hfuel (by decide)
          | succ fuel =>
            unfold copyString
            rw [hc''.read 0]
            rfl
        | cons e t =>
          obtain ⟨c'', hcopy', hc''⟩ := hc'.copy
          rw [hcopy']
          rw [List.append_assoc] at hc''
          simp only [List.length_cons] at hfuel ⊢
          refine (ih (by omega) hc'' (not_or.mp (mt List.mem_cons.mpr ht)).2).after (by omega) ?_
          rw [strip_cons, strip_cons, Option.map_map]
          rfl
      · rw [if_neg hback, hcopy]
        refine (ih (Nat.lt_of_succ_lt_succ hfuel) hc' ht).after (Nat.le_succ _) ?_
        rw [strip_cons, show next .string b = (.string, [b]) by
          simp only [next, if_neg hquote, if_neg hback]]

/-- The slash of a comment is not a byte that its loop stops at. -/
theorem skipLine_slash {rest : Bytes} (h : At orig out (47 :: rest) c) (fuel : ℕ) :
    skipLine (fuel + 1) c = skipLine fuel c.skip := by
  rw [skipLine, h.read 0]
  rfl

theorem skipBlock_slash {rest : Bytes} (h : At orig out (47 :: rest) c) (fuel : ℕ) :
    skipBlock (fuel + 1) c = skipBlock fuel c.skip := by
  rw [skipBlock, h.read 0]
  rfl

/-- A slash, which opens a comment or not. -/
theorem slash_goes {fuel : ℕ} {t : Bytes} (hfuel : t.length < fuel)
    (h : At orig out (47 :: t ++ 0 :: tail) c) (ht : (0 : UInt8) ∉ t) :
    Goes orig out tail .code (47 :: t) t.length
      (if deref t = 47 then skipLine (fuel + 1) c
      else if deref t = 42 then do return (← skipBlock (fuel + 1) c).skip.skip
      else c.copy) := by
  by_cases hline : deref t = 47
  · rw [if_pos hline, skipLine_slash h]
    refine (skipLine_goes hfuel h.skip ht).same le_rfl ?_
    cases t with
    | nil => cases hline
    | cons d t =>
      obtain rfl : d = 47 := hline
      exact (strip_skip rfl _).trans
        ((strip_skip (p := .slash) rfl t).trans (strip_skip (p := .line) rfl t).symm)
  rw [if_neg hline]
  by_cases hblock : deref t = 42
  · rw [if_pos hblock, skipBlock_slash h]
    refine (skipBlock_goes hfuel h.skip ht).same le_rfl ?_
    cases t with
    | nil => cases hblock
    | cons d t =>
      obtain rfl : d = 42 := hblock
      exact (strip_skip rfl _).trans
        ((strip_skip (p := .slash) rfl t).trans (strip_skip (p := .block) rfl t).symm)
  · rw [if_neg hblock]
    obtain ⟨c', hcopy, hc'⟩ := h.copy
    rw [hcopy]
    exact (goes_code hc' ht).after le_rfl
      ((strip_skip rfl t).trans (strip_slash hline hblock))

/-- **A byte of code**, and the comment or the string that it opens. -/
theorem minifyStep_goes {fuel : ℕ} {b : UInt8} {t : Bytes} (hfuel : t.length < fuel)
    (h : At orig out (b :: t ++ 0 :: tail) c) (h0 : (0 : UInt8) ∉ b :: t) :
    Goes orig out tail .code (b :: t) t.length (minifyStep (fuel + 1) c) := by
  obtain ⟨hb, ht⟩ := not_or.mp (mt List.mem_cons.mpr h0)
  unfold minifyStep
  rw [h.read 0, h.opens, h.opens]
  show Goes _ _ _ _ _ _ (if b = 32 then .ok c.skip else if b = 9 then .ok c.skip
    else if b = 13 then .ok c.skip else if b = 10 then .ok c.skip
    else if (b == 47 && deref t == 47) = true then skipLine (fuel + 1) c
    else if (b == 47 && deref t == 42) = true then
      do return (← skipBlock (fuel + 1) c).skip.skip
    else if b = 34 then c.copy >>= fun c => copyString (fuel + 1) c >>= Cursor.copy
    else c.copy)
  by_cases hwhite : b = 32 ∨ b = 9 ∨ b = 13 ∨ b = 10
  · have hcode := goes_code h.skip ht
    rcases hwhite with rfl | rfl | rfl | rfl <;> exact hcode.same le_rfl (strip_skip rfl t)
  have hnext : next .code b = if b = 47 then (.slash, []) else if b = 34 then (.string, [b])
    else (.code, [b]) := if_neg hwhite
  simp only [not_or] at hwhite
  rw [if_neg hwhite.1, if_neg hwhite.2.1, if_neg hwhite.2.2.1, if_neg hwhite.2.2.2]
  by_cases hslash : b = 47
  · subst hslash
    simpa using slash_goes hfuel h ht
  have hslash' : ∀ x, ¬ (b == 47 && x) = true := fun x hx =>
    hslash (eq_of_beq (Bool.and_eq_true_iff.mp hx).1)
  rw [if_neg (hslash' _), if_neg (hslash' _)]
  rw [if_neg hslash] at hnext
  obtain ⟨c', hcopy, hc'⟩ := h.copy
  rw [hcopy]
  by_cases hquote : b = 34
  · rw [if_pos hquote] at hnext ⊢
    refine (copyString_goes (Nat.lt_succ_of_lt hfuel) hc' ht).after le_rfl ?_
    rw [strip_cons, hnext]
  · rw [if_neg hquote] at hnext ⊢
    refine (goes_code hc' ht).after le_rfl ?_
    rw [strip_cons, hnext]

/-- **The loop**: what is copied of a text is what the scan leaves of it. -/
theorem minifyLoop_spec {fuel : ℕ} {t : Bytes} (hfuel : t.length < fuel)
    (h : At orig out (t ++ 0 :: tail) c) (h0 : (0 : UInt8) ∉ t) :
    (∃ c' u, minifyLoop fuel c = .ok c' ∧ strip .code t = some u
        ∧ At orig (out ++ u) (0 :: tail) c')
      ∨ strip .code t = none ∧ (tail = [] → minifyLoop fuel c = .error .outside) := by
  induction fuel generalizing t out c with
  | zero => exact absurd hfuel (Nat.not_lt_zero _)
  | succ fuel ih =>
    unfold minifyLoop
    rw [h.read 0]
    cases t with
    | nil => exact Or.inl ⟨c, [], rfl, rfl, by rwa [List.append_nil]⟩
    | cons b t =>
      have hb : b ≠ 0 := fun hb => h0 (hb ▸ List.mem_cons_self)
      show (∃ c' u, (if b = 0 then .ok c else minifyStep (fuel + 1) c >>= minifyLoop fuel)
          = .ok c' ∧ _) ∨ _ ∧ (_ → (if b = 0 then .ok c
            else minifyStep (fuel + 1) c >>= minifyLoop fuel) = .error .outside)
      rw [if_neg hb]
      have hlen := Nat.lt_of_succ_lt_succ hfuel
      rcases minifyStep_goes hlen h h0 with ⟨c', w, u, hstep, hc', hu0, hu, hstrip⟩ | ⟨hnone, hlost⟩
      · rw [hstep, hstrip]
        rcases ih (lt_of_le_of_lt hu hlen) hc' hu0 with ⟨c'', u', hloop, hu', hc''⟩ | ⟨hnone, hlost⟩
        · exact Or.inl ⟨c'', w ++ u', hloop, by rw [hu']; rfl, List.append_assoc out w u' ▸ hc''⟩
        · exact Or.inr ⟨by rw [hnone]; rfl, hlost⟩
      · refine Or.inr ⟨hnone, fun htail => ?_⟩
        rcases hlost htail with hstep | ⟨c', out', hstep, hc'⟩
        · rw [hstep]
          rfl
        · rw [hstep]
          show minifyLoop fuel c' = _
          cases fuel with
          | zero => exact absurd hlen (Nat.not_lt_zero _)
          | succ fuel =>
            rw [minifyLoop, hc'.read 0]
            rfl

/-! ## The function -/

/-- The function starts at the first byte, with nothing copied. -/
theorem at_start (mem : Bytes) : At mem [] mem ⟨mem, 0, 0⟩ := ⟨rfl, rfl, le_rfl, rfl⟩

theorem length_lt (t tail : Bytes) : t.length < (t ++ 0 :: tail).length + 1 := by
  rw [List.length_append]
  omega

/-- **What is left of the text is at the start of the block**, behind it is the
terminator, and all other bytes of the block are as they were. -/
theorem minify_eq {t u : Bytes} (h0 : (0 : UInt8) ∉ t) (h : strip .code t = some u)
    (tail : Bytes) : minify (t ++ 0 :: tail)
      = .ok (u ++ 0 :: (t ++ 0 :: tail).drop (u.length + 1)) := by
  unfold minify
  rcases minifyLoop_spec (length_lt t tail) (at_start _) h0
    with ⟨c, u', hloop, hu', hc⟩ | ⟨hnone, -⟩
  · obtain rfl : u' = u := Option.some.inj (hu'.symm.trans h)
    obtain ⟨hlt, hset⟩ := hc.set 0
    rw [hloop]
    show (if c.into < c.mem.length then Except.ok (c.mem.set c.into 0)
      else .error Stop.outside) = _
    rw [if_pos hlt, hset, List.nil_append, List.append_assoc, List.length_append]
    rfl
  · rw [hnone] at h
    cases h

/-- **The function leaves the block** when a string or a comment is open at the
end of the text, and for no other text. -/
theorem minify_outside_iff {t : Bytes} (h0 : (0 : UInt8) ∉ t) :
    minify (t ++ [0]) = .error .outside
      ↔ (scan .code t).1 ∈ [.block, .star, .string, .escape] := by
  have hopen : strip .code t = none ↔ (scan .code t).1 ∈ [.block, .star, .string, .escape] := by
    rw [strip, Option.map_eq_none_iff]
    cases (scan .code t).1 <;> decide
  rw [← hopen]
  constructor
  · intro hout
    by_contra hsome
    obtain ⟨u, hu⟩ := Option.ne_none_iff_exists'.mp hsome
    rw [minify_eq h0 hu] at hout
    cases hout
  · intro hnone
    unfold minify
    rcases minifyLoop_spec (length_lt t []) (at_start _) h0 with ⟨c, u, -, hu, -⟩ | ⟨-, hlost⟩
    · rw [hnone] at hu
      cases hu
    · rw [hlost rfl]
      rfl

/-- **What the function does with any text**: the block holds what the scan
leaves of it, whatever is behind the terminator; or a string or a comment is
open at the end of the text, and the function goes on behind the terminator. -/
theorem minify_strips {t : Bytes} (h0 : (0 : UInt8) ∉ t) :
    (∀ u, strip .code t = some u → u.Sublist t ∧ ∀ tail, minify (t ++ 0 :: tail)
        = .ok (u ++ 0 :: (t ++ 0 :: tail).drop (u.length + 1)))
      ∧ (minify (t ++ [0]) = .error .outside
        ↔ (scan .code t).1 ∈ [.block, .star, .string, .escape]) :=
  ⟨fun _ hu => ⟨sublist_of_strip hu, minify_eq h0 hu⟩, minify_outside_iff h0⟩

/-- A string that is not closed, and ends in a backslash. -/
theorem minify_strips_escape : minify (lit "[\"a\\" ++ [0]) = .error .outside :=
  (minify_strips (by decide)).2.mpr (by decide)

/-- **A text of a value becomes a shorter text of the same value**, also when
there are comments in it: `cJSON_Parse` reads the value from it, and
`cJSON_Minify` does not change it again. -/
theorem minify_text {v : Json} {t u : Bytes} (h : JsonText.IsText v t) (hu : Commented t u)
    (h0 : (0 : UInt8) ∉ u) (tail : Bytes) :
    ∃ w tail', minify (u ++ 0 :: tail) = .ok (w ++ 0 :: tail') ∧ w.length ≤ u.length
      ∧ JsonText.IsText v w ∧ CJSON.parse (w ++ 0 :: tail') = some (CJSON.ofJson v)
      ∧ minify (w ++ 0 :: tail') = .ok (w ++ 0 :: tail') := by
  obtain ⟨w, hstrip, hagain, hw⟩ := isText_strip h
  rw [← hu.strip_eq] at hstrip
  have hsub := sublist_of_strip hstrip
  have hw0 : (0 : UInt8) ∉ w := fun hmem => h0 (hsub.subset hmem)
  refine ⟨w, _, minify_eq h0 hstrip tail, hsub.length_le, ⟨w, [], .nil w, hw, .nil []⟩, ?_, ?_⟩
  · exact CJSON.parse_of_derives (hw.append (fun _ _ _ _ =>
      numEnd_cons rfl (by decide) (by decide) (by decide) _))
  · rw [minify_eq hw0 hagain]
    simp

/-- An array, with a comment and a space before its element. -/
theorem minify_text_comment : ∃ w tail', minify (lit "[/*x*/ true]" ++ 0 :: [])
      = .ok (w ++ 0 :: tail') ∧ w.length ≤ (lit "[/*x*/ true]").length
    ∧ JsonText.IsText (.arr [.bool true]) w
    ∧ CJSON.parse (w ++ 0 :: tail') = some (CJSON.ofJson (.arr [.bool true]))
    ∧ minify (w ++ 0 :: tail') = .ok (w ++ 0 :: tail') :=
  minify_text (t := lit "[ true]")
    ⟨_, _, .nil _, .arr (.lastElement (.cons (Or.inl rfl) (.nil _)) (.true_ [93]) (.nil _)),
      .nil _⟩
    (.insert (a := [91]) (c := lit "/*x*/") (b := lit " true]") .refl rfl
      (@Comment.block [120] (by decide)))
    (by decide) []

end CJSONMinify
