import WolServer.CJSONBuffer

/-!
# `cJSON_PrintBuffered`

The printer of a tree, as it prints to a buffer. It does not look at what it
is returned for a part, and goes up to the terminator instead.

`CJSONBuffer.printBuffered_owns` says that the buffer holds the text of the
tree in the end, the text that `cJSON_Print` puts together from pieces, in one
block and from its start; or nothing, when a request was refused, and then
nothing is left of it. No byte is written outside of a block, and none is read
that was not written.
-/

namespace CJSONBuffer

open Owning

variable (sprintf : Decimal → Bytes)

/-- `print_number`. -/
def printNumber (valueint : ℤ) (d : Decimal) : Printing ℕ :=
  put (CJSON.numberSize valueint d) (CJSON.numberText sprintf valueint d ++ [0])

/-- `print_string_ptr`. The source reads through a null pointer. -/
def printStringPtr (str : Option Bytes) : Printing ℕ := fun p =>
  if str.isSome then put (CJSON.stringSize str) (CJSON.stringText str ++ [0]) p
  else do
    require False
    return (none, p)

/-- A text is printed, whatever that returns, and the offset goes up to its
terminator. -/
def append (x : Printing ℕ) : Printing Unit := do
  attempt x
  setOffset (← update)

/-- The tabulators in front of a member. -/
def indent (depth : ℕ) (fmt : Bool) : Printing Unit :=
  if fmt = true then emit depth (CJSON.tabs fmt depth ++ []) depth else return ()

/-- What follows an element of an array. -/
def separate (next : List CJSON) (fmt : Bool) : Printing Unit :=
  if next.isEmpty then return ()
  else
    let len := if fmt = true then 2 else 1
    emit (len + 1) (44 :: (if fmt = true then [32] else []) ++ [0]) len

/-- What follows the name of a member. -/
def colon (fmt : Bool) : Printing Unit :=
  let len := if fmt = true then 2 else 1
  emit len (58 :: CJSON.tabs fmt 1 ++ []) len

/-- What follows a member of an object. -/
def endMember (next : List CJSON) (fmt : Bool) : Printing Unit :=
  let len := (if fmt = true then 1 else 0) + (if next.isEmpty then 0 else 1)
  emit (len + 1) ((if next.isEmpty then [] else [44]) ++ CJSON.newline fmt ++ [0]) len

mutual

/-- **`print_value`**, with `print_array` and `print_object`: where in the block
the text is. -/
def printValue : CJSON → ℕ → Bool → Printing ℕ
  | ⟨.null, _, _, _, _, _⟩, _, _ => put 5 (lit "null" ++ [0])
  | ⟨.false_, _, _, _, _, _⟩, _, _ => put 6 (lit "false" ++ [0])
  | ⟨.true_, _, _, _, _, _⟩, _, _ => put 5 (lit "true" ++ [0])
  | ⟨.number, _, valueint, valuedouble, _, _⟩, _, _ => printNumber sprintf valueint valuedouble
  | ⟨.string, valuestring, _, _, _, _⟩, _, _ => printStringPtr valuestring
  | ⟨.array, _, _, _, _, child⟩, depth, fmt =>
    if child.isEmpty then put 3 (lit "[]" ++ [0])
    else do
      let i ← offset
      emit 1 ([91] ++ []) 1
      printElements child (depth + 1) fmt
      let _ ← put 2 ([93] ++ [0])
      return i
  | ⟨.object, _, _, _, _, child⟩, depth, fmt =>
    if child.isEmpty then
      put (CJSON.emptyObjectSize depth fmt)
        (123 :: (CJSON.newline fmt ++ (CJSON.tabs fmt (depth - 1) ++ [125])) ++ [0])
    else do
      let i ← offset
      let len := if fmt = true then 2 else 1
      emit (len + 1) (123 :: CJSON.newline fmt ++ [0]) len
      printMembers child (depth + 1) fmt
      let _ ← put (if fmt = true then depth + 2 else 2) (CJSON.tabs fmt depth ++ [125] ++ [0])
      -- the loop over the tabulators counts in `i`
      return if fmt = true then depth else i

/-- The loop of `print_array`. -/
def printElements : List CJSON → ℕ → Bool → Printing Unit
  | [], _, _ => return ()
  | child :: next, depth, fmt => do
    append (printValue child depth fmt)
    separate next fmt
    printElements next depth fmt

/-- The loop of `print_object`. -/
def printMembers : List CJSON → ℕ → Bool → Printing Unit
  | [], _, _ => return ()
  | child :: next, depth, fmt => do
    indent depth fmt
    append (printStringPtr child.string)
    colon fmt
    append (printValue child depth fmt)
    endMember next fmt
    printMembers next depth fmt

end

/-- **`cJSON_PrintBuffered`**: the block, where in it the text is, and its
bytes. -/
def printBuffered (item : CJSON) (prebuffer : ℕ) (fmt : Bool) :
    StateM Store (Option (ℕ × ℕ × Cells)) := do
  let buffer ← malloc
  let r ← printValue sprintf item 0 fmt
    ⟨buffer.map (fun b => (b, List.replicate prebuffer none)), prebuffer, 0⟩
  return r.1.bind (fun out => r.2.buffer.map (fun b => (b.1, out, b.2)))

/-! ## The text of a part -/

variable {sprintf}

/-- **A text is printed** behind the text so far. The offset is somewhere in it,
and what follows the offset has a terminator. -/
def Printed (s t : Bytes) (depth out : ℕ) : Assertion := fun p e L =>
  (s = [] → depth = 0 → out = 0)
    ∧ ∃ u w, t = u ++ w ∧ (0 : UInt8) ∉ w ∧ Spells (s ++ u) (w ++ [0]) p e L

/-- A text that is put as a whole. -/
theorem does_whole {s t : Bytes} {needed depth : ℕ} (ht : (0 : UInt8) ∉ t)
    (hroom : t.length < needed) (h : needed + s.length ≤ 2 ^ 30) :
    Does (Spells s []) (put needed (t ++ [0])) (Printed s t depth) := by
  refine (does_put (by simpa using hroom) h).weaken (fun _ _ _ => Or.inr) ?_
  rintro out p e L ⟨rfl, hp⟩
  refine ⟨fun hs _ => by rw [hs, List.length_nil], [], t, rfl, ht, ?_⟩
  rwa [List.append_nil]

/-- **The offset goes behind a text** that was printed. -/
theorem does_append {s t : Bytes} {depth : ℕ} {x : Printing ℕ}
    (hx : Does (Spells s []) x (Printed s t depth)) :
    Does (Spells s []) (append x) (fun _ => OrDead (Spells (s ++ t) [0])) := by
  refine hx.attempt.bind (fun _ => ?_)
  rintro p e A (hdead | ⟨out, -, u, w, rfl, hw, hp⟩)
  · exact (does_update (u := s ++ t) (v := []) List.not_mem_nil).weaken (fun _ _ _ h => h)
      (fun _ _ _ _ h => by rwa [List.append_nil] at h) p e A (Or.inl hdead)
  · rw [← List.append_assoc]
    exact does_update hw p e A (Or.inr hp)

theorem zero_notMem_tabs (fmt : Bool) (n : ℕ) : (0 : UInt8) ∉ CJSON.tabs fmt n := by
  cases fmt with
  | false => exact List.not_mem_nil
  | true => exact fun h => absurd (List.eq_of_mem_replicate h) (by decide)

theorem zero_notMem_newline (fmt : Bool) : (0 : UInt8) ∉ CJSON.newline fmt := by
  cases fmt <;> decide

theorem zero_notMem_code : ∀ n < 32, (0 : UInt8) ∉
    [92, 117, 48, 48, CJSON.hexDigit (n / 16), CJSON.hexDigit (n % 16)] := by decide

/-- No terminator is written inside of a string. -/
theorem zero_notMem_escape {b : UInt8} (hb : b ≠ 0) : (0 : UInt8) ∉ CJSON.escape b := by
  rcases CJSON.escape_cases b with ⟨he, -⟩ | ⟨e, he, hsimple⟩ | ⟨hlow, he⟩
  · rw [he]
    exact fun h => hb (List.mem_singleton.mp h).symm
  · rw [he]
    intro h
    rcases List.mem_pair.mp h with h | rfl
    · exact absurd h (by decide)
    · exact absurd hsimple (by simp [JsonText.simpleEscape])
  · rw [he]
    exact zero_notMem_code b.toNat hlow

theorem zero_notMem_stringText (str : Option Bytes) : (0 : UInt8) ∉ CJSON.stringText str := by
  have hzero := zero_notMem_cstr (str.getD [])
  unfold CJSON.stringText
  split_ifs
  · simp only [List.mem_cons, List.mem_append, List.mem_flatMap, not_or, not_exists, not_and]
    exact ⟨by decide, fun b hb => zero_notMem_escape (fun e => hzero (e ▸ hb)), by decide, by simp⟩
  · simpa using hzero

theorem does_printStringPtr {s : Bytes} {str : Option Bytes} {d : ℕ} (hstr : str.isSome)
    (h : s.length + (CJSON.stringText str).length + 64 ≤ 2 ^ 30) :
    Does (Spells s []) (printStringPtr str) (Printed s (CJSON.stringText str) d) := by
  have hsize := CJSON.stringSize_eq str
  unfold printStringPtr
  simp only [if_pos hstr]
  exact does_whole (zero_notMem_stringText str) (by omega) (by omega)

theorem zero_notMem_numberText (hsprintf : CJSON.Fits sprintf) (n : ℤ) (d : Decimal) :
    (0 : UInt8) ∉ CJSON.numberText sprintf n d := by
  unfold CJSON.numberText CJSON.signedDecimal
  split_ifs
  · decide
  · exact fun h => (List.mem_append.mp h).elim (by decide)
      (fun h => absurd (isDigit_of_mem_decimal h) (by decide))
  · exact fun h => (List.mem_append.mp h).elim (by decide)
      (fun h => absurd (isDigit_of_mem_decimal h) (by decide))
  · exact (hsprintf d).2

theorem does_printNumber (hsprintf : CJSON.Fits sprintf) {s : Bytes} {n : ℤ} {d : Decimal}
    {depth : ℕ} (h : s.length + (CJSON.numberText sprintf n d).length + 64 ≤ 2 ^ 30) :
    Does (Spells s []) (printNumber sprintf n d)
      (Printed s (CJSON.numberText sprintf n d) depth) := by
  have hsize := CJSON.numberSize_le n d
  exact does_whole (zero_notMem_numberText hsprintf n d) (CJSON.length_numberText_lt hsprintf n d)
    (by omega)

/-! ## The parts around a text -/

variable {u v : Bytes} {fmt : Bool}

theorem does_indent {depth : ℕ} (h : (CJSON.tabs fmt depth).length + u.length ≤ 2 ^ 30) :
    Does (Spells u []) (indent depth fmt) (fun _ => Spells (u ++ CJSON.tabs fmt depth) []) := by
  cases fmt with
  | false => exact .pure (fun p e L hp => by rwa [show CJSON.tabs false depth = [] from rfl,
      List.append_nil])
  | true =>
    have hlen := CJSON.length_tabs true depth
    rw [if_pos rfl] at hlen
    exact (does_emit (by rw [List.append_nil, hlen]) (by omega) hlen.symm).weaken
      (fun _ _ _ => Or.inr) (fun _ _ _ _ hp => hp)

/-- What follows an element of an array, but not the last one. -/
theorem does_separate {next : List CJSON} (hnext : next ≠ []) (h : u.length + 3 ≤ 2 ^ 30) :
    Does (OrDead (Spells u [0])) (separate next fmt)
      (fun _ => Spells (u ++ 44 :: (if fmt = true then [32] else [])) []) := by
  unfold separate
  rw [if_neg (by simpa using hnext)]
  refine (does_emit (u := u) ?_ ?_ ?_).weaken (fun _ _ _ => OrDead.front)
    (fun _ _ _ _ => Spells.front) <;> cases fmt <;> simp <;> omega

theorem does_colon (h : u.length + 2 ≤ 2 ^ 30) :
    Does (OrDead (Spells u [0])) (colon fmt)
      (fun _ => Spells (u ++ 58 :: CJSON.tabs fmt 1) []) := by
  unfold colon
  refine (does_emit (u := u) ?_ ?_ ?_).weaken (fun _ _ _ => OrDead.front)
    (fun _ _ _ _ => Spells.front) <;> cases fmt <;> simp [CJSON.tabs] <;> omega

theorem does_endMember {next : List CJSON} (h : u.length + 3 ≤ 2 ^ 30) :
    Does (OrDead (Spells u [0])) (endMember next fmt)
      (fun _ => Spells (u ++ ((if next.isEmpty then [] else [44]) ++ CJSON.newline fmt)) []) := by
  unfold endMember
  refine (does_emit (u := u) ?_ ?_ ?_).weaken (fun _ _ _ => OrDead.front)
    (fun _ _ _ _ => Spells.front) <;> cases fmt <;> cases next <;> simp [CJSON.newline] <;> omega

/-! ## The printer -/

theorem isEmpty_textMembers (cs : List CJSON) (depth : ℕ) :
    (CJSON.textMembers sprintf cs depth fmt).isEmpty = cs.isEmpty := by
  cases cs with
  | nil => rw [CJSON.textMembers]; rfl
  | cons c cs => rw [CJSON.textMembers, List.isEmpty_cons, List.isEmpty_cons]

mutual

/-- **The printer prints the text of a tree**, by induction on the tree. -/
theorem does_printValue (hsprintf : CJSON.Fits sprintf) : ∀ (c : CJSON) (_ : CJSON.Printable c)
    (depth : ℕ) (fmt : Bool) (s : Bytes)
    (_ : s.length + (CJSON.text sprintf c depth fmt).length + 64 ≤ 2 ^ 30),
    Does (Spells s []) (printValue sprintf c depth fmt)
      (Printed s (CJSON.text sprintf c depth fmt) depth)
  | ⟨type, valuestring, valueint, valuedouble, string, child⟩, hc, depth, fmt, s, h => by
    cases type with
    | null | false_ | true_ =>
      rw [printValue, CJSON.text]
      rw [CJSON.text] at h
      exact does_whole (by decide) (by decide) (by omega)
    | number =>
      rw [printValue, CJSON.text]
      rw [CJSON.text] at h
      exact does_printNumber hsprintf h
    | string =>
      rw [printValue, CJSON.text]
      rw [CJSON.text] at h
      exact does_printStringPtr (hc.text rfl) h
    | array =>
      rw [printValue, CJSON.text]
      rw [CJSON.text] at h
      by_cases hempty : child.isEmpty = true
      · rw [if_pos hempty] at h ⊢
        rw [if_pos hempty]
        exact does_whole (by decide) (by decide) (by omega)
      · rw [if_neg hempty] at h ⊢
        rw [if_neg hempty]
        simp only [List.length_cons, List.length_append, List.length_nil] at h
        have hopen : Does (Spells s []) (emit 1 ([91] ++ []) 1) (fun _ => Spells (s ++ [91]) []) :=
          (does_emit (by simp) (by omega) rfl).weaken (fun _ _ _ => Or.inr) (fun _ _ _ _ hp => hp)
        have hloop := does_printElements hsprintf child hc.child (depth + 1) fmt (s ++ [91])
          (by simp only [List.length_append, List.length_singleton]; omega)
        have hclose := does_put (u := s ++ [91]
            ++ CJSON.composeElements fmt (CJSON.textElements sprintf child (depth + 1) fmt))
          (s := [93] ++ [0]) (n := 2) (by simp)
          (by simp only [List.length_append, List.length_singleton]; omega)
        refine does_offset.bind (fun i => ?_)
        rintro p e A ⟨rfl, hp⟩
        refine hopen.bind (fun _ => hloop.bind (fun _ => hclose.bind (fun _ => .pure ?_))) p e A hp
        rintro p e L ⟨-, hp⟩
        refine ⟨fun hs _ => by rw [hs, List.length_nil], 91 :: CJSON.composeElements fmt
          (CJSON.textElements sprintf child (depth + 1) fmt), [93], rfl, by decide, ?_⟩
        rwa [List.append_assoc] at hp
    | object =>
      rw [printValue, CJSON.text]
      rw [CJSON.text] at h
      by_cases hempty : child.isEmpty = true
      · rw [if_pos hempty] at h ⊢
        rw [if_pos hempty]
        obtain ⟨hlt, hle⟩ := CJSON.length_emptyObject depth fmt
        exact does_whole (by simp [zero_notMem_tabs, zero_notMem_newline]) hlt (by omega)
      · rw [if_neg hempty] at h ⊢
        rw [if_neg hempty]
        simp only [List.length_cons, List.length_append, List.length_nil, CJSON.length_newline,
          CJSON.length_tabs] at h
        have hnewline := CJSON.length_newline fmt
        have htabs := CJSON.length_tabs fmt depth
        have hopen : Does (Spells s []) (emit ((if fmt = true then 2 else 1) + 1)
            (123 :: CJSON.newline fmt ++ [0]) (if fmt = true then 2 else 1))
            (fun _ => Spells (s ++ 123 :: CJSON.newline fmt) []) :=
          (does_emit (by simp [hnewline]; split_ifs <;> decide) (by split_ifs <;> omega)
            (by simp [hnewline]; split_ifs <;> rfl)).weaken (fun _ _ _ => Or.inr)
            (fun _ _ _ _ => Spells.front)
        have hloop := does_printMembers hsprintf child (hc.members rfl) hc.child (depth + 1) fmt
          (s ++ 123 :: CJSON.newline fmt) (by
            simp only [List.length_append, List.length_cons, hnewline]
            omega)
        have hclose := does_put (u := s ++ 123 :: CJSON.newline fmt
            ++ CJSON.composeMembers fmt (depth + 1)
              (CJSON.textMembers sprintf child (depth + 1) fmt))
          (s := CJSON.tabs fmt depth ++ [125] ++ [0])
          (n := if fmt = true then depth + 2 else 2)
          (by simp [htabs]; split_ifs <;> omega) (by
            simp only [List.length_append, List.length_cons, hnewline]
            split_ifs at h ⊢ <;> omega)
        refine does_offset.bind (fun i => ?_)
        rintro p e A ⟨rfl, hp⟩
        refine hopen.bind (fun _ => (hloop.weaken (fun _ _ _ h => h)
          (fun _ _ _ _ => Or.inr)).bind (fun _ => hclose.bind (fun _ => .pure ?_))) p e A hp
        rintro p e L ⟨-, hp⟩
        refine ⟨fun hs hdepth => ?_, 123 :: CJSON.newline fmt
          ++ CJSON.composeMembers fmt (depth + 1)
            (CJSON.textMembers sprintf child (depth + 1) fmt), CJSON.tabs fmt depth ++ [125],
          by simp, ?_, ?_⟩
        · rw [hs, hdepth, List.length_nil, ite_self]
        · simp [zero_notMem_tabs]
        · rwa [List.append_assoc] at hp

/-- So do its elements. -/
theorem does_printElements (hsprintf : CJSON.Fits sprintf) : ∀ (cs : List CJSON)
    (_ : ∀ c ∈ cs, CJSON.Printable c) (depth : ℕ) (fmt : Bool) (s : Bytes)
    (_ : s.length + (CJSON.composeElements fmt (CJSON.textElements sprintf cs depth fmt)).length
      + 65 ≤ 2 ^ 30),
    Does (Spells s []) (printElements sprintf cs depth fmt) (fun _ => OrDead
      (Spells (s ++ CJSON.composeElements fmt (CJSON.textElements sprintf cs depth fmt)) []))
  | [], _, depth, fmt, s, _ => by
    rw [printElements, CJSON.textElements]
    exact .pure (fun p e L hp => Or.inr (by rwa [CJSON.composeElements, List.append_nil]))
  | c :: cs, hcs, depth, fmt, s, h => by
    have hc := hcs c List.mem_cons_self
    rw [CJSON.textElements, CJSON.composeElements] at h ⊢
    rw [printElements]
    simp only [List.length_append] at h
    have happend := does_append (does_printValue hsprintf c hc depth fmt s (by omega))
    refine happend.bind (fun _ => ?_)
    cases cs with
    | nil =>
      rw [show separate [] fmt = pure () from rfl, printElements]
      refine Does.bind (Q := fun _ => _) (.pure (fun p e L hp => hp)) (fun _ => .pure ?_)
      intro p e L hp
      simpa [CJSON.textElements, CJSON.composeElements] using hp.front
    | cons d cs =>
      rw [show (CJSON.textElements sprintf (d :: cs) depth fmt).isEmpty = false by
        rw [CJSON.textElements, List.isEmpty_cons], if_neg Bool.false_ne_true] at h ⊢
      have hcs : ∀ e ∈ d :: cs, CJSON.Printable e := fun e he => hcs e (List.mem_cons_of_mem c he)
      have hsep : Does (OrDead (Spells (s ++ CJSON.text sprintf c depth fmt) [0]))
          (separate (d :: cs) fmt) _ :=
        does_separate (List.cons_ne_nil d cs) (by rw [List.length_append]; omega)
      have hloop := does_printElements hsprintf (d :: cs) hcs depth fmt (s
        ++ CJSON.text sprintf c depth fmt ++ 44 :: if fmt = true then [32] else []) (by
          simp only [List.length_append, List.length_cons] at h ⊢
          omega)
      refine hsep.bind (fun _ => hloop.weaken (fun _ _ _ hp => hp) (fun _ p e L hp => ?_))
      simpa only [List.append_assoc, List.cons_append] using hp

/-- And its members. -/
theorem does_printMembers (hsprintf : CJSON.Fits sprintf) : ∀ (cs : List CJSON)
    (_ : ∀ c ∈ cs, c.string.isSome) (_ : ∀ c ∈ cs, CJSON.Printable c) (depth : ℕ)
    (fmt : Bool) (s : Bytes) (_ : s.length + (CJSON.composeMembers fmt depth
      (CJSON.textMembers sprintf cs depth fmt)).length + 65 ≤ 2 ^ 30),
    Does (Spells s []) (printMembers sprintf cs depth fmt) (fun _ =>
      Spells (s ++ CJSON.composeMembers fmt depth (CJSON.textMembers sprintf cs depth fmt)) [])
  | [], _, _, depth, fmt, s, _ => by
    rw [printMembers, CJSON.textMembers]
    exact .pure (fun p e L hp => by rwa [CJSON.composeMembers, List.append_nil])
  | c :: cs, hnames, hcs, depth, fmt, s, h => by
    have hname := hnames c List.mem_cons_self
    have hc := hcs c List.mem_cons_self
    rw [CJSON.textMembers, CJSON.composeMembers, isEmpty_textMembers] at h ⊢
    rw [printMembers]
    simp only [List.length_append, List.length_cons] at h
    have hcs : ∀ e ∈ cs, CJSON.Printable e := fun e he => hcs e (List.mem_cons_of_mem c he)
    have hnames : ∀ e ∈ cs, e.string.isSome := fun e he => hnames e (List.mem_cons_of_mem c he)
    have hindent : Does (Spells s []) (indent depth fmt)
        (fun _ => Spells (s ++ CJSON.tabs fmt depth) []) := does_indent (by omega)
    have hstring := does_append (does_printStringPtr (s := s ++ CJSON.tabs fmt depth)
      (d := depth) hname (by simp only [List.length_append]; omega))
    have hcolon : Does _ (colon fmt) _ := does_colon (u := s ++ CJSON.tabs fmt depth
      ++ CJSON.stringText c.string) (by simp only [List.length_append]; omega)
    have hvalue := does_append (does_printValue hsprintf c hc depth fmt (s ++ CJSON.tabs fmt depth
      ++ CJSON.stringText c.string ++ 58 :: CJSON.tabs fmt 1) (by
        simp only [List.length_append, List.length_cons]
        omega))
    have hend : Does _ (endMember cs fmt) _ := does_endMember (u := s ++ CJSON.tabs fmt depth
      ++ CJSON.stringText c.string ++ 58 :: CJSON.tabs fmt 1 ++ CJSON.text sprintf c depth fmt) (by
        simp only [List.length_append, List.length_cons]
        omega)
    have hloop := does_printMembers hsprintf cs hnames hcs depth fmt (s ++ CJSON.tabs fmt depth
      ++ CJSON.stringText c.string ++ 58 :: CJSON.tabs fmt 1 ++ CJSON.text sprintf c depth fmt
      ++ ((if cs.isEmpty then [] else [44]) ++ CJSON.newline fmt)) (by
        simp only [List.length_append, List.length_cons] at h ⊢
        omega)
    refine hindent.bind (fun _ => hstring.bind (fun _ => hcolon.bind (fun _ => hvalue.bind
      (fun _ => hend.bind (fun _ => hloop.weaken (fun _ _ _ hp => hp) (fun _ p e L hp => ?_))))))
    simpa only [List.append_assoc, List.cons_append] using hp

end

/-- **Without a buffer**, nothing is printed. -/
theorem dead_printValue (c : CJSON) (hc : CJSON.Printable c) (depth : ℕ) (fmt : Bool)
    {Q : ℕ → Assertion} : Does Dead (printValue sprintf c depth fmt) Q := by
  obtain ⟨type, valuestring, valueint, valuedouble, string, child⟩ := c
  have hopen : ∀ {needed len : ℕ} {s : Bytes} {x : ℕ → Printing ℕ}, Does Dead
      (do let i ← offset; emit needed s len; x i) Q := fun {_ _ _ _} => by
    refine Does.bind (Q := fun _ => Dead) (fun p e A h => .pure (by rwa [Bool.or_false]))
      (fun _ => dead_emit.bind (Q := fun _ _ _ _ => False) (fun _ _ _ _ h => h.elim))
  cases type with
  | null | false_ | true_ =>
    rw [printValue]
    exact dead_put
  | number =>
    rw [printValue]
    exact dead_put
  | string =>
    rw [printValue]
    unfold printStringPtr
    simp only [if_pos (hc.text rfl)]
    exact dead_put
  | array | object =>
    rw [printValue]
    by_cases hempty : child.isEmpty = true
    · rw [if_pos hempty]
      exact dead_put
    · rw [if_neg hempty]
      exact hopen

/-- What is left when a tree was printed: its text in one block, or nothing. -/
def Left (t : Bytes) (r : Option (ℕ × ℕ × Cells)) (e : Bool) (L : Multiset ℕ) : Prop :=
  match r with
  | none => e = true ∧ L = 0
  | some (b, out, m) => e = false ∧ L = {b} ∧ out = 0 ∧ (t ++ [0]).map some <+: m

/-- **A tree is printed to one block, from its start, or nothing is left of
it.** -/
theorem printBuffered_owns (hsprintf : CJSON.Fits sprintf) {c : CJSON} (hc : CJSON.Printable c)
    {fmt : Bool} (h : (CJSON.text sprintf c 0 fmt).length + 64 ≤ 2 ^ 30) (prebuffer : ℕ) :
    Owns 0 (printBuffered sprintf c prebuffer fmt) (Left (CJSON.text sprintf c 0 fmt)) := by
  have hprint := does_printValue hsprintf c hc 0 fmt [] (by rwa [List.length_nil, zero_add])
  refine .bind (.malloc (fun b => ?_) ?_)
  · refine .bind ((hprint _ false {b} ⟨rfl, b, _, rfl, rfl, List.length_replicate, rfl,
      List.nil_prefix⟩).weaken (fun r e L h => .pure ?_))
    obtain ⟨out, p⟩ := r
    cases out with
    | none =>
      obtain ⟨-, rfl, rfl⟩ := h
      exact ⟨rfl, rfl⟩
    | some out =>
      obtain ⟨hout, u, w, ht, -, rfl, b, m, hb, rfl, -, -, hpre⟩ := h
      rw [show p.buffer = some (b, m) from hb]
      refine ⟨rfl, rfl, hout rfl rfl, ?_⟩
      rwa [ht, List.append_assoc]
  · refine .bind ((dead_printValue c hc 0 fmt (Q := fun _ _ _ _ => False) _ true 0
      ⟨rfl, rfl, rfl⟩).weaken (fun r e L h => .pure ?_))
    obtain ⟨out, p⟩ := r
    cases out with
    | none =>
      obtain ⟨-, -, rfl⟩ := h
      exact ⟨rfl, rfl⟩
    | some out => exact h.elim

/-- The array of a null and an empty string, in a buffer that is not long enough
for the first of them. -/
theorem printBuffered_owns_null_empty : Owns 0
    (printBuffered (fun _ => lit "0.5") ⟨.array, none, 0, ⟨0, 0⟩, none,
      [⟨.null, none, 0, ⟨0, 0⟩, none, []⟩, ⟨.string, some [], 0, ⟨0, 0⟩, none, []⟩]⟩ 3 true)
    (Left (lit "[null, \"\"]")) :=
  printBuffered_owns (fun _ => by decide) (.mk (fun h => absurd h (by decide))
    (fun h => absurd h (by decide)) (fun e he => by
      rcases List.mem_pair.mp he with rfl | rfl
      · exact .mk (fun h => absurd h (by decide)) (fun h => absurd h (by decide))
          (fun _ h => absurd h List.not_mem_nil)
      · exact .mk (fun _ => rfl) (fun h => absurd h (by decide))
          (fun _ h => absurd h List.not_mem_nil))) (by decide) 3

end CJSONBuffer
