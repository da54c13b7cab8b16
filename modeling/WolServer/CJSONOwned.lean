import WolServer.CJSONMemory

/-!
# Nothing that is parsed is lost

The parser builds its tree as it reads, and when it stops – at a mistake in
the text, or because a request was refused – the tree is half built.
`CJSONMemory.parse_owns` says that it is then freed with all it has come to,
and that a tree that is returned is the one `WolServer.CJSON` reads from the
same text.
-/

namespace CJSONMemory

open Owning

/-- A node as the parser finds it: blank, but for its type and its name. -/
def Blank (item : Item) : Prop :=
  ∃ b type string, item = ⟨b, type, false, false, none, 0, ⟨0, 0⟩, string, []⟩

/-- **What a call of the parser leaves**: the item with all it owns. If the
call returns a pointer, it has read what `WolServer.CJSON` reads. -/
def ParsedValue (item : Item) (read : Option (CJSON × Bytes)) (r : Item × Option Bytes) (e : Bool)
    (L : Multiset ℕ) : Prop :=
  L = owned r.1 ∧ unflagged r.1 = true ∧
    match r.2 with
    | none => e = true ∨ read = none
    | some p => e = false ∧ ∃ c, read = some (c, p)
      ∧ erase r.1 = { c with string := item.string.map (·.bytes) }

/-- What a loop of the parser leaves. -/
def ParsedAll (read : Option (List CJSON × Bytes)) (r : List Item × Option Bytes) (e : Bool)
    (L : Multiset ℕ) : Prop :=
  L = ownedAll r.1 ∧ unflaggedAll r.1 = true ∧
    match r.2 with
    | none => e = true ∨ read = none
    | some p => e = false ∧ read = some (eraseAll r.1, p)

theorem write_bytes {b : ℕ} {s : Bytes} (h : (0 : UInt8) ∉ s) : (HeapText.write b s).bytes = s :=
  cstr_eq_self h

/-- A new node owns its block. -/
theorem owned_new (b : ℕ) :
    {b} + 0 = owned ⟨b, .false_, false, false, none, 0, ⟨0, 0⟩, none, []⟩ := by
  simp only [owned, textBlock_none, ite_self, ownedAll, add_zero]

/-- **What a call of `parse_string` leaves**: the item as it was, or with a
string. -/
def ParsedString (item : Item) (u : Bytes) (r : Item × Option Bytes) (e : Bool)
    (L : Multiset ℕ) : Prop :=
  L = owned r.1 ∧ ((r = (item, none) ∧ (e = true ∨ CJSON.parseString u = none))
    ∨ ∃ out s p, CJSON.parseString u = some (s, p) ∧ e = false
      ∧ r = ({ item with valuestring := some (.write out s), type := .string }, some p))

theorem parseString_owns {item : Item} (h : Blank item) (u : Bytes) :
    Owns (owned item) (parseString item u) (ParsedString item u) := by
  obtain ⟨b, type, string, rfl⟩ := h
  rw [parseString]
  cases hread : CJSON.parseString u with
  | none => exact .pure ⟨rfl, Or.inl ⟨rfl, Or.inr hread⟩⟩
  | some r =>
    refine .bind (.malloc (fun out => .pure ?_) (.pure ⟨rfl, Or.inl ⟨rfl, Or.inl rfl⟩⟩))
    refine ⟨?_, Or.inr ⟨out, r.1, r.2, hread, rfl, rfl⟩⟩
    rw [owned, owned]
    simp only [textBlock_none, Bool.false_eq_true, if_false, zero_add]
    exact add_left_comm _ _ _

/-- A string node that has been read. -/
theorem ParsedString.value {item : Item} (hblank : Blank item) {u : Bytes}
    {r : Item × Option Bytes} {e : Bool} {L : Multiset ℕ} (h : ParsedString item u r e L) :
    ParsedValue item ((CJSON.parseString u).map
      (fun r => ({ CJSON.newItem with type := .string, valuestring := some r.1 }, r.2))) r e L := by
  obtain ⟨b, type, string, rfl⟩ := hblank
  obtain ⟨rfl, ⟨rfl, h⟩ | ⟨out, s, p, hread, rfl, rfl⟩⟩ := h
  · exact ⟨rfl, rfl, h.imp id (congrArg _)⟩
  · refine ⟨rfl, rfl, rfl, _, by rw [hread]; rfl, ?_⟩
    rw [erase, Option.map_some, write_bytes (CJSON.zero_notMem_parseString hread)]
    rfl

/-- A node without a name has none to lose. -/
theorem nameless_eq {c : CJSON} (h : c.string = none) : { c with string := none } = c := by
  cases c
  cases h
  rfl

/-- What an array or an object is left with. -/
theorem parsedValue_child {b : ℕ} {type type' : CJSONType} {string : Option HeapText}
    {read : Option (List CJSON × Bytes)} {r : List Item × Option Bytes} {e : Bool}
    {L : Multiset ℕ} (h : ParsedAll read r e L) :
    ParsedValue ⟨b, type, false, false, none, 0, ⟨0, 0⟩, string, []⟩
      (read.map (fun r => ({ CJSON.newItem with type := type', child := r.1 }, r.2)))
      (⟨b, type', false, false, none, 0, ⟨0, 0⟩, string, r.1⟩, r.2) e
      (L + owned ⟨b, type, false, false, none, 0, ⟨0, 0⟩, string, []⟩) := by
  obtain ⟨cs, p⟩ := r
  obtain ⟨rfl, hflags, h⟩ := h
  refine ⟨?_, by rw [unflagged, hflags]; rfl, ?_⟩
  · rw [owned, owned, ownedAll]
    simp only [Bool.false_eq_true, if_false]
    abel
  · cases p with
    | none => exact h.imp id (congrArg _)
    | some p =>
      obtain ⟨rfl, rfl⟩ := h
      exact ⟨rfl, _, rfl, by rw [erase]; rfl⟩

/-- One more child. -/
theorem parsedAll_cons {child : Item} {c : CJSON} (hflags : unflagged child = true)
    (herase : erase child = c) {read : Option (List CJSON × Bytes)} {r : List Item × Option Bytes}
    {e : Bool} {L : Multiset ℕ} (h : ParsedAll read r e L) :
    ParsedAll (read.map (fun r => (c :: r.1, r.2))) (child :: r.1, r.2) e (L + owned child) := by
  obtain ⟨cs, p⟩ := r
  obtain ⟨rfl, hall, h⟩ := h
  refine ⟨by rw [ownedAll, add_comm], by rw [unflaggedAll, hflags, hall]; rfl, ?_⟩
  cases p with
  | none => exact h.imp id (congrArg _)
  | some p =>
    obtain ⟨rfl, rfl⟩ := h
    exact ⟨rfl, by rw [eraseAll, herase]; rfl⟩

/-- The last child, if a bracket closes after it. -/
theorem parsedAll_last {child : Item} {c : CJSON} (hflags : unflagged child = true)
    (herase : erase child = c) (close : Prop) [Decidable close] (p : Bytes) :
    ParsedAll (if close then some ([c], p) else none)
      ([child], if close then some p else none) false (owned child) := by
  refine ⟨by rw [ownedAll, ownedAll, add_zero], by rw [unflaggedAll, hflags]; rfl, ?_⟩
  by_cases hclose : close
  · rw [if_pos hclose, if_pos hclose]
    exact ⟨rfl, by rw [eraseAll, herase, eraseAll]⟩
  · rw [if_neg hclose, if_neg hclose]
    exact Or.inr rfl

/-- A child that is not complete. -/
theorem parsedAll_none {child : Item} (hflags : unflagged child = true) {e : Bool}
    {read : Option (List CJSON × Bytes)} (h : e = true ∨ read = none) :
    ParsedAll read ([child], none) e (owned child) :=
  ⟨by rw [ownedAll, ownedAll, add_zero], by rw [unflaggedAll, hflags]; rfl, h⟩

/-- **Every call of the parser leaves what it says**, whichever requests are
refused. -/
theorem parse_steps (n : ℕ) :
    (∀ {item} (u), Blank item →
        Owns (owned item) (parseValue n item u) (ParsedValue item (CJSON.parseValue n u)))
      ∧ (∀ u, Owns 0 (parseElements n u) (ParsedAll (CJSON.parseElements n u)))
      ∧ (∀ u, Owns 0 (parseMembers n u) (ParsedAll (CJSON.parseMembers n u))) := by
  induction n with
  | zero =>
    refine ⟨fun {item} u h => ?_, fun u => ?_, fun u => ?_⟩
    · obtain ⟨b, type, string, rfl⟩ := h
      rw [parseValue]
      exact .pure ⟨rfl, rfl, Or.inr rfl⟩
    · rw [parseElements]
      exact .pure ⟨rfl, rfl, Or.inr rfl⟩
    · rw [parseMembers]
      exact .pure ⟨rfl, rfl, Or.inr rfl⟩
  | succ n ih =>
    obtain ⟨ihv, ihe, ihm⟩ := ih
    refine ⟨fun {item} u h => ?_, fun u => ?_, fun u => ?_⟩
    · have hstring := (parseString_owns h u).weaken (fun _ _ _ => ParsedString.value h)
      obtain ⟨b, type, string, rfl⟩ := h
      rw [parseValue, CJSON.parseValue]
      refine .ite (fun _ => .pure ⟨rfl, rfl, rfl, _, rfl, rfl⟩) (fun _ => ?_)
      refine .ite (fun _ => .pure ⟨rfl, rfl, rfl, _, rfl, rfl⟩) (fun _ => ?_)
      refine .ite (fun _ => .pure ⟨rfl, rfl, rfl, _, rfl, rfl⟩) (fun _ => ?_)
      refine .ite (fun _ => hstring) (fun _ => ?_)
      refine .ite (fun _ => .pure ⟨rfl, rfl, rfl, _, rfl, rfl⟩) (fun _ => ?_)
      refine .ite (fun _ => ?_)
        (fun _ => .ite (fun _ => ?_) (fun _ => .pure ⟨rfl, rfl, Or.inr rfl⟩))
      · refine .ite (fun _ => .pure ⟨rfl, rfl, rfl, _, rfl, rfl⟩) (fun _ => ?_)
        refine .bind ((ihe _).frame (zero_add _).symm (fun r e L h => .pure ?_))
        rw [Bool.or_false]
        exact parsedValue_child h
      · refine .ite (fun _ => .pure ⟨rfl, rfl, rfl, _, rfl, rfl⟩) (fun _ => ?_)
        refine .bind ((ihm _).frame (zero_add _).symm (fun r e L h => .pure ?_))
        rw [Bool.or_false]
        exact parsedValue_child h
    · rw [parseElements, CJSON.parseElements]
      refine .bind (newItem_owns (fun b => ?_) (.pure ⟨rfl, rfl, Or.inl rfl⟩))
      rw [owned_new]
      refine .bind ((ihv _ ⟨b, _, _, rfl⟩).weaken (fun r e L h => ?_))
      obtain ⟨child, p⟩ := r
      obtain ⟨rfl, hflags, h⟩ := h
      cases p with
      | none =>
        refine .pure (parsedAll_none hflags (h.imp (fun he => ?_) (fun hread => ?_)))
        · rw [he]
          rfl
        · rw [hread]
      | some p =>
        obtain ⟨rfl, c, hread, herase⟩ := h
        rw [hread]
        -- an element has no name
        have herase : erase child = c :=
          herase.trans (nameless_eq (CJSON.parseValue_nameless hread))
        refine .ite (fun _ => ?_) (fun _ => .pure (parsedAll_last hflags herase _ _))
        refine .bind ((ihe _).frame (zero_add _).symm (fun r e L h => .pure ?_))
        rw [Bool.or_false]
        exact parsedAll_cons hflags herase h
    · rw [parseMembers, CJSON.parseMembers]
      refine .bind (newItem_owns (fun b => ?_) (.pure ⟨rfl, rfl, Or.inl rfl⟩))
      rw [owned_new]
      refine .bind ((parseString_owns ⟨b, _, _, rfl⟩ _).weaken (fun r e L h => ?_))
      obtain ⟨rfl, ⟨rfl, h⟩ | ⟨out, s, p, hread, rfl, rfl⟩⟩ := h
      · refine .pure (parsedAll_none rfl (h.imp (fun he => ?_) (fun hread => ?_)))
        · rw [he]
          rfl
        · rw [hread]
      · rw [hread]
        -- the string becomes the name
        have hname : ∀ t : HeapText,
            owned ⟨b, .string, false, false, some t, 0, ⟨0, 0⟩, none, []⟩
              = owned ⟨b, .string, false, false, none, 0, ⟨0, 0⟩, some t, []⟩ := fun t => by
          simp only [owned, textBlock_none, Bool.false_eq_true, if_false, zero_add]
        rw [hname]
        refine .ite (fun _ => .pure (parsedAll_none rfl (Or.inr rfl))) (fun _ => ?_)
        refine .bind ((ihv _ ⟨b, _, _, rfl⟩).weaken (fun r e L h => ?_))
        obtain ⟨child, p⟩ := r
        obtain ⟨rfl, hflags, h⟩ := h
        cases p with
        | none =>
          refine .pure (parsedAll_none hflags (h.imp (fun he => ?_) (fun hread => ?_)))
          · rw [he]
            rfl
          · rw [hread]
        | some p =>
          obtain ⟨rfl, c, hvalue, herase⟩ := h
          rw [hvalue]
          rw [Option.map_some, write_bytes (CJSON.zero_notMem_parseString hread)] at herase
          refine .ite (fun _ => ?_) (fun _ => .pure (parsedAll_last hflags herase _ _))
          refine .bind ((ihm _).frame (zero_add _).symm (fun r e L h => .pure ?_))
          rw [Bool.or_false]
          exact parsedAll_cons hflags herase h

/-- **What is left of a parse**: a tree and all it owns, if the text can be
read and nothing was refused; and else nothing at all. -/
def Parsed (read : Option (CJSON × Bytes)) (r : Option (Item × Bytes)) (e : Bool)
    (L : Multiset ℕ) : Prop :=
  match r with
  | none => L = 0 ∧ (e = true ∨ read = none)
  | some (c, p) => L = owned c ∧ unflagged c = true ∧ e = false ∧ read = some (erase c, p)

/-- **Nothing that is parsed is lost**, whichever requests are refused. -/
theorem parse_owns (value : Bytes) (requireNullTerminated : Bool) :
    Owns 0 (parseWithOpts value requireNullTerminated)
      (Parsed (CJSON.parseWithOpts value requireNullTerminated)) := by
  unfold parseWithOpts CJSON.parseWithOpts
  refine .bind (newItem_owns (fun b => ?_) (.pure ⟨rfl, Or.inl rfl⟩))
  rw [owned_new]
  refine .bind (((parse_steps _).1 _ ⟨b, _, _, rfl⟩).weaken (fun r e L h => ?_))
  obtain ⟨c, p⟩ := r
  obtain ⟨rfl, hflags, h⟩ := h
  have hdelete : ∀ {post : Unit → Bool → Multiset ℕ → Prop}, post () false 0 →
      Owns (owned c) (delete [c]) post :=
    delete_owns [c] (by rw [ownedAll, ownedAll, add_zero, add_zero])
  cases p with
  | none =>
    refine .bind (hdelete (.pure ⟨rfl, h.imp (fun he => ?_) (fun hread => ?_)⟩))
    · rw [he]
      rfl
    · rw [hread]
  | some p =>
    obtain ⟨rfl, c', hread, herase⟩ := h
    rw [hread]
    refine .ite (fun _ => .bind (hdelete (.pure ⟨rfl, Or.inr rfl⟩)))
      (fun _ => .pure ⟨rfl, hflags, rfl, ?_⟩)
    exact congrArg some (Prod.ext (herase.trans
      (nameless_eq (CJSON.parseValue_nameless hread))).symm rfl)

end CJSONMemory
