import WolServer.CJSONShape
import WolServer.Device

/-!
# Nodes without a name

The firmware looks members up by itself: `json_get_value_boolean`,
`json_get_value_string` and `json_get_value_array` walk over the children of
the root and compare the names of those of one type. Whether the root is an
object they do not ask, and the elements of an array have no name to compare.

Which nodes are reached depends on the lookups before: a text is searched
for a `true` named `status` first, for a string named `cmd` if there is
none, and for an array named `mac` only after a command was found. What
comes of it is short (`Device.fault_iff`): a name that is not there is
followed exactly when the root is an array with a `true` or a string among
its elements. An array in an array is never reached.

The parser is the one of the SDK. What the result needs of it is that its
trees are built as `CJSON.Built` says, which `CJSON.built_of_parse` proves of
the parser in the repository.
-/

namespace Device

variable {cs : List CJSON}

/-- The node has this name. -/
def Named (name : Bytes) (e : CJSON) : Prop := e.string.map cstr = some name

/-- A search among nodes with names follows no null pointer, and finds a
node of the type and the name if there is one. -/
theorem jsonScan_named (type : CJSONType) (name : Bytes) (h : ∀ e ∈ cs, ∃ s, e.string = some s) :
    ((∀ e ∈ cs, e.type = type → ¬ Named name e) ∧ jsonScan type name cs = .missing)
      ∨ ∃ e ∈ cs, e.type = type ∧ Named name e ∧ jsonScan type name cs = .found e := by
  induction cs with
  | nil => exact Or.inl ⟨fun _ he => absurd he List.not_mem_nil, rfl⟩
  | cons e cs ih =>
    rw [List.forall_mem_cons] at h
    obtain ⟨⟨s, hs⟩, hrest⟩ := h
    have hnext : (e.type = type → ¬ Named name e) →
        ((∀ e' ∈ e :: cs, e'.type = type → ¬ Named name e') ∧ jsonScan type name cs = .missing)
          ∨ ∃ e' ∈ e :: cs, e'.type = type ∧ Named name e' ∧ jsonScan type name cs = .found e' := by
      intro he
      rcases ih hrest with ⟨hall, hm⟩ | ⟨e', he', hfound⟩
      · exact Or.inl ⟨List.forall_mem_cons.mpr ⟨he, hall⟩, hm⟩
      · exact Or.inr ⟨e', List.mem_cons_of_mem e he', hfound⟩
    have hname : Named name e ↔ cstr s = name := by
      rw [Named, hs, Option.map_some, Option.some_inj]
    rw [jsonScan]
    by_cases ht : e.type = type
    · rw [if_pos ht, hs]
      dsimp only
      by_cases hn : cstr s = name
      · rw [if_pos hn]
        exact Or.inr ⟨e, List.mem_cons_self, ht, hname.mpr hn, rfl⟩
      · rw [if_neg hn]
        exact hnext (fun _ h => hn (hname.mp h))
    · rw [if_neg ht]
      exact hnext (fun h => absurd h ht)

/-- A search among nodes without names follows a null pointer at the first
node of the type. -/
theorem jsonScan_nameless (type : CJSONType) (name : Bytes) (h : ∀ e ∈ cs, e.string = none) :
    ((∃ e ∈ cs, e.type = type) ∧ jsonScan type name cs = .fault)
      ∨ ((∀ e ∈ cs, e.type ≠ type) ∧ jsonScan type name cs = .missing) := by
  induction cs with
  | nil => exact Or.inr ⟨fun _ he => absurd he List.not_mem_nil, rfl⟩
  | cons e cs ih =>
    rw [List.forall_mem_cons] at h
    rw [jsonScan]
    by_cases ht : e.type = type
    · rw [if_pos ht, h.1]
      exact Or.inl ⟨⟨e, List.mem_cons_self, ht⟩, rfl⟩
    · rw [if_neg ht]
      refine (ih h.2).imp (fun ⟨⟨e', he', ht'⟩, hf⟩ => ⟨⟨e', List.mem_cons_of_mem e he', ht'⟩, hf⟩)
        (fun ⟨hall, hm⟩ => ⟨List.forall_mem_cons.mpr ⟨ht, hall⟩, hm⟩)

variable {pRoot : CJSON}

/-- `json_get_value_boolean` finds a name exactly when the tree has a `true`
of that name. -/
theorem jsonGetValueBoolean_found_iff (hc : CJSON.Built pRoot) (name : Bytes) :
    jsonGetValueBoolean pRoot name = .found ()
      ↔ ∃ e ∈ pRoot.child, e.type = .true_ ∧ Named name e := by
  unfold jsonGetValueBoolean
  rcases hc.names with ⟨-, hnone⟩ | ⟨-, hsome⟩
  · refine iff_of_false ?_ (fun ⟨e, he, _, hn⟩ => ?_)
    · rcases jsonScan_nameless .true_ name hnone with ⟨-, hf⟩ | ⟨-, hm⟩
      · rw [hf]
        exact fun h => by cases h
      · rw [hm]
        exact fun h => by cases h
    · rw [Named, hnone e he] at hn
      cases hn
  · rcases jsonScan_named .true_ name hsome with
      ⟨hall, hm⟩ | ⟨e, he, ht, hn, hf⟩
    · rw [hm]
      exact iff_of_false (fun h => by cases h) (fun ⟨e, he, ht, hn⟩ => hall e he ht hn)
    · rw [hf]
      exact iff_of_true rfl ⟨e, he, ht, hn⟩

theorem jsonGetValueArray_named (h : ∀ e ∈ pRoot.child, ∃ s, e.string = some s) (name : Bytes)
    (size : ℕ) : jsonGetValueArray pRoot name size = .missing
      ∨ ∃ buf, jsonGetValueArray pRoot name size = .found buf := by
  unfold jsonGetValueArray
  rcases jsonScan_named .array name h with ⟨-, hm⟩ | ⟨e, -, -, -, he⟩
  · rw [hm]
    exact Or.inl rfl
  · rw [he]
    exact Or.inr ⟨_, rfl⟩

/-- A command among nodes with names is carried out. -/
theorem command_named (h : ∀ e ∈ pRoot.child, ∃ s, e.string = some s) (t : Turn) (cmd : Bytes) :
    ∃ r, command t pRoot cmd = some r := by
  unfold command
  rcases jsonGetValueArray_named h (lit "mac") 6 with hm | ⟨mac, hm⟩
  · rw [hm]
    split_ifs <;> exact ⟨_, rfl⟩
  · rw [hm]
    split_ifs <;> exact ⟨_, rfl⟩

variable {key : Bytes} {d : Device} {t : Turn}

theorem answered_ending (d : Device) : d.answered.ending = d.ending := by
  unfold answered
  split <;> rfl

/-- A tree whose nodes have names is handled without a fault. -/
theorem handleRoot_named (hc : CJSON.Built pRoot)
    (h : ∀ e ∈ pRoot.child, ∃ s, e.string = some s) :
    (handleRoot key d t pRoot).1.ending = d.ending := by
  unfold handleRoot jsonGetValueBoolean jsonGetValueString
  rcases jsonScan_named .true_ (lit "status") h with ⟨-, hm⟩ | ⟨e, -, -, -, he⟩
  · rw [hm]
    dsimp only
    rcases jsonScan_named .string (lit "cmd") h with
      ⟨-, hm⟩ | ⟨e, hmem, ht, -, he⟩
    · rw [hm]
    · obtain ⟨v, hv, -⟩ := (hc.child e hmem).text ht
      obtain ⟨r, hr⟩ := command_named h t (cstr v)
      rw [he]
      dsimp only
      rw [hv]
      dsimp only
      rw [hr]
  · rw [he]
    exact answered_ending d

/-- A tree whose nodes have no names faults at the first `true` or string. -/
theorem handleRoot_nameless (hd : d.ending = none) (h : ∀ e ∈ pRoot.child, e.string = none) :
    (handleRoot key d t pRoot).1.ending = some .fault
      ↔ ∃ e ∈ pRoot.child, e.type = .true_ ∨ e.type = .string := by
  unfold handleRoot jsonGetValueBoolean jsonGetValueString
  rcases jsonScan_nameless .true_ (lit "status") h with
    ⟨⟨e, he, ht⟩, hf⟩ | ⟨hall, hm⟩
  · rw [hf]
    exact iff_of_true rfl ⟨e, he, Or.inl ht⟩
  rw [hm]
  dsimp only
  rcases jsonScan_nameless .string (lit "cmd") h with
    ⟨⟨e, he, ht⟩, hf⟩ | ⟨hall', hm⟩
  · rw [hf]
    exact iff_of_true rfl ⟨e, he, Or.inr ht⟩
  · rw [hm]
    refine iff_of_false (fun hfault => ?_) (fun ⟨e, he, ht⟩ => ht.elim (hall e he) (hall' e he))
    rw [hd] at hfault
    cases hfault

/-- **A missing name is followed exactly in an array with a `true` or a
string among its elements.** -/
theorem handleRoot_fault_iff (hc : CJSON.Built pRoot) (hd : d.ending = none) :
    (handleRoot key d t pRoot).1.ending = some .fault
      ↔ pRoot.type = .array ∧ ∃ e ∈ pRoot.child, e.type = .true_ ∨ e.type = .string := by
  rcases hc.names with ⟨ha, hnone⟩ | ⟨ha, hsome⟩
  · rw [and_iff_right ha]
    exact handleRoot_nameless hd hnone
  · refine iff_of_false (fun hfault => ?_) (fun h => ha h.1)
    rw [handleRoot_named hc hsome, hd] at hfault
    cases hfault

/-- **The device follows no missing name exactly when the text it receives is
no array with a `true` or a string among its elements.** -/
theorem fault_iff {parse : Bytes → Option CJSON}
    (hp : ∀ {text : Bytes} {c : CJSON}, parse text = some c → CJSON.Built c)
    (hd : d.ending = none) {bytes : Bytes} (ht : t.recv = .data bytes) :
    (receive parse key d t).1.ending ≠ some .fault
      ↔ ∀ pRoot, parse (cstr bytes) = some pRoot → pRoot.type = .array →
        ∀ e ∈ pRoot.child, e.type ≠ .true_ ∧ e.type ≠ .string := by
  unfold receive
  rw [ht]
  dsimp only
  cases hparse : parse (cstr bytes) with
  | none =>
    refine iff_of_true ?_ (fun _ h => by cases h)
    rw [Option.elim_none, hd]
    exact fun h => by cases h
  | some pRoot =>
    rw [Option.elim_some, Ne, handleRoot_fault_iff (hp hparse) hd]
    constructor
    · rintro h c hc ha e he
      obtain rfl := Option.some.inj hc
      exact not_or.mp (fun hbad => h ⟨ha, e, he, hbad⟩)
    · rintro h ⟨ha, e, he, hbad⟩
      obtain ⟨htrue, hstring⟩ := h pRoot rfl ha e he
      exact hbad.elim htrue hstring

/-- An array in an array is handled. -/
theorem fault_iff_nested :
    (receive CJSON.parse [] (start 0) (turnAt 5000000 (.data (lit "[[true]]")))).1.ending
      ≠ some .fault := by
  refine (fault_iff CJSON.built_of_parse rfl rfl).mpr (fun pRoot hroot _ => ?_)
  have hall : (CJSON.parse (cstr (lit "[[true]]"))).all
      (fun c => c.child.all (fun e => e.type != .true_ && e.type != .string)) = true := by decide
  rw [hroot] at hall
  simpa using hall

/-- **A `true` in an array makes the device compare a name that is not
there.** -/
theorem name_missing :
    (receive CJSON.parse [] (start 0) (turnAt 5000000 (.data (lit "[true]")))).1.ending
      = some .fault := by
  decide

end Device
