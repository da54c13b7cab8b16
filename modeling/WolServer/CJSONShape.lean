import WolServer.CJSONSteps

/-!
# What a parsed tree looks like

`cJSON` keeps every kind of node in one record, and the record says little
about which of its fields mean anything. `CJSON.Built` says what the parser
makes of it: only arrays and objects have children, a string node has a
string, a member of an object has a name – and an element of an array has
none, which is where a lookup by name over an array follows a null pointer.

`CJSON.built_of_parse` is the result: every tree that `cJSON_Parse` returns
is built so.
-/

namespace CJSON

/-- **A tree as the parser builds it.** -/
inductive Built : CJSON → Prop
  | mk {c : CJSON}
      /- Only arrays and objects have children. -/
      (leaf : c.type ≠ .array → c.type ≠ .object → c.child = [])
      /- A string node has a string. -/
      (text : c.type = .string → ∃ v, c.valuestring = some v ∧ (0 : UInt8) ∉ v)
      /- The elements of an array have no names. -/
      (elements : c.type = .array → ∀ e ∈ c.child, e.string = none)
      /- The members of an object have names. -/
      (members : c.type = .object → ∀ m ∈ c.child, ∃ s, m.string = some s ∧ (0 : UInt8) ∉ s)
      (built : ∀ e ∈ c.child, Built e) : Built c

namespace Built

variable {c : CJSON}

theorem leaf (h : Built c) (ha : c.type ≠ .array) (ho : c.type ≠ .object) : c.child = [] := by
  cases h with
  | mk leaf => exact leaf ha ho

theorem text (h : Built c) (ht : c.type = .string) :
    ∃ v, c.valuestring = some v ∧ (0 : UInt8) ∉ v := by
  cases h with
  | mk _ text => exact text ht

theorem elements (h : Built c) (ht : c.type = .array) : ∀ e ∈ c.child, e.string = none := by
  cases h with
  | mk _ _ elements => exact elements ht

theorem members (h : Built c) (ht : c.type = .object) :
    ∀ m ∈ c.child, ∃ s, m.string = some s ∧ (0 : UInt8) ∉ s := by
  cases h with
  | mk _ _ _ members => exact members ht

theorem child (h : Built c) : ∀ e ∈ c.child, Built e := by
  cases h with
  | mk _ _ _ _ built => exact built

/-- The children of a node have no names, or all of them have one. -/
theorem names (h : Built c) : (c.type = .array ∧ ∀ e ∈ c.child, e.string = none)
    ∨ (c.type ≠ .array ∧ ∀ e ∈ c.child, ∃ s, e.string = some s) := by
  by_cases ha : c.type = .array
  · exact Or.inl ⟨ha, h.elements ha⟩
  refine Or.inr ⟨ha, ?_⟩
  by_cases ho : c.type = .object
  · exact fun e he => (h.members ho e he).imp (fun _ hs => hs.1)
  · rw [h.leaf ha ho]
    exact fun _ he => absurd he List.not_mem_nil

/-- The name of a node is no matter of its own tree. -/
theorem named (h : Built c) (name : Option Bytes) : Built { c with string := name } :=
  .mk h.leaf h.text h.elements h.members h.child

end Built

/-! ## The parser builds such trees -/

theorem zero_notMem_parseString {u s p : Bytes} (h : parseString u = some (s, p)) :
    (0 : UInt8) ∉ s := by
  unfold parseString at h
  split at h
  · cases h
  · obtain ⟨rfl, -⟩ := Prod.mk.inj (Option.some.inj h)
    exact zero_notMem_cstr _

/-- A string node that is parsed has the string that was read. -/
theorem parseValue_text {n : ℕ} {b : UInt8} {t p : Bytes} {c : CJSON}
    (h : parseValue (n + 1) (b :: t) = some (c, p)) (hc : c.type = .string) :
    ∃ v, c.valuestring = some v ∧ (0 : UInt8) ∉ v := by
  have hlit : ∀ {l : Bytes} {c₀ : CJSON}, c₀.type ≠ .string →
      (if l.isPrefixOf (b :: t) then some (c₀, (b :: t).drop l.length) else none)
        = some (c, p) → False := fun hne h => by
    split at h
    · obtain ⟨rfl, -⟩ := Prod.mk.inj (Option.some.inj h)
      exact hne hc
    · cases h
  rcases parseValue_head h with rfl | rfl | rfl | rfl | hd | rfl | rfl
  · exact (hlit (by decide) (parseValue_null n t ▸ h)).elim
  · exact (hlit (by decide) (parseValue_false n t ▸ h)).elim
  · exact (hlit (by decide) (parseValue_true n t ▸ h)).elim
  · rw [parseValue_string] at h
    obtain ⟨y, hy, hyc⟩ := Option.map_eq_some_iff.mp h
    obtain ⟨rfl, rfl⟩ := Prod.mk.inj hyc
    exact ⟨y.1, rfl, zero_notMem_parseString hy⟩
  · rw [parseValue_number n hd] at h
    obtain ⟨rfl, -⟩ := Prod.mk.inj (Option.some.inj h)
    cases hc
  · rw [parseValue_array] at h
    split at h
    · obtain ⟨rfl, -⟩ := Prod.mk.inj (Option.some.inj h)
      cases hc
    · obtain ⟨y, -, hyc⟩ := Option.map_eq_some_iff.mp h
      obtain ⟨rfl, -⟩ := Prod.mk.inj hyc
      cases hc
  · rw [parseValue_object] at h
    split at h
    · obtain ⟨rfl, -⟩ := Prod.mk.inj (Option.some.inj h)
      cases hc
    · obtain ⟨y, -, hyc⟩ := Option.map_eq_some_iff.mp h
      obtain ⟨rfl, -⟩ := Prod.mk.inj hyc
      cases hc

/-- A value that is parsed has no name. -/
theorem parseValue_nameless {n : ℕ} {u p : Bytes} {c : CJSON}
    (h : parseValue n u = some (c, p)) : c.string = none := by
  cases n with
  | zero => cases h
  | succ n =>
    cases u with
    | nil => cases h
    | cons b t =>
      rcases parseValue_cases h with ⟨hs, -, -⟩ | ⟨-, cs, -, rfl⟩ | ⟨-, cs, -, rfl⟩
      · exact hs
      · rfl
      · rfl

/-- **Every call builds what `Built` says**: a value without a name, elements
without names, members with them. -/
theorem parse_built (n : ℕ) :
    (∀ {u p : Bytes} {c : CJSON}, parseValue n u = some (c, p) → Built c)
      ∧ (∀ {u p : Bytes} {cs : List CJSON}, parseElements n u = some (cs, p) →
          ∀ e ∈ cs, Built e ∧ e.string = none)
      ∧ (∀ {u p : Bytes} {cs : List CJSON}, parseMembers n u = some (cs, p) →
          ∀ m ∈ cs, Built m ∧ ∃ s, m.string = some s ∧ (0 : UInt8) ∉ s) := by
  induction n with
  | zero => refine ⟨fun h => ?_, fun h => ?_, fun h => ?_⟩ <;> cases h
  | succ n ih =>
    obtain ⟨ihv, ihe, ihm⟩ := ih
    refine ⟨fun {u p c} h => ?_, fun {u p cs} h => ?_, fun {u p cs} h => ?_⟩
    · cases u with
      | nil => cases h
      | cons b t =>
        have htext := parseValue_text h
        rcases parseValue_cases h with ⟨-, hchild, -⟩ | ⟨-, cs, hcs, rfl⟩ | ⟨-, cs, hcs, rfl⟩
        · have hnone : ∀ {P : CJSON → Prop}, ∀ e ∈ c.child, P e := by
            rw [hchild]
            exact fun e he => absurd he List.not_mem_nil
          exact .mk (fun _ _ => hchild) htext (fun _ => hnone) (fun _ => hnone) hnone
        · exact .mk (fun ha _ => absurd rfl ha) htext (fun _ e he => (ihe hcs e he).2)
            (fun ho => by cases ho) (fun e he => (ihe hcs e he).1)
        · exact .mk (fun _ ho => absurd rfl ho) htext (fun ha => by cases ha)
            (fun _ m hm => (ihm hcs m hm).2) (fun m hm => (ihm hcs m hm).1)
    · obtain ⟨item, v, hval, hnext⟩ := parseElements_cases h
      have hitem : Built item ∧ item.string = none := ⟨ihv hval, parseValue_nameless hval⟩
      rcases hnext with ⟨-, cs', hcs, rfl⟩ | ⟨-, rfl, -⟩
      · exact List.forall_mem_cons.mpr ⟨hitem, ihe hcs⟩
      · exact List.forall_mem_singleton.mpr hitem
    · obtain ⟨name, w, item, v, hname, -, hval, hnext⟩ := parseMembers_cases h
      have hitem : Built { item with string := some name }
          ∧ ∃ s, some name = some s ∧ (0 : UInt8) ∉ s :=
        ⟨(ihv hval).named _, name, rfl, zero_notMem_parseString hname⟩
      rcases hnext with ⟨-, cs', hcs, rfl⟩ | ⟨-, rfl, -⟩
      · exact List.forall_mem_cons.mpr ⟨hitem, ihm hcs⟩
      · exact List.forall_mem_singleton.mpr hitem

/-- **Every tree that `cJSON_Parse` returns is built so.** -/
theorem built_of_parse {t : Bytes} {c : CJSON} (h : parse t = some c) : Built c := by
  obtain ⟨⟨c', p⟩, hparse, rfl⟩ := Option.map_eq_some_iff.mp h
  rw [parseWithOpts_false] at hparse
  exact (parse_built _).1 hparse

end CJSON
