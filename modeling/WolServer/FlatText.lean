import WolServer.CJSONFront
import WolServer.Population
import WolServer.Registry

/-!
# Texts of strings

Everything the clients and the device send to the server has one form: an
object whose members are strings, printed with `%s` and no escaping. This
module says what the server's parser makes of such a text
(`CJSON.parse_flatText`), as long as no string has a quote, a backslash or a
NUL in it – other bytes, control characters among them, the parser takes as
they are, which the grammar of JSON does not.

What a member of such a text says is then a look into a list of pairs
(`Server.member_flatText`), and so is what a `bind` announces or a `wol`
asks for.
-/

/-- Bytes that stand for themselves in the strings of `cJSON.cpp`. -/
def Bare (s : Bytes) : Prop := ∀ b ∈ s, b ≠ 0 ∧ b ≠ 34 ∧ b ≠ 92

instance (s : Bytes) : Decidable (Bare s) := inferInstanceAs (Decidable (∀ b ∈ s, _))

theorem Bare.zero_notMem {s : Bytes} (h : Bare s) : (0 : UInt8) ∉ s := fun h0 => (h 0 h0).1 rfl

/-- `"name":"value"`. -/
def memberText (m : Bytes × Bytes) : Bytes := 34 :: (m.1 ++ 34 :: 58 :: 34 :: (m.2 ++ [34]))

/-- **A text of strings**: an object with these members. -/
def flatText (ms : List (Bytes × Bytes)) : Bytes :=
  123 :: ([44].intercalate (ms.map memberText) ++ [125])

/-- The strings of a text can be read back. -/
def Readable (ms : List (Bytes × Bytes)) : Prop := ∀ m ∈ ms, Bare m.1 ∧ Bare m.2

instance (ms : List (Bytes × Bytes)) : Decidable (Readable ms) :=
  inferInstanceAs (Decidable (∀ m ∈ ms, _))

/-- There is no NUL in such a text. -/
theorem zero_notMem_flatText {ms : List (Bytes × Bytes)} (h : Readable ms) :
    (0 : UInt8) ∉ flatText ms := by
  unfold flatText
  rw [List.mem_cons, List.mem_append, List.mem_singleton]
  rintro (h0 | h0 | h0)
  · cases h0
  · rcases mem_intercalate h0 with h0 | ⟨r, hr, h0⟩
    · cases h0
    obtain ⟨m, hm, rfl⟩ := List.mem_map.mp hr
    have := (h m hm).1.zero_notMem
    have := (h m hm).2.zero_notMem
    simp [memberText] at h0
    tauto
  · cases h0

namespace CJSON

/-- The node of a member. -/
def flatNode (m : Bytes × Bytes) : CJSON :=
  { newItem with type := .string, valuestring := some m.2, string := some m.1 }

/-- The node of a text of strings. -/
def flatRoot (ms : List (Bytes × Bytes)) : CJSON :=
  { newItem with type := .object, child := ms.map flatNode }

/-- The loop over a string stops at the quote. -/
theorem parseStringLoop_bare {s : Bytes} (hs : Bare s) (r : Bytes) {fuel : ℕ}
    (hfuel : s.length < fuel) : parseStringLoop fuel (s ++ 34 :: r) = (s, 34 :: r) := by
  induction s generalizing fuel with
  | nil =>
    obtain ⟨fuel, rfl⟩ := Nat.exists_eq_succ_of_ne_zero (Nat.ne_of_gt hfuel)
    rfl
  | cons b s ih =>
    obtain ⟨fuel, rfl⟩ := Nat.exists_eq_succ_of_ne_zero (Nat.ne_of_gt (Nat.zero_lt_of_lt hfuel))
    obtain ⟨h0, h34, h92⟩ := hs b List.mem_cons_self
    have hrec := ih (fun c hc => hs c (List.mem_cons_of_mem b hc)) (Nat.lt_of_succ_lt_succ hfuel)
    rw [List.cons_append, parseStringLoop, deref_cons, if_neg (not_or.mpr ⟨h34, h0⟩), if_pos h92,
      List.tail_cons, hrec]

theorem parseString_bare {s : Bytes} (hs : Bare s) (r : Bytes) :
    parseString (34 :: (s ++ 34 :: r)) = some (s, r) := by
  rw [parseString, if_neg (not_not.mpr (deref_cons 34 _)), List.tail_cons,
    parseStringLoop_bare hs r (by simp only [List.length_cons, List.length_append]; omega)]
  dsimp only
  rw [cstr_eq_self hs.zero_notMem, if_pos (deref_cons 34 r), List.tail_cons]

/-- A name, a colon and a string, whatever comes behind. -/
theorem parseMembers_string {name str v u : Bytes} (hname : Bare name)
    (hstr : parseString (34 :: str) = some (v, u)) (n : ℕ) :
    parseMembers (n + 2) (34 :: (name ++ 34 :: 58 :: 34 :: str))
      = if deref (skip u) = 44 then
          (parseMembers (n + 1) (skip u).tail).map (fun r => (flatNode (name, v) :: r.1, r.2))
        else if deref (skip u) = 125 then some ([flatNode (name, v)], (skip u).tail)
        else none := by
  rw [parseMembers, skip_cons (by decide), parseString_bare hname]
  dsimp only
  rw [skip_cons (by decide), if_neg (not_not.mpr (deref_cons 58 _)), List.tail_cons,
    skip_cons (by decide), parseValue_string, hstr]
  rfl

/-- A member before a comma. -/
theorem parseMembers_cons {m : Bytes × Bytes} (hm : Bare m.1 ∧ Bare m.2) (n : ℕ) (u : Bytes) :
    parseMembers (n + 2) (memberText m ++ 44 :: u)
      = (parseMembers (n + 1) u).map (fun r => (flatNode m :: r.1, r.2)) := by
  have htext : memberText m ++ 44 :: u
      = 34 :: (m.1 ++ 34 :: 58 :: 34 :: (m.2 ++ 34 :: 44 :: u)) := by
    simp only [memberText, List.cons_append, List.append_assoc, List.nil_append]
  rw [htext, parseMembers_string hm.1 (parseString_bare hm.2 _), skip_cons (by decide),
    if_pos (deref_cons 44 _), List.tail_cons]

/-- The last member. -/
theorem parseMembers_last {m : Bytes × Bytes} (hm : Bare m.1 ∧ Bare m.2) (n : ℕ) (u : Bytes) :
    parseMembers (n + 2) (memberText m ++ 125 :: u) = some ([flatNode m], u) := by
  have htext : memberText m ++ 125 :: u
      = 34 :: (m.1 ++ 34 :: 58 :: 34 :: (m.2 ++ 34 :: 125 :: u)) := by
    simp only [memberText, List.cons_append, List.append_assoc, List.nil_append]
  rw [htext, parseMembers_string hm.1 (parseString_bare hm.2 _), skip_cons (by decide),
    deref_cons, if_neg (by decide), if_pos rfl, List.tail_cons]

/-- An object that starts with a name is its members. -/
theorem parse_object {t : Bytes} (ht : deref t = 34) : parse (123 :: t)
    = (parseMembers (2 * t.length + 1) t).map
      (fun r => { newItem with type := .object, child := r.1 }) := by
  have hfuel : 2 * (123 :: t : Bytes).length = 2 * t.length + 1 + 1 := by
    rw [List.length_cons]
    ring
  have hfirst : deref (skip t) ≠ 125 := by
    cases t with
    | nil => cases ht
    | cons b t =>
      rw [deref_cons] at ht
      rw [ht, skip_cons (by decide), deref_cons]
      decide
  rw [parse, parseWithOpts_false, hfuel, skip_cons (by decide), parseValue_object, if_neg hfirst,
    Option.map_map]
  rfl

/-- The members of a text of strings. -/
theorem parseMembers_flat {ms : List (Bytes × Bytes)} (hne : ms ≠ []) (hms : Readable ms)
    (r : Bytes) {n : ℕ} (hn : ms.length < n) :
    parseMembers n ([44].intercalate (ms.map memberText) ++ 125 :: r)
      = some (ms.map flatNode, r) := by
  induction ms generalizing n with
  | nil => exact absurd rfl hne
  | cons m ms ih =>
    obtain ⟨n, rfl⟩ : ∃ k, n = k + 2 := ⟨n - 2, by rw [List.length_cons] at hn; omega⟩
    obtain ⟨hm, hrest⟩ := List.forall_mem_cons.mp hms
    cases ms with
    | nil =>
      rw [List.map_singleton, List.intercalate_singleton, parseMembers_last hm,
        List.map_singleton]
    | cons m' ms =>
      rw [List.map_cons, List.map_cons, List.intercalate_cons_cons, ← List.map_cons,
        List.append_assoc, List.append_assoc, List.singleton_append, parseMembers_cons hm,
        ih (List.cons_ne_nil _ _) hrest (Nat.lt_of_succ_lt_succ hn)]
      rfl

/-- **The parser reads a text of strings**, whatever follows it. -/
theorem parse_flatText {ms : List (Bytes × Bytes)} (hne : ms ≠ []) (hms : Readable ms)
    (r : Bytes) : parse (flatText ms ++ r) = some (flatRoot ms) := by
  have hlen : ms.length ≤ ([44].intercalate (ms.map memberText)).length := by
    rw [← List.length_map memberText]
    generalize hts : ms.map memberText = ts
    have hpos : ∀ t ∈ ts, 0 < t.length := fun t ht => by
      rw [← hts] at ht
      obtain ⟨m, -, rfl⟩ := List.mem_map.mp ht
      exact Nat.succ_pos _
    clear hts
    induction ts with
    | nil => exact Nat.zero_le _
    | cons t ts ih =>
      obtain ⟨ht, hts⟩ := List.forall_mem_cons.mp hpos
      have := ih hts
      rw [List.length_cons]
      cases ts with
      | nil => simpa using Nat.succ_le_of_lt ht
      | cons t' ts =>
        rw [List.intercalate_cons_cons, List.length_append, List.length_append]
        omega
  have hfirst : deref ([44].intercalate (ms.map memberText) ++ 125 :: r) = 34 := by
    obtain ⟨m, ms, rfl⟩ := List.exists_cons_of_ne_nil hne
    rw [List.map_cons, intercalate_cons]
    rfl
  have htext : flatText ms ++ r
      = 123 :: ([44].intercalate (ms.map memberText) ++ 125 :: r) := by
    rw [flatText, List.cons_append, List.append_assoc, List.singleton_append]
  rw [htext, parse_object hfirst, parseMembers_flat hne hms r (by rw [List.length_append]; omega)]
  rfl

/-- The first member of an object. -/
theorem parse_front {m : Bytes × Bytes} (hm : Bare m.1 ∧ Bare m.2) {r : Bytes} {root : CJSON}
    (h : parse (123 :: (memberText m ++ 44 :: r)) = some root) :
    ∃ ms, root.child = flatNode m :: ms := by
  have hfirst : deref (memberText m ++ 44 :: r) = 34 := rfl
  obtain ⟨n, hn⟩ : ∃ n, 2 * (memberText m ++ 44 :: r).length + 1 = n + 2 :=
    Nat.exists_eq_add_of_le' (by rw [List.length_append, List.length_cons]; omega)
  rw [parse_object hfirst, hn, parseMembers_cons hm] at h
  obtain ⟨r', hr', rfl⟩ := Option.map_eq_some_iff.mp h
  obtain ⟨ms, -, rfl⟩ := Option.map_eq_some_iff.mp hr'
  exact ⟨ms.1, rfl⟩

/-- A member of a text of strings is the first of its name. -/
theorem textValue_flatRoot {ms : List (Bytes × Bytes)} (hms : Readable ms) (name : Bytes) :
    LibJson.textValue (flatRoot ms) name
      = (ms.find? (fun m => m.1.map tolower == name.map tolower)).map Prod.snd := by
  unfold LibJson.textValue LibJson.stringValue getObjectItem flatRoot
  dsimp only
  rw [List.find?_map]
  have hname : (fun c : CJSON => strcaseEq c.string name) ∘ flatNode
      = fun m => m.1.map tolower == name.map tolower := rfl
  rw [hname]
  cases hfind : ms.find? (fun m => m.1.map tolower == name.map tolower) with
  | none => rfl
  | some m =>
    have hvalue := (hms m (List.mem_of_find?_eq_some hfind)).2
    exact congrArg some (cstr_eq_self hvalue.zero_notMem)

end CJSON

namespace Server

variable {ms : List (Bytes × Bytes)}

theorem rootOf_flatText (hne : ms ≠ []) (hms : Readable ms) :
    rootOf (flatText ms) = some (CJSON.flatRoot ms) := by
  rw [rootOf, cstr_eq_self (zero_notMem_flatText hms)]
  simpa using CJSON.parse_flatText hne hms []

/-- **A string of a text of strings.** -/
theorem member_flatText (hne : ms ≠ []) (hms : Readable ms) (name : Bytes) :
    member (flatText ms) name
      = (ms.find? (fun m => m.1.map CJSON.tolower == name.map CJSON.tolower)).map Prod.snd := by
  rw [member_of_root (rootOf_flatText hne hms), CJSON.textValue_flatRoot hms]

/-- The members of a `bind`. -/
def bindMembers (key ssid ip : Bytes) : List (Bytes × Bytes) :=
  [(lit "cmd", lit "bind"), (lit "key", key), (lit "ssid", ssid), (lit "ip", ip)]

theorem readable_bindMembers {key ssid ip : Bytes} (hkey : Bare key) (hssid : Bare ssid)
    (hip : Bare ip) : Readable (bindMembers key ssid ip) := by
  have hnames : Bare (lit "cmd") ∧ Bare (lit "bind") ∧ Bare (lit "key") ∧ Bare (lit "ssid")
      ∧ Bare (lit "ip") := by simp [Bare, lit]
  obtain ⟨hc, hb, hk, hs, hi⟩ := hnames
  exact List.forall_mem_cons.mpr ⟨⟨hc, hb⟩, List.forall_mem_cons.mpr ⟨⟨hk, hkey⟩,
    List.forall_mem_cons.mpr ⟨⟨hs, hssid⟩, List.forall_mem_singleton.mpr ⟨hi, hip⟩⟩⟩⟩

/-- **A text of strings announces the binding it spells.** -/
theorem bindingOf_bindMembers {key ssid ip : Bytes} (hkey : Bare key) (hssid : Bare ssid)
    (hip : Bare ip) (hne : key ≠ [] ∧ ssid ≠ [] ∧ ip ≠ []) :
    bindingOf (flatText (bindMembers key ssid ip)) = some ⟨key, ssid, ip⟩ := by
  have hms := readable_bindMembers hkey hssid hip
  have hroot : rootOf (flatText (bindMembers key ssid ip))
      = some (CJSON.flatRoot (bindMembers key ssid ip)) :=
    rootOf_flatText (List.cons_ne_nil _ _) hms
  -- the names are closed terms, so the search among them computes
  have hvalue := CJSON.textValue_flatRoot hms
  have hcmd : LibJson.textValue (CJSON.flatRoot (bindMembers key ssid ip)) (lit "cmd")
      = some (lit "bind") := hvalue _
  have hk : LibJson.textValue (CJSON.flatRoot (bindMembers key ssid ip)) (lit "key") = some key :=
    hvalue _
  have hs : LibJson.textValue (CJSON.flatRoot (bindMembers key ssid ip)) (lit "ssid")
      = some ssid := hvalue _
  have hi : LibJson.textValue (CJSON.flatRoot (bindMembers key ssid ip)) (lit "ip") = some ip :=
    hvalue _
  rw [bindingOf, hroot]
  dsimp only
  rw [if_pos hcmd, bindingOfRoot, hk, hs, hi]
  exact if_pos hne

/-- **A server with a device and a client.** Descriptor 5 has bound these
strings, descriptor 6 has said nothing, and no other connection is open. -/
theorem execute_device (key ssid ip : Bytes) (hkey : Bare key) (hssid : Bare ssid) (hip : Bare ip)
    (hne : key ≠ [] ∧ ssid ≠ [] ∧ ip ≠ [])
    (hlen : (flatText (bindMembers key ssid ip)).length < 32768) :
    ∃ labels s tr, execute zeroMemory 3 50174 labels = some (s, tr) ∧ Idle 3 s
      ∧ (∀ l ∈ labels, ∀ x ∈ l.admitted, x < slots)
      ∧ Connected (s.clientList 5) ⟨192, 168, 0, 7⟩ ⟨key, ssid, ip⟩
      ∧ s.clientList 6 = newClient 0 ⟨192, 168, 0, 8⟩
      ∧ lookup s.clientList (key.take 15) = some 5 := by
  let c : Caller := ⟨5, ⟨192, 168, 0, 7⟩, flatText (bindMembers key ssid ip)⟩
  have hfive : c.fd < slots := by
    rw [slots_eq]
    exact (by decide : 5 < 1024)
  have hsix : 6 < slots := by
    rw [slots_eq]
    decide
  have hbinds : c.Binds ⟨key, ssid, ip⟩ :=
    ⟨hfive, bindingOf_bindMembers hkey hssid hip hne,
      zero_notMem_flatText (readable_bindMembers hkey hssid hip), by rw [bufferSize_eq]; exact hlen⟩
  have hdistinct : ([c].map Caller.fd).Nodup := List.nodup_singleton _
  have hcs : ∀ c' ∈ [c], (∃ b, c'.Binds b) ∧ c'.fd ≠ 3 :=
    List.forall_mem_singleton.mpr ⟨⟨_, hbinds⟩, (by decide : 5 ≠ 3)⟩
  obtain ⟨labels, s, tr, h, hidle, hsmall, hslots, hfree⟩ :=
    execute_population zeroMemory 50174 hdistinct hcs
  have hfree' : ∀ i, i ≠ 5 → (s.clientList i).enable = false := fun i hi => hfree i (by
    rw [List.map_singleton, List.mem_singleton]
    exact hi)
  obtain ⟨s', tr', hrun, hidle', hlist⟩ := run_accept hidle hsix (by decide)
    (hfree' 6 (by decide)) ⟨192, 168, 0, 8⟩
  have hslot : Connected (s'.clientList 5) ⟨192, 168, 0, 7⟩ ⟨key, ssid, ip⟩ := by
    rw [hlist, Function.update_of_ne (by decide)]
    exact hslots c (List.mem_singleton_self c) _ hbinds
  refine ⟨_, s', _, execute_append h hrun, hidle', ?_, hslot, ?_, ?_⟩
  · exact List.forall_mem_append.mpr ⟨hsmall, by simp [Label.admitted, hsix]⟩
  · rw [hlist, Function.update_self]
  · refine lookup_eq_some_iff.mpr ⟨hfive, ?_, fun j hj hholds => ?_⟩
    · obtain ⟨hen, hesp, hst, -⟩ := hslot
      simp [holds, hen, hesp, hst.1]
    · have hoff : (s'.clientList j).enable = false := by
        rw [hlist, Function.update_of_ne (by omega)]
        exact hfree' j (by omega)
      simp [holds, hoff] at hholds

end Server
