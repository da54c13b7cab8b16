import WolServer.Values

/-!
# The strings of a request in their buffers

The handler copies the strings it works with into arrays of 32 bytes, with
`strncpy` and the size of the array, and then hands the arrays to `strcmp`,
`strlen`, `sscanf` and `%s`. A string function stops at a terminator, and
`strncpy` writes one only when there is room left: a value of 32 bytes or
more leaves an array without one, and the function goes on behind it.

`Server.stringUses` lists the calls of a request in the order in which
`handle_socket` makes them, each with the array it is given, and
`StringUse.Inside` says that a call looks at bytes of that array only. That
all calls do is a property of the values alone, and
`Server.stringUses_inside_iff` names it: those the branch works with –
`Server.valuesRead` – have fewer than 32 bytes.
-/

namespace Server

open LibJson (textValue getValueString getValueString_cases)

/-- **A string function at work on an array.** -/
inductive StringUse where
  /-- `strlen`, `sscanf` or `%s`, which read the string to its end. -/
  | whole (buffer : Bytes)
  /-- `strcmp` with another string. -/
  | compare (buffer other : Bytes)

/-- The call looks at bytes of its array only. -/
def StringUse.Inside : StringUse → Prop
  | .whole buffer => strlenReads buffer ≤ buffer.length
  | .compare buffer other => strcmpReads buffer other ≤ buffer.length

instance (u : StringUse) : Decidable u.Inside := by
  cases u <;> exact Nat.decLe _ _

/-! ## The calls of a request -/

/-- The names the command is compared with, in order. -/
def commandNames : List Bytes :=
  [lit "response", lit "bind", lit "client_list", lit "wol", lit "shutdown", lit "warn",
    lit "reset", lit "beat"]

/-- The chain of comparisons, which ends at the first name that matches. -/
def compareUses (cmd : Bytes) : List Bytes → List StringUse
  | [] => []
  | name :: names =>
    .compare cmd name :: if cstr cmd = name then [] else compareUses cmd names

/-- `0 < strlen(a) && 0 < strlen(b) && …`. -/
def strlenUses : List Bytes → List StringUse
  | [] => []
  | buffer :: buffers =>
    .whole buffer :: if 0 < (cstr buffer).length then strlenUses buffers else []

/-- The calls of `bind`: its strings are tested, and printed into the
slot. -/
def bindUses (root : CJSON) : List StringUse :=
  match getValueString root (lit "key") 32, getValueString root (lit "ssid") 32,
    getValueString root (lit "ip") 32 with
  | some key, some ssid, some ip =>
    strlenUses [key, ssid, ip] ++
      if 0 < (cstr key).length ∧ 0 < (cstr ssid).length ∧ 0 < (cstr ip).length then
        [.whole key, .whole ssid, .whole ip]
      else []
  | _, _, _ => []

/-- The comparisons of the search for a key: with the keys of the bound
slots, up to the first that is equal. -/
def searchUses (list : ClientList) (key : Bytes) : List StringUse :=
  ((searched list (cstr key)).filter (fun i => (list i).enable && (list i).esp8266)).map
    (fun i => .compare key (list i).key.text)

/-- The two attempts to read a MAC address, the second only after the
first has failed. -/
def scanUses (mac : Bytes) : List StringUse :=
  .whole mac :: if (scanFields 58 5 (cstr mac)).isSome then [] else [.whole mac]

/-- The calls of `wol` and `shutdown`. -/
def forwardUses (list : ClientList) (root : CJSON) : List StringUse :=
  match getValueString root (lit "key") 32, getValueString root (lit "mac") 32 with
  | some key, some mac =>
    strlenUses [key, mac] ++
      if 0 < (cstr key).length ∧ 0 < (cstr mac).length then
        scanUses mac ++ if (scanMac (cstr mac)).isSome then searchUses list key else []
      else []
  | _, _ => []

/-- The calls of `reset`. -/
def resetUses (list : ClientList) (root : CJSON) : List StringUse :=
  match getValueString root (lit "key") 32 with
  | none => []
  | some key =>
    strlenUses [key] ++ if 0 < (cstr key).length then searchUses list key else []

/-- The calls of the branch of a command. -/
def branchUses (list : ClientList) (root : CJSON) (cmd : Bytes) : List StringUse :=
  if cmd = lit "bind" then bindUses root
  else if cmd = lit "wol" ∨ cmd = lit "shutdown" then forwardUses list root
  else if cmd = lit "reset" then resetUses list root
  else []

/-- The calls of a parsed text: the command is printed and compared. -/
def commandUses (list : ClientList) (root : CJSON) : List StringUse :=
  match getValueString root (lit "cmd") 32 with
  | none => []
  | some cmd =>
    .whole cmd :: (compareUses cmd commandNames ++ branchUses list root (cstr cmd))

/-- **The string functions `handle_socket` calls on `cmd`, `key`, `ssid`,
`ip` and `mac`** for a received text, in order. -/
def stringUses (list : ClientList) (strRecv : Bytes) : List StringUse :=
  if 0 < strRecv.length then
    match LibJson.getObject (cstr strRecv) strRecv.length with
    | none => []
    | some jsonRecv => commandUses list jsonRecv
  else []

/-! ## The values they work with -/

/-- The values that are tested one after the other: up to the first that is
empty. -/
def testedValues : List Bytes → List Bytes
  | [] => []
  | v :: vs => v :: if v ≠ [] then testedValues vs else []

/-- The values the branch of a command works with. -/
def branchValues (root : CJSON) (cmd : Bytes) : List Bytes :=
  if cmd = lit "bind" then
    match textValue root (lit "key"), textValue root (lit "ssid"), textValue root (lit "ip") with
    | some key, some ssid, some ip => testedValues [key, ssid, ip]
    | _, _, _ => []
  else if cmd = lit "wol" ∨ cmd = lit "shutdown" then
    match textValue root (lit "key"), textValue root (lit "mac") with
    | some key, some mac => testedValues [key, mac]
    | _, _ => []
  else if cmd = lit "reset" then (textValue root (lit "key")).toList
  else []

/-- **The values a request has the handler work with**: the command, and
the strings of its branch. -/
def valuesRead (strRecv : Bytes) : List Bytes :=
  match rootOf strRecv with
  | none => []
  | some root =>
    match textValue root (lit "cmd") with
    | none => []
    | some cmd => cmd :: branchValues root cmd

/-! ## The calls stay inside when the values fit -/

/-- A buffer that a value was copied into: it reads as the value, and is
terminated if the value fits. -/
structure Copied (buf v : Bytes) : Prop where
  /-- The string of the buffer is the value, cut at its size. -/
  cstr_eq : cstr buf = v.take 32
  /-- Reading the string to its end stays inside if the value fits. -/
  inside_iff : (StringUse.whole buf).Inside ↔ v.length < 32

/-- The cases of a read: there is no value, or the buffer was filled with
it. -/
theorem read_cases (root : CJSON) (name : Bytes) (hn : name ≠ []) :
    (textValue root name = none ∧ getValueString root name 32 = none)
      ∨ ∃ v buf, textValue root name = some v ∧ getValueString root name 32 = some buf
        ∧ Copied buf v := by
  have hread : getValueString root name 32
      = (LibJson.stringValue root name).map (strncpy · 32) :=
    if_neg (not_or.mpr ⟨hn, by decide⟩)
  cases hv : LibJson.stringValue root name with
  | none =>
    rw [hv] at hread
    exact Or.inl ⟨by rw [textValue, hv]; rfl, hread⟩
  | some v =>
    rw [hv] at hread
    refine Or.inr ⟨cstr v, strncpy v 32, by rw [textValue, hv]; rfl, hread,
      ⟨cstr_strncpy v 32, ?_⟩⟩
    rw [← zero_mem_strncpy_iff]
    exact strlenReads_le_length_iff _

theorem Copied.nonempty_iff {buf v : Bytes} (h : Copied buf v) :
    0 < (cstr buf).length ↔ v ≠ [] := by
  rw [h.cstr_eq]
  exact take_ne_nil (by decide)

/-- The calls stay inside exactly when the values fit. -/
def Agree (uses : List StringUse) (values : List Bytes) : Prop :=
  (∀ u ∈ uses, u.Inside) ↔ ∀ v ∈ values, v.length < 32

theorem agree_nil : Agree [] [] :=
  iff_of_true (fun _ h => absurd h List.not_mem_nil) (fun _ h => absurd h List.not_mem_nil)

/-- A call and its value in front, when the rest agrees once they fit. -/
theorem Agree.cons {buf v : Bytes} {uses : List StringUse} {values : List Bytes}
    (hc : Copied buf v) (h : v.length < 32 → Agree uses values) :
    Agree (.whole buf :: uses) (v :: values) := by
  unfold Agree
  rw [List.forall_mem_cons, List.forall_mem_cons, hc.inside_iff]
  exact and_congr_right h

/-- Calls that stay inside when those before them do need no value. -/
theorem Agree.append {uses more : List StringUse} {values : List Bytes} (h : Agree uses values)
    (hmore : (∀ u ∈ uses, u.Inside) → ∀ u ∈ more, u.Inside) : Agree (uses ++ more) values := by
  unfold Agree
  rw [List.forall_mem_append, and_iff_left_of_imp hmore]
  exact h

theorem agree_strlenUses {bufs vs : List Bytes} (h : List.Forall₂ Copied bufs vs) :
    Agree (strlenUses bufs) (testedValues vs) := by
  induction h with
  | nil => exact agree_nil
  | cons hc hrest ih =>
    refine Agree.cons hc (fun _ => ?_)
    simp only [hc.nonempty_iff]
    split
    · exact ih
    · exact agree_nil

/-- A comparison stays inside a terminated buffer. -/
theorem compare_inside {buf : Bytes} (h : (StringUse.whole buf).Inside) (other : Bytes) :
    (StringUse.compare buf other).Inside :=
  (strcmpReads_le_strlenReads buf other).trans h

theorem compareUses_inside {cmd : Bytes} (h : (StringUse.whole cmd).Inside) (names : List Bytes) :
    ∀ u ∈ compareUses cmd names, u.Inside := by
  induction names with
  | nil => exact fun _ hu => absurd hu List.not_mem_nil
  | cons name names ih =>
    refine List.forall_mem_cons.mpr ⟨compare_inside h name, ?_⟩
    split
    · exact fun _ hu => absurd hu List.not_mem_nil
    · exact ih

theorem searchUses_inside {key : Bytes} (h : (StringUse.whole key).Inside) (list : ClientList) :
    ∀ u ∈ searchUses list key, u.Inside := by
  intro u hu
  obtain ⟨i, -, rfl⟩ := List.mem_map.mp hu
  exact compare_inside h _

theorem scanUses_inside {mac : Bytes} (h : (StringUse.whole mac).Inside) :
    ∀ u ∈ scanUses mac, u.Inside := by
  refine List.forall_mem_cons.mpr ⟨h, ?_⟩
  split
  · exact fun _ hu => absurd hu List.not_mem_nil
  · exact List.forall_mem_singleton.mpr h

/-- Nothing is called when the tests before it fail. -/
theorem inside_ite {c : Prop} [Decidable c] {uses : List StringUse}
    (h : c → ∀ u ∈ uses, u.Inside) : ∀ u ∈ if c then uses else [], u.Inside := by
  split
  · exact h ‹c›
  · exact fun _ hu => absurd hu List.not_mem_nil

/-- All strings are tested when none is empty. -/
theorem mem_strlenUses {bufs : List Bytes} (hne : ∀ b ∈ bufs, 0 < (cstr b).length) {buf : Bytes}
    (h : buf ∈ bufs) : StringUse.whole buf ∈ strlenUses bufs := by
  induction bufs with
  | nil => exact absurd h List.not_mem_nil
  | cons b bufs ih =>
    rw [List.forall_mem_cons] at hne
    rw [strlenUses, if_pos hne.1]
    rcases List.mem_cons.mp h with rfl | h
    · exact List.mem_cons_self
    · exact List.mem_cons_of_mem _ (ih hne.2 h)

theorem agree_bindUses {root : CJSON} :
    Agree (bindUses root) (branchValues root (lit "bind")) := by
  unfold bindUses branchValues
  rw [if_pos rfl]
  rcases read_cases root (lit "key") (by decide) with
    ⟨hv, hbuf⟩ | ⟨key, kbuf, hv, hbuf, hkey⟩
  · rw [hv, hbuf]
    exact agree_nil
  rw [hv, hbuf]
  rcases read_cases root (lit "ssid") (by decide) with
    ⟨hv, hbuf⟩ | ⟨ssid, sbuf, hv, hbuf, hssid⟩
  · rw [hv, hbuf]
    exact agree_nil
  rw [hv, hbuf]
  rcases read_cases root (lit "ip") (by decide) with
    ⟨hv, hbuf⟩ | ⟨ip, ibuf, hv, hbuf, hip⟩
  · rw [hv, hbuf]
    exact agree_nil
  rw [hv, hbuf]
  refine (agree_strlenUses (.cons hkey (.cons hssid (.cons hip .nil)))).append (fun hin => ?_)
  refine inside_ite (fun ⟨hk, hs, hi⟩ => ?_)
  -- what is printed was tested before
  have hall : ∀ b ∈ [kbuf, sbuf, ibuf], (StringUse.whole b).Inside := fun b hb =>
    hin _ (mem_strlenUses (by simp [hk, hs, hi]) hb)
  simpa using hall

theorem agree_forwardUses (list : ClientList) (root : CJSON) :
    Agree (forwardUses list root) (branchValues root (lit "wol")) := by
  unfold forwardUses branchValues
  rw [if_neg (by decide), if_pos (Or.inl rfl)]
  rcases read_cases root (lit "key") (by decide) with
    ⟨hv, hbuf⟩ | ⟨key, kbuf, hv, hbuf, hkey⟩
  · rw [hv, hbuf]
    exact agree_nil
  rw [hv, hbuf]
  rcases read_cases root (lit "mac") (by decide) with
    ⟨hv, hbuf⟩ | ⟨mac, mbuf, hv, hbuf, hmac⟩
  · rw [hv, hbuf]
    exact agree_nil
  rw [hv, hbuf]
  refine (agree_strlenUses (.cons hkey (.cons hmac .nil))).append (fun hin => ?_)
  refine inside_ite (fun ⟨hk, hm⟩ => ?_)
  have hall : ∀ b ∈ [kbuf, mbuf], (StringUse.whole b).Inside := fun b hb =>
    hin _ (mem_strlenUses (by simp [hk, hm]) hb)
  rw [List.forall_mem_append]
  exact ⟨scanUses_inside (hall mbuf (by simp)),
    inside_ite (fun _ => searchUses_inside (hall kbuf (by simp)) list)⟩

theorem agree_resetUses (list : ClientList) (root : CJSON) :
    Agree (resetUses list root) (branchValues root (lit "reset")) := by
  unfold resetUses branchValues
  rw [if_neg (by decide), if_neg (by decide), if_pos rfl]
  rcases read_cases root (lit "key") (by decide) with
    ⟨hv, hbuf⟩ | ⟨key, kbuf, hv, hbuf, hkey⟩
  · rw [hv, hbuf]
    exact agree_nil
  rw [hv, hbuf]
  have htested : Agree (strlenUses [kbuf]) [key] := by
    simpa [testedValues] using agree_strlenUses (.cons hkey .nil)
  refine htested.append (fun hin => inside_ite (fun hk => searchUses_inside ?_ list))
  exact hin _ (mem_strlenUses (by simp [hk]) (List.mem_singleton.mpr rfl))

theorem agree_branchUses (list : ClientList) (root : CJSON) (cmd : Bytes) :
    Agree (branchUses list root cmd) (branchValues root cmd) := by
  unfold branchUses
  split_ifs with hbind hforward hreset
  · rw [hbind]
    exact agree_bindUses
  · have hsame : branchValues root cmd = branchValues root (lit "wol") := by
      rcases hforward with rfl | rfl <;> rfl
    rw [hsame]
    exact agree_forwardUses list root
  · rw [hreset]
    exact agree_resetUses list root
  · rw [branchValues, if_neg hbind, if_neg hforward, if_neg hreset]
    exact agree_nil

/-- The calls of a text are those of its root. -/
theorem stringUses_eq (list : ClientList) (strRecv : Bytes) :
    stringUses list strRecv = match rootOf strRecv with
      | none => []
      | some root => commandUses list root := by
  by_cases h : 0 < strRecv.length
  · rw [stringUses, if_pos h, getObject_eq h]
  · rw [stringUses, if_neg h, List.length_eq_zero_iff.mp (Nat.eq_zero_of_not_pos h)]
    rfl

/-- **The string functions of a request stay inside their arrays exactly
when the values they work with fit.** -/
theorem stringUses_inside_iff (list : ClientList) (strRecv : Bytes) :
    (∀ u ∈ stringUses list strRecv, u.Inside) ↔ ∀ v ∈ valuesRead strRecv, v.length < 32 := by
  show Agree (stringUses list strRecv) (valuesRead strRecv)
  rw [stringUses_eq, valuesRead]
  cases rootOf strRecv with
  | none => exact agree_nil
  | some root =>
    dsimp only
    rw [commandUses]
    rcases read_cases root (lit "cmd") (by decide) with
      ⟨hv, hbuf⟩ | ⟨cmd, buf, hv, hbuf, hcmd⟩
    · rw [hv, hbuf]
      exact agree_nil
    · rw [hv, hbuf]
      refine Agree.cons hcmd (fun hlen => ?_)
      have hin := hcmd.inside_iff.mpr hlen
      rw [hcmd.cstr_eq, List.take_of_length_le hlen.le]
      unfold Agree
      rw [List.forall_mem_append, and_iff_right (compareUses_inside hin commandNames)]
      exact agree_branchUses list root cmd

/-- **Strings arrive terminated exactly when they fit.** For every tree,
name and size, a buffer that `getValueString` fills, and each buffer that
`getValueStringFromArray` fills, holds the longest terminated front of its
value if and only if the value is shorter than the buffer; and for every
request, the string functions of the handler stay inside their arrays if and
only if the values they work with have fewer than 32 bytes. -/
theorem strings_terminated_iff (root : CJSON) (name : Bytes) (size n : ℕ) (list : ClientList)
    (strRecv : Bytes) :
    (∀ buf, getValueString root name size = some buf →
      ∃ v, LibJson.stringValue root name = some v
        ∧ (HoldsFront buf v size ↔ (cstr v).length < size))
    ∧ (∀ value value', LibJson.getValueStringFromArray (some root) value size n = (true, value') →
      ∃ vs : List Bytes, vs.length = n
        ∧ (root.child.take n).map LibJson.stringOf = vs.map some
        ∧ ∀ i v, vs[i]? = some v →
          (HoldsFront ((value' i).take size) v size ↔ (cstr v).length < size))
    ∧ ((∀ u ∈ stringUses list strRecv, u.Inside) ↔ ∀ v ∈ valuesRead strRecv, v.length < 32) :=
  ⟨fun _ h => LibJson.getValueString_holdsFront h,
    fun _ _ h => LibJson.getValueStringFromArray_holdsFront h,
    stringUses_inside_iff list strRecv⟩

/-- An object of one string. -/
def oneString (name v : Bytes) : CJSON :=
  { CJSON.newItem with
      type := .object
      child := [{ CJSON.newItem with
        type := .string
        valuestring := some v
        string := some name }] }

/-- A command of four bytes in a buffer of five. -/
theorem strings_terminated_beat :
    ∃ buf, getValueString (oneString (lit "cmd") (lit "beat")) (lit "cmd") 5 = some buf
      ∧ HoldsFront buf (lit "beat") 5 := by
  have hbuf : getValueString (oneString (lit "cmd") (lit "beat")) (lit "cmd") 5
      = some (lit "beat" ++ [0]) := by decide
  obtain ⟨v, hv, hiff⟩ := (strings_terminated_iff (oneString (lit "cmd") (lit "beat"))
    (lit "cmd") 5 1 (fun _ => newClient 0 ⟨0, 0, 0, 0⟩) []).1 _ hbuf
  obtain rfl : lit "beat" = v := Option.some.inj hv
  exact ⟨_, hbuf, hiff.mpr (by decide)⟩

/-- A request whose command has 32 bytes. -/
def longCommand : Bytes := lit "\x7b\"cmd\":\"abcdefghijklmnopqrstuvwxyzabcdef\"\x7d"

set_option maxRecDepth 8000 in
/-- **A command of 32 bytes leaves its array without a terminator**, and
printing it reads behind the array. -/
theorem terminator_missing :
    (∃ root buf, rootOf longCommand = some root ∧ getValueString root (lit "cmd") 32 = some buf
      ∧ (0 : UInt8) ∉ buf)
    ∧ ∀ list, ∃ u ∈ stringUses list longCommand, ¬ u.Inside := by
  constructor
  · have hread : (rootOf longCommand).bind (getValueString · (lit "cmd") 32)
        = some (lit "abcdefghijklmnopqrstuvwxyzabcdef") := by decide
    obtain ⟨root, hroot, hbuf⟩ := Option.bind_eq_some_iff.mp hread
    exact ⟨root, _, hroot, hbuf, by decide⟩
  · intro list
    have hlong : ¬ ∀ v ∈ valuesRead longCommand, v.length < 32 := by decide
    rw [← stringUses_inside_iff list] at hlong
    push Not at hlong
    exact hlong

end Server
