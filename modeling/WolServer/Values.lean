import WolServer.Request

/-!
# What a request says

The handler copies each string of a request into a buffer of 32 bytes and
from there into a field of a slot. This module states requests by the
strings themselves, as the JSON text carries them, and says what arrives:
`Server.Binding` is what a `bind` announces, `Server.Asks` is a `wol`,
`shutdown` or `reset` for a key. Statements about what a client asks for are
statements about these; the buffers do not appear in them.
-/

namespace Server

open LibJson (textValue getValueString getValueString_cases)

/-! ## Commands -/

/-- A short name is not told apart from a string by cutting the string. -/
theorem take_eq_iff {v c : Bytes} {n : ℕ} (hc : c.length < n) : v.take n = c ↔ v = c := by
  refine ⟨fun h => ?_, fun h => h ▸ List.take_of_length_le (h ▸ hc.le)⟩
  have hlen := congrArg List.length h
  rw [List.length_take] at hlen
  rw [← h, List.take_of_length_le (by omega)]

theorem requestOfCommand_take (root : CJSON) (cmd : Bytes) :
    requestOfCommand root (cmd.take 32) = requestOfCommand root cmd := by
  have hshort : ∀ c ∈ [lit "response", lit "bind", lit "client_list", lit "wol",
      lit "shutdown", lit "warn", lit "reset", lit "beat"], c.length < 32 := by decide
  simp only [List.forall_mem_cons] at hshort
  obtain ⟨h₁, h₂, h₃, h₄, h₅, h₆, h₇, h₈, -⟩ := hshort
  simp only [requestOfCommand, take_eq_iff h₁, take_eq_iff h₂, take_eq_iff h₃, take_eq_iff h₄,
    take_eq_iff h₅, take_eq_iff h₆, take_eq_iff h₇, take_eq_iff h₈]

/-- The request of a parsed text goes by the string of its command. -/
theorem requestOfRoot_eq (root : CJSON) :
    requestOfRoot root = match textValue root (lit "cmd") with
      | none => .refuse
      | some cmd => requestOfCommand root cmd := by
  rw [requestOfRoot]
  rcases getValueString_cases root (lit "cmd") 32 (by decide) (by decide) with
    ⟨hv, hbuf⟩ | ⟨v, buf, hv, hbuf, hcut⟩
  · rw [hv, hbuf]
  · rw [hv, hbuf]
    dsimp only
    rw [hcut, requestOfCommand_take]

/-- The root of a text that parses. -/
def rootOf (text : Bytes) : Option CJSON := CJSON.parse (cstr text)

/-- A text that is not empty is given to the parser as it is. -/
theorem getObject_eq {text : Bytes} (h : 0 < text.length) :
    LibJson.getObject (cstr text) text.length = rootOf text := if_neg (by omega)

/-- The request of a text goes by its root. -/
theorem requestOf_eq (text : Bytes) :
    requestOf text = match rootOf text with
      | none => .refuse
      | some root => requestOfRoot root := by
  by_cases h : 0 < text.length
  · cases hroot : rootOf text with
    | none => rw [requestOf, if_pos h, getObject_eq h, hroot]
    | some root => rw [requestOf, if_pos h, getObject_eq h, hroot]
  · rw [requestOf, if_neg h, List.length_eq_zero_iff.mp (Nat.eq_zero_of_not_pos h)]
    rfl

/-- **A string of a text**: the value of the first member of that name, if
the text parses and the value is a string. -/
def member (text name : Bytes) : Option Bytes := (rootOf text).bind (textValue · name)

theorem member_eq_some {text name v : Bytes} (h : member text name = some v) :
    ∃ root, rootOf text = some root ∧ textValue root name = some v :=
  Option.bind_eq_some_iff.mp h

theorem member_of_root {text name : Bytes} {root : CJSON} (h : rootOf text = some root) :
    member text name = textValue root name := by
  rw [member, h, Option.bind_some]

theorem requestOf_of_command {text cmd : Bytes} {root : CJSON} (hroot : rootOf text = some root)
    (hcmd : textValue root (lit "cmd") = some cmd) :
    requestOf text = requestOfCommand root cmd := by
  rw [requestOf_eq, hroot]
  dsimp only
  rw [requestOfRoot_eq, hcmd]

/-- A `warn` is taken as one. -/
theorem requestOf_warn {text : Bytes} (h : member text (lit "cmd") = some (lit "warn")) :
    requestOf text = .warn := by
  obtain ⟨root, hroot, hcmd⟩ := member_eq_some h
  exact requestOf_of_command hroot hcmd

/-- A `client_list` is taken as one. -/
theorem requestOf_clientList {text : Bytes}
    (h : member text (lit "cmd") = some (lit "client_list")) : requestOf text = .clientList := by
  obtain ⟨root, hroot, hcmd⟩ := member_eq_some h
  exact requestOf_of_command hroot hcmd

/-! ## `bind` -/

/-- **What a `bind` announces**: its three strings. -/
structure Binding where
  (key ssid ip : Bytes)
deriving DecidableEq

/-- The binding of a parsed text, if it has all three strings and none is
empty. -/
def bindingOfRoot (root : CJSON) : Option Binding :=
  match textValue root (lit "key"), textValue root (lit "ssid"), textValue root (lit "ip") with
  | some key, some ssid, some ip =>
    if key ≠ [] ∧ ssid ≠ [] ∧ ip ≠ [] then some ⟨key, ssid, ip⟩ else none
  | _, _, _ => none

/-- **The binding a text announces**, if it is a `bind` that is accepted. -/
def bindingOf (text : Bytes) : Option Binding :=
  match rootOf text with
  | none => none
  | some root => if textValue root (lit "cmd") = some (lit "bind") then bindingOfRoot root else none

/-- A slot holds a binding, as much of it as fits. -/
def Stores (c : ClientInfo) (b : Binding) : Prop :=
  c.key.text = b.key.take 15 ∧ c.ssid.text = b.ssid.take 31 ∧ c.lanIp.text = b.ip.take 15

theorem take_ne_nil {v : Bytes} {n : ℕ} (hn : 0 < n) : 0 < (v.take n).length ↔ v ≠ [] := by
  rw [List.length_take, ← List.length_pos_iff]
  omega

/-- Reading the strings of a `bind` into the buffers and writing them into a
slot stores the binding. -/
theorem bindArgs_cases (root : CJSON) :
    (bindingOfRoot root = none ∧ bindArgs root = none)
      ∨ ∃ b args, bindingOfRoot root = some b ∧ bindArgs root = some args
        ∧ ∀ c, Stores (bindClient c args) b := by
  unfold bindingOfRoot bindArgs
  rcases getValueString_cases root (lit "key") 32 (by decide) (by decide) with
    ⟨hv, hbuf⟩ | ⟨key, kbuf, hv, hbuf, hkey⟩
  · rw [hv, hbuf]
    exact Or.inl ⟨rfl, rfl⟩
  rw [hv, hbuf]
  rcases getValueString_cases root (lit "ssid") 32 (by decide) (by decide) with
    ⟨hv, hbuf⟩ | ⟨ssid, sbuf, hv, hbuf, hssid⟩
  · rw [hv, hbuf]
    exact Or.inl ⟨rfl, rfl⟩
  rw [hv, hbuf]
  rcases getValueString_cases root (lit "ip") 32 (by decide) (by decide) with
    ⟨hv, hbuf⟩ | ⟨ip, ibuf, hv, hbuf, hip⟩
  · rw [hv, hbuf]
    exact Or.inl ⟨rfl, rfl⟩
  rw [hv, hbuf]
  dsimp only
  simp only [hkey, hssid, hip, take_ne_nil (show 0 < 32 by decide)]
  by_cases hall : key ≠ [] ∧ ssid ≠ [] ∧ ip ≠ []
  · rw [if_pos hall, if_pos hall]
    refine Or.inr ⟨_, _, rfl, rfl, fun c => ⟨?_, ?_, ?_⟩⟩
    · simp [bindClient, hkey, List.take_take]
    · simp [bindClient, hssid, List.take_take]
    · simp [bindClient, hip, List.take_take]
  · rw [if_neg hall, if_neg hall]
    exact Or.inl ⟨rfl, rfl⟩

/-- **A text binds its connection exactly when it announces a binding**, and
the slot then stores that binding. -/
theorem bound_cases (text : Bytes) :
    (bindingOf text = none ∧ ∀ c, bound c (requestOf text) = c)
      ∨ ∃ b args, bindingOf text = some b ∧ requestOf text = .bind args
        ∧ ∀ c, Stores (bindClient c args) b := by
  have hforward : ∀ root message c, bound c (forwardOf root message) = c := by
    intro root message c
    unfold forwardOf
    split
    · split
      · split <;> rfl
      · rfl
    · rfl
  have hreset : ∀ root c, bound c (resetOf root) = c := by
    intro root c
    unfold resetOf
    split
    · rfl
    · split <;> rfl
  rw [bindingOf, requestOf_eq]
  cases rootOf text with
  | none => exact Or.inl ⟨rfl, fun c => rfl⟩
  | some root =>
    dsimp only
    rw [requestOfRoot_eq]
    cases hcmd : textValue root (lit "cmd") with
    | none => exact Or.inl ⟨rfl, fun c => rfl⟩
    | some cmd =>
      dsimp only
      by_cases hbind : cmd = lit "bind"
      · subst hbind
        have hreq : requestOfCommand root (lit "bind") = bindOf root := rfl
        rw [if_pos rfl, hreq, bindOf]
        rcases bindArgs_cases root with ⟨hnone, hargs⟩ | ⟨b, args, hb, hargs, hst⟩
        · rw [hnone, hargs]
          exact Or.inl ⟨rfl, fun c => rfl⟩
        · rw [hb, hargs]
          exact Or.inr ⟨b, args, rfl, rfl, hst⟩
      · rw [if_neg (fun h => hbind (Option.some.inj h))]
        refine Or.inl ⟨rfl, fun c => ?_⟩
        unfold requestOfCommand
        rw [if_neg hbind]
        split_ifs
        all_goals first
          | rfl
          | exact hforward _ _ c
          | exact hreset _ c

/-! ## `wol`, `shutdown` and `reset` -/

/-- **A request for a key**, and the message it asks to send: the strings fit
the buffers, none is empty, and a MAC address reads. -/
inductive Asks (text key : Bytes) : Bytes → Prop
  | wol {mac : Bytes} {val : List UInt8} (hcmd : member text (lit "cmd") = some (lit "wol"))
      (hkey : member text (lit "key") = some key) (hk : key ≠ []) (hk' : key.length < 32)
      (hmac : member text (lit "mac") = some mac) (hm : mac ≠ []) (hm' : mac.length < 32)
      (hval : scanMac mac = some val) : Asks text key (wolSend val)
  | shutdown {mac : Bytes} {val : List UInt8}
      (hcmd : member text (lit "cmd") = some (lit "shutdown"))
      (hkey : member text (lit "key") = some key) (hk : key ≠ []) (hk' : key.length < 32)
      (hmac : member text (lit "mac") = some mac) (hm : mac ≠ []) (hm' : mac.length < 32)
      (hval : scanMac mac = some val) : Asks text key (shutdownSend val)
  | reset (hcmd : member text (lit "cmd") = some (lit "reset"))
      (hkey : member text (lit "key") = some key) (hk : key ≠ []) (hk' : key.length < 32) :
      Asks text key resetSend

/-- A string that fits its buffer is read as it is. -/
theorem getValueString_short {root : CJSON} {name v : Bytes} (hn : name ≠ [])
    (hv : textValue root name = some v) (hlen : v.length < 32) :
    ∃ buf, getValueString root name 32 = some buf ∧ cstr buf = v := by
  rcases getValueString_cases root name 32 hn (by decide) with
    ⟨hnone, -⟩ | ⟨w, buf, hw, hbuf, hcut⟩
  · rw [hv] at hnone
    cases hnone
  · obtain rfl := Option.some.inj (hv.symm.trans hw)
    exact ⟨buf, hbuf, hcut.trans (List.take_of_length_le hlen.le)⟩

theorem forwardOf_eq {root : CJSON} {key mac : Bytes} {val : List UInt8}
    (message : List UInt8 → Bytes)
    (hkey : textValue root (lit "key") = some key) (hk : key ≠ []) (hk' : key.length < 32)
    (hmac : textValue root (lit "mac") = some mac) (hm : mac ≠ []) (hm' : mac.length < 32)
    (hval : scanMac mac = some val) :
    forwardOf root message = .forward key (message val) := by
  obtain ⟨kbuf, hkbuf, hkcut⟩ := getValueString_short (by decide) hkey hk'
  obtain ⟨mbuf, hmbuf, hmcut⟩ := getValueString_short (by decide) hmac hm'
  rw [forwardOf, hkbuf, hmbuf]
  dsimp only
  rw [hkcut, hmcut, if_pos ⟨List.length_pos_iff.mpr hk, List.length_pos_iff.mpr hm⟩, hval]

/-- **The handler takes a request for a key as one**, whichever of the three
it is. -/
theorem Asks.requestOf_eq {text key message : Bytes} (h : Asks text key message) :
    requestOf text = .forward key message := by
  cases h with
  | wol hcmd hkey hk hk' hmac hm hm' hval =>
    obtain ⟨root, hroot, hcmd⟩ := member_eq_some hcmd
    rw [member_of_root hroot] at hkey hmac
    rw [requestOf_of_command hroot hcmd]
    exact forwardOf_eq wolSend hkey hk hk' hmac hm hm' hval
  | shutdown hcmd hkey hk hk' hmac hm hm' hval =>
    obtain ⟨root, hroot, hcmd⟩ := member_eq_some hcmd
    rw [member_of_root hroot] at hkey hmac
    rw [requestOf_of_command hroot hcmd]
    exact forwardOf_eq shutdownSend hkey hk hk' hmac hm hm' hval
  | reset hcmd hkey hk hk' =>
    obtain ⟨root, hroot, hcmd⟩ := member_eq_some hcmd
    rw [member_of_root hroot] at hkey
    obtain ⟨kbuf, hkbuf, hkcut⟩ := getValueString_short (by decide) hkey hk'
    rw [requestOf_of_command hroot hcmd]
    show resetOf root = _
    rw [resetOf, hkbuf]
    dsimp only
    rw [hkcut, if_pos (List.length_pos_iff.mpr hk)]

/-! ## The messages fit the buffer -/

theorem length_scanFields {sep : UInt8} {n : ℕ} {str : Bytes} {vals : List UInt32}
    (h : scanFields sep n str = some vals) : vals.length = n + 1 := by
  induction n generalizing str vals with
  | zero =>
    obtain ⟨r, -, rfl⟩ := Option.map_eq_some_iff.mp h
    rfl
  | succ n ih =>
    rw [scanFields] at h
    split at h
    · cases h
    split at h
    · obtain ⟨rest, hrest, rfl⟩ := Option.map_eq_some_iff.mp h
      rw [List.length_cons, ih hrest]
    · cases h

/-- A MAC address has six bytes. -/
theorem length_scanMac {mac : Bytes} {val : List UInt8} (h : scanMac mac = some val) :
    val.length = 6 := by
  obtain ⟨vals, hvals, rfl⟩ := Option.map_eq_some_iff.mp h
  rw [List.length_map]
  rcases Option.or_eq_some_iff.mp hvals with h | ⟨-, h⟩ <;> exact length_scanFields h

theorem length_decimal_byte_le (b : UInt8) : (decimal b.toNat).length ≤ 3 :=
  length_decimal_le (lt_trans b.toNat_lt (by decide))

theorem length_macText_le (val : List UInt8) : (macText val).length ≤ 4 * val.length := by
  induction val with
  | nil => simp [macText]
  | cons b val ih =>
    have hb := length_decimal_byte_le b
    cases val with
    | nil =>
      simp only [macText, List.map_cons, List.map_nil, List.intercalate_singleton,
        List.length_cons, List.length_nil]
      omega
    | cons c val =>
      simp only [macText, List.map_cons] at ih ⊢
      rw [List.intercalate_cons_cons, List.length_append, List.length_append]
      simp only [List.length_cons, List.length_nil] at ih ⊢
      omega

/-- Where a `wol` or a `shutdown` comes from. -/
theorem forward_of_forwardOf {root : CJSON} {send : List UInt8 → Bytes} {key message : Bytes}
    (h : forwardOf root send = .forward key message) :
    ∃ buf mac val, getValueString root (lit "key") 32 = some buf ∧ key = cstr buf
      ∧ getValueString root (lit "mac") 32 = some mac ∧ scanMac (cstr mac) = some val
      ∧ message = send val := by
  unfold forwardOf at h
  split at h
  · rename_i buf mac hbuf hmac
    split at h
    · split at h
      · cases h
      · rename_i val hscan
        obtain ⟨rfl, rfl⟩ := Request.forward.inj h
        exact ⟨buf, mac, val, hbuf, rfl, hmac, hscan, rfl⟩
    · cases h
  · cases h

/-- Where a `reset` comes from. -/
theorem forward_of_resetOf {root : CJSON} {key message : Bytes}
    (h : resetOf root = .forward key message) :
    ∃ buf, getValueString root (lit "key") 32 = some buf ∧ key = cstr buf
      ∧ message = resetSend := by
  unfold resetOf at h
  split at h
  · cases h
  · rename_i buf hbuf
    split at h
    · obtain ⟨rfl, rfl⟩ := Request.forward.inj h
      exact ⟨buf, hbuf, rfl, rfl⟩
    · cases h

/-- A `bind` is for the server itself. -/
theorem bindOf_ne_forward {root : CJSON} {key message : Bytes} :
    bindOf root ≠ .forward key message := by
  intro h
  unfold bindOf at h
  split at h
  · cases h
  · cases h

/-- **Where a message to the connection of a key comes from**: a `wol`, a
`shutdown` or a `reset`. -/
theorem forward_cases {text key message : Bytes} (h : requestOf text = .forward key message) :
    ∃ root buf, rootOf text = some root
      ∧ getValueString root (lit "key") 32 = some buf ∧ key = cstr buf
      ∧ ((∃ mac val, getValueString root (lit "mac") 32 = some mac ∧ scanMac (cstr mac) = some val
          ∧ (message = wolSend val ∨ message = shutdownSend val))
        ∨ message = resetSend) := by
  rw [requestOf_eq] at h
  cases hroot : rootOf text with
  | none =>
    rw [hroot] at h
    cases h
  | some root =>
    rw [hroot] at h
    dsimp only at h
    rw [requestOfRoot_eq] at h
    split at h
    · cases h
    unfold requestOfCommand at h
    split_ifs at h
    · exact absurd h bindOf_ne_forward
    · obtain ⟨buf, mac, val, hbuf, hkey, hmac, hscan, hm⟩ := forward_of_forwardOf h
      exact ⟨root, buf, rfl, hbuf, hkey, Or.inl ⟨mac, val, hmac, hscan, Or.inl hm⟩⟩
    · obtain ⟨buf, mac, val, hbuf, hkey, hmac, hscan, hm⟩ := forward_of_forwardOf h
      exact ⟨root, buf, rfl, hbuf, hkey, Or.inl ⟨mac, val, hmac, hscan, Or.inr hm⟩⟩
    · obtain ⟨buf, hbuf, hkey, hm⟩ := forward_of_resetOf h
      exact ⟨root, buf, rfl, hbuf, hkey, Or.inr hm⟩

/-- **The messages**: `wol_send` and `shutdown_send` with an address of six
bytes, and `reset`. -/
theorem requestOf_forward {text key message : Bytes} (h : requestOf text = .forward key message) :
    (∃ mac : List UInt8, mac.length = 6
        ∧ (message = wolSend mac ∨ message = shutdownSend mac))
      ∨ message = resetSend := by
  obtain ⟨root, buf, -, -, -, ⟨mac, val, -, hscan, hm⟩ | hm⟩ := forward_cases h
  · exact Or.inl ⟨val, length_scanMac hscan, hm⟩
  · exact Or.inr hm

/-- The key that is searched is the one of the text, as far as it was
read. -/
theorem key_of_forward {text key message : Bytes} (h : requestOf text = .forward key message) :
    ∃ k, member text (lit "key") = some k ∧ key = k.take 32 := by
  obtain ⟨root, buf, hroot, hbuf, rfl, -⟩ := forward_cases h
  rcases getValueString_cases root (lit "key") 32 (by decide) (by decide) with
    ⟨-, hnone⟩ | ⟨k, buf', hk, hbuf', hcut⟩
  · rw [hbuf] at hnone
    cases hnone
  · obtain rfl := Option.some.inj (hbuf.symm.trans hbuf')
    exact ⟨k, (member_of_root hroot).trans hk, hcut⟩

/-- **The message of a request is short**, and not empty. -/
theorem requestOf_message {text key message : Bytes} (h : requestOf text = .forward key message) :
    0 < message.length ∧ message.length < bufferSize := by
  rw [bufferSize_eq]
  have h₁ : (lit "\x7b\"cmd\":\"wol_send\",\"mac\":[").length = 25 := by decide
  have h₂ : (lit "\x7b\"cmd\":\"shutdown_send\",\"mac\":[").length = 30 := by decide
  have h₃ : (lit "]\x7d").length = 2 := by decide
  rcases requestOf_forward h with ⟨mac, hmac, rfl | rfl⟩ | rfl
  · have := length_macText_le mac
    simp only [wolSend, List.length_append]
    omega
  · have := length_macText_le mac
    simp only [shutdownSend, List.length_append]
    omega
  · decide

end Server
