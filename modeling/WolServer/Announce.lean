import WolServer.Device
import WolServer.FlatText
import WolServer.Locality

/-!
# What a device announces

A device introduces itself with a `bind`: its key, the name of the network it
is in, and its address, printed with `%s` into a text that the server parses.
A key is twelve hexadecimal digits and an address is dotted, but the name of a
network is any bytes but NUL, up to 32 of them, and the field it comes from
has no room for a terminator when there are 32.

So it can go wrong in two ways. A name that fills its field runs on into the
password, and has no room in the slot; a quote or a backslash in the name has
a meaning to the parser. What the parser's loop makes of such a name is
followed here to the end (`CJSON.parseStringLoop_cases`): it writes less than
it has read – or an escape takes the quote behind the name with it, and the
loop stops where no object goes on. So the name arrives exactly when neither
is the case (`Server.announce_iff`).
-/

namespace CJSON

/-! ## A string that is not escaped -/

/-- What stands behind the name of the network in a `bind`. -/
def behind (rest : Bytes) : Bytes := 34 :: 44 :: 34 :: 105 :: 112 :: 34 :: 58 :: rest

/-- Where the loop over a string stops if it runs past its end: at one of the
quotes around the next name. -/
def RunsOn (ptr : Bytes) : Prop := ∃ r, ptr = 34 :: 105 :: r ∨ ptr = 34 :: 58 :: r

/-- A `\u` uses four characters, or ten if another follows; and it writes
less. -/
theorem parseUnicode_cases (ptr : Bytes) :
    ((parseUnicode ptr).2 = ptr.drop 4 ∧ (parseUnicode ptr).1.length ≤ 3)
      ∨ ((parseUnicode ptr).2 = ptr.drop 10 ∧ (parseUnicode ptr).1.length ≤ 4
        ∧ deref (ptr.drop 5) = 92 ∧ deref (ptr.drop 6) = 117) := by
  have hfour : ∀ uc, (transcode uc).length ≤ 4 := by
    intro uc
    unfold transcode
    split_ifs <;> simp
  have hthree : ∀ uc, uc < 0x10000 → (transcode uc).length ≤ 3 := by
    intro uc huc
    unfold transcode
    split_ifs <;> simp
  have hcode : parseHex4 (ptr.drop 1) < 0x10000 := by
    unfold parseHex4
    cases h : JsonText.hex4 _ _ _ _ with
    | none => decide
    | some n => exact JsonText.hex4_lt h
  unfold parseUnicode
  dsimp only
  simp only [List.drop_drop]
  split_ifs with h₁ h₂ h₃ h₄
  · exact Or.inl ⟨rfl, Nat.zero_le _⟩
  · exact Or.inl ⟨rfl, Nat.zero_le _⟩
  · exact Or.inr ⟨rfl, Nat.zero_le _, not_not.mp (not_or.mp h₃).1, not_not.mp (not_or.mp h₃).2⟩
  · exact Or.inr ⟨rfl, hfour _, not_not.mp (not_or.mp h₃).1, not_not.mp (not_or.mp h₃).2⟩
  · exact Or.inl ⟨rfl, hthree _ hcode⟩

/-- A `\u` with less than four characters behind it runs past the end. -/
theorem loop_swallow {y : Bytes} (hy : y.length < 4) (rest : Bytes) {fuel : ℕ} (hfuel : 4 ≤ fuel) :
    RunsOn (parseStringLoop fuel ((y ++ behind rest).drop 4)).2 := by
  obtain ⟨fuel, rfl⟩ := Nat.exists_eq_add_of_le' hfuel
  match y, hy with
  | [], _ => exact ⟨_, Or.inr rfl⟩
  | [_], _ => exact ⟨_, Or.inr rfl⟩
  | [_, _], _ => exact ⟨_, Or.inl rfl⟩
  | [_, _, _], _ => exact ⟨_, Or.inl rfl⟩

/-- Every other escape writes one character for its letter. -/
theorem parseEscape_of_ne {ptr : Bytes} (h : deref ptr ≠ 117) :
    (parseEscape ptr).2 = ptr ∧ (parseEscape ptr).1.length = 1 := by
  unfold parseEscape
  rw [if_neg h]
  split_ifs <;> exact ⟨rfl, rfl⟩

/-- Two escapes in a row lie in the string, because what stands behind it has
none. -/
theorem six_le_length {s rest : Bytes} (h₁ : deref ((s ++ behind rest).drop 4) = 92)
    (h₂ : deref ((s ++ behind rest).drop 5) = 117) : 6 ≤ s.length := by
  match s with
  | [] => exact absurd h₁ (show ¬ (112 : UInt8) = 92 by decide)
  | [_] => exact absurd h₁ (show ¬ (105 : UInt8) = 92 by decide)
  | [_, _] => exact absurd h₁ (show ¬ (34 : UInt8) = 92 by decide)
  | [_, _, _] => exact absurd h₁ (show ¬ (44 : UInt8) = 92 by decide)
  | [_, _, _, _] => exact absurd h₁ (show ¬ (34 : UInt8) = 92 by decide)
  | [_, _, _, _, _] => exact absurd h₂ (show ¬ (34 : UInt8) = 117 by decide)
  | _ :: _ :: _ :: _ :: _ :: _ :: _ => exact Nat.le_add_left 6 _

/-- **An escape in a string that is followed by more**: either it ends in the
string, and writes less than it has read, or it takes the quote at the end with
it. -/
theorem parseEscape_cases (s rest : Bytes) :
    (∃ s', (parseEscape (s ++ behind rest)).2.tail = s' ++ behind rest
        ∧ (parseEscape (s ++ behind rest)).1.length + s'.length ≤ s.length)
      ∨ ∃ y, y.length < 4
        ∧ (parseEscape (s ++ behind rest)).2.tail = (y ++ behind rest).drop 4 := by
  cases s with
  | nil =>
    -- it is the quote at the end that is escaped
    exact Or.inr ⟨[0, 0, 0], by decide, rfl⟩
  | cons a s =>
    by_cases hletter : a = 117
    · subst hletter
      have hunicode : parseEscape (117 :: (s ++ behind rest))
          = parseUnicode (117 :: (s ++ behind rest)) := rfl
      rw [List.cons_append, hunicode, List.length_cons]
      rcases parseUnicode_cases (117 :: (s ++ behind rest)) with
        ⟨hptr, hlen⟩ | ⟨hptr, hlen, h₁, h₂⟩
      · rw [hptr, List.tail_drop, List.drop_succ_cons]
        by_cases hs : s.length < 4
        · exact Or.inr ⟨s, hs, rfl⟩
        · rw [List.drop_append_of_le_length (by omega)]
          refine Or.inl ⟨s.drop 4, rfl, ?_⟩
          rw [List.length_drop]
          omega
      · have hsix : 6 ≤ s.length := six_le_length h₁ h₂
        rw [hptr, List.tail_drop, List.drop_succ_cons]
        by_cases hs : s.length < 10
        · refine Or.inr ⟨s.drop 6, by rw [List.length_drop]; omega, ?_⟩
          rw [← List.drop_append_of_le_length hsix, List.drop_drop]
        · rw [List.drop_append_of_le_length (by omega)]
          refine Or.inl ⟨s.drop 10, rfl, ?_⟩
          rw [List.length_drop]
          omega
    · obtain ⟨hptr, hlen⟩ := parseEscape_of_ne (show deref (a :: s ++ behind rest) ≠ 117 from
        hletter)
      refine Or.inl ⟨s, by rw [hptr, List.cons_append, List.tail_cons], ?_⟩
      rw [hlen, List.length_cons, Nat.add_comm]

/-- **What the loop makes of a string that is followed by more.** It writes
less than it has read, or reads a string with nothing special in it as it is,
or runs past the end. -/
theorem parseStringLoop_cases {n : ℕ} {s : Bytes} (hn : s.length ≤ n) (rest : Bytes) {fuel : ℕ}
    (hfuel : s.length + 8 ≤ fuel) :
    (parseStringLoop fuel (s ++ behind rest)).1.length < s.length
      ∨ ((parseStringLoop fuel (s ++ behind rest)).1.length = s.length ∧ Bare s)
      ∨ RunsOn (parseStringLoop fuel (s ++ behind rest)).2 := by
  -- an escape can take many characters, so the induction is on a bound of the length
  induction n generalizing s fuel with
  | zero =>
    obtain rfl := List.length_eq_zero_iff.mp (Nat.le_zero.mp hn)
    obtain ⟨fuel, rfl⟩ := Nat.exists_eq_add_of_le' hfuel
    exact Or.inr (Or.inl ⟨rfl, fun b hb => absurd hb List.not_mem_nil⟩)
  | succ n ih =>
    cases s with
    | nil => exact ih (s := []) (Nat.zero_le n) hfuel
    | cons b s =>
      obtain ⟨fuel, rfl⟩ := Nat.exists_eq_add_of_le' (le_trans (Nat.le_add_left 1 _) hfuel)
      rw [List.length_cons] at hn hfuel
      rw [List.cons_append, parseStringLoop, deref_cons, List.tail_cons, List.length_cons]
      by_cases hstop : b = 34 ∨ b = 0
      · rw [if_pos hstop]
        exact Or.inl (Nat.succ_pos _)
      rw [if_neg hstop]
      by_cases hplain : b ≠ 92
      · -- an ordinary character is written as it is
        rw [if_pos hplain]
        rcases ih (show s.length ≤ n by omega) (show s.length + 8 ≤ fuel by omega) with
          h | ⟨h, hbare⟩ | h
        · exact Or.inl (Nat.succ_lt_succ h)
        · refine Or.inr (Or.inl ⟨congrArg Nat.succ h, List.forall_mem_cons.mpr ⟨?_, hbare⟩⟩)
          exact ⟨fun h0 => hstop (Or.inr h0), fun h34 => hstop (Or.inl h34), hplain⟩
        · exact Or.inr (Or.inr h)
      rw [if_neg hplain]
      dsimp only
      rcases parseEscape_cases s rest with ⟨s', hptr, hlen⟩ | ⟨y, hy, hptr⟩
      · rw [hptr, List.length_append]
        rcases ih (show s'.length ≤ n by omega) (show s'.length + 8 ≤ fuel by omega) with
          h | ⟨h, -⟩ | h
        · exact Or.inl (by omega)
        · exact Or.inl (by omega)
        · exact Or.inr (Or.inr h)
      · rw [hptr]
        exact Or.inr (Or.inr (loop_swallow hy rest (by omega)))

end CJSON

/-- **The configuration of the station**: the name of the network and the
password, in fields of 32 and of 64 bytes, one behind the other. -/
structure StationConfig where
  /-- The name of the network. -/
  ssid : Bytes
  /-- The password. -/
  password : Bytes
  /-- The memory behind the password. -/
  rest : Bytes
  /-- The name fits its field, and may fill it. -/
  ssid_le : ssid.length ≤ 32
  /-- So does the password. -/
  password_le : password.length ≤ 64
  /-- There is no NUL in the name. -/
  noNul : (0 : UInt8) ∉ ssid

namespace StationConfig

/-- The memory from the name of the network on. -/
def memory (c : StationConfig) : Bytes :=
  c.ssid ++ (List.replicate (32 - c.ssid.length) 0
    ++ (c.password ++ (List.replicate (64 - c.password.length) 0 ++ c.rest)))

/-- **A name that does not fill its field is read as it is.** -/
theorem cstr_memory {c : StationConfig} (h : c.ssid.length ≤ 31) : cstr c.memory = c.ssid := by
  obtain ⟨n, hn⟩ := Nat.exists_eq_add_of_le' (show 1 ≤ 32 - c.ssid.length by omega)
  rw [memory, hn, List.replicate_succ, List.cons_append]
  exact cstr_append_zero c.noNul _

end StationConfig

namespace Device

/-! ## The text of a `bind` -/

/-- The text of a `bind` is a text of strings. -/
theorem bindText_eq_flatText (key ssid ip : Bytes) :
    bindText key ssid ip = flatText (Server.bindMembers key ssid ip) := by
  have h₁ : lit "\x7b\"cmd\":\"bind\",\"key\":\"" = 123 :: (memberText (lit "cmd", lit "bind")
      ++ 44 :: 34 :: (lit "key" ++ [34, 58, 34])) := rfl
  have h₂ : lit "\",\"ssid\":\"" = 34 :: 44 :: 34 :: (lit "ssid" ++ [34, 58, 34]) := rfl
  have h₃ : lit "\",\"ip\":\"" = 34 :: 44 :: 34 :: (lit "ip" ++ [34, 58, 34]) := rfl
  have h₄ : lit "\"\x7d" = [34, 125] := rfl
  rw [bindText, h₁, h₂, h₃, h₄, flatText, Server.bindMembers]
  simp only [List.map_cons, List.map_nil, List.intercalate_cons_cons,
    List.intercalate_singleton, memberText, List.cons_append, List.append_assoc, List.nil_append]

/-- Up to the name of the network, the text is what it should be. -/
theorem bindText_eq (key ssid ip : Bytes) :
    bindText key ssid ip = 123 :: (memberText (lit "cmd", lit "bind")
      ++ 44 :: (memberText (lit "key", key)
      ++ 44 :: 34 :: (lit "ssid" ++ 34 :: 58 :: 34 :: (ssid
      ++ CJSON.behind (34 :: (ip ++ [34, 125])))))) := by
  have h₃ : lit "ip" = [105, 112] := rfl
  rw [bindText_eq_flatText, flatText, Server.bindMembers, CJSON.behind]
  simp only [List.map_cons, List.map_nil, List.intercalate_cons_cons, h₃,
    List.intercalate_singleton, memberText, List.cons_append, List.append_assoc, List.nil_append]

/-- What the loop makes of the name of the network, as `parse_string` returns
it: the name, and something shorter or a place where no object goes on. -/
theorem parseString_ssid (ssid rest : Bytes) :
    ∃ v u, CJSON.parseString (34 :: (ssid ++ CJSON.behind rest)) = some (v, u)
      ∧ (v.length < ssid.length ∨ Bare ssid
        ∨ (deref (CJSON.skip u) ≠ 44 ∧ deref (CJSON.skip u) ≠ 125)) := by
  have hfuel : ssid.length + 8 ≤ (34 :: (ssid ++ CJSON.behind rest)).length := by
    simp only [List.length_cons, List.length_append, CJSON.behind]
    omega
  have hloop := CJSON.parseStringLoop_cases (le_refl ssid.length) rest hfuel
  rw [CJSON.parseString, if_neg (not_not.mpr (deref_cons 34 _)), List.tail_cons]
  refine ⟨_, _, rfl, ?_⟩
  rcases hloop with h | ⟨-, h⟩ | ⟨r, h | h⟩
  · exact Or.inl (lt_of_le_of_lt (length_cstr_le _) h)
  · exact Or.inr (Or.inl h)
  · rw [h, if_pos (deref_cons 34 _), List.tail_cons, CJSON.skip_cons (by decide),
      deref_cons]
    exact Or.inr (Or.inr ⟨by decide, by decide⟩)
  · rw [h, if_pos (deref_cons 34 _), List.tail_cons, CJSON.skip_cons (by decide),
      deref_cons]
    exact Or.inr (Or.inr ⟨by decide, by decide⟩)

/-- There is no NUL in a `bind` if there is none in its strings. -/
theorem zero_notMem_bindText {key ssid ip : Bytes} (hkey : (0 : UInt8) ∉ key)
    (hssid : (0 : UInt8) ∉ ssid) (hip : (0 : UInt8) ∉ ip) :
    (0 : UInt8) ∉ bindText key ssid ip := by
  simp [bindText, lit, hkey, hssid, hip]

/-- A `bind` is as long as its strings, and 41 characters. -/
theorem length_bindText (key ssid ip : Bytes) :
    (bindText key ssid ip).length = key.length + ssid.length + ip.length + 41 := by
  have h₁ : (lit "\x7b\"cmd\":\"bind\",\"key\":\"").length = 21 := by decide
  have h₂ : (lit "\",\"ssid\":\"").length = 10 := by decide
  have h₃ : (lit "\",\"ip\":\"").length = 8 := by decide
  have h₄ : (lit "\"\x7d").length = 2 := by decide
  simp only [bindText, List.length_append, h₁, h₂, h₃, h₄]
  omega

/-- **What the server's parser makes of a `bind`**, whatever the name of the
network is: the command, the key, and a name that is as long as the one
printed only if nothing in that has a meaning of its own. -/
theorem parse_bindText {key ssid ip : Bytes} (hkey : Bare key) {root : CJSON}
    (h : CJSON.parse (bindText key ssid ip) = some root) :
    ∃ v ms, root.child = CJSON.flatNode (lit "cmd", lit "bind") :: CJSON.flatNode (lit "key", key)
        :: CJSON.flatNode (lit "ssid", v) :: ms
      ∧ (v.length < ssid.length ∨ Bare ssid) := by
  obtain ⟨v, u, hstr, hcases⟩ := parseString_ssid ssid (34 :: (ip ++ [34, 125]))
  have hcmd : Bare (lit "cmd") ∧ Bare (lit "bind") := by simp [Bare, lit]
  have hname : Bare (lit "key") := by simp [Bare, lit]
  have hssid : Bare (lit "ssid") := by simp [Bare, lit]
  obtain ⟨n, hn⟩ : ∃ n, 2 * ((bindText key ssid ip).length - 1) + 1 = n + 4 :=
    Nat.exists_eq_add_of_le' (by rw [length_bindText]; omega)
  have hfuel := congrArg List.length (bindText_eq key ssid ip)
  rw [List.length_cons] at hfuel
  rw [hfuel, Nat.add_sub_cancel] at hn
  rw [bindText_eq, CJSON.parse_object rfl, hn, CJSON.parseMembers_cons hcmd,
    CJSON.parseMembers_cons ⟨hname, hkey⟩, CJSON.parseMembers_string hssid hstr] at h
  split_ifs at h with h44 h125
  · cases hrest : CJSON.parseMembers (n + 1) (CJSON.skip u).tail with
    | none =>
      rw [hrest] at h
      cases h
    | some r =>
      rw [hrest] at h
      obtain rfl := Option.some.inj h
      refine ⟨v, r.1, rfl, hcases.imp id (fun h => h.elim id (fun h => absurd h44 h.1))⟩
  · obtain rfl := Option.some.inj h
    refine ⟨v, [], rfl, hcases.imp id (fun h => h.elim id (fun h => absurd h125 h.2))⟩
  · cases h

end Device

namespace Server

open LibJson (textValue)

/-! ## What the server makes of it -/

theorem bare_inetNtoa (addr : InAddr) : Bare (inetNtoa addr) := by
  intro b hb
  rcases mem_inetNtoa hb with rfl | hdigit
  · decide
  · revert hdigit
    grind [isDigit]

/-- A dotted address fits its field. -/
theorem length_inetNtoa_le (addr : InAddr) : (inetNtoa addr).length ≤ 15 := by
  have h₁ := length_decimal_byte_le addr.b₁
  have h₂ := length_decimal_byte_le addr.b₂
  have h₃ := length_decimal_byte_le addr.b₃
  have h₄ := length_decimal_byte_le addr.b₄
  simp only [inetNtoa, List.length_append, List.length_cons]
  omega

theorem inetNtoa_ne_nil (addr : InAddr) : inetNtoa addr ≠ [] := by
  simp [inetNtoa]

/-- **A `bind` that is accepted is stored**, and what is stored is what the
text announces. -/
theorem stores_of_answer {text : Bytes} {root : CJSON} (hroot : rootOf text = some root)
    (hcmd : textValue root (lit "cmd") = some (lit "bind")) {s : Server} {fd now : ℕ}
    (h : answer fd (handleRequest s fd text now).2 = some true) :
    ∃ b, bindingOfRoot root = some b
      ∧ Stores ((handleRequest s fd text now).1.clientList fd) b := by
  have hreq : requestOf text = bindOf root := requestOf_of_command hroot hcmd
  have hstatus := (answer_eq_true_iff s fd text now).mp h
  rw [handleRequest_table, if_pos hstatus, Function.update_self]
  rw [hreq, bindOf] at hstatus ⊢
  rcases bindArgs_cases root with ⟨-, hargs⟩ | ⟨b, args, hb, hargs, hst⟩
  · rw [hargs] at hstatus
    cases hstatus
  · rw [hargs]
    exact ⟨b, hb, hst (s.clientList fd)⟩

/-- A binding that a text announces is accepted and stored. -/
theorem answer_of_bindingOf {text : Bytes} {b : Binding} (h : bindingOf text = some b)
    (s : Server) (fd now : ℕ) :
    answer fd (handleRequest s fd text now).2 = some true
      ∧ Stores ((handleRequest s fd text now).1.clientList fd) b := by
  rcases bound_cases text with ⟨hnone, -⟩ | ⟨b', args, hb, hreq, hst⟩
  · rw [h] at hnone
    cases hnone
  obtain rfl := Option.some.inj (h.symm.trans hb)
  have hstatus : (perform s fd (requestOf text)).retToClient = true := by
    rw [hreq]
    rfl
  rw [handleRequest_table, if_pos hstatus, Function.update_self, hreq]
  exact ⟨(answer_eq_true_iff s fd text now).mpr hstatus, hst (s.clientList fd)⟩

/-- The name in a binding is the value of its member. -/
theorem ssid_of_bindingOfRoot {root : CJSON} {b : Binding} {v : Bytes}
    (hb : bindingOfRoot root = some b) (hv : textValue root (lit "ssid") = some v) :
    b.ssid = v := by
  unfold bindingOfRoot at hb
  rw [hv] at hb
  split at hb
  · rename_i hssid _
    split at hb
    · obtain rfl := Option.some.inj hb
      exact (Option.some.inj hssid).symm
    · cases hb
  · cases hb

/-- The key of a device: twelve hexadecimal digits. -/
def IsKey (key : Bytes) : Prop := key.length = 12 ∧ ∀ b ∈ key, (JsonText.hexVal b).isSome = true

theorem IsKey.bare {key : Bytes} (h : IsKey key) : Bare key := by
  intro b hb
  have hdigit := h.2 b hb
  refine ⟨?_, ?_, ?_⟩ <;> (rintro rfl; exact absurd hdigit (by decide))

/-- **A name that arrives as it was sent has nothing in it with a meaning of its
own.** -/
theorem bare_of_stored {key ssid ip : Bytes} (hkey : Bare key)
    (hnul : (0 : UInt8) ∉ Device.bindText key ssid ip) {s : Server} {fd now : ℕ}
    (hans : answer fd (handleRequest s fd (Device.bindText key ssid ip) now).2 = some true)
    (hstored : ((handleRequest s fd (Device.bindText key ssid ip) now).1.clientList fd).ssid.text
      = ssid) : Bare ssid := by
  cases hroot : rootOf (Device.bindText key ssid ip) with
  | none =>
    rw [answer_eq_true_iff, requestOf_eq, hroot] at hans
    cases hans
  | some root =>
    have hparse : CJSON.parse (Device.bindText key ssid ip) = some root := by
      rw [← cstr_eq_self hnul]
      exact hroot
    obtain ⟨v, ms, hchild, hcases⟩ := Device.parse_bindText hkey hparse
    have hcmd : textValue root (lit "cmd") = some (lit "bind") := by
      rw [textValue, LibJson.stringValue, CJSON.getObjectItem, hchild]
      rfl
    have hvalue : textValue root (lit "ssid") = some (cstr v) := by
      rw [textValue, LibJson.stringValue, CJSON.getObjectItem, hchild]
      rfl
    obtain ⟨b, hb, -, hs, -⟩ := stores_of_answer hroot hcmd hans
    have hbssid : b.ssid = cstr v := ssid_of_bindingOfRoot hb hvalue
    -- what the parser makes shorter does not get its length back
    refine hcases.resolve_left (fun hshort => ?_)
    have hlen := congrArg List.length (hstored.symm.trans hs)
    have hcut := length_cstr_le v
    rw [List.length_take, hbssid] at hlen
    omega

/-- **The name of the network is stored as it is exactly when it leaves room
for a terminator and nothing in it has a meaning of its own in a string.** -/
theorem announce_iff {key : Bytes} (hkey : IsKey key) {t : Turn} {addr : InAddr}
    {c : StationConfig} (hssid : c.ssid ≠ []) (haddr : t.address = some addr)
    (hstation : t.station = some c.memory) {text : Bytes}
    (htext : text = Device.bindText key (Device.ssidText t) (Device.ipText t))
    (s : Server) (fd now : ℕ) :
    (Device.sendText t .bind text = [.send .bind t.time text text.length (t.takes .bind)]
        ∧ answer fd (handleRequest s fd text now).2 = some true
        ∧ ((handleRequest s fd text now).1.clientList fd).key.text = key
        ∧ ((handleRequest s fd text now).1.clientList fd).ssid.text = c.ssid
        ∧ ((handleRequest s fd text now).1.clientList fd).lanIp.text = inetNtoa addr
        ∧ ∀ (t' : Turn) (c' : StationConfig), c'.ssid = c.ssid → c'.rest = c.rest →
          t'.address = t.address → t'.station = some c'.memory →
          Device.bindText key (Device.ssidText t') (Device.ipText t') = text)
      ↔ c.ssid.length ≤ 31 ∧ 34 ∉ c.ssid ∧ 92 ∉ c.ssid := by
  have hip : Device.ipText t = inetNtoa addr := by
    rw [Device.ipText, haddr]
    rfl
  have hname : Device.ssidText t = cstr c.memory := by
    rw [Device.ssidText, hstation]
    rfl
  rw [hip, hname] at htext
  constructor
  · rintro ⟨-, hans, -, hstored, -, -⟩
    have hlen : c.ssid.length ≤ 31 := by
      rw [← hstored]
      exact Nat.le_of_lt_succ ((handleRequest s fd text now).1.clientList fd).ssid.length_lt
    rw [StationConfig.cstr_memory hlen] at htext
    have hnul : (0 : UInt8) ∉ text := htext ▸ Device.zero_notMem_bindText hkey.bare.zero_notMem
      c.noNul (bare_inetNtoa addr).zero_notMem
    rw [htext] at hans hstored hnul
    have hbare := bare_of_stored hkey.bare hnul hans hstored
    exact ⟨hlen, fun h => (hbare 34 h).2.1 rfl, fun h => (hbare 92 h).2.2 rfl⟩
  · rintro ⟨hlen, hquote, hbackslash⟩
    rw [StationConfig.cstr_memory hlen] at htext
    have hbare : Bare c.ssid := fun b hb =>
      ⟨fun h0 => c.noNul (h0 ▸ hb), fun h34 => hquote (h34 ▸ hb), fun h92 => hbackslash (h92 ▸ hb)⟩
    have hkeyne : key ≠ [] := List.ne_nil_of_length_eq_add_one hkey.1
    have hbinds := bindingOf_bindMembers hkey.bare hbare (bare_inetNtoa addr)
      ⟨hkeyne, hssid, inetNtoa_ne_nil addr⟩
    rw [← Device.bindText_eq_flatText, ← htext] at hbinds
    obtain ⟨hans, hk, hs, hi⟩ := answer_of_bindingOf hbinds s fd now
    refine ⟨?_, hans, ?_, ?_, ?_, fun t' c' hssid' _ haddr' hstation' => ?_⟩
    · have hsize : text.length < 256 := by
        have hiplen := length_inetNtoa_le addr
        rw [htext, Device.length_bindText, hkey.1]
        omega
      rw [Device.sendText_eq t .bind (by rw [htext, Device.length_bindText]; omega),
        snprintf_of_lt hsize]
    · exact hk.trans (List.take_of_length_le (by rw [hkey.1]; decide))
    · exact hs.trans (List.take_of_length_le hlen)
    · exact hi.trans (List.take_of_length_le (length_inetNtoa_le addr))
    · have hlen' : c'.ssid.length ≤ 31 := by
        rw [hssid']
        exact hlen
      rw [Device.ipText, haddr', haddr, Device.ssidText, hstation', Option.elim_some,
        Option.elim_some, StationConfig.cstr_memory hlen', hssid', htext]

/-- The network `net`. -/
def netConfig : StationConfig := ⟨lit "net", lit "secret", [], by decide, by decide, by decide⟩

/-- A network whose name fills its field. -/
def fullConfig : StationConfig :=
  ⟨List.replicate 32 97, lit "secret", [], by decide, by decide, by decide⟩

/-- A turn of a device on a network. -/
def turnOn (c : StationConfig) : Turn :=
  ⟨0, some ⟨192, 168, 0, 7⟩, some c.memory, fun _ => true, .again, true, false⟩

theorem isKey_digits : IsKey (lit "0123456789AB") := by
  refine ⟨by decide, ?_⟩
  simp [lit, JsonText.hexVal]

theorem announce_iff_net :
    answer 5 (handleRequest (bootState zeroMemory 3 50174) 5 (Device.bindText (lit "0123456789AB")
        (Device.ssidText (turnOn netConfig)) (Device.ipText (turnOn netConfig))) 0).2 = some true
      ∧ ((handleRequest (bootState zeroMemory 3 50174) 5 (Device.bindText (lit "0123456789AB")
        (Device.ssidText (turnOn netConfig)) (Device.ipText (turnOn netConfig))) 0).1.clientList
          5).ssid.text = lit "net" := by
  obtain ⟨-, hans, -, hstored, -⟩ := (announce_iff isKey_digits (show netConfig.ssid ≠ [] by decide)
    (t := turnOn netConfig) rfl rfl rfl (bootState zeroMemory 3 50174) 5 0).mpr (by decide)
  exact ⟨hans, hstored⟩

/-- A name of 32 bytes does not arrive. -/
theorem full_ssid_not_stored :
    ¬ ∀ (key : Bytes) (t : Turn) (addr : InAddr) (c : StationConfig) (text : Bytes) (s : Server)
      (fd now : ℕ), IsKey key → c.ssid ≠ [] → t.address = some addr →
      t.station = some c.memory →
      text = Device.bindText key (Device.ssidText t) (Device.ipText t) →
      answer fd (handleRequest s fd text now).2 = some true
        ∧ ((handleRequest s fd text now).1.clientList fd).key.text = key
        ∧ ((handleRequest s fd text now).1.clientList fd).ssid.text = c.ssid
        ∧ ((handleRequest s fd text now).1.clientList fd).lanIp.text = inetNtoa addr
        ∧ ∀ (t' : Turn) (c' : StationConfig), c'.ssid = c.ssid → c'.rest = c.rest →
          t'.address = t.address → t'.station = some c'.memory →
          Device.bindText key (Device.ssidText t') (Device.ipText t') = text := by
  intro hall
  obtain ⟨-, -, hstored, -⟩ := hall _ (turnOn fullConfig) _ fullConfig _
    (bootState zeroMemory 3 50174) 5 0 isKey_digits (by decide) rfl rfl rfl
  -- a slot has room for 31 bytes
  have hroom := ((handleRequest (bootState zeroMemory 3 50174) 5 (Device.bindText
    (lit "0123456789AB") (Device.ssidText (turnOn fullConfig)) (Device.ipText (turnOn fullConfig)))
    0).1.clientList 5).ssid.length_lt
  rw [hstored] at hroom
  exact absurd hroom (by decide)

end Server
