import WolServer.Registry

/-!
# Routing

Whom a `wol`, a `shutdown` or a `reset` reaches. All three search the table
from below for a bound connection that stores the key, so they reach the
connection with the lowest descriptor among those
(`Server.identity_and_routing`).

Nothing keeps keys apart. Two open connections may store the same key – a
device that comes back while its old connection waits for its timeout – and
then the search goes by descriptor, not by time
(`Server.delivered_to_lowest`). And a stored key is the first 15 bytes of
the announced one, so a longer key is not found again, while the front of it
is (`Server.matches_iff`).
-/

namespace Server

variable {memory : ClientList} {listenFd : ℕ} {portWarn : UInt16} {labels : List Label}
  {s : Server} {tr : List Effect}

/-- **Identity and routing.** In every state of every execution that lets in
descriptors of the table only: a bound slot holds the last binding its own
connection announced since it was accepted; a request for a key sends its
message once, to the lowest connection that stores the key, and to nobody if
there is none; and a warning of a bound connection sends one notice, with the
key that connection stores. Besides that, the requester gets its reply. -/
theorem identity_and_routing (hsmall : ∀ l ∈ labels, ∀ x ∈ l.admitted, x < slots)
    (h : execute memory listenFd portWarn labels = some (s, tr)) :
    (∀ i, (s.clientList i).enable = true → (s.clientList i).esp8266 = true →
        ∃ b, LastBind tr i b ∧ Stores (s.clientList i) b)
      ∧ (∀ text key message fd now, Asks text key message →
        (∀ i, Bound tr i key → (∀ j < i, ¬ Bound tr j key) →
          sent s fd text now = [.send i message message.length,
            .send fd (retStr true []) (retStr true []).length])
        ∧ ((∀ i, ¬ Bound tr i key) →
          sent s fd text now = [.send fd (retStr false []) (retStr false []).length]))
      ∧ ∀ text i b now, member text (lit "cmd") = some (lit "warn") → 0 < portWarn →
        LastBind tr i b →
          sent s i text now = [.sendto portWarn (noticeText (b.key.take 15))
              (noticeText (b.key.take 15)).length,
            .send i (retStr false []) (retStr false []).length] := by
  obtain ⟨href, hag⟩ := execute_refines hsmall h
  refine ⟨fun i hen hesp => ?_, fun text key message fd now hask => ⟨fun i hi hmin => ?_,
    fun hnone => ?_⟩, fun text i b now hwarn hport hb => ?_⟩
  · have hslot := href.slot i
    cases hr : registry tr i with
    | none =>
      rw [hr] at hslot
      exact absurd hen (by rw [show (s.clientList i).enable = false from hslot]; simp)
    | some o =>
      rw [hr] at hslot
      cases o with
      | none => exact absurd hesp (by rw [hslot.2]; simp)
      | some b => exact ⟨b, lastBind_of_registry hr, hslot.2.2⟩
  · rw [sent_of_asks hask, lookup_of_least href hag hi hmin]
  · rw [sent_of_asks hask, lookup_of_none href hnone]
  · have hslot := href.slot i
    rw [registry_eq_bound_iff.mpr hb] at hslot
    obtain ⟨hen, hesp, hkey, -, -⟩ := hslot
    rw [sent_of_warn hwarn now href.port hport hen hesp, hkey]

/-- A connection binds, closes, and another gets its descriptor and binds. -/
def reusedLabels : List Label :=
  [.check 0, .wait [3], .handle { quiet with accept := some (5, ⟨192, 168, 0, 7⟩) },
    .check 0, .wait [5],
    .handle (receive (lit "\x7b\"cmd\":\"bind\",\"key\":\"a\",\"ssid\":\"s\",\"ip\":\"i\"\x7d")),
    .check 0, .wait [5, 3], .handle { quiet with closed := true },
    .handle { quiet with accept := some (5, ⟨192, 168, 0, 8⟩) },
    .check 0, .wait [5],
    .handle (receive (lit "\x7b\"cmd\":\"bind\",\"key\":\"b\",\"ssid\":\"t\",\"ip\":\"j\"\x7d"))]

unseal slots bufferSize in
set_option maxRecDepth 8000 in
theorem identity_and_routing_run :
    ∃ s tr b, execute zeroMemory 3 50174 reusedLabels = some (s, tr)
      ∧ LastBind tr 5 b ∧ Stores (s.clientList 5) b := by
  obtain ⟨⟨s, tr⟩, h, hbound⟩ := (Option.any_eq_true _ _).mp
    (show (execute zeroMemory 3 50174 reusedLabels).any
      (fun r => (r.1.clientList 5).enable && (r.1.clientList 5).esp8266) = true by decide +kernel)
  have hbound := (Bool.and_eq_true _ _).mp hbound
  obtain ⟨b, hb, hst⟩ := (identity_and_routing (by decide) h).1 5 hbound.1 hbound.2
  exact ⟨s, tr, b, h, hb, hst⟩

/-! ## Two connections of one key -/

instance (tr : List Effect) (i : ℕ) (key : Bytes) : Decidable (Bound tr i key) :=
  match h : registry tr i with
  | some (some b) =>
    if hb : b.key.take 15 = key then .isTrue ⟨b, h, hb⟩
    else .isFalse (fun ⟨b', h', hb'⟩ => hb (by
      obtain rfl : b' = b := Option.some.inj (Option.some.inj (h'.symm.trans h))
      exact hb'))
  | some none => .isFalse (fun ⟨_, h', _⟩ => by rw [h] at h'; cases h')
  | none => .isFalse (fun ⟨_, h', _⟩ => by rw [h] at h'; cases h')

/-- What an effect does to the list of the connections that have bound, the
latest binder first. -/
def followBinders (l : List ℕ) : Effect → List ℕ
  | .accepted fd => l.filter (fun i => i ≠ fd)
  | .closed fd => l.filter (fun i => i ≠ fd)
  | .received fd text => if (bindingOf text).isSome then fd :: l.filter (fun i => i ≠ fd) else l
  | _ => l

/-- The connections that have bound, the latest binder first. -/
def binders (tr : List Effect) : List ℕ := tr.foldl followBinders []

/-- **The connection that bound a key most recently**, of those that store
it. -/
def mostRecent (tr : List Effect) (key : Bytes) : Option ℕ :=
  (binders tr).find? (fun i => Bound tr i key)

/-- Every bound connection is among the binders. -/
theorem mem_binders {tr : List Effect} {i : ℕ} {b : Binding}
    (h : registry tr i = some (some b)) : i ∈ binders tr := by
  have hkeep : ∀ {l : List ℕ} {fd : ℕ}, i ∈ l → i ≠ fd → i ∈ l.filter (fun j => j ≠ fd) :=
    fun hl hne => List.mem_filter.mpr ⟨hl, decide_eq_true hne⟩
  induction tr using List.reverseRecOn generalizing b with
  | nil => cases h
  | append_singleton tr e ih =>
    rw [registry_snoc] at h
    rw [binders, List.foldl_append]
    show i ∈ followBinders (binders tr) e
    cases e with
    | accepted fd =>
      have hne : i ≠ fd := by
        rintro rfl
        rw [follow, Function.update_self] at h
        cases h
      rw [follow, Function.update_of_ne hne] at h
      exact hkeep (ih h) hne
    | closed fd =>
      have hne : i ≠ fd := by
        rintro rfl
        rw [follow, Function.update_self] at h
        cases h
      rw [follow, Function.update_of_ne hne] at h
      exact hkeep (ih h) hne
    | received fd text =>
      rw [followBinders]
      by_cases hsame : follow (registry tr) (.received fd text) i = registry tr i
      · have hmem := ih (hsame.symm.trans h)
        split
        · by_cases hne : i = fd
          · exact List.mem_cons.mpr (Or.inl hne)
          · exact List.mem_cons_of_mem _ (hkeep hmem hne)
        · exact hmem
      · rcases follow_of_ne hsame with h' | h' | ⟨text', b', o, h', hb', -⟩
        · cases h'
        · cases h'
        · obtain ⟨rfl, rfl⟩ := Effect.received.inj h'
          rw [if_pos (by rw [hb']; rfl)]
          exact List.mem_cons_self
    | _ => exact ih h

/-- There is a most recent binder of a key exactly when some connection
stores the key. -/
theorem mostRecent_eq_none_iff {tr : List Effect} {key : Bytes} :
    mostRecent tr key = none ↔ ∀ i, ¬ Bound tr i key := by
  rw [mostRecent, List.find?_eq_none]
  constructor
  · intro h i hi
    obtain ⟨b, hb, -⟩ := id hi
    exact h i (mem_binders hb) (decide_eq_true hi)
  · intro h i _ hi
    exact h i (of_decide_eq_true hi)

theorem mostRecent_bound {tr : List Effect} {key : Bytes} {i : ℕ}
    (h : mostRecent tr key = some i) : Bound tr i key :=
  of_decide_eq_true (List.find?_some (p := fun i => decide (Bound tr i key)) h)

/-- **A request for a key is delivered to the lowest connection that stores
it.** Somebody stores it exactly when there is a most recent binder, and it
is the most recent binder that gets the message exactly when no lower
connection stores the key. -/
theorem delivered_to_lowest (hsmall : ∀ l ∈ labels, ∀ x ∈ l.admitted, x < slots)
    (h : execute memory listenFd portWarn labels = some (s, tr)) {text key message : Bytes}
    (hask : Asks text key message) (fd now : ℕ) :
    (∀ i, Bound tr i key → (∀ j < i, ¬ Bound tr j key) →
        .send i message message.length ∈ sent s fd text now)
      ∧ (mostRecent tr key = none ↔ ∀ i, ¬ Bound tr i key)
      ∧ ∀ i, mostRecent tr key = some i →
        (sent s fd text now = [.send i message message.length,
            .send fd (retStr true []) (retStr true []).length]
          ↔ ∀ j < i, ¬ Bound tr j key) := by
  obtain ⟨href, hag⟩ := execute_refines hsmall h
  have hleast : ∀ i, Bound tr i key → (∀ j < i, ¬ Bound tr j key) →
      sent s fd text now = [.send i message message.length,
        .send fd (retStr true []) (retStr true []).length] := fun i hi hmin => by
    rw [sent_of_asks hask, lookup_of_least href hag hi hmin]
  refine ⟨fun i hi hmin => hleast i hi hmin ▸ List.mem_cons_self, mostRecent_eq_none_iff,
    fun i hi => ⟨fun hsent j hj hbound => ?_, hleast i (mostRecent_bound hi)⟩⟩
  -- the lowest connection of the key got the message, so it is this one
  rw [sent_of_asks hask] at hsent
  cases hl : lookup s.clientList key with
  | none =>
    rw [hl] at hsent
    exact absurd (congrArg List.length hsent) (by simp)
  | some k =>
    rw [hl] at hsent
    obtain ⟨rfl, -, -⟩ := Effect.send.inj (List.cons.inj hsent).1
    exact (lookup_eq_some_iff.mp hl).2.2 j hj (href.holds_iff.mpr hbound)

/-- Two connections bind one key, the one with the higher descriptor last. -/
def rivalLabels : List Label :=
  [.check 0, .wait [3], .handle { quiet with accept := some (5, ⟨192, 168, 0, 7⟩) },
    .check 0, .wait [3], .handle { quiet with accept := some (6, ⟨192, 168, 0, 7⟩) },
    .check 0, .wait [5],
    .handle (receive (lit "\x7b\"cmd\":\"bind\",\"key\":\"a\",\"ssid\":\"s\",\"ip\":\"i\"\x7d")),
    .check 0, .wait [6],
    .handle (receive (lit "\x7b\"cmd\":\"bind\",\"key\":\"a\",\"ssid\":\"s\",\"ip\":\"i\"\x7d"))]

/-- A `reset` for the key of `rivalLabels`. -/
def resetText : Bytes := lit "\x7b\"cmd\":\"reset\",\"key\":\"a\"\x7d"

unseal slots bufferSize in
set_option maxRecDepth 8000 in
theorem asks_resetText : Asks resetText (lit "a") resetSend :=
  .reset (by decide) (by decide) (by decide) (by decide)

unseal slots bufferSize in
set_option maxRecDepth 8000 in
theorem delivered_to_lowest_run :
    ∃ s tr, execute zeroMemory 3 50174 rivalLabels = some (s, tr)
      ∧ (mostRecent tr (lit "a") = none ↔ ∀ i, ¬ Bound tr i (lit "a")) := by
  obtain ⟨⟨s, tr⟩, h⟩ := Option.isSome_iff_exists.mp
    (show (execute zeroMemory 3 50174 rivalLabels).isSome = true by decide)
  exact ⟨s, tr, h, (delivered_to_lowest (by decide) h asks_resetText 6 0).2.1⟩

/-- The start of an execution binds nobody. -/
theorem mostRecent_boot (tr : List Effect) (key : Bytes) :
    mostRecent ((List.range slots).map .access ++ tr) key = mostRecent tr key := by
  have hlook : ∀ l : List ℕ, (l.map Effect.access).foldl followBinders [] = [] := by
    intro l
    induction l with
    | nil => rfl
    | cons i l ih => exact ih
  have hbinders : binders ((List.range slots).map .access ++ tr) = binders tr := by
    rw [binders, List.foldl_append, hlook]
    rfl
  have hbound : ∀ i, Bound ((List.range slots).map .access ++ tr) i key ↔ Bound tr i key :=
    fun i => by rw [Bound, Bound, registry_boot]
  rw [mostRecent, mostRecent, hbinders]
  exact congrArg (fun p => List.find? p (binders tr))
    (funext (fun i => decide_eq_decide.mpr (hbound i)))

unseal slots bufferSize in
set_option maxRecDepth 8000 in
/-- The most recent binder need not get the message. -/
theorem not_delivered_to_most_recent :
    ¬ ∀ (memory : ClientList) (listenFd : ℕ) (portWarn : UInt16) (labels : List Label)
      (s : Server) (tr : List Effect), (∀ l ∈ labels, ∀ x ∈ l.admitted, x < slots) →
      execute memory listenFd portWarn labels = some (s, tr) →
      ∀ text key message fd now, Asks text key message → ∀ i, mostRecent tr key = some i →
        .send i message message.length ∈ sent s fd text now := by
  intro hall
  obtain ⟨⟨s, tr⟩, hrun, hbad⟩ := (Option.any_eq_true _ _).mp
    (show (Runs.run step (bootState zeroMemory 3 50174) rivalLabels).any
      (fun r => mostRecent r.2 (lit "a") == some 6
        && !decide (.send 6 resetSend resetSend.length ∈ sent r.1 6 resetText 0)) = true
      by decide +kernel)
  simp only [Bool.and_eq_true, beq_iff_eq, Bool.not_eq_true', decide_eq_false_iff_not] at hbad
  refine hbad.2 (hall _ _ _ _ _ _ (by decide) (execute_eq_some.mpr ⟨tr, hrun, rfl⟩)
    _ _ _ 6 0 asks_resetText 6 ?_)
  rw [mostRecent_boot]
  exact hbad.1

/-! ## Keys that do not fit -/

/-- The connection on a descriptor is matched by the request of a text. -/
def Matches (s : Server) (i : ℕ) (text : Bytes) : Prop :=
  ∃ key message, requestOf text = .forward key message ∧ holds (s.clientList i) key = true

/-- **Bind and lookup agree on two keys exactly when the announced one fits
its slot, or the requested one is neither it nor the front of it that is
stored.** -/
theorem matches_iff (hsmall : ∀ l ∈ labels, ∀ x ∈ l.admitted, x < slots)
    (h : execute memory listenFd portWarn labels = some (s, tr)) {i : ℕ} {b : Binding}
    (hb : LastBind tr i b) {text key message : Bytes} (hask : Asks text key message) :
    ((Matches s i text ↔ b.key = key)
      ↔ b.key.length ≤ 15 ∨ (key ≠ b.key ∧ key ≠ b.key.take 15)) := by
  obtain ⟨href, -⟩ := execute_refines hsmall h
  have hreg := registry_eq_bound_iff.mpr hb
  have hmatch : Matches s i text ↔ b.key.take 15 = key := by
    constructor
    · rintro ⟨key', message', hreq, hhold⟩
      obtain ⟨rfl, rfl⟩ := Request.forward.inj (hask.requestOf_eq.symm.trans hreq)
      obtain ⟨b', hb', hkey⟩ := href.holds_iff.mp hhold
      obtain rfl : b' = b := Option.some.inj (Option.some.inj (hb'.symm.trans hreg))
      exact hkey
    · intro hkey
      exact ⟨key, message, hask.requestOf_eq, href.holds_iff.mpr ⟨b, hreg, hkey⟩⟩
  rw [hmatch]
  by_cases hlen : b.key.length ≤ 15
  · rw [List.take_of_length_le hlen]
    simp [hlen]
  · have hcut : b.key.take 15 ≠ b.key := fun heq => by
      have := congrArg List.length heq
      rw [List.length_take] at this
      omega
    constructor
    · intro hiff
      refine Or.inr ⟨fun hk => hcut ?_, fun hk => hcut ?_⟩
      · rw [hiff.mpr hk.symm, hk]
      · rw [← hk, hiff.mp hk.symm]
    · rintro (hle | ⟨hne, hne'⟩)
      · exact absurd hle hlen
      · exact ⟨fun hk => absurd hk.symm hne', fun hk => absurd hk.symm hne⟩

/-- A connection binds a key of 16 bytes. -/
def longKeyLabels : List Label :=
  [.check 0, .wait [3], .handle { quiet with accept := some (5, ⟨192, 168, 0, 7⟩) },
    .check 0, .wait [5],
    .handle (receive (lit
      "\x7b\"cmd\":\"bind\",\"key\":\"0123456789abcdef\",\"ssid\":\"s\",\"ip\":\"i\"\x7d"))]

/-- The binding of `longKeyLabels`. -/
def longBinding : Binding := ⟨lit "0123456789abcdef", lit "s", lit "i"⟩

/-- A `reset` for the key of `longKeyLabels`. -/
def longResetText : Bytes := lit "\x7b\"cmd\":\"reset\",\"key\":\"0123456789abcdef\"\x7d"

unseal slots bufferSize in
set_option maxRecDepth 8000 in
theorem asks_longResetText : Asks longResetText longBinding.key resetSend :=
  .reset (by decide) (by decide) (by decide) (by decide)

/-- The execution of `longKeyLabels`. -/
theorem execute_longKeyLabels :
    ∃ s tr, execute zeroMemory 3 50174 longKeyLabels = some (s, tr)
      ∧ LastBind tr 5 longBinding ∧ ¬ holds (s.clientList 5) longBinding.key = true := by
  obtain ⟨⟨s, tr⟩, hrun, hbad⟩ := (Option.any_eq_true _ _).mp
    (show (Runs.run step (bootState zeroMemory 3 50174) longKeyLabels).any
      (fun r => registry r.2 5 == some (some longBinding)
        && !holds (r.1.clientList 5) longBinding.key) = true by decide +kernel)
  simp only [Bool.and_eq_true, beq_iff_eq, Bool.not_eq_true'] at hbad
  refine ⟨s, _, execute_eq_some.mpr ⟨tr, hrun, rfl⟩, ?_, by rw [hbad.2]; simp⟩
  rw [← registry_eq_bound_iff, registry_boot]
  exact hbad.1

unseal slots bufferSize in
set_option maxRecDepth 8000 in
theorem matches_iff_run :
    ∃ s tr, execute zeroMemory 3 50174 longKeyLabels = some (s, tr)
      ∧ ((Matches s 5 resetText ↔ longBinding.key = lit "a")
        ↔ longBinding.key.length ≤ 15
          ∨ (lit "a" ≠ longBinding.key ∧ lit "a" ≠ longBinding.key.take 15)) := by
  obtain ⟨s, tr, h, hb, -⟩ := execute_longKeyLabels
  exact ⟨s, tr, h, matches_iff (by decide) h hb asks_resetText⟩

unseal slots bufferSize in
set_option maxRecDepth 8000 in
/-- A key of 16 bytes does not match itself. -/
theorem long_key_not_matched :
    ¬ ∀ (memory : ClientList) (listenFd : ℕ) (portWarn : UInt16) (labels : List Label)
      (s : Server) (tr : List Effect), (∀ l ∈ labels, ∀ x ∈ l.admitted, x < slots) →
      execute memory listenFd portWarn labels = some (s, tr) →
      ∀ i b text key message, LastBind tr i b → b.key.length < 32 → Asks text key message →
        (Matches s i text ↔ b.key = key) := by
  intro hall
  obtain ⟨s, tr, h, hb, hbad⟩ := execute_longKeyLabels
  obtain ⟨key, message, hreq, hhold⟩ := (hall _ _ _ _ s tr (by decide) h 5 longBinding
    longResetText _ _ hb (by decide) asks_longResetText).mpr rfl
  obtain ⟨rfl, -⟩ := Request.forward.inj (asks_longResetText.requestOf_eq.symm.trans hreq)
  exact hbad hhold

end Server
