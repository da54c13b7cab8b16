import WolServer.Session
import WolServer.Values

/-!
# The registry

What the server is for, said without slots: a registry that knows, of every
descriptor, whether a connection is open on it and what that connection last
announced. `Server.registry` computes it from the effects of an execution –
`accept`, `close`, and the texts received – and so from what the outside
world saw and did, not from the table.

The table refines the registry (`Server.execute_refines`): a slot is enabled
when its connection is open, bound when that connection has bound, and then
holds what it announced, as much as fits. Nothing an earlier connection on
the same descriptor said is left. With that, where a request goes is a
question about the registry.
-/

/-- **What is known of each descriptor**: nothing is open on it; a connection
that has not bound; or one that has, and its last binding. -/
abbrev Registry := ℕ → Option (Option Server.Binding)

namespace Server

/-! ## Keeping the registry -/

/-- What an effect tells the registry. -/
def follow (r : Registry) : Effect → Registry
  | .accepted fd => Function.update r fd (some none)
  | .closed fd => Function.update r fd none
  | .received fd text =>
    match r fd, bindingOf text with
    | some _, some b => Function.update r fd (some (some b))
    | _, _ => r
  | _ => r

/-- **The registry after some effects.** -/
def registry (tr : List Effect) : Registry := tr.foldl follow (fun _ => none)

theorem registry_append (tr es : List Effect) :
    registry (tr ++ es) = es.foldl follow (registry tr) := List.foldl_append

theorem registry_snoc (tr : List Effect) (e : Effect) :
    registry (tr ++ [e]) = follow (registry tr) e := registry_append tr [e]

/-- Looks and sends tell the registry nothing. -/
theorem foldl_follow_answers {es : List Effect} (h : ∀ e ∈ es, Answers e) (r : Registry) :
    es.foldl follow r = r := by
  induction es with
  | nil => rfl
  | cons e es ih =>
    have he : follow r e = r := by
      rcases h e List.mem_cons_self with ⟨i, -, rfl⟩ | hs
      · rfl
      · cases e <;> first | rfl | cases hs
    rw [List.foldl_cons, he]
    exact ih (fun e he => h e (List.mem_cons_of_mem _ he))

/-- The start of an execution tells the registry nothing. -/
theorem registry_boot (tr : List Effect) :
    registry ((List.range slots).map .access ++ tr) = registry tr := by
  rw [registry, List.foldl_append, foldl_follow_answers
    (fun e he => answers_map (fun i hi => List.mem_range.mp hi) he)]
  rfl

/-- The connection on a descriptor was accepted, and is the last one there. -/
def OpenedIn (tr : List Effect) (i : ℕ) : Prop :=
  ∃ before after, tr = before ++ .accepted i :: after
    ∧ ∀ e ∈ after, e ≠ .accepted i ∧ e ≠ .closed i

/-- **A connection's last accepted binding**: it was accepted, and is still
there; it announced the binding since, and has announced no other after
that. -/
def LastBind (tr : List Effect) (i : ℕ) (b : Binding) : Prop :=
  ∃ before mid text after,
    tr = before ++ .accepted i :: (mid ++ .received i text :: after)
      ∧ (∀ e ∈ mid ++ after, e ≠ .accepted i ∧ e ≠ .closed i)
      ∧ bindingOf text = some b
      ∧ ∀ text', .received i text' ∈ after → bindingOf text' = none

/-- What an effect leaves of a descriptor it is not about. -/
theorem follow_of_ne {r : Registry} {e : Effect} {i : ℕ}
    (h : follow r e i ≠ r i) :
    e = .accepted i ∨ e = .closed i
      ∨ ∃ text b o, e = .received i text ∧ bindingOf text = some b ∧ r i = some o := by
  have hupd : ∀ {fd : ℕ} {o : Option (Option Binding)}, Function.update r fd o i ≠ r i → i = fd :=
    fun {fd o} h => by
      by_contra hne
      exact h (Function.update_of_ne hne _ _)
  cases e with
  | accepted fd => exact Or.inl (hupd h ▸ rfl)
  | closed fd => exact Or.inr (Or.inl (hupd h ▸ rfl))
  | received fd text =>
    rcases ho : r fd with _ | o
    · simp only [follow, ho] at h
      exact absurd rfl h
    rcases hb : bindingOf text with _ | b
    · simp only [follow, ho, hb] at h
      exact absurd rfl h
    · simp only [follow, ho, hb] at h
      obtain rfl := hupd h
      exact Or.inr (Or.inr ⟨text, b, o, rfl, hb, ho⟩)
  | _ => exact absurd rfl h

/-- A connection stays open when it is neither closed nor followed by another. -/
theorem OpenedIn.snoc {tr : List Effect} {e : Effect} {i : ℕ} (h : OpenedIn tr i)
    (hacc : e ≠ .accepted i) (hcl : e ≠ .closed i) : OpenedIn (tr ++ [e]) i := by
  obtain ⟨before, after, rfl, hafter⟩ := h
  refine ⟨before, after ++ [e], by rw [List.append_assoc, List.cons_append], ?_⟩
  exact List.forall_mem_append.mpr ⟨hafter, List.forall_mem_singleton.mpr ⟨hacc, hcl⟩⟩

/-- What an open connection announces is its last binding then. -/
theorem OpenedIn.lastBind {tr : List Effect} {i : ℕ} {text : Bytes} {b : Binding}
    (h : OpenedIn tr i) (hb : bindingOf text = some b) :
    LastBind (tr ++ [.received i text]) i b := by
  obtain ⟨before, after, rfl, hafter⟩ := h
  refine ⟨before, after, text, [], ?_, ?_, hb, fun _ hm => absurd hm List.not_mem_nil⟩
  · simp only [List.append_assoc, List.cons_append]
  · rwa [List.append_nil]

/-- A binding stays the last one when the connection announces no other. -/
theorem LastBind.snoc {tr : List Effect} {e : Effect} {i : ℕ} {b : Binding}
    (h : LastBind tr i b) (hacc : e ≠ .accepted i) (hcl : e ≠ .closed i)
    (hquiet : ∀ text, e = .received i text → bindingOf text = none) :
    LastBind (tr ++ [e]) i b := by
  obtain ⟨before, mid, text, after, rfl, hgo, hb, hlast⟩ := h
  refine ⟨before, mid, text, after ++ [e], ?_, ?_, hb, fun text' hm => ?_⟩
  · simp only [List.append_assoc, List.cons_append]
  · rw [← List.append_assoc]
    exact List.forall_mem_append.mpr ⟨hgo, List.forall_mem_singleton.mpr ⟨hacc, hcl⟩⟩
  · rcases List.mem_append.mp hm with hm | hm
    · exact hlast text' hm
    · exact hquiet text' (List.mem_singleton.mp hm).symm

/-- **What the registry knows of an open connection** was known before the last
effect, or is announced by it. -/
theorem registry_snoc_cases {tr : List Effect} {e : Effect} {i : ℕ} {o : Option Binding}
    (h : registry (tr ++ [e]) i = some o) (hacc : e ≠ .accepted i) :
    e ≠ .closed i ∧ (registry tr i = some o
      ∨ ∃ text b o', e = .received i text ∧ bindingOf text = some b ∧ registry tr i = some o'
        ∧ o = some b) := by
  rw [registry_snoc] at h
  have hcl : e ≠ .closed i := by
    rintro rfl
    rw [follow, Function.update_self] at h
    cases h
  refine ⟨hcl, ?_⟩
  by_cases hsame : follow (registry tr) e i = registry tr i
  · exact Or.inl (hsame.symm.trans h)
  · rcases follow_of_ne hsame with h' | h' | ⟨text, b, o', rfl, hb, ho'⟩
    · exact absurd h' hacc
    · exact absurd h' hcl
    · rw [follow, ho', hb] at h
      dsimp only at h
      rw [Function.update_self] at h
      exact Or.inr ⟨text, b, o', rfl, hb, ho', (Option.some.inj h).symm⟩

theorem openedIn_of_registry {tr : List Effect} {i : ℕ} {o : Option Binding}
    (h : registry tr i = some o) : OpenedIn tr i := by
  induction tr using List.reverseRecOn generalizing o with
  | nil => cases h
  | append_singleton tr e ih =>
    by_cases hacc : e = .accepted i
    · exact ⟨tr, [], by rw [hacc], fun e he => absurd he List.not_mem_nil⟩
    · obtain ⟨hcl, hold | ⟨-, -, o', -, -, hold, -⟩⟩ := registry_snoc_cases h hacc
      · exact (ih hold).snoc hacc hcl
      · exact (ih hold).snoc hacc hcl

/-- **The registry is what the connections last announced.** -/
theorem lastBind_of_registry {tr : List Effect} {i : ℕ} {b : Binding}
    (h : registry tr i = some (some b)) : LastBind tr i b := by
  induction tr using List.reverseRecOn with
  | nil => cases h
  | append_singleton tr e ih =>
    have hacc : e ≠ .accepted i := by
      rintro rfl
      rw [registry_snoc, follow, Function.update_self] at h
      cases h
    obtain ⟨hcl, hold | ⟨text, b', o, rfl, hb', hold, hob⟩⟩ := registry_snoc_cases h hacc
    · by_cases hnew : ∃ text b', e = .received i text ∧ bindingOf text = some b'
      · -- the same binding again: the later announcement is the last one
        obtain ⟨text, b', rfl, hb'⟩ := hnew
        rw [registry_snoc, follow, hold, hb'] at h
        dsimp only at h
        rw [Function.update_self] at h
        obtain rfl : b' = b := Option.some.inj (Option.some.inj h)
        exact (openedIn_of_registry hold).lastBind hb'
      · refine (ih hold).snoc hacc hcl (fun text he => ?_)
        exact Option.eq_none_iff_forall_ne_some.mpr (fun b' hb' => hnew ⟨text, b', he, hb'⟩)
    · obtain rfl := Option.some.inj hob
      exact (openedIn_of_registry hold).lastBind hb'

/-- Between its accept and its end, a connection stays in the registry, and
keeps its binding until it announces another. -/
theorem foldl_follow_keep {es : List Effect} {i : ℕ} {r : Registry} {o : Option Binding}
    (hr : r i = some o) (hgo : ∀ e ∈ es, e ≠ .accepted i ∧ e ≠ .closed i) :
    ∃ o', es.foldl follow r i = some o'
      ∧ ((∀ text, .received i text ∈ es → bindingOf text = none) → o' = o) := by
  induction es generalizing r o with
  | nil => exact ⟨o, hr, fun _ => rfl⟩
  | cons e es ih =>
    have hes := fun e he => hgo e (List.mem_cons_of_mem _ he)
    by_cases hsame : follow r e i = r i
    · obtain ⟨o', ho', hkeep⟩ := ih (hsame.trans hr) hes
      exact ⟨o', ho', fun h => hkeep (fun text hm => h text (List.mem_cons_of_mem _ hm))⟩
    · rcases follow_of_ne hsame with h | h | ⟨text, b, o₁, rfl, hb, ho⟩
      · exact absurd h (hgo e List.mem_cons_self).1
      · exact absurd h (hgo e List.mem_cons_self).2
      · have hnew : follow r (.received i text) i = some (some b) := by
          simp only [follow, ho, hb, Function.update_self]
        obtain ⟨o', ho', -⟩ := ih hnew hes
        refine ⟨o', ho', fun h => ?_⟩
        rw [h text List.mem_cons_self] at hb
        cases hb

/-- **The registry knows a binding exactly when it is the last one of an open
connection.** -/
theorem registry_eq_bound_iff {tr : List Effect} {i : ℕ} {b : Binding} :
    registry tr i = some (some b) ↔ LastBind tr i b := by
  refine ⟨lastBind_of_registry, ?_⟩
  rintro ⟨before, mid, text, after, rfl, hgo, hb, hlast⟩
  rw [registry_append, List.foldl_cons, List.foldl_append, List.foldl_cons]
  have hacc : follow (registry before) (.accepted i) i = some none := Function.update_self ..
  obtain ⟨o, ho, -⟩ := foldl_follow_keep hacc (fun e he => hgo e (List.mem_append_left _ he))
  have hrec : follow (mid.foldl follow (follow (registry before) (.accepted i)))
      (.received i text) i = some (some b) := by
    simp only [follow] at ho ⊢
    simp only [ho, hb, Function.update_self]
  obtain ⟨o', ho', hkeep⟩ := foldl_follow_keep hrec
    (fun e he => hgo e (List.mem_append_right _ he))
  rw [ho', hkeep hlast]

/-! ## The table refines the registry -/

/-- A slot represents what the registry knows. -/
def Represents (c : ClientInfo) : Option (Option Binding) → Prop
  | none => c.enable = false
  | some none => c.enable = true ∧ c.esp8266 = false
  | some (some b) => c.enable = true ∧ c.esp8266 = true ∧ Stores c b

/-- **The table represents the registry**, and the port of the notice service
is the one the server was started with. -/
structure Refines (portWarn : UInt16) (s : Server) (tr : List Effect) : Prop where
  slot : ∀ i, Represents (s.clientList i) (registry tr i)
  port : s.epoll.mPtr = some portWarn

theorem represents_update {list : ClientList} {r : Registry} {c : ClientInfo}
    {o : Option (Option Binding)} (h : ∀ i, Represents (list i) (r i)) (hc : Represents c o)
    (fd i : ℕ) : Represents (Function.update list fd c i) (Function.update r fd o i) := by
  by_cases hi : i = fd
  · subst hi
    rw [Function.update_self, Function.update_self]
    exact hc
  · rw [Function.update_of_ne hi, Function.update_of_ne hi]
    exact h i

/-- A slot that is not in use belongs to no open connection. -/
theorem Agrees.enable_of_closed {listen fd : ℕ} {s : Server} (h : Agrees listen s)
    (hfd : fd ∉ s.epoll.kernel.opened) : (s.clientList fd).enable = false := by
  refine Bool.eq_false_iff.mpr (fun hen => hfd ?_)
  rw [h.watches.opened]
  exact Finset.mem_insert_of_mem (h.mem hen)

/-- What the registry learns from a request, the slot learns too. -/
theorem represents_request {c : ClientInfo} {o : Option Binding} (text : Bytes) (timestamp : ℕ)
    (h : Represents c (some o)) :
    Represents { bound c (requestOf text) with timestamp := timestamp }
      (some ((bindingOf text).or o)) := by
  rcases bound_cases text with ⟨hnone, hbound⟩ | ⟨b, args, hb, hreq, hst⟩
  · rw [hnone, hbound, Option.none_or]
    cases o <;> exact h
  · rw [hb, hreq, Option.some_or]
    have hen : c.enable = true := by
      cases o
      · exact h.1
      · exact h.1
    exact ⟨hen, rfl, hst c⟩

/-- The registry after a request, on a descriptor where a connection is
open. -/
theorem follow_received {r : Registry} {fd : ℕ} {o : Option Binding} (text : Bytes)
    (h : r fd = some o) :
    follow r (.received fd text) = Function.update r fd (some ((bindingOf text).or o)) := by
  rcases hb : bindingOf text with _ | b
  · simp only [follow, h, hb, Option.none_or]
    rw [← h, Function.update_eq_self]
  · simp only [follow, h, hb, Option.some_or]

/-- **Every action keeps the refinement.** -/
theorem Action.refines {listen : ℕ} {portWarn : UInt16} {s s' : Server} {tr es : List Effect}
    (hag : Agrees listen s) (h : Refines portWarn s tr) (ha : Action listen s es s') :
    Refines portWarn s' (tr ++ es) := by
  cases ha with
  | idle phase t => exact ⟨by rw [List.append_nil]; exact h.slot, h.port⟩
  | look hi =>
    refine ⟨fun i => ?_, h.port⟩
    rw [registry_snoc]
    exact h.slot i
  | @letIn fd now addr e hnew hfd hptr he =>
    refine ⟨fun i => ?_, hptr.trans h.port⟩
    rw [registry_append]
    exact represents_update h.slot (show Represents (newClient now addr) (some none) from
      ⟨rfl, rfl⟩) fd i
  | @refuse fd e hnew hptr he =>
    refine ⟨fun i => ?_, hptr.trans h.port⟩
    have hsame := represents_update h.slot
      (show Represents (s.clientList fd) none from hag.enable_of_closed hnew) fd i
    rw [Function.update_eq_self] at hsame
    rw [registry_append]
    show Represents (s.clientList i)
      (Function.update (Function.update (registry tr) fd (some none)) fd none i)
    rw [Function.update_idem]
    exact hsame
  | @drop fd t e hfd hptr he =>
    refine ⟨fun i => ?_, hptr.trans h.port⟩
    rw [registry_append]
    exact represents_update h.slot (show Represents
      { s.clientList fd with enable := false, timestamp := t } none from rfl) fd i
  | @request fd text now hfd =>
    obtain ⟨es', hes, hans⟩ := handleRequest_answers text now (hag.bounded fd hfd)
    obtain ⟨t, hlist⟩ := handleRequest_clientList s fd text now
    obtain ⟨o, ho⟩ : ∃ o, registry tr fd = some o := by
      have := h.slot fd
      cases hr : registry tr fd with
      | none =>
        rw [hr] at this
        exact absurd hfd (by rw [this]; exact Bool.false_ne_true)
      | some o => exact ⟨o, rfl⟩
    refine ⟨fun i => ?_, h.port⟩
    rw [hes, hlist, registry_append, List.foldl_cons, foldl_follow_answers hans,
      follow_received text ho]
    exact represents_update h.slot (represents_request text t (ho ▸ h.slot fd)) fd i

variable {memory : ClientList} {listenFd : ℕ} {portWarn : UInt16} {labels : List Label}
  {s : Server} {tr : List Effect}

/-- **The table represents the registry in every execution.** -/
theorem execute_refines (hsmall : ∀ l ∈ labels, ∀ x ∈ l.admitted, x < slots)
    (h : execute memory listenFd portWarn labels = some (s, tr)) :
    Refines portWarn s tr ∧ Agrees listenFd s := by
  obtain ⟨href, hsess⟩ := execute_invariant (Refines portWarn)
    ⟨fun i => by
      have := registry_boot []
      rw [List.append_nil] at this
      rw [this]
      rfl, rfl⟩
    (fun hag hi ha => ha.refines hag hi) hsmall h
  exact ⟨href, hsess.agrees⟩

/-! ## Where a request goes -/

/-- The connection on a descriptor stores a key: it has bound, and the first
15 bytes of the key it announced are that key. -/
def Bound (tr : List Effect) (i : ℕ) (key : Bytes) : Prop :=
  ∃ b, registry tr i = some (some b) ∧ b.key.take 15 = key

/-- The slots of bound connections are the ones the search finds. -/
theorem Refines.holds_iff {i : ℕ} {key : Bytes} (h : Refines portWarn s tr) :
    holds (s.clientList i) key = true ↔ Bound tr i key := by
  have hslot := h.slot i
  simp only [holds, Bool.and_eq_true, beq_iff_eq, Bound]
  cases hr : registry tr i with
  | none =>
    rw [hr] at hslot
    have hslot : (s.clientList i).enable = false := hslot
    simp [hslot]
  | some o =>
    rw [hr] at hslot
    cases o with
    | none =>
      have hesp : (s.clientList i).esp8266 = false := hslot.2
      simp [hesp]
    | some b =>
      obtain ⟨hen, hesp, hkey, -, -⟩ := hslot
      rw [hen, hesp, hkey]
      simp

theorem lookup_eq_some_iff {list : ClientList} {key : Bytes} {i : ℕ} :
    lookup list key = some i ↔
      i < slots ∧ holds (list i) key = true ∧ ∀ j < i, ¬ holds (list j) key = true := by
  rw [lookup, List.find?_range_eq_some]
  simp only [List.mem_range, Bool.not_eq_true', Bool.not_eq_true]
  constructor
  · rintro ⟨hk, hi, hmin⟩
    exact ⟨hi, hk, hmin⟩
  · rintro ⟨hi, hk, hmin⟩
    exact ⟨hk, hi, hmin⟩

/-- **The search finds the lowest descriptor whose connection stores the
key.** -/
theorem lookup_of_least {i : ℕ} {key : Bytes} (h : Refines portWarn s tr) (hag : Agrees listenFd s)
    (hi : Bound tr i key) (hmin : ∀ j < i, ¬ Bound tr j key) :
    lookup s.clientList key = some i := by
  have hk := h.holds_iff.mpr hi
  have hen : (s.clientList i).enable = true := by
    simp only [holds, Bool.and_eq_true] at hk
    exact hk.1.1
  exact lookup_eq_some_iff.mpr
    ⟨hag.bounded i hen, hk, fun j hj hkj => hmin j hj (h.holds_iff.mp hkj)⟩

theorem lookup_of_none {key : Bytes} (h : Refines portWarn s tr) (hnone : ∀ i, ¬ Bound tr i key) :
    lookup s.clientList key = none :=
  List.find?_eq_none.mpr (fun i _ hk => hnone i (h.holds_iff.mp hk))

/-! ## What a request sends -/

/-- **What the handler sends for a text.** -/
def sent (s : Server) (fd : ℕ) (text : Bytes) (now : ℕ) : List Effect :=
  (handleRequest s fd text now).2.filter Effect.isSend

/-- The reply with no response fits the buffer. -/
theorem snprintf_retStr (status : Bool) :
    (snprintf bufferSize (retStr status [])).1 = retStr status [] := by
  refine List.take_of_length_le ?_
  rw [bufferSize_eq]
  cases status <;> decide

theorem filter_isSend_access (l : List ℕ) :
    (l.map Effect.access).filter Effect.isSend = [] :=
  List.filter_eq_nil_iff.mpr (fun e he => by
    obtain ⟨i, -, rfl⟩ := List.mem_map.mp he
    exact Bool.false_ne_true)

/-- What is sent is what the branch sends, and the reply. -/
theorem sent_eq {s : Server} {fd : ℕ} {text : Bytes} {now : ℕ} {r : Request}
    (hr : requestOf text = r) (status : Bool) (hi : (perform s fd r).retToIgnore = false)
    (hs : (perform s fd r).retToClient = status) (hn : (perform s fd r).strSend = []) :
    sent s fd text now = (perform s fd r).effects.filter Effect.isSend
      ++ [.send fd (retStr status []) (retStr status []).length] := by
  rw [sent, handleRequest_effects, hr, reply_eq hi, hs, hn, snprintf_retStr]
  rw [List.filter_cons_of_neg (by exact Bool.false_ne_true), List.filter_append]
  cases status <;> rfl

/-- **A request for a key sends its message once, to the connection the
search finds**, and the reply. -/
theorem sent_of_forward {text key message : Bytes} (hreq : requestOf text = .forward key message)
    (s : Server) (fd now : ℕ) :
    sent s fd text now = match lookup s.clientList key with
      | none => [.send fd (retStr false []) (retStr false []).length]
      | some i => [.send i message message.length,
          .send fd (retStr true []) (retStr true []).length] := by
  obtain ⟨hpos, hlt⟩ := requestOf_message hreq
  have hwhole : (snprintf bufferSize message).1 = message :=
    List.take_of_length_le (by omega)
  have hperf : perform s fd (.forward key message) = _ := deliver_eq hpos
  cases hl : lookup s.clientList key with
  | none =>
    rw [hl] at hperf
    rw [sent_eq hreq false (by rw [hperf]; rfl) (by rw [hperf]; rfl)
      (by rw [hperf]; rfl), hperf]
    exact congrArg (· ++ _) (filter_isSend_access _)
  | some i =>
    rw [hl] at hperf
    rw [sent_eq hreq true (by rw [hperf]) (by rw [hperf]) (by rw [hperf]), hperf]
    dsimp only
    rw [List.filter_append, filter_isSend_access, hwhole]
    rfl

theorem sent_of_asks {text key message : Bytes} (h : Asks text key message) (s : Server)
    (fd now : ℕ) :
    sent s fd text now = match lookup s.clientList key with
      | none => [.send fd (retStr false []) (retStr false []).length]
      | some i => [.send i message message.length,
          .send fd (retStr true []) (retStr true []).length] :=
  sent_of_forward h.requestOf_eq s fd now

/-- **A warning of a bound connection sends one notice, with its own key**,
and the reply. -/
theorem sent_of_warn {text : Bytes} (h : member text (lit "cmd") = some (lit "warn"))
    {s : Server} {fd : ℕ} (now : ℕ) {port : UInt16} (hport : s.epoll.mPtr = some port)
    (hpos : 0 < port) (hen : (s.clientList fd).enable = true)
    (hesp : (s.clientList fd).esp8266 = true) :
    sent s fd text now = [.sendto port (noticeText (s.clientList fd).key.text)
        (noticeText (s.clientList fd).key.text).length,
      .send fd (retStr false []) (retStr false []).length] := by
  have hreq := requestOf_warn h
  have hwp : warnPort s fd = some port := by
    rw [warnPort, if_pos ⟨hen, hesp⟩, hport]
    simp [hpos]
  have hwhole : (snprintf bufferSize (noticeText (s.clientList fd).key.text)).1
      = noticeText (s.clientList fd).key.text := by
    rw [snprintf_of_lt (length_noticeText_lt (s.clientList fd).key.length_lt)]
  have hperf : perform s fd .warn = _ := warn_eq s fd
  rw [hwp, hwhole] at hperf
  rw [sent_eq hreq false (by rw [hperf]; rfl) (by rw [hperf]; rfl)
    (by rw [hperf]; rfl), hperf]
  rfl

end Server
