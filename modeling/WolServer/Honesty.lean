import WolServer.Locality
import WolServer.Routing

/-!
# What a status of true means

A client that asks for a `wol`, a `shutdown` or a `reset` is told whether it
worked. What it is told is whether a connection of the key was found. The
message is then written to that connection with a `send` that does not
block, and what `send` returns is not looked at: if the socket takes a part
of the message or nothing at all, the client is told the same. And a
connection is found by the first 15 bytes of the key it announced, so the
message may go to one that announced a longer key.

So a status of true is honest exactly as long as the connection that the
search finds announced a key that fits its slot, and its socket takes the
whole message (`Server.honest_iff`). The results of `send` are a parameter
here, since nothing in the handler depends on them.
-/

namespace Server

/-- **What `send` returns** in a call of the handler, by descriptor and data:
how many bytes the socket takes, or an error. -/
abbrev SendResults := ℕ → Bytes → Option ℕ

/-- A `wol`, a `shutdown` and a `reset` ask for a message to the connection of
a key, or are refused. -/
theorem requestOf_cases {text cmd : Bytes} (hcmd : member text (lit "cmd") = some cmd)
    (hc : cmd ∈ [lit "wol", lit "shutdown", lit "reset"]) :
    (∃ key message, requestOf text = .forward key message) ∨ requestOf text = .refuse := by
  have hforward : ∀ root send, (∃ key message, forwardOf root send = .forward key message)
      ∨ forwardOf root send = .refuse := by
    intro root send
    unfold forwardOf
    split
    · split
      · split
        · exact Or.inr rfl
        · exact Or.inl ⟨_, _, rfl⟩
      · exact Or.inr rfl
    · exact Or.inr rfl
  have hreset : ∀ root, (∃ key message, resetOf root = .forward key message)
      ∨ resetOf root = .refuse := by
    intro root
    unfold resetOf
    split
    · exact Or.inr rfl
    · split
      · exact Or.inl ⟨_, _, rfl⟩
      · exact Or.inr rfl
  obtain ⟨root, hroot, htext⟩ := member_eq_some hcmd
  rw [requestOf_of_command hroot htext]
  simp only [List.mem_cons, List.not_mem_nil, or_false] at hc
  rcases hc with rfl | rfl | rfl
  · exact hforward root wolSend
  · exact hforward root shutdownSend
  · exact hreset root

theorem mem_sent_iff {s : Server} {fd : ℕ} {text : Bytes} {now i size : ℕ} {buffer : Bytes} :
    .send i buffer size ∈ (handleRequest s fd text now).2
      ↔ .send i buffer size ∈ sent s fd text now := by
  rw [sent, List.mem_filter]
  exact (and_iff_left rfl).symm

/-- A message for a connection is no reply. -/
theorem forward_ne_retStr {text key message : Bytes} (h : requestOf text = .forward key message)
    (status : Bool) (response : Bytes) : message ≠ retStr status response := by
  have hsecond : ∀ b, message[2]? ≠ some b ∨ b = 99 := by
    intro b
    rcases requestOf_forward h with ⟨mac, -, rfl | rfl⟩ | rfl <;>
      exact Decidable.or_iff_not_imp_right.mpr (fun hb h => hb (Option.some.inj h).symm)
  rintro rfl
  rcases hsecond 115 with h | h
  · exact h rfl
  · cases h

variable {memory : ClientList} {listenFd : ℕ} {portWarn : UInt16} {labels : List Label}
  {s : Server} {tr : List Effect}

/-- A connection has one last binding. -/
theorem LastBind.unique {i : ℕ} {b b' : Binding} (h : LastBind tr i b) (h' : LastBind tr i b') :
    b = b' :=
  Option.some.inj (Option.some.inj
    ((registry_eq_bound_iff.mpr h).symm.trans (registry_eq_bound_iff.mpr h')))

/-- A connection that is found has bound. -/
theorem Refines.lastBind_of_lookup (href : Refines portWarn s tr) {key : Bytes} {i : ℕ}
    (hlook : lookup s.clientList key = some i) : ∃ b, LastBind tr i b := by
  obtain ⟨b, hb, -⟩ := href.holds_iff.mp (lookup_eq_some_iff.mp hlook).2.1
  exact ⟨b, registry_eq_bound_iff.mp hb⟩

/-- It is found by the front of the key that it announced. -/
theorem Refines.take_of_lookup (href : Refines portWarn s tr) {key : Bytes} {i : ℕ} {b : Binding}
    (hlook : lookup s.clientList key = some i) (hb : LastBind tr i b) : b.key.take 15 = key := by
  obtain ⟨b', hb', hkey⟩ := href.holds_iff.mp (lookup_eq_some_iff.mp hlook).2.1
  rwa [hb.unique (registry_eq_bound_iff.mp hb')]

/-- **When a status of true is honest.** In every state of every execution that
lets in descriptors of the table only, for every `wol`, `shutdown` or `reset`
and whatever the calls of `send` return: a requester that is answered with true
has had its whole message accepted by the socket of a connection whose last
binding announced the requested key, if and only if the connection that the
search finds announced a key of 15 bytes at most and its socket takes all of
the message, or none is found. -/
theorem honest_iff (hsmall : ∀ l ∈ labels, ∀ x ∈ l.admitted, x < slots)
    (h : execute memory listenFd portWarn labels = some (s, tr)) {fd : ℕ}
    (hfd : (s.clientList fd).enable = true) {env : Env} (henv : env.closed = false) {cmd : Bytes}
    (hcmd : member (drain env.chunks) (lit "cmd") = some cmd)
    (hc : cmd ∈ [lit "wol", lit "shutdown", lit "reset"]) (results : SendResults) :
    (answer fd (handleSocket s fd env).2 = some true →
      ∃ key message i b, member (drain env.chunks) (lit "key") = some key
        ∧ requestOf (drain env.chunks) = .forward key message ∧ LastBind tr i b ∧ b.key = key
        ∧ .send i message message.length ∈ (handleSocket s fd env).2
        ∧ results i message = some message.length)
      ↔ ∀ key message i b, requestOf (drain env.chunks) = .forward key message →
        lookup s.clientList key = some i → LastBind tr i b →
          b.key.length ≤ 15 ∧ results i message = some message.length := by
  obtain ⟨href, hag⟩ := execute_refines hsmall h
  rw [hag.handleSocket_eq hfd henv]
  generalize drain env.chunks = text at hcmd ⊢
  have hanswer := answer_eq_true_iff s fd text env.now
  constructor
  · intro hhonest key message i b hreq hlook hb
    have hsent := sent_of_forward hreq s fd env.now
    rw [hlook] at hsent
    -- the search has found a connection, so the answer is true
    have htrue : answer fd (handleRequest s fd text env.now).2 = some true := by
      rw [hanswer, hreq, perform, deliver_eq (requestOf_message hreq).1, hlook]
    obtain ⟨key', message', i', b', -, hreq', hb', hkey', hmem, hres⟩ := hhonest htrue
    obtain ⟨rfl, rfl⟩ := Request.forward.inj (hreq.symm.trans hreq')
    rw [mem_sent_iff, hsent] at hmem
    rcases List.mem_cons.mp hmem with hm | hm
    · obtain ⟨rfl, -, -⟩ := Effect.send.inj hm
      obtain rfl := hb.unique hb'
      have hfront := href.take_of_lookup hlook hb
      rw [← hkey', List.take_eq_self_iff] at hfront
      exact ⟨hfront, hres⟩
    · exact absurd (Effect.send.inj (List.mem_singleton.mp hm)).2.1 (forward_ne_retStr hreq _ _)
  · intro hall htrue
    rw [hanswer] at htrue
    rcases requestOf_cases hcmd hc with ⟨key, message, hreq⟩ | hrefuse
    · cases hlook : lookup s.clientList key with
      | none =>
        rw [hreq, perform, deliver_eq (requestOf_message hreq).1, hlook] at htrue
        cases htrue
      | some i =>
        obtain ⟨k, hk, hcut⟩ := key_of_forward hreq
        obtain ⟨b, hb⟩ := href.lastBind_of_lookup hlook
        have hfront := href.take_of_lookup hlook hb
        obtain ⟨hfits, hres⟩ := hall key message i b hreq hlook hb
        -- a key that is found is shorter than the buffer, so it was read whole
        have hshort : key = k := by
          have hlen : key.length ≤ 15 := by
            rw [← hfront]
            exact List.length_take_le _ _
          rw [hcut, List.length_take] at hlen
          rw [hcut, List.take_of_length_le (by omega)]
        have hsent := sent_of_forward hreq s fd env.now
        rw [hlook] at hsent
        rw [List.take_of_length_le hfits] at hfront
        refine ⟨key, message, i, b, hshort ▸ hk, hreq, hb, hfront, ?_, hres⟩
        rw [mem_sent_iff, hsent]
        exact List.mem_cons_self
    · rw [hrefuse] at htrue
      cases htrue

theorem drain_resetText : drain (receive resetText).chunks = resetText := by decide

theorem member_resetText :
    member (drain (receive resetText).chunks) (lit "cmd") = some (lit "reset") := by
  rw [drain_resetText]
  cases asks_resetText with
  | reset hcmd => exact hcmd

/-- A client asks for the `reset` of a device, and the socket takes all of the
message. -/
theorem honest_run :
    ∃ labels s tr, execute zeroMemory 3 50174 labels = some (s, tr)
      ∧ lookup s.clientList (lit "a") = some 5
      ∧ (answer 6 (handleSocket s 6 (receive resetText)).2 = some true →
        ∃ key message i b, member (drain (receive resetText).chunks) (lit "key")
            = some key
          ∧ requestOf (drain (receive resetText).chunks) = .forward key message
          ∧ LastBind tr i b ∧ b.key = key
          ∧ .send i message message.length ∈ (handleSocket s 6 (receive resetText)).2
          ∧ some message.length = some message.length) := by
  obtain ⟨labels, s, tr, h, -, hsmall, -, hclient, hlook⟩ := execute_device (lit "a") (lit "s")
    (lit "i") (by simp [Bare, lit]) (by simp [Bare, lit]) (by simp [Bare, lit]) (by decide)
    (by decide)
  have hon : (s.clientList 6).enable = true := by rw [hclient]; rfl
  have hopen : (receive resetText).closed = false := rfl
  refine ⟨labels, s, tr, h, hlook, (honest_iff hsmall h hon hopen member_resetText (by decide)
    (fun _ message => some message.length)).mpr (fun key message i b hreq hfind hb => ⟨?_, rfl⟩)⟩
  rw [drain_resetText, asks_resetText.requestOf_eq] at hreq
  obtain ⟨rfl, -⟩ := Request.forward.inj hreq
  -- the key is its own front of 15 bytes
  have hlen := congrArg List.length ((execute_refines hsmall h).1.take_of_lookup hfind hb)
  rw [List.length_take, show (lit "a").length = 1 from rfl] at hlen
  omega

/-- A client asks for the `reset` of a device whose socket takes nothing, and
is told that it worked. -/
theorem true_without_delivery :
    ¬ ∀ (memory : ClientList) (listenFd : ℕ) (portWarn : UInt16) (labels : List Label)
      (s : Server) (tr : List Effect) (fd : ℕ) (env : Env) (cmd : Bytes) (results : SendResults),
      (∀ l ∈ labels, ∀ x ∈ l.admitted, x < slots) →
      execute memory listenFd portWarn labels = some (s, tr) →
      (s.clientList fd).enable = true → env.closed = false →
      member (drain env.chunks) (lit "cmd") = some cmd →
      cmd ∈ [lit "wol", lit "shutdown", lit "reset"] →
      answer fd (handleSocket s fd env).2 = some true →
      ∃ key message i b, member (drain env.chunks) (lit "key") = some key
        ∧ requestOf (drain env.chunks) = .forward key message ∧ LastBind tr i b ∧ b.key = key
        ∧ .send i message message.length ∈ (handleSocket s fd env).2
        ∧ results i message = some message.length := by
  intro hall
  obtain ⟨labels, s, tr, h, -, hsmall, -, hclient, hlook⟩ := execute_device (lit "a") (lit "s")
    (lit "i") (by simp [Bare, lit]) (by simp [Bare, lit]) (by simp [Bare, lit]) (by decide)
    (by decide)
  have hon : (s.clientList 6).enable = true := by rw [hclient]; rfl
  have hopen : (receive resetText).closed = false := rfl
  have htrue : answer 6 (handleSocket s 6 (receive resetText)).2 = some true := by
    obtain ⟨-, hag⟩ := execute_refines hsmall h
    have hreq := asks_resetText.requestOf_eq
    have hlook' : lookup s.clientList (lit "a") = some 5 := hlook
    rw [hag.handleSocket_eq hon hopen, drain_resetText, answer_eq_true_iff, hreq, perform,
      deliver_eq (requestOf_message hreq).1, hlook']
  obtain ⟨key, message, i, b, -, -, -, -, -, hres⟩ := hall _ _ _ _ _ _ 6 _ _ (fun _ _ => none)
    hsmall h hon hopen member_resetText (by decide) htrue
  cases hres

end Server
