import WolServer.Registry
import WolServer.Segmentation
import WolServer.FlatText

/-!
# What a request leaves alone

The handler is one long function. Its branches share a buffer, two flags and
the whole table, and each writes where it likes. What it comes to is small:
a request that is answered with `false`, and a `response`, leave the table
as it was, and a request that is answered with `true` writes the slot of its
own connection – the timeout, and for a `bind` the strings it announced, all
of them (`Server.request_local`).

The status is read off the effects (`Server.answer`), as the client reads it
off the wire. That it is the flag the branch has set is a lemma: no branch
sends anything that could be taken for a reply.
-/

namespace Server

/-! ## The answer -/

/-- The status of a reply to a descriptor, if the effect is one. -/
def statusOf (fd : ℕ) : Effect → Option Bool
  | .send i buffer _ =>
    if i ≠ fd then none
    else if (lit "\x7b\"status\":true").isPrefixOf buffer then some true
    else if (lit "\x7b\"status\":false").isPrefixOf buffer then some false
    else none
  | _ => none

/-- **The answer to a request**: the status of the first reply, if there is
one. -/
def answer (fd : ℕ) (es : List Effect) : Option Bool := es.findSome? (statusOf fd)

/-- What has a status is a reply. -/
theorem isReply_of_statusOf {fd : ℕ} {e : Effect} {status : Bool}
    (h : statusOf fd e = some status) : isReply fd e = true := by
  have hfront : ∀ {p : Bytes} {buffer : Bytes}, lit "\x7b\"status\":" <+: p →
      p.isPrefixOf buffer = true → (lit "\x7b\"status\":").isPrefixOf buffer = true :=
    fun hp hb => List.isPrefixOf_iff_prefix.mpr (hp.trans (List.isPrefixOf_iff_prefix.mp hb))
  cases e with
  | send i buffer size =>
    unfold statusOf at h
    dsimp only at h
    split_ifs at h with hi htrue hfalse
    · rw [isReply, beq_iff_eq.mpr (not_not.mp hi), Bool.true_and]
      exact hfront ⟨lit "true", rfl⟩ htrue
    · rw [isReply, beq_iff_eq.mpr (not_not.mp hi), Bool.true_and]
      exact hfront ⟨lit "false", rfl⟩ hfalse
  | _ => cases h

/-- The reply carries the status it was printed with. -/
theorem statusOf_reply (fd : ℕ) (status : Bool) (response : Bytes) (size : ℕ) :
    statusOf fd (.send fd (snprintf bufferSize (retStr status response)).1 size)
      = some status := by
  have hfront : ∀ p : Bytes, p <+: retStr status response → p.length ≤ bufferSize - 1 →
      p <+: (snprintf bufferSize (retStr status response)).1 :=
    fun p hp hlen => List.prefix_take_iff.mpr ⟨hp, hlen⟩
  unfold statusOf
  dsimp only
  rw [if_neg (not_not.mpr rfl)]
  cases status with
  | true =>
    refine if_pos (List.isPrefixOf_iff_prefix.mpr (hfront _ ?_ ?_))
    · exact ⟨_, rfl⟩
    · rw [bufferSize_eq]
      decide
  | false =>
    have hp : lit "\x7b\"status\":false" <+: retStr false response := ⟨_, rfl⟩
    have hprefix := hfront _ hp (by rw [bufferSize_eq]; decide)
    rw [if_neg, if_pos (List.isPrefixOf_iff_prefix.mpr hprefix)]
    -- both words at once would make the shorter one a prefix of the longer
    intro htrue
    have := List.prefix_of_prefix_length_le (List.isPrefixOf_iff_prefix.mp htrue) hprefix
      (by decide)
    exact absurd this (by decide)

/-- What is not replied to has not succeeded. -/
theorem retToClient_of_ignored {s : Server} {fd : ℕ} {r : Request}
    (h : (perform s fd r).retToIgnore = true) : (perform s fd r).retToClient = false := by
  cases r with
  | ignore => rfl
  | _ =>
    rw [perform_retToIgnore s fd Request.noConfusion] at h
    cases h

/-- **The answer is the status the branch has set**, and a `response` gets
none. -/
theorem answer_handleRequest (s : Server) (fd : ℕ) (text : Bytes) (now : ℕ) :
    answer fd (handleRequest s fd text now).2
      = if IsResponse text then none
        else some (perform s fd (requestOf text)).retToClient := by
  have hbranch : (perform s fd (requestOf text)).effects.findSome? (statusOf fd) = none := by
    refine List.findSome?_eq_none_iff.mpr (fun e he => ?_)
    cases hst : statusOf fd e with
    | none => rfl
    | some status =>
      have := (isReply_of_statusOf hst).symm.trans (perform_isReply s fd fd text e he)
      cases this
  rw [answer, handleRequest_effects, List.findSome?_cons_of_isNone rfl, List.findSome?_append,
    hbranch, Option.none_or]
  by_cases hresponse : IsResponse text
  · rw [(requestOf_eq_ignore_iff text).mpr hresponse, if_pos hresponse]
    rfl
  · rw [reply_eq (perform_retToIgnore s fd (mt (requestOf_eq_ignore_iff text).mp hresponse)),
      if_neg hresponse, List.findSome?_append]
    have hlook : ∀ status : Bool,
        (if status = true then [Effect.access fd] else []).findSome? (statusOf fd) = none :=
      fun status => by cases status <;> rfl
    rw [hlook, Option.none_or, List.findSome?_cons, statusOf_reply]

theorem answer_eq_true_iff (s : Server) (fd : ℕ) (text : Bytes) (now : ℕ) :
    answer fd (handleRequest s fd text now).2 = some true
      ↔ (perform s fd (requestOf text)).retToClient = true := by
  rw [answer_handleRequest]
  by_cases hresponse : IsResponse text
  · rw [if_pos hresponse, (requestOf_eq_ignore_iff text).mpr hresponse]
    exact ⟨fun h => (by cases h), fun h => (by cases h)⟩
  · rw [if_neg hresponse, Option.some_inj]

/-- **A reply of true goes to the requester only**, and only if the branch has
set the flag. -/
theorem exists_statusOf_iff (s : Server) (fd i : ℕ) (text : Bytes) (now : ℕ) :
    (∃ e ∈ (handleRequest s fd text now).2, statusOf i e = some true)
      ↔ i = fd ∧ (perform s fd (requestOf text)).retToClient = true := by
  have hbranch : ∀ e ∈ (perform s fd (requestOf text)).effects, statusOf i e ≠ some true :=
    fun e he hst => by
      have := (isReply_of_statusOf hst).symm.trans (perform_isReply s i fd text e he)
      cases this
  rw [handleRequest_effects]
  cases hignore : (perform s fd (requestOf text)).retToIgnore with
  | true =>
    rw [reply, if_pos hignore, retToClient_of_ignored hignore]
    constructor
    · rintro ⟨e, he, hst⟩
      rcases List.mem_cons.mp he with rfl | he
      · cases hst
      · exact absurd hst (hbranch e (by simpa using he))
    · rintro ⟨-, h⟩
      cases h
  | false =>
    rw [reply_eq hignore]
    constructor
    · rintro ⟨e, he, hst⟩
      simp only [List.mem_cons, List.mem_append, List.not_mem_nil, or_false] at he
      rcases he with rfl | he | he | rfl
      · cases hst
      · exact absurd hst (hbranch e he)
      · split at he
        · rw [List.mem_singleton.mp he] at hst
          cases hst
        · exact absurd he List.not_mem_nil
      · have hi : fd = i := by
          by_contra hne
          unfold statusOf at hst
          dsimp only at hst
          rw [if_pos hne] at hst
          cases hst
        subst hi
        rw [statusOf_reply] at hst
        exact ⟨rfl, Option.some.inj hst⟩
    · rintro ⟨rfl, htrue⟩
      refine ⟨_, List.mem_cons_of_mem _ (List.mem_append_right _
        (List.mem_append_right _ (List.mem_singleton_self _))), ?_⟩
      rw [statusOf_reply, htrue]

/-! ## The table -/

/-- Only a `bind` that is accepted fills in a slot. -/
theorem bound_of_refused (s : Server) (fd : ℕ) {r : Request} (c : ClientInfo)
    (h : (perform s fd r).retToClient = false) : bound c r = c := by
  cases r with
  | bind args => cases h
  | _ => rfl

/-- **The table after a request.** -/
theorem handleRequest_table (s : Server) (fd : ℕ) (text : Bytes) (now : ℕ) :
    (handleRequest s fd text now).1.clientList
      = if (perform s fd (requestOf text)).retToClient = true then
          Function.update s.clientList fd
            { bound (s.clientList fd) (requestOf text) with timestamp := now + 10000000 }
        else s.clientList := by
  have hlist := perform_clientList s fd (requestOf text)
  have hrefused : (perform s fd (requestOf text)).retToClient = false →
      (perform s fd (requestOf text)).clientList = s.clientList := fun h => by
    rw [hlist, bound_of_refused s fd _ h, Function.update_eq_self]
  show (reply (branch s fd text) fd now).1 = _
  rw [branch_eq]
  cases hignore : (perform s fd (requestOf text)).retToIgnore with
  | true =>
    have hstatus := retToClient_of_ignored hignore
    rw [reply, if_pos hignore, hstatus, if_neg Bool.false_ne_true]
    exact hrefused hstatus
  | false =>
    rw [reply_eq hignore]
    cases hstatus : (perform s fd (requestOf text)).retToClient with
    | true =>
      simp only [if_true]
      rw [hlist, Function.update_idem, Function.update_self]
    | false =>
      simp only [if_neg Bool.false_ne_true]
      exact hrefused hstatus

/-- The strings of a slot are replaced together, by a `bind` that is
accepted. -/
theorem bound_eq (c : ClientInfo) (text : Bytes) :
    (bindingOf text = none ∧ bound c (requestOf text) = c)
      ∨ ∃ b key ssid lanIp, bindingOf text = some b
        ∧ bound c (requestOf text)
          = { c with esp8266 := true, key := key, ssid := ssid, lanIp := lanIp }
        ∧ key.text = b.key.take 15 ∧ ssid.text = b.ssid.take 31
        ∧ lanIp.text = b.ip.take 15 := by
  rcases bound_cases text with ⟨hnone, hsame⟩ | ⟨b, args, hb, hreq, hst⟩
  · exact Or.inl ⟨hnone, hsame c⟩
  · rw [hreq]
    exact Or.inr ⟨b, _, _, _, hb, rfl, hst c⟩

/-! ## The effect of a request -/

/-- The handler is called for a client, on data that ends in no close. -/
theorem Agrees.handleSocket_eq {listen fd : ℕ} {s : Server} {env : Env} (h : Agrees listen s)
    (hfd : (s.clientList fd).enable = true) (henv : env.closed = false) :
    handleSocket s fd env = handleRequest s fd (drain env.chunks) env.now := by
  have hlisten : ¬ s.epoll.checkListen fd = true := fun hl =>
    h.watches.separate (h.watches.checkListen_iff.mp hl ▸ h.mem hfd)
  rw [handleSocket, if_neg hlisten, henv, if_neg Bool.false_ne_true]

variable {memory : ClientList} {listenFd : ℕ} {portWarn : UInt16} {labels : List Label}
  {s : Server} {tr : List Effect}

/-- **The effect of a request is atomic and local.** In every state of every
execution that lets in descriptors of the table only, whatever an enabled
connection sends that does not end in a close: a `response`, and it alone,
gets no answer; if there is none, or it is `false`, the table stays as it is;
if it is `true`, the slot of the connection has a new timeout, and if a
binding was announced it stores that one, and is marked as bound, and nothing
else in it has changed. No other slot changes, nor anything of the epoll
object. -/
theorem request_local (hsmall : ∀ l ∈ labels, ∀ x ∈ l.admitted, x < slots)
    (h : execute memory listenFd portWarn labels = some (s, tr)) {fd : ℕ}
    (hfd : (s.clientList fd).enable = true) {env : Env} (henv : env.closed = false) :
    (answer fd (handleSocket s fd env).2 = none ↔ IsResponse (drain env.chunks))
      ∧ (answer fd (handleSocket s fd env).2 ≠ some true →
        (handleSocket s fd env).1.clientList = s.clientList)
      ∧ (answer fd (handleSocket s fd env).2 = some true →
        (bindingOf (drain env.chunks) = none
            ∧ (handleSocket s fd env).1.clientList fd
              = { s.clientList fd with timestamp := env.now + 10000000 })
          ∨ ∃ b key ssid lanIp, bindingOf (drain env.chunks) = some b
            ∧ (handleSocket s fd env).1.clientList fd
              = { s.clientList fd with
                  timestamp := env.now + 10000000, esp8266 := true,
                  key := key, ssid := ssid, lanIp := lanIp }
            ∧ key.text = b.key.take 15 ∧ ssid.text = b.ssid.take 31
            ∧ lanIp.text = b.ip.take 15)
      ∧ (∀ i, i ≠ fd → (handleSocket s fd env).1.clientList i = s.clientList i)
      ∧ (handleSocket s fd env).1.epoll = s.epoll := by
  obtain ⟨-, hag⟩ := execute_refines hsmall h
  rw [hag.handleSocket_eq hfd henv]
  generalize drain env.chunks = text
  have htable := handleRequest_table s fd text env.now
  have htrue := answer_eq_true_iff s fd text env.now
  refine ⟨?_, fun hne => ?_, fun ht => ?_, fun i hi => ?_, rfl⟩
  · rw [answer_handleRequest]
    by_cases hr : IsResponse text <;> simp [hr]
  · rw [htable, if_neg (fun ht => hne (htrue.mpr ht))]
  · rw [htable, if_pos (htrue.mp ht), Function.update_self]
    rcases bound_eq (s.clientList fd) text with ⟨hnone, hsame⟩ | ⟨b, k, v, l, hb, hbound, hst⟩
    · rw [hsame]
      exact Or.inl ⟨hnone, rfl⟩
    · rw [hbound]
      exact Or.inr ⟨b, k, v, l, hb, rfl, hst⟩
  · rw [htable]
    split
    · exact Function.update_of_ne hi _ _
    · rfl

/-- A `beat` of a device refreshes its slot and changes nothing else. -/
theorem request_local_run :
    ∃ labels s tr, execute zeroMemory 3 50174 labels = some (s, tr)
      ∧ (s.clientList 5).enable = true
      ∧ (∀ i, i ≠ 5 → (handleSocket s 5 (receive (plainCommand (lit "beat")))).1.clientList i
        = s.clientList i)
      ∧ (handleSocket s 5 (receive (plainCommand (lit "beat")))).1.epoll = s.epoll := by
  obtain ⟨labels, s, tr, h, -, hsmall, hslot, -, -⟩ := execute_device (lit "a") (lit "s") (lit "i")
    (by simp [Bare, lit]) (by simp [Bare, lit]) (by simp [Bare, lit]) (by decide) (by decide)
  have hlocal := request_local hsmall h hslot.1 (show
    (receive (plainCommand (lit "beat"))).closed = false from rfl)
  exact ⟨labels, s, tr, h, hslot.1, hlocal.2.2.2.1, hlocal.2.2.2.2⟩

end Server
