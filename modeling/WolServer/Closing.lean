import WolServer.Honesty

/-!
# A request before a close

A client may send a request and close at once. The handler reads until there
is nothing more, and if what there is ends in the end of the stream, the
branch for a peer that has closed is taken: the connection is dropped, and
with it the data that was read before. If the end is not there yet, the data
is a request like any other, and the close is an event of its own.

So whether the request takes effect depends on when the end of the stream
comes in, unless it would have had no effect on others anyway
(`Server.close_iff`).
-/

namespace Server

/-- **What a call of the handler does for others**: what it sends, without the
reply. -/
def forwards (fd : ℕ) (es : List Effect) : List Effect :=
  es.filter (fun e => e.isSend && !isReply fd e)

/-- **The request has an effect on others**: there is a connection for its
message, or the warning can be passed on. -/
def HasEffect (s : Server) (fd : ℕ) (text : Bytes) : Prop :=
  (∃ key message i, requestOf text = .forward key message ∧ lookup s.clientList key = some i)
    ∨ (requestOf text = .warn ∧ warnPort s fd ≠ none)

theorem forwards_append (fd : ℕ) (es es' : List Effect) :
    forwards fd (es ++ es') = forwards fd es ++ forwards fd es' := List.filter_append _ _

/-- What sends nothing does nothing for others. -/
theorem forwards_of_quiet {fd : ℕ} {es : List Effect} (h : ∀ e ∈ es, e.isSend = false) :
    forwards fd es = [] :=
  List.filter_eq_nil_iff.mpr (fun e he => by rw [h e he]; exact Bool.false_ne_true)

/-- The reply is all that a request does for its own connection. -/
theorem forwards_handleRequest (s : Server) (fd : ℕ) (text : Bytes) (now : ℕ) :
    forwards fd (handleRequest s fd text now).2
      = (perform s fd (requestOf text)).effects.filter Effect.isSend := by
  have hbranch : forwards fd (perform s fd (requestOf text)).effects
      = (perform s fd (requestOf text)).effects.filter Effect.isSend :=
    List.filter_congr (fun e he => by
      rw [perform_isReply s fd fd text e he, Bool.not_false, Bool.and_true])
  have hreply : forwards fd (reply (perform s fd (requestOf text)) fd now).2 = [] := by
    cases hignore : (perform s fd (requestOf text)).retToIgnore with
    | true =>
      rw [reply, if_pos hignore]
      rfl
    | false =>
      rw [reply_eq hignore, forwards_append]
      have hlook : ∀ status : Bool,
          forwards fd (if status = true then [Effect.access fd] else []) = [] := fun status => by
        cases status <;> rfl
      rw [hlook, List.nil_append]
      refine List.filter_eq_nil_iff.mpr (fun e he => ?_)
      rw [List.mem_singleton.mp he, isReply_of_statusOf (statusOf_reply fd _ _ _)]
      simp
  rw [handleRequest_effects, ← List.singleton_append, forwards_append, forwards_append, hbranch,
    hreply, List.append_nil]
  rfl

/-- **A request sends something to others exactly if it has an effect on
them.** -/
theorem forwards_eq_nil_iff (s : Server) (fd : ℕ) (text : Bytes) (now : ℕ) :
    forwards fd (handleRequest s fd text now).2 = [] ↔ ¬ HasEffect s fd text := by
  rw [forwards_handleRequest, HasEffect]
  cases hreq : requestOf text with
  | forward key message =>
    rw [perform, deliver_eq (requestOf_message hreq).1]
    cases hlook : lookup s.clientList key with
    | none =>
      refine iff_of_true (filter_isSend_access _) ?_
      rintro (⟨key', message', i, hreq', hlook'⟩ | ⟨hreq', -⟩)
      · obtain ⟨rfl, rfl⟩ := Request.forward.inj hreq'
        rw [hlook] at hlook'
        cases hlook'
      · cases hreq'
    | some i =>
      refine iff_of_false (fun h => ?_) (not_not.mpr (Or.inl ⟨key, message, i, rfl, hlook⟩))
      dsimp only at h
      rw [List.filter_append, List.append_eq_nil_iff] at h
      cases h.2
  | warn =>
    rw [perform, warn_eq]
    cases hport : warnPort s fd with
    | none =>
      refine iff_of_true rfl ?_
      rintro (⟨_, _, _, hreq', -⟩ | ⟨-, hne⟩)
      · cases hreq'
      · exact hne rfl
    | some port =>
      refine iff_of_false (fun h => ?_) (not_not.mpr (Or.inr ⟨rfl, fun h => by cases h⟩))
      cases h
  | clientList =>
    refine iff_of_true (filter_isSend_access _) ?_
    rintro (⟨_, _, _, hreq', -⟩ | ⟨hreq', -⟩) <;> cases hreq'
  | bind args | ignore | beat | refuse =>
    refine iff_of_true rfl ?_
    rintro (⟨_, _, _, hreq', -⟩ | ⟨hreq', -⟩) <;> cases hreq'

/-- A call that sees the end of the stream sends nothing. -/
theorem quiet_of_closed {s s' : Server} {env : Env} {fd : ℕ} {rest : List ℕ} {es : List Effect}
    (hphase : s.phase = .dispatch (fd :: rest)) (hclosed : env.closed = true)
    (hs : step s (.handle env) = some (s', es)) : ∀ e ∈ es, e.isSend = false := by
  rcases step_reads hs with ⟨-, hquiet⟩ | ⟨fd', env', hreads, -⟩
  · exact hquiet
  · unfold reads at hreads
    rw [hphase] at hreads
    dsimp only at hreads
    rw [if_pos (Or.inr hclosed)] at hreads
    cases hreads

variable {memory : ClientList} {listenFd : ℕ} {portWarn : UInt16} {labels : List Label}
  {s : Server} {tr : List Effect}

/-- A call that sees no end of the stream handles the data as a request. -/
theorem request_of_open {listen : ℕ} {s s' : Server} {fd : ℕ} {rest : List ℕ} {env : Env}
    {es : List Effect} (hag : Agrees listen s) (hphase : s.phase = .dispatch (fd :: rest))
    (hfd : fd ≠ listen) (hs : step s (.handle { env with closed := false }) = some (s', es)) :
    es = (handleRequest s fd (drain env.chunks) env.now).2 := by
  have hlisten : ¬ s.epoll.checkListen fd = true := fun hl =>
    hfd (hag.watches.checkListen_iff.mp hl)
  have hreads : reads s (.handle { env with closed := false })
      = some (fd, { env with closed := false }) := by
    unfold reads
    rw [hphase]
    exact if_neg (not_or.mpr ⟨hlisten, Bool.false_ne_true⟩)
  rcases step_reads hs with ⟨hnone, -⟩ | ⟨fd', env₁, hsome, hes⟩
  · rw [hreads] at hnone
    cases hnone
  · obtain ⟨rfl, rfl⟩ := Prod.mk.inj (Option.some.inj (hreads.symm.trans hsome))
    exact hes

/-- **A request before a close takes effect exactly if the close is seen
later**, unless it has no effect on others. In every execution that lets in
descriptors of the table only, when the handler is called for a client, in
whatever pieces `recv` returns the request: if the end of the stream is seen
in the same call, what is done for others is the same as if it is seen in a
later one, exactly when the request has no effect on others. -/
theorem close_iff (hsmall : ∀ l ∈ labels, ∀ x ∈ l.admitted, x < slots)
    (h : execute memory listenFd portWarn labels = some (s, tr)) {fd : ℕ} {rest : List ℕ}
    (hphase : s.phase = .dispatch (fd :: rest)) (hfd : fd ≠ listenFd) {env env' : Env}
    {sₐ sᵦ s₁ s₂ : Server} {esₐ esᵦ tr₁ es₂ : List Effect} {between : List Label}
    (hsame : step s (.handle { env with closed := true }) = some (sₐ, esₐ))
    (hdata : step s (.handle { env with closed := false }) = some (sᵦ, esᵦ))
    (_hbetween : Runs.run step sᵦ between = some (s₁, tr₁)) {rest₁ : List ℕ}
    (hphase₁ : s₁.phase = .dispatch (fd :: rest₁)) (hclosed : env'.closed = true)
    (hlater : step s₁ (.handle env') = some (s₂, es₂)) :
    forwards fd esₐ = forwards fd (esᵦ ++ es₂) ↔ ¬ HasEffect s fd (drain env.chunks) := by
  obtain ⟨-, hag⟩ := execute_refines hsmall h
  rw [forwards_append, forwards_of_quiet (quiet_of_closed hphase rfl hsame),
    forwards_of_quiet (quiet_of_closed hphase₁ hclosed hlater), List.append_nil,
    request_of_open hag hphase hfd hdata, ← forwards_eq_nil_iff s fd (drain env.chunks) env.now]
  exact eq_comm

/-- The two ways in which the end of a stream comes in after a request. -/
theorem exists_close {listen fd : ℕ} {s : Server} (h : Idle listen s)
    (hfd : (s.clientList fd).enable = true) {text : Bytes} (hnul : (0 : UInt8) ∉ text)
    (hpos : 0 < text.length) (hlt : text.length < bufferSize) :
    ∃ sₐ esₐ sᵦ esᵦ s₁ s₂ es₂,
      Runs.run step s [.check 0, .wait [fd]] = some ({ s with phase := .dispatch [fd] }, [])
      ∧ step { s with phase := .dispatch [fd] } (.handle { receive text with closed := true })
        = some (sₐ, esₐ)
      ∧ step { s with phase := .dispatch [fd] } (.handle { receive text with closed := false })
        = some (sᵦ, esᵦ)
      ∧ Runs.run step sᵦ [.check 0, .wait [fd]] = some (s₁, []) ∧ s₁.phase = .dispatch [fd]
      ∧ step s₁ (.handle { quiet with closed := true }) = some (s₂, es₂) := by
  have hreg : ∀ {s : Server}, Agrees listen s → (s.clientList fd).enable = true →
      fd ∈ s.epoll.kernel.registered := fun hag hen => by
    rw [hag.watches.registered]
    exact Finset.mem_insert_of_mem (hag.mem hen)
  have hfit : ∀ chunk ∈ [text], 0 < chunk.length ∧ chunk.length ≤ bufferSize - 1 := by
    refine List.forall_mem_singleton.mpr ⟨hpos, ?_⟩
    omega
  obtain ⟨-, hidle⟩ := run_request h hfd hnul hpos hlt
  have hdrain : drain [text] = text := by
    rw [drain, List.flatMap_singleton, cstr_eq_self hnul]
  have hsocket : handleSocket s fd { receive text with closed := false }
      = handleRequest s fd text 0 := by
    rw [h.agrees.handleSocket_eq hfd rfl]
    exact congrArg (fun t => handleRequest s fd t 0) hdrain
  have hans : CanAnswer s.epoll fd { receive text with closed := false } :=
    ⟨fun p hp => (by cases hp), hfit⟩
  have hdata := step_handle hans
  rw [hsocket] at hdata
  have hfd' : ((handleRequest s fd text 0).1.clientList fd).enable = true := by
    rw [handleRequest_enable]
    exact hfd
  exact ⟨_, _, _, _, _, _, _, run_wait h (hreg h.agrees hfd),
    step_handle ⟨fun p hp => (by cases hp), hfit⟩, hdata, run_wait hidle (hreg hidle.agrees hfd'),
    rfl, step_handle ⟨fun p hp => (by cases hp), List.forall_mem_nil _⟩⟩

/-- A client asks for the `reset` of a device and closes, in both ways. -/
theorem exists_close_reset :
    ∃ labels s tr sₐ esₐ sᵦ esᵦ s₁ s₂ es₂, (∀ l ∈ labels, ∀ x ∈ l.admitted, x < slots)
      ∧ execute zeroMemory 3 50174 labels = some (s, tr) ∧ s.phase = .dispatch [6]
      ∧ lookup s.clientList (lit "a") = some 5
      ∧ step s (.handle { receive resetText with closed := true }) = some (sₐ, esₐ)
      ∧ step s (.handle { receive resetText with closed := false }) = some (sᵦ, esᵦ)
      ∧ Runs.run step sᵦ [.check 0, .wait [6]] = some (s₁, []) ∧ s₁.phase = .dispatch [6]
      ∧ step s₁ (.handle { quiet with closed := true }) = some (s₂, es₂) := by
  obtain ⟨labels, s, tr, h, hidle, hsmall, -, hclient, hlook⟩ := execute_device (lit "a") (lit "s")
    (lit "i") (by simp [Bare, lit]) (by simp [Bare, lit]) (by simp [Bare, lit]) (by decide)
    (by decide)
  have hon : (s.clientList 6).enable = true := by rw [hclient]; rfl
  have hnul : (0 : UInt8) ∉ resetText := by decide
  obtain ⟨sₐ, esₐ, sᵦ, esᵦ, s₁, s₂, es₂, hwait, hruns⟩ :=
    exists_close hidle hon hnul (by decide) (by rw [bufferSize_eq]; decide)
  exact ⟨_, _, _, sₐ, esₐ, sᵦ, esᵦ, s₁, s₂, es₂,
    List.forall_mem_append.mpr ⟨hsmall, by simp [Label.admitted]⟩, execute_append h hwait, rfl,
    hlook, hruns⟩

theorem close_run :
    ∃ labels s tr sₐ esₐ sᵦ esᵦ es₂, execute zeroMemory 3 50174 labels = some (s, tr)
      ∧ step s (.handle { receive resetText with closed := true }) = some (sₐ, esₐ)
      ∧ step s (.handle { receive resetText with closed := false }) = some (sᵦ, esᵦ)
      ∧ (forwards 6 esₐ = forwards 6 (esᵦ ++ es₂) ↔ ¬ HasEffect s 6 resetText) := by
  obtain ⟨labels, s, tr, sₐ, esₐ, sᵦ, esᵦ, s₁, s₂, es₂, hsmall, h, hphase, -, hsame, hdata,
    hbetween, hphase₁, hlater⟩ := exists_close_reset
  have hclose := close_iff hsmall h hphase (by decide) hsame hdata hbetween hphase₁ rfl hlater
  have hdrain : drain (receive resetText).chunks = resetText := drain_resetText
  refine ⟨labels, s, tr, sₐ, esₐ, sᵦ, esᵦ, es₂, h, hsame, hdata, ?_⟩
  rwa [hdrain] at hclose

/-- The `reset` is lost if the end of the stream comes in with it. -/
theorem request_lost_at_close :
    ¬ ∀ (memory : ClientList) (listenFd : ℕ) (portWarn : UInt16) (labels : List Label)
      (s : Server) (tr : List Effect) (fd : ℕ) (rest : List ℕ) (env env' : Env)
      (sₐ sᵦ s₁ s₂ : Server) (esₐ esᵦ tr₁ es₂ : List Effect) (between : List Label)
      (rest₁ : List ℕ), (∀ l ∈ labels, ∀ x ∈ l.admitted, x < slots) →
      execute memory listenFd portWarn labels = some (s, tr) →
      s.phase = .dispatch (fd :: rest) → fd ≠ listenFd →
      step s (.handle { env with closed := true }) = some (sₐ, esₐ) →
      step s (.handle { env with closed := false }) = some (sᵦ, esᵦ) →
      Runs.run step sᵦ between = some (s₁, tr₁) → s₁.phase = .dispatch (fd :: rest₁) →
      env'.closed = true → step s₁ (.handle env') = some (s₂, es₂) →
      forwards fd esₐ = forwards fd (esᵦ ++ es₂) := by
  intro hall
  obtain ⟨labels, s, tr, sₐ, esₐ, sᵦ, esᵦ, s₁, s₂, es₂, hsmall, h, hphase, hlook, hsame, hdata,
    hbetween, hphase₁, hlater⟩ := exists_close_reset
  have heq := hall _ _ _ _ _ _ _ _ (receive resetText) _ _ _ _ _ _ _ _ _ _ _ hsmall h hphase
    (by decide) hsame hdata hbetween hphase₁ rfl hlater
  obtain ⟨-, hag⟩ := execute_refines hsmall h
  have hdrain : drain (receive resetText).chunks = resetText := drain_resetText
  -- nothing is sent in the first way, so nothing may be in the second
  rw [forwards_append, forwards_of_quiet (quiet_of_closed hphase rfl hsame),
    forwards_of_quiet (quiet_of_closed hphase₁ rfl hlater), List.append_nil,
    request_of_open hag hphase (by decide) hdata, hdrain] at heq
  exact (forwards_eq_nil_iff s 6 resetText 0).mp heq.symm
    (Or.inl ⟨_, _, 5, asks_resetText.requestOf_eq, hlook⟩)

end Server
