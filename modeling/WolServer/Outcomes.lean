import WolServer.Values

/-!
# What a request comes to

What every command is for, in the terms of a client: which slots of the table
the server looks at, what it sends to others, the status and the response of
the reply, and what the slot of the connection holds afterwards
(`Server.outcome`). It is written here once more, command by command and
without the flags and buffers of the handler, and the handler does just that
(`Server.handleRequest_eq`).

What was done says almost what was asked for. Requests that come to the same
are the same request, or two binds that store the same, or two messages for
keys that no bound connection has (`Server.done_eq_iff`).
-/

namespace Server

/-- **What a request comes to**, if it is replied to. -/
structure Outcome where
  /-- The slots of the table that are looked at. -/
  looks : List ℕ
  /-- What is sent to somebody else. -/
  passed : Option Effect
  /-- The status of the reply. -/
  status : Bool
  /-- The response of the reply. -/
  response : Bytes
  /-- What the slot of the connection holds afterwards. -/
  slot : ClientInfo

/-- A slot whose connection has ten seconds more. -/
def refreshed (c : ClientInfo) (now : ℕ) : ClientInfo := { c with timestamp := now + 10000000 }

/-- The notice of a warning. -/
def notice (c : ClientInfo) (port : UInt16) : Effect :=
  .sendto port (noticeText c.key.text) (noticeText c.key.text).length

/-- **What a request comes to**, of a connection at a time. A `response` comes
to nothing. -/
def outcome (s : Server) (fd now : ℕ) : Request → Option Outcome
  | .ignore => none
  | .bind args => some
      { looks := [fd]
        passed := none
        status := true
        response := []
        slot := refreshed { s.clientList fd with
          esp8266 := true
          key := CArray.print 16 args.key
          ssid := CArray.print 32 args.ssid
          lanIp := CArray.print 16 args.ip } now }
  | .clientList => some
      { looks := List.range slots
        passed := none
        status := true
        response := listText s.clientList
        slot := refreshed (s.clientList fd) now }
  | .forward key message =>
    match lookup s.clientList key with
    | none => some ⟨List.range slots, none, false, [], s.clientList fd⟩
    | some i => some
        { looks := List.range (i + 1)
          passed := some (.send i message message.length)
          status := true
          response := []
          slot := refreshed (s.clientList fd) now }
  | .warn => some
      { looks := [fd]
        passed := (warnPort s fd).map (notice (s.clientList fd))
        status := false
        response := []
        slot := s.clientList fd }
  | .beat => some ⟨[], none, true, [], refreshed (s.clientList fd) now⟩
  | .refuse => some ⟨[], none, false, [], s.clientList fd⟩

/-- A message for a key that nobody has is passed on to nobody. -/
theorem outcome_missed {s : Server} {key : Bytes} (h : lookup s.clientList key = none)
    (fd now : ℕ) (message : Bytes) : outcome s fd now (.forward key message)
      = some ⟨List.range slots, none, false, [], s.clientList fd⟩ := by
  rw [outcome, h]

/-- A message for the key of a connection is passed on to it. -/
theorem outcome_found {s : Server} {key : Bytes} {i : ℕ} (h : lookup s.clientList key = some i)
    (fd now : ℕ) (message : Bytes) : outcome s fd now (.forward key message)
      = some ⟨List.range (i + 1), some (.send i message message.length), true, [],
        refreshed (s.clientList fd) now⟩ := by
  rw [outcome, h]

namespace Outcome

/-- The reply. -/
def reply (o : Outcome) (fd : ℕ) : Effect :=
  .send fd (snprintf bufferSize (retStr o.status o.response)).1 (retStr o.status o.response).length

/-- What is done for an outcome: the looks, what is passed on, and the reply. -/
def effects (o : Outcome) (fd : ℕ) : List Effect :=
  o.looks.map .access ++ o.passed.toList
    ++ ((if o.status = true then [.access fd] else []) ++ [o.reply fd])

end Outcome

/-- **The server with what was done**, when a text was received. -/
def done (s : Server) (fd : ℕ) (text : Bytes) : Option Outcome → Server × List Effect
  | none => (s, [.received fd text])
  | some o => ({ s with clientList := Function.update s.clientList fd o.slot },
      .received fd text :: o.effects fd)

/-! ## The handler does it -/

/-- A branch and its reply do what an outcome says. -/
theorem handleRequest_of_perform {s : Server} {fd now : ℕ} {text : Bytes} {r : Request}
    {o : Outcome} (hreq : requestOf text = r) (hr : r ≠ .ignore)
    (heffects : (perform s fd r).effects = o.looks.map .access ++ o.passed.toList)
    (hstatus : (perform s fd r).retToClient = o.status)
    (hresponse : (perform s fd r).strSend = o.response)
    (hslot : (if o.status = true then refreshed (bound (s.clientList fd) r) now
      else bound (s.clientList fd) r) = o.slot) :
    handleRequest s fd text now = done s fd text (some o) := by
  have hreply := reply_eq (perform_retToIgnore s fd hr) fd now
  have hlist := perform_clientList s fd r
  rw [hstatus, hresponse] at hreply
  refine Prod.ext ?_ ?_
  · show { s with clientList := (reply (branch s fd text) fd now).1 } = _
    rw [branch_eq, hreq, hreply, done, ← hslot, hlist]
    cases o.status with
    | true =>
      simp only [if_true, Function.update_idem, Function.update_self, refreshed]
    | false => simp
  · show _ :: _ = _ :: _
    rw [branch_eq, hreq, hreply, heffects]
    rfl

/-- **The handler does what the request comes to.** -/
theorem handleRequest_eq (s : Server) (fd : ℕ) (text : Bytes) (now : ℕ) :
    handleRequest s fd text now = done s fd text (outcome s fd now (requestOf text)) := by
  cases hreq : requestOf text with
  | ignore =>
    refine Prod.ext ?_ ?_
    · show { s with clientList := (reply (branch s fd text) fd now).1 } = _
      rw [branch_eq, hreq]
      rfl
    · rw [handleRequest_effects, hreq]
      rfl
  | bind args => exact handleRequest_of_perform hreq Request.noConfusion rfl rfl rfl rfl
  | clientList =>
    exact handleRequest_of_perform hreq Request.noConfusion (List.append_nil _).symm rfl rfl rfl
  | beat => exact handleRequest_of_perform hreq Request.noConfusion rfl rfl rfl rfl
  | refuse => exact handleRequest_of_perform hreq Request.noConfusion rfl rfl rfl rfl
  | warn =>
    have hwarn := warn_eq s fd
    refine handleRequest_of_perform hreq Request.noConfusion ?_ ?_ ?_ rfl
    · rw [perform, hwarn, snprintf_of_lt (length_noticeText_lt (CArray.length_lt _))]
      cases warnPort s fd <;> rfl
    · rw [perform, hwarn]
      rfl
    · rw [perform, hwarn]
      rfl
  | forward key message =>
    obtain ⟨hpos, hlt⟩ := requestOf_message hreq
    have hdeliver : deliver s.clientList key message = _ := deliver_eq hpos
    cases hlook : lookup s.clientList key with
    | none =>
      rw [searched, hlook] at hdeliver
      rw [outcome_missed hlook]
      refine handleRequest_of_perform hreq Request.noConfusion ?_ ?_ ?_ ?_
      · rw [perform, hdeliver]
        exact (List.append_nil _).symm
      · rw [perform, hdeliver]
        rfl
      · rw [perform, hdeliver]
        rfl
      · rfl
    | some i =>
      rw [searched, hlook, snprintf_of_lt hlt] at hdeliver
      rw [outcome_found hlook]
      refine handleRequest_of_perform hreq Request.noConfusion ?_ ?_ ?_ ?_
      · rw [perform, hdeliver]
        rfl
      · rw [perform, hdeliver]
      · rw [perform, hdeliver]
      · rfl

/-! ## What was done says what was asked for -/

/-- The reply shows its status. -/
theorem Outcome.status_of_reply {o o' : Outcome} {fd : ℕ} (h : o.reply fd = o'.reply fd) :
    o.status = o'.status := by
  have hword : ∀ (status : Bool) (response : Bytes),
      (snprintf bufferSize (retStr status response)).1[10]?
        = some (if status = true then 116 else 102) := by
    intro status response
    rw [snprintf, List.getElem?_take_of_lt (by rw [bufferSize_eq]; decide)]
    cases status <;> rfl
  obtain ⟨-, hbuffer, -⟩ := Effect.send.inj h
  have heq := (hword o.status o.response).symm.trans
    ((congrArg (fun l : Bytes => l[10]?) hbuffer).trans (hword o'.status o'.response))
  cases ho : o.status <;> cases ho' : o'.status <;> simp [ho, ho'] at heq ⊢

/-- What is passed on is sent. -/
theorem outcome_passed {s : Server} {fd now : ℕ} {r : Request} {o : Outcome}
    (h : outcome s fd now r = some o) : ∀ e ∈ o.passed, e.isSend = true := by
  cases r with
  | ignore => cases h
  | warn =>
    obtain rfl := Option.some.inj h
    intro e he
    obtain ⟨port, -, rfl⟩ := Option.map_eq_some_iff.mp he
    rfl
  | forward key message =>
    cases hlook : lookup s.clientList key with
    | none =>
      rw [outcome_missed hlook] at h
      obtain rfl := Option.some.inj h
      exact fun e he => by cases he
    | some i =>
      rw [outcome_found hlook] at h
      obtain rfl := Option.some.inj h
      exact fun e he => by cases he; rfl
  | _ =>
    obtain rfl := Option.some.inj h
    exact fun e he => by cases he

/-- **The effects show the looks, what was passed on, and the status.** -/
theorem Outcome.eq_of_effects {o o' : Outcome} {fd : ℕ} (hp : ∀ e ∈ o.passed, e.isSend = true)
    (hp' : ∀ e ∈ o'.passed, e.isSend = true) (h : o.effects fd = o'.effects fd) :
    o.looks = o'.looks ∧ o.passed = o'.passed ∧ o.status = o'.status := by
  have hlooks : ∀ l : List ℕ, (l.map Effect.access).filter (fun e => !e.isSend)
      = l.map Effect.access := fun l => List.filter_eq_self.mpr (fun e he => by
    obtain ⟨i, -, rfl⟩ := List.mem_map.mp he
    rfl)
  have hnone : ∀ {p : Option Effect}, (∀ e ∈ p, e.isSend = true) →
      p.toList.filter (fun e => !e.isSend) = [] := fun hp =>
    List.filter_eq_nil_iff.mpr (fun e he => by rw [hp e (Option.mem_toList.mp he)]; decide)
  unfold effects at h
  rw [← List.append_assoc, ← List.append_assoc] at h
  obtain ⟨hfront, hreply⟩ := List.append_inj' h rfl
  have hstatus := status_of_reply (List.singleton_inj.mp hreply)
  rw [hstatus] at hfront
  have hdone := List.append_cancel_right hfront
  have hfilter := congrArg (List.filter (fun e => !e.isSend)) hdone
  rw [List.filter_append, List.filter_append, hlooks, hlooks, hnone hp, hnone hp',
    List.append_nil, List.append_nil] at hfilter
  have hl : o.looks = o'.looks :=
    List.map_injective_iff.mpr (fun _ _ h => Effect.access.inj h) hfilter
  rw [hl] at hdone
  refine ⟨hl, ?_, hstatus⟩
  have hpassed := List.append_cancel_left hdone
  cases h₁ : o.passed <;> cases h₂ : o'.passed <;> simp [h₁, h₂] at hpassed ⊢
  exact hpassed

/-- **Two requests that the table does not tell apart**: they are the same, or
they bind to the same, or they are for keys that no bound connection has. -/
inductive Alike (s : Server) : Request → Request → Prop where
  | same (r : Request) : Alike s r r
  | bind {args args' : BindArgs} (hkey : CArray.print 16 args.key = CArray.print 16 args'.key)
      (hssid : CArray.print 32 args.ssid = CArray.print 32 args'.ssid)
      (hip : CArray.print 16 args.ip = CArray.print 16 args'.ip) :
      Alike s (.bind args) (.bind args')
  | missed {key key' message message' : Bytes} (h : lookup s.clientList key = none)
      (h' : lookup s.clientList key' = none) :
      Alike s (.forward key message) (.forward key' message')

/-- Such requests come to the same. -/
theorem Alike.outcome_eq {s : Server} {r r' : Request} (h : Alike s r r') (fd now : ℕ) :
    outcome s fd now r = outcome s fd now r' := by
  cases h with
  | same => rfl
  | bind hkey hssid hip => simp only [outcome, hkey, hssid, hip]
  | missed h h' => rw [outcome_missed h, outcome_missed h']

/-- What tells requests apart: how many slots are looked at, whether something
is passed on, and the status. -/
def mark (s : Server) (fd : ℕ) : Request → ℕ × Bool × Bool
  | .ignore => (0, true, true)
  | .bind _ => (1, false, true)
  | .clientList => (slots, false, true)
  | .forward key _ =>
    (lookup s.clientList key).elim (slots, false, false) (fun i => (i + 1, true, true))
  | .warn => (1, (warnPort s fd).isSome, false)
  | .beat => (0, false, true)
  | .refuse => (0, false, false)

/-- An outcome has the mark of its request. -/
theorem mark_of_outcome {s : Server} {fd now : ℕ} {r : Request} {o : Outcome}
    (h : outcome s fd now r = some o) :
    (o.looks.length, o.passed.isSome, o.status) = mark s fd r := by
  cases r with
  | ignore => cases h
  | forward key message =>
    cases hlook : lookup s.clientList key with
    | none =>
      rw [outcome_missed hlook] at h
      obtain rfl := Option.some.inj h
      rw [mark, hlook, List.length_range]
      rfl
    | some i =>
      rw [outcome_found hlook] at h
      obtain rfl := Option.some.inj h
      rw [mark, hlook, List.length_range]
      rfl
  | clientList =>
    obtain rfl := Option.some.inj h
    rw [mark, List.length_range]
    rfl
  | warn =>
    obtain rfl := Option.some.inj h
    rw [mark, Option.isSome_map]
    rfl
  | _ =>
    obtain rfl := Option.some.inj h
    rfl

/-- A connection that is found stores the key. -/
theorem key_of_lookup {list : ClientList} {key : Bytes} {i : ℕ} (h : lookup list key = some i) :
    (list i).key.text = key := by
  have hholds : holds (list i) key = true :=
    List.find?_some (p := fun i => holds (list i) key) h
  rw [holds, Bool.and_eq_true, beq_iff_eq] at hholds
  exact hholds.2

/-- **Requests that come to the same are alike.** -/
theorem alike_of_outcome {s : Server} {fd now : ℕ} {r r' : Request} {o o' : Outcome}
    (h : outcome s fd now r = some o) (h' : outcome s fd now r' = some o')
    (heffects : o.effects fd = o'.effects fd) (hslot : o.slot = o'.slot) : Alike s r r' := by
  obtain ⟨hlooks, hpassed, hstatus⟩ :=
    Outcome.eq_of_effects (outcome_passed h) (outcome_passed h') heffects
  have hmark : mark s fd r = mark s fd r' := by
    rw [← mark_of_outcome h, ← mark_of_outcome h', hlooks, hpassed, hstatus]
  have hone : slots ≠ 1 ∧ slots ≠ 0 := by rw [slots_eq]; decide
  cases r with
  | ignore => cases h
  | forward key message =>
    cases hlook : lookup s.clientList key with
    | none =>
      cases r' with
      | forward key' message' =>
        cases hlook' : lookup s.clientList key' with
        | none => exact .missed hlook hlook'
        | some j => simp [mark, hlook, hlook'] at hmark
      | _ => simp [mark, hlook, hone] at hmark
    | some i =>
      cases r' with
      | forward key' message' =>
        cases hlook' : lookup s.clientList key' with
        | none => simp [mark, hlook, hlook'] at hmark
        | some j =>
          -- the message names the key and its connection
          rw [outcome_found hlook] at h
          rw [outcome_found hlook'] at h'
          obtain rfl := Option.some.inj h
          obtain rfl := Option.some.inj h'
          obtain ⟨rfl, rfl, -⟩ := Effect.send.inj (Option.some.inj hpassed)
          rw [← key_of_lookup hlook, ← key_of_lookup hlook']
          exact .same _
      | _ => simp [mark, hlook] at hmark
  | bind args =>
    cases r' with
    | bind args' =>
      obtain rfl := Option.some.inj h
      obtain rfl := Option.some.inj h'
      simp only [refreshed, ClientInfo.mk.injEq, true_and, and_true] at hslot
      exact .bind hslot.1 hslot.2.1 hslot.2.2
    | forward key' message' =>
      cases hlook' : lookup s.clientList key' <;> simp [mark, hlook', hone.1.symm] at hmark
    | _ => simp [mark, hone.1.symm] at hmark
  | _ =>
    cases r' with
    | forward key' message' =>
      cases hlook' : lookup s.clientList key' <;>
        simp [mark, hlook', hone.1.symm, hone.2.symm] at hmark
    | _ => first | exact .same _ | simp [mark, hone, hone.1.symm, hone.2.symm] at hmark

/-- Only a `response` comes to nothing. -/
theorem outcome_eq_none_iff {s : Server} {fd now : ℕ} {r : Request} :
    outcome s fd now r = none ↔ r = .ignore := by
  cases r with
  | ignore => exact iff_of_true rfl rfl
  | forward key message =>
    refine iff_of_false (fun h => ?_) Request.noConfusion
    cases hlook : lookup s.clientList key with
    | none => rw [outcome_missed hlook] at h; cases h
    | some i => rw [outcome_found hlook] at h; cases h
  | _ => exact iff_of_false (fun h => by cases h) Request.noConfusion

/-- A reply is sent for every outcome. -/
theorem Outcome.reply_mem (o : Outcome) (fd : ℕ) : o.reply fd ∈ o.effects fd :=
  List.mem_append_right _ (List.mem_append_right _ (List.mem_singleton_self _))

/-- **The same is done exactly for requests that are alike.** -/
theorem done_eq_iff (s : Server) (fd : ℕ) (text : Bytes) (now : ℕ) (r r' : Request) :
    done s fd text (outcome s fd now r) = done s fd text (outcome s fd now r') ↔ Alike s r r' := by
  refine ⟨fun h => ?_, fun h => by rw [h.outcome_eq]⟩
  have hquiet : ∀ {o : Outcome}, done s fd text none ≠ done s fd text (some o) := fun {o} h => by
    have heffects := (List.cons.inj (Prod.mk.inj h).2).2
    exact List.not_mem_nil (heffects ▸ o.reply_mem fd)
  cases ho : outcome s fd now r with
  | none =>
    cases ho' : outcome s fd now r' with
    | none =>
      rw [outcome_eq_none_iff.mp ho, outcome_eq_none_iff.mp ho']
      exact .same _
    | some o' => exact absurd (ho ▸ ho' ▸ h) hquiet
  | some o =>
    cases ho' : outcome s fd now r' with
    | none => exact absurd (ho ▸ ho' ▸ h).symm hquiet
    | some o' =>
      rw [ho, ho'] at h
      obtain ⟨htable, heffects⟩ := Prod.mk.inj h
      have hslot := congrFun (congrArg Server.clientList htable) fd
      dsimp only at hslot
      rw [Function.update_self, Function.update_self] at hslot
      exact alike_of_outcome ho ho' (List.cons.inj heffects).2 hslot

end Server
