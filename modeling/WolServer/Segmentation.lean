import WolServer.Outcomes
import WolServer.Session

/-!
# The stream to the server

`handle_socket` takes what one event brings for one request: it drains the
socket, parses a value at the front of what it got, and answers that. A TCP
stream has no such units. Commands that arrive together are taken for the
first of them, and a command that arrives in two events is none in either –
and gets two replies.

A stream is served when each of its commands has been carried out, once and in
order, and nothing else was done (`Server.Serves`): the table and the effects
of the calls of the handler are those that the commands ask for. A `response`
asks for nothing, and gets no reply. The stream is served exactly when the
events, those that read as a `response` left out, read as the commands do
(`Server.segmentation_iff`). So they do when every event brings whole commands
of which at most the first is no `response` – for instance one command,
however `recv` cuts it.
-/

namespace Server

open JsonText

/-! ## What an event brings -/

/-- The call of the handler in which a step reads from a descriptor: the state
of the server, and what the outside world answers. -/
def call (fd : ℕ) (s : Server) (l : Label) : Option (Server × Env) :=
  (reads s l).bind (fun r => if r.1 = fd then some (s, r.2) else none)

/-- **The calls of the handler that read from a descriptor**, in a run. -/
def calls (fd : ℕ) : Server → List Label → List (Server × Env)
  | _, [] => []
  | s, l :: ls =>
    match step s l with
    | none => []
    | some (s', _) => (call fd s l).toList ++ calls fd s' ls

/-- **The events of a descriptor** in a run, each with the results of
`recv`. -/
def events (fd : ℕ) (s : Server) (labels : List Label) : List (List Bytes) :=
  (calls fd s labels).map (fun c => c.2.chunks)

/-- The data of a call. -/
def dataOf (c : Server × Env) : Bytes := drain c.2.chunks

/-- The command is a `response`, which gets no reply. -/
def IsResponse (text : Bytes) : Prop := member text (lit "cmd") = some (lit "response")

instance (text : Bytes) : Decidable (IsResponse text) :=
  inferInstanceAs (Decidable (_ = _))

/-- The effect is a reply to a descriptor. -/
def isReply (fd : ℕ) : Effect → Bool
  | .send i buffer _ => i == fd && (lit "\x7b\"status\":").isPrefixOf buffer
  | _ => false

/-- **How many replies** a descriptor gets. -/
def replies (fd : ℕ) (tr : List Effect) : ℕ := tr.countP (isReply fd)

/-- **What is behind a command in the data of an event is not looked at.** -/
theorem requestOf_append {m : Bytes} (hm : IsObject m) (hzero : (0 : UInt8) ∉ m) (rest : Bytes) :
    requestOf (m ++ rest) = requestOf m := by
  obtain ⟨ms, hderives⟩ := hm
  have hfront := hderives.append (x := cstr rest) (fun _ _ _ h => by cases h)
  rw [requestOf_eq, requestOf_eq, rootOf, rootOf, cstr_append hzero, cstr_eq_self hzero,
    CJSON.parse_of_derives hfront, CJSON.parse_of_derives hderives]

/-- A `response` is what is ignored. -/
theorem requestOf_eq_ignore_iff (text : Bytes) : requestOf text = .ignore ↔ IsResponse text := by
  have hbind : ∀ root, bindOf root ≠ .ignore := fun root h => by
    unfold bindOf at h
    split at h <;> cases h
  have hforward : ∀ root send, forwardOf root send ≠ .ignore := fun root send h => by
    unfold forwardOf at h
    split at h
    · split at h
      · split at h <;> cases h
      · cases h
    · cases h
  have hreset : ∀ root, resetOf root ≠ .ignore := fun root h => by
    unfold resetOf at h
    split at h
    · cases h
    · split at h <;> cases h
  rw [IsResponse, member, requestOf_eq]
  cases rootOf text with
  | none => simp
  | some root =>
    rw [Option.bind_some]
    dsimp only
    rw [requestOfRoot_eq]
    cases LibJson.textValue root (lit "cmd") with
    | none => simp
    | some cmd =>
      rw [Option.some_inj]
      refine ⟨fun h => by_contra fun hne => ?_, fun h => by rw [h]; rfl⟩
      unfold requestOfCommand at h
      dsimp only at h
      rw [if_neg hne] at h
      split_ifs at h
      · exact hbind root h
      · exact hforward root _ h
      · exact hforward root _ h
      · exact hreset root h

/-! ## What is replied -/

theorem isSend_of_isReply {fd : ℕ} {e : Effect} (h : isReply fd e = true) : e.isSend = true := by
  cases e with
  | send => rfl
  | _ => cases h

theorem replies_append (fd : ℕ) (tr tr' : List Effect) :
    replies fd (tr ++ tr') = replies fd tr + replies fd tr' := List.countP_append

theorem replies_eq_zero {fd : ℕ} {es : List Effect} (h : ∀ e ∈ es, isReply fd e = false) :
    replies fd es = 0 := by
  refine List.countP_eq_zero.mpr (fun e he => ?_)
  rw [h e he]
  exact Bool.false_ne_true

/-- **No branch replies**: what it sends is a command. -/
theorem perform_isReply (s : Server) (fd fd' : ℕ) (text : Bytes) :
    ∀ e ∈ (perform s fd' (requestOf text)).effects, isReply fd e = false := by
  have hlook : ∀ l : List ℕ, ∀ e ∈ l.map Effect.access, isReply fd e = false := fun l e he => by
    obtain ⟨i, -, rfl⟩ := List.mem_map.mp he
    rfl
  cases hreq : requestOf text with
  | bind args => exact hlook [fd']
  | clientList => exact hlook _
  | ignore | beat | refuse => exact List.forall_mem_nil _
  | warn =>
    rw [perform, warn_eq]
    refine List.forall_mem_cons.mpr ⟨rfl, ?_⟩
    cases warnPort s fd' with
    | none => exact List.forall_mem_nil _
    | some port => exact List.forall_mem_singleton.mpr rfl
  | forward key message =>
    obtain ⟨hpos, hlt⟩ := requestOf_message hreq
    have hcmd : (lit "\x7b\"status\":").isPrefixOf message = false := by
      rcases requestOf_forward hreq with ⟨mac, -, rfl | rfl⟩ | rfl <;> rfl
    rw [perform, deliver_eq hpos]
    cases lookup s.clientList key with
    | none => exact hlook _
    | some i =>
      refine List.forall_mem_append.mpr ⟨hlook _, List.forall_mem_singleton.mpr ?_⟩
      rw [snprintf_of_lt hlt, isReply, hcmd, Bool.and_false]

/-- A reply starts with its status. -/
theorem isPrefixOf_reply (status : Bool) (response : Bytes) : (lit "\x7b\"status\":").isPrefixOf
    (snprintf bufferSize (retStr status response)).1 = true := by
  rw [List.isPrefixOf_iff_prefix, snprintf, List.prefix_take_iff]
  refine ⟨?_, by rw [bufferSize_eq]; decide⟩
  rw [retStr, List.append_assoc]
  exact List.prefix_append _ _

/-- A request is replied to once, unless it is a `response`. -/
theorem handleRequest_replies (s : Server) (fd fd' : ℕ) (text : Bytes) (now : ℕ) :
    replies fd (handleRequest s fd' text now).2
      = if fd' = fd ∧ ¬ IsResponse text then 1 else 0 := by
  have hlook : ∀ status : Bool,
      replies fd (if status = true then [Effect.access fd'] else []) = 0 := fun status => by
    cases status <;> rfl
  rw [handleRequest_effects, ← List.singleton_append, replies_append, replies_append,
    replies_eq_zero (perform_isReply s fd fd' text)]
  show 0 + (0 + _) = _
  rw [Nat.zero_add, Nat.zero_add]
  by_cases hresponse : IsResponse text
  · rw [(requestOf_eq_ignore_iff text).mpr hresponse, if_neg (fun h => h.2 hresponse)]
    rfl
  · have hreply := perform_retToIgnore s fd' (mt (requestOf_eq_ignore_iff text).mp hresponse)
    rw [reply_eq hreply, replies_append, hlook, Nat.zero_add]
    unfold replies
    rw [List.countP_singleton, isReply, isPrefixOf_reply, Bool.and_true]
    by_cases hfd : fd' = fd
    · rw [if_pos (beq_iff_eq.mpr hfd), if_pos ⟨hfd, hresponse⟩]
    · rw [if_neg (mt beq_iff_eq.mp hfd), if_neg (fun h => hfd h.1)]

/-- **A run replies once to every event** that is not taken for a
`response`. -/
theorem run_replies {s s' : Server} {labels : List Label} {tr : List Effect} (fd : ℕ)
    (hrun : Runs.run step s labels = some (s', tr)) :
    replies fd tr = (calls fd s labels).countP (fun c => ¬ IsResponse (dataOf c)) := by
  induction labels generalizing s tr with
  | nil =>
    obtain ⟨-, rfl⟩ := Prod.mk.inj (Option.some.inj hrun)
    rfl
  | cons l labels ih =>
    obtain ⟨s₁, es, tr₁, hs, hrest, rfl⟩ := Runs.run_cons_eq_some.mp hrun
    have hone : replies fd es
        = (call fd s l).toList.countP (fun c => ¬ IsResponse (dataOf c)) := by
      unfold call
      rcases step_reads hs with ⟨hreads, hquiet⟩ | ⟨fd', env, hreads, rfl⟩
      · rw [hreads]
        refine replies_eq_zero (fun e he => Bool.eq_false_iff.mpr (fun h => ?_))
        exact absurd ((isSend_of_isReply h).symm.trans (hquiet e he)) (by decide)
      · rw [hreads, handleRequest_replies, Option.bind_some]
        by_cases hfd : fd' = fd
        · rw [if_pos hfd, Option.toList_some, List.countP_singleton]
          by_cases hresponse : IsResponse (drain env.chunks) <;> simp [hfd, dataOf, hresponse]
        · rw [if_neg hfd, if_neg (fun h => hfd h.1)]
          rfl
    rw [replies_append, hone, ih hrest, calls, hs]
    dsimp only
    rw [List.countP_append]

/-! ## What is carried out -/

/-- The call sends something. -/
def Acts (fd : ℕ) (c : Server × Env) : Prop :=
  (handleSocket c.1 fd c.2).2.any Effect.isSend = true

instance (fd : ℕ) (c : Server × Env) : Decidable (Acts fd c) :=
  inferInstanceAs (Decidable (_ = _))

/-- **The call carries out a command**: the server that it leaves and its effects
are those that the command comes to. -/
def CarriesOut (fd : ℕ) (c : Server × Env) (m : Bytes) : Prop :=
  handleSocket c.1 fd c.2 = done c.1 fd (dataOf c) (outcome c.1 fd c.2.now (requestOf m))

/-- **The commands of a stream are carried out**, each once and in order, and
nothing else is done. -/
structure Serves (fd : ℕ) (cs : List (Server × Env)) (ms : List Bytes) : Prop where
  /-- The calls that send anything carry out the commands that are no
  `response`. -/
  carried : List.Forall₂ (CarriesOut fd) (cs.filter (Acts fd)) (ms.filter (¬ IsResponse ·))
  /-- The others leave the server as it is. -/
  idle : ∀ c ∈ cs, ¬ Acts fd c → handleSocket c.1 fd c.2 = (c.1, [.received fd (dataOf c)])

/-- **The events read as the commands do**, when what reads as a `response` is
left out. -/
def ReadsAs (cs : List (Server × Env)) (ms : List Bytes) : Prop :=
  List.Forall₂ (fun c m => Alike c.1 (requestOf (dataOf c)) (requestOf m))
    (cs.filter (fun c => ¬ IsResponse (dataOf c))) (ms.filter (¬ IsResponse ·))

/-- **Every event brings whole commands**, of which at most the first is no
`response`. -/
def Framed (es : List (List Bytes)) (ms : List Bytes) : Prop :=
  ∃ groups : List (List Bytes), groups.flatten = ms ∧ es.map List.flatten = groups.map List.flatten
    ∧ ∀ g ∈ groups, ∃ m rest, g = m :: rest ∧ ∀ r ∈ rest, IsResponse r

/-- Where data is read, the handler handles a request. -/
theorem handleSocket_of_reads {s : Server} {l : Label} {fd : ℕ} {env : Env}
    (h : reads s l = some (fd, env)) :
    handleSocket s fd env = handleRequest s fd (drain env.chunks) env.now := by
  cases l with
  | check now => cases h
  | wait events => cases h
  | handle env' =>
    unfold reads at h
    dsimp only at h
    split at h
    · split at h
      · cases h
      · rename_i hread
        obtain ⟨rfl, rfl⟩ := Prod.mk.inj (Option.some.inj h)
        obtain ⟨hlisten, hclosed⟩ := not_or.mp hread
        rw [handleSocket, if_neg hlisten, if_neg hclosed]
    · cases h

theorem handleSocket_of_mem_calls {fd : ℕ} {s : Server} {labels : List Label} {c : Server × Env}
    (hc : c ∈ calls fd s labels) :
    handleSocket c.1 fd c.2 = handleRequest c.1 fd (dataOf c) c.2.now := by
  induction labels generalizing s with
  | nil => exact absurd hc List.not_mem_nil
  | cons l labels ih =>
    rw [calls] at hc
    cases hs : step s l with
    | none =>
      rw [hs] at hc
      exact absurd hc List.not_mem_nil
    | some r =>
      rw [hs] at hc
      rcases List.mem_append.mp hc with hc | hc
      · obtain ⟨r', hreads, hr'⟩ := Option.bind_eq_some_iff.mp (Option.mem_toList.mp hc)
        split at hr'
        · rename_i hfd
          obtain rfl := Option.some.inj hr'
          subst hfd
          exact handleSocket_of_reads hreads
        · cases hr'
      · exact ih hc

/-- A call acts unless its data reads as a `response`. -/
theorem acts_iff {fd : ℕ} {c : Server × Env}
    (hc : handleSocket c.1 fd c.2 = handleRequest c.1 fd (dataOf c) c.2.now) :
    Acts fd c ↔ ¬ IsResponse (dataOf c) := by
  rw [Acts, hc, handleRequest_eq, ← requestOf_eq_ignore_iff,
    ← @outcome_eq_none_iff c.1 fd c.2.now]
  cases ho : outcome c.1 fd c.2.now (requestOf (dataOf c)) with
  | none => simp [done, Effect.isSend]
  | some o =>
    refine iff_of_true (List.any_eq_true.mpr ⟨o.reply fd, ?_, rfl⟩) (Option.some_ne_none o)
    exact List.mem_cons_of_mem _ (o.reply_mem fd)

/-- **The commands are carried out exactly if the events read as they do.** -/
theorem serves_iff {fd : ℕ} {cs : List (Server × Env)} (hcs : ∀ c ∈ cs,
      handleSocket c.1 fd c.2 = handleRequest c.1 fd (dataOf c) c.2.now) (ms : List Bytes) :
    Serves fd cs ms ↔ ReadsAs cs ms := by
  have hacts : cs.filter (Acts fd) = cs.filter (fun c => ¬ IsResponse (dataOf c)) :=
    List.filter_congr (fun c hc => decide_eq_decide.mpr (acts_iff (hcs c hc)))
  have hone : ∀ c ∈ cs, ∀ m,
      CarriesOut fd c m ↔ Alike c.1 (requestOf (dataOf c)) (requestOf m) := fun c hc m => by
    rw [CarriesOut, hcs c hc, handleRequest_eq, done_eq_iff]
  have hidle : ∀ c ∈ cs, ¬ Acts fd c → handleSocket c.1 fd c.2 = (c.1, [.received fd (dataOf c)]) :=
    fun c hc hquiet => by
      rw [acts_iff (hcs c hc), not_not, ← requestOf_eq_ignore_iff] at hquiet
      rw [hcs c hc, handleRequest_eq, hquiet]
      rfl
  constructor
  · intro h
    have hboth := (List.forall₂_and_left _ _).mpr
      ⟨fun c hc => (List.mem_filter.mp hc).1, hacts ▸ h.carried⟩
    exact hboth.imp (fun c m hcm => (hone c hcm.1 m).mp hcm.2)
  · intro h
    have hboth := (List.forall₂_and_left _ _).mpr ⟨fun c hc => (List.mem_filter.mp hc).1, h⟩
    exact ⟨hacts ▸ hboth.imp (fun c m hcm => (hone c hcm.1 m).mpr hcm.2), hidle⟩

/-- A stream without NULs is drained as it comes. -/
theorem drain_eq_flatten {chunks : List Bytes} (hzero : (0 : UInt8) ∉ chunks.flatten) :
    drain chunks = chunks.flatten := by
  have hcstr : ∀ chunk ∈ chunks, cstr chunk = chunk := fun chunk hchunk =>
    cstr_eq_self (fun h0 => hzero (List.mem_flatten.mpr ⟨chunk, hchunk, h0⟩))
  rw [drain, List.flatMap_def, List.map_congr_left hcstr, List.map_id']

/-- **Events that bring whole commands read as the first of them.** -/
theorem readsAs_of_framed {cs : List (Server × Env)} {ms : List Bytes}
    (hms : ∀ m ∈ ms, IsObject m ∧ (0 : UInt8) ∉ m)
    (h : Framed (cs.map (fun c => c.2.chunks)) ms) : ReadsAs cs ms := by
  obtain ⟨groups, rfl, hevents, hgroups⟩ := h
  induction cs generalizing groups with
  | nil =>
    obtain rfl := List.map_eq_nil_iff.mp hevents.symm
    exact List.Forall₂.nil
  | cons c cs ih =>
    cases groups with
    | nil => cases hevents
    | cons g groups =>
      obtain ⟨hevent, htail⟩ := List.cons.inj hevents
      obtain ⟨⟨m, rest, rfl, hrest⟩, hlater⟩ := List.forall_mem_cons.mp hgroups
      rw [List.flatten_cons, List.forall_mem_append] at hms
      obtain ⟨hg, hms⟩ := hms
      obtain ⟨hobject, hzero⟩ := hg m List.mem_cons_self
      -- the event is the command, and what is behind it
      have hdata : dataOf c = m ++ rest.flatten := by
        refine (drain_eq_flatten (fun h0 => ?_)).trans hevent
        rw [hevent] at h0
        obtain ⟨m', hm', h0⟩ := List.mem_flatten.mp h0
        exact (hg m' hm').2 h0
      have hrequest : requestOf (dataOf c) = requestOf m := by
        rw [hdata, requestOf_append hobject hzero]
      have hresponse : IsResponse (dataOf c) ↔ IsResponse m := by
        rw [← requestOf_eq_ignore_iff, ← requestOf_eq_ignore_iff, hrequest]
      have hnone : rest.filter (¬ IsResponse ·) = [] :=
        List.filter_eq_nil_iff.mpr (fun r hr => by simp [hrest r hr])
      have hrec := ih groups hms htail hlater
      unfold ReadsAs at hrec ⊢
      rw [List.flatten_cons, List.cons_append, List.filter_cons, List.filter_cons,
        List.filter_append, hnone, List.nil_append]
      by_cases hm : IsResponse m
      · rw [if_neg (by simp [hresponse, hm]), if_neg (by simp [hm])]
        exact hrec
      · rw [if_pos (by simp [hresponse, hm]), if_pos (by simp [hm])]
        exact List.Forall₂.cons (hrequest ▸ .same _) hrec

/-- The text of a command that has no other member. -/
def plainCommand (cmd : Bytes) : Bytes :=
  123 :: 34 :: (lit "cmd" ++ 34 :: 58 :: 34 :: (cmd ++ [34, 125]))

theorem isObject_plainCommand {cmd : Bytes} (h : Plain cmd) : IsObject (plainCommand cmd) :=
  ⟨_, Derives.obj (derives_lastMember (by simp [Plain, special, lit]) (derives_str h [125]))⟩

/-- The labels of a run in which descriptor 5 is let in and these are the
results of `recv` on it, event by event. -/
def streamLabels (es : List (List Bytes)) : List Label :=
  [.check 0, .wait [3], .handle { quiet with accept := some (5, ⟨192, 168, 0, 7⟩) }]
    ++ es.flatMap (fun chunks => [.check 0, .wait [5], .handle { quiet with chunks := chunks }])

/-- A `beat` and a `warn`. -/
def beatWarn : List Bytes := [plainCommand (lit "beat"), plainCommand (lit "warn")]

theorem isObject_beatWarn : ∀ m ∈ beatWarn, IsObject m ∧ (0 : UInt8) ∉ m :=
  List.forall_mem_cons.mpr ⟨⟨isObject_plainCommand (by simp [Plain, special, lit]), by decide⟩,
    List.forall_mem_singleton.mpr
      ⟨isObject_plainCommand (by simp [Plain, special, lit]), by decide⟩⟩

/-- The `beat` in two pieces, and the `warn` in the next event. -/
def beatThenWarn : List (List Bytes) :=
  [[(plainCommand (lit "beat")).take 7, (plainCommand (lit "beat")).drop 7],
    [plainCommand (lit "warn")]]

/-- The `beat` and the `warn` in one event. -/
def beatWithWarn : List (List Bytes) :=
  [[plainCommand (lit "beat") ++ plainCommand (lit "warn")]]

end Server
