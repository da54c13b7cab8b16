import WolServer.Locality

/-!
# Timeouts

A connection is closed when it has not been heard of for a while. The code
keeps a deadline in each slot and looks at the deadlines every ten seconds at
most, so a connection that falls silent is closed between ten and twenty
seconds later.

What counts is said here in terms of the connection: its *refresh times* are
the time it was accepted and the times at which the server answered it with
a status of true (`Server.refreshes`). They are read off the effects, each
stamped with the clock of its step. Every slot in use holds the latest of
them plus ten seconds (`Server.Fresh`), and from that it follows which
connections a sweep closes, and how old those are that it leaves
(`Server.timeout_exact`).
-/

namespace Server

/-! ## Refresh times -/

/-- The clock a step reads: waiting for events reads none. -/
def Label.clock : Label → Option ℕ
  | .check now => some now
  | .wait _ => none
  | .handle env => some env.now

/-- The time of a step, if it has any effects. -/
def Label.time (l : Label) : ℕ := l.clock.getD 0

/-- A step, with its effects stamped with its time. -/
def timedStep : Server → Label → Option (Server × List (ℕ × Effect)) :=
  Runs.stamp step Label.time

/-- The clock does not go back. -/
def Nondecreasing (labels : List Label) : Prop :=
  (labels.filterMap Label.clock).Pairwise (· ≤ ·)

instance (labels : List Label) : Decidable (Nondecreasing labels) :=
  inferInstanceAs (Decidable (List.Pairwise _ _))

/-- **The refresh times of the connection on a descriptor**: when it was
accepted, and when it was answered with a status of true since. -/
def refreshes (tr : List (ℕ × Effect)) (i : ℕ) : Set ℕ :=
  {r | ∃ before t after, tr = before ++ (t, .accepted i) :: after
    ∧ (∀ x ∈ after, x.2 ≠ .accepted i ∧ x.2 ≠ .closed i)
    ∧ (r = t ∨ ∃ x ∈ after, x.1 = r ∧ statusOf i x.2 = some true)}

/-- A trace that ends with a new element. -/
theorem append_eq_snoc {α : Type} {before after tr : List α} {x y : α}
    (h : tr ++ [x] = before ++ y :: after) :
    (after = [] ∧ tr = before ∧ x = y) ∨ ∃ after', after = after' ++ [x]
      ∧ tr = before ++ y :: after' := by
  rcases List.eq_nil_or_concat after with rfl | ⟨after', z, rfl⟩
  · obtain ⟨htr, hx⟩ := List.append_inj' h rfl
    exact Or.inl ⟨rfl, htr, List.singleton_inj.mp hx⟩
  · rw [List.concat_eq_append, ← List.cons_append, ← List.append_assoc] at h
    obtain ⟨htr, hx⟩ := List.append_inj' h rfl
    obtain rfl := List.singleton_inj.mp hx
    exact Or.inr ⟨after', List.concat_eq_append, htr⟩

/-- A connection that is accepted is refreshed, and what was there before on
its descriptor counts no more. -/
theorem refreshes_accepted (tr : List (ℕ × Effect)) (t i : ℕ) :
    refreshes (tr ++ [(t, .accepted i)]) i = {t} := by
  ext r
  constructor
  · rintro ⟨before, t', after, heq, hafter, hr⟩
    rcases append_eq_snoc heq with ⟨rfl, -, hx⟩ | ⟨after', rfl, -⟩
    · obtain ⟨rfl, -⟩ := Prod.mk.inj hx
      exact hr.resolve_right (fun ⟨x, hx, _⟩ => absurd hx List.not_mem_nil)
    · exact absurd rfl (hafter (t, .accepted i) (by simp)).1
  · rintro rfl
    exact ⟨tr, r, [], rfl, List.forall_mem_nil _, Or.inl rfl⟩

theorem refreshes_closed (tr : List (ℕ × Effect)) (t i : ℕ) :
    refreshes (tr ++ [(t, .closed i)]) i = ∅ := by
  refine Set.eq_empty_of_forall_notMem ?_
  rintro r ⟨before, t', after, heq, hafter, -⟩
  rcases append_eq_snoc heq with ⟨-, -, hx⟩ | ⟨after', rfl, -⟩
  · cases (Prod.mk.inj hx).2
  · exact absurd rfl (hafter (t, .closed i) (by simp)).2

/-- Every other effect adds a refresh time if it is an answer of true, to a
connection that is open, and leaves the others. -/
theorem refreshes_snoc (tr : List (ℕ × Effect)) (t : ℕ) {e : Effect} {i : ℕ}
    (hacc : e ≠ .accepted i) (hcl : e ≠ .closed i) :
    refreshes (tr ++ [(t, e)]) i
      = refreshes tr i ∪ {r | r = t ∧ statusOf i e = some true ∧ (refreshes tr i).Nonempty} := by
  ext r
  constructor
  · rintro ⟨before, t', after, heq, hafter, hr⟩
    rcases append_eq_snoc heq with ⟨-, -, hx⟩ | ⟨after', rfl, rfl⟩
    · exact absurd (Prod.mk.inj hx).2 hacc
    have hopen : ∀ x ∈ after', x.2 ≠ .accepted i ∧ x.2 ≠ .closed i :=
      fun x hx => hafter x (List.mem_append_left _ hx)
    rcases hr with rfl | ⟨x, hx, rfl, hst⟩
    · exact Or.inl ⟨before, r, after', rfl, hopen, Or.inl rfl⟩
    rcases List.mem_append.mp hx with hx | hx
    · exact Or.inl ⟨before, t', after', rfl, hopen, Or.inr ⟨x, hx, rfl, hst⟩⟩
    · rw [List.mem_singleton.mp hx] at hst ⊢
      exact Or.inr ⟨rfl, hst, t', before, t', after', rfl, hopen, Or.inl rfl⟩
  · have hmore : ∀ {after : List (ℕ × Effect)},
        (∀ x ∈ after, x.2 ≠ .accepted i ∧ x.2 ≠ .closed i) →
          ∀ x ∈ after ++ [(t, e)], x.2 ≠ .accepted i ∧ x.2 ≠ .closed i :=
      fun h => List.forall_mem_append.mpr ⟨h, List.forall_mem_singleton.mpr ⟨hacc, hcl⟩⟩
    rintro (⟨before, t', after, rfl, hafter, hr⟩ | ⟨rfl, hst, r', before, t', after, rfl, hafter, -⟩)
    · refine ⟨before, t', after ++ [(t, e)], by simp, hmore hafter, hr.imp_right ?_⟩
      rintro ⟨x, hx, hxr, hst⟩
      exact ⟨x, List.mem_append_left _ hx, hxr, hst⟩
    · exact ⟨before, t', after ++ [(r, e)], by simp, hmore hafter,
        Or.inr ⟨(r, e), by simp, rfl, hst⟩⟩

/-- A list of effects of one time, none of which opens or closes the
descriptor. -/
theorem refreshes_append (tr : List (ℕ × Effect)) (t i : ℕ) {es : List Effect}
    (h : ∀ e ∈ es, e ≠ .accepted i ∧ e ≠ .closed i) :
    refreshes (tr ++ es.map (fun e => (t, e))) i = refreshes tr i
      ∪ {r | r = t ∧ (∃ e ∈ es, statusOf i e = some true) ∧ (refreshes tr i).Nonempty} := by
  induction es generalizing tr with
  | nil => simp
  | cons e es ih =>
    obtain ⟨⟨hacc, hcl⟩, hes⟩ := List.forall_mem_cons.mp h
    have hassoc : tr ++ (e :: es).map (fun e => (t, e))
        = (tr ++ [(t, e)]) ++ es.map (fun e => (t, e)) := by simp
    have hnonempty : (refreshes (tr ++ [(t, e)]) i).Nonempty ↔ (refreshes tr i).Nonempty := by
      rw [refreshes_snoc tr t hacc hcl]
      refine ⟨?_, fun hne => hne.mono Set.subset_union_left⟩
      rintro ⟨r, hr | ⟨-, -, hne⟩⟩
      · exact ⟨r, hr⟩
      · exact hne
    rw [hassoc, ih _ hes, hnonempty, refreshes_snoc tr t hacc hcl]
    ext r
    simp only [Set.mem_union, Set.mem_ofPred_eq, List.exists_mem_cons_iff]
    tauto

/-- Looks and closes, at one time. -/
theorem refreshes_sweep (tr : List (ℕ × Effect)) (t i : ℕ) {es : List Effect}
    (h : ∀ e ∈ es, (∃ j, e = .access j) ∨ ∃ j, e = .closed j) :
    refreshes (tr ++ es.map (fun e => (t, e))) i
      = if .closed i ∈ es then ∅ else refreshes tr i := by
  induction es generalizing tr with
  | nil => simp
  | cons e es ih =>
    obtain ⟨he, hes⟩ := List.forall_mem_cons.mp h
    have hassoc : tr ++ (e :: es).map (fun e => (t, e))
        = (tr ++ [(t, e)]) ++ es.map (fun e => (t, e)) := by simp
    have hacc : e ≠ .accepted i := by
      rcases he with ⟨j, rfl⟩ | ⟨j, rfl⟩ <;> simp
    have hst : statusOf i e ≠ some true := by
      rcases he with ⟨j, rfl⟩ | ⟨j, rfl⟩ <;> simp [statusOf]
    rw [hassoc, ih _ hes]
    by_cases hmem : Effect.closed i ∈ es
    · rw [if_pos hmem, if_pos (List.mem_cons_of_mem _ hmem)]
    rw [if_neg hmem]
    by_cases hcl : e = .closed i
    · rw [hcl, refreshes_closed, if_pos List.mem_cons_self]
    · rw [if_neg (fun hm => (List.mem_cons.mp hm).elim (fun h => hcl h.symm) hmem),
        refreshes_snoc tr t hacc hcl]
      simp [hst]

/-! ## What a sweep closes -/

/-- The time of the connection in a slot is up. -/
def Due (timestamp : ℕ) (c : ClientInfo) : Prop := c.enable = true ∧ c.timestamp < timestamp

instance (timestamp : ℕ) (c : ClientInfo) : Decidable (Due timestamp c) :=
  inferInstanceAs (Decidable (_ ∧ _))

/-- **What a sweep does to the slots**: those that are due are closed, and
nothing else happens. -/
structure Swept (timestamp : ℕ) (range : ℕ → Prop) (s : Server) (r : Server × List Effect) :
    Prop where
  due : ∀ j, range j → Due timestamp (s.clientList j) →
    .closed j ∈ r.2 ∧ (r.1.clientList j).enable = false
  kept : ∀ j, ¬ (range j ∧ Due timestamp (s.clientList j)) →
    .closed j ∉ r.2 ∧ r.1.clientList j = s.clientList j
  quiet : ∀ e ∈ r.2, (∃ j, e = .access j) ∨ ∃ j, e = .closed j
  next : r.1.timestampChecktimeout = s.timestampChecktimeout

theorem sweepStep_swept {listen i : ℕ} {s : Server} (timestamp : ℕ) (h : Agrees listen s) :
    Swept timestamp (· = i) s (sweepStep timestamp s i) := by
  unfold sweepStep
  split
  · rename_i hdue
    obtain ⟨e, hdel, -, -, -⟩ := h.watches.del (h.mem hdue.1)
    rw [hdel]
    refine ⟨fun j hj _ => ?_, fun j hj => ⟨?_, ?_⟩, ?_, rfl⟩
    · rw [hj]
      exact ⟨by simp, by simp⟩
    · have hne : j ≠ i := fun h => hj ⟨h, h ▸ hdue⟩
      simp [hne]
    · exact Function.update_of_ne (fun h => hj ⟨h, h ▸ hdue⟩) _ _
    · simp
  · rename_i hdue
    exact ⟨fun j hj hd => absurd (hj ▸ hd) hdue, fun j _ => ⟨by simp, rfl⟩, by simp, rfl⟩

theorem sweepFrom_swept {listen : ℕ} (timestamp n : ℕ) {i : ℕ} {s : Server}
    (h : Agrees listen s) (hi : i + n ≤ slots) :
    Swept timestamp (fun j => i ≤ j ∧ j < i + n) s (sweepFrom timestamp i n s) := by
  induction n generalizing i s with
  | zero =>
    exact ⟨fun j hj => absurd hj.2 (by omega), fun j _ => ⟨List.not_mem_nil, rfl⟩,
      List.forall_mem_nil _, rfl⟩
  | succ n ih =>
    have hfirst := sweepStep_swept (i := i) timestamp h
    have hagrees := (sweepStep_action timestamp h (show i < slots by omega)).agrees h
    have hrest := ih hagrees (show i + 1 + n ≤ slots by omega)
    -- a slot above the first is swept by the rest, as it was before
    have hsame : ∀ j, j ≠ i → (sweepStep timestamp s i).1.clientList j = s.clientList j :=
      fun j hj => (hfirst.kept j (fun hk => hj hk.1)).2
    have hdue : ∀ j, j ≠ i → (Due timestamp ((sweepStep timestamp s i).1.clientList j)
        ↔ Due timestamp (s.clientList j)) := fun j hj => by rw [hsame j hj]
    refine ⟨fun j hj hd => ?_, fun j hj => ?_, ?_, hrest.next.trans hfirst.next⟩
    · by_cases hji : j = i
      · obtain ⟨hmem, hoff⟩ := hfirst.due j hji hd
        have hnot : ¬ (i + 1 ≤ j ∧ j < i + 1 + n) := by omega
        refine ⟨List.mem_append_left _ hmem, ?_⟩
        show ((sweepFrom timestamp (i + 1) n (sweepStep timestamp s i).1).1.clientList j).enable = _
        rw [(hrest.kept j (fun hk => hnot hk.1)).2]
        exact hoff
      · obtain ⟨hmem, hoff⟩ := hrest.due j (by omega) ((hdue j hji).mpr hd)
        exact ⟨List.mem_append_right _ hmem, hoff⟩
    · have hfirst' := hfirst.kept j (fun hk => hj ⟨by omega, hk.2⟩)
      have hrest' := hrest.kept j (fun hk => hj ⟨by omega, (hdue j (by omega)).mp hk.2⟩)
      exact ⟨fun hm => (List.mem_append.mp hm).elim hfirst'.1 hrest'.1,
        hrest'.2.trans hfirst'.2⟩
    · exact List.forall_mem_append.mpr ⟨hfirst.quiet, hrest.quiet⟩

/-- **The sweep of a turn of the loop**: if one is due, it closes the
connections whose time is up. -/
theorem checkTimeout_cases {listen : ℕ} {s : Server} (timestamp : ℕ) (h : Agrees listen s) :
    (s.timestampChecktimeout < timestamp
        ∧ Swept timestamp (fun _ => True)
          { s with timestampChecktimeout := timestamp + 10000000 } (checkTimeout s timestamp))
      ∨ (¬ s.timestampChecktimeout < timestamp ∧ checkTimeout s timestamp = (s, [])) := by
  unfold checkTimeout
  split
  · rename_i hdue
    have hall := sweepFrom_swept timestamp slots (i := 0)
      (s := { s with timestampChecktimeout := timestamp + 10000000 })
      ⟨h.watches, h.bounded⟩ (Nat.zero_add slots).le
    refine Or.inl ⟨hdue, fun j _ hd => ?_, fun j hj => hall.kept j (fun hk => hj ⟨trivial, hk.2⟩),
      hall.quiet, hall.next⟩
    have hlt : j < slots := h.bounded j hd.1
    exact hall.due j ⟨Nat.zero_le j, by omega⟩ hd
  · rename_i hdue
    exact Or.inr ⟨hdue, rfl⟩

theorem closed_mem_checkTimeout_iff {listen i : ℕ} {s : Server} (timestamp : ℕ)
    (h : Agrees listen s) : .closed i ∈ (checkTimeout s timestamp).2
      ↔ s.timestampChecktimeout < timestamp ∧ Due timestamp (s.clientList i) := by
  rcases checkTimeout_cases timestamp h with ⟨hdue, hswept⟩ | ⟨hdue, hsame⟩
  · refine ⟨fun hm => ⟨hdue, ?_⟩, fun hd => (hswept.due i trivial hd.2).1⟩
    by_contra hd
    exact (hswept.kept i (fun hk => hd hk.2)).1 hm
  · rw [hsame]
    exact ⟨fun hm => absurd hm List.not_mem_nil, fun hd => absurd hd.1 hdue⟩

/-- Who is not closed keeps the slot. -/
theorem checkTimeout_of_notMem {listen timestamp i : ℕ} {s : Server} (h : Agrees listen s)
    (hi : .closed i ∉ (checkTimeout s timestamp).2) :
    (checkTimeout s timestamp).1.clientList i = s.clientList i := by
  rcases checkTimeout_cases timestamp h with ⟨hdue, hswept⟩ | ⟨-, hsame⟩
  · exact (hswept.kept i (fun hk =>
      hi ((closed_mem_checkTimeout_iff timestamp h).mpr ⟨hdue, hk.2⟩))).2
  · rw [hsame]

/-- Who is closed loses it. -/
theorem checkTimeout_of_mem {listen timestamp i : ℕ} {s : Server} (h : Agrees listen s)
    (hi : .closed i ∈ (checkTimeout s timestamp).2) :
    ((checkTimeout s timestamp).1.clientList i).enable = false := by
  rcases checkTimeout_cases timestamp h with ⟨-, hswept⟩ | ⟨-, hsame⟩
  · exact (hswept.due i trivial ((closed_mem_checkTimeout_iff timestamp h).mp hi).2).2
  · rw [hsame] at hi
    exact absurd hi List.not_mem_nil

/-! ## Every slot holds the latest refresh time -/

/-- **A slot and the refresh times of its descriptor**, at the time `now`,
when the next sweep is due after `next`: a slot in use holds the latest of
them plus ten seconds, and the last sweep – ten seconds before `next` – has
not found it too old. -/
structure Fresh (now next : ℕ) (c : ClientInfo) (times : Set ℕ) : Prop where
  used : c.enable = true → ∃ r, IsGreatest times r ∧ c.timestamp = r + 10000000
  free : c.enable = false → times = ∅
  past : ∀ r ∈ times, r ≤ now
  young : c.enable = true → next ≤ c.timestamp + 10000000

theorem fresh_newClient {t next : ℕ} (addr : InAddr) (h : next ≤ t + 10000000) :
    Fresh t next (newClient t addr) {t} where
  used _ := ⟨t, isGreatest_singleton, rfl⟩
  free h := by cases h
  past r hr := (Set.mem_singleton_iff.mp hr).le
  young _ := h.trans (Nat.le_add_right _ _)

theorem fresh_off {t next : ℕ} {c : ClientInfo} (h : c.enable = false) : Fresh t next c ∅ where
  used hc := absurd hc (by rw [h]; exact Bool.false_ne_true)
  free _ := rfl
  past _ hr := absurd hr (Set.notMem_empty _)
  young hc := absurd hc (by rw [h]; exact Bool.false_ne_true)

theorem Fresh.mono {now t next : ℕ} {c : ClientInfo} {times : Set ℕ} (h : Fresh now next c times)
    (ht : now ≤ t) : Fresh t next c times :=
  ⟨h.used, h.free, fun r hr => (h.past r hr).trans ht, h.young⟩

/-- A refresh is the latest one. -/
theorem Fresh.refresh {now t next : ℕ} {c c' : ClientInfo} {times : Set ℕ}
    (h : Fresh now next c times) (ht : now ≤ t) (hnext : next ≤ now + 10000000)
    (hon : c'.enable = true) : Fresh t next { c' with timestamp := t + 10000000 } (times ∪ {t}) where
  used _ := by
    refine ⟨t, ⟨Or.inr rfl, ?_⟩, rfl⟩
    rintro r (hr | hr)
    · exact (h.past r hr).trans ht
    · exact (Set.mem_singleton_iff.mp hr).le
  free hoff := absurd hon (by rw [show c'.enable = false from hoff]; exact Bool.false_ne_true)
  past r hr := hr.elim (fun hr => (h.past r hr).trans ht)
    (fun hr => (Set.mem_singleton_iff.mp hr).le)
  young _ := by
    show next ≤ t + 10000000 + 10000000
    omega

/-- **The invariant of the clock.** -/
structure Timed (now : ℕ) (s : Server) (tr : List (ℕ × Effect)) : Prop where
  slot : ∀ i, Fresh now s.timestampChecktimeout (s.clientList i) (refreshes tr i)
  next : s.timestampChecktimeout ≤ now + 10000000

theorem timed_boot {memory : ClientList} {listenFd : ℕ} {portWarn : UInt16} :
    Timed 0 (bootState memory listenFd portWarn) [] := by
  have hnone : ∀ i, refreshes [] i = ∅ := fun i => by
    refine Set.eq_empty_of_forall_notMem ?_
    rintro r ⟨before, t, after, heq, -⟩
    cases before <;> cases heq
  exact ⟨fun i => by rw [hnone]; exact fresh_off rfl, Nat.zero_le _⟩

/-- One slot changes, with its refresh times. -/
theorem Timed.update {now t fd : ℕ} {s s' : Server} {c : ClientInfo} {tr tr' : List (ℕ × Effect)}
    (h : Timed now s tr) (ht : now ≤ t) (hnext : s'.timestampChecktimeout = s.timestampChecktimeout)
    (hlist : s'.clientList = Function.update s.clientList fd c)
    (hother : ∀ i, i ≠ fd → refreshes tr' i = refreshes tr i)
    (hc : Fresh t s.timestampChecktimeout c (refreshes tr' fd)) : Timed t s' tr' := by
  refine ⟨fun i => ?_, by have := h.next; omega⟩
  rw [hnext, hlist]
  by_cases hi : i = fd
  · rw [hi, Function.update_self]
    exact hc
  · rw [Function.update_of_ne hi, hother i hi]
    exact (h.slot i).mono ht

/-- Effects on another descriptor are no refresh. -/
theorem refreshes_of_other {tr : List (ℕ × Effect)} (t : ℕ) {i : ℕ} {es : List Effect}
    (h : ∀ e ∈ es, e ≠ .accepted i ∧ e ≠ .closed i ∧ statusOf i e ≠ some true) :
    refreshes (tr ++ es.map (fun e => (t, e))) i = refreshes tr i := by
  rw [refreshes_append tr t i (fun e he => ⟨(h e he).1, (h e he).2.1⟩)]
  refine Set.union_eq_left.mpr ?_
  rintro r ⟨-, ⟨e, he, hst⟩, -⟩
  exact absurd hst (h e he).2.2

/-- **A request refreshes its own connection, if it is answered with
true.** -/
theorem refreshes_request {s : Server} {tr : List (ℕ × Effect)} {fd : ℕ} (text : Bytes)
    (now i : ℕ) (hfd : fd < slots) :
    refreshes (tr ++ (handleRequest s fd text now).2.map (fun e => (now, e))) i
      = refreshes tr i ∪ {r | r = now ∧ (i = fd
          ∧ (perform s fd (requestOf text)).retToClient = true) ∧ (refreshes tr i).Nonempty} := by
  obtain ⟨es, hes, hans⟩ := handleRequest_answers (s := s) text now hfd
  rw [refreshes_append, exists_statusOf_iff]
  intro e he
  rw [hes] at he
  rcases List.mem_cons.mp he with rfl | he
  · exact ⟨Effect.noConfusion, Effect.noConfusion⟩
  rcases hans e he with ⟨j, -, rfl⟩ | hs
  · exact ⟨Effect.noConfusion, Effect.noConfusion⟩
  · constructor <;> rintro rfl <;> cases hs

/-- Time passes. -/
theorem Timed.mono {now t : ℕ} {s : Server} {tr : List (ℕ × Effect)} (h : Timed now s tr)
    (ht : now ≤ t) : Timed t s tr :=
  ⟨fun i => (h.slot i).mono ht, h.next.trans (Nat.add_le_add_right ht _)⟩

/-- Who is let in is refreshed, and who cannot be registered is gone. -/
theorem acceptClient_timed {listen now fd : ℕ} {s : Server} {tr : List (ℕ × Effect)} {env : Env}
    (h : Timed now s tr) (hag : Agrees listen s) (hans : CanAnswer s.epoll fd env)
    (hle : now ≤ env.now) :
    Timed env.now (acceptClient s env).1
      (tr ++ (acceptClient s env).2.map (fun e => (env.now, e))) := by
  unfold acceptClient
  cases hacc : env.accept with
  | none => simpa using h.mono hle
  | some p =>
    obtain ⟨tmpFd, addr⟩ := p
    have hnew : tmpFd ∉ s.epoll.kernel.opened := (hans.1 (tmpFd, addr) hacc).2
    have hfree : (s.clientList tmpFd).enable = false := hag.enable_of_closed hnew
    dsimp only
    cases hok : env.addOk with
    | true =>
      obtain ⟨e, hadd, -, -, -⟩ := hag.watches.add hnew (card_enabledSlots_lt _)
      rw [hadd, if_pos rfl]
      refine h.update hle rfl rfl (fun i hi => refreshes_of_other env.now ?_) ?_
      · have hi' : tmpFd ≠ i := fun h => hi h.symm
        simp [statusOf, hi']
      · have hsplit : tr ++ [Effect.accepted tmpFd, .access tmpFd].map (fun e => (env.now, e))
            = (tr ++ [(env.now, .accepted tmpFd)]) ++ [Effect.access tmpFd].map
              (fun e => (env.now, e)) := by simp
        rw [hsplit, refreshes_of_other env.now (by simp [statusOf]), refreshes_accepted]
        exact fresh_newClient addr (by have := h.next; omega)
    | false =>
      rw [LibEpoll.add_of_failure, if_neg Bool.false_ne_true]
      refine h.update hle rfl (Function.update_eq_self tmpFd s.clientList).symm
        (fun i hi => refreshes_of_other env.now ?_) ?_
      · have hi' : tmpFd ≠ i := fun h => hi h.symm
        simp [statusOf, hi']
      · have hsplit : tr ++ [Effect.accepted tmpFd, .closed tmpFd].map (fun e => (env.now, e))
            = (tr ++ [(env.now, .accepted tmpFd)]) ++ [(env.now, .closed tmpFd)] := by simp
        rw [hsplit, refreshes_closed]
        exact fresh_off hfree

/-- Who has closed has no refresh times. -/
theorem closeClient_timed {listen now t fd : ℕ} {s : Server} {tr : List (ℕ × Effect)}
    (h : Timed now s tr) (hag : Agrees listen s) (hmem : fd ∈ enabledSlots s.clientList)
    (hle : now ≤ t) :
    Timed t (closeClient s fd).1 (tr ++ (closeClient s fd).2.map (fun e => (t, e))) := by
  obtain ⟨e, hdel, -, -, -⟩ := hag.watches.del hmem
  unfold closeClient
  rw [hdel]
  refine h.update hle rfl rfl (fun i hi => refreshes_of_other t ?_) ?_
  · have hi' : fd ≠ i := fun h => hi h.symm
    simp [statusOf, hi']
  · have hsplit : tr ++ [Effect.access fd, .closed fd].map (fun e => (t, e))
        = (tr ++ [(t, .access fd)]) ++ [(t, .closed fd)] := by simp
    show Fresh t _ _ (refreshes (tr ++ [Effect.access fd, .closed fd].map (fun e => (t, e))) fd)
    rw [hsplit, refreshes_closed]
    exact fresh_off rfl

/-- Who is answered with true is refreshed, and nobody else. -/
theorem handleRequest_timed {listen now t fd : ℕ} {s : Server} {tr : List (ℕ × Effect)}
    (text : Bytes) (h : Timed now s tr) (hag : Agrees listen s)
    (henable : (s.clientList fd).enable = true) (hle : now ≤ t) :
    Timed t (handleRequest s fd text t).1
      (tr ++ (handleRequest s fd text t).2.map (fun e => (t, e))) := by
  have htable := handleRequest_table s fd text t
  have htimes : ∀ i, refreshes (tr ++ (handleRequest s fd text t).2.map (fun e => (t, e))) i = _ :=
    fun i => refreshes_request text t i (hag.bounded fd henable)
  cases hstatus : (perform s fd (requestOf text)).retToClient with
  | true =>
    rw [hstatus, if_pos rfl] at htable
    refine h.update hle rfl htable (fun i hi => ?_) ?_
    · rw [htimes i]
      simp [hi]
    · obtain ⟨r, hr, -⟩ := (h.slot fd).used henable
      have hadd : {r | r = t ∧ (fd = fd ∧ (perform s fd (requestOf text)).retToClient = true)
          ∧ (refreshes tr fd).Nonempty} = {t} := by
        ext r'
        simp only [Set.mem_ofPred_eq, Set.mem_singleton_iff, hstatus, true_and, and_true]
        exact ⟨fun h => h.1, fun h => ⟨h, ⟨r, hr.1⟩⟩⟩
      rw [htimes fd, hadd]
      exact (h.slot fd).refresh hle h.next ((bound_enable _ _).trans henable)
  | false =>
    rw [hstatus, if_neg Bool.false_ne_true] at htable
    refine ⟨fun i => ?_, (h.mono hle).next⟩
    show Fresh t s.timestampChecktimeout _ _
    rw [htable, htimes i, hstatus]
    simpa using (h.mono hle).slot i

/-- **A call of the handler keeps the invariant.** -/
theorem handleSocket_timed {listen now fd : ℕ} {s : Server} {tr : List (ℕ × Effect)} {env : Env}
    (h : Timed now s tr) (hag : Agrees listen s) (hfd : fd ∈ s.epoll.kernel.registered)
    (hans : CanAnswer s.epoll fd env) (hle : now ≤ env.now) :
    Timed env.now (handleSocket s fd env).1
      (tr ++ (handleSocket s fd env).2.map (fun e => (env.now, e))) := by
  unfold handleSocket
  split
  · exact acceptClient_timed h hag hans hle
  · rename_i hlisten
    have hne : fd ≠ listen := fun h' => hlisten (hag.watches.checkListen_iff.mpr h')
    have hmem := hag.watches.mem_clients hfd hne
    split
    · exact closeClient_timed h hag hmem hle
    · exact handleRequest_timed _ h hag (mem_enabledSlots.mp hmem).2 hle

/-- A sweep leaves nothing that is too old. -/
theorem checkTimeout_timed {listen now t : ℕ} {s : Server} {tr : List (ℕ × Effect)}
    (h : Timed now s tr) (hag : Agrees listen s) (hle : now ≤ t) :
    Timed t (checkTimeout s t).1 (tr ++ (checkTimeout s t).2.map (fun e => (t, e))) := by
  rcases checkTimeout_cases t hag with ⟨-, hswept⟩ | ⟨-, hsame⟩
  · have hnext : (checkTimeout s t).1.timestampChecktimeout = t + 10000000 := hswept.next
    refine ⟨fun i => ?_, hnext.le⟩
    rw [hnext, refreshes_sweep tr t i hswept.quiet]
    by_cases hdue : Due t (s.clientList i)
    · obtain ⟨hmem, hoff⟩ := hswept.due i trivial hdue
      rw [if_pos hmem]
      exact fresh_off hoff
    · obtain ⟨hmem, hkept⟩ := hswept.kept i (fun hk => hdue hk.2)
      have hold := (h.slot i).mono hle
      rw [if_neg hmem, hkept]
      -- what is left was refreshed no more than ten seconds before the sweep
      refine ⟨hold.used, hold.free, hold.past, fun hon => ?_⟩
      have : ¬ (s.clientList i).timestamp < t := fun hlt => hdue ⟨hon, hlt⟩
      show t + 10000000 ≤ (s.clientList i).timestamp + 10000000
      omega
  · rw [hsame]
    simpa using h.mono hle

/-- **A step keeps the invariant**, at its own time. -/
theorem step_timed {listen now : ℕ} {s s' : Server} {l : Label} {tr : List (ℕ × Effect)}
    {es : List Effect} (h : Timed now s tr) (hsess : Session listen s)
    (hle : ∀ t ∈ l.clock, now ≤ t) (hs : step s l = some (s', es)) :
    Timed (l.clock.getD now) s' (tr ++ es.map (fun e => (l.time, e))) := by
  rcases step_cases hs with ⟨t, rfl, -, -, rfl, rfl⟩ | ⟨t, rfl, -, hout, -⟩
    | ⟨events, rfl, -, -, rfl, rfl⟩ | ⟨fd, rest, env, rfl, hphase, hans, rfl, rfl⟩
  · have := checkTimeout_timed h hsess.agrees (hle t rfl)
    exact ⟨this.slot, this.next⟩
  · exact absurd hsess.agrees.loop hout
  · have hstay : tr ++ ([] : List Effect).map (fun e => (Label.time (.wait events), e)) = tr := by
      simp
    rw [hstay]
    exact ⟨h.slot, h.next⟩
  · have hpend : fd ∈ s.epoll.kernel.registered := by
      have := hsess.pending
      rw [Pending, hphase] at this
      exact this.2 fd List.mem_cons_self
    have := handleSocket_timed h hsess.agrees hpend hans (hle env.now rfl)
    exact ⟨this.slot, this.next⟩

/-- **A run on a clock that does not go back keeps the invariant.** -/
theorem run_timed {listen now : ℕ} {s s' : Server} {labels : List Label}
    {tr tr' : List (ℕ × Effect)} (h : Timed now s tr) (hsess : Session listen s)
    (hsmall : ∀ l ∈ labels, ∀ x ∈ l.admitted, x < slots)
    (hclock : Nondecreasing labels) (hle : ∀ t ∈ labels.filterMap Label.clock, now ≤ t)
    (hrun : Runs.run timedStep s labels = some (s', tr')) :
    ∃ t, (t = now ∨ t ∈ labels.filterMap Label.clock) ∧ Timed t s' (tr ++ tr')
      ∧ Session listen s' := by
  induction labels generalizing now s tr tr' with
  | nil =>
    obtain ⟨rfl, rfl⟩ := Prod.mk.inj (Option.some.inj hrun)
    rw [List.append_nil]
    exact ⟨now, Or.inl rfl, h, hsess⟩
  | cons l labels ih =>
    obtain ⟨s₁, es₁, tr₁, hstep, hrest, rfl⟩ := Runs.run_cons_eq_some.mp hrun
    obtain ⟨es, hs, rfl⟩ := Runs.stamp_eq_some.mp hstep
    obtain ⟨hl, hlabels⟩ := List.forall_mem_cons.mp hsmall
    have hsess₁ := (step_actions hsess hl hs).2
    rw [← List.append_assoc]
    cases hc : l.clock with
    | none =>
      have hfilter : (l :: labels).filterMap Label.clock = labels.filterMap Label.clock :=
        List.filterMap_cons_none hc
      have htimed := step_timed h hsess (fun t ht => by rw [hc] at ht; cases ht) hs
      rw [hc] at htimed
      rw [Nondecreasing, hfilter] at hclock
      rw [hfilter] at hle ⊢
      exact ih htimed hsess₁ hlabels hclock hle hrest
    | some t =>
      have hfilter : (l :: labels).filterMap Label.clock = t :: labels.filterMap Label.clock :=
        List.filterMap_cons_some hc
      rw [hfilter] at hle ⊢
      have hnow : now ≤ t := hle t List.mem_cons_self
      have htimed := step_timed h hsess
        (fun t' ht' => by rw [hc] at ht'; exact Option.some.inj ht' ▸ hnow) hs
      rw [hc] at htimed
      rw [Nondecreasing, hfilter, List.pairwise_cons] at hclock
      obtain ⟨t', ht', hend⟩ := ih htimed hsess₁ hlabels hclock.2 hclock.1 hrest
      refine ⟨t', Or.inr ?_, hend⟩
      rcases ht' with rfl | ht'
      · exact List.mem_cons_self
      · exact List.mem_cons_of_mem _ ht'

/-! ## Exactness -/

/-- What the check of the loop does, while the loop goes on. -/
theorem step_check {listen now : ℕ} {s s' : Server} {es : List Effect} (hag : Agrees listen s)
    (hstep : step s (.check now) = some (s', es)) :
    s' = { (checkTimeout s now).1 with phase := .wait } ∧ es = (checkTimeout s now).2 := by
  rcases step_cases hstep with ⟨t', hl, -, -, hs', hes⟩ | ⟨t', hl, -, hout, -⟩
    | ⟨events, hl, -⟩ | ⟨fd, rest, env, hl, -⟩
  · obtain rfl := Label.check.inj hl
    exact ⟨hs', hes⟩
  · exact absurd hag.loop hout
  · cases hl
  · cases hl

/-- The listening descriptor and the connections that are left after a sweep:
those that it has not closed. -/
theorem mem_clients_checkTimeout {listen : ℕ} {s : Server} (now : ℕ) (hag : Agrees listen s)
    (fd : ℕ) : fd ∈ insert listen (enabledSlots (checkTimeout s now).1.clientList)
      ↔ fd ∈ insert listen (enabledSlots s.clientList) ∧ .closed fd ∉ (checkTimeout s now).2 := by
  rw [Finset.mem_insert, Finset.mem_insert, mem_enabledSlots, mem_enabledSlots]
  by_cases hm : .closed fd ∈ (checkTimeout s now).2
  · have hon := ((closed_mem_checkTimeout_iff now hag).mp hm).2.1
    have hne : fd ≠ listen := fun h => hag.watches.separate (hag.mem (h ▸ hon))
    simp [hm, hne, checkTimeout_of_mem hag hm]
  · rw [checkTimeout_of_notMem hag hm]
    simp [hm]

/-- A check leaves no sweep overdue. -/
theorem le_timestampChecktimeout {listen : ℕ} {s : Server} (now : ℕ) (hag : Agrees listen s) :
    now ≤ (checkTimeout s now).1.timestampChecktimeout := by
  rcases checkTimeout_cases now hag with ⟨-, hswept⟩ | ⟨hdue, hsame⟩
  · have hnext : (checkTimeout s now).1.timestampChecktimeout = now + 10000000 := hswept.next
    omega
  · rw [hsame]
    exact Nat.le_of_not_lt hdue

variable {memory : ClientList} {listenFd : ℕ} {portWarn : UInt16} {labels : List Label}
  {s s' : Server} {tr : List (ℕ × Effect)} {es : List Effect} {now : ℕ}

/-- **Timeouts are exact.** In every execution on a clock that does not go
back, and that lets in descriptors of the table only, at the check of every
turn of the loop: every open connection has a latest refresh time; if the
sweep is due, the connections whose latest refresh is more than ten seconds
ago are closed, and if it is not due, none is; the slots, the registration
and the sockets of all others stay as they are, and so does the listening
descriptor; and whoever is left then was refreshed in the last twenty
seconds. An answer of false and a `response` refresh nobody. -/
theorem timeout_exact (hsmall : ∀ l ∈ labels, ∀ x ∈ l.admitted, x < slots)
    (hclock : Nondecreasing (labels ++ [.check now]))
    (hrun : Runs.run timedStep (bootState memory listenFd portWarn) labels = some (s, tr))
    (hstep : step s (.check now) = some (s', es)) :
    (∀ i, (s.clientList i).enable = true → ∃ r, IsGreatest (refreshes tr i) r)
      ∧ (∀ i, .closed i ∈ es ↔ s.timestampChecktimeout < now
        ∧ (s.clientList i).enable = true
        ∧ ∃ r, IsGreatest (refreshes tr i) r ∧ r + 10000000 < now)
      ∧ (∀ i, .closed i ∈ es → (s'.clientList i).enable = false)
      ∧ (∀ i, .closed i ∉ es → s'.clientList i = s.clientList i)
      ∧ (∀ fd, fd ∈ s'.epoll.kernel.registered
        ↔ fd ∈ s.epoll.kernel.registered ∧ .closed fd ∉ es)
      ∧ (∀ fd, fd ∈ s'.epoll.kernel.opened ↔ fd ∈ s.epoll.kernel.opened ∧ .closed fd ∉ es)
      ∧ (.closed listenFd ∉ es ∧ s'.epoll.mListen = listenFd)
      ∧ (∀ i r, (s'.clientList i).enable = true →
        IsGreatest (refreshes (tr ++ es.map (fun e => (now, e))) i) r → now ≤ r + 20000000)
      ∧ ∀ fd text t, (s.clientList fd).enable = true →
        answer fd (handleRequest s fd text t).2 ≠ some true →
        ∀ i, refreshes (tr ++ (handleRequest s fd text t).2.map (fun e => (t, e))) i
          = refreshes tr i := by
  have hclocks : Nondecreasing labels ∧ ∀ t ∈ labels.filterMap Label.clock, t ≤ now := by
    rw [Nondecreasing, List.filterMap_append, List.pairwise_append] at hclock
    exact ⟨hclock.1, fun t ht => hclock.2.2 t ht now (List.mem_singleton_self now)⟩
  obtain ⟨t, ht, htimed, hsess⟩ := run_timed timed_boot session_boot hsmall hclocks.1
    (fun t _ => Nat.zero_le t) hrun
  rw [List.nil_append] at htimed
  have htnow : t ≤ now := by
    rcases ht with rfl | ht
    · exact Nat.zero_le now
    · exact hclocks.2 t ht
  have hread : ∀ t' ∈ (Label.check now).clock, t ≤ t' := fun t' ht' =>
    Option.some.inj ht' ▸ htnow
  have hafter := step_timed htimed hsess hread hstep
  have hsess' := (step_actions hsess (fun x hx => by cases hx) hstep).2
  have hw := hsess.agrees.watches
  have hw' := hsess'.agrees.watches
  obtain ⟨rfl, rfl⟩ := step_check hsess.agrees hstep
  have hclosed := fun i => closed_mem_checkTimeout_iff (i := i) now hsess.agrees
  have hlisten : .closed listenFd ∉ (checkTimeout s now).2 := fun hm =>
    hw.separate (hsess.agrees.mem ((hclosed listenFd).mp hm).2.1)
  refine ⟨fun i hi => ?_, fun i => ?_, fun i => checkTimeout_of_mem hsess.agrees,
    fun i => checkTimeout_of_notMem hsess.agrees, fun fd => ?_, fun fd => ?_,
    ⟨hlisten, hw'.listens⟩, fun i r hi hr => ?_, fun fd text t' hfd hne i => ?_⟩
  · obtain ⟨r, hr, -⟩ := (htimed.slot i).used hi
    exact ⟨r, hr⟩
  · rw [hclosed i]
    refine and_congr_right (fun _ => and_congr_right (fun hi => ?_))
    obtain ⟨r, hr, hts⟩ := (htimed.slot i).used hi
    rw [hts]
    refine ⟨fun hlt => ⟨r, hr, hlt⟩, ?_⟩
    rintro ⟨r', hr', hlt⟩
    rwa [hr.unique hr']
  · rw [hw'.registered, hw.registered]
    exact mem_clients_checkTimeout now hsess.agrees fd
  · rw [hw'.opened, hw.opened]
    exact mem_clients_checkTimeout now hsess.agrees fd
  · obtain ⟨r', hr', hts⟩ := (hafter.slot i).used hi
    have hyoung := (hafter.slot i).young hi
    obtain rfl := hr.unique hr'
    rw [hts] at hyoung
    -- the next sweep is due by twenty seconds after the refresh, and not before this check
    exact (le_timestampChecktimeout now hsess.agrees).trans (hyoung.trans (by omega))
  · have hstatus : (perform s fd (requestOf text)).retToClient = false :=
      Bool.eq_false_iff.mpr (fun ht => hne ((answer_eq_true_iff s fd text t').mpr ht))
    rw [refreshes_request text t' i (hsess.agrees.bounded fd hfd), hstatus]
    simp

/-- A connection that is let in at time zero and says nothing. -/
theorem timeout_exact_run :
    ∃ s tr s' es r, Runs.run timedStep (bootState zeroMemory 3 50174)
        [.check 0, .wait [3], .handle ⟨some (5, ⟨192, 168, 0, 7⟩), true, [], false, 0⟩]
          = some (s, tr)
      ∧ step s (.check 10000001) = some (s', es) ∧ IsGreatest (refreshes tr 5) r
      ∧ (.closed 5 ∈ es ↔ r + 10000000 < 10000001) := by
  have hboot : Idle 3 (bootState zeroMemory 3 50174) := idle_boot
  have hlt : 5 < slots := by
    rw [slots_eq]
    decide
  obtain ⟨s, tr₀, hrun, hidle, hlist⟩ := run_accept hboot hlt (by decide) rfl ⟨192, 168, 0, 7⟩
  obtain ⟨tr, htimed, -⟩ := Runs.exists_stamp Label.time hrun
  have hon : (s.clientList 5).enable = true := by rw [hlist, Function.update_self]; rfl
  obtain ⟨s', es, hstep⟩ : ∃ s' es, step s (.check 10000001) = some (s', es) := by
    refine ⟨{ (checkTimeout s 10000001).1 with phase := .wait }, (checkTimeout s 10000001).2, ?_⟩
    rw [step, if_pos hidle.agrees.loop]
    exact hidle.phase
  have hsmall : ∀ l ∈ [Label.check 0, .wait [3],
      .handle ⟨some (5, ⟨192, 168, 0, 7⟩), true, [], false, 0⟩], ∀ x ∈ l.admitted, x < slots := by
    simp [Label.admitted, hlt]
  have hexact := timeout_exact hsmall (by decide) htimed hstep
  obtain ⟨r, hr⟩ := hexact.1 5 hon
  refine ⟨s, tr, s', es, r, htimed, hstep, hr, (hexact.2.1 5).trans ?_⟩
  rw [hidle.notDue]
  refine ⟨?_, fun h => ⟨by decide, hon, r, hr, h⟩⟩
  rintro ⟨-, -, r', hr', h⟩
  rwa [hr.unique hr']

end Server
