import WolServer.Notice

/-!
# The rate limit of the notice service

A door that is opened ten times in a minute is to ring once. The loop keeps
one time for each key, and what it promises is about the history instead: a
datagram for a key starts a notification exactly when none was started for
that key in the minute before it, both ends counted (`Notice.rate_limit`).
That two notifications for a key are more than a minute apart, and that the
first datagram of a key notifies, follow.

A key does not notice the others. `Notice.run_filter` says it of a run: with
every datagram left out that is not for the key, the map holds the same time
for it and the notifications for it are the same.

Nothing here needs the requests to succeed.
-/

namespace Notice

variable {unmarshal : Bytes → Option Command} {s s' : Notice} {a : Arrival} {key : Bytes}
  {tr es : List Notification} {arrivals : List Arrival}

/-- The key a datagram asks a notice for. -/
def asked (unmarshal : Bytes → Option Command) (a : Arrival) : Option Bytes :=
  a.datagram.bind (noticeKey unmarshal)

/-- The datagram asks for a notice for this key. -/
def Asks (unmarshal : Bytes → Option Command) (key : Bytes) (a : Arrival) : Prop :=
  asked unmarshal a = some key

instance (unmarshal : Bytes → Option Command) (key : Bytes) (a : Arrival) :
    Decidable (Asks unmarshal key a) := inferInstanceAs (Decidable (_ = _))

theorem Asks.datagram (h : Asks unmarshal key a) :
    ∃ datagram, a.datagram = some datagram ∧ noticeKey unmarshal datagram = some key :=
  Option.bind_eq_some_iff.mp h

/-- The notification for a key is due, by the map. -/
def Due (s : Notice) (a : Arrival) (key : Bytes) : Prop :=
  s.timemap key = 0 ∨ s.timemap key + minute < a.time

instance (s : Notice) (a : Arrival) (key : Bytes) : Decidable (Due s a key) :=
  inferInstanceAs (Decidable (_ ∨ _))

/-! ## A round -/

/-- A datagram for a key notifies if it is due. -/
theorem round_of_asks (hgo : s.running = true) (h : Asks unmarshal key a) :
    round unmarshal s a = some (if Due s a key then
      ({ s with timemap := Function.update s.timemap key a.time },
        [⟨key, a.time, (httpRequestGet a.response).isSome⟩]) else (s, [])) := by
  obtain ⟨datagram, hdata, hkey⟩ := h.datagram
  unfold round
  rw [if_pos hgo, hdata]
  dsimp only
  rw [hkey]
  exact (apply_ite some _ _ _).symm

/-- **What a round does to another key**: nothing. -/
theorem round_of_not_asks (h : ¬ Asks unmarshal key a)
    (hround : round unmarshal s a = some (s', es)) :
    s'.timemap key = s.timemap key ∧ ∀ n ∈ es, n.key ≠ key := by
  unfold round at hround
  split_ifs at hround
  split at hround
  · obtain ⟨rfl, rfl⟩ := Prod.mk.inj (Option.some.inj hround)
    exact ⟨rfl, List.forall_mem_nil _⟩
  rename_i datagram hdata
  split at hround
  · obtain ⟨rfl, rfl⟩ := Prod.mk.inj (Option.some.inj hround)
    exact ⟨rfl, List.forall_mem_nil _⟩
  rename_i other hother
  have hne : other ≠ key := by
    rintro rfl
    exact h (by rw [Asks, asked, hdata, Option.bind_some, hother])
  dsimp only at hround
  split_ifs at hround
  · obtain ⟨rfl, rfl⟩ := Prod.mk.inj (Option.some.inj hround)
    exact ⟨Function.update_of_ne hne.symm _ _, List.forall_mem_singleton.mpr hne⟩
  · obtain ⟨rfl, rfl⟩ := Prod.mk.inj (Option.some.inj hround)
    exact ⟨rfl, List.forall_mem_nil _⟩

theorem running_of_round (h : round unmarshal s a = some (s', es)) : s.running = true := by
  by_contra hstop
  rw [round, if_neg hstop] at h
  cases h

/-- **What a round does to its own key** goes by the time the map holds for
it, and by nothing else. -/
theorem Asks.round_congr {t : Notice} (h : Asks unmarshal key a) (hgo : t.running = true)
    (hmap : t.timemap key = s.timemap key) (hround : round unmarshal s a = some (s', es)) :
    ∃ t', round unmarshal t a = some (t', es) ∧ t'.running = true
      ∧ t'.timemap key = s'.timemap key ∧ ∀ n ∈ es, n.key = key := by
  have hdue : Due t a key ↔ Due s a key := by rw [Due, Due, hmap]
  rw [round_of_asks (running_of_round hround) h] at hround
  rw [round_of_asks hgo h]
  by_cases hd : Due s a key
  · rw [if_pos hd] at hround
    rw [if_pos (hdue.mpr hd)]
    obtain ⟨rfl, rfl⟩ := Prod.mk.inj (Option.some.inj hround)
    refine ⟨_, rfl, hgo, ?_, List.forall_mem_singleton.mpr rfl⟩
    show Function.update t.timemap key a.time key = Function.update s.timemap key a.time key
    rw [Function.update_self, Function.update_self]
  · rw [if_neg hd] at hround
    rw [if_neg (fun h => hd (hdue.mp h))]
    obtain ⟨rfl, rfl⟩ := Prod.mk.inj (Option.some.inj hround)
    exact ⟨t, rfl, hgo, hmap, List.forall_mem_nil _⟩

/-- A round of a datagram happens, and the loop goes on. -/
theorem exists_round (unmarshal : Bytes → Option Command) (hgo : s.running = true)
    (hdata : a.datagram ≠ none) :
    ∃ s' es, round unmarshal s a = some (s', es) ∧ s'.running = true := by
  obtain ⟨datagram, hd⟩ := Option.ne_none_iff_exists'.mp hdata
  unfold round
  rw [if_pos hgo, hd]
  dsimp only
  split
  · exact ⟨_, _, rfl, hgo⟩
  split
  · exact ⟨_, _, rfl, hgo⟩
  · exact ⟨_, _, rfl, hgo⟩

/-! ## A run -/

/-- **Every sequence of datagrams is read to its end.** -/
theorem exists_run (unmarshal : Bytes → Option Command) (hgo : s.running = true)
    (hdata : ∀ a ∈ arrivals, a.datagram ≠ none) :
    ∃ s' tr, Runs.run (Notice.round unmarshal) s arrivals = some (s', tr)
      ∧ s'.running = true := by
  induction arrivals generalizing s with
  | nil => exact ⟨s, [], rfl, hgo⟩
  | cons a arrivals ih =>
    rw [List.forall_mem_cons] at hdata
    obtain ⟨s₁, es, hround, hgo₁⟩ := exists_round unmarshal hgo hdata.1
    obtain ⟨s', tr, hrun, hgo'⟩ := ih hgo₁ hdata.2
    exact ⟨s', es ++ tr, Runs.run_cons_eq_some.mpr ⟨s₁, es, tr, hround, hrun, rfl⟩, hgo'⟩

/-- **A key does not notice the others.** Without the datagrams that are not
for a key, the map holds the same time for it, and the notifications for it
are the same. -/
theorem run_filter (key : Bytes) {t : Notice} (hgo : t.running = true)
    (hmap : t.timemap key = s.timemap key)
    (hrun : Runs.run (Notice.round unmarshal) s arrivals = some (s', tr)) :
    ∃ t', Runs.run (Notice.round unmarshal) t (arrivals.filter (Asks unmarshal key))
        = some (t', tr.filter (fun n => n.key = key))
      ∧ t'.running = true ∧ t'.timemap key = s'.timemap key := by
  induction arrivals generalizing s t tr with
  | nil =>
    obtain ⟨rfl, rfl⟩ := Prod.mk.inj (Option.some.inj hrun)
    exact ⟨t, rfl, hgo, hmap⟩
  | cons a arrivals ih =>
    obtain ⟨s₁, es, tr', hround, hrest, rfl⟩ := Runs.run_cons_eq_some.mp hrun
    rw [List.filter_append]
    by_cases hasks : Asks unmarshal key a
    · obtain ⟨t₁, hround', hgo₁, hmap₁, hkeys⟩ := hasks.round_congr hgo hmap hround
      obtain ⟨t', hrun', hgo', hmap'⟩ := ih hgo₁ hmap₁ hrest
      have hall : es.filter (fun n => n.key = key) = es :=
        List.filter_eq_self.mpr (by simpa using hkeys)
      rw [List.filter_cons_of_pos (by simpa using hasks), hall]
      exact ⟨t', Runs.run_cons_eq_some.mpr ⟨t₁, es, _, hround', hrun', rfl⟩, hgo', hmap'⟩
    · obtain ⟨hsame, hother⟩ := round_of_not_asks hasks hround
      have hnone : es.filter (fun n => n.key = key) = [] :=
        List.filter_eq_nil_iff.mpr (by simpa using hother)
      rw [List.filter_cons_of_neg (by simpa using hasks), hnone, List.nil_append]
      exact ih hgo (hmap.trans hsame.symm) hrest

/-! ## The rate limit -/

/-- **The decision on a datagram**: after these arrivals, with these
notifications, the datagram for a key is read and notifies so. -/
structure Decides (unmarshal : Bytes → Option Command) (before : List Arrival) (a : Arrival)
    (key : Bytes) (tr es : List Notification) : Prop where
  /-- The datagram is for the key. -/
  asks : Asks unmarshal key a
  /-- The loop gets to it. -/
  happens : ∃ s s', Runs.run (Notice.round unmarshal) start before = some (s, tr)
    ∧ round unmarshal s a = some (s', es)

variable {before : List Arrival}

theorem Decides.reads (h : Decides unmarshal before a key tr es) :
    Reads unmarshal (before ++ [a]) a key tr es := by
  obtain ⟨s, s', hrun, hround⟩ := h.happens
  exact ⟨h.asks.datagram, before, [], s, s', rfl, hrun, hround⟩

/-- A datagram notifies exactly when there was no notification for its key in
the minute before. -/
theorem Decides.notifies_iff (h : Decides unmarshal before a key tr es)
    (hord : Ordered (before ++ [a])) :
    es ≠ [] ↔ ∀ n ∈ tr, n.key = key → ¬ (n.time ≤ a.time ∧ a.time ≤ n.time + minute) := by
  have hle := h.reads.time_le hord
  rw [Ne, h.reads.passed_iff, not_exists]
  exact forall_congr' (fun n =>
    ⟨fun hno hn hk hin => hno ⟨hn, hk, hin.2⟩, fun hno hn => hno hn.1 hn.2.1 ⟨hle n hn.1, hn.2.2⟩⟩)

/-- The first datagram of a key notifies. -/
theorem Decides.first (h : Decides unmarshal before a key tr es)
    (hfirst : ∀ b ∈ before, ¬ Asks unmarshal key b) : es ≠ [] := by
  obtain ⟨s, s', hrun, hround⟩ := h.happens
  have hmap : s.timemap key = 0 := by
    obtain ⟨t', hempty, -, hsame⟩ := run_filter key (t := start) rfl rfl hrun
    rw [List.filter_eq_nil_iff.mpr (by simpa using hfirst)] at hempty
    obtain ⟨rfl, -⟩ := Prod.mk.inj (Option.some.inj hempty)
    exact hsame.symm
  rw [round_of_asks (running_of_round hround) h.asks, if_pos (show Due s a key from Or.inl hmap)]
    at hround
  obtain ⟨-, rfl⟩ := Prod.mk.inj (Option.some.inj hround)
  exact List.cons_ne_nil _ _

/-- The decision is the same without the datagrams that are not for the
key. -/
theorem Decides.filter (h : Decides unmarshal before a key tr es) :
    Decides unmarshal (before.filter (Asks unmarshal key)) a key
      (tr.filter (fun n => n.key = key)) es := by
  obtain ⟨s, s', hrun, hround⟩ := h.happens
  obtain ⟨t, hrun', hgo, hmap⟩ := run_filter key (t := start) rfl rfl hrun
  obtain ⟨t', hround', -⟩ := h.asks.round_congr hgo hmap hround
  exact ⟨h.asks, t, t', hrun', hround'⟩

/-- Two notifications for a key are more than a minute apart. -/
def Apart (n n' : Notification) : Prop := n.key = n'.key → n.time + minute < n'.time

/-- A round keeps the notifications apart. -/
theorem apart_round (hrec : Records s tr) (hapart : tr.Pairwise Apart)
    (hround : round unmarshal s a = some (s', es)) : (tr ++ es).Pairwise Apart := by
  rcases round_cases hround with ⟨-, rfl⟩ | ⟨key, delivered, hdue, -, rfl⟩
  · rw [List.append_nil]
    exact hapart
  · refine List.pairwise_append.mpr ⟨hapart, List.pairwise_singleton _ _, fun n hn n' hn' hk => ?_⟩
    obtain rfl := List.mem_singleton.mp hn'
    rcases hrec key with ⟨-, hnone⟩ | ⟨last, -, -, hlast, hpos, hall⟩
    · exact absurd hk (hnone n hn)
    · rw [← hlast] at hdue
      have hlate : last.time + minute < a.time := hdue.resolve_left hpos.ne'
      show n.time + minute < a.time
      rcases hall n hn hk with rfl | hearly
      · exact hlate
      · omega

theorem apart_run (hrun : Runs.run (Notice.round unmarshal) start arrivals = some (s, tr)) :
    tr.Pairwise Apart := by
  have hstart : Records start [] := fun key => Or.inl ⟨rfl, List.forall_mem_nil _⟩
  exact (Runs.run_invariant (fun s tr => Records s tr ∧ tr.Pairwise Apart) (fun _ => True)
    (fun h _ hround => ⟨h.1.round hround, apart_round h.1 h.2 hround⟩)
    ⟨hstart, List.Pairwise.nil⟩ (fun _ _ => trivial) hrun).2

/-- **The rate limit.** Every sequence of datagrams in order of time is read
to its end, and no two notifications for a key are within a minute. A
datagram for a key notifies exactly when there was no notification for the key
in the minute before it; the first one does; and the decision is the same when
all datagrams that are not for the key are removed. -/
theorem rate_limit (unmarshal : Bytes → Option Command)
    (hdata : ∀ a ∈ arrivals, a.datagram ≠ none) (hord : Ordered arrivals) :
    (∃ s tr, Runs.run (Notice.round unmarshal) start arrivals = some (s, tr)
      ∧ tr.Pairwise Apart)
    ∧ ∀ before a after key, arrivals = before ++ a :: after → Asks unmarshal key a →
      ∃ tr es, Decides unmarshal before a key tr es
        ∧ (es ≠ [] ↔
          ∀ n ∈ tr, n.key = key → ¬ (n.time ≤ a.time ∧ a.time ≤ n.time + minute))
        ∧ ((∀ b ∈ before, ¬ Asks unmarshal key b) → es ≠ [])
        ∧ Decides unmarshal (before.filter (Asks unmarshal key)) a key
          (tr.filter (fun n => n.key = key)) es := by
  constructor
  · obtain ⟨s, tr, hrun, -⟩ := exists_run (s := start) unmarshal rfl hdata
    exact ⟨s, tr, hrun, apart_run hrun⟩
  · rintro before a after key rfl hasks
    rw [List.forall_mem_append, List.forall_mem_cons] at hdata
    have hord' : Ordered (before ++ [a]) := by
      refine List.Pairwise.sublist ?_ hord
      rw [List.map_append, List.map_append]
      exact (List.Sublist.refl _).append (List.cons_sublist_cons.mpr (List.nil_sublist _))
    obtain ⟨s, tr, hrun, hgo⟩ := exists_run (s := start) unmarshal rfl hdata.1
    obtain ⟨s', es, hround, -⟩ := exists_round unmarshal hgo hdata.2.1
    have h : Decides unmarshal before a key tr es := ⟨hasks, s, s', hrun, hround⟩
    exact ⟨tr, es, h, h.notifies_iff hord', h.first, h.filter⟩

/-- The second of two datagrams for a key within a minute. -/
theorem rate_limit_pair :
    ∃ tr, Decides unmarshalNotice [arrivalAt 1 (.body []) (by decide)]
        (arrivalAt 2 (.body []) (by decide)) (lit "a") tr []
      ∧ ∃ n ∈ tr, n.key = lit "a" ∧ n.time ≤ 2 ∧ 2 ≤ n.time + minute := by
  obtain ⟨tr, es, h, hiff, -⟩ := (rate_limit unmarshalNotice
    (show ∀ a ∈ pair, a.datagram ≠ none by decide) (by decide)).2 [_] _ [] (lit "a") rfl (by decide)
  obtain ⟨s, s', hrun, hround⟩ := h.happens
  obtain ⟨rfl, rfl⟩ := Prod.mk.inj (Option.some.inj hrun)
  obtain ⟨-, rfl⟩ := Prod.mk.inj (Option.some.inj hround)
  exact ⟨_, h, _, List.mem_singleton_self _, rfl, by decide, by decide⟩

end Notice
