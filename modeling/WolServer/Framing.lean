import Mathlib

/-!
# Messages on a stream

A stream carries messages one after the other and arrives in pieces, and the
pieces know nothing of where a message ends. This module is a library about
a receiver that handles every piece for itself: it does what the message at
the front of the piece says, if that message is there as a whole, ignores
whatever follows it, and does nothing for a piece that starts with anything
else.

Such a receiver serves exactly the messages that begin a piece and lie in it
as a whole (`Framing.handled_eq_served`), so it does what all the messages
say exactly when each of them that says anything is one of these
(`Framing.handled_eq_iff`).
-/

namespace Framing

variable {β α μ : Type} (text : μ → List β) (deeds : μ → List α) (handle : List β → List α)

/-- A text that stands at an offset of the stream begins a piece and lies in
it as a whole. -/
def Begins (pieces : List (List β)) (o : ℕ) (t : List β) : Prop :=
  ∃ before piece after, pieces = before ++ piece :: after ∧ before.flatten.length = o
    ∧ t <+: piece

/-- What is left of a message once something of it was taken away. -/
def Rest (b : List β) : Prop := b ≠ [] ∧ ∃ m a, a ≠ [] ∧ text m = a ++ b

/-- **A receiver of the message at the front.** -/
structure FrontReceiver : Prop where
  /-- No message is empty. -/
  ne_nil : ∀ m, text m ≠ []
  /-- The message at the front is served, whatever follows it. -/
  whole : ∀ m piece, text m <+: piece → handle piece = deeds m
  /-- The front of a message is not. -/
  cut : ∀ m piece, piece ≠ [] → piece <+: text m → piece ≠ text m → handle piece = []
  /-- Nor is a piece that starts inside of one. -/
  inside : ∀ b y piece z, Rest text b → piece ≠ [] → b ++ y = piece ++ z → handle piece = []

open Classical in
/-- The messages that begin a piece and lie in it as a whole, if the first one
stands at offset `o`. -/
noncomputable def served (pieces : List (List β)) : ℕ → List μ → List μ
  | _, [] => []
  | o, m :: ms =>
    if Begins pieces o (text m) then m :: served pieces (o + (text m).length) ms
    else served pieces (o + (text m).length) ms

variable {text deeds handle}

theorem served_cons_pos {pieces : List (List β)} {o : ℕ} {m : μ}
    (h : Begins pieces o (text m)) (ms : List μ) :
    served text pieces o (m :: ms) = m :: served text pieces (o + (text m).length) ms := if_pos h

theorem served_cons_neg {pieces : List (List β)} {o : ℕ} {m : μ}
    (h : ¬ Begins pieces o (text m)) (ms : List μ) :
    served text pieces o (m :: ms) = served text pieces (o + (text m).length) ms := if_neg h

/-- What begins a piece begins the first one or a later one. -/
theorem begins_cons_iff {p : List β} {ps : List (List β)} {o : ℕ} {t : List β} :
    Begins (p :: ps) o t ↔ (o = 0 ∧ t <+: p) ∨ (p.length ≤ o ∧ Begins ps (o - p.length) t) := by
  constructor
  · rintro ⟨before, piece, after, heq, ho, ht⟩
    cases before with
    | nil =>
      obtain ⟨rfl, rfl⟩ := List.cons.inj heq
      exact Or.inl ⟨ho.symm, ht⟩
    | cons q before =>
      obtain ⟨rfl, rfl⟩ := List.cons.inj heq
      rw [List.flatten_cons, List.length_append] at ho
      exact Or.inr ⟨by omega, before, piece, after, rfl, by omega, ht⟩
  · rintro (⟨rfl, ht⟩ | ⟨ho, before, piece, after, rfl, hlen, ht⟩)
    · exact ⟨[], p, ps, rfl, rfl, ht⟩
    · refine ⟨p :: before, piece, after, rfl, ?_, ht⟩
      rw [List.flatten_cons, List.length_append, hlen]
      omega

/-- Behind a piece, the later ones count. -/
theorem served_cons_of_le {p : List β} {ps : List (List β)} (hp : p ≠ []) {o : ℕ}
    (ho : p.length ≤ o) (ms : List μ) :
    served text (p :: ps) o ms = served text ps (o - p.length) ms := by
  have hpos := List.length_pos_iff.mpr hp
  induction ms generalizing o with
  | nil => rfl
  | cons m ms ih =>
    have hbegins : Begins (p :: ps) o (text m) ↔ Begins ps (o - p.length) (text m) := by
      rw [begins_cons_iff]
      exact ⟨fun h => h.elim (fun h => by omega) And.right, fun h => Or.inr ⟨ho, h⟩⟩
    have hnext := ih (o := o + (text m).length) (by omega)
    rw [show o + (text m).length - p.length = o - p.length + (text m).length by omega] at hnext
    by_cases hm : Begins ps (o - p.length) (text m)
    · rw [served_cons_pos (hbegins.mpr hm), served_cons_pos hm, hnext]
    · rw [served_cons_neg (fun h => hm (hbegins.mp h)), served_cons_neg hm, hnext]

/-- **A piece goes on into the stream.** Of the messages that start inside of
it, behind its front, none is served; what is left of the last one comes
before the messages of the later pieces. -/
theorem served_skip {p : List β} (ps : List (List β)) (hp : p ≠ []) {ms : List μ}
    {q b r : List β} (hq : q.length < p.length) (hpos : q ++ b ≠ [])
    (hb : ∃ m a, text m = a ++ b) (h : q ++ b ++ ms.flatMap text = p ++ r) :
    ∃ b' ms', r = b' ++ ms'.flatMap text ∧ (b' = [] ∨ Rest text b')
      ∧ served text (p :: ps) (q ++ b).length ms = served text ps b'.length ms' := by
  induction ms generalizing q b with
  | nil =>
    rw [List.flatMap_nil, List.append_nil] at h
    obtain ⟨a, hpa, hba⟩ : ∃ a, p = q ++ a ∧ b = a ++ r := by
      rcases List.append_eq_append_iff.mp h with ⟨a, hpa, hba⟩ | ⟨a, hqa, -⟩
      · exact ⟨a, hpa, hba⟩
      · have := congrArg List.length hqa
        rw [List.length_append] at this
        omega
    have ha : a ≠ [] := by
      rintro rfl
      rw [hpa, List.append_nil] at hq
      omega
    refine ⟨r, [], by simp, ?_, rfl⟩
    by_cases hr : r = []
    · exact Or.inl hr
    · obtain ⟨m, a', hm⟩ := hb
      exact Or.inr ⟨hr, m, a' ++ a, by simp [ha], by rw [hm, hba, List.append_assoc]⟩
  | cons m ms ih =>
    by_cases hlen : p.length ≤ (q ++ b).length
    · -- the piece ends in `b`
      obtain ⟨b', hqb⟩ : p <+: q ++ b := by
        refine List.prefix_of_prefix_length_le ⟨r, h.symm⟩ ?_ hlen
        exact List.prefix_append _ _
      have hr : r = b' ++ (m :: ms).flatMap text := by
        rw [← hqb, List.append_assoc] at h
        exact (List.append_cancel_left h).symm
      refine ⟨b', m :: ms, hr, ?_, ?_⟩
      · by_cases hb' : b' = []
        · exact Or.inl hb'
        obtain ⟨a, hpa, hba⟩ : ∃ a, p = q ++ a ∧ b = a ++ b' := by
          rcases List.append_eq_append_iff.mp hqb with ⟨a, hqa, -⟩ | ⟨a, hpa, hba⟩
          · have := congrArg List.length hqa
            rw [List.length_append] at this
            omega
          · exact ⟨a, hpa, hba⟩
        have ha : a ≠ [] := by
          rintro rfl
          rw [hpa, List.append_nil] at hq
          omega
        obtain ⟨m', a', hm⟩ := hb
        exact Or.inr ⟨hb', m', a' ++ a, by simp [ha], by rw [hm, hba, List.append_assoc]⟩
      · rw [served_cons_of_le hp hlen, ← hqb, List.length_append, Nat.add_sub_cancel_left]
    · -- the next message starts inside of the piece, and is not served
      have hnot : ¬ Begins (p :: ps) (q ++ b).length (text m) := by
        rw [begins_cons_iff]
        rintro (⟨h0, -⟩ | ⟨h0, -⟩)
        · exact hpos (List.length_eq_zero_iff.mp h0)
        · exact hlen h0
      obtain ⟨b', ms', hr, hb', hs⟩ := ih (q := q ++ b) (b := text m) (Nat.lt_of_not_le hlen)
        (fun h0 => hpos (List.append_eq_nil_iff.mp h0).1) ⟨m, [], rfl⟩
        (by rw [List.flatMap_cons] at h; simpa only [List.append_assoc] using h)
      refine ⟨b', ms', hr, hb', ?_⟩
      rw [served_cons_neg hnot, ← List.length_append, hs]

/-- What the receiver does, from inside of a message on. -/
theorem FrontReceiver.handled_eq_served_of (hrec : FrontReceiver text deeds handle)
    {pieces : List (List β)} (hne : ∀ p ∈ pieces, p ≠ []) {b : List β} {ms : List μ}
    (hb : b = [] ∨ Rest text b) (h : pieces.flatten = b ++ ms.flatMap text) :
    pieces.flatMap handle = (served text pieces b.length ms).flatMap deeds := by
  induction pieces generalizing b ms with
  | nil =>
    obtain ⟨rfl, hms⟩ := List.append_eq_nil_iff.mp h.symm
    cases ms with
    | nil => rfl
    | cons m ms => exact absurd (List.append_eq_nil_iff.mp hms).1 (hrec.ne_nil m)
  | cons p ps ih =>
    obtain ⟨hp, hps⟩ := List.forall_mem_cons.mp hne
    have hlen := List.length_pos_iff.mpr hp
    rw [List.flatten_cons] at h
    rw [List.flatMap_cons]
    rcases hb with rfl | hb
    · rw [List.nil_append] at h
      cases ms with
      | nil => exact absurd (List.append_eq_nil_iff.mp h).1 hp
      | cons m ms =>
        rw [List.flatMap_cons] at h
        obtain ⟨b', ms', hr, hb', hs⟩ := served_skip ps hp (q := []) hlen
          (hrec.ne_nil m) ⟨m, [], rfl⟩ h.symm
        have hfront : Begins (p :: ps) 0 (text m) ↔ text m <+: p := by
          rw [begins_cons_iff]
          exact ⟨fun h => h.elim And.right (fun h => by omega), fun h => Or.inl ⟨rfl, h⟩⟩
        rw [ih hps hb' hr, ← hs, List.length_nil, List.nil_append]
        by_cases hwhole : text m <+: p
        · rw [served_cons_pos (hfront.mpr hwhole), Nat.zero_add, List.flatMap_cons,
            hrec.whole m p hwhole]
        · have hpre : p <+: text m := by
            rcases List.prefix_or_prefix_of_prefix (⟨ps.flatten, h⟩ : p <+: _)
              (List.prefix_append (text m) _) with h' | h'
            · exact h'
            · exact absurd h' hwhole
          rw [served_cons_neg (fun h => hwhole (hfront.mp h)), Nat.zero_add,
            hrec.cut m p hp hpre (fun heq => hwhole (heq ▸ List.prefix_rfl)), List.nil_append]
    · obtain ⟨b', ms', hr, hb', hs⟩ := served_skip ps hp (q := []) hlen hb.1
        (by obtain ⟨-, m, a, -, hm⟩ := hb; exact ⟨m, a, hm⟩) h.symm
      rw [hrec.inside b _ p _ hb hp h.symm, List.nil_append, ih hps hb' hr, ← hs, List.nil_append]

/-- **A receiver of the message at the front serves the messages that begin a
piece.** -/
theorem handled_eq_served (hrec : FrontReceiver text deeds handle) {pieces : List (List β)}
    (hne : ∀ p ∈ pieces, p ≠ []) {ms : List μ} (h : pieces.flatten = ms.flatMap text) :
    pieces.flatMap handle = (served text pieces 0 ms).flatMap deeds :=
  hrec.handled_eq_served_of hne (Or.inl rfl) h

theorem length_served_le (text : μ → List β) (deeds : μ → List α) (pieces : List (List β))
    (o : ℕ) (ms : List μ) :
    ((served text pieces o ms).flatMap deeds).length ≤ (ms.flatMap deeds).length := by
  induction ms generalizing o with
  | nil => exact le_rfl
  | cons m ms ih =>
    have := ih (o + (text m).length)
    by_cases hb : Begins pieces o (text m)
    · rw [served_cons_pos hb, List.flatMap_cons, List.flatMap_cons, List.length_append,
        List.length_append]
      omega
    · rw [served_cons_neg hb, List.flatMap_cons, List.length_append]
      omega

/-- All is done exactly when every message that says anything is served. -/
theorem served_flatMap_eq_iff (pieces : List (List β)) (o : ℕ) (ms : List μ) :
    (served text pieces o ms).flatMap deeds = ms.flatMap deeds ↔
      ∀ before m after, ms = before ++ m :: after → deeds m ≠ [] →
        Begins pieces (o + (before.flatMap text).length) (text m) := by
  induction ms generalizing o with
  | nil => simp [served]
  | cons m ms ih =>
    have hle := length_served_le text deeds pieces (o + (text m).length) ms
    have hhead : (served text pieces o (m :: ms)).flatMap deeds = (m :: ms).flatMap deeds ↔
        (deeds m ≠ [] → Begins pieces o (text m))
          ∧ (served text pieces (o + (text m).length) ms).flatMap deeds = ms.flatMap deeds := by
      rw [List.flatMap_cons]
      by_cases hb : Begins pieces o (text m)
      · rw [served_cons_pos hb, List.flatMap_cons, List.append_cancel_left_eq]
        exact ⟨fun h => ⟨fun _ => hb, h⟩, And.right⟩
      · rw [served_cons_neg hb]
        constructor
        · intro h
          have hlen := congrArg List.length h
          rw [List.length_append] at hlen
          have hnil : deeds m = [] := List.length_eq_zero_iff.mp (by omega)
          rw [hnil, List.nil_append] at h
          exact ⟨fun hne => absurd hnil hne, h⟩
        · rintro ⟨hnil, h⟩
          have hnone : deeds m = [] := by_contra (fun hne => hb (hnil hne))
          rw [h, hnone, List.nil_append]
    rw [hhead, ih]
    constructor
    · rintro ⟨hm, hms⟩ before m' after heq hne
      cases before with
      | nil =>
        obtain ⟨rfl, rfl⟩ := List.cons.inj heq
        exact hm hne
      | cons m₀ before =>
        obtain ⟨rfl, rfl⟩ := List.cons.inj heq
        have := hms before m' after rfl hne
        rwa [Nat.add_assoc, ← List.length_append, ← List.flatMap_cons] at this
    · intro h
      refine ⟨fun hne => h [] m ms rfl hne, fun before m' after heq hne => ?_⟩
      have := h (m :: before) m' after (by rw [heq]; rfl) hne
      rwa [List.flatMap_cons, List.length_append, ← Nat.add_assoc] at this

/-- **A receiver of the message at the front does what all messages say
exactly when every one that says anything begins a piece and lies in it as a
whole.** -/
theorem handled_eq_iff (hrec : FrontReceiver text deeds handle) {pieces : List (List β)}
    (hne : ∀ p ∈ pieces, p ≠ []) {ms : List μ} (h : pieces.flatten = ms.flatMap text) :
    pieces.flatMap handle = ms.flatMap deeds ↔
      ∀ before m after, ms = before ++ m :: after → deeds m ≠ [] →
        Begins pieces (before.flatMap text).length (text m) := by
  rw [handled_eq_served hrec hne h, served_flatMap_eq_iff]
  simp only [Nat.zero_add]

end Framing
