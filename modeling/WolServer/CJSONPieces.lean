import WolServer.CJSONMemory
import WolServer.CJSONText

/-!
# Printing in pieces

`cJSON_Print` allocates each piece of a text by itself, keeps the pieces of an
array in another block and those of an object in two, and copies them all into
one at the end. A request may be refused at any point, and then the pieces it
has come to are freed: at once in an array, and at the end in an object, of
which the rest is printed first.

`CJSONMemory.print_owns` says that in the end there is one block, with the text
of the tree, or none; and that every piece has room in the block that is
allocated for it, of which the size is added up before.
-/

namespace CJSONMemory

open Owning

/-- A piece of text, and its block. -/
abbrev Piece := ℕ × Bytes

variable (sprintf : Decimal → Bytes)

/-- A piece of this text, in a block of this size, if there is memory for it. -/
def piece (size : ℕ) (s : Bytes) : StateM Store (Option Piece) := do
  -- sizes are added up in an `int`
  require (size < 2 ^ 31)
  match ← malloc with
  | none => return none
  | some out => do
    require (s.length < size)
    return some (out, s)

/-- `print_string_ptr`. The source reads through a null pointer. -/
def printStringPtr (str : Option Bytes) : StateM Store (Option Piece) :=
  if str.isSome then piece (CJSON.stringSize str) (CJSON.stringText str)
  else do
    require False
    return none

/-- `cJSON_free` of a piece, if there is one. -/
def freePiece : Option Piece → StateM Store Unit
  | none => return ()
  | some p => free p.1

/-- The loop of `print_array` that frees the entries. -/
def freeEntries : List Piece → StateM Store Unit
  | [] => return ()
  | entry :: entries => do
    free entry.1
    freeEntries entries

/-- The loop of `print_object` that frees the names and the entries. -/
def freeMembers : List (Option Piece × Option Piece) → StateM Store Unit
  | [] => return ()
  | member :: members => do
    freePiece member.1
    freePiece member.2
    freeMembers members

/-- The name and the entry of a member, if both were printed. -/
def complete : Option Piece × Option Piece → Option (Bytes × Bytes)
  | (some str, some ret) => some (str.2, ret.2)
  | _ => none

/-- The output string, if nothing has failed before. -/
def compose (t : Option (ℕ × Bytes)) : StateM Store (Option Piece) :=
  match t with
  | none => return none
  | some t => piece t.1 t.2

mutual

/-- `print_value`, with `print_array` and `print_object`. -/
def printValue : CJSON → ℕ → Bool → StateM Store (Option Piece)
  | ⟨.null, _, _, _, _, _⟩, _, _ => piece 5 (lit "null")
  | ⟨.false_, _, _, _, _, _⟩, _, _ => piece 6 (lit "false")
  | ⟨.true_, _, _, _, _, _⟩, _, _ => piece 5 (lit "true")
  | ⟨.number, _, valueint, valuedouble, _, _⟩, _, _ =>
    piece (CJSON.numberSize valueint valuedouble) (CJSON.numberText sprintf valueint valuedouble)
  | ⟨.string, valuestring, _, _, _, _⟩, _, _ => printStringPtr valuestring
  | ⟨.array, _, _, _, _, child⟩, depth, fmt =>
    if child.isEmpty then piece 3 (lit "[]")
    else do
      match ← malloc with
      | none => return none
      | some block =>
        let r ← printElements child (depth + 1) fmt
        let out ← compose (if r.2 = true then
            some (CJSON.arraySize fmt (r.1.map Prod.snd),
              91 :: (CJSON.composeElements fmt (r.1.map Prod.snd) ++ [93]))
          else none)
        freeEntries r.1
        free block
        return out
  | ⟨.object, _, _, _, _, child⟩, depth, fmt =>
    if child.isEmpty then
      piece (CJSON.emptyObjectSize depth fmt)
        (123 :: (CJSON.newline fmt ++ (CJSON.tabs fmt (depth - 1) ++ [125])))
    else do
      match ← malloc with
      | none => return none
      | some entries =>
        match ← malloc with
        | none => do
          free entries
          return none
        | some names =>
          let members ← printMembers child (depth + 1) fmt
          let out ← compose ((members.mapM complete).map (fun texts =>
            (CJSON.objectSize fmt (depth + 1) texts, 123 :: (CJSON.newline fmt
              ++ (CJSON.composeMembers fmt (depth + 1) texts
                ++ (CJSON.tabs fmt depth ++ [125]))))))
          freeMembers members
          free names
          free entries
          return out

/-- The loop of `print_array` that retrieves the results: the entries so far,
and whether it came to the end. -/
def printElements : List CJSON → ℕ → Bool → StateM Store (List Piece × Bool)
  | [], _, _ => return ([], true)
  | child :: next, depth, fmt => do
    match ← printValue child depth fmt with
    | none => return ([], false)
    | some ret =>
      let r ← printElements next depth fmt
      return (ret :: r.1, r.2)

/-- The loop of `print_object` that collects the results, to its end. -/
def printMembers : List CJSON → ℕ → Bool → StateM Store (List (Option Piece × Option Piece))
  | [], _, _ => return []
  | child :: next, depth, fmt => do
    let str ← printStringPtr child.string
    let ret ← printValue child depth fmt
    let members ← printMembers next depth fmt
    return (str, ret) :: members

end

/-! ## One block, or none -/

/-- The block of a piece, if there is one. -/
def pieceBlock : Option Piece → Multiset ℕ
  | none => 0
  | some p => {p.1}

/-- The blocks of the entries of an array. -/
def entryBlocks (entries : List Piece) : Multiset ℕ := (entries.map Prod.fst : List ℕ)

/-- The blocks of the names and the entries of an object. -/
def memberBlocks : List (Option Piece × Option Piece) → Multiset ℕ
  | [] => 0
  | member :: members => pieceBlock member.1 + (pieceBlock member.2 + memberBlocks members)

/-- **What is left of a print**: a block with the text, or nothing at all. -/
def Printed (t : Bytes) (r : Option Piece) (e : Bool) (L : Multiset ℕ) : Prop :=
  L = pieceBlock r ∧
    match r with
    | none => e = true
    | some p => e = false ∧ p.2 = t

variable {sprintf} {A B : Multiset ℕ}

theorem piece_owns {size : ℕ} {t : Bytes} (ht : t.length < size) (hsize : size < 2 ^ 31) :
    Owns 0 (piece size t) (Printed t) :=
  .bind (.require hsize (.bind (.malloc
    (fun _ => .bind (.require ht (.pure ⟨add_zero _, rfl, rfl⟩))) (.pure ⟨rfl, rfl⟩))))

theorem printStringPtr_owns {str : Option Bytes} (h : str.isSome)
    (hlen : (CJSON.stringText str).length + 64 ≤ 2 ^ 29) :
    Owns 0 (printStringPtr str) (Printed (CJSON.stringText str)) := by
  have hsize := CJSON.stringSize_eq str
  rw [printStringPtr, if_pos h]
  exact piece_owns (by omega) (by omega)

theorem freePiece_owns (p : Option Piece) {post : Unit → Bool → Multiset ℕ → Prop}
    (h : post () false B) : Owns (pieceBlock p + B) (freePiece p) post := by
  cases p with
  | none =>
    rw [pieceBlock, zero_add]
    exact .pure h
  | some p => exact .free rfl h

theorem entryBlocks_cons (entry : Piece) (entries : List Piece) :
    entryBlocks (entry :: entries) = {entry.1} + entryBlocks entries := by
  rw [entryBlocks, List.map_cons, ← Multiset.cons_coe, ← Multiset.singleton_add]
  rfl

theorem freeEntries_owns (entries : List Piece) {post : Unit → Bool → Multiset ℕ → Prop}
    (h : post () false B) : Owns (entryBlocks entries + B) (freeEntries entries) post := by
  induction entries with
  | nil =>
    rw [entryBlocks, List.map_nil, Multiset.coe_nil, zero_add]
    exact .pure h
  | cons entry entries ih =>
    rw [entryBlocks_cons, add_assoc]
    exact .bind (.free rfl ih)

theorem freeMembers_owns (members : List (Option Piece × Option Piece))
    {post : Unit → Bool → Multiset ℕ → Prop} (h : post () false B) :
    Owns (memberBlocks members + B) (freeMembers members) post := by
  induction members with
  | nil =>
    rw [memberBlocks, zero_add]
    exact .pure h
  | cons member members ih =>
    rw [memberBlocks, add_assoc, add_assoc]
    exact .bind (freePiece_owns _ (.bind (freePiece_owns _ ih)))

/-- **The output string is what was composed, unless something failed.** -/
theorem compose_owns {n : ℕ} {t : Bytes} (ht : t.length < n) (hsize : n < 2 ^ 31)
    (e : Bool) : Owns 0 (compose (if e = true then none else some (n, t)))
      (fun r e' L => Printed t r (e || e') L) := by
  cases e with
  | true => exact .pure ⟨rfl, rfl⟩
  | false => exact piece_owns ht hsize

/-- What is left of the entries of an array. -/
def PrintedElements (ts : List Bytes) (r : List Piece × Bool) (e : Bool) (L : Multiset ℕ) : Prop :=
  L = entryBlocks r.1 ∧ r.2 = !e ∧ (e = false → r.1.map Prod.snd = ts)

/-- What is left of the names and entries of an object. -/
def PrintedMembers (ts : List (Bytes × Bytes)) (r : List (Option Piece × Option Piece)) (e : Bool)
    (L : Multiset ℕ) : Prop :=
  L = memberBlocks r ∧ r.mapM complete = if e = true then none else some ts

mutual

/-- **A text is printed to one block, or there is no memory for it.** -/
theorem printValue_owns (hsprintf : CJSON.Fits sprintf) : ∀ (c : CJSON) (_ : CJSON.Printable c)
    (depth : ℕ) (fmt : Bool) (_ : (CJSON.text sprintf c depth fmt).length + 64 ≤ 2 ^ 29),
    Owns 0 (printValue sprintf c depth fmt) (Printed (CJSON.text sprintf c depth fmt))
  | ⟨type, valuestring, valueint, valuedouble, string, child⟩, hc, depth, fmt, hlen => by
    have hstring := hc.text
    have hmembers := hc.members
    have hchild := hc.child
    rw [CJSON.text.eq_def] at hlen
    cases type with
    | null | false_ | true_ =>
      rw [printValue, CJSON.text]
      exact piece_owns (by decide) (by decide)
    | number =>
      rw [printValue, CJSON.text]
      exact piece_owns (CJSON.length_numberText_lt hsprintf _ _)
        ((CJSON.numberSize_le _ _).trans_lt (by decide))
    | string =>
      rw [printValue, CJSON.text]
      exact printStringPtr_owns (hstring rfl) hlen
    | array =>
      rw [printValue, CJSON.text]
      refine .ite (fun _ => piece_owns (by decide) (by decide)) (fun hempty => ?_)
      dsimp only at hlen
      rw [if_neg hempty, List.length_cons, List.length_append, List.length_singleton] at hlen
      obtain ⟨hroom, hmore⟩ := CJSON.length_composeElements fmt
        (CJSON.textElements sprintf child (depth + 1) fmt)
      refine .bind (.malloc (fun block => ?_) (.pure ⟨rfl, rfl⟩))
      refine .bind ((printElements_owns hsprintf child hchild _ _ (by omega)).frame
        (zero_add _).symm (fun r e L h => ?_))
      obtain ⟨rfl, hr, hts⟩ := h
      have hcomposed : (if r.2 = true then some (CJSON.arraySize fmt (r.1.map Prod.snd),
            91 :: (CJSON.composeElements fmt (r.1.map Prod.snd) ++ [93])) else none)
          = if e = true then none else some (CJSON.arraySize fmt
              (CJSON.textElements sprintf child (depth + 1) fmt),
            91 :: (CJSON.composeElements fmt
              (CJSON.textElements sprintf child (depth + 1) fmt) ++ [93])) := by
        cases e with
        | true => rw [hr, Bool.not_true, if_neg Bool.false_ne_true, if_pos rfl]
        | false => rw [hr, hts rfl, Bool.not_false, if_pos rfl, if_neg Bool.false_ne_true]
      rw [hcomposed]
      have hpiece := compose_owns (n := CJSON.arraySize fmt
          (CJSON.textElements sprintf child (depth + 1) fmt))
        (t := 91 :: (CJSON.composeElements fmt
          (CJSON.textElements sprintf child (depth + 1) fmt) ++ [93]))
        (by rw [List.length_cons, List.length_append, List.length_singleton]; omega) (by omega) e
      refine .bind (hpiece.frame (zero_add _).symm (fun out e' L h => ?_))
      rw [add_left_comm, add_zero, add_comm L]
      refine .bind (freeEntries_owns _ (.bind (.free rfl (.pure ?_))))
      show Printed _ out (e || (e' || false)) L
      rwa [Bool.or_false]
    | object =>
      rw [printValue, CJSON.text]
      have hnone := CJSON.length_emptyObject depth fmt
      dsimp only at hlen
      refine .ite (fun hempty => ?_) (fun hempty => ?_)
      · rw [if_pos hempty] at hlen
        exact piece_owns hnone.1 (by omega)
      rw [if_neg hempty] at hlen
      simp only [List.length_cons, List.length_append, List.length_nil, CJSON.length_newline,
        CJSON.length_tabs] at hlen
      obtain ⟨hroom, hmore⟩ := CJSON.length_composeMembers fmt (depth + 1)
        (CJSON.textMembers sprintf child (depth + 1) fmt)
      refine .bind (.malloc (fun entries => ?_) (.pure ⟨rfl, rfl⟩))
      refine .bind (.malloc (fun names => ?_) (.bind (.free rfl (.pure ⟨rfl, rfl⟩))))
      refine .bind ((printMembers_owns hsprintf child (hmembers rfl) hchild _ _ (by omega)).frame
        (zero_add _).symm (fun r e L h => ?_))
      obtain ⟨rfl, hr⟩ := h
      rw [hr, apply_ite (Option.map _), Option.map_none, Option.map_some]
      have hpiece := compose_owns (n := CJSON.objectSize fmt (depth + 1)
          (CJSON.textMembers sprintf child (depth + 1) fmt))
        (t := 123 :: (CJSON.newline fmt ++ (CJSON.composeMembers fmt (depth + 1)
          (CJSON.textMembers sprintf child (depth + 1) fmt) ++ (CJSON.tabs fmt depth ++ [125]))))
        (by
          simp only [List.length_cons, List.length_append, List.length_nil, CJSON.length_newline,
            CJSON.length_tabs]
          split_ifs at hroom ⊢ <;> omega) (by split_ifs at hlen hmore <;> omega) e
      refine .bind (hpiece.frame (zero_add _).symm (fun out e' L h => ?_))
      rw [add_left_comm, add_zero, add_left_comm L, add_comm L]
      refine .bind (freeMembers_owns _ (.bind (.free rfl (.bind (.free rfl (.pure ?_))))))
      show Printed _ out (e || (e' || false)) L
      rwa [Bool.or_false]

/-- So are the entries of an array, up to the first for which there is
none. -/
theorem printElements_owns (hsprintf : CJSON.Fits sprintf) : ∀ (cs : List CJSON)
    (_ : ∀ c ∈ cs, CJSON.Printable c) (depth : ℕ) (fmt : Bool)
    (_ : (CJSON.composeElements fmt (CJSON.textElements sprintf cs depth fmt)).length + 64
      ≤ 2 ^ 29),
    Owns 0 (printElements sprintf cs depth fmt)
      (PrintedElements (CJSON.textElements sprintf cs depth fmt))
  | [], _, depth, fmt, _ => by
    rw [printElements, CJSON.textElements]
    exact .pure ⟨rfl, rfl, fun _ => rfl⟩
  | c :: cs, hcs, depth, fmt, hlen => by
    rw [CJSON.textElements, CJSON.composeElements, List.length_append, List.length_append] at hlen
    rw [printElements, CJSON.textElements]
    have hc := hcs c List.mem_cons_self
    have hcs : ∀ c ∈ cs, CJSON.Printable c := fun d hd => hcs d (List.mem_cons_of_mem c hd)
    refine .bind ((printValue_owns hsprintf c hc depth fmt (by omega)).weaken (fun ret e L h => ?_))
    obtain ⟨rfl, h⟩ := h
    cases ret with
    | none =>
      obtain rfl : e = true := h
      exact .pure ⟨rfl, rfl, fun he => absurd he.symm Bool.false_ne_true⟩
    | some ret =>
      obtain ⟨rfl, hret⟩ := h
      refine .bind ((printElements_owns hsprintf cs hcs depth fmt (by omega)).frame
        (zero_add _).symm (fun r e L h => .pure ?_))
      obtain ⟨rfl, hr, hts⟩ := h
      rw [Bool.or_false]
      refine ⟨?_, hr, fun he => ?_⟩
      · exact (add_comm _ _).trans (entryBlocks_cons ret r.1).symm
      · rw [List.map_cons, hts he, hret]

/-- And the names and the entries of an object, to the end. -/
theorem printMembers_owns (hsprintf : CJSON.Fits sprintf) : ∀ (cs : List CJSON)
    (_ : ∀ c ∈ cs, c.string.isSome) (_ : ∀ c ∈ cs, CJSON.Printable c) (depth : ℕ) (fmt : Bool)
    (_ : (CJSON.composeMembers fmt depth (CJSON.textMembers sprintf cs depth fmt)).length + 64
      ≤ 2 ^ 29),
    Owns 0 (printMembers sprintf cs depth fmt)
      (PrintedMembers (CJSON.textMembers sprintf cs depth fmt))
  | [], _, _, depth, fmt, _ => by
    rw [printMembers, CJSON.textMembers]
    exact .pure ⟨rfl, rfl⟩
  | c :: cs, hnames, hcs, depth, fmt, hlen => by
    rw [CJSON.textMembers, CJSON.composeMembers] at hlen
    simp only [List.length_append, List.length_cons] at hlen
    rw [printMembers, CJSON.textMembers]
    have hname := hnames c List.mem_cons_self
    have hc := hcs c List.mem_cons_self
    have hnames : ∀ c ∈ cs, c.string.isSome := fun d hd => hnames d (List.mem_cons_of_mem c hd)
    have hcs : ∀ c ∈ cs, CJSON.Printable c := fun d hd => hcs d (List.mem_cons_of_mem c hd)
    refine .bind ((printStringPtr_owns hname (by omega)).weaken (fun str e L h => ?_))
    obtain ⟨rfl, hstr⟩ := h
    refine .bind ((printValue_owns hsprintf c hc depth fmt (by omega)).frame (zero_add _).symm
      (fun ret e' L h => ?_))
    obtain ⟨rfl, hret⟩ := h
    refine .bind ((printMembers_owns hsprintf cs hnames hcs depth fmt (by omega)).frame
      (zero_add _).symm (fun r e'' L h => .pure ?_))
    obtain ⟨rfl, hr⟩ := h
    refine ⟨?_, ?_⟩
    · rw [memberBlocks]
      abel
    · rw [List.mapM_cons, hr]
      cases str with
      | none =>
        obtain rfl : e = true := hstr
        rfl
      | some str =>
        obtain ⟨rfl, hstr⟩ := hstr
        cases ret with
        | none =>
          obtain rfl : e' = true := hret
          rfl
        | some ret =>
          obtain ⟨rfl, hret⟩ := hret
          cases e'' with
          | true => rfl
          | false =>
            rw [← hstr, ← hret]
            rfl

end

/-- **A tree is printed to one block, with its text, or nothing is left of
it.** -/
theorem print_owns (hsprintf : CJSON.Fits sprintf) {c : CJSON} (hc : CJSON.Printable c)
    {fmt : Bool} (hlen : (CJSON.text sprintf c 0 fmt).length + 64 ≤ 2 ^ 29) :
    Owns 0 (printValue sprintf c 0 fmt) (Printed (CJSON.text sprintf c 0 fmt)) :=
  printValue_owns hsprintf c hc 0 fmt hlen

/-- The array of a null and an empty string. -/
theorem print_owns_null_empty : Owns 0
    (printValue (fun _ => lit "0.5") ⟨.array, none, 0, ⟨0, 0⟩, none,
      [⟨.null, none, 0, ⟨0, 0⟩, none, []⟩, ⟨.string, some [], 0, ⟨0, 0⟩, none, []⟩]⟩ 0 true)
    (Printed (lit "[null, \"\"]")) :=
  print_owns (fun _ => by decide) (.mk (fun h => absurd h (by decide))
    (fun h => absurd h (by decide)) (fun e he => by
      rcases List.mem_pair.mp he with rfl | rfl
      · exact .mk (fun h => absurd h (by decide)) (fun h => absurd h (by decide))
          (fun _ h => absurd h List.not_mem_nil)
      · exact .mk (fun _ => rfl) (fun h => absurd h (by decide))
          (fun _ h => absurd h List.not_mem_nil))) (by decide)

end CJSONMemory
