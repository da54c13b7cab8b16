import WolServer.CJSONShape
import WolServer.Cursors

/-!
# Counting the nodes of a tree

`Lib_Json::getLenght` walks a tree with a queue. It counts the children of a
node when it takes the node from the queue, and puts those of them into the
queue that may have children themselves – so a node is counted by its parent,
and only the containers are ever queued.

Two sums over the queue carry the proof. What has been counted and what is
still below the queued nodes make up the whole tree, whatever the loop has
done so far; and the queued nodes with all that is below them get fewer in
every turn. `LibJson.getLenght_counts` follows: the loop ends, and the number
is the one of the positions below the root.
-/

namespace CJSON

mutual

/-- The number of nodes below a node. -/
def size : CJSON → ℕ
  | ⟨_, _, _, _, _, child⟩ => sizeAll child

/-- The number of nodes in a list of trees. -/
def sizeAll : List CJSON → ℕ
  | [] => 0
  | c :: next => size c + 1 + sizeAll next

end

theorem sizeAll_eq (cs : List CJSON) : sizeAll cs = (cs.map (fun c => size c + 1)).sum := by
  induction cs with
  | nil => rfl
  | cons c cs ih => rw [sizeAll, ih, List.map_cons, List.sum_cons]

/-- Below a node are its children, and what is below each of them. -/
theorem size_eq (c : CJSON) : size c = (c.child.map (fun e => size e + 1)).sum := by
  cases c
  rw [size, sizeAll_eq]

/-- **The size is the number of positions below the root.** -/
theorem ncard_below (root : CJSON) : (Position.below CJSON.child root).ncard = size root :=
  Position.ncard_below size_eq root

/-- An array or an object. -/
def IsContainer (c : CJSON) : Prop := c.type = .object ∨ c.type = .array

instance (c : CJSON) : Decidable c.IsContainer := inferInstanceAs (Decidable (_ ∨ _))

/-- **Only arrays and objects have children**, anywhere in the tree. -/
def OnlyContainers (root : CJSON) : Prop :=
  ∀ p c, LibJson.nodeAt root p = some c → ¬ c.IsContainer → c.child = []

theorem OnlyContainers.child {root c : CJSON} (h : OnlyContainers root) (hc : c ∈ root.child) :
    OnlyContainers c := by
  obtain ⟨i, hi⟩ := List.mem_iff_getElem?.mp hc
  intro p e he
  refine h (i :: p) e ?_
  show (root.child[i]?).bind _ = _
  rw [hi, Option.bind_some]
  exact he

/-- The trees of the parser are so. -/
theorem Built.onlyContainers {root : CJSON} (h : Built root) : OnlyContainers root := by
  intro p
  induction p generalizing root with
  | nil =>
    rintro _ ⟨⟩ hleaf
    exact h.leaf (fun ha => hleaf (Or.inr ha)) (fun ho => hleaf (Or.inl ho))
  | cons i p ih =>
    intro c hc
    obtain ⟨e, he, hp⟩ := Option.bind_eq_some_iff.mp
      (show (root.child[i]?).bind (fun e => LibJson.nodeAt e p) = some c from hc)
    exact ih (h.child e (List.mem_of_getElem? he)) c hp

/-- Below a node are its children, and what is below those of them that are
containers. -/
theorem OnlyContainers.size_eq {c : CJSON} (h : OnlyContainers c) :
    size c = c.child.length + ((c.child.filter IsContainer).map size).sum := by
  have hleaf : ∀ e ∈ c.child, ¬ e.IsContainer → size e = 0 := by
    intro e he hleaf
    rw [CJSON.size_eq, h.child he [] e rfl hleaf]
    rfl
  rw [CJSON.size_eq]
  generalize c.child = cs at hleaf
  induction cs with
  | nil => rfl
  | cons e cs ih =>
    rw [List.forall_mem_cons] at hleaf
    rw [List.map_cons, List.sum_cons, ih hleaf.2, List.length_cons]
    by_cases hcont : e.IsContainer
    · rw [List.filter_cons_of_pos (by simpa using hcont), List.map_cons, List.sum_cons]
      omega
    · rw [List.filter_cons_of_neg (by simpa using hcont), hleaf.1 hcont]
      omega

end CJSON

namespace LibJson

/-! ## Functions -/

/-- The sum of two counts of type `int`, if it does not overflow. -/
def addInt (a b : ℕ) : Option ℕ := if a + b < 2 ^ 31 then some (a + b) else none

/-- The loop of `cJSON_GetArraySize`, from its `i`. -/
def getArraySizeLoop : ℕ → List CJSON → Option ℕ
  | i, [] => some i
  | i, _ :: next =>
    match addInt i 1 with
    | none => none
    | some i => getArraySizeLoop i next

/-- `cJSON_GetArraySize`. -/
def getArraySize (array : CJSON) : Option ℕ := getArraySizeLoop 0 array.child

/-- The loop of `Lib_Json::getLenght`, for a number of turns: nothing if it
is not done by then, or if a count overflows. -/
def getLenghtLoop : ℕ → List CJSON → ℕ → Option ℕ
  | 0, _, _ => none
  | _ + 1, [], len => some len
  | turns + 1, pTemp :: q, len =>
    match getArraySize pTemp with
    | none => none
    | some n =>
      match addInt len n with
      | none => none
      | some len =>
        -- objects and arrays are pushed at the back
        getLenghtLoop turns (q ++ pTemp.child.filter CJSON.IsContainer) len

/-- **`Lib_Json::getLenght`**, for a number of turns. -/
def getLenght (turns : ℕ) (root : Option CJSON) : Option ℕ :=
  match root with
  | none => some 0
  | some root => getLenghtLoop turns [root] 0

/-! ## The count -/

theorem addInt_eq {a b : ℕ} (h : a + b < 2 ^ 31) : addInt a b = some (a + b) := if_pos h

theorem getArraySizeLoop_eq {i : ℕ} {cs : List CJSON} (h : i + cs.length < 2 ^ 31) :
    getArraySizeLoop i cs = some (i + cs.length) := by
  induction cs generalizing i with
  | nil => rfl
  | cons c cs ih =>
    rw [List.length_cons] at h ⊢
    rw [getArraySizeLoop, addInt_eq (by omega)]
    show getArraySizeLoop (i + 1) cs = _
    rw [ih (by omega), Nat.add_right_comm, Nat.add_assoc]

theorem getArraySize_eq {c : CJSON} (h : c.child.length < 2 ^ 31) :
    getArraySize c = some c.child.length := by
  rw [getArraySize, getArraySizeLoop_eq (by omega), Nat.zero_add]

/-- A node and all that is below it make up for the containers it puts into
the queue. -/
theorem sum_size_push (q : List CJSON) (c : CJSON) (h : CJSON.OnlyContainers c) :
    ((c :: q).map CJSON.size).sum
        = c.child.length + ((q ++ c.child.filter CJSON.IsContainer).map CJSON.size).sum := by
  rw [List.map_cons, List.sum_cons, h.size_eq, List.map_append, List.sum_append]
  omega

/-- **The loop ends, and counts what is below the queued nodes**, by induction
on the turns. -/
theorem getLenghtLoop_eq {turns len : ℕ} {q : List CJSON}
    (hleaf : ∀ c ∈ q, CJSON.OnlyContainers c)
    (hlen : len + (q.map CJSON.size).sum < 2 ^ 31)
    (hturns : q.length + (q.map CJSON.size).sum < turns) :
    getLenghtLoop turns q len = some (len + (q.map CJSON.size).sum) := by
  induction turns generalizing q len with
  | zero => omega
  | succ turns ih =>
    cases q with
    | nil => rfl
    | cons c q =>
      obtain ⟨hc, hq⟩ := List.forall_mem_cons.mp hleaf
      have hsum := sum_size_push q c hc
      have hpush := List.length_filter_le (fun e => decide e.IsContainer) c.child
      rw [List.length_cons] at hturns
      rw [hsum] at hlen hturns ⊢
      rw [getLenghtLoop, getArraySize_eq (by omega)]
      show (match addInt len c.child.length with
        | none => none
        | some len => getLenghtLoop turns (q ++ c.child.filter CJSON.IsContainer) len) = _
      rw [addInt_eq (by omega)]
      show getLenghtLoop turns _ (len + c.child.length) = _
      have hnext : ∀ e ∈ q ++ c.child.filter CJSON.IsContainer, CJSON.OnlyContainers e :=
        List.forall_mem_append.mpr ⟨hq, fun e he => hc.child (List.mem_of_mem_filter he)⟩
      rw [ih hnext (by omega) (by rw [List.length_append]; omega), Nat.add_assoc]

/-- **`getLenght` counts the whole tree.** If only arrays and objects have
children and there are fewer than `2 ^ 31` nodes, the loop ends – after no more
turns than there are nodes, and the one that finds the queue empty – and the
result is the number of the nodes below the root. -/
theorem getLenght_counts {root : CJSON} (hleaf : CJSON.OnlyContainers root)
    (hsmall : (Position.below CJSON.child root).ncard + 1 < 2 ^ 31) {turns : ℕ}
    (hturns : (Position.below CJSON.child root).ncard + 1 < turns) :
    getLenght turns (some root) = some (Position.below CJSON.child root).ncard := by
  rw [CJSON.ncard_below] at hsmall hturns ⊢
  show getLenghtLoop turns [root] 0 = _
  rw [getLenghtLoop_eq (List.forall_mem_singleton.mpr hleaf)]
  · rw [List.map_singleton, List.sum_singleton, Nat.zero_add]
  · rw [List.map_singleton, List.sum_singleton]
    omega
  · rw [List.length_singleton, List.map_singleton, List.sum_singleton]
    omega

/-- The tree of `[1,{"a":[]}]` has three nodes below its root. -/
theorem getLenght_counts_three :
    ∃ root, CJSON.parse (lit "[1,\x7b\"a\":[]\x7d]") = some root
      ∧ (Position.below CJSON.child root).ncard = 3 ∧ getLenght 5 (some root) = some 3 := by
  obtain ⟨root, hroot⟩ : ∃ root, CJSON.parse (lit "[1,\x7b\"a\":[]\x7d]") = some root := ⟨_, rfl⟩
  have hthree : (Position.below CJSON.child root).ncard = 3 := by
    rw [CJSON.ncard_below]
    cases hroot
    rfl
  have hcount := getLenght_counts (CJSON.built_of_parse hroot).onlyContainers
    (by rw [hthree]; decide) (show _ < 5 by rw [hthree]; decide)
  rw [hthree] at hcount
  exact ⟨root, hroot, hthree, hcount⟩

end LibJson
