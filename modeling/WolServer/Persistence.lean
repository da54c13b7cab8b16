import WolServer.CJSONCut
import WolServer.LibJson

/-!
# Saving a tree, and loading it again

`Lib_Json::saveFile` and `Lib_Json::loadFile`. The files are what stands at
each path, and `FileOps` is what the system does with the operations of a
save and of a load that follows it: any of them may fail, the printer may run
out of memory, and of what `fprintf` prints, only the front may reach the
file.

`saveFile` opens the file before it has anything to write, which empties it,
and it does not look at what `fprintf` returns. `loadFile` reads no file above
a mebibyte, and `saveFile` writes one. `LibJson.persists_iff` says exactly when
a save and a load keep the tree all the same: `LibJson.Kept`.
-/

/-- The files: what stands at each path, if anything does. -/
abbrev Files := Bytes → Option Bytes

/-- **What the system does** with the operations of a save and a load. -/
structure FileOps where
  /-- `fopen(path, "w+")` opens the file. -/
  create : Bool
  /-- The heap the printer finds. -/
  heap : Heap
  /-- The most bytes of what `fprintf` prints that reach the file. -/
  written : ℕ
  /-- `stat` succeeds, if there is a file. -/
  stat : Bool
  /-- `fopen(path, "r")` opens the file. -/
  reopen : Bool
  /-- `calloc` returns the buffer. -/
  calloc : Bool
  /-- `fread` reads the file to its end. -/
  fread : Bool

namespace LibJson

variable (sprintf : Decimal → Bytes)

/-- **`Lib_Json::saveFile`**: its result, and the files afterwards. -/
def saveFile (o : FileOps) (files : Files) (root : Option CJSON) (path : Option Bytes)
    (useFormat : Bool) : Bool × Files :=
  match root, path with
  | some root, some path =>
    if o.create = false then (false, files)
    else
      -- `w+` empties the file
      let files := Function.update files path (some [])
      match CJSON.print sprintf root useFormat o.heap with
      | none => (false, files)
      | some strJson =>
        (true, Function.update files path (some ((strJson ++ [10]).take o.written)))
  | _, _ => (false, files)

/-- **`Lib_Json::loadFile`**. The buffer is longer than the file and zeroed,
so the text in it is terminated. -/
def loadFile (o : FileOps) (files : Files) (path : Option Bytes) : Option CJSON :=
  match path.bind files with
  | none => none
  | some buffer =>
    if o.stat = false then none
    else if 1048576 < buffer.length then none
    else if o.reopen = false then none
    else if o.calloc = false then none
    -- of an empty file, `fread` reads no item
    else if o.fread = false ∨ buffer = [] then none
    else CJSON.parse buffer

/-- **The tree is kept**: what is saved is loaded again, and what is not saved
leaves the file as it was. -/
def Persists (o : FileOps) (files : Files) (root : CJSON) (path : Option Bytes)
    (useFormat : Bool) : Prop :=
  let r := saveFile sprintf o files (some root) path useFormat
  (r.1 = true → ∃ c, loadFile o r.2 path = some c ∧ CJSON.Same root c)
    ∧ (r.1 = false → r.2 = files)

/-- The file is read: no operation fails, and it is not too long. -/
def Readable (o : FileOps) (length : ℕ) : Prop :=
  o.stat = true ∧ o.reopen = true ∧ o.calloc = true ∧ o.fread = true ∧ length ≤ 1048576

/-- **When the tree is kept**: there is nothing to save it to, or the text is
not printed and the file was empty before, or the text is printed and written
and the file can be read. -/
def Kept (o : FileOps) (files : Files) (root : CJSON) (path : Option Bytes)
    (useFormat : Bool) : Prop :=
  ∀ p, path = some p → o.create = true →
    (CJSON.print sprintf root useFormat o.heap = none → files p = some [])
      ∧ ∀ text, CJSON.print sprintf root useFormat o.heap = some text →
        CJSON.Complete root text o.written ∧ Readable o (min o.written (text.length + 1))

variable {sprintf} {o : FileOps} {files : Files}

/-- A file that is read is parsed. -/
theorem loadFile_eq_some {p : Bytes} {buffer : Bytes} {c : CJSON}
    (hfile : files p = some buffer) :
    loadFile o files (some p) = some c
      ↔ Readable o buffer.length ∧ CJSON.parse buffer = some c := by
  unfold loadFile Readable
  rw [Option.bind_some, hfile]
  dsimp only
  have hnil : buffer = [] → CJSON.parse buffer = none := by
    rintro rfl
    rfl
  split_ifs with h₁ h₂ h₃ h₄ h₅
  · simp [h₁]
  · simp [Nat.not_le.mpr h₂]
  · simp [h₃]
  · simp [h₄]
  · rcases h₅ with h₅ | h₅
    · simp [h₅]
    · simp [hnil h₅]
  · simp only [Bool.not_eq_false, not_or, Nat.not_lt] at h₁ h₂ h₃ h₄ h₅
    rw [and_iff_right ⟨h₁, h₃, h₄, h₅.1, h₂⟩]

/-- **What was printed is loaded exactly when it is complete and can be
read.** -/
theorem load_printed_iff {root : CJSON} (hb : CJSON.Built root) (hi : CJSON.Integral root)
    {useFormat : Bool} {text p : Bytes}
    (hprint : CJSON.print sprintf root useFormat o.heap = some text)
    (hfile : files p = some ((text ++ [10]).take o.written)) :
    (∃ c, loadFile o files (some p) = some c ∧ CJSON.Same root c)
      ↔ CJSON.Complete root text o.written ∧ Readable o (min o.written (text.length + 1)) := by
  have hlen : ((text ++ [10]).take o.written).length = min o.written (text.length + 1) := by
    rw [List.length_take, List.length_append, List.length_singleton]
  rw [← CJSON.parse_take hb hi hprint, ← hlen]
  constructor
  · rintro ⟨c, hload, hsame⟩
    obtain ⟨hread, hparse⟩ := (loadFile_eq_some hfile).mp hload
    exact ⟨⟨c, hparse, hsame⟩, hread⟩
  · rintro ⟨⟨c, hparse, hsame⟩, hread⟩
    exact ⟨c, (loadFile_eq_some hfile).mpr ⟨hread, hparse⟩, hsame⟩

/-- **A save and a load keep the tree exactly under `Kept`.** -/
theorem persists_iff {root : CJSON} (hb : CJSON.Built root) (hi : CJSON.Integral root)
    (o : FileOps) (files : Files) (path : Option Bytes) (useFormat : Bool) :
    Persists sprintf o files root path useFormat ↔ Kept sprintf o files root path useFormat := by
  cases path with
  | none =>
    exact iff_of_true ⟨fun h => absurd h Bool.false_ne_true, fun _ => rfl⟩
      (fun p hp => by cases hp)
  | some p =>
    unfold Persists saveFile Kept
    simp only [Option.some.injEq, forall_eq']
    by_cases hcreate : o.create = true
    · rw [if_neg (by simp [hcreate]), imp_iff_right hcreate]
      cases hprint : CJSON.print sprintf root useFormat o.heap with
      | none =>
        -- the file has been emptied
        have hsame : Function.update files p (some []) = files ↔ files p = some [] := by
          rw [Function.update_eq_self_iff, eq_comm]
        simp [hsame]
      | some text =>
        have hfile : Function.update (Function.update files p (some [])) p
            (some ((text ++ [10]).take o.written)) p = some ((text ++ [10]).take o.written) :=
          Function.update_self ..
        have hload := load_printed_iff hb hi hprint hfile
        simp only [true_implies, reduceCtorEq, false_implies, and_true, Option.some.injEq,
          forall_eq', true_and, hload]
    · have hfail : o.create = false := Bool.eq_false_of_not_eq_true hcreate
      rw [if_pos hfail]
      exact iff_of_true ⟨fun h => absurd h Bool.false_ne_true, fun _ => rfl⟩
        (fun h => absurd h hcreate)

/-- The tree `[1]`, saved with a formatted text and loaded again. -/
theorem persists_iff_ordinary :
    Persists (fun _ => []) ⟨true, fun _ => true, 100, true, true, true, true⟩
      (fun _ => none) (CJSON.ofJson (.arr [.num 1 0])) (some (lit "conf")) true := by
  have hb : CJSON.Built (CJSON.ofJson (.arr [.num 1 0])) :=
    CJSON.built_of_parse (t := lit "[1]") rfl
  have hi : CJSON.Integral (CJSON.ofJson (.arr [.num 1 0])) := by
    refine .mk (fun h => by cases h) (fun e he => ?_)
    obtain rfl := List.mem_singleton.mp he
    exact .mk (fun _ => ⟨1, by decide, by decide, rfl, CJSON.toRat_intCast 1⟩)
      (fun e he => absurd he List.not_mem_nil)
  refine (persists_iff hb hi _ _ _ _).mpr ?_
  rintro p - -
  have hprint : CJSON.print (fun _ => []) (CJSON.ofJson (.arr [.num 1 0])) true (fun _ => true)
      = some (lit "[1]") := by decide +kernel
  refine ⟨fun h => ?_, fun text h => ?_⟩
  · rw [hprint] at h
    cases h
  · rw [hprint] at h
    obtain rfl := Option.some.inj h
    exact ⟨by unfold CJSON.Complete; decide, rfl, rfl, rfl, rfl, by decide⟩

/-- **A tree is lost both ways.** On a full disk nothing is written, and the
save is reported as done; and when there is no memory for the text, the file is
empty already. -/
theorem tree_lost :
    ¬ Persists (fun _ => []) ⟨true, fun _ => true, 0, true, true, true, true⟩
        (fun _ => some (lit "[false]")) (CJSON.ofJson (.arr [.bool true])) (some (lit "conf"))
        false
      ∧ ¬ Persists (fun _ => []) ⟨true, fun _ => false, 100, true, true, true, true⟩
        (fun _ => some (lit "[false]")) (CJSON.ofJson (.arr [.bool true])) (some (lit "conf"))
        false := by
  constructor
  · rintro ⟨hsaved, -⟩
    obtain ⟨c, hload, -⟩ := hsaved rfl
    cases hload
  · rintro ⟨-, hkept⟩
    have hfile := congrFun (hkept rfl) (lit "conf")
    exact absurd hfile (by decide)

end LibJson
