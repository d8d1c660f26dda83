import TypeWeave.Query

/-!
# Asking for seeds

A dialogue on lines of text: a name is asked for until it stands for a declaration, and if it stands
for several, one of them is chosen by its number. The end of the input ends the dialogue.
-/

namespace TypeWeave

namespace Prompt

/-- The lines of a text; a line end at the very end starts no further line. -/
def lines (text : String) : List String :=
  let pieces := Text.pieces '\n' text.toList
  let pieces := if pieces.getLast? = some [] then pieces.dropLast else pieces
  pieces.map String.ofList

def digit? (c : Char) : Option Nat := if c.isDigit then some (c.toNat - '0'.toNat) else none

/-- The number written by decimal digits, read on from `value`. -/
def digits? (value : Nat) : List Char → Option Nat
  | [] => some value
  | c :: cs =>
    match digit? c with
    | some d => digits? (value * 10 + d) cs
    | none => none

def number? (text : String) : Option Nat :=
  match text.toList with
  | [] | ['+'] => none
  | '+' :: cs => digits? 0 cs
  | cs => digits? 0 cs

/-- What a dialogue leaves: the seed that was picked, the lines not yet read, and what was
written. -/
structure Turn where
  picked : Option Nat
  rest : List String
  transcript : String
  deriving Repr, DecidableEq

def Turn.after (text : String) (o : Turn) : Turn :=
  { o with transcript := text ++ o.transcript }

def choices (m : Model) (candidates : List Nat) : String :=
  "Select element to translate:\n" ++
    Text.join "" (candidates.zipIdx.map fun (id, i) =>
      "  [" ++ toString i ++ "]: " ++ (m.name? id).getD "" ++ "\n")

def choose (m : Model) (candidates : List Nat) : List String → Turn
  | [] => ⟨none, [], choices m candidates⟩
  | line :: rest =>
    let answer := Text.trim line
    match (number? answer).bind (candidates[·]?) with
    | some id => ⟨some id, rest, choices m candidates⟩
    | none =>
      (choose m candidates rest).after
        (choices m candidates ++ "Invalid choice: " ++ answer ++ "\n")

def question : String := "Enter java class qualified name:\n"

def next (m : Model) : List String → Turn
  | [] => ⟨none, [], question⟩
  | line :: rest =>
    let query := Text.trim line
    match m.candidates query with
    | [] =>
      (next m rest).after
        (question ++ if query = "" then "" else "Nothing found for: " ++ query ++ "\n")
    | [id] => ⟨some id, rest, question⟩
    | many => (choose m many rest).after question

theorem length_rest_choose_le (m : Model) (candidates : List Nat) (lines : List String) :
    (choose m candidates lines).rest.length ≤ lines.length := by
  induction lines with
  | nil => simp [choose]
  | cons line rest ih =>
    rw [choose]
    split
    · simp
    · exact Nat.le_succ_of_le ih

/-- Every seed takes at least one line. -/
theorem length_rest_next_lt {m : Model} {lines : List String} {id : Nat}
    (h : (next m lines).picked = some id) : (next m lines).rest.length < lines.length := by
  induction lines with
  | nil => simp [next] at h
  | cons line rest ih =>
    rw [next] at h ⊢
    split at h
    · exact Nat.lt_succ_of_lt (ih h)
    · exact Nat.lt_succ_self rest.length
    · exact Nat.lt_succ_of_le (length_rest_choose_le m _ rest)

def sessionFrom (m : Model) (lines : List String) : List Nat × String :=
  match h : (next m lines).picked with
  | none => ([], (next m lines).transcript)
  | some id =>
    have := length_rest_next_lt h
    let (ids, transcript) := sessionFrom m (next m lines).rest
    (id :: ids, (next m lines).transcript ++ transcript)
termination_by lines.length

def session (m : Model) (input : String) : List Nat × String := sessionFrom m (lines input)

end Prompt

end TypeWeave
