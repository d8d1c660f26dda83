import TypeWeave.Declaration
import TypeWeave.Java.Tree

/-!
# Modifiers

The words and annotations in front of a declaration, and the visibility they give.
-/

namespace TypeWeave.Java

def modifiers : List String :=
  ["public", "protected", "private", "abstract", "static", "final", "strictfp", "default",
    "synchronized", "native", "transient", "volatile", "sealed"]

def modifier? (t : Tree) : Option String := t.word?.filter modifiers.contains

/-- What an annotation is if it is none, but the keyword that declares an annotation type: the rest
of the word that starts with `interface` right after the `@`. -/
def annotationKeyword? : Tree → Option String
  | .annotationTree (_ :: .leaf name :: _) =>
    if name.gap == "" && "interface".toList.isPrefixOf name.text.toList then
      some (String.ofList (name.text.toList.drop "interface".length))
    else none
  | _ => none

/-- What follows `non-sealed`, the one modifier that is no word. Nothing may stand between its
parts, while the next word may follow it without a gap. -/
def afterNonSealed? : List Tree → Option (List Tree)
  | .leaf non :: dash :: .leaf last :: rest =>
    if non.text == "non" && dash.continuesWith "-" && last.gap == "" &&
        "sealed".toList.isPrefixOf last.text.toList then
      match last.text.toList.drop "sealed".length with
      | [] => some rest
      | glued => some (.leaf ⟨"", .word, String.ofList glued⟩ :: rest)
    else none
  | _ => none

theorem length_lt_of_afterNonSealed? {ts rest : List Tree} (h : afterNonSealed? ts = some rest) :
    rest.length < ts.length := by
  unfold afterNonSealed? at h
  split at h
  · split at h
    · split at h <;> cases h <;> simp only [List.length_cons] <;> omega
    · cases h
  · cases h

def cutModifiers (ts : List Tree) : List String × List Tree :=
  match ts with
  | [] => ([], [])
  | t :: rest =>
    match modifier? t with
    | some word =>
      let (words, rest) := cutModifiers rest
      (word :: words, rest)
    | none =>
      if t.isAnnotationTree && (annotationKeyword? t).isNone then cutModifiers rest
      else
        match h : afterNonSealed? (t :: rest) with
        | some rest =>
          have := length_lt_of_afterNonSealed? h
          let (words, rest) := cutModifiers rest
          ("non-sealed" :: words, rest)
        | none => ([], t :: rest)
termination_by ts.length
decreasing_by
  · exact Nat.lt_succ_self rest.length
  · exact Nat.lt_succ_self rest.length
  · assumption

def accessOf? (word : String) : Option Visibility :=
  match word with
  | "private" => some .privateAccess
  | "protected" => some .protectedAccess
  | "public" => some .publicAccess
  | _ => none

def visibilityOf (words : List String) : Visibility :=
  (words.findSome? accessOf?).getD .packageAccess

end TypeWeave.Java
