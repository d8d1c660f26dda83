import TypeWeave.Java.Token

/-!
# Bracket trees

Tokens grouped by round, square and curly brackets. Angle brackets are not grouped: whether `<`
opens a list of type arguments depends on what stands around it. A closing bracket without its
opening one is dropped, and what is still open at the end of the text is closed there.

Among the trees at one place annotations can be gathered into trees of their own, so that readers
may pass over them without losing their text.
-/

namespace TypeWeave.Java

inductive Tree where
  | leaf (token : Token)
  | group (opening : Token) (inner : List Tree) (closing : Option Token)
  | annotationTree (parts : List Tree)
  deriving Repr

def closerOf? (opening : String) : Option String :=
  match opening with
  | "(" => some ")"
  | "[" => some "]"
  | "\x7b" => some "\x7d"
  | _ => none

def isCloser (text : String) : Bool := text = ")" || text = "]" || text = "\x7d"

namespace Tree

def isLeaf (text : String) : Tree → Bool
  | leaf t => t.text == text
  | _ => false

def isGroup (opening : String) : Tree → Bool
  | group o _ _ => o.text == opening
  | _ => false

def isDimension : Tree → Bool
  | group o inner _ => o.text == "[" && inner.isEmpty
  | _ => false

def isAnnotationTree : Tree → Bool
  | annotationTree _ => true
  | _ => false

/-- Whether the tree is this token, right after the one before. -/
def continuesWith (text : String) : Tree → Bool
  | leaf t => t.gap == "" && t.text == text
  | _ => false

def word? : Tree → Option String
  | leaf t => if t.kind = .word then some t.text else none
  | _ => none

mutual
def tokens : Tree → List Token
  | leaf t => [t]
  | group opening inner closing => opening :: (tokensOf inner ++ closing.toList)
  | annotationTree parts => tokensOf parts
def tokensOf : List Tree → List Token
  | [] => []
  | t :: ts => t.tokens ++ tokensOf ts
end

end Tree

def sourceText : List Token → String
  | [] => ""
  | first :: rest => first.text ++ rest.foldr (fun t text => t.gap ++ t.text ++ text) ""

/-- The groups that are open, innermost first: each with its opening bracket and, last first, the
trees before it. -/
abbrev OpenGroups := List (Token × List Tree)

def closeAll (current : List Tree) : OpenGroups → List Tree
  | [] => current.reverse
  | (opening, before) :: rest => closeAll (.group opening current.reverse none :: before) rest

/-- Groups tokens. `current` holds the trees of the innermost open group, last first. -/
def groupTokens (current : List Tree) : OpenGroups → List Token → List Tree
  | stack, [] => closeAll current stack
  | stack, t :: ts =>
    if t.kind = .mark && (closerOf? t.text).isSome then groupTokens [] ((t, current) :: stack) ts
    else if t.kind = .mark && isCloser t.text then
      match stack with
      | (opening, before) :: rest =>
        if closerOf? opening.text = some t.text then
          groupTokens (.group opening current.reverse (some t) :: before) rest ts
        else groupTokens current stack ts
      -- Nothing is open that this bracket could close.
      | [] => groupTokens current [] ts
    else groupTokens (.leaf t :: current) stack ts

def parseTrees (tokens : List Token) : List Tree := groupTokens [] [] tokens

/-- Puts an annotation in front of the trees that follow it. `parts` holds its parts, last first; an
annotation without parts is none. -/
def annotationBefore (parts following : List Tree) : List Tree :=
  if parts.isEmpty then following else .annotationTree parts.reverse :: following

/-- Gathers annotations: `@`, a dotted name, and a group in round brackets if there is one. `parts`
holds what has been read of an annotation, last first. -/
def gatherFrom (parts : List Tree) : List Tree → List Tree
  | [] => annotationBefore parts []
  | .leaf t :: .leaf name :: rest =>
    if name.kind = .word && t.text == "@" then
      annotationBefore parts (gatherFrom [.leaf name, .leaf t] rest)
    else if name.kind = .word && t.text == "." && !parts.isEmpty then
      gatherFrom (.leaf name :: .leaf t :: parts) rest
    else annotationBefore parts (.leaf t :: gatherFrom [] (.leaf name :: rest))
  | t :: rest =>
    if t.isGroup "(" && !parts.isEmpty then annotationBefore (t :: parts) (gatherFrom [] rest)
    else annotationBefore parts (t :: gatherFrom [] rest)

def gatherAnnotations (ts : List Tree) : List Tree := gatherFrom [] ts

def dropAnnotations (ts : List Tree) : List Tree := ts.filter fun t => !t.isAnnotationTree

end TypeWeave.Java
