import TypeWeave.Text.Pieces

/-!
# JSON documents

Documents of strings, lists and records, printed over several lines with two spaces of indentation
for every level.
-/

namespace TypeWeave

inductive Json where
  | null
  | str (text : String)
  | arr (items : List Json)
  | obj (fields : List (String × Json))
  deriving Repr

namespace Json

def ofOption (f : α → Json) : Option α → Json
  | some a => f a
  | none => null

def hexDigit (n : Nat) : Char := if n < 10 then Char.ofNat (48 + n) else Char.ofNat (87 + n)

def escapeChar (c : Char) : List Char :=
  if c = '"' then ['\\', '"']
  else if c = '\\' then ['\\', '\\']
  else if c.toNat = 0x08 then ['\\', 'b']
  else if c.toNat = 0x09 then ['\\', 't']
  else if c.toNat = 0x0A then ['\\', 'n']
  else if c.toNat = 0x0C then ['\\', 'f']
  else if c.toNat = 0x0D then ['\\', 'r']
  else if c.toNat < 0x20 then
    ['\\', 'u', '0', '0', hexDigit (c.toNat / 16), hexDigit (c.toNat % 16)]
  else [c]

def quoted (text : String) : String :=
  String.ofList ('"' :: (text.toList.flatMap escapeChar ++ ['"']))

def indentation (depth : Nat) : String := String.ofList (List.replicate (2 * depth) ' ')

def block (opening closing : String) (depth : Nat) (entries : List String) : String :=
  if entries.isEmpty then opening ++ closing
  else
    let lines := entries.map fun e => indentation (depth + 1) ++ e
    opening ++ "\n" ++ Text.join ",\n" lines ++ "\n" ++ indentation depth ++ closing

mutual
/-- The text of a document whose first line stands at a depth of indentation. -/
def render (depth : Nat) : Json → String
  | null => "null"
  | str text => quoted text
  | arr items => block "[" "]" depth (renderItems (depth + 1) items)
  | obj fields => block "\x7b" "\x7d" depth (renderFields (depth + 1) fields)
def renderItems (depth : Nat) : List Json → List String
  | [] => []
  | item :: items => render depth item :: renderItems depth items
def renderFields (depth : Nat) : List (String × Json) → List String
  | [] => []
  | (key, value) :: fields =>
    (quoted key ++ ": " ++ render depth value) :: renderFields depth fields
end

def pretty (j : Json) : String := j.render 0

end Json

end TypeWeave
