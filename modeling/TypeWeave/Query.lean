import TypeWeave.Model
import TypeWeave.Text.Blank

/-!
# Seeds

Finding the declaration a run starts from by a part of its qualified name.
-/

namespace TypeWeave

inductive QueryError where
  | notFound (query : String)
  /-- Several declarations match; they are given by name. -/
  | ambiguous (query : String) (candidates : List String)
  deriving Repr, DecidableEq

namespace QueryError

def message : QueryError → String
  | notFound query => "nothing found for: " ++ query
  | ambiguous query candidates =>
    toString candidates.length ++ " declarations match '" ++ query ++ "': " ++
      Text.join ", " candidates

end QueryError

namespace Model

/-- The classes and enums that match a query, blanks around it aside. The first one whose qualified
name is the query is the only candidate. A blank query has no candidates. -/
def candidates (m : Model) (query : String) : List Nat :=
  let query := Text.trim query
  if query = "" then []
  else
    let found := m.search query
    match found.find? fun id => m.name? id = some query with
    | some exact => [exact]
    | none => found

def select (m : Model) (query : String) : Except QueryError Nat :=
  match m.candidates query with
  | [] => .error (.notFound query)
  | [id] => .ok id
  | many => .error (.ambiguous query (many.filterMap m.name?))

end Model

end TypeWeave
