import TypeWeave.Declaration
import TypeWeave.Sequence

/-!
# Source models

A model is the list of declarations of a source tree; a declaration is known by its index. Names may
repeat: `lookup` gives the declaration that was added last.
-/

namespace TypeWeave

/-- The declarations of a source tree, in order. An index stands for a handle of 32 bits, so a tree
of `2 ^ 32` declarations or more is outside what a model describes. -/
structure Model where
  decls : List Declaration := []
  deriving Repr

namespace Model

def size (m : Model) : Nat := m.decls.length

def isEmpty (m : Model) : Bool := m.decls.isEmpty

def decl? (m : Model) (id : Nat) : Option Declaration := m.decls[id]?

def name? (m : Model) (id : Nat) : Option String := (m.decl? id).map (·.qualified)

def lookup (m : Model) (qualified : String) : Option Nat :=
  lastIndex? (·.qualified == qualified) m.decls

theorem decl?_of_lookup {m : Model} {qualified : String} {id : Nat}
    (h : m.lookup qualified = some id) : ∃ d, m.decl? id = some d ∧ d.qualified = qualified := by
  obtain ⟨d, hd, hq⟩ := getElem?_of_lastIndex? h
  exact ⟨d, hd, by simpa using hq⟩

/-- The classes and enums whose qualified name contains `query`, in order. -/
def search (m : Model) (query : String) : List Nat :=
  indicesFrom 0 (fun d => d.kind.hasShape && Text.occursIn query d.qualified) m.decls

def push (m : Model) (d : Declaration) : Model := ⟨m.decls ++ [d]⟩

end Model

end TypeWeave
