import TypeWeave.Target

/-!
# Registries

What one run knows about each qualified name. A name is unseen, in progress or done; it is begun
once and finished once, and meeting it in progress is what stops cyclic references. A name that is
done may have no output.
-/

namespace TypeWeave

inductive Slot where
  | inProgress
  /-- Finished, with the output if there is any. -/
  | done (output : Option TargetDecl)
  deriving Repr, DecidableEq

/-- The names seen in a run, and those with output in the order in which they were finished. -/
structure Registry where
  slots : List (String × Slot) := []
  finished : List String := []
  deriving Repr, DecidableEq

namespace Registry

def empty : Registry := {}

def slot? (r : Registry) (name : String) : Option Slot := r.slots.lookup name

def isKnown (r : Registry) (name : String) : Bool := (r.slot? name).isSome

def begin? (r : Registry) (name : String) : Option Registry :=
  if r.isKnown name then none
  else some { r with slots := (name, .inProgress) :: r.slots }

def replaceSlot (name : String) (slot : Slot) (slots : List (String × Slot)) :
    List (String × Slot) :=
  slots.map fun entry => if entry.1 == name then (entry.1, slot) else entry

def finish? (r : Registry) (name : String) (output : Option TargetDecl) : Option Registry :=
  if r.slot? name = some .inProgress then
    some {
      slots := replaceSlot name (.done output) r.slots
      finished := if output.isSome then r.finished ++ [name] else r.finished }
  else none

def get? (r : Registry) (name : String) : Option TargetDecl :=
  match r.slot? name with
  | some (.done output) => output
  | _ => none

/-- Every output, in the order in which the names were finished. -/
def outputs (r : Registry) : List TargetDecl := r.finished.filterMap r.get?

def reset (_ : Registry) : Registry := empty

def size (r : Registry) : Nat := r.slots.length

def isEmpty (r : Registry) : Bool := r.slots.isEmpty

/-! ## What the operations do to the slots -/

@[simp] theorem slot?_empty (name : String) : empty.slot? name = none := rfl

theorem lookup_cons_eq_ite (n key : String) (slot : Slot) (rest : List (String × Slot)) :
    ((key, slot) :: rest).lookup n = if n = key then some slot else rest.lookup n := by
  by_cases h : n = key
  · simp [h]
  · have hb : (n == key) = false := by simpa using h
    simp [List.lookup_cons, hb, h]

theorem lookup_replaceSlot (name n : String) (slot : Slot) (slots : List (String × Slot)) :
    (replaceSlot name slot slots).lookup n =
      if n = name then (slots.lookup n).map fun _ => slot else slots.lookup n := by
  induction slots with
  | nil => simp [replaceSlot]
  | cons entry rest ih =>
    obtain ⟨key, old⟩ := entry
    simp only [replaceSlot, List.map_cons] at ih ⊢
    by_cases hk : key = name
    · by_cases hn : n = key <;> simp_all [lookup_cons_eq_ite]
    · have hk' : name ≠ key := Ne.symm hk
      by_cases hn : n = key <;> simp_all [lookup_cons_eq_ite]

theorem begin?_eq_some_iff {r after : Registry} {name : String} :
    r.begin? name = some after ↔
      r.slot? name = none ∧ after = { r with slots := (name, .inProgress) :: r.slots } := by
  unfold begin? isKnown
  cases h : r.slot? name <;> simp [eq_comm]

theorem slot?_of_begin? {r after : Registry} {name : String} (h : r.begin? name = some after)
    (n : String) : after.slot? n = if n = name then some .inProgress else r.slot? n := by
  obtain ⟨_, rfl⟩ := begin?_eq_some_iff.mp h
  simp [slot?, lookup_cons_eq_ite]

theorem finish?_isSome_iff {r : Registry} {name : String} {output : Option TargetDecl} :
    (r.finish? name output).isSome ↔ r.slot? name = some .inProgress := by
  unfold finish?
  split <;> simp_all

theorem slot?_of_finish? {r after : Registry} {name : String} {output : Option TargetDecl}
    (h : r.finish? name output = some after) (n : String) :
    after.slot? n = if n = name then some (.done output) else r.slot? n := by
  unfold finish? at h
  split at h
  · next hp =>
    obtain rfl := Option.some.inj h
    by_cases hn : n = name
    · subst hn
      simp only [slot?] at hp
      simp [slot?, lookup_replaceSlot, hp]
    · simp [slot?, lookup_replaceSlot, hn]
  · cases h

end Registry

end TypeWeave
