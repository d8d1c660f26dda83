import Mathlib.Data.List.DropRight
import TypeWeave.Proofs.Translation

/-!
# Registries and their histories

A registry is begun, finished and reset from outside, in any order and with any names; what is not
allowed is refused. `replay` gives the registry after such a history.

The slot of a name goes from unseen to in progress to done, and only the operations on this name and
resets move it (`Operation.move`, `slot?_perform`). The finished names are kept apart from the
slots; the two agree after every history (`wellFormed_replay`). Nothing is lost from either of them,
which is shown by induction on the history from its end (`finished_replay`, `mem_names_replay`).
-/

namespace TypeWeave.Registry

-- ---------------------------------------------------------------------------
-- Operations
-- ---------------------------------------------------------------------------

inductive Operation where
  | begin (name : String)
  | finish (name : String) (output : Option TargetDecl)
  | reset
  deriving Repr, DecidableEq

namespace Operation

def result? (r : Registry) : Operation → Option Registry
  | begin name => r.begin? name
  | finish name output => r.finish? name output
  | reset => some r.reset

@[simp] theorem result?_begin : (begin name).result? r = r.begin? name := rfl
@[simp] theorem result?_finish : (finish name output).result? r = r.finish? name output := rfl
@[simp] theorem result?_reset : reset.result? r = some Registry.empty := rfl

/-- The slot of a name after an operation, from its slot before. -/
def move (name : String) : Operation → Option Slot → Option Slot
  | begin n, none => if n = name then some .inProgress else none
  | finish n output, some .inProgress => some (if n = name then .done output else .inProgress)
  | reset, _ => none
  | _, slot => slot

def begunName? : Operation → Option String
  | begin name => some name
  | _ => none

def finishedName? : Operation → Option String
  | finish name (some _) => some name
  | _ => none

end Operation

/-- A refused operation has no effect. -/
def perform (r : Registry) (op : Operation) : Registry := (op.result? r).getD r

def replay (ops : List Operation) : Registry := ops.foldl perform .empty

def accepted : Registry → List Operation → List Operation
  | _, [] => []
  | r, op :: ops =>
    if (op.result? r).isSome then op :: accepted (r.perform op) ops
    else accepted (r.perform op) ops

def sinceReset (ops : List Operation) : List Operation := ops.rtakeWhile (· ≠ .reset)

-- ---------------------------------------------------------------------------
-- One operation
-- ---------------------------------------------------------------------------

section
variable {r : Registry} {op : Operation} {name : String}

theorem perform_cases (r : Registry) (op : Operation) :
    (op = .reset ∧ r.perform op = .empty) ∨
    (∃ name, op = .begin name ∧ r.begin? name = some (r.perform op)) ∨
    (∃ name output, op = .finish name output ∧ r.finish? name output = some (r.perform op)) ∨
    (op ≠ .reset ∧ op.result? r = none ∧ r.perform op = r) := by
  cases ha : op.result? r with
  | none =>
    refine .inr (.inr (.inr ⟨?_, rfl, by simp [perform, ha]⟩))
    rintro rfl
    cases ha
  | some after =>
    have hafter : r.perform op = after := by simp [perform, ha]
    rw [hafter]
    cases op with
    | begin name => exact .inr (.inl ⟨name, rfl, ha⟩)
    | finish name output => exact .inr (.inr (.inl ⟨name, output, rfl, ha⟩))
    | reset => exact .inl ⟨rfl, (Option.some.inj ha).symm⟩

theorem begin?_isSome_iff : (r.begin? name).isSome ↔ r.slot? name = none := by
  unfold begin? isKnown
  cases h : r.slot? name <;> simp

theorem move_of_refused (h : op.result? r = none) (name : String) :
    op.move name (r.slot? name) = r.slot? name := by
  cases op with
  | begin n =>
    have hn : r.slot? n ≠ none := by simpa [← begin?_isSome_iff] using h
    cases hslot : r.slot? name with
    | none =>
      have hne : n ≠ name := by
        rintro rfl
        exact hn hslot
      simp [Operation.move, hne]
    | some slot => rfl
  | finish n output =>
    have hn : r.slot? n ≠ some .inProgress := by
      intro hp
      have hsome : (r.finish? n output).isSome := finish?_isSome_iff.mpr hp
      simp_all
    cases hslot : r.slot? name with
    | none => rfl
    | some slot =>
      cases slot with
      | inProgress =>
        have hne : n ≠ name := by
          rintro rfl
          exact hn hslot
        simp [Operation.move, hne]
      | done output => rfl
  | reset => cases h

theorem slot?_perform (r : Registry) (op : Operation) (name : String) :
    (r.perform op).slot? name = op.move name (r.slot? name) := by
  rcases perform_cases r op with ⟨rfl, h⟩ | ⟨n, rfl, hb⟩ | ⟨n, output, rfl, hf⟩ | ⟨-, hrefused, h⟩
  · simp [h, Operation.move]
  · by_cases hn : name = n
    · subst hn
      simp [slot?_of_begin?_self hb, slot?_eq_none_of_begin? hb, Operation.move]
    · rw [slot?_of_begin?_ne hb hn]
      cases r.slot? name <;> simp [Operation.move, Ne.symm hn]
  · by_cases hn : name = n
    · subst hn
      simp [slot?_of_finish?_self hf, inProgress_of_finish? hf, Operation.move]
    · rw [slot?_of_finish?_ne hf hn]
      rcases r.slot? name with - | - | - <;> simp [Operation.move, Ne.symm hn]
  · rw [h, move_of_refused hrefused]

/-- Without a reset a slot stays as it is or goes one step further. -/
inductive Advances : Option Slot → Option Slot → Prop
  | stay {slot} : Advances slot slot
  | begun : Advances none (some .inProgress)
  | done {output} : Advances (some .inProgress) (some (.done output))

theorem advances_move (h : op ≠ .reset) (name : String) (slot : Option Slot) :
    Advances slot (op.move name slot) := by
  unfold Operation.move
  split
  · split
    · exact .begun
    · exact .stay
  · split
    · exact .done
    · exact .stay
  · exact absurd rfl h
  · exact .stay

end

-- ---------------------------------------------------------------------------
-- Histories
-- ---------------------------------------------------------------------------

section
variable {ops : List Operation} {op : Operation} {name : String}

@[simp] theorem replay_concat : replay (ops ++ [op]) = (replay ops).perform op := by
  simp [replay]

theorem accepted_concat (r : Registry) : accepted r (ops ++ [op]) =
    accepted r ops ++ if (op.result? (ops.foldl perform r)).isSome then [op] else [] := by
  induction ops generalizing r with
  | nil => rfl
  | cons first rest ih =>
    simp only [List.cons_append, accepted, ih, List.foldl_cons]
    split <;> rfl

theorem sinceReset_reset : sinceReset (ops ++ [.reset]) = [] := by
  simp [sinceReset]

theorem sinceReset_concat (h : op ≠ .reset) :
    sinceReset (ops ++ [op]) = sinceReset ops ++ [op] := by
  simp [sinceReset, h]

theorem slot?_replay (ops : List Operation) (name : String) :
    (replay ops).slot? name = ops.foldl (fun slot op => op.move name slot) none := by
  induction ops using List.reverseRecOn with
  | nil => rfl
  | append_singleton ops op ih => simp [slot?_perform, ih]

/-- What holds of the empty registry and is kept by beginning and by finishing a name. -/
theorem replay_induction {P : Registry → Prop} (empty : P .empty)
    (begin : ∀ {r r' name}, P r → r.begin? name = some r' → P r')
    (finish : ∀ {r r' name output}, P r → r.finish? name output = some r' → P r')
    (ops : List Operation) : P (replay ops) := by
  induction ops using List.reverseRecOn with
  | nil => exact empty
  | append_singleton ops op ih =>
    rw [replay_concat]
    rcases perform_cases (replay ops) op with ⟨-, h⟩ | ⟨_, -, hb⟩ | ⟨_, _, -, hf⟩ | ⟨-, -, h⟩
    · rwa [h]
    · exact begin ih hb
    · exact finish ih hf
    · rwa [h]

theorem wellFormed_replay (ops : List Operation) : (replay ops).WellFormed :=
  replay_induction .empty (fun h hb => h.begin? hb) (fun h hf => h.finish? hf) ops

theorem nodup_names_replay (ops : List Operation) : (replay ops).names.Nodup := by
  refine replay_induction (P := fun r => r.names.Nodup) List.nodup_nil ?_ ?_ ops
  · intro r r' name h hb
    rw [names_of_begin? hb, List.nodup_cons, mem_names_iff]
    exact ⟨fun hn => hn (slot?_eq_none_of_begin? hb), h⟩
  · intro r r' name output h hf
    rwa [names_of_finish? hf]

/-- The finished names are those that were finished with an output since the last reset, in this
order. -/
theorem finished_replay (ops : List Operation) :
    (replay ops).finished =
      (sinceReset (accepted .empty ops)).filterMap Operation.finishedName? := by
  induction ops using List.reverseRecOn with
  | nil => rfl
  | append_singleton ops op ih =>
    have hops : ops.foldl perform .empty = replay ops := rfl
    rw [replay_concat, accepted_concat, hops]
    rcases perform_cases (replay ops) op with
      ⟨rfl, h⟩ | ⟨n, rfl, hb⟩ | ⟨n, output, rfl, hf⟩ | ⟨-, hrefused, h⟩
    · rw [h, Operation.result?_reset]
      simp [sinceReset_reset, empty]
    · rw [finished_of_begin? hb, Operation.result?_begin, hb, ih]
      simp [sinceReset_concat, Operation.finishedName?]
    · rw [finished_of_finish? hf, Operation.result?_finish, hf, ih]
      cases output <;> simp [sinceReset_concat, Operation.finishedName?]
    · rw [h, hrefused, ih]
      simp

theorem mem_names_replay (ops : List Operation) (name : String) :
    name ∈ (replay ops).names ↔ name ∈ (sinceReset ops).filterMap Operation.begunName? := by
  induction ops using List.reverseRecOn with
  | nil => simp [replay, names, empty, sinceReset]
  | append_singleton ops op ih =>
    rw [replay_concat]
    rcases perform_cases (replay ops) op with
      ⟨rfl, h⟩ | ⟨n, rfl, hb⟩ | ⟨n, output, rfl, hf⟩ | ⟨hne, hrefused, h⟩
    · simp [h, sinceReset_reset, names, empty]
    · rw [names_of_begin? hb, List.mem_cons, ih]
      simp [sinceReset_concat, Operation.begunName?, or_comm]
    · rw [names_of_finish? hf, ih]
      simp [sinceReset_concat, Operation.begunName?]
    · rw [h, sinceReset_concat hne, List.filterMap_append, List.mem_append, ← ih]
      -- A refused `begin` adds nothing: its name was begun before, since the same reset.
      cases op with
      | begin n =>
        have hn : n ∈ (replay ops).names := by
          rw [mem_names_iff, ne_eq, ← begin?_isSome_iff]
          simpa using hrefused
        simp only [Operation.begunName?, List.filterMap_cons, List.filterMap_nil,
          List.mem_singleton]
        constructor
        · exact .inl
        · rintro (hmem | rfl)
          · exact hmem
          · exact hn
      | finish n output => simp [Operation.begunName?]
      | reset => exact absurd rfl hne

theorem size_replay (ops : List Operation) :
    (replay ops).size = ((sinceReset ops).filterMap Operation.begunName?).toFinset.card := by
  rw [← length_names, ← List.toFinset_card_of_nodup (nodup_names_replay ops)]
  congr 1
  ext name
  rw [List.mem_toFinset, List.mem_toFinset, mem_names_replay]

end

section
variable {r : Registry}

theorem WellFormed.forall₂_outputs (h : r.WellFormed) :
    List.Forall₂ (fun name t => r.get? name = some t) r.finished r.outputs := by
  refine forall₂_filterMap fun name hmem => ?_
  obtain ⟨t, ht⟩ := (h.mem_finished name).mp hmem
  simp [get?_eq_some_iff.mpr ht]

theorem WellFormed.isSome_get?_iff (h : r.WellFormed) (name : String) :
    (r.get? name).isSome ↔ name ∈ r.finished := by
  simp only [h.mem_finished, Option.isSome_iff_exists, get?_eq_some_iff]

end

/-- What may be done to a registry, and what it does to the slots. -/
structure Governed (r : Registry) : Prop where
  begin : ∀ name, (r.begin? name).isSome ↔ r.slot? name = none
  finish : ∀ name output, (r.finish? name output).isSome ↔ r.slot? name = some .inProgress
  reset : ∀ name, (r.perform .reset).slot? name = none
  refused : ∀ op, op.result? r = none → r.perform op = r
  slot : ∀ op name, (r.perform op).slot? name = op.move name (r.slot? name)
  advances : ∀ op name, op ≠ .reset → Advances (r.slot? name) ((r.perform op).slot? name)

theorem governed (r : Registry) : Governed r where
  begin _ := begin?_isSome_iff
  finish _ _ := finish?_isSome_iff
  reset _ := by simp [perform]
  refused op h := by simp [perform, h]
  slot := slot?_perform r
  advances op name h := by
    rw [slot?_perform]
    exact advances_move h name _

/-- What a registry says about the history that led to it. -/
structure Records (ops : List Operation) (r : Registry) : Prop where
  slot : ∀ name, r.slot? name = ops.foldl (fun slot op => op.move name slot) none
  nodup : r.finished.Nodup
  mem_finished : ∀ name, name ∈ r.finished ↔ ∃ t, r.slot? name = some (.done (some t))
  finished : r.finished = (sinceReset (accepted .empty ops)).filterMap Operation.finishedName?
  outputs : List.Forall₂ (fun name t => r.get? name = some t) r.finished r.outputs
  get? : ∀ name, (r.get? name).isSome ↔ name ∈ r.finished
  size : r.size = ((sinceReset ops).filterMap Operation.begunName?).toFinset.card

/-- After every history, refused operations and resets included, the slots allow what they should
and the finished names are those of the slots, in the order of the history. -/
theorem replay_records (ops : List Operation) :
    Governed (replay ops) ∧ Records ops (replay ops) := by
  have hw := wellFormed_replay ops
  refine ⟨governed _, ?_⟩
  exact {
    slot := slot?_replay ops
    nodup := hw.nodup
    mem_finished := hw.mem_finished
    finished := finished_replay ops
    outputs := hw.forall₂_outputs
    get? := hw.isSome_get?_iff
    size := size_replay ops }

end TypeWeave.Registry
