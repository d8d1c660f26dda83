import TypeWeave.Proofs.Noninterference

/-!
# Closures come to their end

A visit begins a name of the model that is unseen before it visits anything else, and no visit makes
a name unseen again. So the number of unseen names gets smaller from a visit to those it leads to
(`Leads.card_lt`), and the walk is well founded, whatever cycles the references form and however
often a name repeats. The depth that bounds `visit` has no part in it: a closure is one visit that
goes on with closures (`extend_eq_visitWith`).

`Begins`: the names begun on the way from one registry to another. Each of them was unseen and is
begun once, which bounds the number of declarations that a closure can translate
(`Begins.card_add_length`).
-/

namespace TypeWeave.Closure

variable {m : Model} {layout : Option Layout}

-- ---------------------------------------------------------------------------
-- The depth makes no difference
-- ---------------------------------------------------------------------------

/-- One visit; `next` takes care of what the declaration refers to. -/
def visitWith (m : Model) (layout : Option Layout) (next : Nat → Registry → Outcome) (id : Nat)
    (r : Registry) : Outcome :=
  match m.decl? id with
  | none => { registry := r, fault := some (.unknownDeclaration id) }
  | some d =>
    match r.begin? d.qualified with
    | none => { registry := r }
    | some begun =>
      match runSteps next d.steps begun with
      | ⟨after, none⟩ => finish d.qualified (d.target? m layout) after
      | stopped => stopped

theorem visit_succ (m : Model) (layout : Option Layout) (depth : Nat) :
    visit m layout (depth + 1) = visitWith m layout (visit m layout depth) := rfl

theorem runSteps_extend_walk (m : Model) (layout : Option Layout) (steps : List Step)
    (r : Registry) :
    Walk m layout steps r (runSteps (extend m layout) steps r).registry
      (runSteps (extend m layout) steps r).fault :=
  runSteps_walk (fun id r _ => extend_walk m layout id r) steps (Nat.lt_succ_self _)

/-- Steps may be taken with a bounded visit, as long as the bound exceeds the unseen names. -/
theorem runSteps_visit_eq {depth : Nat} {r : Registry} (hr : (unseenNames m r).card < depth)
    (steps : List Step) :
    runSteps (visit m layout depth) steps r = runSteps (extend m layout) steps r := by
  have hw : Walk m layout steps r (runSteps (visit m layout depth) steps r).registry
      (runSteps (visit m layout depth) steps r).fault :=
    runSteps_walk (fun _ _ h => visit_walk h) steps hr
  obtain ⟨hregistry, hfault⟩ := hw.deterministic (runSteps_extend_walk m layout steps r)
  exact congrArg₂ Outcome.mk hregistry hfault

theorem extend_eq_visitWith (m : Model) (layout : Option Layout) (id : Nat) (r : Registry) :
    extend m layout id r = visitWith m layout (extend m layout) id r := by
  unfold extend
  rw [visit_succ]
  unfold visitWith
  cases hd : m.decl? id with
  | none => rfl
  | some d =>
    cases hb : r.begin? d.qualified with
    | none => simp only [hb]
    | some begun =>
      -- With this name begun, one level less than there were is still enough.
      have hlt : (unseenNames m begun).card < m.size :=
        Nat.lt_of_lt_of_le (card_unseenNames_lt hd hb) card_unseenNames_le_size
      simp only [hb, runSteps_visit_eq hlt]
      rfl

-- ---------------------------------------------------------------------------
-- Visits that lead to visits
-- ---------------------------------------------------------------------------

/-- Visiting the declaration of `outer` in its registry comes to visiting that of `inner`, with the
registry as it is by then. -/
def Leads (m : Model) (layout : Option Layout) (inner outer : Nat × Registry) : Prop :=
  ∃ d begun before rest, m.decl? outer.1 = some d ∧ outer.2.begin? d.qualified = some begun ∧
    d.steps = before ++ .reference inner.1 :: rest ∧
    runSteps (extend m layout) before begun = ⟨inner.2, none⟩

theorem card_runSteps_le (m : Model) (layout : Option Layout) (steps : List Step) (r : Registry) :
    (unseenNames m (runSteps (extend m layout) steps r).registry).card ≤
      (unseenNames m r).card :=
  card_unseenNames_le (runSteps_extend_walk m layout steps r).extension

theorem Leads.card_lt {inner outer : Nat × Registry} (h : Leads m layout inner outer) :
    (unseenNames m inner.2).card < (unseenNames m outer.2).card := by
  obtain ⟨d, begun, before, rest, hd, hb, -, hrun⟩ := h
  have hle := card_runSteps_le m layout before begun
  rw [hrun] at hle
  exact Nat.lt_of_le_of_lt hle (card_unseenNames_lt hd hb)

theorem leads_wellFounded (m : Model) (layout : Option Layout) : WellFounded (Leads m layout) :=
  Subrelation.wf Leads.card_lt
    (measure fun visit : Nat × Registry => (unseenNames m visit.2).card).wf

-- ---------------------------------------------------------------------------
-- The names a closure begins
-- ---------------------------------------------------------------------------

theorem mem_unseenNames {r : Registry} {name : String} :
    name ∈ unseenNames m r ↔ (∃ d ∈ m.decls, d.qualified = name) ∧ name ∉ r.names := by
  simp [unseenNames, Registry.mem_names_iff]

/-- `names` were begun on the way from `r` to `r'`, the last one first. -/
structure Begins (m : Model) (r r' : Registry) (names : List String) : Prop where
  begun : r'.names = names ++ r.names
  nodup : names.Nodup
  unseen : ∀ name ∈ names, name ∈ unseenNames m r

namespace Begins

variable {r r₁ r₂ : Registry} {names names' : List String}

theorem refl (m : Model) (r : Registry) : Begins m r r [] :=
  ⟨rfl, List.nodup_nil, fun _ hmem => (nomatch hmem)⟩

theorem trans (h : Begins m r r₁ names) (h' : Begins m r₁ r₂ names') :
    Begins m r r₂ (names' ++ names) := by
  -- What is begun later was unseen in `r₁`, so it is not among the names begun before.
  have hlater (name : String) (hmem : name ∈ names') :
      (∃ d ∈ m.decls, d.qualified = name) ∧ name ∉ names ∧ name ∉ r.names := by
    obtain ⟨hdecl, hn⟩ := mem_unseenNames.mp (h'.unseen name hmem)
    rw [h.begun, List.mem_append, not_or] at hn
    exact ⟨hdecl, hn⟩
  constructor
  · rw [h'.begun, h.begun, List.append_assoc]
  · refine List.nodup_append'.mpr ⟨h'.nodup, h.nodup, ?_⟩
    intro name hmem' hmem
    exact (hlater name hmem').2.1 hmem
  · intro name hmem
    rcases List.mem_append.mp hmem with hmem | hmem
    · exact mem_unseenNames.mpr ⟨(hlater name hmem).1, (hlater name hmem).2.2⟩
    · exact h.unseen name hmem

theorem of_begin? {id : Nat} {d : Declaration} {begun : Registry} (hd : m.decl? id = some d)
    (hb : r.begin? d.qualified = some begun) : Begins m r begun [d.qualified] := by
  refine ⟨Registry.names_of_begin? hb, List.nodup_singleton _, fun name hmem => ?_⟩
  obtain rfl := List.mem_singleton.mp hmem
  refine mem_unseenNames.mpr ⟨⟨d, List.mem_of_getElem? hd, rfl⟩, ?_⟩
  simp [Registry.mem_names_iff, Registry.slot?_eq_none_of_begin? hb]

theorem of_finish? {name : String} {output : Option TargetDecl} {finished : Registry}
    (hf : r.finish? name output = some finished) : Begins m r finished [] :=
  ⟨Registry.names_of_finish? hf, List.nodup_nil, fun _ hmem => (nomatch hmem)⟩

/-- What was unseen is still unseen or has been begun. -/
theorem card_add_length (h : Begins m r r₁ names) :
    (unseenNames m r₁).card + names.length = (unseenNames m r).card := by
  have hsub : names.toFinset ⊆ unseenNames m r := by
    intro name hmem
    exact h.unseen name (List.mem_toFinset.mp hmem)
  have hrest : unseenNames m r₁ = unseenNames m r \ names.toFinset := by
    ext name
    rw [Finset.mem_sdiff, mem_unseenNames, mem_unseenNames, h.begun, List.mem_append,
      List.mem_toFinset]
    tauto
  rw [hrest, ← List.toFinset_card_of_nodup h.nodup]
  exact Finset.card_sdiff_add_card_eq_card hsub

end Begins

theorem Walk.begins {steps : List Step} {r r' : Registry} {fault : Option Fault}
    (h : Walk m layout steps r r' fault) : ∃ names, Begins m r r' names := by
  induction h with
  | done => exact ⟨[], .refl _ _⟩
  | express _ _ ih => exact ih
  | unmappable => exact ⟨[], .refl _ _⟩
  | missing => exact ⟨[], .refl _ _⟩
  | known _ _ _ ih => exact ih
  | enter hd hb _ hf _ iha ihr =>
    obtain ⟨inner, hinner⟩ := iha
    obtain ⟨outer, houter⟩ := ihr
    exact ⟨_, (((Begins.of_begin? hd hb).trans hinner).trans (.of_finish? hf)).trans houter⟩
  | stuck hd hb _ ih =>
    obtain ⟨names, hnames⟩ := ih
    exact ⟨_, (Begins.of_begin? hd hb).trans hnames⟩

/-- The walk is well founded. Beginning a name of the model makes the unseen names fewer, and the
visits that follow never make them more; a closure begins no name twice, and no more names than were
unseen. -/
theorem extend_wellFounded (m : Model) (layout : Option Layout) :
    WellFounded (Leads m layout) ∧
    (∀ id r, extend m layout id r = visitWith m layout (extend m layout) id r) ∧
    (∀ id d r begun, m.decl? id = some d → r.begin? d.qualified = some begun →
      (unseenNames m begun).card < (unseenNames m r).card) ∧
    (∀ steps r, (unseenNames m (runSteps (extend m layout) steps r).registry).card ≤
      (unseenNames m r).card) ∧
    ∀ seed r, (extend m layout seed r).fault ≠ some .tooDeep ∧
      ∃ names, Begins m r (extend m layout seed r).registry names ∧
        names.length ≤ (unseenNames m r).card := by
  refine ⟨leads_wellFounded m layout, extend_eq_visitWith m layout, ?_, card_runSteps_le m layout,
    fun seed r => ?_⟩
  · intro id d r begun hd hb
    exact card_unseenNames_lt hd hb
  · have hw := extend_walk m layout seed r
    constructor
    · rcases hw.fault_cases with h | h | ⟨id, -, h⟩ <;> simp [h]
    · obtain ⟨names, hnames⟩ := hw.begins
      exact ⟨names, hnames, by have := hnames.card_add_length; omega⟩

/-- A cycle, a class that refers to itself and a name that repeats; one name is in progress. -/
theorem extend_wellFounded_sample :
    let r : Registry := ⟨[("tree.Base", .inProgress)], []⟩
    ∃ begun, r.begin? "tree.Node" = some begun ∧
      (unseenNames sampleVariant begun).card < (unseenNames sampleVariant r).card ∧
      ∃ names, Begins sampleVariant r (extend sampleVariant none 0 r).registry names ∧
        names.length ≤ (unseenNames sampleVariant r).card := by
  intro r
  obtain ⟨-, -, hlt, -, hbegins⟩ := extend_wellFounded sampleVariant none
  exact ⟨_, rfl, hlt 0 _ r _ rfl rfl, (hbegins 0 r).2⟩

end TypeWeave.Closure
