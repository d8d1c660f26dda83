import Mathlib.Data.Finset.Card
import Mathlib.Data.Finset.Dedup
import TypeWeave.Proofs.Edges

/-!
# The walk as a relation

`Walk m layout steps r r' fault`: taking `steps` from the registry `r` leads to `r'` and stops there
with `fault`, if there is one. The relation has no bound on the depth and no rule for a name that is
finished while not in progress. `extend_walk` says that closures are walks all the same: the bound
is never met, and neither is that fault. Everything else about closures is proved by induction on
walks.

A walk that ends without a fault has an induction principle of its own, `Walk.success_induction`.
-/

namespace TypeWeave

namespace Declaration

/-- Every type that the output of the declaration has to spell has an expression. -/
def Expressible (d : Declaration) : Prop := ∀ type, Step.express type ∈ d.steps → type.target?.isSome

variable {d : Declaration} {m : Model} {layout : Option Layout} {t : TargetDecl}

theorem isSome_target? : (d.target? m layout).isSome = d.kind.hasShape := by
  unfold target? DeclKind.hasShape
  cases d.kind <;> rfl

theorem qualified_of_target? (h : d.target? m layout = some t) : t.qualified = d.qualified := by
  unfold target? at h
  split at h <;> cases h <;> rfl

end Declaration

/-- The declaration at `id` is at the end of a fresh path from one that the steps visit. -/
def Model.FreshFrom (m : Model) (r : Registry) (steps : List Step) (id : Nat) : Prop :=
  ∃ start, Step.reference start ∈ steps ∧ m.FreshPath r start id

theorem Model.FreshFrom.anti {m : Model} {r r' : Registry} {steps steps' : List Step} {id : Nat}
    (h : m.FreshFrom r' steps' id) (he : r.Extends r') (hs : steps' ⊆ steps) :
    m.FreshFrom r steps id := by
  obtain ⟨start, hm, hp⟩ := h
  exact ⟨start, hs hm, hp.anti he⟩

namespace Closure

/-- What taking steps from a registry comes to. -/
inductive Walk (m : Model) (layout : Option Layout) :
    List Step → Registry → Registry → Option Fault → Prop
  | done {r} : Walk m layout [] r r none
  | express {type rest r r' fault} : type.target?.isSome → Walk m layout rest r r' fault →
      Walk m layout (.express type :: rest) r r' fault
  | unmappable {type rest r} : type.target?.isSome = false →
      Walk m layout (.express type :: rest) r r (some .unmappableType)
  | missing {id rest r} : m.decl? id = none →
      Walk m layout (.reference id :: rest) r r (some (.unknownDeclaration id))
  | known {id d rest r r' fault} : m.decl? id = some d → r.isKnown d.qualified = true →
      Walk m layout rest r r' fault → Walk m layout (.reference id :: rest) r r' fault
  | enter {id d rest r begun after finished r' fault} :
      m.decl? id = some d → r.begin? d.qualified = some begun →
      Walk m layout d.steps begun after none →
      after.finish? d.qualified (d.target? m layout) = some finished →
      Walk m layout rest finished r' fault → Walk m layout (.reference id :: rest) r r' fault
  | stuck {id d rest r begun after fault} :
      m.decl? id = some d → r.begin? d.qualified = some begun →
      Walk m layout d.steps begun after (some fault) →
      Walk m layout (.reference id :: rest) r after (some fault)

namespace Walk

section
variable {m : Model} {layout : Option Layout} {steps rest : List Step} {r r₁ r' : Registry}
  {fault : Option Fault} {id : Nat} {name : String}

@[elab_as_elim]
theorem success_induction
    {motive : ∀ steps r r', Walk m layout steps r r' none → Prop}
    (h : Walk m layout steps r r' none)
    (done : ∀ {r}, motive [] r r .done)
    (express : ∀ {type rest r r'} (ht : type.target?.isSome)
      (hr : Walk m layout rest r r' none), motive rest r r' hr →
      motive (.express type :: rest) r r' (.express ht hr))
    (known : ∀ {id d rest r r'} (hd : m.decl? id = some d) (hk : r.isKnown d.qualified = true)
      (hr : Walk m layout rest r r' none), motive rest r r' hr →
      motive (.reference id :: rest) r r' (.known hd hk hr))
    (enter : ∀ {id d rest r begun after finished r'} (hd : m.decl? id = some d)
      (hb : r.begin? d.qualified = some begun) (ha : Walk m layout d.steps begun after none)
      (hf : after.finish? d.qualified (d.target? m layout) = some finished)
      (hr : Walk m layout rest finished r' none), motive d.steps begun after ha →
      motive rest finished r' hr →
      motive (.reference id :: rest) r r' (.enter hd hb ha hf hr)) :
    motive steps r r' h := by
  suffices key : ∀ fault (h : Walk m layout steps r r' fault) (hf : fault = none),
      motive steps r r' (hf ▸ h) from key none h rfl
  clear h
  intro fault h hf
  induction h with
  | done => exact done
  | express ht hr ih => subst hf; exact express ht hr (ih rfl)
  | unmappable => cases hf
  | missing => cases hf
  | known hd hk hr ih => subst hf; exact known hd hk hr (ih rfl)
  | enter hd hb ha hfin hr iha ihr =>
    subst hf
    exact enter hd hb ha hfin hr (iha rfl) (ihr rfl)
  | stuck => cases hf

-- ---------------------------------------------------------------------------
-- One step
-- ---------------------------------------------------------------------------

section
variable {d : Declaration} {begun : Registry}

theorem rest_of_known (h : Walk m layout (.reference id :: rest) r r' fault)
    (hd : m.decl? id = some d) (hk : r.isKnown d.qualified = true) :
    Walk m layout rest r r' fault := by
  cases h with
  | missing hd' => simp [hd] at hd'
  | known _ _ h => exact h
  | enter hd' hb | stuck hd' hb =>
    obtain rfl := Option.some.inj (hd.symm.trans hd')
    simp [Registry.isKnown_eq_false_of_begin? hb] at hk

/-- A declaration whose name is unseen is left again, or the walk stops in it. -/
theorem cases_unseen (h : Walk m layout (.reference id :: rest) r r' fault)
    (hd : m.decl? id = some d) (hb : r.begin? d.qualified = some begun) :
    (∃ after finished, Walk m layout d.steps begun after none ∧
      after.finish? d.qualified (d.target? m layout) = some finished ∧
      Walk m layout rest finished r' fault) ∨
    ∃ f, fault = some f ∧ Walk m layout d.steps begun r' (some f) := by
  cases h with
  | missing hd' => simp [hd] at hd'
  | known hd' hk =>
    obtain rfl := Option.some.inj (hd.symm.trans hd')
    simp [Registry.isKnown_eq_false_of_begin? hb] at hk
  | enter hd' hb' ha hf hr =>
    obtain rfl := Option.some.inj (hd.symm.trans hd')
    obtain rfl := Option.some.inj (hb.symm.trans hb')
    exact .inl ⟨_, _, ha, hf, hr⟩
  | stuck hd' hb' ha =>
    obtain rfl := Option.some.inj (hd.symm.trans hd')
    obtain rfl := Option.some.inj (hb.symm.trans hb')
    exact .inr ⟨_, rfl, ha⟩

end

-- ---------------------------------------------------------------------------
-- Composition
-- ---------------------------------------------------------------------------

theorem append (h : Walk m layout steps r r₁ none) (h' : Walk m layout rest r₁ r' fault) :
    Walk m layout (steps ++ rest) r r' fault := by
  induction h using success_induction with
  | done => exact h'
  | express ht _ ih => exact .express ht (ih h')
  | known hd hk _ ih => exact .known hd hk (ih h')
  | enter hd hb ha hf _ _ ih => exact .enter hd hb ha hf (ih h')

theorem append_fault {f : Fault} (h : Walk m layout steps r r' (some f)) :
    Walk m layout (steps ++ rest) r r' (some f) := by
  generalize hf : some f = fault at h
  induction h with
  | done => cases hf
  | express ht _ ih => exact .express ht (ih hf)
  | unmappable ht => exact .unmappable ht
  | missing hd => exact .missing hd
  | known hd hk _ ih => exact .known hd hk (ih hf)
  | enter hd hb ha hfin _ _ ih => exact .enter hd hb ha hfin (ih hf)
  | stuck hd hb ha => exact .stuck hd hb ha

-- ---------------------------------------------------------------------------
-- What every walk keeps
-- ---------------------------------------------------------------------------

theorem extension (h : Walk m layout steps r r' fault) : r.Extends r' := by
  induction h with
  | done => exact .refl _
  | express _ _ ih => exact ih
  | unmappable => exact .refl _
  | missing => exact .refl _
  | known _ _ _ ih => exact ih
  | enter _ hb _ hf _ iha ihr => exact (Registry.Extends.bracket hb iha hf).trans ihr
  | stuck _ hb _ ih => exact (Registry.Extends.of_begin? hb).trans ih

theorem wellFormed (h : Walk m layout steps r r' fault) (hw : r.WellFormed) : r'.WellFormed := by
  induction h with
  | done => exact hw
  | express _ _ ih => exact ih hw
  | unmappable => exact hw
  | missing => exact hw
  | known _ _ _ ih => exact ih hw
  | enter _ hb _ hf _ iha ihr => exact ihr ((iha (hw.begin? hb)).finish? hf)
  | stuck _ hb _ ih => exact ih (hw.begin? hb)

theorem fault_cases (h : Walk m layout steps r r' fault) :
    fault = none ∨ fault = some .unmappableType ∨
      ∃ id, m.decl? id = none ∧ fault = some (.unknownDeclaration id) := by
  induction h with
  | done => exact .inl rfl
  | express _ _ ih => exact ih
  | unmappable => exact .inr (.inl rfl)
  | missing hd => exact .inr (.inr ⟨_, hd, rfl⟩)
  | known _ _ _ ih => exact ih
  | enter _ _ _ _ _ _ ih => exact ih
  | stuck _ _ _ ih => exact ih

-- ---------------------------------------------------------------------------
-- What a walk without a fault leaves
-- ---------------------------------------------------------------------------

theorem inProgress (h : Walk m layout steps r r' none) (hp : r'.slot? name = some .inProgress) :
    r.slot? name = some .inProgress := by
  induction h using success_induction with
  | done => exact hp
  | express _ _ ih => exact ih hp
  | known _ _ _ ih => exact ih hp
  | @enter _ d _ _ _ _ _ _ _ hb _ hf _ iha ihr =>
    have hfin := ihr hp
    have hn : name ≠ d.qualified := by
      rintro rfl
      simp [Registry.slot?_of_finish?_self hf] at hfin
    rw [Registry.slot?_of_finish?_ne hf hn] at hfin
    rw [← Registry.slot?_of_begin?_ne hb hn]
    exact iha hfin

theorem reference_known (h : Walk m layout steps r r' none) (hs : .reference id ∈ steps) :
    m.Known r' id := by
  induction h using success_induction with
  | done => cases hs
  | express _ _ ih => exact ih (by simpa using hs)
  | known hd hk hr ih =>
    rcases List.mem_cons.mp hs with h | hs
    · cases h
      exact ⟨_, hd, hr.extension.isKnown hk⟩
    · exact ih hs
  | enter hd _ _ hf hr _ ih =>
    rcases List.mem_cons.mp hs with h | hs
    · cases h
      have hk := Registry.isKnown_iff.mpr ⟨_, Registry.slot?_of_finish?_self hf⟩
      exact ⟨_, hd, hr.extension.isKnown hk⟩
    · exact ih hs

/-- What the closure of a declaration with an unseen name finishes: what its steps do, and then the
name itself if it has an output. -/
theorem finished_of_unseen {d : Declaration} (h : Walk m layout [.reference id] r r' none)
    (hd : m.decl? id = some d) (hn : r.slot? d.qualified = none) :
    ∃ begun after, r.begin? d.qualified = some begun ∧ Walk m layout d.steps begun after none ∧
      r'.finished = if d.kind.hasShape then after.finished ++ [d.qualified] else after.finished := by
  have hb := Registry.begin?_eq_some_iff.mpr ⟨hn, rfl⟩
  rcases h.cases_unseen hd hb with ⟨after, finished, ha, hf, hr⟩ | ⟨f, hfault, -⟩
  · cases hr
    refine ⟨_, after, hb, ha, ?_⟩
    rw [Registry.finished_of_finish? hf, Declaration.isSome_target?]
  · cases hfault

theorem expressible (h : Walk m layout steps r r' none) {type : TypeRef}
    (hs : .express type ∈ steps) : type.target?.isSome := by
  induction h using success_induction with
  | done => cases hs
  | express ht _ ih =>
    rcases List.mem_cons.mp hs with h | hs
    · cases h; exact ht
    · exact ih hs
  | known _ _ _ ih => exact ih (by simpa using hs)
  | enter _ _ _ _ _ _ ih => exact ih (by simpa using hs)

-- ---------------------------------------------------------------------------
-- Where new slots come from
-- ---------------------------------------------------------------------------

theorem freshFrom_of_begin? {d : Declaration} {begun : Registry} {x : Nat}
    (hd : m.decl? id = some d) (hb : r.begin? d.qualified = some begun)
    (h : m.FreshFrom begun d.steps x) : m.FreshFrom r (.reference id :: rest) x := by
  obtain ⟨start, hs, hp⟩ := h
  refine ⟨id, List.mem_cons_self, ?_⟩
  exact .step (.of_begin? hd hb) ((Model.edge_iff hd).mpr hs)
    (hp.anti (Registry.Extends.of_begin? hb))

/-- A name that the walk has made known is the name of a declaration on a fresh path. Once it is
done its output is that of the declaration. -/
theorem new_slot {slot : Slot} (h : Walk m layout steps r r' fault)
    (hn : r.slot? name = none) (hs : r'.slot? name = some slot) :
    ∃ id d, m.decl? id = some d ∧ d.qualified = name ∧ m.FreshFrom r steps id ∧
      (slot = .inProgress ∨ slot = .done (d.target? m layout) ∧ d.Expressible) := by
  induction h with
  | done => simp [hn] at hs
  | express _ _ ih =>
    obtain ⟨id, d, hd, hq, hf, hslot⟩ := ih hn hs
    exact ⟨id, d, hd, hq, hf.anti (.refl _) (List.subset_cons_self _ _), hslot⟩
  | unmappable => simp [hn] at hs
  | missing => simp [hn] at hs
  | known _ _ _ ih =>
    obtain ⟨id, d, hd, hq, hf, hslot⟩ := ih hn hs
    exact ⟨id, d, hd, hq, hf.anti (.refl _) (List.subset_cons_self _ _), hslot⟩
  | @enter id d rest r begun after finished r' fault hd hb ha hf hr iha ihr =>
    rcases Registry.Extends.bracket_cases hb hf hn with
      rfl | ⟨hbegun, old, hafter, hfin⟩ | hfin
    · have hdone := hr.extension.slot (Registry.slot?_of_finish?_self hf)
      refine ⟨id, d, hd, rfl, ⟨id, List.mem_cons_self, .here (.of_begin? hd hb)⟩, .inr ⟨?_, ?_⟩⟩
      · exact Option.some.inj (hs.symm.trans hdone)
      · exact fun type ht => ha.expressible ht
    · obtain rfl : old = slot := Option.some.inj ((hr.extension.slot hfin).symm.trans hs)
      obtain ⟨x, e, he, hqe, hfresh, hslot⟩ := iha hbegun hafter
      exact ⟨x, e, he, hqe, freshFrom_of_begin? hd hb hfresh, hslot⟩
    · obtain ⟨x, e, he, hqe, hfresh, hslot⟩ := ihr hfin hs
      have hext := Registry.Extends.bracket hb ha.extension hf
      exact ⟨x, e, he, hqe, hfresh.anti hext (List.subset_cons_self _ _), hslot⟩
  | @stuck id d rest r begun after fault hd hb ha ih =>
    by_cases hq : name = d.qualified
    · subst hq
      have hopen := ha.extension.slot (Registry.slot?_of_begin?_self hb)
      refine ⟨id, d, hd, rfl, ⟨id, List.mem_cons_self, .here (.of_begin? hd hb)⟩, .inl ?_⟩
      exact Option.some.inj (hs.symm.trans hopen)
    · have hbegun : begun.slot? name = none := by rwa [Registry.slot?_of_begin?_ne hb hq]
      obtain ⟨x, e, he, hqe, hfresh, hslot⟩ := ih hbegun hs
      exact ⟨x, e, he, hqe, freshFrom_of_begin? hd hb hfresh, hslot⟩

/-- A walk adds to what was finished before it. `start` stays where it is while the walk goes on: a
declaration that is entered was unseen there as well. -/
theorem finishes_from {start : Registry} {names : List String} (h : Walk m layout steps r r' fault)
    (he : start.Extends r) (hs : start.Finishes r names) : ∃ names', start.Finishes r' names' := by
  induction h generalizing names with
  | done => exact ⟨names, hs⟩
  | express _ _ ih => exact ih he hs
  | unmappable => exact ⟨names, hs⟩
  | missing => exact ⟨names, hs⟩
  | known _ _ _ ih => exact ih he hs
  | enter _ hb ha hf _ iha ihr =>
    obtain ⟨inner, hinner⟩ := iha (he.trans (.of_begin? hb)) (hs.begin? hb)
    have hn := he.slot?_eq_none (Registry.slot?_eq_none_of_begin? hb)
    exact ihr (he.trans (.bracket hb ha.extension hf)) (hinner.finish? hn hf)
  | stuck _ hb _ ih => exact ih (he.trans (.of_begin? hb)) (hs.begin? hb)

theorem finishes (h : Walk m layout steps r r' fault) : ∃ names, r.Finishes r' names :=
  h.finishes_from (.refl _) (.refl _)

/-- A declaration that a walk has made known was entered: its own steps were taken to their end, and
what was known after them is known after the walk. -/
theorem entered {slot : Slot} (h : Walk m layout steps r r' none)
    (hn : r.slot? name = none) (hs : r'.slot? name = some slot) :
    ∃ id d begun after, m.decl? id = some d ∧ d.qualified = name ∧ m.FreshFrom r steps id ∧
      slot = .done (d.target? m layout) ∧ Walk m layout d.steps begun after none ∧
      ∀ b, m.Known after b → m.Known r' b := by
  induction h using success_induction with
  | done => simp [hn] at hs
  | express _ _ ih =>
    obtain ⟨id, d, begun, after, hd, hq, hf, h⟩ := ih hn hs
    exact ⟨id, d, begun, after, hd, hq, hf.anti (.refl _) (List.subset_cons_self _ _), h⟩
  | known _ _ _ ih =>
    obtain ⟨id, d, begun, after, hd, hq, hf, h⟩ := ih hn hs
    exact ⟨id, d, begun, after, hd, hq, hf.anti (.refl _) (List.subset_cons_self _ _), h⟩
  | @enter id d rest r begun after finished r' hd hb ha hf hr iha ihr =>
    have hup (b : Nat) (hk : m.Known after b) : m.Known r' b := (hk.finish? hf).mono hr.extension
    rcases Registry.Extends.bracket_cases hb hf hn with
      rfl | ⟨hbegun, old, hafter, hfin⟩ | hfin
    · have hdone := hr.extension.slot (Registry.slot?_of_finish?_self hf)
      exact ⟨id, d, begun, after, hd, rfl, ⟨id, List.mem_cons_self, .here (.of_begin? hd hb)⟩,
        Option.some.inj (hs.symm.trans hdone), ha, hup⟩
    · obtain rfl : old = slot := Option.some.inj ((hr.extension.slot hfin).symm.trans hs)
      obtain ⟨x, e, begun', after', he, hqe, hfresh, hslot, hw, hknown⟩ := iha hbegun hafter
      exact ⟨x, e, begun', after', he, hqe, freshFrom_of_begin? hd hb hfresh, hslot, hw,
        fun b hb => hup b (hknown b hb)⟩
    · obtain ⟨x, e, begun', after', he, hqe, hfresh, h⟩ := ihr hfin hs
      have hext := Registry.Extends.bracket hb ha.extension hf
      exact ⟨x, e, begun', after', he, hqe, hfresh.anti hext (List.subset_cons_self _ _), h⟩

theorem new_slot_done {slot : Slot} (h : Walk m layout steps r r' none)
    (hn : r.slot? name = none) (hs : r'.slot? name = some slot) :
    ∃ id d, m.decl? id = some d ∧ d.qualified = name ∧ m.FreshFrom r steps id ∧
      slot = .done (d.target? m layout) ∧ d.Expressible := by
  obtain ⟨id, d, _, _, hd, hq, hf, hslot, hw, -⟩ := h.entered hn hs
  exact ⟨id, d, hd, hq, hf, hslot, fun type ht => hw.expressible ht⟩

end

end Walk

-- ---------------------------------------------------------------------------
-- Closures are walks
-- ---------------------------------------------------------------------------

def unseenNames (m : Model) (r : Registry) : Finset String :=
  (m.decls.map (·.qualified)).toFinset.filter fun name => r.slot? name = none

section
variable {m : Model} {layout : Option Layout} {r r' begun : Registry} {id : Nat} {d : Declaration}

theorem card_unseenNames_le_size : (unseenNames m r).card ≤ m.size :=
  calc (unseenNames m r).card
    _ ≤ (m.decls.map (·.qualified)).toFinset.card := Finset.card_filter_le _ _
    _ ≤ (m.decls.map (·.qualified)).length := List.toFinset_card_le _
    _ = m.size := List.length_map _

theorem card_unseenNames_le (h : r.Extends r') :
    (unseenNames m r').card ≤ (unseenNames m r).card := by
  refine Finset.card_le_card fun name hn => ?_
  simp only [unseenNames, Finset.mem_filter] at hn ⊢
  exact ⟨hn.1, h.slot?_eq_none hn.2⟩

theorem card_unseenNames_lt (hd : m.decl? id = some d) (hb : r.begin? d.qualified = some begun) :
    (unseenNames m begun).card < (unseenNames m r).card := by
  refine Finset.card_lt_card (Finset.ssubset_iff_of_subset ?_ |>.mpr ⟨d.qualified, ?_, ?_⟩)
  · intro name hn
    simp only [unseenNames, Finset.mem_filter] at hn ⊢
    exact ⟨hn.1, (Registry.Extends.of_begin? hb).slot?_eq_none hn.2⟩
  · have hm : d ∈ m.decls := List.mem_of_getElem? hd
    simp only [unseenNames, Finset.mem_filter, List.mem_toFinset]
    exact ⟨List.mem_map_of_mem hm, Registry.slot?_eq_none_of_begin? hb⟩
  · simp [unseenNames, Registry.slot?_of_begin?_self hb]

/-- Taking steps is a walk if every visit is one, as long as there are few enough unseen names. -/
theorem runSteps_walk {visit : Nat → Registry → Outcome} {bound : Nat}
    (hv : ∀ id r, (unseenNames m r).card < bound →
      Walk m layout [.reference id] r (visit id r).registry (visit id r).fault)
    (steps : List Step) (hr : (unseenNames m r).card < bound) :
    Walk m layout steps r (runSteps visit steps r).registry (runSteps visit steps r).fault := by
  induction steps generalizing r with
  | nil => exact .done
  | cons step rest ih =>
    cases step with
    | reference id =>
      have hw := hv id r hr
      simp only [runSteps]
      cases ho : visit id r with
      | mk after fault =>
        rw [ho] at hw
        cases fault with
        | none => exact hw.append (ih (Nat.lt_of_le_of_lt (card_unseenNames_le hw.extension) hr))
        | some f => exact hw.append_fault
    | express type =>
      simp only [runSteps]
      split
      · next ht => exact .express ht (ih hr)
      · next ht => exact .unmappable (by simpa using ht)

theorem visit_walk {depth : Nat} (hr : (unseenNames m r).card < depth) :
    Walk m layout [.reference id] r (visit m layout depth id r).registry
      (visit m layout depth id r).fault := by
  induction depth generalizing id r with
  | zero => exact absurd hr (Nat.not_lt_zero _)
  | succ depth ih =>
    simp only [visit]
    cases hd : m.decl? id with
    | none => exact .missing hd
    | some d =>
      cases hb : r.begin? d.qualified with
      | none =>
        have hk : r.isKnown d.qualified = true := by
          simpa [Registry.begin?] using hb
        simp only [hb]
        exact .known hd hk .done
      | some begun =>
        have hlt := card_unseenNames_lt hd hb
        have hw : Walk m layout d.steps begun
            (runSteps (visit m layout depth) d.steps begun).registry
            (runSteps (visit m layout depth) d.steps begun).fault :=
          runSteps_walk (fun _ _ h => ih h) d.steps (Nat.lt_of_lt_of_le hlt (Nat.le_of_lt_succ hr))
        simp only [hb]
        cases ho : runSteps (visit m layout depth) d.steps begun with
        | mk after fault =>
          rw [ho] at hw
          cases fault with
          | some f => exact .stuck hd hb hw
          | none =>
            -- No step can have touched the slot that was opened for them.
            have hopen := hw.extension.slot (Registry.slot?_of_begin?_self hb)
            obtain ⟨finished, hf⟩ : ∃ finished,
                after.finish? d.qualified (d.target? m layout) = some finished :=
              Option.isSome_iff_exists.mp (Registry.finish?_isSome_iff.mpr hopen)
            simp only [finish, hf]
            exact .enter hd hb hw hf .done

theorem extend_walk (m : Model) (layout : Option Layout) (seed : Nat) (r : Registry) :
    Walk m layout [.reference seed] r (extend m layout seed r).registry
      (extend m layout seed r).fault :=
  visit_walk (Nat.lt_succ_of_le card_unseenNames_le_size)

-- ---------------------------------------------------------------------------
-- The frame of a closure
-- ---------------------------------------------------------------------------

/-- What `r'` may have beyond `r`: names that are done, under their own names. -/
structure Framed (r r' : Registry) : Prop where
  slot : ∀ name slot, r.slot? name = some slot → r'.slot? name = some slot
  finished : r.finished <+: r'.finished
  inProgress : ∀ name, r'.slot? name = some .inProgress ↔ r.slot? name = some .inProgress
  output : ∀ name t, r.slot? name = none → r'.slot? name = some (.done (some t)) →
    t.qualified = name
  added : ∃ names, r'.finished = r.finished ++ names ∧ ∀ name ∈ names,
    r.slot? name = none ∧ ∃ t, r'.slot? name = some (.done (some t)) ∧ t.qualified = name

theorem Walk.output_qualified {steps : List Step} {fault : Option Fault} {name : String}
    {t : TargetDecl} (h : Walk m layout steps r r' fault) (hn : r.slot? name = none)
    (ht : r'.slot? name = some (.done (some t))) : t.qualified = name := by
  obtain ⟨id, d, -, rfl, -, hslot | ⟨hslot, -⟩⟩ := h.new_slot hn ht
  · cases hslot
  · exact d.qualified_of_target? (Slot.done.inj hslot).symm

theorem Framed.outputs (h : Framed r r') (hw : r.WellFormed) :
    ∃ names, r'.finished = r.finished ++ names ∧
      ∃ added, r'.outputs = r.outputs ++ added ∧ added.map (·.qualified) = names := by
  obtain ⟨names, hnames, hadded⟩ := h.added
  have hext : r.Extends r' := ⟨fun hs => h.slot _ _ hs, h.finished⟩
  exact ⟨names, hnames, _, hext.outputs hw hnames,
    Registry.map_qualified_filterMap_get? fun name hm => (hadded name hm).2⟩

theorem Walk.framed {steps : List Step} (h : Walk m layout steps r r' none) : Framed r r' where
  slot _ _ hs := h.extension.slot hs
  finished := h.extension.finished
  inProgress _ := ⟨h.inProgress, h.extension.slot⟩
  output _ _ hn ht := h.output_qualified hn ht
  added := by
    obtain ⟨names, hnames⟩ := h.finishes
    refine ⟨names, hnames.finished, fun name hm => ?_⟩
    obtain ⟨hn, t, ht⟩ := (hnames.mem_iff name).mp hm
    exact ⟨hn, t, ht, h.output_qualified hn ht⟩

/-- No name is ever finished while it is not in progress, from whatever registry the closure
starts, and the depth of the walk is never too small. A closure that comes to its end changes no
slot there was and leaves no further name in progress. -/
theorem extend_framed (m : Model) (layout : Option Layout) (seed : Nat) (r : Registry) :
    (∀ name, (extend m layout seed r).fault ≠ some (.notInProgress name)) ∧
    (extend m layout seed r).fault ≠ some .tooDeep ∧
    ((extend m layout seed r).fault = none → Framed r (extend m layout seed r).registry) := by
  have hw := extend_walk m layout seed r
  refine ⟨fun name => ?_, ?_, fun hfault => ?_⟩
  · rcases hw.fault_cases with h | h | ⟨id, -, h⟩ <;> simp [h]
  · rcases hw.fault_cases with h | h | ⟨id, -, h⟩ <;> simp [h]
  · rw [hfault] at hw
    exact hw.framed

end

/-- A registry in which one name was left in progress and another was finished by hand. -/
theorem extend_framed_sample :
    let r : Registry := ⟨[("tree.Base", .inProgress), ("tree.Kind", .done none)], []⟩
    (extend Model.sample none 0 r).fault = none ∧
      Framed r (extend Model.sample none 0 r).registry := by
  intro r
  have hfault : (extend Model.sample none 0 r).fault = none := by decide
  exact ⟨hfault, (extend_framed _ _ _ _).2.2 hfault⟩

end Closure

end TypeWeave
