import TypeWeave.Proofs.ClosureExact
import TypeWeave.Proofs.Safety
import TypeWeave.Proofs.TypeExpressions

/-!
# Closures that stop at a fault

A class fails if it has a type to spell that has no expression, or a reference that leads nowhere. A
closure stops if and only if a fresh path leads from its seed to a class that fails
(`fault_iff_fails`). The classes it was in the middle of are then left in progress, and they form
such a path (`Walk.trail`); whatever else became known was finished as in any other closure.

A model need not be canonical here, since references may lead nowhere; it has to be coherent.
-/

namespace TypeWeave

-- ---------------------------------------------------------------------------
-- Classes that fail
-- ---------------------------------------------------------------------------

inductive Step.Faults (m : Model) : Step → Fault → Prop
  | missing {id} : m.size ≤ id → Faults m (.reference id) (.unknownDeclaration id)
  | unmappable {type} : type.Unmappable → Faults m (.express type) .unmappableType

theorem Step.Sound.not_faults {m : Model} {step : Step} {fault : Fault} (h : step.Sound m) :
    ¬ step.Faults m fault := by
  rintro (hid | ht)
  · exact Nat.not_lt.mpr hid h
  · simp [Step.Sound, ht.target?_eq_none] at h

inductive ClassShape.Fails (m : Model) (c : ClassShape) : Fault → Prop
  | superclass {t} : c.superclass = some t →
      (∀ qualified simple args decl, t ≠ .named qualified simple args decl) →
      t.Unmappable → Fails m c .unmappableType
  | field {f} : f ∈ c.fields → f.visibility ≠ .privateAccess → f.type.Unmappable →
      Fails m c .unmappableType
  | reference {id} : c.RefersTo id → m.size ≤ id → Fails m c (.unknownDeclaration id)

theorem TypeRef.express_mem_superclassSteps {t type : TypeRef} :
    Step.express type ∈ t.superclassSteps ↔
      type = t ∧ ∀ qualified simple args decl, t ≠ .named qualified simple args decl := by
  cases t <;> simp [superclassSteps, declaration]

theorem FieldDecl.express_mem_steps {f : FieldDecl} {type : TypeRef} :
    Step.express type ∈ f.steps ↔ type = f.type := by
  simp [steps]

theorem ClassShape.exists_faults_iff {m : Model} {c : ClassShape} {fault : Fault} :
    (∃ step ∈ c.steps, step.Faults m fault) ↔ c.Fails m fault := by
  constructor
  · rintro ⟨step, hstep, hid | ht⟩
    · exact .reference (reference_mem_steps.mp hstep) hid
    · rcases List.mem_append.mp hstep with h | h
      · split at h
        · next t hs =>
          obtain ⟨rfl, hother⟩ := TypeRef.express_mem_superclassSteps.mp h
          exact .superclass hs hother ht
        · cases h
      · obtain ⟨f, hf, h⟩ := List.mem_flatMap.mp h
        obtain rfl := FieldDecl.express_mem_steps.mp h
        obtain ⟨hm, hv⟩ := mem_visibleFields.mp hf
        exact .field hm hv ht
  · rintro (⟨hs, hother, ht⟩ | ⟨hm, hv, ht⟩ | ⟨hid, hlt⟩)
    · refine ⟨_, List.mem_append_left _ ?_, .unmappable ht⟩
      rw [hs]
      exact TypeRef.express_mem_superclassSteps.mpr ⟨rfl, hother⟩
    · refine ⟨_, List.mem_append_right _ ?_, .unmappable ht⟩
      exact List.mem_flatMap.mpr ⟨_, mem_visibleFields.mpr ⟨hm, hv⟩,
        FieldDecl.express_mem_steps.mpr rfl⟩
    · exact ⟨_, reference_mem_steps.mpr hid, .missing hlt⟩

namespace Model

variable {m : Model} {r r' : Registry} {fault : Fault} {a b : Nat} {d : Declaration}
  {path : List Nat}

def Fails (m : Model) (fault : Fault) (id : Nat) : Prop :=
  ∃ d c, m.decl? id = some d ∧ d.kind = .classType c ∧ c.Fails m fault

theorem fails_iff (hd : m.decl? a = some d) :
    m.Fails fault a ↔ ∃ step ∈ d.steps, step.Faults m fault := by
  constructor
  · rintro ⟨d', c, hd', hc, hf⟩
    obtain rfl : d = d' := Option.some.inj (hd.symm.trans hd')
    simp only [Declaration.steps, hc]
    exact ClassShape.exists_faults_iff.mpr hf
  · intro h
    unfold Declaration.steps at h
    split at h
    · next c hc => exact ⟨d, c, hd, hc, ClassShape.exists_faults_iff.mp h⟩
    · simp at h

/-- A path of edges to a class that fails, with no name on it seen. -/
inductive FailurePath (m : Model) (r : Registry) (fault : Fault) : Nat → List Nat → Prop
  | here {a : Nat} : m.Unseen r a → m.Fails fault a → FailurePath m r fault a [a]
  | step {a b : Nat} {path : List Nat} : m.Unseen r a → m.Edge a b → FailurePath m r fault b path →
      FailurePath m r fault a (a :: path)

theorem FailurePath.anti (h : m.FailurePath r' fault a path) (he : r.Extends r') :
    m.FailurePath r fault a path := by
  induction h with
  | here hu hf => exact .here (hu.anti he) hf
  | step hu hab _ ih => exact .step (hu.anti he) hab ih

theorem FailurePath.freshPath (h : m.FailurePath r fault a path) :
    ∃ id, m.FreshPath r a id ∧ m.Fails fault id := by
  induction h with
  | here hu hf => exact ⟨_, .here hu, hf⟩
  | step hu hab _ ih =>
    obtain ⟨id, hp, hf⟩ := ih
    exact ⟨id, .step hu hab hp, hf⟩

end Model

namespace Closure

-- ---------------------------------------------------------------------------
-- Names left in progress
-- ---------------------------------------------------------------------------

def Opened (r r' : Registry) (name : String) : Prop :=
  r.slot? name = none ∧ r'.slot? name = some .inProgress

section
variable {m : Model} {layout : Option Layout} {steps rest : List Step}
  {r r₁ r' begun after : Registry} {fault : Fault} {id seed : Nat} {d : Declaration}
  {name : String} {path : List Nat}

theorem not_opened_self : ¬ Opened r r name := by
  rintro ⟨hn, hp⟩
  simp [hn] at hp

/-- A walk that came to its end has left nothing open. -/
theorem opened_iff_of_framed (hf : Framed r r₁) (he : r₁.Extends r') :
    Opened r r' name ↔ Opened r₁ r' name := by
  constructor
  · rintro ⟨hn, hp⟩
    refine ⟨?_, hp⟩
    cases hs : r₁.slot? name with
    | none => rfl
    | some slot =>
      obtain rfl : slot = .inProgress := Option.some.inj ((he.slot hs).symm.trans hp)
      rw [hf.inProgress, hn] at hs
      cases hs
  · rintro ⟨hn, hp⟩
    have hext : r.Extends r₁ := ⟨fun hs => hf.slot _ _ hs, hf.finished⟩
    exact ⟨hext.slot?_eq_none hn, hp⟩

theorem opened_iff_of_begin? (hb : r.begin? d.qualified = some begun) (he : begun.Extends after) :
    Opened r after name ↔ name = d.qualified ∨ Opened begun after name := by
  by_cases hq : name = d.qualified
  · subst hq
    have hopen := he.slot (Registry.slot?_of_begin?_self hb)
    simp [Opened, Registry.slot?_eq_none_of_begin? hb, hopen]
  · simp [Opened, Registry.slot?_of_begin?_ne hb hq, hq]

/-- The path is the one along which the walk got stuck; it is empty if one of the steps themselves
stopped it. -/
def Trail (m : Model) (r : Registry) (fault : Fault) (steps : List Step) (path : List Nat) : Prop :=
  (path = [] ∧ ∃ step ∈ steps, step.Faults m fault) ∨
    ∃ start, .reference start ∈ steps ∧ m.FailurePath r fault start path

theorem Trail.cons {step : Step} (h : Trail m r₁ fault rest path) (he : r.Extends r₁) :
    Trail m r fault (step :: rest) path := by
  rcases h with ⟨rfl, s, hs, hf⟩ | ⟨start, hstart, hp⟩
  · exact .inl ⟨rfl, s, List.mem_cons_of_mem _ hs, hf⟩
  · exact .inr ⟨start, List.mem_cons_of_mem _ hstart, hp.anti he⟩

theorem Trail.enter (h : Trail m begun fault d.steps path) (hd : m.decl? id = some d)
    (hb : r.begin? d.qualified = some begun) :
    Trail m r fault (.reference id :: rest) (id :: path) := by
  refine .inr ⟨id, List.mem_cons_self, ?_⟩
  rcases h with ⟨rfl, hf⟩ | ⟨start, hstart, hp⟩
  · exact .here (.of_begin? hd hb) ((Model.fails_iff hd).mpr hf)
  · exact .step (.of_begin? hd hb) ((Model.edge_iff hd).mpr hstart) (hp.anti (.of_begin? hb))

/-- By induction on the walk: every declaration that is entered and not left again adds its index
in front of the path. -/
theorem Walk.trail {stopped : Option Fault} (h : Walk m layout steps r r' stopped)
    (hfault : stopped = some fault) :
    ∃ path, Trail m r fault steps path ∧
      ∀ name, Opened r r' name ↔ ∃ id ∈ path, m.name? id = some name := by
  induction h with
  | done => cases hfault
  | express _ _ ih =>
    obtain ⟨path, ht, hopen⟩ := ih hfault
    exact ⟨path, ht.cons (.refl _), hopen⟩
  | unmappable ht =>
    cases hfault
    refine ⟨[], .inl ⟨rfl, _, List.mem_cons_self, .unmappable ?_⟩, fun name => ?_⟩
    · exact TypeRef.target?_eq_none_iff.mp (by simpa using ht)
    · simp [not_opened_self]
  | missing hd =>
    cases hfault
    refine ⟨[], .inl ⟨rfl, _, List.mem_cons_self, .missing ?_⟩, fun name => ?_⟩
    · exact List.getElem?_eq_none_iff.mp hd
    · simp [not_opened_self]
  | known _ _ _ ih =>
    obtain ⟨path, ht, hopen⟩ := ih hfault
    exact ⟨path, ht.cons (.refl _), hopen⟩
  | enter hd hb ha hf hr _ ih =>
    obtain ⟨path, ht, hopen⟩ := ih hfault
    have hw := Walk.enter hd hb ha hf .done
    refine ⟨path, ht.cons hw.extension, fun name => ?_⟩
    rw [opened_iff_of_framed hw.framed hr.extension]
    exact hopen name
  | stuck hd hb ha ih =>
    obtain ⟨path, ht, hopen⟩ := ih hfault
    refine ⟨_, ht.enter hd hb, fun name => ?_⟩
    rw [opened_iff_of_begin? hb ha.extension, hopen]
    simp [Model.name?_of_decl? hd, eq_comm]

-- ---------------------------------------------------------------------------
-- When a closure stops
-- ---------------------------------------------------------------------------

theorem Walk.sound (h : Walk m layout steps r r' none) : ∀ step ∈ steps, step.Sound m := by
  intro step hstep
  cases step with
  | reference id =>
    obtain ⟨d, hd, -⟩ := h.reference_known hstep
    exact Model.lt_size_of_decl? hd
  | express type => exact h.expressible hstep

theorem Walk.not_fails (hm : m.Coherent) (h : Walk m layout steps r r' none)
    (hs : m.EntriesInBounds steps) (hfresh : m.FreshFrom r steps id) : ¬ m.Fails fault id := by
  obtain ⟨start, hstart, hp⟩ := hfresh
  obtain ⟨d₀, hd₀, hk₀⟩ := h.reference_known hstart
  have hentry := hs start hstart (Model.lt_size_of_decl? hd₀)
  obtain ⟨d, hd, hn⟩ := hp.unseen_last
  obtain ⟨d', hd', hk⟩ := h.freshPath_known hm hs hp hentry ⟨d₀, hd₀, hk₀⟩
  obtain rfl : d = d' := Option.some.inj (hd.symm.trans hd')
  obtain ⟨begun, after, hw, -⟩ := h.entered_entry hm hs (hm.freshPath hentry hp) hd hn hk
  rw [Model.fails_iff hd]
  rintro ⟨step, hstep, hf⟩
  exact (hw.sound step hstep).not_faults hf

theorem entriesInBounds_singleton (h : seed < m.size → m.IsEntry seed) :
    m.EntriesInBounds [.reference seed] := by
  intro id hid
  cases List.mem_singleton.mp hid
  exact h

theorem trail_singleton (h : Trail m r fault [.reference seed] path) :
    (path = [] ∧ m.size ≤ seed ∧ fault = .unknownDeclaration seed) ∨
      m.FailurePath r fault seed path := by
  rcases h with ⟨rfl, step, hstep, hf⟩ | ⟨start, hstart, hp⟩
  · cases List.mem_singleton.mp hstep
    cases hf with
    | missing hlt => exact .inl ⟨rfl, hlt, rfl⟩
  · cases List.mem_singleton.mp hstart
    exact .inr hp

/-- The closure stops at a seed that has no declaration, and at the end of a fresh path to a class
that fails. -/
theorem fault_iff_fails (hm : m.Coherent) (hseed : seed < m.size → m.IsEntry seed) :
    (extend m layout seed r).fault ≠ none ↔
      m.size ≤ seed ∨ ∃ id fault, m.FreshPath r seed id ∧ m.Fails fault id := by
  have hw := extend_walk m layout seed r
  constructor
  · intro hne
    obtain ⟨fault, hfault⟩ := Option.ne_none_iff_exists'.mp hne
    obtain ⟨path, ht, -⟩ := hw.trail hfault
    rcases trail_singleton ht with ⟨-, hlt, -⟩ | hp
    · exact .inl hlt
    · obtain ⟨id, hp, hf⟩ := hp.freshPath
      exact .inr ⟨id, fault, hp, hf⟩
  · intro h hnone
    rw [hnone] at hw
    rcases h with hlt | ⟨id, fault, hp, hf⟩
    · have hsound : seed < m.size := hw.sound _ List.mem_cons_self
      omega
    · exact hw.not_fails hm (entriesInBounds_singleton hseed) (freshFrom_singleton.mpr hp) hf

-- ---------------------------------------------------------------------------
-- What it leaves
-- ---------------------------------------------------------------------------

structure LeftBehind (m : Model) (layout : Option Layout) (seed : Nat) (fault : Fault)
    (r r' : Registry) : Prop where
  slot : ∀ name slot, r.slot? name = some slot → r'.slot? name = some slot
  finished : r.finished <+: r'.finished
  /-- What is done holds what every closure that comes to its end gives for this name. -/
  done : ∀ name output, r.slot? name = none → r'.slot? name = some (.done output) →
    ∃ id d, m.lookup name = some id ∧ m.decl? id = some d ∧ output = d.target? m layout ∧
      ∀ other r₁, (other < m.size → m.IsEntry other) → (extend m layout other r₁).fault = none →
        r₁.slot? name = none → (extend m layout other r₁).registry.isKnown name = true →
        (extend m layout other r₁).registry.slot? name = some (.done output)
  /-- What is left in progress are the classes on a path to the one that fails. -/
  opened : (m.size ≤ seed ∧ r' = r) ∨ ∃ path, m.FailurePath r fault seed path ∧
    ∀ name, Opened r r' name ↔ ∃ id ∈ path, m.name? id = some name

theorem Walk.lookup_of_new_slot {stopped : Option Fault} {output : Option TargetDecl}
    (hm : m.Coherent) (h : Walk m layout steps r r' stopped) (hs : m.EntriesInBounds steps)
    (hn : r.slot? name = none) (hdone : r'.slot? name = some (.done output)) :
    ∃ id d, m.lookup name = some id ∧ m.decl? id = some d ∧ output = d.target? m layout := by
  obtain ⟨id, d, hd, rfl, ⟨start, hstart, hp⟩, hslot | ⟨hslot, -⟩⟩ := h.new_slot hn hdone
  · cases hslot
  · obtain ⟨d₀, hd₀, -⟩ := hp.unseen_first
    have hid := hm.freshPath (hs start hstart (Model.lt_size_of_decl? hd₀)) hp
    exact ⟨id, d, hid.lookup hd, hd, Slot.done.inj hslot⟩

theorem Walk.leftBehind (hm : m.Coherent) (h : Walk m layout [.reference seed] r r' (some fault))
    (hseed : seed < m.size → m.IsEntry seed) : LeftBehind m layout seed fault r r' where
  slot _ _ hs := h.extension.slot hs
  finished := h.extension.finished
  done := by
    intro name output hn hdone
    obtain ⟨id, d, hl, hd, rfl⟩ :=
      h.lookup_of_new_slot hm (entriesInBounds_singleton hseed) hn hdone
    refine ⟨id, d, hl, hd, rfl, fun other r₁ hother hfault hn₁ hk => ?_⟩
    have hw := extend_walk m layout other r₁
    rw [hfault] at hw
    obtain ⟨slot, hslot⟩ := Registry.isKnown_iff.mp hk
    obtain ⟨_, e, _, _, _, rfl, _⟩ := hw.new_slot_done hn₁ hslot
    obtain ⟨id', d', hl', hd', htarget⟩ :=
      hw.lookup_of_new_slot hm (entriesInBounds_singleton hother) hn₁ hslot
    obtain rfl : id = id' := Option.some.inj (hl.symm.trans hl')
    obtain rfl : d = d' := Option.some.inj (hd.symm.trans hd')
    rw [hslot, htarget]
  opened := by
    obtain ⟨path, ht, hopen⟩ := h.trail rfl
    rcases trail_singleton ht with ⟨-, hlt, -⟩ | hp
    · left
      cases h with
      | missing => exact ⟨hlt, rfl⟩
      | known hd | enter hd | stuck hd =>
        have := Model.lt_size_of_decl? hd
        omega
    · exact .inr ⟨path, hp, hopen⟩

end

/-- A closure stops if and only if its seed has no declaration or a fresh path leads to a class that
fails. It then leaves what was known as it was, what it has done as it should be, and in progress
the classes on such a path. -/
theorem extend_failure (m : Model) (layout : Option Layout) (seed : Nat) (r : Registry)
    (hm : m.Coherent) (hseed : seed < m.size → m.IsEntry seed) :
    ((extend m layout seed r).fault ≠ none ↔
      m.size ≤ seed ∨ ∃ id fault, m.FreshPath r seed id ∧ m.Fails fault id) ∧
    ∀ fault, (extend m layout seed r).fault = some fault →
      LeftBehind m layout seed fault r (extend m layout seed r).registry := by
  refine ⟨fault_iff_fails hm hseed, fun fault hfault => ?_⟩
  have hw := extend_walk m layout seed r
  rw [hfault] at hw
  exact hw.leftBehind hm hseed

/-- The sample with two more classes that refer to each other; the second one has a wildcard that
bounds another, and an index that is too large in a type that the walk does not come to. -/
def sampleBroken : Model where
  decls := Model.sample.decls ++ [
    { qualified := "tree.Root", simple := "Root"
      location := ⟨⟨"src"⟩, ⟨"src/tree/Root.java"⟩⟩
      kind := .classType { fields := [
        ⟨"kind", .declared "tree.Kind" 2, .publicAccess⟩,
        ⟨"broken", .declared "tree.Broken" 4, .publicAccess⟩] } },
    { qualified := "tree.Broken", simple := "Broken"
      location := ⟨⟨"src"⟩, ⟨"src/tree/Broken.java"⟩⟩
      kind := .classType { fields := [
        ⟨"root", .declared "tree.Root" 3, .publicAccess⟩,
        ⟨"items", .named "java.util.Set" "Set" [.bounded .wildcard] none, .publicAccess⟩,
        ⟨"lost", .declared "tree.Lost" 9, .publicAccess⟩] } }]

/-- The enum is done before the fault, the two classes are left in progress, and the name that was
in progress before is not touched. -/
theorem extend_failure_sample :
    let r : Registry := ⟨[("tree.Base", .inProgress)], []⟩
    sampleBroken.Coherent ∧ (3 < sampleBroken.size → sampleBroken.IsEntry 3) ∧
    (extend sampleBroken none 3 r).fault = some .unmappableType ∧
    (sampleBroken.size ≤ 3 ∨
      ∃ id fault, sampleBroken.FreshPath r 3 id ∧ sampleBroken.Fails fault id) ∧
    LeftBehind sampleBroken none 3 .unmappableType r (extend sampleBroken none 3 r).registry := by
  intro r
  have hm : sampleBroken.Coherent := by decide
  have hseed : 3 < sampleBroken.size → sampleBroken.IsEntry 3 := by decide
  have hfault : (extend sampleBroken none 3 r).fault = some .unmappableType := by decide +kernel
  obtain ⟨hiff, hleft⟩ := extend_failure sampleBroken none 3 r hm hseed
  exact ⟨hm, hseed, hfault, hiff.mp (by simp [hfault]), hleft _ hfault⟩

end Closure

end TypeWeave
