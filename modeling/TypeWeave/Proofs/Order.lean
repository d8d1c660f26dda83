import TypeWeave.Proofs.Translation

/-!
# The order of the outputs

What a class depends on is finished before the class, unless it leads back to the class
(`Walk.precedes`). At the time a class is finished, everything it refers to is known. Either it is
done, and then it has been finished before; or it is still in progress, and then the walk is in the
middle of it and it leads to the class. `Resumable` is what a walk keeps for this argument.

Superclasses further up are known at that time too, because a superclass is visited before anything
else its class refers to.
-/

namespace TypeWeave

-- ---------------------------------------------------------------------------
-- Before and after
-- ---------------------------------------------------------------------------

/-- The list has `x` somewhere before an occurrence of `y`. -/
def Precedes (x y : α) (l : List α) : Prop := ∃ before after, l = before ++ y :: after ∧ x ∈ before

theorem Precedes.mono {x y : α} {l l' : List α} (h : Precedes x y l) (hp : l <+: l') :
    Precedes x y l' := by
  obtain ⟨before, after, rfl, hx⟩ := h
  obtain ⟨rest, rfl⟩ := hp
  exact ⟨before, after ++ rest, by simp, hx⟩

theorem Precedes.concat {x y : α} {l : List α} (h : x ∈ l) : Precedes x y (l ++ [y]) :=
  ⟨l, [], rfl, h⟩

namespace Model

variable {m : Model} {a b : Nat}

def Superclass (m : Model) (a b : Nat) : Prop :=
  ∃ d c t, m.decl? a = some d ∧ d.kind = .classType c ∧ c.superclass = some t ∧
    t.declaration = some b

def Inherits (m : Model) : Nat → Nat → Prop := Relation.TransGen m.Superclass

theorem Superclass.edge (h : m.Superclass a b) : m.Edge a b := by
  obtain ⟨d, c, t, hd, hc, ht, hb⟩ := h
  exact ⟨d, c, hd, hc, .superclass ht hb⟩

theorem Superclass.head?_steps {d : Declaration} (h : m.Superclass a b) (hd : m.decl? a = some d) :
    d.steps.head? = some (.reference b) := by
  obtain ⟨d', c, t, hd', hc, ht, hb⟩ := h
  obtain rfl : d = d' := Option.some.inj (hd.symm.trans hd')
  simp only [Declaration.steps, hc]
  exact ClassShape.head?_steps_of_superclass ht hb

theorem Canonical.inherits (hm : m.Canonical) (h : m.Inherits a b) : m.IsEntry b := by
  cases h with
  | single h => exact hm.edge h.edge
  | tail _ h => exact hm.edge h.edge

end Model

namespace Closure

section
variable {m : Model} {layout : Option Layout} {steps rest : List Step} {step : Step}
  {r r' begun after finished : Registry} {id a b : Nat} {d da db : Declaration}

-- ---------------------------------------------------------------------------
-- In the middle of a walk
-- ---------------------------------------------------------------------------

/-- A registry from which the walk may go on with `steps`. -/
structure Resumable (m : Model) (layout : Option Layout) (r : Registry) (steps : List Step) :
    Prop where
  entries : m.Entries steps
  wellFormed : r.WellFormed
  faithful : Faithful m layout r
  /-- What is in progress leads to what the steps visit. -/
  opened : ∀ p d, m.IsEntry p → m.decl? p = some d → r.slot? d.qualified = some .inProgress →
    ∀ id, .reference id ∈ steps → m.Reaches p id
  /-- A superclass is known if its class is, or it is visited next. -/
  superclasses : ∀ a s, m.Superclass a s → m.IsEntry a → m.Known r a →
    m.Known r s ∨ steps.head? = some (.reference s)

namespace Resumable

theorem start (h : m.IsEntry id) : Resumable m layout .empty [.reference id] where
  entries := .singleton h
  wellFormed := .empty
  faithful := .empty
  opened p d _ _ hp := by simp at hp
  superclasses a s _ _ hk := by
    obtain ⟨d, -, hk⟩ := hk
    simp [Registry.isKnown] at hk

theorem tail (h : Resumable m layout r (step :: rest))
    (hk : ∀ id, step = .reference id → m.Known r id) : Resumable m layout r rest where
  entries := h.entries.tail
  wellFormed := h.wellFormed
  faithful := h.faithful
  opened p d hp hd hs id hid := h.opened p d hp hd hs id (List.mem_cons_of_mem _ hid)
  superclasses a s hs ha hka := by
    left
    rcases h.superclasses a s hs ha hka with hks | hhead
    · exact hks
    · exact hk s (Option.some.inj hhead)

theorem tail_express {type : TypeRef} (h : Resumable m layout r (.express type :: rest)) :
    Resumable m layout r rest := by
  apply h.tail
  intro id heq
  cases heq

theorem tail_known (h : Resumable m layout r (.reference id :: rest)) (hk : m.Known r id) :
    Resumable m layout r rest := by
  apply h.tail
  intro id' heq
  cases heq
  exact hk

theorem enter (h : Resumable m layout r (.reference id :: rest)) (hm : m.Canonical)
    (hd : m.decl? id = some d) (hb : r.begin? d.qualified = some begun) :
    Resumable m layout begun d.steps where
  entries := hm.entries hd
  wellFormed := h.wellFormed.begin? hb
  faithful := by
    intro name output hslot
    have hn : name ≠ d.qualified := by
      rintro rfl
      simp [Registry.slot?_of_begin?_self hb] at hslot
    exact h.faithful name output (Registry.slot?_of_begin?_ne hb hn ▸ hslot)
  opened := by
    intro p e hp he hs x hx
    have hlast : m.Edge id x := (Model.edge_iff hd).mpr hx
    by_cases hn : e.qualified = d.qualified
    · obtain rfl : p = id := hp.unique (h.entries id List.mem_cons_self) he hd hn
      exact .single hlast
    · rw [Registry.slot?_of_begin?_ne hb hn] at hs
      exact (h.opened p e hp he hs id List.mem_cons_self).tail hlast
  superclasses := by
    intro a s hs ha ⟨e, he, hk⟩
    by_cases hn : e.qualified = d.qualified
    · obtain rfl : a = id := ha.unique (h.entries id List.mem_cons_self) he hd hn
      exact .inr (hs.head?_steps hd)
    · left
      have hka : m.Known r a := by
        refine ⟨e, he, ?_⟩
        simpa [Registry.isKnown, Registry.slot?_of_begin?_ne hb hn] using hk
      rcases h.superclasses a s hs ha hka with hks | hhead
      · exact hks.mono (.of_begin? hb)
      · obtain rfl : id = s := Step.reference.inj (Option.some.inj hhead)
        exact ⟨d, hd, Registry.isKnown_iff.mpr ⟨_, Registry.slot?_of_begin?_self hb⟩⟩

theorem resume (h : Resumable m layout r (.reference id :: rest)) (ha : Resumable m layout after [])
    (hd : m.decl? id = some d) (hb : r.begin? d.qualified = some begun)
    (hw : Walk m layout d.steps begun after none)
    (hf : after.finish? d.qualified (d.target? m layout) = some finished) :
    Resumable m layout finished rest where
  entries := h.entries.tail
  wellFormed := ha.wellFormed.finish? hf
  faithful := by
    intro name output hslot
    by_cases hn : name = d.qualified
    · subst hn
      rw [Registry.slot?_of_finish?_self hf] at hslot
      have hid := h.entries id List.mem_cons_self
      exact ⟨id, d, hid.lookup hd, hd, fun type => hw.expressible,
        (Slot.done.inj (Option.some.inj hslot)).symm⟩
    · exact ha.faithful name output (Registry.slot?_of_finish?_ne hf hn ▸ hslot)
  opened := by
    intro p e hp he hs x hx
    have hn : e.qualified ≠ d.qualified := by
      intro hn
      simp [hn, Registry.slot?_of_finish?_self hf] at hs
    rw [Registry.slot?_of_finish?_ne hf hn] at hs
    have hbegun := hw.inProgress hs
    rw [Registry.slot?_of_begin?_ne hb hn] at hbegun
    exact h.opened p e hp he hbegun x (List.mem_cons_of_mem _ hx)
  superclasses := by
    rintro a s hs hae ⟨e, he, hk⟩
    rw [Registry.isKnown_of_finish? hf] at hk
    rcases ha.superclasses a s hs hae ⟨e, he, hk⟩ with ⟨t, ht, hkt⟩ | hhead
    · exact .inl ⟨t, ht, by rwa [Registry.isKnown_of_finish? hf]⟩
    · cases hhead

theorem known_of_inherits (h : Resumable m layout r []) (hm : m.Canonical) (ha : m.IsEntry a)
    (hk : m.Known r a) (hi : m.Inherits a b) : m.Known r b := by
  have up {x y : Nat} (hx : m.IsEntry x) (hkx : m.Known r x) (hs : m.Superclass x y) :
      m.Known r y := by
    rcases h.superclasses x y hs hx hkx with hky | hhead
    · exact hky
    · cases hhead
  induction hi with
  | single hs => exact up ha hk hs
  | tail hprev hs ih => exact up (hm.inherits hprev) ih hs

end Resumable

theorem Walk.resumable (hm : m.Canonical) (h : Walk m layout steps r r' none)
    (hr : Resumable m layout r steps) : Resumable m layout r' [] := by
  induction h using Walk.success_induction with
  | done => exact hr
  | express _ _ ih => exact ih hr.tail_express
  | known hd hk _ ih => exact ih (hr.tail_known ⟨_, hd, hk⟩)
  | enter hd hb ha hf _ iha ihr => exact ihr (hr.resume (iha (hr.enter hm hd hb)) hd hb ha hf)

-- ---------------------------------------------------------------------------
-- What comes first
-- ---------------------------------------------------------------------------

def DependsOn (m : Model) (a b : Nat) : Prop := m.Edge a b ∨ m.Inherits a b

theorem Resumable.mem_finished (h : Resumable m layout r []) (hb : m.IsEntry b)
    (hdb : m.decl? b = some db) (hshape : db.kind.hasShape = true) (hk : m.Known r b)
    (hp : r.slot? db.qualified ≠ some .inProgress) : db.qualified ∈ r.finished := by
  obtain ⟨e, he, hke⟩ := hk
  obtain rfl : db = e := Option.some.inj (hdb.symm.trans he)
  obtain ⟨slot, hslot⟩ := Registry.isKnown_iff.mp hke
  cases slot with
  | inProgress => exact absurd hslot hp
  | done output =>
    obtain ⟨id, d, hl, hd, -, rfl⟩ := h.faithful db.qualified output hslot
    obtain rfl : id = b := Option.some.inj (hl.symm.trans (hb.lookup hdb))
    obtain rfl : d = db := Option.some.inj (hd.symm.trans hdb)
    obtain ⟨t, ht⟩ : ∃ t, d.target? m layout = some t :=
      Option.isSome_iff_exists.mp (Declaration.isSome_target?.trans hshape)
    exact (h.wellFormed.mem_finished _).mpr ⟨t, ht ▸ hslot⟩

/-- When the walk comes back from what a class refers to, what the class depends on is finished,
cycles aside. -/
theorem Resumable.mem_finished_of_dependsOn (hm : m.Canonical)
    (h : Resumable m layout r (.reference a :: rest)) (hda : m.decl? a = some da)
    (hbegin : r.begin? da.qualified = some begun)
    (hw : Walk m layout da.steps begun after none) (hdb : m.decl? b = some db)
    (hshape : db.kind.hasShape = true) (hdep : DependsOn m a b) (hcycle : ¬ m.Reaches b a) :
    db.qualified ∈ after.finished := by
  have hbegun := h.enter hm hda hbegin
  have hafter := hw.resumable hm hbegun
  have ha : m.IsEntry a := h.entries a List.mem_cons_self
  have hb : m.IsEntry b := hdep.elim hm.edge hm.inherits
  have hopen : begun.slot? da.qualified = some .inProgress := Registry.slot?_of_begin?_self hbegin
  have hk : m.Known after b := by
    rcases hdep with hedge | hinherits
    · exact hw.reference_known ((Model.edge_iff hda).mp hedge)
    · have hka : m.Known after a :=
        ⟨da, hda, Registry.isKnown_iff.mpr ⟨_, hw.extension.slot hopen⟩⟩
      exact hafter.known_of_inherits hm ha hka hinherits
  refine hafter.mem_finished hb hdb hshape hk fun hp => hcycle ?_
  -- What is in progress now was in progress before, and so it leads to `a`.
  have hpb := hw.inProgress hp
  by_cases hn : db.qualified = da.qualified
  · exact hb.unique ha hdb hda hn ▸ .refl
  · rw [Registry.slot?_of_begin?_ne hbegin hn] at hpb
    exact h.opened b db hb hdb hpb a List.mem_cons_self

theorem Walk.precedes (hm : m.Canonical) (h : Walk m layout steps r r' none)
    (hr : Resumable m layout r steps) (ha : m.IsEntry a) (hda : m.decl? a = some da)
    (hn : r.slot? da.qualified = none) (hk : r'.isKnown da.qualified = true)
    (hashape : da.kind.hasShape = true) (hdb : m.decl? b = some db)
    (hbshape : db.kind.hasShape = true) (hdep : DependsOn m a b) (hcycle : ¬ m.Reaches b a) :
    Precedes db.qualified da.qualified r'.finished := by
  induction h using Walk.success_induction with
  | done => simp [Registry.isKnown, hn] at hk
  | express _ _ ih => exact ih hr.tail_express hn hk
  | known hd hkd _ ih => exact ih (hr.tail_known ⟨_, hd, hkd⟩) hn hk
  | @enter id d rest r begun after finished r' hd hb hw hf hrest iha ihr =>
    have hbegun := hr.enter hm hd hb
    rcases Registry.Extends.bracket_cases hb hf hn with hq | ⟨hnone, slot, hslot, -⟩ | hfin
    · obtain rfl : a = id := ha.unique (hr.entries id List.mem_cons_self) hda hd hq
      obtain rfl : da = d := Option.some.inj (hda.symm.trans hd)
      have hmem := hr.mem_finished_of_dependsOn hm hd hb hw hdb hbshape hdep hcycle
      have hlast : finished.finished = after.finished ++ [da.qualified] := by
        rw [Registry.finished_of_finish? hf, Declaration.isSome_target?, hashape, if_pos rfl]
      exact (hlast ▸ Precedes.concat hmem).mono hrest.extension.finished
    · have hinner := iha hbegun hnone (Registry.isKnown_iff.mpr ⟨slot, hslot⟩)
      exact hinner.mono ((Registry.prefix_of_finish? hf).trans hrest.extension.finished)
    · exact ihr (hr.resume (hw.resumable hm hbegun) hd hb hw hf) hfin hk

theorem Walk.getLast?_finished (h : Walk m layout [.reference id] r r' none)
    (hd : m.decl? id = some d) (hn : r.slot? d.qualified = none)
    (hshape : d.kind.hasShape = true) : r'.finished.getLast? = some d.qualified := by
  obtain ⟨begun, after, -, -, hfinished⟩ := h.finished_of_unseen hd hn
  rw [hfinished, if_pos hshape, List.getLast?_concat]

theorem Walk.names_outputs (h : Walk m layout steps .empty r' none) :
    r'.outputs.map (·.qualified) = r'.finished := by
  obtain ⟨names, hnames, added, hadded, hmap⟩ := h.framed.outputs .empty
  rw [hadded, List.map_append, hmap, hnames]
  rfl

end

/-- In the outputs of a run, what a class refers to or has above it comes before the class, unless
it leads back to the class. The seed comes last. -/
theorem run_order {m : Model} {layout : Option Layout} {seed : Nat} (hm : m.Canonical)
    (hseed : m.IsEntry seed) (hfault : (run m layout seed).fault = none) :
    (∀ a b da db, m.IsEntry a → m.decl? a = some da → m.decl? b = some db →
      da.qualified ∈ (run m layout seed).registry.outputs.map (·.qualified) →
      db.kind.hasShape = true → m.Edge a b ∨ m.Inherits a b → ¬ m.Reaches b a →
      Precedes db.qualified da.qualified
        ((run m layout seed).registry.outputs.map (·.qualified))) ∧
    ∀ d, m.decl? seed = some d → d.kind.hasShape = true →
      ((run m layout seed).registry.outputs.map (·.qualified)).getLast? = some d.qualified := by
  have hw : Walk m layout [.reference seed] .empty (run m layout seed).registry none :=
    hfault ▸ extend_walk m layout seed .empty
  rw [hw.names_outputs]
  have hr : Resumable m layout .empty [.reference seed] := .start hseed
  constructor
  · intro a b da db ha hda hdb hmem hbshape hdep hcycle
    obtain ⟨t, ht⟩ := ((hw.wellFormed .empty).mem_finished _).mp hmem
    obtain ⟨id, d, hl, hd, -, htarget⟩ := (hw.resumable hm hr).faithful _ _ ht
    obtain rfl : id = a := Option.some.inj (hl.symm.trans (ha.lookup hda))
    obtain rfl : d = da := Option.some.inj (hd.symm.trans hda)
    have hashape : d.kind.hasShape = true := by
      rw [← Declaration.isSome_target?, ← htarget]
      rfl
    exact hw.precedes hm hr ha hda (Registry.slot?_empty _) (Registry.isKnown_iff.mpr ⟨_, ht⟩)
      hashape hdb hbshape hdep hcycle
  · intro d hd hshape
    exact hw.getLast?_finished hd (Registry.slot?_empty _) hshape

/-- The class refers to the enum, which leads nowhere. -/
theorem run_order_sample :
    Model.sample.Canonical ∧ Model.sample.IsEntry 0 ∧ (run Model.sample none 0).fault = none ∧
    Precedes "tree.Kind" "tree.Node"
      ((run Model.sample none 0).registry.outputs.map (·.qualified)) ∧
    ((run Model.sample none 0).registry.outputs.map (·.qualified)).getLast? =
      some "tree.Node" := by
  have hm : Model.sample.Canonical := by decide
  have hseed : Model.sample.IsEntry 0 := by decide
  have hfault : (run Model.sample none 0).fault = none := by decide
  have hmem : "tree.Node" ∈ (run Model.sample none 0).registry.outputs.map (·.qualified) := by
    decide +kernel
  have hedge : Model.sample.Edge 0 2 :=
    ⟨_, _, rfl, rfl, ClassShape.mem_references.mp (by decide)⟩
  have hcycle : ¬ Model.sample.Reaches 2 0 := by
    intro h
    obtain h | ⟨b, ⟨d, c, hd, hc, -⟩, -⟩ := Relation.ReflTransGen.cases_head h
    · cases h
    · cases hd
      cases hc
  obtain ⟨horder, hlast⟩ := run_order hm hseed hfault
  exact ⟨hm, hseed, hfault,
    horder 0 2 _ _ hseed rfl rfl hmem rfl (.inl hedge) hcycle, hlast _ rfl rfl⟩

end Closure

end TypeWeave
