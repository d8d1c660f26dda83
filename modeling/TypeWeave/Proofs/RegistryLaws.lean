import Mathlib.Data.List.Basic
import Mathlib.Data.List.Nodup
import TypeWeave.Registry

/-!
# How a registry grows

`Extends r r'`: everything `r` knows is still the same in `r'`, and the names finished in `r` come
first in `r'`. A name that is begun, worked on and finished extends the registry it was begun in
(`Extends.bracket`), although its own slot changes in between.

`Finishes r r' names`: these are the names that got their output since `r`, each of them once.
`WellFormed r` says so of all finished names of `r`. Then an extension keeps the outputs of `r` and
puts new ones after them (`Extends.outputs`).
-/

namespace TypeWeave.Registry

theorem isKnown_iff {r : Registry} {name : String} :
    r.isKnown name = true ↔ ∃ slot, r.slot? name = some slot := by
  simp [isKnown, Option.isSome_iff_exists]

theorem isKnown_eq_false_iff {r : Registry} {name : String} :
    r.isKnown name = false ↔ r.slot? name = none := by
  simp [isKnown]

theorem get?_eq_some_iff {r : Registry} {name : String} {t : TargetDecl} :
    r.get? name = some t ↔ r.slot? name = some (.done (some t)) := by
  unfold get?
  split
  · next output h => simp [h]
  · next h =>
    refine ⟨fun hn => (nomatch hn), fun hs => ?_⟩
    exact absurd hs (h (some t))

-- ---------------------------------------------------------------------------
-- Beginning and finishing
-- ---------------------------------------------------------------------------

section
variable {r begun after finished : Registry} {name n : String} {output : Option TargetDecl}

theorem slot?_of_begin?_self (h : r.begin? name = some begun) :
    begun.slot? name = some .inProgress := by
  simp [slot?_of_begin? h]

theorem slot?_of_begin?_ne (h : r.begin? name = some begun) (hn : n ≠ name) :
    begun.slot? n = r.slot? n := by
  simp [slot?_of_begin? h, hn]

theorem slot?_eq_none_of_begin? (h : r.begin? name = some begun) : r.slot? name = none :=
  (begin?_eq_some_iff.mp h).1

theorem isKnown_eq_false_of_begin? (h : r.begin? name = some begun) : r.isKnown name = false :=
  isKnown_eq_false_iff.mpr (slot?_eq_none_of_begin? h)

theorem finished_of_begin? (h : r.begin? name = some begun) : begun.finished = r.finished := by
  obtain ⟨_, rfl⟩ := begin?_eq_some_iff.mp h
  rfl

theorem slot?_of_finish?_self (h : after.finish? name output = some finished) :
    finished.slot? name = some (.done output) := by
  simp [slot?_of_finish? h]

theorem slot?_of_finish?_ne (h : after.finish? name output = some finished) (hn : n ≠ name) :
    finished.slot? n = after.slot? n := by
  simp [slot?_of_finish? h, hn]

theorem inProgress_of_finish? (h : after.finish? name output = some finished) :
    after.slot? name = some .inProgress :=
  finish?_isSome_iff.mp (Option.isSome_iff_exists.mpr ⟨finished, h⟩)

theorem finished_of_finish? (h : after.finish? name output = some finished) :
    finished.finished = if output.isSome then after.finished ++ [name] else after.finished := by
  have hp := inProgress_of_finish? h
  simp only [finish?, hp, if_true, Option.some.injEq] at h
  rw [← h]

theorem prefix_of_finish? (h : after.finish? name output = some finished) :
    after.finished <+: finished.finished := by
  rw [finished_of_finish? h]
  split
  · exact List.prefix_append _ _
  · exact List.prefix_refl _

theorem isKnown_of_finish? (h : after.finish? name output = some finished) (n : String) :
    finished.isKnown n = after.isKnown n := by
  by_cases hn : n = name
  · subst hn
    simp [isKnown, slot?_of_finish?_self h, inProgress_of_finish? h]
  · simp [isKnown, slot?_of_finish?_ne h hn]

end

-- ---------------------------------------------------------------------------
-- The names that were begun
-- ---------------------------------------------------------------------------

/-- The names in the order in which they were begun, the last one first. -/
def names (r : Registry) : List String := r.slots.map (·.1)

theorem length_names (r : Registry) : r.names.length = r.size := by
  simp [names, size]

theorem mem_names_iff {r : Registry} {name : String} :
    name ∈ r.names ↔ r.slot? name ≠ none := by
  simp only [names, slot?, List.mem_map, ne_eq, List.lookup_eq_none_iff, not_forall]
  constructor
  · rintro ⟨entry, hentry, rfl⟩
    exact ⟨entry, hentry, by simp⟩
  · rintro ⟨entry, hentry, hname⟩
    have hname : name = entry.1 := by simpa using hname
    exact ⟨entry, hentry, hname.symm⟩

theorem names_of_begin? {r begun : Registry} {name : String} (h : r.begin? name = some begun) :
    begun.names = name :: r.names := by
  obtain ⟨_, rfl⟩ := begin?_eq_some_iff.mp h
  rfl

theorem names_of_finish? {r finished : Registry} {name : String} {output : Option TargetDecl}
    (h : r.finish? name output = some finished) : finished.names = r.names := by
  have hp := inProgress_of_finish? h
  simp only [finish?, hp, if_true, Option.some.injEq] at h
  rw [← h]
  simp only [names, replaceSlot, List.map_map]
  refine List.map_congr_left fun entry _ => ?_
  simp only [Function.comp_apply]
  split <;> rfl

-- ---------------------------------------------------------------------------
-- Extension
-- ---------------------------------------------------------------------------

structure Extends (r r' : Registry) : Prop where
  slot : ∀ {name slot}, r.slot? name = some slot → r'.slot? name = some slot
  finished : r.finished <+: r'.finished

namespace Extends

theorem refl (r : Registry) : Extends r r := ⟨fun h => h, List.prefix_refl _⟩

theorem trans {r₁ r₂ r₃ : Registry} (h₁ : Extends r₁ r₂) (h₂ : Extends r₂ r₃) : Extends r₁ r₃ :=
  ⟨fun h => h₂.slot (h₁.slot h), h₁.finished.trans h₂.finished⟩

variable {r r' begun after finished : Registry} {name : String} {output : Option TargetDecl}

theorem isKnown (h : Extends r r') (hk : r.isKnown name = true) : r'.isKnown name = true := by
  obtain ⟨slot, hs⟩ := isKnown_iff.mp hk
  exact isKnown_iff.mpr ⟨slot, h.slot hs⟩

theorem slot?_eq_none (h : Extends r r') (hn : r'.slot? name = none) : r.slot? name = none := by
  cases hs : r.slot? name with
  | none => rfl
  | some slot => simp [h.slot hs] at hn

theorem of_begin? (h : r.begin? name = some begun) : Extends r begun := by
  refine ⟨?_, finished_of_begin? h ▸ List.prefix_refl _⟩
  intro n slot hs
  have hn : n ≠ name := by
    rintro rfl
    simp [slot?_eq_none_of_begin? h] at hs
  rw [slot?_of_begin?_ne h hn]
  exact hs

theorem bracket (hb : r.begin? name = some begun) (ha : Extends begun after)
    (hf : after.finish? name output = some finished) : Extends r finished := by
  constructor
  · intro n slot hs
    have hn : n ≠ name := by
      rintro rfl
      simp [slot?_eq_none_of_begin? hb] at hs
    rw [slot?_of_finish?_ne hf hn]
    exact ha.slot ((of_begin? hb).slot hs)
  · exact ((of_begin? hb).trans ha).finished.trans (prefix_of_finish? hf)

/-- Where a name that was unseen may stand once `key` is finished. -/
theorem bracket_cases {key : String} (hb : r.begin? key = some begun)
    (hf : after.finish? key output = some finished) (hn : r.slot? name = none) :
    name = key ∨
      (begun.slot? name = none ∧ ∃ slot, after.slot? name = some slot ∧
        finished.slot? name = some slot) ∨
      finished.slot? name = none := by
  by_cases hk : name = key
  · exact .inl hk
  · have hfin := slot?_of_finish?_ne hf hk
    cases hafter : after.slot? name with
    | none => exact .inr (.inr (hfin.trans hafter))
    | some slot =>
      exact .inr (.inl ⟨(slot?_of_begin?_ne hb hk).trans hn, slot, rfl, hfin.trans hafter⟩)

end Extends

-- ---------------------------------------------------------------------------
-- Finished names
-- ---------------------------------------------------------------------------

/-- The names that got their output on the way from `r` to `r'`, in this order. -/
structure Finishes (r r' : Registry) (names : List String) : Prop where
  finished : r'.finished = r.finished ++ names
  nodup : names.Nodup
  mem_iff : ∀ name, name ∈ names ↔
    r.slot? name = none ∧ ∃ t, r'.slot? name = some (.done (some t))

namespace Finishes

theorem refl (r : Registry) : Finishes r r [] := by
  refine ⟨by simp, List.nodup_nil, fun name => ?_⟩
  constructor
  · intro hmem
    cases hmem
  · rintro ⟨hn, t, ht⟩
    simp [hn] at ht

variable {r r₁ r₂ : Registry} {names : List String} {name : String} {output : Option TargetDecl}

theorem begin? (h : Finishes r r₁ names) (hb : r₁.begin? name = some r₂) :
    Finishes r r₂ names := by
  refine ⟨(finished_of_begin? hb).trans h.finished, h.nodup, fun n => ?_⟩
  rw [h.mem_iff n]
  by_cases hn : n = name
  · subst hn
    simp [slot?_eq_none_of_begin? hb, slot?_of_begin?_self hb]
  · rw [slot?_of_begin?_ne hb hn]

theorem finish? (h : Finishes r r₁ names) (hn : r.slot? name = none)
    (hf : r₁.finish? name output = some r₂) :
    Finishes r r₂ (if output.isSome then names ++ [name] else names) := by
  have hfresh : name ∉ names := by
    intro hmem
    obtain ⟨-, t, ht⟩ := (h.mem_iff name).mp hmem
    simp [inProgress_of_finish? hf] at ht
  constructor
  · rw [finished_of_finish? hf, h.finished]
    split <;> simp
  · split
    · exact List.nodup_append'.mpr
        ⟨h.nodup, List.nodup_singleton _, List.disjoint_singleton.mpr hfresh⟩
    · exact h.nodup
  · intro n
    by_cases hq : n = name
    · subst hq
      rw [slot?_of_finish?_self hf]
      cases output <;> simp [hfresh, hn]
    · rw [slot?_of_finish?_ne hf hq, ← h.mem_iff n]
      split <;> simp [hq]

end Finishes

/-- The finished names are those that have output, each once. -/
structure WellFormed (r : Registry) : Prop where
  nodup : r.finished.Nodup
  mem_finished : ∀ name, name ∈ r.finished ↔ ∃ t, r.slot? name = some (.done (some t))

theorem wellFormed_iff {r : Registry} : r.WellFormed ↔ Finishes .empty r r.finished := by
  constructor
  · intro h
    exact ⟨rfl, h.nodup, fun name => by simpa using h.mem_finished name⟩
  · intro h
    exact ⟨h.nodup, fun name => by simpa using h.mem_iff name⟩

namespace WellFormed

theorem empty : WellFormed Registry.empty := wellFormed_iff.mpr (.refl _)

variable {r r' : Registry} {name : String} {output : Option TargetDecl}

theorem begin? (h : WellFormed r) (hb : r.begin? name = some r') : WellFormed r' := by
  rw [wellFormed_iff, finished_of_begin? hb]
  exact (wellFormed_iff.mp h).begin? hb

theorem finish? (h : WellFormed r) (hf : r.finish? name output = some r') : WellFormed r' := by
  rw [wellFormed_iff, finished_of_finish? hf]
  exact (wellFormed_iff.mp h).finish? (slot?_empty name) hf

end WellFormed

theorem map_qualified_filterMap_get? {r : Registry} {names : List String}
    (h : ∀ name ∈ names, ∃ t, r.slot? name = some (.done (some t)) ∧ t.qualified = name) :
    (names.filterMap r.get?).map (·.qualified) = names := by
  induction names with
  | nil => rfl
  | cons name names ih =>
    obtain ⟨t, ht, hq⟩ := h name (by simp)
    simp [get?_eq_some_iff.mpr ht, hq, ih fun n hn => h n (List.mem_cons_of_mem _ hn)]

/-- The outputs of an extension: those there were, and one for each name finished since. -/
theorem Extends.outputs {r r' : Registry} (h : Extends r r') (hw : r.WellFormed)
    {names : List String} (hn : r'.finished = r.finished ++ names) :
    r'.outputs = r.outputs ++ names.filterMap r'.get? := by
  have hold : r.finished.filterMap r'.get? = r.finished.filterMap r.get? := by
    refine List.filterMap_congr fun name hm => ?_
    obtain ⟨t, ht⟩ := (hw.mem_finished name).mp hm
    rw [get?_eq_some_iff.mpr ht, get?_eq_some_iff.mpr (h.slot ht)]
  simp only [Registry.outputs, hn, List.filterMap_append, hold]

end TypeWeave.Registry
