import TypeWeave.Proofs.Imports

/-!
# Groups partition the outputs

`Partition`: every output is in one group, as often as it is an output, and the groups keep the
order of the outputs, within each group and among the groups. This holds of the groups of every
registry (`Bundle.partition_groups`).

A run without a layout gives its outputs no files. Then there is no more than one group, nothing is
imported, and the text of the group is that of the whole run.
-/

namespace TypeWeave

-- ---------------------------------------------------------------------------
-- First entries and where they stand
-- ---------------------------------------------------------------------------

section
variable {alike : α → α → Bool} {as : List α} {a : α}

theorem find?_of_mem_distinctBy (hrefl : ∀ a, alike a a = true)
    (hsymm : ∀ a b, alike a b = true → alike b a = true) (h : a ∈ distinctBy alike as) :
    as.find? (alike a) = some a := by
  induction as with
  | nil => cases h
  | cons c as ih =>
    rcases List.mem_cons.mp h with rfl | h
    · simp [hrefl]
    · obtain ⟨hmem, hne⟩ := List.mem_filter.mp h
      rw [List.find?_cons, alike_eq_false_symm hsymm (by simpa using hne)]
      exact ih hmem

/-- The first entries come in the order in which they are first met. -/
theorem pairwise_findIdx_distinctBy (hrefl : ∀ a, alike a a = true)
    (hsymm : ∀ a b, alike a b = true → alike b a = true) :
    (distinctBy alike as).Pairwise fun a b => as.findIdx (alike a) < as.findIdx (alike b) := by
  induction as with
  | nil => exact .nil
  | cons c as ih =>
    have hlater (b : α) (hb : b ∈ (distinctBy alike as).filter fun b => !alike c b) :
        (c :: as).findIdx (alike b) = as.findIdx (alike b) + 1 := by
      have hcb : alike c b = false := by simpa using (List.mem_filter.mp hb).2
      simp [List.findIdx_cons, alike_eq_false_symm hsymm hcb]
    refine .cons (fun b hb => ?_) ((ih.filter _).imp_of_mem fun ha hb hlt => ?_)
    · rw [hlater b hb, List.findIdx_cons, hrefl c]
      exact Nat.succ_pos _
    · rw [hlater _ ha, hlater _ hb]
      exact Nat.succ_lt_succ hlt

end

theorem findIdx_congr {p q : α → Bool} {as : List α} (h : ∀ a ∈ as, p a = q a) :
    as.findIdx p = as.findIdx q := by
  induction as with
  | nil => rfl
  | cons a as ih =>
    rw [List.findIdx_cons, List.findIdx_cons, h a List.mem_cons_self,
      ih fun b hb => h b (List.mem_cons_of_mem _ hb)]

-- ---------------------------------------------------------------------------
-- Partitions
-- ---------------------------------------------------------------------------

/-- Where the first member of the group stands among the outputs. -/
def FileGroup.position (outputs : List TargetDecl) (group : FileGroup) : Nat :=
  outputs.findIdx (· ∈ group.members)

/-- The groups hold the outputs file by file. Files are told apart by the components of their paths;
having none is one more file. -/
structure Partition (outputs : List TargetDecl) (groups : List FileGroup) : Prop where
  distinct : groups.Pairwise fun g h => g.path.map Path.components ≠ h.path.map Path.components
  path : ∀ group ∈ groups, ∀ t ∈ group.members,
    group.path.map Path.components = t.output.map Path.components
  /-- A group has a first member, and goes by its path. -/
  head : ∀ group ∈ groups, ∃ t rest, group.members = t :: rest ∧ group.path = t.output
  members : ∀ t ∈ outputs, ∃ group ∈ groups, t ∈ group.members ∧
    group.members.count t = outputs.count t ∧ ∀ other ∈ groups, t ∈ other.members → other = group
  sublist : ∀ group ∈ groups, group.members.Sublist outputs
  ordered : groups.Pairwise fun g h => g.position outputs < h.position outputs

namespace Bundle

variable {b : Bundle} {group : FileGroup} {t : TargetDecl}

theorem head_of_mem_groups (h : group ∈ b.groups) :
    ∃ t rest, group.members = t :: rest ∧ group.path = t.output := by
  obtain ⟨hpath, hmembers⟩ := mem_groups_iff.mp h
  have hfirst := find?_of_mem_distinctBy sameFile_refl (fun _ _ => sameFile_symm) hpath
  rw [List.find?_map, Option.map_eq_some_iff] at hfirst
  obtain ⟨t, ht, houtput⟩ := hfirst
  have hhead : group.members.head? = some t := by
    rw [hmembers, List.head?_filter]
    exact ht
  exact ⟨t, group.members.tail, List.eq_cons_of_mem_head? hhead, houtput.symm⟩

theorem count_members (h : group ∈ b.groups) (ht : t ∈ group.members) :
    group.members.count t = b.registry.outputs.count t := by
  have hsame := ((mem_members_iff h).mp ht).2
  rw [(mem_groups_iff.mp h).2]
  exact List.count_filter hsame

theorem position_eq (h : group ∈ b.groups) :
    group.position b.registry.outputs =
      (b.registry.outputs.map (·.output)).findIdx (sameFile group.path) := by
  rw [List.findIdx_map]
  refine findIdx_congr fun t ht => ?_
  rw [Bool.eq_iff_iff, decide_eq_true_iff, mem_members_iff h]
  simp [ht]

theorem pairwise_position (b : Bundle) :
    b.groups.Pairwise fun g h => g.position b.registry.outputs < h.position b.registry.outputs := by
  have hpaths : b.groups.Pairwise fun g h =>
      (b.registry.outputs.map (·.output)).findIdx (sameFile g.path) <
        (b.registry.outputs.map (·.output)).findIdx (sameFile h.path) :=
    List.pairwise_map.mpr (pairwise_findIdx_distinctBy sameFile_refl fun _ _ => sameFile_symm)
  refine hpaths.imp_of_mem fun hg hh hlt => ?_
  rwa [position_eq hg, position_eq hh]

theorem partition_groups (b : Bundle) : Partition b.registry.outputs b.groups where
  distinct := by
    refine List.pairwise_map.mpr (pairwise_distinctBy.imp fun hfalse hsame => ?_)
    simp [sameFile_iff.mpr hsame] at hfalse
  path := by
    intro group hg t ht
    exact sameFile_iff.mp ((mem_members_iff hg).mp ht).2
  head := fun _ hg => head_of_mem_groups hg
  members := by
    intro t ht
    obtain ⟨group, hg, hmem⟩ := exists_mem_groups ht
    exact ⟨group, hg, hmem, count_members hg hmem,
      fun other ho hmem' => eq_of_mem_members ho hg hmem' hmem⟩
  sublist := by
    intro group hg
    rw [(mem_groups_iff.mp hg).2]
    exact List.filter_sublist
  ordered := b.pairwise_position

-- ---------------------------------------------------------------------------
-- Outputs without files
-- ---------------------------------------------------------------------------

theorem path_eq_none (h : ∀ t ∈ b.registry.outputs, t.output = none) (hg : group ∈ b.groups) :
    group.path = none := by
  obtain ⟨t, rest, hmembers, hpath⟩ := head_of_mem_groups hg
  have ht : t ∈ group.members := hmembers ▸ List.mem_cons_self
  exact hpath.trans (h t ((mem_members_iff hg).mp ht).1)

theorem members_eq_outputs (h : ∀ t ∈ b.registry.outputs, t.output = none) (hg : group ∈ b.groups) :
    group.members = b.registry.outputs := by
  rw [(mem_groups_iff.mp hg).2, List.filter_eq_self]
  intro t ht
  rw [path_eq_none h hg, h t ht]
  exact sameFile_refl none

theorem length_groups_le_one (h : ∀ t ∈ b.registry.outputs, t.output = none) :
    b.groups.length ≤ 1 := by
  have hdistinct := b.partition_groups.distinct
  rcases hgroups : b.groups with - | ⟨g, - | ⟨g', rest⟩⟩
  · exact Nat.zero_le 1
  · exact Nat.le_refl 1
  · rw [hgroups] at hdistinct
    have hne := (List.pairwise_cons.mp hdistinct).1 g' List.mem_cons_self
    have hpath : g.path = none := path_eq_none h (hgroups ▸ List.mem_cons_self)
    have hpath' : g'.path = none := path_eq_none h (hgroups ▸ by simp)
    rw [hpath, hpath'] at hne
    exact absurd rfl hne

theorem importLines_eq_nil_of_output (h : ∀ name t, b.registry.get? name = some t → t.output = none)
    (group : FileGroup) : b.importLines group = [] := by
  cases hroot : b.importRoot with
  | none => exact importLines_eq_nil hroot
  | some root =>
    refine List.eq_nil_iff_forall_not_mem.mpr fun line hline => ?_
    obtain ⟨_, _, name, _, hline⟩ := (mem_importLines_iff hroot).mp hline
    obtain ⟨t, file, ht, hfile, -⟩ := importLine?_eq_some_iff.mp hline
    simp [h name t ht] at hfile

end Bundle

namespace Closure

theorem Walk.output_eq_none {m : Model} {steps : List Step} {r' : Registry} {fault : Option Fault}
    {name : String} {t : TargetDecl} (h : Walk m none steps .empty r' fault)
    (ht : r'.get? name = some t) : t.output = none := by
  obtain ⟨_, d, _, _, _, hslot | ⟨hslot, -⟩⟩ :=
    h.new_slot (Registry.slot?_empty name) (Registry.get?_eq_some_iff.mp ht)
  · cases hslot
  · exact d.output_of_target? (Slot.done.inj hslot).symm

/-- The groups of a registry are a partition of its outputs that keeps their order. Without a layout
a run has one group at most, which has no path and the text of all outputs. -/
theorem groups_partition :
    (∀ b : Bundle, Partition b.registry.outputs b.groups) ∧
    ∀ (m : Model) (seed : Nat) (style : Style) (importRoot : Option Path),
      let b : Bundle := ⟨(run m none seed).registry, style, importRoot⟩
      b.groups.length ≤ 1 ∧
        ∀ group ∈ b.groups, group.path = none ∧ b.renderGroup group = b.renderAll := by
  refine ⟨Bundle.partition_groups, fun m seed style importRoot => ?_⟩
  intro b
  have hw := extend_walk m none seed .empty
  have hget (name : String) (t : TargetDecl) (ht : b.registry.get? name = some t) :
      t.output = none := hw.output_eq_none ht
  have houtput : ∀ t ∈ b.registry.outputs, t.output = none := by
    intro t ht
    obtain ⟨name, -, hname⟩ := List.mem_filterMap.mp ht
    exact hget name t hname
  refine ⟨Bundle.length_groups_le_one houtput, fun group hg => ?_⟩
  refine ⟨Bundle.path_eq_none houtput hg, ?_⟩
  rw [Bundle.renderGroup_eq, Bundle.importLines_eq_nil_of_output hget,
    Bundle.members_eq_outputs houtput hg]
  simp [Bundle.renderAll]

end Closure

end TypeWeave
