import Mathlib.Data.List.Pairwise
import TypeWeave.Bundle

/-!
# Groups of outputs

Outputs are grouped by the components of their paths. Every output is a member of a group
(`Bundle.exists_mem_groups`), and of no other one (`Bundle.eq_of_mem_members`).
-/

namespace TypeWeave

-- ---------------------------------------------------------------------------
-- First entries under an equivalence
-- ---------------------------------------------------------------------------

section
variable {alike : α → α → Bool} {as : List α} {a : α}

theorem pairwise_distinctBy : (distinctBy alike as).Pairwise fun a b => alike a b = false := by
  induction as with
  | nil => exact .nil
  | cons b as ih =>
    refine .cons (fun c hc => ?_) (ih.filter _)
    simpa using (List.mem_filter.mp hc).2

theorem alike_eq_false_symm {b : α} (hsymm : ∀ a b, alike a b = true → alike b a = true)
    (h : alike a b = false) : alike b a = false := by
  cases hba : alike b a with
  | false => rfl
  | true => simp [hsymm b a hba] at h

theorem eq_of_alike {b : α} (hsymm : ∀ a b, alike a b = true → alike b a = true)
    (ha : a ∈ distinctBy alike as) (hb : b ∈ distinctBy alike as) (h : alike a b = true) :
    a = b := by
  have hs : Std.Symm fun a b => alike a b = false := ⟨fun _ _ => alike_eq_false_symm hsymm⟩
  by_contra hne
  simpa [h] using pairwise_distinctBy.forall ha hb hne

theorem exists_alike_of_mem (hrefl : ∀ a, alike a a = true)
    (htrans : ∀ a b c, alike a b = true → alike b c = true → alike a c = true) (h : a ∈ as) :
    ∃ b ∈ distinctBy alike as, alike b a = true := by
  induction as with
  | nil => cases h
  | cons c as ih =>
    rcases List.mem_cons.mp h with rfl | h
    · exact ⟨a, List.mem_cons_self, hrefl a⟩
    · obtain ⟨b, hb, hba⟩ := ih h
      cases hcb : alike c b with
      | true => exact ⟨c, List.mem_cons_self, htrans c b a hcb hba⟩
      | false =>
        exact ⟨b, List.mem_cons_of_mem _ (List.mem_filter.mpr ⟨hb, by simp [hcb]⟩), hba⟩

end

-- ---------------------------------------------------------------------------
-- Files
-- ---------------------------------------------------------------------------

theorem sameFile_iff {p q : Option Path} :
    sameFile p q = true ↔ p.map Path.components = q.map Path.components := by
  simp [sameFile]

theorem sameFile_refl (p : Option Path) : sameFile p p = true := sameFile_iff.mpr rfl

theorem sameFile_symm {p q : Option Path} (h : sameFile p q = true) : sameFile q p = true :=
  sameFile_iff.mpr (sameFile_iff.mp h).symm

theorem sameFile_trans {p q s : Option Path} (h : sameFile p q = true) (h' : sameFile q s = true) :
    sameFile p s = true :=
  sameFile_iff.mpr ((sameFile_iff.mp h).trans (sameFile_iff.mp h'))

-- ---------------------------------------------------------------------------
-- Members
-- ---------------------------------------------------------------------------

namespace Bundle

variable {b : Bundle} {group other : FileGroup} {t : TargetDecl}

theorem mem_groups_iff :
    group ∈ b.groups ↔
      group.path ∈ distinctBy sameFile (b.registry.outputs.map (·.output)) ∧
      group.members = b.registry.outputs.filter fun d => sameFile group.path d.output := by
  unfold groups
  rw [List.mem_map]
  constructor
  · rintro ⟨path, hpath, rfl⟩
    exact ⟨hpath, rfl⟩
  · rintro ⟨hpath, hmembers⟩
    refine ⟨group.path, hpath, ?_⟩
    rw [← hmembers]

theorem mem_members_iff (h : group ∈ b.groups) :
    t ∈ group.members ↔ t ∈ b.registry.outputs ∧ sameFile group.path t.output = true := by
  rw [(mem_groups_iff.mp h).2, List.mem_filter]

theorem exists_mem_groups (h : t ∈ b.registry.outputs) :
    ∃ group ∈ b.groups, t ∈ group.members := by
  obtain ⟨path, hpath, hsame⟩ := exists_alike_of_mem sameFile_refl
    (fun _ _ _ => sameFile_trans) (List.mem_map_of_mem h)
  refine ⟨_, List.mem_map_of_mem hpath, ?_⟩
  exact List.mem_filter.mpr ⟨h, hsame⟩

theorem eq_of_mem_members (h : group ∈ b.groups) (h' : other ∈ b.groups) (ht : t ∈ group.members)
    (ht' : t ∈ other.members) : group = other := by
  have hsame : sameFile group.path other.path = true :=
    sameFile_trans ((mem_members_iff h).mp ht).2 (sameFile_symm ((mem_members_iff h').mp ht').2)
  obtain ⟨hpath, hmembers⟩ := mem_groups_iff.mp h
  obtain ⟨hpath', hmembers'⟩ := mem_groups_iff.mp h'
  obtain ⟨path, members⟩ := group
  obtain ⟨path', members'⟩ := other
  obtain rfl : path = path' := eq_of_alike (fun _ _ => sameFile_symm) hpath hpath' hsame
  obtain rfl : members = members' := hmembers.trans hmembers'.symm
  rfl

end Bundle

end TypeWeave
