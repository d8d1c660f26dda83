import TypeWeave.Proofs.Writing

/-!
# File trees

On a file tree every entry has a place of its own, and is down from a fixed place by names
(`Disk.Tree`). Entries that are made one by one, with the directories they need, make a file tree
(`Disk.Creatable.tree`). In which order they are made does not matter to what stands where
(`Disk.node?_create_perm`), and nothing else is seen through a path (`Disk.lookup_congr`).
-/

namespace TypeWeave

-- ---------------------------------------------------------------------------
-- Places of entries
-- ---------------------------------------------------------------------------

namespace Place

variable {place : Place}

def Proper (place : Place) : Prop :=
  ∃ base names, place = base ++ names ∧ isFixed base = true ∧ ∀ name ∈ names, IsName name

theorem isFixed_take (h : place.isFixed = true) (n : Nat) : isFixed (place.take n) = true := by
  simp only [isFixed, Bool.or_eq_true, List.all_eq_true, decide_eq_true_eq] at h ⊢
  rcases h with hdots | rfl
  · exact .inl fun name hname => hdots name (List.mem_of_mem_take hname)
  · cases n with
    | zero => exact .inl (by simp)
    | succ n => exact .inr (by simp)

theorem Proper.take (h : place.Proper) (n : Nat) : Proper (place.take n) := by
  obtain ⟨base, names, rfl, hbase, hnames⟩ := h
  exact ⟨base.take n, names.take (n - base.length), List.take_append, isFixed_take hbase n,
    fun name hname => hnames name (List.mem_of_mem_take hname)⟩

end Place

namespace Disk

variable {disk : Disk} {place q : Place} {places : List Place} {node : Node}
  {items items' : List (Place × Node)}

-- ---------------------------------------------------------------------------
-- Trees
-- ---------------------------------------------------------------------------

/-- Every entry has a place of its own, down from a fixed place by names. -/
structure Tree (disk : Disk) : Prop where
  nodup : (disk.entries.map Prod.fst).Nodup
  proper : ∀ place ∈ disk.entries.map Prod.fst, place.Proper

theorem map_fst_put (disk : Disk) (place : Place) (node : Node) :
    (disk.put place node).entries.map Prod.fst =
      if (disk.entries.lookup place).isSome then disk.entries.map Prod.fst
      else disk.entries.map Prod.fst ++ [place] := by
  unfold put
  split
  · rw [List.map_map]
    apply List.map_congr_left
    intro entry _
    by_cases hkey : entry.1 = place <;> simp [hkey]
  · simp

theorem Tree.put (h : disk.Tree) (hplace : place.Proper) : (disk.put place node).Tree := by
  have hkeys := map_fst_put disk place node
  split at hkeys
  · exact ⟨hkeys ▸ h.nodup, hkeys ▸ h.proper⟩
  · next hnone =>
    rw [Option.not_isSome_iff_eq_none, List.lookup_eq_none_iff] at hnone
    have hnew : place ∉ disk.entries.map Prod.fst := by
      intro hmem
      obtain ⟨entry, hentry, rfl⟩ := List.mem_map.mp hmem
      simpa using hnone entry hentry
    constructor
    · rw [hkeys, ← List.concat_eq_append]
      exact h.nodup.concat hnew
    · rw [hkeys]
      intro other hother
      rcases List.mem_append.mp hother with hother | hother
      · exact h.proper other hother
      · rwa [List.mem_singleton.mp hother]

def withDirectories (disk : Disk) (places : List Place) : Disk :=
  places.foldl (fun d p => if (d.node? p).isSome then d else d.put p .directory) disk

theorem withEntry_eq (disk : Disk) (place : Place) (node : Node) :
    disk.withEntry place node =
      (disk.withDirectories ((List.range place.length).map place.take)).put place node :=
  rfl

theorem Tree.withDirectories (h : disk.Tree) (hplaces : ∀ place ∈ places, place.Proper) :
    (disk.withDirectories places).Tree := by
  induction places generalizing disk with
  | nil => exact h
  | cons place places ih =>
    have hrest := fun p hp => hplaces p (List.mem_cons_of_mem place hp)
    rw [Disk.withDirectories, List.foldl_cons]
    split
    · exact ih h hrest
    · exact ih (h.put (hplaces place List.mem_cons_self)) hrest

theorem Tree.withEntry (h : disk.Tree) (hplace : place.Proper) :
    (disk.withEntry place node).Tree := by
  rw [withEntry_eq]
  refine (h.withDirectories fun p hp => ?_).put hplace
  obtain ⟨n, -, rfl⟩ := List.mem_map.mp hp
  exact hplace.take n

-- ---------------------------------------------------------------------------
-- What stands on a disk that is made
-- ---------------------------------------------------------------------------

theorem node?_withDirectories (disk : Disk) (places : List Place) (q : Place) :
    (disk.withDirectories places).node? q =
      (disk.node? q).or (if q ∈ places then some .directory else none) := by
  induction places generalizing disk with
  | nil => simp [withDirectories]
  | cons place places ih =>
    have hstep : (if (disk.node? place).isSome then disk else disk.put place .directory).node? q =
        (disk.node? q).or (if q = place then some .directory else none) := by
      split
      · next hsome =>
        by_cases hq : q = place
        · rw [hq, Option.or_of_isSome hsome]
        · rw [if_neg hq, Option.or_none]
      · next hnone =>
        have hnone : disk.node? place = none := Option.not_isSome_iff_eq_none.mp hnone
        have hfixed : place.isFixed = false := by
          rw [← Bool.not_eq_true]
          intro hfixed
          simp [node?, hfixed] at hnone
        by_cases hq : q = place
        · rw [hq, node?_put_self hfixed, hnone, if_pos rfl, Option.none_or]
        · rw [node?_put_of_ne hq, if_neg hq, Option.or_none]
    have hboth : (if q = place then some Node.directory else none).or
        (if q ∈ places then some .directory else none) =
        if q ∈ place :: places then some .directory else none := by
      by_cases hq : q = place <;> simp [hq]
    rw [withDirectories, List.foldl_cons, ← withDirectories, ih, hstep, Option.or_assoc, hboth]

theorem mem_map_take_iff :
    q ∈ (List.range place.length).map place.take ↔ q <+: place ∧ q ≠ place := by
  rw [List.mem_map]
  constructor
  · rintro ⟨n, hn, rfl⟩
    refine ⟨List.take_prefix n place, fun heq => ?_⟩
    have hlength := congrArg List.length heq
    rw [List.mem_range] at hn
    rw [List.length_take] at hlength
    omega
  · rintro ⟨hpre, hne⟩
    refine ⟨q.length, List.mem_range.mpr ?_, (List.prefix_iff_eq_take.mp hpre).symm⟩
    have hle := hpre.length_le
    have hlength : q.length ≠ place.length := fun heq => hne (hpre.eq_of_length heq)
    omega

/-- What stands where after an entry is made, with the directories above it. -/
def enter (nodes : Place → Option Node) (item : Place × Node) (q : Place) : Option Node :=
  if q.isFixed then some .directory
  else if q = item.1 then some item.2
  else (nodes q).or (if q <+: item.1 then some .directory else none)

theorem node?_withEntry (disk : Disk) (item : Place × Node) :
    (disk.withEntry item.1 item.2).node? = enter disk.node? item := by
  funext q
  rw [withEntry_eq]
  by_cases hfixed : q.isFixed
  · simp [enter, node?, hfixed]
  · by_cases hq : q = item.1
    · subst hq
      simpa [enter, hfixed] using node?_put_self (by simpa using hfixed) _ item.2
    · simp [enter, hfixed, node?_put_of_ne hq, node?_withDirectories, mem_map_take_iff, hq]

def create (items : List (Place × Node)) : Disk :=
  items.foldl (fun disk item => disk.withEntry item.1 item.2) .empty

structure Creatable (items : List (Place × Node)) : Prop where
  proper : ∀ item ∈ items, item.1.Proper
  alone : ∀ item ∈ items, ∀ other ∈ items, item.1 = other.1 → item = other

theorem node?_create (items : List (Place × Node)) :
    (create items).node? = items.foldl enter empty.node? :=
  (List.foldl_hom Disk.node? fun disk item => (node?_withEntry disk item).symm).symm

theorem enter_comm {item other : Place × Node} (h : item.1 = other.1 → item = other)
    (nodes : Place → Option Node) :
    enter (enter nodes item) other = enter (enter nodes other) item := by
  funext q
  unfold enter
  by_cases hfixed : q.isFixed
  · simp [hfixed]
  · by_cases hitem : q = item.1 <;> by_cases hother : q = other.1
    · rw [h (hitem.symm.trans hother)]
    · subst hitem
      simp [hfixed, hother]
    · subst hother
      simp [hfixed, hitem]
    · simp only [hfixed, hitem, hother, if_false, Bool.false_eq_true, Option.or_assoc]
      congr 1
      split <;> split <;> rfl

/-- What stands where does not depend on the order in which the entries are made. -/
theorem node?_create_perm (h : Creatable items) (hperm : items.Perm items') :
    (create items').node? = (create items).node? := by
  rw [node?_create, node?_create]
  exact (hperm.foldl_eq' (fun item hitem other hother nodes =>
    enter_comm (h.alone item hitem other hother) nodes) _).symm

theorem Creatable.perm (h : Creatable items) (hperm : items.Perm items') : Creatable items' where
  proper item hitem := h.proper item (hperm.mem_iff.mpr hitem)
  alone item hitem other hother :=
    h.alone item (hperm.mem_iff.mpr hitem) other (hperm.mem_iff.mpr hother)

theorem Tree.withEntries (h : disk.Tree) (hproper : ∀ item ∈ items, item.1.Proper) :
    (items.foldl (fun disk item => disk.withEntry item.1 item.2) disk).Tree := by
  induction items generalizing disk with
  | nil => exact h
  | cons item items ih =>
    rw [List.foldl_cons]
    apply ih
    · exact h.withEntry (hproper item List.mem_cons_self)
    · exact fun other hother => hproper other (List.mem_cons_of_mem item hother)

/-- Making entries makes a file tree. -/
theorem Creatable.tree (h : Creatable items) : (create items).Tree := by
  have hempty : Disk.empty.Tree := ⟨List.nodup_nil, by simp [empty]⟩
  exact hempty.withEntries h.proper

-- ---------------------------------------------------------------------------
-- Disks on which the same stands everywhere
-- ---------------------------------------------------------------------------

section
variable {disk' : Disk} (h : disk'.node? = disk.node?)
include h

theorem followAll_congr : disk'.followAll = disk.followAll := by
  funext place pieces
  induction pieces generalizing place with
  | nil => rfl
  | cons piece pieces ih => simp only [followAll, follow, h, ih]

theorem lookup_congr : disk'.lookup = disk.lookup := by
  funext p
  simp only [lookup, followAll_congr h, h]

theorem isFile_congr : disk'.isFile = disk.isFile := by
  funext p
  simp only [isFile, lookup_congr h]

theorem isDirectory_congr : disk'.isDirectory = disk.isDirectory := by
  funext p
  simp only [isDirectory, lookup_congr h]

theorem read_congr : disk'.read = disk.read := by
  funext p
  simp only [read, lookup_congr h]

end

end Disk

end TypeWeave
