import TypeWeave.Disk.Write
import TypeWeave.Proofs.Mirroring
import TypeWeave.Proofs.Partition
import TypeWeave.Proofs.Translation

/-!
# What writing does to a disk

Writing a file makes the directories it needs, which changes no file (`Deepens`), and then puts the
text at the place its path leads to. The paths of one layout lead to different places, so that the
groups of a bundle are written without touching each other, or anything else
(`Bundle.writeGroups_of_ok`, `Bundle.writeGroups_of_error`). A disk on which they are all written
stays as it is if they are written over themselves (`Bundle.writeGroups_of_settled`).
-/

namespace TypeWeave

def Component.name? : Component → Option String
  | normal name => some name
  | _ => none

/-- Where a path without `..` leads: down its names from the root or from the working directory. -/
def Path.place (p : Path) : Place := Disk.start p ++ p.components.filterMap Component.name?

namespace Disk

variable {disk disk' made after : Disk} {place next : Place} {piece : List Char} {p q : Path}
  {node : Node}

def fileAt? (disk : Disk) (place : Place) : Option ByteArray :=
  match disk.node? place with
  | some (.file content) => some content
  | _ => none

theorem fileAt?_of_node? {old : Option ByteArray} (h : disk.node? place = old.map .file) :
    disk.fileAt? place = old := by
  cases old <;> simp [fileAt?, h]

-- ---------------------------------------------------------------------------
-- Nodes that are put
-- ---------------------------------------------------------------------------

theorem lookup_cons_ite (key q : Place) (node : Node) (rest : List (Place × Node)) :
    ((key, node) :: rest).lookup q = if q = key then some node else rest.lookup q := by
  rw [List.lookup_cons]
  by_cases h : q = key
  · simp [h]
  · rw [beq_eq_false_iff_ne.mpr h, if_neg h]

theorem lookup_put (disk : Disk) (place q : Place) (node : Node) :
    (disk.put place node).entries.lookup q =
      if q = place then some node else disk.entries.lookup q := by
  unfold put
  split
  · next hsome =>
    have hmap (entries : List (Place × Node)) :
        (entries.map fun entry => if entry.1 == place then (place, node) else entry).lookup q =
          if q = place then (entries.lookup q).map fun _ => node else entries.lookup q := by
      induction entries with
      | nil => simp
      | cons entry rest ih =>
        obtain ⟨key, other⟩ := entry
        rw [List.map_cons]
        by_cases hkey : key = place
        · subst hkey
          by_cases hq : q = key <;> simp_all [lookup_cons_ite]
        · rw [if_neg (by simpa using hkey), lookup_cons_ite, lookup_cons_ite, ih]
          by_cases hq : q = key <;> simp [hq, hkey]
    obtain ⟨other, hother⟩ := Option.isSome_iff_exists.mp hsome
    rw [hmap]
    by_cases hq : q = place <;> simp [hq, hother]
  · next hnone =>
    have hnone : disk.entries.lookup place = none := Option.not_isSome_iff_eq_none.mp hnone
    by_cases hq : q = place <;> simp only [List.lookup_append, lookup_cons_ite, hq, hnone] <;> simp

theorem node?_put_self (h : place.isFixed = false) (disk : Disk) (node : Node) :
    (disk.put place node).node? place = some node := by
  simp [node?, h, lookup_put]

theorem node?_put_of_ne {other : Place} (h : other ≠ place) (disk : Disk) (node : Node) :
    (disk.put place node).node? other = disk.node? other := by
  simp [node?, lookup_put, h]

theorem mem_entries_put_of_ne {other : Place} {found : Node} (h : other ≠ place)
    (hmem : (other, found) ∈ (disk.put place node).entries) : (other, found) ∈ disk.entries := by
  unfold put at hmem
  split at hmem
  · obtain ⟨entry, hentry, heq⟩ := List.mem_map.mp hmem
    split at heq
    · cases heq
      exact absurd rfl h
    · exact heq ▸ hentry
  · rcases List.mem_append.mp hmem with hmem | hmem
    · exact hmem
    · cases List.mem_singleton.mp hmem
      exact absurd rfl h

theorem eq_of_mem_entries_put {found : Node}
    (hmem : (place, found) ∈ (disk.put place node).entries) : found = node := by
  unfold put at hmem
  split at hmem
  · obtain ⟨entry, -, heq⟩ := List.mem_map.mp hmem
    split at heq
    · cases heq
      rfl
    · next hne => simp [heq] at hne
  · next hnone =>
    rcases List.mem_append.mp hmem with hmem | hmem
    · have hnone : disk.entries.lookup place = none := Option.not_isSome_iff_eq_none.mp hnone
      simpa using List.lookup_eq_none_iff.mp hnone _ hmem
    · cases List.mem_singleton.mp hmem
      rfl

/-- What stands at a place already, and alone, can be put there again. -/
theorem put_eq_self (h : place.isFixed = false) (hnode : disk.node? place = some node)
    (honly : ∀ found, (place, found) ∈ disk.entries → found = node) :
    disk.put place node = disk := by
  have hlookup : disk.entries.lookup place = some node := by simpa [node?, h] using hnode
  have hmap : (disk.entries.map fun entry => if entry.1 == place then (place, node) else entry) =
      disk.entries := by
    refine (List.map_congr_left fun entry hentry => ?_).trans (List.map_id _)
    split
    · next hkey =>
      obtain rfl : entry.1 = place := by simpa using hkey
      rw [← honly entry.2 hentry]
      rfl
    · rfl
  rw [put, hlookup, Option.isSome_some, if_pos rfl, hmap]

-- ---------------------------------------------------------------------------
-- Directories
-- ---------------------------------------------------------------------------

/-- `made` is the disk with directories added where nothing was. -/
inductive Deepens (disk : Disk) : Disk → Prop
  | refl : Deepens disk disk
  | put {made : Disk} {place : Place} : Deepens disk made → made.node? place = none →
      Deepens disk (made.put place .directory)

theorem Deepens.trans (h : Deepens disk made) (h' : Deepens made after) : Deepens disk after := by
  induction h' with
  | refl => exact h
  | put _ hnone ih => exact .put ih hnone

theorem isFixed_of_node? (h : disk.node? place = none) : place.isFixed = false := by
  unfold node? at h
  split at h
  · cases h
  · next hfixed => simpa using hfixed

theorem Deepens.node? (h : Deepens disk made) (hnode : disk.node? place = some node) :
    made.node? place = some node := by
  induction h with
  | refl => exact hnode
  | @put made there _ hnone ih =>
    have hne : place ≠ there := by
      rintro rfl
      simp [hnone] at ih
    rw [node?_put_of_ne hne, ih]

theorem Deepens.fileAt? (h : Deepens disk made) (place : Place) :
    made.fileAt? place = disk.fileAt? place := by
  induction h with
  | refl => rfl
  | @put made there _ hnone ih =>
    rw [← ih]
    by_cases hp : place = there
    · subst hp
      simp [Disk.fileAt?, node?_put_self (isFixed_of_node? hnone), hnone]
    · simp [Disk.fileAt?, node?_put_of_ne hp]

theorem Deepens.mem_entries (h : Deepens disk made) (hnode : disk.node? place = some node)
    {found : Node} (hmem : (place, found) ∈ made.entries) : (place, found) ∈ disk.entries := by
  induction h with
  | refl => exact hmem
  | @put made there hmade hnone ih =>
    have hne : place ≠ there := by
      rintro rfl
      simp [hmade.node? hnode] at hnone
    exact ih (mem_entries_put_of_ne hne hmem)

def KeepsDirectories (disk disk' : Disk) : Prop :=
  ∀ place, disk.node? place = some .directory → disk'.node? place = some .directory

theorem Deepens.keepsDirectories (h : Deepens disk made) : KeepsDirectories disk made :=
  fun _ => h.node?

namespace KeepsDirectories

theorem trans (h : KeepsDirectories disk made) (h' : KeepsDirectories made after) :
    KeepsDirectories disk after :=
  fun place hplace => h' place (h place hplace)

theorem follow (h : KeepsDirectories disk disk') (hf : disk.follow place piece = .ok next) :
    disk'.follow place piece = .ok next := by
  unfold Disk.follow at hf ⊢
  split at hf
  · cases hf
  · cases hf
  · next hdirectory =>
    rw [h place hdirectory]
    exact hf

theorem followAll {pieces : List (List Char)} (h : KeepsDirectories disk disk')
    (hf : disk.followAll place pieces = .ok next) : disk'.followAll place pieces = .ok next := by
  induction pieces generalizing place with
  | nil => exact hf
  | cons piece pieces ih =>
    obtain ⟨there, hthere, hrest⟩ := followAll_cons.mp hf
    exact followAll_cons.mpr ⟨there, h.follow hthere, ih hrest⟩

theorem target {found : Place × List Char} (h : KeepsDirectories disk disk')
    (ht : disk.target p = .ok found) : disk'.target p = .ok found := by
  unfold Disk.target at ht ⊢
  split at ht
  · cases ht
  · split at ht
    · exact ht
    · split at ht
      · cases ht
      · next place hplace =>
        split at ht
        · cases ht
        · cases ht
        · next hdirectory => simpa [h.followAll hplace, h place hdirectory] using ht

end KeepsDirectories

theorem isDirectory_iff : disk.isDirectory p = true ↔ fault? p = none ∧
    ∃ place, disk.followAll (start p) (steps p) = .ok place ∧
      disk.node? place = some .directory := by
  unfold isDirectory lookup
  constructor
  · intro h
    split at h
    · next hlookup =>
      split at hlookup
      · cases hlookup
      · next hfault =>
        split at hlookup
        · cases hlookup
        · next place hplace =>
          split at hlookup
          · cases hlookup
          · split at hlookup <;> cases hlookup
          · next hnode => exact ⟨hfault, place, hplace, hnode⟩
    · cases h
  · rintro ⟨hfault, place, hplace, hnode⟩
    simp [hfault, hplace, hnode]

theorem KeepsDirectories.isDirectory (h : KeepsDirectories disk disk')
    (hp : disk.isDirectory p = true) : disk'.isDirectory p = true := by
  obtain ⟨hfault, place, hplace, hnode⟩ := isDirectory_iff.mp hp
  exact isDirectory_iff.mpr ⟨hfault, place, h.followAll hplace, h place hnode⟩

theorem node?_of_follow (h : disk.follow place piece = .ok next) :
    disk.node? place = some .directory := by
  unfold follow at h
  split at h
  · cases h
  · cases h
  · assumption

theorem target_eq_ok {parent : Place} {last : List Char} (h : disk.target p = .ok (parent, last)) :
    fault? p = none ∧ ((steps p = [] ∧ parent = start p ∧ last = ['.']) ∨
      ∃ before, steps p = before ++ [last] ∧ disk.followAll (start p) before = .ok parent) := by
  unfold target at h
  split at h
  · cases h
  · next hfault =>
    refine ⟨hfault, ?_⟩
    split at h
    · next hnone =>
      cases h
      exact .inl ⟨List.getLast?_eq_none_iff.mp hnone, rfl, rfl⟩
    · next piece hlast =>
      split at h
      · cases h
      · next there hthere =>
        split at h
        · cases h
        · cases h
        · cases h
          obtain ⟨before, hbefore⟩ := List.getLast?_eq_some_iff.mp hlast
          rw [hbefore, List.dropLast_concat] at hthere
          exact .inr ⟨before, hbefore, hthere⟩

/-- A target with an ordinary last piece is at the end of the path. -/
theorem followAll_of_target {parent : Place} {last : List Char}
    (h : disk.target p = .ok (parent, last)) (hlast : isOrdinary last = true)
    (hf : disk.follow parent last = .ok next) :
    disk.followAll (start p) (steps p) = .ok next := by
  obtain ⟨-, ⟨-, -, rfl⟩ | ⟨before, hsteps, hbefore⟩⟩ := target_eq_ok h
  · cases hlast
  · rw [hsteps]
    exact followAll_append.mpr ⟨parent, hbefore, followAll_cons.mpr ⟨next, hf, rfl⟩⟩

theorem makeDirectory_eq_ok (h : disk.makeDirectory p = .ok made) :
    fault? p = none ∧ ∃ place, disk.followAll (start p) (steps p) = .ok place ∧
      disk.node? place = none ∧ made = disk.put place .directory := by
  unfold makeDirectory at h
  split at h
  · cases h
  · next parent last htarget =>
    split at h
    · cases h
    · next place hfollow =>
      split at h
      · next hnew =>
        simp only [Bool.and_eq_true, Option.isNone_iff_eq_none] at hnew
        cases h
        exact ⟨(target_eq_ok htarget).1, place, followAll_of_target htarget hnew.1 hfollow,
          hnew.2, rfl⟩
      · cases h

theorem deepens_of_makeDirectory (h : disk.makeDirectory p = .ok made) : Deepens disk made := by
  obtain ⟨-, place, -, hnone, rfl⟩ := makeDirectory_eq_ok h
  exact .put .refl hnone

theorem isDirectory_of_makeDirectory (h : disk.makeDirectory p = .ok made) :
    made.isDirectory p = true := by
  have hkeeps := (deepens_of_makeDirectory h).keepsDirectories
  obtain ⟨hfault, place, hplace, hnone, rfl⟩ := makeDirectory_eq_ok h
  exact isDirectory_iff.mpr
    ⟨hfault, place, hkeeps.followAll hplace, node?_put_self (isFixed_of_node? hnone) _ _⟩

theorem makeDirectory_of_isDirectory (h : disk.isDirectory p = true) :
    disk.makeDirectory p = .error .alreadyExists := by
  obtain ⟨hfault, place, hplace, hnode⟩ := isDirectory_iff.mp h
  cases hsteps : steps p using List.reverseRecOn with
  | nil =>
    rw [hsteps] at hplace
    cases hplace
    simp [makeDirectory, target, hfault, hsteps, follow, hnode, isOrdinary]
  | append_singleton before last =>
    rw [hsteps] at hplace
    obtain ⟨parent, hparent, hlast⟩ := followAll_append.mp hplace
    obtain ⟨there, hthere, hend⟩ := followAll_cons.mp hlast
    cases hend
    simp [makeDirectory, target, hfault, hsteps, hparent, node?_of_follow hthere, hthere, hnode]

theorem makeDirectories_deepens (disk : Disk) (ps : List Path) :
    Deepens disk (disk.makeDirectories ps).1 := by
  fun_induction makeDirectories disk ps with
  | case1 => exact .refl
  | case2 _ _ made hmade => exact deepens_of_makeDirectory hmade
  | case3 _ _ _ made e hmade ih => rwa [hmade] at ih
  | case4 _ _ _ made hmade last hlast ih =>
    rw [hmade] at ih
    exact ih.trans (deepens_of_makeDirectory hlast)
  | case5 _ _ _ made hmade e he ih => rwa [hmade] at ih
  | case6 => exact .refl

theorem isDirectory_makeDirectories {ps : List Path}
    (h : (disk.makeDirectories (p :: ps)).2 = none) :
    (disk.makeDirectories (p :: ps)).1.isDirectory p = true := by
  rw [makeDirectories] at h ⊢
  split at h
  · next hmade => exact isDirectory_of_makeDirectory hmade
  · split at h
    · cases h
    · split at h
      · next hlast => exact isDirectory_of_makeDirectory hlast
      · simpa using h
  · simpa using h

theorem makeParents_deepens (disk : Disk) (p : Path) : Deepens disk (disk.makeParents p).1 := by
  unfold makeParents
  split
  · exact makeDirectories_deepens disk _
  · exact .refl

-- ---------------------------------------------------------------------------
-- Places of files
-- ---------------------------------------------------------------------------

theorem followAll_eq_ok {pieces : List (List Char)} (hdots : ['.', '.'] ∉ pieces)
    (hpieces : ∀ piece ∈ pieces, piece ≠ []) (h : disk.followAll place pieces = .ok next) :
    next = place ++ (pieces.filterMap Component.ofPiece?).filterMap Component.name? := by
  induction pieces generalizing place with
  | nil =>
    cases h
    simp
  | cons piece pieces ih =>
    simp only [List.mem_cons, not_or] at hdots
    rw [List.forall_mem_cons] at hpieces
    obtain ⟨there, hthere, hrest⟩ := followAll_cons.mp h
    rw [ih hdots.2 hpieces.2 hrest]
    unfold follow at hthere
    split at hthere
    · cases hthere
    · cases hthere
    · split at hthere
      · next hdot =>
        cases hthere
        simp [hdot, Component.ofPiece?]
      · next hdot =>
        rw [if_neg (Ne.symm hdots.1)] at hthere
        split at hthere
        · cases hthere
        · cases hthere
          simp [Component.ofPiece?, hpieces.1, hdot, Ne.symm hdots.1, Component.name?, Place.down]

theorem place_eq (p : Path) : p.place =
    start p ++ ((steps p).filterMap Component.ofPiece?).filterMap Component.name? := by
  have hanchor : (Path.anchorComponents (Path.anchor p.chars)).filterMap Component.name? = [] := by
    rcases Path.anchorComponents_cases (Path.anchor p.chars) with h | h | h <;> rw [h] <;> rfl
  rw [Path.place, Path.components_eq, List.filterMap_append, hanchor, segments_eq]
  rfl

theorem eq_place_of_followAll (hdots : .parent ∉ p.components)
    (h : disk.followAll (start p) (steps p) = .ok place) : place = p.place := by
  rw [place_eq]
  refine followAll_eq_ok (fun hmem => hdots ?_) (fun piece hpiece => (mem_steps hpiece).1) h
  rw [Path.components_eq, segments_eq]
  exact List.mem_append_right _ (List.mem_filterMap.mpr ⟨_, hmem, rfl⟩)

theorem openFile_eq_ok {old : Option ByteArray} (h : disk.openFile p = .ok (place, old)) :
    ∃ parent last, disk.target p = .ok (parent, last) ∧ isOrdinary last = true ∧
      endsInSlash p = false ∧ disk.follow parent last = .ok place ∧
      disk.node? place = old.map .file := by
  unfold openFile at h
  split at h
  · cases h
  · next parent last htarget =>
    split at h
    · cases h
    · next hfile =>
      simp only [Bool.or_eq_true, Bool.not_eq_true', not_or, Bool.not_eq_false,
        Bool.not_eq_true] at hfile
      split at h
      · cases h
      · next there hthere =>
        refine ⟨parent, last, htarget, hfile.1, hfile.2, ?_⟩
        split at h
        · next hnode =>
          cases h
          exact ⟨hthere, hnode⟩
        · next hnode =>
          cases h
          exact ⟨hthere, hnode⟩
        · cases h

theorem place_of_openFile {old : Option ByteArray} (hdots : .parent ∉ p.components)
    (h : disk.openFile p = .ok (place, old)) : place = p.place := by
  obtain ⟨parent, last, htarget, hlast, -, hfollow, -⟩ := openFile_eq_ok h
  exact eq_place_of_followAll hdots (followAll_of_target htarget hlast hfollow)

theorem isFixed_of_openFile {old : Option ByteArray} (h : disk.openFile p = .ok (place, old)) :
    place.isFixed = false := by
  obtain ⟨parent, last, htarget, hlast, -, hfollow, -⟩ := openFile_eq_ok h
  obtain ⟨-, ⟨-, -, rfl⟩ | ⟨before, hsteps, -⟩⟩ := target_eq_ok htarget
  · cases hlast
  · have hmem : last ∈ steps p := by simp [hsteps]
    obtain ⟨hne, hslash⟩ := mem_steps hmem
    simp only [isOrdinary, Bool.and_eq_true, bne_iff_ne, ne_eq] at hlast
    have hname : IsName (String.ofList last) := by
      refine ⟨?_, ?_, ?_, by simpa using hslash⟩
      · exact fun h => hne (by simpa using congrArg String.toList h)
      · exact fun h => hlast.1 (by simpa using congrArg String.toList h)
      · exact fun h => hlast.2 (by simpa using congrArg String.toList h)
    obtain rfl : place = parent ++ [String.ofList last] :=
      follow_name hname (by simpa using hfollow)
    exact isFixed_concat hname parent

theorem KeepsDirectories.openFile {content : ByteArray} {old : Option ByteArray}
    (h : KeepsDirectories disk disk') (ho : disk.openFile p = .ok (place, old))
    (hnode : disk'.node? place = some (.file content)) :
    disk'.openFile p = .ok (place, some content) := by
  obtain ⟨parent, last, htarget, hlast, hslash, hfollow, -⟩ := openFile_eq_ok ho
  simp [Disk.openFile, h.target htarget, hlast, hslash, h.follow hfollow, hnode]

-- ---------------------------------------------------------------------------
-- Writing one file
-- ---------------------------------------------------------------------------

section
variable {content : String} {mode : WriteMode}

theorem writeText_of_error {e : WriteError}
    (h : disk.writeText p content mode = (after, some e)) : e.path = p ∧ Deepens disk after := by
  have hdeepens := makeParents_deepens disk p
  unfold writeText at h
  split at h
  · next made _ hmade =>
    cases h
    rw [hmade] at hdeepens
    exact ⟨rfl, hdeepens⟩
  · next made hmade =>
    rw [hmade] at hdeepens
    split at h
    · cases h
      exact ⟨rfl, hdeepens⟩
    · cases h

theorem writeText_of_ok (hdots : .parent ∉ p.components)
    (h : disk.writeText p content mode = (after, none)) :
    ∃ made, disk.makeParents p = (made, none) ∧
      made.openFile p = .ok (p.place, disk.fileAt? p.place) ∧
      after = made.put p.place (.file (written mode (disk.fileAt? p.place) content)) := by
  have hdeepens := makeParents_deepens disk p
  unfold writeText at h
  split at h
  · cases h
  · next made hmade =>
    rw [hmade] at hdeepens
    split at h
    · cases h
    · next place old hopen =>
      obtain rfl := place_of_openFile hdots hopen
      obtain ⟨_, _, -, -, -, -, hnode⟩ := openFile_eq_ok hopen
      obtain rfl : disk.fileAt? p.place = old := by
        rw [← hdeepens.fileAt?, fileAt?_of_node? hnode]
      cases h
      exact ⟨made, hmade, hopen, rfl⟩

theorem fileAt?_writeText (hdots : .parent ∉ p.components)
    (h : disk.writeText p content mode = (after, none)) :
    after.fileAt? p.place = some (written mode (disk.fileAt? p.place) content) := by
  obtain ⟨made, -, hopen, rfl⟩ := writeText_of_ok hdots h
  simp [fileAt?, node?_put_self (isFixed_of_openFile hopen)]

theorem fileAt?_writeText_of_ne (hdots : .parent ∉ p.components)
    (h : disk.writeText p content mode = (after, none)) (hne : place ≠ p.place) :
    after.fileAt? place = disk.fileAt? place := by
  have hdeepens := makeParents_deepens disk p
  obtain ⟨made, hmade, -, rfl⟩ := writeText_of_ok hdots h
  rw [hmade] at hdeepens
  rw [← hdeepens.fileAt? place]
  simp [fileAt?, node?_put_of_ne hne]

theorem keepsDirectories_of_writeText (hdots : .parent ∉ p.components)
    (h : disk.writeText p content mode = (after, none)) :
    KeepsDirectories (disk.makeParents p).1 after := by
  obtain ⟨made, hmade, hopen, rfl⟩ := writeText_of_ok hdots h
  obtain ⟨_, _, -, -, -, -, hnode⟩ := openFile_eq_ok hopen
  rw [hmade]
  intro place hplace
  have hne : place ≠ p.place := by
    rintro rfl
    rw [hplace] at hnode
    cases hold : disk.fileAt? p.place <;> simp [hold] at hnode
  rwa [node?_put_of_ne hne]

end

-- ---------------------------------------------------------------------------
-- Writing a file over itself
-- ---------------------------------------------------------------------------

/-- Writing the content to the file over again changes nothing. -/
structure Settled (disk : Disk) (p : Path) (content : ByteArray) : Prop where
  parents : ∀ parent, p.parent? = some parent → parent.ancestors ≠ [] →
    disk.isDirectory parent = true
  opens : disk.openFile p = .ok (p.place, some content)
  only : ∀ found, (p.place, found) ∈ disk.entries → found = .file content

theorem ancestors_cases (p : Path) : p.ancestors = [] ∨ ∃ parents, p.ancestors = p :: parents := by
  unfold Path.ancestors Path.ancestorsUpTo
  split
  · exact .inl rfl
  · split
    · exact .inr ⟨_, rfl⟩
    · exact .inr ⟨[], rfl⟩

section
variable {content : String}

theorem Settled.makeParents {content : ByteArray} (h : Settled disk p content) :
    disk.makeParents p = (disk, none) := by
  unfold Disk.makeParents
  split
  · next parent hparent =>
    rcases ancestors_cases parent with hnone | ⟨parents, hparents⟩
    · rw [hnone]
      rfl
    · have hdirectory := h.parents parent hparent (by simp [hparents])
      simp [hparents, makeDirectories, makeDirectory_of_isDirectory hdirectory, hdirectory]
  · rfl

theorem Settled.writeText (h : Settled disk p (content ++ "\n").toUTF8) :
    disk.writeText p content .overwrite = (disk, none) := by
  obtain ⟨_, _, -, -, -, -, hnode⟩ := openFile_eq_ok h.opens
  have hput := put_eq_self (isFixed_of_openFile h.opens) hnode h.only
  simp only [Disk.writeText, h.makeParents, h.opens, written, hput]

theorem Settled.read {content : ByteArray} (h : Settled disk p content) :
    disk.read p = .ok content := by
  obtain ⟨parent, last, htarget, hlast, hslash, hfollow, hnode⟩ := openFile_eq_ok h.opens
  have hfollowAll := followAll_of_target htarget hlast hfollow
  simp only [Disk.read, lookup, (target_eq_ok htarget).1, hfollowAll, hnode, Option.map_some, hslash,
    Bool.false_eq_true, if_false]

theorem Settled.deepens {content : ByteArray} (h : Settled disk p content)
    (hd : Deepens disk made) : Settled made p content := by
  obtain ⟨_, _, -, -, -, -, hnode⟩ := openFile_eq_ok h.opens
  have hkeeps := hd.keepsDirectories
  exact ⟨fun parent hparent hne => hkeeps.isDirectory (h.parents parent hparent hne),
    hkeeps.openFile h.opens (hd.node? hnode),
    fun found hfound => h.only found (hd.mem_entries hnode hfound)⟩

theorem settled_of_writeText {mode : WriteMode} (hdots : .parent ∉ p.components)
    (h : disk.writeText p content mode = (after, none)) :
    Settled after p (written mode (disk.fileAt? p.place) content) := by
  have hkeeps := keepsDirectories_of_writeText hdots h
  obtain ⟨made, hmade, hopen, rfl⟩ := writeText_of_ok hdots h
  rw [hmade] at hkeeps
  have hnode := node?_put_self (isFixed_of_openFile hopen) made
    (.file (written mode (disk.fileAt? p.place) content))
  refine ⟨fun parent hparent hne => hkeeps.isDirectory ?_, hkeeps.openFile hopen hnode,
    fun found hfound => eq_of_mem_entries_put hfound⟩
  obtain ⟨parents, hparents⟩ := (ancestors_cases parent).resolve_left hne
  have hmade' : disk.makeDirectories (parent :: parents) = (made, none) := by
    simpa [Disk.makeParents, hparent, hparents] using hmade
  have hdirectory := isDirectory_makeDirectories (congrArg Prod.snd hmade')
  rwa [hmade'] at hdirectory

theorem Settled.writeText_of_ne {mode : WriteMode} {settled : ByteArray}
    (h : Settled disk q settled) (hdots : .parent ∉ p.components) (hne : q.place ≠ p.place)
    (hw : disk.writeText p content mode = (after, none)) : Settled after q settled := by
  have hmade := h.deepens (makeParents_deepens disk p)
  have hkeeps := keepsDirectories_of_writeText hdots hw
  obtain ⟨made, hparents, -, rfl⟩ := writeText_of_ok hdots hw
  rw [hparents] at hmade hkeeps
  obtain ⟨_, _, -, -, -, -, hnode⟩ := openFile_eq_ok hmade.opens
  rw [← node?_put_of_ne hne] at hnode
  exact ⟨fun parent hparent hne => hkeeps.isDirectory (hmade.parents parent hparent hne),
    hkeeps.openFile hmade.opens hnode,
    fun found hfound => hmade.only found (mem_entries_put_of_ne hne hfound)⟩

end

end Disk

-- ---------------------------------------------------------------------------
-- Writing groups
-- ---------------------------------------------------------------------------

def FileGroup.place? (group : FileGroup) : Option Place := group.path.map Path.place

/-- Every group goes to a file of its own. -/
structure Separate (groups : List FileGroup) : Prop where
  path : ∀ group ∈ groups, ∃ path, group.path = some path ∧ .parent ∉ path.components
  places : groups.Pairwise fun group other => group.place? ≠ other.place?

theorem Separate.concat_of_cons {group : FileGroup} {done rest : List FileGroup}
    (hs : Separate (done ++ group :: rest)) : Separate (done ++ [group]) where
  path other hother := hs.path other (by simp at hother ⊢; tauto)
  places := hs.places.sublist (by simp)

namespace Bundle

/-- The groups are in their files: alone, or after what a file held before if that is kept. No other
file has changed. -/
structure Written (b : Bundle) (mode : WriteMode) (disk after : Disk) (groups : List FileGroup) :
    Prop where
  anew : ∀ group ∈ groups, ∀ path, group.path = some path →
    mode = .overwrite ∨ disk.fileAt? path.place = none →
    after.read path = .ok (b.renderGroup group ++ "\n").toUTF8
  appended : ∀ group ∈ groups, ∀ path, group.path = some path →
    ∀ old, mode = .append → disk.fileAt? path.place = some old →
    after.read path = .ok (old ++ ("\n" ++ b.renderGroup group ++ "\n").toUTF8)
  others : ∀ place, (∀ group ∈ groups, group.place? ≠ some place) →
    after.fileAt? place = disk.fileAt? place

/-- The groups are written, in a way that later writes to other files do not disturb. -/
structure SettledAll (b : Bundle) (mode : WriteMode) (disk after : Disk)
    (groups : List FileGroup) : Prop where
  settled : ∀ group ∈ groups, ∀ path, group.path = some path →
    after.Settled path (TypeWeave.written mode (disk.fileAt? path.place) (b.renderGroup group))
  others : ∀ place, (∀ group ∈ groups, group.place? ≠ some place) →
    after.fileAt? place = disk.fileAt? place

section
variable {b : Bundle} {mode : WriteMode} {group : FileGroup} {groups rest : List FileGroup}
  {disk after middle : Disk} {path : Path} {paths : List Path}

theorem SettledAll.written (h : b.SettledAll mode disk after groups) :
    b.Written mode disk after groups where
  anew := by
    rintro group hgroup path hpath (rfl | hnone)
    · exact (h.settled group hgroup path hpath).read
    · have hread := (h.settled group hgroup path hpath).read
      rw [hnone] at hread
      cases mode <;> exact hread
  appended := by
    rintro group hgroup path hpath old rfl hold
    have hread := (h.settled group hgroup path hpath).read
    rwa [hold] at hread
  others := h.others

theorem SettledAll.deepens (h : b.SettledAll mode disk middle groups)
    (hd : Disk.Deepens middle after) : b.SettledAll mode disk after groups where
  settled group hgroup path hpath := (h.settled group hgroup path hpath).deepens hd
  others place hplace := (hd.fileAt? place).trans (h.others place hplace)

/-- One more group, which goes to a file of its own. -/
theorem SettledAll.concat (hs : Separate (groups ++ [group])) (hpath : group.path = some path)
    (h : b.SettledAll mode disk middle groups)
    (hw : middle.writeText path (b.renderGroup group) mode = (after, none)) :
    b.SettledAll mode disk after (groups ++ [group]) := by
  obtain ⟨_, hpath', hdots⟩ := hs.path group (by simp)
  cases hpath.symm.trans hpath'
  have hplace : group.place? = some path.place := by simp [FileGroup.place?, hpath]
  have hne : ∀ other ∈ groups, other.place? ≠ some path.place := by
    intro other hother
    rw [← hplace]
    exact (List.pairwise_append.mp hs.places).2.2 other hother group List.mem_cons_self
  refine ⟨fun other hother q hq => ?_, fun place hplaces => ?_⟩
  · rcases List.mem_append.mp hother with hother | hother
    · refine (h.settled other hother q hq).writeText_of_ne hdots (fun heq => ?_) hw
      exact hne other hother (by simp [FileGroup.place?, hq, heq])
    · cases List.mem_singleton.mp hother
      cases hpath.symm.trans hq
      rw [← h.others path.place hne]
      exact Disk.settled_of_writeText hdots hw
  · have hlast : place ≠ path.place := by
      rintro rfl
      exact hplaces group (by simp) hplace
    rw [Disk.fileAt?_writeText_of_ne hdots hw hlast]
    exact h.others place fun other hother => hplaces other (List.mem_append_left _ hother)

/-- By induction on the groups that are left, with those that are `done` settled. -/
theorem writeGroups_of_ok {done : List FileGroup} (hs : Separate (done ++ groups))
    (h : b.SettledAll mode disk middle done)
    (hw : b.writeGroups mode groups middle = (after, .ok paths)) :
    groups.map (·.path) = paths.map some ∧ b.SettledAll mode disk after (done ++ groups) := by
  induction groups generalizing done middle paths with
  | nil =>
    cases hw
    exact ⟨rfl, by simpa using h⟩
  | cons group rest ih =>
    obtain ⟨path, hpath, -⟩ := hs.path group (by simp)
    simp only [writeGroups, hpath] at hw
    split at hw
    · cases hw
    · next next hnext =>
      split at hw
      · cases hw
      · next hrest =>
        cases hw
        have hdone := h.concat hs.concat_of_cons hpath hnext
        rw [List.append_cons] at hs ⊢
        obtain ⟨hpaths, hall⟩ := ih hs hdone hrest
        exact ⟨by simp [hpath, hpaths], hall⟩

theorem writeGroups_of_error {done : List FileGroup} {e : WriteError}
    (hs : Separate (done ++ groups)) (h : b.SettledAll mode disk middle done)
    (hw : b.writeGroups mode groups middle = (after, .error e)) :
    ∃ more failed rest, groups = more ++ failed :: rest ∧ failed.path = some e.path ∧
      b.SettledAll mode disk after (done ++ more) := by
  induction groups generalizing done middle with
  | nil => cases hw
  | cons group rest ih =>
    obtain ⟨path, hpath, -⟩ := hs.path group (by simp)
    simp only [writeGroups, hpath] at hw
    split at hw
    · next hnext =>
      cases hw
      obtain ⟨rfl, hdeepens⟩ := Disk.writeText_of_error hnext
      exact ⟨[], group, rest, rfl, hpath, by simpa using h.deepens hdeepens⟩
    · next next hnext =>
      split at hw
      · next hrest =>
        cases hw
        have hdone := h.concat hs.concat_of_cons hpath hnext
        rw [List.append_cons] at hs
        obtain ⟨more, failed, later, rfl, hfailed, hall⟩ := ih hs hdone hrest
        exact ⟨group :: more, failed, later, rfl, hfailed, by simpa using hall⟩
      · cases hw

theorem writeGroups_of_settled
    (h : ∀ group ∈ groups, ∀ path, group.path = some path →
      disk.Settled path (b.renderGroup group ++ "\n").toUTF8)
    (hpaths : groups.map (·.path) = paths.map some) :
    b.writeGroups .overwrite groups disk = (disk, .ok paths) := by
  induction groups generalizing paths with
  | nil =>
    obtain rfl : paths = [] := List.map_eq_nil_iff.mp hpaths.symm
    rfl
  | cons group rest ih =>
    cases paths with
    | nil => cases hpaths
    | cons path paths =>
      simp only [List.map_cons, List.cons.injEq] at hpaths
      rw [List.forall_mem_cons] at h
      simp only [writeGroups, hpaths.1, (h.1 path hpaths.1).writeText, ih h.2 hpaths.2]

end

end Bundle

-- ---------------------------------------------------------------------------
-- Files of one layout
-- ---------------------------------------------------------------------------

namespace Layout

variable {layout : Layout} {location location' : SourceLocation}

theorem start_outputPath (layout : Layout) (location : SourceLocation) :
    Disk.start (layout.outputPath location) = Disk.start layout.destination := by
  have hrelative {cs : List Component} (h : ∀ c ∈ cs, c.Ordinary) :
      (Path.ofComponents cs).isAbsolute = false := by
    rw [← Bool.not_eq_true, Path.isAbsolute_iff, Path.anchor_ofComponents h]
    simp
  have hname : ∀ c ∈ [Component.normal (fileName location)], c.Ordinary := by
    simpa [Component.Ordinary] using isName_fileName location
  have hpath : layout.outputPath location =
      (layout.destination.join (.ofComponents (layout.subdirectory location))).join
        (.ofComponents [.normal (fileName location)]) := rfl
  rw [hpath, Disk.start_join (hrelative hname),
    Disk.start_join (hrelative fun _ => ordinary_of_mem_subdirectory)]

theorem map_normal_names {cs : List Component} (h : ∀ c ∈ cs, c.Ordinary) (hdots : .parent ∉ cs) :
    (cs.filterMap Component.name?).map .normal = cs := by
  induction cs with
  | nil => rfl
  | cons c cs ih =>
    rw [List.forall_mem_cons] at h
    simp only [List.mem_cons, not_or] at hdots
    cases c with
    | normal name => simp [Component.name?, ih h.2 hdots.2]
    | parent => exact absurd rfl hdots.1
    | _ => exact absurd h.1 id

/-- Files of one layout that are at one place have one path. -/
theorem components_eq_of_place (hdots : .parent ∉ (layout.outputPath location).components)
    (hdots' : .parent ∉ (layout.outputPath location').components)
    (h : (layout.outputPath location).place = (layout.outputPath location').place) :
    (layout.outputPath location).components = (layout.outputPath location').components := by
  have hordinary (l : SourceLocation) :
      ∀ c ∈ layout.subdirectory l ++ [.normal (fileName l)], c.Ordinary := by
    intro c hc
    rcases List.mem_append.mp hc with hc | hc
    · exact ordinary_of_mem_subdirectory hc
    · cases List.mem_singleton.mp hc
      exact isName_fileName l
  rw [Path.place, Path.place, start_outputPath, start_outputPath] at h
  rw [components_outputPath, List.append_assoc] at h hdots hdots' ⊢
  rw [components_outputPath, List.append_assoc] at h ⊢
  simp only [List.mem_append, not_or] at hdots hdots'
  simp only [List.filterMap_append (l := layout.destination.components), List.append_cancel_left_eq] at h
  rw [← map_normal_names (hordinary location) (by simpa using hdots.2),
    ← map_normal_names (hordinary location') (by simpa using hdots'.2), h]

end Layout

namespace Bundle

theorem separate_groups {b : Bundle} {layout : Layout}
    (h : ∀ t ∈ b.registry.outputs, ∃ location, t.output = some (layout.outputPath location))
    (hdots : ∀ t ∈ b.registry.outputs, ∀ path, t.output = some path → .parent ∉ path.components) :
    Separate b.groups := by
  have hpath : ∀ group ∈ b.groups, ∃ location, group.path = some (layout.outputPath location) ∧
      .parent ∉ (layout.outputPath location).components := by
    intro group hg
    obtain ⟨t, rest, hmembers, hpath⟩ := head_of_mem_groups hg
    have ht : t ∈ b.registry.outputs :=
      ((mem_members_iff hg).mp (hmembers ▸ List.mem_cons_self)).1
    obtain ⟨location, hlocation⟩ := h t ht
    exact ⟨location, hpath.trans hlocation, hdots t ht _ hlocation⟩
  refine ⟨fun group hg => ?_, ?_⟩
  · obtain ⟨location, hlocation, hdots⟩ := hpath group hg
    exact ⟨_, hlocation, hdots⟩
  · have hdistinct : b.groups.Pairwise fun g g' => sameFile g.path g'.path = false :=
      List.pairwise_map.mpr pairwise_distinctBy
    refine hdistinct.imp_of_mem fun {g g'} hg hg' hne heq => ?_
    obtain ⟨location, hlocation, hdots⟩ := hpath g hg
    obtain ⟨location', hlocation', hdots'⟩ := hpath g' hg'
    rw [FileGroup.place?, FileGroup.place?, hlocation, hlocation'] at heq
    have hcomponents := Layout.components_eq_of_place hdots hdots' (by simpa using heq)
    rw [hlocation, hlocation'] at hne
    simp [sameFile, hcomponents] at hne

end Bundle

namespace Closure

theorem Walk.output_of_mem_outputs {m : Model} {layout : Layout} {steps : List Step}
    {r : Registry} {fault : Option Fault} {t : TargetDecl}
    (h : Walk m (some layout) steps .empty r fault) (ht : t ∈ r.outputs) :
    ∃ location, t.output = some (layout.outputPath location) := by
  obtain ⟨name, -, hname⟩ := List.mem_filterMap.mp ht
  obtain ⟨_, d, _, _, _, hslot | ⟨hslot, -⟩⟩ :=
    h.new_slot (Registry.slot?_empty name) (Registry.get?_eq_some_iff.mp hname)
  · cases hslot
  · exact ⟨d.location, d.output_of_target? (Slot.done.inj hslot).symm⟩

/-- Writing a registry that was filled with one layout. If it succeeds every group is in its file,
and no other file has changed; what was written over could be written again to the same effect. If
it fails that is so for the groups before the first that cannot be written. -/
theorem write_effect (m : Model) (layout : Layout) (seeds : List Nat) (style : Style)
    (importRoot : Option Path) (mode : WriteMode) (disk : Disk)
    (hdots : ∀ t ∈ (extendAll m (some layout) seeds .empty).registry.outputs,
      ∀ path, t.output = some path → .parent ∉ path.components) :
    let b : Bundle := ⟨(extendAll m (some layout) seeds .empty).registry, style, importRoot⟩
    (∀ after paths, b.write mode disk = (after, .ok paths) →
      paths.map some = b.groups.map (·.path) ∧ b.Written mode disk after b.groups ∧
        (mode = .overwrite → b.write .overwrite after = (after, .ok paths))) ∧
    ∀ after e, b.write mode disk = (after, .error e) →
      ∃ done failed rest, b.groups = done ++ failed :: rest ∧ failed.path = some e.path ∧
        b.Written mode disk after done ∧
        ∀ group ∈ failed :: rest, ∀ path, group.path = some path →
          after.fileAt? path.place = disk.fileAt? path.place := by
  intro b
  have hs : Separate b.groups :=
    Bundle.separate_groups (fun t => (extendAll_walk m _ seeds .empty).output_of_mem_outputs) hdots
  have hnone : b.SettledAll mode disk disk [] := ⟨by simp, fun _ _ => rfl⟩
  refine ⟨fun after paths hw => ?_, fun after e hw => ?_⟩
  · obtain ⟨hpaths, hall⟩ := Bundle.writeGroups_of_ok hs hnone hw
    refine ⟨hpaths.symm, hall.written, ?_⟩
    rintro rfl
    exact Bundle.writeGroups_of_settled hall.settled hpaths
  · obtain ⟨done, failed, rest, hgroups, hfailed, hall⟩ := Bundle.writeGroups_of_error hs hnone hw
    refine ⟨done, failed, rest, hgroups, hfailed, hall.written, fun group hgroup path hpath => ?_⟩
    refine hall.others path.place fun other hother heq => ?_
    have hplaces := hs.places
    rw [hgroups] at hplaces
    refine (List.pairwise_append.mp hplaces).2.2 other hother group hgroup (heq.trans ?_)
    simp [FileGroup.place?, hpath]

def keptDisk : Disk where
  entries := [(["out"], .directory), (["out", "tree"], .directory),
    (["out", "tree", "kind.ts"], .file "// kinds\n".toUTF8)]

def blockedDisk : Disk where
  entries := keptDisk.entries ++ [(["out", "tree", "node.ts"], .directory)]

theorem write_effect_sample :
    let r := (extendAll Model.sample (some ⟨⟨"out"⟩, none⟩) [0] .empty).registry
    let b : Bundle := ⟨r, {}, some ⟨"out"⟩⟩
    (∀ t ∈ r.outputs, ∀ path, t.output = some path → .parent ∉ path.components) ∧
    (∃ after, b.write .append keptDisk =
        (after, .ok [⟨"out/tree/base.ts"⟩, ⟨"out/tree/kind.ts"⟩, ⟨"out/tree/node.ts"⟩]) ∧
      b.Written .append keptDisk after b.groups) ∧
    ∃ after done rest, b.groups = done ++ rest ∧
      b.write .append blockedDisk =
        (after, .error ⟨⟨"out/tree/node.ts"⟩, .isADirectory⟩) ∧
      b.Written .append blockedDisk after done := by
  intro r b
  have hdots : ∀ t ∈ r.outputs, ∀ path, t.output = some path → .parent ∉ path.components := by
    decide +kernel
  have hkept : (b.write .append keptDisk).2 =
      .ok [⟨"out/tree/base.ts"⟩, ⟨"out/tree/kind.ts"⟩, ⟨"out/tree/node.ts"⟩] := by
    decide +kernel
  have hblocked : (b.write .append blockedDisk).2 =
      .error ⟨⟨"out/tree/node.ts"⟩, .isADirectory⟩ := by
    decide +kernel
  have heffect (disk : Disk) := write_effect Model.sample ⟨⟨"out"⟩, none⟩ [0] {} (some ⟨"out"⟩)
    .append disk hdots
  have hpair {α β : Type} {x : α × β} {y : β} (h : x.2 = y) : x = (x.1, y) := by rw [← h]
  refine ⟨hdots, ⟨_, hpair hkept, ((heffect keptDisk).1 _ _ (hpair hkept)).2.1⟩, ?_⟩
  obtain ⟨done, failed, rest, hgroups, -, hdone, -⟩ := (heffect blockedDisk).2 _ _ (hpair hblocked)
  exact ⟨_, done, failed :: rest, hgroups, hpair hblocked, hdone⟩

end Closure

end TypeWeave
