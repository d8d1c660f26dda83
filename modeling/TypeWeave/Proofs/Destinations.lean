import TypeWeave.Proofs.FileStems
import TypeWeave.Proofs.Writing

/-!
# Below the destination

Where a layout puts the output for a source file: below the destination, in the directory it repeats
of the source directory (`Layout.Mirrors`), under a single name. A source directory that is written
without two dots in a row, absolute or not, leads nowhere else, wherever the marker cuts it
(`Layout.outputPath_below`).
-/

namespace TypeWeave

theorem Component.eq_dots_of_ofPiece? {piece : List Char} (h : ofPiece? piece = some .parent) :
    piece = ['.', '.'] := by
  unfold ofPiece? at h
  split at h
  · cases h
  · split at h
    · assumption
    · cases h

theorem Path.parent_notMem_components {p : Path} (h : ¬['.', '.'] <:+: p.chars) :
    .parent ∉ p.components := by
  intro hmem
  rw [components_eq, List.mem_append] at hmem
  rcases hmem with hmem | hmem
  · exact absurd (isRelative_of_mem_anchorComponents hmem) (by decide)
  · obtain ⟨piece, hpiece, hparent⟩ := List.mem_filterMap.mp hmem
    obtain rfl := Component.eq_dots_of_ofPiece? hparent
    exact h (Text.isInfix_of_mem_pieces hpiece)

namespace Layout

variable {layout : Layout} {location : SourceLocation} {cs : List Component}

-- ---------------------------------------------------------------------------
-- The directory that is repeated
-- ---------------------------------------------------------------------------

def Unmarked (layout : Layout) (directory : Path) : Prop :=
  ∀ marker, layout.marker = some marker → marker ≠ "" → ¬marker.toList <:+: directory.chars

/-- What a layout repeats of a source directory: what follows the first occurrence of the marker,
else what the directory has below its root. -/
inductive Mirrors (layout : Layout) (location : SourceLocation) : List Component → Prop
  | behindMarker {marker : String} {before rest : List Char} :
      layout.marker = some marker → marker ≠ "" →
      location.directory.chars = before ++ marker.toList ++ rest →
      (∀ n < before.length, ¬marker.toList <+: location.directory.chars.drop n) →
      Mirrors layout location (Path.ofChars rest).components
  | belowRoot {cs : List Component} : layout.Unmarked location.directory →
      location.directory.components = location.root.components ++ cs → Mirrors layout location cs
  | elsewhere : layout.Unmarked location.directory →
      ¬location.root.components <+: location.directory.components → Mirrors layout location []

theorem afterMarker?_eq_none_iff {directory : Path} :
    layout.afterMarker? directory = none ↔ layout.Unmarked directory := by
  unfold afterMarker? Unmarked
  cases layout.marker with
  | none => simp
  | some marker =>
    by_cases hempty : marker = ""
    · simp [hempty]
    · simp [hempty, ← Text.isSome_after?_iff]

theorem afterMarker?_eq_some {marker : String} {directory : Path} {before rest : List Char}
    (hmarker : layout.marker = some marker) (hne : marker ≠ "")
    (hsplit : directory.chars = before ++ marker.toList ++ rest)
    (hfirst : ∀ n < before.length, ¬marker.toList <+: directory.chars.drop n) :
    layout.afterMarker? directory = some (Path.ofChars rest).components := by
  have hafter : Text.after? marker.toList directory.chars = some rest :=
    Text.after?_eq_some_iff.mpr ⟨before, hsplit, hfirst⟩
  simp [afterMarker?, hmarker, hne, hafter]

theorem mirrors_of_afterMarker? (h : layout.afterMarker? location.directory = some cs)
    (ds : List Component) : layout.Mirrors location ds ↔ ds = cs := by
  have hmarked : ¬layout.Unmarked location.directory := by
    rw [← afterMarker?_eq_none_iff, h]
    simp
  constructor
  · rintro (⟨hmarker, hne, hsplit, hfirst⟩ | ⟨hnone, -⟩ | ⟨hnone, -⟩)
    · exact Option.some.inj ((afterMarker?_eq_some hmarker hne hsplit hfirst).symm.trans h)
    · exact absurd hnone hmarked
    · exact absurd hnone hmarked
  · rintro rfl
    unfold afterMarker? at h
    split at h
    · cases h
    · next marker hmarker =>
      split at h
      · cases h
      · next hne =>
        obtain ⟨rest, hrest, rfl⟩ := Option.map_eq_some_iff.mp h
        obtain ⟨before, hsplit, hfirst⟩ := Text.after?_eq_some_iff.mp hrest
        exact .behindMarker hmarker hne hsplit hfirst

theorem mirrors_of_unmarked (h : layout.Unmarked location.directory) (ds : List Component) :
    layout.Mirrors location ds ↔
      ds = below location.root.components location.directory.components := by
  unfold below
  constructor
  · rintro (⟨hmarker, hne, hsplit, -⟩ | ⟨-, hbelow⟩ | ⟨-, hnot⟩)
    · exact absurd ⟨_, _, hsplit.symm⟩ (h _ hmarker hne)
    · simp [hbelow]
    · rw [if_neg (by simpa using hnot)]
  · rintro rfl
    split
    · next hpre =>
      obtain ⟨cs, hcs⟩ := List.isPrefixOf_iff_prefix.mp hpre
      rw [← hcs, List.drop_left]
      exact .belowRoot h hcs.symm
    · next hpre => exact .elsewhere h fun hp => hpre (List.isPrefixOf_iff_prefix.mpr hp)

/-- A layout repeats one directory, as far as its components can stand below another one. -/
theorem exists_mirrors (layout : Layout) (location : SourceLocation) :
    ∃ cs, (∀ ds, layout.Mirrors location ds ↔ ds = cs) ∧
      layout.subdirectory location = relativeComponents cs := by
  cases h : layout.afterMarker? location.directory with
  | some cs => exact ⟨cs, mirrors_of_afterMarker? h, by simp [subdirectory, h]⟩
  | none =>
    refine ⟨_, mirrors_of_unmarked (afterMarker?_eq_none_iff.mp h), ?_⟩
    simp [subdirectory, h]

-- ---------------------------------------------------------------------------
-- Directories without two dots
-- ---------------------------------------------------------------------------

theorem Mirrors.parent_notMem (hdots : ¬['.', '.'] <:+: location.directory.chars)
    (h : layout.Mirrors location cs) : .parent ∉ cs := by
  have hdirectory := Path.parent_notMem_components hdots
  cases h with
  | behindMarker _ _ hsplit _ =>
    apply Path.parent_notMem_components
    rw [Path.chars_ofChars]
    intro hrest
    rw [hsplit] at hdots
    exact hdots (hrest.trans (List.suffix_append _ _).isInfix)
  | belowRoot _ hbelow =>
    intro hmem
    rw [hbelow] at hdirectory
    exact hdirectory (List.mem_append_right _ hmem)
  | elsewhere => simp

theorem relativeComponents_eq (h : .parent ∉ cs) :
    relativeComponents cs = (cs.filterMap Component.name?).map .normal := by
  induction cs with
  | nil => rfl
  | cons c cs ih =>
    simp only [List.mem_cons, not_or] at h
    have ih := ih h.2
    cases c with
    | parent => exact absurd rfl h.1
    | normal name => simpa [relativeComponents, Component.isRelative, Component.name?] using ih
    | root | current => exact ih

/-- The output for a source file is below the destination: its path leads to the destination, down
the names of the repeated directory and to the file in kebab case. It is absolute only if the
destination is, and climbs only where the destination does. -/
theorem outputPath_below (layout : Layout) {location : SourceLocation}
    (hdots : ¬['.', '.'] <:+: location.directory.chars) :
    ∃ cs, (∀ ds, layout.Mirrors location ds ↔ ds = cs) ∧
      (layout.outputPath location).components = layout.destination.components ++
        (cs.filterMap Component.name?).map .normal ++
        [.normal (Text.kebab location.stem ++ ".ts")] ∧
      (layout.outputPath location).components.count .parent =
        layout.destination.components.count .parent ∧
      (layout.outputPath location).isAbsolute = layout.destination.isAbsolute := by
  obtain ⟨cs, hmirrors, hsubdirectory⟩ := exists_mirrors layout location
  have hparent : .parent ∉ cs := ((hmirrors cs).mpr rfl).parent_notMem hdots
  have hname : fileName location = Text.kebab location.stem ++ ".ts" := by
    rw [fileName, String.append_assoc]
    rfl
  have hcomponents : (layout.outputPath location).components = layout.destination.components ++
      (cs.filterMap Component.name?).map .normal ++
      [.normal (Text.kebab location.stem ++ ".ts")] := by
    rw [components_outputPath, hsubdirectory, relativeComponents_eq hparent, hname]
  have hbelow : Component.parent ∉ (cs.filterMap Component.name?).map .normal ++
      [.normal (Text.kebab location.stem ++ ".ts")] := by
    simp
  have hstart := start_outputPath layout location
  refine ⟨cs, hmirrors, hcomponents, ?_, ?_⟩
  · rw [hcomponents, List.append_assoc, List.count_append, List.count_eq_zero_of_not_mem hbelow,
      Nat.add_zero]
  · unfold Disk.start at hstart
    cases habs : (layout.outputPath location).isAbsolute <;>
      cases hdest : layout.destination.isAbsolute <;> simp_all [Place.workingDirectory]

/-- The marker occurs twice, and what follows it first starts at the root. -/
def sampleLocation : SourceLocation :=
  ⟨⟨"/repo"⟩, ⟨"/repo/src/main/java//com/main/java/OrderLine.java"⟩⟩

theorem outputPath_below_sample :
    ¬['.', '.'] <:+: sampleLocation.directory.chars ∧
    (∀ ds, (⟨⟨"../web"⟩, some "main/java"⟩ : Layout).Mirrors sampleLocation ds ↔
      ds = [.root, .normal "com", .normal "main", .normal "java"]) ∧
    ((⟨⟨"../web"⟩, some "main/java"⟩ : Layout).outputPath sampleLocation).components =
      [.parent, .normal "web", .normal "com", .normal "main", .normal "java",
        .normal "order-line.ts"] := by
  have hdots : ¬['.', '.'] <:+: sampleLocation.directory.chars := by decide +kernel
  obtain ⟨cs, hmirrors, hcomponents, -⟩ := outputPath_below ⟨⟨"../web"⟩, some "main/java"⟩ hdots
  have hrest : (Path.ofChars "//com/main/java".toList).components =
      [.root, .normal "com", .normal "main", .normal "java"] := by decide +kernel
  have hmirrored : (⟨⟨"../web"⟩, some "main/java"⟩ : Layout).Mirrors sampleLocation
      [.root, .normal "com", .normal "main", .normal "java"] := by
    have hsplit : sampleLocation.directory.chars =
        "/repo/src/".toList ++ "main/java".toList ++ "//com/main/java".toList := by decide +kernel
    rw [← hrest]
    exact .behindMarker rfl (by decide) hsplit (by decide +kernel)
  obtain rfl := (hmirrors _).mp hmirrored
  exact ⟨hdots, hmirrors, hcomponents.trans (by decide +kernel)⟩

end Layout

end TypeWeave
