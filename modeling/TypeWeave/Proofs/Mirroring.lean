import TypeWeave.Layout
import TypeWeave.Proofs.Scanning
import TypeWeave.Proofs.SourceFiles

/-!
# Mirrored directories

Without a marker, the output for a source file goes to the directory under the destination that the
file has below its root. A layout finds that directory by comparing components
(`Layout.below_filter`), and a scan leaves out the `.` in front of a root. So directories are
mirrored for all roots that do not start with `.`, in whatever way they are written, and are lost
for those that do (`Java.scanModel_mirrored`, `Java.sampleDisk_directory_lost`).
-/

namespace TypeWeave

namespace Text

variable {before cs : List Char} {c : Char}

theorem eq_toNat_of_ofNat {n : Nat} (hc : 0 < c.toNat) (h : Char.ofNat n = c) : n = c.toNat := by
  subst h
  by_cases hv : n.isValidChar
  · rw [Char.ofNat, dif_pos hv]
    rfl
  · rw [Char.ofNat, dif_neg hv] at hc
    exact absurd hc (Nat.lt_irrefl 0)

theorem eq_slash_of_toLower (h : c.toLower = '/') : c = '/' := by
  unfold Char.toLower at h
  split at h
  · next hupper =>
    have hlow : 65 ≤ c.val.toNat := hupper.1
    have hhigh : c.val.toNat ≤ 90 := hupper.2
    have hsum : (c.val + ('a'.val - 'A'.val)).toNat = 47 := congrArg (·.val.toNat) h
    have hshift : ('a'.val - 'A'.val).toNat = 32 := rfl
    rw [UInt32.toNat_add, hshift] at hsum
    omega
  · exact h

theorem eq_slash_of_mem_lowerWide (h : '/' ∈ lowerWide c) : c = '/' := by
  have htargets : ∀ r ∈ lowercaseRanges, 47 < r.target := by decide +kernel
  unfold lowerWide at h
  split at h
  · simp at h
  · split at h
    · next n hn =>
      obtain ⟨r, hr, hlower⟩ := List.exists_of_findSome?_eq_some hn
      have hsum := eq_toNat_of_ofNat (by decide) (List.mem_singleton.mp h).symm
      have hslash : '/'.toNat = 47 := rfl
      have htarget := htargets r hr
      unfold CaseRange.lower? at hlower
      split at hlower
      · cases hlower
        omega
      · cases hlower
    · exact (List.mem_singleton.mp h).symm

theorem slash_notMem_lowerFrom (h : '/' ∉ cs) : '/' ∉ lowerFrom before cs := by
  induction cs generalizing before with
  | nil => simp [lowerFrom]
  | cons c cs ih =>
    simp only [List.mem_cons, not_or] at h
    rw [lowerFrom, List.mem_append, not_or]
    refine ⟨fun hmem => h.1 ?_, ih h.2⟩
    unfold lowerAt at hmem
    split at hmem
    · exact (eq_slash_of_toLower (List.mem_singleton.mp hmem).symm).symm
    · split at hmem
      · split at hmem <;> simp at hmem
      · exact (eq_slash_of_mem_lowerWide hmem).symm

theorem slash_notMem_hyphenate {inRun : Bool} (h : '/' ∉ cs) : '/' ∉ hyphenate inRun cs := by
  fun_induction hyphenate inRun cs with
  | case1 => exact h
  | case2 inRun c cs _ ih => simp_all
  | case3 inRun c cs _ ih => simp_all

theorem mem_of_mem_dropHyphen (h : c ∈ dropHyphen cs) : c ∈ cs := by
  unfold dropHyphen at h
  split at h
  · exact List.mem_cons_of_mem _ h
  · exact h

theorem slash_notMem_kebabChars (h : '/' ∉ cs) : '/' ∉ kebabChars cs :=
  fun hmem => slash_notMem_lowerFrom (slash_notMem_hyphenate h) (mem_of_mem_dropHyphen hmem)

end Text

theorem Path.mem_of_mem_cutExtension {name : List Char} {c : Char}
    (h : c ∈ (cutExtension name).1) : c ∈ name := by
  unfold cutExtension at h
  split at h
  · exact h
  · exact h
  · next stem hdrop =>
    have hmem : c ∈ name.reverse.dropWhile (· != '.') := by
      rw [hdrop]
      exact List.mem_cons_of_mem _ (List.mem_reverse.mp h)
    exact List.mem_reverse.mp ((List.dropWhile_suffix _).subset hmem)

theorem SourceLocation.slash_notMem_stem (l : SourceLocation) : '/' ∉ l.stem.toList := by
  unfold stem Path.stem?
  cases hname : l.file.fileName? with
  | none => simp
  | some name =>
    have hslash := Path.slash_notMem_of_fileName? hname
    simpa using fun hmem => hslash (Path.mem_of_mem_cutExtension hmem)

namespace Layout

variable {layout : Layout} {location : SourceLocation}

-- ---------------------------------------------------------------------------
-- Components of output paths
-- ---------------------------------------------------------------------------

theorem isName_fileName (location : SourceLocation) : IsName (fileName location) := by
  have hchars : (fileName location).toList =
      Text.kebabChars location.stem.toList ++ ['.', 't', 's'] := by
    simp [fileName, Text.kebab, Path.outputExtension]
  have hne (name : String) (hshort : name.toList.length < 3) : fileName location ≠ name := by
    rintro rfl
    rw [hchars, List.length_append] at hshort
    exact absurd hshort (Nat.not_lt.mpr (Nat.le_add_left _ _))
  refine ⟨hne "" (by decide), hne "." (by decide), hne ".." (by decide), ?_⟩
  rw [hchars]
  simpa using Text.slash_notMem_kebabChars location.slash_notMem_stem

theorem ordinary_of_mem_subdirectory {c : Component} (h : c ∈ layout.subdirectory location) :
    c.Ordinary := by
  obtain ⟨hmem, hrelative⟩ := List.mem_filter.mp h
  split at hmem
  · next cs hcs =>
    unfold afterMarker? at hcs
    split at hcs
    · cases hcs
    · split at hcs
      · cases hcs
      · obtain ⟨rest, -, rfl⟩ := Option.map_eq_some_iff.mp hcs
        exact Path.ordinary_of_mem_components hmem hrelative
  · unfold below at hmem
    split at hmem
    · exact Path.ordinary_of_mem_components (List.mem_of_mem_drop hmem) hrelative
    · cases hmem

theorem components_outputPath (layout : Layout) (location : SourceLocation) :
    (layout.outputPath location).components = layout.destination.components ++
      layout.subdirectory location ++ [.normal (fileName location)] := by
  have hdirectory : ∀ c ∈ layout.subdirectory location, c.Ordinary :=
    fun _ => ordinary_of_mem_subdirectory
  have hname : ∀ c ∈ [Component.normal (fileName location)], c.Ordinary := by
    intro c hc
    cases List.mem_singleton.mp hc
    exact isName_fileName location
  have hpath : layout.outputPath location =
      (layout.destination.join (.ofComponents (layout.subdirectory location))).join
        (.ofComponents [.normal (fileName location)]) := rfl
  rw [hpath, Path.components_join (Path.anchor_ofComponents hname),
    Path.components_join (Path.anchor_ofComponents hdirectory),
    Path.components_ofComponents hname, Path.components_ofComponents hdirectory]

-- ---------------------------------------------------------------------------
-- The directory below the root
-- ---------------------------------------------------------------------------

/-- A `.` in front of the root is looked for and not found. -/
theorem below_filter (root : Path) {ds : List Component} (hds : .current ∉ ds) :
    below root.components (root.components.filter (· ≠ .current) ++ ds) =
      if root.components.head? = some .current then [] else ds := by
  cases hroot : root.components with
  | nil => simp [below]
  | cons c cs =>
    have htail : cs.filter (· ≠ .current) = cs := by
      refine List.filter_eq_self.mpr fun x hx => ?_
      have hne : x ≠ .current := by
        rintro rfl
        exact Path.current_notMem_tail hroot hx
      simpa using hne
    by_cases hc : c = .current
    · subst hc
      have hnot : (Component.current :: cs).isPrefixOf (cs ++ ds) = false := by
        rw [← Bool.not_eq_true, List.isPrefixOf_iff_prefix]
        intro hpre
        have hmem : Component.current ∈ cs ++ ds := hpre.subset List.mem_cons_self
        rcases List.mem_append.mp hmem with hmem | hmem
        · exact Path.current_notMem_tail hroot hmem
        · exact hds hmem
      rw [List.filter_cons_of_neg (by simp), htail]
      simp [below, hnot]
    · rw [List.filter_cons_of_pos (by simpa using hc), htail]
      simp [below, hc]

/-- Destination, directory, and the kebab-case form of the file's stem. -/
def mirrored (destination : Path) (names : List String) (name : String) : List Component :=
  destination.components ++ names.map .normal ++
    [.normal (Text.kebab (String.ofList (Path.cutExtension name.toList).1) ++ ".ts")]

section
variable {root file destination : Path} {names : List String} {name : String}
  (hn : ∀ n ∈ names ++ [name], IsName n)
  (hfile : file.components =
    root.components.filter (· ≠ .current) ++ (names ++ [name]).map .normal)
include hn hfile

theorem subdirectory_without_marker :
    (⟨destination, none⟩ : Layout).subdirectory ⟨root, file⟩ =
      if root.components.head? = some .current then [] else names.map .normal := by
  rw [List.map_append, List.map_singleton, ← List.append_assoc] at hfile
  obtain ⟨directory, hparent, hdirectory⟩ :=
    Path.parent?_of_components hfile (hn name (by simp))
  have hnames : Component.current ∉ names.map .normal := by simp
  simp only [subdirectory, afterMarker?, SourceLocation.directory, hparent, Option.getD_some,
    hdirectory, below_filter root hnames, relativeComponents]
  split
  · rfl
  · refine List.filter_eq_self.mpr fun c hc => ?_
    obtain ⟨n, -, rfl⟩ := List.mem_map.mp hc
    rfl

theorem fileName_of_components :
    fileName ⟨root, file⟩ =
      Text.kebab (String.ofList (Path.cutExtension name.toList).1) ++ ".ts" := by
  rw [List.map_append, List.map_singleton, ← List.append_assoc] at hfile
  have hname := Path.fileName?_of_components hfile (hn name (by simp))
  rw [fileName, String.append_assoc]
  simp [SourceLocation.stem, Path.stem?, hname, Path.outputExtension]

/-- Without a marker the directory is lost for roots that start with `.`, and only for these. -/
theorem components_outputPath_iff :
    ((⟨destination, none⟩ : Layout).outputPath ⟨root, file⟩).components =
        mirrored destination names name ↔
      root.components.head? ≠ some .current ∨ names = [] := by
  rw [components_outputPath, subdirectory_without_marker hn hfile, mirrored,
    fileName_of_components hn hfile]
  by_cases hroot : root.components.head? = some .current
  · simp [hroot]
  · simp [hroot]

end

end Layout

namespace Java

mutual
theorem file_of_mem_placements {file : SourceFile} {outer : List String} {p : Placement} :
    (type : WrittenType) → p ∈ type.placements file outer → p.file = file
  | .mk name kind nested, h => by
    simp only [WrittenType.placements, List.mem_cons] at h
    rcases h with rfl | h
    · rfl
    · exact file_of_mem_nestedPlacements nested h
theorem file_of_mem_nestedPlacements {file : SourceFile} {outer : List String} {p : Placement} :
    (types : List WrittenType) → p ∈ WrittenType.nestedPlacements file outer types → p.file = file
  | [], h => by
    simp [WrittenType.nestedPlacements] at h
  | type :: rest, h => by
    simp only [WrittenType.nestedPlacements, List.mem_append] at h
    rcases h with h | h
    · exact file_of_mem_placements type h
    · exact file_of_mem_nestedPlacements rest h
end

/-- Every type that a file declares is in the model, with the location of the file. -/
theorem exists_mem_buildModel {files : List SourceFile} {file : SourceFile} (hfile : file ∈ files)
    {p : Placement} (hp : p ∈ file.placements) :
    ∃ d ∈ (buildModel files).decls, d.qualified = Text.join "." p.segments ∧
      d.location = file.location := by
  have hmem : p ∈ files.flatMap SourceFile.placements := List.mem_flatMap.mpr ⟨file, hfile, hp⟩
  obtain ⟨u, hu, hc⟩ :=
    exists_left_of_forall₂ (flatMap_unresolved_collected files).flip hmem
  obtain ⟨type, -, htype⟩ := List.mem_flatMap.mp hp
  refine ⟨_, List.mem_map_of_mem hu, hc.qualified, ?_⟩
  rw [← file_of_mem_placements type htype, ← hc.file]
  rfl

theorem exists_mem_modelOfTexts {sources : List (SourceLocation × String)}
    {location : SourceLocation} {text : String} (h : (location, text) ∈ sources) {p : Placement}
    (hp : p ∈ SourceFile.placements ⟨location, readUnit text⟩) :
    ∃ d ∈ (modelOfTexts sources).decls, d.qualified = Text.join "." p.segments ∧
      d.location = location := by
  unfold modelOfTexts
  exact exists_mem_buildModel (List.mem_map.mpr ⟨(location, text), h, rfl⟩) hp

theorem scanModel_eq_ok_iff {disk : Disk} {roots : List Path} {model : Model} :
    scanModel disk roots = .ok model ↔
      ∃ sources, scanRoots disk roots = .ok sources ∧ modelOfTexts sources = model := by
  unfold scanModel
  cases scanRoots disk roots <;> simp

/-- What a source file below a root declares is in the model, under one location. The output for
that location mirrors the directory of the file if and only if the root does not start with `.`, or
the file is in the root itself. -/
theorem scanModel_mirrored {disk : Disk} {roots : List Path} {model : Model} {root base : Path}
    {directory : Place} {names : List String} {name : String} {content : ByteArray}
    (hmodel : scanModel disk roots = .ok model) (hroot : root ∈ roots)
    (hdir : disk.isDirectory root = true) (hbase : searchBase? root = some base)
    (hplace : disk.followAll (Disk.start root) (Disk.steps root) = .ok directory)
    (hfile : disk.node? (directory ++ (names ++ [name])) = some (.file content))
    (hn : ∀ n ∈ names ++ [name], IsName n) (hsource : isSourceName name = true)
    (destination : Path) :
    ∃ location text, location.root = root ∧ disk.read location.file = .ok content ∧
      String.fromUTF8? content = some text ∧
      (∀ p ∈ SourceFile.placements ⟨location, readUnit text⟩,
        ∃ d ∈ model.decls, d.qualified = Text.join "." p.segments ∧ d.location = location) ∧
      ∀ d ∈ model.decls, d.location = location →
        (((⟨destination, none⟩ : Layout).outputPath d.location).components =
            Layout.mirrored destination names name ↔
          root.components.head? ≠ some .current ∨ names = []) := by
  obtain ⟨sources, hsources, rfl⟩ := scanModel_eq_ok_iff.mp hmodel
  obtain ⟨text, hread, htext, hmem⟩ :=
    scanRoots_reads hsources hroot hdir hbase hplace hfile hn hsource
  refine ⟨⟨root, base.join (.ofComponents ((names ++ [name]).map .normal))⟩, text, rfl, hread, htext,
    fun p hp => exists_mem_modelOfTexts hmem hp, fun d _ hd => ?_⟩
  rw [hd]
  refine Layout.components_outputPath_iff hn ?_
  have hordinary := Path.ordinary_of_mem_names hn
  rw [Path.components_join (Path.anchor_ofComponents hordinary),
    Path.components_ofComponents hordinary, components_searchBase? hbase]

def sampleText : String := "package shop; class OrderLine { int qty; }"

def sampleDisk : Disk where
  entries := [
    (["src"], .directory), (["src", "shop"], .directory),
    (["src", "shop", "OrderLine.java"], .file sampleText.toUTF8)]

def sampleModel (root : Path) : Model :=
  modelOfTexts [(⟨root, ⟨"src/shop/OrderLine.java"⟩⟩, sampleText)]

theorem scanModel_mirrored_sample :
    let root : Path := ⟨"src//"⟩
    scanModel sampleDisk [root] = .ok (sampleModel root) ∧ sampleDisk.isDirectory root = true ∧
    searchBase? root = some ⟨"src"⟩ ∧
    sampleDisk.followAll (Disk.start root) (Disk.steps root) = .ok ["src"] ∧
    sampleDisk.node? (["src"] ++ (["shop"] ++ ["OrderLine.java"])) =
      some (.file sampleText.toUTF8) ∧
    (∀ n ∈ ["shop"] ++ ["OrderLine.java"], IsName n) ∧ isSourceName "OrderLine.java" = true ∧
    ∃ location text, location.root = root ∧
      sampleDisk.read location.file = .ok sampleText.toUTF8 ∧
      String.fromUTF8? sampleText.toUTF8 = some text ∧
      (∀ p ∈ SourceFile.placements ⟨location, readUnit text⟩, ∃ d ∈ (sampleModel root).decls,
        d.qualified = Text.join "." p.segments ∧ d.location = location) ∧
      ∀ d ∈ (sampleModel root).decls, d.location = location →
        (((⟨⟨"out"⟩, none⟩ : Layout).outputPath d.location).components =
            Layout.mirrored ⟨"out"⟩ ["shop"] "OrderLine.java" ↔
          root.components.head? ≠ some .current ∨ ["shop"] = []) := by
  intro root
  have hmodel : scanModel sampleDisk [root] = .ok (sampleModel root) :=
    scanModel_eq_ok_iff.mpr ⟨_, by decide +kernel, rfl⟩
  have hdir : sampleDisk.isDirectory root = true := by decide
  have hbase : searchBase? root = some ⟨"src"⟩ := by decide
  have hplace : sampleDisk.followAll (Disk.start root) (Disk.steps root) = .ok ["src"] := by
    decide +kernel
  have hfile : sampleDisk.node? (["src"] ++ (["shop"] ++ ["OrderLine.java"])) =
      some (.file sampleText.toUTF8) := rfl
  have hn : ∀ n ∈ ["shop"] ++ ["OrderLine.java"], IsName n := by decide
  have hsource : isSourceName "OrderLine.java" = true := by decide
  exact ⟨hmodel, hdir, hbase, hplace, hfile, hn, hsource, scanModel_mirrored hmodel
    List.mem_cons_self hdir hbase hplace hfile hn hsource ⟨"out"⟩⟩

/-- The same disk, through a root that starts with `.`. -/
theorem sampleDisk_directory_lost :
    let root : Path := ⟨"./src"⟩
    scanModel sampleDisk [root] = .ok (sampleModel root) ∧ sampleDisk.isDirectory root = true ∧
    sampleDisk.followAll (Disk.start root) (Disk.steps root) = .ok ["src"] ∧
    sampleDisk.node? (["src"] ++ (["shop"] ++ ["OrderLine.java"])) =
      some (.file sampleText.toUTF8) ∧
    (sampleModel root).decls.map (·.qualified) = ["shop.OrderLine"] ∧
    Layout.mirrored ⟨"out"⟩ ["shop"] "OrderLine.java" =
      [.normal "out", .normal "shop", .normal "order-line.ts"] ∧
    ∀ d ∈ (sampleModel root).decls,
      (⟨⟨"out"⟩, none⟩ : Layout).outputPath d.location = ⟨"out/order-line.ts"⟩ ∧
      ((⟨⟨"out"⟩, none⟩ : Layout).outputPath d.location).components ≠
        Layout.mirrored ⟨"out"⟩ ["shop"] "OrderLine.java" := by
  intro root
  exact ⟨scanModel_eq_ok_iff.mpr ⟨_, by decide +kernel, rfl⟩, by decide, by decide +kernel, rfl,
    by decide +kernel, by decide +kernel, by decide +kernel⟩

end Java

end TypeWeave
