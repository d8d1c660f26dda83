import TypeWeave.Proofs.FileStems

/-!
# Where module paths lead

A module path goes up from the import root to where root and file part, and down from there. So the
root followed by the module path is the file without its extension, once `.` and `..` are resolved
(`Path.modulePath_leads_back`), and different files have different module paths. The `.` in front of
a root is left out of the comparison, the `.` in front of a file is not: a file written with `./`
parts from every root at once, and its module path goes up out of the root even where the file is
below it (`Path.modulePath_dotted`).
-/

namespace TypeWeave

namespace Component

variable {c : Component} {cs base target : List Component}

-- ---------------------------------------------------------------------------
-- Resolving `.` and `..`
-- ---------------------------------------------------------------------------

/-- One step from a place, by the text alone: nothing is looked up on a disk. There is nothing above
the root, and what is above the start of a relative path stays unnamed. -/
def enter (place : List Component) : Component → List Component
  | .root => [.root]
  | .current => place
  | .normal name => place ++ [.normal name]
  | .parent =>
    match place.getLast? with
    | some (.normal _) => place.dropLast
    | some .root => place
    | _ => place ++ [.parent]

def resolve (cs : List Component) : List Component := cs.foldl enter []

open TypeWeave.Path (commonLength segmentsFrom)

/-- What two lists share from the start, and what is left of each. -/
theorem exists_common (target base : List Component) :
    ∃ shared down up, target = shared ++ down ∧ base = shared ++ up ∧
      commonLength target base = shared.length := by
  induction target generalizing base with
  | nil => exact ⟨[], [], base, rfl, rfl, rfl⟩
  | cons c target ih =>
    cases base with
    | nil => exact ⟨[], c :: target, [], rfl, rfl, rfl⟩
    | cons d base =>
      by_cases hcd : c = d
      · subst hcd
        obtain ⟨shared, down, up, rfl, rfl, hlength⟩ := ih base
        exact ⟨c :: shared, down, up, rfl, rfl, by simp [commonLength, hlength]⟩
      · exact ⟨[], c :: target, d :: base, rfl, rfl, by simp [commonLength, hcd]⟩

theorem segmentsFrom_cons (hc : c ≠ .current) (base target : List Component) :
    segmentsFrom (c :: base) (c :: target) = segmentsFrom base target := by
  simp [segmentsFrom, commonLength, hc]

theorem segmentsFrom_filter (base target : List Component) :
    segmentsFrom (base.filter (· != .current)) target = segmentsFrom base target := by
  simp [segmentsFrom]

theorem mem_segmentsFrom (h : c ∈ segmentsFrom base target) :
    c = .parent ∨ c ∈ target ∧ c ≠ .current := by
  rcases List.mem_append.mp h with h | h
  · exact .inl (List.eq_of_mem_replicate h)
  · obtain ⟨hmem, hne⟩ := List.mem_filter.mp h
    exact .inr ⟨List.mem_of_mem_drop hmem, by simpa using hne⟩

end Component

namespace Path

open Component (resolve enter)
open Text (pieces)

variable {p q root : Path} {c : Component}

-- ---------------------------------------------------------------------------
-- Back to the file
-- ---------------------------------------------------------------------------

/-- A file that an import root can lead to. The stems `.` and `..` are names of files but are read
as steps. -/
structure LiesBeside (p root : Path) : Prop where
  isAbsolute_eq : p.isAbsolute = root.isAbsolute
  stem_ne_dot : p.stem? ≠ some ['.']
  stem_ne_dots : p.stem? ≠ some ['.', '.']

theorem components_of_absolute (h : p.isAbsolute = true) :
    p.components = .root :: segments p.chars := by
  rw [components_eq, isAbsolute_iff.mp h]
  rfl

theorem components_of_relative (h : p.isAbsolute = false) :
    p.components = segments p.chars ∨ p.components = .current :: segments p.chars := by
  rw [components_eq]
  obtain ⟨body, -, -, hcut⟩ | hcut := cutAnchor_of_relative h <;> rw [anchor, hcut]
  · exact .inr rfl
  · exact .inl rfl

theorem root_mem_components_iff : .root ∈ p.components ↔ p.isAbsolute = true := by
  have hsegments : Component.root ∉ segments p.chars := fun h => ordinary_of_mem_segments h
  cases habsolute : p.isAbsolute with
  | true => simp [components_of_absolute habsolute]
  | false =>
    rcases components_of_relative habsolute with h | h <;> simp [h, hsegments]

section
variable (h : p.isAbsolute = root.isAbsolute)
include h

theorem ordinary_of_mem_segmentsFrom (hc : c ∈ segmentsFrom root.components p.components) :
    c.Ordinary := by
  cases habsolute : p.isAbsolute with
  | true =>
    rw [components_of_absolute habsolute, components_of_absolute (h ▸ habsolute),
      Component.segmentsFrom_cons (by simp)] at hc
    rcases Component.mem_segmentsFrom hc with rfl | ⟨hmem, -⟩
    · trivial
    · exact ordinary_of_mem_segments hmem
  | false =>
    rcases Component.mem_segmentsFrom hc with rfl | ⟨hmem, hne⟩
    · trivial
    · have hroot : c ≠ .root := by
        rintro rfl
        rw [root_mem_components_iff, habsolute] at hmem
        cases hmem
      refine ordinary_of_mem_components hmem ?_
      cases c <;> simp_all [Component.isRelative]

end

theorem mem_text_of_mem_components {x : Char} (hc : c ∈ p.components) (hx : x ∈ c.text.toList) :
    x = '/' ∨ x = '.' ∨ x ∈ p.chars := by
  cases c with
  | root => exact .inl (by simpa [Component.text] using hx)
  | current | parent => exact .inr (.inl (by simpa [Component.text] using hx))
  | normal name =>
    rw [components_eq, List.mem_append] at hc
    rcases hc with hanchor | hsegment
    · cases isRelative_of_mem_anchorComponents hanchor
    · obtain ⟨piece, hpiece, hname⟩ := List.mem_filterMap.mp hsegment
      obtain ⟨rfl, -⟩ := Component.eq_toList_of_ofPiece? hname
      exact .inr (.inr ((Text.isInfix_of_mem_pieces hpiece).subset hx))

/-- Slashes and dots apart, the characters of a module path are those of the file. -/
theorem mem_modulePath {x : Char} (h : x ∈ (p.modulePath root).toList) :
    x = '/' ∨ x = '.' ∨ x ∈ p.chars := by
  rw [modulePath, Text.toList_join] at h
  rcases Text.mem_joinChars h with hslash | ⟨segment, hsegment, hx⟩
  · exact .inl (by simpa using hslash)
  · rw [List.map_map] at hsegment
    obtain ⟨c, hc, rfl⟩ := List.mem_map.mp hsegment
    rcases Component.mem_segmentsFrom hc with rfl | ⟨hfile, -⟩
    · exact .inr (.inl (by simpa [Component.text] using hx))
    · have hchars := mem_text_of_mem_components hfile hx
      exact hchars.imp_right (.imp_right ((chars_dropOutputExtension_isPrefix p).subset ·))

-- ---------------------------------------------------------------------------
-- A `./` in front of a file or a root
-- ---------------------------------------------------------------------------

/-- What a file is compared with: a `.` in front does not say where a root is. -/
def base (root : Path) : List Component := root.components.filter (· != .current)

def climbs (text : String) : Nat := (pieces '/' text.toList).count ['.', '.']

theorem commonLength_of_isPrefix {base target : List Component} (h : base <+: target) :
    commonLength target base = base.length := by
  obtain ⟨rest, rfl⟩ := h
  induction base with
  | nil => cases rest <;> rfl
  | cons c base ih => simp [commonLength, ih]

theorem commonLength_le (target base : List Component) :
    commonLength target base ≤ base.length := by
  obtain ⟨shared, down, up, -, rfl, hlength⟩ := Component.exists_common target base
  rw [hlength, List.length_append]
  exact Nat.le_add_right _ _

theorem count_text {cs : List Component} (h : ∀ c ∈ cs, c.Ordinary) :
    (cs.map fun c => c.text.toList).count ['.', '.'] = cs.count .parent := by
  induction cs with
  | nil => rfl
  | cons c cs ih =>
    obtain ⟨hc, hcs⟩ := List.forall_mem_cons.mp h
    rw [List.map_cons, List.count_cons, List.count_cons, ih hcs]
    cases c with
    | parent => rfl
    | normal name =>
      have hdots : name.toList ≠ ['.', '.'] := IsName.toList_ne_dots hc
      simp [Component.text, hdots]
    | _ => cases hc

theorem modulePath_eq (p root : Path) : p.modulePath root =
    (ofComponents (segmentsFrom root.components p.dropOutputExtension.components)).text := by
  rw [modulePath, ofComponents]

theorem climbs_ofComponents {cs : List Component} (h : ∀ c ∈ cs, c.Ordinary) :
    climbs (ofComponents cs).text = cs.count .parent := by
  by_cases hcs : cs = []
  · subst hcs
    rfl
  · rw [← count_text h, ← pieces_ofComponents h hcs]
    rfl

theorem base_dotted (h : root.isAbsolute = false) : root.dotted.base = root.base := by
  rw [base, components_dotted h, List.filter_cons_of_neg (by simp), List.filter_filter]
  simp [base]

theorem modulePath_dotted_root (p : Path) (h : root.isAbsolute = false) :
    p.modulePath root.dotted = p.modulePath root := by
  have hbase := base_dotted h
  unfold base at hbase
  rw [modulePath, modulePath, ← Component.segmentsFrom_filter, hbase, Component.segmentsFrom_filter]

/-- A file written with `./` shares nothing with any root. -/
theorem segmentsFrom_dotted (h : p.isAbsolute = false) (root : Path) :
    segmentsFrom root.components p.dotted.components =
      List.replicate root.base.length .parent ++ p.components.filter (· != .current) := by
  have hnone : commonLength p.dotted.components root.base = 0 := by
    rw [components_dotted h]
    cases hbase : root.base with
    | nil => rfl
    | cons c cs =>
      have hc : c ∈ root.base := by simp [hbase]
      have hne : Component.current ≠ c := by
        rintro rfl
        simp [base] at hc
      simp [commonLength, hne]
  unfold base at hnone ⊢
  simp only [segmentsFrom, hnone]
  simp [components_dotted h]

theorem segmentsFrom_dotted_module (hp : p.isAbsolute = false) (root : Path) :
    segmentsFrom root.components p.dotted.dropOutputExtension.components =
      List.replicate root.base.length .parent ++
        p.dropOutputExtension.components.filter (· != .current) := by
  have hrelative : p.dropOutputExtension.isAbsolute = false :=
    isAbsolute_of_isPrefix (chars_dropOutputExtension_isPrefix p) hp
  rw [dropOutputExtension_dotted hp, segmentsFrom_dotted hrelative]

theorem isAbsolute_dotted (p : Path) : p.dotted.isAbsolute = false := by
  simp [isAbsolute]

section
variable (hp : p.isAbsolute = false) (hroot : root.isAbsolute = false)
include hp hroot

theorem ordinary_of_mem_segmentsFrom_module :
    ∀ c ∈ segmentsFrom root.components p.dropOutputExtension.components, c.Ordinary := by
  have hrelative : p.dropOutputExtension.isAbsolute = false :=
    isAbsolute_of_isPrefix (chars_dropOutputExtension_isPrefix p) hp
  exact fun _ hc => ordinary_of_mem_segmentsFrom (hrelative.trans hroot.symm) hc

theorem modulePath_dotted_eq_iff :
    p.dotted.modulePath root = p.modulePath root ↔
      commonLength p.dropOutputExtension.components root.base = 0 := by
  have hsegments : segmentsFrom root.components p.dropOutputExtension.components =
      List.replicate (root.base.length -
          commonLength p.dropOutputExtension.components root.base) .parent ++
        (p.dropOutputExtension.components.drop
          (commonLength p.dropOutputExtension.components root.base)).filter (· != .current) := rfl
  have hdotted := segmentsFrom_dotted_module hp root
  constructor
  · intro heq
    have hsame : segmentsFrom root.components p.dotted.dropOutputExtension.components =
        segmentsFrom root.components p.dropOutputExtension.components := by
      rw [← components_ofComponents (ordinary_of_mem_segmentsFrom_module hp hroot),
        ← components_ofComponents
          (ordinary_of_mem_segmentsFrom_module (isAbsolute_dotted p) hroot)]
      exact congrArg (fun text => components ⟨text⟩) heq
    -- The segments without the common start are fewer, on the way up and on the way down.
    rw [hdotted, hsegments] at hsame
    have hlength := congrArg List.length hsame
    have hle := commonLength_le p.dropOutputExtension.components root.base
    have hfewer := ((List.drop_sublist (commonLength p.dropOutputExtension.components root.base)
      p.dropOutputExtension.components).filter (· != .current)).length_le
    simp only [List.length_append, List.length_replicate] at hlength
    omega
  · intro hnone
    rw [modulePath, modulePath, hdotted, hsegments, hnone]
    rfl

/-- For a file below the root there is no way up, unless the file is written with `./`. -/
theorem climbs_of_below (h : p.LiesBeside root) (hparent : .parent ∉ p.components)
    (hbelow : root.base <+: p.components.dropLast) :
    climbs (p.modulePath root) = 0 ∧ climbs (p.dotted.modulePath root) = root.base.length := by
  obtain ⟨hpre, hno⟩ : root.base <+: p.dropOutputExtension.components ∧
      .parent ∉ p.dropOutputExtension.components := by
    obtain ⟨-, hdrop⟩ | ⟨cs, stem, -, -, hcs, hdrop⟩ :=
      components_dropOutputExtension h.stem_ne_dot h.stem_ne_dots
    · rw [hdrop]
      exact ⟨hbelow.trans (List.dropLast_prefix _), hparent⟩
    · rw [hcs, List.dropLast_concat] at hbelow
      rw [hcs, List.mem_append, not_or] at hparent
      rw [hdrop]
      exact ⟨hbelow.trans (List.prefix_append cs _), by simp [hparent.1]⟩
  have hnone (n : Nat) :
      ((p.dropOutputExtension.components.drop n).filter (· != .current)).count .parent = 0 :=
    List.count_eq_zero.mpr fun hmem => hno (List.mem_of_mem_drop (List.mem_filter.mp hmem).1)
  have hcommon := commonLength_of_isPrefix hpre
  rw [modulePath_eq, modulePath_eq,
    climbs_ofComponents (ordinary_of_mem_segmentsFrom_module hp hroot),
    climbs_ofComponents (ordinary_of_mem_segmentsFrom_module (isAbsolute_dotted p) hroot),
    segmentsFrom_dotted_module hp root, List.count_append, List.count_replicate_self]
  constructor
  · unfold base at hcommon
    simp only [segmentsFrom]
    rw [List.count_append, hnone, hcommon, Nat.sub_self]
    rfl
  · have hzero := hnone 0
    rw [List.drop_zero] at hzero
    rw [hzero, Nat.add_zero]

/-- A `./` in front of the root changes no module path. In front of a file it changes the module
path unless file and root have no component in common at their start: the path then goes up out of
the root even where the file is below it. -/
theorem modulePath_dotted :
    p.modulePath root.dotted = p.modulePath root ∧
    p.dotted.modulePath root.dotted = p.dotted.modulePath root ∧
    (p.dotted.modulePath root = p.modulePath root ↔
      commonLength p.dropOutputExtension.components root.base = 0) ∧
    (p.LiesBeside root → .parent ∉ p.components → root.base <+: p.components.dropLast →
      climbs (p.modulePath root) = 0 ∧
      climbs (p.dotted.modulePath root) = root.base.length) :=
  ⟨modulePath_dotted_root p hroot, modulePath_dotted_root p.dotted hroot,
    modulePath_dotted_eq_iff hp hroot, climbs_of_below hp hroot⟩

end

theorem modulePath_dotted_sample :
    let root : Path := ⟨"web"⟩
    let p : Path := ⟨"web/shop/order.ts"⟩
    p.isAbsolute = false ∧ root.isAbsolute = false ∧ p.LiesBeside root ∧
    .parent ∉ p.components ∧ root.base <+: p.components.dropLast ∧
    p.modulePath root.dotted = p.modulePath root ∧
    climbs (p.modulePath root) = 0 ∧ climbs (p.dotted.modulePath root) = 1 := by
  intro root p
  have hp : p.isAbsolute = false := by decide
  have hroot : root.isAbsolute = false := by decide
  have hbeside : p.LiesBeside root := ⟨by decide, by decide, by decide⟩
  have hparent : .parent ∉ p.components := by decide
  have hbelow : root.base <+: p.components.dropLast := by decide
  have hlength : root.base.length = 1 := by decide
  obtain ⟨hsame, -, -, hclimbs⟩ := modulePath_dotted hp hroot
  rw [hlength] at hclimbs
  exact ⟨hp, hroot, hbeside, hparent, hbelow, hsame, hclimbs hbeside hparent hbelow⟩

/-- One file below one root, each in both spellings. -/
theorem sampleFile_climbs :
    let root : Path := ⟨"web"⟩
    let p : Path := ⟨"web/shop/order.ts"⟩
    p.modulePath root = "shop/order" ∧ p.modulePath root.dotted = "shop/order" ∧
    p.dotted.modulePath root = "../web/shop/order" ∧
    p.dotted.modulePath root.dotted = "../web/shop/order" := by
  decide

end Path

end TypeWeave
