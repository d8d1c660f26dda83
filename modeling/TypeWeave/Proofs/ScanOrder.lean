import TypeWeave.Proofs.Trees

/-!
# The order of a scan

A scan goes through its roots in order, and through the source files of a root by the components of
their paths, each of them once (`Java.Listed`). It reads them all, or stops at the first root that
is missing or file that cannot be read (`Java.Stops`). In which order the entries of a disk were
made does not show (`Java.scanModel_of_tree`).
-/

namespace TypeWeave

-- ---------------------------------------------------------------------------
-- The order of paths
-- ---------------------------------------------------------------------------

theorem Component.orderKey_injective : Function.Injective Component.orderKey := by
  intro c d h
  cases c with
  | normal name =>
    cases d with
    | normal other =>
      simp only [orderKey, List.cons.injEq, true_and] at h
      have htoList := List.map_injective_iff.mpr (fun _ _ => Char.toNat_inj.mp) h
      rw [String.toList_inj.mp htoList]
    | _ => simp [orderKey] at h
  | _ => cases d <;> first | rfl | simp [orderKey] at h

namespace Path

variable {p q r : Path}

instance : Std.TransCmp order where
  eq_swap := by
    intro p q
    unfold order
    exact Std.OrientedCmp.eq_swap
  isLE_trans := by
    intro p q r
    unfold order
    exact Std.TransCmp.isLE_trans

theorem components_eq_of_order (h : p.order q = .eq) : p.components = q.components := by
  unfold order at h
  apply List.map_injective_iff.mpr Component.orderKey_injective
  exact Std.LawfulEqCmp.eq_of_compare h

theorem isLE_order_total (p q : Path) : ((p.order q).isLE || (q.order p).isLE) = true := by
  rw [@Std.OrientedCmp.eq_swap _ order _ p q]
  cases q.order p <;> rfl

theorem order_asymm (h : p.order q = .lt) : q.order p ≠ .lt := by
  rw [@Std.OrientedCmp.eq_swap _ order _ q p, h]
  simp

end Path

namespace Java

variable {disk disk' : Disk} {root base file : Path} {roots files : List Path} {directory : Place}
  {names : List String} {sources : List (SourceLocation × String)} {e : ScanError}

-- ---------------------------------------------------------------------------
-- The source files below a directory
-- ---------------------------------------------------------------------------

structure SourceAt (disk : Disk) (directory : Place) (names : List String) : Prop where
  isName : ∀ name ∈ names, IsName name
  isThere : (disk.node? (directory ++ names)).isSome
  isSource : ∃ name, names.getLast? = some name ∧ isSourceName name = true

theorem below?_eq_some_iff {place : Place} :
    below? directory place = some names ↔ place = directory ++ names ∧ names ≠ [] := by
  simp only [below?, Bool.and_eq_true, List.isPrefixOf_iff_prefix, decide_eq_true_eq,
    Option.ite_none_right_eq_some, Option.some.injEq]
  constructor
  · rintro ⟨⟨⟨rest, rfl⟩, hlength⟩, hrest⟩
    obtain rfl : rest = names := by simpa using hrest
    refine ⟨rfl, ?_⟩
    rintro rfl
    simp at hlength
  · rintro ⟨rfl, hne⟩
    simpa [List.length_pos_iff] using hne

theorem sourcesBelow_eq (disk : Disk) (directory : Place) :
    sourcesBelow disk directory = (disk.entries.map Prod.fst).filterMap fun place =>
      (below? directory place).filter fun names =>
        leadDown names && names.getLast?.any isSourceName := by
  rw [List.filterMap_map, sourcesBelow]
  congr 1
  funext entry
  cases hbelow : below? directory entry.1 <;> simp [hbelow, Option.filter]

theorem mem_sourcesBelow :
    names ∈ sourcesBelow disk directory ↔
      directory ++ names ∈ disk.entries.map Prod.fst ∧ leadDown names = true ∧
        ∃ name, names.getLast? = some name ∧ isSourceName name = true := by
  simp only [sourcesBelow_eq, List.mem_filterMap, Option.filter_eq_some_iff, below?_eq_some_iff,
    Bool.and_eq_true, Option.any_eq_true]
  constructor
  · rintro ⟨place, hplace, ⟨rfl, -⟩, hdown, hlast⟩
    exact ⟨hplace, hdown, hlast⟩
  · rintro ⟨hplace, hdown, name, hlast, hname⟩
    have hne : names ≠ [] := by
      rintro rfl
      simp at hlast
    exact ⟨_, hplace, ⟨rfl, hne⟩, hdown, name, hlast, hname⟩

/-- What leads down to an entry of a tree are names. -/
theorem isName_of_leadDown (h : Place.Proper (directory ++ names)) (hdown : leadDown names = true) :
    ∀ name ∈ names, IsName name := by
  obtain ⟨base, tail, hsplit, hbase, htail⟩ := h
  obtain ⟨before, rfl, rfl⟩ | ⟨out, rfl, rfl⟩ := List.append_eq_append_iff.mp hsplit
  · cases before with
    | nil => exact htail
    | cons first rest =>
      -- The entry would not be below the directory, but around it.
      simp only [Place.isFixed, Bool.or_eq_true, List.all_eq_true, decide_eq_true_eq] at hbase
      rcases hbase with hdots | hroot
      · have hfirst := hdots first (by simp)
        simp_all [leadDown]
      · have hfirst : first = "/" := by
          cases directory <;> simp_all
        simp [leadDown, hfirst] at hdown
  · exact fun name hname => htail name (List.mem_append_right out hname)

theorem mem_sourcesBelow_iff (htree : disk.Tree) :
    names ∈ sourcesBelow disk directory ↔ SourceAt disk directory names := by
  rw [mem_sourcesBelow]
  constructor
  · rintro ⟨hplace, hdown, name, hlast, hname⟩
    have hisName := isName_of_leadDown (htree.proper _ hplace) hdown
    refine ⟨hisName, ?_, name, hlast, hname⟩
    obtain ⟨before, rfl⟩ := List.getLast?_eq_some_iff.mp hlast
    obtain ⟨entry, hentry, heq⟩ := List.mem_map.mp hplace
    rw [← List.append_assoc, Disk.node?, Disk.isFixed_concat (hisName name (by simp)),
      if_neg (by simp), Option.isSome_iff_ne_none, Ne, List.lookup_eq_none_iff]
    intro hnone
    simpa [heq] using hnone entry hentry
  · rintro ⟨hisName, hthere, name, hlast, hname⟩
    obtain ⟨before, rfl⟩ := List.getLast?_eq_some_iff.mp hlast
    obtain ⟨node, hnode⟩ := Option.isSome_iff_exists.mp hthere
    rw [← List.append_assoc] at hnode ⊢
    have hentry := Disk.mem_entries_of_node? (hisName name (by simp)) hnode
    exact ⟨List.mem_map_of_mem hentry, leadDown_of_isName (by simp) hisName, name, hlast, hname⟩

theorem nodup_sourcesBelow (htree : disk.Tree) (directory : Place) :
    (sourcesBelow disk directory).Nodup := by
  rw [sourcesBelow_eq]
  apply htree.nodup.filterMap
  intro place other names hplace hother
  obtain ⟨rfl, -⟩ := below?_eq_some_iff.mp (Option.filter_eq_some_iff.mp hplace).1
  obtain ⟨rfl, -⟩ := below?_eq_some_iff.mp (Option.filter_eq_some_iff.mp hother).1
  rfl

-- ---------------------------------------------------------------------------
-- The files of a root
-- ---------------------------------------------------------------------------

def entryPath (base : Path) (names : List String) : Path :=
  base.join (.ofComponents (names.map .normal))

/-- The path of an entry below a root has the components of the root, but for a leading `.`, and the
names that lead to the entry. What is read there is what the entry holds. -/
structure PathBelow (disk : Disk) (root : Path) (directory : Place) (names : List String)
    (file : Path) : Prop where
  written : ∃ base, searchBase? root = some base ∧ file = entryPath base names
  components : file.components = root.components.filter (· ≠ .current) ++ names.map .normal
  content : ∀ content, disk.read file = .ok content →
    disk.node? (directory ++ names) = some (.file content)

/-- The files of a root in the order of a scan: a file for itself; for a directory every source file
below it, once, ordered by the components of their paths. -/
inductive Listed (disk : Disk) (root : Path) : List Path → Prop
  | file : disk.isFile root = true → Listed disk root [root]
  | directory {directory : Place} {below : List (List String)} {files : List Path} :
      disk.isDirectory root = true →
      disk.followAll (Disk.start root) (Disk.steps root) = .ok directory →
      below.Nodup → (∀ names, names ∈ below ↔ SourceAt disk directory names) →
      List.Forall₂ (PathBelow disk root directory) below files →
      files.Pairwise (fun p q => p.order q = .lt) → Listed disk root files

theorem components_entryPath (hbase : searchBase? root = some base)
    (hn : ∀ name ∈ names, IsName name) :
    (entryPath base names).components =
      root.components.filter (· ≠ .current) ++ names.map .normal := by
  have hordinary := Path.ordinary_of_mem_names hn
  rw [entryPath, Path.components_join (Path.anchor_ofComponents hordinary),
    Path.components_ofComponents hordinary, components_searchBase? hbase]

theorem pathBelow_entryPath (hbase : searchBase? root = some base)
    (hplace : disk.followAll (Disk.start root) (Disk.steps root) = .ok directory)
    (hn : ∀ name ∈ names, IsName name) :
    PathBelow disk root directory names (entryPath base names) := by
  refine ⟨⟨base, hbase, rfl⟩, components_entryPath hbase hn, fun content hread => ?_⟩
  obtain ⟨place, hfollow, hnode⟩ := Disk.read_eq_ok hread
  obtain rfl := followAll_join_searchBase? hbase hplace hn hfollow
  exact hnode

theorem filesBelow_eq (disk : Disk) (base : Path) (directory : Place) :
    filesBelow disk base directory =
      ((sourcesBelow disk directory).map (entryPath base)).mergeSort fun p q =>
        (p.order q).isLE := by
  unfold filesBelow entryPath
  simp only [ofComponents_names]

theorem pairwise_filesBelow (htree : disk.Tree) (hbase : searchBase? root = some base)
    (directory : Place) :
    (filesBelow disk base directory).Pairwise fun p q => p.order q = .lt := by
  have hsorted : (filesBelow disk base directory).Pairwise fun p q => (p.order q).isLE = true :=
    List.pairwise_mergeSort (fun _ _ _ => Std.TransCmp.isLE_trans) Path.isLE_order_total _
  have hnodup : ((filesBelow disk base directory).map Path.components).Nodup := by
    rw [filesBelow_eq, ((List.mergeSort_perm _ _).map _).nodup_iff, List.map_map]
    refine (nodup_sourcesBelow htree directory).map_on fun names hnames other hother heq => ?_
    have hnames := ((mem_sourcesBelow_iff htree).mp hnames).isName
    have hother := ((mem_sourcesBelow_iff htree).mp hother).isName
    simp only [Function.comp_apply, components_entryPath hbase hnames,
      components_entryPath hbase hother, List.append_cancel_left_eq] at heq
    exact List.map_injective_iff.mpr (fun _ _ => Component.normal.inj) heq
  rw [List.Nodup, List.pairwise_map] at hnodup
  refine (hsorted.and hnodup).imp fun ⟨hle, hne⟩ => ?_
  rcases Ordering.isLE_iff_eq_lt_or_eq_eq.mp hle with hlt | heq
  · exact hlt
  · exact absurd (Path.components_eq_of_order heq) hne

theorem listed_filesBelow (htree : disk.Tree) (hdir : disk.isDirectory root = true)
    (hbase : searchBase? root = some base)
    (hplace : disk.followAll (Disk.start root) (Disk.steps root) = .ok directory) :
    Listed disk root (filesBelow disk base directory) := by
  have hperm := List.mergeSort_perm (sourcesBelow disk directory)
    fun names other => ((entryPath base names).order (entryPath base other)).isLE
  refine .directory hdir hplace (hperm.nodup_iff.mpr (nodup_sourcesBelow htree directory))
    (fun names => ?_) ?_ (pairwise_filesBelow htree hbase directory)
  · rw [hperm.mem_iff, mem_sourcesBelow_iff htree]
  · have hfiles : filesBelow disk base directory = ((sourcesBelow disk directory).mergeSort
        fun names other => ((entryPath base names).order (entryPath base other)).isLE).map
          (entryPath base) := by
      rw [filesBelow_eq]
      symm
      apply List.map_mergeSort
      exact fun _ _ _ _ => rfl
    rw [hfiles, List.forall₂_map_right_iff, List.forall₂_same]
    intro names hnames
    rw [List.mem_mergeSort] at hnames
    exact pathBelow_entryPath hbase hplace ((mem_sourcesBelow_iff htree).mp hnames).isName

theorem eq_of_perm_of_sorted {files' : List Path} (hperm : files.Perm files')
    (h : files.Pairwise fun p q => p.order q = .lt)
    (h' : files'.Pairwise fun p q => p.order q = .lt) : files = files' :=
  hperm.eq_of_pairwise (fun _ _ _ _ hlt hgt => absurd hgt (Path.order_asymm hlt)) h h'

/-- A root that is there has its files in one order. -/
theorem discover_eq_ok_iff (htree : disk.Tree)
    (hglob : disk.isDirectory root = true → (searchBase? root).isSome) :
    discover disk root = .ok files ↔ Listed disk root files := by
  constructor
  · intro h
    unfold discover at h
    split at h
    · next hfile =>
      obtain rfl := Except.ok.inj h
      exact .file hfile
    · split at h
      · cases h
      · next hdir =>
        have hdir : disk.isDirectory root = true := by simpa using hdir
        obtain ⟨base, hbase⟩ := Option.isSome_iff_exists.mp (hglob hdir)
        obtain ⟨-, directory, hplace, -⟩ := Disk.isDirectory_iff.mp hdir
        rw [hbase, hplace] at h
        obtain rfl := Except.ok.inj h
        exact listed_filesBelow htree hdir hbase hplace
  · rintro (hfile | @⟨directory, below, files, hdir, hplace, hnodup, hmem, hpaths, hsorted⟩)
    · simp [discover, hfile]
    · obtain ⟨base, hbase⟩ := Option.isSome_iff_exists.mp (hglob hdir)
      have hfiles : below.map (entryPath base) = files := by
        rw [← List.forall₂_eq_eq_eq, List.forall₂_map_left_iff]
        refine hpaths.imp fun names file hpath => ?_
        obtain ⟨base', hbase', hfile⟩ := hpath.written
        rw [hfile, Option.some.inj (hbase.symm.trans hbase')]
      have hbelow : below.Perm (sourcesBelow disk directory) := by
        rw [List.perm_ext_iff_of_nodup hnodup (nodup_sourcesBelow htree directory)]
        intro names
        rw [hmem, mem_sourcesBelow_iff htree]
      have hperm : (filesBelow disk base directory).Perm files := by
        rw [filesBelow_eq, ← hfiles]
        exact (List.mergeSort_perm _ _).trans (hbelow.map _).symm
      rw [discover_of_isDirectory hdir hbase hplace,
        eq_of_perm_of_sorted hperm (pairwise_filesBelow htree hbase directory) hsorted]

theorem discover_eq_error_iff : discover disk root = .error e ↔
    disk.isFile root = false ∧ disk.isDirectory root = false ∧ e = .missingRoot root := by
  unfold discover
  cases disk.isFile root with
  | true => simp
  | false =>
    cases disk.isDirectory root with
    | true =>
      simp only [Bool.false_eq_true, if_false, Bool.not_true]
      split <;> simp
    | false => simp [eq_comm]

-- ---------------------------------------------------------------------------
-- Reading the files
-- ---------------------------------------------------------------------------

def ReadsAs (disk : Disk) (root file : Path) (source : SourceLocation × String) : Prop :=
  ∃ content text, disk.read file = .ok content ∧ String.fromUTF8? content = some text ∧
    source = (⟨root, file⟩, text)

inductive Unreadable (disk : Disk) (file : Path) : ReadFailure → Prop
  | refused {e : PathError} : disk.read file = .error e → Unreadable disk file (.refused e)
  | notText {content : ByteArray} : disk.read file = .ok content →
      String.fromUTF8? content = none → Unreadable disk file .notText

def Scanned (disk : Disk) (root : Path) (part : List (SourceLocation × String)) : Prop :=
  ∃ files, Listed disk root files ∧ List.Forall₂ (ReadsAs disk root) files part

/-- A scan stops at a root: the root is missing, or the files before one that cannot be read can. -/
inductive Stops (disk : Disk) (root : Path) : ScanError → Prop
  | missing : disk.isFile root = false → disk.isDirectory root = false →
      Stops disk root (.missingRoot root)
  | unreadable {before after : List Path} {file : Path} {failure : ReadFailure}
      {part : List (SourceLocation × String)} : Listed disk root (before ++ file :: after) →
      List.Forall₂ (ReadsAs disk root) before part → Unreadable disk file failure →
      Stops disk root (.unreadable file failure)

theorem readSource_eq_ok_iff {source : SourceLocation × String} :
    readSource disk root file = .ok source ↔ ReadsAs disk root file source := by
  refine ⟨readSource_eq_ok, ?_⟩
  rintro ⟨content, text, hread, htext, rfl⟩
  simp [readSource, hread, htext]

theorem readSource_eq_error_iff : readSource disk root file = .error e ↔
    ∃ failure, Unreadable disk file failure ∧ e = .unreadable file failure := by
  constructor
  · intro h
    unfold readSource at h
    split at h
    · next hread => exact ⟨_, .refused hread, (Except.error.inj h).symm⟩
    · next hread =>
      split at h
      · cases h
      · next htext => exact ⟨_, .notText hread htext, (Except.error.inj h).symm⟩
  · rintro ⟨failure, hread | ⟨hread, htext⟩, rfl⟩
    · simp [readSource, hread]
    · simp [readSource, hread, htext]

theorem readSources_eq_ok_iff :
    readSources disk root files = .ok sources ↔ List.Forall₂ (ReadsAs disk root) files sources := by
  rw [readSources_eq_mapM, mapM_eq_ok_iff]
  simp only [readSource_eq_ok_iff]

theorem readSources_eq_error_iff : readSources disk root files = .error e ↔
    ∃ before file after part failure, files = before ++ file :: after ∧
      List.Forall₂ (ReadsAs disk root) before part ∧ Unreadable disk file failure ∧
      e = .unreadable file failure := by
  rw [readSources_eq_mapM, mapM_eq_error_iff]
  simp only [readSource_eq_ok_iff, readSource_eq_error_iff]
  constructor
  · rintro ⟨before, file, after, part, hsplit, hbefore, failure, hfailure, he⟩
    exact ⟨before, file, after, part, failure, hsplit, hbefore, hfailure, he⟩
  · rintro ⟨before, file, after, part, failure, hsplit, hbefore, hfailure, he⟩
    exact ⟨before, file, after, part, hsplit, hbefore, failure, hfailure, he⟩

-- ---------------------------------------------------------------------------
-- Root by root
-- ---------------------------------------------------------------------------

/-- For every directory among the roots there is a way to write the entries below it. There is none
for a root such as `.//src`. -/
def Searchable (disk : Disk) (roots : List Path) : Prop :=
  ∀ root ∈ roots, disk.isDirectory root = true → (searchBase? root).isSome

section
variable (htree : disk.Tree)
include htree

theorem scanRoot_eq_ok_iff {part : List (SourceLocation × String)}
    (hglob : disk.isDirectory root = true → (searchBase? root).isSome) :
    scanRoot disk root = .ok part ↔ Scanned disk root part := by
  simp only [Scanned, ← discover_eq_ok_iff htree hglob, ← readSources_eq_ok_iff, scanRoot]
  cases discover disk root <;> simp

theorem scanRoot_eq_error_iff
    (hglob : disk.isDirectory root = true → (searchBase? root).isSome) :
    scanRoot disk root = .error e ↔ Stops disk root e := by
  unfold scanRoot
  constructor
  · intro h
    split at h
    · next hroot =>
      obtain rfl := Except.error.inj h
      obtain ⟨hfile, hdir, rfl⟩ := discover_eq_error_iff.mp hroot
      exact .missing hfile hdir
    · next files hfiles =>
      obtain ⟨before, file, after, part, failure, rfl, hbefore, hfailure, rfl⟩ :=
        readSources_eq_error_iff.mp h
      exact .unreadable ((discover_eq_ok_iff htree hglob).mp hfiles) hbefore hfailure
  · rintro (⟨hfile, hdir⟩ | ⟨hlisted, hbefore, hfailure⟩)
    · rw [discover_eq_error_iff.mpr ⟨hfile, hdir, rfl⟩]
    · rw [(discover_eq_ok_iff htree hglob).mpr hlisted]
      exact readSources_eq_error_iff.mpr ⟨_, _, _, _, _, rfl, hbefore, hfailure, rfl⟩

theorem scanRoots_eq_ok_iff (hglob : Searchable disk roots) : scanRoots disk roots = .ok sources ↔
    ∃ parts, List.Forall₂ (Scanned disk) roots parts ∧ parts.flatten = sources := by
  have hroots (parts : List (List (SourceLocation × String))) :
      roots.mapM (scanRoot disk) = .ok parts ↔ List.Forall₂ (Scanned disk) roots parts := by
    rw [mapM_eq_ok_iff]
    exact forall₂_congr_of_mem fun root hroot _ => scanRoot_eq_ok_iff htree (hglob root hroot)
  simp only [scanRoots_eq_mapM, ← hroots]
  cases roots.mapM (scanRoot disk) <;> simp [Except.map]

theorem scanRoots_eq_error_iff (hglob : Searchable disk roots) : scanRoots disk roots = .error e ↔
    ∃ before root after parts, roots = before ++ root :: after ∧
      List.Forall₂ (Scanned disk) before parts ∧ Stops disk root e := by
  have herror : scanRoots disk roots = .error e ↔ roots.mapM (scanRoot disk) = .error e := by
    rw [scanRoots_eq_mapM]
    cases roots.mapM (scanRoot disk) <;> simp [Except.map]
  have hbefore {before after : List Path} {root : Path}
      {parts : List (List (SourceLocation × String))} (hsplit : roots = before ++ root :: after) :
      List.Forall₂ (fun root part => scanRoot disk root = .ok part) before parts ↔
        List.Forall₂ (Scanned disk) before parts := by
    apply forall₂_congr_of_mem
    intro r hr _
    exact scanRoot_eq_ok_iff htree (hglob r (by simp [hsplit, hr]))
  have hstop {before after : List Path} {root : Path} (hsplit : roots = before ++ root :: after) :
      scanRoot disk root = .error e ↔ Stops disk root e :=
    scanRoot_eq_error_iff htree (hglob root (by simp [hsplit]))
  rw [herror, mapM_eq_error_iff]
  constructor
  · rintro ⟨before, root, after, parts, hsplit, hparts, hroot⟩
    exact ⟨before, root, after, parts, hsplit, (hbefore hsplit).mp hparts, (hstop hsplit).mp hroot⟩
  · rintro ⟨before, root, after, parts, hsplit, hparts, hroot⟩
    exact ⟨before, root, after, parts, hsplit, (hbefore hsplit).mpr hparts,
      (hstop hsplit).mpr hroot⟩

end

-- ---------------------------------------------------------------------------
-- The same tree
-- ---------------------------------------------------------------------------

section
variable (htree : disk.Tree) (htree' : disk'.Tree) (hnodes : disk'.node? = disk.node?)
include htree htree' hnodes

theorem sourcesBelow_perm (directory : Place) :
    (sourcesBelow disk' directory).Perm (sourcesBelow disk directory) := by
  rw [List.perm_ext_iff_of_nodup (nodup_sourcesBelow htree' directory)
    (nodup_sourcesBelow htree directory)]
  intro names
  rw [mem_sourcesBelow_iff htree', mem_sourcesBelow_iff htree]
  constructor
  · rintro ⟨hisName, hthere, hsource⟩
    exact ⟨hisName, hnodes ▸ hthere, hsource⟩
  · rintro ⟨hisName, hthere, hsource⟩
    exact ⟨hisName, hnodes ▸ hthere, hsource⟩

theorem filesBelow_congr (hbase : searchBase? root = some base) (directory : Place) :
    filesBelow disk' base directory = filesBelow disk base directory := by
  have hperm : (filesBelow disk' base directory).Perm (filesBelow disk base directory) := by
    rw [filesBelow_eq, filesBelow_eq]
    exact (List.mergeSort_perm _ _).trans
      (((sourcesBelow_perm htree htree' hnodes directory).map _).trans
        (List.mergeSort_perm _ _).symm)
  exact hperm.eq_of_pairwise (fun _ _ _ _ hlt hgt => absurd hgt (Path.order_asymm hlt))
    (pairwise_filesBelow htree' hbase directory) (pairwise_filesBelow htree hbase directory)

theorem discover_congr : discover disk' = discover disk := by
  funext root
  simp only [discover, Disk.isFile_congr hnodes, Disk.isDirectory_congr hnodes,
    Disk.followAll_congr hnodes]
  cases hbase : searchBase? root with
  | none => rfl
  | some base =>
    cases disk.followAll (Disk.start root) (Disk.steps root) with
    | error e => rfl
    | ok directory => simp only [filesBelow_congr htree htree' hnodes hbase]

omit htree htree' in
theorem readSources_congr (files : List Path) :
    readSources disk' root files = readSources disk root files := by
  induction files with
  | nil => rfl
  | cons file files ih => simp only [readSources, readSource, Disk.read_congr hnodes, ih]

/-- A scan sees nothing but what stands where. -/
theorem scanModel_congr : scanModel disk' roots = scanModel disk roots := by
  have hroots : scanRoots disk' roots = scanRoots disk roots := by
    induction roots with
    | nil => rfl
    | cons root roots ih =>
      simp only [scanRoots, discover_congr htree htree' hnodes, readSources_congr hnodes, ih]
  simp only [scanModel, hroots]

end

/-- A scan gives the model of the sources of all roots, in order, or else the error of the first
root or file that stops it. Both depend only on what stands where: the entries of the disk can have
been made in any order. -/
theorem scanModel_of_tree (htree : disk.Tree) (hglob : Searchable disk roots) :
    (∀ model, scanModel disk roots = .ok model ↔
      ∃ parts, List.Forall₂ (Scanned disk) roots parts ∧ modelOfTexts parts.flatten = model) ∧
    (∀ e, scanModel disk roots = .error e ↔
      ∃ before root after parts, roots = before ++ root :: after ∧
        List.Forall₂ (Scanned disk) before parts ∧ Stops disk root e) ∧
    ∀ items items', Disk.Creatable items → items.Perm items' →
      (Disk.create items).node? = disk.node? →
      scanModel (.create items') roots = scanModel disk roots := by
  refine ⟨fun model => ?_, fun e => ?_, fun items items' hitems hperm hnodes => ?_⟩
  · simp only [scanModel_eq_ok_iff, scanRoots_eq_ok_iff htree hglob]
    constructor
    · rintro ⟨sources, ⟨parts, hparts, rfl⟩, rfl⟩
      exact ⟨parts, hparts, rfl⟩
    · rintro ⟨parts, hparts, rfl⟩
      exact ⟨_, ⟨parts, hparts, rfl⟩, rfl⟩
  · rw [← scanRoots_eq_error_iff htree hglob, scanModel]
    cases scanRoots disk roots <;> simp
  · exact scanModel_congr htree (hitems.perm hperm).tree
      ((Disk.node?_create_perm hitems hperm).trans hnodes)

/-- The path of the first file comes before that of the second as a text, but not by components. -/
def sampleEntries : List (Place × Node) := [
  (["src", "a-b", "Left.java"], .file "class Left { }".toUTF8),
  (["src", "a", "Right.java"], .file "class Right { }".toUTF8),
  (["Main.java"], .file "class Main { }".toUTF8)]

theorem creatable_sampleEntries : Disk.Creatable sampleEntries where
  proper item hitem := by
    have hnames : ∀ item ∈ sampleEntries, ∀ name ∈ item.1, IsName name := by decide
    exact ⟨[], item.1, rfl, rfl, hnames item hitem⟩
  alone item hitem other hother heq := by
    have hplaces : (sampleEntries.map Prod.fst).Nodup := by decide
    exact List.inj_on_of_nodup_map hplaces hitem hother heq

def sampleSources : List (SourceLocation × String) := [
  (⟨⟨"src"⟩, ⟨"src/a/Right.java"⟩⟩, "class Right { }"),
  (⟨⟨"src"⟩, ⟨"src/a-b/Left.java"⟩⟩, "class Left { }"),
  (⟨⟨"Main.java"⟩, ⟨"Main.java"⟩⟩, "class Main { }")]

theorem scanRoots_sampleEntries :
    scanRoots (.create sampleEntries) [⟨"src"⟩, ⟨"Main.java"⟩] = .ok sampleSources := by
  have hbase : searchBase? ⟨"src"⟩ = some ⟨"src"⟩ := by decide
  have hfiles : filesBelow (.create sampleEntries) ⟨"src"⟩ ["src"] =
      [⟨"src/a/Right.java"⟩, ⟨"src/a-b/Left.java"⟩] := by
    refine eq_of_perm_of_sorted ?_ (pairwise_filesBelow creatable_sampleEntries.tree hbase _)
      (by decide)
    have hwritten : (sourcesBelow (.create sampleEntries) ["src"]).map (entryPath ⟨"src"⟩) =
        [⟨"src/a-b/Left.java"⟩, ⟨"src/a/Right.java"⟩] := by decide +kernel
    rw [filesBelow_eq, hwritten]
    exact (List.mergeSort_perm _ _).trans (.swap _ _ _)
  have hplace : (Disk.create sampleEntries).followAll (Disk.start ⟨"src"⟩) (Disk.steps ⟨"src"⟩) =
      .ok ["src"] := by decide +kernel
  have hsource : discover (.create sampleEntries) ⟨"src"⟩ =
      .ok [⟨"src/a/Right.java"⟩, ⟨"src/a-b/Left.java"⟩] := by
    rw [discover_of_isDirectory (by decide +kernel) hbase hplace, hfiles]
  have hmain : discover (.create sampleEntries) ⟨"Main.java"⟩ = .ok [⟨"Main.java"⟩] := by
    decide +kernel
  simp only [scanRoots, hsource, hmain]
  decide +kernel

theorem scanModel_of_tree_sample :
    (Disk.create sampleEntries).Tree ∧
    Searchable (.create sampleEntries) [⟨"src"⟩, ⟨"Main.java"⟩] ∧
    (∃ parts, List.Forall₂ (Scanned (.create sampleEntries)) [⟨"src"⟩, ⟨"Main.java"⟩] parts ∧
      modelOfTexts parts.flatten = modelOfTexts sampleSources) ∧
    scanModel (.create sampleEntries.reverse) [⟨"src"⟩, ⟨"Main.java"⟩] =
      .ok (modelOfTexts sampleSources) := by
  have htree : (Disk.create sampleEntries).Tree := creatable_sampleEntries.tree
  have hglob : Searchable (.create sampleEntries) [⟨"src"⟩, ⟨"Main.java"⟩] := by
    have hbases : ∀ root ∈ ([⟨"src"⟩, ⟨"Main.java"⟩] : List Path), (searchBase? root).isSome := by
      decide
    exact fun root hroot _ => hbases root hroot
  obtain ⟨hok, -, hperm⟩ := scanModel_of_tree htree hglob
  have hmodel : scanModel (.create sampleEntries) [⟨"src"⟩, ⟨"Main.java"⟩] =
      .ok (modelOfTexts sampleSources) :=
    scanModel_eq_ok_iff.mpr ⟨_, scanRoots_sampleEntries, rfl⟩
  refine ⟨htree, hglob, (hok _).mp hmodel, ?_⟩
  rw [hperm _ _ creatable_sampleEntries (List.reverse_perm _).symm rfl, hmodel]

end Java

end TypeWeave
