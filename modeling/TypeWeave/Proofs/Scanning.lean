import Mathlib.Data.List.TakeWhile
import TypeWeave.Java.Scan
import TypeWeave.Proofs.Paths
import TypeWeave.Proofs.SourceFiles

/-!
# What a scan reads

A scan writes the files below a root in its own way: the path of a file is the names that lead to
it, joined to the search base of the root. The search base leads where the root does
(`Java.steps_searchBase?`) and has the same components but for a leading `.`
(`Java.components_searchBase?`). Every source file below a root is read, at the place where it is
(`Java.scanRoots_reads`).
-/

namespace TypeWeave

open Text (pieces joinChars)

-- ---------------------------------------------------------------------------
-- Steps that can fail
-- ---------------------------------------------------------------------------

section
variable {α β ε : Type} {f : α → Except ε β} {as : List α}

theorem mapM_eq_ok_iff {bs : List β} :
    as.mapM f = .ok bs ↔ List.Forall₂ (fun a b => f a = .ok b) as bs := by
  induction as generalizing bs with
  | nil => simp [pure, Except.pure, eq_comm]
  | cons a as ih =>
    rw [List.mapM_cons, List.forall₂_cons_left_iff]
    simp only [← ih]
    cases f a with
    | error e => simp [bind, Except.bind]
    | ok b => cases as.mapM f <;> simp [bind, Except.bind, pure, Except.pure, eq_comm]

/-- The first step that fails gives the error. -/
theorem mapM_eq_error_iff {e : ε} : as.mapM f = .error e ↔
    ∃ before a after bs, as = before ++ a :: after ∧
      List.Forall₂ (fun a b => f a = .ok b) before bs ∧ f a = .error e := by
  constructor
  · intro h
    induction as with
    | nil => cases h
    | cons a as ih =>
      rw [List.mapM_cons] at h
      cases ha : f a with
      | error e' =>
        rw [ha] at h
        obtain rfl : e' = e := Except.error.inj h
        exact ⟨[], a, as, [], rfl, .nil, ha⟩
      | ok b =>
        cases has : as.mapM f with
        | error e' =>
          rw [ha, has] at h
          obtain rfl : e' = e := Except.error.inj h
          obtain ⟨before, bad, after, bs, rfl, hbefore, hbad⟩ := ih has
          exact ⟨a :: before, bad, after, b :: bs, rfl, .cons ha hbefore, hbad⟩
        | ok bs =>
          rw [ha, has] at h
          cases h
  · rintro ⟨before, a, after, bs, rfl, hbefore, ha⟩
    rw [List.mapM_append, mapM_eq_ok_iff.mpr hbefore, List.mapM_cons, ha]
    rfl

theorem forall₂_congr_of_mem {R S : α → β → Prop} {bs : List β}
    (h : ∀ a ∈ as, ∀ b, R a b ↔ S a b) : List.Forall₂ R as bs ↔ List.Forall₂ S as bs := by
  induction as generalizing bs with
  | nil => simp only [List.forall₂_nil_left_iff]
  | cons a as ih =>
    simp only [List.forall₂_cons_left_iff, h a List.mem_cons_self,
      ih fun x hx => h x (List.mem_cons_of_mem a hx)]

end

namespace Disk

variable {p q : Path} {cs ds : List Char} {disk : Disk} {place next : Place}
  {names : List String}

-- ---------------------------------------------------------------------------
-- Steps of a path
-- ---------------------------------------------------------------------------

theorem steps_append (cs ds : List Char) :
    steps (.ofChars (cs ++ '/' :: ds)) = steps (.ofChars cs) ++ steps (.ofChars ds) := by
  simp [steps, Text.pieces_append]

theorem steps_slash (cs : List Char) : steps (.ofChars ('/' :: cs)) = steps (.ofChars cs) :=
  steps_append [] cs

theorem steps_append_slashes (cs : List Char) (h : ∀ c ∈ ds, c = '/') :
    steps (.ofChars (cs ++ ds)) = steps (.ofChars cs) := by
  induction ds generalizing cs with
  | nil => simp
  | cons d ds ih =>
    have hds : steps (.ofChars ds) = [] := ih [] fun c hc => h c (List.mem_cons_of_mem _ hc)
    obtain rfl := h d List.mem_cons_self
    rw [steps_append, hds, List.append_nil]

theorem mem_steps {piece : List Char} (h : piece ∈ steps p) : piece ≠ [] ∧ '/' ∉ piece := by
  obtain ⟨hp, hne⟩ := List.mem_filter.mp h
  exact ⟨by simpa using hne, Text.notMem_of_mem_pieces hp⟩

theorem steps_joinChars {ps : List (List Char)} (h : ∀ p ∈ ps, p ≠ [] ∧ '/' ∉ p) :
    steps (.ofChars (joinChars ['/'] ps)) = ps := by
  cases hps : ps with
  | nil => rfl
  | cons p ps' =>
    rw [← hps, steps, Path.chars_ofChars,
      Text.pieces_joinChars (by simp [hps]) fun p hp => (h p hp).2]
    exact List.filter_eq_self.mpr fun p hp => by simpa using (h p hp).1

theorem segments_eq (p : Path) :
    Path.segments p.chars = (steps p).filterMap Component.ofPiece? := by
  rw [Path.segments, steps, List.filterMap_filter]
  congr 1
  funext piece
  cases piece <;> simp [Component.ofPiece?]

theorem steps_join (hq : q.isAbsolute = false) : steps (p.join q) = steps p ++ steps q := by
  obtain ⟨hp, hj⟩ | ⟨cs, hp, hj⟩ | ⟨-, hj⟩ := Path.chars_join (p := p) hq
  · rw [hj, ← Path.ofChars_chars p, hp]
    rfl
  · rw [hj, ← Path.ofChars_chars p, hp, steps_append, steps_append, Path.ofChars_chars]
    simp [steps, pieces]
  · rw [hj, steps_append, Path.ofChars_chars, Path.ofChars_chars]

theorem steps_ofComponents {cs : List Component} (h : ∀ c ∈ cs, c.Ordinary) :
    steps (.ofComponents cs) = cs.map fun c => c.text.toList := by
  cases hcs : cs with
  | nil => rfl
  | cons c cs' =>
    rw [← hcs, steps, Path.pieces_ofComponents h (by simp [hcs])]
    refine List.filter_eq_self.mpr fun p hp => ?_
    obtain ⟨x, hx, rfl⟩ := List.mem_map.mp hp
    simpa using (h x hx).text_ne_nil

theorem start_join (hq : q.isAbsolute = false) : start (p.join q) = start p := by
  have hsame : (p.join q).isAbsolute = p.isAbsolute := by
    obtain ⟨hp, hj⟩ | ⟨cs, hp, hj⟩ | ⟨hp, hj⟩ := Path.chars_join (p := p) hq
    · rw [hj, hq]
      simp [Path.isAbsolute, hp]
    · cases cs <;> simp [hj, hp, Path.isAbsolute]
    · cases hcs : p.chars with
      | nil => exact absurd hcs hp
      | cons c cs => simp [hj, hcs, Path.isAbsolute]
  simp [start, hsame]

-- ---------------------------------------------------------------------------
-- Following steps
-- ---------------------------------------------------------------------------

theorem followAll_cons {piece : List Char} {rest : List (List Char)} :
    disk.followAll place (piece :: rest) = .ok next ↔
      ∃ there, disk.follow place piece = .ok there ∧ disk.followAll there rest = .ok next := by
  rw [followAll]
  cases disk.follow place piece <;> simp

theorem followAll_append {xs ys : List (List Char)} :
    disk.followAll place (xs ++ ys) = .ok next ↔
      ∃ there, disk.followAll place xs = .ok there ∧ disk.followAll there ys = .ok next := by
  induction xs generalizing place with
  | nil => simp [followAll]
  | cons piece xs ih =>
    simp only [List.cons_append, followAll_cons, ih]
    constructor
    · rintro ⟨a, ha, b, hb, hn⟩
      exact ⟨b, ⟨a, ha, hb⟩, hn⟩
    · rintro ⟨b, ⟨a, ha, hb⟩, hn⟩
      exact ⟨a, ha, b, hb, hn⟩

theorem followAll_dropWhile {ps : List (List Char)} (h : disk.followAll place ps = .ok next) :
    disk.followAll place (ps.dropWhile (· == ['.'])) = .ok next := by
  induction ps with
  | nil => exact h
  | cons p ps ih =>
    by_cases hp : p = ['.']
    · subst hp
      obtain ⟨there, hthere, hrest⟩ := followAll_cons.mp h
      obtain rfl : place = there := by
        unfold follow at hthere
        split at hthere
        · cases hthere
        · cases hthere
        · simpa using hthere
      simpa using ih hrest
    · simpa [hp] using h

theorem follow_name {name : String} (hn : IsName name)
    (h : disk.follow place name.toList = .ok next) : next = place ++ [name] := by
  unfold follow at h
  split at h
  · cases h
  · cases h
  · rw [if_neg hn.toList_ne_dot, if_neg hn.toList_ne_dots] at h
    split at h
    · cases h
    · simpa [Place.down, eq_comm] using h

theorem followAll_names (hn : ∀ name ∈ names, IsName name)
    (h : disk.followAll place (names.map String.toList) = .ok next) : next = place ++ names := by
  induction names generalizing place with
  | nil => simpa [followAll, eq_comm] using h
  | cons name names ih =>
    obtain ⟨there, hthere, hrest⟩ := followAll_cons.mp h
    obtain rfl := follow_name (hn name List.mem_cons_self) hthere
    rw [ih (fun n hm => hn n (List.mem_cons_of_mem _ hm)) hrest]
    simp

theorem read_eq_ok {content : ByteArray} (h : disk.read p = .ok content) :
    ∃ place, disk.followAll (start p) (steps p) = .ok place ∧
      disk.node? place = some (.file content) := by
  unfold read at h
  split at h
  · cases h
  · cases h
  · next hl =>
    cases h
    unfold lookup at hl
    split at hl
    · cases hl
    · split at hl
      · cases hl
      · next place hplace =>
        refine ⟨place, hplace, ?_⟩
        split at hl
        · cases hl
        · next hnode =>
          split at hl
          · cases hl
          · cases hl
            exact hnode
        · cases hl

theorem isFixed_concat {name : String} (hn : IsName name) (place : Place) :
    Place.isFixed (place ++ [name]) = false := by
  have hsingle : place ++ [name] ≠ ["/"] := by
    intro heq
    obtain ⟨-, hname⟩ := List.append_inj' (heq.trans (List.nil_append _).symm) rfl
    exact hn.ne_slash (List.singleton_inj.mp hname)
  simp [Place.isFixed, hsingle, hn.ne_dots]

/-- Whatever stands under a name is one of the entries of the disk. -/
theorem mem_entries_of_node? {node : Node} {name : String} (hn : IsName name)
    (h : disk.node? (place ++ [name]) = some node) : (place ++ [name], node) ∈ disk.entries := by
  rw [node?, isFixed_concat hn] at h
  obtain ⟨before, after, hsplit, -⟩ := List.lookup_eq_some_iff.mp h
  simp [hsplit]

end Disk

namespace Java

variable {disk : Disk} {root base : Path} {roots files : List Path} {directory : Place}
  {names : List String} {sources : List (SourceLocation × String)}

-- ---------------------------------------------------------------------------
-- The search base of a root
-- ---------------------------------------------------------------------------

theorem filter_dropWhile_dots {ps : List (List Char)}
    (h : (ps.dropWhile (· == ['.'])).head? ≠ some []) :
    (ps.dropWhile (· == ['.'])).filter (· != []) =
      (ps.filter (· != [])).dropWhile (· == ['.']) := by
  induction ps with
  | nil => rfl
  | cons p ps ih =>
    by_cases hp : p = ['.']
    · subst hp
      simpa using ih (by simpa using h)
    · have hne : p ≠ [] := by
        rintro rfl
        simp at h
      simp [hp, hne]

/-- What is cut off the end of a text are slashes. -/
theorem exists_slashes (cs : List Char) : ∃ slashes : List Char, (∀ c ∈ slashes, c = '/') ∧
    cs = (cs.reverse.dropWhile (· == '/')).reverse ++ slashes := by
  refine ⟨(cs.reverse.takeWhile (· == '/')).reverse, fun c hc => ?_, ?_⟩
  · simpa using List.mem_takeWhile_imp (List.mem_reverse.mp hc)
  · rw [← List.reverse_append, List.takeWhile_append_dropWhile, List.reverse_reverse]

/-- A text that starts with an empty piece is empty, or starts with a slash. -/
theorem eq_nil_of_head?_pieces {cs : List Char} (h : (pieces '/' cs).head? = some []) :
    cs = [] ∨ ∃ ds, cs = '/' :: ds := by
  cases cs with
  | nil => exact .inl rfl
  | cons c cs =>
    by_cases hc : c = '/'
    · exact .inr ⟨cs, by rw [hc]⟩
    · rw [pieces, if_neg hc] at h
      split at h <;> cases h

theorem chars_searchBase? (h : searchBase? root = some base) :
    (root.isAbsolute = true ∧ base = .ofChars ('/' :: joinChars ['/'] (Disk.steps root))) ∨
    (root.isAbsolute = false ∧
      base = .ofChars (joinChars ['/'] ((Disk.steps root).dropWhile (· == ['.'])))) := by
  obtain ⟨cs, hcs⟩ : ∃ cs, cs = (root.chars.reverse.dropWhile (· == '/')).reverse := ⟨_, rfl⟩
  obtain ⟨slashes, hslashes, hsplit⟩ := exists_slashes root.chars
  rw [← hcs] at hsplit
  have hsteps : (pieces '/' cs).filter (· != []) = Disk.steps root := by
    have htrim := Disk.steps_append_slashes cs hslashes
    rw [← hsplit, Path.ofChars_chars] at htrim
    rw [htrim, Disk.steps, Path.chars_ofChars]
  simp only [searchBase?, ← hcs] at h
  cases habs : root.isAbsolute with
  | true =>
    rw [habs, if_pos rfl, hsteps] at h
    exact .inl ⟨rfl, (Option.some.inj h).symm⟩
  | false =>
    rw [habs, if_neg (by simp)] at h
    split at h
    · cases h
    · next hnone =>
      refine .inr ⟨rfl, ?_⟩
      rw [← Option.some.inj h, ← hsteps]
      by_cases hhead : ((pieces '/' cs).dropWhile (· == ['.'])).head? = some []
      · have hwhole : (pieces '/' cs).dropWhile (· == ['.']) = pieces '/' cs := by
          refine (List.dropWhile_suffix _).eq_of_length_le ?_
          simpa [hhead] using hnone
        rw [hwhole] at hhead ⊢
        rcases eq_nil_of_head?_pieces hhead with hnil | ⟨ds, hds⟩
        · rw [hnil]
          rfl
        · simp [Path.isAbsolute, hsplit, hds] at habs
      · rw [filter_dropWhile_dots hhead]

theorem ne_dot_of_dropWhile {ps : List (List Char)} {q : List Char} {qs : List (List Char)}
    (h : ps.dropWhile (· == ['.']) = q :: qs) : q ≠ ['.'] := by
  have hhead := List.head?_dropWhile_not (· == ['.']) ps
  rw [h] at hhead
  simpa using hhead

theorem anchor_searchBase? (h : searchBase? root = some base) :
    Path.anchor base.chars = if root.isAbsolute then ['/'] else [] := by
  obtain ⟨habs, rfl⟩ | ⟨habs, rfl⟩ := chars_searchBase? h
  · simp [habs, Path.anchor, Path.cutAnchor]
  · rw [habs, if_neg (by simp), Path.chars_ofChars]
    cases hq : (Disk.steps root).dropWhile (· == ['.']) with
    | nil => rfl
    | cons q qs =>
      have hmem : q ∈ Disk.steps root := (List.dropWhile_suffix _).subset (hq ▸ List.mem_cons_self)
      obtain ⟨hne, hslash⟩ := Disk.mem_steps hmem
      rw [Path.anchor_joinChars hne]
      refine Path.anchor_of_ofPiece? hslash ?_
      rw [Option.isSome_iff_ne_none, Ne, Path.ofPiece?_eq_none_iff]
      simp [hne, ne_dot_of_dropWhile hq]

theorem steps_searchBase? (h : searchBase? root = some base) :
    Disk.steps base = if root.isAbsolute then Disk.steps root
      else (Disk.steps root).dropWhile (· == ['.']) := by
  obtain ⟨habs, rfl⟩ | ⟨habs, rfl⟩ := chars_searchBase? h
  · rw [habs, if_pos rfl, Disk.steps_slash, Disk.steps_joinChars fun p => Disk.mem_steps]
  · rw [habs, if_neg (by simp), Disk.steps_joinChars]
    exact fun p hp => Disk.mem_steps ((List.dropWhile_suffix _).subset hp)

theorem filterMap_dropWhile_dots (ps : List (List Char)) :
    (ps.dropWhile (· == ['.'])).filterMap Component.ofPiece? = ps.filterMap Component.ofPiece? := by
  induction ps with
  | nil => rfl
  | cons p ps ih =>
    by_cases hp : p = ['.']
    · subst hp
      simpa [Component.ofPiece?] using ih
    · simp [hp]

theorem components_searchBase? (h : searchBase? root = some base) :
    base.components = root.components.filter (· ≠ .current) := by
  have hsegments : Path.segments base.chars = Path.segments root.chars := by
    rw [Disk.segments_eq, Disk.segments_eq, steps_searchBase? h]
    split
    · rfl
    · exact filterMap_dropWhile_dots _
  have hordinary : (Path.segments root.chars).filter (· ≠ .current) =
      Path.segments root.chars := by
    refine List.filter_eq_self.mpr fun c hc => ?_
    have hc := Path.ordinary_of_mem_segments hc
    have hne : c ≠ .current := by
      rintro rfl
      exact hc
    simpa using hne
  rw [Path.components_eq base, Path.components_eq root, List.filter_append, hordinary, hsegments,
    anchor_searchBase? h]
  congr 1
  cases habs : root.isAbsolute with
  | true =>
    rw [Path.isAbsolute_iff.mp habs]
    rfl
  | false =>
    have hanchor : Path.anchor root.chars ≠ ['/'] := by
      rw [Ne, ← Path.isAbsolute_iff, habs]
      simp
    by_cases hdot : Path.anchor root.chars = ['.']
    · rw [hdot]
      rfl
    · simp [Path.anchorComponents, hanchor, hdot]

/-- The names below a directory lead from the search base of a root to where they lead from the
root itself. -/
theorem followAll_join_searchBase? {next : Place} (h : searchBase? root = some base)
    (hplace : disk.followAll (Disk.start root) (Disk.steps root) = .ok directory)
    (hn : ∀ name ∈ names, IsName name)
    (hnext : disk.followAll (Disk.start (base.join (.ofComponents (names.map .normal))))
      (Disk.steps (base.join (.ofComponents (names.map .normal)))) = .ok next) :
    next = directory ++ names := by
  have hordinary := Path.ordinary_of_mem_names hn
  have hrelative : (Path.ofComponents (names.map .normal)).isAbsolute = false := by
    rw [← Bool.not_eq_true, Path.isAbsolute_iff, Path.anchor_ofComponents hordinary]
    simp
  have hstart : Disk.start base = Disk.start root := by
    have hanchor := anchor_searchBase? h
    have hsame : base.isAbsolute = root.isAbsolute := by
      rw [Bool.eq_iff_iff, Path.isAbsolute_iff, hanchor]
      cases root.isAbsolute <;> simp
    simp [Disk.start, hsame]
  have hbase : disk.followAll (Disk.start base) (Disk.steps base) = .ok directory := by
    rw [hstart, steps_searchBase? h]
    split
    · exact hplace
    · exact Disk.followAll_dropWhile hplace
  rw [Disk.start_join hrelative, Disk.steps_join hrelative, Disk.followAll_append] at hnext
  obtain ⟨there, hthere, hnext⟩ := hnext
  obtain rfl : directory = there := Except.ok.inj (hbase.symm.trans hthere)
  rw [Disk.steps_ofComponents hordinary, List.map_map] at hnext
  exact Disk.followAll_names hn hnext

-- ---------------------------------------------------------------------------
-- The files of a root
-- ---------------------------------------------------------------------------

theorem leadDown_of_isName (hne : names ≠ []) (hn : ∀ name ∈ names, IsName name) :
    leadDown names = true := by
  cases names with
  | nil => exact absurd rfl hne
  | cons first rest =>
    have hfirst := hn first List.mem_cons_self
    simp [leadDown, hfirst.ne_dots, hfirst.ne_slash]

theorem ofComponents_names (names : List String) :
    Path.ofComponents (names.map .normal) = ⟨Text.join "/" names⟩ := by
  simp [Path.ofComponents, Component.text, Function.comp_def]

theorem mem_filesBelow {name : String} {node : Node} (base : Path)
    (hentry : (directory ++ (names ++ [name]), node) ∈ disk.entries)
    (hn : ∀ n ∈ names ++ [name], IsName n) (hsource : isSourceName name = true) :
    base.join (.ofComponents ((names ++ [name]).map .normal)) ∈ filesBelow disk base directory := by
  have hmem : names ++ [name] ∈ sourcesBelow disk directory := by
    refine List.mem_filterMap.mpr ⟨_, hentry, ?_⟩
    have hdown : leadDown (names ++ [name]) = true := leadDown_of_isName (by simp) hn
    have hbelow : below? directory (directory ++ (names ++ [name])) = some (names ++ [name]) := by
      simp [below?]
    simp [hdown, hbelow, hsource]
  rw [filesBelow, List.mem_mergeSort, ofComponents_names]
  exact List.mem_map_of_mem hmem

theorem discover_of_isDirectory (hdir : disk.isDirectory root = true)
    (hbase : searchBase? root = some base)
    (hplace : disk.followAll (Disk.start root) (Disk.steps root) = .ok directory) :
    discover disk root = .ok (filesBelow disk base directory) := by
  have hfile : disk.isFile root = false := by
    unfold Disk.isDirectory at hdir
    unfold Disk.isFile
    split at hdir
    · next hl => simp [hl]
    · cases hdir
  simp [discover, hfile, hdir, hbase, hplace]

theorem readSource_eq_ok {file : Path} {source : SourceLocation × String}
    (h : readSource disk root file = .ok source) :
    ∃ content text, disk.read file = .ok content ∧ String.fromUTF8? content = some text ∧
      source = (⟨root, file⟩, text) := by
  unfold readSource at h
  split at h
  · cases h
  · next content hread =>
    split at h
    · next text htext =>
      cases h
      exact ⟨content, text, hread, htext, rfl⟩
    · cases h

theorem readSources_eq_mapM (files : List Path) :
    readSources disk root files = files.mapM (readSource disk root) := by
  induction files with
  | nil => rfl
  | cons file files ih =>
    rw [readSources, ih, List.mapM_cons]
    cases readSource disk root file with
    | error e => rfl
    | ok source => cases files.mapM (readSource disk root) <;> rfl

theorem readSources_reads (h : readSources disk root files = .ok sources)
    {file : Path} (hfile : file ∈ files) :
    ∃ source ∈ sources, readSource disk root file = .ok source := by
  rw [readSources_eq_mapM, mapM_eq_ok_iff] at h
  exact exists_left_of_forall₂ h.flip hfile

def scanRoot (disk : Disk) (root : Path) : Except ScanError (List (SourceLocation × String)) :=
  match discover disk root with
  | .error e => .error e
  | .ok files => readSources disk root files

theorem scanRoots_eq_mapM (disk : Disk) (roots : List Path) :
    scanRoots disk roots = (roots.mapM (scanRoot disk)).map List.flatten := by
  induction roots with
  | nil => rfl
  | cons root roots ih =>
    rw [scanRoots, ih, List.mapM_cons, scanRoot]
    cases discover disk root with
    | error e => rfl
    | ok files =>
      cases hread : readSources disk root files with
      | error e => simp only [hread]; rfl
      | ok part =>
        simp only [hread]
        cases roots.mapM (scanRoot disk) <;> rfl

theorem scanRoots_root (h : scanRoots disk roots = .ok sources) (hroot : root ∈ roots) :
    ∃ files own, discover disk root = .ok files ∧ readSources disk root files = .ok own ∧
      own ⊆ sources := by
  rw [scanRoots_eq_mapM] at h
  cases hparts : roots.mapM (scanRoot disk) with
  | error e =>
    rw [hparts] at h
    cases h
  | ok parts =>
    rw [hparts] at h
    cases h
    obtain ⟨own, hmem, hown⟩ := exists_left_of_forall₂ (mapM_eq_ok_iff.mp hparts).flip hroot
    unfold scanRoot at hown
    split at hown
    · cases hown
    · next files hfiles =>
      exact ⟨files, own, hfiles, hown, fun source hs => List.mem_flatten.mpr ⟨own, hmem, hs⟩⟩

/-- A source file below a root is read with its own content. -/
theorem scanRoots_reads {name : String} {content : ByteArray}
    (h : scanRoots disk roots = .ok sources) (hroot : root ∈ roots)
    (hdir : disk.isDirectory root = true) (hbase : searchBase? root = some base)
    (hplace : disk.followAll (Disk.start root) (Disk.steps root) = .ok directory)
    (hfile : disk.node? (directory ++ (names ++ [name])) = some (.file content))
    (hn : ∀ n ∈ names ++ [name], IsName n) (hsource : isSourceName name = true) :
    ∃ text, disk.read (base.join (.ofComponents ((names ++ [name]).map .normal))) = .ok content ∧
      String.fromUTF8? content = some text ∧
      (⟨root, base.join (.ofComponents ((names ++ [name]).map .normal))⟩, text) ∈ sources := by
  obtain ⟨files, own, hfiles, hown, hsub⟩ := scanRoots_root h hroot
  obtain rfl : filesBelow disk base directory = files :=
    Except.ok.inj ((discover_of_isDirectory hdir hbase hplace).symm.trans hfiles)
  have hentry : (directory ++ (names ++ [name]), Node.file content) ∈ disk.entries := by
    rw [← List.append_assoc] at hfile ⊢
    exact Disk.mem_entries_of_node? (hn name (by simp)) hfile
  obtain ⟨source, hmem, hread⟩ := readSources_reads hown (mem_filesBelow base hentry hn hsource)
  obtain ⟨content', text, hcontent, htext, rfl⟩ := readSource_eq_ok hread
  obtain ⟨place, hfollow, hnode⟩ := Disk.read_eq_ok hcontent
  obtain rfl := followAll_join_searchBase? hbase hplace hn hfollow
  obtain rfl : content = content' := by simpa using hfile.symm.trans hnode
  exact ⟨text, hcontent, htext, hsub hmem⟩

end Java

end TypeWeave
