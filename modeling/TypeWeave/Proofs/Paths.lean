import Mathlib.Data.List.Induction
import TypeWeave.Path.Basic

/-!
# Components of paths

What a path means is its anchor, a leading `/` or `.`, and the components between its slashes. An
anchor leaves no other component behind, so both can be read off the whole text
(`Path.components_eq`). Joining paths appends their components (`Path.components_join`), the parent
of a path has all but the last (`Path.components_parent?`), and a file name is the last
(`Path.fileName?_of_components`).
-/

namespace TypeWeave

namespace Text

variable {sep : Char} {p : List Char} {ps : List (List Char)}

theorem pieces_append (sep : Char) (cs ds : List Char) :
    pieces sep (cs ++ sep :: ds) = pieces sep cs ++ pieces sep ds := by
  induction cs with
  | nil => simp [pieces]
  | cons c cs ih =>
    simp only [List.cons_append, pieces, ih]
    split
    · rfl
    · cases hp : pieces sep cs with
      | nil => exact absurd hp (pieces_ne_nil sep cs)
      | cons p ps => rfl

theorem pieces_of_notMem (h : sep ∉ p) : pieces sep p = [p] := by
  induction p with
  | nil => rfl
  | cons c cs ih =>
    simp only [List.mem_cons, not_or] at h
    rw [pieces, if_neg (Ne.symm h.1), ih h.2]

theorem notMem_of_mem_pieces {cs : List Char} (h : p ∈ pieces sep cs) : sep ∉ p := by
  induction cs generalizing p with
  | nil =>
    obtain rfl := List.mem_singleton.mp h
    simp
  | cons c cs ih =>
    rw [pieces] at h
    split at h
    · rcases List.mem_cons.mp h with rfl | h
      · simp
      · exact ih h
    · next hc =>
      cases hp : pieces sep cs with
      | nil => exact absurd hp (pieces_ne_nil sep cs)
      | cons q qs =>
        rw [hp] at h ih
        rcases List.mem_cons.mp h with rfl | h
        · simp only [List.mem_cons, not_or]
          exact ⟨Ne.symm hc, ih List.mem_cons_self⟩
        · exact ih (List.mem_cons_of_mem _ h)

theorem pieces_joinChars (hne : ps ≠ []) (h : ∀ p ∈ ps, sep ∉ p) :
    pieces sep (joinChars [sep] ps) = ps := by
  induction ps with
  | nil => exact absurd rfl hne
  | cons p ps ih =>
    have hp : pieces sep p = [p] := pieces_of_notMem (h p List.mem_cons_self)
    cases ps with
    | nil => exact hp
    | cons q qs =>
      have hrest := ih (List.cons_ne_nil q qs) fun x hx => h x (List.mem_cons_of_mem _ hx)
      rw [joinChars, List.append_assoc, List.singleton_append, pieces_append, hp, hrest]
      rfl

theorem toList_join (sep : String) (ss : List String) :
    (join sep ss).toList = joinChars sep.toList (ss.map String.toList) := by
  induction ss with
  | nil => rfl
  | cons s ss ih =>
    cases ss with
    | nil => rfl
    | cons t ss => simpa [join, joinChars] using ih

end Text

open Text (pieces joinChars)

structure IsName (name : String) : Prop where
  ne_empty : name ≠ ""
  ne_dot : name ≠ "."
  ne_dots : name ≠ ".."
  slash_notMem : '/' ∉ name.toList

instance : DecidablePred IsName := fun name =>
  decidable_of_iff (name ≠ "" ∧ name ≠ "." ∧ name ≠ ".." ∧ '/' ∉ name.toList)
    ⟨fun ⟨h₁, h₂, h₃, h₄⟩ => ⟨h₁, h₂, h₃, h₄⟩, fun ⟨h₁, h₂, h₃, h₄⟩ => ⟨h₁, h₂, h₃, h₄⟩⟩

namespace IsName

variable {name : String}

theorem toList_ne_nil (h : IsName name) : name.toList ≠ [] := by
  simpa using h.ne_empty

theorem toList_ne_dot (h : IsName name) : name.toList ≠ ['.'] :=
  fun hdot => h.ne_dot (String.toList_inj.mp hdot)

theorem toList_ne_dots (h : IsName name) : name.toList ≠ ['.', '.'] :=
  fun hdots => h.ne_dots (String.toList_inj.mp hdots)

theorem ne_slash (h : IsName name) : name ≠ "/" := by
  rintro rfl
  exact h.slash_notMem (by decide)

end IsName

namespace Component

variable {c : Component} {piece : List Char} {name : String}

/-- The component is `..` or the name of something in a directory. -/
def Ordinary : Component → Prop
  | parent => True
  | normal name => IsName name
  | root | current => False

theorem ofPiece?_of_isName (h : IsName name) : ofPiece? name.toList = some (normal name) := by
  simp [ofPiece?, h.toList_ne_nil, h.toList_ne_dot, h.toList_ne_dots]

theorem Ordinary.ofPiece?_text (h : c.Ordinary) : ofPiece? c.text.toList = some c := by
  cases c with
  | parent => rfl
  | normal name => exact ofPiece?_of_isName h
  | _ => cases h

theorem Ordinary.slash_notMem_text (h : c.Ordinary) : '/' ∉ c.text.toList := by
  cases c with
  | parent => decide
  | normal name => exact h.slash_notMem
  | _ => cases h

theorem Ordinary.text_ne_nil (h : c.Ordinary) : c.text.toList ≠ [] := by
  intro hnil
  simpa [hnil, ofPiece?] using h.ofPiece?_text

theorem ordinary_of_ofPiece? (h : ofPiece? piece = some c) (hs : '/' ∉ piece) : c.Ordinary := by
  unfold ofPiece? at h
  split at h
  · cases h
  · next hidle =>
    split at h
    · cases h
      trivial
    · next hdots =>
      cases h
      simp only [Bool.or_eq_true, decide_eq_true_eq, not_or] at hidle
      refine ⟨?_, ?_, ?_, by simpa using hs⟩
      · exact fun h => hidle.1 (by simpa using h)
      · exact fun h => hidle.2 (by simpa using congrArg String.toList h)
      · exact fun h => hdots (by simpa using congrArg String.toList h)

theorem eq_toList_of_ofPiece? (h : ofPiece? piece = some (normal name)) :
    piece = name.toList ∧ piece ≠ ['.', '.'] := by
  unfold ofPiece? at h
  split at h
  · cases h
  · split at h
    · cases h
    · next hdots =>
      cases h
      exact ⟨by simp, hdots⟩

theorem Ordinary.isRelative (h : c.Ordinary) : c.isRelative = true := by
  cases c with
  | parent | normal => rfl
  | _ => cases h

end Component

namespace Path

variable {p q : Path} {cs ds : List Char} {ps qs : List (List Char)} {c : Component}

-- ---------------------------------------------------------------------------
-- Anchor and segments
-- ---------------------------------------------------------------------------

def anchor (cs : List Char) : List Char := (cutAnchor cs).1

def segments (cs : List Char) : List Component := (pieces '/' cs).filterMap Component.ofPiece?

@[simp] theorem chars_ofChars (cs : List Char) : (ofChars cs).chars = cs := by
  simp [ofChars, chars]

@[simp] theorem ofChars_chars (p : Path) : ofChars p.chars = p := by
  simp [ofChars, chars]

theorem segments_append (cs ds : List Char) :
    segments (cs ++ '/' :: ds) = segments cs ++ segments ds := by
  simp [segments, Text.pieces_append]

@[simp] theorem segments_nil : segments [] = [] := rfl

@[simp] theorem segments_slash (cs : List Char) : segments ('/' :: cs) = segments cs :=
  segments_append [] cs

theorem segments_joinChars (h : ∀ p ∈ ps, '/' ∉ p) :
    segments (joinChars ['/'] ps) = ps.filterMap Component.ofPiece? := by
  cases ps with
  | nil => rfl
  | cons p ps => rw [segments, Text.pieces_joinChars (List.cons_ne_nil p ps) h]

theorem ordinary_of_mem_segments (h : c ∈ segments cs) : c.Ordinary := by
  obtain ⟨piece, hp, hc⟩ := List.mem_filterMap.mp h
  exact Component.ordinary_of_ofPiece? hc (Text.notMem_of_mem_pieces hp)

theorem anchorComponents_cases (a : List Char) :
    anchorComponents a = [.root] ∨ anchorComponents a = [.current] ∨ anchorComponents a = [] := by
  unfold anchorComponents
  split
  · exact .inl rfl
  · split
    · exact .inr (.inl rfl)
    · exact .inr (.inr rfl)

theorem isRelative_of_mem_anchorComponents {a : List Char} (h : c ∈ anchorComponents a) :
    c.isRelative = false := by
  rcases anchorComponents_cases a with ha | ha | ha
  · cases List.mem_singleton.mp (ha ▸ h)
    rfl
  · cases List.mem_singleton.mp (ha ▸ h)
    rfl
  · simp [ha] at h

/-- How a text starts: with a slash, with a piece that is `.`, or else without an anchor. -/
theorem cutAnchor_cases (cs : List Char) :
    (∃ body, cs = '/' :: body ∧ cutAnchor cs = (['/'], body)) ∨
    (∃ body, cs = '.' :: body ∧ (body = [] ∨ ∃ rest, body = '/' :: rest) ∧
      cutAnchor cs = (['.'], body)) ∨
    cutAnchor cs = ([], cs) := by
  fun_cases cutAnchor cs with
  | case1 body => exact .inl ⟨body, rfl, rfl⟩
  | case2 => exact .inr (.inl ⟨[], rfl, .inl rfl, rfl⟩)
  | case3 rest => exact .inr (.inl ⟨_, rfl, .inr ⟨rest, rfl⟩, rfl⟩)
  | case4 => exact .inr (.inr rfl)

theorem components_eq (p : Path) :
    p.components = anchorComponents (anchor p.chars) ++ segments p.chars := by
  unfold components anchor
  obtain ⟨body, hcs, hcut⟩ | ⟨body, hcs, hbody, hcut⟩ | hcut := cutAnchor_cases p.chars
  · rw [hcut, hcs, segments_slash]
    rfl
  · rw [hcut, hcs]
    rcases hbody with rfl | ⟨rest, rfl⟩
    · rfl
    · exact congrArg _ (segments_append ['.'] rest).symm
  · simp only [hcut]
    rfl

theorem ordinary_of_mem_components (h : c ∈ p.components) (hc : c.isRelative = true) :
    c.Ordinary := by
  rw [components_eq, List.mem_append] at h
  rcases h with h | h
  · rw [isRelative_of_mem_anchorComponents h] at hc
    cases hc
  · exact ordinary_of_mem_segments h

/-- Only in front is `.` a component. -/
theorem current_notMem_tail {cs : List Component} (h : p.components = c :: cs) : .current ∉ cs := by
  have hsegments : Component.current ∉ segments p.chars :=
    fun hmem => ordinary_of_mem_segments hmem
  rw [components_eq] at h
  rcases anchorComponents_cases (anchor p.chars) with ha | ha | ha
  · rw [ha] at h
    cases h
    exact hsegments
  · rw [ha] at h
    cases h
    exact hsegments
  · rw [ha, List.nil_append] at h
    rw [h] at hsegments
    exact fun hmem => hsegments (List.mem_cons_of_mem _ hmem)

theorem anchor_append (h : cs ≠ []) (ds : List Char) : anchor (cs ++ '/' :: ds) = anchor cs := by
  cases cs with
  | nil => exact absurd rfl h
  | cons c cs =>
    unfold anchor
    by_cases hslash : c = '/'
    · subst hslash
      rfl
    · by_cases hdot : c = '.'
      · subst hdot
        cases cs with
        | nil => rfl
        | cons d cs =>
          by_cases hd : d = '/'
          · subst hd
            rfl
          · simp [cutAnchor, hd]
      · simp [cutAnchor, hslash, hdot]

theorem anchor_joinChars {p : List Char} (h : p ≠ []) (ps : List (List Char)) :
    anchor (joinChars ['/'] (p :: ps)) = anchor p := by
  cases ps with
  | nil => rfl
  | cons q qs =>
    rw [joinChars, List.append_assoc, List.singleton_append]
    exact anchor_append h _

theorem anchor_of_ofPiece? {p : List Char} (hs : '/' ∉ p) (h : (Component.ofPiece? p).isSome) :
    anchor p = [] := by
  unfold anchor
  obtain ⟨body, rfl, -⟩ | ⟨body, rfl, rfl | ⟨rest, rfl⟩, -⟩ | hcut := cutAnchor_cases p
  · simp at hs
  · simp [Component.ofPiece?] at h
  · simp at hs
  · rw [hcut]

theorem isAbsolute_iff : p.isAbsolute = true ↔ anchor p.chars = ['/'] := by
  unfold isAbsolute anchor
  obtain ⟨body, hcs, hcut⟩ | ⟨body, hcs, -, hcut⟩ | hcut := cutAnchor_cases p.chars
  · rw [hcut, hcs]
    simp
  · rw [hcut, hcs]
    simp
  · rw [hcut]
    cases hcs : p.chars with
    | nil => simp
    | cons c cs =>
      have hne : c ≠ '/' := by
        rintro rfl
        simp [hcs, cutAnchor] at hcut
      simp [hne]

-- ---------------------------------------------------------------------------
-- Joining
-- ---------------------------------------------------------------------------

theorem components_append (h : cs ≠ []) (ds : List Char) :
    (ofChars (cs ++ '/' :: ds)).components = (ofChars cs).components ++ segments ds := by
  simp only [components_eq, chars_ofChars, anchor_append h, segments_append, List.append_assoc]

/-- How the text of a joined path comes about. A slash at the end of the first path is taken for the
one between them. -/
theorem chars_join (hq : q.isAbsolute = false) :
    (p.chars = [] ∧ p.join q = q) ∨
    (∃ cs, p.chars = cs ++ ['/'] ∧ p.join q = ofChars (cs ++ '/' :: q.chars)) ∨
    (p.chars ≠ [] ∧ p.join q = ofChars (p.chars ++ '/' :: q.chars)) := by
  simp only [join, hq, Bool.false_eq_true, if_false, Bool.or_eq_true, decide_eq_true_eq]
  by_cases hempty : p.text = ""
  · refine .inl ⟨by simp [chars, hempty], ?_⟩
    simp [hempty]
  · have hne : p.chars ≠ [] := by simpa [chars] using hempty
    by_cases hlast : p.chars.getLast? = some '/'
    · obtain ⟨cs, hcs⟩ := List.getLast?_eq_some_iff.mp hlast
      refine .inr (.inl ⟨cs, hcs, ?_⟩)
      rw [if_pos (.inr hlast), Path.mk.injEq, ← String.toList_inj]
      have htext : p.text.toList = cs ++ ['/'] := hcs
      simp [chars, ofChars, htext]
    · refine .inr (.inr ⟨hne, ?_⟩)
      rw [if_neg (by simp [hempty, hlast]), Path.mk.injEq, ← String.toList_inj]
      simp [chars, ofChars]

theorem components_join (hq : anchor q.chars = []) :
    (p.join q).components = p.components ++ q.components := by
  have hrelative : q.isAbsolute = false := by
    rw [← Bool.not_eq_true, isAbsolute_iff, hq]
    simp
  have hsegments : q.components = segments q.chars := by rw [components_eq, hq]; rfl
  rw [hsegments]
  obtain ⟨hp, hj⟩ | ⟨cs, hp, hj⟩ | ⟨hp, hj⟩ := chars_join (p := p) hrelative
  · rw [hj, hsegments, components_eq p, hp]
    rfl
  · rw [hj, ← ofChars_chars p, hp]
    cases cs with
    | nil => simp [components_eq, anchor, cutAnchor]
    | cons c cs =>
      have hne := List.cons_ne_nil c cs
      rw [components_append hne, components_append hne, segments_nil, List.append_nil]
  · rw [hj, components_append hp, ofChars_chars]

def ofComponents (cs : List Component) : Path := ⟨Text.join "/" (cs.map Component.text)⟩

theorem ordinary_of_mem_names {names : List String} (h : ∀ name ∈ names, IsName name) :
    ∀ c ∈ names.map Component.normal, c.Ordinary := by
  intro c hc
  obtain ⟨name, hname, rfl⟩ := List.mem_map.mp hc
  exact h name hname

section
variable {cs : List Component} (h : ∀ c ∈ cs, c.Ordinary)
include h

theorem filterMap_text :
    (cs.map fun c => c.text.toList).filterMap Component.ofPiece? = cs := by
  induction cs with
  | nil => rfl
  | cons c cs ih =>
    rw [List.map_cons, List.filterMap_cons_some (h c List.mem_cons_self).ofPiece?_text,
      ih fun x hx => h x (List.mem_cons_of_mem _ hx)]

theorem pieces_ofComponents (hne : cs ≠ []) :
    pieces '/' (ofComponents cs).chars = cs.map fun c => c.text.toList := by
  have hchars : (ofComponents cs).chars = joinChars ['/'] (cs.map fun c => c.text.toList) := by
    simp [ofComponents, chars, Text.toList_join, Function.comp_def]
  rw [hchars, Text.pieces_joinChars (by simpa using hne)]
  intro p hp
  obtain ⟨c, hc, rfl⟩ := List.mem_map.mp hp
  exact (h c hc).slash_notMem_text

theorem anchor_ofComponents : anchor (ofComponents cs).chars = [] := by
  cases hcs : cs with
  | nil => rfl
  | cons c cs' =>
    subst hcs
    have hc := h c List.mem_cons_self
    have hpieces := Text.join_pieces '/' (ofComponents (c :: cs')).chars
    rw [pieces_ofComponents h (List.cons_ne_nil c cs'), List.map_cons] at hpieces
    rw [← hpieces, anchor_joinChars hc.text_ne_nil]
    exact anchor_of_ofPiece? hc.slash_notMem_text (by simp [hc.ofPiece?_text])

theorem components_ofComponents : (ofComponents cs).components = cs := by
  rw [components_eq, anchor_ofComponents h]
  cases hcs : cs with
  | nil => rfl
  | cons c cs' =>
    rw [← hcs]
    rw [segments, pieces_ofComponents h (hcs ▸ List.cons_ne_nil c cs'), filterMap_text h]
    rfl

end

-- ---------------------------------------------------------------------------
-- Parents and file names
-- ---------------------------------------------------------------------------

theorem ofPiece?_eq_none_iff {piece : List Char} :
    Component.ofPiece? piece = none ↔ (piece = [] || piece = ['.']) = true := by
  unfold Component.ofPiece?
  split
  · next h => simp [h]
  · next h => split <;> simp [h]

theorem dropIdle_concat (ps : List (List Char)) (p : List Char) :
    dropIdle (ps ++ [p]) = if (Component.ofPiece? p).isSome then ps ++ [p] else dropIdle ps := by
  unfold dropIdle
  rw [List.reverse_append, List.reverse_singleton, List.singleton_append, List.dropWhile_cons]
  cases hp : Component.ofPiece? p with
  | none => simp [ofPiece?_eq_none_iff.mp hp]
  | some c =>
    have hidle : (p = [] || p = ['.']) = false := by
      rw [← Bool.not_eq_true, ← ofPiece?_eq_none_iff, hp]
      simp
    simp [hidle]

theorem dropIdle_isPrefix (ps : List (List Char)) : dropIdle ps <+: ps := by
  unfold dropIdle
  rw [← List.reverse_suffix, List.reverse_reverse]
  exact List.dropWhile_suffix _

/-- What is left out at the end has no component; what is then last has one. -/
theorem dropIdle_cases (ps : List (List Char)) :
    (dropIdle ps = [] ∧ ps.filterMap Component.ofPiece? = []) ∨
    ∃ before last c, dropIdle ps = before ++ [last] ∧ Component.ofPiece? last = some c ∧
      ps.filterMap Component.ofPiece? = before.filterMap Component.ofPiece? ++ [c] := by
  induction ps using List.reverseRecOn with
  | nil => exact .inl ⟨rfl, rfl⟩
  | append_singleton ps p ih =>
    rw [dropIdle_concat]
    cases hp : Component.ofPiece? p with
    | none => simpa [hp] using ih
    | some c => exact .inr ⟨ps, p, c, by simp, hp, by simp [hp]⟩

theorem filterMap_dropIdle (ps : List (List Char)) :
    (dropIdle ps).filterMap Component.ofPiece? = ps.filterMap Component.ofPiece? := by
  obtain ⟨hd, hf⟩ | ⟨before, last, c, hd, hc, hf⟩ := dropIdle_cases ps
  · rw [hd, hf]
    rfl
  · rw [hd, hf]
    simp [hc]

/-- Where a text has no anchor, the pieces from its start make up none either. -/
theorem anchor_joinChars_of_isPrefix (h : cutAnchor cs = ([], cs)) (hq : qs <+: pieces '/' cs) :
    anchor (joinChars ['/'] qs) = [] := by
  cases qs with
  | nil => rfl
  | cons q qs =>
    obtain ⟨tail, htail⟩ := hq
    have hcs := Text.join_pieces '/' cs
    rw [← htail, List.cons_append] at hcs
    by_cases hne : q = []
    · subst hne
      cases qs with
      | nil => rfl
      | cons q' qs =>
        simp [joinChars] at hcs
        simp [← hcs, cutAnchor] at h
    · rw [anchor_joinChars hne, ← anchor_joinChars hne, hcs]
      exact congrArg Prod.fst h

/-- Pieces from the start of a path, written behind its anchor, mean what they meant there. -/
theorem components_of_isPrefix {body a : List Char} (h : cutAnchor cs = (a, body))
    (hq : qs <+: pieces '/' body) :
    (ofChars (a ++ joinChars ['/'] qs)).components =
      anchorComponents a ++ qs.filterMap Component.ofPiece? := by
  have hslash : ∀ p ∈ qs, '/' ∉ p := fun p hp => Text.notMem_of_mem_pieces (hq.subset hp)
  rw [components_eq, chars_ofChars]
  obtain ⟨_, -, hcut⟩ | ⟨_, -, hbody, hcut⟩ | hcut := cutAnchor_cases cs
  · cases h.symm.trans hcut
    simp [anchor, cutAnchor, segments_joinChars hslash]
  · cases h.symm.trans hcut
    -- The first piece is the empty one between the anchor and the slash that follows.
    have hhead : ∃ rest, pieces '/' body = [] :: rest := by
      rcases hbody with rfl | ⟨rest, rfl⟩
      · exact ⟨[], rfl⟩
      · exact ⟨pieces '/' rest, by simp [pieces]⟩
    obtain ⟨rest, hrest⟩ := hhead
    rw [hrest] at hq
    cases qs with
    | nil => rfl
    | cons q qs =>
      obtain ⟨rfl, -⟩ := List.cons_prefix_cons.mp hq
      cases qs with
      | nil => rfl
      | cons q' qs =>
        have hjoin : ['.'] ++ joinChars ['/'] ([] :: q' :: qs) =
            ['.'] ++ '/' :: joinChars ['/'] (q' :: qs) := by simp [joinChars]
        rw [hjoin, anchor_append (by simp), segments_append,
          segments_joinChars fun p hp => hslash p (List.mem_cons_of_mem _ hp)]
        rfl
  · cases h.symm.trans hcut
    rw [List.nil_append, segments_joinChars hslash, anchor_joinChars_of_isPrefix hcut hq]

/-- The last component of a path, and the pieces before it. -/
theorem cutLast_cases (p : Path) :
    (∃ a, p.cutLast = (a, [], none) ∧ p.components = anchorComponents a) ∨
    ∃ a before last c, p.cutLast = (a, before, some last) ∧ Component.ofPiece? last = some c ∧
      '/' ∉ last ∧ p.components = anchorComponents a ++ before.filterMap Component.ofPiece? ++ [c] ∧
      (ofChars (a ++ joinChars ['/'] (dropIdle before))).components =
        anchorComponents a ++ before.filterMap Component.ofPiece? := by
  cases hcut : cutAnchor p.chars with
  | mk a body =>
    have hcomponents : p.components =
        anchorComponents a ++ (pieces '/' body).filterMap Component.ofPiece? := by
      simp [components, hcut]
    obtain ⟨hd, hf⟩ | ⟨before, last, c, hd, hc, hf⟩ := dropIdle_cases (pieces '/' body)
    · exact .inl ⟨a, by simp [cutLast, hcut, hd], by simp [hcomponents, hf]⟩
    · have hpre : before ++ [last] <+: pieces '/' body := hd ▸ dropIdle_isPrefix _
      refine .inr ⟨a, before, last, c, by simp [cutLast, hcut, hd], hc, ?_,
        by simp [hcomponents, hf], ?_⟩
      · exact Text.notMem_of_mem_pieces (hpre.subset (by simp))
      · rw [components_of_isPrefix hcut, filterMap_dropIdle]
        exact (dropIdle_isPrefix before).trans ((List.prefix_append before [last]).trans hpre)

theorem components_parent? (h : p.parent? = some q) : q.components = p.components.dropLast := by
  unfold parent? at h
  obtain ⟨a, hcut, hp⟩ | ⟨a, before, last, c, hcut, -, -, hp, hparent⟩ := cutLast_cases p
  · rw [hcut] at h
    by_cases ha : a = ['.']
    · subst ha
      obtain rfl : (⟨""⟩ : Path) = q := by simpa using h
      rw [hp]
      rfl
    · simp [ha] at h
  · rw [hcut] at h
    obtain rfl := Option.some.inj h
    rw [hparent, hp, List.dropLast_concat]

theorem cutLast_of_components {cs : List Component} (h : p.components = cs ++ [c])
    (hc : c.Ordinary) : ∃ a before last, p.cutLast = (a, before, some last) ∧
      Component.ofPiece? last = some c := by
  obtain ⟨a, -, hp⟩ | ⟨a, before, last, c', hcut, hlast, -, hp, -⟩ := cutLast_cases p
  · have hmem : c ∈ anchorComponents a := by simp [← hp, h]
    have hanchor := isRelative_of_mem_anchorComponents hmem
    rw [hc.isRelative] at hanchor
    cases hanchor
  · obtain ⟨-, hsame⟩ := List.append_inj' (h.symm.trans hp) rfl
    cases hsame
    exact ⟨a, before, last, hcut, hlast⟩

theorem parent?_of_components {cs : List Component} (h : p.components = cs ++ [c])
    (hc : c.Ordinary) : ∃ q, p.parent? = some q ∧ q.components = cs := by
  obtain ⟨a, before, last, hcut, -⟩ := cutLast_of_components h hc
  have hq : p.parent? = some (ofChars (a ++ joinChars ['/'] (dropIdle before))) := by
    simp [parent?, hcut]
  exact ⟨_, hq, by rw [components_parent? hq, h, List.dropLast_concat]⟩

theorem fileName?_of_components {cs : List Component} {name : String}
    (h : p.components = cs ++ [.normal name]) (hname : IsName name) :
    p.fileName? = some name.toList := by
  obtain ⟨a, before, last, hcut, hlast⟩ := cutLast_of_components h hname
  obtain ⟨rfl, hdots⟩ := Component.eq_toList_of_ofPiece? hlast
  simp [fileName?, hcut, hdots]

theorem slash_notMem_of_fileName? {name : List Char} (h : p.fileName? = some name) :
    '/' ∉ name := by
  obtain ⟨a, hcut, -⟩ | ⟨a, before, last, c, hcut, -, hs, -⟩ := cutLast_cases p
  · simp [fileName?, hcut] at h
  · by_cases hdots : last = ['.', '.']
    · simp [fileName?, hcut, hdots] at h
    · obtain rfl : last = name := by simpa [fileName?, hcut, hdots] using h
      exact hs

end Path

end TypeWeave
