import Mathlib.Data.List.TakeWhile
import TypeWeave.Path.Module
import TypeWeave.Proofs.Paths

/-!
# Paths without their extension

Where a file name is a stem, a dot and an extension, dropping the extension leaves a path that ends
in the stem, whatever slashes and dots are written behind the name
(`Path.components_dropExtension`). This fails for the stems `.` and `..`, which are no names. A `./`
in front of a relative path stays where it is (`Path.dropOutputExtension_dotted`).
-/

namespace TypeWeave

namespace Text

variable {sep : Char} {p : List Char}

/-- Between two texts the last piece of the one and the first of the other become one piece. -/
theorem exists_pieces_append (sep : Char) (cs ds : List Char) :
    ∃ before p q after, pieces sep cs = before ++ [p] ∧ pieces sep ds = q :: after ∧
      pieces sep (cs ++ ds) = before ++ (p ++ q) :: after := by
  induction cs with
  | nil =>
    obtain ⟨q, after, hds⟩ := List.exists_cons_of_ne_nil (pieces_ne_nil sep ds)
    exact ⟨[], [], q, after, rfl, hds, hds⟩
  | cons c cs ih =>
    obtain ⟨before, p, q, after, hcs, hds, hboth⟩ := ih
    by_cases hc : c = sep
    · exact ⟨[] :: before, p, q, after, by simp [pieces, hc, hcs], hds, by simp [pieces, hc, hboth]⟩
    · cases before with
      | nil => exact ⟨[], c :: p, q, after, by simp [pieces, hc, hcs], hds,
          by simp [pieces, hc, hboth]⟩
      | cons b before => exact ⟨(c :: b) :: before, p, q, after, by simp [pieces, hc, hcs], hds,
          by simp [pieces, hc, hboth]⟩

theorem joinChars_cons {ps : List (List Char)} (h : ps ≠ []) (sep p : List Char) :
    joinChars sep (p :: ps) = p ++ sep ++ joinChars sep ps := by
  obtain ⟨q, qs, rfl⟩ := List.exists_cons_of_ne_nil h
  rfl

theorem joinChars_isPrefix {s : List Char} (sep : List Char) (qs : List (List Char)) (h : s <+: p)
    (rest : List (List Char)) : joinChars sep (qs ++ [s]) <+: joinChars sep (qs ++ p :: rest) := by
  induction qs with
  | nil =>
    cases rest with
    | nil => exact h
    | cons q rest =>
      refine h.trans ?_
      rw [List.nil_append, joinChars_cons (List.cons_ne_nil q rest), List.append_assoc]
      exact List.prefix_append p _
  | cons q qs ih =>
    rw [List.cons_append, List.cons_append, joinChars_cons (by simp), joinChars_cons (by simp)]
    exact (List.prefix_append_right_inj _).mpr ih

theorem isInfix_joinChars (sep : List Char) {ps : List (List Char)} (h : p ∈ ps) :
    p <:+: joinChars sep ps := by
  induction ps with
  | nil => cases h
  | cons q qs ih =>
    cases qs with
    | nil =>
      obtain rfl := List.mem_singleton.mp h
      exact List.infix_refl p
    | cons r rest =>
      rw [joinChars]
      rcases List.mem_cons.mp h with rfl | h
      · exact ⟨[], sep ++ joinChars sep (r :: rest), by simp⟩
      · exact (ih h).trans (List.suffix_append _ _).isInfix

theorem mem_joinChars {sep : List Char} {ps : List (List Char)} {c : Char}
    (h : c ∈ joinChars sep ps) : c ∈ sep ∨ ∃ p ∈ ps, c ∈ p := by
  induction ps with
  | nil => cases h
  | cons q qs ih =>
    cases qs with
    | nil => exact .inr ⟨q, List.mem_cons_self, h⟩
    | cons r rest =>
      rw [joinChars, List.mem_append, List.mem_append] at h
      rcases h with (hq | hsep) | hrest
      · exact .inr ⟨q, List.mem_cons_self, hq⟩
      · exact .inl hsep
      · rcases ih hrest with hsep | ⟨p, hp, hc⟩
        · exact .inl hsep
        · exact .inr ⟨p, List.mem_cons_of_mem _ hp, hc⟩

theorem isInfix_of_mem_pieces {cs : List Char} (h : p ∈ pieces sep cs) : p <:+: cs :=
  join_pieces sep cs ▸ isInfix_joinChars [sep] h

end Text

open Text (pieces joinChars)

namespace Path

variable {p : Path} {name stem ext : List Char} {cs : List Component}

-- ---------------------------------------------------------------------------
-- Names with an extension
-- ---------------------------------------------------------------------------

theorem cutExtension_append (hstem : stem ≠ []) (hext : '.' ∉ ext) :
    cutExtension (stem ++ '.' :: ext) = (stem, some ext) := by
  have hnot : '.' ∉ ext.reverse := by simpa using hext
  have hrev : (stem ++ '.' :: ext).reverse = ext.reverse ++ '.' :: stem.reverse := by simp
  have htake : (stem ++ '.' :: ext).reverse.takeWhile (· != '.') = ext.reverse := by
    simp [hrev, Text.takeWhile_ne_append hnot]
  have hdrop : (stem ++ '.' :: ext).reverse.dropWhile (· != '.') = '.' :: stem.reverse := by
    have hall : ∀ c ∈ ext.reverse, (c != '.') = true := by
      intro c hc
      have hne : c ≠ '.' := fun h => hnot (h ▸ hc)
      simpa using hne
    rw [hrev, List.dropWhile_append_of_pos hall]
    simp
  obtain ⟨d, ds, hds⟩ := List.exists_cons_of_ne_nil (List.reverse_ne_nil_iff.mpr hstem)
  unfold cutExtension
  rw [htake, hdrop, hds]
  show ((d :: ds).reverse, some ext.reverse.reverse) = (stem, some ext)
  rw [← hds, List.reverse_reverse, List.reverse_reverse]

theorem cutExtension_eq_some_iff :
    cutExtension name = (stem, some ext) ↔ name = stem ++ '.' :: ext ∧ stem ≠ [] ∧ '.' ∉ ext := by
  constructor
  · intro h
    have hsplit := List.takeWhile_append_dropWhile (p := (· != '.')) (l := name.reverse)
    have hfirst := List.head?_dropWhile_not (· != '.') name.reverse
    unfold cutExtension at h
    split at h
    · cases h
    · cases h
    · next c rest hne hdrop =>
      obtain ⟨rfl, hext⟩ : rest.reverse = stem ∧
          (name.reverse.takeWhile (· != '.')).reverse = ext := by simpa using h
      rw [hdrop] at hsplit hfirst
      obtain rfl : c = '.' := by simpa using hfirst
      refine ⟨?_, fun hnil => hne rfl (by simpa using hnil), fun hmem => ?_⟩
      · rw [← List.reverse_reverse name, ← hsplit, ← hext]
        simp only [List.reverse_append, List.reverse_cons, List.append_assoc,
          List.singleton_append]
      · rw [← hext, List.mem_reverse] at hmem
        simpa using List.mem_takeWhile_imp hmem
  · rintro ⟨rfl, hstem, hext⟩
    exact cutExtension_append hstem hext

theorem cutExtension_of_extension? (h : p.extension? = some ext) :
    ∃ stem, p.fileName? = some (stem ++ '.' :: ext) ∧ p.stem? = some stem ∧
      cutExtension (stem ++ '.' :: ext) = (stem, some ext) := by
  obtain ⟨name, hname, hext⟩ := Option.bind_eq_some_iff.mp h
  have hcut : cutExtension name = ((cutExtension name).1, some ext) := Prod.ext rfl hext
  obtain ⟨hsplit, -, -⟩ := cutExtension_eq_some_iff.mp hcut
  refine ⟨(cutExtension name).1, hsplit ▸ hname, by simp [stem?, hname], ?_⟩
  rw [← hsplit]
  exact hcut

theorem components_of_fileName? (h : p.fileName? = some name) :
    ∃ cs, p.components = cs ++ [.normal (String.ofList name)] ∧ IsName (String.ofList name) := by
  obtain ⟨a, hcut, -⟩ | ⟨a, before, last, c, hcut, hlast, -, hp, -⟩ := cutLast_cases p
  · simp [fileName?, hcut] at h
  · by_cases hdots : last = ['.', '.']
    · simp [fileName?, hcut, hdots] at h
    · obtain rfl : last = name := by simpa [fileName?, hcut, hdots] using h
      unfold Component.ofPiece? at hlast
      split at hlast
      · cases hlast
      · obtain rfl := Option.some.inj hlast
        have hordinary : (Component.normal (String.ofList last)).Ordinary :=
          ordinary_of_mem_components (by rw [hp]; simp) rfl
        exact ⟨_, hp, hordinary⟩

-- ---------------------------------------------------------------------------
-- Cutting characters off the end
-- ---------------------------------------------------------------------------

theorem anchor_take {n : Nat} (h : 2 ≤ n) (cs : List Char) : anchor (cs.take n) = anchor cs := by
  obtain ⟨n, rfl⟩ := Nat.exists_eq_add_of_le' h
  match cs with
  | [] | [_] => rfl
  | c :: d :: cs =>
    rw [List.take_succ_cons, List.take_succ_cons]
    by_cases hslash : c = '/'
    · subst hslash
      rfl
    · by_cases hdot : c = '.' ∧ d = '/'
      · obtain ⟨rfl, rfl⟩ := hdot
        rfl
      · unfold anchor
        simp_all [cutAnchor]

/-- A cut that takes no more than the extension stays behind the dot. -/
theorem exists_extension_of_append {q r : List Char} (h : q ++ r = stem ++ '.' :: ext)
    (hr : r.length ≤ ext.length) : ∃ e, e <+: ext ∧ q = stem ++ '.' :: e := by
  have hq : q ++ r = (stem ++ ['.']) ++ ext := by simpa using h
  obtain ⟨x, hstem, hrest⟩ | ⟨e, hstem, hrest⟩ := List.append_eq_append_iff.mp hq
  · obtain rfl : x = [] := by
      rw [hrest, List.length_append] at hr
      exact List.eq_nil_of_length_eq_zero (by omega)
    exact ⟨[], List.nil_prefix, by simpa using hstem.symm⟩
  · exact ⟨e, ⟨r, hrest.symm⟩, by simpa using hstem⟩

theorem ofPiece?_of_append {q r : List Char} (h : Component.ofPiece? (q ++ r) = none) :
    Component.ofPiece? q = none := by
  simp only [ofPiece?_eq_none_iff, Bool.or_eq_true, decide_eq_true_eq] at h ⊢
  rcases h with h | h
  · exact .inl (List.append_eq_nil_iff.mp h).1
  · exact (List.append_eq_singleton_iff.mp h).imp (·.1) (·.1)

section
variable (hne : stem ≠ []) (hdot : stem ≠ ['.'])
include hne hdot

theorem ofPiece?_withExtension (ext : List Char) :
    Component.ofPiece? (stem ++ '.' :: ext) =
      some (.normal (String.ofList (stem ++ '.' :: ext))) := by
  obtain ⟨c, rest, rfl⟩ := List.exists_cons_of_ne_nil hne
  cases rest with
  | nil =>
    have hc : c ≠ '.' := fun h => hdot (by rw [h])
    simp [Component.ofPiece?, hc]
  | cons d rest => simp [Component.ofPiece?]

theorem filterMap_name_append (before : List (List Char)) {idle : List (List Char)}
    (hidle : idle.filterMap Component.ofPiece? = []) (ext : List Char) :
    (before ++ (stem ++ '.' :: ext) :: idle).filterMap Component.ofPiece? =
      before.filterMap Component.ofPiece? ++ [.normal (String.ofList (stem ++ '.' :: ext))] := by
  rw [List.filterMap_append, List.filterMap_cons_some (ofPiece?_withExtension hne hdot ext), hidle]

/-- The cut is in the name or behind it, never before it. -/
theorem filterMap_cut {before idle kept after : List (List Char)} {q r : List Char}
    (h : kept ++ (q ++ r) :: after = before ++ (stem ++ '.' :: ext) :: idle)
    (hidle : idle.filterMap Component.ofPiece? = []) (hr : r.length ≤ ext.length)
    (hafter : ∀ piece ∈ after, piece.length ≤ ext.length) :
    ∃ e, e <+: ext ∧ (kept ++ [q]).filterMap Component.ofPiece? =
      before.filterMap Component.ofPiece? ++ [.normal (String.ofList (stem ++ '.' :: e))] := by
  have hinside (hkept : kept = before) (hq : q ++ r = stem ++ '.' :: ext) :
      ∃ e, e <+: ext ∧ (kept ++ [q]).filterMap Component.ofPiece? =
        before.filterMap Component.ofPiece? ++ [.normal (String.ofList (stem ++ '.' :: e))] := by
    obtain ⟨e, he, rfl⟩ := exists_extension_of_append hq hr
    exact ⟨e, he, hkept ▸ filterMap_name_append hne hdot kept rfl e⟩
  obtain ⟨x, hbefore, hrest⟩ | ⟨x, hkept, hrest⟩ := List.append_eq_append_iff.mp h
  · cases x with
    | nil => exact hinside (by simpa using hbefore.symm) (List.cons.inj hrest).1
    | cons y x =>
      obtain ⟨-, hafter'⟩ := List.cons.inj hrest
      have hshort := hafter (stem ++ '.' :: ext) (by simp [hafter'])
      simp only [List.length_append, List.length_cons] at hshort
      omega
  · cases x with
    | nil => exact hinside (by simpa using hkept) (List.cons.inj hrest).1.symm
    | cons y x =>
      obtain ⟨rfl, hpieces⟩ : stem ++ '.' :: ext = y ∧ idle = x ++ (q ++ r) :: after :=
        List.cons.inj hrest
      rw [hpieces, List.filterMap_append] at hidle
      obtain ⟨hx, hcut⟩ := List.append_eq_nil_iff.mp hidle
      have hq : Component.ofPiece? q = none :=
        ofPiece?_of_append (List.filterMap_eq_nil_iff.mp hcut _ List.mem_cons_self)
      have hbehind : (x ++ [q]).filterMap Component.ofPiece? = [] := by simp [hx, hq]
      refine ⟨ext, List.prefix_refl ext, ?_⟩
      rw [hkept, List.append_assoc, List.cons_append]
      exact filterMap_name_append hne hdot before hbehind ext

end

/-- The name at the end of a path is one of its pieces, and nothing that counts comes behind it. -/
theorem exists_pieces_of_components {name : String} (h : p.components = cs ++ [.normal name]) :
    ∃ before idle, pieces '/' p.chars = before ++ name.toList :: idle ∧
      cs = anchorComponents (anchor p.chars) ++ before.filterMap Component.ofPiece? ∧
      idle.filterMap Component.ofPiece? = [] := by
  rw [components_eq] at h
  obtain hnil | ⟨front, c, hfront⟩ := List.eq_nil_or_concat (segments p.chars)
  · rw [hnil, List.append_nil] at h
    cases isRelative_of_mem_anchorComponents (h ▸ List.mem_append_right cs List.mem_cons_self)
  · rw [List.concat_eq_append] at hfront
    rw [hfront, ← List.append_assoc] at h
    obtain ⟨rfl, hc⟩ := List.append_inj' h rfl
    obtain rfl := (List.cons.inj hc).1
    obtain ⟨ahead, behind, hpieces, rfl, hbehind⟩ := List.filterMap_eq_append_iff.mp hfront
    obtain ⟨blank, last, idle, rfl, hblank, hlast, hidle⟩ := List.filterMap_eq_cons_iff.mp hbehind
    obtain ⟨rfl, -⟩ := Component.eq_toList_of_ofPiece? hlast
    refine ⟨ahead ++ blank, idle, by rw [hpieces, List.append_assoc], ?_, hidle⟩
    rw [List.filterMap_append, List.filterMap_eq_nil_iff.mpr hblank, List.append_nil]

theorem length_le_of_extension? (h : p.extension? = some ext) : ext.length ≤ p.chars.length := by
  obtain ⟨stem, hname, -, -⟩ := cutExtension_of_extension? h
  obtain ⟨cs, hcs, -⟩ := components_of_fileName? hname
  obtain ⟨before, idle, hpieces, -, -⟩ := exists_pieces_of_components hcs
  have hlength : (stem ++ '.' :: ext).length ≤ p.chars.length :=
    (Text.isInfix_of_mem_pieces (by rw [hpieces]; simp)).length_le
  rw [List.length_append, List.length_cons] at hlength
  omega

/-- As many characters are cut off as the extension of the name at the end has. They are those of
the extension, or slashes and dots behind it. -/
theorem components_take
    (h : p.components = cs ++ [.normal (String.ofList (stem ++ '.' :: ext))])
    (hne : stem ≠ []) (hdot : stem ≠ ['.']) :
    ∃ e, e <+: ext ∧ (ofChars (p.chars.take (p.chars.length - ext.length))).components =
      cs ++ [.normal (String.ofList (stem ++ '.' :: e))] := by
  obtain ⟨before, idle, hpieces, rfl, hidle⟩ := exists_pieces_of_components h
  rw [String.toList_ofList] at hpieces
  have hlength : (stem ++ '.' :: ext).length ≤ p.chars.length :=
    (Text.isInfix_of_mem_pieces (by rw [hpieces]; simp)).length_le
  rw [List.length_append, List.length_cons] at hlength
  have hstem := List.length_pos_iff.mpr hne
  have hdropped : (p.chars.drop (p.chars.length - ext.length)).length = ext.length := by
    rw [List.length_drop]
    omega
  obtain ⟨kept, q, r, after, htake, hdrop, hboth⟩ := Text.exists_pieces_append '/'
    (p.chars.take (p.chars.length - ext.length)) (p.chars.drop (p.chars.length - ext.length))
  rw [List.take_append_drop, hpieces] at hboth
  have hshort : ∀ piece ∈ r :: after, piece.length ≤ ext.length := by
    intro piece hmem
    rw [← hdrop] at hmem
    exact hdropped ▸ (Text.isInfix_of_mem_pieces hmem).length_le
  obtain ⟨e, he, hcut⟩ := filterMap_cut hne hdot hboth.symm hidle (hshort r List.mem_cons_self)
    fun piece hmem => hshort piece (List.mem_cons_of_mem r hmem)
  refine ⟨e, he, ?_⟩
  rw [components_eq, chars_ofChars, anchor_take (by omega), segments, htake, hcut,
    List.append_assoc]

-- ---------------------------------------------------------------------------
-- The name at the end exchanged
-- ---------------------------------------------------------------------------

/-- Behind a leading `.` the first piece is the empty one in front of the slash. -/
theorem pieces_of_dot {body : List Char} (h : body = [] ∨ ∃ rest, body = '/' :: rest) :
    ∃ tail, pieces '/' body = [] :: tail := by
  rcases h with rfl | ⟨rest, rfl⟩
  · exact ⟨[], rfl⟩
  · exact ⟨pieces '/' rest, by simp [pieces]⟩

theorem exists_body_of_cutLast {a last : List Char} {before : List (List Char)}
    (h : p.cutLast = (a, before, some last)) :
    ∃ body, cutAnchor p.chars = (a, body) ∧ before ++ [last] <+: pieces '/' body := by
  cases hcut : cutAnchor p.chars with
  | mk a' body =>
    simp only [cutLast, hcut, Prod.mk.injEq] at h
    obtain ⟨rfl, hbefore, hlast⟩ := h
    obtain ⟨init, hinit⟩ := List.getLast?_eq_some_iff.mp hlast
    rw [hinit, List.dropLast_concat] at hbefore
    refine ⟨body, rfl, ?_⟩
    rw [← hbefore, ← hinit]
    exact dropIdle_isPrefix _

section
variable {a piece last chars : List Char} {before : List (List Char)}
  {c : Component} (hs : '/' ∉ piece) (hpiece : Component.ofPiece? piece = some c)
include hs hpiece

theorem anchor_joinChars_concat (h : cutAnchor chars = ([], chars))
    (hpre : before ++ [last] <+: pieces '/' chars) :
    anchor (joinChars ['/'] (before ++ [piece])) = [] := by
  cases before with
  | nil =>
    have hsome : (Component.ofPiece? piece).isSome := by simp [hpiece]
    exact anchor_of_ofPiece? hs hsome
  | cons first before =>
    have hfirst : anchor (joinChars ['/'] (first :: (before ++ [last]))) = [] :=
      anchor_joinChars_of_isPrefix h hpre
    by_cases hne : first = []
    · subst hne
      obtain ⟨d, ds, hds⟩ := List.exists_cons_of_ne_nil (List.append_ne_nil_of_right_ne_nil before
        (List.cons_ne_nil last []))
      rw [hds] at hfirst
      simp [joinChars, anchor, cutAnchor] at hfirst
    · rw [List.cons_append, anchor_joinChars hne, ← anchor_joinChars hne (before ++ [last]), hfirst]

/-- Another name in the place of the last one leaves the components before it. -/
theorem components_exchange (h : p.cutLast = (a, before, some last))
    (hlast : Component.ofPiece? last ≠ none) :
    (ofChars (a ++ joinChars ['/'] (before ++ [piece]))).components =
      anchorComponents a ++ before.filterMap Component.ofPiece? ++ [c] := by
  obtain ⟨body, hcut, hpre⟩ := exists_body_of_cutLast h
  have hall : ∀ q ∈ before ++ [piece], '/' ∉ q := by
    have hbefore : ∀ q ∈ before, '/' ∉ q := fun q hq =>
      Text.notMem_of_mem_pieces (hpre.subset (List.mem_append_left _ hq))
    simpa [or_imp, forall_and] using ⟨hbefore, hs⟩
  have hfilter : (before ++ [piece]).filterMap Component.ofPiece? =
      before.filterMap Component.ofPiece? ++ [c] := by
    simp [hpiece]
  rw [components_eq, chars_ofChars, List.append_assoc, ← hfilter]
  obtain ⟨_, -, hcase⟩ | ⟨_, -, hbody, hcase⟩ | hcase := cutAnchor_cases p.chars
  · cases hcut.symm.trans hcase
    simp [anchor, cutAnchor, segments_joinChars hall]
  · cases hcut.symm.trans hcase
    obtain ⟨tail, htail⟩ := pieces_of_dot hbody
    rw [htail] at hpre
    cases before with
    | nil =>
      obtain ⟨rfl, -⟩ := List.cons_prefix_cons.mp hpre
      exact absurd rfl hlast
    | cons first before =>
      obtain ⟨rfl, -⟩ := List.cons_prefix_cons.mp hpre
      have hjoin : joinChars ['/'] ([] :: before ++ [piece]) =
          '/' :: joinChars ['/'] (before ++ [piece]) := Text.joinChars_cons (by simp) ['/'] []
      have hrest : ∀ q ∈ before ++ [piece], '/' ∉ q := (List.forall_mem_cons.mp hall).2
      have hsegments := segments_append ['.'] (joinChars ['/'] (before ++ [piece]))
      rw [segments_joinChars hrest] at hsegments
      rw [hjoin]
      exact congrArg _ hsegments
  · cases hcut.symm.trans hcase
    rw [List.nil_append, segments_joinChars hall, anchor_joinChars_concat hs hpiece hcut hpre]

end

theorem components_uptoStem {name : String} (h : p.components = cs ++ [.normal name])
    (hstem : IsName (String.ofList (cutExtension name.toList).1)) :
    p.uptoStem.components = cs ++ [.normal (String.ofList (cutExtension name.toList).1)] := by
  obtain ⟨a, -, hp⟩ | ⟨a, before, last, c, hcut, hlast, hs, hp, -⟩ := cutLast_cases p
  · have hmem : Component.normal name ∈ anchorComponents a := by simp [← hp, h]
    cases isRelative_of_mem_anchorComponents hmem
  · obtain ⟨rfl, hc⟩ := List.append_inj' (h.symm.trans hp) rfl
    obtain rfl := (List.cons.inj hc).1
    obtain ⟨rfl, hdots⟩ := Component.eq_toList_of_ofPiece? hlast
    have hpiece := Component.ofPiece?_of_isName hstem
    have hslash := hstem.slash_notMem
    rw [String.toList_ofList] at hpiece hslash
    unfold uptoStem
    rw [hcut]
    simp only [hdots, if_false]
    exact components_exchange hslash hpiece hcut (by simp [hlast])

/-- Without its extension a path ends in the stem of its file name, if that is a name at all. -/
theorem components_dropExtension (h : p.extension? = some ext) (hstem : p.stem? = some stem)
    (hdot : stem ≠ ['.']) (hdots : stem ≠ ['.', '.']) :
    ∃ cs, p.components = cs ++ [.normal (String.ofList (stem ++ '.' :: ext))] ∧
      p.dropExtension.components = cs ++ [.normal (String.ofList stem)] := by
  obtain ⟨stem, hname, hstem', hcut⟩ := cutExtension_of_extension? h
  obtain rfl := Option.some.inj (hstem'.symm.trans hstem)
  obtain ⟨cs, hp, hisname⟩ := components_of_fileName? hname
  obtain ⟨-, hne, hnot⟩ := cutExtension_eq_some_iff.mp hcut
  have hslash : '/' ∉ stem := by
    have hwhole := hisname.slash_notMem
    simp only [String.toList_ofList, List.mem_append, not_or] at hwhole
    exact hwhole.1
  have hisstem : IsName (String.ofList stem) := by
    refine ⟨?_, ?_, ?_, by simpa using hslash⟩
    · simpa using hne
    · exact fun h => hdot (by simpa using congrArg String.toList h)
    · exact fun h => hdots (by simpa using congrArg String.toList h)
  -- What is left of the name still has the stem in front of its last dot.
  obtain ⟨e, he, htake⟩ := components_take hp hne hdot
  have hrest : cutExtension (stem ++ '.' :: e) = (stem, some e) :=
    cutExtension_eq_some_iff.mpr ⟨rfl, hne, fun hmem => hnot (he.subset hmem)⟩
  have hupto := components_uptoStem htake
  rw [String.toList_ofList, hrest] at hupto
  refine ⟨cs, hp, ?_⟩
  unfold dropExtension
  rw [h]
  exact hupto hisstem

/-- The components of the path with which the module path of `p` is found. -/
theorem components_dropOutputExtension (hdot : p.stem? ≠ some ['.'])
    (hdots : p.stem? ≠ some ['.', '.']) :
    (p.extension? ≠ some outputExtension.toList ∧
      p.dropOutputExtension.components = p.components) ∨
    ∃ cs stem, p.extension? = some outputExtension.toList ∧ p.stem? = some stem ∧
      p.components = cs ++ [.normal (String.ofList (stem ++ '.' :: outputExtension.toList))] ∧
      p.dropOutputExtension.components = cs ++ [.normal (String.ofList stem)] := by
  unfold dropOutputExtension
  by_cases hext : p.extension? = some outputExtension.toList
  · obtain ⟨stem, -, hstem, -⟩ := cutExtension_of_extension? hext
    rw [hstem, ne_eq, Option.some.injEq] at hdot hdots
    obtain ⟨cs, hp, hdrop⟩ := components_dropExtension hext hstem hdot hdots
    exact .inr ⟨cs, stem, hext, hstem, hp, by rw [if_pos hext, hdrop]⟩
  · exact .inl ⟨hext, by rw [if_neg hext]⟩

-- ---------------------------------------------------------------------------
-- The text that is left
-- ---------------------------------------------------------------------------

theorem cutExtension_isPrefix (name : List Char) : (cutExtension name).1 <+: name := by
  cases hcut : cutExtension name with
  | mk stem ext =>
    cases ext with
    | none =>
      unfold cutExtension at hcut
      split at hcut <;> simp_all
    | some ext =>
      obtain ⟨rfl, -, -⟩ := cutExtension_eq_some_iff.mp hcut
      exact List.prefix_append stem _

theorem dropIdle_append {qs ps : List (List Char)} (h : ∀ q ∈ qs, q = [] ∨ q = ['.']) :
    dropIdle (qs ++ ps) = if dropIdle ps = [] then [] else qs ++ dropIdle ps := by
  have hqs : (qs.reverse.dropWhile fun q => q = [] || q = ['.']) = [] := by
    rw [List.dropWhile_eq_nil_iff]
    intro q hq
    simpa using h q (List.mem_reverse.mp hq)
  unfold dropIdle
  rw [List.reverse_append, List.dropWhile_append, hqs]
  simp only [List.isEmpty_iff, List.reverse_eq_nil_iff]
  split
  · rfl
  · rw [List.reverse_append, List.reverse_reverse]

theorem cutLast_eq {a body : List Char} {front tail : List (List Char)}
    (h : cutAnchor p.chars = (a, body)) (hpieces : pieces '/' body = front ++ tail)
    (hfront : ∀ q ∈ front, q = [] ∨ q = ['.']) :
    (dropIdle tail = [] → p.cutLast = (a, [], none)) ∧
    ∀ before last, dropIdle tail = before ++ [last] →
      p.cutLast = (a, front ++ before, some last) := by
  simp only [cutLast, h, hpieces, dropIdle_append hfront]
  refine ⟨fun hnil => by simp [hnil], fun before last hlast => ?_⟩
  rw [hlast, if_neg (by simp), ← List.append_assoc, List.dropLast_concat, List.getLast?_concat]

theorem chars_uptoStem_isPrefix (p : Path) : p.uptoStem.chars <+: p.chars := by
  cases hcut : cutAnchor p.chars with
  | mk a body =>
    have hchars : p.chars = a ++ body := by
      obtain ⟨rest, hchars, hcase⟩ | ⟨rest, hchars, -, hcase⟩ | hcase := cutAnchor_cases p.chars <;>
        cases hcut.symm.trans hcase
      · exact hchars
      · exact hchars
      · rfl
    obtain ⟨hnone, hsome⟩ := cutLast_eq hcut (List.nil_append _).symm (by simp)
    obtain hnil | ⟨before, last, hlast⟩ := List.eq_nil_or_concat (dropIdle (pieces '/' body))
    · simp [uptoStem, hnone hnil]
    · rw [List.concat_eq_append] at hlast
      obtain ⟨idle, hidle⟩ := dropIdle_isPrefix (pieces '/' body)
      rw [hlast, List.append_assoc, List.singleton_append] at hidle
      have hbody : body = joinChars ['/'] (before ++ last :: idle) := by
        rw [hidle, Text.join_pieces]
      simp only [uptoStem, hsome before last hlast, List.nil_append]
      split
      · exact List.prefix_refl _
      · rw [chars_ofChars, hchars, hbody]
        exact (List.prefix_append_right_inj a).mpr
          (Text.joinChars_isPrefix ['/'] before (cutExtension_isPrefix last) idle)

theorem chars_dropOutputExtension_isPrefix (p : Path) :
    p.dropOutputExtension.chars <+: p.chars := by
  unfold dropOutputExtension dropExtension
  split
  · split
    · refine (chars_uptoStem_isPrefix _).trans ?_
      rw [chars_ofChars]
      exact List.take_prefix _ p.chars
    · exact List.prefix_refl _
  · exact List.prefix_refl _

theorem isAbsolute_of_isPrefix {q : Path} (h : q.chars <+: p.chars) (hp : p.isAbsolute = false) :
    q.isAbsolute = false := by
  obtain ⟨rest, hrest⟩ := h
  simp only [isAbsolute, decide_eq_false_iff_not, ← hrest] at hp ⊢
  cases hq : q.chars with
  | nil => simp
  | cons c cs => simpa [hq] using hp

-- ---------------------------------------------------------------------------
-- A `./` in front
-- ---------------------------------------------------------------------------

def dotted (p : Path) : Path := ⟨"./" ++ p.text⟩

@[simp] theorem chars_dotted (p : Path) : p.dotted.chars = '.' :: '/' :: p.chars := by
  simp [dotted, chars]

section
variable (hp : p.isAbsolute = false)
include hp

theorem cutAnchor_of_relative :
    (∃ body, p.chars = '.' :: body ∧ (body = [] ∨ ∃ rest, body = '/' :: rest) ∧
      cutAnchor p.chars = (['.'], body)) ∨ cutAnchor p.chars = ([], p.chars) := by
  obtain ⟨body, hchars, -⟩ | h := cutAnchor_cases p.chars
  · simp [isAbsolute, hchars] at hp
  · exact h

theorem components_dotted :
    p.dotted.components = .current :: p.components.filter (· != .current) := by
  have hsegments : (segments p.chars).filter (· != .current) = segments p.chars := by
    refine List.filter_eq_self.mpr fun c hc => ?_
    have hne : c ≠ .current := by
      rintro rfl
      exact ordinary_of_mem_segments hc
    simpa using hne
  have hdotted : segments ('.' :: '/' :: p.chars) = segments p.chars :=
    segments_append ['.'] p.chars
  have hanchor : (anchorComponents (anchor p.chars)).filter (· != .current) = [] := by
    obtain ⟨body, -, -, hcut⟩ | hcut := cutAnchor_of_relative hp <;> rw [anchor, hcut] <;> rfl
  rw [components_eq, components_eq p, chars_dotted, hdotted, List.filter_append, hanchor, hsegments]
  rfl

/-- The last piece stays the last, and `./` stands in front of all that was in front of it. -/
theorem cutLast_dotted :
    (∃ a, p.cutLast = (a, [], none) ∧ p.dotted.cutLast = (['.'], [], none)) ∨
    ∃ a before last before', p.cutLast = (a, before, some last) ∧
      p.dotted.cutLast = (['.'], before', some last) ∧
      ∀ piece, '.' :: joinChars ['/'] (before' ++ [piece]) =
        '.' :: '/' :: (a ++ joinChars ['/'] (before ++ [piece])) := by
  have hcutDotted : cutAnchor p.dotted.chars = (['.'], '/' :: p.chars) := by simp [cutAnchor]
  have hpieces : pieces '/' ('/' :: p.chars) = [[]] ++ pieces '/' p.chars := by simp [pieces]
  obtain ⟨body, hchars, hbody, hcut⟩ | hcut := cutAnchor_of_relative hp
  · obtain ⟨tail, htail⟩ := pieces_of_dot hbody
    have hall : pieces '/' p.chars = ['.'] :: tail := by
      rw [hchars, pieces, if_neg (by decide), htail]
    have hidle : pieces '/' body = [[]] ++ tail := htail
    have hboth : pieces '/' ('/' :: p.chars) = [[], ['.']] ++ tail := by rw [hpieces, hall]; rfl
    obtain ⟨hnone, hsome⟩ := cutLast_eq hcut hidle (by simp)
    obtain ⟨hnone', hsome'⟩ := cutLast_eq hcutDotted hboth (by simp)
    obtain hnil | ⟨before, last, hlast⟩ := List.eq_nil_or_concat (dropIdle tail)
    · exact .inl ⟨['.'], hnone hnil, hnone' hnil⟩
    · rw [List.concat_eq_append] at hlast
      refine .inr ⟨['.'], _, last, _, hsome before last hlast, hsome' before last hlast, ?_⟩
      intro piece
      simp [Text.joinChars_cons]
  · obtain ⟨hnone, hsome⟩ := cutLast_eq hcut (List.nil_append _).symm (by simp)
    obtain ⟨hnone', hsome'⟩ := cutLast_eq hcutDotted hpieces (by simp)
    obtain hnil | ⟨before, last, hlast⟩ := List.eq_nil_or_concat (dropIdle (pieces '/' p.chars))
    · exact .inl ⟨[], hnone hnil, hnone' hnil⟩
    · rw [List.concat_eq_append] at hlast
      refine .inr ⟨[], _, last, _, hsome before last hlast, hsome' before last hlast, ?_⟩
      intro piece
      simp [Text.joinChars_cons]

theorem uptoStem_dotted : p.dotted.uptoStem = p.uptoStem.dotted := by
  obtain ⟨a, hcut, hdotted⟩ | ⟨a, before, last, before', hcut, hdotted, hjoin⟩ := cutLast_dotted hp
  · simp [uptoStem, hcut, hdotted]
  · simp only [uptoStem, hcut, hdotted]
    split
    · rfl
    · rw [List.singleton_append, hjoin]
      simp [dotted, ofChars, ← String.toList_inj]

theorem fileName?_dotted : p.dotted.fileName? = p.fileName? := by
  obtain ⟨a, hcut, hdotted⟩ | ⟨a, before, last, before', hcut, hdotted, -⟩ := cutLast_dotted hp <;>
    simp [fileName?, hcut, hdotted]

theorem extension?_dotted : p.dotted.extension? = p.extension? := by
  rw [extension?, fileName?_dotted hp]
  rfl

theorem dropExtension_dotted : p.dotted.dropExtension = p.dropExtension.dotted := by
  unfold dropExtension
  rw [extension?_dotted hp]
  cases hext : p.extension? with
  | none => rfl
  | some ext =>
    have htake : ofChars (p.dotted.chars.take (p.dotted.chars.length - ext.length)) =
        (ofChars (p.chars.take (p.chars.length - ext.length))).dotted := by
      have hlength := length_le_of_extension? hext
      have hcount : p.chars.length + 1 + 1 - ext.length = p.chars.length - ext.length + 1 + 1 := by
        omega
      rw [chars_dotted, List.length_cons, List.length_cons, hcount, List.take_succ_cons,
        List.take_succ_cons]
      simp [ofChars, dotted, ← String.toList_inj]
    have hrelative : (ofChars (p.chars.take (p.chars.length - ext.length))).isAbsolute = false := by
      refine isAbsolute_of_isPrefix ?_ hp
      rw [chars_ofChars]
      exact List.take_prefix _ p.chars
    exact (congrArg uptoStem htake).trans (uptoStem_dotted hrelative)

theorem dropOutputExtension_dotted :
    p.dotted.dropOutputExtension = p.dropOutputExtension.dotted := by
  unfold dropOutputExtension
  rw [extension?_dotted hp, dropExtension_dotted hp]
  split <;> rfl

end

end Path

end TypeWeave
