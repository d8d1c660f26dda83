import Mathlib.Data.List.Forall2
import TypeWeave.Rendering

/-!
# Declarations read off their text

The lines of a printed declaration end at the first closing brace that stands alone, and what a line
is made of ends at the first blank or colon, so that nothing has to be guessed when a text is read.
Several declarations have the same text as several others if and only if the two lists are `Alike`,
entry by entry (`TargetDecl.renderAll_eq_iff`).
-/

namespace TypeWeave

-- ---------------------------------------------------------------------------
-- Cutting at the first mark
-- ---------------------------------------------------------------------------

section
variable {α β : Type}

theorem append_cons_inj_left {mark : α} {as bs cs ds : List α} (ha : mark ∉ as) (hb : mark ∉ bs)
    (h : as ++ mark :: cs = bs ++ mark :: ds) : as = bs ∧ cs = ds := by
  induction as generalizing bs with
  | nil =>
    cases bs with
    | nil => exact ⟨rfl, (List.cons.inj h).2⟩
    | cons b bs =>
      obtain rfl := (List.cons.inj h).1
      exact absurd List.mem_cons_self hb
  | cons a as ih =>
    simp only [List.mem_cons, not_or] at ha
    cases bs with
    | nil => exact absurd (List.cons.inj h).1.symm ha.1
    | cons b bs =>
      simp only [List.mem_cons, not_or] at hb
      obtain ⟨rfl, htail⟩ := List.cons.inj h
      obtain ⟨rfl, rfl⟩ := ih ha.2 hb.2 htail
      exact ⟨rfl, rfl⟩

theorem forall₂_of_map_eq {f : α → β} {p : α → Prop} {R : α → α → Prop}
    (hR : ∀ a b, p a → p b → f a = f b → R a b) {as bs : List α} (has : ∀ a ∈ as, p a)
    (hbs : ∀ b ∈ bs, p b) (h : as.map f = bs.map f) : List.Forall₂ R as bs := by
  induction as generalizing bs with
  | nil =>
    obtain rfl := List.map_eq_nil_iff.mp h.symm
    exact .nil
  | cons a as ih =>
    obtain ⟨b, bs, rfl, hab, hrest⟩ := List.map_eq_cons_iff.mp h.symm
    rw [List.forall_mem_cons] at has hbs
    exact .cons (hR a b has.1 hbs.1 hab.symm) (ih has.2 hbs.2 hrest.symm)

theorem map_eq_of_forall₂ {f : α → β} {R : α → α → Prop} (hR : ∀ a b, R a b → f a = f b)
    {as bs : List α} (h : List.Forall₂ R as bs) : as.map f = bs.map f := by
  induction h with
  | nil => rfl
  | cons hab _ ih => rw [List.map_cons, List.map_cons, hR _ _ hab, ih]

end

-- ---------------------------------------------------------------------------
-- Lines
-- ---------------------------------------------------------------------------

namespace Text

def unlines (ls : List (List Char)) : List Char := ls.flatMap (· ++ ['\n'])

theorem unlines_append (ls ms : List (List Char)) : unlines (ls ++ ms) = unlines ls ++ unlines ms :=
  List.flatMap_append

theorem unlines_inj {ls ms : List (List Char)} (hl : ∀ l ∈ ls, '\n' ∉ l) (hm : ∀ m ∈ ms, '\n' ∉ m)
    (h : unlines ls = unlines ms) : ls = ms := by
  induction ls generalizing ms with
  | nil =>
    cases ms with
    | nil => rfl
    | cons m ms => simp [unlines] at h
  | cons l ls ih =>
    cases ms with
    | nil => simp [unlines] at h
    | cons m ms =>
      rw [List.forall_mem_cons] at hl hm
      simp only [unlines, List.flatMap_cons, List.append_assoc, List.singleton_append] at h
      obtain ⟨rfl, hrest⟩ := append_cons_inj_left hl.1 hm.1 h
      rw [ih hl.2 hm.2 hrest]

def commas : List (List Char) → List (List Char)
  | [] => []
  | [l] => [l]
  | l :: m :: ls => (l ++ [',']) :: commas (m :: ls)

theorem commas_eq_nil_iff {ls : List (List Char)} : commas ls = [] ↔ ls = [] := by
  rcases ls with - | ⟨l, - | ⟨m, ls⟩⟩ <;> simp [commas]

theorem commas_inj {ls ms : List (List Char)} (h : commas ls = commas ms) : ls = ms := by
  fun_induction commas ls generalizing ms with
  | case1 => exact (commas_eq_nil_iff.mp h.symm).symm
  | case2 l =>
    rcases ms with - | ⟨m, - | ⟨n, ms⟩⟩
    · cases h
    · exact h
    · simp [commas, commas_eq_nil_iff] at h
  | case3 l m ls ih =>
    rcases ms with - | ⟨n, - | ⟨o, ms⟩⟩
    · cases h
    · simp [commas, commas_eq_nil_iff] at h
    · simp only [commas, List.cons.injEq, List.append_cancel_right_eq] at h
      rw [h.1, ih h.2]

/-- A comma or nothing is added behind a line. -/
theorem mem_commas {l : List Char} {ls : List (List Char)} (h : l ∈ commas ls) :
    ∃ m ∈ ls, l = m ∨ l = m ++ [','] := by
  fun_induction commas ls with
  | case1 => cases h
  | case2 m => exact ⟨m, List.mem_cons_self, .inl (List.mem_singleton.mp h)⟩
  | case3 m n ls ih =>
    rcases List.mem_cons.mp h with rfl | h
    · exact ⟨m, List.mem_cons_self, .inr rfl⟩
    · obtain ⟨o, ho, hl⟩ := ih h
      exact ⟨o, List.mem_cons_of_mem _ ho, hl⟩

theorem join_empty_cons (s : String) (ss : List String) : join "" (s :: ss) = s ++ join "" ss := by
  cases ss <;> simp [join]

end Text

-- ---------------------------------------------------------------------------
-- The lines of a declaration
-- ---------------------------------------------------------------------------

def TargetField.line (style : Style) (f : TargetField) : List Char :=
  style.indent.toList ++ (f.name.toList ++ ':' :: ' ' :: (f.type.toList ++ [';']))

namespace TargetMember

/-- The value that a member is printed with. What stands in for a missing value cannot be told from
a value. -/
def shown (fallback : ValueFallback) (m : TargetMember) : Option String :=
  match fallback with
  | .quotedName => some (m.value.getD ("\"" ++ m.name ++ "\""))
  | .bare => m.value

def assignment : Option String → List Char
  | some value => ' ' :: '=' :: ' ' :: value.toList
  | none => []

def line (style : Style) (m : TargetMember) : List Char :=
  style.indent.toList ++ (m.name.toList ++ assignment (m.shown style.fallback))

end TargetMember

namespace TargetDecl

def opening (style : Style) : TargetDecl → String
  | ofInterface d => d.header style ++ " \x7b"
  | ofEnum d =>
    style.palette.keyword "export" ++ " " ++ style.palette.keyword "enum" ++ " " ++
      style.palette.name d.name ++ " \x7b"

def lines (style : Style) : TargetDecl → List (List Char)
  | ofInterface d => (opening style (ofInterface d)).toList :: d.fields.map (·.line style)
  | ofEnum d => (opening style (ofEnum d)).toList :: Text.commas (d.values.map (·.line style))

def closing : List Char := ['\x7d']

variable {style : Style} {d e : TargetDecl} {ds es : List TargetDecl}

theorem toList_fields (hp : style.palette = .off) (fs : List TargetField) :
    (Text.join "" (fs.map (·.render style))).toList = Text.unlines (fs.map (·.line style)) := by
  induction fs with
  | nil => rfl
  | cons f fs ih =>
    rw [List.map_cons, Text.join_empty_cons, String.toList_append, ih]
    simp [TargetField.render, TargetField.line, hp, Text.unlines]

theorem toList_member (hp : style.palette = .off) (m : TargetMember) :
    (m.render style).toList = m.line style := by
  rcases hv : m.value with - | value <;> rcases hf : style.fallback with - | - <;>
    simp [TargetMember.render, TargetMember.line, TargetMember.shown, TargetMember.assignment,
      hp, hv, hf]

theorem toList_members (hp : style.palette = .off) (d : TargetEnum) :
    (d.body style).toList = Text.unlines (Text.commas (d.values.map (·.line style))) := by
  rw [TargetEnum.body]
  generalize d.values = vs
  induction vs with
  | nil => rfl
  | cons v vs ih =>
    cases vs with
    | nil => simp [Text.join, Text.commas, Text.unlines, toList_member hp]
    | cons w vs =>
      simp only [List.isEmpty_cons, Bool.false_eq_true, if_false, List.map_cons, Text.join,
        String.toList_append, Text.commas, Text.unlines, List.flatMap_cons,
        toList_member hp] at ih ⊢
      rw [← ih]
      simp

theorem toList_render (hp : style.palette = .off) (d : TargetDecl) :
    (d.render style).toList ++ ['\n', '\n'] =
      Text.unlines (d.lines style ++ closing :: [[]]) := by
  cases d with
  | ofInterface d =>
    simp [render, TargetInterface.render, toList_fields hp, lines, closing, Text.unlines, opening]
  | ofEnum d =>
    simp [render, TargetEnum.render, toList_members hp, lines, closing, Text.unlines, opening]

-- ---------------------------------------------------------------------------
-- What a line says
-- ---------------------------------------------------------------------------

def extension : Option String → String
  | some supertype => "extends" ++ " " ++ supertype ++ " \x7b"
  | none => "\x7b"

theorem opening_interface (hp : style.palette = .off) (d : TargetInterface) :
    (opening style (ofInterface d)).toList =
      ("export" ++ " " ++ "interface" ++ " ").toList ++
        (d.name.toList ++ ' ' :: (extension d.supertype).toList) := by
  have hblank : " ".toList = [' '] := rfl
  have hbrace : " \x7b".toList = ' ' :: "\x7b".toList := rfl
  rw [opening, TargetInterface.header, hp]
  cases d.supertype <;>
    simp only [Palette.keyword_off, Palette.name_off, String.toList_append, extension, hblank,
      hbrace, String.append_empty, List.append_assoc, List.cons_append, List.nil_append]

theorem opening_enum (hp : style.palette = .off) (d : TargetEnum) :
    (opening style (ofEnum d)).toList =
      ("export" ++ " " ++ "enum" ++ " ").toList ++ (d.name.toList ++ [' ', '\x7b']) := by
  have hbrace : " \x7b".toList = [' ', '\x7b'] := rfl
  rw [opening, hp]
  simp only [Palette.keyword_off, Palette.name_off, String.toList_append, hbrace,
    List.append_assoc]

theorem extension_none_ne_some (supertype : String) :
    extension none ≠ extension (some supertype) := by
  intro h
  have hbrace : "\x7b".length = 1 := rfl
  have hextends : "extends".length = 7 := rfl
  have hlength := congrArg String.length h
  simp only [extension, String.length_append, hbrace, hextends] at hlength
  omega

theorem extension_inj {s t : Option String} (h : extension s = extension t) : s = t := by
  cases s with
  | none =>
    cases t with
    | none => rfl
    | some u => exact absurd h (extension_none_ne_some u)
  | some u =>
    cases t with
    | none => exact absurd h.symm (extension_none_ne_some u)
    | some v =>
      have hlist := congrArg String.toList h
      simp only [extension, String.toList_append, List.append_cancel_right_eq,
        List.append_cancel_left_eq, String.toList_inj] at hlist
      rw [hlist]

/-- The words in front of the name tell an interface from an enum. -/
theorem opening_interface_ne_enum (as bs : List Char) :
    ("export" ++ " " ++ "interface" ++ " ").toList ++ as ≠
      ("export" ++ " " ++ "enum" ++ " ").toList ++ bs := by
  intro h
  have htake := congrArg (List.take 8) h
  rw [List.take_append_of_le_length (by decide), List.take_append_of_le_length (by decide)] at htake
  exact absurd htake (by decide)

end TargetDecl

-- ---------------------------------------------------------------------------
-- Legible declarations
-- ---------------------------------------------------------------------------

/-- The name is not empty and has none of the characters that end a name or a declaration. -/
def Unbroken (name : String) : Prop :=
  name ≠ "" ∧ ∀ c ∈ [' ', '\n', ':', '\x7d'], c ∉ name.toList

instance : DecidablePred Unbroken := fun _ => inferInstanceAs (Decidable (_ ∧ _))

namespace Unbroken

variable {name : String}

theorem space (h : Unbroken name) : ' ' ∉ name.toList := h.2 _ (by simp)
theorem newline (h : Unbroken name) : '\n' ∉ name.toList := h.2 _ (by simp)
theorem colon (h : Unbroken name) : ':' ∉ name.toList := h.2 _ (by simp)
theorem brace (h : Unbroken name) : '\x7d' ∉ name.toList := h.2 _ (by simp)

/-- A line with the name in it is not the one that closes a declaration. -/
theorem ne_closing (h : Unbroken name) (before after : List Char) :
    before ++ (name.toList ++ after) ≠ TargetDecl.closing := by
  intro heq
  have hne : name.toList ≠ [] := fun hnil => h.1 (String.toList_eq_nil_iff.mp hnil)
  obtain ⟨c, hc⟩ := List.exists_mem_of_ne_nil _ hne
  have hmem : c ∈ TargetDecl.closing := heq ▸ by simp [hc]
  rw [TargetDecl.closing, List.mem_singleton] at hmem
  exact h.brace (hmem ▸ hc)

end Unbroken

/-- Every name is unbroken, and every type and literal is on one line. -/
def TargetDecl.Legible : TargetDecl → Prop
  | ofInterface d =>
    Unbroken d.name ∧ (∀ supertype ∈ d.supertype, Unbroken supertype) ∧
      ∀ f ∈ d.fields, Unbroken f.name ∧ '\n' ∉ f.type.toList
  | ofEnum d =>
    Unbroken d.name ∧
      ∀ m ∈ d.values, Unbroken m.name ∧ ∀ literal ∈ m.value, '\n' ∉ literal.toList

instance : DecidablePred TargetDecl.Legible
  | .ofInterface _ => inferInstanceAs (Decidable (_ ∧ _ ∧ _))
  | .ofEnum _ => inferInstanceAs (Decidable (_ ∧ _))

/-- Two declarations agree in all that is printed. -/
inductive TargetDecl.Alike (fallback : ValueFallback) : TargetDecl → TargetDecl → Prop
  | ofInterface {d e : TargetInterface} : d.name = e.name → d.supertype = e.supertype →
      d.fields = e.fields → Alike fallback (.ofInterface d) (.ofInterface e)
  | ofEnum {d e : TargetEnum} : d.name = e.name →
      List.Forall₂ (fun v w => v.name = w.name ∧ v.shown fallback = w.shown fallback)
        d.values e.values →
      Alike fallback (.ofEnum d) (.ofEnum e)

section
variable {style : Style}

theorem TargetField.eq_of_line {f g : TargetField} (hf : Unbroken f.name) (hg : Unbroken g.name)
    (h : f.line style = g.line style) : f = g := by
  obtain ⟨name, type⟩ := f
  obtain ⟨name', type'⟩ := g
  simp only [line, List.append_cancel_left_eq] at h
  obtain ⟨hname, hrest⟩ := append_cons_inj_left hf.colon hg.colon h
  simp only [List.cons.injEq, true_and, List.append_cancel_right_eq, String.toList_inj]
    at hname hrest
  rw [hname, hrest]

theorem TargetMember.shown_of_line {v w : TargetMember} (hv : Unbroken v.name)
    (hw : Unbroken w.name) (h : v.line style = w.line style) :
    v.name = w.name ∧ v.shown style.fallback = w.shown style.fallback := by
  simp only [line, List.append_cancel_left_eq] at h
  cases hs : v.shown style.fallback with
  | none =>
    cases ht : w.shown style.fallback with
    | none => simpa [hs, ht, assignment, String.toList_inj] using h
    | some value =>
      rw [hs, ht, assignment, assignment, List.append_nil] at h
      exact absurd (h ▸ by simp) hv.space
  | some value =>
    cases ht : w.shown style.fallback with
    | none =>
      rw [hs, ht, assignment, assignment, List.append_nil] at h
      exact absurd (h ▸ by simp) hw.space
    | some value' =>
      rw [hs, ht] at h
      obtain ⟨hname, hvalue⟩ := append_cons_inj_left hv.space hw.space h
      simp only [List.cons.injEq, true_and, String.toList_inj] at hname hvalue
      exact ⟨hname, congrArg some hvalue⟩

end

namespace TargetDecl

variable {style : Style} {d e : TargetDecl} {ds es : List TargetDecl}

theorem closing_notMem_lines (hp : style.palette = .off) (h : d.Legible) :
    closing ∉ d.lines style := by
  cases d with
  | ofInterface d =>
    obtain ⟨hname, -, hfields⟩ := h
    rw [lines, opening_interface hp]
    intro hmem
    rcases List.mem_cons.mp hmem with heq | hmem
    · exact hname.ne_closing _ _ heq.symm
    · obtain ⟨f, hf, heq⟩ := List.mem_map.mp hmem
      exact (hfields f hf).1.ne_closing _ _ heq
  | ofEnum d =>
    obtain ⟨hname, hvalues⟩ := h
    rw [lines, opening_enum hp]
    intro hmem
    rcases List.mem_cons.mp hmem with heq | hmem
    · exact hname.ne_closing _ _ heq.symm
    · obtain ⟨l, hl, heq⟩ := Text.mem_commas hmem
      obtain ⟨v, hv, rfl⟩ := List.mem_map.mp hl
      rcases heq with heq | heq
      · exact (hvalues v hv).1.ne_closing _ _ heq.symm
      · rw [TargetMember.line, List.append_assoc, List.append_assoc] at heq
        exact (hvalues v hv).1.ne_closing _ _ heq.symm

theorem newline_notMem_extension {supertype : Option String}
    (h : ∀ name ∈ supertype, Unbroken name) : '\n' ∉ (extension supertype).toList := by
  cases supertype with
  | none => decide
  | some name =>
    simp only [extension, String.toList_append, List.mem_append, not_or]
    exact ⟨⟨⟨by decide, by decide⟩, (h name rfl).newline⟩, by decide⟩

theorem newline_notMem_assignment (fallback : ValueFallback) {m : TargetMember}
    (hname : Unbroken m.name) (hvalue : ∀ literal ∈ m.value, '\n' ∉ literal.toList) :
    '\n' ∉ TargetMember.assignment (m.shown fallback) := by
  cases hm : m.value <;> cases fallback <;>
    simp_all [TargetMember.shown, TargetMember.assignment, hname.newline]

theorem newline_notMem_lines (hp : style.palette = .off)
    (hindent : ∀ c ∈ style.indent.toList, c = ' ') (h : d.Legible) :
    ∀ l ∈ d.lines style, '\n' ∉ l := by
  have hindent : '\n' ∉ style.indent.toList := fun hmem => absurd (hindent _ hmem) (by decide)
  cases d with
  | ofInterface d =>
    obtain ⟨hname, hsupertype, hfields⟩ := h
    rw [lines, opening_interface hp, List.forall_mem_cons, List.forall_mem_map]
    refine ⟨?_, fun f hf => ?_⟩
    · simp [-String.toList_append, hname.newline, newline_notMem_extension hsupertype]
    · obtain ⟨hf, htype⟩ := hfields f hf
      simp [TargetField.line, hindent, hf.newline, htype]
  | ofEnum d =>
    obtain ⟨hname, hvalues⟩ := h
    rw [lines, opening_enum hp, List.forall_mem_cons]
    refine ⟨?_, fun l hl => ?_⟩
    · simp [-String.toList_append, hname.newline]
    · obtain ⟨_, hline, hl⟩ := Text.mem_commas hl
      obtain ⟨v, hv, rfl⟩ := List.mem_map.mp hline
      obtain ⟨hv, hliteral⟩ := hvalues v hv
      have hassignment := newline_notMem_assignment style.fallback hv hliteral
      rcases hl with rfl | rfl <;> simp [TargetMember.line, hindent, hv.newline, hassignment]

theorem alike_of_lines (hp : style.palette = .off) (hd : d.Legible) (he : e.Legible)
    (h : d.lines style = e.lines style) : Alike style.fallback d e := by
  cases d with
  | ofInterface d =>
    cases e with
    | ofInterface e =>
      obtain ⟨hname, -, hfields⟩ := hd
      obtain ⟨hname', -, hfields'⟩ := he
      rw [lines, lines, opening_interface hp, opening_interface hp, List.cons.injEq,
        List.append_cancel_left_eq] at h
      obtain ⟨hnames, hextension⟩ := append_cons_inj_left hname.space hname'.space h.1
      have hforall := forall₂_of_map_eq (fun f g hf hg => TargetField.eq_of_line hf hg)
        (fun f hf => (hfields f hf).1) (fun f hf => (hfields' f hf).1) h.2
      exact .ofInterface (String.toList_inj.mp hnames)
        (extension_inj (String.toList_inj.mp hextension)) (by simpa using hforall)
    | ofEnum e =>
      rw [lines, lines, opening_interface hp, opening_enum hp, List.cons.injEq] at h
      exact absurd h.1 (opening_interface_ne_enum _ _)
  | ofEnum d =>
    cases e with
    | ofInterface e =>
      rw [lines, lines, opening_interface hp, opening_enum hp, List.cons.injEq] at h
      exact absurd h.1.symm (opening_interface_ne_enum _ _)
    | ofEnum e =>
      obtain ⟨hname, hvalues⟩ := hd
      obtain ⟨hname', hvalues'⟩ := he
      rw [lines, lines, opening_enum hp, opening_enum hp, List.cons.injEq,
        List.append_cancel_left_eq] at h
      obtain ⟨hnames, -⟩ := append_cons_inj_left hname.space hname'.space h.1
      refine .ofEnum (String.toList_inj.mp hnames) ?_
      exact forall₂_of_map_eq (fun v w hv hw => TargetMember.shown_of_line hv hw)
        (fun v hv => (hvalues v hv).1) (fun v hv => (hvalues' v hv).1) (Text.commas_inj h.2)

theorem Alike.render_eq (hp : style.palette = .off) (h : Alike style.fallback d e) :
    d.render style = e.render style := by
  cases h with
  | ofInterface hname hsupertype hfields =>
    simp only [render, TargetInterface.render, TargetInterface.header, hname, hsupertype, hfields]
  | @ofEnum d e hname hvalues =>
    have hlines : d.values.map (·.line style) = e.values.map (·.line style) := by
      refine map_eq_of_forall₂ (fun v w hvw => ?_) hvalues
      rw [TargetMember.line, TargetMember.line, hvw.1, hvw.2]
    have hbody : d.body style = e.body style := by
      rw [← String.toList_inj, toList_members hp, toList_members hp, hlines]
    simp only [render, TargetEnum.render, hname, hbody]

-- ---------------------------------------------------------------------------
-- Several declarations
-- ---------------------------------------------------------------------------

def blocks (style : Style) (ds : List TargetDecl) : List (List Char) :=
  ds.flatMap fun d => d.lines style ++ closing :: [[]]

theorem newline_notMem_blocks (hp : style.palette = .off)
    (hindent : ∀ c ∈ style.indent.toList, c = ' ') (h : ∀ d ∈ ds, d.Legible) :
    ∀ l ∈ blocks style ds, '\n' ∉ l := by
  intro l hl
  obtain ⟨d, hd, hl⟩ := List.mem_flatMap.mp hl
  rcases List.mem_append.mp hl with hl | hl
  · exact newline_notMem_lines hp hindent (h d hd) l hl
  · rcases List.mem_cons.mp hl with rfl | hl
    · decide
    · simp [List.mem_singleton.mp hl]

theorem alike_of_blocks (hp : style.palette = .off) (hds : ∀ d ∈ ds, d.Legible)
    (hes : ∀ e ∈ es, e.Legible) (h : blocks style ds = blocks style es) :
    List.Forall₂ (Alike style.fallback) ds es := by
  induction ds generalizing es with
  | nil =>
    cases es with
    | nil => exact .nil
    | cons e es => simp [blocks] at h
  | cons d ds ih =>
    cases es with
    | nil => simp [blocks] at h
    | cons e es =>
      rw [List.forall_mem_cons] at hds hes
      simp only [blocks, List.flatMap_cons, List.append_assoc, List.cons_append] at h
      -- The first closing brace is where both first declarations end.
      obtain ⟨hlines, hrest⟩ := append_cons_inj_left (closing_notMem_lines hp hds.1)
        (closing_notMem_lines hp hes.1) h
      exact .cons (alike_of_lines hp hds.1 hes.1 hlines)
        (ih hds.2 hes.2 (List.cons.inj hrest).2)

theorem toList_renderAll (hp : style.palette = .off) (hne : ds ≠ []) :
    (renderAll style ds).toList ++ ['\n', '\n'] = Text.unlines (blocks style ds) := by
  induction ds with
  | nil => exact absurd rfl hne
  | cons d ds ih =>
    rw [blocks, List.flatMap_cons, Text.unlines_append, ← toList_render hp, ← blocks]
    cases ds with
    | nil => simp [renderAll, Text.join, Text.unlines, blocks]
    | cons e es =>
      rw [← ih (List.cons_ne_nil e es)]
      simp [renderAll, Text.join]

theorem renderAll_ne_empty (hp : style.palette = .off)
    (hindent : ∀ c ∈ style.indent.toList, c = ' ') (hds : ∀ d ∈ ds, d.Legible) (hne : ds ≠ []) :
    renderAll style ds ≠ "" := by
  intro hempty
  have hlines := toList_renderAll hp hne
  rw [hempty] at hlines
  have hblocks : [[], []] = blocks style ds :=
    Text.unlines_inj (by simp) (newline_notMem_blocks hp hindent hds) hlines
  obtain ⟨d, ds, rfl⟩ := List.exists_cons_of_ne_nil hne
  have hclosing : closing ∈ [[], []] := hblocks ▸ by simp [blocks]
  exact absurd hclosing (by decide)

/-- Without colours and with blanks for the indent, legible declarations have the text of other
legible declarations if and only if they agree with them one by one in all that is printed. -/
theorem renderAll_eq_iff (style : Style) (hp : style.palette = .off)
    (hindent : ∀ c ∈ style.indent.toList, c = ' ') (ds es : List TargetDecl)
    (hds : ∀ d ∈ ds, d.Legible) (hes : ∀ e ∈ es, e.Legible) :
    renderAll style ds = renderAll style es ↔ List.Forall₂ (Alike style.fallback) ds es := by
  constructor
  · intro h
    by_cases hd : ds = []
    · by_cases he : es = []
      · rw [hd, he]
        exact .nil
      · rw [hd] at h
        exact absurd h.symm (renderAll_ne_empty hp hindent hes he)
    · by_cases he : es = []
      · rw [he] at h
        exact absurd h (renderAll_ne_empty hp hindent hds hd)
      · refine alike_of_blocks hp hds hes ?_
        refine Text.unlines_inj (newline_notMem_blocks hp hindent hds)
          (newline_notMem_blocks hp hindent hes) ?_
        rw [← toList_renderAll hp hd, ← toList_renderAll hp he, h]
  · intro h
    have hrender : ds.map (render style) = es.map (render style) :=
      map_eq_of_forall₂ (fun _ _ halike => Alike.render_eq hp halike) h
    rw [renderAll, renderAll]
    exact congrArg (Text.join "\n\n") hrender

def sampleText : List TargetDecl := [
  .ofEnum { name := "Kind", qualified := "tree.Kind", values := [⟨"LEAF", some "1"⟩, ⟨"ROOT", none⟩] },
  .ofInterface {
    name := "Node", qualified := "tree.Node", supertype := some "Base"
    fields := [⟨"kind", "Kind"⟩, ⟨"children", "Node[]"⟩] }]

def sampleTextWithValue : List TargetDecl := [
  .ofEnum {
    name := "Kind", qualified := "tree.Kind"
    values := [⟨"LEAF", some "1"⟩, ⟨"ROOT", some "\"ROOT\""⟩] },
  .ofInterface {
    name := "Node", qualified := "Node", supertype := some "Base"
    fields := [⟨"kind", "Kind"⟩, ⟨"children", "Node[]"⟩] }]

/-- Only members without values tell the two from each other. -/
theorem renderAll_eq_iff_sample :
    (∀ d ∈ sampleText, d.Legible) ∧ (∀ e ∈ sampleTextWithValue, e.Legible) ∧
    renderAll { indent := "" } sampleText = renderAll { indent := "" } sampleTextWithValue ∧
    renderAll { fallback := .bare } sampleText ≠
      renderAll { fallback := .bare } sampleTextWithValue := by
  have hds : ∀ d ∈ sampleText, d.Legible := by decide
  have hes : ∀ e ∈ sampleTextWithValue, e.Legible := by decide
  refine ⟨hds, hes, ?_, fun h => ?_⟩
  · refine (renderAll_eq_iff { indent := "" } rfl (by simp) _ _ hds hes).mpr ?_
    exact .cons (.ofEnum rfl (.cons ⟨rfl, rfl⟩ (.cons ⟨rfl, rfl⟩ .nil)))
      (.cons (.ofInterface rfl rfl rfl) .nil)
  · have halike := (renderAll_eq_iff { fallback := .bare } rfl (by simp) _ _ hds hes).mp h
    cases halike with
    | cons hkind _ =>
      cases hkind with
      | ofEnum _ hvalues => simp [TargetMember.shown] at hvalues

end TargetDecl

end TypeWeave
