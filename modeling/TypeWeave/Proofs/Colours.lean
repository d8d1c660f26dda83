import TypeWeave.Program
import TypeWeave.Proofs.Imports
import TypeWeave.Proofs.ModulePaths

/-!
# Colours are decoration

Where nothing that is printed holds an escape character, all sequences of a coloured text come from
the palette. What is left without them is the text without colours, and each is ended by a reset
before the next one begins (`Bundle.colored_decorates`). The path of an output is printed as it is,
so a sequence in a path would be lost with those of the palette (`Bundle.escapedFile_imported`).
-/

namespace TypeWeave

-- ---------------------------------------------------------------------------
-- Escape sequences
-- ---------------------------------------------------------------------------

/-- What stands at one place of a text: a character that is shown, or a whole escape sequence. -/
inductive Glyph where
  | shown (c : Char)
  | sequence (digits : List Char)
  deriving Repr, DecidableEq

namespace Glyph

def shown? : Glyph → Option Char
  | shown c => some c
  | sequence _ => none

def digits? : Glyph → Option (List Char)
  | shown _ => none
  | sequence digits => some digits

@[simp] theorem shown?_sequence (digits : List Char) : (sequence digits).shown? = none := rfl

@[simp] theorem digits?_sequence (digits : List Char) : (sequence digits).digits? = some digits :=
  rfl

theorem filterMap_shown? (cs : List Char) : (cs.map shown).filterMap shown? = cs := by
  rw [List.filterMap_map]
  exact List.filterMap_some

theorem filterMap_digits? (cs : List Char) : (cs.map shown).filterMap digits? = [] := by
  simp [digits?]

end Glyph

namespace Escape

def mark : Char := '\x1b'

def code (digits : List Char) : List Char := mark :: '[' :: (digits ++ ['m'])

def digits? : List Char → Option (List Char)
  | c :: '[' :: cs =>
    let digits := cs.takeWhile Char.isDigit
    if c = mark ∧ digits ≠ [] ∧ (cs.drop digits.length).head? = some 'm' then some digits else none
  | _ => none

def glyphsAfter : Nat → List Char → List Glyph
  | _, [] => []
  | n + 1, _ :: cs => glyphsAfter n cs
  | 0, c :: cs =>
    match digits? (c :: cs) with
    | some digits => .sequence digits :: glyphsAfter (digits.length + 2) cs
    | none => .shown c :: glyphsAfter 0 cs

def glyphs (cs : List Char) : List Glyph := glyphsAfter 0 cs

def erase (text : String) : String := String.ofList ((glyphs text.toList).filterMap Glyph.shown?)

def sequences (text : String) : List (List Char) := (glyphs text.toList).filterMap Glyph.digits?

def Unescaped (text : String) : Prop := mark ∉ text.toList

instance : DecidablePred Unescaped := fun _ => inferInstanceAs (Decidable (_ ∉ _))

@[simp] theorem unescaped_append {s t : String} :
    Unescaped (s ++ t) ↔ Unescaped s ∧ Unescaped t := by
  simp [Unescaped]

def reset : List Char := ['0']

/-- Every sequence that begins something is followed by a reset at once. -/
def Closed : List (List Char) → Prop
  | [] => True
  | [_] => False
  | opening :: closing :: rest => opening ≠ reset ∧ closing = reset ∧ Closed rest

theorem Closed.append {xs ys : List (List Char)} (hx : Closed xs) (hy : Closed ys) :
    Closed (xs ++ ys) := by
  fun_induction Closed xs with
  | case1 => exact hy
  | case2 => cases hx
  | case3 opening closing rest ih => exact ⟨hx.1, hx.2.1, ih hx.2.2⟩

section
variable {c : Char} {digits text : List Char}

@[simp] theorem glyphs_nil : glyphs [] = [] := rfl

theorem glyphsAfter_eq (n : Nat) (cs : List Char) : glyphsAfter n cs = glyphs (cs.drop n) := by
  induction cs generalizing n with
  | nil => cases n <;> rfl
  | cons c cs ih =>
    cases n with
    | zero => rfl
    | succ n => exact ih n

theorem glyphs_cons (h : c ≠ mark) (cs : List Char) :
    glyphs (c :: cs) = .shown c :: glyphs cs := by
  have hdigits : digits? (c :: cs) = none := by
    unfold digits?
    split
    · next heq => simp [← (List.cons.inj heq).1, h]
    · rfl
  simp only [glyphs, glyphsAfter, hdigits]

theorem glyphs_append_of_notMem (h : mark ∉ text) (rest : List Char) :
    glyphs (text ++ rest) = text.map .shown ++ glyphs rest := by
  induction text with
  | nil => rfl
  | cons c cs ih =>
    rw [List.mem_cons, not_or] at h
    rw [List.cons_append, glyphs_cons (Ne.symm h.1), ih h.2, List.map_cons, List.cons_append]

theorem glyphs_code (hne : digits ≠ []) (hdigits : ∀ c ∈ digits, c.isDigit = true)
    (rest : List Char) : glyphs (code digits ++ rest) = .sequence digits :: glyphs rest := by
  have htake : (digits ++ 'm' :: rest).takeWhile Char.isDigit = digits := by
    simp [List.takeWhile_append_of_pos hdigits]
  have hfound : digits? (mark :: '[' :: (digits ++ 'm' :: rest)) = some digits := by
    simp [digits?, htake, hne]
  have hcode : code digits ++ rest = mark :: '[' :: (digits ++ 'm' :: rest) := by simp [code]
  have hrest : ('[' :: (digits ++ 'm' :: rest)).drop (digits.length + 2) = rest := by simp
  rw [hcode, glyphs, glyphsAfter, hfound]
  simp only [glyphsAfter_eq, hrest]

end

-- ---------------------------------------------------------------------------
-- Painted texts
-- ---------------------------------------------------------------------------

/-- A text is another one with escape sequences in it, each of them closed. -/
structure Decorates (text plain : String) : Prop where
  erase_eq : erase text = plain
  closed : Closed (sequences text)

/-- Nothing that follows the text becomes part of its last sequence. -/
structure Painted (text plain : String) : Prop extends Decorates text plain where
  glyphs_append : ∀ rest, glyphs (text.toList ++ rest) = glyphs text.toList ++ glyphs rest

namespace Painted

variable {s t s' t' text : String}

theorem of_unescaped (text : String) (h : Unescaped text) : Painted text text := by
  have hglyphs : glyphs text.toList = text.toList.map .shown := by
    simpa using glyphs_append_of_notMem h []
  refine ⟨⟨?_, ?_⟩, fun rest => ?_⟩
  · rw [erase, hglyphs, Glyph.filterMap_shown?, String.ofList_toList]
  · rw [sequences, hglyphs, Glyph.filterMap_digits?]
    trivial
  · rw [hglyphs, glyphs_append_of_notMem h]

theorem append (h : Painted s t) (h' : Painted s' t') : Painted (s ++ s') (t ++ t') := by
  have hglyphs : glyphs (s ++ s').toList = glyphs s.toList ++ glyphs s'.toList := by
    rw [String.toList_append, h.glyphs_append]
  refine ⟨⟨?_, ?_⟩, fun rest => ?_⟩
  · rw [erase, hglyphs, List.filterMap_append, String.ofList_append]
    exact congrArg₂ _ h.erase_eq h'.erase_eq
  · rw [sequences, hglyphs, List.filterMap_append]
    exact h.closed.append h'.closed
  · rw [hglyphs, String.toList_append, List.append_assoc, h.glyphs_append, h'.glyphs_append,
      List.append_assoc]

theorem join_map {α : Type} {f g : α → String} {as : List α} (sep : String) (hsep : Unescaped sep)
    (h : ∀ a ∈ as, Painted (f a) (g a)) :
    Painted (Text.join sep (as.map f)) (Text.join sep (as.map g)) := by
  induction as with
  | nil => exact of_unescaped "" (by decide)
  | cons a as ih =>
    rw [List.forall_mem_cons] at h
    cases as with
    | nil => exact h.1
    | cons b bs => exact (h.1.append (of_unescaped sep hsep)).append (ih h.2)

/-- A part of a text between a sequence that opens it and a reset. -/
theorem part {opening : String} {digits : List Char} (hopening : opening.toList = code digits)
    (hne : digits ≠ []) (hreset : digits ≠ reset) (hdigits : ∀ c ∈ digits, c.isDigit = true)
    (h : Unescaped text) : Painted (opening ++ text ++ Palette.on.resetCode) text := by
  have hclosing : Palette.on.resetCode.toList = code reset := by decide
  have happend : ∀ rest, glyphs ((opening ++ text ++ Palette.on.resetCode).toList ++ rest) =
      .sequence digits :: (text.toList.map .shown ++ .sequence reset :: glyphs rest) := by
    intro rest
    simp only [String.toList_append, List.append_assoc, hopening, hclosing]
    rw [glyphs_code hne hdigits, glyphs_append_of_notMem h, glyphs_code (by decide) (by decide)]
  have hglyphs : glyphs (opening ++ text ++ Palette.on.resetCode).toList =
      .sequence digits :: (text.toList.map .shown ++ [.sequence reset]) := by
    simpa only [List.append_nil, glyphs_nil] using happend []
  refine ⟨⟨?_, ?_⟩, fun rest => ?_⟩
  · rw [erase, hglyphs]
    simp only [List.filterMap_cons, List.filterMap_append, List.filterMap_nil, List.append_nil,
      Glyph.shown?_sequence, Glyph.filterMap_shown?, String.ofList_toList]
  · rw [sequences, hglyphs]
    simp only [List.filterMap_cons, List.filterMap_append, List.filterMap_nil, List.nil_append,
      Glyph.digits?_sequence, Glyph.filterMap_digits?]
    exact ⟨hreset, rfl, trivial⟩
  · rw [happend, hglyphs]
    simp

theorem keyword (h : Unescaped text) :
    Painted (Palette.on.keyword text) (Palette.off.keyword text) := by
  have hcode : Palette.on.keywordCode.toList = code ['2'] := by decide
  rw [Palette.keyword_off, Palette.keyword]
  exact part hcode (by decide) (by decide) (by decide) h

theorem name (h : Unescaped text) : Painted (Palette.on.name text) (Palette.off.name text) := by
  have hcode : Palette.on.nameCode.toList = code ['3', '4'] := by decide
  rw [Palette.name_off, Palette.name]
  exact part hcode (by decide) (by decide) (by decide) h

theorem value (h : Unescaped text) : Painted (Palette.on.value text) (Palette.off.value text) := by
  have hcode : Palette.on.valueCode.toList = code ['3', '2'] := by decide
  rw [Palette.value_off, Palette.value]
  exact part hcode (by decide) (by decide) (by decide) h

end Painted

end Escape

open Escape (Unescaped Decorates Painted)

-- ---------------------------------------------------------------------------
-- Declarations
-- ---------------------------------------------------------------------------

namespace Style

def colored (style : Style) : Style := { style with palette := .on }

def plain (style : Style) : Style := { style with palette := .off }

end Style

def TargetDecl.Unescaped : TargetDecl → Prop
  | ofInterface d =>
    Escape.Unescaped d.name ∧ (∀ supertype ∈ d.supertype, Escape.Unescaped supertype) ∧
      ∀ f ∈ d.fields, Escape.Unescaped f.name ∧ Escape.Unescaped f.type
  | ofEnum d =>
    Escape.Unescaped d.name ∧
      ∀ m ∈ d.values, Escape.Unescaped m.name ∧ ∀ literal ∈ m.value, Escape.Unescaped literal

instance : DecidablePred TargetDecl.Unescaped
  | .ofInterface _ => inferInstanceAs (Decidable (_ ∧ _ ∧ _))
  | .ofEnum _ => inferInstanceAs (Decidable (_ ∧ _))

section
variable {style : Style}

theorem TargetField.painted {f : TargetField} (hindent : Unescaped style.indent)
    (hname : Unescaped f.name) (htype : Unescaped f.type) :
    Painted (f.render style.colored) (f.render style.plain) := by
  have hlead : Painted (style.indent ++ f.name ++ ": ") (style.indent ++ f.name ++ ": ") :=
    .of_unescaped _ (by simp [hindent, hname]; decide)
  exact (hlead.append (.name htype)).append (.of_unescaped ";\n" (by decide))

/-- `export`, then what kind of declaration it is, then its name. -/
theorem Escape.Painted.opening {kind name : String} (hkind : Unescaped kind)
    (hname : Unescaped name) :
    Painted
      (Palette.on.keyword "export" ++ " " ++ Palette.on.keyword kind ++ " " ++ Palette.on.name name)
      (Palette.off.keyword "export" ++ " " ++ Palette.off.keyword kind ++ " " ++
        Palette.off.name name) := by
  have hblank : Painted " " " " := .of_unescaped _ (by decide)
  have hexport : Painted (Palette.on.keyword "export") (Palette.off.keyword "export") :=
    .keyword (by decide)
  exact (((hexport.append hblank).append (.keyword hkind)).append hblank).append (.name hname)

theorem TargetInterface.painted_header {d : TargetInterface} (hname : Unescaped d.name)
    (hsupertype : ∀ supertype ∈ d.supertype, Unescaped supertype) :
    Painted (d.header style.colored) (d.header style.plain) := by
  refine (Painted.opening (by decide) hname).append ?_
  cases hd : d.supertype with
  | none => exact .of_unescaped "" (by decide)
  | some supertype =>
    have hblank : Painted " " " " := .of_unescaped _ (by decide)
    have hextends : Painted (Palette.on.keyword "extends") (Palette.off.keyword "extends") :=
      .keyword (by decide)
    exact ((hblank.append hextends).append hblank).append (.name (hsupertype _ hd))

theorem TargetMember.painted {m : TargetMember} (hindent : Unescaped style.indent)
    (hname : Unescaped m.name) (hvalue : ∀ literal ∈ m.value, Unescaped literal) :
    Painted (m.render style.colored) (m.render style.plain) := by
  have hassigned {value : String} (h : Unescaped value) :
      Painted (m.name ++ " = " ++ Palette.on.value value)
        (m.name ++ " = " ++ Palette.off.value value) :=
    .append (.of_unescaped _ (by simp [hname]; decide)) (.value h)
  refine (Painted.of_unescaped _ hindent).append ?_
  cases hm : m.value with
  | some literal => exact hassigned (hvalue literal hm)
  | none =>
    cases hfallback : style.fallback with
    | quotedName =>
      simp only [Style.colored, Style.plain, hfallback]
      exact hassigned (by simp [hname]; decide)
    | bare =>
      simp only [Style.colored, Style.plain, hfallback]
      exact .of_unescaped _ hname

theorem TargetEnum.painted_body {d : TargetEnum} (hindent : Unescaped style.indent)
    (hvalues : ∀ m ∈ d.values, Unescaped m.name ∧ ∀ literal ∈ m.value, Unescaped literal) :
    Painted (d.body style.colored) (d.body style.plain) := by
  unfold body
  split
  · exact .of_unescaped "" (by decide)
  · have hmembers := Painted.join_map ",\n" (by decide)
      fun m hm => TargetMember.painted hindent (hvalues m hm).1 (hvalues m hm).2
    exact hmembers.append (.of_unescaped "\n" (by decide))

namespace TargetDecl

theorem painted {d : TargetDecl} (hindent : Escape.Unescaped style.indent) (h : d.Unescaped) :
    Painted (d.render style.colored) (d.render style.plain) := by
  have hopen : Painted " \x7b\n" " \x7b\n" := .of_unescaped _ (by decide)
  have hclose : Painted "\x7d" "\x7d" := .of_unescaped _ (by decide)
  cases d with
  | ofInterface d =>
    obtain ⟨hname, hsupertype, hfields⟩ := h
    have hheader : Painted (d.header style.colored) (d.header style.plain) :=
      TargetInterface.painted_header hname hsupertype
    have hbody := Painted.join_map "" (by decide)
      fun f hf => TargetField.painted hindent (hfields f hf).1 (hfields f hf).2
    exact ((hheader.append hopen).append hbody).append hclose
  | ofEnum d =>
    obtain ⟨hname, hvalues⟩ := h
    have hbody : Painted (d.body style.colored) (d.body style.plain) :=
      TargetEnum.painted_body hindent hvalues
    exact (((Painted.opening (by decide) hname).append hopen).append hbody).append hclose

theorem painted_renderAll {ds : List TargetDecl} (hindent : Escape.Unescaped style.indent)
    (h : ∀ d ∈ ds, d.Unescaped) :
    Painted (renderAll style.colored ds) (renderAll style.plain ds) :=
  .join_map "\n\n" (by decide) fun d hd => painted hindent (h d hd)

end TargetDecl

end

-- ---------------------------------------------------------------------------
-- Output files
-- ---------------------------------------------------------------------------

/-- Nothing that is printed for the outputs or their imports holds an escape character. -/
def Registry.Unescaped (r : Registry) : Prop :=
  ∀ name d, r.get? name = some d → d.Unescaped ∧ ∀ file ∈ d.output, Escape.Unescaped file.text

/-- Of a run only the outputs count. -/
theorem Registry.WellFormed.unescaped {r : Registry} (h : r.WellFormed)
    (houtputs : ∀ d ∈ r.outputs, d.Unescaped ∧ ∀ file ∈ d.output, Escape.Unescaped file.text) :
    r.Unescaped := fun _ d hd => houtputs d (h.mem_outputs hd)

theorem TargetDecl.Unescaped.name {d : TargetDecl} (h : d.Unescaped) : Escape.Unescaped d.name := by
  cases d with
  | ofInterface | ofEnum => exact h.1

theorem Path.unescaped_modulePath {p root : Path} (h : Unescaped p.text) :
    Unescaped (p.modulePath root) := by
  intro hmem
  rcases mem_modulePath hmem with hslash | hdot | hchars
  · exact absurd hslash (by decide)
  · exact absurd hdot (by decide)
  · exact h hchars

namespace Bundle

variable {b : Bundle} {group : FileGroup}

def colored (b : Bundle) : Bundle := { b with style := b.style.colored }

def plain (b : Bundle) : Bundle := { b with style := b.style.plain }

theorem importLines_colored : b.colored.importLines group = b.importLines group := rfl

theorem importLines_plain : b.plain.importLines group = b.importLines group := rfl

theorem unescaped_importLines (hlead : Unescaped b.style.importPrefix)
    (hregistry : b.registry.Unescaped) : ∀ line ∈ b.importLines group, Unescaped line := by
  intro line hline
  cases hroot : b.importRoot with
  | none => simp [importLines_eq_nil hroot] at hline
  | some root =>
    obtain ⟨_, -, qualified, -, himport⟩ := (mem_importLines_iff hroot).mp hline
    obtain ⟨t, file, ht, hfile, -, rfl⟩ := importLine?_eq_some_iff.mp himport
    obtain ⟨hd, hpath⟩ := hregistry qualified t ht
    have hmodule : Unescaped (file.modulePath root) := Path.unescaped_modulePath (hpath file hfile)
    simp only [renderImport, Escape.unescaped_append]
    exact ⟨⟨⟨⟨by decide, hd.name⟩, by decide⟩, hlead, hmodule⟩, by decide⟩

theorem unescaped_outputs (hregistry : b.registry.Unescaped) :
    ∀ d ∈ b.registry.outputs, d.Unescaped := by
  intro d hd
  obtain ⟨name, -, hname⟩ := List.mem_filterMap.mp hd
  exact (hregistry name d hname).1

theorem painted_renderGroup (hindent : Unescaped b.style.indent)
    (hlead : Unescaped b.style.importPrefix) (hregistry : b.registry.Unescaped)
    (hgroup : group ∈ b.groups) :
    Painted (b.colored.renderGroup group) (b.plain.renderGroup group) := by
  have hmembers : ∀ d ∈ group.members, d.Unescaped := fun d hd =>
    unescaped_outputs hregistry d ((mem_members_iff hgroup).mp hd).1
  have hdeclarations := TargetDecl.painted_renderAll hindent hmembers
  have hlines : ∀ line ∈ b.importLines group, Painted line line := fun line hline =>
    .of_unescaped line (unescaped_importLines hlead hregistry line hline)
  have himports := Painted.join_map "\n" (by decide) hlines
  rw [List.map_id'] at himports
  rw [renderGroup_eq, renderGroup_eq]
  refine .append ?_ hdeclarations
  -- The imports are never coloured, so they are the same on both sides.
  rw [importLines_colored, importLines_plain]
  split
  · exact .of_unescaped "" (by decide)
  · exact himports.append (.of_unescaped "\n\n" (by decide))

end Bundle

-- ---------------------------------------------------------------------------
-- Written files
-- ---------------------------------------------------------------------------

namespace Arguments.TranslateRequest

variable {p : TranslateRequest}

theorem useColor_of_output (h : p.output.isSome) : p.useColor = false := by
  have hsome : p.output.isNone = false := by simpa using h
  simp [useColor, hsome]

theorem options_of_output (h : p.output.isSome) :
    p.options = { p with color := .never }.options := by
  have hnever : { p with color := .never }.useColor = false := useColor_of_output h
  simp [options, useColor_of_output h, hnever]

theorem bundle_of_output (h : p.output.isSome) (r : Registry) :
    p.options.bundle r = (p.options.bundle r).plain := by
  have hcolor : p.options.color = false := useColor_of_output h
  have hpalette : p.options.style.palette = .off := by
    simp [Command.EmitOptions.style, hcolor, Palette.ofEnabled]
  have hstyle : p.options.style = p.options.style.plain := by rw [Style.plain, ← hpalette]
  rw [Command.EmitOptions.bundle, Bundle.plain, ← hstyle]

theorem runTask_of_output (h : p.output.isSome) (input : String) (disk : Disk) :
    Program.runTask (.translate p) input disk =
      Program.runTask (.translate { p with color := .never }) input disk := by
  have hperform (m : Model) : Program.perform (.translate p) m input disk =
      Program.perform (.translate { p with color := .never }) m input disk := by
    simp only [Program.perform, ← options_of_output h]
  unfold Program.runTask
  simp only [Program.classpath, hperform]

end Arguments.TranslateRequest

namespace Bundle

open Arguments (TranslateRequest)

/-- Without its escape sequences a coloured text is the one without colours, and every sequence in
it is closed before the next one opens. Files are written without colours whatever was asked for. -/
theorem colored_decorates (b : Bundle) (hindent : Unescaped b.style.indent)
    (hlead : Unescaped b.style.importPrefix) (hregistry : b.registry.Unescaped) :
    (∀ d : TargetDecl, d.Unescaped →
      Decorates (d.render b.style.colored) (d.render b.style.plain)) ∧
    (∀ group ∈ b.groups, Decorates (b.colored.renderGroup group) (b.plain.renderGroup group)) ∧
    Decorates b.colored.renderAll b.plain.renderAll ∧
    ∀ p : TranslateRequest, p.output.isSome →
      (∀ r, p.options.bundle r = (p.options.bundle r).plain) ∧
      ∀ input disk, Program.runTask (.translate p) input disk =
        Program.runTask (.translate { p with color := .never }) input disk := by
  refine ⟨fun d hd => (TargetDecl.painted hindent hd).toDecorates, fun group hgroup => ?_, ?_,
    fun p hp => ⟨TranslateRequest.bundle_of_output hp, TranslateRequest.runTask_of_output hp⟩⟩
  · exact (painted_renderGroup hindent hlead hregistry hgroup).toDecorates
  · exact (TargetDecl.painted_renderAll hindent (unescaped_outputs hregistry)).toDecorates

def sampleRequest : TranslateRequest where
  classpath := [⟨"src"⟩]
  output := some ⟨"out"⟩
  color := .always

theorem colored_decorates_sample :
    Unescaped Closure.sampleBundle.style.indent ∧
    Unescaped Closure.sampleBundle.style.importPrefix ∧
    Closure.sampleBundle.registry.Unescaped ∧
    (∀ group ∈ Closure.sampleBundle.groups,
      Decorates (Closure.sampleBundle.colored.renderGroup group)
        (Closure.sampleBundle.plain.renderGroup group)) ∧
    ∀ input disk, Program.runTask (.translate sampleRequest) input disk =
      Program.runTask (.translate { sampleRequest with color := .never }) input disk := by
  have hindent : Unescaped Closure.sampleBundle.style.indent := by decide
  have hlead : Unescaped Closure.sampleBundle.style.importPrefix := by decide
  have hwellFormed : Closure.sampleBundle.registry.WellFormed :=
    (Closure.extend_walk Model.sample _ 0 .empty).wellFormed .empty
  have hregistry : Closure.sampleBundle.registry.Unescaped :=
    hwellFormed.unescaped (by decide +kernel)
  obtain ⟨-, hgroups, -, hfiles⟩ :=
    colored_decorates Closure.sampleBundle hindent hlead hregistry
  exact ⟨hindent, hlead, hregistry, hgroups, (hfiles sampleRequest rfl).2⟩

/-- A class that refers to another one, whose output goes to a file with an escape sequence in its
path. -/
def escapedFile : Bundle where
  registry := {
    slots := [
      ("a.A", .done (some (.ofInterface {
        name := "A", qualified := "a.A", output := some ⟨"out/a.ts"⟩
        fields := [⟨"b", "B"⟩], imports := ["b.B"] }))),
      ("b.B", .done (some (.ofInterface {
        name := "B", qualified := "b.B", output := some ⟨"out/\x1b[31mb.ts"⟩ })))]
    finished := ["b.B", "a.A"] }
  importRoot := some ⟨"out"⟩

/-- Every text of the outputs is free of escape characters, but the import of the second output is
not, and it is printed in the same way with colours and without. -/
theorem escapedFile_imported :
    Unescaped escapedFile.style.indent ∧ Unescaped escapedFile.style.importPrefix ∧
    (∀ d ∈ escapedFile.registry.outputs, d.Unescaped ∧ Unescaped d.qualified ∧
      ∀ name ∈ d.imports, Unescaped name) ∧
    ∃ group ∈ escapedFile.groups,
      Escape.erase (escapedFile.colored.renderGroup group) ≠
        escapedFile.plain.renderGroup group := by
  refine ⟨by decide, by decide, by decide, ?_⟩
  decide +kernel

end Bundle

end TypeWeave
