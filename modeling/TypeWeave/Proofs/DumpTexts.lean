import TypeWeave.Command.Dump
import TypeWeave.Proofs.FullNames
import TypeWeave.Proofs.JsonTexts

/-!
# Dumps read back

A decoder for dumped closures. Records are read field by field in their order, the kind of a
declaration first. The decoder accepts what is dumped and nothing else
(`Command.dumped?_eq_some_iff`), and so the text of a dump tells the name of the seed and every
output of its run (`Command.dump_decodes`).
-/

namespace TypeWeave

namespace Json

-- ---------------------------------------------------------------------------
-- Decoding values
-- ---------------------------------------------------------------------------

section
variable {α β : Type}

/-- The decoder accepts what is encoded, and nothing else. -/
def Exact (encode : α → Json) (decode? : Json → Option α) : Prop :=
  ∀ j a, decode? j = some a ↔ j = encode a

def text? : Json → Option String
  | str text => some text
  | _ => none

def optional? (value? : Json → Option α) : Json → Option (Option α)
  | null => some none
  | j => (value? j).map some

def list? (value? : Json → Option α) : Json → Option (List α)
  | arr items => items.mapM value?
  | _ => none

abbrev FieldReader := StateT (List (String × Json)) Option

def field (name : String) (value? : Json → Option α) : FieldReader α
  | (key, j) :: rest => if key = name then (value? j).map fun a => (a, rest) else none
  | [] => none

/-- A record without any fields but those the reader takes. -/
def record? (reader : FieldReader α) : Json → Option α
  | obj fields =>
    match reader fields with
    | some (a, []) => some a
    | _ => none
  | _ => none

theorem exact_text : Exact str text? := by
  intro j text
  cases j <;> simp [text?]

theorem Exact.optional {encode : α → Json} {value? : Json → Option α} (h : Exact encode value?)
    (hnull : ∀ a, encode a ≠ null) : Exact (ofOption encode) (optional? value?) := by
  intro j a
  have hsome : (value? j).map some = some a ↔ ∃ b, a = some b ∧ j = encode b := by
    simp [Option.map_eq_some_iff, h j, eq_comm, and_comm]
  cases a with
  | none => cases j <;> simp_all [optional?, ofOption]
  | some a =>
    cases j with
    | null => simp [optional?, ofOption, (hnull a).symm]
    | _ => simpa [optional?, ofOption] using hsome

theorem Exact.list {encode : α → Json} {value? : Json → Option α} (h : Exact encode value?) :
    Exact (fun as => arr (as.map encode)) (list? value?) := by
  intro j as
  have hitems (items : List Json) : items.mapM value? = some as ↔ items = as.map encode := by
    induction items generalizing as with
    | nil => cases as <;> simp
    | cons item items ih =>
      have hcons : (item :: items).mapM value? = some as ↔
          ∃ a as', value? item = some a ∧ items.mapM value? = some as' ∧ a :: as' = as := by
        simp [List.mapM_cons, Option.bind_eq_some_iff]
      rw [hcons]
      cases as with
      | nil => simp
      | cons a as => simp [h item, ih]
  cases j <;> simp [list?, hitems]

theorem field_eq_some_iff {encode : α → Json} {value? : Json → Option α} (h : Exact encode value?)
    {name : String} {fields rest : List (String × Json)} {a : α} :
    field name value? fields = some (a, rest) ↔ fields = (name, encode a) :: rest := by
  rcases fields with - | ⟨⟨key, j⟩, behind⟩
  · simp [field]
  · by_cases hkey : key = name
    · simp [field, hkey, Option.map_eq_some_iff, h j]
    · simp [field, hkey]

theorem bind_eq_some_iff {reader : FieldReader α} {next : α → FieldReader β}
    {fields rest : List (String × Json)} {b : β} :
    (reader >>= next) fields = some (b, rest) ↔
      ∃ a behind, reader fields = some (a, behind) ∧ next a behind = some (b, rest) := by
  simp [bind, StateT.bind, Option.bind_eq_some_iff]

theorem pure_eq_some_iff {fields rest : List (String × Json)} {a b : α} :
    (pure a : FieldReader α) fields = some (b, rest) ↔ a = b ∧ fields = rest := by
  change some (a, fields) = some (b, rest) ↔ _
  rw [Option.some.injEq, Prod.mk.injEq]

theorem bind_pure_eq_some_iff {reader : FieldReader α} {f : α → β}
    {fields rest : List (String × Json)} {b : β} :
    (reader >>= fun a => pure (f a)) fields = some (b, rest) ↔
      ∃ a, reader fields = some (a, rest) ∧ f a = b := by
  simp only [bind_eq_some_iff, pure_eq_some_iff]
  constructor
  · rintro ⟨a, _, hreader, rfl, rfl⟩
    exact ⟨a, hreader, rfl⟩
  · rintro ⟨a, hreader, rfl⟩
    exact ⟨a, rest, hreader, rfl, rfl⟩

theorem record?_eq_some_iff {reader : FieldReader α} {j : Json} {a : α} :
    record? reader j = some a ↔ ∃ fields, j = obj fields ∧ reader fields = some (a, []) := by
  cases j with
  | obj fields =>
    simp only [record?, obj.injEq, exists_eq_left']
    split <;> simp_all
  | _ => simp [record?]

end

end Json

open Json

-- ---------------------------------------------------------------------------
-- Decoding declarations
-- ---------------------------------------------------------------------------

def Path.ofJson? (j : Json) : Option Path := (text? j).map Path.mk

def TargetField.ofJson? : Json → Option TargetField := record? do
  let name ← field "name" text?
  let type ← field "ty" text?
  return ⟨name, type⟩

def TargetMember.ofJson? : Json → Option TargetMember := record? do
  let name ← field "name" text?
  let value ← field "value" (optional? text?)
  return ⟨name, value⟩

def TargetInterface.reader : FieldReader TargetInterface := do
  let name ← field "name" text?
  let qualified ← field "qualified_name" text?
  let output ← field "output_path" (optional? Path.ofJson?)
  let supertype ← field "extends" (optional? text?)
  let fields ← field "fields" (list? TargetField.ofJson?)
  let imports ← field "imports" (list? text?)
  return { name, qualified, output, supertype, fields, imports }

def TargetEnum.reader : FieldReader TargetEnum := do
  let name ← field "name" text?
  let qualified ← field "qualified_name" text?
  let output ← field "output_path" (optional? Path.ofJson?)
  let values ← field "values" (list? TargetMember.ofJson?)
  return { name, qualified, output, values }

def TargetDecl.ofJson? : Json → Option TargetDecl := record? do
  let kind ← field "kind" text?
  if kind = "interface" then return .ofInterface (← TargetInterface.reader)
  else if kind = "enum" then return .ofEnum (← TargetEnum.reader)
  else failure

def Command.dumped? : Json → Option (String × List TargetDecl) := record? do
  let seed ← field "seed" text?
  let outputs ← field "types" (list? TargetDecl.ofJson?)
  return (seed, outputs)

theorem exact_path : Exact TargetDecl.pathJson Path.ofJson? := by
  rintro j ⟨text⟩
  simp [Path.ofJson?, TargetDecl.pathJson, exact_text j]

theorem exact_optionalText : Exact (ofOption str) (optional? text?) :=
  exact_text.optional fun _ => Json.noConfusion

theorem exact_optionalPath : Exact (ofOption TargetDecl.pathJson) (optional? Path.ofJson?) :=
  exact_path.optional fun _ => Json.noConfusion

theorem exact_field :
    Exact (fun f : TargetField => .obj [("name", .str f.name), ("ty", .str f.type)])
      TargetField.ofJson? := by
  rintro j ⟨name, type⟩
  simp only [TargetField.ofJson?, record?_eq_some_iff, Json.bind_eq_some_iff, pure_eq_some_iff,
    field_eq_some_iff exact_text]
  simp

theorem exact_member :
    Exact (fun v : TargetMember => .obj [("name", .str v.name), ("value", .ofOption .str v.value)])
      TargetMember.ofJson? := by
  rintro j ⟨name, value⟩
  simp only [TargetMember.ofJson?, record?_eq_some_iff, Json.bind_eq_some_iff, pure_eq_some_iff,
    field_eq_some_iff exact_text, field_eq_some_iff exact_optionalText]
  simp

section
variable {fields : List (String × Json)}

theorem TargetInterface.reader_eq_some_iff {d : TargetInterface} :
    reader fields = some (d, []) ↔
      (TargetDecl.ofInterface d).toJson = .obj (("kind", .str "interface") :: fields) := by
  obtain ⟨name, qualified, output, supertype, fields, imports⟩ := d
  simp only [reader, Json.bind_eq_some_iff, pure_eq_some_iff, field_eq_some_iff exact_text,
    field_eq_some_iff exact_optionalPath, field_eq_some_iff exact_optionalText,
    field_eq_some_iff exact_field.list, field_eq_some_iff exact_text.list, TargetDecl.toJson]
  simp [eq_comm]

theorem TargetEnum.reader_eq_some_iff {d : TargetEnum} :
    reader fields = some (d, []) ↔
      (TargetDecl.ofEnum d).toJson = .obj (("kind", .str "enum") :: fields) := by
  obtain ⟨name, qualified, output, values⟩ := d
  simp only [reader, Json.bind_eq_some_iff, pure_eq_some_iff, field_eq_some_iff exact_text,
    field_eq_some_iff exact_optionalPath, field_eq_some_iff exact_member.list, TargetDecl.toJson]
  simp [eq_comm]

end

theorem exact_decl : Exact TargetDecl.toJson TargetDecl.ofJson? := by
  intro j d
  simp only [TargetDecl.ofJson?, record?_eq_some_iff, Json.bind_eq_some_iff,
    field_eq_some_iff exact_text]
  constructor
  · rintro ⟨_, rfl, kind, fields, rfl, h⟩
    split at h
    · next hkind =>
      obtain ⟨e, he, rfl⟩ := bind_pure_eq_some_iff.mp h
      rw [TargetInterface.reader_eq_some_iff.mp he, hkind]
    · split at h
      · next hkind =>
        obtain ⟨e, he, rfl⟩ := bind_pure_eq_some_iff.mp h
        rw [TargetEnum.reader_eq_some_iff.mp he, hkind]
      · cases h
  · rintro rfl
    cases d with
    | ofInterface d =>
      refine ⟨_, rfl, "interface", _, rfl, ?_⟩
      rw [if_pos rfl]
      exact bind_pure_eq_some_iff.mpr ⟨d, TargetInterface.reader_eq_some_iff.mpr rfl, rfl⟩
    | ofEnum d =>
      refine ⟨_, rfl, "enum", _, rfl, ?_⟩
      rw [if_neg (by decide), if_pos rfl]
      exact bind_pure_eq_some_iff.mpr ⟨d, TargetEnum.reader_eq_some_iff.mpr rfl, rfl⟩

theorem Command.dumped?_eq_some_iff {j : Json} {seed : String} {outputs : List TargetDecl} :
    dumped? j = some (seed, outputs) ↔ j = dumpJson seed outputs := by
  simp only [dumped?, record?_eq_some_iff, Json.bind_eq_some_iff, pure_eq_some_iff,
    field_eq_some_iff exact_text, field_eq_some_iff exact_decl.list, dumpJson]
  simp

-- ---------------------------------------------------------------------------
-- Seeds
-- ---------------------------------------------------------------------------

namespace Model

variable {m : Model} {query : String} {seed : Nat}

/-- A query picks the first class or enum of a name. -/
theorem least_of_select (h : m.select query = .ok seed) :
    ∃ name, m.Declares name seed ∧ ∀ j, m.Declares name j → seed ≤ j := by
  rw [select_eq_ok_iff] at h
  obtain ⟨d, hd, hkind, hinfix⟩ := matches_of_mem_candidates (h ▸ List.mem_singleton_self seed)
  have hdeclares : m.Declares d.qualified seed := ⟨d, hd, hkind, rfl⟩
  have hquery : Text.trim query ≠ "" := by
    intro hblank
    simp [candidates_of_blank hblank] at h
  refine ⟨d.qualified, hdeclares, fun j hj => ?_⟩
  by_cases hname : Text.trim query = d.qualified
  · obtain ⟨first, hfirst, -, hleast⟩ := candidates_of_declares hquery (hname ▸ hdeclares)
    obtain rfl : first = seed := by simpa [h] using hfirst.symm
    exact hleast j (hname ▸ hj)
  · -- The query is a part of the name, and then both would be candidates.
    have hsearch : m.search (Text.trim query) = [seed] := by
      simp only [candidates, if_neg hquery] at h
      split at h
      · next exact hexact =>
        obtain rfl := List.singleton_inj.mp h
        have hfound := List.find?_some hexact
        simp [hdeclares.name?, Ne.symm hname] at hfound
      · exact h
    obtain ⟨e, he, hkind', hqualified⟩ := hj
    have hmem : j ∈ m.search (Text.trim query) :=
      mem_search_iff.mpr ⟨e, he, hkind', hqualified ▸ hinfix⟩
    rw [hsearch] at hmem
    exact Nat.le_of_eq (List.mem_singleton.mp hmem).symm

theorem eq_of_select {query' : String} {seed' : Nat} (h : m.select query = .ok seed)
    (h' : m.select query' = .ok seed') (hname : m.name? seed = m.name? seed') : seed = seed' := by
  obtain ⟨name, hseed, hleast⟩ := least_of_select h
  obtain ⟨name', hseed', hleast'⟩ := least_of_select h'
  obtain rfl : name = name' := by simpa [hseed.name?, hseed'.name?] using hname
  exact Nat.le_antisymm (hleast _ hseed') (hleast' _ hseed)

end Model

-- ---------------------------------------------------------------------------
-- Dumps
-- ---------------------------------------------------------------------------

namespace Command

def readDump? (text : String) : Option (String × List TargetDecl) := (parse? text).bind dumped?

variable {options : DumpOptions} {m : Model} {query text : String}

theorem dump_eq_ok_iff :
    dump options m query = .ok text ↔
      ∃ seed r name, m.select query = .ok seed ∧
        Closure.run m (outputLayout options.output options.marker) seed = ⟨r, none⟩ ∧
        m.name? seed = some name ∧ (dumpJson name r.outputs).pretty ++ "\n" = text := by
  unfold dump
  split
  · next e hselect => simp [hselect]
  · next seed hselect =>
    obtain ⟨name, hseed, -⟩ := Model.least_of_select hselect
    split
    · next fault hrun => simp [hselect, hrun]
    · next r hrun => simp [hselect, hrun, hseed.name?]

theorem readDump?_eq_some_iff {name : String} {outputs : List TargetDecl} :
    readDump? text = some (name, outputs) ↔ IsText (dumpJson name outputs) text := by
  simp [readDump?, Option.bind_eq_some_iff, parse?_eq_some_iff, dumped?_eq_some_iff]

theorem isText_dump (name : String) (outputs : List TargetDecl) :
    IsText (dumpJson name outputs) ((dumpJson name outputs).pretty ++ "\n") :=
  (isText_pretty _).append (by simp [IsGap, isGap])

/-- A dump is read back as the name of its seed and the outputs of its run. Where the same text is
printed again, the name and the outputs are the same, and for the same model the seed is. -/
theorem dump_decodes (options : DumpOptions) (m : Model) (query : String) (seed : Nat)
    (r : Registry) (hselect : m.select query = .ok seed)
    (hrun : Closure.run m (outputLayout options.output options.marker) seed = ⟨r, none⟩) :
    ∃ name text, m.name? seed = some name ∧ dump options m query = .ok text ∧
      IsText (dumpJson name r.outputs) text ∧ readDump? text = some (name, r.outputs) ∧
      ∀ options' m' query', dump options' m' query' = .ok text →
        ∃ seed' r', m'.select query' = .ok seed' ∧
          Closure.run m' (outputLayout options'.output options'.marker) seed' = ⟨r', none⟩ ∧
          m'.name? seed' = some name ∧ r'.outputs = r.outputs ∧ (m' = m → seed' = seed) := by
  obtain ⟨name, hseed, -⟩ := Model.least_of_select hselect
  have hread := readDump?_eq_some_iff.mpr (isText_dump name r.outputs)
  refine ⟨name, _, hseed.name?, dump_eq_ok_iff.mpr ⟨seed, r, name, hselect, hrun, hseed.name?, rfl⟩,
    isText_dump name r.outputs, hread, fun options' m' query' hdump => ?_⟩
  obtain ⟨seed', r', name', hselect', hrun', hname', htext⟩ := dump_eq_ok_iff.mp hdump
  have hread' := readDump?_eq_some_iff.mpr (isText_dump name' r'.outputs)
  rw [htext, hread] at hread'
  obtain ⟨rfl, houtputs⟩ := Prod.mk.inj (Option.some.inj hread')
  refine ⟨seed', r', hselect', hrun', hname', houtputs.symm, ?_⟩
  rintro rfl
  exact Model.eq_of_select hselect' hselect (hname'.trans hseed.name?.symm)

/-- Two classes in a cycle and an enum whose literals hold quotes, a backslash, a line break and a
bell. The last declaration repeats the name of the first. -/
def sampleCafe : Model where
  decls := [
    { qualified := "shop.Café", simple := "Café", location := ⟨⟨"src"⟩, ⟨"src/Café.java"⟩⟩
      kind := .classType {
        superclass := some (.declared "shop.Base" 1)
        fields := [⟨"größe", .array (.declared "shop.Base" 1), .publicAccess⟩,
          ⟨"art", .declared "shop.Art" 2, .packageAccess⟩] } },
    { qualified := "shop.Base", simple := "Base", location := ⟨⟨"src"⟩, ⟨"src/Base.java"⟩⟩
      kind := .classType { fields := [⟨"owner", .declared "shop.Café" 0, .publicAccess⟩] } },
    { qualified := "shop.Art", simple := "Art", location := ⟨⟨"src"⟩, ⟨"src/Art.java"⟩⟩
      kind := .enumType [⟨"A", some [.literal .string "\"\\\"\n\""]⟩,
        ⟨"B", some [.literal .string "\x07"]⟩, ⟨"C", none⟩] },
    { qualified := "shop.Café", simple := "Café", location := ⟨⟨"lib"⟩, ⟨"lib/Café.java"⟩⟩
      kind := .enumType [] }]

theorem dump_decodes_sample :
    let options : DumpOptions := { output := some ⟨"we\"b"⟩ }
    let outcome := Closure.run sampleCafe (outputLayout options.output options.marker) 0
    sampleCafe.select "shop.Café" = .ok 0 ∧ outcome = ⟨outcome.registry, none⟩ ∧
    ∃ text, dump options sampleCafe "shop.Café" = .ok text ∧
      readDump? text = some ("shop.Café", [
        .ofInterface {
          name := "Base", qualified := "shop.Base", output := some ⟨"we\"b/base.ts"⟩
          fields := [⟨"owner", "Café"⟩], imports := ["shop.Café"] },
        .ofEnum {
          name := "Art", qualified := "shop.Art", output := some ⟨"we\"b/art.ts"⟩
          values := [⟨"A", some "\"\\\"\n\""⟩, ⟨"B", some "\x07"⟩, ⟨"C", none⟩] },
        .ofInterface {
          name := "Café", qualified := "shop.Café", output := some ⟨"we\"b/café.ts"⟩
          supertype := some "Base", fields := [⟨"größe", "Base[]"⟩, ⟨"art", "Art"⟩]
          imports := ["shop.Base", "shop.Art"] }]) ∧
      dump options sampleCafe "Art" ≠ .ok text := by
  intro options outcome
  have hselect : sampleCafe.select "shop.Café" = .ok 0 := by decide +kernel
  have hrun : outcome = ⟨outcome.registry, none⟩ := by decide +kernel
  obtain ⟨name, text, hname, hdump, -, hread, honly⟩ :=
    dump_decodes options sampleCafe "shop.Café" 0 outcome.registry hselect hrun
  obtain rfl : "shop.Café" = name := Option.some.inj hname
  refine ⟨hselect, hrun, text, hdump, hread.trans ?_, fun hart => ?_⟩
  · decide +kernel
  · obtain ⟨seed, -, hseed, -, -, -, hsame⟩ := honly _ _ _ hart
    have hselect' : sampleCafe.select "Art" = .ok 2 := by decide +kernel
    simp [hselect', hsame rfl] at hseed

end Command

end TypeWeave
