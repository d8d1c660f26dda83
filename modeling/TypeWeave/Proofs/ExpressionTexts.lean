import Mathlib.Data.List.TakeWhile
import TypeWeave.Proofs.TypeExpressions

/-!
# Type expressions read back

A reader for the texts of type expressions. It accepts the texts of those expressions whose names
have none of the characters that brackets and separators are made of, and gives each of them back
(`TargetType.parse?_eq_some_iff`). A name that is also the name of a container does no harm: only a
container is followed by an angle bracket.

`TypeRef.HasShape` says what a reference is in the output, place by place. The shape can be read off
the text of the reference, so two references are written alike if and only if they have the same
shape (`TypeRef.expression_decodes`).
-/

namespace TypeWeave

namespace TargetType

-- ---------------------------------------------------------------------------
-- Reading a text
-- ---------------------------------------------------------------------------

def isPlain (c : Char) : Bool := !(['<', '>', '[', ']', ',', ' '].contains c)

def IsPlainName (name : String) : Prop := name ≠ "" ∧ name.toList.all isPlain = true

instance : DecidablePred IsPlainName := fun _ => inferInstanceAs (Decidable (_ ∧ _))

def Plain (t : TargetType) : Prop := ∀ n ∈ t.names, IsPlainName n

def readBrackets (t : TargetType) : List Char → TargetType × List Char
  | '[' :: ']' :: cs => readBrackets (array t) cs
  | cs => (t, cs)

def readContainer (reader : List Char → Option (TargetType × List Char)) (container : String)
    (cs : List Char) : Option (TargetType × List Char) :=
  match container, reader cs with
  | "Set", some (e, '>' :: rest) => some (set e, rest)
  | "Dict", some (v, '>' :: rest) => some (dict v, rest)
  | "Map", some (k, ',' :: ' ' :: more) =>
    match reader more with
    | some (v, '>' :: rest) => some (map k v, rest)
    | _ => none
  | _, _ => none

/-- A type at the start of a text, and the text behind it. A word in front of an angle bracket is
the name of a container. The number bounds how deep containers nest. -/
def read : Nat → List Char → Option (TargetType × List Char)
  | 0, _ => none
  | depth + 1, cs =>
    let word := String.ofList (cs.takeWhile isPlain)
    let outer := match cs.dropWhile isPlain with
      | '<' :: inner => readContainer (read depth) word inner
      | rest => if word = "" then none else some (name word, rest)
    outer.map fun (t, rest) => readBrackets t rest

def parse? (s : String) : Option TargetType :=
  match read (s.toList.length + 1) s.toList with
  | some (t, []) => some t
  | _ => none

section
variable {t u e k v : TargetType} {cs rest : List Char} {depth : Nat}

theorem plain_name {n : String} : (name n).Plain ↔ IsPlainName n := by
  simp [Plain, names]

theorem plain_map : (map k v).Plain ↔ k.Plain ∧ v.Plain := by
  simp only [Plain, names]
  exact List.forall_mem_append

-- ---------------------------------------------------------------------------
-- What is written is read
-- ---------------------------------------------------------------------------

/-- No type goes on into a text that starts with a separator or a closing bracket. -/
def Ends (cs : List Char) : Prop := ∀ c ∈ cs.head?, isPlain c = false ∧ c ≠ '<'

theorem ends_nil : Ends [] := by simp [Ends]

theorem ends_cons {c : Char} (h : isPlain c = false ∧ c ≠ '<') : Ends (c :: cs) := by
  simpa [Ends] using h

/-- The reader takes the text of the type off any text that the type does not go on into. -/
def Reads (depth : Nat) (t : TargetType) : Prop :=
  ∀ rest, Ends rest → read depth (t.text.toList ++ rest) = some (readBrackets t rest)

theorem Reads.cons (h : Reads depth t) {c : Char}
    (hc : (isPlain c = false ∧ c ≠ '<') ∧ c ≠ '[') (cs : List Char) :
    read depth (t.text.toList ++ c :: cs) = some (t, c :: cs) := by
  rw [h _ (ends_cons hc.1)]
  simp [readBrackets, hc.2]

theorem takeWhile_word {word : List Char} (hword : ∀ c ∈ word, isPlain c = true)
    (hrest : ∀ c ∈ rest.head?, isPlain c = false) :
    (word ++ rest).takeWhile isPlain = word ∧ (word ++ rest).dropWhile isPlain = rest := by
  rw [List.takeWhile_append_of_pos hword, List.dropWhile_append_of_pos hword]
  cases rest with
  | nil => simp
  | cons c cs => simp [hrest c rfl]

theorem reads_name {n : String} (hn : IsPlainName n) : Reads (depth + 1) (name n) := by
  intro rest hrest
  obtain ⟨htake, hdrop⟩ :=
    takeWhile_word (List.all_eq_true.mp hn.2) fun c hc => (hrest c hc).1
  have hangle : ∀ inner, rest ≠ '<' :: inner := by
    rintro inner rfl
    exact (hrest '<' rfl).2 rfl
  simp only [text, read, htake, hdrop, String.ofList_toList, if_neg hn.1]
  rfl

theorem Reads.array (h : Reads depth e) : Reads depth (array e) := by
  intro rest _
  have htext : (TargetType.array e).text.toList ++ rest = e.text.toList ++ '[' :: ']' :: rest := by
    simp [text]
  rw [htext, h _ (ends_cons (by decide))]
  rfl

theorem read_container {container : String} (hword : container.toList.all isPlain = true) :
    read (depth + 1) (container.toList ++ '<' :: cs) =
      (readContainer (read depth) container cs).map fun (t, rest) => readBrackets t rest := by
  have hangle : ∀ c ∈ ('<' :: cs).head?, isPlain c = false := by
    rintro c ⟨⟩
    rfl
  obtain ⟨htake, hdrop⟩ := takeWhile_word (List.all_eq_true.mp hword) hangle
  simp only [read, htake, hdrop, String.ofList_toList]

theorem Reads.set (h : Reads depth e) : Reads (depth + 1) (set e) := by
  intro rest _
  have htext : (TargetType.set e).text.toList ++ rest =
      "Set".toList ++ '<' :: (e.text.toList ++ '>' :: rest) := by
    simp [text]
  rw [htext, read_container (by decide)]
  simp [readContainer, h.cons (c := '>') (by decide)]

theorem Reads.dict (h : Reads depth v) : Reads (depth + 1) (dict v) := by
  intro rest _
  have htext : (TargetType.dict v).text.toList ++ rest =
      "Dict".toList ++ '<' :: (v.text.toList ++ '>' :: rest) := by
    simp [text]
  rw [htext, read_container (by decide)]
  simp [readContainer, h.cons (c := '>') (by decide)]

theorem Reads.map (hk : Reads depth k) (hv : Reads depth v) : Reads (depth + 1) (map k v) := by
  intro rest _
  have htext : (TargetType.map k v).text.toList ++ rest =
      "Map".toList ++ '<' :: (k.text.toList ++ ',' :: ' ' :: (v.text.toList ++ '>' :: rest)) := by
    simp [text]
  rw [htext, read_container (by decide)]
  simp [readContainer, hk.cons (c := ',') (by decide), hv.cons (c := '>') (by decide)]

theorem Plain.reads (ht : t.Plain) (hdepth : t.text.toList.length < depth) : Reads depth t := by
  obtain ⟨depth, rfl⟩ : ∃ d, depth = d + 1 := ⟨depth - 1, by omega⟩
  induction t generalizing depth with
  | name n => exact reads_name (plain_name.mp ht)
  | array e ih =>
    simp only [text, String.toList_append, List.length_append] at hdepth
    exact (ih ht depth (by omega)).array
  | set e ih =>
    simp [text] at hdepth
    obtain ⟨depth, rfl⟩ : ∃ d, depth = d + 1 := ⟨depth - 1, by omega⟩
    exact (ih ht depth (by omega)).set
  | dict v ih =>
    simp [text] at hdepth
    obtain ⟨depth, rfl⟩ : ∃ d, depth = d + 1 := ⟨depth - 1, by omega⟩
    exact (ih ht depth (by omega)).dict
  | map k v ihk ihv =>
    simp [text] at hdepth
    obtain ⟨depth, rfl⟩ : ∃ d, depth = d + 1 := ⟨depth - 1, by omega⟩
    obtain ⟨hk, hv⟩ := plain_map.mp ht
    exact (ihk hk depth (by omega)).map (ihv hv depth (by omega))

-- ---------------------------------------------------------------------------
-- What is read is written
-- ---------------------------------------------------------------------------

theorem readBrackets_eq (h : readBrackets t cs = (u, rest)) :
    t.text.toList ++ cs = u.text.toList ++ rest ∧ u.names = t.names := by
  fun_induction readBrackets t cs with
  | case1 t cs ih => simpa [text, names] using ih h
  | case2 t cs _ =>
    cases h
    exact ⟨rfl, rfl⟩

def Sound (reader : List Char → Option (TargetType × List Char)) : Prop :=
  ∀ cs t rest, reader cs = some (t, rest) → cs = t.text.toList ++ rest ∧ t.Plain

theorem readContainer_sound {reader : List Char → Option (TargetType × List Char)}
    (hreader : Sound reader) {container : String}
    (h : readContainer reader container cs = some (t, rest)) :
    container.toList ++ '<' :: cs = t.text.toList ++ rest ∧ t.Plain := by
  unfold readContainer at h
  split at h
  · next hr =>
    cases h
    obtain ⟨rfl, he⟩ := hreader _ _ _ hr
    exact ⟨by simp [text], he⟩
  · next hr =>
    cases h
    obtain ⟨rfl, he⟩ := hreader _ _ _ hr
    exact ⟨by simp [text], he⟩
  · next hkey =>
    split at h
    · next hvalue =>
      cases h
      obtain ⟨rfl, hk⟩ := hreader _ _ _ hkey
      obtain ⟨rfl, hv⟩ := hreader _ _ _ hvalue
      exact ⟨by simp [text], plain_map.mpr ⟨hk, hv⟩⟩
    · cases h
  · cases h

theorem read_sound (depth : Nat) : Sound (read depth) := by
  induction depth with
  | zero =>
    intro cs t rest h
    cases h
  | succ depth ih =>
    intro cs t rest h
    obtain ⟨⟨u, behind⟩, houter, hbrackets⟩ := Option.map_eq_some_iff.mp h
    obtain ⟨htext, hnames⟩ := readBrackets_eq hbrackets
    have hword : (String.ofList (cs.takeWhile isPlain)).toList.all isPlain = true := by
      rw [String.toList_ofList]
      exact List.all_takeWhile
    have hcs : (String.ofList (cs.takeWhile isPlain)).toList ++ cs.dropWhile isPlain = cs := by
      simp
    have hu : cs = u.text.toList ++ behind ∧ u.Plain := by
      split at houter
      · next inner hdrop =>
        rw [← hcs, hdrop]
        exact readContainer_sound ih houter
      · split at houter
        · cases houter
        · next hne =>
          cases houter
          exact ⟨hcs.symm, plain_name.mpr ⟨hne, hword⟩⟩
    exact ⟨hu.1.trans htext, by simpa only [Plain, hnames] using hu.2⟩

theorem parse?_eq_some_iff {s : String} : parse? s = some t ↔ t.Plain ∧ t.text = s := by
  unfold parse?
  constructor
  · intro h
    split at h
    · next hread =>
      cases h
      obtain ⟨htext, hplain⟩ := read_sound _ _ _ _ hread
      exact ⟨hplain, by simpa [String.toList_inj] using htext.symm⟩
    · cases h
  · rintro ⟨hplain, rfl⟩
    have hread := hplain.reads (Nat.lt_succ_self _) [] ends_nil
    rw [List.append_nil] at hread
    simp [hread, readBrackets]

end

end TargetType

namespace TypeRef

open TargetType (IsPlainName arity fixedNames parse?)

-- ---------------------------------------------------------------------------
-- The shape of a reference
-- ---------------------------------------------------------------------------

/-- The type that a type argument stands for. A missing argument and a wildcard without a bound
stand for none. -/
def argumentType? (args : List TypeRef) (i : Nat) : Option TypeRef := args[i]?.bind bound?

mutual
/-- What a reference is in the output. -/
inductive HasShape : TypeRef → TargetType → Prop
  | element {element s} : HasShape element s → HasShape (.array element) (.array s)
  | list {qualified simple args decl s} :
      qualified = "java.util.List" ∨ qualified = "java.util.Collection" →
      ArgumentShape (argumentType? args 0) s →
      HasShape (.named qualified simple args decl) (.array s)
  | set {simple args decl s} : ArgumentShape (argumentType? args 0) s →
      HasShape (.named "java.util.Set" simple args decl) (.set s)
  | map {simple args decl k v} : ArgumentShape (argumentType? args 0) k →
      ArgumentShape (argumentType? args 1) v →
      HasShape (.named "java.util.Map" simple args decl) (.map k v)
  | scalar {qualified simple args decl s} : TargetType.scalars.lookup qualified = some s →
      HasShape (.named qualified simple args decl) s
  /-- A type that is known by its name. -/
  | itself {qualified simple args decl} : arity qualified = 0 →
      TargetType.scalars.lookup qualified = none →
      HasShape (.named qualified simple args decl) (.name simple)
inductive ArgumentShape : Option TypeRef → TargetType → Prop
  | any : ArgumentShape none .any
  | type {type s} : HasShape type s → ArgumentShape (some type) s
end

theorem argument_argTargets_eq (args : List TypeRef) (i : Nat) :
    TargetType.argument i (argTargets args) = (argumentType? args i).elim (some .any) target? := by
  rw [TargetType.argument, List.getD_eq_getElem?_getD, getElem?_argTargets, argumentType?]
  cases args[i]? with
  | none => rfl
  | some arg => simpa using targetAt_argument arg

theorem argumentShape_iff {args : List TypeRef} {i : Nat} {s : TargetType}
    (ih : ∀ arg ∈ args, ∀ type, arg.bound? = some type →
      ∀ {s}, type.HasShape s ↔ type.target? = some s) :
    ArgumentShape (argumentType? args i) s ↔ TargetType.argument i (argTargets args) = some s := by
  rw [argument_argTargets_eq]
  cases h : argumentType? args i with
  | none =>
    constructor
    · rintro ⟨⟩
      rfl
    · rintro ⟨⟩
      exact .any
  | some type =>
    obtain ⟨arg, ha, hb⟩ := Option.bind_eq_some_iff.mp h
    have htype : type.HasShape s ↔ type.target? = some s :=
      ih arg (List.mem_of_getElem? ha) type hb
    constructor
    · rintro ⟨⟩
      exact htype.mp ‹_›
    · exact fun hs => .type (htype.mpr hs)

theorem arity_of_lookup_scalars {qualified : String} {s : TargetType}
    (h : TargetType.scalars.lookup qualified = some s) : arity qualified = 0 := by
  have hall : ∀ entry ∈ TargetType.scalars, arity entry.1 = 0 := by decide
  obtain ⟨before, after, hsplit, -⟩ := List.lookup_eq_some_iff.mp h
  exact hall (qualified, s) (by simp [hsplit])

section
variable {qualified simple : String} {args : List TypeRef} {decl : Option Nat} {s : TargetType}
  (harg : ∀ i s, ArgumentShape (argumentType? args i) s ↔
    TargetType.argument i (argTargets args) = some s)
include harg

theorem ofNamed_of_hasShape (h : HasShape (.named qualified simple args decl) s) :
    TargetType.ofNamed qualified simple (argTargets args) = some s := by
  cases h with
  | list hq ha => rcases hq with rfl | rfl <;> simp [TargetType.ofNamed, (harg 0 _).mp ha]
  | set ha => simp [TargetType.ofNamed, (harg 0 _).mp ha]
  | map hk hv => simp [TargetType.ofNamed, (harg 0 _).mp hk, (harg 1 _).mp hv]
  | scalar hs => simp [TargetType.ofNamed_of_arity_eq_zero (arity_of_lookup_scalars hs), hs]
  | itself ha hs => simp [TargetType.ofNamed_of_arity_eq_zero ha, hs]

theorem hasShape_of_ofNamed
    (h : TargetType.ofNamed qualified simple (argTargets args) = some s) :
    HasShape (.named qualified simple args decl) s := by
  by_cases hzero : arity qualified = 0
  · rw [TargetType.ofNamed_of_arity_eq_zero hzero, Option.some.injEq] at h
    cases hs : TargetType.scalars.lookup qualified with
    | none =>
      rw [hs, Option.getD_none] at h
      exact h ▸ .itself hzero hs
    | some scalar =>
      rw [hs, Option.getD_some] at h
      exact .scalar (h ▸ hs)
  · unfold TargetType.ofNamed at h
    split at h
    · next hq =>
      subst hq
      obtain ⟨e, he, rfl⟩ := Option.map_eq_some_iff.mp h
      exact .set ((harg 0 e).mpr he)
    split at h
    · next hq =>
      obtain ⟨e, he, rfl⟩ := Option.map_eq_some_iff.mp h
      exact .list (by simpa using hq) ((harg 0 e).mpr he)
    split at h
    · next hq =>
      subst hq
      split at h
      · next hk hv =>
        cases h
        exact .map ((harg 0 _).mpr hk) ((harg 1 _).mpr hv)
      · cases h
    · exact absurd (by simp_all [arity]) hzero

end

theorem hasShape_iff {t : TypeRef} {s : TargetType} : t.HasShape s ↔ t.target? = some s := by
  induction t using bound_induction generalizing s with
  | named qualified simple args decl ih =>
    have harg : ∀ i s, ArgumentShape (argumentType? args i) s ↔
        TargetType.argument i (argTargets args) = some s := fun _ _ => argumentShape_iff ih
    exact ⟨ofNamed_of_hasShape harg, hasShape_of_ofNamed harg⟩
  | array element ih =>
    simp only [target?, targetAt, Option.map_eq_some_iff] at ih ⊢
    constructor
    · rintro ⟨⟩
      exact ⟨_, ih.mp ‹_›, rfl⟩
    · rintro ⟨e, he, rfl⟩
      exact .element (ih.mpr he)
  | wildcard =>
    constructor <;> intro h <;> cases h
  | bounded bound =>
    simp only [target?, targetAt]
    constructor <;> intro h <;> cases h

-- ---------------------------------------------------------------------------
-- The shape read off the text
-- ---------------------------------------------------------------------------

def PrintsPlainly (t : TypeRef) : Prop :=
  ∀ qualified simple args decl, t.Prints (.named qualified simple args decl) → IsPlainName simple

theorem printsPlainly_iff {t : TypeRef} {s : TargetType} (hs : t.target? = some s) :
    t.PrintsPlainly ↔ s.Plain := by
  constructor
  · intro h n hn
    rcases prints_of_mem_names hs hn with hfixed | ⟨qualified, args, decl, hprints⟩
    · exact (by decide : ∀ n ∈ fixedNames, IsPlainName n) n hfixed
    · exact h qualified n args decl hprints
  · exact fun h qualified simple args decl hprints => h simple (hprints.mem_names hs)

theorem exists_target? {t : TypeRef} (ht : ¬ t.Unmappable) (hplain : t.PrintsPlainly) :
    ∃ s, t.target? = some s ∧ parse? s.text = some s := by
  obtain ⟨s, hs⟩ := Option.ne_none_iff_exists'.mp (target?_eq_none_iff.not.mpr ht)
  exact ⟨s, hs, TargetType.parse?_eq_some_iff.mpr ⟨(printsPlainly_iff hs).mp hplain, rfl⟩⟩

/-- The text of a reference reads back as its shape, so references with the same text have the same
shape. -/
theorem expression_decodes {t : TypeRef} (ht : ¬ t.Unmappable) (hplain : t.PrintsPlainly) :
    (∃ s text, t.HasShape s ∧ (∀ s', t.HasShape s' → s' = s) ∧ t.expression? = some text ∧
      parse? text = some s) ∧
    ∀ u : TypeRef, ¬ u.Unmappable → u.PrintsPlainly →
      (t.expression? = u.expression? ↔ ∃ s, t.HasShape s ∧ u.HasShape s) := by
  obtain ⟨s, hs, hread⟩ := exists_target? ht hplain
  simp only [hasShape_iff, expression?]
  refine ⟨⟨s, s.text, hs, ?_, by simp [hs], hread⟩, fun u hu huplain => ⟨fun htext => ?_, ?_⟩⟩
  · intro s' hs'
    exact Option.some.inj (hs'.symm.trans hs)
  · obtain ⟨v, hv, hvread⟩ := exists_target? hu huplain
    have hsv : s.text = v.text := by simpa [hs, hv] using htext
    have hshape : s = v := Option.some.inj (hread.symm.trans (hsv ▸ hvread))
    exact ⟨s, hs, hshape ▸ hv⟩
  · rintro ⟨v, htv, huv⟩
    rw [htv, huv]

/-- An array of maps from a user type that is called `Set` to lists of JSON objects. -/
def sampleRef : TypeRef :=
  .array (.named "java.util.Map" "Map"
    [.named "acme.Set" "Set" [.builtin "java.lang.String"] (some 0),
      .bounded (.named "java.util.List" "List" [.builtin "com.google.gson.JsonObject"] none)] none)

def sampleCollection : TypeRef :=
  .named "java.util.Collection" "Collection"
    [.named "java.util.Map" "Map" [.builtin "other.Set",
      .named "java.util.Collection" "Collection" [.builtin "com.google.gson.JsonObject"] none] none]
    none

def sampleShape : TargetType := .array (.map (.name "Set") (.array (.dict (.name "string"))))

theorem expression_decodes_sample :
    (∃ text, sampleRef.HasShape sampleShape ∧ sampleRef.expression? = some text ∧
      parse? text = some sampleShape) ∧
    ∃ s, sampleRef.HasShape s ∧ sampleCollection.HasShape s := by
  have hs : sampleRef.target? = some sampleShape := by rfl
  have hu : sampleCollection.target? = some sampleShape := by rfl
  have hshape : sampleShape.Plain := by
    unfold TargetType.Plain
    decide
  have ht : ¬ sampleRef.Unmappable := by simp [← target?_eq_none_iff, hs]
  have hu' : ¬ sampleCollection.Unmappable := by simp [← target?_eq_none_iff, hu]
  obtain ⟨⟨s, text, ha, -, htext, hread⟩, hiff⟩ :=
    expression_decodes ht ((printsPlainly_iff hs).mpr hshape)
  obtain rfl : s = sampleShape := Option.some.inj ((hasShape_iff.mp ha).symm.trans hs)
  refine ⟨⟨text, ha, htext, hread⟩, (hiff _ hu' ((printsPlainly_iff hu).mpr hshape)).mp ?_⟩
  rw [expression?, expression?, hs, hu]

example : sampleRef.expression? = some "Map<Set, Dict<string>[]>[]" := by rfl

end TypeRef

end TypeWeave
