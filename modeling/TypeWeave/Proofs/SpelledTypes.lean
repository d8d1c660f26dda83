import TypeWeave.Proofs.UnitGrammar

/-!
# Reading spelled types

The reader of type expressions gives back the type that trees spell, in front of anything that does
not go on with it (`SpellsType.read_append`). Array brackets that follow are read with the type.
-/

namespace TypeWeave.Java

namespace TypeExpr

open Java.Tree

/-- Trees that no dotted name goes on with. -/
def Ends (rest : List Tree) : Prop :=
  ∀ t ∈ rest.head?, t.isLeaf "." = false ∧ t.isLeaf "<" = false

theorem ends_group (opening : Token) (inner : List Tree) (closing : Option Token)
    (rest : List Tree) : Ends (group opening inner closing :: rest) := by
  intro t ht
  cases ht
  exact ⟨rfl, rfl⟩

theorem nestArray_array (element : TypeExpr) (n : Nat) :
    (array element).nestArray n = array (element.nestArray n) := by
  induction n with
  | zero => rfl
  | succ n ih => rw [nestArray, nestArray, ih]

theorem withDimensions_square (element : TypeExpr) (gap last : String) (rest : List Tree) :
    withDimensions element (square gap last :: rest) = withDimensions (array element) rest := by
  simp [withDimensions, dimensions, isDimension, nestArray, nestArray_array]

theorem withDimensions_leaf (element : TypeExpr) (token : Token) (rest : List Tree) :
    withDimensions element (leaf token :: rest) = (element, leaf token :: rest) := by
  simp [withDimensions, dimensions, isDimension, isAnnotationTree, nestArray]

section
variable {fuel : Nat} {segments : List String} {args : List TypeExpr} {rest ts : List Tree}

theorem read_annotationTree (parts rest : List Tree) :
    read fuel (annotationTree parts :: rest) = read fuel rest := by
  cases fuel with
  | zero => simp [read]
  | succ fuel =>
    have hdrop : (annotationTree parts :: rest).dropWhile isAnnotationTree =
        rest.dropWhile isAnnotationTree := rfl
    rw [read.eq_def, read.eq_def, hdrop]

theorem readArgs?_eq_none (h : ∀ t ∈ rest.head?, t.isLeaf "<" = false) :
    readArgs? fuel rest = none := by
  match fuel, rest with
  | 0, _ | _ + 1, [] | _ + 1, [_] => rfl
  | fuel + 1, opening :: next :: rest => simp [readArgs?, h opening rfl]

theorem segment?_eq_none (h : Ends rest) : segment? rest = none := by
  match rest with
  | [] => rfl
  | t :: rest =>
    rw [segment?]
    split <;> simp [(h t rfl).1]

theorem readSegments_of_ends (h : Ends rest) :
    readSegments fuel segments args rest = (named segments args, rest) := by
  cases fuel with
  | zero => rfl
  | succ fuel =>
    have hargs : readArgs? fuel rest = none := readArgs?_eq_none fun t ht => (h t ht).2
    simp only [readSegments, hargs, Option.getD_none, segment?_eq_none h]

theorem readSegments_dot {dot gap name : String} :
    readSegments (fuel + 1) segments args (mark dot "." :: word gap name :: rest) =
      readSegments fuel (segments ++ [name]) args rest := by
  have hargs : readArgs? fuel (mark dot "." :: word gap name :: rest) = none := by
    refine readArgs?_eq_none fun t ht => ?_
    cases ht
    rfl
  rw [readSegments, hargs, Option.getD_none]
  rfl

theorem readSegments_name {names : List String} (h : SpellsName ts names) (dot : String) :
    readSegments (names.length + fuel) segments args (mark dot "." :: (ts ++ rest)) =
      readSegments fuel (segments ++ names) args rest := by
  induction h generalizing segments dot with
  | last =>
    rw [List.length_singleton, Nat.add_comm, List.singleton_append, readSegments_dot]
  | @cons gap name dot' ts names _ _ ih =>
    have hfuel : (name :: names).length + fuel = names.length + fuel + 1 := by
      rw [List.length_cons]
      omega
    rw [hfuel, List.cons_append, List.cons_append, readSegments_dot, ih, List.append_assoc,
      List.singleton_append]

/-- A name is read, and then what follows it. -/
theorem read_name {names : List String} (h : SpellsName ts names) :
    read (names.length + fuel) (ts ++ rest) =
      some (withDimensions (readSegments fuel names [] rest).1
        (readSegments fuel names [] rest).2) := by
  have hprimitives : ∀ keyword ∈ primitives, keyword ∈ keywords := by decide
  have hword {gap name : String} (hname : IsIdentifier name) (fuel : Nat) (rest : List Tree) :
      read (fuel + 1) (word gap name :: rest) =
        some (withDimensions (readSegments fuel [name] [] rest).1
          (readSegments fuel [name] [] rest).2) := by
    have hnot : name ∉ primitives := fun hmem => hname.not_keyword (hprimitives name hmem)
    simp [TypeExpr.read, isAnnotationTree, hnot]
  cases h with
  | last hname => rw [List.length_singleton, Nat.add_comm, List.singleton_append, hword hname]
  | @cons gap name dot ts names hname h =>
    have hfuel : (name :: names).length + fuel = names.length + fuel + 1 := by
      rw [List.length_cons]
      omega
    rw [hfuel, List.cons_append, List.cons_append, hword hname, readSegments_name h]
    rfl

end

end TypeExpr

open Java.Tree TypeExpr

-- ---------------------------------------------------------------------------
-- First trees
-- ---------------------------------------------------------------------------

def StartsType (text : String) : Prop := text ∈ valueTypes ∨ IsIdentifier text

theorem StartsType.ne {text other : String} (h : StartsType text) (hvalue : other ∉ valueTypes)
    (hother : other ∈ keywords ∨ ∀ c ∈ other.toList.head?, isWordStart c = false) :
    text ≠ other := by
  rintro rfl
  rcases h with h | h
  · exact hvalue h
  · exact h.ne hother rfl

theorem SpellsName.starts {ts : List Tree} {names : List String} (h : SpellsName ts names) :
    ∃ gap name us, ts = word gap name :: us ∧ IsIdentifier name := by
  cases h with
  | last h | cons h _ => exact ⟨_, _, _, rfl, h⟩

theorem SpellsType.starts {ts : List Tree} {type : TypeExpr} (h : SpellsType ts type) :
    ∃ gap text us, ts = word gap text :: us ∧ StartsType text := by
  cases h with
  | primitive h => exact ⟨_, _, _, rfl, .inl h⟩
  | named h =>
    obtain ⟨gap, name, us, rfl, hname⟩ := h.starts
    exact ⟨gap, name, us, rfl, .inr hname⟩
  | generic h _ =>
    obtain ⟨gap, name, us, rfl, hname⟩ := h.starts
    exact ⟨gap, name, _, rfl, .inr hname⟩
  | array h =>
    obtain ⟨gap, text, us, rfl, htext⟩ := h.starts
    exact ⟨gap, text, _, rfl, htext⟩

theorem SpellsArgument.starts {ts : List Tree} {arg : TypeExpr} (h : SpellsArgument ts arg) :
    ∃ token us, ts = leaf token :: us ∧ token.text ≠ ">" := by
  cases h with
  | type h =>
    obtain ⟨gap, text, us, rfl, htext⟩ := h.starts
    exact ⟨_, us, rfl, htext.ne (by decide) (by decide)⟩
  | wildcard | bounded => exact ⟨_, _, rfl, by simp⟩

theorem SpellsArguments.starts {ts : List Tree} {args : List TypeExpr}
    (h : SpellsArguments ts args) : ∃ token us, ts = leaf token :: us ∧ token.text ≠ ">" := by
  cases h with
  | last h | cons h _ =>
    obtain ⟨token, us, rfl, htoken⟩ := h.starts
    exact ⟨token, _, rfl, htoken⟩

theorem SpellsName.length_le {ts : List Tree} {names : List String} (h : SpellsName ts names) :
    names.length ≤ ts.length := by
  induction h with
  | last => exact Nat.le_refl 1
  | cons _ _ ih =>
    simp only [List.length_cons]
    omega

-- ---------------------------------------------------------------------------
-- Types
-- ---------------------------------------------------------------------------

theorem IsIdentifier.ends {name : String} (h : IsIdentifier name) (gap : String)
    (rest : List Tree) : Ends (word gap name :: rest) := by
  intro t ht
  cases ht
  exact ⟨h.isLeaf gap (by decide), h.isLeaf gap (by decide)⟩

theorem ends_mark {gap text : String} {rest : List Tree} (h : text ∈ [">", ","]) :
    Ends (mark gap text :: rest) := by
  have hmarks : ∀ text ∈ [">", ","], text ≠ "." ∧ text ≠ "<" := by decide
  intro t ht
  cases ht
  simpa [isLeaf] using hmarks text h

-- By recursion on the spelling. Each reading takes one unit of fuel, and at most four of them start
-- at one tree.
mutual
theorem SpellsType.read_append {ts rest : List Tree} {type : TypeExpr} {fuel : Nat}
    (h : SpellsType ts type) (hrest : Ends rest) (hfuel : 4 * ts.length ≤ fuel) :
    read fuel (ts ++ rest) = some (withDimensions type rest) := by
  match h with
  | .primitive h =>
    have hprimitives : ∀ keyword ∈ valueTypes, keyword ∈ primitives := by decide
    obtain ⟨fuel, rfl⟩ := Nat.exists_eq_add_of_le' hfuel
    simp [TypeExpr.read, isAnnotationTree, hprimitives _ h]
  | @SpellsType.named ts segments h =>
    have hlength := h.length_le
    obtain ⟨fuel, rfl⟩ := Nat.exists_eq_add_of_le (show segments.length ≤ fuel by omega)
    rw [read_name h, readSegments_of_ends hrest]
  | @SpellsType.generic ts us segments args gap h hargs =>
    have hlength := h.length_le
    rw [List.length_append, List.length_cons] at hfuel
    obtain ⟨fuel, rfl⟩ := Nat.exists_eq_add_of_le (show segments.length ≤ fuel by omega)
    obtain ⟨fuel, rfl⟩ := Nat.exists_eq_add_of_le' (show 2 ≤ fuel by omega)
    have hread : readArgs? (fuel + 1) (mark gap "<" :: (us ++ rest)) = some (args, rest) := by
      have hlist : readArgList? fuel (us ++ rest) = some (args, rest) :=
        hargs.read_append (by omega)
      obtain ⟨token, us, rfl, htoken⟩ := hargs.starts
      simpa [readArgs?, isLeaf, htoken] using hlist
    rw [List.append_assoc, List.cons_append, read_name h, readSegments, hread, Option.getD_some]
    simp only [segment?_eq_none hrest]
  | @SpellsType.array ts element gap last h =>
    rw [List.length_append] at hfuel
    rw [List.append_assoc, List.singleton_append, h.read_append (ends_group _ _ _ _) (by omega),
      withDimensions_square]
theorem SpellsArguments.read_append {ts rest : List Tree} {args : List TypeExpr} {fuel : Nat}
    (h : SpellsArguments ts args) (hfuel : 4 * ts.length ≤ fuel) :
    readArgList? fuel (ts ++ rest) = some (args, rest) := by
  match h with
  | .last h =>
    rw [List.length_append, List.length_singleton] at hfuel
    obtain ⟨fuel, rfl⟩ := Nat.exists_eq_add_of_le' (show 1 ≤ fuel by omega)
    rw [List.append_assoc, List.singleton_append, readArgList?,
      h.read_append (by decide) (by omega)]
    simp [isLeaf]
  | .cons h hargs =>
    rw [List.length_append, List.length_cons] at hfuel
    obtain ⟨fuel, rfl⟩ := Nat.exists_eq_add_of_le' (show 1 ≤ fuel by omega)
    rw [List.append_assoc, List.cons_append, readArgList?, h.read_append (by decide) (by omega)]
    simp [isLeaf, hargs.read_append (show _ ≤ fuel by omega)]
theorem SpellsArgument.read_append {ts rest : List Tree} {arg : TypeExpr} {fuel : Nat}
    {gap text : String} (h : SpellsArgument ts arg) (htext : text ∈ [">", ","])
    (hfuel : 4 * ts.length < fuel) :
    readArg? fuel (ts ++ mark gap text :: rest) = some (arg, mark gap text :: rest) := by
  match h with
  | .type h =>
    obtain ⟨fuel, rfl⟩ := Nat.exists_eq_add_of_le' (show 1 ≤ fuel by omega)
    have hread := h.read_append (@ends_mark gap text rest htext) (show _ ≤ fuel by omega)
    rw [withDimensions_leaf] at hread
    obtain ⟨gap', word, us, rfl, hword⟩ := h.starts
    have hne : word ≠ "?" := hword.ne (by decide) (by decide)
    simpa [readArg?, isAnnotationTree, isLeaf, hne] using hread
  | .wildcard =>
    have hmarks : ∀ text ∈ [">", ","], text ≠ "extends" ∧ text ≠ "super" := by decide
    obtain ⟨fuel, rfl⟩ := Nat.exists_eq_add_of_le' (show 1 ≤ fuel by omega)
    simp [readArg?, isAnnotationTree, isLeaf, hmarks text htext]
  | .bounded hkeyword h =>
    simp only [List.length_cons] at hfuel
    obtain ⟨fuel, rfl⟩ := Nat.exists_eq_add_of_le' (show 1 ≤ fuel by omega)
    have hread := h.read_append (@ends_mark gap text rest htext) (show _ ≤ fuel by omega)
    rw [withDimensions_leaf] at hread
    simp only [List.mem_cons, List.not_mem_nil, or_false] at hkeyword
    rcases hkeyword with rfl | rfl <;> simp [readArg?, isAnnotationTree, isLeaf, hread]
end

theorem SpellsType.parse?_append {ts rest : List Tree} {type : TypeExpr} (h : SpellsType ts type)
    (hrest : Ends rest) : parse? (ts ++ rest) = some (withDimensions type rest) :=
  h.read_append hrest (by simp only [fuelFor, List.length_append]; omega)

end TypeWeave.Java
