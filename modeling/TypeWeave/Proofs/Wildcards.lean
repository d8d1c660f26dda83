import TypeWeave.Proofs.SourceFiles
import TypeWeave.TargetType

/-!
# Where wildcards stand

In a source file a wildcard is a type argument and nothing else, and what bounds it is a type of its
own (`TypeExpr.wellPlaced`). Whatever the reader makes of a text has this shape
(`readUnit_wellPlaced`), and a type of this shape has a type expression once its names are resolved
(`isSome_targetAt_resolveType`).
-/

namespace TypeWeave

namespace TargetType

theorem isSome_argument {i : Nat} {args : List (Option TargetType)}
    (h : ∀ t ∈ args, t.isSome) : (argument i args).isSome := by
  unfold argument
  rw [List.getD_eq_getElem?_getD]
  cases ha : args[i]? with
  | none => rfl
  | some t => exact h t (List.mem_of_getElem? ha)

theorem isSome_ofNamed {qualified simple : String} {args : List (Option TargetType)}
    (h : ∀ t ∈ args, t.isSome) : (ofNamed qualified simple args).isSome := by
  unfold ofNamed
  split
  · simpa using isSome_argument h
  · split
    · simpa using isSome_argument h
    · split
      · obtain ⟨k, hk⟩ := Option.isSome_iff_exists.mp (isSome_argument (i := 0) h)
        obtain ⟨v, hv⟩ := Option.isSome_iff_exists.mp (isSome_argument (i := 1) h)
        simp [hk, hv]
      · rfl

end TargetType

namespace Java

namespace TypeExpr

mutual
/-- Wildcards stand as type arguments only, and no wildcard bounds another. -/
def wellPlaced : Position → TypeExpr → Bool
  | _, primitive _ => true
  | _, named _ args => argsWellPlaced args
  | _, array element => element.wellPlaced .outer
  | .argument, wildcard => true
  | .argument, bounded bound => bound.wellPlaced .outer
  | .outer, wildcard => false
  | .outer, bounded _ => false
def argsWellPlaced : List TypeExpr → Bool
  | [] => true
  | arg :: args => arg.wellPlaced .argument && argsWellPlaced args
end

-- ---------------------------------------------------------------------------
-- Reading
-- ---------------------------------------------------------------------------

theorem wellPlaced_argument {e : TypeExpr} (h : e.wellPlaced .outer = true) :
    e.wellPlaced .argument = true := by
  cases e <;> simp_all [wellPlaced]

theorem wellPlaced_nestArray {e : TypeExpr} (h : e.wellPlaced .outer = true) (n : Nat) :
    (e.nestArray n).wellPlaced .outer = true := by
  induction n with
  | zero => exact h
  | succ n ih => simpa only [nestArray, wellPlaced] using ih

mutual
theorem read_wellPlaced : (fuel : Nat) → {ts rest : List Tree} → {e : TypeExpr} →
    read fuel ts = some (e, rest) → e.wellPlaced .outer = true
  | 0, ts, rest, e, h => by simp [read] at h
  | fuel + 1, ts, rest, e, h => by
    unfold read at h
    split at h
    · next t trees _ =>
      split at h
      · cases h
      · split at h
        · cases h
          exact wellPlaced_nestArray rfl _
        · cases h
          exact wellPlaced_nestArray (readSegments_wellPlaced _ _ _ rfl) _
    · cases h
theorem readSegments_wellPlaced : (fuel : Nat) → (segments : List String) →
    {args : List TypeExpr} → (ts : List Tree) → argsWellPlaced args = true →
    (readSegments fuel segments args ts).1.wellPlaced .outer = true
  | 0, segments, args, ts, h => by simpa [readSegments, wellPlaced] using h
  | fuel + 1, segments, args, ts, h => by
    have hargs : argsWellPlaced ((readArgs? fuel ts).getD (args, ts)).1 = true := by
      cases hr : readArgs? fuel ts with
      | none => exact h
      | some result => exact readArgs?_wellPlaced fuel hr
    rw [readSegments]
    dsimp only
    split
    · exact readSegments_wellPlaced fuel _ _ hargs
    · simpa only [wellPlaced] using hargs
theorem readArgs?_wellPlaced : (fuel : Nat) → {ts rest : List Tree} → {args : List TypeExpr} →
    readArgs? fuel ts = some (args, rest) → argsWellPlaced args = true
  | 0, ts, rest, args, h => by simp [readArgs?] at h
  | fuel + 1, ts, rest, args, h => by
    unfold readArgs? at h
    split at h
    · split at h
      · cases h
      · split at h
        · cases h
          rfl
        · exact readArgList?_wellPlaced _ h
    · cases h
theorem readArgList?_wellPlaced : (fuel : Nat) → {ts rest : List Tree} →
    {args : List TypeExpr} → readArgList? fuel ts = some (args, rest) →
    argsWellPlaced args = true
  | 0, ts, rest, args, h => by simp [readArgList?] at h
  | fuel + 1, ts, rest, args, h => by
    unfold readArgList? at h
    split at h
    · next arg next trees harg =>
      have hfirst := readArg?_wellPlaced fuel harg
      split at h
      · cases h
        simp [argsWellPlaced, hfirst]
      · split at h
        · split at h
          · next others _ hothers =>
            cases h
            simp [argsWellPlaced, hfirst, readArgList?_wellPlaced fuel hothers]
          · cases h
        · cases h
    · cases h
theorem readArg?_wellPlaced : (fuel : Nat) → {ts rest : List Tree} → {e : TypeExpr} →
    readArg? fuel ts = some (e, rest) → e.wellPlaced .argument = true
  | 0, ts, rest, e, h => by simp [readArg?] at h
  | fuel + 1, ts, rest, e, h => by
    unfold readArg? at h
    split at h
    · split at h
      · exact wellPlaced_argument (read_wellPlaced _ h)
      · split at h
        · cases h
          rfl
        · split at h
          · split at h
            · next hbound =>
              cases h
              exact read_wellPlaced _ hbound
            · cases h
          · cases h
            rfl
    · cases h
end

end TypeExpr

def WrittenKind.wellPlaced (kind : WrittenKind) : Bool := kind.types.all (·.wellPlaced .outer)

theorem readFields_wellPlaced {member : List Tree} {f : WrittenField} (h : f ∈ readFields member) :
    f.type.wellPlaced .outer = true := by
  unfold readFields at h
  dsimp only at h
  split at h
  · cases h
  · next type declarators htype =>
    split at h
    · cases h
    · obtain ⟨entry, -, hentry⟩ := List.mem_filterMap.mp h
      cases entry with
      | nil => cases hentry
      | cons t ts =>
        obtain ⟨name, -, rfl⟩ := Option.map_eq_some_iff.mp hentry
        exact TypeExpr.wellPlaced_nestArray (TypeExpr.read_wellPlaced _ htype) _

theorem superclass?_wellPlaced {ts : List Tree} {e : TypeExpr} (h : superclass? ts = some e) :
    e.wellPlaced .outer = true := by
  unfold superclass? at h
  split at h
  · split at h
    · obtain ⟨⟨type, rest⟩, htype, rfl⟩ := Option.map_eq_some_iff.mp h
      exact TypeExpr.read_wellPlaced _ htype
    · cases h
  · cases h

theorem headerOf?_wellPlaced {kind : BodyKind} {keyword name : String} {rest body : List Tree}
    {header : Header} (h : headerOf? kind keyword name rest body = some header) :
    header.kind.wellPlaced = true := by
  unfold headerOf? at h
  split at h
  · cases h
    simp only [WrittenKind.wellPlaced, WrittenKind.types, List.all_append, Bool.and_eq_true,
      List.all_eq_true, Option.mem_toList, List.mem_map, List.mem_flatMap]
    refine ⟨fun e he => superclass?_wellPlaced he, ?_⟩
    rintro e ⟨f, ⟨member, -, hf⟩, rfl⟩
    exact readFields_wellPlaced hf
  · cases h
    rfl
  · cases h
    rfl
  · split at h
    · cases h
      rfl
    · cases h
  · cases h

theorem readHeader?_wellPlaced {kind : BodyKind} {member : List Tree} {header : Header}
    (h : readHeader? kind member = some header) : header.kind.wellPlaced = true := by
  unfold readHeader? at h
  split at h
  · split at h
    · dsimp only at h
      obtain ⟨name, -, rfl⟩ := Option.map_eq_some_iff.mp h
      rfl
    · split at h
      · obtain ⟨name, -, hheader⟩ := Option.bind_eq_some_iff.mp h
        exact headerOf?_wellPlaced hheader
      · cases h
  · cases h

theorem WrittenType.mem_nestedPlacements {file : SourceFile} {outer : List String}
    {types : List WrittenType} {p : Placement} :
    p ∈ nestedPlacements file outer types ↔ ∃ type ∈ types, p ∈ type.placements file outer := by
  induction types with
  | nil => simp [nestedPlacements]
  | cons type rest ih => simp [nestedPlacements, ih]

/-- By induction on the depth to which types nest. -/
theorem readTypes_wellPlaced {file : SourceFile} {depth : Nat} {kind : BodyKind} {ts : List Tree}
    {outer : List String} {type : WrittenType} {p : Placement} (h : type ∈ readTypes depth kind ts)
    (hp : p ∈ type.placements file outer) : p.type.kind.wellPlaced = true := by
  induction depth generalizing kind ts outer type with
  | zero => simp [readTypes] at h
  | succ depth ih =>
    obtain ⟨member, -, hmember⟩ := List.mem_filterMap.mp h
    obtain ⟨header, hheader, rfl⟩ := Option.map_eq_some_iff.mp hmember
    rcases List.mem_cons.mp hp with rfl | hp
    · exact readHeader?_wellPlaced hheader
    · obtain ⟨inner, hinner, hp⟩ := WrittenType.mem_nestedPlacements.mp hp
      exact ih hinner hp

def WildcardsPlaced (files : List SourceFile) : Prop :=
  ∀ p ∈ files.flatMap SourceFile.placements, p.type.kind.wellPlaced = true

instance (files : List SourceFile) : Decidable (WildcardsPlaced files) :=
  inferInstanceAs (Decidable (∀ p ∈ _, _))

theorem readUnit_wellPlaced (location : SourceLocation) (text : String) :
    ∀ p ∈ SourceFile.placements ⟨location, readUnit text⟩, p.type.kind.wellPlaced = true := by
  intro p hp
  obtain ⟨type, htype, hp⟩ := List.mem_flatMap.mp hp
  exact readTypes_wellPlaced htype hp

-- ---------------------------------------------------------------------------
-- Resolving
-- ---------------------------------------------------------------------------

mutual
theorem isSome_targetAt_resolveType {names : Names} {unit : SourceUnit} {scope : List String} :
    (e : TypeExpr) → (position : Position) → e.wellPlaced position = true →
      ((resolveType names unit scope e).targetAt position).isSome
  | .primitive keyword, position, _ => by
    simp only [resolveType, TypeRef.builtin, TypeRef.targetAt, TypeRef.argTargets]
    exact TargetType.isSome_ofNamed (by simp)
  | .named segments args, position, h => by
    simp only [TypeExpr.wellPlaced] at h
    simp only [resolveType, TypeRef.targetAt]
    exact TargetType.isSome_ofNamed (isSome_of_mem_argTargets args h)
  | .array element, position, h => by
    simp only [TypeExpr.wellPlaced] at h
    simp only [resolveType, TypeRef.targetAt, Option.isSome_map]
    exact isSome_targetAt_resolveType element .outer h
  | .wildcard, .argument, _ => rfl
  | .bounded bound, .argument, h => by
    simp only [TypeExpr.wellPlaced] at h
    simp only [resolveType, TypeRef.targetAt]
    exact isSome_targetAt_resolveType bound .outer h
theorem isSome_of_mem_argTargets {names : Names} {unit : SourceUnit} {scope : List String} :
    (es : List TypeExpr) → TypeExpr.argsWellPlaced es = true →
      ∀ t ∈ TypeRef.argTargets (resolveTypes names unit scope es), t.isSome
  | [], _ => by simp [resolveTypes, TypeRef.argTargets]
  | e :: es, h => by
    simp only [TypeExpr.argsWellPlaced, Bool.and_eq_true] at h
    simp only [resolveTypes, TypeRef.argTargets, List.forall_mem_cons]
    exact ⟨isSome_targetAt_resolveType e .argument h.1, isSome_of_mem_argTargets es h.2⟩
end

end Java

end TypeWeave
