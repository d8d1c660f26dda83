import TypeWeave.TargetType

/-!
# What a type expression is made of

A type expression spells the elements of arrays and, for lists, sets and maps, the types that their
arguments stand for; all other type arguments are dropped. `Unmappable` and `Prints` follow these
places. A type has no expression if and only if a wildcard stands in one of them
(`target?_eq_none_iff`); otherwise the names in the expression are the simple names of the
references printed there, a few fixed words aside (`Prints.mem_names`, `prints_of_mem_names`).
-/

namespace TypeWeave

namespace TargetType

/-- How many type arguments of a named type its expression spells. -/
def arity (qualified : String) : Nat :=
  if qualified = "java.util.Map" then 2
  else if qualified ∈ ["java.util.Set", "java.util.List", "java.util.Collection"] then 1
  else 0

def names : TargetType → List String
  | name n => [n]
  | array e => e.names
  | set e => e.names
  | map k v => k.names ++ v.names
  | dict v => v.names

/-- The names an expression can have without a reference of that name. -/
def fixedNames : List String := ["string", "number", "boolean", "any"]

section
variable {qualified simple n : String} {args : List (Option TargetType)} {u v : TargetType}
  {i : Nat}

theorem ofNamed_cases (qualified simple : String) (args : List (Option TargetType)) :
    (arity qualified = 1 ∧ (ofNamed qualified simple args = (argument 0 args).map set ∨
      ofNamed qualified simple args = (argument 0 args).map array)) ∨
    (arity qualified = 2 ∧ ofNamed qualified simple args =
      (argument 0 args).bind fun k => (argument 1 args).map fun v => map k v) ∨
    (arity qualified = 0 ∧
      ofNamed qualified simple args = some ((scalars.lookup qualified).getD (name simple))) := by
  unfold ofNamed arity
  by_cases hset : qualified = "java.util.Set"
  · simp [hset]
  · by_cases hlist : qualified = "java.util.List" ∨ qualified = "java.util.Collection"
    · rcases hlist with rfl | rfl <;> simp
    · by_cases hmap : qualified = "java.util.Map"
      · subst hmap
        cases argument 0 args <;> cases argument 1 args <;> simp
      · simp_all

theorem argument_eq_none_iff : argument i args = none ↔ args[i]? = some none := by
  unfold argument
  rw [List.getD_eq_getElem?_getD]
  cases args[i]? <;> simp

theorem ofNamed_eq_none_iff :
    ofNamed qualified simple args = none ↔ ∃ i < arity qualified, args[i]? = some none := by
  simp only [← argument_eq_none_iff]
  rcases ofNamed_cases qualified simple args with ⟨ha, h | h⟩ | ⟨ha, h⟩ | ⟨ha, h⟩
  · simp [ha, h]
  · simp [ha, h]
  · rw [ha, h]
    constructor
    · cases hk : argument 0 args with
      | none => exact fun _ => ⟨0, by omega, hk⟩
      | some k => exact fun hv => ⟨1, by omega, by simpa using hv⟩
    · rintro ⟨i, hi, hn⟩
      obtain rfl | rfl : i = 0 ∨ i = 1 := by omega
      · simp [hn]
      · cases argument 0 args <;> simp [hn]
  · simp [ha, h]

/-- The names in the expression of a named type that spells some of its arguments. -/
theorem mem_names_ofNamed (ha : 0 < arity qualified) (h : ofNamed qualified simple args = some u) :
    n ∈ u.names ↔ ∃ i < arity qualified, ∃ v, argument i args = some v ∧ n ∈ v.names := by
  rcases ofNamed_cases qualified simple args with ⟨harity, hn | hn⟩ | ⟨harity, hn⟩ | ⟨harity, -⟩
  · obtain ⟨v, hv, rfl⟩ := Option.map_eq_some_iff.mp (hn.symm.trans h)
    simp [harity, hv, names]
  · obtain ⟨v, hv, rfl⟩ := Option.map_eq_some_iff.mp (hn.symm.trans h)
    simp [harity, hv, names]
  · obtain ⟨k, hk, hv⟩ := Option.bind_eq_some_iff.mp (hn.symm.trans h)
    obtain ⟨v, hv', rfl⟩ := Option.map_eq_some_iff.mp hv
    simp only [names, List.mem_append, harity]
    constructor
    · rintro (hm | hm)
      · exact ⟨0, by omega, k, hk, hm⟩
      · exact ⟨1, by omega, v, hv', hm⟩
    · rintro ⟨i, hi, w, hw, hm⟩
      obtain rfl | rfl : i = 0 ∨ i = 1 := by omega
      · exact .inl (Option.some.inj (hk.symm.trans hw) ▸ hm)
      · exact .inr (Option.some.inj (hv'.symm.trans hw) ▸ hm)
  · omega

theorem ofNamed_of_arity_eq_zero (ha : arity qualified = 0) :
    ofNamed qualified simple args = some ((scalars.lookup qualified).getD (name simple)) := by
  rcases ofNamed_cases qualified simple args with ⟨harity, -⟩ | ⟨harity, -⟩ | ⟨-, h⟩
  · omega
  · omega
  · exact h

theorem names_scalars (h : scalars.lookup qualified = some u) (hn : n ∈ u.names) :
    n ∈ fixedNames := by
  have hall : ∀ entry ∈ scalars, ∀ n ∈ entry.2.names, n ∈ fixedNames := by decide
  obtain ⟨before, after, hsplit, -⟩ := List.lookup_eq_some_iff.mp h
  exact hall (qualified, u) (by simp [hsplit]) n hn

end

end TargetType

namespace TypeRef

open TargetType (arity fixedNames)

-- ---------------------------------------------------------------------------
-- Types without an expression
-- ---------------------------------------------------------------------------

/-- A wildcard stands where a type is spelled. As a type argument it stands for its bound. -/
inductive Unmappable : TypeRef → Prop
  | wildcard : Unmappable .wildcard
  | bounded {bound} : Unmappable (.bounded bound)
  | element {element} : Unmappable element → Unmappable (.array element)
  | argument {qualified simple args decl i arg type} : i < arity qualified →
      args[i]? = some arg → arg.bound? = some type → Unmappable type →
      Unmappable (.named qualified simple args decl)

theorem targetAt_argument (arg : TypeRef) :
    arg.targetAt .argument = arg.bound?.elim (some .any) target? := by
  cases arg <;> simp [targetAt, bound?, target?]

theorem getElem?_argTargets (args : List TypeRef) (i : Nat) :
    (argTargets args)[i]? = args[i]?.map (targetAt .argument) := by
  induction args generalizing i with
  | nil => rfl
  | cons arg args ih =>
    cases i with
    | zero => rfl
    | succ i => simpa [argTargets] using ih i

theorem Unmappable.target?_eq_none {t : TypeRef} (h : t.Unmappable) : t.target? = none := by
  induction h with
  | wildcard => rfl
  | bounded => simp [target?, targetAt]
  | element _ ih => simpa [target?, targetAt] using ih
  | argument hi ha hb _ ih =>
    simp only [target?, targetAt]
    refine TargetType.ofNamed_eq_none_iff.mpr ⟨_, hi, ?_⟩
    rw [getElem?_argTargets, ha]
    simp [targetAt_argument, hb, ih]

theorem sizeOf_le_of_bound? {arg type : TypeRef} (h : arg.bound? = some type) :
    sizeOf type ≤ sizeOf arg := by
  cases arg with
  | wildcard => cases h
  | bounded bound =>
    cases h
    simp
  | _ =>
    cases h
    exact Nat.le_refl _

/-- Induction along the places that a type expression spells. -/
@[elab_as_elim]
theorem bound_induction {motive : TypeRef → Prop}
    (named : ∀ qualified simple args decl,
      (∀ arg ∈ args, ∀ type, arg.bound? = some type → motive type) →
      motive (.named qualified simple args decl))
    (array : ∀ element, motive element → motive (.array element))
    (wildcard : motive .wildcard) (bounded : ∀ bound, motive bound → motive (.bounded bound)) :
    (t : TypeRef) → motive t
  | .named qualified simple args decl =>
    named qualified simple args decl fun arg ha type hb =>
      have : sizeOf type < sizeOf args :=
        Nat.lt_of_le_of_lt (sizeOf_le_of_bound? hb) (List.sizeOf_lt_of_mem ha)
      bound_induction named array wildcard bounded type
  | .array element => array element (bound_induction named array wildcard bounded element)
  | .wildcard => wildcard
  | .bounded bound => bounded bound (bound_induction named array wildcard bounded bound)
  termination_by t => sizeOf t

theorem unmappable_of_target? {t : TypeRef} (h : t.target? = none) : t.Unmappable := by
  induction t using bound_induction with
  | named qualified simple args decl ih =>
    obtain ⟨i, hi, hn⟩ := TargetType.ofNamed_eq_none_iff.mp h
    rw [getElem?_argTargets, Option.map_eq_some_iff] at hn
    obtain ⟨arg, ha, hn⟩ := hn
    rw [targetAt_argument] at hn
    cases hb : arg.bound? with
    | none => simp [hb] at hn
    | some type =>
      rw [hb] at hn
      exact .argument hi ha hb (ih arg (List.mem_of_getElem? ha) type hb hn)
  | array element ih =>
    simp only [target?, targetAt, Option.map_eq_none_iff] at h
    exact .element (ih h)
  | wildcard => exact .wildcard
  | bounded bound => exact .bounded

theorem target?_eq_none_iff {t : TypeRef} : t.target? = none ↔ t.Unmappable :=
  ⟨unmappable_of_target?, Unmappable.target?_eq_none⟩

-- ---------------------------------------------------------------------------
-- References that are printed
-- ---------------------------------------------------------------------------

/-- The expression of the first type has the simple name of the second in it. -/
inductive Prints : TypeRef → TypeRef → Prop
  | itself {qualified simple args decl} : arity qualified = 0 →
      TargetType.scalars.lookup qualified = none →
      Prints (.named qualified simple args decl) (.named qualified simple args decl)
  | element {element p} : Prints element p → Prints (.array element) p
  | argument {qualified simple args decl i arg type p} : i < arity qualified →
      args[i]? = some arg → arg.bound? = some type → Prints type p →
      Prints (.named qualified simple args decl) p

/-- An argument is spelled `any` if it is missing or has no bound. -/
theorem argument_cases {args : List TypeRef} {i : Nat} {v : TargetType}
    (h : TargetType.argument i (argTargets args) = some v) :
    v = .any ∨
      ∃ arg type, args[i]? = some arg ∧ arg.bound? = some type ∧ type.target? = some v := by
  simp only [TargetType.argument, List.getD_eq_getElem?_getD, getElem?_argTargets] at h
  cases ha : args[i]? with
  | none =>
    rw [ha] at h
    exact .inl (Option.some.inj h).symm
  | some arg =>
    cases hb : arg.bound? with
    | none => exact .inl (by simpa [ha, targetAt_argument, hb, eq_comm] using h)
    | some type => exact .inr ⟨arg, type, rfl, hb, by simpa [ha, targetAt_argument, hb] using h⟩

theorem argument_argTargets {args : List TypeRef} {i : Nat} {arg type : TypeRef}
    (ha : args[i]? = some arg) (hb : arg.bound? = some type) :
    TargetType.argument i (argTargets args) = type.target? := by
  simp [TargetType.argument, List.getD_eq_getElem?_getD, getElem?_argTargets, ha, targetAt_argument,
    hb]

section
variable {t : TypeRef} {u : TargetType} {qualified simple n : String} {args : List TypeRef}
  {decl : Option Nat}

theorem Prints.mem_names (h : Prints t (.named qualified simple args decl))
    (hu : t.target? = some u) : simple ∈ u.names := by
  generalize hp : TypeRef.named qualified simple args decl = p at h
  induction h generalizing u with
  | itself ha hs =>
    cases hp
    simp only [target?, targetAt, TargetType.ofNamed_of_arity_eq_zero ha, hs,
      Option.some.injEq] at hu
    simp [← hu, TargetType.names]
  | element _ ih =>
    simp only [target?, targetAt] at hu
    obtain ⟨v, hv, rfl⟩ := Option.map_eq_some_iff.mp hu
    have hmem : simple ∈ v.names := ih hv hp
    exact hmem
  | @argument _ _ _ _ i _ type _ hi ha hb _ ih =>
    cases hv : type.target? with
    | none =>
      rw [(Unmappable.argument hi ha hb (unmappable_of_target? hv)).target?_eq_none] at hu
      cases hu
    | some v =>
      exact (TargetType.mem_names_ofNamed (Nat.zero_lt_of_lt hi) hu).mpr
        ⟨i, hi, v, (argument_argTargets ha hb).trans hv, ih hv hp⟩

theorem prints_of_mem_names (hu : t.target? = some u) (hn : n ∈ u.names) :
    n ∈ fixedNames ∨ ∃ qualified args decl, Prints t (.named qualified n args decl) := by
  induction t using bound_induction generalizing u with
  | named qualified simple args decl ih =>
    cases hzero : arity qualified with
    | zero =>
      simp only [target?, targetAt, TargetType.ofNamed_of_arity_eq_zero hzero,
        Option.some.injEq] at hu
      subst hu
      cases hs : TargetType.scalars.lookup qualified with
      | some v =>
        rw [hs] at hn
        exact .inl (TargetType.names_scalars hs hn)
      | none =>
        simp only [hs, Option.getD_none, TargetType.names, List.mem_singleton] at hn
        subst hn
        exact .inr ⟨_, _, _, .itself hzero hs⟩
    | succ =>
      obtain ⟨i, hi, v, hv, hn⟩ := (TargetType.mem_names_ofNamed (by omega) hu).mp hn
      rcases argument_cases hv with rfl | ⟨arg, type, ha, hb, hv⟩
      · obtain rfl : n = "any" := by simpa [TargetType.any, TargetType.names] using hn
        exact .inl (by decide)
      · rcases ih arg (List.mem_of_getElem? ha) type hb hv hn with h | ⟨q, args, decl, h⟩
        · exact .inl h
        · exact .inr ⟨q, args, decl, .argument hi ha hb h⟩
  | array element ih =>
    simp only [target?, targetAt] at hu
    obtain ⟨v, hv, rfl⟩ := Option.map_eq_some_iff.mp hu
    rcases ih hv hn with h | ⟨qualified, args, decl, h⟩
    · exact .inl h
    · exact .inr ⟨qualified, args, decl, .element h⟩
  | wildcard => cases hu
  | bounded bound => simp [target?, targetAt] at hu

end

end TypeRef

end TypeWeave
