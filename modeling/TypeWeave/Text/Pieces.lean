/-!
# Cutting and joining text

Cutting a text at every occurrence of one character, joining texts with a separator between them,
and finding the first occurrence of one text in another. Cutting and joining are inverse to each
other (`join_pieces`).
-/

namespace TypeWeave.Text

/-- The pieces of a text between the occurrences of `sep`; there is always at least one. -/
def pieces (sep : Char) : List Char → List (List Char)
  | [] => [[]]
  | c :: cs =>
    if c = sep then [] :: pieces sep cs
    else
      match pieces sep cs with
      | [] => [[c]]
      | p :: ps => (c :: p) :: ps

def joinChars (sep : List Char) : List (List Char) → List Char
  | [] => []
  | [p] => p
  | p :: q :: ps => p ++ sep ++ joinChars sep (q :: ps)

def join (sep : String) : List String → String
  | [] => ""
  | [s] => s
  | s :: t :: rest => s ++ sep ++ join sep (t :: rest)

/-- What follows the first occurrence of `pattern`; `none` when it does not occur. -/
def after? (pattern : List Char) : List Char → Option (List Char)
  | [] => if pattern.isEmpty then some [] else none
  | c :: cs =>
    if pattern.isPrefixOf (c :: cs) then some ((c :: cs).drop pattern.length)
    else after? pattern cs

def occursIn (pattern text : String) : Bool :=
  (after? pattern.toList text.toList).isSome

/-- The part of a text after its last `mark`, the whole text when there is none: its longest
ending without that character. -/
def afterLast (mark : Char) (text : String) : String :=
  String.ofList (text.toList.reverse.takeWhile (· != mark)).reverse

theorem join_concat (sep : String) {ss : List String} (h : ss ≠ []) (s : String) :
    join sep (ss ++ [s]) = join sep ss ++ sep ++ s := by
  induction ss with
  | nil => exact absurd rfl h
  | cons t ss ih =>
    cases ss with
    | nil => rfl
    | cons u ss =>
      have ih := ih (List.cons_ne_nil u ss)
      simp only [List.cons_append, join] at ih ⊢
      rw [ih]
      simp only [String.append_assoc]

theorem takeWhile_ne_append {mark : Char} {cs : List Char} (h : mark ∉ cs) (ds : List Char) :
    (cs ++ ds).takeWhile (· != mark) = cs ++ ds.takeWhile (· != mark) := by
  refine List.takeWhile_append_of_pos fun c hc => ?_
  have hne : c ≠ mark := by
    rintro rfl
    exact h hc
  simpa using hne

theorem afterLast_of_notMem {mark : Char} {text : String} (h : mark ∉ text.toList) :
    afterLast mark text = text := by
  have hrev : mark ∉ text.toList.reverse := by simpa using h
  have hcut := takeWhile_ne_append hrev []
  simp only [List.append_nil, List.takeWhile_nil] at hcut
  simp [afterLast, hcut]

theorem afterLast_append {mark : Char} {rest : String} (h : mark ∉ rest.toList) (text : String) :
    afterLast mark (text ++ String.singleton mark ++ rest) = rest := by
  have hrev : mark ∉ rest.toList.reverse := by simpa using h
  simp [afterLast, takeWhile_ne_append hrev]

theorem pieces_ne_nil (sep : Char) (cs : List Char) : pieces sep cs ≠ [] := by
  cases cs with
  | nil => simp [pieces]
  | cons c cs =>
    rw [pieces]
    split
    · simp
    · split <;> simp

theorem join_pieces (sep : Char) (cs : List Char) : joinChars [sep] (pieces sep cs) = cs := by
  induction cs with
  | nil => rfl
  | cons c cs ih =>
    rw [pieces]
    split
    · next h =>
      subst h
      match hp : pieces c cs with
      | [] => exact absurd hp (pieces_ne_nil c cs)
      | p :: ps =>
        rw [hp] at ih
        simp [joinChars, ih]
    · match hp : pieces sep cs with
      | [] => exact absurd hp (pieces_ne_nil sep cs)
      | [p] =>
        rw [hp] at ih
        simpa [joinChars] using ih
      | p :: q :: ps =>
        rw [hp] at ih
        simp [joinChars] at ih ⊢
        exact ih

theorem isSome_after?_iff {pattern cs : List Char} :
    (after? pattern cs).isSome ↔ pattern <:+: cs := by
  induction cs with
  | nil => simp [after?]
  | cons c cs ih =>
    rw [after?, List.infix_cons_iff, ← List.isPrefixOf_iff_prefix]
    split
    · next hstart => simp [hstart]
    · next hstart => simp [hstart, ih]

theorem occursIn_iff {pattern text : String} :
    occursIn pattern text = true ↔ pattern.toList <:+: text.toList :=
  isSome_after?_iff

theorem after?_append_of_first {pattern before rest : List Char}
    (hfirst : ∀ n < before.length, ¬pattern <+: (before ++ pattern ++ rest).drop n) :
    after? pattern (before ++ pattern ++ rest) = some rest := by
  induction before with
  | nil => cases pattern <;> cases rest <;> simp [after?]
  | cons c before ih =>
    have hstart : ¬pattern.isPrefixOf (c :: (before ++ pattern ++ rest)) = true := fun h =>
      hfirst 0 (Nat.succ_pos _) (List.isPrefixOf_iff_prefix.mp h)
    rw [List.cons_append, List.cons_append, after?, if_neg hstart]
    exact ih fun n hn => hfirst (n + 1) (Nat.succ_lt_succ hn)

theorem exists_append_of_after? {pattern cs rest : List Char} (h : after? pattern cs = some rest) :
    ∃ before, cs = before ++ pattern ++ rest ∧ ∀ n < before.length, ¬pattern <+: cs.drop n := by
  induction cs with
  | nil =>
    obtain ⟨rfl, rfl⟩ : pattern = [] ∧ [] = rest := by simpa [after?] using h
    exact ⟨[], rfl, by simp⟩
  | cons c cs ih =>
    rw [after?] at h
    split at h
    · next hstart =>
      obtain ⟨rest', hrest'⟩ := List.isPrefixOf_iff_prefix.mp hstart
      rw [← hrest', List.drop_left] at h
      exact ⟨[], by rw [← hrest', Option.some.inj h]; rfl, by simp⟩
    · next hstart =>
      obtain ⟨before, rfl, hfirst⟩ := ih h
      refine ⟨c :: before, rfl, fun n hn => ?_⟩
      cases n with
      | zero => exact fun h => hstart (List.isPrefixOf_iff_prefix.mpr h)
      | succ n => exact hfirst n (Nat.lt_of_succ_lt_succ hn)

/-- The text is cut behind the first place at which the pattern stands. -/
theorem after?_eq_some_iff {pattern cs rest : List Char} : after? pattern cs = some rest ↔
    ∃ before, cs = before ++ pattern ++ rest ∧ ∀ n < before.length, ¬pattern <+: cs.drop n := by
  refine ⟨exists_append_of_after?, ?_⟩
  rintro ⟨before, rfl, hfirst⟩
  exact after?_append_of_first hfirst

end TypeWeave.Text
