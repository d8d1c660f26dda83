import TypeWeave.Proofs.Sessions

/-!
# The turns of a dialogue

What the prompt does with a line is what `Model.select` says about the line: one declaration is
picked, without one the name is asked for again, and several are listed to choose from by number
(`Prompt.LineAnswered`, `Prompt.Choice`). A declaration is picked for the first line that stands for
any, and its qualified name has the text of that line in it (`Prompt.pickedFor_next`). Every pick
takes a line, so the turns of a dialogue come to an end (`Prompt.next_answers`).
-/

namespace TypeWeave

-- ---------------------------------------------------------------------------
-- Candidates
-- ---------------------------------------------------------------------------

theorem mem_indicesFrom {α : Type} {start i : Nat} {p : α → Bool} {as : List α} :
    i ∈ indicesFrom start p as ↔ ∃ k a, i = start + k ∧ as[k]? = some a ∧ p a = true := by
  induction as generalizing start with
  | nil => simp [indicesFrom]
  | cons a as ih =>
    have hcons : i ∈ indicesFrom start p (a :: as) ↔
        (i = start ∧ p a = true) ∨ i ∈ indicesFrom (start + 1) p as := by
      rw [indicesFrom]
      split <;> simp_all
    rw [hcons, ih]
    constructor
    · rintro (⟨rfl, ha⟩ | ⟨k, b, rfl, hb, hpb⟩)
      · exact ⟨0, a, rfl, rfl, ha⟩
      · exact ⟨k + 1, b, by omega, hb, hpb⟩
    · rintro ⟨_ | k, b, rfl, hb, hpb⟩
      · obtain rfl : a = b := by simpa using hb
        exact .inl ⟨rfl, hpb⟩
      · exact .inr ⟨k, b, by omega, by simpa using hb, hpb⟩

theorem DeclKind.hasShape_iff {kind : DeclKind} : kind.hasShape = true ↔
    (∃ shape, kind = .classType shape) ∨ ∃ constants, kind = .enumType constants := by
  cases kind <;> simp [hasShape]

namespace Model

def Matches (m : Model) (query : String) (id : Nat) : Prop :=
  ∃ d, m.decl? id = some d ∧
    ((∃ shape, d.kind = .classType shape) ∨ ∃ constants, d.kind = .enumType constants) ∧
    query.toList <:+: d.qualified.toList

variable {m : Model} {query : String} {id : Nat}

theorem mem_search_iff : id ∈ m.search query ↔ m.Matches query id := by
  simp [search, mem_indicesFrom, Matches, decl?, Text.occursIn_iff, DeclKind.hasShape_iff]

theorem candidates_of_blank (h : Text.trim query = "") : m.candidates query = [] := by
  simp [candidates, h]

theorem matches_of_mem_candidates (h : id ∈ m.candidates query) :
    m.Matches (Text.trim query) id := by
  simp only [candidates] at h
  split at h
  · cases h
  · split at h
    · next exact hexact =>
      obtain rfl := List.mem_singleton.mp h
      exact mem_search_iff.mp (List.mem_of_find?_eq_some hexact)
    · exact mem_search_iff.mp h

theorem select_eq_notFound_iff {q : String} :
    m.select query = .error (.notFound q) ↔ m.candidates query = [] ∧ query = q := by
  unfold select
  rcases m.candidates query with - | ⟨first, - | ⟨second, rest⟩⟩ <;> simp

theorem names_candidates (m : Model) (query : String) :
    ((m.candidates query).filterMap m.name?).map some = (m.candidates query).map m.name? := by
  have hnamed : ∀ name ∈ (m.candidates query).map m.name?, name.isSome = true := by
    rintro _ hname
    obtain ⟨id, hid, rfl⟩ := List.mem_map.mp hname
    obtain ⟨d, hd, -⟩ := matches_of_mem_candidates hid
    simp [name?, hd]
  rw [List.map_filterMap_some_eq_filter_map_isSome, List.filter_eq_self.mpr hnamed]

theorem select_eq_ambiguous {q : String} {names : List String}
    (h : m.select query = .error (.ambiguous q names)) :
    (∃ first second others, m.candidates query = first :: second :: others) ∧
      names.map some = (m.candidates query).map m.name? := by
  rw [← names_candidates]
  unfold select at h
  rcases hmany : m.candidates query with - | ⟨first, - | ⟨second, others⟩⟩
  · simp [hmany] at h
  · simp [hmany] at h
  · rw [hmany] at h
    cases h
    exact ⟨⟨first, second, others, rfl⟩, rfl⟩

end Model

namespace Prompt

-- ---------------------------------------------------------------------------
-- Numbers
-- ---------------------------------------------------------------------------

/-- A number in decimal digits, with or without a plus sign. -/
def IsNumeral (answer : String) (i : Nat) : Prop :=
  ∃ digits, digits ≠ [] ∧ (∀ c ∈ digits, c.isDigit = true) ∧
    (answer.toList = digits ∨ answer.toList = '+' :: digits) ∧ Nat.ofDigitChars 10 digits 0 = i

theorem digits?_eq_some_iff {value i : Nat} {cs : List Char} : digits? value cs = some i ↔
    (∀ c ∈ cs, c.isDigit = true) ∧ Nat.ofDigitChars 10 cs value = i := by
  induction cs generalizing value with
  | nil => simp [digits?]
  | cons c cs ih =>
    rw [digits?, digit?]
    by_cases hc : c.isDigit
    · simp [hc, ih, Nat.mul_comm, Nat.ofDigitChars_cons]
    · simp [hc]

theorem number?_eq_some_iff {answer : String} {i : Nat} :
    number? answer = some i ↔ IsNumeral answer i := by
  constructor
  · intro h
    unfold number? at h
    split at h
    · cases h
    · cases h
    · next cs _ hplus =>
      obtain ⟨hdigits, hvalue⟩ := digits?_eq_some_iff.mp h
      exact ⟨cs, by rintro rfl; contradiction, hdigits, .inr hplus, hvalue⟩
    · next hempty _ _ =>
      obtain ⟨hdigits, hvalue⟩ := digits?_eq_some_iff.mp h
      exact ⟨_, hempty, hdigits, .inl rfl, hvalue⟩
  · rintro ⟨digits, hne, hdigits, hanswer, hvalue⟩
    have hread : digits? 0 digits = some i := digits?_eq_some_iff.mpr ⟨hdigits, hvalue⟩
    obtain ⟨c, cs, rfl⟩ := List.exists_cons_of_ne_nil hne
    have hc : c ≠ '+' := by
      rintro rfl
      exact absurd (hdigits '+' List.mem_cons_self) (by decide)
    rcases hanswer with hanswer | hanswer
    · simpa [number?, hanswer, hc] using hread
    · simpa [number?, hanswer] using hread

-- ---------------------------------------------------------------------------
-- Choices
-- ---------------------------------------------------------------------------

def listing (names : List String) : String :=
  "Select element to translate:\n" ++
    Text.join "" (names.zipIdx.map fun (name, i) => "  [" ++ toString i ++ "]: " ++ name ++ "\n")

/-- How the lines behind an ambiguous name are used: the names are listed, the number of one of them
picks the candidate of that name, any other answer lists them again, and without an answer nothing
is picked. -/
structure Choice (m : Model) (candidates : List Nat) (names : List String)
    (ask : List String → Turn) : Prop where
  ended : ask [] = ⟨none, [], listing names⟩
  taken : ∀ answer rest i name, IsNumeral (Text.trim answer) i → names[i]? = some name →
    ∃ id, candidates[i]? = some id ∧ m.name? id = some name ∧
      ask (answer :: rest) = ⟨some id, rest, listing names⟩
  repeated : ∀ answer rest, (∀ i, IsNumeral (Text.trim answer) i → names.length ≤ i) →
    ask (answer :: rest) =
      (ask rest).after (listing names ++ "Invalid choice: " ++ Text.trim answer ++ "\n")

section
variable {m : Model} {candidates : List Nat} {names : List String}

theorem choices_eq_listing (h : names.map some = candidates.map m.name?) :
    choices m candidates = listing names := by
  have hnames : names = candidates.map fun id => (m.name? id).getD "" := by
    have hget : (names.map some).map (fun name => name.getD "") =
        (candidates.map m.name?).map fun name => name.getD "" := by rw [h]
    simpa only [List.map_map, Function.comp_def, Option.getD_some, List.map_id'] using hget
  unfold choices listing
  rw [hnames, List.zipIdx_map, List.map_map]
  rfl

theorem choice_choose (h : names.map some = candidates.map m.name?) :
    Choice m candidates names (choose m candidates) := by
  have hentry (i : Nat) : names[i]?.map some = candidates[i]?.map m.name? := by
    rw [← List.getElem?_map, ← List.getElem?_map, h]
  refine ⟨?_, fun answer rest i name hi hname => ?_, fun answer rest hinvalid => ?_⟩
  · rw [choose, choices_eq_listing h]
  · have hid := hentry i
    rw [hname, Option.map_some, eq_comm, Option.map_eq_some_iff] at hid
    obtain ⟨id, hid, hidname⟩ := hid
    refine ⟨id, hid, hidname, ?_⟩
    simp [choose, number?_eq_some_iff.mpr hi, hid, choices_eq_listing h]
  · have hnone : (number? (Text.trim answer)).bind (candidates[·]?) = none := by
      rw [Option.bind_eq_none_iff]
      intro i hi
      have hlength : names.length = candidates.length := by simpa using congrArg List.length h
      have hle := hinvalid i (number?_eq_some_iff.mp hi)
      rw [List.getElem?_eq_none_iff]
      omega
    simp [choose, hnone, choices_eq_listing h]

end

-- ---------------------------------------------------------------------------
-- Lines
-- ---------------------------------------------------------------------------

structure LineAnswered (m : Model) (line : String) (rest : List String) : Prop where
  ok : ∀ id, m.select line = .ok id → next m (line :: rest) = ⟨some id, rest, question⟩
  notFound : ∀ query, m.select line = .error (.notFound query) →
    next m (line :: rest) = (next m rest).after (question ++
      if Text.trim line = "" then "" else "Nothing found for: " ++ Text.trim line ++ "\n")
  ambiguous : ∀ query names, m.select line = .error (.ambiguous query names) →
    ∃ ask, Choice m (m.candidates line) names ask ∧
      next m (line :: rest) = (ask rest).after question

theorem lineAnswered (m : Model) (line : String) (rest : List String) :
    LineAnswered m line rest where
  ok _ h := next_of_select h
  notFound query h := by
    rw [next, Model.candidates_trim, (Model.select_eq_notFound_iff.mp h).1]
  ambiguous query names h := by
    obtain ⟨⟨first, second, others, hmany⟩, hnames⟩ := Model.select_eq_ambiguous h
    refine ⟨choose m (m.candidates line), choice_choose hnames, ?_⟩
    rw [next, Model.candidates_trim, hmany]

-- ---------------------------------------------------------------------------
-- Turns
-- ---------------------------------------------------------------------------

/-- The declaration is picked for the first line that stands for any. -/
def PickedFor (m : Model) (id : Nat) (lines rest : List String) : Prop :=
  ∃ skipped line answers, lines = skipped ++ line :: (answers ++ rest) ∧
    (∀ s ∈ skipped, m.select s = .error (.notFound s)) ∧
    id ∈ m.candidates line ∧ m.Matches (Text.trim line) id

/-- The turn of a dialogue that follows `k` others. -/
def turn (m : Model) (lines : List String) : Nat → Turn
  | 0 => next m lines
  | k + 1 => turn m (next m lines).rest k

theorem choose_of_picked {m : Model} {candidates : List Nat} {lines : List String} {id : Nat}
    (h : (choose m candidates lines).picked = some id) :
    id ∈ candidates ∧ (choose m candidates lines).rest <:+ lines := by
  induction lines with
  | nil => simp [choose] at h
  | cons answer rest ih =>
    rw [choose] at h ⊢
    split at h
    · next hanswer =>
      cases h
      obtain ⟨i, -, hi⟩ := Option.bind_eq_some_iff.mp hanswer
      exact ⟨List.mem_of_getElem? hi, List.suffix_cons answer rest⟩
    · exact ⟨(ih h).1, (ih h).2.trans (List.suffix_cons answer rest)⟩

theorem pickedFor_next {m : Model} {lines : List String} {id : Nat}
    (h : (next m lines).picked = some id) : PickedFor m id lines (next m lines).rest := by
  induction lines with
  | nil => simp [next] at h
  | cons line rest ih =>
    rw [next, Model.candidates_trim] at h ⊢
    split at h
    · next hnone =>
      obtain ⟨skipped, asked, answers, hrest, hskipped, hid, hmatches⟩ := ih h
      have hline : m.select line = .error (.notFound line) :=
        Model.select_eq_notFound_iff.mpr ⟨hnone, rfl⟩
      exact ⟨line :: skipped, asked, answers, congrArg (line :: ·) hrest,
        List.forall_mem_cons.mpr ⟨hline, hskipped⟩, hid, hmatches⟩
    · next hone =>
      cases h
      have hid : id ∈ m.candidates line := hone ▸ List.mem_singleton_self id
      exact ⟨[], line, [], rfl, List.forall_mem_nil _, hid, Model.matches_of_mem_candidates hid⟩
    · next hmany =>
      obtain ⟨hid, answers, hrest⟩ := choose_of_picked h
      exact ⟨[], line, answers, congrArg (line :: ·) hrest.symm, List.forall_mem_nil _, hid,
        Model.matches_of_mem_candidates hid⟩

theorem rest_choose_of_picked_eq_none {m : Model} {candidates : List Nat} {lines : List String}
    (h : (choose m candidates lines).picked = none) : (choose m candidates lines).rest = [] := by
  induction lines with
  | nil => rfl
  | cons answer rest ih =>
    rw [choose] at h ⊢
    split at h
    · cases h
    · exact ih h

/-- Without a pick, all lines are read. -/
theorem rest_next_of_picked_eq_none {m : Model} {lines : List String}
    (h : (next m lines).picked = none) : (next m lines).rest = [] := by
  induction lines with
  | nil => rfl
  | cons line rest ih =>
    rw [next] at h ⊢
    split at h
    · exact ih h
    · cases h
    · exact rest_choose_of_picked_eq_none h

theorem picked_turn_nil (m : Model) (k : Nat) : (turn m [] k).picked = none := by
  induction k with
  | zero => rfl
  | succ k ih => exact ih

/-- The turns pick the seeds of the whole dialogue one after the other. -/
theorem picked_turn (m : Model) (lines : List String) (k : Nat) :
    (turn m lines k).picked = (sessionFrom m lines).1[k]? := by
  fun_induction sessionFrom m lines generalizing k with
  | case1 lines hnone =>
    cases k with
    | zero => simpa [turn] using hnone
    | succ k => simpa [turn, rest_next_of_picked_eq_none hnone] using picked_turn_nil m k
  | case2 lines id hid _ ids transcript hrest ih =>
    rw [hrest] at ih
    cases k with
    | zero => simpa [turn] using hid
    | succ k => simpa [turn] using ih k

theorem length_sessionFrom_le (m : Model) (lines : List String) :
    (sessionFrom m lines).1.length ≤ lines.length := by
  fun_induction sessionFrom m lines with
  | case1 lines hnone => exact Nat.zero_le _
  | case2 lines id hid hlt ids transcript hrest ih =>
    rw [hrest] at ih
    exact Nat.lt_of_le_of_lt ih hlt

/-- A dialogue takes finitely many turns. A turn with a pick takes a line and picks a class or enum
for it, and every line is answered by what it stands for as a query; a blank one stands for
nothing. -/
theorem next_answers (m : Model) (input : String) :
    (∃ n ≤ (lines input).length, ∀ k, (turn m (lines input) k).picked = none ↔ n ≤ k) ∧
    (∀ lines id, (next m lines).picked = some id →
      (next m lines).rest.length < lines.length ∧ PickedFor m id lines (next m lines).rest) ∧
    (∀ line rest, LineAnswered m line rest) ∧
    ∀ line, Text.trim line = "" → m.select line = .error (.notFound line) := by
  refine ⟨⟨(session m input).1.length, length_sessionFrom_le m _, fun k => ?_⟩,
    fun _ _ h => ⟨length_rest_next_lt h, pickedFor_next h⟩, lineAnswered m, fun line h => ?_⟩
  · rw [picked_turn, List.getElem?_eq_none_iff, session]
  · exact Model.select_eq_notFound_iff.mpr ⟨Model.candidates_of_blank h, rfl⟩

example : (next Command.sampleShop ["Invoice", " shop ", "5", "+1", ""]).picked = some 1 ∧
    (next Command.sampleShop ["Invoice", " shop ", "5", "+1", ""]).rest = [""] := by
  decide +kernel

end Prompt

end TypeWeave
