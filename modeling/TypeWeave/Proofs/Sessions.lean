import Mathlib.Data.List.DropRight
import TypeWeave.Command.Emit

/-!
# Dialogues as sequences of runs

A dialogue keeps one registry, which it resets before every run. So what it prints and writes is
what the seeds picked on its lines give one after the other, each in a registry of its own
(`Command.interactive_freshRuns`), whatever the registry held before.
-/

namespace TypeWeave

-- ---------------------------------------------------------------------------
-- Queries with blanks around them
-- ---------------------------------------------------------------------------

namespace Text

theorem trimChars_eq (cs : List Char) :
    trimChars cs = (cs.dropWhile isBlank).rdropWhile isBlank := rfl

theorem dropWhile_trimChars (cs : List Char) : (trimChars cs).dropWhile isBlank = trimChars cs := by
  rw [List.dropWhile_eq_self_iff]
  intro hlen hblank
  obtain ⟨rest, hrest⟩ := List.rdropWhile_prefix isBlank (cs.dropWhile isBlank)
  rw [← trimChars_eq] at hrest
  -- What is trimmed at the end leaves the first character where it is.
  have hfirst := List.head?_dropWhile_not isBlank cs
  rw [← hrest, List.head?_append, List.head?_eq_getElem?, List.getElem?_eq_getElem hlen] at hfirst
  simp [hblank] at hfirst

theorem trim_trim (s : String) : trim (trim s) = trim s := by
  have htwice : trimChars (trimChars s.toList) = trimChars s.toList := by
    rw [trimChars_eq, dropWhile_trimChars, trimChars_eq, List.rdropWhile_idempotent]
  simp [trim, htwice]

end Text

namespace Model

theorem candidates_trim (m : Model) (query : String) :
    m.candidates (Text.trim query) = m.candidates query := by
  simp only [candidates, Text.trim_trim]

theorem select_eq_ok_iff {m : Model} {query : String} {id : Nat} :
    m.select query = .ok id ↔ m.candidates query = [id] := by
  unfold select
  rcases m.candidates query with - | ⟨first, - | ⟨second, rest⟩⟩ <;> simp

end Model

/-- A line that stands for one declaration picks it, and no other line is read. -/
theorem Prompt.next_of_select {m : Model} {line : String} {rest : List String} {seed : Nat}
    (h : m.select line = .ok seed) : next m (line :: rest) = ⟨some seed, rest, question⟩ := by
  rw [next, Model.candidates_trim, Model.select_eq_ok_iff.mp h]

theorem Prompt.sessionFrom_of_some {m : Model} {lines rest : List String} {seed : Nat}
    {transcript : String} (h : next m lines = ⟨some seed, rest, transcript⟩) :
    sessionFrom m lines =
      (seed :: (sessionFrom m rest).1, transcript ++ (sessionFrom m rest).2) := by
  rw [sessionFrom]
  split
  · next hnone => simp [h] at hnone
  · next seed' hseed =>
    obtain rfl : seed = seed' := by simpa [h] using hseed
    simp [h]

theorem Prompt.sessionFrom_nil (m : Model) : sessionFrom m [] = ([], question) := by
  rw [sessionFrom]
  rfl

-- ---------------------------------------------------------------------------
-- Reports
-- ---------------------------------------------------------------------------

/-- The reports tell the same but for what was written to the user who was asked. -/
structure Report.Alike (a b : Report) : Prop where
  out : a.out = b.out
  disk : a.disk = b.disk
  failure : a.failure = b.failure

theorem Report.Alike.followedBy {a b : Report} {f g : Disk → Report} (h : a.Alike b)
    (hrest : ∀ disk, (f disk).Alike (g disk)) : (a.followedBy f).Alike (b.followedBy g) := by
  unfold Report.followedBy
  rw [h.failure, h.disk]
  split
  · exact h
  · have hlater := hrest b.disk
    exact ⟨by simp [h.out, hlater.out], hlater.disk, hlater.failure⟩

namespace Command

variable {o : EmitOptions} {m : Model}

/-- Emits the closures of the seeds one after the other, each run into an empty registry, up to the
first failure. -/
def emitRuns (o : EmitOptions) (m : Model) : List Nat → Disk → Report
  | [], disk => { disk }
  | seed :: seeds, disk =>
    (emit o (Closure.run m o.layout seed).registry disk).followedBy (emitRuns o m seeds)

theorem interactiveFrom_of_none {lines : List String}
    (h : (Prompt.next m lines).picked = none) (r : Registry) (disk : Disk) :
    interactiveFrom o m r lines disk =
      { transcript := (Prompt.next m lines).transcript, disk } := by
  rw [interactiveFrom]
  split
  · rfl
  · next seed hseed => simp [h] at hseed

/-- One turn of a dialogue: what the registry held before does not matter. -/
theorem interactiveFrom_of_some {lines : List String} {seed : Nat}
    (h : (Prompt.next m lines).picked = some seed) (r : Registry) (disk : Disk) :
    interactiveFrom o m r lines disk =
      { runSeed o m seed disk with transcript := (Prompt.next m lines).transcript }.followedBy
        (interactiveFrom o m (Closure.run m o.layout seed).registry
          (Prompt.next m lines).rest) := by
  rw [interactiveFrom]
  split
  · next hnone => simp [h] at hnone
  · next seed' hseed =>
    obtain rfl : seed = seed' := Option.some.inj (h.symm.trans hseed)
    have hreset : Closure.extend m o.layout seed r.reset = Closure.run m o.layout seed := rfl
    rw [hreset, runSeed]
    split
    · simp [Report.followedBy]
    · next after hrun => simp [hrun]

theorem runSeed_of_fault_eq_none {seed : Nat} (h : (Closure.run m o.layout seed).fault = none)
    (disk : Disk) : runSeed o m seed disk = emit o (Closure.run m o.layout seed).registry disk := by
  unfold runSeed
  split
  · next fault hrun => simp [hrun] at h
  · next r hrun => rw [hrun]

theorem interactiveFrom_alike (lines : List String) (r : Registry) (disk : Disk)
    (h : ∀ seed ∈ (Prompt.sessionFrom m lines).1, (Closure.run m o.layout seed).fault = none) :
    (interactiveFrom o m r lines disk).Alike
      (emitRuns o m (Prompt.sessionFrom m lines).1 disk) := by
  -- By induction on the turns of the dialogue, for every registry the turn may find.
  fun_induction Prompt.sessionFrom m lines generalizing r disk with
  | case1 lines hnone =>
    rw [interactiveFrom_of_none hnone]
    exact ⟨rfl, rfl, rfl⟩
  | case2 lines seed hseed _ seeds transcript hrest ih =>
    rw [hrest] at ih
    simp only [List.mem_cons, forall_eq_or_imp] at h
    rw [interactiveFrom_of_some hseed, runSeed_of_fault_eq_none h.1]
    exact Report.Alike.followedBy ⟨rfl, rfl, rfl⟩ fun disk => ih _ disk h.2

/-- A dialogue prints and writes what the seeds picked in it give one after the other, each from an
empty registry. A line that stands for one declaration adds what that query gives by itself, at
whatever point of a dialogue it is read. -/
theorem interactive_freshRuns (o : EmitOptions) (m : Model) (input : String) (disk : Disk)
    (h : ∀ seed ∈ (Prompt.session m input).1, (Closure.run m o.layout seed).fault = none) :
    (interactive o m input disk).Alike (emitRuns o m (Prompt.session m input).1 disk) ∧
    ∀ (r : Registry) (line : String) (rest : List String) (disk : Disk) (seed : Nat),
      m.select line = .ok seed →
      interactiveFrom o m r (line :: rest) disk =
        { batch o m line disk with transcript := Prompt.question }.followedBy
          (interactiveFrom o m (Closure.run m o.layout seed).registry rest) := by
  refine ⟨interactiveFrom_alike _ .empty disk h, fun r line rest disk seed hselect => ?_⟩
  have hnext : Prompt.next m (line :: rest) = ⟨some seed, rest, Prompt.question⟩ :=
    Prompt.next_of_select hselect
  have hpicked : (Prompt.next m (line :: rest)).picked = some seed := by rw [hnext]
  rw [interactiveFrom_of_some hpicked, hnext, batch, hselect]

def sampleShop : Model where
  decls := [
    { qualified := "shop.Order", simple := "Order", location := ⟨⟨"src"⟩, ⟨"src/shop/Order.java"⟩⟩
      kind := .classType { fields := [⟨"total", .builtin "long", .publicAccess⟩] } },
    { qualified := "shop.Cart", simple := "Cart", location := ⟨⟨"src"⟩, ⟨"src/shop/Cart.java"⟩⟩
      kind := .classType { fields := [⟨"order", .declared "shop.Order" 0, .publicAccess⟩] } }]

/-- Both runs of the dialogue write the order. -/
theorem interactive_freshRuns_sample :
    let o : EmitOptions := { output := some ⟨"web"⟩ }
    (Prompt.session sampleShop "Cart\n Order \n").1 = [1, 0] ∧
    (∀ seed ∈ [1, 0], (Closure.run sampleShop o.layout seed).fault = none) ∧
    sampleShop.select " Order " = .ok 0 ∧
    (interactive o sampleShop "Cart\n Order \n" .empty).Alike
      (emitRuns o sampleShop [1, 0] .empty) ∧
    ∀ r disk, interactiveFrom o sampleShop r [" Order "] disk =
      { batch o sampleShop " Order " disk with transcript := Prompt.question }.followedBy
        (interactiveFrom o sampleShop (Closure.run sampleShop o.layout 0).registry []) := by
  intro o
  have hcart : Prompt.next sampleShop (Prompt.lines "Cart\n Order \n") =
      ⟨some 1, [" Order "], Prompt.question⟩ := by decide +kernel
  have horder : Prompt.next sampleShop [" Order "] = ⟨some 0, [], Prompt.question⟩ := by
    decide +kernel
  have hpicked : (Prompt.session sampleShop "Cart\n Order \n").1 = [1, 0] := by
    rw [Prompt.session, Prompt.sessionFrom_of_some hcart, Prompt.sessionFrom_of_some horder,
      Prompt.sessionFrom_nil]
  have hruns : ∀ seed ∈ [1, 0], (Closure.run sampleShop o.layout seed).fault = none := by
    decide +kernel
  have hselect : sampleShop.select " Order " = .ok 0 := by decide +kernel
  obtain ⟨halike, hline⟩ := interactive_freshRuns o sampleShop "Cart\n Order \n" .empty
    (by rwa [hpicked])
  rw [hpicked] at halike
  exact ⟨hpicked, hruns, hselect, halike, fun r disk => hline r " Order " [] disk 0 hselect⟩

end Command

end TypeWeave
