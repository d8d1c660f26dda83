/-!
# Sequences

Positions in a list, and the first occurrences of its entries under an equivalence.
-/

namespace TypeWeave

def lastIndex? (p : α → Bool) : List α → Option Nat
  | [] => none
  | a :: as =>
    match lastIndex? p as with
    | some i => some (i + 1)
    | none => if p a then some 0 else none

theorem lastIndex?_eq_none_iff {p : α → Bool} {as : List α} :
    lastIndex? p as = none ↔ ∀ a ∈ as, p a = false := by
  induction as with
  | nil => simp [lastIndex?]
  | cons a as ih =>
    rw [lastIndex?]
    cases h : lastIndex? p as with
    | none => cases hp : p a <;> simp_all
    | some i =>
      obtain ⟨b, hb, hpb⟩ : ∃ b ∈ as, p b = true := by simpa [h] using ih
      simp only [reduceCtorEq, List.mem_cons, forall_eq_or_imp, false_iff, not_and]
      intro _ hall
      simp [hall b hb] at hpb

/-- The last index holds an entry with the property. -/
theorem getElem?_of_lastIndex? {p : α → Bool} {as : List α} {i : Nat}
    (h : lastIndex? p as = some i) : ∃ a, as[i]? = some a ∧ p a = true := by
  induction as generalizing i with
  | nil => simp [lastIndex?] at h
  | cons a as ih =>
    rw [lastIndex?] at h
    cases hl : lastIndex? p as with
    | some j =>
      obtain rfl : j + 1 = i := by simpa [hl] using h
      simpa using ih hl
    | none =>
      cases hp : p a with
      | true =>
        obtain rfl : 0 = i := by simpa [hl, hp] using h
        exact ⟨a, by simp, hp⟩
      | false => simp [hl, hp] at h

theorem le_of_lastIndex? {p : α → Bool} {as : List α} {i j : Nat} {a : α}
    (h : lastIndex? p as = some i) (ha : as[j]? = some a) (hp : p a = true) : j ≤ i := by
  induction as generalizing i j with
  | nil => simp at ha
  | cons b as ih =>
    rw [lastIndex?] at h
    cases j with
    | zero => exact Nat.zero_le i
    | succ j =>
      have ha : as[j]? = some a := by simpa using ha
      cases hl : lastIndex? p as with
      | some k =>
        obtain rfl : k + 1 = i := by simpa [hl] using h
        exact Nat.succ_le_succ (ih hl ha)
      | none =>
        have hall := lastIndex?_eq_none_iff.mp hl a (List.mem_of_getElem? ha)
        simp [hp] at hall

/-- The indices, counted from `start`, at which `p` holds. -/
def indicesFrom (start : Nat) (p : α → Bool) : List α → List Nat
  | [] => []
  | a :: as => if p a then start :: indicesFrom (start + 1) p as else indicesFrom (start + 1) p as

/-- The entries that are not alike to an earlier one, in order. -/
def distinctBy (alike : α → α → Bool) : List α → List α
  | [] => []
  | a :: as => a :: (distinctBy alike as).filter fun b => !alike a b

def distinct [BEq α] (as : List α) : List α := distinctBy (· == ·) as

end TypeWeave
