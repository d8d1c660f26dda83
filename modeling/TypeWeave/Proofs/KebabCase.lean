import Mathlib.Data.List.SplitBy
import TypeWeave.Proofs.Mirroring

/-!
# Kebab case by blocks

A text falls into its maximal blocks of capitals and of other characters. In kebab case the blocks
follow each other in lower case, with a hyphen in front of every block of capitals that is not the
first block (`Text.kebab_blocks`).
-/

namespace TypeWeave.Text

-- ---------------------------------------------------------------------------
-- Blocks
-- ---------------------------------------------------------------------------

def isCapitals (block : List Char) : Bool := block.all Char.isUpper

/-- A text cut into maximal blocks of capitals and of other characters. -/
structure AreBlocks (bs : List (List Char)) (cs : List Char) : Prop where
  flatten_eq : bs.flatten = cs
  ne_nil : ∀ b ∈ bs, b ≠ []
  uniform : ∀ b ∈ bs, ∀ c ∈ b, c.isUpper = isCapitals b
  maximal : bs.IsChain fun a b => isCapitals a ≠ isCapitals b

def blocks (cs : List Char) : List (List Char) := cs.splitBy fun c d => c.isUpper == d.isUpper

section
variable {cs ds b : List Char} {bs : List (List Char)} {inRun : Bool}

theorem isCapitals_eq_of_forall {p : Bool} (hne : b ≠ []) (h : ∀ c ∈ b, c.isUpper = p) :
    isCapitals b = p := by
  obtain ⟨c, cs, rfl⟩ := List.exists_cons_of_ne_nil hne
  have hc := h c List.mem_cons_self
  cases p with
  | true => exact List.all_eq_true.mpr h
  | false => simp [isCapitals, hc]

theorem isChain_iff_uniform (hne : b ≠ []) :
    (b.IsChain fun c d => c.isUpper == d.isUpper) ↔ ∀ c ∈ b, c.isUpper = isCapitals b := by
  obtain ⟨c, cs, rfl⟩ := List.exists_cons_of_ne_nil hne
  have htrans : Trans (fun c d : Char => c.isUpper = d.isUpper)
      (fun c d : Char => c.isUpper = d.isUpper) (fun c d : Char => c.isUpper = d.isUpper) :=
    ⟨Eq.trans⟩
  simp only [beq_iff_eq, List.isChain_iff_pairwise]
  constructor
  · intro h
    have hall : ∀ d ∈ c :: cs, d.isUpper = c.isUpper := by
      rw [List.forall_mem_cons]
      exact ⟨rfl, fun d hd => (List.rel_of_pairwise_cons h hd).symm⟩
    rwa [isCapitals_eq_of_forall hne hall]
  · intro h
    exact List.pairwise_of_forall_mem_list fun d hd e he => (h d hd).trans (h e he).symm

theorem areBlocks_iff : AreBlocks bs cs ↔ bs = blocks cs := by
  have hborder (hne : ∀ b ∈ bs, b ≠ []) (huniform : ∀ b ∈ bs, ∀ c ∈ b, c.isUpper = isCapitals b) :
      (bs.IsChain fun a b => ∃ ha hb, ((a.getLast ha).isUpper == (b.head hb).isUpper) = false) ↔
        bs.IsChain fun a b => isCapitals a ≠ isCapitals b := by
    refine List.IsChain.iff_of_mem_imp fun a b ha hb => ?_
    have hlast := huniform a ha _ (List.getLast_mem (hne a ha))
    have hhead := huniform b hb _ (List.head_mem (hne b hb))
    simp [hne a ha, hne b hb, hlast, hhead]
  rw [eq_comm, blocks, List.splitBy_eq_iff]
  constructor
  · rintro ⟨hflatten, hne, huniform, hmaximal⟩
    have hnil : [] ∉ bs := fun hmem => hne [] hmem rfl
    refine ⟨hflatten.symm, hnil, fun b hb => ?_, (hborder hne huniform).mpr hmaximal⟩
    exact (isChain_iff_uniform (hne b hb)).mpr (huniform b hb)
  · rintro ⟨hflatten, hnil, hchain, hborders⟩
    have hne : ∀ b ∈ bs, b ≠ [] := by
      rintro b hb rfl
      exact hnil hb
    have huniform : ∀ b ∈ bs, ∀ c ∈ b, c.isUpper = isCapitals b :=
      fun b hb => (isChain_iff_uniform (hne b hb)).mp (hchain b hb)
    exact ⟨hflatten.symm, hne, huniform, (hborder hne huniform).mp hborders⟩

theorem areBlocks_blocks (cs : List Char) : AreBlocks (blocks cs) cs := areBlocks_iff.mpr rfl

theorem AreBlocks.tail (h : AreBlocks (b :: bs) cs) : AreBlocks bs bs.flatten :=
  ⟨rfl, fun a ha => h.ne_nil a (List.mem_cons_of_mem b ha),
    fun a ha => h.uniform a (List.mem_cons_of_mem b ha), h.maximal.tail⟩

-- ---------------------------------------------------------------------------
-- Hyphens in front of blocks
-- ---------------------------------------------------------------------------

/-- A character of a name in kebab case: an inserted hyphen, or a character of the text. -/
inductive Sign where
  | hyphen
  | letter (c : Char)

def Sign.char : Sign → Char
  | hyphen => '-'
  | letter c => c

def Sign.letter? : Sign → Option Char
  | hyphen => none
  | letter c => some c

def hyphenOf (block : List Char) : List Sign := if isCapitals block then [.hyphen] else []

def lowered (block : List Char) : List Sign := block.map fun c => .letter c.toLower

/-- The blocks in lower case, with a hyphen in front of each block of capitals but a first one. -/
def spelled : List (List Char) → List Sign
  | [] => []
  | b :: bs => lowered b ++ bs.flatMap fun b => hyphenOf b ++ lowered b

theorem hyphenate_block (hne : b ≠ []) (huniform : ∀ c ∈ b, c.isUpper = isCapitals b)
    (hrun : isCapitals b = true → inRun = false) :
    hyphenate inRun (b ++ cs) = (hyphenOf b).map Sign.char ++ b ++ hyphenate (isCapitals b) cs := by
  have hrest (p : Bool) (ds : List Char) (h : ∀ c ∈ ds, c.isUpper = p) :
      hyphenate p (ds ++ cs) = ds ++ hyphenate p cs := by
    induction ds with
    | nil => rfl
    | cons d ds ih =>
      rw [List.forall_mem_cons] at h
      cases p <;> simp [hyphenate, h.1, ih h.2]
  obtain ⟨c, ds, rfl⟩ := List.exists_cons_of_ne_nil hne
  obtain ⟨hc, hds⟩ := List.forall_mem_cons.mp huniform
  have hrest := hrest _ ds hds
  cases hb : isCapitals (c :: ds) with
  | true =>
    rw [hb] at hc hrest
    simp [hyphenate, hc, hrun hb, hyphenOf, hb, hrest, Sign.char]
  | false =>
    rw [hb] at hc hrest
    simp [hyphenate, hc, hyphenOf, hb, hrest]

-- The loop knows whether the block before was one of capitals; if it was, the next one is not.
theorem hyphenate_blocks (h : AreBlocks bs cs)
    (hrun : ∀ b ∈ bs.head?, isCapitals b = true → inRun = false) :
    hyphenate inRun cs = bs.flatMap fun b => (hyphenOf b).map Sign.char ++ b := by
  obtain rfl := h.flatten_eq
  induction bs generalizing inRun with
  | nil => rfl
  | cons b bs ih =>
    have htail : ∀ a ∈ bs.head?, isCapitals a = true → isCapitals b = false := by
      intro a ha hcapitals
      have hne := (List.isChain_cons.mp h.maximal).1 a ha
      rw [hcapitals] at hne
      simpa using hne
    rw [List.flatten_cons, hyphenate_block (h.ne_nil b List.mem_cons_self)
      (h.uniform b List.mem_cons_self) (hrun b rfl), ih htail h.tail, List.flatMap_cons]

-- ---------------------------------------------------------------------------
-- Lower case
-- ---------------------------------------------------------------------------

def IsAscii (cs : List Char) : Prop := ∀ c ∈ cs, c.toNat < 0x80

theorem lowercase_of_isAscii (h : IsAscii cs) : lowercase cs = cs.map Char.toLower := by
  suffices hfrom : ∀ before, lowerFrom before cs = cs.map Char.toLower from hfrom []
  induction cs with
  | nil => exact fun before => rfl
  | cons c cs ih =>
    intro before
    obtain ⟨hc, hcs⟩ := List.forall_mem_cons.mp h
    rw [lowerFrom, lowerAt, if_pos hc, ih hcs, List.map_cons, List.singleton_append]

theorem isUpper_iff {c : Char} : c.isUpper = true ↔ 65 ≤ c.toNat ∧ c.toNat ≤ 90 := by
  change decide ('A'.val ≤ c.val ∧ c.val ≤ 'Z'.val) = true ↔ _
  rw [decide_eq_true_eq, UInt32.le_iff_toNat_le, UInt32.le_iff_toNat_le]
  rfl

theorem toNat_toLower (c : Char) :
    c.toLower.toNat = if c.isUpper then c.toNat + 32 else c.toNat := by
  unfold Char.toLower
  split
  · next hrange =>
    have hupper : c.isUpper = true := decide_eq_true hrange
    have hbound := isUpper_iff.mp hupper
    have hsum : (c.val + 32).toNat = c.toNat + 32 := by
      rw [UInt32.toNat_add]
      exact Nat.mod_eq_of_lt (by simp [Char.toNat_val]; omega)
    rw [if_pos hupper]
    exact hsum
  · next hrange =>
    have hupper : ¬c.isUpper = true := fun h => hrange (of_decide_eq_true h)
    rw [if_neg hupper]

theorem toLower_eq_self {c : Char} (h : c.isUpper = false) : c.toLower = c :=
  Char.toNat_inj.mp (by rw [toNat_toLower, h]; rfl)

theorem isUpper_toLower (c : Char) : c.toLower.isUpper = false := by
  by_cases h : c.isUpper = true
  · have hbound := isUpper_iff.mp h
    rw [← Bool.not_eq_true, isUpper_iff, toNat_toLower, if_pos h]
    omega
  · rw [toLower_eq_self (Bool.eq_false_iff.mpr h)]
    exact Bool.eq_false_iff.mpr h

theorem toLower_ne_hyphen {c : Char} (h : c ≠ '-') : c.toLower ≠ '-' := by
  intro heq
  by_cases hupper : c.isUpper = true
  · have hbound := isUpper_iff.mp hupper
    have hcode := congrArg Char.toNat heq
    simp only [toNat_toLower, hupper, if_true, Char.reduceToNat] at hcode
    omega
  · exact h (toLower_eq_self (Bool.eq_false_iff.mpr hupper) ▸ heq)

theorem toLower_lt {c : Char} (h : c.toNat < 0x80) : c.toLower.toNat < 0x80 := by
  rw [toNat_toLower]
  split
  · next hupper =>
    have hbound := isUpper_iff.mp hupper
    omega
  · exact h

theorem IsAscii.hyphenate (h : IsAscii cs) : IsAscii (hyphenate inRun cs) := by
  fun_induction Text.hyphenate inRun cs with
  | case1 => exact h
  | case2 inRun c cs _ ih =>
    obtain ⟨hc, hcs⟩ := List.forall_mem_cons.mp h
    exact List.forall_mem_cons.mpr ⟨by decide, List.forall_mem_cons.mpr ⟨hc, ih hcs⟩⟩
  | case3 inRun c cs _ ih =>
    obtain ⟨hc, hcs⟩ := List.forall_mem_cons.mp h
    exact List.forall_mem_cons.mpr ⟨hc, ih hcs⟩

theorem dropHyphen_of_head? (h : cs.head? ≠ some '-') : dropHyphen cs = cs := by
  unfold dropHyphen
  split
  · exact absurd rfl h
  · rfl

-- ---------------------------------------------------------------------------
-- Signs
-- ---------------------------------------------------------------------------

theorem map_char_lowered (b : List Char) : (lowered b).map Sign.char = b.map Char.toLower := by
  simp [lowered, Sign.char]

theorem map_toLower_hyphenOf (b : List Char) :
    ((hyphenOf b).map Sign.char ++ b).map Char.toLower =
      (hyphenOf b ++ lowered b).map Sign.char := by
  rw [List.map_append, List.map_append, map_char_lowered]
  unfold hyphenOf
  split <;> rfl

theorem filterMap_letter?_lowered (b : List Char) :
    (lowered b).filterMap Sign.letter? = b.map Char.toLower := by
  simp [lowered, List.filterMap_map, Function.comp_def, Sign.letter?]

theorem filterMap_letter?_hyphenOf (b : List Char) : (hyphenOf b).filterMap Sign.letter? = [] := by
  unfold hyphenOf
  split <;> rfl

theorem filterMap_letter?_spelled (bs : List (List Char)) :
    (spelled bs).filterMap Sign.letter? = bs.flatten.map Char.toLower := by
  cases bs with
  | nil => rfl
  | cons b bs =>
    rw [spelled, List.filterMap_append, List.filterMap_flatMap, List.flatten_cons, List.map_append,
      List.map_flatten, ← List.flatMap_def, filterMap_letter?_lowered]
    simp only [List.filterMap_append, filterMap_letter?_hyphenOf, filterMap_letter?_lowered,
      List.nil_append]

theorem head?_spelled (h : AreBlocks bs cs) (hhead : cs.head? ≠ some '-') :
    ((spelled bs).map Sign.char).head? ≠ some '-' := by
  obtain rfl := h.flatten_eq
  cases bs with
  | nil => exact hhead
  | cons b bs =>
    obtain ⟨c, ds, rfl⟩ := List.exists_cons_of_ne_nil (h.ne_nil b List.mem_cons_self)
    simpa [spelled, lowered, Sign.char] using toLower_ne_hyphen (by simpa using hhead)

-- ---------------------------------------------------------------------------
-- Names in kebab case
-- ---------------------------------------------------------------------------

theorem kebabChars_eq (h : IsAscii cs) (hhead : cs.head? ≠ some '-') :
    kebabChars cs = (spelled (blocks cs)).map Sign.char := by
  have hblocks := areBlocks_blocks cs
  have hlower : lowercase (hyphenate false cs) =
      ((blocks cs).flatMap fun b => hyphenOf b ++ lowered b).map Sign.char := by
    rw [lowercase_of_isAscii h.hyphenate, hyphenate_blocks hblocks fun _ _ _ => rfl,
      List.map_flatMap, List.map_flatMap]
    simp only [map_toLower_hyphenOf]
  have hspelled := head?_spelled hblocks hhead
  rw [kebabChars, hlower]
  cases hbs : blocks cs with
  | nil => rfl
  | cons b bs =>
    rw [List.flatMap_cons, List.append_assoc]
    cases hcapitals : isCapitals b with
    | true =>
      have hhyphen : hyphenOf b = [.hyphen] := if_pos hcapitals
      rw [hhyphen]
      rfl
    | false =>
      have hhyphen : hyphenOf b = [] := by simp [hyphenOf, hcapitals]
      rw [hhyphen, List.nil_append, ← spelled, ← hbs]
      exact dropHyphen_of_head? hspelled

theorem of_mem_kebabChars {c : Char} (h : IsAscii cs) (hc : c ∈ kebabChars cs) :
    c.toNat < 0x80 ∧ c.isUpper = false := by
  have hmem : c ∈ (hyphenate false cs).map Char.toLower := by
    rw [← lowercase_of_isAscii h.hyphenate]
    exact mem_of_mem_dropHyphen hc
  obtain ⟨d, hd, rfl⟩ := List.mem_map.mp hmem
  exact ⟨toLower_lt (h.hyphenate d hd), isUpper_toLower d⟩

theorem kebabChars_eq_self (h : IsAscii cs) (hupper : ∀ c ∈ cs, c.isUpper = false)
    (hhead : cs.head? ≠ some '-') : kebabChars cs = cs := by
  have hhyphenate : hyphenate false cs = cs := by
    clear h hhead
    induction cs with
    | nil => rfl
    | cons c cs ih =>
      obtain ⟨hc, hcs⟩ := List.forall_mem_cons.mp hupper
      simp [hyphenate, hc, ih hcs]
  have hlower : cs.map Char.toLower = cs := by
    refine (List.map_congr_left fun c hc => ?_).trans cs.map_id
    exact toLower_eq_self (hupper c hc)
  rw [kebabChars, hhyphenate, lowercase_of_isAscii h, hlower, dropHyphen_of_head? hhead]

end

/-- An ASCII file stem that does not begin with a hyphen falls into blocks of capitals and of other
characters in one way. In kebab case these are in lower case, and a hyphen has been inserted in
front of each block of capitals but a first one. The result has no capital and no hyphen in front,
and it is its own form in kebab case. -/
theorem kebab_blocks (stem : String) (hascii : ∀ c ∈ stem.toList, c.toNat < 0x80)
    (hhead : stem.toList.head? ≠ some '-') :
    (∀ bs, AreBlocks bs stem.toList ↔ bs = blocks stem.toList) ∧
    (kebab stem).toList = (spelled (blocks stem.toList)).map Sign.char ∧
    (spelled (blocks stem.toList)).filterMap Sign.letter? = stem.toList.map Char.toLower ∧
    (∀ c ∈ (kebab stem).toList, c.toNat < 0x80 ∧ c.isUpper = false) ∧
    (kebab stem).toList.head? ≠ some '-' ∧
    kebab (kebab stem) = kebab stem := by
  have hchars : (kebab stem).toList = kebabChars stem.toList := String.toList_ofList
  have hspelled : (kebab stem).toList = (spelled (blocks stem.toList)).map Sign.char :=
    hchars.trans (kebabChars_eq hascii hhead)
  have hlower : ∀ c ∈ (kebab stem).toList, c.toNat < 0x80 ∧ c.isUpper = false := by
    rw [hchars]
    exact fun c hc => of_mem_kebabChars hascii hc
  have hfirst : (kebab stem).toList.head? ≠ some '-' :=
    hspelled ▸ head?_spelled (areBlocks_blocks _) hhead
  have hagain : kebabChars (kebab stem).toList = (kebab stem).toList :=
    kebabChars_eq_self (fun c hc => (hlower c hc).1) (fun c hc => (hlower c hc).2) hfirst
  refine ⟨fun bs => areBlocks_iff, hspelled, ?_, hlower, hfirst, ?_⟩
  · rw [filterMap_letter?_spelled, (areBlocks_blocks _).flatten_eq]
  · rw [kebab, hagain, String.ofList_toList]

/-- Runs at both ends, a digit in front of a capital, and a hyphen that was there before. -/
theorem kebab_blocks_sample :
    (∀ c ∈ "HTTPv2-Base64DTO".toList, c.toNat < 0x80) ∧
    "HTTPv2-Base64DTO".toList.head? ≠ some '-' ∧
    blocks "HTTPv2-Base64DTO".toList =
      ["HTTP".toList, "v2-".toList, "B".toList, "ase64".toList, "DTO".toList] ∧
    kebab "HTTPv2-Base64DTO" = "httpv2--base64-dto" ∧
    kebab (kebab "HTTPv2-Base64DTO") = kebab "HTTPv2-Base64DTO" := by
  have hascii : ∀ c ∈ "HTTPv2-Base64DTO".toList, c.toNat < 0x80 := by simp
  have hhead : "HTTPv2-Base64DTO".toList.head? ≠ some '-' := by decide
  have hblocks : blocks "HTTPv2-Base64DTO".toList =
      ["HTTP".toList, "v2-".toList, "B".toList, "ase64".toList, "DTO".toList] := by decide
  obtain ⟨-, hspelled, -, -, -, hagain⟩ := kebab_blocks "HTTPv2-Base64DTO" hascii hhead
  refine ⟨hascii, hhead, hblocks, ?_, hagain⟩
  rw [hblocks] at hspelled
  exact String.toList_inj.mp (hspelled.trans (by decide))

end TypeWeave.Text
