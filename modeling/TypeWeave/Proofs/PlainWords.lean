import Mathlib.Data.List.TakeWhile
import TypeWeave.Proofs.Wildcards

/-!
# Words have no dots

A word of a source text has no dot in it, so that every segment of a name in a type expression is a
simple name (`readUnit_plain`). Readers only regroup the tokens of a text, or cut the start off a
word, and neither adds a dot.
-/

namespace TypeWeave.Java

/-- The token has no dot in it if it is a word. That a word is what starts with a letter is needed
for `s` alone: it may be what `non-sealed` ends in. -/
def Token.IsPlain (t : Token) : Prop :=
  t.kind = .word ∨ t.text.toList.head? = some 's' → '.' ∉ t.text.toList

def AllPlain (ts : List Tree) : Prop := ∀ t ∈ Tree.tokensOf ts, t.IsPlain

-- ---------------------------------------------------------------------------
-- Tokens
-- ---------------------------------------------------------------------------

theorem dot_notMem_takeWhile (cs : List Char) : '.' ∉ cs.takeWhile isWordChar :=
  fun h => absurd (List.mem_takeWhile_imp h) (by decide)

theorem extent_of_word {c : Char} {cs : List Char} (h : (extent c cs).1 = some .word ∨ c = 's') :
    isWordStart c = true ∧ (extent c cs).2 = (cs.takeWhile isWordChar).length := by
  rcases h with h | rfl
  · unfold extent at h ⊢
    grind
  · simp [extent, isSpace, isWordStart]

theorem dot_notMem_cut {c : Char} {cs : List Char} (h : (extent c cs).1 = some .word ∨ c = 's') :
    '.' ∉ (cut c cs).1.text := by
  obtain ⟨hstart, hlength⟩ := extent_of_word h
  have hc : '.' ≠ c := by
    rintro rfl
    exact absurd hstart (by decide)
  have htake : cs.take (cs.takeWhile isWordChar).length = cs.takeWhile isWordChar :=
    (List.prefix_iff_eq_take.mp (List.takeWhile_prefix _)).symm
  simp [cut, hlength, htake, hc, dot_notMem_takeWhile]

theorem isPlain_of_mem_scan {cs : List Char} {p : Piece} (h : p ∈ scan cs)
    (hp : p.kind = some .word ∨ p.text.head? = some 's') : '.' ∉ p.text := by
  fun_induction scan cs with
  | case1 => cases h
  | case2 c cs ih =>
    rcases List.mem_cons.mp h with rfl | h
    · exact dot_notMem_cut (hp.imp_right Option.some.inj)
    · exact ih h

theorem isPlain_of_mem_attachGaps {gap : List Char} {ps : List Piece} {t : Token}
    (hps : ∀ p ∈ ps, p.kind = some .word ∨ p.text.head? = some 's' → '.' ∉ p.text)
    (h : t ∈ attachGaps gap ps) : t.IsPlain := by
  induction ps generalizing gap with
  | nil => cases h
  | cons piece rest ih =>
    rw [List.forall_mem_cons] at hps
    rw [attachGaps] at h
    split at h
    · exact ih hps.2 h
    · next kind hkind =>
      rcases List.mem_cons.mp h with rfl | h
      · intro ht
        simpa using hps.1 (by simpa [hkind] using ht)
      · exact ih hps.2 h

theorem isPlain_of_mem_tokenize {text : String} {t : Token} (h : t ∈ tokenize text) : t.IsPlain :=
  isPlain_of_mem_attachGaps (fun _ hp => isPlain_of_mem_scan hp) h

-- ---------------------------------------------------------------------------
-- Trees
-- ---------------------------------------------------------------------------

theorem Tree.tokensOf_append (ts us : List Tree) :
    tokensOf (ts ++ us) = tokensOf ts ++ tokensOf us := by
  induction ts with
  | nil => rfl
  | cons t ts ih => simp [tokensOf, ih]

theorem Tree.mem_tokensOf {ts : List Tree} {token : Token} :
    token ∈ tokensOf ts ↔ ∃ t ∈ ts, token ∈ t.tokens := by
  induction ts with
  | nil => simp [tokensOf]
  | cons t ts ih => simp [tokensOf, ih]

namespace AllPlain

variable {t : Tree} {ts us : List Tree}

theorem mono (h : AllPlain ts) (hsub : ∀ t ∈ us, t ∈ ts) : AllPlain us := by
  intro token htoken
  obtain ⟨t, ht, htoken⟩ := Tree.mem_tokensOf.mp htoken
  exact h token (Tree.mem_tokensOf.mpr ⟨t, hsub t ht, htoken⟩)

theorem cons_iff : AllPlain (t :: ts) ↔ (∀ token ∈ t.tokens, token.IsPlain) ∧ AllPlain ts := by
  simp [AllPlain, Tree.tokensOf, or_imp, forall_and]

theorem leaf_iff {token : Token} : AllPlain (.leaf token :: ts) ↔ token.IsPlain ∧ AllPlain ts := by
  simp [cons_iff, Tree.tokens]

theorem reverse (h : AllPlain ts) : AllPlain ts.reverse := h.mono fun _ => List.mem_reverse.mp

theorem dropWhile {p : Tree → Bool} (h : AllPlain ts) : AllPlain (ts.dropWhile p) :=
  h.mono fun _ ht => (List.dropWhile_suffix p).subset ht

end AllPlain

theorem allPlain_closeAll {current : List Tree} {stack : OpenGroups} (h : AllPlain current)
    (hs : ∀ open' ∈ stack, open'.1.IsPlain ∧ AllPlain open'.2) :
    AllPlain (closeAll current stack) := by
  induction stack generalizing current with
  | nil => exact h.reverse
  | cons open' rest ih =>
    rw [List.forall_mem_cons] at hs
    refine ih (AllPlain.cons_iff.mpr ⟨?_, hs.1.2⟩) hs.2
    simpa [Tree.tokens] using ⟨hs.1.1, h.reverse⟩

theorem allPlain_groupTokens {current : List Tree} {stack : OpenGroups} {tokens : List Token}
    (h : AllPlain current) (hs : ∀ open' ∈ stack, open'.1.IsPlain ∧ AllPlain open'.2)
    (ht : ∀ t ∈ tokens, t.IsPlain) : AllPlain (groupTokens current stack tokens) := by
  fun_induction groupTokens current stack tokens with
  | case1 => exact allPlain_closeAll h hs
  | case2 current stack t ts _ ih =>
    rw [List.forall_mem_cons] at ht
    exact ih (by simp [AllPlain, Tree.tokensOf]) (List.forall_mem_cons.mpr ⟨⟨ht.1, h⟩, hs⟩) ht.2
  | case3 current t ts _ _ opening before rest _ ih =>
    rw [List.forall_mem_cons] at ht hs
    refine ih (AllPlain.cons_iff.mpr ⟨?_, hs.1.2⟩) hs.2 ht.2
    simp only [Tree.tokens, List.mem_cons, List.mem_append, Option.toList_some, List.not_mem_nil,
      or_false]
    rintro token (rfl | htoken | rfl)
    · exact hs.1.1
    · exact h.reverse token htoken
    · exact ht.1
  | case4 current t ts _ _ opening before rest _ ih => exact ih h hs (List.forall_mem_cons.mp ht).2
  | case5 current t ts _ _ ih => exact ih h hs (List.forall_mem_cons.mp ht).2
  | case6 current stack t ts _ _ ih =>
    rw [List.forall_mem_cons] at ht
    exact ih (AllPlain.leaf_iff.mpr ⟨ht.1, h⟩) hs ht.2

theorem allPlain_parseTrees {tokens : List Token} (h : ∀ t ∈ tokens, t.IsPlain) :
    AllPlain (parseTrees tokens) :=
  allPlain_groupTokens (by simp [AllPlain, Tree.tokensOf]) (by simp) h

theorem allPlain_gatherFrom {parts ts : List Tree} (hp : AllPlain parts) (h : AllPlain ts) :
    AllPlain (gatherFrom parts ts) := by
  have hbefore {parts following : List Tree} (hp : AllPlain parts) (hf : AllPlain following) :
      AllPlain (annotationBefore parts following) := by
    unfold annotationBefore
    split
    · exact hf
    · exact AllPlain.cons_iff.mpr ⟨hp.reverse, hf⟩
  have hnil : AllPlain [] := by simp [AllPlain, Tree.tokensOf]
  fun_induction gatherFrom parts ts with
  | case1 => exact hbefore hp hnil
  | case2 parts t name rest _ ih =>
    obtain ⟨ht, hname, hrest⟩ := by simpa only [AllPlain.leaf_iff] using h
    have hpair : AllPlain [.leaf name, .leaf t] :=
      AllPlain.leaf_iff.mpr ⟨hname, AllPlain.leaf_iff.mpr ⟨ht, hnil⟩⟩
    exact hbefore hp (ih hpair hrest)
  | case3 parts t name rest _ _ ih =>
    obtain ⟨ht, hname, hrest⟩ := by simpa only [AllPlain.leaf_iff] using h
    exact ih (AllPlain.leaf_iff.mpr ⟨hname, AllPlain.leaf_iff.mpr ⟨ht, hp⟩⟩) hrest
  | case4 parts t name rest _ _ ih =>
    obtain ⟨ht, hrest⟩ := AllPlain.leaf_iff.mp h
    exact hbefore hp (AllPlain.leaf_iff.mpr ⟨ht, ih hnil hrest⟩)
  | case5 parts t rest _ _ ih =>
    obtain ⟨ht, hrest⟩ := AllPlain.cons_iff.mp h
    exact hbefore (AllPlain.cons_iff.mpr ⟨ht, hp⟩) (ih hnil hrest)
  | case6 parts t rest _ _ ih =>
    obtain ⟨ht, hrest⟩ := AllPlain.cons_iff.mp h
    exact hbefore hp (AllPlain.cons_iff.mpr ⟨ht, ih hnil hrest⟩)

theorem allPlain_of_mem_cutMembers {kind : BodyKind} {member m ts : List Tree}
    (hm : AllPlain member) (h : AllPlain ts) (hmem : m ∈ cutMembers kind member ts) :
    AllPlain m := by
  have hnil : AllPlain [] := by simp [AllPlain, Tree.tokensOf]
  fun_induction cutMembers kind member ts with
  | case1 => cases hmem
  | case2 => exact List.mem_singleton.mp hmem ▸ hm.reverse
  | case3 member t ts _ ih =>
    rcases List.mem_cons.mp hmem with rfl | hmem
    · exact hm.reverse
    · exact ih hnil (AllPlain.cons_iff.mp h).2 hmem
  | case4 member t ts _ _ ih =>
    obtain ⟨ht, hrest⟩ := AllPlain.cons_iff.mp h
    rcases List.mem_cons.mp hmem with rfl | hmem
    · exact (AllPlain.cons_iff.mpr ⟨ht, hm⟩).reverse
    · exact ih hnil hrest hmem
  | case5 member t ts _ _ ih =>
    obtain ⟨ht, hrest⟩ := AllPlain.cons_iff.mp h
    exact ih (AllPlain.cons_iff.mpr ⟨ht, hm⟩) hrest hmem

theorem allPlain_of_mem_members {kind : BodyKind} {m ts : List Tree} (h : AllPlain ts)
    (hmem : m ∈ members kind ts) : AllPlain m :=
  allPlain_of_mem_cutMembers (by simp [AllPlain, Tree.tokensOf])
    (allPlain_gatherFrom (by simp [AllPlain, Tree.tokensOf]) h) hmem

theorem allPlain_afterNonSealed? {ts rest : List Tree} (h : AllPlain ts)
    (hrest : afterNonSealed? ts = some rest) : AllPlain rest := by
  unfold afterNonSealed? at hrest
  split at hrest
  · next non dash last trees =>
    simp only [AllPlain.leaf_iff, AllPlain.cons_iff (t := dash)] at h
    split at hrest
    · next hsealed =>
      -- What follows `sealed` is the end of a word.
      simp only [Bool.and_eq_true, List.isPrefixOf_iff_prefix] at hsealed
      obtain ⟨more, hmore⟩ := hsealed.2
      have hlast := h.2.2.1 (.inr (by rw [← hmore]; rfl))
      cases hglued : last.text.toList.drop "sealed".length with
      | nil =>
        rw [hglued] at hrest
        cases hrest
        exact h.2.2.2
      | cons c cs =>
        rw [hglued] at hrest
        cases hrest
        refine AllPlain.leaf_iff.mpr ⟨fun _ hdot => hlast ?_, h.2.2.2⟩
        rw [String.toList_ofList, ← hglued] at hdot
        exact List.mem_of_mem_drop hdot
    · cases hrest
  · cases hrest

theorem allPlain_cutModifiers {ts : List Tree} (h : AllPlain ts) :
    AllPlain (cutModifiers ts).2 := by
  fun_induction cutModifiers ts with
  | case1 => exact h
  | case2 t rest word _ words rest' hrest ih =>
    rw [hrest] at ih
    exact ih (AllPlain.cons_iff.mp h).2
  | case3 t rest _ _ ih => exact ih (AllPlain.cons_iff.mp h).2
  | case4 t rest _ _ rest' hafter _ words rest'' hrest ih =>
    rw [hrest] at ih
    exact ih (allPlain_afterNonSealed? h hafter)
  | case5 => exact h

-- ---------------------------------------------------------------------------
-- Type expressions
-- ---------------------------------------------------------------------------

mutual
def TypeExpr.plain : TypeExpr → Bool
  | .primitive _ => true
  | .named segments args => segments.all (fun s => !s.toList.contains '.') && plainAll args
  | .array element => element.plain
  | .wildcard => true
  | .bounded bound => bound.plain
def TypeExpr.plainAll : List TypeExpr → Bool
  | [] => true
  | arg :: args => arg.plain && plainAll args
end

theorem allPlain_dimensions {ts : List Tree} (h : AllPlain ts) :
    AllPlain (TypeExpr.dimensions ts).2 := by
  fun_induction TypeExpr.dimensions ts with
  | case1 => exact h
  | case2 t ts _ count rest hrest ih =>
    rw [hrest] at ih
    exact ih (AllPlain.cons_iff.mp h).2
  | case3 => exact h
  | case4 t ts _ _ count rest hrest ih =>
    rw [hrest] at ih
    exact ih (AllPlain.cons_iff.mp h).2
  | case5 => exact h

theorem word?_plain {t : Tree} {word : String} (h : ∀ token ∈ t.tokens, token.IsPlain)
    (hword : t.word? = some word) : '.' ∉ word.toList := by
  cases t with
  | leaf token =>
    simp only [Tree.word?, Option.ite_none_right_eq_some] at hword
    obtain ⟨hkind, hword⟩ := hword
    cases hword
    exact h token (by simp [Tree.tokens]) (.inl hkind)
  | _ => cases hword

theorem segment?_plain {ts rest : List Tree} {name : String} (h : AllPlain ts)
    (hs : TypeExpr.segment? ts = some (name, rest)) : '.' ∉ name.toList ∧ AllPlain rest := by
  unfold TypeExpr.segment? at hs
  split at hs
  · next dot ts =>
    have hbare := (AllPlain.cons_iff.mp h).2.dropWhile (p := Tree.isAnnotationTree)
    split at hs
    · next t trees hdrop =>
      rw [hdrop, AllPlain.cons_iff] at hbare
      split at hs
      · obtain ⟨word, hword, hpair⟩ := Option.map_eq_some_iff.mp hs
        cases hpair
        exact ⟨word?_plain hbare.1 hword, hbare.2⟩
      · cases hs
    · cases hs
  · cases hs

namespace TypeExpr

theorem plain_nestArray (e : TypeExpr) (n : Nat) : (e.nestArray n).plain = e.plain := by
  induction n with
  | zero => rfl
  | succ n ih => simpa only [nestArray, plain] using ih

mutual
theorem read_plain : (fuel : Nat) → {ts rest : List Tree} → {e : TypeExpr} → AllPlain ts →
    read fuel ts = some (e, rest) → e.plain = true ∧ AllPlain rest
  | 0, ts, rest, e, hts, h => by simp [read] at h
  | fuel + 1, ts, rest, e, hts, h => by
    have hbare := hts.dropWhile (p := Tree.isAnnotationTree)
    unfold read at h
    split at h
    · next t trees _ heq =>
      rw [heq, AllPlain.leaf_iff] at hbare
      split at h
      · cases h
      · next hkind =>
        have hword : '.' ∉ t.text.toList := hbare.1 (.inl (by simpa using hkind))
        split at h
        · cases h
          exact ⟨plain_nestArray _ _, allPlain_dimensions hbare.2⟩
        · cases h
          have hsegment : ([t.text].all fun s => !s.toList.contains '.') = true := by
            simpa using hword
          have hnone : plainAll [] = true := rfl
          obtain ⟨hplain, hrest⟩ := readSegments_plain _ hsegment hnone hbare.2
          exact ⟨(plain_nestArray _ _).trans hplain, allPlain_dimensions hrest⟩
    · cases h
theorem readSegments_plain : (fuel : Nat) → {segments : List String} → {args : List TypeExpr} →
    {ts : List Tree} → (segments.all fun s => !s.toList.contains '.') = true →
    plainAll args = true → AllPlain ts →
    (readSegments fuel segments args ts).1.plain = true ∧
      AllPlain (readSegments fuel segments args ts).2
  | 0, segments, args, ts, hs, ha, hts => by
    simp only [readSegments, plain, hs, ha, Bool.and_self, true_and]
    exact hts
  | fuel + 1, segments, args, ts, hs, ha, hts => by
    have hargs : plainAll ((readArgs? fuel ts).getD (args, ts)).1 = true ∧
        AllPlain ((readArgs? fuel ts).getD (args, ts)).2 := by
      cases hr : readArgs? fuel ts with
      | none => exact ⟨ha, hts⟩
      | some result => exact readArgs?_plain fuel hts hr
    rw [readSegments]
    dsimp only
    split
    · next name rest hsegment =>
      obtain ⟨hname, hrest⟩ := segment?_plain hargs.2 hsegment
      refine readSegments_plain fuel ?_ hargs.1 hrest
      simp only [List.all_append, hs, Bool.true_and]
      simpa using hname
    · simp only [plain, hs, hargs.1, Bool.and_self, true_and]
      exact hargs.2
theorem readArgs?_plain : (fuel : Nat) → {ts rest : List Tree} → {args : List TypeExpr} →
    AllPlain ts → readArgs? fuel ts = some (args, rest) → plainAll args = true ∧ AllPlain rest
  | 0, ts, rest, args, hts, h => by simp [readArgs?] at h
  | fuel + 1, ts, rest, args, hts, h => by
    unfold readArgs? at h
    split at h
    · next opening next trees _ =>
      have hnext := (AllPlain.cons_iff.mp hts).2
      split at h
      · cases h
      · split at h
        · cases h
          exact ⟨rfl, (AllPlain.cons_iff.mp hnext).2⟩
        · exact readArgList?_plain _ hnext h
    · cases h
theorem readArgList?_plain : (fuel : Nat) → {ts rest : List Tree} → {args : List TypeExpr} →
    AllPlain ts → readArgList? fuel ts = some (args, rest) → plainAll args = true ∧ AllPlain rest
  | 0, ts, rest, args, hts, h => by simp [readArgList?] at h
  | fuel + 1, ts, rest, args, hts, h => by
    unfold readArgList? at h
    split at h
    · next arg next trees harg =>
      obtain ⟨hfirst, hrest⟩ := readArg?_plain fuel hts harg
      have htrees := (AllPlain.cons_iff.mp hrest).2
      split at h
      · cases h
        exact ⟨by simp [plainAll, hfirst], htrees⟩
      · split at h
        · split at h
          · next others _ hothers =>
            cases h
            obtain ⟨hall, hrest⟩ := readArgList?_plain fuel htrees hothers
            exact ⟨by simp [plainAll, hfirst, hall], hrest⟩
          · cases h
        · cases h
    · cases h
theorem readArg?_plain : (fuel : Nat) → {ts rest : List Tree} → {e : TypeExpr} → AllPlain ts →
    readArg? fuel ts = some (e, rest) → e.plain = true ∧ AllPlain rest
  | 0, ts, rest, e, hts, h => by simp [readArg?] at h
  | fuel + 1, ts, rest, e, hts, h => by
    have hbare := hts.dropWhile (p := Tree.isAnnotationTree)
    unfold readArg? at h
    split at h
    · next t trees _ heq =>
      rw [heq] at hbare
      have htrees := (AllPlain.cons_iff.mp hbare).2
      split at h
      · exact read_plain _ hbare h
      · split at h
        · cases h
          exact ⟨rfl, htrees⟩
        · next next bound =>
          split at h
          · split at h
            · next hbound =>
              cases h
              obtain ⟨hplain, hrest⟩ := read_plain _ (AllPlain.cons_iff.mp htrees).2 hbound
              exact ⟨by simpa only [plain] using hplain, hrest⟩
            · cases h
          · cases h
            exact ⟨rfl, htrees⟩
    · cases h
end

end TypeExpr

-- ---------------------------------------------------------------------------
-- Declarations
-- ---------------------------------------------------------------------------

theorem readFields_plain {member : List Tree} (hm : AllPlain member) {f : WrittenField}
    (h : f ∈ readFields member) : f.type.plain = true := by
  unfold readFields at h
  dsimp only at h
  split at h
  · cases h
  · next type declarators htype =>
    split at h
    · cases h
    · obtain ⟨entry, -, hentry⟩ := List.mem_filterMap.mp h
      cases entry with
      | nil => cases hentry
      | cons t ts =>
        obtain ⟨name, -, rfl⟩ := Option.map_eq_some_iff.mp hentry
        rw [TypeExpr.plain_nestArray]
        exact (TypeExpr.read_plain _ (allPlain_cutModifiers hm) htype).1

theorem allPlain_afterTypeParameters {depth : Nat} {ts : List Tree} (h : AllPlain ts) :
    AllPlain (afterTypeParameters depth ts) := by
  fun_induction afterTypeParameters depth ts with
  | case1 => exact h
  | case2 depth t ts _ ih => exact ih (AllPlain.cons_iff.mp h).2
  | case3 => exact h
  | case4 => exact (AllPlain.cons_iff.mp h).2
  | case5 depth t ts _ _ _ _ ih => exact ih (AllPlain.cons_iff.mp h).2
  | case6 depth t ts _ _ _ ih => exact ih (AllPlain.cons_iff.mp h).2

theorem superclass?_plain {ts : List Tree} (hts : AllPlain ts) {e : TypeExpr}
    (h : superclass? ts = some e) : e.plain = true := by
  have hafter : AllPlain (afterTypeParameters 0 ts) := allPlain_afterTypeParameters hts
  unfold superclass? at h
  split at h
  · next t rest heq =>
    rw [heq] at hafter
    split at h
    · obtain ⟨⟨type, rest⟩, htype, rfl⟩ := Option.map_eq_some_iff.mp h
      exact (TypeExpr.read_plain _ (AllPlain.cons_iff.mp hafter).2 htype).1
    · cases h
  · cases h

theorem allPlain_bodyOf {member : List Tree} (h : AllPlain member) : AllPlain (bodyOf member) := by
  have hnil : AllPlain [] := by simp [AllPlain, Tree.tokensOf]
  unfold bodyOf
  split
  · next opening inner closing hlast =>
    split
    · intro token htoken
      refine h token (Tree.mem_tokensOf.mpr ⟨_, List.mem_of_getLast? hlast, ?_⟩)
      simp [Tree.tokens, htoken]
    · exact hnil
  · exact hnil

theorem allPlain_cutSemicolon {ts : List Tree} (h : AllPlain ts) : AllPlain (cutSemicolon ts).2 :=
  h.dropWhile.mono fun _ => List.mem_of_mem_drop

structure Header.IsPlain (header : Header) : Prop where
  types : ∀ e ∈ header.kind.types, e.plain = true
  body : AllPlain header.body

theorem headerOf?_plain {kind : BodyKind} {keyword name : String} {rest body : List Tree}
    {header : Header} (hrest : AllPlain rest) (hbody : AllPlain body)
    (h : headerOf? kind keyword name rest body = some header) : header.IsPlain := by
  unfold headerOf? at h
  split at h
  · cases h
    refine ⟨fun e he => ?_, hbody⟩
    simp only [WrittenKind.types, List.mem_append, Option.mem_toList, List.mem_map,
      List.mem_flatMap] at he
    rcases he with he | ⟨f, ⟨member, hmember, hf⟩, rfl⟩
    · exact superclass?_plain hrest he
    · exact readFields_plain (allPlain_of_mem_members hbody hmember) hf
  · cases h
    exact ⟨by simp [WrittenKind.types], hbody⟩
  · cases h
    exact ⟨by simp [WrittenKind.types], allPlain_cutSemicolon hbody⟩
  · split at h
    · cases h
      exact ⟨by simp [WrittenKind.types], hbody⟩
    · cases h
  · cases h

theorem readHeader?_plain {kind : BodyKind} {member : List Tree} {header : Header}
    (hm : AllPlain member) (h : readHeader? kind member = some header) : header.IsPlain := by
  have hcut := allPlain_cutModifiers hm
  unfold readHeader? at h
  split at h
  · next first rest heq =>
    rw [heq] at hcut
    have hrest := (AllPlain.cons_iff.mp hcut).2
    split at h
    · dsimp only at h
      obtain ⟨name, -, rfl⟩ := Option.map_eq_some_iff.mp h
      exact ⟨by simp [WrittenKind.types], allPlain_bodyOf hm⟩
    · split at h
      · obtain ⟨name, -, hheader⟩ := Option.bind_eq_some_iff.mp h
        exact headerOf?_plain (AllPlain.cons_iff.mp hrest).2 (allPlain_bodyOf hm) hheader
      · cases h
  · cases h

/-- By induction on the depth to which types nest. -/
theorem readTypes_plain {file : SourceFile} {depth : Nat} {kind : BodyKind} {ts : List Tree}
    {outer : List String} {type : WrittenType} {p : Placement} (hts : AllPlain ts)
    (h : type ∈ readTypes depth kind ts) (hp : p ∈ type.placements file outer) :
    ∀ e ∈ p.type.kind.types, e.plain = true := by
  induction depth generalizing kind ts outer type with
  | zero => simp [readTypes] at h
  | succ depth ih =>
    obtain ⟨member, hmember, hread⟩ := List.mem_filterMap.mp h
    obtain ⟨header, hheader, rfl⟩ := Option.map_eq_some_iff.mp hread
    have hplain := readHeader?_plain (allPlain_of_mem_members hts hmember) hheader
    rcases List.mem_cons.mp hp with rfl | hp
    · exact hplain.types
    · obtain ⟨inner, hinner, hp⟩ := WrittenType.mem_nestedPlacements.mp hp
      exact ih hplain.body hinner hp

theorem readUnit_plain {location : SourceLocation} {text : String} {p : Placement}
    (hp : p ∈ SourceFile.placements ⟨location, readUnit text⟩) :
    ∀ e ∈ p.type.kind.types, e.plain = true := by
  obtain ⟨type, htype, hp⟩ := List.mem_flatMap.mp hp
  exact readTypes_plain (allPlain_parseTrees fun _ => isPlain_of_mem_tokenize) htype hp

end TypeWeave.Java
