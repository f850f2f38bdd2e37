import PhraseStructure.Proofs.TopDown.Failure
import PhraseStructure.Proofs.TopDown.Soundness

/-!
# A match depends on the words that it reads

Compared are two ways of matching with the same grammar, each with settings and
tokens of its own, where the second has at least as many levels left. If a name
is passed over, then only the next word has been looked at. If a tree is found,
then only its leaves. If a fault arises other than the limit of nesting, then
the words matched so far and the next one.

So wherever the second way can read the same words, it comes to the same end,
at a position of its own.
-/

namespace PhraseStructure.TopDown

variable {s s' : Settings} {g : Grammar} {tokens tokens' : List String}
  {descend descend' : String → Nat → Step Match}

theorem lookahead_congr_of_reads {pos stop pos' stop' : Nat} {words : List String}
    (h : Reads s tokens pos words stop) (h' : Reads s' tokens' pos' words stop')
    (hnext : lookahead s' tokens' stop' = lookahead s tokens stop) :
    lookahead s' tokens' pos' = lookahead s tokens pos := by
  cases words with
  | nil =>
      cases h
      cases h'
      exact hnext
  | cons word words => exact h'.1.trans h.1.symm

theorem lookahead_eq_of_reads {pos stop pos' stop' : Nat} {words : List String}
    (hwords : words ≠ []) (h : Reads s tokens pos words stop)
    (h' : Reads s' tokens' pos' words stop') :
    lookahead s' tokens' pos' = lookahead s tokens pos := by
  obtain ⟨word, rest, rfl⟩ := List.exists_cons_of_ne_nil hwords
  exact h'.1.trans h.1.symm

theorem Reads.mono {pos stop : Nat} {words : List String}
    (hmode : ∀ pos word, lookahead s tokens pos = some word → lookahead s' tokens pos = some word)
    (h : Reads s tokens pos words stop) : Reads s' tokens pos words stop := by
  induction words generalizing pos with
  | nil => exact h
  | cons word words ih => exact ⟨hmode pos word h.1, ih h.2⟩

/-! ## Passing over and finding -/

/-- The second way down passes over a name where the same word comes next, and
finds a tree where the same words can be read. -/
structure Repeats (s : Settings) (tokens : List String) (descend : String → Nat → Step Match)
    (s' : Settings) (tokens' : List String) (descend' : String → Nat → Step Match) : Prop where
  passed {name : String} {pos pos' : Nat}
    (next : lookahead s' tokens' pos' = lookahead s tokens pos)
    (h : (descend name pos).outcome = .ok none) : (descend' name pos').outcome = .ok none
  found {name : String} {pos stop pos' stop' : Nat} {tree : Tree}
    (words : Reads s' tokens' pos' tree.leaves stop')
    (h : (descend name pos).outcome = .ok (some (tree, stop))) :
    (descend' name pos').outcome = .ok (some (tree, stop'))

theorem Repeats.matchPart_eq_none (hrepeats : Repeats s tokens descend s' tokens' descend')
    {symbol : Symbol} {pos pos' : Nat}
    (hnext : lookahead s' tokens' pos' = lookahead s tokens pos)
    (h : (matchPart s tokens descend symbol pos).outcome = .ok none) :
    (matchPart s' tokens' descend' symbol pos').outcome = .ok none := by
  cases hkind : symbol.isNonterminal with
  | true =>
      rw [matchPart_of_nonterminal hkind] at h ⊢
      exact hrepeats.passed hnext h
  | false =>
      rw [matchPart_of_surface hkind, matchSurface_eq] at h ⊢
      rw [hnext]
      by_cases hword : lookahead s tokens pos = some symbol.surface
      · rw [if_pos hword] at h
        cases h
      · rw [if_neg hword]
        rfl

theorem Repeats.matchPart_eq_some (hrepeats : Repeats s tokens descend s' tokens' descend')
    {symbol : Symbol} {pos stop pos' stop' : Nat} {tree : Tree}
    (hwords : Reads s' tokens' pos' tree.leaves stop')
    (h : (matchPart s tokens descend symbol pos).outcome = .ok (some (tree, stop))) :
    (matchPart s' tokens' descend' symbol pos').outcome = .ok (some (tree, stop')) := by
  cases hkind : symbol.isNonterminal with
  | true =>
      rw [matchPart_of_nonterminal hkind] at h ⊢
      exact hrepeats.found hwords h
  | false =>
      rw [matchPart_of_surface hkind, matchSurface_eq] at h ⊢
      by_cases hword : lookahead s tokens pos = some symbol.surface
      · rw [if_pos hword] at h
        cases h
        obtain ⟨hnext, hstop⟩ := hwords
        cases hstop
        rw [if_pos hnext]
        rfl
      · rw [if_neg hword] at h
        cases h

theorem Repeats.matchRest_eq_ok (hrepeats : Repeats s tokens descend s' tokens' descend')
    {symbols : List Symbol} {pos stop pos' stop' : Nat} {trees : List Tree}
    (hwords : Reads s' tokens' pos' (Tree.leavesOf trees) stop')
    (h : (matchRest s tokens descend symbols pos).outcome = .ok (trees, stop)) :
    (matchRest s' tokens' descend' symbols pos').outcome = .ok (trees, stop') := by
  induction symbols generalizing pos pos' trees with
  | nil =>
      cases h
      cases hwords
      rfl
  | cons symbol rest ih =>
      obtain ⟨tree, next, others, hfirst, hrest, rfl⟩ := matchRest_cons_eq_ok_iff.mp h
      obtain ⟨next', hhead, htail⟩ := reads_append_iff.mp hwords
      have hpart := hrepeats.matchPart_eq_some hhead hfirst
      have hothers := ih htail hrest
      exact matchRest_cons_eq_ok_iff.mpr ⟨tree, next', others, hpart, hothers, rfl⟩

theorem Repeats.matchAlternative_eq_none (hrepeats : Repeats s tokens descend s' tokens' descend')
    {name : String} {alternative : Alternative} {pos pos' : Nat}
    (hnext : lookahead s' tokens' pos' = lookahead s tokens pos)
    (h : (matchAlternative s tokens descend name alternative pos).outcome = .ok none) :
    (matchAlternative s' tokens' descend' name alternative pos').outcome = .ok none := by
  apply matchAlternative_eq_none_iff.mpr
  intro first hfirst
  exact hrepeats.matchPart_eq_none hnext (matchAlternative_eq_none_iff.mp h first hfirst)

theorem Repeats.comesTo (hrepeats : Repeats s tokens descend s' tokens' descend') {name : String}
    {alternatives : List Alternative} {pos next pos' next' : Nat} {front : List Symbol}
    {symbol : Symbol} {trees : List Tree}
    (hnext : lookahead s' tokens' pos' = lookahead s tokens pos)
    (hwords : Reads s' tokens' pos' (Tree.leavesOf trees) next')
    (h : ComesTo s tokens descend name alternatives pos front symbol trees next) :
    ComesTo s' tokens' descend' name alternatives pos' front symbol trees next' where
  passed := by
    obtain ⟨before, rest, behind, hsplit, hpassed⟩ := h.passed
    exact ⟨before, rest, behind, hsplit,
      fun other hother ↦ hrepeats.matchAlternative_eq_none hnext (hpassed other hother)⟩
  matched := hrepeats.matchRest_eq_ok hwords h.matched

theorem repeats_matchName {levels levels' : Nat} (hle : levels ≤ levels') :
    Repeats s tokens (matchName s g tokens levels) s' tokens' (matchName s' g tokens' levels') := by
  induction levels generalizing levels' with
  | zero =>
      constructor
      · intro name pos pos' _ h
        cases h
      · intro name pos stop pos' stop' tree _ h
        cases h
  | succ levels ih =>
      obtain ⟨more, rfl⟩ := Nat.exists_eq_add_of_lt hle
      have hrepeats := ih (Nat.le_add_right levels more)
      constructor
      · intro name pos pos' hnext h
        obtain ⟨_, rule, hlevels, hrule, hnone⟩ := matchName_eq_ok_iff.mp h
        cases hlevels
        refine matchName_eq_ok_iff.mpr ⟨_, rule, rfl, hrule, ?_⟩
        apply matchAlternatives_eq_none_iff.mpr
        intro other hother
        have hpassed := matchAlternatives_eq_none_iff.mp hnone other hother
        exact hrepeats.matchAlternative_eq_none hnext hpassed
      · intro name pos stop pos' stop' tree hwords h
        have haccounts := sound_matchName _ _ _ _ _ h
        have hnext := lookahead_eq_of_reads haccounts.derives.leaves_ne_nil haccounts.words hwords
        obtain ⟨_, rule, hlevels, hrule, hsome⟩ := matchName_eq_ok_iff.mp h
        cases hlevels
        obtain ⟨before, alternative, behind, hsplit, hpassed, hfound⟩ :=
          matchAlternatives_eq_some_iff.mp hsome
        obtain ⟨first, rest, child, next, others, rfl, hfirst, hrest, rfl⟩ :=
          matchAlternative_eq_some_iff.mp hfound
        obtain ⟨next', hhead, htail⟩ := reads_append_iff.mp hwords
        have hchild := hrepeats.matchPart_eq_some hhead hfirst
        have hothers := hrepeats.matchRest_eq_ok htail hrest
        refine matchName_eq_ok_iff.mpr ⟨_, rule, rfl, hrule, ?_⟩
        refine matchAlternatives_eq_some_iff.mpr ⟨before, _, behind, hsplit, ?_, ?_⟩
        · intro other hother
          exact hrepeats.matchAlternative_eq_none hnext (hpassed other hother)
        · exact matchAlternative_eq_some_iff.mpr
            ⟨first, rest, child, next', others, rfl, hchild, hothers, rfl⟩

/-! ## Failing -/

/-- The same fault at another position. -/
def faultAt (tokens : List String) (pos : Nat) : ParseFault → ParseFault
  | .mismatch surface _ _ => .mismatch surface tokens[pos]? pos
  | fault => fault

/-- A name fails at a position after it has read some words, and likewise
wherever these can be read and the same word comes next. -/
structure FailsAfter (s : Settings) (g : Grammar) (tokens : List String) (levels : Nat)
    (name : String) (pos : Nat) (fault : ParseFault) (words : List String) (stop : Nat) :
    Prop where
  reads : Reads s tokens pos words stop
  kind : (∃ surface, fault = .mismatch surface tokens[stop]? stop) ∨
    ∃ other, fault = .undefined other
  again {s' : Settings} {tokens' : List String} {levels' pos' stop' : Nat}
    (enough : levels ≤ levels') (reads' : Reads s' tokens' pos' words stop')
    (next : lookahead s' tokens' stop' = lookahead s tokens stop) :
    (matchName s' g tokens' levels' name pos').outcome = .error (faultAt tokens' stop' fault)

theorem FailsAfter.faultAt_eq {levels pos stop : Nat} {name : String} {fault : ParseFault}
    {words : List String} (h : FailsAfter s g tokens levels name pos fault words stop) :
    faultAt tokens stop fault = fault := by
  rcases h.kind with ⟨surface, rfl⟩ | ⟨other, rfl⟩ <;> rfl

theorem failsAfter_undefined {levels : Nat} {name : String} (pos : Nat)
    (hnone : g.rule? name = none) :
    FailsAfter s g tokens (levels + 1) name pos (.undefined name) [] pos where
  reads := rfl
  kind := .inr ⟨name, rfl⟩
  again := by
    intro s' tokens' levels' pos' stop' henough _ _
    obtain ⟨more, rfl⟩ := Nat.exists_eq_add_of_lt henough
    exact matchName_eq_error_iff.mpr (.inr ⟨_, rfl, .inl ⟨hnone, rfl⟩⟩)

variable {levels pos next : Nat} {name : String} {rule : Rule} {front : List Symbol}
  {trees : List Tree}

theorem ComesTo.accounts {symbol : Symbol}
    (h : ComesTo s tokens (matchName s g tokens levels) name rule.alternatives pos front symbol
      trees next) :
    AccountsEach s g tokens (levels + 1) front pos trees next :=
  (sound_matchName levels).matchRest h.matched

theorem ComesTo.failsAfter_here {symbol : Symbol} (hrule : g.rule? name = some rule)
    (hcomes : ComesTo s tokens (matchName s g tokens levels) name rule.alternatives pos front
      symbol trees next)
    (hlate : front ≠ [])
    (hnothing : (matchPart s tokens (matchName s g tokens levels) symbol next).outcome =
      .ok none) :
    FailsAfter s g tokens (levels + 1) name pos (.mismatch symbol.surface tokens[next]? next)
      (Tree.leavesOf trees) next where
  reads := hcomes.accounts.words
  kind := .inl ⟨symbol.surface, rfl⟩
  again := by
    intro s' tokens' levels' pos' stop' henough hwords hnext
    obtain ⟨more, rfl⟩ := Nat.exists_eq_add_of_lt henough
    have hrepeats : Repeats s tokens (matchName s g tokens levels) s' tokens'
        (matchName s' g tokens' (levels + more)) :=
      repeats_matchName (Nat.le_add_right levels more)
    have hbegin := lookahead_congr_of_reads hcomes.accounts.words hwords hnext
    have hcomes' := hrepeats.comesTo hbegin hwords hcomes
    have hnothing' := hrepeats.matchPart_eq_none hnext hnothing
    refine matchName_eq_error_iff.mpr (.inr ⟨_, rfl, .inr ⟨rule, hrule, ?_⟩⟩)
    exact matchAlternatives_eq_error_iff.mpr ⟨_, _, _, _, hcomes', .here hlate hnothing'⟩

theorem ComesTo.failsAfter_below {other : String} {fault : ParseFault} {words : List String}
    {stop : Nat} (hrule : g.rule? name = some rule)
    (hcomes : ComesTo s tokens (matchName s g tokens levels) name rule.alternatives pos front
      (.nonterminal other) trees next)
    (hfails : FailsAfter s g tokens levels other next fault words stop) :
    FailsAfter s g tokens (levels + 1) name pos fault (Tree.leavesOf trees ++ words) stop where
  reads := reads_append_iff.mpr ⟨next, hcomes.accounts.words, hfails.reads⟩
  kind := hfails.kind
  again := by
    intro s' tokens' levels' pos' stop' henough hwords hnext
    obtain ⟨more, rfl⟩ := Nat.exists_eq_add_of_lt henough
    have hbelow := Nat.le_add_right levels more
    obtain ⟨next', hfront, hwords⟩ := reads_append_iff.mp hwords
    have hmiddle := lookahead_congr_of_reads hfails.reads hwords hnext
    have hbegin := lookahead_congr_of_reads hcomes.accounts.words hfront hmiddle
    have hcomes' := (repeats_matchName hbelow).comesTo hbegin hfront hcomes
    have hfails' := hfails.again hbelow hwords hnext
    refine matchName_eq_error_iff.mpr (.inr ⟨_, rfl, .inr ⟨rule, hrule, ?_⟩⟩)
    exact matchAlternatives_eq_error_iff.mpr
      ⟨_, _, _, _, hcomes', .below (matchPart_eq_error_iff.mpr ⟨rfl, hfails'⟩)⟩

/-- Except for the limit of nesting, a fault depends on the words that were
read before it and on the next word. -/
theorem exists_failsAfter {fault : ParseFault}
    (h : (matchName s g tokens levels name pos).outcome = .error fault)
    (hshallow : ∀ limit, fault ≠ .tooDeep limit) :
    ∃ words stop, FailsAfter s g tokens levels name pos fault words stop := by
  revert hshallow
  refine matchName_fault_induction (motive := fun levels name pos fault ↦
    (∀ limit, fault ≠ .tooDeep limit) →
      ∃ words stop, FailsAfter s g tokens levels name pos fault words stop)
    ?limit ?undefined ?here ?below h
  case limit =>
    intro name pos hshallow
    exact (hshallow _ rfl).elim
  case undefined =>
    intro levels name pos hnone _
    exact ⟨[], pos, failsAfter_undefined pos hnone⟩
  case here =>
    intro levels name pos rule front symbol trees next hrule hcomes hlate hnothing _
    exact ⟨_, next, hcomes.failsAfter_here hrule hlate hnothing⟩
  case below =>
    intro levels name pos rule front other trees next fault hrule hcomes _ ih hshallow
    obtain ⟨words, stop, hfails⟩ := ih hshallow
    exact ⟨_, stop, hcomes.failsAfter_below hrule hfails⟩

end PhraseStructure.TopDown
