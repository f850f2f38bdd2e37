import PhraseStructure.Proofs.TopDown.Prefix

/-!
# Empty words at the end

Settings may let an empty word be read at the end of the tokens. A strict parse
reads no word there. If it comes to an end before it looks for one, then the
other settings change nothing, and if no symbol reads an empty word, they never
do. A tree that was found with such words is the strict parse of its own
leaves, where the empty words are tokens.
-/

namespace PhraseStructure.TopDown

variable {s s' : Settings} {g : Grammar} {tokens : List String}
  {descend descend' : String → Nat → Step Match}

/-! ## Grammars without empty surfaces -/

theorem matchRest_congr {symbols : List Symbol}
    (h : ∀ symbol ∈ symbols,
      matchPart s tokens descend symbol = matchPart s' tokens descend' symbol) (pos : Nat) :
    matchRest s tokens descend symbols pos = matchRest s' tokens descend' symbols pos := by
  induction symbols generalizing pos with
  | nil => rfl
  | cons symbol rest ih =>
      have hrest := ih fun other hmem ↦ h other (List.mem_cons_of_mem _ hmem)
      rw [matchRest, matchRest, h symbol List.mem_cons_self]
      simp only [hrest]

theorem matchAlternative_congr {alternative : Alternative}
    (h : ∀ symbol ∈ alternative,
      matchPart s tokens descend symbol = matchPart s' tokens descend' symbol)
    (name : String) (pos : Nat) :
    matchAlternative s tokens descend name alternative pos =
      matchAlternative s' tokens descend' name alternative pos := by
  cases alternative with
  | nil => rfl
  | cons first rest =>
      have hrest := matchRest_congr fun other hmem ↦ h other (List.mem_cons_of_mem _ hmem)
      rw [matchAlternative, matchAlternative, h first List.mem_cons_self]
      simp only [hrest]

theorem matchAlternatives_congr {alternatives : List Alternative}
    (h : ∀ symbol ∈ alternatives.flatten,
      matchPart s tokens descend symbol = matchPart s' tokens descend' symbol)
    (name : String) (pos : Nat) :
    matchAlternatives s tokens descend name alternatives pos =
      matchAlternatives s' tokens descend' name alternatives pos := by
  induction alternatives with
  | nil => rfl
  | cons alternative others ih =>
      rw [List.flatten_cons] at h
      have hfirst := matchAlternative_congr
        (fun symbol hmem ↦ h symbol (List.mem_append_left _ hmem)) name pos
      have hothers := ih fun symbol hmem ↦ h symbol (List.mem_append_right _ hmem)
      rw [matchAlternatives, matchAlternatives, hfirst, hothers]

/-- Settings matter only in the surfaces of the grammar. -/
theorem matchName_congr (hdepth : s.maxDepth = s'.maxDepth)
    (hsurface : ∀ rule ∈ g.rules, ∀ symbol ∈ rule.alternatives.flatten,
      symbol.isNonterminal = false →
      ∀ pos, matchSurface s tokens symbol.surface pos = matchSurface s' tokens symbol.surface pos)
    (levels : Nat) : matchName s g tokens levels = matchName s' g tokens levels := by
  induction levels with
  | zero =>
      funext name pos
      rw [matchName, matchName, hdepth]
  | succ levels ih =>
      funext name pos
      rw [matchName, matchName]
      cases hrule : g.rule? name with
      | none => rfl
      | some rule =>
          apply matchAlternatives_congr
          intro symbol hused
          funext next
          cases hkind : symbol.isNonterminal with
          | true => rw [matchPart_of_nonterminal hkind, matchPart_of_nonterminal hkind, ih]
          | false =>
              have hmem := (Grammar.rule?_eq_some_iff.mp hrule).1
              rw [matchPart_of_surface hkind, matchPart_of_surface hkind,
                hsurface rule hmem symbol hused hkind]

theorem matchSurface_congr {surface : String} (hsurface : surface ≠ "") (pos : Nat) :
    matchSurface s tokens surface pos = matchSurface s' tokens surface pos := by
  unfold matchSurface
  cases tokens[pos]? with
  | some token => rfl
  | none => simp [hsurface]

/-! ## Parses that end before the end -/

/-- Outcomes of a parse that has not looked for a word at the end. -/
def EndsInside (tokens : List String) : Except ParseFault Tree → Prop
  | .ok _ => True
  | .error (.leftover _ _) => True
  | .error (.noMatch _) => tokens ≠ []
  | .error (.mismatch _ _ position) => position < tokens.length
  | .error _ => False

theorem seenWithin_of_endsInside (h : EndsInside tokens (parse s g tokens).outcome) :
    SeenWithin tokens.length (matchName s g tokens (s.maxDepth + 1) g.start 0).outcome := by
  rcases hname : (matchName s g tokens (s.maxDepth + 1) g.start 0).outcome with
    fault | _ | ⟨tree, stop⟩
  · rw [parse_eq_error_iff.mpr (.inl hname)] at h
    have hshallow : ∀ limit, fault ≠ .tooDeep limit := by
      intro limit hfault
      rw [hfault] at h
      exact h
    obtain ⟨words, stop, hfails⟩ := exists_failsAfter hname hshallow
    rcases hfails.kind with ⟨surface, rfl⟩ | ⟨other, rfl⟩
    · exact h
    · cases h
  · rw [parse_eq_error_iff.mpr (.inr (.inl ⟨hname, rfl⟩))] at h
    exact List.length_pos_iff.mpr h
  · exact (sound_matchName _ _ _ _ _ hname).words.eq_take.1

theorem parse_eq_of_endsInside (hstrict : s.emptyAtEnd = false)
    (hdepth : s'.maxDepth = s.maxDepth) (hfull : s'.fullInput = s.fullInput)
    (h : EndsInside tokens (parse s g tokens).outcome) :
    (parse s' g tokens).outcome = (parse s g tokens).outcome := by
  apply outcome_parse_congr hfull
  rw [hdepth]
  apply matchName_of_take_eq hstrict (Nat.le_refl _) (Nat.le_refl tokens.length)
  · rfl
  · exact seenWithin_of_endsInside h

/-! ## Leaves as tokens -/

theorem parse_leaves {tree : Tree} (hdepth : s.maxDepth ≤ s'.maxDepth)
    (h : (parse s g tokens).outcome = .ok tree) :
    (parse s' g tree.leaves).outcome = .ok tree := by
  obtain ⟨stop, hname, -⟩ := parse_eq_ok_iff.mp h
  have hrepeats : Repeats s tokens (matchName s g tokens (s.maxDepth + 1)) s' tree.leaves
      (matchName s' g tree.leaves (s'.maxDepth + 1)) :=
    repeats_matchName (Nat.succ_le_succ hdepth)
  have hfound := hrepeats.found reads_all hname
  exact parse_eq_ok_iff.mpr ⟨tree.leaves.length, hfound, fun _ ↦ Nat.le_refl _⟩

/-- A strict parse and one that reads empty words at the end differ only in
what they see at the end. A parse that has not looked there comes out the same,
a grammar without empty surfaces is parsed the same, and a tree with empty
leaves at the end is the strict parse of all its leaves. -/
theorem emptyAtEnd_agrees (g : Grammar) (tokens : List String) (maxDepth : Nat)
    (fullInput : Bool) :
    (EndsInside tokens (parse { maxDepth, fullInput } g tokens).outcome →
      (parse { emptyAtEnd := true, maxDepth, fullInput } g tokens).outcome =
        (parse { maxDepth, fullInput } g tokens).outcome) ∧
    ((∀ rule ∈ g.rules, ∀ symbol ∈ rule.alternatives.flatten,
      symbol.isNonterminal = false → symbol.surface ≠ "") →
      (parse { emptyAtEnd := true, maxDepth, fullInput } g tokens).outcome =
        (parse { maxDepth, fullInput } g tokens).outcome) ∧
    (∀ tree, (parse { emptyAtEnd := true, maxDepth, fullInput } g tokens).outcome = .ok tree →
      (∃ stop empties, stop ≤ tokens.length ∧ (0 < empties → stop = tokens.length) ∧
        tree.leaves = tokens.take stop ++ List.replicate empties "") ∧
      (parse { maxDepth, fullInput := true } g tree.leaves).outcome = .ok tree) := by
  refine ⟨parse_eq_of_endsInside rfl rfl rfl, ?_, ?_⟩
  · intro hsurfaces
    have hname : matchName { emptyAtEnd := true, maxDepth, fullInput } g tokens (maxDepth + 1) =
        matchName { maxDepth, fullInput } g tokens (maxDepth + 1) := by
      apply matchName_congr
      · rfl
      · intro rule hrule symbol hused hkind
        exact matchSurface_congr (hsurfaces rule hrule symbol hused hkind)
    simp only [parse, hname]
  · intro tree htree
    obtain ⟨stop, haccounts, -⟩ := accounts_of_parse htree
    obtain ⟨hstop, empties, hleaves, hempties, -⟩ := haccounts.words.eq_take
    refine ⟨⟨stop, empties, hstop, hempties, hleaves⟩, ?_⟩
    apply parse_leaves _ htree
    exact Nat.le_refl maxDepth

/-- Any number of words `a` and one `b`. -/
def singleEnding : Grammar :=
  .ofRules [⟨"S", [[.terminal "a", .nonterminal "S"], [.terminal "b"]], 0⟩]

theorem emptyAtEnd_agrees_endings :
    (EndsInside ["a", "x"] (parse { maxDepth := 9 } optionalEnding ["a", "x"]).outcome ∧
      (parse { emptyAtEnd := true, maxDepth := 9 } optionalEnding ["a", "x"]).outcome =
        .error (.mismatch "End" (some "x") 1)) ∧
    ((∀ rule ∈ singleEnding.rules, ∀ symbol ∈ rule.alternatives.flatten,
        symbol.isNonterminal = false → symbol.surface ≠ "") ∧
      (parse { emptyAtEnd := true, maxDepth := 9 } singleEnding ["a"]).outcome =
        .error (.mismatch "S" none 1)) ∧
    (parse { emptyAtEnd := true, maxDepth := 9 } optionalEnding ["a"]).outcome =
        .ok (.node "S" [.leaf "a", .node "End" [.leaf ""]]) ∧
      (parse { maxDepth := 9, fullInput := true } optionalEnding ["a", ""]).outcome =
        .ok (.node "S" [.leaf "a", .node "End" [.leaf ""]]) := by
  have hinside : EndsInside ["a", "x"]
      (parse { maxDepth := 9 } optionalEnding ["a", "x"]).outcome := Nat.lt_succ_self 1
  have hsurfaces : ∀ rule ∈ singleEnding.rules, ∀ symbol ∈ rule.alternatives.flatten,
      symbol.isNonterminal = false → symbol.surface ≠ "" := by decide
  have htree : (parse { emptyAtEnd := true, maxDepth := 9 } optionalEnding ["a"]).outcome =
      .ok (.node "S" [.leaf "a", .node "End" [.leaf ""]]) := rfl
  refine ⟨⟨hinside, ?_⟩, ⟨hsurfaces, ?_⟩, htree, ?_⟩
  · exact ((emptyAtEnd_agrees optionalEnding ["a", "x"] 9 false).1 hinside).trans rfl
  · exact ((emptyAtEnd_agrees singleEnding ["a"] 9 false).2.1 hsurfaces).trans rfl
  · exact ((emptyAtEnd_agrees optionalEnding ["a"] 9 false).2.2 _ htree).2

end PhraseStructure.TopDown
