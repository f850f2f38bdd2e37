import PhraseStructure.Proofs.TopDown.Locality

/-!
# The tokens that a strict parse has seen

A strict match looks at the tokens that it reads and at the next one. A tree is
decided by its leaves alone, and that nothing matched or that a symbol was
missing by one token more. Whatever stands behind that does not count, nor does
it matter whether other settings would read empty words at the end.

So a sentence that is accepted with all of its tokens is not the beginning of
another one.
-/

namespace PhraseStructure.TopDown

variable {s s' : Settings} {g : Grammar} {tokens others : List String}

/-- Outcomes of a match from the beginning that are decided by the given number
of tokens. -/
def SeenWithin (count : Nat) : Except ParseFault Match → Prop
  | .ok none => 0 < count
  | .ok (some (_, stop)) => stop ≤ count
  | .error (.mismatch _ _ position) => position < count
  | .error _ => False

theorem getElem?_of_take_eq {count pos : Nat} (hagree : others.take count = tokens.take count)
    (hpos : pos < count) : others[pos]? = tokens[pos]? := by
  rw [← List.getElem?_take_of_lt hpos, hagree, List.getElem?_take_of_lt hpos]

theorem lookahead_of_take_eq {count pos : Nat} (hcount : count ≤ tokens.length)
    (hagree : others.take count = tokens.take count) (hpos : pos < count) :
    lookahead s' others pos = lookahead s tokens pos := by
  have hlt := Nat.lt_of_lt_of_le hpos hcount
  rw [lookahead_of_lt hlt, lookahead, getElem?_of_take_eq hagree hpos,
    List.getElem?_eq_getElem hlt]

theorem le_length_of_take_eq {count : Nat} (hcount : count ≤ tokens.length)
    (hagree : others.take count = tokens.take count) : count ≤ others.length := by
  have hlength := congrArg List.length hagree
  rw [List.length_take, List.length_take, Nat.min_eq_left hcount] at hlength
  omega

theorem Reads.eq_take_of_strict (hstrict : s.emptyAtEnd = false) {stop : Nat}
    {words : List String} (h : Reads s tokens 0 words stop) :
    words = tokens.take stop ∧ words.length = stop := by
  obtain ⟨hstop, empties, hwords, -, hnone⟩ := h.eq_take
  rw [hnone hstrict, List.replicate_zero, List.append_nil] at hwords
  refine ⟨hwords, ?_⟩
  rw [hwords, List.length_take, Nat.min_eq_left hstop]

theorem Reads.of_take_eq (hstrict : s.emptyAtEnd = false) {count stop : Nat}
    {words : List String} (h : Reads s tokens 0 words stop) (hcount : count ≤ tokens.length)
    (hagree : others.take count = tokens.take count) (hstop : stop ≤ count) :
    Reads s' others 0 words stop := by
  have hfront : words = others.take stop := by
    rw [(h.eq_take_of_strict hstrict).1, ← Nat.min_eq_left hstop, ← List.take_take, ← hagree,
      List.take_take]
  have hlength := Nat.le_trans hstop (le_length_of_take_eq hcount hagree)
  have hread : Reads s' others 0 ((others.drop 0).take stop) (0 + stop) :=
    reads_take_drop (by omega)
  rwa [List.drop_zero, Nat.zero_add, ← hfront] at hread

/-- A strict match repeats itself on all rows of tokens that begin with what it
has seen. -/
theorem matchName_of_take_eq (hstrict : s.emptyAtEnd = false) {levels levels' count : Nat}
    (hle : levels ≤ levels') (hcount : count ≤ tokens.length)
    (hagree : others.take count = tokens.take count) {name : String}
    (hseen : SeenWithin count (matchName s g tokens levels name 0).outcome) :
    (matchName s' g others levels' name 0).outcome =
      (matchName s g tokens levels name 0).outcome := by
  have hrepeats : Repeats s tokens (matchName s g tokens levels) s' others
      (matchName s' g others levels') := repeats_matchName hle
  rcases hname : (matchName s g tokens levels name 0).outcome with fault | _ | ⟨tree, stop⟩
  · rw [hname] at hseen
    have hshallow : ∀ limit, fault ≠ .tooDeep limit := by
      rintro limit rfl
      exact hseen
    obtain ⟨words, stop, hfails⟩ := exists_failsAfter hname hshallow
    rcases hfails.kind with ⟨surface, rfl⟩ | ⟨other, rfl⟩
    · have hreads : Reads s' others 0 words stop :=
        hfails.reads.of_take_eq hstrict hcount hagree (Nat.le_of_lt hseen)
      rw [hfails.again hle hreads (lookahead_of_take_eq hcount hagree hseen), faultAt,
        getElem?_of_take_eq hagree hseen]
    · exact hseen.elim
  · rw [hname] at hseen
    exact hrepeats.passed (lookahead_of_take_eq hcount hagree hseen) hname
  · rw [hname] at hseen
    have hreads := (sound_matchName _ _ _ _ _ hname).words
    exact hrepeats.found (hreads.of_take_eq hstrict hcount hagree hseen) hname

/-! ## Parses -/

theorem matchName_ne_noMatch {levels pos : Nat} {name start : String} :
    (matchName s g tokens levels name pos).outcome ≠ .error (.noMatch start) := by
  intro h
  obtain ⟨words, stop, hfails⟩ := exists_failsAfter h nofun
  rcases hfails.kind with ⟨surface, hfault⟩ | ⟨other, hfault⟩
  · cases hfault
  · cases hfault

theorem parse_eq_noMatch_iff {start : String} :
    (parse s g tokens).outcome = .error (.noMatch start) ↔
      (matchName s g tokens (s.maxDepth + 1) g.start 0).outcome = .ok none ∧ start = g.start := by
  simp [parse_eq_error_iff, matchName_ne_noMatch]

theorem length_leaves_le_of_parse (hstrict : s.emptyAtEnd = false) {tree : Tree}
    (h : (parse s g tokens).outcome = .ok tree) : tree.leaves.length ≤ tokens.length := by
  obtain ⟨stop, haccounts, -⟩ := accounts_of_parse h
  rw [(haccounts.words.eq_take_of_strict hstrict).2]
  exact haccounts.words.eq_take.1

/-- A tree that is found strictly is found again wherever its leaves come first. -/
theorem matchName_of_take_leaves (hstrict : s.emptyAtEnd = false)
    (hdepth : s.maxDepth ≤ s'.maxDepth) {tree : Tree}
    (h : (parse s g tokens).outcome = .ok tree)
    (hagree : others.take tree.leaves.length = tokens.take tree.leaves.length) :
    (matchName s' g others (s'.maxDepth + 1) g.start 0).outcome =
      .ok (some (tree, tree.leaves.length)) := by
  have hcount := length_leaves_le_of_parse hstrict h
  obtain ⟨stop, hname, -⟩ := parse_eq_ok_iff.mp h
  have hreads := (sound_matchName _ _ _ _ _ hname).words
  rw [← (hreads.eq_take_of_strict hstrict).2] at hname
  rw [← hname]
  apply matchName_of_take_eq hstrict (Nat.succ_le_succ hdepth) hcount hagree
  rw [hname]
  exact Nat.le_refl tree.leaves.length

/-- No row of tokens that is accepted as a whole begins another one. -/
theorem eq_of_prefix_of_parse (hstrict : s.emptyAtEnd = false) (hfull : s.fullInput = true)
    {tree longer : Tree} (h : (parse s g tokens).outcome = .ok tree)
    (hothers : (parse s g others).outcome = .ok longer) (hbegin : tokens <+: others) :
    tokens = others := by
  have hcount := length_leaves_le_of_parse hstrict h
  have hagree : others.take tree.leaves.length = tokens.take tree.leaves.length := by
    obtain ⟨more, rfl⟩ := hbegin
    exact List.take_append_of_le_length hcount
  have hname := matchName_of_take_leaves hstrict (Nat.le_refl s.maxDepth) h hagree
  obtain ⟨stop, hlonger, hall⟩ := parse_eq_ok_iff.mp hothers
  rw [hname] at hlonger
  cases hlonger
  exact hbegin.eq_of_length_le (Nat.le_trans (hall hfull) hcount)

/-- A strict parse is decided by the tokens that it has seen. A tree is returned
on all rows of tokens that begin with its leaves, and if all tokens are to be
used, then on the leaves alone. A symbol that is missing in front of a token,
or a start symbol that does not match a first token, is reported on all rows
that begin with the tokens up to that one. -/
theorem parse_strict_of_take_eq (g : Grammar) (maxDepth : Nat) (tokens : List String) :
    (∀ tree, (parse { maxDepth } g tokens).outcome = .ok tree →
      ∀ others : List String,
        others.take tree.leaves.length = tokens.take tree.leaves.length →
        tree.leaves.length ≤ others.length ∧
        (parse { maxDepth } g others).outcome = .ok tree ∧
        (others.length = tree.leaves.length →
          (parse { maxDepth, fullInput := true } g others).outcome = .ok tree) ∧
        ∀ hmore : tree.leaves.length < others.length,
          (parse { maxDepth, fullInput := true } g others).outcome =
            .error (.leftover others[tree.leaves.length] tree.leaves.length)) ∧
    (∀ tree, (parse { maxDepth, fullInput := true } g tokens).outcome = .ok tree →
      ∀ others longer, (parse { maxDepth, fullInput := true } g others).outcome = .ok longer →
        tokens <+: others → tokens = others) ∧
    (∀ surface found position,
      (parse { maxDepth } g tokens).outcome = .error (.mismatch surface found position) →
      position < tokens.length →
      ∀ others : List String, others.take (position + 1) = tokens.take (position + 1) →
        (parse { maxDepth } g others).outcome = .error (.mismatch surface found position)) ∧
    (∀ start, (parse { maxDepth } g tokens).outcome = .error (.noMatch start) → tokens ≠ [] →
      ∀ others : List String, others.take 1 = tokens.take 1 →
        (parse { maxDepth } g others).outcome = .error (.noMatch start)) := by
  refine ⟨?_, ?_, ?_, ?_⟩
  · intro tree htree others hagree
    have hcount := length_leaves_le_of_parse rfl htree
    have hname (fullInput : Bool) :
        (matchName { maxDepth, fullInput } g others (maxDepth + 1) g.start 0).outcome =
          .ok (some (tree, tree.leaves.length)) :=
      matchName_of_take_leaves rfl (Nat.le_refl maxDepth) htree hagree
    refine ⟨le_length_of_take_eq hcount hagree, ?_, ?_, ?_⟩
    · exact parse_eq_ok_iff.mpr ⟨_, hname false, nofun⟩
    · intro hall
      exact parse_eq_ok_iff.mpr ⟨_, hname true, fun _ ↦ Nat.le_of_eq hall⟩
    · intro hmore
      refine parse_eq_error_iff.mpr (.inr (.inr ⟨tree, _, _, hname true, rfl, ?_, rfl⟩))
      exact List.getElem?_eq_getElem hmore
  · intro tree htree others longer hlonger hbegin
    exact eq_of_prefix_of_parse rfl rfl htree hlonger hbegin
  · intro surface found position hparse hposition others hagree
    have hname := parse_eq_mismatch_iff.mp hparse
    rw [parse_eq_mismatch_iff, ← hname]
    apply matchName_of_take_eq rfl (Nat.le_refl _) hposition hagree
    rw [hname]
    exact Nat.lt_succ_self position
  · intro start hparse htokens others hagree
    obtain ⟨hname, rfl⟩ := parse_eq_noMatch_iff.mp hparse
    rw [parse_eq_noMatch_iff, ← hname]
    refine ⟨?_, rfl⟩
    apply matchName_of_take_eq rfl (Nat.le_refl _) (List.length_pos_iff.mpr htokens) hagree
    rw [hname]
    exact Nat.zero_lt_one

theorem parse_strict_of_take_eq_endings :
    ((parse { maxDepth := 9 } optionalEnding ["a", "!", "x"]).outcome =
        .ok (.node "S" [.leaf "a", .node "End" [.leaf "!"]]) ∧
      (parse { maxDepth := 9, fullInput := true } optionalEnding ["a", "!"]).outcome =
        .ok (.node "S" [.leaf "a", .node "End" [.leaf "!"]]) ∧
      (parse { maxDepth := 9, fullInput := true } optionalEnding ["a", "!", "a"]).outcome =
        .error (.leftover "a" 2)) ∧
    ["a", "!"] = ["a", "!"] ∧
    ((parse { maxDepth := 9 } optionalEnding ["a", "x"]).outcome =
        .error (.mismatch "End" (some "x") 1) ∧
      (parse { maxDepth := 9 } optionalEnding ["a", "x", "!"]).outcome =
        .error (.mismatch "End" (some "x") 1)) ∧
    (parse { maxDepth := 9 } optionalEnding ["b"]).outcome = .error (.noMatch "S") ∧
      (parse { maxDepth := 9 } optionalEnding ["b", "a"]).outcome = .error (.noMatch "S") := by
  have hfound : (parse { maxDepth := 9 } optionalEnding ["a", "!", "x"]).outcome =
      .ok (.node "S" [.leaf "a", .node "End" [.leaf "!"]]) := rfl
  have hall : (parse { maxDepth := 9, fullInput := true } optionalEnding ["a", "!"]).outcome =
      .ok (.node "S" [.leaf "a", .node "End" [.leaf "!"]]) := rfl
  have hmissing : (parse { maxDepth := 9 } optionalEnding ["a", "x"]).outcome =
      .error (.mismatch "End" (some "x") 1) := rfl
  have hnothing : (parse { maxDepth := 9 } optionalEnding ["b"]).outcome =
      .error (.noMatch "S") := rfl
  have hstrict := parse_strict_of_take_eq optionalEnding 9
  refine ⟨⟨hfound, ?_, ?_⟩, ?_, ⟨hmissing, ?_⟩, hnothing, ?_⟩
  · exact ((hstrict ["a", "!", "x"]).1 _ hfound ["a", "!"] rfl).2.2.1 rfl
  · exact ((hstrict ["a", "!", "x"]).1 _ hfound ["a", "!", "a"] rfl).2.2.2 (by decide)
  · exact (hstrict ["a", "!"]).2.1 _ hall ["a", "!"] _ hall (List.prefix_refl _)
  · exact (hstrict ["a", "x"]).2.2.1 _ _ _ hmissing (by decide) ["a", "x", "!"] rfl
  · exact (hstrict ["b"]).2.2.2 _ hnothing (by decide) ["b", "a"] rfl

end PhraseStructure.TopDown
