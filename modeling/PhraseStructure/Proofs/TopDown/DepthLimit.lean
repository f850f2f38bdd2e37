import Mathlib.Data.Finset.Prod
import PhraseStructure.Proofs.CornerRank
import PhraseStructure.Proofs.CornerTable
import PhraseStructure.Proofs.TopDown.Locality

/-!
# The limit of nesting

A name at a position is too deep if the levels that are left do not suffice for
it. With more levels everything that was decided stays as it was, so the places
that are too deep become fewer. There are no more places than names of rules
times positions, so within that many levels no further place is lost, and then
none is lost ever again: what is still too deep has no end.

A strict match reads a word before it goes on behind one. If no name comes back
to itself through first symbols, then each level uses up a rank or a token, and
nothing is too deep for as many levels as there are rules for each token and
once more.
-/

namespace PhraseStructure.TopDown

variable {s s' : Settings} {g : Grammar} {tokens : List String}

/-! ## More levels -/

theorem lookahead_congr_of_mode (hmode : s'.emptyAtEnd = s.emptyAtEnd) (pos : Nat) :
    lookahead s' tokens pos = lookahead s tokens pos := by
  rw [lookahead, lookahead, hmode]

theorem Reads.of_mode (hmode : s'.emptyAtEnd = s.emptyAtEnd) {pos stop : Nat}
    {words : List String} (h : Reads s tokens pos words stop) : Reads s' tokens pos words stop :=
  h.mono fun pos _ hword ↦ (lookahead_congr_of_mode hmode pos).trans hword

/-- More levels change nothing but the limit itself. -/
theorem matchName_eq_of_le (hmode : s'.emptyAtEnd = s.emptyAtEnd) {levels levels' : Nat}
    (hle : levels ≤ levels') {name : String} {pos : Nat}
    (hshallow : ∀ limit,
      (matchName s g tokens levels name pos).outcome ≠ .error (.tooDeep limit)) :
    (matchName s' g tokens levels' name pos).outcome =
      (matchName s g tokens levels name pos).outcome := by
  have hrepeats : Repeats s tokens (matchName s g tokens levels) s' tokens
      (matchName s' g tokens levels') := repeats_matchName hle
  rcases houtcome : (matchName s g tokens levels name pos).outcome with fault | _ | ⟨tree, stop⟩
  · have hfault : ∀ limit, fault ≠ .tooDeep limit := by
      rintro limit rfl
      exact hshallow limit houtcome
    obtain ⟨words, stop, hfails⟩ := exists_failsAfter houtcome hfault
    have hreads := hfails.reads.of_mode hmode
    have hagain := hfails.again hle hreads (lookahead_congr_of_mode hmode stop)
    rwa [hfails.faultAt_eq] at hagain
  · exact hrepeats.passed (lookahead_congr_of_mode hmode pos) houtcome
  · have hreads := (sound_matchName _ _ _ _ _ houtcome).words
    exact hrepeats.found (hreads.of_mode hmode) houtcome

/-- A name at a position for which the levels do not suffice. -/
def TooDeep (s : Settings) (g : Grammar) (tokens : List String) (levels : Nat)
    (place : String × Nat) : Prop :=
  (matchName s g tokens levels place.1 place.2).outcome = .error (.tooDeep s.maxDepth)

theorem TooDeep.of_le (hmode : s'.emptyAtEnd = s.emptyAtEnd) {levels levels' : Nat}
    (hle : levels ≤ levels') {place : String × Nat} (h : TooDeep s' g tokens levels' place) :
    TooDeep s g tokens levels place := by
  by_contra hshallow
  have hsame : (matchName s' g tokens levels' place.1 place.2).outcome =
      (matchName s g tokens levels place.1 place.2).outcome := by
    apply matchName_eq_of_le hmode hle
    intro limit hdeep
    rw [eq_maxDepth_of_tooDeep hdeep] at hdeep
    exact hshallow hdeep
  have hdeep := hsame.symm.trans h
  rw [eq_maxDepth_of_tooDeep hdeep] at hdeep
  exact hshallow hdeep

/-! ## Places -/

/-- Matching a name at a position comes to another name at another position. -/
def Calls (s : Settings) (g : Grammar) (tokens : List String) (levels : Nat)
    (place next : String × Nat) : Prop :=
  ∃ rule front trees, g.rule? place.1 = some rule ∧
    ComesTo s tokens (matchName s g tokens levels) place.1 rule.alternatives place.2 front
      (.nonterminal next.1) trees next.2

variable {levels : Nat} {place next : String × Nat}

theorem Calls.defines (h : Calls s g tokens levels place next) : g.defines place.1 = true := by
  obtain ⟨rule, _, _, hrule, -⟩ := h
  exact Option.isSome_iff_exists.mpr ⟨rule, hrule⟩

theorem Calls.le_length (h : Calls s g tokens levels place next) (hpos : place.2 ≤ tokens.length) :
    place.2 ≤ next.2 ∧ next.2 ≤ tokens.length := by
  obtain ⟨rule, front, trees, -, hcomes⟩ := h
  obtain ⟨hle, hend, -⟩ := hcomes.accounts.words.eq_stretch hpos
  exact ⟨hle, hend⟩

theorem Calls.mono {more : Nat} (hle : levels ≤ more) (h : Calls s g tokens levels place next) :
    Calls s g tokens more place next := by
  obtain ⟨rule, front, trees, hrule, hcomes⟩ := h
  have hagain := (repeats_matchName hle).comesTo rfl hcomes.accounts.words hcomes
  exact ⟨rule, front, trees, hrule, hagain⟩

/-- A place is too deep because of one that it calls. -/
theorem tooDeep_succ_iff :
    TooDeep s g tokens (levels + 1) place ↔
      ∃ next, Calls s g tokens levels place next ∧ TooDeep s g tokens levels next := by
  constructor
  · intro h
    rcases matchName_eq_error_iff.mp h with ⟨hlevels, -⟩ | ⟨_, hlevels, hrest⟩
    · cases hlevels
    cases hlevels
    rcases hrest with ⟨-, hfault⟩ | ⟨rule, hrule, hfailed⟩
    · cases hfault
    obtain ⟨front, symbol, trees, pos, hcomes, hrefuses⟩ :=
      matchAlternatives_eq_error_iff.mp hfailed
    cases hrefuses with
    | below hpart =>
        obtain ⟨hkind, hdeep⟩ := matchPart_eq_error_iff.mp hpart
        rw [Symbol.eq_nonterminal hkind] at hcomes
        exact ⟨(symbol.surface, pos), ⟨rule, front, trees, hrule, hcomes⟩, hdeep⟩
  · rintro ⟨next, ⟨rule, front, trees, hrule, hcomes⟩, hdeep⟩
    refine matchName_eq_error_iff.mpr (.inr ⟨levels, rfl, .inr ⟨rule, hrule, ?_⟩⟩)
    exact matchAlternatives_eq_error_iff.mpr
      ⟨_, _, _, _, hcomes, .below (matchPart_eq_error_iff.mpr ⟨rfl, hdeep⟩)⟩

open Classical in
/-- The names of rules, each at the positions where it is too deep. -/
noncomputable def deepPlaces (s : Settings) (g : Grammar) (tokens : List String) (levels : Nat) :
    Finset (String × Nat) :=
  {place ∈ g.names.toFinset ×ˢ Finset.range (tokens.length + 1) | TooDeep s g tokens levels place}

theorem mem_deepPlaces :
    place ∈ deepPlaces s g tokens levels ↔
      g.defines place.1 = true ∧ place.2 ≤ tokens.length ∧ TooDeep s g tokens levels place := by
  classical
  rw [deepPlaces, Finset.mem_filter, Finset.mem_product, List.mem_toFinset, Grammar.mem_names_iff,
    Finset.mem_range, Nat.lt_succ_iff, and_assoc]

theorem card_deepPlaces_le :
    (deepPlaces s g tokens levels).card ≤ (tokens.length + 1) * g.rules.length := by
  classical
  calc
    (deepPlaces s g tokens levels).card ≤
        (g.names.toFinset ×ˢ Finset.range (tokens.length + 1)).card := Finset.card_filter_le _ _
    _ = g.names.toFinset.card * (tokens.length + 1) := by
      rw [Finset.card_product, Finset.card_range]
    _ ≤ g.names.length * (tokens.length + 1) := Nat.mul_le_mul_right _ (List.toFinset_card_le _)
    _ = (tokens.length + 1) * g.rules.length := by
      rw [Grammar.names, List.length_map, Nat.mul_comm]

theorem mem_deepPlaces_succ (h : TooDeep s g tokens (levels + 1) place)
    (hpos : place.2 ≤ tokens.length) : place ∈ deepPlaces s g tokens (levels + 1) := by
  obtain ⟨next, hcalls, -⟩ := tooDeep_succ_iff.mp h
  exact mem_deepPlaces.mpr ⟨hcalls.defines, hpos, h⟩

theorem deepPlaces_subset {more : Nat} (hle : levels ≤ more) :
    deepPlaces s g tokens more ⊆ deepPlaces s g tokens levels := by
  intro place hmem
  obtain ⟨hdefined, hpos, hdeep⟩ := mem_deepPlaces.mp hmem
  exact mem_deepPlaces.mpr ⟨hdefined, hpos, hdeep.of_le rfl hle⟩

/-- If one level more loses no place, then neither does the next one. -/
theorem deepPlaces_succ_eq
    (h : deepPlaces s g tokens (levels + 2) = deepPlaces s g tokens (levels + 1)) :
    deepPlaces s g tokens (levels + 3) = deepPlaces s g tokens (levels + 2) := by
  apply Finset.Subset.antisymm (deepPlaces_subset (Nat.le_succ _))
  intro place hmem
  obtain ⟨hdefined, hpos, hdeep⟩ := mem_deepPlaces.mp hmem
  obtain ⟨next, hcalls, hnext⟩ := tooDeep_succ_iff.mp hdeep
  have hplace : next ∈ deepPlaces s g tokens (levels + 2) := by
    rw [h]
    exact mem_deepPlaces_succ hnext (hcalls.le_length hpos).2
  have hdeeper := (mem_deepPlaces.mp hplace).2.2
  refine mem_deepPlaces.mpr ⟨hdefined, hpos, ?_⟩
  exact tooDeep_succ_iff.mpr ⟨next, hcalls.mono (Nat.le_succ _), hdeeper⟩

/-- Finite sets that become smaller at every step are empty after as many
steps as the first one has members. -/
theorem exists_eq_succ_of_nonempty {α : Type} (sets : Nat → Finset α) {size : Nat}
    (hfalls : ∀ i, sets (i + 1) ⊆ sets i) (hsize : (sets 0).card ≤ size)
    (hleft : (sets size).Nonempty) : ∃ i < size, sets (i + 1) = sets i := by
  by_contra hnone
  have hstrict : ∀ i < size, sets (i + 1) ≠ sets i := fun i hi heq ↦ hnone ⟨i, hi, heq⟩
  have hcard : ∀ i ≤ size, (sets i).card + i ≤ size := by
    intro i hi
    induction i with
    | zero => exact hsize
    | succ i ih =>
        have hlt := Finset.card_lt_card ((hfalls i).ssubset_of_ne (hstrict i hi))
        have hbefore := ih (Nat.le_of_succ_le hi)
        omega
  have hlast := hcard size (Nat.le_refl _)
  have hpos := Finset.card_pos.mpr hleft
  omega

/-- What is too deep for more levels than there are places is so for ever. -/
theorem TooDeep.forever (h : TooDeep s g tokens levels place) (hpos : place.2 ≤ tokens.length)
    (hmany : (tokens.length + 1) * g.rules.length < levels) (more : Nat) :
    TooDeep s g tokens more place := by
  have hmem := mem_deepPlaces_succ (h.of_le rfl hmany) hpos
  obtain ⟨i, hi, hstill⟩ := exists_eq_succ_of_nonempty
    (fun levels ↦ deepPlaces s g tokens (levels + 1)) (fun i ↦ deepPlaces_subset (Nat.le_succ _))
    card_deepPlaces_le ⟨place, hmem⟩
  have hstays : ∀ steps, deepPlaces s g tokens (i + steps + 1) = deepPlaces s g tokens (i + 1) ∧
      deepPlaces s g tokens (i + steps + 2) = deepPlaces s g tokens (i + steps + 1) := by
    intro steps
    induction steps with
    | zero => exact ⟨rfl, hstill⟩
    | succ steps ih => exact ⟨ih.2.trans ih.1, deepPlaces_succ_eq ih.2⟩
  have hkept : place ∈ deepPlaces s g tokens (i + more + 1) := by
    rw [(hstays more).1]
    exact deepPlaces_subset (Nat.succ_le_succ (Nat.le_of_lt hi)) hmem
  exact (mem_deepPlaces.mp hkept).2.2.of_le rfl (by omega)

/-! ## Grammars that do not come back -/

/-- A call goes to a name of lower rank, or some tokens further on. -/
theorem Calls.rank_lt (hstrict : s.emptyAtEnd = false)
    (hacyclic : ∀ name, ¬ Relation.TransGen g.BeginsWith name name)
    (h : Calls s g tokens levels place next) :
    (place.2 = next.2 ∧ g.cornerRank next.1 < g.cornerRank place.1) ∨ place.2 < next.2 := by
  obtain ⟨rule, front, trees, hrule, hcomes⟩ := h
  obtain ⟨hmem, hname⟩ := Grammar.rule?_eq_some_iff.mp hrule
  obtain ⟨before, rest, behind, hsplit, -⟩ := hcomes.passed
  cases front with
  | nil =>
      have hbegins : g.BeginsWith place.1 next.1 := ⟨rule, hmem, hname, rest, by simp [hsplit]⟩
      obtain ⟨-, hpos⟩ := Prod.ext_iff.mp (Except.ok.inj hcomes.matched)
      exact .inl ⟨hpos, Grammar.cornerRank_lt hbegins (hacyclic _)⟩
  | cons first front =>
      obtain ⟨tree, middle, others, hfirst, -, rfl⟩ := matchRest_cons_eq_ok_iff.mp hcomes.matched
      have hleaves := ((sound_matchName levels).matchPart hfirst).derives.leaves_ne_nil
      have hreads := hcomes.accounts.words
      rw [Tree.leavesOf] at hreads
      exact .inr (hreads.lt_of_strict hstrict (List.append_ne_nil_of_left_ne_nil hleaves _))

/-- Each level that does not suffice uses up a token or a rank. -/
theorem TooDeep.le_rank (hstrict : s.emptyAtEnd = false)
    (hacyclic : ∀ name, ¬ Relation.TransGen g.BeginsWith name name)
    (h : TooDeep s g tokens levels place) (hpos : place.2 ≤ tokens.length) :
    levels ≤ (tokens.length - place.2) * g.rules.length + g.cornerRank place.1 := by
  induction levels generalizing place with
  | zero => exact Nat.zero_le _
  | succ levels ih =>
      obtain ⟨next, hcalls, hnext⟩ := tooDeep_succ_iff.mp h
      have hend := (hcalls.le_length hpos).2
      have hbelow := ih hnext hend
      rcases hcalls.rank_lt hstrict hacyclic with ⟨hsame, hrank⟩ | hlt
      · rw [← hsame] at hbelow
        omega
      · have hdefined := Grammar.cornerRank_pos hcalls.defines
        have hrank := g.cornerRank_le next.1
        have hspan : (tokens.length - next.2 + 1) * g.rules.length ≤
            (tokens.length - place.2) * g.rules.length := Nat.mul_le_mul_right _ (by omega)
        rw [Nat.add_mul, Nat.one_mul] at hspan
        omega

/-! ## Parses -/

theorem parse_eq_tooDeep_iff {limit : Nat} :
    (parse s g tokens).outcome = .error (.tooDeep limit) ↔
      limit = s.maxDepth ∧ TooDeep s g tokens (s.maxDepth + 1) (g.start, 0) := by
  constructor
  · intro h
    rcases parse_eq_error_iff.mp h with hname | ⟨-, hfault⟩ | ⟨_, _, _, -, -, -, hfault⟩
    · obtain rfl := eq_maxDepth_of_tooDeep hname
      exact ⟨rfl, hname⟩
    · cases hfault
    · cases hfault
  · rintro ⟨rfl, hdeep⟩
    exact parse_eq_error_iff.mpr (.inl hdeep)

/-- The limit of nesting is met only by a parse that has no end. A parse that
does not meet it comes out the same under every higher limit. A parse that
meets one as high as there are rules for each token and once more meets every
other, and a strict parse does not meet such a limit if no name comes back to
itself through first symbols. -/
theorem maxDepth_exact (g : Grammar) (tokens : List String) (emptyAtEnd fullInput : Bool) :
    (∀ depth, (∀ limit,
        (parse { emptyAtEnd, maxDepth := depth, fullInput } g tokens).outcome ≠
          .error (.tooDeep limit)) →
      ∀ more, depth ≤ more →
        (parse { emptyAtEnd, maxDepth := more, fullInput } g tokens).outcome =
          (parse { emptyAtEnd, maxDepth := depth, fullInput } g tokens).outcome) ∧
    (∀ depth limit, (tokens.length + 1) * g.rules.length ≤ depth →
      (parse { emptyAtEnd, maxDepth := depth, fullInput } g tokens).outcome =
        .error (.tooDeep limit) →
      ∀ other, (parse { emptyAtEnd, maxDepth := other, fullInput } g tokens).outcome =
        .error (.tooDeep other)) ∧
    (emptyAtEnd = false → (∀ name, ¬ Relation.TransGen g.BeginsWith name name) →
      ∀ depth, (tokens.length + 1) * g.rules.length ≤ depth →
        ∀ limit, (parse { emptyAtEnd, maxDepth := depth, fullInput } g tokens).outcome ≠
          .error (.tooDeep limit)) := by
  refine ⟨?_, ?_, ?_⟩
  · intro depth hshallow more hle
    refine outcome_parse_congr ?_ (matchName_eq_of_le ?_ (Nat.succ_le_succ hle) ?_)
    · rfl
    · rfl
    · intro limit hdeep
      exact hshallow limit (parse_eq_error_iff.mpr (.inl hdeep))
  · intro depth limit hmany hparse other
    have hdeep := (parse_eq_tooDeep_iff.mp hparse).2
    have hforever := hdeep.forever (Nat.zero_le _) (Nat.lt_succ_of_le hmany) (other + 1)
    refine parse_eq_tooDeep_iff.mpr ⟨rfl, hforever.of_le ?_ (Nat.le_refl _)⟩
    rfl
  · intro hstrict hacyclic depth hmany limit hparse
    have hdeep := (parse_eq_tooDeep_iff.mp hparse).2
    have hlevels := hdeep.le_rank hstrict hacyclic (Nat.zero_le _)
    have hrank := g.cornerRank_le g.start
    rw [Nat.add_mul] at hmany
    simp only [Nat.sub_zero] at hlevels
    omega

/-- A name that begins with itself. -/
def leftRecursive : Grammar :=
  .ofRules [⟨"S", [[.nonterminal "S", .terminal "x"], [.terminal "x"]], 0⟩]

/-- One of the names has no rule. -/
def partlyDefined : Grammar :=
  .ofRules [⟨"S", [[.nonterminal "A", .terminal "x"]], 0⟩,
    ⟨"A", [[.terminal "a"], [.nonterminal "B"]], 1⟩]

theorem maxDepth_exact_recursive :
    ((∀ limit, (parse { maxDepth := 1 } partlyDefined ["a", "x"]).outcome ≠
        .error (.tooDeep limit)) ∧
      (parse { maxDepth := 512 } partlyDefined ["a", "x"]).outcome =
        .ok (.node "S" [.node "A" [.leaf "a"], .leaf "x"])) ∧
    ((["x", "x"].length + 1) * leftRecursive.rules.length ≤ 3 ∧
      (parse { maxDepth := 3 } leftRecursive ["x", "x"]).outcome = .error (.tooDeep 3) ∧
      (parse { maxDepth := 512 } leftRecursive ["x", "x"]).outcome = .error (.tooDeep 512)) ∧
    (∀ name, ¬ Relation.TransGen partlyDefined.BeginsWith name name) ∧
      (["b"].length + 1) * partlyDefined.rules.length ≤ 4 ∧
      ∀ limit, (parse { maxDepth := 4 } partlyDefined ["b"]).outcome ≠ .error (.tooDeep limit) := by
  have hshallow : ∀ limit, (parse { maxDepth := 1 } partlyDefined ["a", "x"]).outcome ≠
      .error (.tooDeep limit) := fun limit ↦ nofun
  have hmany : (["x", "x"].length + 1) * leftRecursive.rules.length ≤ 3 := by decide
  have hdeep : (parse { maxDepth := 3 } leftRecursive ["x", "x"]).outcome =
      .error (.tooDeep 3) := rfl
  have hacyclic : ∀ name, ¬ Relation.TransGen partlyDefined.BeginsWith name name :=
    @Grammar.not_transGen_beginsWith partlyDefined
      (fun name ↦ if name = "S" then 2 else if name = "A" then 1 else 0) (by decide)
  have henough : (["b"].length + 1) * partlyDefined.rules.length ≤ 4 := by decide
  refine ⟨⟨hshallow, ?_⟩, ⟨hmany, hdeep, ?_⟩, hacyclic, henough, ?_⟩
  · have hsame := (maxDepth_exact partlyDefined ["a", "x"] false false).1 1 hshallow 512 (by decide)
    exact hsame.trans rfl
  · exact (maxDepth_exact leftRecursive ["x", "x"] false false).2.1 3 3 hmany hdeep 512
  · exact (maxDepth_exact partlyDefined ["b"] false false).2.2 rfl hacyclic 4 henough

end PhraseStructure.TopDown
