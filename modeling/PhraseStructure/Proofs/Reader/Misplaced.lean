import PhraseStructure.Grammar.RuleShape

/-!
# Which symbol of a line is cited

A row of symbols is viable if some rule begins with it. A line that is no rule
either stops being viable at some symbol, and then the first such symbol is
cited, or it is viable and ends too early. Then a separator at its end is cited,
since no alternative follows it, and the end of the line otherwise.

Only the first two places of a rule ask for one kind of symbol, so an error says
what was expected only if the place is one of them.
-/

namespace PhraseStructure

/-- Some rule begins with the row. -/
def Viable (symbols : List Symbol) : Prop :=
  ∃ line name groups, RuleShape line name groups ∧ symbols <+: line

/-- Some row of alternatives begins with the row. -/
def ViableSide (side : List Symbol) : Prop := ∃ line groups, Spells line groups ∧ side <+: line

/-- What must stand at a place, if that is only one kind of symbol. -/
def expectedAt : Nat → Option Kind
  | 0 => some .nonterminal
  | 1 => some .arrow
  | _ => none

/-- What is at fault if nothing follows a viable row. -/
def unfinished (symbols : List Symbol) : Symbol :=
  (symbols.getLast?.filter fun last ↦ last.kind = .separator).getD Symbol.endOfLine

/-- The place and the symbol at fault in a row that is no rule. -/
inductive Cites (symbols : List Symbol) : Nat → Symbol → Prop where
  | inside {place : Nat} {found : Symbol}
      (before : ∀ earlier < place, Viable (symbols.take (earlier + 1)))
      (stuck : ¬ Viable (symbols.take (place + 1))) (there : symbols[place]? = some found) :
      Cites symbols place found
  | atEnd (viable : Viable symbols) : Cites symbols symbols.length (unfinished symbols)

theorem Viable.of_front {symbols front : List Symbol} (h : Viable symbols)
    (hfront : front <+: symbols) : Viable front := by
  obtain ⟨line, name, groups, hshape, hsymbols⟩ := h
  exact ⟨line, name, groups, hshape, hfront.trans hsymbols⟩

theorem Cites.unique {symbols : List Symbol} {place place' : Nat} {found found' : Symbol}
    (h : Cites symbols place found) (h' : Cites symbols place' found') :
    place = place' ∧ found = found' := by
  cases h with
  | atEnd hviable =>
      cases h' with
      | atEnd => exact ⟨rfl, rfl⟩
      | inside _ hstuck => exact (hstuck (hviable.of_front (List.take_prefix _ _))).elim
  | inside hbefore hstuck hthere =>
      cases h' with
      | atEnd hviable => exact (hstuck (hviable.of_front (List.take_prefix _ _))).elim
      | inside hbefore' hstuck' hthere' =>
          obtain rfl : place = place' := by
            rcases Nat.lt_trichotomy place place' with hlt | hsame | hlt
            · exact (hstuck (hbefore' place hlt)).elim
            · exact hsame
            · exact (hstuck' (hbefore place' hlt)).elim
          exact ⟨rfl, Option.some.inj (hthere.symm.trans hthere')⟩

/-! ## Alternatives -/

theorem viableSide_of_parts {group : Alternative} (hparts : ∀ s ∈ group, s.isPart) :
    ViableSide group := by
  cases group with
  | nil =>
      have hterminal : ∀ s ∈ [Symbol.terminal ""], s.isPart := by simp [Symbol.isPart]
      exact ⟨_, _, .last (List.cons_ne_nil _ _) hterminal, List.nil_prefix⟩
  | cons s group => exact ⟨_, _, .last (List.cons_ne_nil s group) hparts, List.prefix_rfl⟩

/-- A separator can stand only behind a filled group. -/
theorem viableSide_separator_iff {group : Alternative} (hparts : ∀ s ∈ group, s.isPart)
    {separator : Symbol} (hkind : separator.kind = .separator) {rest : List Symbol} :
    ViableSide (group ++ separator :: rest) ↔ group ≠ [] ∧ ViableSide rest := by
  constructor
  · rintro ⟨_, groups, hspells, more, rfl⟩
    have hread := readAlternatives_of_spells hspells Symbol.endOfLine
    rw [List.append_assoc, readAlternatives_append _ hparts, List.cons_append, readAlternatives,
      hkind] at hread
    dsimp only at hread
    split at hread
    next => cases hread
    next hfilled =>
        obtain ⟨others, hothers, rfl⟩ := map_eq_ok_iff.mp hread
        have hrest := readAlternatives_eq_ok_iff.mp hothers
        exact ⟨by simpa using hfilled, _, others, hrest, more, rfl⟩
  · rintro ⟨hfilled, line, groups, hspells, more, rfl⟩
    exact ⟨_, _, .more hfilled hparts hkind hspells, more, by simp⟩

theorem not_viableSide_of_kind {group : Alternative} (hparts : ∀ s ∈ group, s.isPart)
    {symbol : Symbol} (hkind : symbol.kind = .arrow ∨ symbol.kind = .lineEnd) (rest : List Symbol) :
    ¬ ViableSide (group ++ symbol :: rest) := by
  rintro ⟨_, groups, hspells, more, rfl⟩
  have hread := readAlternatives_of_spells hspells Symbol.endOfLine
  rw [List.append_assoc, readAlternatives_append _ hparts, List.cons_append,
    readAlternatives] at hread
  rcases hkind with hkind | hkind <;>
    · rw [hkind] at hread
      cases hread

/-! ## What reading alternatives cites -/

/-- The symbol at fault among those that stand behind an open group. -/
inductive Misplaced (closing : Symbol) (group symbols : List Symbol) : Symbol → Prop where
  | inside (front : List Symbol) {found : Symbol} (back : List Symbol)
      (split : symbols = front ++ found :: back) (viable : ViableSide (group ++ front))
      (stuck : ¬ ViableSide (group ++ front ++ [found])) : Misplaced closing group symbols found
  | atEnd (viable : ViableSide (group ++ symbols))
      (kind : ∀ last ∈ symbols.getLast?, last.kind = .separator) :
      Misplaced closing group symbols (symbols.getLast?.getD closing)

variable {closing symbol found : Symbol} {group rest : List Symbol}

theorem Misplaced.here (hgroup : ViableSide group) (hstuck : ¬ ViableSide (group ++ [symbol])) :
    Misplaced closing group (symbol :: rest) symbol := by
  rw [← List.append_nil group] at hgroup hstuck
  exact .inside [] rest rfl hgroup hstuck

/-- A separator closes the group, and is at fault itself if nothing follows it. -/
theorem Misplaced.behind_separator (hfilled : group ≠ []) (hparts : ∀ s ∈ group, s.isPart)
    (hkind : symbol.kind = .separator) (h : Misplaced symbol [] rest found) :
    Misplaced closing group (symbol :: rest) found := by
  have hiff {row : List Symbol} : ViableSide (group ++ symbol :: row) ↔ ViableSide row := by
    rw [viableSide_separator_iff hparts hkind, and_iff_right hfilled]
  cases h with
  | inside front back hsplit hviable hstuck =>
      refine .inside (symbol :: front) back (by rw [hsplit, List.cons_append]) (hiff.mpr hviable) ?_
      rwa [List.append_assoc, List.cons_append, hiff]
  | atEnd hviable hlast =>
      have hkinds : ∀ last ∈ (symbol :: rest).getLast?, last.kind = .separator := by
        rw [List.getLast?_cons]
        cases hrest : rest.getLast? with
        | none => simpa using hkind
        | some last => simpa using hlast last hrest
      have hend : Misplaced closing group (symbol :: rest)
          ((symbol :: rest).getLast?.getD closing) := .atEnd (hiff.mpr hviable) hkinds
      rwa [List.getLast?_cons, Option.getD_some] at hend

/-- A part joins the group. It cannot be the last symbol of a row at fault. -/
theorem Misplaced.behind_part (hrest : rest ≠ [])
    (h : Misplaced closing (group ++ [symbol]) rest found) :
    Misplaced closing group (symbol :: rest) found := by
  cases h with
  | inside front back hsplit hviable hstuck =>
      rw [List.append_assoc group, List.singleton_append] at hviable hstuck
      exact .inside (symbol :: front) back (by rw [hsplit, List.cons_append]) hviable hstuck
  | atEnd hviable hlast =>
      obtain ⟨next, others, rfl⟩ := List.exists_cons_of_ne_nil hrest
      rw [List.append_assoc, List.singleton_append] at hviable
      rw [← List.getLast?_cons_cons] at hlast ⊢
      exact .atEnd hviable hlast

theorem misplaced_of_readAlternatives {symbols : List Symbol} {fault : GrammarFault}
    (hparts : ∀ s ∈ group, s.isPart) (h : readAlternatives closing group symbols = .error fault) :
    ∃ found, fault = .unexpected found ∧ Misplaced closing group.reverse symbols found := by
  induction symbols generalizing closing group with
  | nil =>
      rw [readAlternatives] at h
      split at h
      next hempty =>
          cases h
          rw [List.isEmpty_iff.mp hempty]
          have hviable : ViableSide ([].reverse ++ []) :=
            viableSide_of_parts (List.forall_mem_nil _)
          exact ⟨closing, rfl, .atEnd hviable (by simp)⟩
      next => cases h
  | cons symbol rest ih =>
      have hreversed : ∀ s ∈ group.reverse, s.isPart :=
        fun s hmem ↦ hparts s (List.mem_reverse.mp hmem)
      have hgroup := viableSide_of_parts hreversed
      -- a row that ends with a part is no fault
      have hpart : symbol.isPart → readAlternatives closing (symbol :: group) rest = .error fault →
          ∃ found, fault = .unexpected found ∧
            Misplaced closing group.reverse (symbol :: rest) found := by
        intro hsymbol hrest
        have hfilled : rest ≠ [] := by
          rintro rfl
          cases hrest
        obtain ⟨found, hfault, hmisplaced⟩ := ih (List.forall_mem_cons.mpr ⟨hsymbol, hparts⟩) hrest
        rw [List.reverse_cons] at hmisplaced
        exact ⟨found, hfault, hmisplaced.behind_part hfilled⟩
      rw [readAlternatives] at h
      split at h
      next hkind =>
          split at h
          next hempty =>
              cases h
              refine ⟨symbol, rfl, .here hgroup ?_⟩
              rw [viableSide_separator_iff hreversed hkind, List.isEmpty_iff.mp hempty]
              exact fun hfilled ↦ hfilled.1 rfl
          next hfilled =>
              obtain ⟨found, hfault, hmisplaced⟩ :=
                ih (List.forall_mem_nil _) (map_eq_error_iff.mp h)
              have hreverse : group.reverse ≠ [] := by simpa using hfilled
              exact ⟨found, hfault, hmisplaced.behind_separator hreverse hreversed hkind⟩
      next hkind => exact hpart (.inl hkind) h
      next hkind => exact hpart (.inr hkind) h
      next hkind =>
          cases h
          exact ⟨symbol, rfl, .here hgroup (not_viableSide_of_kind hreversed (.inl hkind) [])⟩
      next hkind =>
          cases h
          exact ⟨symbol, rfl, .here hgroup (not_viableSide_of_kind hreversed (.inr hkind) [])⟩

/-! ## Whole lines -/

variable {name : String} {first arrow : Symbol} {side symbols : List Symbol}

theorem viable_iff_viableSide (hkind : arrow.kind = .arrow) :
    Viable (.nonterminal name :: arrow :: side) ↔ ViableSide side := by
  constructor
  · rintro ⟨_, _, groups, ⟨_, line, -, rfl, hspells⟩, hprefix⟩
    obtain ⟨-, hprefix⟩ := List.cons_prefix_cons.mp hprefix
    exact ⟨line, groups, hspells, (List.cons_prefix_cons.mp hprefix).2⟩
  · rintro ⟨line, groups, hspells, hprefix⟩
    have hline : .nonterminal name :: arrow :: side <+: .nonterminal name :: arrow :: line :=
      List.cons_prefix_cons.mpr ⟨rfl, List.cons_prefix_cons.mpr ⟨rfl, hprefix⟩⟩
    exact ⟨_, name, groups, ⟨arrow, line, hkind, rfl, hspells⟩, hline⟩

theorem viable_nonterminal (name : String) : Viable [.nonterminal name] := by
  have hside : ViableSide [] := viableSide_of_parts (List.forall_mem_nil _)
  have hline : Viable [.nonterminal name, ⟨.arrow, ""⟩] := (viable_iff_viableSide rfl).mpr hside
  exact hline.of_front (List.prefix_append [_] [_])

theorem Viable.kind_first (h : Viable (first :: side)) : first.kind = .nonterminal := by
  obtain ⟨_, _, _, ⟨_, _, -, rfl, -⟩, hprefix⟩ := h
  rw [(List.cons_prefix_cons.mp hprefix).1, Symbol.nonterminal]

theorem Viable.kind_second (h : Viable (first :: arrow :: side)) : arrow.kind = .arrow := by
  obtain ⟨_, _, _, ⟨_, _, hkind, rfl, -⟩, hprefix⟩ := h
  obtain ⟨-, hprefix⟩ := List.cons_prefix_cons.mp hprefix
  rwa [(List.cons_prefix_cons.mp hprefix).1]

/-- What is at fault in the alternatives is at fault in the line, two places
further on. -/
theorem Misplaced.cites (hkind : arrow.kind = .arrow)
    (h : Misplaced Symbol.endOfLine [] side found) :
    ∃ place, Cites (.nonterminal name :: arrow :: side) (place + 2) found := by
  cases h with
  | inside front back hsplit hviable hstuck =>
      have hbefore : Viable (.nonterminal name :: arrow :: front) :=
        (viable_iff_viableSide hkind).mpr hviable
      refine ⟨front.length, .inside (fun earlier hlt ↦ hbefore.of_front ?_) ?_ ?_⟩
      · have hfront : (.nonterminal name :: arrow :: side).take (front.length + 2) =
            .nonterminal name :: arrow :: front := by simp [hsplit]
        rw [← hfront]
        exact List.take_prefix_take_left hlt
      · have hfound : (.nonterminal name :: arrow :: side).take (front.length + 2 + 1) =
            .nonterminal name :: arrow :: (front ++ [found]) := by
          simp [hsplit, List.take_append, List.take_of_length_le]
        rwa [hfound, viable_iff_viableSide hkind]
      · simp [hsplit]
  | atEnd hviable hlast =>
      have hend : unfinished (.nonterminal name :: arrow :: side) =
          side.getLast?.getD Symbol.endOfLine := by
        rw [unfinished, List.getLast?_cons_cons, List.getLast?_cons]
        cases hside : side.getLast? with
        | none => simp [hkind, Option.filter]
        | some last => simp [hlast last hside, Option.filter]
      rw [← hend]
      exact ⟨side.length, .atEnd ((viable_iff_viableSide hkind).mpr hviable)⟩

theorem cites_of_readRuleLine {fault : GrammarFault} (h : readRuleLine symbols = .error fault) :
    ∃ place found, Cites symbols place found ∧ fault = .malformed (expectedAt place) found := by
  unfold readRuleLine at h
  split at h
  next name surface side =>
      obtain ⟨found, rfl, hmisplaced⟩ :=
        misplaced_of_readAlternatives (List.forall_mem_nil _) (map_eq_error_iff.mp h)
      obtain ⟨place, hcites⟩ : ∃ place,
          Cites (⟨.nonterminal, name⟩ :: ⟨.arrow, surface⟩ :: side) (place + 2) found :=
        hmisplaced.cites rfl
      exact ⟨place + 2, found, hcites, rfl⟩
  next name rest hsecond =>
      cases h
      cases rest with
      | nil => exact ⟨1, _, .atEnd (viable_nonterminal name), rfl⟩
      | cons second rest =>
          refine ⟨1, second, .inside (fun earlier hlt ↦ ?_) (fun hviable ↦ ?_) rfl, rfl⟩
          · rw [Nat.lt_one_iff.mp hlt]
            exact viable_nonterminal name
          · obtain ⟨kind, surface⟩ := second
            obtain rfl : kind = .arrow := hviable.kind_second
            exact hsecond surface rest rfl
  next hline hfirst =>
      cases h
      cases symbols with
      | nil => exact ⟨0, _, .atEnd ((viable_nonterminal "").of_front List.nil_prefix), rfl⟩
      | cons first rest =>
          refine ⟨0, first, .inside (fun earlier hlt ↦ (Nat.not_lt_zero _ hlt).elim)
            (fun hviable ↦ ?_) rfl, rfl⟩
          obtain ⟨kind, surface⟩ := first
          obtain rfl : kind = .nonterminal := hviable.kind_first
          exact hfirst surface rest rfl

/-- A line is read as the rule that it is. If it is none, the error cites the
symbol and the place at fault. -/
theorem readRuleLine_decides (symbols : List Symbol) :
    (∀ name groups, readRuleLine symbols = .ok (name, groups) ↔ RuleShape symbols name groups) ∧
      ∀ fault, readRuleLine symbols = .error fault ↔
        (∀ name groups, ¬ RuleShape symbols name groups) ∧
          ∃ place found, Cites symbols place found ∧
            fault = .malformed (expectedAt place) found := by
  refine ⟨fun name groups ↦ readRuleLine_eq_ok_iff, fun fault ↦ ⟨fun h ↦ ?_, ?_⟩⟩
  · refine ⟨fun name groups hshape ↦ ?_, cites_of_readRuleLine h⟩
    rw [readRuleLine_eq_ok_iff.mpr hshape] at h
    cases h
  · rintro ⟨hnone, place, found, hcites, rfl⟩
    cases hread : readRuleLine symbols with
    | ok rule => exact (hnone rule.1 rule.2 (readRuleLine_eq_ok_iff.mp hread)).elim
    | error fault =>
        obtain ⟨place', found', hcites', rfl⟩ := cites_of_readRuleLine hread
        obtain ⟨rfl, rfl⟩ := hcites.unique hcites'
        rfl

/-- Where a separator begins an alternative it is cited, not the symbol behind it. -/
example :
    let line : List Symbol := [.nonterminal "A", ⟨.arrow, "->"⟩, .terminal "x", ⟨.separator, "|"⟩]
    readRuleLine (line ++ [⟨.separator, "|"⟩, ⟨.arrow, "->"⟩]) =
        .error (.unexpected ⟨.separator, "|"⟩) ∧
      readRuleLine (line ++ [⟨.arrow, "->"⟩]) = .error (.unexpected ⟨.arrow, "->"⟩) ∧
      readRuleLine line = .error (.unexpected ⟨.separator, "|"⟩) := ⟨rfl, rfl, rfl⟩

end PhraseStructure
