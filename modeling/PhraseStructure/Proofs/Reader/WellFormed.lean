import PhraseStructure.Proofs.Reader.RuleLines

/-!
# What a grammar from a text looks like

A name is a chunk that is read as a nonterminal. In a grammar that was read,
rules have names that do not look like comments, every alternative has a
symbol, and the symbols are names or terminals without blanks.
-/

namespace PhraseStructure

structure IsName (text : String) : Prop where
  chunk : Text.IsChunk text
  kind : (Symbol.ofChunk text).kind = .nonterminal

/-- The symbols of alternatives that can stand in a text. -/
inductive Symbol.Writable : Symbol → Prop where
  | terminal {surface : String} (solid : ∀ c ∈ surface.toList, Text.isBlank c = false) :
      Writable (.terminal surface)
  | nonterminal {surface : String} (name : IsName surface) : Writable (.nonterminal surface)

structure Rule.WellFormed (rule : Rule) : Prop where
  name : IsName rule.name
  noComment : rule.name.toList.head? ≠ some ';'
  offered : rule.alternatives ≠ []
  filled : ∀ alternative ∈ rule.alternatives, alternative ≠ []
  writable : ∀ alternative ∈ rule.alternatives, ∀ symbol ∈ alternative, symbol.Writable

def Grammar.WellFormed (g : Grammar) : Prop := ∀ rule ∈ g.rules, rule.WellFormed

namespace Symbol

theorem ofChunk_eq_nonterminal {raw : String} (h : (ofChunk raw).kind = .nonterminal) :
    ofChunk raw = nonterminal raw := by
  unfold ofChunk at h ⊢
  split
  next harrow => simp [harrow] at h
  next harrow =>
      split
      next hseparator => simp [hseparator] at h
      next hseparator =>
          rw [if_neg harrow, if_neg hseparator] at h
          split at h
          next rest hquote =>
              split at h
              next => cases h
              next hclosed => rw [if_neg hclosed]
          next => rfl

theorem mem_of_ofChunk_eq_terminal {raw surface : String} (h : ofChunk raw = terminal surface) :
    ∀ c ∈ surface.toList, c ∈ raw.toList := by
  unfold ofChunk at h
  split at h
  next => cases h
  next =>
      split at h
      next => cases h
      next =>
          split at h
          next rest hquote =>
              split at h
              next =>
                  cases h
                  intro c hmem
                  rw [String.toList_ofList] at hmem
                  rw [hquote]
                  exact List.mem_cons_of_mem _ (List.dropLast_subset rest hmem)
              next => cases h
          next => cases h

theorem writable_ofChunk {raw : String} (hchunk : Text.IsChunk raw)
    (hpart : (ofChunk raw).isPart) : (ofChunk raw).Writable := by
  rcases hpart with hkind | hkind
  · have hterminal : ofChunk raw = ⟨.terminal, (ofChunk raw).surface⟩ := by rw [← hkind]
    rw [hterminal]
    exact .terminal fun c hmem ↦ hchunk.solid c (mem_of_ofChunk_eq_terminal hterminal c hmem)
  · rw [ofChunk_eq_nonterminal hkind]
    exact .nonterminal ⟨hchunk, hkind⟩

end Symbol

theorem Spells.groups_ne_nil {symbols : List Symbol} {groups : List Alternative}
    (h : Spells symbols groups) : groups ≠ [] := by
  cases h <;> exact List.cons_ne_nil _ _

theorem Spells.of_mem {symbols : List Symbol} {groups : List Alternative}
    (h : Spells symbols groups) :
    ∀ group ∈ groups, group ≠ [] ∧ ∀ s ∈ group, s.isPart ∧ s ∈ symbols := by
  induction h with
  | last filled parts =>
      intro group hmem
      rw [List.mem_singleton] at hmem
      subst hmem
      exact ⟨filled, fun s hs ↦ ⟨parts s hs, hs⟩⟩
  | more filled parts kind _ ih =>
      intro group hmem
      rcases List.mem_cons.mp hmem with rfl | hmem
      · exact ⟨filled, fun s hs ↦ ⟨parts s hs, List.mem_append_left _ hs⟩⟩
      · obtain ⟨hfilled, hothers⟩ := ih group hmem
        refine ⟨hfilled, fun s hs ↦ ⟨(hothers s hs).1, ?_⟩⟩
        exact List.mem_append_right _ (List.mem_cons_of_mem _ (hothers s hs).2)

theorem isChunk_of_mem_declaringLines {text : String} {line : Nat × List String}
    (h : line ∈ declaringLines text) : ∀ chunk ∈ line.2, Text.IsChunk chunk := by
  obtain ⟨numbered, -, rfl⟩ := List.mem_map.mp (List.mem_of_mem_filter h)
  exact fun chunk hchunk ↦ Text.isChunk_of_mem_chunks hchunk

theorem head?_ne_of_mem_declaringLines {text : String} {line : Nat × List String}
    (h : line ∈ declaringLines text) :
    ∀ first ∈ line.2.head?, first.toList.head? ≠ some ';' := by
  have hstart := (List.mem_filter.mp h).2
  intro first hfirst
  rw [Option.mem_def.mp hfirst, Option.any_some, bne_iff_ne] at hstart
  exact hstart

theorem Declares.wellFormed {text : String} {line : Nat × List String} {rule : Rule}
    (h : Declares line rule) (hline : line ∈ declaringLines text) : rule.WellFormed := by
  obtain ⟨⟨arrow, side, -, hsymbols, hspelled⟩, -⟩ := h
  have hchunks := isChunk_of_mem_declaringLines hline
  have hstart := head?_ne_of_mem_declaringLines hline
  obtain ⟨first, rest, hrow, hname, hrest⟩ := List.map_eq_cons_iff.mp hsymbols
  rw [hrow] at hchunks hstart
  have hkind : (Symbol.ofChunk first).kind = .nonterminal := by rw [hname]
  have hsame : first = rule.name := by
    have hsurface := Symbol.ofChunk_eq_nonterminal hkind
    rw [hname] at hsurface
    exact (Symbol.mk.inj hsurface).2.symm
  subst hsame
  refine ⟨⟨hchunks _ List.mem_cons_self, hkind⟩, hstart _ rfl, hspelled.groups_ne_nil,
    fun group hgroup ↦ (hspelled.of_mem group hgroup).1, ?_⟩
  intro group hgroup symbol hsymbol
  obtain ⟨hpart, hmem⟩ := (hspelled.of_mem group hgroup).2 symbol hsymbol
  -- the symbol stands behind the arrow, so a chunk of the line is read as it
  have hread : symbol ∈ rest.map Symbol.ofChunk := hrest ▸ List.mem_cons_of_mem _ hmem
  obtain ⟨chunk, hchunk, rfl⟩ := List.mem_map.mp hread
  exact Symbol.writable_ofChunk (hchunks chunk (List.mem_cons_of_mem _ hchunk)) hpart

namespace Grammar

theorem wellFormed_of_read {text : String} {file : Option String} {g : Grammar}
    (h : (read text file).outcome = .ok g) : g.WellFormed := by
  obtain ⟨declared, heach, rfl⟩ := read_eq_ok_iff.mp h
  intro rule hrule
  obtain ⟨line, hline, hdeclares⟩ := exists_line_of_mem heach (mem_of_mem_ofRules hrule)
  exact hdeclares.wellFormed hline

end Grammar

end PhraseStructure
