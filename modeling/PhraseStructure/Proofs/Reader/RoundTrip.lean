import PhraseStructure.Grammar.Printer
import PhraseStructure.Proofs.Reader.WellFormed
import PhraseStructure.Proofs.Text.Lines

/-!
# Printed grammars

What a well-formed rule prints is one line, whose chunks are read as the name,
an arrow and the alternatives again. So a well-formed grammar is read back from
its text, with its rules renumbered. No other grammar is, since only well-formed
ones are read at all.
-/

namespace PhraseStructure

/-! ## Symbols -/

namespace Symbol

theorem Writable.isPart {s : Symbol} (h : s.Writable) : s.isPart := by
  cases h with
  | terminal => exact .inl rfl
  | nonterminal => exact .inr rfl

theorem toList_written_terminal (surface : String) :
    (written ⟨.terminal, surface⟩).toList = '"' :: (surface.toList ++ ['"']) := by
  simp [written]

theorem Writable.isChunk {s : Symbol} (h : s.Writable) : Text.IsChunk s.written := by
  cases h with
  | nonterminal name => exact name.chunk
  | @terminal surface solid =>
      have htext := toList_written_terminal surface
      refine ⟨fun hempty ↦ ?_, fun c hmem ↦ ?_⟩
      · rw [hempty] at htext
        cases htext
      · rw [htext, List.mem_cons, List.mem_append, List.mem_singleton] at hmem
        rcases hmem with rfl | hmem | rfl
        · decide
        · exact solid c hmem
        · decide

/-- A symbol is read again as it was written. -/
theorem Writable.ofChunk_written {s : Symbol} (h : s.Writable) : ofChunk s.written = s := by
  cases h with
  | nonterminal name => exact ofChunk_eq_nonterminal name.kind
  | @terminal surface _ =>
      have htext := toList_written_terminal surface
      have hne : ∀ raw : String, raw.toList.head? ≠ some '"' →
          written ⟨.terminal, surface⟩ ≠ raw := by
        rintro _ hhead rfl
        exact hhead (by rw [htext, List.head?_cons])
      rw [ofChunk, if_neg (hne "->" (by decide)), if_neg (hne "|" (by decide)), htext]
      simp

end Symbol

/-! ## Lines -/

namespace Text

/-- Of the blanks only spaces. -/
def IsInline (text : String) : Prop := ∀ c ∈ text.toList, isBlank c = true → c = ' '

theorem isInline_of_all {text : String}
    (h : text.toList.all (fun c ↦ !isBlank c || c == ' ') = true) : IsInline text := by
  intro c hmem hblank
  simpa [hblank] using List.all_eq_true.mp h c hmem

theorem IsChunk.isInline {text : String} (h : IsChunk text) : IsInline text := by
  intro c hmem hblank
  rw [h.solid c hmem] at hblank
  cases hblank

theorem IsInline.append {front back : String} (hfront : IsInline front) (hback : IsInline back) :
    IsInline (front ++ back) := by
  intro c hmem hblank
  rw [String.toList_append, List.mem_append] at hmem
  exact hmem.elim (fun h ↦ hfront c h hblank) fun h ↦ hback c h hblank

theorem IsInline.intercalate {separator : String} {texts : List String}
    (hseparator : IsInline separator) (htexts : ∀ text ∈ texts, IsInline text) :
    IsInline (separator.intercalate texts) := by
  induction texts with
  | nil => exact nofun
  | cons text rest ih =>
      obtain ⟨htext, hrest⟩ := List.forall_mem_cons.mp htexts
      cases rest with
      | nil => simpa using htext
      | cons next rest =>
          rw [String.intercalate_cons_cons]
          exact (htext.append hseparator).append (ih hrest)

theorem chunks_around {separator word : String}
    (hseparator : separator.toList = ' ' :: (word.toList ++ [' '])) (hword : IsChunk word)
    (front back : String) :
    chunks (front ++ separator ++ back) = chunks front ++ word :: chunks back := by
  have hback : (word ++ " " ++ back).toList = word.toList ++ ' ' :: back.toList := by simp
  have htext : (front ++ separator ++ back).toList =
      front.toList ++ ' ' :: (word ++ " " ++ back).toList := by simp [hseparator]
  rw [chunks_eq_append htext (by decide), chunks_eq_append hback (by decide),
    chunks_of_isChunk hword, List.singleton_append]

end Text

theorem isChunk_arrow : Text.IsChunk "->" := Text.isChunk_of_all (by decide) (by decide)

theorem isChunk_separator : Text.IsChunk "|" := Text.isChunk_of_all (by decide) (by decide)

theorem chunks_alternative {alternative : Alternative} (h : ∀ s ∈ alternative, s.Writable) :
    (Text.chunks alternative.text).map Symbol.ofChunk = alternative := by
  rw [Alternative.text, Text.chunks_spaced]
  induction alternative with
  | nil => rfl
  | cons s rest ih =>
      obtain ⟨hs, hrest⟩ := List.forall_mem_cons.mp h
      rw [List.map_cons, List.flatMap_cons, Text.chunks_of_isChunk hs.isChunk, List.map_append,
        ih hrest, List.map_singleton, hs.ofChunk_written, List.singleton_append]

/-- The alternatives of a rule as they are printed. -/
theorem spells_chunks {alternatives : List Alternative} (hoffered : alternatives ≠ [])
    (hfilled : ∀ alternative ∈ alternatives, alternative ≠ [])
    (hwritable : ∀ alternative ∈ alternatives, ∀ s ∈ alternative, s.Writable) :
    Spells ((Text.chunks (" | ".intercalate (alternatives.map Alternative.text))).map
      Symbol.ofChunk) alternatives := by
  induction alternatives with
  | nil => exact (hoffered rfl).elim
  | cons alternative rest ih =>
      obtain ⟨hfirst, hothers⟩ := List.forall_mem_cons.mp hfilled
      obtain ⟨hwritten, hwritable⟩ := List.forall_mem_cons.mp hwritable
      have hparts : ∀ s ∈ alternative, s.isPart := fun s hs ↦ (hwritten s hs).isPart
      have hgroup := chunks_alternative hwritten
      cases rest with
      | nil =>
          simp only [List.map_singleton, String.intercalate_singleton, hgroup]
          exact .last hfirst hparts
      | cons next rest =>
          have hrest := ih (List.cons_ne_nil _ _) hothers hwritable
          rw [List.map_cons, List.map_cons, String.intercalate_cons_cons, ← List.map_cons,
            Text.chunks_around (by decide) isChunk_separator, List.map_append, hgroup,
            List.map_cons]
          exact .more hfirst hparts rfl hrest

namespace Rule

variable {rule : Rule}

theorem WellFormed.chunks_text (h : rule.WellFormed) :
    Text.chunks rule.text =
      rule.name :: "->" ::
        Text.chunks (" | ".intercalate (rule.alternatives.map Alternative.text)) := by
  have hname := Text.chunks_of_isChunk h.name.chunk
  rw [Rule.text, Text.chunks_around (by decide) isChunk_arrow, hname, List.singleton_append]

theorem WellFormed.declares (h : rule.WellFormed) (number : Nat) :
    Declares (number, Text.chunks rule.text) { rule with line := number } := by
  refine ⟨⟨⟨.arrow, "->"⟩, _, rfl, ?_, spells_chunks h.offered h.filled h.writable⟩, rfl⟩
  rw [h.chunks_text, List.map_cons, List.map_cons, Symbol.ofChunk_eq_nonterminal h.name.kind]
  rfl

theorem WellFormed.isInline_text (h : rule.WellFormed) : Text.IsInline rule.text := by
  have harrow : Text.IsInline " -> " := Text.isInline_of_all (by decide)
  have hseparator : Text.IsInline " | " := Text.isInline_of_all (by decide)
  have hspace : Text.IsInline " " := Text.isInline_of_all (by decide)
  refine (h.name.chunk.isInline.append harrow).append (hseparator.intercalate ?_)
  rw [List.forall_mem_map]
  intro alternative halternative
  apply hspace.intercalate
  rw [List.forall_mem_map]
  intro s hs
  exact (h.writable alternative halternative s hs).isChunk.isInline

end Rule

namespace Grammar

variable {g h : Grammar}

theorem lines_text (hformed : g.WellFormed) : Text.lines g.text = g.rules.map Rule.text := by
  have hinline : ∀ row ∈ g.rules.map Rule.text, Text.IsInline row :=
    List.forall_mem_map.mpr fun rule hrule ↦ (hformed rule hrule).isInline_text
  have htext : g.text = String.join ((g.rules.map Rule.text).map fun row ↦ row ++ "\n") := by
    rw [List.map_map]
    rfl
  rw [htext]
  apply Text.lines_join
  · intro row hrow hmem
    cases hinline row hrow _ hmem (by decide)
  · intro row hrow hlast
    cases hinline row hrow _ (List.mem_of_getLast? hlast) (by decide)

theorem declaringLines_text (hformed : g.WellFormed) :
    declaringLines g.text =
      g.rules.mapIdx fun number rule ↦ (number, Text.chunks rule.text) := by
  rw [declaringLines, lines_text hformed, List.mapIdx_eq_zipIdx_map, List.zipIdx_map, List.map_map]
  apply List.filter_eq_self.mpr
  intro line hline
  obtain ⟨⟨rule, number⟩, hrule, rfl⟩ := List.mem_map.mp hline
  have hwell := hformed rule (List.fst_mem_of_mem_zipIdx hrule)
  simpa [hwell.chunks_text] using hwell.noComment

/-- The rules with their lines set to their places. -/
def numbered (rules : List Rule) : List Rule :=
  rules.mapIdx fun number rule ↦ { rule with line := number }

theorem map_numbered {β : Type} {f : Rule → β}
    (hf : ∀ rule number, f { rule with line := number } = f rule) (rules : List Rule) :
    (numbered rules).map f = rules.map f := by
  apply List.ext_getElem?
  intro i
  rw [List.getElem?_map, numbered, List.getElem?_mapIdx, Option.map_map, List.getElem?_map]
  cases rules[i]? with
  | none => rfl
  | some rule => exact congrArg some (hf rule i)

theorem forall₂_declares_text (hformed : g.WellFormed) :
    List.Forall₂ Declares (declaringLines g.text) (numbered g.rules) := by
  rw [declaringLines_text hformed, numbered, List.mapIdx_eq_zipIdx_map, List.mapIdx_eq_zipIdx_map,
    List.forall₂_map_left_iff, List.forall₂_map_right_iff, List.forall₂_same]
  intro entry hentry
  exact (hformed entry.1 (List.fst_mem_of_mem_zipIdx hentry)).declares entry.2

theorem read_text_of_wellFormed (hformed : g.WellFormed) :
    ∃ h, (read g.text none).outcome = .ok h ∧ h.start = defaultStart ∧
      h.rules = numbered g.rules := by
  refine ⟨ofRules (numbered g.rules), ?_, start_ofRules _, rules_ofRules ?_⟩
  · exact read_eq_ok_iff.mpr ⟨_, forall₂_declares_text hformed, rfl⟩
  · rw [map_numbered fun _ _ ↦ rfl]
    exact g.distinct

/-- The rules without their lines. -/
def contents (g : Grammar) : List (String × List Alternative) :=
  g.rules.map fun rule ↦ (rule.name, rule.alternatives)

theorem WellFormed.of_contents_eq (hformed : h.WellFormed) (hsame : h.contents = g.contents) :
    g.WellFormed := by
  intro rule hrule
  have hcontent : (rule.name, rule.alternatives) ∈ h.contents :=
    hsame ▸ List.mem_map_of_mem hrule
  obtain ⟨other, hother, hequal⟩ := List.mem_map.mp hcontent
  obtain ⟨hname, halternatives⟩ := Prod.mk.inj hequal
  obtain ⟨name, noComment, offered, filled, writable⟩ := hformed other hother
  rw [hname] at name noComment
  rw [halternatives] at offered filled writable
  exact ⟨name, noComment, offered, filled, writable⟩

/-- Whatever is read is well-formed, and a grammar is read back from its text,
with the same names and alternatives in the same order, exactly if it is
well-formed itself. Then the rules stand on the lines of their places. -/
theorem read_text_iff_wellFormed (g : Grammar) :
    (∀ text file h, (read text file).outcome = .ok h → h.WellFormed) ∧
      ((∃ h, (read g.text none).outcome = .ok h ∧ h.contents = g.contents) ↔ g.WellFormed) ∧
      ∀ h, (read g.text none).outcome = .ok h → h.contents = g.contents →
        h.start = "S" ∧ ∀ (i : Nat) (rule : Rule), h.rules[i]? = some rule → rule.line = i := by
  have hread : (∃ h, (read g.text none).outcome = .ok h ∧ h.contents = g.contents) →
      g.WellFormed := by
    rintro ⟨h, hok, hsame⟩
    exact (wellFormed_of_read hok).of_contents_eq hsame
  refine ⟨fun _ _ _ ↦ wellFormed_of_read, ⟨hread, ?_⟩, ?_⟩
  · intro hformed
    obtain ⟨h, hok, -, hrules⟩ := read_text_of_wellFormed hformed
    refine ⟨h, hok, ?_⟩
    rw [contents, hrules, map_numbered fun _ _ ↦ rfl, contents]
  · intro h hok hsame
    obtain ⟨other, hother, hstart, hrules⟩ := read_text_of_wellFormed (hread ⟨h, hok, hsame⟩)
    obtain rfl := Except.ok.inj (hok.symm.trans hother)
    refine ⟨hstart, fun i rule hi ↦ ?_⟩
    rw [hrules, numbered, List.getElem?_mapIdx] at hi
    obtain ⟨original, -, rfl⟩ := Option.map_eq_some_iff.mp hi
    rfl

end Grammar

end PhraseStructure
