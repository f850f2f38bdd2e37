import Mathlib.Data.List.Induction
import PhraseStructure.Grammar.Basic

/-!
# Rows of declarations

After a row of declarations each name has the last rule that was declared for
it, and the names stand in the order of their first declarations. If no name is
declared twice, the rules are the row itself.
-/

namespace PhraseStructure.Grammar

theorem names_place (rule : Rule) (rules : List Rule) :
    (place rule rules).map Rule.name =
      if rule.name ∈ rules.map Rule.name then rules.map Rule.name
      else rules.map Rule.name ++ [rule.name] := by
  induction rules with
  | nil => rfl
  | cons r rest ih =>
      rw [place]
      split
      next same => simp [same]
      next other =>
          rw [List.map_cons, List.map_cons, ih]
          by_cases hmem : rule.name ∈ rest.map Rule.name
          · rw [if_pos hmem, if_pos (List.mem_cons_of_mem _ hmem)]
          · have hnone : rule.name ∉ r.name :: rest.map Rule.name := by
              rw [List.mem_cons]
              exact fun h ↦ h.elim (fun same ↦ other same.symm) hmem
            rw [if_neg hmem, if_neg hnone, List.cons_append]

theorem place_of_notMem {rule : Rule} {rules : List Rule}
    (h : rule.name ∉ rules.map Rule.name) : place rule rules = rules ++ [rule] := by
  induction rules with
  | nil => rfl
  | cons r rest ih =>
      rw [List.map_cons, List.mem_cons, not_or] at h
      rw [place, if_neg fun same ↦ h.1 same.symm, ih h.2, List.cons_append]

theorem names_declare (g : Grammar) (rule : Rule) :
    (g.declare rule).names =
      if rule.name ∈ g.names then g.names else g.names ++ [rule.name] :=
  names_place rule g.rules

theorem rules_declare (g : Grammar) (rule : Rule) : (g.declare rule).rules = place rule g.rules :=
  rfl

theorem ofRules_concat (declared : List Rule) (rule : Rule) :
    ofRules (declared ++ [rule]) = (ofRules declared).declare rule := by
  rw [ofRules, List.foldl_append]
  rfl

theorem start_ofRules (declared : List Rule) : (ofRules declared).start = defaultStart := by
  induction declared using List.reverseRecOn with
  | nil => rfl
  | append_singleton declared rule ih =>
      rw [ofRules_concat]
      exact ih

theorem eraseDups_concat {α : Type} [BEq α] [LawfulBEq α] (as : List α) (a : α) :
    (as ++ [a]).eraseDups = if a ∈ as then as.eraseDups else as.eraseDups ++ [a] := by
  rw [List.eraseDups_append]
  by_cases h : a ∈ as <;> simp [List.removeAll, List.eraseDups_cons, h]

/-- Names stand in the order of their first declarations. -/
theorem names_ofRules (declared : List Rule) :
    (ofRules declared).names = (declared.map Rule.name).eraseDups := by
  induction declared using List.reverseRecOn with
  | nil => rfl
  | append_singleton declared rule ih =>
      rw [ofRules_concat, names_declare, ih, List.map_append, List.map_singleton,
        eraseDups_concat]
      simp only [List.mem_eraseDups]

/-- The last declaration of a name counts. -/
theorem rule?_ofRules (declared : List Rule) (name : String) :
    (ofRules declared).rule? name = (declared.filter fun r ↦ r.name = name).getLast? := by
  induction declared using List.reverseRecOn with
  | nil => rfl
  | append_singleton declared rule ih =>
      rw [ofRules_concat, rule?_declare, List.filter_append]
      by_cases hname : rule.name = name
      · simp [hname]
      · simp [hname, ih]

theorem mem_of_mem_ofRules {declared : List Rule} {rule : Rule}
    (h : rule ∈ (ofRules declared).rules) : rule ∈ declared := by
  have hlast : (declared.filter fun r ↦ r.name = rule.name).getLast? = some rule := by
    rw [← rule?_ofRules]
    exact rule?_eq_some_iff.mpr ⟨h, rfl⟩
  exact (List.mem_filter.mp (List.mem_of_getLast? hlast)).1

theorem rules_ofRules {declared : List Rule} (h : (declared.map Rule.name).Nodup) :
    (ofRules declared).rules = declared := by
  induction declared using List.reverseRecOn with
  | nil => rfl
  | append_singleton declared rule ih =>
      rw [List.map_append, List.nodup_append] at h
      have hrules := ih h.1
      have hnew : rule.name ∉ (ofRules declared).rules.map Rule.name := by
        rw [hrules]
        intro hmem
        exact h.2.2 _ hmem _ (List.mem_singleton_self _) rfl
      rw [ofRules_concat, rules_declare, place_of_notMem hnew, hrules]

end PhraseStructure.Grammar
