import PhraseStructure.Text.Lines

/-!
# Lines that are written

Rows that are written with a newline behind each are read back, if none of
them holds a newline or ends in a carriage return. It is the same for texts and
for bytes.
-/

namespace PhraseStructure.Text

theorem splitOnP_flatMap {α : Type} [BEq α] [LawfulBEq α] {newline : α} {rows : List (List α)}
    (h : ∀ row ∈ rows, newline ∉ row) :
    (rows.flatMap fun row ↦ row ++ [newline]).splitOnP (· == newline) = rows ++ [[]] := by
  induction rows with
  | nil => simp
  | cons row rows ih =>
      obtain ⟨hrow, hrows⟩ := List.forall_mem_cons.mp h
      have hsolid : ∀ x ∈ row, (x == newline) = false := by
        intro x hmem
        exact beq_false_of_ne fun hsame ↦ hrow (hsame ▸ hmem)
      rw [List.flatMap_cons, List.append_assoc, List.singleton_append,
        List.splitOnP_append_cons (p := (· == newline)) row _ (beq_self_eq_true newline),
        List.splitOnP_eq_singleton hsolid, ih hrows]
      rfl

theorem dropReturn_of_ne {α : Type} [BEq α] [LawfulBEq α] {ret : α} {row : List α}
    (h : row.getLast? ≠ some ret) : dropReturn ret row = row := by
  rw [dropReturn, if_neg]
  simpa using h

theorem cutLines_flatMap {α : Type} [BEq α] [LawfulBEq α] {newline ret : α} {rows : List (List α)}
    (hnewline : ∀ row ∈ rows, newline ∉ row) (hreturn : ∀ row ∈ rows, row.getLast? ≠ some ret) :
    cutLines newline ret (rows.flatMap fun row ↦ row ++ [newline]) = rows := by
  have hrows : rows.map (dropReturn ret) = rows := by
    rw [List.map_congr_left fun row hmem ↦ dropReturn_of_ne (hreturn row hmem)]
    exact List.map_id' rows
  rw [cutLines, splitOnP_flatMap hnewline]
  simp [hrows]

theorem lines_join {rows : List String} (hnewline : ∀ row ∈ rows, '\n' ∉ row.toList)
    (hreturn : ∀ row ∈ rows, row.toList.getLast? ≠ some '\r') :
    lines (String.join (rows.map fun row ↦ row ++ "\n")) = rows := by
  have htext : (String.join (rows.map fun row ↦ row ++ "\n")).toList =
      (rows.map String.toList).flatMap fun row ↦ row ++ ['\n'] := by
    simp [String.toList_join, List.flatMap_map]
  rw [lines, htext, cutLines_flatMap (List.forall_mem_map.mpr hnewline)
    (List.forall_mem_map.mpr hreturn)]
  simp

theorem byteLines_flatMap {rows : List (List UInt8)} (hnewline : ∀ row ∈ rows, 10 ∉ row)
    (hreturn : ∀ row ∈ rows, row.getLast? ≠ some 13) :
    byteLines ⟨(rows.flatMap fun row ↦ row ++ [10]).toArray⟩ =
      rows.map fun row ↦ ⟨row.toArray⟩ := by
  rw [byteLines, List.toList_toArray, cutLines_flatMap hnewline hreturn]

end PhraseStructure.Text
