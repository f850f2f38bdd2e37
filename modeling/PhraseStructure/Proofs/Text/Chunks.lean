import Mathlib.Data.List.TakeWhile
import PhraseStructure.Text.Blank

/-!
# Facts about chunks

A blank cuts a text into two parts, whose chunks stand one after the other. A
text without blanks is its own only chunk unless it is empty. The blanks in
front of a text go up to its first chunk, so only a text of blanks has none.

A trimmed text is the part of a text that has only blanks around it, and none
at its own ends. There is one such part.
-/

namespace PhraseStructure.Text

/-- A text that can stand between blanks. -/
structure IsChunk (text : String) : Prop where
  filled : text ≠ ""
  solid : ∀ c ∈ text.toList, isBlank c = false

theorem isChunk_of_all {text : String} (hfilled : text ≠ "")
    (h : text.toList.all (fun c ↦ !isBlank c) = true) : IsChunk text :=
  ⟨hfilled, fun c hmem ↦ by simpa using List.all_eq_true.mp h c hmem⟩

theorem chunks_of_isChunk {text : String} (h : IsChunk text) : chunks text = [text] := by
  have hfilled : text.toList ≠ [] := by simpa using h.filled
  rw [chunks, List.splitOnP_eq_singleton h.solid]
  simp [hfilled]

theorem chunks_eq_append {text front back : String} {c : Char}
    (htext : text.toList = front.toList ++ c :: back.toList) (hblank : isBlank c = true) :
    chunks text = chunks front ++ chunks back := by
  rw [chunks, htext, List.splitOnP_append_cons _ _ hblank, List.filter_append, List.map_append,
    chunks, chunks]

theorem chunks_spaced (texts : List String) :
    chunks (" ".intercalate texts) = texts.flatMap chunks := by
  induction texts with
  | nil => rfl
  | cons text rest ih =>
      cases rest with
      | nil => simp
      | cons next rest =>
          rw [List.flatMap_cons, ← ih]
          apply chunks_eq_append (c := ' ') _ (by decide)
          simp [String.intercalate_cons_cons]

theorem not_isBlank_of_mem_splitOnP {text run : List Char} (h : run ∈ text.splitOnP isBlank) :
    ∀ c ∈ run, isBlank c = false := by
  induction text generalizing run with
  | nil =>
      rw [List.splitOnP_nil, List.mem_singleton] at h
      simp [h]
  | cons c text ih =>
      rw [List.splitOnP_cons_eq_if_modifyHead] at h
      split at h
      next =>
          rcases List.mem_cons.mp h with rfl | h
          · simp
          · exact ih h
      next hsolid =>
          obtain ⟨first, others, hsplit⟩ :=
            List.exists_cons_of_ne_nil (List.splitOnP_ne_nil isBlank text)
          rw [hsplit, List.modifyHead_cons] at h
          rcases List.mem_cons.mp h with rfl | h
          · have hfirst := ih (hsplit ▸ List.mem_cons_self)
            exact List.forall_mem_cons.mpr ⟨by simpa using hsolid, hfirst⟩
          · exact ih (hsplit ▸ List.mem_cons_of_mem _ h)

theorem isChunk_of_mem_chunks {text chunk : String} (h : chunk ∈ chunks text) : IsChunk chunk := by
  obtain ⟨run, hrun, rfl⟩ := List.mem_map.mp h
  obtain ⟨hmem, hfilled⟩ := List.mem_filter.mp hrun
  refine ⟨by simpa using hfilled, ?_⟩
  rw [String.toList_ofList]
  exact not_isBlank_of_mem_splitOnP hmem

/-- The first character behind the blanks in front begins the first chunk. -/
theorem head?_dropWhile_isBlank (text : String) :
    (text.toList.dropWhile isBlank).head? =
      (chunks text).head?.bind fun chunk ↦ chunk.toList.head? := by
  unfold chunks
  induction text.toList with
  | nil => rfl
  | cons c rest ih =>
      rw [List.splitOnP_cons_eq_if_modifyHead]
      cases hblank : isBlank c with
      | true => simpa [hblank] using ih
      | false =>
          obtain ⟨first, others, hsplit⟩ :=
            List.exists_cons_of_ne_nil (List.splitOnP_ne_nil isBlank rest)
          simp [hblank, hsplit]

theorem chunks_eq_nil_iff {text : String} : chunks text = [] ↔ text.toList.all isBlank = true := by
  have hfirst := head?_dropWhile_isBlank text
  rw [List.all_eq_true, ← List.dropWhile_eq_nil_iff,
    ← List.head?_eq_none_iff (l := text.toList.dropWhile isBlank), hfirst]
  cases hchunks : chunks text with
  | nil => simp
  | cons chunk rest =>
      have hfilled := (isChunk_of_mem_chunks (hchunks ▸ List.mem_cons_self)).filled
      simp [hfilled]

/-! ## Trimming -/

/-- The core of a text has only blanks around it, and is not blank at its ends. -/
structure IsCore (text core : String) : Prop where
  around : ∃ front back, text.toList = front ++ core.toList ++ back ∧
    (∀ c ∈ front, isBlank c = true) ∧ ∀ c ∈ back, isBlank c = true
  first_solid : ∀ c ∈ core.toList.head?, isBlank c = false
  last_solid : ∀ c ∈ core.toList.getLast?, isBlank c = false

theorem not_isBlank_of_mem_head?_dropWhile {text : List Char} :
    ∀ c ∈ (text.dropWhile isBlank).head?, isBlank c = false := by
  intro c hmem
  have hfirst := List.head?_dropWhile_not isBlank text
  rwa [hmem] at hfirst

theorem dropWhile_isBlank_append {blanks rest : List Char}
    (hblanks : ∀ c ∈ blanks, isBlank c = true) (hrest : ∀ c ∈ rest.head?, isBlank c = false) :
    (blanks ++ rest).dropWhile isBlank = rest := by
  rw [List.dropWhile_append_of_pos hblanks]
  cases rest with
  | nil => rfl
  | cons c rest => exact List.dropWhile_cons_of_neg (by simp [hrest c rfl])

theorem isCore_trim (text : String) : IsCore text (trim text) := by
  have hfront := (List.takeWhile_append_dropWhile (p := isBlank) (l := text.toList)).symm
  generalize hrest : text.toList.dropWhile isBlank = rest at hfront
  have hback : rest = (rest.reverse.dropWhile isBlank).reverse ++
      (rest.reverse.takeWhile isBlank).reverse := by
    rw [← List.reverse_append, List.takeWhile_append_dropWhile, List.reverse_reverse]
  have hcore : (trim text).toList = (rest.reverse.dropWhile isBlank).reverse := by
    rw [trim, hrest, String.toList_ofList]
  refine ⟨⟨text.toList.takeWhile isBlank, (rest.reverse.takeWhile isBlank).reverse, ?_, ?_, ?_⟩,
    ?_, ?_⟩
  · rw [hcore, List.append_assoc, ← hback]
    exact hfront
  · exact fun c hmem ↦ List.mem_takeWhile_imp hmem
  · exact fun c hmem ↦ List.mem_takeWhile_imp (List.mem_reverse.mp hmem)
  · intro c hmem
    -- What the core begins with comes right behind the blanks in front.
    have hfirst : c ∈ rest.head? := by
      rw [hback, ← hcore, List.head?_append, hmem]
      rfl
    exact not_isBlank_of_mem_head?_dropWhile c (hrest ▸ hfirst)
  · intro c hmem
    rw [hcore, List.getLast?_reverse] at hmem
    exact not_isBlank_of_mem_head?_dropWhile c hmem

theorem IsCore.eq_trim {text core : String} (h : IsCore text core) : core = trim text := by
  obtain ⟨front, back, htext, hfront, hback⟩ := h.around
  apply String.toList_injective
  rw [trim, String.toList_ofList, htext, List.append_assoc, List.dropWhile_append_of_pos hfront]
  cases hcore : core.toList with
  | nil =>
      have hnone : back.dropWhile isBlank = [] := List.dropWhile_eq_nil_iff.mpr hback
      simp [hnone]
  | cons first rest =>
      have hfirst : isBlank first = false := h.first_solid first (by simp [hcore])
      have hlast : ∀ c ∈ (first :: rest).reverse.head?, isBlank c = false := by
        rw [List.head?_reverse, ← hcore]
        exact h.last_solid
      have hblanks : ∀ c ∈ back.reverse, isBlank c = true := by simpa using hback
      rw [List.cons_append, List.dropWhile_cons_of_neg (by simp [hfirst]), ← List.cons_append,
        List.reverse_append, dropWhile_isBlank_append hblanks hlast, List.reverse_reverse]

theorem isCore_iff {text core : String} : IsCore text core ↔ core = trim text := by
  constructor
  · exact IsCore.eq_trim
  · rintro rfl
    exact isCore_trim text

end PhraseStructure.Text
