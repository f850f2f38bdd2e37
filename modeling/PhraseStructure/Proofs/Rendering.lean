import PhraseStructure.Tree.Preorder

/-!
# Rendered trees can be told apart

Labels are rendered as they are, so a label may look like structure: it may
hold quotes and parentheses. It may hold no space. Then the label of a node ends
at the next space, and the quote that closes a leaf is the last one before the
next space or the end, since only parentheses stand in between. So the rendering
of a tree shows where it ends, whatever stands behind it, and no two trees are
rendered alike.
-/

namespace PhraseStructure.Tree

/-- No label in the tree holds a space. -/
def Unspaced (t : Tree) : Prop := ∀ entry ∈ t.preorder, ' ' ∉ entry.1.toList

def UnspacedEach (ts : List Tree) : Prop := ∀ entry ∈ preorderOf ts, ' ' ∉ entry.1.toList

theorem unspaced_leaf_iff {surface : String} :
    (leaf surface).Unspaced ↔ ' ' ∉ surface.toList :=
  List.forall_mem_singleton

theorem unspaced_node_iff {label : String} {children : List Tree} :
    (node label children).Unspaced ↔ ' ' ∉ label.toList ∧ UnspacedEach children :=
  List.forall_mem_cons

theorem unspacedEach_cons_iff {t : Tree} {ts : List Tree} :
    UnspacedEach (t :: ts) ↔ t.Unspaced ∧ UnspacedEach ts :=
  List.forall_mem_append

/-! ## Renderings as rows of characters -/

/-- Further children, each behind a space. -/
def spaced : List Tree → List Char
  | [] => []
  | t :: ts => ' ' :: (t.render.toList ++ spaced ts)

def joined : List Tree → List Char
  | [] => []
  | t :: ts => t.render.toList ++ spaced ts

theorem toList_intercalate_renderEach (ts : List Tree) :
    (String.intercalate " " (renderEach ts)).toList = joined ts := by
  cases ts with
  | nil => simp [renderEach, joined]
  | cons t ts =>
      induction ts generalizing t with
      | nil => simp [renderEach, joined, spaced]
      | cons u us ih =>
          rw [renderEach, renderEach, String.intercalate_cons_cons, ← renderEach,
            String.toList_append, String.toList_append, ih u]
          simp [joined, spaced]

theorem toList_render_leaf (surface : String) :
    (leaf surface).render.toList = '\'' :: (surface.toList ++ ['\'']) := by
  simp [render]

theorem toList_render_node (label : String) (children : List Tree) :
    (node label children).render.toList =
      '(' :: (label.toList ++ ' ' :: (joined children ++ [')'])) := by
  rw [render, String.toList_append, String.toList_append, toList_intercalate_renderEach]
  simp

/-! ## Where a label ends -/

/-- What can stand behind a tree: closing parentheses, and then nothing or a space. -/
inductive Behind : List Char → Prop where
  | done : Behind []
  | space {rest : List Char} : Behind (' ' :: rest)
  | close {rest : List Char} (more : Behind rest) : Behind (')' :: rest)

theorem behind_spaced (ts : List Tree) {rest : List Char} (h : Behind rest) :
    Behind (spaced ts ++ ')' :: rest) := by
  cases ts with
  | nil => exact .close h
  | cons t ts => exact .space

/-- A quote behind a tree stands behind a space. -/
theorem Behind.space_mem {front rest : List Char} (h : Behind (front ++ '\'' :: rest)) :
    ' ' ∈ front := by
  induction front with
  | nil => cases h
  | cons c front ih =>
      cases h with
      | space => exact List.mem_cons_self
      | close more => exact List.mem_cons_of_mem _ (ih more)

/-- Two rows are cut at the same place by a mark, if neither front part can
reach beyond its mark to the other one. -/
theorem eq_of_append_cons_eq {mark : Char} {front front' rest rest' : List Char}
    (h : front ++ mark :: rest = front' ++ mark :: rest')
    (hfront : ∀ more, front = front' ++ mark :: more → rest' ≠ more ++ mark :: rest)
    (hfront' : ∀ more, front' = front ++ mark :: more → rest ≠ more ++ mark :: rest') :
    front = front' ∧ rest = rest' := by
  rcases List.append_eq_append_iff.mp h with ⟨more, hmore, hrest⟩ | ⟨more, hmore, hrest⟩
  · cases more with
    | nil =>
        cases hrest
        exact ⟨by simpa using hmore.symm, rfl⟩
    | cons c more =>
        cases hrest
        exact (hfront' more hmore rfl).elim
  · cases more with
    | nil =>
        cases hrest
        exact ⟨by simpa using hmore, rfl⟩
    | cons c more =>
        cases hrest
        exact (hfront more hmore rfl).elim

theorem label_unique {label label' : String} (hlabel : ' ' ∉ label.toList)
    (hlabel' : ' ' ∉ label'.toList) {rest rest' : List Char}
    (h : label.toList ++ ' ' :: rest = label'.toList ++ ' ' :: rest') :
    label = label' ∧ rest = rest' := by
  obtain ⟨hlist, hrest⟩ := eq_of_append_cons_eq h
    (fun more hmore ↦ (hlabel (by simp [hmore])).elim)
    (fun more hmore ↦ (hlabel' (by simp [hmore])).elim)
  exact ⟨String.toList_inj.mp hlist, hrest⟩

theorem surface_unique {surface surface' : String} (hsurface : ' ' ∉ surface.toList)
    (hsurface' : ' ' ∉ surface'.toList) {rest rest' : List Char} (hrest : Behind rest)
    (hrest' : Behind rest')
    (h : surface.toList ++ '\'' :: rest = surface'.toList ++ '\'' :: rest') :
    surface = surface' ∧ rest = rest' := by
  obtain ⟨hlist, hsame⟩ := eq_of_append_cons_eq h
    (fun more hmore hlong ↦ by
      have hspace : ' ' ∈ more := (hlong ▸ hrest').space_mem
      exact hsurface (by simp [hmore, hspace]))
    (fun more hmore hlong ↦ by
      have hspace : ' ' ∈ more := (hlong ▸ hrest).space_mem
      exact hsurface' (by simp [hmore, hspace]))
  exact ⟨String.toList_inj.mp hlist, hsame⟩

/-! ## Where a tree ends -/

theorem close_cons_ne_render (t : Tree) (rest rest' : List Char) :
    ')' :: rest ≠ t.render.toList ++ rest' := by
  cases t with
  | leaf surface => simp [toList_render_leaf]
  | node label children => simp [toList_render_node]

mutual

/-- What stands behind a rendered tree is not taken for a part of it. -/
theorem render_unique : (t u : Tree) → t.Unspaced → u.Unspaced → (rest rest' : List Char) →
    Behind rest → Behind rest' → t.render.toList ++ rest = u.render.toList ++ rest' →
      t = u ∧ rest = rest'
  | leaf surface, leaf surface', ht, hu, rest, rest', hrest, hrest', h => by
      rw [unspaced_leaf_iff] at ht hu
      simp only [toList_render_leaf, List.cons_append, List.append_assoc, List.nil_append,
        List.cons.injEq, true_and] at h
      obtain ⟨rfl, rfl⟩ := surface_unique ht hu hrest hrest' h
      exact ⟨rfl, rfl⟩
  | leaf _, node _ _, _, _, _, _, _, _, h => by
      simp [toList_render_leaf, toList_render_node] at h
  | node _ _, leaf _, _, _, _, _, _, _, h => by
      simp [toList_render_leaf, toList_render_node] at h
  | node label ts, node label' us, ht, hu, rest, rest', hrest, hrest', h => by
      rw [unspaced_node_iff] at ht hu
      simp only [toList_render_node, List.cons_append, List.append_assoc, List.nil_append,
        List.cons.injEq, true_and] at h
      obtain ⟨rfl, hchildren⟩ := label_unique ht.1 hu.1 h
      obtain ⟨rfl, rfl⟩ := joined_unique ts us ht.2 hu.2 rest rest' hrest hrest' hchildren
      exact ⟨rfl, rfl⟩

theorem joined_unique : (ts us : List Tree) → UnspacedEach ts → UnspacedEach us →
    (rest rest' : List Char) → Behind rest → Behind rest' →
      joined ts ++ ')' :: rest = joined us ++ ')' :: rest' → ts = us ∧ rest = rest'
  | [], [], _, _, _, _, _, _, h => by
      cases h
      exact ⟨rfl, rfl⟩
  | [], u :: us, _, _, _, _, _, _, h => by
      rw [joined, joined, List.nil_append, List.append_assoc] at h
      exact (close_cons_ne_render u _ _ h).elim
  | t :: ts, [], _, _, _, _, _, _, h => by
      rw [joined, joined, List.nil_append, List.append_assoc] at h
      exact (close_cons_ne_render t _ _ h.symm).elim
  | t :: ts, u :: us, hts, hus, rest, rest', hrest, hrest', h => by
      rw [unspacedEach_cons_iff] at hts hus
      simp only [joined, List.append_assoc] at h
      obtain ⟨rfl, hothers⟩ := render_unique t u hts.1 hus.1 _ _ (behind_spaced ts hrest)
        (behind_spaced us hrest') h
      obtain ⟨rfl, rfl⟩ := spaced_unique ts us hts.2 hus.2 rest rest' hrest hrest' hothers
      exact ⟨rfl, rfl⟩

/-- A space announces a further child and a parenthesis ends the row. -/
theorem spaced_unique : (ts us : List Tree) → UnspacedEach ts → UnspacedEach us →
    (rest rest' : List Char) → Behind rest → Behind rest' →
      spaced ts ++ ')' :: rest = spaced us ++ ')' :: rest' → ts = us ∧ rest = rest'
  | [], [], _, _, _, _, _, _, h => by
      cases h
      exact ⟨rfl, rfl⟩
  | [], _ :: _, _, _, _, _, _, _, h => by simp [spaced] at h
  | _ :: _, [], _, _, _, _, _, _, h => by simp [spaced] at h
  | t :: ts, u :: us, hts, hus, rest, rest', hrest, hrest', h => by
      rw [unspacedEach_cons_iff] at hts hus
      simp only [spaced, List.cons_append, List.append_assoc, List.cons.injEq, true_and] at h
      obtain ⟨rfl, hothers⟩ := render_unique t u hts.1 hus.1 _ _ (behind_spaced ts hrest)
        (behind_spaced us hrest') h
      obtain ⟨rfl, rfl⟩ := spaced_unique ts us hts.2 hus.2 rest rest' hrest hrest' hothers
      exact ⟨rfl, rfl⟩

end

/-- Two trees without spaces in their labels are the same if they are rendered
alike, whatever else the labels hold and wherever they stand. -/
theorem eq_of_render_eq {t u : Tree} (ht : t.Unspaced) (hu : u.Unspaced)
    (h : t.render = u.render) : t = u := by
  have hrows : t.render.toList ++ [] = u.render.toList ++ [] := by rw [h]
  exact (render_unique t u ht hu [] [] .done .done hrows).1

theorem eq_of_render_eq_quotes :
    (node "(S" [leaf "')", node "" [leaf "a'"]]).Unspaced ∧
      (node "(S" [leaf "')", node "" [leaf "a'"]]).render = "((S '')' ( 'a''))" ∧
      grow "(S" [leaf "')", grow "" [leaf "a'"]] = node "(S" [leaf "')", node "" [leaf "a'"]] := by
  have hunspaced : (node "(S" [leaf "')", node "" [leaf "a'"]]).Unspaced := by
    unfold Unspaced
    decide
  have hrender : (node "(S" [leaf "')", node "" [leaf "a'"]]).render = "((S '')' ( 'a''))" := by
    decide
  exact ⟨hunspaced, hrender, eq_of_render_eq hunspaced hunspaced rfl⟩

/-- With a space in its label a leaf can look like two. -/
example : (node "S" [leaf "a' 'b"]).render = (node "S" [leaf "a", leaf "b"]).render := by decide

end PhraseStructure.Tree
