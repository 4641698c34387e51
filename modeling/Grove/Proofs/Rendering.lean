import Grove.Proofs.Forest.Descent
import Grove.Proofs.Integrity

/-!
# Renderings

The rendering of a subtree is put together from finished trees, and each tree hands its indentation on to
the trees below it. Told node by node, the rendering is one entry after the other, in the order of the
walk: the strokes that lead the node in, its line, and the end of the line. Which strokes these are is
read off the way up: they depend on which of the nodes between the node and the top are last children.
-/

namespace Grove
set_option autoImplicit false

namespace Forest
variable {C : Type} {F : Forest C} {h n p r : Handle} {b st : Stand} {indent : String}
  {up front rest : List Handle}

def isLastChild (F : Forest C) (h : Handle) : Except Error Bool := do
  match ← F.parent h with
  | none => return false
  | some p => return (← F.children p).getLast? == some h

/-- What a node adds to the indentation of the nodes below it. -/
def margin (F : Forest C) (h : Handle) : Except Error String := do
  return if ← F.isLastChild h then "    " else "│   "

/-- The margins of the nodes that a way up meets before `r`, from the top down. -/
def indentation (F : Forest C) (r : Handle) (up : List Handle) : Except Error String := do
  return String.join (← (up.takeWhile (· != r)).reverse.mapM F.margin)

/-- The strokes before the line of `n` in the rendering from `r`. -/
def leadIn (F : Forest C) (r n : Handle) : Except Error String := do
  if n = r then return ""
  let indent ← F.indentation r (← F.ascendants n)
  return indent ++ if ← F.isLastChild n then "└── " else "├── "

section
variable [Content C]

def entry (F : Forest C) (r n : Handle) : Except Error String := do
  return (← F.leadIn r n) ++ (← F.line n) ++ "\n"

/-- The rendering from `r` consists of the entries of the nodes `ds`. -/
structure Rendered (F : Forest C) (r : Handle) (ds : List Handle) (es : List String) : Prop where
  walk : F.descendantsAndSelf r = .ok ds ∧ ds.Nodup
  entries : ds.mapM (F.entry r) = .ok es
  rendering : ∃ tree, F.textTree r = .ok tree ∧ tree.render = String.join es
  /-- the tree is the one that recursion over the children gives -/
  recursion : ∀ n, F.textTreeFrom (ds.length + n) r = F.textTree r

end

/-! ## Indentation -/

theorem indentation_self (F : Forest C) (r : Handle) (up : List Handle) :
    F.indentation r (r :: up) = .ok "" := by
  rw [indentation, List.takeWhile_cons_of_neg (by simp)]
  rfl

theorem indentation_cons {last : Bool} (hne : h ≠ r) (hlast : F.isLastChild h = .ok last)
    (hup : F.indentation r up = .ok indent) :
    F.indentation r (h :: up) = .ok (indent ++ TextTree.rail last) := by
  have hmargin : F.margin h = .ok (TextTree.rail last) := by
    rw [margin, hlast]
    rfl
  rw [indentation] at hup ⊢
  rw [List.takeWhile_cons_of_pos (by simpa using hne), List.reverse_cons, List.mapM_append]
  cases hmargins : (up.takeWhile (· != r)).reverse.mapM F.margin with
  | error e =>
    rw [hmargins] at hup
    exact nomatch hup
  | ok margins =>
    rw [hmargins] at hup
    rw [← Except.ok.inj hup]
    simp only [bind, Except.bind, List.mapM_cons, List.mapM_nil, hmargin, pure, Except.pure,
      String.join_append, String.join_cons, String.join_nil, String.append_empty]

namespace WellFormed

theorem isLastChild_of_below (hF : F.WellFormed) (hbelow : F.below p = front ++ h :: rest) :
    F.isLastChild h = .ok rest.isEmpty := by
  have hmem : h ∈ F.below p := hbelow ▸ List.mem_append_cons_self
  have hlast : ((F.below p).getLast? == some h) = rest.isEmpty := by
    cases rest with
    | nil => simp [hbelow]
    | cons k rest =>
      -- the last child is among the others, and no child is listed twice
      have hnd := hF.nodup_below p
      rw [hbelow] at hnd
      have hnot := (List.nodup_cons.mp (List.nodup_append.mp hnd).2.1).1
      have hlater : (F.below p).getLast? = some ((k :: rest).getLast (List.cons_ne_nil k rest)) := by
        rw [hbelow, List.getLast?_append_of_ne_nil _ (List.cons_ne_nil h _), List.getLast?_cons_cons,
          List.getLast?_eq_some_getLast]
      have hne := ne_of_mem_of_not_mem (List.getLast_mem (List.cons_ne_nil k rest)) hnot
      simp [hlater, hne]
  simp only [isLastChild, parent_of_contains (hF.contains_of_mem_below hmem),
    hF.above?_eq_some_iff.mpr hmem, children_of_contains (Forest.contains_of_mem_below hmem), bind,
    Except.bind, hlast]
  rfl

theorem indentation_of_below (hF : F.WellFormed) (hbelow : F.below p = front ++ h :: rest)
    (hr : F.Covers r p) (hindent : F.indentation r (F.lineage (some p)) = .ok indent) :
    h ≠ r ∧ F.indentation r (F.lineage (some h)) = .ok (indent ++ TextTree.rail rest.isEmpty) := by
  have hmem : h ∈ F.below p := hbelow ▸ List.mem_append_cons_self
  have hp := hF.above?_eq_some_iff.mpr hmem
  have hne : h ≠ r := (hF.ne_of_above (Relation.TransGen.tail' hr hp)).symm
  refine ⟨hne, ?_⟩
  rw [hF.lineage_eq_cons (hF.contains_of_mem_below hmem), hp]
  exact indentation_cons hne (hF.isLastChild_of_below hbelow) hindent

/-! ## Entries -/

variable [Content C]

theorem entry_of_below (hF : F.WellFormed) (hbelow : F.below p = front ++ h :: rest)
    (hr : F.Covers r p) (hindent : F.indentation r (F.lineage (some p)) = .ok indent) :
    F.entry r h =
      .ok (indent ++ TextTree.connector rest.isEmpty ++ F.describe h ++ "\n") := by
  have hmem : h ∈ F.below p := hbelow ▸ List.mem_append_cons_self
  have hh := hF.contains_of_mem_below hmem
  have hne := (hF.indentation_of_below hbelow hr hindent).1
  have hlead : F.leadIn r h = .ok (indent ++ TextTree.connector rest.isEmpty) := by
    simp only [leadIn, if_neg hne, ascendants_of_contains hh, hF.above?_eq_some_iff.mpr hmem,
      bind, Except.bind, hindent, hF.isLastChild_of_below hbelow]
    rfl
  simp only [entry, hlead, line_of_contains hh, bind, Except.bind]
  rfl

theorem exists_entries (hF : F.WellFormed) (hst : F.Bears st) (hbelow : F.below p = front ++ st.tops)
    (hr : F.Covers r p) (hindent : F.indentation r (F.lineage (some p)) = .ok indent) :
    ∃ es, st.handles.mapM (F.entry r) = .ok es ∧
      TextTree.renderChildren indent (F.drawn st) = String.join es := by
  induction st generalizing p front indent with
  | bare => exact ⟨[], rfl, rfl⟩
  | tree h b s ihb ihs =>
    obtain ⟨-, hkids, hb, hs⟩ := hst
    rw [Stand.tops] at hbelow
    have hentry := hF.entry_of_below hbelow hr hindent
    have hdeeper := (hF.indentation_of_below hbelow hr hindent).2
    have hrh : F.Covers r h :=
      hr.tail (hF.above?_eq_some_iff.mpr (hbelow ▸ List.mem_append_cons_self))
    have hothers : F.below p = (front ++ [h]) ++ s.tops := by
      rw [hbelow, List.append_assoc, List.singleton_append]
    obtain ⟨down, hdown, htextdown⟩ := ihb hb (hkids.trans (List.nil_append _).symm) hrh hdeeper
    obtain ⟨beside, hbeside, htextbeside⟩ := ihs hs hothers hr hindent
    have hlast : (F.drawn s).isEmpty = s.tops.isEmpty := by cases s <;> rfl
    refine ⟨(indent ++ TextTree.connector s.tops.isEmpty ++ F.describe h ++ "\n") ::
      (down ++ beside), ?_, ?_⟩
    · rw [Stand.handles, List.mapM_cons, List.mapM_append, hentry, hdown, hbeside]
      rfl
    · rw [drawn, TextTree.renderChildren, TextTree.renderChild, hlast, htextdown, htextbeside,
        String.join_cons, String.join_append, String.append_assoc]

theorem rendered_of_bears (hF : F.WellFormed) (hst : F.Bears (.tree r b .bare)) :
    ∃ es, F.Rendered r (r :: b.handles) es := by
  obtain ⟨hr, hbelow, hb, -⟩ := id hst
  have hnd := hF.nodup_single hst
  have htree := textTree_of_bears hst hnd
  have htop : F.entry r r = .ok (F.describe r ++ "\n") := by
    simp only [entry, leadIn, if_true, line_of_contains hr, bind, Except.bind, pure, Except.pure,
      String.empty_append]
  have hindent : F.indentation r (F.lineage (some r)) = .ok "" := by
    rw [hF.lineage_eq_cons hr]
    exact indentation_self F r _
  obtain ⟨es, hes, htext⟩ :=
    hF.exists_entries hb (hbelow.trans (List.nil_append _).symm) covers_refl hindent
  refine ⟨(F.describe r ++ "\n") :: es, ?_⟩
  constructor
  case walk =>
    have hself := hst.descendantsAndSelf_eq rfl (Stand.handles_single r b ▸ hnd)
    rw [Stand.handles_single] at hself
    exact ⟨hself, hnd⟩
  case entries =>
    rw [List.mapM_cons, htop, hes]
    rfl
  case rendering =>
    refine ⟨_, htree, ?_⟩
    rw [TextTree.render, htext, String.join_cons]
  case recursion =>
    intro n
    rw [htree]
    exact textTreeFrom_of_bears hst (Nat.le_add_right _ n)

end WellFormed
end Forest

theorem rendered_from {C : Type} [Content C] {F : Forest C} (hF : F.WellFormed) {r : Handle}
    (hr : F.contains r = true) : ∃ ds es, F.Rendered r ds es := by
  obtain ⟨b, hb, htops⟩ := hF.exists_bears hr
  obtain ⟨es, hes⟩ := hF.rendered_of_bears (.node hr hb htops)
  exact ⟨_, es, hes⟩

def Session.espalier : Session Label := (Session.fresh Label {}).after
  [.create ⟨.block, "a"⟩, .create ⟨.block, "b"⟩, .create ⟨.block, "c"⟩, .create ⟨.leaf, "d"⟩,
    .create ⟨.leaf, "e"⟩, .create ⟨.block, "f"⟩, .create ⟨.leaf, "g"⟩, .create ⟨.leaf, "h"⟩,
    .addChildren ⟨2, 0⟩ [⟨3, 0⟩], .addChildren ⟨1, 0⟩ [⟨2, 0⟩, ⟨4, 0⟩],
    .addChildren ⟨5, 0⟩ [⟨6, 0⟩], .addChildren ⟨0, 0⟩ [⟨1, 0⟩, ⟨5, 0⟩]]

theorem rendered_espalier :
    Session.espalier.forest.WellFormed ∧ Session.espalier.forest.contains ⟨0, 0⟩ = true ∧
      Session.espalier.forest.Rendered ⟨0, 0⟩
        [⟨0, 0⟩, ⟨1, 0⟩, ⟨2, 0⟩, ⟨3, 0⟩, ⟨4, 0⟩, ⟨5, 0⟩, ⟨6, 0⟩]
        ["Block: a\n", "├── Block: b\n", "│   ├── Block: c\n", "│   │   └── Leaf: d\n",
          "│   └── Leaf: e\n", "└── Block: f\n", "    └── Leaf: g\n"] := by
  have hF : Session.espalier.forest.WellFormed :=
    Session.wellFormed_after (Forest.wellFormed_empty {}) _
  have hr : Session.espalier.forest.contains ⟨0, 0⟩ = true := rfl
  obtain ⟨ds, es, hrendered⟩ := rendered_from hF hr
  obtain rfl := Except.ok.inj (hrendered.walk.1.symm.trans rfl)
  obtain rfl := Except.ok.inj (hrendered.entries.symm.trans rfl)
  exact ⟨hF, hr, hrendered⟩

end Grove
