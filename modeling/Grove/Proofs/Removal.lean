import Grove.Proofs.Cursor.Collapse

/-!
# Removals of children

Children are taken away one by one, and the list gets shorter meanwhile: all of them from its head, a
range of them from its end back to its start, and those of a kind with a place in the list that goes on
only past a child that stays. A cursor that passes the children and removes those of a kind is at these
places too. Of whichever children are taken away nothing else is changed.
-/

namespace Grove
set_option autoImplicit false

namespace Forest
variable {C : Type} {F G : Forest C} {h k p : Handle} {cs l : List Handle} {i j : Nat}

/-- `G` is `F` with the children `cs` of `p` taken away, of which `l` are left. -/
structure Thinned (F G : Forest C) (p : Handle) (cs l : List Handle) : Prop where
  wellFormed : G.WellFormed
  children : G.below p = l
  released : ∀ k ∈ cs, F.Released G k
  above?_eq : ∀ k, k ∉ cs → G.above? k = F.above? k
  below_eq : ∀ k, k ≠ p → G.below k = F.below k
  contentOf?_eq : ∀ k, G.contentOf? k = F.contentOf? k
  settings : G.settings = F.settings

theorem Shed.thinned (hG : F.Shed G cs) (hF : F.WellFormed) (hcs : ∀ c ∈ cs, c ∈ F.below p)
    (hl : (F.below p).filter (fun c => c ∉ cs) = l) : F.Thinned G p cs l := by
  have hrelisted := hG.relisted hF hcs
  refine ⟨hG.wellFormed hF, ?_, ?_, ?_, ?_, hG.contentOf?_eq, hG.settings⟩
  · rw [hrelisted.children, hl]
  · intro k hk
    apply hrelisted.released hF (hcs k hk)
    · simp [hk]
    · intro h hh
      exact Or.inl (List.mem_of_mem_filter hh)
  · intro k hk
    rw [hG.above?_eq, if_neg hk]
  · intro k hk
    exact hG.below_of_ne hF hcs hk

/-- Without the first of the children that are still to be looked at, the others come right after those
that have stayed. -/
theorem WellFormed.below_cut_of_split (hF : F.WellFormed) (hsplit : F.below p = cs ++ h :: l) :
    (F.cut h).below p = cs ++ l := by
  have hnd := hF.nodup_below p
  rw [hsplit, List.nodup_append] at hnd
  have hnot : h ∉ cs := by
    intro hm
    exact hnd.2.2 h hm h List.mem_cons_self rfl
  rw [hF.below_cut, hsplit, List.erase_append_right _ hnot, List.erase_cons_head]

theorem filter_not_mem_self (l : List Handle) : l.filter (fun c => c ∉ l) = [] := by
  apply List.filter_eq_nil_iff.mpr
  intro c hc
  simpa using hc

theorem filter_not_mem_filter (l : List Handle) (P : Handle → Bool) :
    l.filter (fun c => c ∉ l.filter P) = l.filter fun c => !P c := by
  apply List.filter_congr
  intro c hc
  cases hP : P c <;> simp [hc, hP]

end Forest

namespace EditM
variable {C : Type} [Content C] {s : Session C} {h p : Handle} {k : Kind C} {i j : Nat}
  {l rest : List Handle}

theorem query_kind (hh : s.forest.contains h = true) :
    ∃ k', query (fun F => F.kind h) s = .ok k' s ∧
      ∀ k, s.forest.isKind k h = decide (k' = k) := by
  obtain ⟨n, hn⟩ := Forest.contains_iff.mp hh
  refine ⟨Content.kind n.content, query_of_ok ?_, ?_⟩
  · simp only [Forest.kind, Forest.node_of_get? hn]
    rfl
  · intro k
    simp only [Forest.isKind, hn]

theorem removeOfKindFrom_run (k : Kind C) (hF : s.forest.WellFormed)
    (hsplit : s.forest.below p = l ++ rest) :
    ∃ G, removeOfKindFrom p k l.length rest s =
        .ok (rest.filter (s.forest.isKind k)) (s.withForest G) ∧
      s.forest.Shed G (rest.filter (s.forest.isKind k)) := by
  induction rest generalizing s l with
  | nil => exact ⟨s.forest, rfl, .refl _⟩
  | cons h rest ih =>
    have hi : (s.forest.below p)[l.length]? = some h := by simp [hsplit]
    obtain ⟨k', hquery, hkind⟩ := query_kind (hF.contains_of_mem_below (List.mem_of_getElem? hi))
    by_cases hk : k' = k
    · -- the place stays where it is, and the next child has come there
      have hremove := removeChild_of_getElem? hF hi
      obtain ⟨G, hrun, hG⟩ := ih (s := s.withForest (s.forest.cut h)) (hF.cut h)
        (hF.below_cut_of_split hsplit)
      have hsame : (s.forest.cut h).isKind k = s.forest.isKind k := by
        funext c
        exact Forest.isKind_congr (Forest.contentOf?_cut s.forest h c) k
      rw [Session.forest_withForest, hsame] at hrun hG
      rw [List.filter_cons_of_pos (by simp [hkind, hk])]
      refine ⟨G, ?_, (hF.shed_cut h).trans hG⟩
      simp only [removeOfKindFrom, bind_of_ok _ hquery, if_pos hk, bind_of_ok _ hremove,
        bind_of_ok _ hrun]
      rfl
    · obtain ⟨G, hrun, hG⟩ := ih (l := l ++ [h]) hF (by simp [hsplit])
      rw [List.length_append, List.length_singleton] at hrun
      rw [List.filter_cons_of_neg (by simp [hkind, hk])]
      refine ⟨G, ?_, hG⟩
      simp only [removeOfKindFrom, bind_of_ok _ hquery, if_neg hk, hrun]

theorem removeChildrenOfKind_run (k : Kind C) (hF : s.forest.WellFormed)
    (hp : s.forest.contains p = true) :
    ∃ G, removeChildrenOfKind p k s =
        .ok ((s.forest.below p).filter (s.forest.isKind k)) (s.withForest G) ∧
      s.forest.Shed G ((s.forest.below p).filter (s.forest.isKind k)) := by
  have hrun := removeOfKindFrom_run (p := p) (l := []) k hF (List.nil_append _).symm
  simpa only [removeChildrenOfKind, bind_of_ok _ (query_children hp), List.length_nil] using hrun

theorem removeChildrenRange_of_le (hp : s.forest.contains p = true) (hij : i ≤ j)
    (hj : j ≤ (s.forest.below p).length) :
    removeChildrenRange p i j s = removeSlice p i (j - i) s := by
  simp only [removeChildrenRange, bind_of_ok _ (query_numChildren hp), if_neg (Nat.not_lt.mpr hij),
    if_neg (Nat.not_lt.mpr hj)]

theorem removeChildrenRange_of_outside (hp : s.forest.contains p = true)
    (hij : j < i ∨ (s.forest.below p).length < j) :
    removeChildrenRange p i j s = .error (.indexOutOfBounds (s.forest.describe p)
      (if j < i then i else j) (s.forest.below p).length) s := by
  rw [← Forest.indexError_of_contains hp]
  by_cases hlt : j < i
  · simp only [removeChildrenRange, bind_of_ok _ (query_numChildren hp), if_pos hlt]
    rfl
  · simp only [removeChildrenRange, bind_of_ok _ (query_numChildren hp), if_neg hlt,
      if_pos (hij.resolve_left hlt)]
    rfl

end EditM

/-! ## With a cursor -/

namespace CursorM
variable {C : Type} [ShallowCopy C] {c : Cursor C} {n : Nat} {l rest : List Handle}

/-- Passes the children from the cursor on, in at most `n` steps, and removes those of a kind. -/
def removeOfKind (k : Kind C) : Nat → CursorM C (List Handle)
  | 0 => throw .endlessWalk
  | n + 1 => do
    match ← modifyGet Cursor.next with
    | none => return []
    | some child =>
      if (← edit (EditM.query fun F => F.kind child)) = k then
        let removed ← remove
        return removed :: (← removeOfKind k n)
      else
        removeOfKind k n

/-- A cursor that removes the children of a kind is always at the place where the next of them is looked
for in the list. -/
theorem removeOfKind_run (k : Kind C) (hF : c.session.forest.WellFormed)
    (hsplit : c.children = l ++ rest) (hposition : c.position = l.length)
    (hn : rest.length < n) :
    ∃ cs d, removeOfKind k n c = .ok cs d ∧
      EditM.removeOfKindFrom c.parent k l.length rest c.session = .ok cs d.session := by
  induction rest generalizing c l n with
  | nil =>
    obtain ⟨n, rfl⟩ : ∃ m, n = m + 1 := ⟨n - 1, by omega⟩
    have hnext : c.next = (none, c) := Cursor.next_of_eq (by simp [hsplit, hposition])
    have hpass : (modifyGet Cursor.next : CursorM C (Option Handle)) c = .ok none c :=
      congrArg (fun r : Option Handle × Cursor C => EStateM.Result.ok r.1 r.2) hnext
    refine ⟨[], c, ?_, rfl⟩
    simp only [removeOfKind, bind_of_ok _ hpass]
    rfl
  | cons h rest ih =>
    obtain ⟨n, rfl⟩ : ∃ m, n = m + 1 := ⟨n - 1, by omega⟩
    rw [List.length_cons] at hn
    have hi : c.children[c.position]? = some h := by simp [hsplit, hposition]
    have hpass : (modifyGet Cursor.next : CursorM C (Option Handle)) c =
        .ok (some h) { c with position := c.position + 1, last := some c.position } := by
      refine congrArg (fun r : Option Handle × Cursor C => EStateM.Result.ok r.1 r.2)
        (?_ : c.next = (some h, _))
      rw [Cursor.next, hi]
    obtain ⟨k', hquery, -⟩ :=
      EditM.query_kind (hF.contains_of_mem_below (List.mem_of_getElem? hi))
    have hedit : edit (EditM.query fun F => F.kind h)
        { c with position := c.position + 1, last := some c.position } =
          .ok k' { c with position := c.position + 1, last := some c.position } :=
      edit_of_ok hquery
    by_cases hk : k' = k
    · have hchild := EditM.removeChild_of_getElem? hF hi
      have hremove := remove_of_ok
        (c := { c with position := c.position + 1, last := some c.position }) rfl hchild
      rw [if_pos (Nat.lt_succ_self c.position), Nat.succ_sub_one] at hremove
      obtain ⟨cs, d, hrun, hfrom⟩ := ih
        (c := { c with session := c.session.withForest (c.session.forest.cut h), last := none })
        (hF.cut h) (hF.below_cut_of_split hsplit) hposition (by omega : rest.length < n)
      refine ⟨h :: cs, d, ?_, ?_⟩
      · simp only [removeOfKind, bind_of_ok _ hpass, bind_of_ok _ hedit, if_pos hk,
          bind_of_ok _ hremove, bind_of_ok _ hrun]
        rfl
      · rw [hposition] at hchild
        simp only [EditM.removeOfKindFrom, bind_of_ok _ hquery, if_pos hk, bind_of_ok _ hchild,
          bind_of_ok _ hfrom]
        rfl
    · obtain ⟨cs, d, hrun, hfrom⟩ := ih (l := l ++ [h])
        (c := { c with position := c.position + 1, last := some c.position })
        hF (hsplit.trans (by simp)) (by simp [hposition]) (by omega : rest.length < n)
      rw [List.length_append, List.length_singleton] at hfrom
      refine ⟨cs, d, ?_, ?_⟩
      · simp only [removeOfKind, bind_of_ok _ hpass, bind_of_ok _ hedit, if_neg hk, hrun]
      · simp only [EditM.removeOfKindFrom, bind_of_ok _ hquery, if_neg hk, hfrom]

end CursorM

/-! ## What is taken away, and what is left -/

namespace EditM
variable {C : Type} [ShallowCopy C] {s : Session C} {p : Handle}

structure RemovesChildren (s : Session C) (p : Handle) : Prop where
  all : ∃ G, removeChildren p s = .ok (s.forest.below p) (s.withForest G) ∧
    s.forest.Thinned G p (s.forest.below p) []
  range : ∀ i j, i ≤ j → j ≤ (s.forest.below p).length →
    ∃ G, removeChildrenRange p i j s =
        .ok (((s.forest.below p).drop i).take (j - i)) (s.withForest G) ∧
      s.forest.Thinned G p (((s.forest.below p).drop i).take (j - i))
        ((s.forest.below p).take i ++ (s.forest.below p).drop j)
  /-- any other bounds are refused, and nothing is changed -/
  refused : ∀ i j, j < i ∨ (s.forest.below p).length < j →
    removeChildrenRange p i j s = .error (.indexOutOfBounds (s.forest.describe p)
      (if j < i then i else j) (s.forest.below p).length) s
  ofKind : ∀ k, ∃ G, removeChildrenOfKind p k s =
        .ok ((s.forest.below p).filter (s.forest.isKind k)) (s.withForest G) ∧
      s.forest.Thinned G p ((s.forest.below p).filter (s.forest.isKind k))
        ((s.forest.below p).filter fun c => !s.forest.isKind k c)
  /-- a cursor that removes each child of the kind when it has passed it does the same -/
  cursor : ∀ k, ∃ c d cs, Cursor.start s p = .ok c ∧ c.session = s ∧
    CursorM.removeOfKind k ((s.forest.below p).length + 1) c = .ok cs d ∧
      removeChildrenOfKind p k s = .ok cs d.session

theorem removesChildren (hF : s.forest.WellFormed) (hp : s.forest.contains p = true) :
    RemovesChildren s p := by
  constructor
  case all =>
    obtain ⟨G, hrun, hG⟩ := removeChildren_run hF hp
    exact ⟨G, hrun, hG.thinned hF (fun c hc => hc) (Forest.filter_not_mem_self _)⟩
  case range =>
    intro i j hij hj
    obtain ⟨n, rfl⟩ := Nat.exists_eq_add_of_le hij
    rw [removeChildrenRange_of_le hp hij hj, Nat.add_sub_cancel_left]
    obtain ⟨G, hrun, hG⟩ := removeSlice_run hF hj
    refine ⟨G, hrun, hG.thinned hF (fun c hc => Forest.mem_of_mem_slice hc) ?_⟩
    exact Forest.filter_not_mem_slice (hF.nodup_below p) i n
  case refused =>
    intro i j hij
    exact removeChildrenRange_of_outside hp hij
  case ofKind =>
    intro k
    obtain ⟨G, hrun, hG⟩ := removeChildrenOfKind_run k hF hp
    refine ⟨G, hrun, hG.thinned hF (fun c hc => List.mem_of_mem_filter hc) ?_⟩
    exact Forest.filter_not_mem_filter _ _
  case cursor =>
    intro k
    obtain ⟨cs, d, hrun, hfrom⟩ := CursorM.removeOfKind_run
      (c := { session := s, parent := p }) (l := []) k hF rfl rfl (Nat.lt_succ_self _)
    refine ⟨_, d, cs, Cursor.start_of_contains hp, rfl, hrun, ?_⟩
    simp only [removeChildrenOfKind, bind_of_ok _ (query_children hp)]
    exact hfrom

end EditM

theorem removes_children (C : Type) [ShallowCopy C] (s : Session C) (hF : s.forest.WellFormed)
    (p : Handle) (hp : s.forest.contains p = true) : EditM.RemovesChildren s p :=
  EditM.removesChildren hF hp

def Session.border : Session Label := (Session.fresh Label {}).after
  [.create ⟨.block, "a"⟩, .create ⟨.leaf, "b"⟩, .create ⟨.leaf, "c"⟩, .create ⟨.block, "d"⟩,
    .create ⟨.leaf, "e"⟩, .create ⟨.leaf, "f"⟩, .addChild ⟨3, 0⟩ ⟨5, 0⟩,
    .addChildren ⟨0, 0⟩ [⟨1, 0⟩, ⟨2, 0⟩, ⟨3, 0⟩, ⟨4, 0⟩]]

/-- The leaves of the border are taken away, two of which stand side by side, or else the two children in
the middle; there is no fifth child. -/
theorem removes_children_border :
    Session.border.forest.WellFormed ∧
    (∃ G, EditM.removeChildrenOfKind ⟨0, 0⟩ LabelKind.leaf Session.border =
        .ok [⟨1, 0⟩, ⟨2, 0⟩, ⟨4, 0⟩] (Session.border.withForest G) ∧
      Session.border.forest.Thinned G ⟨0, 0⟩ [⟨1, 0⟩, ⟨2, 0⟩, ⟨4, 0⟩] [⟨3, 0⟩]) ∧
    (∃ G, EditM.removeChildrenRange ⟨0, 0⟩ 1 3 Session.border =
        .ok [⟨2, 0⟩, ⟨3, 0⟩] (Session.border.withForest G) ∧
      Session.border.forest.Thinned G ⟨0, 0⟩ [⟨2, 0⟩, ⟨3, 0⟩] [⟨1, 0⟩, ⟨4, 0⟩]) ∧
    EditM.removeChildrenRange ⟨0, 0⟩ 1 5 Session.border =
      .error (.indexOutOfBounds (Session.border.forest.describe ⟨0, 0⟩) 5 4) Session.border := by
  have hF : Session.border.forest.WellFormed :=
    Session.wellFormed_after (Forest.wellFormed_empty {}) _
  have hremoves := removes_children Label _ hF ⟨0, 0⟩ rfl
  refine ⟨hF, hremoves.ofKind LabelKind.leaf, hremoves.range 1 3 (by decide) (by decide), ?_⟩
  exact hremoves.refused 1 5 (Or.inr (by decide))

end Grove
