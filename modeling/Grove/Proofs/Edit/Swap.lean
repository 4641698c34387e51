import Grove.Proofs.Edit.Insert

/-!
# Swaps of two nodes

The exchange of two nodes writes the renamed links of the two nodes and of all nodes that have a link
to one of them. These are all links that the renaming changes, so the forest as a whole has been
renamed.
-/

namespace Grove
set_option autoImplicit false

namespace Forest
variable {C : Type} {F G : Forest C} {a b h k : Handle} {r : Handle → Handle}

/-- `G` has the links of `F` with all handles renamed, and the contents where they were. -/
structure Renamed (F G : Forest C) (r : Handle → Handle) : Prop where
  above?_eq : ∀ h, G.above? (r h) = (F.above? h).map r
  below_eq : ∀ h, G.below (r h) = (F.below h).map r
  contentOf?_eq : ∀ h, G.contentOf? h = F.contentOf? h
  settings : G.settings = F.settings

/-- Gives the handle `r h` the renamed links that `h` has in `F`. -/
def writeRenamed (F : Forest C) (r : Handle → Handle) (G : Forest C) (h : Handle) : Forest C :=
  G.update (r h) fun n =>
    { n with parent := (F.above? h).map r, children := (F.below h).map r }

/-- In which order the links are written, and how often, makes no difference. -/
theorem get?_foldl_writeRenamed (hr : ∀ h, r (r h) = h) (hs : List Handle) (k : Handle) :
    (hs.foldl (F.writeRenamed r) G).get? k =
      if r k ∈ hs then
        (G.get? k).map fun n =>
          { n with parent := (F.above? (r k)).map r, children := (F.below (r k)).map r }
      else G.get? k := by
  induction hs generalizing G with
  | nil => rfl
  | cons h hs ih =>
    have hkey : k = r h ↔ r k = h := by
      constructor
      · rintro rfl
        exact hr h
      · rintro rfl
        exact (hr k).symm
    rw [List.foldl_cons, ih, writeRenamed, get?_update]
    by_cases hk : k = r h
    · obtain rfl := hkey.mp hk
      rw [if_pos hk, if_pos List.mem_cons_self, ← hk]
      split
      · cases G.get? k <;> rfl
      · rfl
    · have hrk : r k ≠ h := fun he => hk (hkey.mpr he)
      simp [hk, hrk]

theorem above?_foldl_writeRenamed (hr : ∀ h, r (r h) = h) {hs : List Handle}
    (hlive : ∀ h ∈ hs, G.contains (r h) = true) (k : Handle) :
    (hs.foldl (F.writeRenamed r) G).above? k =
      if r k ∈ hs then (F.above? (r k)).map r else G.above? k := by
  rw [above?, get?_foldl_writeRenamed hr]
  split
  · rename_i hk
    obtain ⟨n, hn⟩ := contains_iff.mp (hlive _ hk)
    rw [hr] at hn
    rw [hn]
    rfl
  · rfl

theorem below_foldl_writeRenamed (hr : ∀ h, r (r h) = h) {hs : List Handle}
    (hlive : ∀ h ∈ hs, G.contains (r h) = true) (k : Handle) :
    (hs.foldl (F.writeRenamed r) G).below k =
      if r k ∈ hs then (F.below (r k)).map r else G.below k := by
  rw [below, get?_foldl_writeRenamed hr]
  split
  · rename_i hk
    obtain ⟨n, hn⟩ := contains_iff.mp (hlive _ hk)
    rw [hr] at hn
    rw [hn]
    rfl
  · rfl

theorem contentOf?_foldl_writeRenamed (hr : ∀ h, r (r h) = h) (hs : List Handle) (k : Handle) :
    (hs.foldl (F.writeRenamed r) G).contentOf? k = G.contentOf? k := by
  rw [contentOf?, get?_foldl_writeRenamed hr, contentOf?]
  split
  · cases G.get? k <;> rfl
  · rfl

theorem settings_foldl_writeRenamed (hs : List Handle) :
    (hs.foldl (F.writeRenamed r) G).settings = G.settings := by
  induction hs generalizing G with
  | nil => rfl
  | cons h hs ih => exact ih

/-- Writing the renamed links of all nodes that the renaming touches renames the forest. -/
theorem renamed_foldl_writeRenamed (hr : ∀ h, r (r h) = h) {hs : List Handle}
    (hlive : ∀ h ∈ hs, F.contains (r h) = true)
    (hrest : ∀ h, h ∉ hs → r h = h ∧ (F.above? h).map r = F.above? h ∧
      (F.below h).map r = F.below h) :
    F.Renamed (hs.foldl (F.writeRenamed r) F) r where
  above?_eq h := by
    rw [above?_foldl_writeRenamed hr hlive, hr]
    split
    · rfl
    · rename_i hh
      obtain ⟨hrh, ha, -⟩ := hrest h hh
      rw [hrh, ha]
  below_eq h := by
    rw [below_foldl_writeRenamed hr hlive, hr]
    split
    · rfl
    · rename_i hh
      obtain ⟨hrh, -, hb⟩ := hrest h hh
      rw [hrh, hb]
  contentOf?_eq := contentOf?_foldl_writeRenamed hr hs
  settings := settings_foldl_writeRenamed hs

end Forest

namespace EditM
variable {C : Type} {s : Session C} {a b h : Handle} {r : Handle → Handle}

/-- The links of a node as they are written under its renamed handle. -/
def linksUnder (F : Forest C) (r : Handle → Handle) (h : Handle) :
    Handle × Option Handle × List Handle :=
  (r h, (F.above? h).map r, (F.below h).map r)

theorem renamedLinks_of_contains {F : Forest C} (hh : F.contains h = true) :
    F.renamedLinks r h = .ok (linksUnder F r h) := by
  obtain ⟨n, hn⟩ := Forest.contains_iff.mp hh
  simp only [Forest.renamedLinks, Forest.node_of_get? hn, linksUnder, Forest.above?_of_get? hn,
    Forest.below_of_get? hn]
  rfl

theorem writeLinks_run (F : Forest C) (hs : List Handle)
    (hlive : ∀ h ∈ hs, s.forest.contains (r h) = true) :
    ((hs.map (linksUnder F r)).forM fun (h, parent, children) =>
      updateNode h fun n => { n with parent, children }) s =
        .ok () (s.withForest (hs.foldl (F.writeRenamed r) s.forest)) := by
  induction hs generalizing s with
  | nil => rfl
  | cons h hs ih =>
    have hwrite := updateNode_of_contains (s := s)
      (fun n => { n with parent := (F.above? h).map r, children := (F.below h).map r })
      (hlive h List.mem_cons_self)
    refine (bind_of_ok _ hwrite).trans (ih fun k hk => ?_)
    simpa using hlive k (List.mem_cons_of_mem h hk)

theorem affectedBySwap_of_contains {F : Forest C} (ha : F.contains a = true)
    (hb : F.contains b = true) :
    ∃ hs, F.affectedBySwap a b = .ok hs ∧
      ∀ h, h ∈ hs ↔ (h = a ∨ h = b) ∨ (F.above? a = some h ∨ h ∈ F.below a) ∨
        F.above? b = some h ∨ h ∈ F.below b := by
  obtain ⟨m, hm⟩ := Forest.contains_iff.mp ha
  obtain ⟨n, hn⟩ := Forest.contains_iff.mp hb
  refine ⟨_, by simp only [Forest.affectedBySwap, Forest.node_of_get? hm, Forest.node_of_get? hn]; rfl,
    fun h => ?_⟩
  rw [Forest.above?_of_get? hm, Forest.above?_of_get? hn, Forest.below_of_get? hm,
    Forest.below_of_get? hn]
  simp [List.mem_eraseDups, or_assoc]

/-- What the exchange writes once it has found that all affected nodes are there. -/
theorem swapPositions_of_affected [ShallowCopy C] {hs : List Handle}
    (haffected : s.forest.affectedBySwap a b = .ok hs) (ha : a ∈ hs) (hb : b ∈ hs)
    (hlive : ∀ h ∈ hs, s.forest.contains h = true) :
    (∀ h ∈ hs, s.forest.contains (Handle.exchange a b h) = true) ∧
      swapPositions a b s = .ok () (s.withForest
        (hs.foldl (s.forest.writeRenamed (Handle.exchange a b)) s.forest)) := by
  have hrenamed : ∀ h ∈ hs, s.forest.contains (Handle.exchange a b h) = true := by
    intro h hh
    unfold Handle.exchange
    split
    · exact hlive b hb
    · split
      · exact hlive a ha
      · exact hlive h hh
  have hlinks := mapM_ok (f := s.forest.renamedLinks (Handle.exchange a b)) fun h hh =>
    renamedLinks_of_contains (hlive h hh)
  refine ⟨hrenamed, ?_⟩
  simp only [swapPositions]
  rw [bind_of_ok _ (query_of_ok haffected), bind_of_ok _ (query_of_ok hlinks)]
  exact writeLinks_run s.forest hs hrenamed

/-- The links of a node that has none to one of the two stay as they are. -/
theorem map_exchange_links {F : Forest C} (hF : F.WellFormed) (hna : h ≠ a) (hnb : h ≠ b)
    (ha : F.above? a ≠ some h ∧ h ∉ F.below a) (hb : F.above? b ≠ some h ∧ h ∉ F.below b) :
    (F.above? h).map (Handle.exchange a b) = F.above? h ∧
      (F.below h).map (Handle.exchange a b) = F.below h := by
  constructor
  · cases hp : F.above? h with
    | none => rfl
    | some p =>
      have hh := hF.above?_eq_some_iff.mp hp
      have hpa : p ≠ a := fun he => ha.2 (by rwa [he] at hh)
      have hpb : p ≠ b := fun he => hb.2 (by rwa [he] at hh)
      rw [Option.map_some, Handle.exchange_of_ne hpa hpb]
  · refine (List.map_congr_left fun c hc => Handle.exchange_of_ne ?_ ?_).trans (List.map_id _)
    · rintro rfl
      exact ha.1 (hF.above?_eq_some_iff.mpr hc)
    · rintro rfl
      exact hb.1 (hF.above?_eq_some_iff.mpr hc)

/-- The exchange of two nodes renames them into each other in all links. -/
theorem swapPositions_of_contains [ShallowCopy C] (hF : s.forest.WellFormed)
    (ha : s.forest.contains a = true) (hb : s.forest.contains b = true) :
    ∃ G, swapPositions a b s = .ok () (s.withForest G) ∧
      s.forest.Renamed G (Handle.exchange a b) := by
  obtain ⟨hs, haffected, hmem⟩ := affectedBySwap_of_contains ha hb
  have hlive : ∀ h ∈ hs, s.forest.contains h = true := by
    intro h hh
    rcases (hmem h).mp hh with (rfl | rfl) | (hp | hc) | hp | hc
    · exact ha
    · exact hb
    · exact hF.contains_of_above? hp
    · exact hF.contains_of_mem_below hc
    · exact hF.contains_of_above? hp
    · exact hF.contains_of_mem_below hc
  obtain ⟨hrenamed, hrun⟩ := swapPositions_of_affected haffected
    ((hmem a).mpr (Or.inl (Or.inl rfl))) ((hmem b).mpr (Or.inl (Or.inr rfl))) hlive
  refine ⟨_, hrun, Forest.renamed_foldl_writeRenamed (Handle.exchange_exchange a b) hrenamed ?_⟩
  intro h hh
  simp only [hmem, not_or] at hh
  obtain ⟨⟨hna, hnb⟩, hlinka, hlinkb⟩ := hh
  exact ⟨Handle.exchange_of_ne hna hnb, map_exchange_links hF hna hnb hlinka hlinkb⟩

theorem swapPositions_of_not_contains [ShallowCopy C]
    (hab : s.forest.contains a = false ∨ s.forest.contains b = false) :
    ∃ e, swapPositions a b s = .error e s := by
  have haffected : ∃ e, s.forest.affectedBySwap a b = .error e := by
    cases ha : s.forest.contains a with
    | false => exact ⟨.invalidHandle a, by
        simp only [Forest.affectedBySwap, Forest.node_of_not_contains ha]; rfl⟩
    | true =>
      obtain ⟨n, hn⟩ := Forest.contains_iff.mp ha
      have hb := hab.resolve_left (by simp [ha])
      exact ⟨.invalidHandle b, by
        simp only [Forest.affectedBySwap, Forest.node_of_get? hn, Forest.node_of_not_contains hb]
        rfl⟩
  obtain ⟨e, he⟩ := haffected
  have hq := query_of_error (q := fun F => F.affectedBySwap a b) he
  exact ⟨e, by simp only [swapPositions, bind_of_error _ hq]⟩

theorem swapPositions_outcome [ShallowCopy C] (hF : s.forest.WellFormed) (a b : Handle) :
    (∃ G, swapPositions a b s = .ok () (s.withForest G) ∧
        s.forest.Renamed G (Handle.exchange a b)) ∨
      ∃ e, swapPositions a b s = .error e s := by
  by_cases hab : s.forest.contains a = true ∧ s.forest.contains b = true
  · exact Or.inl (swapPositions_of_contains hF hab.1 hab.2)
  · refine Or.inr (swapPositions_of_not_contains ?_)
    simpa [imp_iff_not_or] using hab

theorem swapPositions_keepsWellFormed [ShallowCopy C] (a b : Handle) :
    Follows KeepsWellFormed (swapPositions (C := C) a b) := by
  intro s hF
  rcases swapPositions_outcome hF a b with ⟨G, hrun, hG⟩ | ⟨e, hrun⟩
  · rw [final_of_ok hrun]
    exact hF.rename (Handle.exchange_exchange a b) hG.above?_eq hG.below_eq
  · rwa [final_of_error hrun]

theorem editLaw_keepsWellFormed [ShallowCopy C] [SafeCopy C] :
    EditLaw (C := C) KeepsWellFormed where
  toLinkLaw := linkLaw_keepsWellFormed
  insertChild := insertChild_keepsWellFormed
  setChild := setChild_keepsWellFormed
  swapPositions := swapPositions_keepsWellFormed

end EditM
end Grove
