import Grove.Proofs.Exchange
import Grove.Proofs.Store.Layout

/-!
# Exchanges of places

Two nodes trade places and leave what is above and below them behind. Unlike an exchange of subtrees
this works for any two nodes, for a parent and its child as well as for two roots. Only the two nodes
and those with a link to one of them are collected and written, which are exactly the nodes whose links
the renaming of the two changes, or moves to another handle. Every collected node is written once, under
a handle of its own, so the writes can be made in any order.
-/

namespace Grove
set_option autoImplicit false

theorem nodup_eraseDups (l : List Handle) : l.eraseDups.Nodup := by
  cases l with
  | nil => simp
  | cons h l =>
    rw [List.eraseDups_cons, List.nodup_cons]
    exact ⟨by simp [List.mem_eraseDups], nodup_eraseDups _⟩
termination_by l.length
decreasing_by exact Nat.lt_succ_of_le (List.length_filter_le _ _)

namespace Forest
variable {C : Type} {F G : Forest C} {a b h k : Handle} {r : Handle → Handle}

def Mentions (F : Forest C) (a h : Handle) : Prop := h = a ∨ F.above? h = some a ∨ a ∈ F.below h

theorem WellFormed.affectedBySwap (hF : F.WellFormed) (ha : F.contains a = true)
    (hb : F.contains b = true) :
    ∃ hs, F.affectedBySwap a b = .ok hs ∧ hs.Nodup ∧
      ∀ h, h ∈ hs ↔ F.Mentions a h ∨ F.Mentions b h := by
  obtain ⟨hs, haffected, hmem⟩ := EditM.affectedBySwap_of_contains ha hb
  obtain ⟨m, hm⟩ := contains_iff.mp ha
  obtain ⟨n, hn⟩ := contains_iff.mp hb
  have hnodup : hs.Nodup := by
    simp only [Forest.affectedBySwap, node_of_get? hm, node_of_get? hn] at haffected
    cases haffected
    exact nodup_eraseDups _
  refine ⟨hs, haffected, hnodup, fun h => ?_⟩
  -- a link down to one of the two is its link up, and the other way
  have hup : ∀ {c}, F.above? c = some h ↔ c ∈ F.below h := hF.above?_eq_some_iff
  have hdown : ∀ {p}, h ∈ F.below p ↔ F.above? h = some p := hF.above?_eq_some_iff.symm
  rw [hmem, hup, hup, hdown, hdown, Mentions, Mentions]
  tauto

def writeLinks (F : Forest C) (l : Handle × Option Handle × List Handle) : Forest C :=
  F.update l.1 fun n => { n with parent := l.2.1, children := l.2.2 }

theorem writeLinks_comm (F : Forest C) {l m : Handle × Option Handle × List Handle}
    (hne : l.1 ≠ m.1) : (F.writeLinks l).writeLinks m = (F.writeLinks m).writeLinks l := by
  simp only [writeLinks, update, Store.modify_comm F.nodes hne]

/-- The renamed links can be written in any order. -/
theorem foldl_writeLinks_perm (hr : ∀ h, r (r h) = h) {hs : List Handle}
    {links : List (Handle × Option Handle × List Handle)}
    (hperm : links.Perm (hs.map (EditM.linksUnder F r))) (G : Forest C) :
    links.foldl writeLinks G = (hs.map (EditM.linksUnder F r)).foldl writeLinks G := by
  refine (hperm.symm.foldl_eq' (fun l hl m hm E => ?_) G).symm
  obtain ⟨h, -, rfl⟩ := List.mem_map.mp hl
  obtain ⟨k, -, rfl⟩ := List.mem_map.mp hm
  by_cases hhk : h = k
  · rw [hhk]
  · refine writeLinks_comm E fun he => hhk ?_
    rw [← hr h, ← hr k]
    exact congrArg r he

end Forest

namespace EditM
variable {C : Type} {s : Session C} {a b : Handle}

def writeLinks (links : List (Handle × Option Handle × List Handle)) : EditM C Unit :=
  links.forM fun (h, parent, children) => updateNode h fun n => { n with parent, children }

theorem writeLinks_of_contains {links : List (Handle × Option Handle × List Handle)}
    (hlive : ∀ l ∈ links, s.forest.contains l.1 = true) :
    writeLinks links s = .ok () (s.withForest (links.foldl Forest.writeLinks s.forest)) := by
  induction links generalizing s with
  | nil => rfl
  | cons l links ih =>
    have hwrite := updateNode_of_contains (s := s)
      (fun n => { n with parent := l.2.1, children := l.2.2 }) (hlive l List.mem_cons_self)
    refine (bind_of_ok _ hwrite).trans (ih fun m hm => ?_)
    simpa using hlive m (List.mem_cons_of_mem l hm)

theorem swapPositions_of_links {hs : List Handle}
    {links : List (Handle × Option Handle × List Handle)}
    (haffected : s.forest.affectedBySwap a b = .ok hs)
    (hlinks : hs.mapM (s.forest.renamedLinks (Handle.exchange a b)) = .ok links) :
    swapPositions a b s = writeLinks links s := by
  simp only [swapPositions]
  rw [bind_of_ok _ (query_of_ok haffected), bind_of_ok _ (query_of_ok hlinks)]
  rfl

variable [ShallowCopy C]

structure SwapsPlaces (s : Session C) (a b : Handle) (t : Session C) : Prop where
  run : swap a b false s = .ok true t
  /-- the links of every node have been renamed, and hang at its renamed handle -/
  renamed : s.forest.Renamed t.forest (Handle.exchange a b)
  contains_eq : ∀ k, t.forest.contains k = s.forest.contains k
  wellFormed : t.forest.WellFormed
  notices : t.notices = s.notices
  /-- the links are collected from the nodes that mention one of the two, with one entry for each
  handle, and written in any order they give the same session -/
  collected : ∃ hs links, s.forest.affectedBySwap a b = .ok hs ∧ hs.Nodup ∧
    (∀ h, h ∈ hs ↔ s.forest.Mentions a h ∨ s.forest.Mentions b h) ∧
    hs.mapM (s.forest.renamedLinks (Handle.exchange a b)) = .ok links ∧
    (links.map Prod.fst).Nodup ∧
    ∀ links', links'.Perm links → writeLinks links' s = .ok () t

theorem swap_of_swapPositions {t : Session C} (hne : a ≠ b)
    (hrun : swapPositions a b s = .ok () t) : swap a b false s = .ok true t := by
  simp only [swap, if_neg hne]
  exact bind_of_ok _ hrun

theorem exists_swapsPlaces (hF : s.forest.WellFormed) (ha : s.forest.contains a = true)
    (hb : s.forest.contains b = true) (hne : a ≠ b) : ∃ t, SwapsPlaces s a b t := by
  have hexchange := Handle.exchange_exchange a b
  obtain ⟨hs, haffected, hnodup, hmem⟩ := hF.affectedBySwap ha hb
  obtain ⟨G, hrun, hG⟩ := swapPositions_of_contains hF ha hb
  have hlive : ∀ h ∈ hs, s.forest.contains h = true := by
    intro h hh
    rcases (hmem h).mp hh with (rfl | hp | hc) | rfl | hp | hc
    · exact ha
    · exact Forest.contains_of_above? hp
    · exact Forest.contains_of_mem_below hc
    · exact hb
    · exact Forest.contains_of_above? hp
    · exact Forest.contains_of_mem_below hc
  have hlinks := mapM_ok (f := s.forest.renamedLinks (Handle.exchange a b)) fun h hh =>
    renamedLinks_of_contains (hlive h hh)
  obtain ⟨hrenamed, -⟩ := swapPositions_of_affected haffected
    ((hmem a).mpr (Or.inl (Or.inl rfl))) ((hmem b).mpr (Or.inr (Or.inl rfl))) hlive
  -- all orders of the links give what the collected order gives
  have hwrite : ∀ links', links'.Perm (hs.map (linksUnder s.forest (Handle.exchange a b))) →
      writeLinks links' s = .ok () (s.withForest G) := by
    intro links' hperm
    have hlive' : ∀ l ∈ links', s.forest.contains l.1 = true := by
      intro l hl
      obtain ⟨h, hh, rfl⟩ := List.mem_map.mp (hperm.mem_iff.mp hl)
      exact hrenamed h hh
    have hlive'' : ∀ l ∈ hs.map (linksUnder s.forest (Handle.exchange a b)),
        s.forest.contains l.1 = true := fun l hl => hlive' l (hperm.mem_iff.mpr hl)
    rw [writeLinks_of_contains hlive', Forest.foldl_writeLinks_perm hexchange hperm,
      ← writeLinks_of_contains hlive'', ← swapPositions_of_links haffected hlinks, hrun]
  have hkeys : ((hs.map (linksUnder s.forest (Handle.exchange a b))).map Prod.fst).Nodup := by
    rw [List.map_map]
    exact hnodup.map (Function.LeftInverse.injective (g := Handle.exchange a b) hexchange)
  exact ⟨s.withForest G, swap_of_swapPositions hne hrun, hG,
    fun k => Forest.contains_eq_of_contentOf?_eq (hG.contentOf?_eq k),
    hF.rename hexchange hG.above?_eq hG.below_eq, rfl,
    hs, _, haffected, hnodup, hmem, hlinks, hkeys, hwrite⟩

end EditM

theorem swaps_places {C : Type} [ShallowCopy C] {s : Session C} (hF : s.forest.WellFormed)
    {a b : Handle} (ha : s.forest.contains a = true) (hb : s.forest.contains b = true)
    (hne : a ≠ b) : ∃ t, EditM.SwapsPlaces s a b t :=
  EditM.exists_swapsPlaces hF ha hb hne

def Session.offspring : Session Label := (Session.fresh Label {}).after
  [.create ⟨.block, "a"⟩, .create ⟨.block, "b"⟩, .create ⟨.leaf, "c"⟩, .create ⟨.leaf, "d"⟩,
    .addChild ⟨0, 0⟩ ⟨1, 0⟩, .addChild ⟨0, 0⟩ ⟨2, 0⟩, .addChild ⟨1, 0⟩ ⟨3, 0⟩]

theorem swaps_offspring :
    Session.offspring.forest.above? ⟨1, 0⟩ = some ⟨0, 0⟩ ∧
    (∃ t, EditM.SwapsPlaces Session.offspring ⟨0, 0⟩ ⟨1, 0⟩ t) ∧
    ∃ t, EditM.SwapsPlaces Session.offspring ⟨1, 0⟩ ⟨2, 0⟩ t := by
  have hF : Session.offspring.forest.WellFormed :=
    Session.wellFormed_after (Forest.wellFormed_empty {}) _
  exact ⟨rfl, swaps_places hF rfl rfl (by decide), swaps_places hF rfl rfl (by decide)⟩

end Grove
