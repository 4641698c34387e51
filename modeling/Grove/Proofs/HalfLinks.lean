import Grove.Proofs.Edit.CopyWalk
import Grove.Proofs.Forest.Descent
import Grove.Proofs.Integrity

/-!
# Half links

A history may contain calls that write only one end of a link, and edits that fail on what such calls
have left behind. The forest need not be well-formed then, and the ways up are not to be relied on. The
children lists are: the forest stays branching. So every walk down comes to its end, within as many
steps as there are nodes below, and meets none of them twice.
-/

namespace Grove
set_option autoImplicit false

namespace Session
variable {C : Type} {s : Session C} {h : Handle} {ds : List Handle}

/-- What the walks down from a node find, with `ds` below it. The steps that a walk is allowed beyond
the number of those nodes make no difference to it. -/
structure Descends [Content C] (s : Session C) (h : Handle) (ds : List Handle) : Prop where
  nodup : (h :: ds).Nodup
  descendants : s.forest.descendants h = .ok ds ∧
    ∀ n, s.forest.preOrderFrom (ds.length + n) (s.forest.below h) = ds
  descendantsAndSelf : s.forest.descendantsAndSelf h = .ok (h :: ds)
  postOrder : ∃ hs, s.forest.postOrder h = .ok hs ∧ hs.Perm (h :: ds) ∧
    ∀ n, s.forest.postOrderFrom (2 * (h :: ds).length + n) [(h, false)] = hs
  matching : ∀ P prune, ∃ hs, s.forest.matchingDescendants h P prune = .ok hs ∧ hs.Sublist ds ∧
    ∀ n, s.forest.matchesFrom P prune (ds.length + n) (s.forest.below h) = hs
  height : ∃ k ≤ (h :: ds).length, s.forest.height h = .ok k ∧
    ∀ n, s.forest.heightFrom ((h :: ds).length + n) [(h, 1)] 0 = .ok k
  leaves : ∃ hs, s.forest.leaves h = .ok hs ∧ hs.Sublist (h :: ds)
  normalize : ∀ bypass, s.forest.normalize h bypass ≠ .error .endlessWalk ∧
    ∀ n, s.forest.normalizeFrom bypass ((h :: ds).length + n) h = s.forest.normalize h bypass
  textTree : ∃ tree, s.forest.textTree h = .ok tree ∧
    tree.texts = (h :: ds).map s.forest.describe ∧
    ∀ n, s.forest.textTreeFrom ((h :: ds).length + n) h = .ok tree
  dispose : s.forest.above? h = none →
    EditM.dispose h s = .ok (h :: ds).length (s.withForest (s.forest.uproot (h :: ds)))
  dispose_owned : ∀ p, s.forest.above? h = some p →
    EditM.dispose h s = .error (.alreadyOwned (s.forest.describe h) (s.forest.describe p)) s

/-- A copy of a node goes along the stand below it, with one shallow copy for each node. -/
structure CopiesDown [ShallowCopy C] (s : Session C) (h : Handle) (ds : List Handle) : Prop where
  along : ∃ st, s.forest.Bears st ∧ st.tops = s.forest.below h ∧ st.handles = ds ∧
    EditM.copy h s = EditM.copyAlong st h s
  ends : ∀ t, EditM.copy h s ≠ .error .endlessWalk t

end Session

namespace Forest
variable {C : Type} {F : Forest C} {h : Handle} {b : Stand} {n : Nat}

theorem preOrderFrom_of_bears (hb : F.Bears b) (n : Nat) :
    F.preOrderFrom (b.handles.length + n) b.tops = b.handles := by
  have hwalk := preOrderFrom_bears hb n []
  rwa [List.append_nil, preOrderFrom_nil, List.append_nil] at hwalk

theorem postOrderFrom_of_bears (hb : F.Bears (.tree h b .bare)) (n : Nat) :
    F.postOrderFrom (2 * (h :: b.handles).length + n) [(h, false)] = b.postHandles ++ [h] := by
  have hwalk := postOrderFrom_bears hb n []
  rw [List.append_nil, postOrderFrom_nil, List.append_nil] at hwalk
  simpa [Stand.handles, Stand.postHandles, Stand.tops] using hwalk

theorem heightFrom_of_bears (hb : F.Bears (.tree h b .bare)) (n : Nat) :
    F.heightFrom ((h :: b.handles).length + n) [(h, 1)] 0 = .ok (b.levels + 1) := by
  have hwalk := heightFrom_bears hb n 0 0 [] (Nat.le_refl 0)
  have hlen : (Stand.tree h b .bare).handles.length = (h :: b.handles).length := by
    simp [Stand.handles]
  have hmax : max 0 (0 + (Stand.tree h b .bare).levels) = b.levels + 1 := by
    simp [Stand.levels]
  rw [hlen, hmax] at hwalk
  exact hwalk.trans (by rw [heightFrom]; rfl)

end Forest

namespace Session

section
variable {C : Type} {s : Session C} {h : Handle} {b : Stand}

theorem descends_of_bears [Content C] (hst : s.forest.Bears (.tree h b .bare))
    (hnd : (h :: b.handles).Nodup) : s.Descends h b.handles := by
  obtain ⟨hh, hbelow, hb, -⟩ := id hst
  have hkids := Forest.children_of_contains hh
  rw [hbelow] at hkids
  have hhandles : (Stand.tree h b .bare).handles = h :: b.handles := by simp [Stand.handles]
  have hroom : (h :: b.handles).length ≤ s.forest.nodes.capacity := by
    have hle := hst.length_le_capacity (hhandles ▸ hnd)
    rwa [hhandles] at hle
  have hself := hst.descendantsAndSelf_eq rfl (hhandles ▸ hnd)
  rw [hhandles] at hself
  obtain ⟨n, hn⟩ := Nat.exists_eq_add_of_le hroom
  have hlevels := b.levels_le_length
  have hlen : (h :: b.handles).length = b.handles.length + 1 := rfl
  refine ⟨hnd, ⟨?_, ?_⟩, hself, ?_, ?_, ?_, ?_, ?_, ?_, ?_, ?_⟩
  · exact hst.descendants_eq (List.nodup_cons.mp hnd).2
  · rw [hbelow]
    exact Forest.preOrderFrom_of_bears hb
  · refine ⟨b.postHandles ++ [h], ?_, ?_, Forest.postOrderFrom_of_bears hst⟩
    · exact hst.postOrder_eq rfl (hhandles ▸ hnd)
    · exact (List.perm_append_singleton h _).trans (b.postHandles_perm.cons h)
  · intro P prune
    have hwalk : ∀ m, b.handles.length ≤ m →
        s.forest.matchesFrom P prune m b.tops = s.forest.found P prune b := fun m hm =>
      Forest.matchesFrom_bears P prune hb hm
    refine ⟨s.forest.found P prune b, ?_, Forest.found_sublist P prune b, fun m => ?_⟩
    · simp only [Forest.matchingDescendants, hkids]
      exact congrArg Except.ok (hwalk _ (by omega))
    · rw [hbelow]
      exact hwalk _ (Nat.le_add_right _ m)
  · have hwalk := Forest.heightFrom_of_bears hst
    refine ⟨b.levels + 1, by omega, ?_, hwalk⟩
    rw [Forest.height, hn]
    exact hwalk n
  · exact ⟨_, Forest.leaves_of_bears hst hnd, List.filter_sublist⟩
  · intro bypass
    have hwalk := fun m (hm : b.levels < m) =>
      Forest.normalizeFrom_bears (m := m) bypass hst (n := s.forest.nodes.capacity + 1)
        (by omega) hm
    refine ⟨(hwalk (b.levels + 1) (Nat.lt_succ_self _)).1, fun m => ?_⟩
    exact (hwalk ((h :: b.handles).length + m) (by omega)).2
  · refine ⟨_, Forest.textTree_of_bears hst hnd, ?_, fun m =>
      Forest.textTreeFrom_of_bears hst (Nat.le_add_right _ m)⟩
    rw [TextTree.texts, Forest.textsOf_drawn, List.map_cons]
  · exact fun hroot => EditM.dispose_of_walk hroot hself
  · exact fun p hp => EditM.dispose_of_owned hp

end

section
variable {C : Type} [ShallowCopy C] [BuiltCopy C] {s : Session C} {h : Handle}

theorem exists_descends (hF : s.forest.Branching) (hh : s.forest.contains h = true) :
    ∃ ds, s.Descends h ds ∧ (TidyCopy C → s.CopiesDown h ds) := by
  obtain ⟨b, hb, htops, hnd, hmem⟩ := hF.exists_bears_below hh
  refine ⟨b.handles, descends_of_bears (.node hh hb htops) hnd, fun _ => ?_⟩
  have howned := Forest.owned_of_below hnd hmem
  obtain ⟨halong, hends⟩ := EditM.copy_eq_copyAlong hF hb htops (List.nodup_cons.mp hnd).2 howned hh
  exact ⟨⟨b, hb, htops, rfl, halong⟩, hends⟩

theorem branching_afterSteps {s : Session C} (hF : s.forest.Branching) (steps : List (Step C)) :
    (s.afterSteps steps).forest.Branching :=
  EditM.editLaw_keepsBranching.afterSteps EditM.setAsParentOf_keepsBranching s steps hF

end
end Session

/-- Whatever a history of edits and half links does, and wherever its calls fail, the children lists
remain those of trees, and every walk down from a node ends, without meeting a node twice; so does a
copy, if the copy hook is tidy. -/
theorem branching_of_history (C : Type) [ShallowCopy C] [BuiltCopy C] (settings : Settings)
    (steps : List (Step C)) :
    ((Session.fresh C settings).afterSteps steps).forest.Branching ∧
      ∀ h, ((Session.fresh C settings).afterSteps steps).forest.contains h = true →
        ∃ ds, ((Session.fresh C settings).afterSteps steps).Descends h ds ∧
          (TidyCopy C → ((Session.fresh C settings).afterSteps steps).CopiesDown h ds) := by
  have hF := Session.branching_afterSteps (s := Session.fresh C settings)
    (Forest.wellFormed_empty settings).branching steps
  exact ⟨hF, fun h hh => Session.exists_descends hF hh⟩

def Session.circle : Session Label := (Session.fresh Label {}).afterSteps
  [.edit (.create ⟨.block, "a"⟩), .edit (.create ⟨.block, "b"⟩), .edit (.create ⟨.leaf, "c"⟩),
    .setAsParentOf ⟨0, 0⟩ ⟨1, 0⟩, .setAsParentOf ⟨1, 0⟩ ⟨0, 0⟩, .edit (.addChild ⟨0, 0⟩ ⟨2, 0⟩)]

/-- The way up from the first node never ends, but the walks down from it do. -/
theorem branching_circle :
    Session.circle.forest.depth ⟨0, 0⟩ = .error .endlessWalk ∧ Session.circle.forest.Branching ∧
      ∃ ds, ⟨2, 0⟩ ∈ ds ∧ Session.circle.Descends ⟨0, 0⟩ ds ∧
        Session.circle.CopiesDown ⟨0, 0⟩ ds := by
  obtain ⟨hF, hdown⟩ := branching_of_history Label {}
    [.edit (.create ⟨.block, "a"⟩), .edit (.create ⟨.block, "b"⟩), .edit (.create ⟨.leaf, "c"⟩),
      .setAsParentOf ⟨0, 0⟩ ⟨1, 0⟩, .setAsParentOf ⟨1, 0⟩ ⟨0, 0⟩, .edit (.addChild ⟨0, 0⟩ ⟨2, 0⟩)]
  obtain ⟨ds, hds, hcopies⟩ := hdown ⟨0, 0⟩ rfl
  refine ⟨rfl, hF, ds, ?_, hds, hcopies inferInstance⟩
  have hwalk : Session.circle.forest.descendants ⟨0, 0⟩ = .ok [⟨2, 0⟩] := rfl
  have he := hds.descendants.1.symm.trans hwalk
  rw [Except.ok.inj he]
  exact List.mem_singleton_self _

end Grove
