import Grove.Proofs.Edit.Part
import Grove.Proofs.Integrity
import Grove.Proofs.Store.Issue

/-!
# Handles over a history

All that edits do to the store of a forest is to insert, to replace and to take out values. So over a
whole history, with all the copies, placeholders and failures in it, no handle is issued twice, and
a handle that has lost its node never gets another one. Disposing of a root takes out exactly the
nodes of its tree.
-/

namespace Grove
set_option autoImplicit false

/-- The nodes of `t` come from those of `s` by changes of the store, which issue the handles `hs`. -/
def Session.Issues {C : Type} (s : Session C) (hs : List Handle) (t : Session C) : Prop :=
  s.forest.nodes.Issues hs t.forest.nodes

/-- The law that the nodes are changed by changes of the store only. -/
def LeadsTo {C : Type} (s t : Session C) : Prop := ∃ hs, s.Issues hs t

/-- Shallow copies that change the nodes by changes of the store only, as those do that are put together
from edits. -/
class TracedCopy (C : Type) [ShallowCopy C] : Prop where
  copyShallow_leadsTo : ∀ h, Follows LeadsTo (EditM.copyShallow (C := C) h)

namespace EditM
variable {C : Type}

instance isPreorder_leadsTo : IsPreorder (Session C) LeadsTo where
  refl _ := ⟨[], .refl _⟩
  trans _ _ _ := fun ⟨_, hst⟩ ⟨_, htu⟩ => ⟨_, hst.trans htu⟩

theorem modifyNodes_leadsTo {f : Store (Node C) → Store (Node C)}
    (hf : ∀ st : Store (Node C), ∃ hs, st.Issues hs (f st)) : Follows LeadsTo (modifyNodes f) :=
  fun s => hf s.forest.nodes

/-- The handle that creating a node returns is the one that is issued, and it names the node. -/
theorem create_issues (content : C) (s : Session C) : ∃ h t, create content s = .ok h t ∧
    s.Issues [h] t ∧ t.forest.contains h = true := by
  refine ⟨_, _, create_run content s, .insert s.forest.nodes { content } (.refl _), ?_⟩
  exact (s.forest.contains_plant content _).mpr (Or.inl rfl)

theorem create_leadsTo (content : C) : Follows LeadsTo (create content) := by
  intro s
  obtain ⟨h, t, hrun, hissues, -⟩ := create_issues content s
  rw [final_of_ok hrun]
  exact ⟨[h], hissues⟩

theorem notify_leadsTo (n : Notice) : Follows LeadsTo (notify (C := C) n) := fun s =>
  ⟨[], .refl s.forest.nodes⟩

theorem updateNode_leadsTo (h : Handle) (f : Node C → Node C) :
    Follows LeadsTo (updateNode h f) :=
  .bind (.discard (.query _)) fun _ =>
    modifyNodes_leadsTo fun st => ⟨[], .modify st h f (.refl _)⟩

theorem erase_leadsTo (hs : List Handle) :
    Follows LeadsTo (modifyNodes (C := C) fun st => hs.foldl Store.erase st) := by
  have herase : ∀ (hs : List Handle) (st : Store (Node C)),
      st.Issues [] (hs.foldl Store.erase st) := by
    intro hs
    induction hs with
    | nil => exact .refl
    | cons h hs ih => exact fun st => .erase st h (ih _)
  exact modifyNodes_leadsTo fun st => ⟨[], herase hs st⟩

section
variable [Content C]

theorem setAsParentOf_leadsTo (p x : Handle) : Follows LeadsTo (setAsParentOf (C := C) p x) := by
  have hpoint : Follows LeadsTo (do
      query fun F => F.ensureAcyclic p x
      updateNode (C := C) x fun n => { n with parent := some p }) :=
    .bind (.query _) fun _ => updateNode_leadsTo x _
  refine .bind (.discard (.query _)) fun _ => .bind (.query _) fun parent? => ?_
  cases parent? with
  | none => exact hpoint
  | some q =>
    exact .bind (.describe _) fun _ => .bind (.describe _) fun _ =>
      .bind (.throw _) fun _ => hpoint

theorem partLaw_leadsTo : PartLaw (C := C) LeadsTo where
  notify := notify_leadsTo
  create := create_leadsTo
  setContent h _ := updateNode_leadsTo h _
  writeChildren h _ := updateNode_leadsTo h _
  clearParent h := updateNode_leadsTo h _
  erase := erase_leadsTo

end

theorem swapPositions_leadsTo [ShallowCopy C] (a b : Handle) :
    Follows LeadsTo (swapPositions (C := C) a b) :=
  .bind (.query _) fun _ => .bind (.query _) fun _ => .forM _ fun _ _ => updateNode_leadsTo _ _

theorem editLaw_leadsTo [ShallowCopy C] [TracedCopy C] : EditLaw (C := C) LeadsTo :=
  partLaw_leadsTo.editLaw setAsParentOf_leadsTo TracedCopy.copyShallow_leadsTo swapPositions_leadsTo

end EditM

instance tracedCopy_of_builtCopy {C : Type} [ShallowCopy C] [BuiltCopy C] : TracedCopy C where
  copyShallow_leadsTo :=
    BuiltCopy.follows (EditM.partLaw_leadsTo.hookLaw EditM.setAsParentOf_leadsTo)

theorem Session.leadsTo_afterSteps {C : Type} [ShallowCopy C] [TracedCopy C] (s : Session C)
    (steps : List (Step C)) : LeadsTo s (s.afterSteps steps) :=
  EditM.editLaw_leadsTo.afterSteps EditM.setAsParentOf_leadsTo s steps

/-- The handles `hs` were issued up to the session `s`, and `ks` from there to `t`. -/
structure IssuedOnce {C : Type} (s t : Session C) (hs ks : List Handle) : Prop where
  nodup : (hs ++ ks).Nodup
  /-- the next node gets a handle that is none of them, and is named by it -/
  next_new : ∀ content, ∃ h u, EditM.create content t = .ok h u ∧ t.Issues [h] u ∧
    u.forest.contains h = true ∧ h ∉ hs ++ ks
  live : ∀ h, t.forest.contains h = true → h ∈ hs ++ ks
  stays_invalid : ∀ h ∈ hs, s.forest.contains h = false → t.forest.contains h = false

theorem Session.Issues.issuedOnce {C : Type} {settings : Settings} {s t : Session C}
    {hs ks : List Handle} (hearly : (Session.fresh C settings).Issues hs s)
    (hlate : s.Issues ks t) : IssuedOnce s t hs ks := by
  have hall := Store.Issues.trans hearly hlate
  refine ⟨hall.nodup, ?_, fun h hh => hall.mem_of_contains hh ?_, ?_⟩
  · intro content
    obtain ⟨h, u, hrun, hissues, hh⟩ := EditM.create_issues content t
    refine ⟨h, u, hrun, hissues, hh, fun hm => ?_⟩
    exact Store.Issues.not_used_of_mem hissues List.mem_cons_self (hall.used_of_mem hm)
  · exact Forest.not_contains_iff.mpr (Store.get?_empty h)
  · intro h hm hnot
    exact Store.Issues.not_contains hlate (Store.Issues.used_of_mem hearly hm) hnot

/-- Two nodes that are created in a history get different handles, whatever comes before and between. -/
theorem Session.exists_create_ne {C : Type} [ShallowCopy C] [TracedCopy C] (settings : Settings)
    (early mid : List (Step C)) (a b : C) : ∃ h k t u,
      EditM.create a ((Session.fresh C settings).afterSteps early) = .ok h t ∧
        EditM.create b (t.afterSteps mid) = .ok k u ∧ h ≠ k := by
  obtain ⟨hs, hearly⟩ := (Session.fresh C settings).leadsTo_afterSteps early
  obtain ⟨h, t, hfirst, hissues, -⟩ :=
    EditM.create_issues a ((Session.fresh C settings).afterSteps early)
  obtain ⟨ks, hmid⟩ := t.leadsTo_afterSteps mid
  have honce := Session.Issues.issuedOnce (Store.Issues.trans hearly hissues) hmid
  obtain ⟨k, u, hsecond, -, -, hnew⟩ := honce.next_new b
  refine ⟨h, k, t, u, hfirst, hsecond, ?_⟩
  rintro rfl
  exact hnew (by simp)

/-! ## Taking a tree out -/

namespace Forest
variable {C : Type} {F : Forest C} {ds : List Handle}

theorem contains_of_covered {h x : Handle} (hx : F.contains x = true) (hc : F.Covers x h) :
    F.contains h = true := by
  rcases Relation.ReflTransGen.cases_tail hc with rfl | ⟨p, -, hp⟩
  · exact hx
  · exact contains_of_above? hp

/-- `G` is `F` without the nodes `ds`. -/
structure Freed (F G : Forest C) (ds : List Handle) : Prop where
  contains_old : ∀ h ∈ ds, F.contains h = true
  not_contains : ∀ h ∈ ds, G.contains h = false
  get?_eq : ∀ h, h ∉ ds → G.get? h = F.get? h
  size_eq : G.size + ds.length = F.size

theorem size_uproot (hnd : ds.Nodup) (hin : ∀ h ∈ ds, F.contains h = true) :
    (F.uproot ds).size + ds.length = F.size := by
  have hids : ∀ G : Forest C, G.ids.Nodup := fun G => Store.handles_nodup G.nodes
  have hperm : ((F.uproot ds).ids ++ ds).Perm F.ids := by
    refine (List.perm_ext_iff_of_nodup ?_ (hids F)).mpr fun h => ?_
    · refine List.nodup_append.mpr ⟨hids _, hnd, fun h hh k hk hhk => ?_⟩
      rw [mem_ids_iff, contains_uproot] at hh
      exact hh.1 (hhk ▸ hk)
    · rw [List.mem_append, mem_ids_iff, mem_ids_iff, contains_uproot]
      constructor
      · rintro (hh | hh)
        · exact hh.2
        · exact hin h hh
      · intro hh
        by_cases hd : h ∈ ds
        · exact Or.inr hd
        · exact Or.inl ⟨hd, hh⟩
  have hlen := hperm.length_eq
  rwa [List.length_append, ids, ids, Store.length_handles, Store.length_handles] at hlen

theorem freed_uproot (hnd : ds.Nodup) (hin : ∀ h ∈ ds, F.contains h = true) :
    F.Freed (F.uproot ds) ds := by
  have hget := get?_uproot F ds
  refine ⟨hin, ?_, ?_, size_uproot hnd hin⟩
  · intro h hh
    rw [not_contains_iff, hget, if_pos hh]
  · intro h hh
    rw [hget, if_neg hh]

end Forest

/-- Over a history no handle is issued twice, and one that has become invalid stays so; and disposing
of a root frees exactly the nodes of its tree. -/
theorem handles_of_history {C : Type} [ShallowCopy C] [TracedCopy C] :
    (∀ settings (early late : List (Step C)), ∃ hs ks,
      (Session.fresh C settings).Issues hs ((Session.fresh C settings).afterSteps early) ∧
        ((Session.fresh C settings).afterSteps early).Issues ks
          (((Session.fresh C settings).afterSteps early).afterSteps late)) ∧
    (∀ settings (s t : Session C) hs ks, (Session.fresh C settings).Issues hs s →
      s.Issues ks t → IssuedOnce s t hs ks) ∧
    (∀ settings (early mid : List (Step C)) (a b : C), ∃ h k t u,
      EditM.create a ((Session.fresh C settings).afterSteps early) = .ok h t ∧
        EditM.create b (t.afterSteps mid) = .ok k u ∧ h ≠ k) ∧
    ∀ (s : Session C) (x : Handle), s.forest.WellFormed → s.forest.contains x = true →
      s.forest.above? x = none → ∃ ds t, s.forest.descendantsAndSelf x = .ok ds ∧
        EditM.dispose x s = .ok ds.length t ∧ s.forest.Freed t.forest ds := by
  refine ⟨?_, fun settings s t hs ks => Session.Issues.issuedOnce, Session.exists_create_ne, ?_⟩
  · intro settings early late
    obtain ⟨hs, hearly⟩ := (Session.fresh C settings).leadsTo_afterSteps early
    obtain ⟨ks, hlate⟩ := ((Session.fresh C settings).afterSteps early).leadsTo_afterSteps late
    exact ⟨hs, ks, hearly, hlate⟩
  · intro s x hF hx hroot
    obtain ⟨ds, hds, hnd, hmem, hrun⟩ := EditM.dispose_of_root hF hx hroot
    exact ⟨ds, _, hds, hrun, Forest.freed_uproot hnd fun h hh =>
      Forest.contains_of_covered hx ((hmem h).mp hh)⟩

def Session.block : Session Label :=
  (Session.fresh Label {}).afterSteps [.edit (.create ⟨.block, "a"⟩)]

/-- The slot of the block is filled again under a new handle. -/
theorem handles_of_reused_slot :
    (∃ hs ks, IssuedOnce Session.block (Session.block.afterSteps
      [.edit (.dispose ⟨0, 0⟩), .edit (.create ⟨.block, "b"⟩)]) hs ks) ∧
    (∃ t u, EditM.create ⟨.block, "a"⟩ (Session.fresh Label {}) = .ok ⟨0, 0⟩ t ∧
      EditM.create ⟨.block, "b"⟩ (t.afterSteps [.edit (.dispose ⟨0, 0⟩)]) = .ok ⟨0, 1⟩ u ∧
        (⟨0, 0⟩ : Handle) ≠ ⟨0, 1⟩) ∧
    ∃ ds t, Session.block.forest.descendantsAndSelf ⟨0, 0⟩ = .ok ds ∧
      EditM.dispose ⟨0, 0⟩ Session.block = .ok ds.length t ∧
        Session.block.forest.Freed t.forest ds := by
  obtain ⟨htraced, honce, hcreate, hfreed⟩ := handles_of_history (C := Label)
  obtain ⟨hs, ks, hearly, hlate⟩ := htraced {} [.edit (.create ⟨.block, "a"⟩)]
    [.edit (.dispose ⟨0, 0⟩), .edit (.create ⟨.block, "b"⟩)]
  have hF := Session.wellFormed_after (s := Session.fresh Label {}) (Forest.wellFormed_empty {})
    [.create ⟨.block, "a"⟩]
  refine ⟨⟨hs, ks, honce {} _ _ hs ks hearly hlate⟩, ?_, hfreed _ ⟨0, 0⟩ hF rfl rfl⟩
  obtain ⟨h, k, t, u, hfirst, hsecond, hne⟩ :=
    hcreate {} [] [.edit (.dispose ⟨0, 0⟩)] ⟨.block, "a"⟩ ⟨.block, "b"⟩
  cases hfirst
  cases hsecond
  exact ⟨_, _, rfl, rfl, hne⟩

end Grove
