import Grove.Proofs.Edit.DeepCopy
import Grove.Proofs.Handles
import Mathlib.Data.Set.Function

/-!
# Duplicates

What a deep copy gives, told by the queries of a forest: the walk over the copy meets the copies of
the nodes that the walk over the original meets, in the same order, and each of them has the content
of its original and the copies of its children. All of them are new, and no old node is changed.
-/

namespace Grove
set_option autoImplicit false

namespace Stand

def map (f : Handle → Handle) : Stand → Stand
  | bare => bare
  | tree h b r => tree (f h) (b.map f) (r.map f)

@[simp] theorem tops_map (f : Handle → Handle) (st : Stand) : (st.map f).tops = st.tops.map f := by
  induction st with
  | bare => rfl
  | tree h b r _ ihr => rw [map, tops, tops, ihr, List.map_cons]

@[simp] theorem handles_map (f : Handle → Handle) (st : Stand) :
    (st.map f).handles = st.handles.map f := by
  induction st with
  | bare => rfl
  | tree h b r ihb ihr => rw [map, handles, handles, ihb, ihr, List.map_cons, List.map_append]

end Stand

namespace Forest
variable {C : Type} {F G : Forest C} {c h k : Handle} {ds : List Handle} {st : Stand}
  {f : Handle → Handle}

theorem content_of_contentOf? {content : C} (hk : F.contentOf? k = some content) :
    F.content k = .ok content := by
  obtain ⟨n, hn, rfl⟩ := Option.map_eq_some_iff.mp hk
  rw [Forest.content, node_of_get? hn]
  rfl

theorem content_eq_ok {content : C} :
    F.content k = .ok content ↔ F.contentOf? k = some content := by
  refine ⟨fun hk => ?_, content_of_contentOf?⟩
  cases hc : F.contentOf? k with
  | some content' =>
    rw [content_of_contentOf? hc] at hk
    cases hk
    rfl
  | none =>
    rw [contentOf?, Option.map_eq_none_iff, ← not_contains_iff] at hc
    rw [Forest.content, node_of_not_contains hc] at hk
    cases hk

/-- `G` is `F` with a duplicate of the subtree of `h`. The root of the duplicate is `c`, the nodes of
the subtree are `ds`, and `f` gives the copy of each of them. -/
structure Duplicated (F G : Forest C) (h c : Handle) (ds : List Handle) (f : Handle → Handle) :
    Prop where
  parentless : G.parent c = .ok none
  root : f h = c
  /-- the copies stand in the order of their originals -/
  order : F.descendantsAndSelf h = .ok ds ∧ G.descendantsAndSelf c = .ok (ds.map f)
  bijective : Set.BijOn f {k | k ∈ ds} {k | k ∈ ds.map f}
  children : ∀ k ∈ ds, G.children (f k) = List.map f <$> F.children k
  content : ∀ k ∈ ds, G.content (f k) = F.content k
  fresh : ∀ k ∈ ds, F.contains (f k) = false
  size : G.size = F.size + ds.length
  old : ∀ k, F.contains k = true →
    G.content k = F.content k ∧ G.parent k = F.parent k ∧ G.children k = F.children k

theorem Sprouted.size_eq (hG : F.Sprouted G c) (hF : F.WellFormed)
    (hds : G.descendantsAndSelf c = .ok ds) : G.size = F.size + ds.length := by
  obtain ⟨es, hes, hnd, hmem⟩ := hG.wellFormed.descendantsAndSelf_eq hG.contains
  cases hds.symm.trans hes
  have hsize := size_uproot hnd fun k hk => contains_of_covered hG.contains ((hmem k).mp hk)
  rw [size_congr (hG.uproot hF hmem).contains_eq] at hsize
  exact hsize.symm

namespace DeepCopy

theorem contains (hG : F.DeepCopy G h c f) (hc : F.Covers h k) (hk : F.contains k = true) :
    G.contains (f k) = true := by
  rw [contains_eq_of_contentOf?_eq (hG.contentOf?_eq k hc)]
  exact hk

theorem bears (hG : F.DeepCopy G h c f) (hst : F.Bears st)
    (hcovers : ∀ k ∈ st.handles, F.Covers h k) : G.Bears (st.map f) := by
  induction st with
  | bare => trivial
  | tree top b r ihb ihr =>
    obtain ⟨htop, hbelow, hb, hr⟩ := hst
    have hc : F.Covers h top := hcovers top List.mem_cons_self
    refine ⟨hG.contains hc htop, ?_, ihb hb fun k hk => ?_, ihr hr fun k hk => ?_⟩
    · rw [hG.below_eq top hc, hbelow, Stand.tops_map]
    · exact hcovers k (List.mem_cons_of_mem _ (List.mem_append_left _ hk))
    · exact hcovers k (List.mem_cons_of_mem _ (List.mem_append_right _ hk))

theorem duplicated (hG : F.DeepCopy G h c f) (hF : F.WellFormed) (hh : F.contains h = true)
    (hsprout : F.Sprouted G c) (hds : F.descendantsAndSelf h = .ok ds) :
    F.Duplicated G h c ds f := by
  obtain ⟨st, hst, htops, hnd⟩ := hF.exists_bears_single hh
  cases hds.symm.trans (hst.descendantsAndSelf_eq htops hnd)
  have hcovers : ∀ k ∈ st.handles, F.Covers h k := fun k hk => by
    obtain ⟨t, ht, htk⟩ := (hF.mem_handles_iff hst).mp hk
    rw [htops, List.mem_singleton] at ht
    exact ht ▸ htk
  have hinj : ∀ k ∈ st.handles, ∀ l ∈ st.handles, f k = f l → k = l := fun k hk l hl =>
    hG.injective k l (hcovers k hk) (hcovers l hl)
  have hcopy : G.descendantsAndSelf c = .ok (st.handles.map f) := by
    rw [← Stand.handles_map]
    refine (hG.bears hst hcovers).descendantsAndSelf_eq ?_ ?_
    · rw [Stand.tops_map, htops, List.map_singleton, hG.root]
    · rw [Stand.handles_map]
      exact hnd.map_on hinj
  refine ⟨?_, hG.root, ⟨hds, hcopy⟩, ⟨?_, ?_, ?_⟩, ?_, ?_, ?_, ?_, ?_⟩
  · rw [parent_of_contains hsprout.contains, hsprout.root]
  · exact fun k hk => List.mem_map_of_mem hk
  · exact fun k hk l hl => hinj k hk l hl
  · exact fun k hk => List.mem_map.mp hk
  · intro k hk
    have hin := hst.contains hk
    rw [children_of_contains (hG.contains (hcovers k hk) hin), children_of_contains hin,
      hG.below_eq k (hcovers k hk)]
    rfl
  · intro k hk
    obtain ⟨n, hn⟩ := contains_iff.mp (hst.contains hk)
    have hcontent := contentOf?_of_get? hn
    rw [content_of_contentOf? hcontent, content_of_contentOf?]
    rw [hG.contentOf?_eq k (hcovers k hk), hcontent]
  · exact fun k hk => hG.fresh k (hcovers k hk)
  · rw [hsprout.size_eq hF hcopy, List.length_map]
  · intro k hk
    have hget := hsprout.old.get? k hk
    simp only [Forest.content, Forest.parent, Forest.children, Forest.node, hget, and_self]

end DeepCopy
end Forest

namespace EditM
variable {C : Type} [ShallowCopy C]

/-- How a node is copied. The contents that shallow copies preserve are those with `copyable`. -/
structure Copies (copyable : C → Prop) (s : Session C) (h : Handle) (ds : List Handle) : Prop where
  subtree : s.forest.descendantsAndSelf h = .ok ds
  /-- a subtree of which all contents can be copied is duplicated -/
  of_copyable : (∀ k ∈ ds, ∀ content, s.forest.content k = .ok content → copyable content) →
    ∃ c t f, copy h s = .ok c t ∧ s.forest.Duplicated t.forest h c ds f
  /-- a content that cannot be copied makes the copy fail -/
  of_not_copyable : (∃ k ∈ ds, ∃ content, s.forest.content k = .ok content ∧ ¬ copyable content) →
    ∃ fault t, copy h s = .error (.invariantViolation fault) t

theorem exists_copies [RegularCopy C] {s : Session C} {h : Handle} (hF : s.forest.WellFormed)
    (hh : s.forest.contains h = true) :
    ∃ ds, Copies (fun content => RegularCopy.copyable content = true) s h ds := by
  obtain ⟨ds, hds, -, hmem⟩ := hF.descendantsAndSelf_eq hh
  have hcontent : ∀ k n, s.forest.get? k = some n → s.forest.content k = .ok n.content :=
    fun k n hn => Forest.content_of_contentOf? (Forest.contentOf?_of_get? hn)
  refine ⟨ds, hds, fun hgood => ?_, fun hbad => ?_⟩
  · obtain ⟨c, t, f, hrun, hsprout, hcopy⟩ := copy_run hF hh fun k n hk hn =>
      hgood k ((hmem k).mpr hk) n.content (hcontent k n hn)
    exact ⟨c, t, f, hrun, hcopy.duplicated hF hh hsprout hds⟩
  · obtain ⟨k, hk, content, hc, hnot⟩ := hbad
    obtain ⟨n, hn, rfl⟩ := Option.map_eq_some_iff.mp (Forest.content_eq_ok.mp hc)
    obtain ⟨line, t, hrun, -⟩ := copy_of_not_copyable hF hh
      ⟨k, n, (hmem k).mp hk, hn, Bool.eq_false_iff.mpr hnot⟩
    exact ⟨_, t, hrun⟩

end EditM

/-- A copy of a node in a well-formed forest duplicates its subtree, unless the subtree has a bad copy
in it; plain contents can always be copied. -/
theorem copy_duplicates_or_fails :
    (∀ (s : Session Label), s.forest.WellFormed → ∀ h, s.forest.contains h = true →
      ∃ ds, EditM.Copies (fun l : Label => l.kind ≠ .badCopy) s h ds) ∧
    ∀ (s : Session Plain), s.forest.WellFormed → ∀ h, s.forest.contains h = true →
      ∃ ds, EditM.Copies (fun _ : Plain => True) s h ds := by
  constructor
  · intro s hF h hh
    obtain ⟨ds, hds, hgood, hbad⟩ := EditM.exists_copies hF hh
    refine ⟨ds, hds, fun hall => hgood fun k hk l hl => decide_eq_true (hall k hk l hl), ?_⟩
    rintro ⟨k, hk, l, hl, hnot⟩
    exact hbad ⟨k, hk, l, hl, fun hc => hnot (of_decide_eq_true hc)⟩
  · intro s hF h hh
    obtain ⟨ds, hds, hgood, -⟩ := EditM.exists_copies hF hh
    refine ⟨ds, hds, fun _ => hgood fun _ _ _ _ => rfl, ?_⟩
    rintro ⟨k, hk, content, -, hnot⟩
    exact absurd trivial hnot

def Session.thicket : Session Label := (Session.fresh Label {}).after
  [.create ⟨.block, "a"⟩, .create ⟨.block, "b"⟩, .create ⟨.leaf, "c"⟩, .create ⟨.badCopy, "d"⟩,
    .addChild ⟨0, 0⟩ ⟨1, 0⟩, .addChild ⟨1, 0⟩ ⟨2, 0⟩, .addChild ⟨0, 0⟩ ⟨3, 0⟩]

/-- The lower block is duplicated, and the copy of the whole fails. -/
theorem copy_thicket :
    Session.thicket.forest.WellFormed ∧
    (∃ c t ds f, EditM.copy ⟨1, 0⟩ Session.thicket = .ok c t ∧
      Session.thicket.forest.Duplicated t.forest ⟨1, 0⟩ c ds f) ∧
    ∃ fault t, EditM.copy ⟨0, 0⟩ Session.thicket = .error (.invariantViolation fault) t := by
  have hF : Session.thicket.forest.WellFormed :=
    Session.wellFormed_after (Forest.wellFormed_empty {}) _
  refine ⟨hF, ?_, ?_⟩
  · obtain ⟨ds, hds, hgood, -⟩ := copy_duplicates_or_fails.1 _ hF ⟨1, 0⟩ rfl
    have hwalk : Session.thicket.forest.descendantsAndSelf ⟨1, 0⟩ = .ok [⟨1, 0⟩, ⟨2, 0⟩] := rfl
    cases hds.symm.trans hwalk
    obtain ⟨c, t, f, hrun⟩ := hgood fun k hk l hl => by
      rcases List.mem_cons.mp hk with rfl | hk
      · cases hl
        decide
      · cases List.mem_singleton.mp hk
        cases hl
        decide
    exact ⟨c, t, _, f, hrun⟩
  · obtain ⟨ds, hds, -, hbad⟩ := copy_duplicates_or_fails.1 _ hF ⟨0, 0⟩ rfl
    have hwalk : Session.thicket.forest.descendantsAndSelf ⟨0, 0⟩ =
        .ok [⟨0, 0⟩, ⟨1, 0⟩, ⟨2, 0⟩, ⟨3, 0⟩] := rfl
    cases hds.symm.trans hwalk
    exact hbad ⟨⟨3, 0⟩, by decide, ⟨.badCopy, "d"⟩, rfl, by decide⟩

end Grove
