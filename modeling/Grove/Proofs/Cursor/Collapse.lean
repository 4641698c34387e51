import Grove.Proofs.Cursor.Replace
import Grove.Proofs.Edit.Abreast

/-!
# Collapsing children into one

Several children next to each other give way to one node in two ways: a cursor takes all of them but
the first away and then exchanges the first one, while `setChildAndRemove` exchanges the first one and
then takes the others away. The two agree as long as the new node has nothing to do with the children
that are taken away.
-/

namespace Grove
set_option autoImplicit false

namespace Forest
variable {C : Type} {F G : Forest C} {h k p x y : Handle} {i n : Nat} {l : List Handle}

/-- `k` is a root in `G`, over the same subtree as in `F`. -/
structure Released (F G : Forest C) (k : Handle) : Prop where
  root : G.above? k = none
  contentOf?_eq : G.contentOf? k = F.contentOf? k
  below_eq : G.below k = F.below k
  subtree : ∀ h, F.Above k h → G.get? h = F.get? h

theorem StandsFor.above?_eq_none (hy : F.StandsFor G y x) : F.above? y = none := by
  rcases hy with ⟨hroot, rfl, -⟩ | ⟨-, f, hcopy⟩
  · exact hroot
  · exact above?_eq_none_of_not_contains hcopy.fresh_root

theorem Relisted.released (hG : F.Relisted G p l) (hF : F.WellFormed) (hk : k ∈ F.below p)
    (hkl : k ∉ l) (hl : ∀ h ∈ l, h ∈ F.below p ∨ F.above? h = none) : F.Released G k := by
  have hkp : F.above? k = some p := hF.above?_eq_some_iff.mpr hk
  have hlive := hF.contains_of_mem_below hk
  have hnot : ¬ F.Covers k p := hF.not_covers_of_over hkp
  have hne : k ≠ p := fun he => hnot (he ▸ .refl)
  refine ⟨?_, hG.contentOf?_eq k hlive, hG.below_eq k hlive hne, fun h hkh => ?_⟩
  · rw [hG.above?_eq k hlive, if_neg hkl, if_pos hk]
  · obtain ⟨q, hkq, hq⟩ := Relation.TransGen.tail'_iff.mp hkh
    have hin : F.contains h = true := contains_of_above? hq
    have hhp : h ∉ F.below p := fun hm => by
      have hpq := hF.above?_eq_some_iff.mpr hm
      obtain rfl : q = p := Option.some.inj (hq.symm.trans hpq)
      exact hnot hkq
    have hhl : h ∉ l := fun hm => (hl h hm).elim hhp fun hroot => by
      exact nomatch hq.symm.trans hroot
    have hnp : h ≠ p := fun he => hnot (he ▸ hkh.to_reflTransGen)
    rw [get?_eq_get?_iff, hG.contentOf?_eq h hin, hG.above?_eq h hin, if_neg hhl, if_neg hhp,
      hG.below_eq h hin hnp]
    exact ⟨rfl, rfl, rfl⟩

end Forest

namespace EditM
variable {C : Type} [ShallowCopy C] {s s' : Session C} {c p x : Handle} {i m : Nat}
  {cs : List Handle}

theorem setChildAndRemove_of_runs {t u : Session C} {y : Handle}
    (hi : i + m < (s.forest.below p).length) (hset : setChild p i x s = .ok c t)
    (hremove : removeSlice p (i + 1) m t = .ok cs u) (hy : (u.forest.below p)[i]? = some y) :
    setChildAndRemove p x i (i + m + 1) s = .ok y u := by
  have hp : s.forest.contains p = true :=
    Forest.contains_of_mem_below (List.getElem_mem hi)
  have hchild : query (fun F => F.child p i) u = .ok y u :=
    query_of_ok (Forest.child_of_getElem? hy)
  have hcount : i + m + 1 - (i + 1) = m := by omega
  simp only [setChildAndRemove, if_neg (show ¬ i + m + 1 ≤ i by omega),
    bind_of_ok _ (query_numChildren hp), if_neg (Nat.not_lt.mpr hi), hcount,
    bind_of_ok _ (discard_of_ok hset), bind_of_ok _ (discard_of_ok hremove), hchild]

variable [RegularCopy C]

/-- The two ways to exchange a child and to take the children after it away. -/
theorem setChildAndRemove_abreast (hi : i + m < (s.forest.below p).length)
    (hs : Abreast s.forest (((s.forest.below p).drop (i + 1)).take m) s s')
    (hx : s.forest.Admits (RegularCopy.copyable · = true) p x) (hnot : ¬ s.forest.Covers x p)
    (hxcs : x ∉ ((s.forest.below p).drop (i + 1)).take m) :
    ∃ y c t t', setChildAndRemove p x i (i + m + 1) s = .ok y t ∧ setChild p i x s' = .ok c t' ∧
      (t'.forest.below p)[i]? = some y ∧ t'.forest.SameNodes t.forest ∧
      s.forest.StandsFor t'.forest y x := by
  have hc : (s.forest.below p)[i]? = some (s.forest.below p)[i] :=
    List.getElem?_eq_getElem (by omega)
  have hbefore : ∀ k ∈ (s.forest.below p).take (i + 1),
      k ∉ ((s.forest.below p).drop (i + 1)).take m := fun k hk hm =>
    List.disjoint_take_drop (hs.wellFormed.nodup_below p) (Nat.le_refl _) hk (List.mem_of_mem_take hm)
  obtain ⟨y, t, t', hset, hset', ht, hshed, hbelow, hy, hstands⟩ := hs.setChild hc
    (fun _ hk => Forest.mem_of_mem_slice hk) hbefore hx hnot hxcs
  obtain ⟨G, hremove, hG⟩ := removeSlice_run (p := p) (i := i + 1) (n := m) ht (by
    rw [hbelow, List.length_set]
    omega)
  rw [hbelow, List.drop_set_of_lt (Nat.lt_succ_self i)] at hG
  have hsame := hshed.sameNodes hG
  refine ⟨y, _, _, t', setChildAndRemove_of_runs hi hset hremove ?_, hset', hy, hsame, hstands⟩
  rw [Session.forest_withForest, ← hsame.below_eq, hy]

end EditM

namespace Cursor
variable {C : Type} {c d : Cursor C} {x y : Handle} {i m : Nat}

/-- The `m + 1` children from position `i` on were collapsed into what stands for `x`. They are roots
now, with their subtrees, and the cursor passes the new child next. -/
structure Merged (c : Cursor C) (i m : Nat) (x y : Handle) (d : Cursor C) : Prop
    extends c.Collapsed i m y d where
  standsFor : c.session.forest.StandsFor d.session.forest y x
  released : ∀ k ∈ (c.children.drop i).take (m + 1),
    c.session.forest.Released d.session.forest k
  next : d.next.1 = some y

theorem Collapsed.merged (hd : c.Collapsed i m y d) (hc : c.Sound) (hi : i ≤ c.children.length)
    (hy : c.session.forest.StandsFor d.session.forest y x) : c.Merged i m x y d := by
  have hroot := hy.above?_eq_none
  have hF := hc.wellFormed
  refine ⟨hd, hy, fun k hk => ?_, hd.next hi⟩
  have hmem : k ∈ c.session.forest.below c.parent := Forest.mem_of_mem_slice hk
  have hgone : k ∉ c.children.take i ++ c.children.drop (i + (m + 1)) := by
    have hrest := Forest.filter_not_mem_slice (hF.nodup_below c.parent) i (m + 1)
    intro hm
    rw [Cursor.children, ← hrest, List.mem_filter] at hm
    exact of_decide_eq_true hm.2 hk
  refine hd.edited.forest.released hF hmem (fun hm => ?_) fun h hm => ?_
  · rcases List.mem_append.mp hm with hm | hm
    · exact hgone (List.mem_append_left _ hm)
    · rcases List.mem_cons.mp hm with rfl | hm
      · have habove := hF.above?_eq_some_iff.mpr hmem
        rw [hroot] at habove
        cases habove
      · rw [Nat.add_right_comm] at hm
        exact hgone (List.mem_append_right _ hm)
  · rcases List.mem_append.mp hm with hm | hm
    · exact Or.inl (List.mem_of_mem_take hm)
    · rcases List.mem_cons.mp hm with rfl | hm
      · exact Or.inr hroot
      · exact Or.inl (List.mem_of_mem_drop hm)

variable [ShallowCopy C] [RegularCopy C]

theorem Sound.collapses (hc : c.Sound) (hi : c.last = some (i + m))
    (hx : c.session.forest.Admits (RegularCopy.copyable · = true) c.parent x)
    (hnot : ¬ c.session.forest.Covers x c.parent)
    (hxcs : x ∉ (c.children.drop (i + 1)).take m) :
    ∃ y d t, CursorM.replace x (m + 1) c = .ok y d ∧
      EditM.setChildAndRemove c.parent x i (i + m + 1) c.session = .ok y t ∧
      d.session.forest.SameNodes t.forest ∧ c.Merged i m x y d := by
  have hlt := hc.last_lt hi
  obtain ⟨e, hback, he, hslice⟩ := CursorM.removeBack_run hc hi
  have habreast : EditM.Abreast c.session.forest ((c.children.drop (i + 1)).take m) c.session
      e.session := by
    refine ⟨he.forest, (EditM.removeSlice_keepsLayout _ _ _).of_ok hslice, hc.wellFormed, .refl _,
      fun k hk => ?_⟩
    exact hc.wellFormed.contains_of_mem_below (Forest.mem_of_mem_slice hk)
  obtain ⟨y, b, t, t', hremove, hset, hat, hsame, hstands⟩ :=
    EditM.setChildAndRemove_abreast hlt habreast hx hnot hxcs
  rw [← he.parent] at hset hat
  have hrun := CursorM.set_of_ok he.last hset hat
  obtain ⟨hsound, -⟩ := (set_keepsSound x).of_ok hrun (he.sound hc hi)
  have hreplace := CursorM.replace_of_set_ok hi hback hrun hsound he.last
  refine ⟨y, _, t, hreplace, hremove, hsame, Collapsed.merged ?_ hc (by omega) hstands⟩
  obtain ⟨-, -, ⟨-, y', d, hrun', hd⟩ | ⟨-, err, d, hrun'⟩⟩ := CursorM.replace_of_sound hc hi x
  · cases hreplace.symm.trans hrun'
    exact hd
  · exact nomatch hreplace.symm.trans hrun'

/-- Wherever `replace` has children to collapse and a node that can be put in their place, it agrees
with `setChildAndRemove`. The node is neither the parent nor above it, nor one of the children that are
only taken away. -/
def CollapsesAlike (copyable : C → Prop) (c : Cursor C) : Prop :=
  ∀ i m, c.last = some (i + m) → ∀ x, c.session.forest.Admits copyable c.parent x →
    ¬ c.session.forest.Covers x c.parent → x ∉ (c.children.drop (i + 1)).take m →
    ∃ y d t, CursorM.replace x (m + 1) c = .ok y d ∧
      EditM.setChildAndRemove c.parent x i (i + m + 1) c.session = .ok y t ∧
      d.session.forest.SameNodes t.forest ∧ c.Merged i m x y d

theorem exists_collapsesAlike {copyable : C → Prop} {s : Session C} {p : Handle}
    (hcopyable : ∀ content, RegularCopy.copyable content = true ↔ copyable content)
    (hF : s.forest.WellFormed) (hp : s.forest.contains p = true) :
    ∃ c, start s p = .ok c ∧ c.session = s ∧
      ∀ moves, (c.after moves).parent = p ∧ (c.after moves).CollapsesAlike copyable := by
  obtain rfl : (RegularCopy.copyable · = true) = copyable :=
    funext fun content => propext (hcopyable content)
  obtain ⟨c, hstart, hs, -, -, -, hmoves⟩ := exists_sound hF hp
  exact ⟨c, hstart, hs, fun moves => (hmoves moves).imp_right fun hc _ _ hi _ => hc.collapses hi⟩

end Cursor

/-- After whatever calls, a cursor that collapses children into one agrees with the edit that first puts
the new node in and then removes the others, with labels as with plain contents. -/
theorem collapses_like_setChildAndRemove :
    (∀ (s : Session Label), s.forest.WellFormed → ∀ p, s.forest.contains p = true →
      ∃ c, Cursor.start s p = .ok c ∧ c.session = s ∧ ∀ moves, (c.after moves).parent = p ∧
        (c.after moves).CollapsesAlike fun l : Label => l.kind ≠ .badCopy) ∧
    ∀ (s : Session Plain), s.forest.WellFormed → ∀ p, s.forest.contains p = true →
      ∃ c, Cursor.start s p = .ok c ∧ c.session = s ∧ ∀ moves, (c.after moves).parent = p ∧
        (c.after moves).CollapsesAlike fun _ : Plain => True :=
  ⟨fun _ hF _ hp => Cursor.exists_collapsesAlike (fun _ => decide_eq_true_iff) hF hp,
    fun _ hF _ hp => Cursor.exists_collapsesAlike (fun _ => iff_of_true rfl trivial) hF hp⟩

/-- The last two children of the row are collapsed into a copy of the first one. -/
theorem collapses_like_setChildAndRemove_row :
    Session.row.forest.WellFormed ∧
    ∃ c, Cursor.start Session.row ⟨0, 0⟩ = .ok c ∧
      ∃ d t, CursorM.replace ⟨1, 0⟩ 2 (c.after [.moveBy 3]) = .ok ⟨5, 0⟩ d ∧
        EditM.setChildAndRemove ⟨0, 0⟩ ⟨1, 0⟩ 1 3 Session.row = .ok ⟨5, 0⟩ t ∧
        d.session.forest.SameNodes t.forest ∧
        (c.after [.moveBy 3]).Merged 1 1 ⟨1, 0⟩ ⟨5, 0⟩ d ∧ d.children = [⟨1, 0⟩, ⟨5, 0⟩] := by
  have hF : Session.row.forest.WellFormed :=
    Session.wellFormed_after (Forest.wellFormed_empty {}) _
  obtain ⟨c, hstart, -, hmoves⟩ := collapses_like_setChildAndRemove.1 _ hF ⟨0, 0⟩ rfl
  have hleaf : ∀ k, Session.row.forest.Covers ⟨1, 0⟩ k → k = ⟨1, 0⟩ := fun k hk =>
    (Forest.covers_iff_eq_or_above.mp hk).resolve_right fun ha => hF.below_ne_nil_of_above ha rfl
  have hadmits : Session.row.forest.Admits (fun l : Label => l.kind ≠ .badCopy) ⟨0, 0⟩ ⟨1, 0⟩ := by
    refine ⟨rfl, Or.inr ⟨nofun, rfl, fun k n hk hn => ?_⟩⟩
    obtain rfl := hleaf k hk
    cases hn
    decide
  refine ⟨hF, c, hstart, ?_⟩
  have halike := (hmoves [.moveBy 3]).2
  cases hstart
  obtain ⟨y, d, t, hreplace, hset, hsame, hmerged⟩ := halike 1 1 rfl ⟨1, 0⟩ hadmits
    (hF.not_covers_of_over rfl) (by decide)
  cases hreplace
  exact ⟨_, t, rfl, hset, hsame, hmerged, rfl⟩

end Grove
