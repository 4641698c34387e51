import Grove.Proofs.Forest.Walk

/-!
# The pre-order

Of two nodes of one tree, either one is above the other and comes first, or they are in the trees of
two siblings, and the one in the tree of the earlier sibling comes first. The walks that meet nodes
before their children keep this order, and no two nodes come before each other.
-/

namespace Grove
set_option autoImplicit false

namespace Forest
variable {C : Type} {F : Forest C} {a b h k m n p q x y : Handle} {st : Stand}

/-- `x` comes before `y`: it is above `y`, or in the tree of an earlier sibling. -/
def Precedes (F : Forest C) (x y : Handle) : Prop :=
  F.Above x y ∨ ∃ p a b, [a, b].Sublist (F.below p) ∧ F.Covers a x ∧ F.Covers b y

theorem sublist_pair_or {l : List Handle} (hm : m ∈ l) (hn : n ∈ l) (hne : m ≠ n) :
    [m, n].Sublist l ∨ [n, m].Sublist l := by
  induction l with
  | nil => simp at hm
  | cons x l ih =>
    rcases List.mem_cons.mp hm with rfl | hml
    · have hnl := (List.mem_cons.mp hn).resolve_left hne.symm
      exact Or.inl ((List.singleton_sublist.mpr hnl).cons_cons m)
    · rcases List.mem_cons.mp hn with rfl | hnl
      · exact Or.inr ((List.singleton_sublist.mpr hml).cons_cons n)
      · exact (ih hml hnl).imp (·.cons x) (·.cons x)

theorem idxOf_lt_of_sublist_pair {l : List Handle} (hnd : l.Nodup) (hmn : [m, n].Sublist l) :
    l.idxOf m < l.idxOf n := by
  induction l with
  | nil => simp at hmn
  | cons x l ih =>
    obtain ⟨hx, hnd⟩ := List.nodup_cons.mp hnd
    cases hmn with
    | cons _ hmn =>
      have hm : x ≠ m := fun he => hx (he ▸ hmn.subset List.mem_cons_self)
      have hn : x ≠ n := fun he => hx (he ▸ hmn.subset (List.mem_cons_of_mem m List.mem_cons_self))
      rw [List.idxOf_cons_ne l hm, List.idxOf_cons_ne l hn]
      exact Nat.succ_lt_succ (ih hnd hmn)
    | cons_cons _ hsub =>
      have hn : n ∈ l := List.singleton_sublist.mp hsub
      have hmn : m ≠ n := (ne_of_mem_of_not_mem hn hx).symm
      rw [List.idxOf_cons_self, List.idxOf_cons_ne l hmn]
      exact Nat.succ_pos _

namespace WellFormed

/-- The trees of two siblings have no node in common. -/
theorem eq_of_covers_of_siblings (hF : F.WellFormed) (ha : a ∈ F.below p) (hb : b ∈ F.below p)
    (hak : F.Covers a k) (hbk : F.Covers b k) : a = b := by
  by_contra hne
  have hap := hF.above?_eq_some_iff.mpr ha
  have hbp := hF.above?_eq_some_iff.mpr hb
  rcases covers_total hak hbk with hab | hba
  · exact hF.not_covers_of_siblings hap hbp hne hab
  · exact hF.not_covers_of_siblings hbp hap (Ne.symm hne) hba

theorem ne_of_sublist_pair (hF : F.WellFormed) (hab : [a, b].Sublist (F.below p)) : a ≠ b := by
  have hnd := (hF.nodup_below p).sublist hab
  simpa using hnd

theorem mem_of_sublist_pair (hab : [a, b].Sublist (F.below p)) : a ∈ F.below p ∧ b ∈ F.below p :=
  ⟨hab.subset (by simp), hab.subset (by simp)⟩

theorem not_covers_of_sublist_pair (hF : F.WellFormed) (hab : [a, b].Sublist (F.below p))
    (hak : F.Covers a k) : ¬ F.Covers b k := by
  intro hbk
  obtain ⟨ha, hb⟩ := mem_of_sublist_pair hab
  exact hF.ne_of_sublist_pair hab (hF.eq_of_covers_of_siblings ha hb hak hbk)

/-- Two pairs of siblings cannot put the same two nodes in opposite orders. -/
theorem not_opposed (hF : F.WellFormed) {a' b' : Handle} (hpq : F.Covers p q)
    (hab : [a, b].Sublist (F.below p)) (hba : [a', b'].Sublist (F.below q))
    (hax : F.Covers a x) (hby : F.Covers b y) (hay : F.Covers a' y) (hbx : F.Covers b' x) :
    False := by
  obtain ⟨ha, hb⟩ := mem_of_sublist_pair hab
  obtain ⟨ha', hb'⟩ := mem_of_sublist_pair hba
  rcases Relation.ReflTransGen.cases_head hpq with rfl | ⟨c, hc, hcq⟩
  · obtain rfl := hF.eq_of_covers_of_siblings ha hb' hax hbx
    obtain rfl := hF.eq_of_covers_of_siblings hb ha' hby hay
    have hlt := idxOf_lt_of_sublist_pair (hF.nodup_below p) hab
    have hgt := idxOf_lt_of_sublist_pair (hF.nodup_below p) hba
    omega
  · -- both nodes are below the child of `p` that leads to `q`
    have hc' : c ∈ F.below p := hF.above?_eq_some_iff.mp hc
    have hca' := hcq.tail (hF.above?_eq_some_iff.mpr ha')
    have hcb' := hcq.tail (hF.above?_eq_some_iff.mpr hb')
    obtain rfl := hF.eq_of_covers_of_siblings ha hc' hax (hcb'.trans hbx)
    obtain rfl := hF.eq_of_covers_of_siblings hb hc' hby (hca'.trans hay)
    exact hF.ne_of_sublist_pair hab rfl

theorem precedes_asymm (hF : F.WellFormed) (hxy : F.Precedes x y) : ¬ F.Precedes y x := by
  rcases hxy with hxy | ⟨p, a, b, hab, hax, hby⟩
  · rintro (hyx | ⟨q, a, b, hab, hay, hbx⟩)
    · exact hF.acyclic x (hxy.trans hyx)
    · exact hF.not_covers_of_sublist_pair hab hay (hbx.trans hxy.to_reflTransGen)
  · rintro (hyx | ⟨q, a', b', hba, hay, hbx⟩)
    · exact hF.not_covers_of_sublist_pair hab hax (hby.trans hyx.to_reflTransGen)
    · have hover : ∀ {r c k}, c ∈ F.below r → F.Covers c k → F.Covers r k := by
        intro r c k hc hck
        exact hck.head (hF.above?_eq_some_iff.mpr hc)
      have hpx := hover (mem_of_sublist_pair hab).1 hax
      have hqx := hover (mem_of_sublist_pair hba).2 hbx
      rcases covers_total hpx hqx with hpq | hqp
      · exact hF.not_opposed hpq hab hba hax hby hay hbx
      · exact hF.not_opposed hqp hba hab hay hbx hax hby

theorem pairwise_precedes (hF : F.WellFormed) (hst : F.Bears st)
    (htops : st.tops.Sublist (F.below p)) : st.handles.Pairwise F.Precedes := by
  induction st generalizing p with
  | bare => exact .nil
  | tree h b r ihb ihr =>
    obtain ⟨hh, hbelow, hb, hr⟩ := id hst
    have hdown : ∀ k ∈ b.handles, F.Above h k := fun k hk => (hF.mem_below_iff hst).mp hk
    have hbeside : ∀ x, F.Covers h x → ∀ y ∈ r.handles, F.Precedes x y := by
      intro x hx y hy
      obtain ⟨t, ht, hty⟩ := (hF.mem_handles_iff hr).mp hy
      have hpair : [h, t].Sublist (h :: r.tops) := (List.singleton_sublist.mpr ht).cons_cons h
      exact Or.inr ⟨p, h, t, hpair.trans htops, hx, hty⟩
    refine List.pairwise_cons.mpr ⟨fun k hk => ?_, List.pairwise_append.mpr ⟨?_, ?_, ?_⟩⟩
    · rcases List.mem_append.mp hk with hk | hk
      · exact Or.inl (hdown k hk)
      · exact hbeside h covers_refl k hk
    · exact ihb (p := h) hb (by rw [hbelow])
    · exact ihr hr ((List.sublist_cons_self h r.tops).trans htops)
    · exact fun x hx => hbeside x (hdown x hx).to_reflTransGen

end WellFormed
end Forest
end Grove
