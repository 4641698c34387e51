import Grove.Proofs.Forest.Ascent

/-!
# Stands

A stand is the shape of trees side by side, as data. In a well-formed forest the nodes below a given
one form a stand, its handles are pairwise different, and the walk that keeps a pending list meets
them in the order of the stand. Statements about walks and copies are proved by induction on stands.
-/

namespace Grove
set_option autoImplicit false

/-- Trees side by side: the top of the first one, what stands below it, and the other trees. -/
inductive Stand where
  | bare
  | tree (top : Handle) (below beside : Stand)

namespace Stand

def tops : Stand → List Handle
  | bare => []
  | tree h _ r => h :: r.tops

/-- All handles, nodes before what stands below them. -/
def handles : Stand → List Handle
  | bare => []
  | tree h b r => h :: (b.handles ++ r.handles)

theorem mem_handles_of_mem_tops {st : Stand} {h : Handle} (hh : h ∈ st.tops) : h ∈ st.handles := by
  induction st with
  | bare => simp [tops] at hh
  | tree top b r _ ihr =>
    rcases List.mem_cons.mp hh with rfl | hh
    · exact List.mem_cons_self
    · exact List.mem_cons_of_mem _ (List.mem_append_right _ (ihr hh))

/-- Copies given for the parts of a stand are those of one function. -/
theorem exists_glue {h : Handle} {b r : Stand} (hnd : (tree h b r).handles.Nodup) (c : Handle)
    (f₁ f₂ : Handle → Handle) :
    ∃ f : Handle → Handle, f h = c ∧ (∀ k ∈ b.handles, f k = f₁ k) ∧
      ∀ k ∈ r.handles, f k = f₂ k := by
  obtain ⟨hnot, hnd⟩ := List.nodup_cons.mp hnd
  obtain ⟨-, -, hdisj⟩ := List.nodup_append.mp hnd
  refine ⟨fun k => if k = h then c else if k ∈ b.handles then f₁ k else f₂ k, if_pos rfl, ?_, ?_⟩
  · intro k hk
    have hkh : k ≠ h := fun he => hnot (List.mem_append_left _ (he ▸ hk))
    simp only [if_neg hkh, if_pos hk]
  · intro k hk
    have hkh : k ≠ h := fun he => hnot (List.mem_append_right _ (he ▸ hk))
    have hkb : k ∉ b.handles := fun hkb => hdisj k hkb k hk rfl
    simp only [if_neg hkh, if_neg hkb]

end Stand

namespace Forest
variable {C : Type} {F G : Forest C} {a h k p t x : Handle} {st : Stand}

/-- Every handle of a stand names a node, and its children are the tops of the stand below it. -/
def Bears (F : Forest C) : Stand → Prop
  | .bare => True
  | .tree h b r => F.contains h = true ∧ F.below h = b.tops ∧ F.Bears b ∧ F.Bears r

theorem Bears.node {b : Stand} (hh : F.contains h = true) (hb : F.Bears b)
    (htops : b.tops = F.below h) : F.Bears (.tree h b .bare) := ⟨hh, htops.symm, hb, trivial⟩

theorem Bears.contains (hst : F.Bears st) (hh : h ∈ st.handles) : F.contains h = true := by
  induction st with
  | bare => simp [Stand.handles] at hh
  | tree top b r ihb ihr =>
    obtain ⟨htop, -, hb, hr⟩ := hst
    rcases List.mem_cons.mp hh with rfl | hh
    · exact htop
    · rcases List.mem_append.mp hh with hh | hh
      · exact ihb hb hh
      · exact ihr hr hh

theorem Bears.congr (hst : F.Bears st) (hG : ∀ h ∈ st.handles, G.get? h = F.get? h) :
    G.Bears st := by
  induction st with
  | bare => trivial
  | tree top b r ihb ihr =>
    obtain ⟨htop, hbelow, hb, hr⟩ := hst
    have he : G.get? top = F.get? top := hG top List.mem_cons_self
    refine ⟨?_, ?_, ihb hb ?_, ihr hr ?_⟩
    · rwa [contains_iff, he, ← contains_iff]
    · rw [← hbelow, Forest.below, Forest.below, he]
    · intro h hh
      exact hG h (List.mem_cons_of_mem _ (List.mem_append_left _ hh))
    · intro h hh
      exact hG h (List.mem_cons_of_mem _ (List.mem_append_right _ hh))

/-- The walk with a pending list meets a stand in its order. -/
theorem preOrderFrom_bears (hst : F.Bears st) (n : Nat) (pending : List Handle) :
    F.preOrderFrom (st.handles.length + n) (st.tops ++ pending) =
      st.handles ++ F.preOrderFrom n pending := by
  induction st generalizing n pending with
  | bare => simp [Stand.handles, Stand.tops]
  | tree top b r ihb ihr =>
    obtain ⟨-, hbelow, hb, hr⟩ := hst
    have hlen : (Stand.tree top b r).handles.length + n =
        (b.handles.length + (r.handles.length + n)) + 1 := by
      simp only [Stand.handles, List.length_cons, List.length_append]
      omega
    rw [hlen, Stand.tops, List.cons_append, preOrderFrom, hbelow, ihb hb, ihr hr]
    simp [Stand.handles]

@[simp] theorem preOrderFrom_nil (F : Forest C) (n : Nat) : F.preOrderFrom n [] = [] := by
  cases n <;> rfl

theorem Bears.length_le_capacity (hst : F.Bears st) (hnd : st.handles.Nodup) :
    st.handles.length ≤ F.nodes.capacity :=
  Nat.le_trans (length_le_size hnd fun _ hk => hst.contains hk) (size_le_capacity F)

theorem Bears.descendantsAndSelf_eq (hst : F.Bears st) (htops : st.tops = [h])
    (hnd : st.handles.Nodup) : F.descendantsAndSelf h = .ok st.handles := by
  have hh := hst.contains (Stand.mem_handles_of_mem_tops (htops ▸ List.mem_singleton_self h))
  obtain ⟨n, hn⟩ := contains_iff.mp hh
  have hwalk := preOrderFrom_bears hst (F.nodes.capacity - st.handles.length) []
  rw [Nat.add_sub_cancel' (hst.length_le_capacity hnd), htops, List.append_nil, preOrderFrom_nil,
    List.append_nil] at hwalk
  simp only [descendantsAndSelf, node_of_get? hn, hwalk]
  rfl

/-- The walk that leaves the node itself out meets what stands below it. -/
theorem Bears.descendants_eq {b : Stand} (hst : F.Bears (.tree h b .bare))
    (hnd : b.handles.Nodup) : F.descendants h = .ok b.handles := by
  obtain ⟨hh, hbelow, hb, -⟩ := hst
  have hwalk := preOrderFrom_bears hb (F.nodes.capacity - b.handles.length) []
  rw [Nat.add_sub_cancel' (hb.length_le_capacity hnd), List.append_nil, preOrderFrom_nil,
    List.append_nil, ← hbelow] at hwalk
  simp only [descendants, children_of_contains hh]
  exact congrArg Except.ok hwalk

namespace WellFormed

/-- Induction from the leaves up: a node may rely on its children. -/
theorem rootward_induction (hF : F.WellFormed) {P : Handle → Prop}
    (step : ∀ h, F.contains h = true → (∀ c ∈ F.below h, P c) → P h) (h : Handle)
    (hh : F.contains h = true) : P h := by
  -- a child has one more node above it than its parent
  induction hn : F.size - (F.lineage (some h)).length using Nat.strongRecOn
    generalizing h with
  | ind n ih =>
    refine step h hh fun c hc => ?_
    have hcin : F.contains c = true := hF.contains_of_mem_below hc
    have hover : F.Over h c := hF.above?_eq_some_iff.mpr hc
    have hnot : c ∉ F.lineage (some h) := fun hm =>
      hF.not_covers_of_over hover ((hF.mem_lineage_iff hh).mp hm)
    have hnd : (c :: F.lineage (some h)).Nodup :=
      List.nodup_cons.mpr ⟨hnot, (pairwise_ascend F _ _).imp fun hab => (hF.ne_of_above hab).symm⟩
    have hsub : c :: F.lineage (some h) ⊆ F.lineage (some c) := by
      intro a ha
      rw [hF.mem_lineage_iff hcin]
      rcases List.mem_cons.mp ha with rfl | ha
      · exact covers_refl
      · exact ((hF.mem_lineage_iff hh).mp ha).tail hover
    have hlen := (hnd.subperm hsub).length_le
    have hle := hF.length_lineage_le hcin
    rw [List.length_cons] at hlen
    exact ih _ (by omega) c hcin rfl

theorem exists_bears_of_tops {l : List Handle}
    (hl : ∀ c ∈ l, F.contains c = true ∧ ∃ st, F.Bears st ∧ st.tops = F.below c) :
    ∃ st, F.Bears st ∧ st.tops = l := by
  induction l with
  | nil => exact ⟨.bare, trivial, rfl⟩
  | cons c l ih =>
    obtain ⟨hc, b, hb, hbt⟩ := hl c List.mem_cons_self
    obtain ⟨r, hr, hrt⟩ := ih fun d hd => hl d (List.mem_cons_of_mem _ hd)
    exact ⟨.tree c b r, ⟨hc, hbt.symm, hb, hr⟩, by rw [Stand.tops, hrt]⟩

/-- The nodes below a node form a stand. -/
theorem exists_bears (hF : F.WellFormed) (hh : F.contains h = true) :
    ∃ st, F.Bears st ∧ st.tops = F.below h := by
  refine hF.rootward_induction (P := fun h => ∃ st, F.Bears st ∧ st.tops = F.below h)
    (fun h _ ih => ?_) h hh
  exact exists_bears_of_tops fun c hc => ⟨hF.contains_of_mem_below hc, ih c hc⟩

theorem mem_handles_iff (hF : F.WellFormed) (hst : F.Bears st) :
    h ∈ st.handles ↔ ∃ t ∈ st.tops, F.Covers t h := by
  induction st with
  | bare => simp [Stand.handles, Stand.tops]
  | tree top b r ihb ihr =>
    obtain ⟨-, hbelow, hb, hr⟩ := hst
    have hdown : F.Covers top h ↔ h = top ∨ ∃ t ∈ b.tops, F.Covers t h := by
      rw [covers_iff_eq_or_above, Above, Relation.TransGen.head'_iff]
      simp only [Over, hF.above?_eq_some_iff, hbelow, Covers]
    simp only [Stand.handles, Stand.tops, List.mem_cons, List.mem_append, ihb hb, ihr hr,
      exists_eq_or_imp, hdown, or_assoc]

theorem not_covers_of_siblings (hF : F.WellFormed) {q : Option Handle} (ha : F.above? a = q)
    (hh : F.above? h = q) (hne : a ≠ h) : ¬ F.Covers a h := by
  intro hc
  rcases Relation.ReflTransGen.cases_tail hc with he | ⟨p, hap, hp⟩
  · exact hne he.symm
  · exact hF.not_covers_of_over (ha.trans (hh.symm.trans hp)) hap

/-- Trees of which the tops have one parent, or are all roots, do not overlap. -/
theorem nodup_handles (hF : F.WellFormed) (hst : F.Bears st) {q : Option Handle}
    (hq : ∀ t ∈ st.tops, F.above? t = q) (hnd : st.tops.Nodup) : st.handles.Nodup := by
  induction st generalizing q with
  | bare => exact List.nodup_nil
  | tree top b r ihb ihr =>
    obtain ⟨htop, hbelow, hb, hr⟩ := hst
    obtain ⟨hnot, hrnd⟩ := List.nodup_cons.mp hnd
    have hpoint : ∀ t ∈ b.tops, F.above? t = some top := fun t ht =>
      hF.above?_eq_some_iff.mpr (hbelow ▸ ht)
    have hunder : ∀ {k}, k ∈ b.handles → F.Above top k := by
      intro k hk
      obtain ⟨t, ht, htk⟩ := (hF.mem_handles_iff hb).mp hk
      exact Relation.TransGen.head' (hpoint t ht) htk
    have hapart : ∀ {t k}, t ∈ r.tops → F.Covers t k → ¬ F.Covers top k := by
      intro t k ht htk hk
      have hne : t ≠ top := fun he => hnot (he ▸ ht)
      have htq := hq t (List.mem_cons_of_mem _ ht)
      have hq' := hq top List.mem_cons_self
      rcases covers_total hk htk with h | h
      · exact hF.not_covers_of_siblings hq' htq hne.symm h
      · exact hF.not_covers_of_siblings htq hq' hne h
    refine List.nodup_cons.mpr ⟨fun hm => ?_, List.nodup_append.mpr ⟨?_, ?_, ?_⟩⟩
    · rcases List.mem_append.mp hm with hm | hm
      · exact hF.acyclic top (hunder hm)
      · obtain ⟨t, ht, htk⟩ := (hF.mem_handles_iff hr).mp hm
        exact hapart ht htk covers_refl
    · exact ihb hb hpoint (hbelow ▸ hF.nodup_below top)
    · exact ihr hr (fun t ht => hq t (List.mem_cons_of_mem _ ht)) hrnd
    · rintro k hkb k' hkr rfl
      obtain ⟨t, ht, htk⟩ := (hF.mem_handles_iff hr).mp hkr
      exact hapart ht htk (hunder hkb).to_reflTransGen

theorem exists_bears_single (hF : F.WellFormed) (hh : F.contains h = true) :
    ∃ st, F.Bears st ∧ st.tops = [h] ∧ st.handles.Nodup := by
  obtain ⟨b, hb, hbt⟩ := hF.exists_bears hh
  have hst : F.Bears (.tree h b .bare) := ⟨hh, hbt.symm, hb, trivial⟩
  exact ⟨_, hst, rfl, hF.nodup_handles hst (q := F.above? h) (by simp [Stand.tops])
    (List.nodup_singleton h)⟩

/-- The walk from a node meets the node and everything below it, each node once. -/
theorem descendantsAndSelf_eq (hF : F.WellFormed) (hh : F.contains h = true) :
    ∃ ds, F.descendantsAndSelf h = .ok ds ∧ ds.Nodup ∧ ∀ k, k ∈ ds ↔ F.Covers h k := by
  obtain ⟨st, hst, htops, hnd⟩ := hF.exists_bears_single hh
  refine ⟨st.handles, hst.descendantsAndSelf_eq htops hnd, hnd, fun k => ?_⟩
  rw [hF.mem_handles_iff hst, htops]
  simp

end WellFormed
end Forest
end Grove
