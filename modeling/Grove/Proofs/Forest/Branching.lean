import Grove.Proofs.Forest.Level

/-!
# Branching forests

A half link is a parent link that no list of children confirms. A forest with half links is not
well-formed, but its children lists may still be those of trees; it is called branching then. Clearing
the half links settles a branching forest: what comes out is well-formed and has the same children
lists, so all that is known of the ways down in well-formed forests carries over.

This module does NOT bound the ways up: half links may lead them in a circle.
-/

namespace Grove
set_option autoImplicit false

namespace Forest
variable {C : Type} {E F G : Forest C} {a c h k p q x : Handle} {st b : Stand}

def Lists (F : Forest C) (p c : Handle) : Prop := c ∈ F.below p

/-- The children lists are those of trees. -/
structure Branching (F : Forest C) : Prop where
  /-- a listed child is there and points back -/
  points : ∀ {p c}, c ∈ F.below p → F.above? c = some p
  /-- no list repeats a child -/
  nodup : ∀ p, (F.below p).Nodup
  /-- no way down comes back to where it began -/
  acyclic : ∀ h, ¬ Relation.TransGen F.Lists h h

/-! ## Settling -/

/-- The parent of a node, if it lists the node. -/
def confirmed? (F : Forest C) (h : Handle) : Option Handle :=
  (F.above? h).filter fun p => decide (h ∈ F.below p)

theorem confirmed?_eq_some_iff : F.confirmed? h = some p ↔ F.above? h = some p ∧ h ∈ F.below p := by
  simp [confirmed?, Option.filter_eq_some_iff]

/-- Clears all half links. -/
def settled (F : Forest C) : Forest C :=
  F.ids.foldl (fun G h => G.setParent h (F.confirmed? h)) F

theorem contains_foldl_setParent (f : Handle → Option Handle) (l : List Handle) (k : Handle) :
    (l.foldl (fun G h => G.setParent h (f h)) F).contains k = F.contains k := by
  induction l generalizing F with
  | nil => rfl
  | cons h l ih => rw [List.foldl_cons, ih, contains_setParent]

theorem below_foldl_setParent (f : Handle → Option Handle) (l : List Handle) (k : Handle) :
    (l.foldl (fun G h => G.setParent h (f h)) F).below k = F.below k := by
  induction l generalizing F with
  | nil => rfl
  | cons h l ih => rw [List.foldl_cons, ih, below_setParent]

theorem above?_foldl_setParent (f : Handle → Option Handle) (l : List Handle)
    (hl : ∀ h ∈ l, F.contains h = true) (k : Handle) :
    (l.foldl (fun G h => G.setParent h (f h)) F).above? k = if k ∈ l then f k else F.above? k := by
  induction l generalizing F with
  | nil => rfl
  | cons h l ih =>
    have hh := hl h List.mem_cons_self
    rw [List.foldl_cons, ih fun j hj => by simpa using hl j (List.mem_cons_of_mem h hj)]
    by_cases hk : k ∈ l
    · simp [hk]
    · by_cases hkh : k = h
      · subst hkh
        simp [hk, above?_setParent hh]
      · simp [hk, hkh, above?_setParent hh]

@[simp] theorem contains_settled (F : Forest C) (k : Handle) : F.settled.contains k = F.contains k :=
  contains_foldl_setParent _ _ _

@[simp] theorem below_settled (F : Forest C) (k : Handle) : F.settled.below k = F.below k :=
  below_foldl_setParent _ _ _

theorem above?_settled (F : Forest C) (k : Handle) : F.settled.above? k = F.confirmed? k := by
  rw [settled, above?_foldl_setParent _ _ fun h hh => mem_ids_iff.mp hh]
  split
  · rfl
  · rename_i hk
    have hdead : F.contains k = false := by
      rw [mem_ids_iff] at hk
      simpa using hk
    rw [confirmed?, above?_eq_none_of_not_contains hdead]
    rfl

theorem over_of_settled (hq : F.settled.Over q h) : F.Over q h := by
  rw [Over, above?_settled, confirmed?_eq_some_iff] at hq
  exact hq.1

theorem lists_of_settled (hq : F.settled.Over q h) : F.Lists q h := by
  rw [Over, above?_settled, confirmed?_eq_some_iff] at hq
  exact hq.2

theorem covers_of_settled (ha : F.settled.Covers a h) : F.Covers a h :=
  Relation.ReflTransGen.mono (fun _ _ => over_of_settled) _ _ ha

namespace Branching

theorem contains (hF : F.Branching) (hc : c ∈ F.below p) : F.contains c = true :=
  contains_of_above? (hF.points hc)

theorem not_listed_of_root (hF : F.Branching) (hroot : F.above? x = none) (p : Handle) :
    x ∉ F.below p := by
  intro hx
  rw [hF.points hx] at hroot
  exact nomatch hroot

theorem above?_settled_eq_some_iff (hF : F.Branching) :
    F.settled.above? c = some p ↔ c ∈ F.below p := by
  rw [above?_settled, confirmed?_eq_some_iff]
  exact ⟨And.right, fun hc => ⟨hF.points hc, hc⟩⟩

theorem wellFormed_settled (hF : F.Branching) : F.settled.WellFormed := by
  refine wellFormed_iff_links.mpr ⟨fun p h => ?_, fun p => ?_, fun h hh => ?_⟩
  · rw [hF.above?_settled_eq_some_iff, below_settled]
  · rw [below_settled]
    exact hF.nodup p
  · exact hF.acyclic h (Relation.TransGen.mono (fun _ _ => lists_of_settled) _ _ hh)

/-- A forest with the children lists of a well-formed one, all of them confirmed. -/
theorem of_wellFormed (hE : E.WellFormed) (hb : ∀ k, F.below k = E.below k)
    (ha : ∀ {c p}, E.above? c = some p → F.above? c = some p) : F.Branching where
  points {p c} hc := ha (hE.above?_eq_some_iff.mpr (hb p ▸ hc))
  nodup p := by
    rw [hb]
    exact hE.nodup_below p
  acyclic h hh := by
    refine hE.acyclic h (Relation.TransGen.mono (fun p c hc => ?_) _ _ hh)
    exact hE.above?_eq_some_iff.mpr (hb p ▸ hc)

/-- Leaving out children keeps a forest branching, as long as the others go on pointing back. -/
theorem of_sublist (hF : F.Branching) (hb : ∀ k, (G.below k).Sublist (F.below k))
    (ha : ∀ {c p}, c ∈ G.below p → G.above? c = F.above? c) : G.Branching where
  points hc := (ha hc).trans (hF.points ((hb _).subset hc))
  nodup p := (hF.nodup p).sublist (hb p)
  acyclic h hh := by
    refine hF.acyclic h (Relation.TransGen.mono (fun p c hc => ?_) _ _ hh)
    exact (hb p).subset hc

theorem congr (hF : F.Branching) (ha : ∀ k, G.above? k = F.above? k)
    (hb : ∀ k, G.below k = F.below k) : G.Branching :=
  hF.of_sublist (fun k => by rw [hb]) fun _ => ha _

end Branching

theorem WellFormed.branching (hF : F.WellFormed) : F.Branching :=
  .of_wellFormed hF (fun _ => rfl) id

/-! ## Stands in branching forests -/

theorem Bears.settled (hst : F.Bears st) : F.settled.Bears st := by
  induction st with
  | bare => trivial
  | tree top b r ihb ihr =>
    obtain ⟨htop, hbelow, hb, hr⟩ := hst
    exact ⟨by rwa [contains_settled], by rwa [below_settled], ihb hb, ihr hr⟩

theorem bears_of_settled (hst : F.settled.Bears st) : F.Bears st := by
  induction st with
  | bare => trivial
  | tree top b r ihb ihr =>
    obtain ⟨htop, hbelow, hb, hr⟩ := hst
    rw [contains_settled] at htop
    rw [below_settled] at hbelow
    exact ⟨htop, hbelow, ihb hb, ihr hr⟩

namespace Branching

/-- What stands below a node, none of it twice and never the node itself. -/
theorem exists_bears_below (hF : F.Branching) (hh : F.contains h = true) :
    ∃ b, F.Bears b ∧ b.tops = F.below h ∧ (h :: b.handles).Nodup ∧
      ∀ k, k ∈ h :: b.handles ↔ F.settled.Covers h k := by
  have hE := hF.wellFormed_settled
  obtain ⟨b, hb, hbt⟩ := hE.exists_bears (h := h) (by rwa [contains_settled])
  have hst : F.settled.Bears (.tree h b .bare) := ⟨by rwa [contains_settled], hbt.symm, hb, trivial⟩
  have hnd := hE.nodup_handles hst (q := F.settled.above? h) (by simp [Stand.tops])
    (List.nodup_singleton h)
  have hhandles : (Stand.tree h b .bare).handles = h :: b.handles := by simp [Stand.handles]
  rw [hhandles] at hnd
  refine ⟨b, bears_of_settled hb, by rw [hbt, below_settled], hnd, fun k => ?_⟩
  rw [← hhandles, hE.mem_handles_iff hst]
  simp [Stand.tops]

end Branching

/-- What stands below a node is listed, so it points back. -/
theorem owned_of_below (hnd : (h :: b.handles).Nodup)
    (hmem : ∀ k, k ∈ h :: b.handles ↔ F.settled.Covers h k) : ∀ k ∈ b.handles, F.above? k ≠ none := by
  intro k hk
  have hne : k ≠ h := fun he => (List.nodup_cons.mp hnd).1 (he ▸ hk)
  have hcovers := (hmem k).mp (List.mem_cons_of_mem h hk)
  rcases Relation.ReflTransGen.cases_tail hcovers with he | ⟨p, -, hp⟩
  · exact absurd he hne
  · rw [over_of_settled hp]
    exact Option.some_ne_none p

/-! ## Links that a check lets pass -/

section
variable [Content C]

/-- The check of a new edge asks the way up from the parent only if the child has children. -/
theorem not_covers_of_ensureAcyclic {u : Unit} (hu : F.ensureAcyclic p x = .ok u) :
    p ≠ x ∧ (F.below x ≠ [] → ¬ F.Covers x p) := by
  have hx : F.contains x = true := by
    cases hx : F.contains x with
    | true => rfl
    | false =>
      unfold ensureAcyclic at hu
      rw [hasChildren, node_of_not_contains hx] at hu
      split at hu <;> cases hu
  unfold ensureAcyclic at hu
  by_cases hpx : p = x
  · simp [hpx, throw, throwThe, MonadExceptOf.throw, bind, Except.bind] at hu
  have hne : (p == x) = false := by simpa using hpx
  refine ⟨hpx, fun hkids hc => ?_⟩
  have hkids' : (F.below x).isEmpty = false := by simpa using hkids
  simp only [hne, hasChildren_of_contains hx, hkids'] at hu
  -- `x` is above `p`, so a way up that has an end meets it
  have habove : F.Above x p := (covers_iff_eq_or_above.mp hc).resolve_left hpx
  obtain ⟨q, hxq, hq⟩ := Relation.TransGen.tail'_iff.mp habove
  have hp : F.contains p = true := contains_of_above? hq
  have hline : F.ascendants p = .ok (F.lineage (some q)) := by
    rw [ascendants_of_contains hp, hq]
  by_cases hm : x ∈ F.lineage (some q)
  · simp [isAncestor, hline, hm, bind, Except.bind, throw, throwThe, MonadExceptOf.throw,
      pure, Except.pure] at hu
  · have hcut : F.isCutOff (F.lineage (some q)) = true := by
      rw [isCutOff, beq_iff_eq]
      have hle : (F.lineage (some q)).length ≤ F.size + 2 := length_ascend_le F _ _
      have hlt : ¬ (F.lineage (some q)).length < F.size + 2 := fun hlt =>
        hm (mem_ascend_of_length_lt hlt hxq)
      omega
    simp [isAncestor, hline, hm, ensureRooted, hcut, bind, Except.bind, throw, throwThe,
      MonadExceptOf.throw] at hu

end
end Forest
end Grove
