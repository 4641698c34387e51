import Grove.Proofs.Edit.Trade
import Grove.Proofs.Integrity

/-!
# Exchanges of subtrees

Two nodes with a parent, of which neither is above the other, trade places with everything below them.
The three replacements run over a placeholder, but in the end only the exchange itself is to be seen in
the links, and the placeholder is gone with all that its copy may have brought. Afterwards neither of
the two is above the other either, so the same exchange can be made once more, and it restores every
link.
-/

namespace Grove
set_option autoImplicit false

theorem Handle.exchange_left (a b : Handle) : exchange a b a = b := by
  simp [exchange]

theorem Handle.exchange_right (a b : Handle) : exchange a b b = a := by
  by_cases h : b = a <;> simp [exchange, h]

theorem Handle.exchange_comm (a b h : Handle) : exchange a b h = exchange b a h := by
  by_cases ha : h = a
  · rw [ha, exchange_left, exchange_right]
  · by_cases hb : h = b
    · rw [hb, exchange_left, exchange_right]
    · rw [exchange_of_ne ha hb, exchange_of_ne hb ha]

namespace Forest
variable {C : Type} {E F G : Forest C} {a b h k p : Handle}

namespace Traded

theorem symm (hG : F.Traded G a b) : F.Traded G b a := by
  have hcomm : Handle.exchange b a = Handle.exchange a b :=
    funext fun h => Handle.exchange_comm b a h
  refine ⟨hG.wellFormed, hG.live.symm, hG.contentOf?_eq, fun k => ?_, fun k => ?_, hG.settings⟩
  · rw [hcomm, hG.above?_eq]
  · rw [hcomm, hG.below_eq]

theorem sameNodes (hG : F.Traded G a b) (hE : G.Traded E a b) : E.SameNodes F := by
  refine ⟨fun k => get?_eq_get?_iff.mpr ⟨?_, ?_, ?_⟩, hE.settings.trans hG.settings⟩
  · rw [hE.contentOf?_eq, hG.contentOf?_eq]
  · rw [hE.above?_eq, hG.above?_eq, Handle.exchange_exchange]
  · rw [hE.below_eq, hG.below_eq, List.map_map]
    have hid : Handle.exchange a b ∘ Handle.exchange a b = id :=
      funext fun h => Handle.exchange_exchange a b h
    rw [hid, List.map_id]

theorem covers_of_aside (hG : F.Traded G a b) (ha : ¬ F.Covers a h) (hb : ¬ F.Covers b h)
    (hk : G.Covers k h) : F.Covers k h := by
  induction hk using Relation.ReflTransGen.head_induction_on with
  | refl => exact .refl
  | @head k c hkc _ ih =>
    have hca : c ≠ a := by
      rintro rfl
      exact ha ih
    have hcb : c ≠ b := by
      rintro rfl
      exact hb ih
    rw [Over, hG.above?_eq, Handle.exchange_of_ne hca hcb] at hkc
    exact .head hkc ih

theorem not_above (hG : F.Traded G a b) (hF : F.WellFormed) (hp : F.above? a = some p)
    (hba : ¬ F.Covers b a) : ¬ G.Above a b := by
  intro ha
  obtain ⟨r, har, hr⟩ := Relation.TransGen.tail'_iff.mp ha
  rw [Over, hG.above?_eq, Handle.exchange_right] at hr
  obtain rfl : r = p := Option.some.inj (hr.symm.trans hp)
  have hnot : ¬ F.Covers a r := hF.not_covers_of_over hp
  exact hnot (hG.covers_of_aside hnot (not_covers_of_over hba hp) har)

end Traded

end Forest

namespace EditM
variable {C : Type} {s : Session C} {a b p q : Handle}

open Classical in
theorem query_nested (hF : s.forest.WellFormed) (ha : s.forest.contains a = true)
    (hb : s.forest.contains b = true) :
    query (fun F => do
      if ← F.isAncestor a b then return true
      F.isAncestor b a) s = .ok (decide (s.forest.Above a b ∨ s.forest.Above b a)) s := by
  apply query_of_ok
  rw [hF.isAncestor_eq ha, hF.isAncestor_eq hb]
  by_cases hba : s.forest.Above b a <;> simp [hba, bind, Except.bind, pure, Except.pure]

theorem query_owned (ha : s.forest.contains a = true) (hb : s.forest.contains b = true) :
    query (fun F => do
      if !(← F.hasParent a) then return false
      F.hasParent b) s = .ok ((s.forest.above? a).isSome && (s.forest.above? b).isSome) s := by
  apply query_of_ok
  rw [Forest.hasParent_of_contains ha, Forest.hasParent_of_contains hb]
  cases s.forest.above? a <;> rfl

variable [ShallowCopy C]

theorem swapSubtrees_refused (hF : s.forest.WellFormed) (ha : s.forest.contains a = true)
    (hb : s.forest.contains b = true)
    (hrefused : (s.forest.Above a b ∨ s.forest.Above b a) ∨
      s.forest.above? a = none ∨ s.forest.above? b = none) :
    ∃ n, swapSubtrees a b s = .ok false { s with notices := s.notices ++ [n] } := by
  classical
  have hnested := query_nested hF ha hb
  by_cases habove : s.forest.Above a b ∨ s.forest.Above b a
  · rw [decide_eq_true habove] at hnested
    exact ⟨_, (bind_of_ok _ hnested).trans ((bind_of_ok _ (describe_run a s)).trans
      ((bind_of_ok _ (describe_run b s)).trans (bind_of_ok _ (notify_run _ s))))⟩
  · have howned := query_owned ha hb
    have hroot : ((s.forest.above? a).isSome && (s.forest.above? b).isSome) = false := by
      rcases hrefused.resolve_left habove with hroot | hroot <;> simp [hroot]
    rw [decide_eq_false habove] at hnested
    rw [hroot] at howned
    exact ⟨_, (bind_of_ok _ hnested).trans ((bind_of_ok _ howned).trans
      ((bind_of_ok _ (describe_run a s)).trans ((bind_of_ok _ (describe_run b s)).trans
        (bind_of_ok _ (notify_run _ s)))))⟩

theorem swapSubtrees_run [RegularCopy C] (hF : s.forest.WellFormed) (hne : a ≠ b)
    (hab : ¬ s.forest.Above a b) (hba : ¬ s.forest.Above b a)
    (hp : s.forest.above? a = some p) (hq : s.forest.above? b = some q) :
    ∃ t, swapSubtrees a b s = .ok true t ∧ s.forest.Traded t.forest a b := by
  classical
  have ha := Forest.contains_of_above? hp
  have hb := Forest.contains_of_above? hq
  have hnested := query_nested hF ha hb
  rw [decide_eq_false (not_or.mpr ⟨hab, hba⟩)] at hnested
  have howned := query_owned ha hb
  rw [hp, hq] at howned
  obtain ⟨c, u, hcopy, hsprout⟩ := copyShallow_of_contains hF ha
  obtain ⟨t, htrade, htraded⟩ := trade_run hF hsprout hp hq
    (Forest.not_covers_of_not_above hne hab) (Forest.not_covers_of_not_above hne.symm hba)
  exact ⟨t, (bind_of_ok _ hnested).trans ((bind_of_ok _ howned).trans
    ((bind_of_ok _ hcopy).trans htrade)), htraded⟩

structure SwapsSubtrees (s : Session C) (a b : Handle) : Prop where
  /-- nothing but a notice comes of it if one is above the other, or if one is a root -/
  refused : s.forest.Above a b ∨ s.forest.Above b a ∨
      s.forest.above? a = none ∨ s.forest.above? b = none →
    ∃ n, swap a b true s = .ok false { s with notices := s.notices ++ [n] }
  /-- else the two trade places, and trade them back if they are swapped again -/
  traded : ¬ s.forest.Above a b → ¬ s.forest.Above b a →
    s.forest.above? a ≠ none → s.forest.above? b ≠ none →
      ∃ t, swap a b true s = .ok true t ∧ s.forest.Traded t.forest a b ∧
        (∀ k, t.forest.contains k = s.forest.contains k) ∧
        ∃ u, swap a b true t = .ok true u ∧ u.forest.SameNodes s.forest

theorem swap_of_ne (hne : a ≠ b) : swap a b true s = swapSubtrees a b s := by
  simp only [swap, if_neg hne, if_true]

theorem swapsSubtrees [RegularCopy C] (hF : s.forest.WellFormed)
    (ha : s.forest.contains a = true) (hb : s.forest.contains b = true) (hne : a ≠ b) :
    SwapsSubtrees s a b := by
  constructor
  · intro hrefused
    rw [swap_of_ne hne]
    exact swapSubtrees_refused hF ha hb (or_assoc.mpr hrefused)
  · intro hab hba hpa hpb
    obtain ⟨p, hp⟩ := Option.ne_none_iff_exists'.mp hpa
    obtain ⟨q, hq⟩ := Option.ne_none_iff_exists'.mp hpb
    obtain ⟨t, hrun, ht⟩ := swapSubtrees_run hF hne hab hba hp hq
    -- the exchanged nodes can be exchanged again
    have hab' := ht.not_above hF hp (Forest.not_covers_of_not_above hne.symm hba)
    have hba' := ht.symm.not_above hF hq (Forest.not_covers_of_not_above hne hab)
    have hp' : t.forest.above? a = some q := by rw [ht.above?_eq, Handle.exchange_left, hq]
    have hq' : t.forest.above? b = some p := by rw [ht.above?_eq, Handle.exchange_right, hp]
    obtain ⟨u, hrun', hu⟩ := swapSubtrees_run ht.wellFormed hne hab' hba' hp' hq'
    rw [swap_of_ne hne]
    exact ⟨t, hrun, ht, ht.contains_eq, u, (swap_of_ne hne).trans hrun', ht.sameNodes hu⟩

end EditM

theorem swaps_subtrees :
    (∀ s : Session Label, s.forest.WellFormed → ∀ a b, s.forest.contains a = true →
      s.forest.contains b = true → a ≠ b → EditM.SwapsSubtrees s a b) ∧
    ∀ s : Session Plain, s.forest.WellFormed → ∀ a b, s.forest.contains a = true →
      s.forest.contains b = true → a ≠ b → EditM.SwapsSubtrees s a b :=
  ⟨fun _ hF _ _ => EditM.swapsSubtrees hF, fun _ hF _ _ => EditM.swapsSubtrees hF⟩

def Session.brothers : Session Label := (Session.fresh Label {}).after
  [.create ⟨.block, "a"⟩, .create ⟨.badCopy, "b"⟩, .create ⟨.block, "c"⟩, .create ⟨.leaf, "d"⟩,
    .addChild ⟨0, 0⟩ ⟨1, 0⟩, .addChild ⟨0, 0⟩ ⟨2, 0⟩, .addChild ⟨2, 0⟩ ⟨3, 0⟩]

/-- The bad copy and its sibling trade places, and trade them back; the leaf of the sibling does not
trade places with the sibling itself. -/
theorem swaps_brothers :
    Session.brothers.forest.WellFormed ∧
    (∃ t, EditM.swap ⟨1, 0⟩ ⟨2, 0⟩ true Session.brothers = .ok true t ∧
      Session.brothers.forest.Traded t.forest ⟨1, 0⟩ ⟨2, 0⟩ ∧
      (∀ k, t.forest.contains k = Session.brothers.forest.contains k) ∧
      ∃ u, EditM.swap ⟨1, 0⟩ ⟨2, 0⟩ true t = .ok true u ∧
        u.forest.SameNodes Session.brothers.forest) ∧
    ∃ n, EditM.swap ⟨3, 0⟩ ⟨2, 0⟩ true Session.brothers =
      .ok false { Session.brothers with notices := Session.brothers.notices ++ [n] } := by
  have hF : Session.brothers.forest.WellFormed :=
    Session.wellFormed_after (Forest.wellFormed_empty {}) _
  refine ⟨hF, ?_, ?_⟩
  · exact (swaps_subtrees.1 _ hF ⟨1, 0⟩ ⟨2, 0⟩ rfl rfl (by decide)).traded
      (hF.not_above_of_isAncestor rfl) (hF.not_above_of_isAncestor rfl) (by decide) (by decide)
  · exact (swaps_subtrees.1 _ hF ⟨3, 0⟩ ⟨2, 0⟩ rfl rfl (by decide)).refused
      (.inr (.inl (.single rfl)))

end Grove
