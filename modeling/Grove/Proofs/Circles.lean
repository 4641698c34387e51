import Grove.Proofs.Edit.Part
import Grove.Proofs.Edit.Sibling
import Grove.Proofs.Integrity
import Grove.Proofs.Verification

/-!
# Circles

Before a node is made to point at a parent, the way up from the parent is asked for the node, but only
if the node has children. With half links around, nodes without children may be above others, and the
new link may then close a circle. It does so exactly if the node is above the parent.

An exchange of two nodes renames the links that are written at both ends. A half link that points at
one of the two is not renamed, so it is asked for here that there is none.

Over a history, then, no circle is closed as long as every step is taken with care: while a half link is
left, a link is written only below a node that is not below it already.
-/

namespace Grove
set_option autoImplicit false

namespace Forest
variable {C : Type} {F G : Forest C} {a b h k p x : Handle} {i : Nat}

/-- Every way up comes to an end. -/
def Rooted (F : Forest C) : Prop := ∀ h, ¬ F.Endless h

theorem Endless.of_over (hh : F.Endless h) (hp : F.Over p h) : F.Endless p := by
  obtain ⟨way, rfl, hway⟩ := hh
  refine ⟨fun i => way (i + 1), ?_, fun i => hway (i + 1)⟩
  exact Option.some.inj ((hway 0).symm.trans hp)

theorem Endless.of_covers (hh : F.Endless h) (ha : F.Covers a h) : F.Endless a := by
  induction ha using Relation.ReflTransGen.head_induction_on with
  | refl => exact hh
  | head hac _ ih => exact ih.of_over hac

theorem Endless.contains (hh : F.Endless h) : F.contains h = true := by
  obtain ⟨way, rfl, hway⟩ := hh
  exact contains_of_above? (hway 0)

theorem endless_of_above_self (hh : F.Above h h) : F.Endless h := by
  have hstep : ∀ k, F.Above k k → ∃ q, F.above? k = some q ∧ F.Above q q := by
    intro k hk
    obtain ⟨q, hkq, hq⟩ := Relation.TransGen.tail'_iff.mp hk
    exact ⟨q, hq, Relation.TransGen.head' hq hkq⟩
  have hclimb : ∀ i, ∃ q, F.climb i h = some q ∧ F.Above q q := by
    intro i
    induction i with
    | zero => exact ⟨h, rfl, hh⟩
    | succ i ih =>
      obtain ⟨k, hk, hkk⟩ := ih
      obtain ⟨q, hq, hqq⟩ := hstep k hkk
      exact ⟨q, by rw [climb_succ, hk, Option.bind_some, hq], hqq⟩
  refine ⟨fun i => (F.climb i h).getD h, rfl, fun i => ?_⟩
  obtain ⟨k, hk, hkk⟩ := hclimb i
  obtain ⟨q, hq, -⟩ := hstep k hkk
  show F.above? ((F.climb i h).getD h) = some ((F.climb (i + 1) h).getD h)
  rw [climb_succ, hk, Option.bind_some, Option.getD_some, hq, Option.getD_some]

/-- There are finitely many nodes, so a way up without end comes back. -/
theorem rooted_iff_acyclic : F.Rooted ↔ ∀ h, ¬ F.Above h h := by
  constructor
  · intro hF h hh
    exact hF h (endless_of_above_self hh)
  · intro hF h hh
    have hnd : (F.ascend (F.size + 2) (some h)).Nodup := by
      refine (pairwise_ascend F _ _).imp ?_
      rintro a b hab rfl
      exact hF a hab
    have hlive : ∀ k ∈ F.ascend (F.size + 2) (some h), F.contains k = true := fun k hk =>
      (hh.of_covers (covers_of_mem_ascend hk)).contains
    have hle := length_le_size hnd hlive
    obtain ⟨way, rfl, hway⟩ := hh
    rw [length_ascend_of_endless hway] at hle
    omega

theorem WellFormed.rooted (hF : F.WellFormed) : F.Rooted := rooted_iff_acyclic.mpr hF.acyclic

theorem Rooted.of_over (hF : F.Rooted) (hover : ∀ p h, G.Over p h → F.Over p h) : G.Rooted := by
  rw [rooted_iff_acyclic] at hF ⊢
  intro h hh
  exact hF h (Relation.TransGen.mono hover _ _ hh)

/-! ## New links -/

theorem over_setParent_eq_link (hx : F.contains x = true) :
    (F.setParent x (some p)).Over = (F.link p i x).Over := by
  funext q h
  rw [Over, Over, above?_setParent hx, above?_link hx]

/-- A new link closes a circle exactly if its lower end is above its upper end. -/
theorem Rooted.link_iff (hF : F.Rooted) (hx : F.contains x = true) (hroot : F.above? x = none) :
    (F.link p i x).Rooted ↔ ¬ F.Covers x p := by
  rw [rooted_iff_acyclic]
  constructor
  · intro hG hc
    refine hG x (Relation.TransGen.tail' (covers_link hx hroot hc) ?_)
    rw [Over, above?_link hx, if_pos rfl]
  · intro hnot h hh
    rcases above_of_link hx hh with hold | ⟨hhp, hxh⟩
    · exact rooted_iff_acyclic.mp hF h hold
    · exact hnot (hxh.trans hhp)

theorem rooted_congr (hover : F.Over = G.Over) : F.Rooted ↔ G.Rooted := by
  rw [rooted_iff_acyclic, rooted_iff_acyclic]
  unfold Above
  rw [hover]

theorem Rooted.setParent_iff (hF : F.Rooted) (hx : F.contains x = true)
    (hroot : F.above? x = none) : (F.setParent x (some p)).Rooted ↔ ¬ F.Covers x p :=
  (rooted_congr (over_setParent_eq_link (i := 0) hx)).trans (hF.link_iff hx hroot)

/-- The check does its work for a node with children, and for one that nobody points at. -/
theorem not_covers_of_passed [Content C] (hpass : F.ensureAcyclic p x = .ok ())
    (hx : F.below x ≠ [] ∨ ∀ h, F.above? h ≠ some x) : ¬ F.Covers x p := by
  obtain ⟨hne, hup⟩ := not_covers_of_ensureAcyclic hpass
  rcases hx with hkids | hfree
  · exact hup hkids
  · intro hc
    have habove := (covers_iff_eq_or_above.mp hc).resolve_left hne
    obtain ⟨d, hd, -⟩ := Relation.TransGen.head'_iff.mp habove
    exact hfree d hd

/-! ## Exchanges -/

/-- If all that point at one of the two nodes are listed there, all their parent links are renamed. -/
theorem over_of_writeExchanged {hs : List Handle}
    (hmem : ∀ h, h ∈ hs ↔ (h = a ∨ h = b) ∨ (F.above? a = some h ∨ h ∈ F.below a) ∨
      F.above? b = some h ∨ h ∈ F.below b)
    (hlive : ∀ h ∈ hs, F.contains (Handle.exchange a b h) = true)
    (ha : ∀ h, F.above? h = some a → h ∈ F.below a)
    (hb : ∀ h, F.above? h = some b → h ∈ F.below b)
    (hp : (hs.foldl (F.writeRenamed (Handle.exchange a b)) F).Over p h) :
    F.Over (Handle.exchange a b p) (Handle.exchange a b h) := by
  have hr := Handle.exchange_exchange a b
  rw [Over, above?_foldl_writeRenamed hr hlive] at hp
  by_cases hwrite : Handle.exchange a b h ∈ hs
  · rw [if_pos hwrite] at hp
    obtain ⟨q, hq, rfl⟩ := Option.map_eq_some_iff.mp hp
    rw [Over, hq, hr]
  · rw [if_neg hwrite] at hp
    -- `h` is none of the two, nor is its parent, for that one would list it
    have hfix : Handle.exchange a b h = h := by
      refine Handle.exchange_of_ne ?_ ?_
      · rintro rfl
        exact hwrite ((hmem _).mpr (by simp [Handle.exchange]))
      · rintro rfl
        exact hwrite ((hmem _).mpr (by simp [Handle.exchange]))
    rw [hfix] at hwrite ⊢
    have hpa : p ≠ a := by
      rintro rfl
      exact hwrite ((hmem h).mpr (Or.inr (Or.inl (Or.inr (ha h hp)))))
    have hpb : p ≠ b := by
      rintro rfl
      exact hwrite ((hmem h).mpr (Or.inr (Or.inr (Or.inr (hb h hp)))))
    rw [Handle.exchange_of_ne hpa hpb]
    exact hp

end Forest

/-- The law that no parent link is written unless it is cleared. -/
def Loosens {C : Type} (s t : Session C) : Prop := ∀ p h, t.forest.Over p h → s.forest.Over p h

namespace EditM
variable {C : Type} {s t : Session C} {a b p x : Handle} {i : Nat}

instance isPreorder_loosens : IsPreorder (Session C) Loosens where
  refl _ _ _ hp := hp
  trans _ _ _ hst htu p h hp := hst p h (htu p h hp)

theorem updateNode_loosens (h : Handle) {f : Node C → Node C}
    (hf : ∀ n q, (f n).parent = some q → n.parent = some q) : Follows Loosens (updateNode h f) := by
  refine .bind (.discard (.query _)) fun _ s p k hp => ?_
  change (s.forest.update h f).Over p k at hp
  rw [Forest.Over, Forest.above?, Forest.get?_update] at hp
  by_cases hk : k = h
  · subst hk
    rw [if_pos rfl] at hp
    obtain ⟨n, hn, hnp⟩ := Option.bind_eq_some_iff.mp hp
    obtain ⟨m, hm, rfl⟩ := Option.map_eq_some_iff.mp hn
    rw [Forest.Over, Forest.above?_of_get? hm]
    exact hf m p hnp
  · rwa [if_neg hk] at hp

theorem create_loosens (content : C) : Follows Loosens (create content) := by
  intro s p h hp
  rw [final_of_ok (create_run content s), Forest.Over] at hp
  rwa [Session.forest_withForest, Forest.above?_plant] at hp

theorem erase_loosens (hs : List Handle) :
    Follows Loosens (modifyNodes (C := C) fun st => hs.foldl Store.erase st) := by
  intro s p h hp
  change (s.forest.uproot hs).Over p h at hp
  rw [Forest.Over, Forest.above?_uproot] at hp
  by_cases hh : h ∈ hs
  · simp [hh] at hp
  · rwa [if_neg hh] at hp

theorem partLaw_loosens [Content C] : PartLaw (C := C) Loosens where
  notify _ _ _ _ hp := hp
  create := create_loosens
  setContent h _ := updateNode_loosens h fun _ _ hq => hq
  writeChildren h _ := updateNode_loosens h fun _ _ hq => hq
  clearParent h := updateNode_loosens h fun _ _ hq => by simp at hq
  erase := erase_loosens

theorem setAsParentOf_eq_ok [Content C] (hrun : setAsParentOf p x s = .ok () t) :
    s.forest.contains x = true ∧ s.forest.above? x = none ∧ s.forest.ensureAcyclic p x = .ok () ∧
      t.forest = s.forest.setParent x (some p) := by
  rcases setAsParentOf_cases p x s with ⟨-, hx, hroot, hpass, hok⟩ | ⟨e, herror⟩
  · rw [hok] at hrun
    cases hrun
    exact ⟨hx, hroot, hpass, rfl⟩
  · rw [herror] at hrun
    exact nomatch hrun

theorem attach_eq_ok [Content C] (hrun : attach p i x s = .ok () t) :
    s.forest.contains x = true ∧ s.forest.above? x = none ∧ s.forest.ensureAcyclic p x = .ok () ∧
      t.forest = s.forest.link p i x := by
  rcases setAsParentOf_cases p x s with ⟨hp, hx, hroot, hpass, -⟩ | ⟨e, herror⟩
  · by_cases hi : i ≤ (s.forest.below p).length
    · rw [attach_of_passed hp hx hroot hpass hi] at hrun
      cases hrun
      exact ⟨hx, hroot, hpass, rfl⟩
    · rw [attach_of_lt (Nat.not_le.mp hi) hp hx hroot hpass] at hrun
      cases hrun
  · rw [attach, bind_of_error _ herror] at hrun
    cases hrun

/-- An exchange that fails has not begun to write. -/
theorem swapPositions_rooted [ShallowCopy C] (hF : s.forest.Rooted)
    (ha : ∀ h, s.forest.above? h = some a → h ∈ s.forest.below a)
    (hb : ∀ h, s.forest.above? h = some b → h ∈ s.forest.below b) :
    (final (swapPositions a b) s).forest.Rooted := by
  by_cases hab : s.forest.contains a = true ∧ s.forest.contains b = true
  · obtain ⟨hs, haffected, hmem⟩ := affectedBySwap_of_contains hab.1 hab.2
    by_cases hlive : ∀ h ∈ hs, s.forest.contains h = true
    · obtain ⟨hrenamed, hok⟩ := swapPositions_of_affected haffected
        ((hmem a).mpr (Or.inl (Or.inl rfl))) ((hmem b).mpr (Or.inl (Or.inr rfl))) hlive
      rw [final_of_ok hok]
      rw [Forest.rooted_iff_acyclic] at hF ⊢
      intro h hh
      exact hF _ (Relation.TransGen.lift (Handle.exchange a b)
        (fun _ _ => Forest.over_of_writeExchanged hmem hrenamed ha hb) _ _ hh)
    · obtain ⟨e, herror⟩ := swapPositions_of_dead haffected (by simpa using hlive)
      rwa [final_of_error herror]
  · obtain ⟨e, herror⟩ := swapPositions_of_not_contains (s := s) (a := a) (b := b)
      (by simpa [imp_iff_not_or] using hab)
    rwa [final_of_error herror]

end EditM

/-! ## Histories -/

namespace EditM
variable {C : Type} {s : Session C} {a b p x : Handle}

theorem setAsParentOf_rooted [Content C] (hF : s.forest.Rooted) (hnot : ¬ s.forest.Covers x p) :
    (final (setAsParentOf p x) s).forest.Rooted := by
  rcases setAsParentOf_cases p x s with ⟨-, hx, hroot, -, hrun⟩ | ⟨e, hrun⟩
  · rw [final_of_ok hrun]
    exact (hF.setParent_iff hx hroot).mpr hnot
  · rwa [final_of_error hrun]

theorem attach_rooted [Content C] (hF : s.forest.Rooted) (hnot : ¬ s.forest.Covers x p) (i : Nat) :
    (final (attach p i x) s).forest.Rooted := by
  have hpoint := setAsParentOf_rooted hF hnot
  cases hrun : setAsParentOf p x s with
  | ok u t =>
    rw [final_of_ok hrun] at hpoint
    rw [attach, final_congr (bind_of_ok _ hrun)]
    exact hpoint.of_over (partLaw_loosens.editChildren p _ t)
  | error e t =>
    rw [final_of_error hrun] at hpoint
    rwa [attach, final_of_error (bind_of_error _ hrun)]

variable [ShallowCopy C]

theorem insertChild_rooted (hF : s.forest.Rooted) (hroot : s.forest.above? x = none)
    (hnot : ¬ s.forest.Covers x p) (i : Nat) : (final (insertChild p i x) s).forest.Rooted := by
  cases hp : s.forest.contains p with
  | false => rwa [final_of_error (insertChild_of_not_contains hp i x)]
  | true =>
    by_cases hi : i ≤ (s.forest.below p).length
    · rw [final_congr (insertChild_eq hp hi x)]
      cases hx : s.forest.contains x with
      | false => rwa [final_of_error (bind_of_error _ (sanitize_of_not_contains hx))]
      | true =>
        rw [final_congr (bind_of_ok _ (sanitize_of_root hx hroot)), final_bind_pure]
        exact attach_rooted hF hnot i
    · rwa [final_of_error (insertChild_of_lt hp (Nat.not_le.mp hi) x)]

theorem addChild_rooted (hF : s.forest.Rooted) (hroot : s.forest.above? x = none)
    (hnot : ¬ s.forest.Covers x p) : (final (addChild p x) s).forest.Rooted := by
  cases hlen : s.forest.numChildren p with
  | error e =>
    have hq := query_of_error (q := fun F => F.numChildren p) hlen
    rwa [addChild, final_of_error (bind_of_error _ hq)]
  | ok n =>
    have hq := query_of_ok (q := fun F => F.numChildren p) hlen
    rw [addChild, final_congr (bind_of_ok _ hq)]
    exact insertChild_rooted hF hroot hnot n

theorem swap_rooted (hF : s.forest.Rooted)
    (ha : ∀ h, s.forest.above? h = some a → h ∈ s.forest.below a)
    (hb : ∀ h, s.forest.above? h = some b → h ∈ s.forest.below b) :
    (final (swap a b false) s).forest.Rooted := by
  by_cases hab : a = b
  · have hquery : Follows Loosens (discard (query fun F : Forest C => F.node a)) :=
      .discard (.query _)
    rw [swap, if_pos hab, final_bind_pure]
    exact hF.of_over (hquery s)
  · rw [swap, if_neg hab, if_neg Bool.false_ne_true, final_bind_pure]
    exact swapPositions_rooted hF ha hb

end EditM

/-- What is asked of a step for it to close no circle. While half links are around, a node that is linked
is to be a root and not above its new parent, and none of them may point at a node that is exchanged. -/
inductive Step.Careful {C : Type} [Content C] (F : Forest C) : Step C → Prop where
  | setAsParentOf {p x : Handle} : ¬ F.Covers x p → Careful F (.setAsParentOf p x)
  | insertChild {p : Handle} (i : Nat) {x : Handle} :
      F.above? x = none → ¬ F.Covers x p → Careful F (.edit (.insertChild p i x))
  | addChild {p x : Handle} :
      F.above? x = none → ¬ F.Covers x p → Careful F (.edit (.addChild p x))
  | swap {a b : Handle} : (∀ h, F.above? h = some a → h ∈ F.below a) →
      (∀ h, F.above? h = some b → h ∈ F.below b) → Careful F (.edit (.swap a b false))
  | severs {e : Edit C} : e.Severs → Careful F (.edit e)
  | wellFormed (e : Edit C) : F.WellFormed → Careful F (.edit e)

/-- A history each step of which is careful where it is taken. -/
def Session.Careful {C : Type} [ShallowCopy C] : Session C → List (Step C) → Prop
  | _, [] => True
  | s, step :: steps => step.Careful s.forest ∧ (final step.run s).Careful steps

section
variable {C : Type} [ShallowCopy C] [SafeCopy C] {s : Session C}

theorem Step.Careful.rooted {step : Step C} (hstep : step.Careful s.forest)
    (hF : s.forest.Rooted) : (final step.run s).forest.Rooted := by
  cases hstep with
  | setAsParentOf hnot => exact EditM.setAsParentOf_rooted hF hnot
  | insertChild i hroot hnot =>
    rw [Step.run, Edit.run, final_discard]
    exact EditM.insertChild_rooted hF hroot hnot i
  | addChild hroot hnot =>
    rw [Step.run, Edit.run, final_discard]
    exact EditM.addChild_rooted hF hroot hnot
  | swap ha hb =>
    rw [Step.run, Edit.run, final_discard]
    exact EditM.swap_rooted hF ha hb
  | severs he => exact hF.of_over (EditM.partLaw_loosens.run he s)
  | wellFormed e hwf => exact (EditM.editLaw_keepsWellFormed.run e s hwf).rooted

theorem Session.Careful.rooted {steps : List (Step C)} (hsteps : s.Careful steps)
    (hF : s.forest.Rooted) : (s.afterSteps steps).forest.Rooted := by
  induction steps generalizing s with
  | nil => exact hF
  | cons step steps ih => exact ih hsteps.2 (hsteps.1.rooted hF)

end

/-- When the edits that write parent links keep every way up ending. A link that is written, whole or
half, does so unless its lower end is above its upper end, and never fails to if the lower end has
children or nobody points at it; an exchange of two nodes does so if all that point at one of them are
listed there. And a history does so if all its steps are careful. -/
theorem rooted_of_links (C : Type) [ShallowCopy C] :
    (∀ s t : Session C, s.forest.Rooted →
      (∀ p x, EditM.setAsParentOf p x s = .ok () t →
        (t.forest.Rooted ↔ ¬ s.forest.Covers x p) ∧
        (s.forest.below x ≠ [] ∨ (∀ h, s.forest.above? h ≠ some x) → t.forest.Rooted)) ∧
      (∀ p i x, EditM.attach p i x s = .ok () t →
        (t.forest.Rooted ↔ ¬ s.forest.Covers x p) ∧
        (s.forest.below x ≠ [] ∨ (∀ h, s.forest.above? h ≠ some x) → t.forest.Rooted)) ∧
      ∀ a b, EditM.swapPositions a b s = .ok () t →
        (∀ h, s.forest.above? h = some a → h ∈ s.forest.below a) →
        (∀ h, s.forest.above? h = some b → h ∈ s.forest.below b) → t.forest.Rooted) ∧
    ∀ [SafeCopy C] (s : Session C) (steps : List (Step C)), s.forest.Rooted → s.Careful steps →
      (s.afterSteps steps).forest.Rooted := by
  constructor
  · intro s t hF
    refine ⟨fun p x hrun => ?_, fun p i x hrun => ?_, fun a b hrun ha hb => ?_⟩
    · obtain ⟨hx, hroot, hpass, ht⟩ := EditM.setAsParentOf_eq_ok hrun
      have hiff : t.forest.Rooted ↔ ¬ s.forest.Covers x p := ht ▸ hF.setParent_iff hx hroot
      exact ⟨hiff, fun hfree => hiff.mpr (Forest.not_covers_of_passed hpass hfree)⟩
    · obtain ⟨hx, hroot, hpass, ht⟩ := EditM.attach_eq_ok hrun
      have hiff : t.forest.Rooted ↔ ¬ s.forest.Covers x p := ht ▸ hF.link_iff hx hroot
      exact ⟨hiff, fun hfree => hiff.mpr (Forest.not_covers_of_passed hpass hfree)⟩
    · exact final_of_ok hrun ▸ EditM.swapPositions_rooted hF ha hb
  · exact fun s steps hF hsteps => hsteps.rooted hF

def Session.pair : Session Label :=
  (Session.fresh Label {}).after [.create ⟨.block, "a"⟩, .create ⟨.block, "b"⟩]

/-- The first half link between two roots leaves all ways up ending, and so does the one the other way
round once the first is cleared. -/
theorem rooted_pair :
    Session.pair.forest.Rooted ∧
    (∃ t, EditM.setAsParentOf ⟨0, 0⟩ ⟨1, 0⟩ Session.pair = .ok () t ∧ t.forest.Rooted) ∧
    Session.pair.Careful [.setAsParentOf ⟨0, 0⟩ ⟨1, 0⟩, .edit (.detach ⟨1, 0⟩),
      .setAsParentOf ⟨1, 0⟩ ⟨0, 0⟩] ∧
    (Session.pair.afterSteps [.setAsParentOf ⟨0, 0⟩ ⟨1, 0⟩, .edit (.detach ⟨1, 0⟩),
      .setAsParentOf ⟨1, 0⟩ ⟨0, 0⟩]).forest.Rooted := by
  obtain ⟨hlinks, hhistory⟩ := rooted_of_links Label
  have hF : Session.pair.forest.Rooted :=
    (Session.wellFormed_after (Forest.wellFormed_empty {}) _).rooted
  have hroots : ∀ e ∈ Session.pair.forest.nodes.entries, e.2.parent = none := by decide
  have hfree : ∀ h, Session.pair.forest.above? h ≠ some ⟨1, 0⟩ := by
    intro h hh
    obtain ⟨n, hn, hup⟩ := Option.bind_eq_some_iff.mp hh
    have hnone := hroots (h, n) (Store.mem_entries_iff.mpr hn)
    rw [hup] at hnone
    exact nomatch hnone
  have hcareful : Session.pair.Careful [.setAsParentOf ⟨0, 0⟩ ⟨1, 0⟩, .edit (.detach ⟨1, 0⟩),
      .setAsParentOf ⟨1, 0⟩ ⟨0, 0⟩] := by
    refine ⟨.setAsParentOf ?_, .severs (.detach _), .setAsParentOf ?_, trivial⟩
    · exact Forest.not_covers_of_root rfl (by decide)
    · exact Forest.not_covers_of_root rfl (by decide)
  refine ⟨hF, ⟨_, rfl, ?_⟩, hcareful, hhistory _ _ hF hcareful⟩
  exact ((hlinks Session.pair _ hF).1 ⟨0, 0⟩ ⟨1, 0⟩ rfl).2 (Or.inr hfree)

/-- Two calls that both succeed, after which two nodes point at each other. -/
theorem not_rooted_of_pointing :
    ¬ (∀ steps : List (Step Label), ((Session.fresh Label {}).afterSteps steps).forest.Rooted) ∧
      ∃ t u, EditM.setAsParentOf ⟨0, 0⟩ ⟨1, 0⟩ Session.pair = .ok () t ∧
        EditM.setAsParentOf ⟨1, 0⟩ ⟨0, 0⟩ t = .ok () u ∧ ¬ u.forest.Rooted := by
  let u := Session.pair.afterSteps [.setAsParentOf ⟨0, 0⟩ ⟨1, 0⟩, .setAsParentOf ⟨1, 0⟩ ⟨0, 0⟩]
  have hcircle : ¬ u.forest.Rooted := by
    intro hF
    have hup : u.forest.Over ⟨1, 0⟩ ⟨0, 0⟩ := rfl
    have hdown : u.forest.Over ⟨0, 0⟩ ⟨1, 0⟩ := rfl
    exact hF ⟨0, 0⟩ (Forest.endless_of_above_self (Relation.TransGen.tail (.single hdown) hup))
  refine ⟨fun hall => ?_, _, _, rfl, rfl, hcircle⟩
  exact hcircle (hall [.edit (.create ⟨.block, "a"⟩), .edit (.create ⟨.block, "b"⟩),
    .setAsParentOf ⟨0, 0⟩ ⟨1, 0⟩, .setAsParentOf ⟨1, 0⟩ ⟨0, 0⟩])

end Grove
