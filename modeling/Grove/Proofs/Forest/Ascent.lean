import Grove.Proofs.Forest.Links
import Mathlib.Data.List.Perm.Subperm

/-!
# The way up

In a well-formed forest the way up from a node meets pairwise different nodes, so it ends within as
many steps as there are nodes. The bound that `lineage` sets is therefore never reached, and
`isAncestor` and `ensureAcyclic` decide the relations `Above` and `Covers`.
-/

namespace Grove
set_option autoImplicit false

theorem mapM_ok {α β ε : Type} {f : α → Except ε β} {g : α → β} {l : List α}
    (hf : ∀ a ∈ l, f a = .ok (g a)) : l.mapM f = .ok (l.map g) := by
  induction l with
  | nil => rfl
  | cons a l ih =>
    rw [List.mapM_cons, hf a List.mem_cons_self, ih fun b hb => hf b (List.mem_cons_of_mem a hb)]
    rfl

namespace Forest
variable {C : Type} {F : Forest C} {a b h p x : Handle}

theorem mem_ids_iff : h ∈ F.ids ↔ F.contains h = true := by
  rw [ids, Store.mem_handles_iff, contains_iff]
  rfl

theorem length_le_size {l : List Handle} (hl : l.Nodup) (hin : ∀ h ∈ l, F.contains h = true) :
    l.length ≤ F.size := by
  have hsub : l ⊆ F.ids := fun h hh => mem_ids_iff.mpr (hin h hh)
  have hlen := (hl.subperm hsub).length_le
  rwa [ids, Store.length_handles] at hlen

theorem size_congr {G : Forest C} (hFG : ∀ h, F.contains h = G.contains h) : F.size = G.size := by
  have hle : ∀ {E H : Forest C}, (∀ h, E.contains h = H.contains h) → E.size ≤ H.size := by
    intro E H h
    have hle := length_le_size (F := H) (Store.handles_nodup E.nodes) fun k hk =>
      (h k).symm.trans (mem_ids_iff.mp hk)
    rwa [Store.length_handles] at hle
  exact Nat.le_antisymm (hle hFG) (hle fun h => (hFG h).symm)

theorem size_le_capacity (F : Forest C) : F.size ≤ F.nodes.capacity := Nat.sub_le _ _

theorem ascend_succ_some (F : Forest C) (n : Nat) (h : Handle) :
    F.ascend (n + 1) (some h) = h :: F.ascend n (F.above? h) := rfl

@[simp] theorem ascend_none (F : Forest C) (n : Nat) : F.ascend n none = [] := by
  cases n <;> rfl

theorem length_ascend_le (F : Forest C) (limit : Nat) (start : Option Handle) :
    (F.ascend limit start).length ≤ limit := by
  induction limit generalizing start with
  | zero => exact Nat.le_refl 0
  | succ limit ih =>
    cases start with
    | none => exact Nat.zero_le _
    | some h => exact Nat.succ_le_succ (ih _)

theorem covers_of_mem_ascend {n : Nat} (ha : a ∈ F.ascend n (some h)) : F.Covers a h := by
  induction n generalizing h with
  | zero => simp [ascend] at ha
  | succ n ih =>
    rw [ascend_succ_some] at ha
    rcases List.mem_cons.mp ha with rfl | ha
    · exact .refl
    · cases hp : F.above? h with
      | none => simp [hp] at ha
      | some p =>
        rw [hp] at ha
        exact (ih ha).tail hp

theorem pairwise_ascend (F : Forest C) (n : Nat) (start : Option Handle) :
    (F.ascend n start).Pairwise fun a b => F.Above b a := by
  induction n generalizing start with
  | zero => exact .nil
  | succ n ih =>
    cases start with
    | none => exact .nil
    | some h =>
      rw [ascend_succ_some]
      refine List.pairwise_cons.mpr ⟨fun b hb => ?_, ih _⟩
      cases hp : F.above? h with
      | none => simp [hp] at hb
      | some p =>
        rw [hp] at hb
        exact Relation.TransGen.tail' (covers_of_mem_ascend hb) hp

/-- A way up that is shorter than its bound goes on to the root. -/
theorem mem_ascend_of_length_lt {n : Nat} (hlen : (F.ascend n (some h)).length < n)
    (ha : F.Covers a h) : a ∈ F.ascend n (some h) := by
  induction n generalizing h with
  | zero => simp at hlen
  | succ n ih =>
    rw [ascend_succ_some] at hlen ⊢
    rcases Relation.ReflTransGen.cases_tail ha with rfl | ⟨p, hap, hp⟩
    · exact List.mem_cons_self
    · rw [Over] at hp
      rw [hp] at hlen ⊢
      exact List.mem_cons_of_mem _ (ih (by simpa using hlen) hap)

theorem getLast?_ascend {n : Nat} (hlen : (F.ascend n (some h)).length < n) :
    ∃ top, (F.ascend n (some h)).getLast? = some top ∧ F.above? top = none := by
  induction n generalizing h with
  | zero => simp at hlen
  | succ n ih =>
    rw [ascend_succ_some] at hlen ⊢
    cases hp : F.above? h with
    | none => exact ⟨h, by simp, hp⟩
    | some p =>
      rw [hp] at hlen
      obtain ⟨top, htop, hroot⟩ := ih (h := p) (by simpa using hlen)
      refine ⟨top, ?_, hroot⟩
      rw [List.getLast?_cons, htop]
      rfl

theorem parent_of_contains (hh : F.contains h = true) : F.parent h = .ok (F.above? h) := by
  obtain ⟨n, hn⟩ := contains_iff.mp hh
  simp only [parent, node, hn, above?]
  rfl

theorem children_of_contains (hh : F.contains h = true) : F.children h = .ok (F.below h) := by
  obtain ⟨n, hn⟩ := contains_iff.mp hh
  simp only [children, node, hn, below]
  rfl

theorem numChildren_of_contains (hh : F.contains h = true) :
    F.numChildren h = .ok (F.below h).length := by
  obtain ⟨n, hn⟩ := contains_iff.mp hh
  simp only [numChildren, node, hn, below]
  rfl

theorem node_of_get? {n : Node C} (hn : F.get? h = some n) : F.node h = .ok n := by
  simp [node, hn]

theorem node_eq_ok {n : Node C} : F.node h = .ok n ↔ F.get? h = some n := by
  unfold node
  cases F.get? h <;> simp

theorem node_of_not_contains (hh : F.contains h = false) : F.node h = .error (.invalidHandle h) := by
  simp [node, not_contains_iff.mp hh]

theorem parent_eq_ok {q : Option Handle} (hq : F.parent h = .ok q) :
    F.contains h = true ∧ F.above? h = q := by
  cases hh : F.contains h with
  | false =>
    rw [parent, node_of_not_contains hh] at hq
    exact nomatch hq
  | true =>
    rw [parent_of_contains hh] at hq
    exact ⟨rfl, Except.ok.inj hq⟩

theorem numChildren_eq_ok {n : Nat} (hn : F.numChildren h = .ok n) :
    F.contains h = true ∧ n = (F.below h).length := by
  cases hh : F.contains h with
  | false =>
    rw [numChildren, node_of_not_contains hh] at hn
    exact nomatch hn
  | true =>
    rw [numChildren_of_contains hh] at hn
    exact ⟨rfl, (Except.ok.inj hn).symm⟩

theorem children_eq_ok {cs : List Handle} (hcs : F.children h = .ok cs) :
    F.contains h = true ∧ cs = F.below h := by
  cases hh : F.contains h with
  | false =>
    rw [children, node_of_not_contains hh] at hcs
    exact nomatch hcs
  | true =>
    rw [children_of_contains hh] at hcs
    exact ⟨rfl, (Except.ok.inj hcs).symm⟩

theorem indexError_of_contains [Content C] (hh : F.contains h = true) (i : Nat) :
    F.indexError h i = .indexOutOfBounds (F.describe h) i (F.below h).length := by
  obtain ⟨n, hn⟩ := contains_iff.mp hh
  rw [indexError, hn, below_of_get? hn]
  rfl

/-! What is said of a node by its content alone. -/

theorem describe_congr [Content C] {G : Forest C} (hcontent : G.contentOf? h = F.contentOf? h) :
    G.describe h = F.describe h := by
  have hline : ∀ E : Forest C, E.describe h =
      ((E.contentOf? h).elim s!"<invalid {h}>" fun content => Content.line content) := by
    intro E
    rw [describe, contentOf?]
    cases E.get? h <;> rfl
  rw [hline, hline, hcontent]

theorem isKind_eq [Content C] (F : Forest C) (k : Kind C) (h : Handle) :
    F.isKind k h = decide ((F.contentOf? h).map Content.kind = some k) := by
  rw [isKind, contentOf?]
  cases F.get? h <;> simp

theorem isKind_congr [Content C] {G : Forest C} (hcontent : G.contentOf? h = F.contentOf? h)
    (k : Kind C) : G.isKind k h = F.isKind k h := by
  rw [isKind_eq, isKind_eq, hcontent]

theorem getElem?_of_child [Content C] {c : Handle} {i : Nat} (hc : F.child p i = .ok c) :
    (F.below p)[i]? = some c := by
  cases hn : F.get? p with
  | none =>
    rw [child, node, hn] at hc
    exact nomatch hc
  | some n =>
    rw [below_of_get? hn]
    unfold child at hc
    rw [node_of_get? hn] at hc
    cases hempty : n.children.isEmpty with
    | true => simp [bind, Except.bind, hempty, throw, throwThe, MonadExceptOf.throw] at hc
    | false =>
      simp only [bind, Except.bind, hempty, Bool.false_eq_true, if_false] at hc
      cases hi : n.children[i]? with
      | none =>
        rw [hi] at hc
        exact nomatch hc
      | some d =>
        rw [hi] at hc
        cases hc
        rfl

namespace WellFormed

theorem length_lineage_le (hF : F.WellFormed) (hh : F.contains h = true) :
    (F.lineage (some h)).length ≤ F.size := by
  refine length_le_size ?_ fun a ha => hF.contains_of_covers (covers_of_mem_ascend ha) hh
  exact (pairwise_ascend F _ _).imp fun hab => (hF.ne_of_above hab).symm

theorem mem_lineage_iff (hF : F.WellFormed) (hh : F.contains h = true) :
    a ∈ F.lineage (some h) ↔ F.Covers a h := by
  refine ⟨covers_of_mem_ascend, mem_ascend_of_length_lt ?_⟩
  have hlen := hF.length_lineage_le hh
  unfold lineage at hlen
  omega

theorem ensureRooted_lineage (hF : F.WellFormed) (hh : F.contains h = true) :
    F.ensureRooted (F.lineage (some h)) = .ok () := by
  have hlen := hF.length_lineage_le hh
  have hcut : F.isCutOff (F.lineage (some h)) = false := by
    simp only [isCutOff, beq_eq_false_iff_ne]
    omega
  obtain ⟨top, htop, -⟩ := getLast?_ascend (F := F) (h := h) (n := F.size + 2)
    (by unfold lineage at hlen; omega)
  have hmem : top ∈ F.lineage (some h) := List.mem_of_getLast? htop
  obtain ⟨n, hn⟩ :=
    contains_iff.mp (hF.contains_of_covers ((hF.mem_lineage_iff hh).mp hmem) hh)
  change (F.lineage (some h)).getLast? = some top at htop
  simp only [ensureRooted, hcut, Bool.false_eq_true, if_false, htop, node_of_get? hn]
  rfl

/-- `isAncestor` decides the relation `Above` on nodes. -/
theorem isAncestor_eq (hF : F.WellFormed) (hh : F.contains h = true) [Decidable (F.Above x h)] :
    F.isAncestor h x = .ok (decide (F.Above x h)) := by
  simp only [isAncestor, ascendants, parent_of_contains hh]
  cases hp : F.above? h with
  | none =>
    have hnot : ¬ F.Above x h := by
      intro hx
      obtain ⟨q, -, hq⟩ := Relation.TransGen.tail'_iff.mp hx
      exact absurd (hq.symm.trans hp) (by simp)
    simp only [hnot, decide_false]
    rfl
  | some p =>
    have hpin : F.contains p = true := hF.contains_of_above? hp
    have habove : F.Above x h ↔ x ∈ F.lineage (some p) := by
      rw [hF.mem_lineage_iff hpin]
      constructor
      · intro hx
        obtain ⟨q, hxq, hq⟩ := Relation.TransGen.tail'_iff.mp hx
        exact Option.some.inj (hq.symm.trans hp) ▸ hxq
      · exact fun hx => Relation.TransGen.tail' hx hp
    by_cases hx : x ∈ F.lineage (some p)
    · simp [bind, Except.bind, pure, Except.pure, habove, hx]
    · simp [bind, Except.bind, pure, Except.pure, habove, hx, hF.ensureRooted_lineage hpin]

end WellFormed

theorem isAncestor_of_not_contains (hh : F.contains h = false) (x : Handle) :
    F.isAncestor h x = .error (.invalidHandle h) := by
  simp only [isAncestor, ascendants, parent, node_of_not_contains hh]
  rfl

open Classical in
theorem WellFormed.isAncestor_eq_ok (hF : F.WellFormed) {r : Bool}
    (hr : F.isAncestor h x = .ok r) : F.contains h = true ∧ (r = true ↔ F.Above x h) := by
  cases hh : F.contains h with
  | false =>
    rw [isAncestor_of_not_contains hh] at hr
    exact nomatch hr
  | true =>
    rw [hF.isAncestor_eq hh] at hr
    rw [← Except.ok.inj hr]
    simp

theorem covers_refl : F.Covers h h := Relation.ReflTransGen.refl

theorem WellFormed.not_above_of_isAncestor (hF : F.WellFormed) (hr : F.isAncestor h x = .ok false) :
    ¬ F.Above x h := fun ha =>
  nomatch (hF.isAncestor_eq_ok hr).2.mpr ha

theorem covers_iff_eq_or_above : F.Covers x p ↔ p = x ∨ F.Above x p :=
  Relation.reflTransGen_iff_eq_or_transGen

theorem hasChildren_of_contains (hh : F.contains h = true) :
    F.hasChildren h = .ok (!(F.below h).isEmpty) := by
  obtain ⟨n, hn⟩ := contains_iff.mp hh
  simp only [hasChildren, node, hn, below]
  rfl

namespace WellFormed
variable [Content C]

open Classical in
/-- The short cut for childless nodes is sound: such a node is above no other one. -/
theorem ensureAcyclic_eq (hF : F.WellFormed) (hp : F.contains p = true)
    (hx : F.contains x = true) :
    F.ensureAcyclic p x =
      if F.Covers x p then .error (.cycleDetected (F.describe x)) else .ok () := by
  unfold ensureAcyclic
  by_cases hpx : p = x
  · subst hpx
    rw [if_pos covers_refl]
    simp [throw, throwThe, MonadExceptOf.throw, bind, Except.bind]
  · have hne : (p == x) = false := by simpa using hpx
    simp only [covers_iff_eq_or_above, hpx, false_or, hne, hasChildren_of_contains hx,
      hF.isAncestor_eq hp]
    by_cases ha : F.Above x p
    · have hkids : (F.below x).isEmpty = false := by
        simpa using hF.below_ne_nil_of_above ha
      simp only [ha, hkids, if_true, decide_true]
      rfl
    · simp only [ha, if_false, decide_false]
      cases (F.below x).isEmpty <;> rfl

open Classical in
theorem ensureNotAbove_eq (hF : F.WellFormed) (hb : F.contains b = true) :
    F.ensureNotAbove b x =
      if F.Covers x b then .error (.cycleDetected (F.describe x)) else .ok () := by
  unfold ensureNotAbove
  by_cases hbx : b = x
  · subst hbx
    rw [if_pos covers_refl]
    simp [throw, throwThe, MonadExceptOf.throw, bind, Except.bind]
  · have hne : (x == b) = false := by simpa using Ne.symm hbx
    simp only [covers_iff_eq_or_above, hbx, false_or, hne, hF.isAncestor_eq hb]
    by_cases ha : F.Above x b
    · simp only [ha, if_true, decide_true]
      rfl
    · simp only [ha, if_false, decide_false]
      rfl

theorem not_covers_of_ensureNotAbove {u : Unit} (hF : F.WellFormed) (hb : F.contains b = true)
    (hu : F.ensureNotAbove b x = .ok u) : ¬ F.Covers x b := by
  intro hc
  rw [hF.ensureNotAbove_eq hb, if_pos hc] at hu
  exact nomatch hu

end WellFormed
end Forest
end Grove
