import Grove.Forest.Integrity
import Grove.Proofs.Forest.Ascent

/-!
# Verification

`verifyIntegrity` decides well-formedness of any forest whatever: handles may dangle, links may have
one end only or be doubled, and ways up may run in circles. The way up from a node is followed for a
bounded number of steps; a way that leads into a circle further up uses up that bound, and one that
ends at a root never does if the rest is sound.
-/

namespace Grove
set_option autoImplicit false

section Checks
variable {ε α : Type} {e : ε}

theorem except_bind_eq_ok_iff {x : Except ε Unit} {f : Unit → Except ε α} {a : α} :
    x >>= f = .ok a ↔ x = .ok () ∧ f () = .ok a := by
  cases x with
  | ok u => simp [bind, Except.bind]
  | error e => simp [bind, Except.bind]

theorem except_bind_eq_error {x : Except ε Unit} {f : Unit → Except ε α}
    (h : x >>= f = .error e) : x = .error e ∨ f () = .error e := by
  cases x with
  | ok u => exact Or.inr h
  | error e' => exact Or.inl (by simpa [bind, Except.bind] using h)

theorem forM_eq_ok_iff {f : α → Except ε Unit} (l : List α) :
    l.forM f = .ok () ↔ ∀ a ∈ l, f a = .ok () := by
  induction l with
  | nil => simp [pure, Except.pure]
  | cons a l ih =>
    change (f a >>= fun _ => l.forM f) = .ok () ↔ _
    rw [except_bind_eq_ok_iff, ih, List.forall_mem_cons]

theorem exists_of_forM_eq_error {f : α → Except ε Unit} {l : List α} (h : l.forM f = .error e) :
    ∃ a ∈ l, f a = .error e := by
  induction l with
  | nil => exact nomatch h
  | cons a l ih =>
    rcases except_bind_eq_error (f := fun _ => l.forM f) h with ha | hl
    · exact ⟨a, List.mem_cons_self, ha⟩
    · obtain ⟨b, hb, hfb⟩ := ih hl
      exact ⟨b, List.mem_cons_of_mem a hb, hfb⟩

end Checks

/-- The errors by which a check reports a fault that it has found. -/
def Error.IsFault : Error → Prop
  | .invariantViolation _ => True
  | .cycleDetected _ => True
  | _ => False

namespace Forest
variable {C : Type} {F : Forest C} {a h k p : Handle} {n : Node C}

def Endless (F : Forest C) (h : Handle) : Prop :=
  ∃ way : Nat → Handle, way 0 = h ∧ ∀ i, F.Over (way (i + 1)) (way i)

/-- What the links of a single node have to be like. -/
structure SoundAt (F : Forest C) (h : Handle) (n : Node C) : Prop where
  /-- the parent, if any, is there and lists the node exactly once -/
  parent_lists : ∀ p, n.parent = some p → ∃ m, F.get? p = some m ∧ m.children.count h = 1
  /-- every listed child is there and points back -/
  child_points : ∀ c ∈ n.children, ∃ m, F.get? c = some m ∧ m.parent = some h
  /-- the way up does not come back to the node -/
  not_above : ¬ F.Above h h
  /-- the way up comes to an end -/
  not_endless : ¬ F.Endless h

/-! ## The way up without any promise -/

theorem length_ascend_of_endless {way : Nat → Handle} (hway : ∀ i, F.Over (way (i + 1)) (way i))
    (limit i : Nat) : (F.ascend limit (some (way i))).length = limit := by
  induction limit generalizing i with
  | zero => rfl
  | succ limit ih => rw [ascend_succ_some, hway i, List.length_cons, ih]

/-- A way up that stays within the bound meets everything above its start, and it has an end. -/
theorem not_endless_of_length_lt {limit : Nat} (hlt : (F.ascend limit (F.above? h)).length < limit) :
    ¬ F.Endless h := by
  rintro ⟨way, rfl, hway⟩
  have hfirst : F.above? (way 0) = some (way 1) := hway 0
  rw [hfirst, length_ascend_of_endless hway] at hlt
  exact Nat.lt_irrefl limit hlt

theorem mem_ascend_of_above {limit : Nat} (hlt : (F.ascend limit (F.above? h)).length < limit)
    (ha : F.Above a h) : a ∈ F.ascend limit (F.above? h) := by
  obtain ⟨p, hap, hp⟩ := Relation.TransGen.tail'_iff.mp ha
  rw [Over] at hp
  rw [hp] at hlt ⊢
  exact mem_ascend_of_length_lt hlt hap

theorem WellFormed.not_endless (hF : F.WellFormed) (h : Handle) : ¬ F.Endless h := by
  rintro ⟨way, -, hway⟩
  have hlen := hF.length_lineage_le (Forest.contains_of_above? (hway 0))
  rw [lineage, length_ascend_of_endless hway] at hlen
  omega

theorem wellFormed_iff_soundAt :
    F.WellFormed ↔ ∀ h n, F.get? h = some n → F.SoundAt h n := by
  constructor
  · intro hF h n hn
    exact ⟨fun p hp => hF.parent_lists hn hp, fun c hc => hF.child_points hn hc, hF.acyclic h,
      hF.not_endless h⟩
  · intro hsound
    refine ⟨fun {h n p} hn hp => (hsound h n hn).parent_lists p hp,
      fun {h n c} hn hc => (hsound h n hn).child_points c hc, fun h hh => ?_⟩
    -- only a node has a parent, so only a node can be above itself
    obtain ⟨p, -, hp⟩ := Relation.TransGen.tail'_iff.mp hh
    obtain ⟨n, hn⟩ := contains_iff.mp (contains_of_above? hp)
    exact (hsound h n hn).not_above hh

/-! ## The checks of one node -/

variable [Content C]

theorem checkParent_eq_ok_iff :
    F.checkParent h n = .ok () ↔
      ∀ p, n.parent = some p → ∃ m, F.get? p = some m ∧ m.children.count h = 1 := by
  unfold checkParent
  cases n.parent with
  | none => simp [pure, Except.pure]
  | some p =>
    cases hm : F.get? p with
    | none => simp [hm, throw, throwThe, MonadExceptOf.throw]
    | some m =>
      by_cases hcount : m.children.count h = 1
      · simp [hm, hcount, pure, Except.pure]
      · simp [hm, hcount, throw, throwThe, MonadExceptOf.throw]

theorem checkChild_eq_ok_iff :
    F.checkChild h k = .ok () ↔ ∃ m, F.get? k = some m ∧ m.parent = some h := by
  unfold checkChild
  cases hm : F.get? k with
  | none => simp [throw, throwThe, MonadExceptOf.throw]
  | some m =>
    by_cases hp : m.parent = some h
    · simp [hp, pure, Except.pure]
    · simp [hp, throw, throwThe, MonadExceptOf.throw]

theorem checkLineage_eq_ok_iff :
    F.checkLineage h n = .ok () ↔
      h ∉ F.lineage n.parent ∧ (F.lineage n.parent).length < F.size + 2 := by
  have hle : (F.lineage n.parent).length ≤ F.size + 2 := length_ascend_le F _ _
  have hcut : F.isCutOff (F.lineage n.parent) = true ↔
      ¬ (F.lineage n.parent).length < F.size + 2 := by
    simp only [isCutOff, beq_iff_eq]
    omega
  unfold checkLineage
  by_cases hfault : ((F.lineage n.parent).contains h || F.isCutOff (F.lineage n.parent)) = true
  · rw [if_pos hfault]
    rw [Bool.or_eq_true, hcut, List.contains_iff_mem] at hfault
    simp only [throw, throwThe, MonadExceptOf.throw, reduceCtorEq, false_iff]
    tauto
  · rw [if_neg hfault]
    rw [Bool.or_eq_true, hcut, List.contains_iff_mem] at hfault
    simp only [pure, Except.pure, true_iff]
    tauto

theorem isFault_of_checkParent {e : Error} (he : F.checkParent h n = .error e) : e.IsFault := by
  unfold checkParent at he
  split at he
  · exact nomatch he
  · split at he
    · cases he
      trivial
    · dsimp only at he
      split at he
      · cases he
        trivial
      · exact nomatch he

theorem isFault_of_checkChild {e : Error} (he : F.checkChild h k = .error e) : e.IsFault := by
  unfold checkChild at he
  split at he
  · cases he
    trivial
  · split at he
    · cases he
      trivial
    · exact nomatch he

theorem isFault_of_checkLineage {e : Error} (he : F.checkLineage h n = .error e) :
    e.IsFault := by
  unfold checkLineage at he
  dsimp only at he
  split at he
  · cases he
    trivial
  · exact nomatch he

/-- If the bounded way up neither meets its node nor is cut off, the whole way is known. -/
theorem soundAt_of_checks (hn : F.get? h = some n) (hparent : F.checkParent h n = .ok ())
    (hkids : n.children.forM (F.checkChild h) = .ok ()) (hline : F.checkLineage h n = .ok ()) :
    F.SoundAt h n := by
  obtain ⟨hnot, hlt⟩ := checkLineage_eq_ok_iff.mp hline
  rw [lineage, ← above?_of_get? hn] at hnot hlt
  refine ⟨checkParent_eq_ok_iff.mp hparent, fun c hc => ?_, fun ha => ?_, ?_⟩
  · exact checkChild_eq_ok_iff.mp ((forM_eq_ok_iff _).mp hkids c hc)
  · exact hnot (mem_ascend_of_above hlt ha)
  · exact not_endless_of_length_lt hlt

theorem WellFormed.checkLineage_eq_ok (hF : F.WellFormed) (hn : F.get? h = some n) :
    F.checkLineage h n = .ok () := by
  rw [checkLineage_eq_ok_iff, ← above?_of_get? hn]
  cases hp : F.above? h with
  | none => simp [lineage]
  | some p =>
    have hpin := hF.contains_of_above? hp
    have hlen := hF.length_lineage_le hpin
    refine ⟨fun hm => ?_, by omega⟩
    exact hF.not_covers_of_over hp ((hF.mem_lineage_iff hpin).mp hm)

theorem verifyIntegrity_eq_ok_iff_wellFormed : F.verifyIntegrity = .ok () ↔ F.WellFormed := by
  rw [verifyIntegrity, forM_eq_ok_iff]
  constructor
  · intro hall
    refine wellFormed_iff_soundAt.mpr fun h n hn => ?_
    have hchecks := hall (h, n) (Store.mem_entries_iff.mpr hn)
    rw [except_bind_eq_ok_iff, except_bind_eq_ok_iff] at hchecks
    exact soundAt_of_checks hn hchecks.1 hchecks.2.1 hchecks.2.2
  · rintro hF ⟨h, n⟩ hmem
    have hn : F.get? h = some n := Store.mem_entries_iff.mp hmem
    have hsound := wellFormed_iff_soundAt.mp hF h n hn
    rw [except_bind_eq_ok_iff, except_bind_eq_ok_iff, forM_eq_ok_iff]
    exact ⟨checkParent_eq_ok_iff.mpr hsound.parent_lists,
      fun c hc => checkChild_eq_ok_iff.mpr (hsound.child_points c hc), hF.checkLineage_eq_ok hn⟩

/-- The check ends for any links whatever, with a fault that it has found or with none, and it finds
none exactly if the links of every node are sound. -/
theorem verifyIntegrity_decides (F : Forest C) :
    (∀ e, F.verifyIntegrity = .error e → e.IsFault) ∧
      (F.verifyIntegrity = .ok () ↔ ∀ h n, F.get? h = some n → F.SoundAt h n) := by
  constructor
  · intro e he
    obtain ⟨⟨h, n⟩, -, hnode⟩ := exists_of_forM_eq_error he
    rcases except_bind_eq_error hnode with hparent | hrest
    · exact isFault_of_checkParent hparent
    · rcases except_bind_eq_error hrest with hkids | hline
      · obtain ⟨c, -, hc⟩ := exists_of_forM_eq_error hkids
        exact isFault_of_checkChild hc
      · exact isFault_of_checkLineage hline
  · rw [verifyIntegrity_eq_ok_iff_wellFormed, wellFormed_iff_soundAt]

end Forest
end Grove
