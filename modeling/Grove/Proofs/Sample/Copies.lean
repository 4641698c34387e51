import Grove.Proofs.Edit.Inside
import Grove.Sample.Label
import Grove.Sample.Plain
import Grove.Sample.Probe

/-!
# Copies of the sample contents

Labels and plain contents have regular copies: a plain content is always copied as it is, and a label
unless it is a bad copy, whose copies come with a stray child. The copies of probes are not regular,
but they are safe. All three make their copies by creating and attaching nodes; none touches a
node that it finds, and none asks for a position that a list does not have.
-/

namespace Grove
set_option autoImplicit false

namespace EditM
variable {C : Type} {s : Session C} {h : Handle} {n : Node C}

theorem query_content (hn : s.forest.get? h = some n) :
    query (fun F => F.content h) s = .ok n.content s := by
  apply query_of_ok
  simp only [Forest.content, Forest.node_of_get? hn]
  rfl

theorem query_content_of_not_contains (hh : s.forest.contains h = false) :
    query (fun F => F.content h) s = .error (.invalidHandle h) s :=
  query_of_not_contains (q := fun F => F.content h) rfl hh

end EditM

instance : RegularCopy Plain where
  copyable _ := true
  copyShallow_of_not_contains {s h} hh :=
    bind_of_error (α := Plain) _ (EditM.query_content_of_not_contains hh)
  copyShallow_of_copyable {s h n} hn _ := bind_of_ok _ (EditM.query_content hn)
  copyShallow_of_not_copyable _ _ hc := absurd hc (by simp)

namespace Label
variable {s : Session Label} {h : Handle} {n : Node Label}

theorem copyShallow_of_not_contains (hh : s.forest.contains h = false) :
    copyShallow h s = .error (.invalidHandle h) s := by
  simp only [copyShallow, bind_of_error _ (EditM.query_content_of_not_contains hh)]

theorem copyShallow_of_ne_badCopy (hn : s.forest.get? h = some n)
    (hk : n.content.kind ≠ .badCopy) : copyShallow h s = EditM.create n.content s := by
  simp only [copyShallow, bind_of_ok _ (EditM.query_content hn), if_neg hk]
  exact (bind_of_ok _ (EditM.create_run n.content s)).trans rfl

/-- The copy of a bad copy comes with a child. -/
theorem copyShallow_of_badCopy (hF : s.forest.WellFormed) (hn : s.forest.get? h = some n)
    (hk : n.content.kind = .badCopy) :
    ∃ c t, copyShallow h s = .ok c t ∧ s.forest.Sprouted t.forest c ∧ t.forest.below c ≠ [] := by
  have hplant := hF.sprouted_plant n.content
  have hattach := EditM.attachLast_plant (s := s.withForest (s.forest.plant n.content).2)
    hplant.wellFormed hplant.contains ⟨.leaf, "stray"⟩
  have hrun : copyShallow h s = .ok (s.forest.plant n.content).1 (s.withForest
      (((s.forest.plant n.content).2.plant ⟨.leaf, "stray"⟩).2.link (s.forest.plant n.content).1
        ((s.forest.plant n.content).2.below (s.forest.plant n.content).1).length
        ((s.forest.plant n.content).2.plant ⟨.leaf, "stray"⟩).1)) := by
    simp only [copyShallow, bind_of_ok _ (EditM.query_content hn), if_pos hk,
      bind_of_ok _ (EditM.create_run n.content s), bind_of_ok _ (EditM.create_run _ _)]
    exact (bind_of_ok _ hattach).trans rfl
  refine ⟨_, _, hrun, hplant.graft (hplant.wellFormed.sprouted_plant _) hplant.contains
    hplant.fresh (Nat.le_refl _), ?_⟩
  have hcopy := (hplant.wellFormed.sprouted_plant (⟨.leaf, "stray"⟩ : Label)).old.contains
    hplant.contains
  rw [Session.forest_withForest, Forest.below_link hcopy, if_pos rfl]
  refine List.ne_nil_of_length_pos ?_
  rw [List.length_insertIdx]
  simp

end Label

instance : RegularCopy Label where
  copyable l := decide (l.kind ≠ .badCopy)
  copyShallow_of_not_contains hh := Label.copyShallow_of_not_contains hh
  copyShallow_of_copyable hn hc := Label.copyShallow_of_ne_badCopy hn (of_decide_eq_true hc)
  copyShallow_of_not_copyable hF hn hc :=
    Label.copyShallow_of_badCopy hF hn (by simpa using hc)

namespace Probe
variable {s t : Session Probe} {c h : Handle}

theorem copyShallow_keepsWellFormed (h : Handle) : Follows KeepsWellFormed (copyShallow h) := by
  have hcreate : ∀ content, Follows KeepsWellFormed (EditM.create (C := Probe) content) :=
    fun content _ hF => hF.plant content
  refine .bind (.query _) fun content => ?_
  split
  · exact hcreate _
  · exact hcreate _
  · exact hcreate _
  · refine .bind (hcreate _) fun copy => .bind (hcreate _) fun host => ?_
    exact .bind (EditM.attachLast_keepsWellFormed host copy) fun _ => .pure _
  · exact .throw _
  · exact .pure _

theorem copyShallow_extends (hF : s.forest.WellFormed) (hrun : copyShallow h s = .ok c t) :
    s.forest.contains h = true ∧ s.forest.Extends t.forest ∧
      (c = h ∨ s.forest.contains c = false) := by
  cases hh : s.forest.contains h with
  | false =>
    rw [copyShallow, bind_of_error _ (EditM.query_content_of_not_contains hh)] at hrun
    exact nomatch hrun
  | true =>
    obtain ⟨n, hn⟩ := Forest.contains_iff.mp hh
    rw [copyShallow, bind_of_ok _ (EditM.query_content hn)] at hrun
    have hcreate : ∀ content, EditM.create content s = .ok c t →
        s.forest.Extends t.forest ∧ (c = h ∨ s.forest.contains c = false) := by
      intro content hrun
      cases hrun
      exact ⟨Forest.extends_plant _ content, Or.inr (Forest.not_contains_plant_fst _ content)⟩
    refine ⟨rfl, ?_⟩
    cases hk : n.content.kind <;> rw [hk] at hrun
    case alpha | beta | prime => exact hcreate _ hrun
    case owned =>
      obtain ⟨copy, s₁, hcopy, hrun₁⟩ := bind_eq_ok.mp hrun
      obtain ⟨host, s₂, hhost, hrun₂⟩ := bind_eq_ok.mp hrun₁
      obtain ⟨_, s₃, hattach, hrun₃⟩ := bind_eq_ok.mp hrun₂
      cases hcopy
      cases hhost
      cases hrun₃
      have hplant := hF.sprouted_plant n.content
      have hplant' := hplant.wellFormed.sprouted_plant (⟨.alpha, "host"⟩ : Probe)
      have hnew := hplant.old.not_contains hplant'.fresh
      exact ⟨EditM.attachLast_extends (hplant.old.trans hplant'.old) hplant'.wellFormed hnew
        hplant.fresh hattach, Or.inr hplant.fresh⟩
    case fail => exact nomatch hrun
    case same =>
      cases hrun
      exact ⟨.refl _, Or.inl rfl⟩

end Probe

instance : SafeCopy Probe where
  wellFormed h := Probe.copyShallow_keepsWellFormed h _
  extends_of_ok := Probe.copyShallow_extends

/-! ## Hooks made of edits -/

instance : BuiltCopy Plain where
  follows hR _ := by
    have := hR.toIsPreorder
    exact .bind (.query _) fun content => hR.create content

instance : BuiltCopy Label where
  follows hR h := by
    have := hR.toIsPreorder
    refine .bind (.query _) fun content => .bind (hR.create content) fun copy => ?_
    dsimp only
    split
    · exact .bind (hR.create _) fun stray => .bind (hR.attachLast copy stray) fun _ => .pure _
    · exact .pure _

instance : BuiltCopy Probe where
  follows hR h := by
    have := hR.toIsPreorder
    refine .bind (.query _) fun content => ?_
    split
    · exact hR.create _
    · exact hR.create _
    · exact hR.create _
    · refine .bind (hR.create _) fun copy => .bind (hR.create _) fun host => ?_
      exact .bind (hR.attachLast host copy) fun _ => .pure _
    · exact .throw _
    · exact .pure _

/-- Two new nodes can be hung below each other, either way, and no old node changes. -/
theorem EditM.attachLast_twins {C : Type} [ShallowCopy C] (s : Session C) (m n : C) {c d : Handle}
    {F : Forest C} (hc : c = (s.forest.plant m).1) (hd : d = ((s.forest.plant m).2.plant n).1)
    (hF : F = ((s.forest.plant m).2.plant n).2) :
    (∃ t, attachLast c d (s.withForest F) = .ok () t ∧ s.forest.Extends t.forest) ∧
      ∃ t, attachLast d c (s.withForest F) = .ok () t ∧ s.forest.Extends t.forest := by
  have hext₁ := Forest.extends_plant s.forest m
  have hext₂ := Forest.extends_plant (s.forest.plant m).2 n
  have hcF : s.forest.contains c = false := hc ▸ Forest.not_contains_plant_fst _ m
  have hdF₁ : (s.forest.plant m).2.contains d = false := hd ▸ Forest.not_contains_plant_fst _ n
  have hdF : s.forest.contains d = false := hext₁.not_contains hdF₁
  have hcin₁ : (s.forest.plant m).2.contains c = true :=
    (Forest.contains_plant _ m c).mpr (Or.inl hc)
  have hcin : F.contains c = true := hF ▸ hext₂.contains hcin₁
  have hdin : F.contains d = true := hF ▸ (Forest.contains_plant _ n d).mpr (Or.inl hd)
  have hext : s.forest.Extends F := hF ▸ hext₁.trans hext₂
  have hlinks : ∀ k, s.forest.contains k = false → F.above? k = none ∧ F.below k = [] := by
    intro k hk
    rw [hF, Forest.above?_plant, Forest.above?_plant, Forest.below_plant, Forest.below_plant]
    exact ⟨Forest.above?_eq_none_of_not_contains hk, Forest.below_eq_nil_of_not_contains hk⟩
  have hne : c ≠ d := Forest.ne_of_contains hcin₁ hdF₁
  constructor
  · obtain ⟨t, hrun, ht, -⟩ := attachLast_aside (s := s.withForest F) hext hcF hdF hcin hdin
      (hlinks d hdF).1 (hlinks d hdF).2 hne
    exact ⟨t, hrun, ht⟩
  · obtain ⟨t, hrun, ht, -⟩ := attachLast_aside (s := s.withForest F) hext hdF hcF hdin hcin
      (hlinks c hcF).1 (hlinks c hcF).2 hne.symm
    exact ⟨t, hrun, ht⟩

namespace EditM
variable {C : Type} {s : Session C} {h : Handle}

theorem tidy_create (content : C) : Tidy s h (create content) :=
  Or.inl ⟨_, _, create_run content s, Forest.extends_plant _ content,
    Or.inr (Forest.not_contains_plant_fst _ content)⟩

/-- A hook begins with a look at the content of its source. -/
theorem tidy_query_content {f : C → EditM C Handle} (hf : ∀ content, Tidy s h (f content)) :
    Tidy s h ((query fun F => F.content h) >>= f) := by
  cases hh : s.forest.contains h with
  | false =>
    have hq := query_content_of_not_contains hh
    exact Or.inr ⟨_, _, bind_of_error f hq, by simp⟩
  | true =>
    obtain ⟨n, hn⟩ := Forest.contains_iff.mp hh
    have hq := bind_of_ok f (query_content hn)
    rcases hf n.content with ⟨c, t, hrun, hext, hor⟩ | ⟨e, t, hrun, hne⟩
    · exact Or.inl ⟨c, t, hq.trans hrun, hext, hor⟩
    · exact Or.inr ⟨e, t, hq.trans hrun, hne⟩

end EditM

instance : TidyCopy Plain where
  tidy _ _ := EditM.tidy_query_content fun content => EditM.tidy_create content

instance : TidyCopy Label where
  tidy {s} h _ := by
    refine EditM.tidy_query_content fun content => ?_
    obtain ⟨⟨t, hattach, hext⟩, -⟩ :=
      EditM.attachLast_twins s content (⟨.leaf, "stray"⟩ : Label) rfl rfl rfl
    refine Or.inl ⟨(s.forest.plant content).1, ?_⟩
    have hfresh := Forest.not_contains_plant_fst s.forest content
    by_cases hk : content.kind = .badCopy
    · refine ⟨t, ?_, hext, Or.inr hfresh⟩
      rw [bind_of_ok _ (EditM.create_run content s)]
      simp only [if_pos hk]
      rw [bind_of_ok _ (EditM.create_run _ _)]
      exact bind_of_ok _ hattach
    · refine ⟨s.withForest (s.forest.plant content).2, ?_, Forest.extends_plant _ content,
        Or.inr hfresh⟩
      rw [bind_of_ok _ (EditM.create_run content s)]
      simp only [if_neg hk]
      rfl

instance : TidyCopy Probe where
  tidy {s} h _ := by
    refine EditM.tidy_query_content fun content => ?_
    cases content.kind with
    | alpha => exact EditM.tidy_create _
    | beta => exact EditM.tidy_create _
    | prime => exact EditM.tidy_create _
    | owned =>
      obtain ⟨-, t, hattach, hext⟩ :=
        EditM.attachLast_twins s content (⟨.alpha, "host"⟩ : Probe) rfl rfl rfl
      refine Or.inl ⟨(s.forest.plant content).1, t, ?_, hext,
        Or.inr (Forest.not_contains_plant_fst s.forest content)⟩
      simp only [bind_of_ok _ (EditM.create_run _ _)]
      exact bind_of_ok _ hattach
    | fail => exact Or.inr ⟨_, s, rfl, by simp⟩
    | same => exact Or.inl ⟨h, s, rfl, .refl _, Or.inl rfl⟩

instance : InsideCopy Plain where
  inside h s := .bind (.query (s.forest.quiet_content h)) fun _ t _ => .of_ok (EditM.create_run _ t)

instance : InsideCopy Label where
  inside h s := by
    refine .bind (.query (s.forest.quiet_content h)) fun content t _ => ?_
    refine .bind (.of_ok (EditM.create_run _ t)) fun copy u _ => ?_
    dsimp only
    split
    · refine .bind (.of_ok (EditM.create_run _ u)) fun stray _ _ => ?_
      exact .bind (EditM.inside_attachLast copy stray) fun _ _ _ => .pure _
    · exact .pure _

instance : InsideCopy Probe where
  inside h s := by
    refine .bind (.query (s.forest.quiet_content h)) fun content t _ => ?_
    have hcreate : ∀ (content : Probe) t, EditM.Inside (EditM.create content) t :=
      fun content t => .of_ok (EditM.create_run content t)
    split
    · exact hcreate _ t
    · exact hcreate _ t
    · exact hcreate _ t
    · refine .bind (hcreate _ t) fun copy u _ => .bind (hcreate _ u) fun host _ _ => ?_
      exact .bind (EditM.inside_attachLast host copy) fun _ _ _ => .pure _
    · exact .throw nofun
    · exact .pure _

end Grove
