import Grove.Proofs.Edit.Relist
import Grove.Proofs.Edit.Swap
import Grove.Proofs.Forest.Level
import Grove.Proofs.Integrity

/-!
# Locality

An edit works on the trees of its operands only: every node of another tree stays where it is and as
it is, whether or not the edit fails. So a run of edits does not touch the trees that none of its
operands stands in, and a deep copy and its original have nothing to do with each other.
-/

namespace Grove
set_option autoImplicit false

namespace Forest
variable {C : Type} {F G E : Forest C} {U : Handle → Prop} {a b c h k p x : Handle}
  {l ds : List Handle} {r : Handle → Handle}

/-- The handles with `U` are the nodes of some of the trees of `F`. -/
structure Whole (F : Forest C) (U : Handle → Prop) : Prop where
  contains : ∀ k, U k → F.contains k = true
  linked : ∀ {k p}, F.above? k = some p → (U k ↔ U p)

/-- `G` has the nodes with `U` as `F` has them. -/
structure Spares (F G : Forest C) (U : Handle → Prop) : Prop where
  wellFormed : G.WellFormed
  whole : G.Whole U
  get?_eq : ∀ k, U k → G.get? k = F.get? k

namespace Whole

theorem covers (hU : F.Whole U) (hc : F.Covers a k) : U k ↔ U a := by
  induction hc with
  | refl => exact .rfl
  | tail _ hover ih => exact (hU.linked hover).trans ih

theorem mem_below (hU : F.Whole U) (hF : F.WellFormed) (hc : c ∈ F.below p) : U c ↔ U p :=
  hU.linked (hF.above?_eq_some_iff.mpr hc)

/-! A change of links spares what none of the ends belong to. -/

theorem get?_cut (hU : F.Whole U) (hF : F.WellFormed) (hh : ¬ U h) (hk : U k) :
    (F.cut h).get? k = F.get? k := by
  have hne : k ≠ h := fun he => hh (he ▸ hk)
  have hnot : h ∉ F.below k := fun hm => hh ((hU.mem_below hF hm).mpr hk)
  refine get?_eq_get?_iff.mpr ⟨contentOf?_cut F h k, ?_, ?_⟩
  · rw [above?_cut, if_neg hne]
  · rw [hF.below_cut, List.erase_of_not_mem hnot]

theorem get?_relisted (hU : F.Whole U) (hF : F.WellFormed) (hG : F.Relisted G p l) (hp : ¬ U p)
    (hl : ∀ y ∈ l, ¬ U y) (hk : U k) : G.get? k = F.get? k := by
  have hin := hU.contains k hk
  have hnew : k ∉ l := fun hm => hl k hm hk
  have hold : k ∉ F.below p := fun hm => hp ((hU.mem_below hF hm).mp hk)
  refine get?_eq_get?_iff.mpr ⟨hG.contentOf?_eq k hin, ?_, ?_⟩
  · rw [hG.above?_eq k hin, if_neg hnew, if_neg hold]
  · exact hG.below_eq k hin fun he => hp (he ▸ hk)

theorem get?_renamed (hU : F.Whole U) (hF : F.WellFormed) (hG : F.Renamed G r)
    (hr : ∀ k, U k → r k = k) (hk : U k) : G.get? k = F.get? k := by
  refine get?_eq_get?_iff.mpr ⟨hG.contentOf?_eq k, ?_, ?_⟩
  · have habove := hG.above?_eq k
    rw [hr k hk] at habove
    rw [habove]
    cases hp : F.above? k with
    | none => rfl
    | some p => rw [Option.map_some, hr p ((hU.linked hp).mp hk)]
  · have hbelow := hG.below_eq k
    rw [hr k hk] at hbelow
    rw [hbelow]
    exact (List.map_congr_left fun c hc => hr c ((hU.mem_below hF hc).mpr hk)).trans (List.map_id _)

theorem get?_uproot (hU : F.Whole U) (hds : ∀ k, k ∈ ds ↔ F.Covers h k) (hh : ¬ U h) (hk : U k) :
    (F.uproot ds).get? k = F.get? k := by
  rw [Forest.get?_uproot, if_neg fun hm => hh ((hU.covers ((hds k).mp hm)).mp hk)]

end Whole

namespace Spares

theorem refl (hF : F.WellFormed) (hU : F.Whole U) : F.Spares F U := ⟨hF, hU, fun _ _ => rfl⟩

theorem step (hG : F.Spares G U) (hE : E.WellFormed) (hget : ∀ k, U k → E.get? k = G.get? k) :
    F.Spares E U := by
  refine ⟨hE, ⟨fun k hk => ?_, fun {k p} hp => ?_⟩, fun k hk => (hget k hk).trans (hG.get?_eq k hk)⟩
  · rw [contains_iff, hget k hk, ← contains_iff]
    exact hG.whole.contains k hk
  · have hends : ∀ q, U q → E.above? q = G.above? q ∧ E.below q = G.below q := fun q hq => by
      simp only [above?, below, hget q hq, and_self]
    constructor
    · intro hk
      rw [(hends k hk).1] at hp
      exact (hG.whole.linked hp).mp hk
    · intro hq
      have hm := hE.above?_eq_some_iff.mp hp
      rw [(hends p hq).2] at hm
      exact (hG.whole.mem_below hG.wellFormed hm).mpr hq

theorem sameNodes (hG : F.Spares G U) (hE : E.SameNodes G) : F.Spares E U :=
  hG.step (hE.symm.wellFormed hG.wellFormed) fun k _ => hE.get? k

theorem sprouted (hG : F.Spares G U) (hE : G.Sprouted E c) : F.Spares E U ∧ ¬ U c := by
  refine ⟨hG.step hE.wellFormed fun k hk => hE.old.get? k (hG.whole.contains k hk), fun hc => ?_⟩
  exact absurd (hG.whole.contains c hc) (by simp [hE.fresh])

end Spares

theorem StandsFor.spared (hG : F.StandsFor G c x) (hU : F.Whole U) (hx : ¬ U x) : ¬ U c := by
  rcases hG with ⟨-, rfl, -⟩ | ⟨-, f, hcopy⟩
  · exact hx
  · intro hc
    have hfresh := hcopy.fresh x .refl
    rw [hcopy.root, hU.contains c hc] at hfresh
    exact nomatch hfresh

theorem whole_of_rootOf (hF : F.WellFormed) (T : Handle → Prop) :
    F.Whole fun k => F.contains k = true ∧ ∃ r, F.rootOf k = .ok r ∧ T r := by
  refine ⟨fun k hk => hk.1, fun {k p} hp => ?_⟩
  have hk := contains_of_above? hp
  have hpin := hF.contains_of_above? hp
  have hsame : F.rootOf k = F.rootOf p := by
    obtain ⟨a, ha, -, -, haroot, hak⟩ := hF.exists_root hk
    obtain ⟨b, hb, -, -, hbroot, hbp⟩ := hF.exists_root hpin
    rw [ha, hb, root_unique haroot hbroot hak (hbp.tail hp)]
  simp only [hsame, hk, hpin]

end Forest

/-! ## Edits -/

namespace EditM
variable {C : Type} (F : Forest C) (U : Handle → Prop)

/-- The sessions in which the nodes with `U` are as in `F`. -/
def Sparing (s : Session C) : Prop := F.Spares s.forest U

theorem sparing_setContent {h : Handle} (hh : ¬ U h) (f : C → C) :
    Obeys (Sparing F U) (fun _ => True) Anything (setContent h f) := by
  intro s hs
  cases hin : s.forest.contains h with
  | false => exact .error (setContent_of_not_contains f hin) hs trivial
  | true =>
    have hrun := setContent_of_contains f hin
    refine .ok hrun (hs.step ?_ fun k hk => ?_) trivial
    · exact setContent_keepsWellFormed h f |>.of_ok hrun hs.wellFormed
    · have hne : k ≠ h := fun he => hh (he ▸ hk)
      rw [Session.forest_withForest, Forest.get?_update, if_neg hne]

variable [ShallowCopy C]

theorem sparing_dispose {h : Handle} (hh : ¬ U h) :
    Obeys (Sparing F U) (fun _ => True) Anything (dispose h) := by
  intro s hs
  cases hin : s.forest.contains h with
  | false => exact .error (dispose_of_not_contains hin) hs trivial
  | true =>
    cases hp : s.forest.above? h with
    | some p => exact .error (dispose_of_owned hp) hs trivial
    | none =>
      obtain ⟨ds, -, -, hmem, hrun⟩ := dispose_of_root hs.wellFormed hin hp
      refine .ok hrun (hs.step (hs.wellFormed.uproot hp hmem) fun k hk => ?_) trivial
      exact hs.whole.get?_uproot hmem hh hk

variable [RegularCopy C]

theorem sparing_copyShallow (h : Handle) :
    Obeys (Sparing F U) (fun _ => True) (fun c => ¬ U c) (copyShallow h) := by
  intro s hs
  rcases copyShallow_outcome hs.wellFormed h with ⟨c, t, hrun, -, ht⟩ | hrun
  · exact .ok hrun (hs.sprouted ht).1 (hs.sprouted ht).2
  · exact .error hrun hs trivial

/-- The links between nodes without `U` can be changed without touching the nodes with `U`. -/
theorem linkRegime_sparing : LinkRegime (Sparing F U) (fun _ => True) fun h => ¬ U h where
  tolerates _ _ := trivial
  above hs hh hp hq := hh ((hs.whole.linked hp).mpr hq)
  below hs hh hc hq := hh ((hs.whole.mem_below hs.wellFormed hc).mp hq)
  notify n s hs := .ok (notify_run n s) hs trivial
  removeChild {p} i hp s hs := by
    cases hi : (s.forest.below p)[i]? with
    | none =>
      obtain ⟨e, hrun⟩ := removeChild_of_getElem?_eq_none hi
      exact .error hrun hs trivial
    | some c =>
      have hc : ¬ U c := fun hc =>
        hp ((hs.whole.mem_below hs.wellFormed (List.mem_of_getElem? hi)).mp hc)
      refine .ok (removeChild_of_getElem? hs.wellFormed hi) ?_ hc
      exact hs.step (hs.wellFormed.cut c) fun k hk => hs.whole.get?_cut hs.wellFormed hc hk
  detach {h} hh s hs := by
    cases hin : s.forest.contains h with
    | false => exact .error (detach_of_not_contains hin) hs trivial
    | true =>
      refine .ok (detach_of_contains hs.wellFormed hin) ?_ trivial
      exact hs.step (hs.wellFormed.cut h) fun k hk => hs.whole.get?_cut hs.wellFormed hh hk
  insertChild {p x} i hp hx s hs := by
    rcases insertChild_outcome hs.wellFormed p i x with
      ⟨-, y, t, hrun, hy, ht⟩ | ⟨-, e, t, hrun, hsame⟩
    · have hnot := hy.spared hs.whole hx
      refine .ok hrun (hs.step ht.wellFormed fun k hk => ?_) hnot
      refine hs.whole.get?_relisted hs.wellFormed ht hp (fun z hz => ?_) hk
      rcases List.eq_or_mem_of_mem_insertIdx hz with rfl | hz
      · exact hnot
      · exact fun hU => hp ((hs.whole.mem_below hs.wellFormed hz).mp hU)
    · exact .error hrun (hs.sameNodes hsame) trivial
  setChild {p x} i hp hx s hs := by
    rcases setChild_outcome hs.wellFormed p i x with
      ⟨-, c, y, t, hrun, hc, hy, ht⟩ | ⟨-, e, t, hrun, hsame⟩
    · have hold : ∀ z ∈ s.forest.below p, ¬ U z := fun z hz hU =>
        hp ((hs.whole.mem_below hs.wellFormed hz).mp hU)
      refine .ok hrun (hs.step ht.wellFormed fun k hk => ?_) (hold c (List.mem_of_getElem? hc))
      refine hs.whole.get?_relisted hs.wellFormed ht hp (fun z hz => ?_) hk
      rcases List.mem_or_eq_of_mem_set hz with hz | rfl
      · exact hold z hz
      · exact hy.spared hs.whole hx
    · exact .error hrun (hs.sameNodes hsame) trivial

theorem makerRegime_sparing : MakerRegime (Sparing F U) (fun _ => True) fun h => ¬ U h where
  toLinkRegime := linkRegime_sparing F U
  sanitize {h} hh s hs := by
    rcases sanitize_outcome hs.wellFormed h with
      ⟨-, -, hrun⟩ | ⟨-, -, y, t, f, hrun, ht, -⟩ | ⟨-, e, t, hrun, hsame⟩
    · exact .ok hrun hs hh
    · exact .ok hrun (hs.sprouted ht).1 (hs.sprouted ht).2
    · exact .error hrun (hs.sameNodes hsame) trivial
  swapPositions {a b} ha hb s hs := by
    rcases swapPositions_outcome hs.wellFormed a b with ⟨G, hrun, hG⟩ | ⟨e, hrun⟩
    · have hG' := hs.wellFormed.rename (Handle.exchange_exchange a b) hG.above?_eq hG.below_eq
      refine .ok hrun (hs.step hG' fun k hk => ?_) trivial
      refine hs.whole.get?_renamed hs.wellFormed hG (fun k hk => ?_) hk
      exact Handle.exchange_of_ne (fun he => ha (he ▸ hk)) fun he => hb (he ▸ hk)
    · exact .error hrun hs trivial
  swapSubtrees {a _} _ ha hb :=
    (linkRegime_sparing F U).swapSubtrees ha hb (sparing_copyShallow F U a) (sparing_dispose F U)
  create content s hs := by
    refine .ok (create_run content s) (hs.step (hs.wellFormed.plant content) fun k hk => ?_)
      fun hU => ?_
    · exact (s.forest.extends_plant content).get? k (hs.whole.contains k hk)
    · exact absurd (hs.whole.contains _ hU) (by simp [Forest.not_contains_plant_fst])
  copyShallow h := sparing_copyShallow F U h
  copy h s hs := by
    rcases copy_outcome hs.wellFormed h with ⟨c, t, hrun, ht⟩ | ⟨e, t, hrun, hsame⟩
    · exact .ok hrun (hs.sprouted ht).1 (hs.sprouted ht).2
    · exact .error hrun (hs.sameNodes hsame) trivial

end EditM

section
variable {C : Type} [ShallowCopy C] {s : Session C}

/-- The nodes that the edits of a run name, each of them when it is carried out. -/
def Session.runOperands : Session C → List (Edit C) → List Handle
  | _, [] => []
  | s, e :: es => e.operands s ++ runOperands (final e.run s) es

variable [RegularCopy C] {F : Forest C} {U : Handle → Prop}

theorem Edit.spares (hs : F.Spares s.forest U) (e : Edit C) (hops : ∀ o ∈ e.operands s, ¬ U o) :
    F.Spares (final e.run s).forest U := by
  refine ((EditM.makerRegime_sparing F U).run hs hops (e.failsOnly_of_forall fun _ => trivial)
    ?_ ?_).final
  · rintro h f rfl
    exact EditM.sparing_setContent F U (hops h (by simp [Edit.operands, Edit.named])) f
  · rintro h rfl
    exact EditM.sparing_dispose F U (hops h (by simp [Edit.operands, Edit.named]))

theorem Session.spares_after (hs : F.Spares s.forest U) (es : List (Edit C))
    (hops : ∀ o ∈ s.runOperands es, ¬ U o) : F.Spares (s.after es).forest U := by
  induction es generalizing s with
  | nil => exact hs
  | cons e es ih =>
    refine ih (e.spares hs fun o ho => hops o ?_) fun o ho => hops o ?_
    · exact List.mem_append_left _ ho
    · exact List.mem_append_right _ ho

/-- What edits of a session leave alone. A node is left alone if its handle names the same content, the
same parent and the same children. -/
structure Session.EditsLocally (s : Session C) : Prop where
  /-- an edit leaves every tree alone that none of its operands stands in -/
  edit : ∀ (e : Edit C) (k r : Handle), s.forest.contains k = true → s.forest.rootOf k = .ok r →
    (∀ o ∈ e.operands s, s.forest.rootOf o ≠ .ok r) →
      (final e.run s).forest.get? k = s.forest.get? k
  /-- a run whose operands stand in the trees with `T`, or are made on the way, leaves all other trees
  alone -/
  run : ∀ (es : List (Edit C)) (T : Handle → Prop),
    (∀ o ∈ s.runOperands es, s.forest.contains o = true → ∃ r, s.forest.rootOf o = .ok r ∧ T r) →
      ∀ k r, s.forest.contains k = true → s.forest.rootOf k = .ok r → ¬ T r →
        (s.after es).forest.get? k = s.forest.get? k
  /-- edits of a copy do not touch what was there before the copy was made -/
  original : ∀ (h c : Handle) (t : Session C) (es : List (Edit C)), EditM.copy h s = .ok c t →
    (∀ o ∈ t.runOperands es, t.forest.contains o = true → t.forest.rootOf o = .ok c) →
      ∀ k, s.forest.contains k = true → (t.after es).forest.get? k = s.forest.get? k
  /-- edits that do not name a node of a copy do not touch the copy -/
  copy : ∀ (h c : Handle) (t : Session C) (es : List (Edit C)), EditM.copy h s = .ok c t →
    (∀ o ∈ t.runOperands es, t.forest.contains o = true → t.forest.rootOf o ≠ .ok c) →
      ∀ k, t.forest.contains k = true → t.forest.rootOf k = .ok c →
        (t.after es).forest.get? k = t.forest.get? k

/-- A run leaves those trees alone in which none of its operands stands. -/
theorem Session.get?_after (hF : s.forest.WellFormed) (es : List (Edit C)) (T : Handle → Prop)
    (hops : ∀ o ∈ s.runOperands es, s.forest.contains o = true →
      ∃ r, s.forest.rootOf o = .ok r ∧ T r) {k r : Handle} (hk : s.forest.contains k = true)
    (hr : s.forest.rootOf k = .ok r) (hT : ¬ T r) :
    (s.after es).forest.get? k = s.forest.get? k := by
  have hwhole := Forest.whole_of_rootOf hF fun r => ¬ T r
  refine (Session.spares_after (.refl hF hwhole) es ?_).get?_eq k ⟨hk, r, hr, hT⟩
  rintro o ho ⟨hin, q, hq, hnot⟩
  obtain ⟨q', hq', hyes⟩ := hops o ho hin
  cases hq.symm.trans hq'
  exact hnot hyes

theorem Session.editsLocally (hF : s.forest.WellFormed) : s.EditsLocally := by
  have hlive : ∀ {F : Forest C} {o}, F.WellFormed → F.contains o = true →
      ∃ r, F.rootOf o = .ok r ∧ F.above? r = none ∧ F.Covers r o := fun hF ho => by
    obtain ⟨r, hr, -, -, hroot, hcov⟩ := hF.exists_root ho
    exact ⟨r, hr, hroot, hcov⟩
  have hcopy : ∀ {h c t}, EditM.copy h s = .ok c t → s.forest.Sprouted t.forest c := by
    intro h c t hrun
    rcases EditM.copy_outcome hF h with ⟨c', t', hrun', ht⟩ | ⟨e, t', hrun', -⟩
    · cases hrun.symm.trans hrun'
      exact ht
    · exact nomatch hrun.symm.trans hrun'
  refine ⟨fun e k r hk hr hops => ?_, fun es T hops k r hk hr hT => ?_,
    fun h c t es hrun hops k hk => ?_, fun h c t es hrun hops k hk hr => ?_⟩
  · refine s.get?_after hF [e] (· ≠ r) (fun o ho hin => ?_) hk hr (not_not_intro rfl)
    obtain ⟨q, hq, -, -⟩ := hlive hF hin
    refine ⟨q, hq, fun he => hops o ?_ (he ▸ hq)⟩
    simpa [Session.runOperands] using ho
  · exact s.get?_after hF es T hops hk hr hT
  · have ht := hcopy hrun
    have hkt := ht.old.contains hk
    obtain ⟨r, hr, -, hcov⟩ := hlive ht.wellFormed hkt
    have hrc : r ≠ c := by
      rintro rfl
      have hold := (ht.old.covers hF hk hcov).1
      rw [ht.fresh] at hold
      exact nomatch hold
    rw [t.get?_after ht.wellFormed es (· = c) (fun o ho hin => ⟨c, hops o ho hin, rfl⟩) hkt hr hrc]
    exact ht.old.get? k hk
  · have ht := hcopy hrun
    refine t.get?_after ht.wellFormed es (· ≠ c) (fun o ho hin => ?_) hk hr (not_not_intro rfl)
    obtain ⟨q, hq, -, -⟩ := hlive ht.wellFormed hin
    exact ⟨q, hq, fun he => hops o ho hin (he ▸ hq)⟩

end

/-- With labels as with plain contents, edits are local. -/
theorem edits_are_local :
    (∀ s : Session Label, s.forest.WellFormed → s.EditsLocally) ∧
    ∀ s : Session Plain, s.forest.WellFormed → s.EditsLocally :=
  ⟨fun _ => Session.editsLocally, fun _ => Session.editsLocally⟩

def Session.copse : Session Label := (Session.fresh Label {}).after
  [.create ⟨.block, "a"⟩, .create ⟨.leaf, "b"⟩, .create ⟨.leaf, "c"⟩, .addChild ⟨0, 0⟩ ⟨1, 0⟩]

/-- Detaching the leaf of the block spares the leaf beside it; a copy of the block is taken apart without
touching the block, and the block is disposed of without touching the copy. -/
theorem edits_of_copse :
    Session.copse.forest.WellFormed ∧
    (final (Edit.detach ⟨1, 0⟩).run Session.copse).forest.get? ⟨2, 0⟩ =
      Session.copse.forest.get? ⟨2, 0⟩ ∧
    ∃ c t, EditM.copy ⟨0, 0⟩ Session.copse = .ok c t ∧
      (t.after [.removeChildren c, .dispose c]).forest.get? ⟨0, 0⟩ =
        Session.copse.forest.get? ⟨0, 0⟩ ∧
      (t.after [.dispose ⟨0, 0⟩]).forest.get? c = t.forest.get? c := by
  have hF : Session.copse.forest.WellFormed :=
    Session.wellFormed_after (Forest.wellFormed_empty {}) _
  have hlocal := edits_are_local.1 Session.copse hF
  refine ⟨hF, ?_, ⟨3, 0⟩, _, rfl, ?_, ?_⟩
  · exact hlocal.edit (.detach ⟨1, 0⟩) ⟨2, 0⟩ ⟨2, 0⟩ rfl rfl (by decide)
  · exact hlocal.original ⟨0, 0⟩ ⟨3, 0⟩ _ _ rfl (by decide) ⟨0, 0⟩ rfl
  · exact hlocal.copy ⟨0, 0⟩ ⟨3, 0⟩ _ _ rfl (by decide) ⟨3, 0⟩ rfl rfl

end Grove
