import Grove.Proofs.Forest.PreOrder
import Grove.Proofs.Forest.Ranking
import Grove.Proofs.Integrity

/-!
# Sifting

A walk down from a node lets those of the nodes below it through that pass a test. Without pruning it
lets all of them through, in pre-order. With pruning it does not meet what is below a node that it has let
through. What comes through then are the outer ones of the passing nodes: no other passing node stands
between them and the node from which the walk starts, and each passing node is in the tree of one of them.
-/

namespace Grove
set_option autoImplicit false

namespace Forest
variable {C : Type} {F : Forest C} {P Q : Predicate C} {a d h m n t x : Handle} {b st : Stand}

/-- What the test `P` lets through of the nodes `ds` below `h`: all that pass, or the outer ones. -/
structure Sifts (F : Forest C) (P : Predicate C) (h : Handle) (ds all outer : List Handle) :
    Prop where
  below : F.descendants h = .ok ds ∧ (h :: ds).Nodup ∧ ∀ d, d ∈ ds ↔ F.Above h d
  preOrder : ds.Pairwise fun x y => F.Precedes x y ∧ ¬ F.Precedes y x
  unpruned : F.matchingDescendants h P false = .ok all ∧ all = ds.filter (P F)
  pruned : F.matchingDescendants h P true = .ok outer ∧ outer.Sublist all ∧
    ∀ m, m ∈ outer ↔ m ∈ all ∧ ∀ a, F.Above h a → F.Above a m → P F a = false
  apart : ∀ m ∈ outer, ∀ n ∈ outer, ¬ F.Above m n
  covered : ∀ d ∈ all, ∃! m, m ∈ outer ∧ F.Covers m d
  /-- the answers that the test gives on other nodes than these make no difference -/
  untested : ∀ Q prune, (∀ d ∈ ds, Q F d = P F d) →
    F.matchingDescendants h Q prune = F.matchingDescendants h P prune
  /-- the steps that the walk is allowed beyond the number of these nodes make none either -/
  ends : ∀ prune n, F.matchesFrom P prune (ds.length + n) (F.below h) =
    if prune then outer else all

/-! ## What comes through a stand -/

theorem found_false (P : Predicate C) (st : Stand) :
    F.found P false st = st.handles.filter (P F) := by
  induction st with
  | bare => rfl
  | tree h b r ihb ihr =>
    rw [Stand.handles, List.filter_cons, List.filter_append, ← ihb, ← ihr]
    simp only [found, Bool.false_eq_true, if_false]
    split <;> rfl

theorem found_true_sublist (P : Predicate C) (st : Stand) :
    (F.found P true st).Sublist (F.found P false st) := by
  induction st with
  | bare => exact .slnil
  | tree h b r ihb ihr =>
    simp only [found, if_true, Bool.false_eq_true, if_false]
    split
    · exact ((List.nil_sublist _).cons_cons h).append ihr
    · exact ihb.append ihr

theorem found_congr (prune : Bool) (hQ : ∀ x ∈ st.handles, Q F x = P F x) :
    F.found Q prune st = F.found P prune st := by
  induction st with
  | bare => rfl
  | tree h b r ihb ihr =>
    have hb := ihb fun x hx => hQ x (List.mem_cons_of_mem h (List.mem_append_left _ hx))
    have hr := ihr fun x hx => hQ x (List.mem_cons_of_mem h (List.mem_append_right _ hx))
    rw [found, found, hQ h List.mem_cons_self, hb, hr]

/-! ## The outer passing nodes -/

/-- The passing nodes on the way up from `h`, itself included. -/
def passingFrom (F : Forest C) (P : Predicate C) (h : Handle) : List Handle :=
  (F.lineage (some h)).filter (P F)

theorem passing_eq_passingFrom (ht : F.above? t = some h) :
    F.passing P t = F.passingFrom P h := by
  rw [passing, passingFrom, ht]

namespace WellFormed

theorem mem_passingFrom_iff (hF : F.WellFormed) (hh : F.contains h = true) :
    a ∈ F.passingFrom P h ↔ F.Covers a h ∧ P F a = true := by
  rw [passingFrom, List.mem_filter, hF.mem_lineage_iff hh]

theorem not_above_of_mem_passingFrom (hF : F.WellFormed) (hh : F.contains h = true)
    (ha : a ∈ F.passingFrom P h) : ¬ F.Above h a := by
  intro hha
  have hah := ((hF.mem_passingFrom_iff hh).mp ha).1
  exact hF.acyclic h (hha.trans_left hah)

/-- The nearest passing node above `x` is below `h`, unless those from `h` upwards are all. -/
theorem nearest_between (hF : F.WellFormed) (hh : F.contains h = true) (hx : F.Above h x)
    {pre : List Handle} (hpre : F.passing P x = a :: pre ++ F.passingFrom P h) :
    F.Above h a ∧ F.Above a x ∧ P F a = true := by
  have ha : a ∈ F.passing P x := hpre ▸ List.mem_cons_self
  obtain ⟨hax, hP⟩ := hF.mem_passing_iff.mp ha
  refine ⟨?_, hax, hP⟩
  have hnd := hpre ▸ hF.nodup_passing (P := P) (h := x)
  have hah : ¬ F.Covers a h := by
    intro hah
    have hmem := (hF.mem_passingFrom_iff hh).mpr ⟨hah, hP⟩
    exact (List.nodup_cons.mp hnd).1 (List.mem_append_right pre hmem)
  rcases covers_total hx.to_reflTransGen hax.to_reflTransGen with hha | hah'
  · exact (covers_iff_eq_or_above.mp hha).resolve_left fun he => hah (he ▸ covers_refl)
  · exact absurd hah' hah

theorem suffix_passingFrom (hF : F.WellFormed) (hst : F.Bears (.tree h b .bare))
    (hx : F.Above h x) : F.passingFrom P h <:+ F.passing P x := by
  obtain ⟨-, hbelow, hb, -⟩ := id hst
  apply hF.suffix_passing hb ?_ ((hF.mem_below_iff hst).mpr hx)
  intro t ht
  exact passing_eq_passingFrom (hF.above?_eq_some_iff.mpr (hbelow ▸ ht))

theorem passing_eq_iff (hF : F.WellFormed) (hst : F.Bears (.tree h b .bare)) (hx : F.Above h x) :
    F.passing P x = F.passingFrom P h ↔ ∀ a, F.Above h a → F.Above a x → P F a = false := by
  have hh := hst.1
  constructor
  · intro he a hha hax
    cases hP : P F a with
    | false => rfl
    | true =>
      have ha : a ∈ F.passing P x := hF.mem_passing_iff.mpr ⟨hax, hP⟩
      exact absurd hha (hF.not_above_of_mem_passingFrom hh (he ▸ ha))
  · intro hnone
    obtain ⟨pre, hpre⟩ := hF.suffix_passingFrom hst hx (P := P)
    cases pre with
    | nil => exact hpre.symm
    | cons a pre =>
      obtain ⟨hha, hax, hP⟩ := hF.nearest_between hh hx hpre.symm
      rw [hnone a hha hax] at hP
      exact nomatch hP

theorem exists_outer (hF : F.WellFormed) (hst : F.Bears (.tree h b .bare)) {pre : List Handle}
    (hd : F.Above h d) (hP : P F d = true) (hpre : F.passing P d = pre ++ F.passingFrom P h) :
    ∃ m, F.Covers m d ∧ F.Above h m ∧ P F m = true ∧ F.passing P m = F.passingFrom P h := by
  induction pre generalizing d with
  | nil => exact ⟨d, covers_refl, hd, hP, hpre⟩
  | cons a pre ih =>
    obtain ⟨hha, had, hPa⟩ := hF.nearest_between hst.1 hd hpre
    obtain ⟨m, hma, hrest⟩ := ih hha hPa (hF.passing_eq_of_cons hpre)
    exact ⟨m, hma.trans had.to_reflTransGen, hrest⟩

theorem not_above_of_passing_eq (hF : F.WellFormed) (hm : P F m = true)
    (he : F.passing P m = F.passing P n) : ¬ F.Above m n := by
  intro hmn
  have hself : m ∈ F.passing P m := he ▸ hF.mem_passing_iff.mpr ⟨hmn, hm⟩
  exact hF.acyclic m (hF.mem_passing_iff.mp hself).1

theorem mem_outer_iff (hF : F.WellFormed) (hst : F.Bears (.tree h b .bare)) :
    m ∈ F.found P true b ↔ F.Above h m ∧ P F m = true ∧
      F.passing P m = F.passingFrom P h := by
  obtain ⟨-, hbelow, hb, -⟩ := id hst
  have htops : ∀ t ∈ b.tops, F.passing P t = F.passingFrom P h := by
    intro t ht
    exact passing_eq_passingFrom (hF.above?_eq_some_iff.mpr (hbelow ▸ ht))
  rw [hF.mem_found_iff hb htops, hF.mem_below_iff hst]

theorem existsUnique_outer (hF : F.WellFormed) (hst : F.Bears (.tree h b .bare))
    (hd : F.Above h d) (hP : P F d = true) : ∃! m, m ∈ F.found P true b ∧ F.Covers m d := by
  obtain ⟨pre, hpre⟩ := hF.suffix_passingFrom hst hd (P := P)
  obtain ⟨m, hmd, hm⟩ := hF.exists_outer hst hd hP hpre.symm
  refine ⟨m, ⟨(hF.mem_outer_iff hst).mpr hm, hmd⟩, ?_⟩
  rintro n ⟨hn, hnd⟩
  obtain ⟨-, hPn, hn⟩ := (hF.mem_outer_iff hst).mp hn
  obtain ⟨-, hPm, hm⟩ := hm
  -- both are on the way up from `d`, and neither is above the other
  rcases covers_total hmd hnd with hmn | hnm
  · refine (covers_iff_eq_or_above.mp hmn).resolve_right ?_
    exact hF.not_above_of_passing_eq hPm (hm.trans hn.symm)
  · refine ((covers_iff_eq_or_above.mp hnm).resolve_right ?_).symm
    exact hF.not_above_of_passing_eq hPn (hn.trans hm.symm)

end WellFormed

/-! ## The walks -/

namespace WellFormed

theorem sifts_of_bears (hF : F.WellFormed) (P : Predicate C) (hst : F.Bears (.tree h b .bare)) :
    F.Sifts P h b.handles (F.found P false b) (F.found P true b) := by
  obtain ⟨hh, hbelow, hb, -⟩ := id hst
  have hnd := (List.nodup_cons.mp (hF.nodup_single hst)).2
  have hwalk : ∀ Q prune, F.matchingDescendants h Q prune = .ok (F.found Q prune b) := by
    intro Q prune
    exact matchingDescendants_of_bears prune hh hb hbelow.symm hnd
  have hall : ∀ m, m ∈ F.found P false b ↔ F.Above h m ∧ P F m = true := by
    intro m
    rw [found_false, List.mem_filter, hF.mem_below_iff hst]
  constructor
  case below =>
    exact ⟨hst.descendants_eq hnd, hF.nodup_single hst, fun d => hF.mem_below_iff hst⟩
  case preOrder =>
    refine (hF.pairwise_precedes hb (p := h) (by rw [hbelow])).imp ?_
    intro x y hxy
    exact ⟨hxy, hF.precedes_asymm hxy⟩
  case unpruned => exact ⟨hwalk P false, found_false P b⟩
  case pruned =>
    refine ⟨hwalk P true, found_true_sublist P b, ?_⟩
    intro m
    rw [hF.mem_outer_iff hst, hall, and_assoc]
    apply and_congr_right
    intro hm
    rw [hF.passing_eq_iff hst hm]
  case apart =>
    intro m hm n hn
    obtain ⟨-, hPm, hm⟩ := (hF.mem_outer_iff hst).mp hm
    obtain ⟨-, -, hn⟩ := (hF.mem_outer_iff hst).mp hn
    exact hF.not_above_of_passing_eq hPm (hm.trans hn.symm)
  case covered =>
    intro d hd
    obtain ⟨hd, hP⟩ := (hall d).mp hd
    exact hF.existsUnique_outer hst hd hP
  case untested =>
    intro Q prune hQ
    rw [hwalk Q prune, hwalk P prune, found_congr prune hQ]
  case ends =>
    intro prune n
    rw [hbelow, matchesFrom_bears P prune hb (Nat.le_add_right _ n)]
    cases prune <;> rfl

end WellFormed
end Forest

theorem sifts_below {C : Type} {F : Forest C} (hF : F.WellFormed) (P : Predicate C) {h : Handle}
    (hh : F.contains h = true) : ∃ ds all outer, F.Sifts P h ds all outer := by
  obtain ⟨b, hb, htops⟩ := hF.exists_bears hh
  exact ⟨_, _, _, hF.sifts_of_bears P (.node hh hb htops)⟩

/-- A block with a leaf and a block below it; below the leaf is a block that has a block of its own. -/
def Session.bower : Session Label := (Session.fresh Label {}).after
  [.create ⟨.block, "a"⟩, .create ⟨.leaf, "b"⟩, .create ⟨.block, "c"⟩, .create ⟨.block, "d"⟩,
    .create ⟨.block, "e"⟩, .addChildren ⟨0, 0⟩ [⟨1, 0⟩, ⟨4, 0⟩], .addChild ⟨1, 0⟩ ⟨2, 0⟩,
    .addChild ⟨2, 0⟩ ⟨3, 0⟩]

/-- Of the three blocks below the topmost one, the one inside another one is left out by pruning. -/
theorem sifts_bower :
    Session.bower.forest.WellFormed ∧ Session.bower.forest.contains ⟨0, 0⟩ = true ∧
      Session.bower.forest.Sifts (fun F k => F.isKind .block k) ⟨0, 0⟩
        [⟨1, 0⟩, ⟨2, 0⟩, ⟨3, 0⟩, ⟨4, 0⟩] [⟨2, 0⟩, ⟨3, 0⟩, ⟨4, 0⟩] [⟨2, 0⟩, ⟨4, 0⟩] := by
  have hF : Session.bower.forest.WellFormed :=
    Session.wellFormed_after (Forest.wellFormed_empty {}) _
  have hh : Session.bower.forest.contains ⟨0, 0⟩ = true := rfl
  obtain ⟨ds, all, outer, hsifts⟩ := sifts_below hF (fun F k => F.isKind .block k) hh
  obtain rfl := Except.ok.inj (hsifts.below.1.symm.trans rfl)
  obtain rfl := Except.ok.inj (hsifts.unpruned.1.symm.trans rfl)
  obtain rfl := Except.ok.inj (hsifts.pruned.1.symm.trans rfl)
  exact ⟨hF, hh, hsifts⟩

end Grove
