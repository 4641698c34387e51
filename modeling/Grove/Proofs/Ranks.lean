import Grove.Proofs.Forest.PreOrder
import Grove.Proofs.Forest.Ranking
import Grove.Proofs.Integrity

/-!
# Ranks and the pre-order

Read from its last entry to its first one, a rank is an address: it says at which place of the outermost
scope to go down, at which place of the next scope, and so on. The walk that meets nodes before their
children meets the passing nodes of one outermost scope in the lexicographic order of their addresses.
-/

namespace Grove
set_option autoImplicit false

namespace Forest
variable {C : Type} {F : Forest C} {P : Predicate C} {a h k m n o s : Handle} {b st : Stand}

/-- The passing nodes of a stand in pre-order, each with its address; `i` nodes of the scope have been
counted before. -/
def addresses (F : Forest C) (P : Predicate C) : Nat → Stand → List (Handle × List Nat)
  | _, .bare => []
  | i, .tree h b r =>
    if P F h then
      (h, [i + 1]) :: (F.addresses P 0 b).map (fun e => (e.1, (i + 1) :: e.2)) ++
        F.addresses P (i + 1) r
    else F.addresses P i b ++ F.addresses P (i + (F.found P true b).length) r

theorem map_fst_addresses (i : Nat) (st : Stand) :
    (F.addresses P i st).map Prod.fst = st.handles.filter (P F) := by
  induction st generalizing i with
  | bare => rfl
  | tree h b r ihb ihr =>
    rw [addresses, Stand.handles, List.filter_cons, List.filter_append]
    split
    · rw [List.map_append, List.map_cons, ihr, List.map_map, List.cons_append]
      exact congrArg (h :: · ++ _) (ihb 0)
    · rw [List.map_append, ihb, ihr]

theorem head_of_mem_addresses {i : Nat} {e : Handle × List Nat} (he : e ∈ F.addresses P i st) :
    ∃ j l, e.2 = j :: l ∧ i < j ∧ j ≤ i + (F.found P true st).length := by
  induction st generalizing i with
  | bare => simp [addresses] at he
  | tree h b r ihb ihr =>
    simp only [addresses] at he
    simp only [found, if_true]
    split at he
    · rename_i hP
      rw [if_pos hP, List.length_append, List.length_singleton]
      rcases List.mem_append.mp he with he | he
      · rcases List.mem_cons.mp he with rfl | he
        · exact ⟨i + 1, [], rfl, by omega, by omega⟩
        · obtain ⟨e, -, rfl⟩ := List.mem_map.mp he
          exact ⟨i + 1, e.2, rfl, by omega, by omega⟩
      · obtain ⟨j, l, hj, hlt, hle⟩ := ihr he
        exact ⟨j, l, hj, by omega, by omega⟩
    · rename_i hP
      rw [if_neg hP, List.length_append]
      rcases List.mem_append.mp he with he | he
      · obtain ⟨j, l, hj, hlt, hle⟩ := ihb he
        exact ⟨j, l, hj, hlt, by omega⟩
      · obtain ⟨j, l, hj, hlt, hle⟩ := ihr he
        exact ⟨j, l, hj, by omega, by omega⟩

theorem pairwise_addresses (i : Nat) (st : Stand) :
    (F.addresses P i st).Pairwise fun d e => d.2 < e.2 := by
  induction st generalizing i with
  | bare => exact .nil
  | tree h b r ihb ihr =>
    rw [addresses]
    split
    · have hbelow : ((h, [i + 1]) :: (F.addresses P 0 b).map fun e => (e.1, (i + 1) :: e.2)).Pairwise
          fun d e => d.2 < e.2 := by
        refine List.pairwise_cons.mpr ⟨fun e he => ?_, ?_⟩
        · obtain ⟨d, hd, rfl⟩ := List.mem_map.mp he
          obtain ⟨j, l, hj, -, -⟩ := head_of_mem_addresses hd
          rw [hj]
          exact List.cons_lt_cons_iff.mpr (Or.inr ⟨rfl, List.nil_lt_cons j l⟩)
        · refine List.pairwise_map.mpr ((ihb 0).imp fun hde => ?_)
          exact List.cons_lt_cons_iff.mpr (Or.inr ⟨rfl, hde⟩)
      have hfirst : ∀ d ∈ (h, [i + 1]) :: (F.addresses P 0 b).map fun e => (e.1, (i + 1) :: e.2),
          ∃ l, d.2 = (i + 1) :: l := by
        intro d hd
        rcases List.mem_cons.mp hd with rfl | hd
        · exact ⟨[], rfl⟩
        · obtain ⟨e, -, rfl⟩ := List.mem_map.mp hd
          exact ⟨e.2, rfl⟩
      refine List.pairwise_append.mpr ⟨hbelow, ihr _, fun d hd e he => ?_⟩
      obtain ⟨l, hl⟩ := hfirst d hd
      obtain ⟨j, l', hj, hlt, -⟩ := head_of_mem_addresses he
      rw [hl, hj]
      exact List.cons_lt_cons_iff.mpr (Or.inl hlt)
    · refine List.pairwise_append.mpr ⟨ihb _, ihr _, fun d hd e he => ?_⟩
      obtain ⟨j, l, hj, -, hle⟩ := head_of_mem_addresses hd
      obtain ⟨j', l', hj', hlt, -⟩ := head_of_mem_addresses he
      rw [hj, hj']
      exact List.cons_lt_cons_iff.mpr (Or.inl (by omega))

/-- Part of what is counted in the scope `s`: `w` is what stands below the scope, `before` has been
counted, and `st` is met next. -/
structure Counted (F : Forest C) (P : Predicate C) (s : Handle) (w : Stand)
    (before : List Handle) (st : Stand) (after : List Handle) : Prop where
  bears : F.Bears w
  tops : w.tops = F.below s
  found : F.found P true w = before ++ F.found P true st ++ after
  passing : ∀ t ∈ st.tops, F.passing P t = s :: F.passing P s

theorem WellFormed.ranked_of_mem_addresses (hF : F.WellFormed) {w : Stand}
    {before after : List Handle} {rank : List Nat} {e : Handle × List Nat} (hst : F.Bears st)
    (hcounted : F.Counted P s w before st after) (hs : F.Ranked P s rank)
    (he : e ∈ F.addresses P before.length st) : F.Ranked P e.1 (e.2.reverse ++ rank) := by
  induction st generalizing s w before after rank e with
  | bare => simp [addresses] at he
  | tree h b r ihb ihr =>
    obtain ⟨hw, htops, hfound, hpassing⟩ := hcounted
    obtain ⟨hh, hbelow, hb, hr⟩ := hst
    have hscope := hpassing h List.mem_cons_self
    have hbeside : ∀ t ∈ r.tops, F.passing P t = s :: F.passing P s := fun t ht =>
      hpassing t (List.mem_cons_of_mem h ht)
    simp only [addresses] at he
    simp only [Forest.found, if_true] at hfound
    split at he
    · rename_i hP
      rw [if_pos hP] at hfound
      have hself : F.Ranked P h ((before.length + 1) :: rank) := by
        refine .within (by rw [hscope]; rfl) hw htops ?_ hs
        simp [hfound]
      rcases List.mem_append.mp he with he | he
      · rcases List.mem_cons.mp he with rfl | he
        · exact hself
        · obtain ⟨d, hd, rfl⟩ := List.mem_map.mp he
          have hinner : F.Counted P h b [] b [] := by
            refine ⟨hb, hbelow.symm, by simp, fun t ht => ?_⟩
            rw [hF.passing_of_top hbelow ht, if_pos hP]
          simpa using ihb hb hinner hself hd
      · have hrest : F.Counted P s w (before ++ [h]) r after :=
          ⟨hw, htops, by simp [hfound], hbeside⟩
        exact ihr hr hrest hs (by simpa using he)
    · rename_i hP
      rw [if_neg hP] at hfound
      rcases List.mem_append.mp he with he | he
      · have hinner : F.Counted P s w before b (F.found P true r ++ after) := by
          refine ⟨hw, htops, by simp [hfound], fun t ht => ?_⟩
          rw [hF.passing_of_top hbelow ht, if_neg hP, hscope]
        exact ihb hb hinner hs he
      · have hrest : F.Counted P s w (before ++ F.found P true b) r after :=
          ⟨hw, htops, by simp [hfound], hbeside⟩
        exact ihr hr hrest hs (by simpa using he)

/-! ## Before and after in the pre-order -/

theorem Bears.exists_tree (hst : F.Bears st) (ho : o ∈ st.handles) :
    ∃ b, F.Bears (.tree o b .bare) ∧ (Stand.tree o b .bare).handles.Sublist st.handles := by
  induction st with
  | bare => simp [Stand.handles] at ho
  | tree h b r ihb ihr =>
    obtain ⟨hh, hbelow, hb, hr⟩ := hst
    rcases List.mem_cons.mp ho with rfl | ho
    · refine ⟨b, ⟨hh, hbelow, hb, trivial⟩, ?_⟩
      simp [Stand.handles]
    · rcases List.mem_append.mp ho with ho | ho
      · obtain ⟨b', hb', hsub⟩ := ihb hb ho
        exact ⟨b', hb', (hsub.trans (List.sublist_append_left b.handles r.handles)).cons h⟩
      · obtain ⟨b', hb', hsub⟩ := ihr hr ho
        exact ⟨b', hb', (hsub.trans (List.sublist_append_right b.handles r.handles)).cons h⟩

theorem contains_of_descendantsAndSelf {ds : List Handle} (hds : F.descendantsAndSelf h = .ok ds) :
    F.contains h = true := by
  cases hh : F.contains h with
  | true => rfl
  | false =>
    rw [descendantsAndSelf, node_of_not_contains hh] at hds
    cases hds

namespace WellFormed

theorem sublist_descendantsAndSelf (hF : F.WellFormed) {ds es : List Handle}
    (hds : F.descendantsAndSelf h = .ok ds) (hes : F.descendantsAndSelf k = .ok es)
    (hk : F.Covers h k) : es.Sublist ds := by
  obtain ⟨st, hst, htops, hnd⟩ := hF.exists_bears_single (contains_of_descendantsAndSelf hds)
  have hmem : k ∈ st.handles := (hF.mem_handles_iff hst).mpr ⟨h, by simp [htops], hk⟩
  obtain ⟨b, hb, hsub⟩ := hst.exists_tree hmem
  rw [hst.descendantsAndSelf_eq htops hnd] at hds
  rw [hb.descendantsAndSelf_eq rfl (hnd.sublist hsub)] at hes
  rw [← Except.ok.inj hds, ← Except.ok.inj hes]
  exact hsub

theorem sublist_pair_of_walks (hF : F.WellFormed) {ds es : List Handle}
    (hds : F.descendantsAndSelf h = .ok ds) (hes : F.descendantsAndSelf k = .ok es)
    (hm : m ∈ es) (hn : n ∈ es) (hne : m ≠ n) (hmn : [m, n].Sublist ds) : [m, n].Sublist es := by
  obtain ⟨ds', hds', hnd, hmem⟩ := hF.descendantsAndSelf_eq (contains_of_descendantsAndSelf hds)
  obtain ⟨es', hes', hnd', hmem'⟩ := hF.descendantsAndSelf_eq (contains_of_descendantsAndSelf hes)
  obtain rfl := Except.ok.inj (hds'.symm.trans hds)
  obtain rfl := Except.ok.inj (hes'.symm.trans hes)
  refine (sublist_pair_or hm hn hne).resolve_right fun hnm => ?_
  have hlt := idxOf_lt_of_sublist_pair hnd hmn
  have hlt' := idxOf_lt_of_sublist_pair hnd' hnm
  -- one of the two walks is a part of the other one
  have hhm := (hmem m).mp (hmn.subset List.mem_cons_self)
  rcases covers_total hhm ((hmem' m).mp hm) with hc | hc
  · have := idxOf_lt_of_sublist_pair hnd (hnm.trans (hF.sublist_descendantsAndSelf hds hes hc))
    omega
  · have := idxOf_lt_of_sublist_pair hnd' (hmn.trans (hF.sublist_descendantsAndSelf hes hds hc))
    omega

end WellFormed

/-! ## Ranks -/

/-- The uppermost passing node on the way up from `h`, itself included. -/
structure Outermost (F : Forest C) (P : Predicate C) (o h : Handle) : Prop where
  covers : F.Covers o h
  passes : P F o = true
  above : ∀ a, F.Above a o → P F a = false

variable [Content C]

/-- Of two nodes of one outermost scope, the one that is met first has the smaller address. -/
theorem reverse_lt_of_sublist (hF : F.WellFormed) (ho : P F o = true) (hnil : F.passing P o = [])
    (hst : F.Bears (.tree o b .bare)) (hm : P F m = true) (hn : P F n = true)
    (hmn : [m, n].Sublist (Stand.tree o b .bare).handles) {rm rn : List Nat}
    (hrm : F.rank m P = .ok rm) (hrn : F.rank n P = .ok rn) : rm.reverse < rn.reverse := by
  have hranked : ∀ e ∈ (o, []) :: F.addresses P 0 b, F.Ranked P e.1 e.2.reverse := by
    intro e he
    rcases List.mem_cons.mp he with rfl | he
    · exact .outermost hnil
    · have hcounted : F.Counted P o b [] b [] := ⟨hst.2.2.1, hst.2.1.symm, by simp, fun t ht => by
        rw [hF.passing_of_top hst.2.1 ht, if_pos ho]⟩
      simpa using hF.ranked_of_mem_addresses hst.2.2.1 hcounted (.outermost hnil) he
  have hpairwise : ((o, []) :: F.addresses P 0 b).Pairwise fun d e => d.2 < e.2 := by
    refine List.pairwise_cons.mpr ⟨fun e he => ?_, pairwise_addresses 0 b⟩
    obtain ⟨j, l, hj, -, -⟩ := head_of_mem_addresses he
    rw [hj]
    exact List.nil_lt_cons j l
  have hfst : ((o, []) :: F.addresses P 0 b).map Prod.fst =
      (Stand.tree o b .bare).handles.filter (P F) := by
    rw [List.map_cons, map_fst_addresses, Stand.handles, Stand.handles, List.append_nil,
      List.filter_cons_of_pos ho]
  have hpair : [m, n].Sublist (((o, []) :: F.addresses P 0 b).map Prod.fst) := by
    rw [hfst]
    simpa [hm, hn] using hmn.filter (P F)
  obtain ⟨l, hl, hmap⟩ := List.sublist_map_iff.mp hpair
  obtain ⟨d, e, rfl⟩ : ∃ d e, l = [d, e] := by
    have hlen := congrArg List.length hmap
    rw [List.length_map] at hlen
    exact List.length_eq_two.mp hlen.symm
  obtain ⟨rfl, rfl⟩ : m = d.1 ∧ n = e.1 := by simpa using hmap
  -- a rank is computed in one way only
  have hread : ∀ {x r}, x ∈ [d, e] → F.rank x.1 P = .ok r → r.reverse = x.2 := by
    intro x r hx hr
    have hlive := hst.contains (hmn.subset (List.mem_map_of_mem (f := Prod.fst) hx))
    have he := ((hranked x (hl.subset hx)).rank_eq hF hlive).symm.trans hr
    rw [← Except.ok.inj he, List.reverse_reverse]
  rw [hread (by simp) hrm, hread (by simp) hrn]
  exact List.pairwise_iff_forall_sublist.mp hpairwise hl

structure RanksBy (F : Forest C) (P : Predicate C) : Prop where
  /-- only a node that does not pass, below one that does, has no rank -/
  notFound_iff : ∀ n, F.contains n = true →
    ((∃ w, F.rank n P = .error (.notFound w)) ↔
      P F n = false ∧ ∃ a, F.Above a n ∧ P F a = true)
  /-- any other node has a rank, with one entry for each passing node above it -/
  length : ∀ n, F.contains n = true → ¬ (P F n = false ∧ ∃ a, F.Above a n ∧ P F a = true) →
    ∃ rank, F.rank n P = .ok rank ∧ ∃ as : List Handle, as.Nodup ∧
      (∀ a, a ∈ as ↔ F.Above a n ∧ P F a = true) ∧ rank.length = as.length
  /-- within an outermost scope the ranks tell the pre-order, and no two of them are the same -/
  order : ∀ m n o, m ≠ n → F.contains m = true → F.contains n = true →
    P F m = true → P F n = true → F.Outermost P o m → F.Outermost P o n →
      ∃ rm rn, F.rank m P = .ok rm ∧ F.rank n P = .ok rn ∧ rm ≠ rn ∧
        ∀ r ds, F.descendantsAndSelf r = .ok ds → m ∈ ds → n ∈ ds →
          (ds.idxOf m < ds.idxOf n ↔ rm.reverse < rn.reverse)

namespace WellFormed

theorem rank_of_exposed (hF : F.WellFormed) (hh : F.contains h = true)
    (hpass : P F h = true ∨ F.passing P h = []) :
    ∃ rank, F.rank h P = .ok rank ∧ rank.length = (F.passing P h).length := by
  obtain ⟨rank, hr⟩ := hF.exists_ranked hh hpass
  exact ⟨rank, hr.rank_eq hF hh, hr.length_eq hF⟩

theorem rank_notFound_iff (hF : F.WellFormed) (hh : F.contains h = true) :
    (∃ w, F.rank h P = .error (.notFound w)) ↔
      P F h = false ∧ ∃ a, F.Above a h ∧ P F a = true := by
  constructor
  · rintro ⟨w, hw⟩
    by_contra hnot
    obtain ⟨rank, hrank, -⟩ := hF.rank_of_exposed hh (hF.exposed_of_not hnot)
    exact nomatch hrank.symm.trans hw
  · rintro ⟨hP, habove⟩
    obtain ⟨a, l, hl⟩ := List.exists_cons_of_ne_nil (hF.exists_above_iff.mp habove)
    exact ⟨_, hF.rank_of_hidden hh hP (by rw [hl]; rfl)⟩

theorem rank_order (hF : F.WellFormed) (hne : m ≠ n) (hmin : F.contains m = true)
    (hnin : F.contains n = true) (hm : P F m = true) (hn : P F n = true)
    (hom : F.Outermost P o m) (hon : F.Outermost P o n) :
    ∃ rm rn, F.rank m P = .ok rm ∧ F.rank n P = .ok rn ∧ rm ≠ rn ∧
      ∀ r ds, F.descendantsAndSelf r = .ok ds → m ∈ ds → n ∈ ds →
        (ds.idxOf m < ds.idxOf n ↔ rm.reverse < rn.reverse) := by
  obtain ⟨rm, hrm, -⟩ := hF.rank_of_exposed hmin (Or.inl hm)
  obtain ⟨rn, hrn, -⟩ := hF.rank_of_exposed hnin (Or.inl hn)
  have hnil := hF.passing_eq_nil_iff.mpr hom.above
  obtain ⟨b, hb, htops⟩ := hF.exists_bears (hF.contains_of_covers hom.covers hmin)
  have hst : F.Bears (.tree o b .bare) :=
    ⟨hF.contains_of_covers hom.covers hmin, htops.symm, hb, trivial⟩
  have hnd : (Stand.tree o b .bare).handles.Nodup :=
    hF.nodup_handles hst (q := F.above? o) (by simp [Stand.tops]) (List.nodup_singleton o)
  have hmem : ∀ {k}, F.Covers o k → k ∈ (Stand.tree o b .bare).handles := fun hk =>
    (hF.mem_handles_iff hst).mpr ⟨o, List.mem_singleton_self o, hk⟩
  have hwalk := hst.descendantsAndSelf_eq rfl hnd
  -- whichever is met first has the smaller address, in the tree of `o` and in any other walk
  have hlt : ∀ {r ds}, F.descendantsAndSelf r = .ok ds → [m, n].Sublist ds →
      rm.reverse < rn.reverse := fun hds hmn =>
    reverse_lt_of_sublist hF hom.passes hnil hst hm hn
      (hF.sublist_pair_of_walks hds hwalk (hmem hom.covers) (hmem hon.covers) hne hmn) hrm hrn
  have hgt : ∀ {r ds}, F.descendantsAndSelf r = .ok ds → [n, m].Sublist ds →
      rn.reverse < rm.reverse := fun hds hnm =>
    reverse_lt_of_sublist hF hom.passes hnil hst hn hm
      (hF.sublist_pair_of_walks hds hwalk (hmem hon.covers) (hmem hom.covers) hne.symm hnm)
      hrn hrm
  refine ⟨rm, rn, hrm, hrn, fun he => ?_, fun r ds hds hmds hnds => ?_⟩
  · subst he
    rcases sublist_pair_or (hmem hom.covers) (hmem hon.covers) hne with hmn | hnm
    · exact List.lt_irrefl _ (hlt hwalk hmn)
    · exact List.lt_irrefl _ (hgt hwalk hnm)
  · obtain ⟨ds', hds', hnd', -⟩ := hF.descendantsAndSelf_eq (contains_of_descendantsAndSelf hds)
    obtain rfl := Except.ok.inj (hds'.symm.trans hds)
    rcases sublist_pair_or hmds hnds hne with hmn | hnm
    · exact iff_of_true (idxOf_lt_of_sublist_pair hnd' hmn) (hlt hds hmn)
    · exact iff_of_false (Nat.lt_asymm (idxOf_lt_of_sublist_pair hnd' hnm))
        (List.lt_asymm (hgt hds hnm))

end WellFormed
end Forest

theorem ranks_by {C : Type} [Content C] {F : Forest C} (hF : F.WellFormed) (P : Predicate C) :
    F.RanksBy P where
  notFound_iff _ hn := hF.rank_notFound_iff hn
  length n hn hnot := by
    obtain ⟨rank, hrank, hlen⟩ := hF.rank_of_exposed hn (hF.exposed_of_not hnot)
    exact ⟨rank, hrank, F.passing P n, hF.nodup_passing, fun _ => hF.mem_passing_iff, hlen⟩
  order _ _ _ hne hm hn hPm hPn hom hon := hF.rank_order hne hm hn hPm hPn hom hon

def Session.nested : Session Label := (Session.fresh Label {}).after
  [.create ⟨.block, "a"⟩, .create ⟨.block, "b"⟩, .create ⟨.block, "c"⟩, .create ⟨.leaf, "d"⟩,
    .create ⟨.block, "e"⟩, .addChild ⟨0, 0⟩ ⟨1, 0⟩, .addChild ⟨0, 0⟩ ⟨2, 0⟩,
    .addChild ⟨2, 0⟩ ⟨3, 0⟩, .addChild ⟨2, 0⟩ ⟨4, 0⟩]

def isBlock : Predicate Label := fun F h => F.isKind .block h

/-- The innermost block is the first one in the second place, and the leaf beside it has no rank. -/
theorem ranks_nested :
    Session.nested.forest.RanksBy isBlock ∧
    Session.nested.forest.rank ⟨4, 0⟩ isBlock = .ok [1, 2] ∧
    ∃ w, Session.nested.forest.rank ⟨3, 0⟩ isBlock = .error (.notFound w) := by
  have hF : Session.nested.forest.WellFormed :=
    Session.wellFormed_after (Forest.wellFormed_empty {}) _
  refine ⟨ranks_by hF isBlock, rfl, ?_⟩
  exact ((ranks_by hF isBlock).notFound_iff ⟨3, 0⟩ rfl).mpr
    ⟨rfl, ⟨0, 0⟩, .tail (.single (by rfl : _ = some (⟨0, 0⟩ : Handle)))
      (by rfl : Session.nested.forest.above? ⟨3, 0⟩ = some ⟨2, 0⟩), rfl⟩

end Grove
