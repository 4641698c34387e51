import Grove.Forest.Path
import Grove.Proofs.Forest.Ranking
import Grove.Proofs.Integrity

/-!
# Paths

A path is followed down along children lists, while the positions of the nodes on the way up from a node
are searched for in the list of each parent. In a well-formed forest the two tell the same: the only path
to a node is made of these positions. The walk that meets nodes before their children meets them in the
lexicographic order of their paths.
-/

namespace Grove
set_option autoImplicit false

namespace Stand

/-- The handles of a stand with the paths to them from the node above the stand; the first tree is at
position `i` there. -/
def routes : Nat → Stand → List (Handle × List Nat)
  | _, bare => []
  | i, tree h b r => ((h, []) :: b.routes 0).map (fun e => (e.1, i :: e.2)) ++ r.routes (i + 1)

theorem map_fst_routes (i : Nat) (st : Stand) : (st.routes i).map Prod.fst = st.handles := by
  induction st generalizing i with
  | bare => rfl
  | tree h b r ihb ihr =>
    rw [routes, List.map_append, List.map_map, ihr, List.map_cons, handles, List.cons_append]
    exact congrArg (h :: · ++ _) (ihb 0)

theorem head_of_mem_routes {i : Nat} {st : Stand} {e : Handle × List Nat}
    (he : e ∈ st.routes i) : ∃ j q, e.2 = j :: q ∧ i ≤ j := by
  induction st generalizing i with
  | bare => simp [routes] at he
  | tree h b r _ ihr =>
    rcases List.mem_append.mp he with he | he
    · obtain ⟨d, -, rfl⟩ := List.mem_map.mp he
      exact ⟨i, d.2, rfl, Nat.le_refl i⟩
    · obtain ⟨j, q, hj, hle⟩ := ihr he
      exact ⟨j, q, hj, by omega⟩

theorem pairwise_cons_routes {st : Stand} (h : Handle)
    (hst : (st.routes 0).Pairwise fun d e => d.2 < e.2) :
    ((h, []) :: st.routes 0).Pairwise fun d e => d.2 < e.2 := by
  apply List.pairwise_cons.mpr
  refine ⟨?_, hst⟩
  intro e he
  obtain ⟨j, q, hq, -⟩ := head_of_mem_routes he
  rw [hq]
  exact List.nil_lt_cons j q

theorem pairwise_routes (i : Nat) (st : Stand) :
    (st.routes i).Pairwise fun d e => d.2 < e.2 := by
  induction st generalizing i with
  | bare => exact .nil
  | tree h b r ihb ihr =>
    apply List.pairwise_append.mpr
    refine ⟨?_, ihr (i + 1), ?_⟩
    · apply List.pairwise_map.mpr
      apply (pairwise_cons_routes h (ihb 0)).imp
      intro d e hde
      exact List.cons_lt_cons_iff.mpr (Or.inr ⟨rfl, hde⟩)
    · intro d hd e he
      obtain ⟨d, -, rfl⟩ := List.mem_map.mp hd
      obtain ⟨j, q, hq, hle⟩ := head_of_mem_routes he
      rw [hq]
      exact List.cons_lt_cons_iff.mpr (Or.inl hle)

/-- The handles of a tree with the paths to them from its top. -/
def routesFrom (r : Handle) (b : Stand) : List (Handle × List Nat) := (r, []) :: b.routes 0

theorem map_fst_routesFrom (r : Handle) (b : Stand) :
    (routesFrom r b).map Prod.fst = r :: b.handles := by
  rw [routesFrom, List.map_cons, map_fst_routes]

end Stand

namespace Forest
variable {C : Type} {F : Forest C} {c h k n r : Handle} {i : Nat} {b st : Stand}
  {ds : List Handle} {q q' : List Nat} {qs : List (List Nat)}

section
variable [Content C]

/-- The paths `qs` from `r` lead to the nodes `ds` of its tree, each to the one at its place. -/
structure Charted (F : Forest C) (r : Handle) (ds : List Handle) (qs : List (List Nat)) : Prop where
  walk : F.descendantsAndSelf r = .ok ds ∧ ds.Nodup
  follow : qs.mapM (F.follow r) = .ok ds
  lexicographic : qs.Pairwise fun p q => p < q
  leads : ∀ q, q ∈ qs ↔ ∃ n, F.follow r q = .ok n
  reaches : ∀ n, n ∈ ds ↔ ∃ q, F.follow r q = .ok n
  once : ∀ q q' n, F.follow r q = .ok n → F.follow r q' = .ok n → q = q'
  /-- the path to a node has the positions of the nodes from just below `r` down to it -/
  positions : ∀ q n, F.follow r q = .ok n → ∃ up above,
    F.ascendantsAndSelf n = .ok (up ++ r :: above) ∧ r ∉ up ∧
      up.reverse.mapM F.indexOfSelf = .ok (q.map some)
  /-- any other path stops at a node that does not have enough children -/
  stops : ∀ q, q ∉ qs → ∃ before i after k cs, q = before ++ i :: after ∧
    F.follow r before = .ok k ∧ F.children k = .ok cs ∧ cs.length ≤ i ∧
      F.follow r q = .error (.indexOutOfBounds (F.describe k) i cs.length)

/-! ## Following a path -/

theorem follow_cons (hi : (F.below r)[i]? = some c) : F.follow r (i :: q) = F.follow c q := by
  have hr := contains_of_mem_below (List.mem_of_getElem? hi)
  rw [follow, children_of_contains hr]
  simp only [bind, Except.bind, hi]

theorem follow_stops (hr : F.contains r = true) (hi : (F.below r)[i]? = none) :
    F.follow r (i :: q) = .error (.indexOutOfBounds (F.describe r) i (F.below r).length) := by
  rw [follow, children_of_contains hr]
  simp only [bind, Except.bind, hi, indexError_of_contains hr]
  rfl

theorem follow_of_mem_routes {e : Handle × List Nat} (hst : F.Bears st)
    (htops : st.tops = (F.below r).drop i) (he : e ∈ st.routes i) :
    F.follow r e.2 = .ok e.1 := by
  induction st generalizing r i e with
  | bare => simp [Stand.routes] at he
  | tree h b s ihb ihs =>
    obtain ⟨-, hbelow, hb, hs⟩ := hst
    have hi : (F.below r)[i]? = some h := by
      have hhead := congrArg List.head? htops
      rwa [List.head?_drop, Stand.tops, List.head?_cons, eq_comm] at hhead
    have htail : s.tops = (F.below r).drop (i + 1) := by
      have htail := congrArg List.tail htops
      rwa [List.tail_drop] at htail
    rcases List.mem_append.mp he with he | he
    · obtain ⟨d, hd, rfl⟩ := List.mem_map.mp he
      rw [follow_cons hi]
      rcases List.mem_cons.mp hd with rfl | hd
      · rfl
      · exact ihb hb (by rw [hbelow, List.drop_zero]) hd
    · exact ihs hs htail he

theorem follow_of_mem_routesFrom {e : Handle × List Nat} (hst : F.Bears (.tree r b .bare))
    (he : e ∈ Stand.routesFrom r b) : F.follow r e.2 = .ok e.1 := by
  obtain ⟨-, hbelow, hb, -⟩ := hst
  rcases List.mem_cons.mp he with rfl | he
  · rfl
  · exact follow_of_mem_routes hb (by rw [hbelow, List.drop_zero]) he

theorem exists_route (hst : F.Bears (.tree r b .bare)) (hn : n ∈ r :: b.handles) :
    ∃ q ∈ (Stand.routesFrom r b).map Prod.snd, F.follow r q = .ok n := by
  rw [← Stand.map_fst_routesFrom] at hn
  obtain ⟨e, he, rfl⟩ := List.mem_map.mp hn
  exact ⟨e.2, List.mem_map_of_mem he, follow_of_mem_routesFrom hst he⟩

theorem follow_or_stops (hF : F.WellFormed) (hr : F.contains r = true) (q : List Nat) :
    (∃ n, F.follow r q = .ok n) ∨ ∃ before i after k cs, q = before ++ i :: after ∧
      F.follow r before = .ok k ∧ F.children k = .ok cs ∧ cs.length ≤ i ∧
        F.follow r q = .error (.indexOutOfBounds (F.describe k) i cs.length) := by
  induction q generalizing r with
  | nil => exact Or.inl ⟨r, rfl⟩
  | cons i q ih =>
    cases hi : (F.below r)[i]? with
    | none =>
      refine Or.inr ⟨[], i, q, r, F.below r, rfl, rfl, children_of_contains hr, ?_, ?_⟩
      · exact List.getElem?_eq_none_iff.mp hi
      · exact follow_stops hr hi
    | some c =>
      have hc := hF.contains_of_mem_below (List.mem_of_getElem? hi)
      rcases ih hc with ⟨n, hn⟩ | ⟨before, j, after, k, cs, rfl, hk, hrest⟩
      · exact Or.inl ⟨n, (follow_cons hi).trans hn⟩
      · refine Or.inr ⟨i :: before, j, after, k, cs, rfl, ?_, ?_⟩
        · rw [follow_cons hi, hk]
        · rwa [follow_cons hi]

end

/-! ## Positions on the way up -/

namespace WellFormed

theorem indexOfSelf_of_getElem? (hF : F.WellFormed) (hi : (F.below r)[i]? = some c) :
    F.indexOfSelf c = .ok (some i) := by
  have hmem := List.mem_of_getElem? hi
  have hfind := findIdx?_of_getElem? (hF.nodup_below r) hi
  simp only [indexOfSelf, parent_of_contains (hF.contains_of_mem_below hmem),
    hF.above?_eq_some_iff.mpr hmem, bind, Except.bind, indexOfChild,
    children_of_contains (Forest.contains_of_mem_below hmem), hfind]
  rfl

variable [Content C]

/-- The way up from where a path leads goes back through its positions. -/
theorem exists_positions (hF : F.WellFormed) (hr : F.contains r = true)
    (hq : F.follow r q = .ok n) :
    F.contains n = true ∧ ∃ up, F.lineage (some n) = up ++ F.lineage (some r) ∧
      up.reverse.mapM F.indexOfSelf = .ok (q.map some) := by
  induction q generalizing r with
  | nil =>
    obtain rfl := Except.ok.inj hq
    exact ⟨hr, [], rfl, rfl⟩
  | cons i q ih =>
    cases hi : (F.below r)[i]? with
    | none =>
      rw [follow_stops hr hi] at hq
      exact nomatch hq
    | some c =>
      have hmem := List.mem_of_getElem? hi
      have hc := hF.contains_of_mem_below hmem
      rw [follow_cons hi] at hq
      obtain ⟨hn, up, hup, hpos⟩ := ih hc hq
      refine ⟨hn, up ++ [c], ?_, ?_⟩
      · rw [hup, hF.lineage_eq_cons hc, hF.above?_eq_some_iff.mpr hmem, List.append_assoc]
        rfl
      · rw [List.reverse_append, List.reverse_singleton, List.singleton_append, List.mapM_cons,
          hF.indexOfSelf_of_getElem? hi, hpos]
        rfl

theorem follow_inj (hF : F.WellFormed) (hr : F.contains r = true) (hq : F.follow r q = .ok n)
    (hq' : F.follow r q' = .ok n) : q = q' := by
  obtain ⟨-, up, hup, hpos⟩ := hF.exists_positions hr hq
  obtain ⟨-, up', hup', hpos'⟩ := hF.exists_positions hr hq'
  obtain rfl := List.append_cancel_right (hup.symm.trans hup')
  have hsome := Except.ok.inj (hpos.symm.trans hpos')
  exact (List.map_inj_right fun _ _ => Option.some.inj).mp hsome

theorem mem_of_follow (hF : F.WellFormed) (hst : F.Bears (.tree r b .bare))
    (hq : F.follow r q = .ok n) : n ∈ r :: b.handles := by
  obtain ⟨hn, up, hup, -⟩ := hF.exists_positions hst.1 hq
  have hcovers : F.Covers r n := by
    apply (hF.mem_lineage_iff hn).mp
    rw [hup, hF.lineage_eq_cons hst.1]
    exact List.mem_append_right up List.mem_cons_self
  rw [← Stand.handles_single]
  exact (hF.mem_handles_iff hst).mpr ⟨r, List.mem_cons_self, hcovers⟩

theorem ascendantsAndSelf_of_follow (hF : F.WellFormed) (hr : F.contains r = true)
    (hq : F.follow r q = .ok n) :
    ∃ up above, F.ascendantsAndSelf n = .ok (up ++ r :: above) ∧ r ∉ up ∧
      up.reverse.mapM F.indexOfSelf = .ok (q.map some) := by
  obtain ⟨hn, up, hup, hpos⟩ := hF.exists_positions hr hq
  rw [hF.lineage_eq_cons hr] at hup
  refine ⟨up, F.lineage (F.above? r), ?_, ?_, hpos⟩
  · rw [ascendantsAndSelf_of_contains hn, hup]
  · -- no node is twice on a way up
    intro hmem
    have hnd : (F.lineage (some n)).Nodup :=
      (pairwise_ascend F _ _).imp fun hab => (hF.ne_of_above hab).symm
    rw [hup] at hnd
    exact (List.nodup_append.mp hnd).2.2 r hmem r List.mem_cons_self rfl

theorem mem_routesFrom_iff (hF : F.WellFormed) (hst : F.Bears (.tree r b .bare)) :
    q ∈ (Stand.routesFrom r b).map Prod.snd ↔ ∃ n, F.follow r q = .ok n := by
  constructor
  · intro hq
    obtain ⟨e, he, rfl⟩ := List.mem_map.mp hq
    exact ⟨e.1, follow_of_mem_routesFrom hst he⟩
  · rintro ⟨n, hn⟩
    obtain ⟨q', hq', hn'⟩ := exists_route hst (hF.mem_of_follow hst hn)
    exact hF.follow_inj hst.1 hn' hn ▸ hq'

theorem charted_of_bears (hF : F.WellFormed) (hst : F.Bears (.tree r b .bare)) :
    F.Charted r (r :: b.handles) ((Stand.routesFrom r b).map Prod.snd) := by
  have hr := hst.1
  have hnd := hF.nodup_single hst
  constructor
  case walk =>
    have hself := hst.descendantsAndSelf_eq rfl (Stand.handles_single r b ▸ hnd)
    rw [Stand.handles_single] at hself
    exact ⟨hself, hnd⟩
  case follow =>
    rw [List.mapM_map, ← Stand.map_fst_routesFrom]
    exact mapM_ok fun e he => follow_of_mem_routesFrom hst he
  case lexicographic =>
    apply List.pairwise_map.mpr
    exact Stand.pairwise_cons_routes r (Stand.pairwise_routes 0 b)
  case leads => exact fun q => hF.mem_routesFrom_iff hst
  case reaches =>
    intro n
    constructor
    · intro hn
      obtain ⟨q, -, hq⟩ := exists_route hst hn
      exact ⟨q, hq⟩
    · rintro ⟨q, hq⟩
      exact hF.mem_of_follow hst hq
  case once => exact fun q q' n hq hq' => hF.follow_inj hr hq hq'
  case positions => exact fun q n hq => hF.ascendantsAndSelf_of_follow hr hq
  case stops =>
    intro q hq
    apply (follow_or_stops hF hr q).resolve_left
    intro hn
    exact hq ((hF.mem_routesFrom_iff hst).mpr hn)

end WellFormed
end Forest

theorem charted_from {C : Type} [Content C] {F : Forest C} (hF : F.WellFormed) {r : Handle}
    (hr : F.contains r = true) : ∃ ds qs, F.Charted r ds qs := by
  obtain ⟨b, hb, htops⟩ := hF.exists_bears hr
  exact ⟨_, _, hF.charted_of_bears (.node hr hb htops)⟩

def Session.trellis : Session Label := (Session.fresh Label {}).after
  [.create ⟨.block, "a"⟩, .create ⟨.block, "b"⟩, .create ⟨.leaf, "c"⟩, .create ⟨.leaf, "d"⟩,
    .create ⟨.leaf, "e"⟩, .create ⟨.leaf, "f"⟩, .addChildren ⟨1, 0⟩ [⟨2, 0⟩, ⟨3, 0⟩],
    .addChildren ⟨0, 0⟩ [⟨1, 0⟩, ⟨4, 0⟩]]

/-- From the first root a path goes to the second leaf, and none goes on from the third one. -/
theorem charted_trellis :
    Session.trellis.forest.WellFormed ∧ Session.trellis.forest.contains ⟨0, 0⟩ = true ∧
      ∃ qs, [0, 1] ∈ qs ∧ [1, 0] ∉ qs ∧
        Session.trellis.forest.Charted ⟨0, 0⟩ [⟨0, 0⟩, ⟨1, 0⟩, ⟨2, 0⟩, ⟨3, 0⟩, ⟨4, 0⟩] qs := by
  have hF : Session.trellis.forest.WellFormed :=
    Session.wellFormed_after (Forest.wellFormed_empty {}) _
  have hr : Session.trellis.forest.contains ⟨0, 0⟩ = true := rfl
  have hfollow : Session.trellis.forest.follow ⟨0, 0⟩ [0, 1] = .ok ⟨3, 0⟩ := rfl
  have hstop : Session.trellis.forest.follow ⟨0, 0⟩ [1, 0] =
      .error (.indexOutOfBounds (Session.trellis.forest.describe ⟨4, 0⟩) 0 0) := rfl
  obtain ⟨ds, qs, hcharted⟩ := charted_from hF hr
  obtain rfl := Except.ok.inj (hcharted.walk.1.symm.trans rfl)
  refine ⟨hF, hr, qs, (hcharted.leads _).mpr ⟨_, hfollow⟩, ?_, hcharted⟩
  intro hmem
  obtain ⟨n, hn⟩ := (hcharted.leads _).mp hmem
  exact nomatch hstop.symm.trans hn

end Grove
