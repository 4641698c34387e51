import Grove.Proofs.Cursor.Collapse
import Grove.Proofs.Paths

/-!
# Grafting

A path leads to a child of the node that it leads to without its last position, and a node that is put
there takes the place of that child. Only the paths through this place notice: any other path leads where
it led before, or stops where it stopped. The child that was there is a root over all that it had, so it
can be put back, and then every node is linked as it was in the beginning.
-/

namespace Grove
set_option autoImplicit false

namespace Forest
variable {C : Type} {E F G : Forest C} {c h k p r y : Handle} {i j : Nat} {l : List Handle}
  {q q' : List Nat}

theorem Released.covers (hk : F.Released G k) (hF : F.WellFormed) (hG : G.WellFormed)
    (hc : G.Covers k h) : F.Covers k h := by
  induction hc with
  | refl => exact .refl
  | @tail q h _ ho ih =>
    have hbelow : G.below q = F.below q := by
      rcases covers_iff_eq_or_above.mp ih with rfl | habove
      · exact hk.below_eq
      · simp only [below, hk.subtree q habove]
    have hm : h ∈ F.below q := hbelow ▸ hG.above?_eq_some_iff.mp ho
    exact ih.tail (hF.above?_eq_some_iff.mpr hm)

theorem not_mem_set (hl : l.Nodup) (hi : l[i]? = some c) (hne : c ≠ y) : c ∉ l.set i y := by
  intro hm
  obtain ⟨hin, -⟩ := List.getElem?_eq_some_iff.mp hi
  obtain ⟨j, hj⟩ := List.mem_iff_getElem?.mp hm
  by_cases hij : i = j
  · rw [← hij, List.getElem?_set_self hin] at hj
    exact hne (Option.some.inj hj).symm
  · rw [List.getElem?_set_ne hij, ← hi] at hj
    exact hij ((List.getElem?_inj hin hl).mp hj.symm)

theorem set_set_self (hi : l[i]? = some c) (y : Handle) : (l.set i y).set i c = l := by
  obtain ⟨hin, rfl⟩ := List.getElem?_eq_some_iff.mp hi
  rw [List.set_set, List.set_getElem_self hin]

theorem mem_or_root_of_mem_set (hy : F.above? y = none) :
    ∀ h ∈ (F.below p).set i y, h ∈ F.below p ∨ F.above? h = none := by
  intro h hh
  rcases List.mem_or_eq_of_mem_set hh with hh | rfl
  · exact Or.inl hh
  · exact Or.inr hy

theorem Relisted.released_of_set (hG : F.Relisted G p ((F.below p).set i y)) (hF : F.WellFormed)
    (hi : (F.below p)[i]? = some c) (hy : F.above? y = none) : F.Released G c := by
  have hmem := List.mem_of_getElem? hi
  have hne : c ≠ y := by
    rintro rfl
    exact nomatch (hF.above?_eq_some_iff.mpr hmem).symm.trans hy
  exact hG.released hF hmem (not_mem_set (hF.nodup_below p) hi hne) (mem_or_root_of_mem_set hy)

variable [Content C]

theorem follow_append (F : Forest C) (r : Handle) (q q' : List Nat) :
    F.follow r (q ++ q') = F.follow r q >>= fun k => F.follow k q' := by
  induction q generalizing r with
  | nil => rfl
  | cons i q ih =>
    rw [List.cons_append, follow, follow]
    cases F.children r with
    | error e => rfl
    | ok cs =>
      simp only [bind, Except.bind]
      cases cs[i]? with
      | none => rfl
      | some c => exact ih c

theorem follow_append_of_ok (hq : F.follow r q = .ok k) (q' : List Nat) :
    F.follow r (q ++ q') = F.follow k q' := by
  rw [follow_append, hq]
  rfl

theorem follow_singleton (hi : (F.below p)[i]? = some c) : F.follow p [i] = .ok c := follow_cons hi

/-- A child has been replaced, and a path that does not pass it does not notice. -/
theorem Relisted.follow_eq (hG : F.Relisted G p ((F.below p).set i y)) (hF : F.WellFormed)
    (hr : F.contains r = true) (hq : ∀ q', F.follow r q' = .ok p → ¬ q' ++ [i] <+: q) :
    G.follow r q = F.follow r q := by
  induction q generalizing r with
  | nil => rfl
  | cons j q ih =>
    have hlist : (G.below r)[j]? = (F.below r)[j]? ∧ (G.below r).length = (F.below r).length := by
      by_cases hrp : r = p
      · subst hrp
        have hij : i ≠ j := by
          rintro rfl
          exact hq [] rfl ⟨q, rfl⟩
        rw [hG.children, List.getElem?_set_ne hij, List.length_set]
        exact ⟨rfl, rfl⟩
      · rw [hG.below_eq r hr hrp]
        exact ⟨rfl, rfl⟩
    cases hj : (F.below r)[j]? with
    | none =>
      rw [follow_stops hr hj, follow_stops (hG.contains hr) (hlist.1.trans hj), hlist.2,
        describe_congr (hG.contentOf?_eq r hr)]
    | some c =>
      rw [follow_cons hj, follow_cons (hlist.1.trans hj)]
      apply ih (hF.contains_of_mem_below (List.mem_of_getElem? hj))
      intro q' hq' hpre
      apply hq (j :: q')
      · rw [follow_cons hj, hq']
      · exact List.cons_prefix_cons.mpr ⟨rfl, hpre⟩

end Forest

namespace EditM
variable {C : Type} [ShallowCopy C] {s t : Session C} {root new old p y : Handle} {i : Nat}
  {path q : List Nat}

theorem setAtPath_eq_ok (hrun : setAtPath root new path s = .ok (some old) t) :
    ∃ q i p, path = q ++ [i] ∧ s.forest.follow root q = .ok p ∧
      setChild p i new s = .ok old t := by
  cases hlast : path.getLast? with
  | none =>
    simp only [setAtPath, hlast] at hrun
    exact nomatch hrun
  | some i =>
    obtain ⟨q, rfl⟩ := List.getLast?_eq_some_iff.mp hlast
    simp only [setAtPath, hlast, List.dropLast_concat] at hrun
    obtain ⟨p, u, hquery, hmap⟩ := bind_eq_ok.mp hrun
    obtain ⟨hq, rfl⟩ := query_eq_ok.mp hquery
    refine ⟨q, i, p, rfl, hq, ?_⟩
    cases hset : setChild p i new u with
    | ok c v =>
      rw [map_of_ok some hset] at hmap
      cases hmap
      rfl
    | error e v =>
      rw [map_of_error some hset] at hmap
      exact nomatch hmap

theorem setAtPath_of_setChild (hq : s.forest.follow root q = .ok p)
    (hset : setChild p i new s = .ok old t) :
    setAtPath root new (q ++ [i]) s = .ok (some old) t := by
  have hquery : query (fun F => F.follow root q) s = .ok p s := query_of_ok hq
  simp only [setAtPath, List.getLast?_concat, List.dropLast_concat, bind_of_ok _ hquery,
    map_of_ok some hset]

theorem setChild_back (hF : s.forest.WellFormed)
    (hG : s.forest.Relisted t.forest p ((s.forest.below p).set i y))
    (hi : (s.forest.below p)[i]? = some old) (hy : s.forest.above? y = none) :
    ∃ u, setChild p i old t = .ok y u ∧ u.forest.WellFormed ∧
      ∀ k, s.forest.contains k = true → u.forest.get? k = s.forest.get? k := by
  have hmem := List.mem_of_getElem? hi
  have hin : i < (s.forest.below p).length := (List.getElem?_eq_some_iff.mp hi).1
  have hreleased := hG.released_of_set hF hi hy
  have hlive := hG.contains (hF.contains_of_mem_below hmem)
  have hiG : (t.forest.below p)[i]? = some y := by
    rw [hG.children, List.getElem?_set_self hin]
  have hnot : ¬ t.forest.Covers old p := by
    intro hc
    apply hF.not_covers_of_over (hF.above?_eq_some_iff.mpr hmem)
    exact hreleased.covers hF hG.wellFormed hc
  have hback := Forest.relisted_substitute hG.wellFormed hiG hlive hreleased.root hnot
  rw [hG.children, Forest.set_set_self hi y] at hback
  refine ⟨_, setChild_of_root hG.wellFormed hiG hlive hreleased.root hnot, hback.wellFormed, ?_⟩
  intro k hk
  refine (hG.trans hback ?_).get?_eq hF hk
  intro h hh
  exact Or.inr (Forest.mem_or_root_of_mem_set hy h hh)

/-- What it comes to that `new` is put where a path leads to `old`: `y` has come there. -/
structure Grafts (s t : Session C) (root new : Handle) (path : List Nat) (old y : Handle) :
    Prop where
  former : s.forest.follow root path = .ok old
  wellFormed : t.forest.WellFormed
  present : t.forest.follow root path = .ok y
  standsFor : s.forest.StandsFor t.forest y new
  through : ∀ q, t.forest.follow root (path ++ q) = t.forest.follow y q
  elsewhere : ∀ q, ¬ path <+: q → t.forest.follow root q = s.forest.follow root q
  released : s.forest.Released t.forest old
  /-- `old` can be put back, and then all nodes that were there are as they were -/
  undone : ∃ u, setAtPath root old path t = .ok (some y) u ∧ u.forest.WellFormed ∧
    ∀ k, s.forest.contains k = true → u.forest.get? k = s.forest.get? k

variable [RegularCopy C]

theorem setChild_eq_ok (hF : s.forest.WellFormed) (hset : setChild p i new s = .ok old t) :
    ∃ y, (s.forest.below p)[i]? = some old ∧ s.forest.above? y = none ∧
      s.forest.StandsFor t.forest y new ∧
      s.forest.Relisted t.forest p ((s.forest.below p).set i y) := by
  rcases setChild_outcome hF p i new with ⟨-, c, y, u, hrun, hi, hstands, hG⟩ |
    ⟨-, e, u, hrun, -⟩
  · obtain ⟨rfl, rfl⟩ := EStateM.Result.ok.inj (hset.symm.trans hrun)
    exact ⟨y, hi, hstands.above?_eq_none, hstands, hG⟩
  · exact nomatch hset.symm.trans hrun

theorem setAtPath_grafts (hF : s.forest.WellFormed) (hroot : s.forest.contains root = true)
    (hrun : setAtPath root new path s = .ok (some old) t) :
    ∃ y, Grafts s t root new path old y := by
  obtain ⟨q, i, p, rfl, hq, hset⟩ := setAtPath_eq_ok hrun
  obtain ⟨y, hi, hy, hstands, hG⟩ := setChild_eq_ok hF hset
  have hiG : (t.forest.below p)[i]? = some y := by
    rw [hG.children, List.getElem?_set_self (List.getElem?_eq_some_iff.mp hi).1]
  -- no other path leads to the parent of the place
  have helsewhere : ∀ q', ¬ q ++ [i] <+: q' →
      t.forest.follow root q' = s.forest.follow root q' := by
    intro q' hnot
    apply hG.follow_eq hF hroot
    intro q'' hq'' hpre
    rw [hF.follow_inj hroot hq'' hq] at hpre
    exact hnot hpre
  have hfollow : t.forest.follow root q = .ok p := by
    rw [helsewhere q, hq]
    intro hpre
    have hlength := hpre.length_le
    rw [List.length_append, List.length_singleton] at hlength
    omega
  have hpresent : t.forest.follow root (q ++ [i]) = .ok y := by
    rw [Forest.follow_append_of_ok hfollow, Forest.follow_singleton hiG]
  refine ⟨y, ?_, hG.wellFormed, hpresent, hstands, ?_, helsewhere,
    hG.released_of_set hF hi hy, ?_⟩
  · rw [Forest.follow_append_of_ok hq, Forest.follow_singleton hi]
  · exact Forest.follow_append_of_ok hpresent
  · obtain ⟨u, hback, hu⟩ := setChild_back hF hG hi hy
    exact ⟨u, setAtPath_of_setChild hfollow hback, hu⟩

end EditM

/-- Whatever comes to stand where a path leads, with labels as with plain contents. -/
theorem grafts_at_path :
    (∀ (s t : Session Label) (root new old : Handle) (path : List Nat), s.forest.WellFormed →
      s.forest.contains root = true → EditM.setAtPath root new path s = .ok (some old) t →
        ∃ y, EditM.Grafts s t root new path old y) ∧
    ∀ (s t : Session Plain) (root new old : Handle) (path : List Nat), s.forest.WellFormed →
      s.forest.contains root = true → EditM.setAtPath root new path s = .ok (some old) t →
        ∃ y, EditM.Grafts s t root new path old y :=
  ⟨fun _ _ _ _ _ _ hF hroot hrun => EditM.setAtPath_grafts hF hroot hrun,
    fun _ _ _ _ _ _ hF hroot hrun => EditM.setAtPath_grafts hF hroot hrun⟩

def Session.pergola : Session Label := (Session.fresh Label {}).after
  [.create ⟨.block, "a"⟩, .create ⟨.block, "b"⟩, .create ⟨.leaf, "c"⟩, .create ⟨.leaf, "d"⟩,
    .create ⟨.leaf, "e"⟩, .addChildren ⟨1, 0⟩ [⟨2, 0⟩, ⟨3, 0⟩],
    .addChildren ⟨0, 0⟩ [⟨1, 0⟩, ⟨4, 0⟩]]

/-- A copy of the second block comes to stand below that block itself, and can be taken back. -/
theorem grafts_at_path_pergola :
    Session.pergola.forest.WellFormed ∧ Session.pergola.forest.contains ⟨0, 0⟩ = true ∧
      ∃ t y, EditM.setAtPath ⟨0, 0⟩ ⟨1, 0⟩ [0, 1] Session.pergola = .ok (some ⟨3, 0⟩) t ∧
        EditM.Grafts Session.pergola t ⟨0, 0⟩ ⟨1, 0⟩ [0, 1] ⟨3, 0⟩ y := by
  have hF : Session.pergola.forest.WellFormed :=
    Session.wellFormed_after (Forest.wellFormed_empty {}) _
  have hrun : ∃ t, EditM.setAtPath ⟨0, 0⟩ ⟨1, 0⟩ [0, 1] Session.pergola = .ok (some ⟨3, 0⟩) t :=
    ⟨_, rfl⟩
  obtain ⟨t, hrun⟩ := hrun
  obtain ⟨y, hgrafts⟩ := grafts_at_path.1 _ t _ _ _ _ hF rfl hrun
  exact ⟨hF, rfl, t, y, hrun, hgrafts⟩

end Grove
