import Grove.Proofs.Edit.Link

/-!
# Removals

Removing several children one after the other sheds them: each of them becomes a root, and the others
keep their order. Within the bounds of the children list this cannot fail.
-/

namespace Grove
set_option autoImplicit false

namespace Forest
variable {C : Type} {F G : Forest C} {a b c h k p x : Handle} {i n : Nat} {cs l : List Handle}

/-- `G` is `F` with the listed nodes taken out of the children of their parents. -/
structure Shed (F G : Forest C) (cs : List Handle) : Prop where
  above?_eq : ∀ k, G.above? k = if k ∈ cs then none else F.above? k
  below_eq : ∀ k, G.below k = (F.below k).filter fun c => c ∉ cs
  contentOf?_eq : ∀ k, G.contentOf? k = F.contentOf? k
  settings : G.settings = F.settings

theorem Shed.refl (F : Forest C) : F.Shed F [] :=
  ⟨fun _ => by simp, fun _ => by simp, fun _ => rfl, rfl⟩

theorem Shed.contains_eq (hG : F.Shed G cs) (k : Handle) : G.contains k = F.contains k :=
  contains_eq_of_contentOf?_eq (hG.contentOf?_eq k)

theorem Shed.congr {E : Forest C} (hG : F.Shed G cs) (hE : E.SameNodes G) : F.Shed E cs where
  above?_eq k := (hE.above?_eq k).trans (hG.above?_eq k)
  below_eq k := (hE.below_eq k).trans (hG.below_eq k)
  contentOf?_eq k := by rw [contentOf?, hE.get? k, ← contentOf?, hG.contentOf?_eq]
  settings := hE.settings.trans hG.settings

/-- What is left after the same nodes were shed is the same. -/
theorem Shed.sameNodes {E : Forest C} (hG : F.Shed G cs) (hE : F.Shed E cs) : G.SameNodes E where
  get? k := by
    rw [get?_eq_get?_iff, hG.contentOf?_eq, hE.contentOf?_eq, hG.above?_eq, hE.above?_eq,
      hG.below_eq, hE.below_eq]
    exact ⟨rfl, rfl, rfl⟩
  settings := hG.settings.trans hE.settings.symm

/-- The order in which nodes are shed makes no difference. -/
theorem Shed.of_mem_iff (hG : F.Shed G cs) (hl : ∀ k, k ∈ l ↔ k ∈ cs) : F.Shed G l where
  above?_eq k := by
    rw [hG.above?_eq]
    simp only [hl]
  below_eq k := by
    rw [hG.below_eq]
    simp only [hl]
  contentOf?_eq := hG.contentOf?_eq
  settings := hG.settings

/-- What a shed forest has of a link, the forest had before. -/
theorem Shed.over (hG : F.Shed G cs) (ho : G.Over p h) : F.Over p h := by
  rw [Over, hG.above?_eq] at ho
  split at ho
  · exact absurd ho (by simp)
  · exact ho

theorem Shed.covers (hG : F.Shed G cs) (hc : G.Covers a b) : F.Covers a b :=
  Relation.ReflTransGen.mono (fun _ _ => hG.over) _ _ hc

theorem Shed.wellFormed (hG : F.Shed G cs) (hF : F.WellFormed) : G.WellFormed := by
  refine wellFormed_iff_links.mpr ⟨fun q h => ?_, fun q => ?_, fun h hh => ?_⟩
  · rw [hG.above?_eq, hG.below_eq, List.mem_filter, ← hF.above?_eq_some_iff]
    by_cases hh : h ∈ cs <;> simp [hh]
  · rw [hG.below_eq]
    exact (hF.nodup_below q).filter _
  · exact hF.acyclic h (Relation.TransGen.mono (fun _ _ => hG.over) _ _ hh)

/-- Shedding children of one node leaves the lists of the others. -/
theorem Shed.below_of_ne (hG : F.Shed G cs) (hF : F.WellFormed) (hcs : ∀ c ∈ cs, c ∈ F.below p)
    (hk : k ≠ p) : G.below k = F.below k := by
  rw [hG.below_eq]
  refine List.filter_eq_self.mpr fun c hc => decide_eq_true fun hm => hk ?_
  have hp := hF.above?_eq_some_iff.mpr (hcs c hm)
  exact Option.some.inj ((hF.above?_eq_some_iff.mpr hc).symm.trans hp)

theorem Shed.trans {E : Forest C} (hG : F.Shed G cs) (hE : G.Shed E l) : F.Shed E (cs ++ l) where
  above?_eq k := by
    rw [hE.above?_eq, hG.above?_eq]
    by_cases hl : k ∈ l <;> simp [hl]
  below_eq k := by
    rw [hE.below_eq, hG.below_eq, List.filter_filter]
    refine List.filter_congr fun d _ => ?_
    by_cases hd : d ∈ l <;> simp [hd]
  contentOf?_eq k := by rw [hE.contentOf?_eq, hG.contentOf?_eq]
  settings := hE.settings.trans hG.settings

theorem erase_eq_filter_not_mem (hl : l.Nodup) (c : Handle) :
    l.erase c = l.filter fun d => d ∉ [c] := by
  rw [hl.erase_eq_filter]
  refine List.filter_congr fun d _ => ?_
  by_cases hd : d = c <;> simp [hd]

theorem WellFormed.shed_cut (hF : F.WellFormed) (c : Handle) : F.Shed (F.cut c) [c] where
  above?_eq k := by
    rw [above?_cut]
    simp
  below_eq k := by rw [hF.below_cut, erase_eq_filter_not_mem (hF.nodup_below k)]
  contentOf?_eq := contentOf?_cut F c
  settings := settings_cut F c

theorem mem_of_mem_slice (hk : k ∈ (l.drop i).take n) : k ∈ l :=
  List.mem_of_mem_drop (List.mem_of_mem_take hk)

/-- Shedding a slice of a list leaves what is on both sides of it. -/
theorem filter_not_mem_slice (hl : l.Nodup) (i n : Nat) :
    (l.filter fun c => c ∉ (l.drop i).take n) = l.take i ++ l.drop (i + n) := by
  have hsplit : l = l.take i ++ ((l.drop i).take n ++ l.drop (i + n)) := by
    rw [← List.drop_drop, List.take_append_drop, List.take_append_drop]
  have hnd := hl
  rw [hsplit, List.nodup_append, List.nodup_append] at hnd
  obtain ⟨-, ⟨-, -, hright⟩, hleft⟩ := hnd
  have hfilter : ∀ P : Handle → Bool, l.filter P = (l.take i).filter P ++
      (((l.drop i).take n).filter P ++ (l.drop (i + n)).filter P) := by
    intro P
    rw [← List.filter_append, ← List.filter_append, ← hsplit]
  have htake : (l.take i).filter (fun c => c ∉ (l.drop i).take n) = l.take i :=
    List.filter_eq_self.mpr fun c hc => decide_eq_true fun hm =>
      hleft c hc c (List.mem_append_left _ hm) rfl
  have hslice : ((l.drop i).take n).filter (fun c => c ∉ (l.drop i).take n) = [] :=
    List.filter_eq_nil_iff.mpr fun c hc => by simpa using hc
  have hdrop : (l.drop (i + n)).filter (fun c => c ∉ (l.drop i).take n) = l.drop (i + n) :=
    List.filter_eq_self.mpr fun c hc => decide_eq_true fun hm => hright c hm c hc rfl
  rw [hfilter, htake, hslice, hdrop, List.nil_append]

end Forest

namespace EditM
variable {C : Type} [Content C] {s : Session C} {c h k p x : Handle} {i n : Nat}

theorem removeSlice_run (hF : s.forest.WellFormed)
    (hle : i + n ≤ (s.forest.below p).length) :
    ∃ G, removeSlice p i n s =
        .ok (((s.forest.below p).drop i).take n) (s.withForest G) ∧
      s.forest.Shed G (((s.forest.below p).drop i).take n) := by
  induction n generalizing s with
  | zero => exact ⟨s.forest, rfl, by simpa using Forest.Shed.refl s.forest⟩
  | succ n ih =>
    obtain ⟨c, hc⟩ : ∃ c, (s.forest.below p)[i + n]? = some c :=
      ⟨_, List.getElem?_eq_getElem (by omega)⟩
    have hremove := removeChild_of_getElem? hF hc
    have hbelow : (s.forest.cut c).below p =
        (s.forest.below p).take (i + n) ++ (s.forest.below p).drop (i + n + 1) := by
      rw [hF.below_cut, ← Forest.eraseIdx_eq_erase (hF.nodup_below p) hc,
        List.eraseIdx_eq_take_drop_succ]
    have hlen : ((s.forest.below p).take (i + n)).length = i + n := by
      rw [List.length_take]
      omega
    have hslice : (((s.forest.cut c).below p).drop i).take n =
        ((s.forest.below p).drop i).take n := by
      rw [hbelow, List.take_drop, List.take_left' hlen, ← List.take_drop]
    obtain ⟨G, hrun, hG⟩ := ih (s := s.withForest (s.forest.cut c)) (hF.cut c) (by
      rw [Session.forest_withForest, hbelow, List.length_append, hlen]
      omega)
    rw [Session.forest_withForest, hslice] at hrun hG
    have hlast : ((s.forest.below p).drop i).take (n + 1) =
        ((s.forest.below p).drop i).take n ++ [c] := by
      rw [List.take_add_one, List.getElem?_drop, hc]
      rfl
    refine ⟨G, ?_, ?_⟩
    · simp only [removeSlice, bind_of_ok _ hremove, bind_of_ok _ hrun, hlast]
      rfl
    · refine ((hF.shed_cut c).trans hG).of_mem_iff fun k => ?_
      simp [hlast, or_comm]

theorem removeFirst_run (hF : s.forest.WellFormed) (hle : n ≤ (s.forest.below p).length) :
    ∃ G, removeFirst p n s = .ok ((s.forest.below p).take n) (s.withForest G) ∧
      s.forest.Shed G ((s.forest.below p).take n) := by
  induction n generalizing s with
  | zero => exact ⟨s.forest, rfl, by simpa using Forest.Shed.refl s.forest⟩
  | succ n ih =>
    obtain ⟨c, cs, hcs⟩ : ∃ c cs, s.forest.below p = c :: cs :=
      List.exists_cons_of_length_pos (by omega)
    have hremove := removeChild_of_getElem? (p := p) (i := 0) (c := c) hF (by rw [hcs]; rfl)
    have hbelow : (s.forest.cut c).below p = cs := by
      rw [hF.below_cut, hcs, List.erase_cons_head]
    obtain ⟨G, hrun, hG⟩ := ih (s := s.withForest (s.forest.cut c)) (hF.cut c) (by
      rw [Session.forest_withForest, hbelow]
      rw [hcs, List.length_cons] at hle
      omega)
    rw [Session.forest_withForest, hbelow] at hrun hG
    rw [hcs, List.take_succ_cons]
    refine ⟨G, ?_, (hF.shed_cut c).trans hG⟩
    simp only [removeFirst, bind_of_ok _ hremove, bind_of_ok _ hrun]
    rfl

theorem removeChildren_run (hF : s.forest.WellFormed) (hp : s.forest.contains p = true) :
    ∃ G, removeChildren p s = .ok (s.forest.below p) (s.withForest G) ∧
      s.forest.Shed G (s.forest.below p) := by
  have hrun := removeFirst_run (p := p) hF (Nat.le_refl (s.forest.below p).length)
  rw [List.take_length] at hrun
  simpa only [removeChildren, bind_of_ok _ (query_numChildren hp)] using hrun

end EditM
end Grove
