import Grove.Forest.Rank
import Grove.Proofs.Forest.Descent

/-!
# Rankings

The rank of a node goes from scope to scope: from the node to the nearest passing node above it, from
that one to the next, and so on. `Ranked` says the same without a bound on the steps. The nodes that are
counted in a scope are those for which the scope is the nearest one, because a node that passes hides
only nodes that it is nearer to.
-/

namespace Grove
set_option autoImplicit false

namespace Forest
variable {C : Type} {F : Forest C} {P : Predicate C} {a h k p x : Handle} {b st : Stand}
  {l ps : List Handle}

/-- The nodes above a node that pass a test, the nearest one first. -/
def passing (F : Forest C) (P : Predicate C) (h : Handle) : List Handle :=
  (F.lineage (F.above? h)).filter (P F)

theorem firstMatch_of_contains (hl : ∀ k ∈ l, F.contains k = true) :
    F.firstMatch P l = .ok (l.filter (P F)).head? := by
  induction l with
  | nil => rfl
  | cons k l ih =>
    obtain ⟨n, hn⟩ := contains_iff.mp (hl k List.mem_cons_self)
    have htail := ih fun k' hk' => hl k' (List.mem_cons_of_mem k hk')
    rw [firstMatch, node_of_get? hn, List.filter_cons]
    cases hP : P F k with
    | false => exact htail
    | true => rfl

namespace WellFormed

theorem passing_of_over (hF : F.WellFormed) (hp : F.above? h = some p) :
    F.passing P h = if P F p then p :: F.passing P p else F.passing P p := by
  rw [passing, hp, hF.lineage_eq_cons (hF.contains_of_above? hp), List.filter_cons]
  rfl

/-- Above the nearest passing node are the other ones. -/
theorem passing_eq_of_cons (hF : F.WellFormed) (hl : F.passing P h = a :: l) :
    F.passing P a = l := by
  induction hline : F.lineage (F.above? h) generalizing h with
  | nil =>
    rw [passing, hline] at hl
    exact nomatch hl
  | cons p rest ih =>
    cases hp : F.above? h with
    | none => simp [hp, lineage] at hline
    | some q =>
      rw [hp, hF.lineage_eq_cons (hF.contains_of_above? hp)] at hline
      obtain ⟨rfl, hrest⟩ := List.cons.inj hline
      rw [hF.passing_of_over hp] at hl
      split at hl
      · obtain ⟨rfl, rfl⟩ := List.cons.inj hl
        rfl
      · exact ih hl hrest

theorem mem_passing_iff (hF : F.WellFormed) :
    a ∈ F.passing P h ↔ F.Above a h ∧ P F a = true := by
  rw [passing, List.mem_filter, hF.mem_lineage_above?_iff]

theorem nodup_passing (hF : F.WellFormed) : (F.passing P h).Nodup :=
  ((pairwise_ascend F _ _).imp fun hab => (hF.ne_of_above hab).symm).filter _

theorem passing_eq_nil_iff (hF : F.WellFormed) :
    F.passing P h = [] ↔ ∀ a, F.Above a h → P F a = false := by
  simp [List.eq_nil_iff_forall_not_mem, hF.mem_passing_iff]

theorem exists_above_iff (hF : F.WellFormed) :
    (∃ a, F.Above a h ∧ P F a = true) ↔ F.passing P h ≠ [] := by
  simp only [← hF.mem_passing_iff]
  exact ⟨fun ⟨_, ha⟩ => List.ne_nil_of_mem ha, List.exists_mem_of_ne_nil _⟩

theorem exposed_of_not (hF : F.WellFormed)
    (hnot : ¬ (P F h = false ∧ ∃ a, F.Above a h ∧ P F a = true)) :
    P F h = true ∨ F.passing P h = [] := by
  rw [hF.exists_above_iff] at hnot
  cases hP : P F h with
  | true => exact Or.inl rfl
  | false => exact Or.inr (by_contra fun hne => hnot ⟨hP, hne⟩)

theorem length_passing_le (hF : F.WellFormed) (hh : F.contains h = true) :
    (F.passing P h).length ≤ F.size := by
  have hlen := hF.length_lineage_le hh
  rw [hF.lineage_eq_cons hh, List.length_cons] at hlen
  have hle : (F.passing P h).length ≤ _ := List.length_filter_le (P F) (F.lineage (F.above? h))
  omega

theorem ancestor?_eq (hF : F.WellFormed) (hh : F.contains h = true) :
    F.ancestor? h P = .ok (F.passing P h).head? := by
  have hline : ∀ a ∈ F.lineage (F.above? h), F.contains a = true := fun a ha =>
    hF.contains_of_covers (hF.mem_lineage_above?_iff.mp ha).to_reflTransGen hh
  have hrooted : F.ensureRooted (F.lineage (F.above? h)) = .ok () := by
    cases hp : F.above? h with
    | none => simp [lineage, ensureRooted, isCutOff, pure, Except.pure]
    | some p => exact hF.ensureRooted_lineage (hF.contains_of_above? hp)
  simp only [ancestor?, ascendants_of_contains hh, bind, Except.bind, firstMatch_of_contains hline,
    hrooted, passing]
  cases ((F.lineage (F.above? h)).filter (P F)).head? <;> rfl

/-! ## What is counted in a scope -/

theorem nodup_handles_of_below (hF : F.WellFormed) (hb : F.Bears b) (htops : b.tops = F.below h) :
    b.handles.Nodup :=
  hF.nodup_handles hb (q := some h) (fun _ hd => hF.above?_eq_some_iff.mpr (htops ▸ hd))
    (htops ▸ hF.nodup_below h)

theorem passing_of_top (hF : F.WellFormed) (hbelow : F.below h = b.tops) (hx : x ∈ b.tops) :
    F.passing P x = if P F h then h :: F.passing P h else F.passing P h :=
  hF.passing_of_over (hF.above?_eq_some_iff.mpr (hbelow ▸ hx))

/-- What is above the tops of a stand is above all its nodes. -/
theorem suffix_passing (hF : F.WellFormed) (hst : F.Bears st)
    (htops : ∀ t ∈ st.tops, F.passing P t = ps) (hx : x ∈ st.handles) :
    ps <:+ F.passing P x := by
  induction st generalizing ps with
  | bare => simp [Stand.handles] at hx
  | tree h b r ihb ihr =>
    obtain ⟨-, hbelow, hb, hr⟩ := hst
    have hh := htops h List.mem_cons_self
    rcases List.mem_cons.mp hx with rfl | hx
    · exact hh ▸ List.suffix_rfl
    · rcases List.mem_append.mp hx with hx | hx
      · have hdown := ihb hb (fun t ht => hF.passing_of_top hbelow ht) hx
        rw [hh] at hdown
        split at hdown
        · exact (List.suffix_cons h ps).trans hdown
        · exact hdown
      · exact ihr hr (fun t ht => htops t (List.mem_cons_of_mem h ht)) hx

/-- The pruned walk finds the passing nodes that no other node of the stand is nearer to. -/
theorem mem_found_iff (hF : F.WellFormed) (hst : F.Bears st)
    (htops : ∀ t ∈ st.tops, F.passing P t = ps) :
    x ∈ F.found P true st ↔ x ∈ st.handles ∧ P F x = true ∧ F.passing P x = ps := by
  induction st generalizing ps with
  | bare => simp [found, Stand.handles]
  | tree h b r ihb ihr =>
    obtain ⟨-, hbelow, hb, hr⟩ := hst
    have hh := htops h List.mem_cons_self
    have hbeside := ihr hr fun t ht => htops t (List.mem_cons_of_mem h ht)
    have hdown : ∀ t ∈ b.tops, F.passing P t = if P F h then h :: ps else ps := by
      intro t ht
      rw [hF.passing_of_top hbelow ht, hh]
    simp only [found, Stand.handles, List.mem_append, List.mem_cons, hbeside, if_true]
    by_cases hP : P F h = true
    · -- below a passing node every node has one more above it
      have hnone : x ∈ b.handles → F.passing P x ≠ ps := by
        intro hx he
        have hsuf := (hF.suffix_passing hb hdown hx).length_le
        rw [if_pos hP, he, List.length_cons] at hsuf
        omega
      rw [if_pos hP, List.mem_singleton]
      constructor
      · rintro (rfl | ⟨hx, hrest⟩)
        · exact ⟨Or.inl rfl, hP, hh⟩
        · exact ⟨Or.inr (Or.inr hx), hrest⟩
      · rintro ⟨rfl | hx | hx, hpass, he⟩
        · exact Or.inl rfl
        · exact absurd he (hnone hx)
        · exact Or.inr ⟨hx, hpass, he⟩
    · rw [if_neg hP, ihb hb fun t ht => (hdown t ht).trans (if_neg hP)]
      constructor
      · rintro (⟨hx, hrest⟩ | ⟨hx, hrest⟩)
        · exact ⟨Or.inr (Or.inl hx), hrest⟩
        · exact ⟨Or.inr (Or.inr hx), hrest⟩
      · rintro ⟨rfl | hx | hx, hpass, he⟩
        · exact absurd hpass hP
        · exact Or.inl ⟨hx, hpass, he⟩
        · exact Or.inr ⟨hx, hpass, he⟩

end WellFormed

theorem matchingDescendants_of_bears (prune : Bool) (ha : F.contains a = true) (hb : F.Bears b)
    (htops : b.tops = F.below a) (hnd : b.handles.Nodup) :
    F.matchingDescendants a P prune = .ok (F.found P prune b) := by
  have hwalk := matchesFrom_bears P prune hb (hb.length_le_capacity hnd)
  simp only [matchingDescendants, children_of_contains ha, ← htops]
  exact congrArg Except.ok hwalk

/-! ## Ranks without a bound -/

/-- The rank of a node, scope by scope. -/
inductive Ranked (F : Forest C) (P : Predicate C) : Handle → List Nat → Prop where
  | outermost {h : Handle} : F.passing P h = [] → Ranked F P h []
  | within {h a : Handle} {b : Stand} {i : Nat} {above : List Nat} :
    (F.passing P h).head? = some a → F.Bears b → b.tops = F.below a →
    (F.found P true b)[i]? = some h → Ranked F P a above → Ranked F P h ((i + 1) :: above)

theorem WellFormed.passing_eq_of_head? (hF : F.WellFormed)
    (ha : (F.passing P h).head? = some a) : F.passing P h = a :: F.passing P a := by
  obtain ⟨l, hl⟩ := List.head?_eq_some_iff.mp ha
  rw [hl, hF.passing_eq_of_cons hl]

theorem Ranked.length_eq {rank : List Nat} (hr : F.Ranked P h rank) (hF : F.WellFormed) :
    rank.length = (F.passing P h).length := by
  induction hr with
  | outermost hnil => rw [hnil, List.length_nil, List.length_nil]
  | within ha _ _ _ _ ih => rw [hF.passing_eq_of_head? ha, List.length_cons, List.length_cons, ih]

namespace WellFormed

theorem contains_scope (hF : F.WellFormed) (hh : F.contains h = true)
    (ha : (F.passing P h).head? = some a) : F.contains a = true ∧ P F a = true := by
  have hmem := hF.mem_passing_iff.mp (List.mem_of_mem_head? ha)
  exact ⟨hF.contains_of_covers hmem.1.to_reflTransGen hh, hmem.2⟩

/-- The nodes below the nearest passing node of a node, and what is counted among them. -/
theorem exists_scope (hF : F.WellFormed) (hh : F.contains h = true)
    (ha : (F.passing P h).head? = some a) :
    ∃ b, F.Bears b ∧ b.tops = F.below a ∧ (h ∈ F.found P true b ↔ P F h = true) := by
  obtain ⟨hain, hPa⟩ := hF.contains_scope hh ha
  obtain ⟨b, hb, htops⟩ := hF.exists_bears hain
  refine ⟨b, hb, htops, ?_⟩
  have hpass : ∀ t ∈ b.tops, F.passing P t = a :: F.passing P a := by
    intro t ht
    rw [hF.passing_of_top htops.symm ht, if_pos hPa]
  have habove : F.Above a h := (hF.mem_passing_iff.mp (List.mem_of_mem_head? ha)).1
  have hmem : h ∈ b.handles :=
    (hF.mem_below_iff (r := .bare) ⟨hain, htops.symm, hb, trivial⟩).mpr habove
  rw [hF.mem_found_iff hb hpass, hF.passing_eq_of_head? ha]
  simp [hmem]

theorem exists_ranked (hF : F.WellFormed) (hh : F.contains h = true)
    (hpass : P F h = true ∨ F.passing P h = []) : ∃ rank, F.Ranked P h rank := by
  induction hl : F.passing P h generalizing h with
  | nil => exact ⟨[], .outermost hl⟩
  | cons a rest ih =>
    have ha : (F.passing P h).head? = some a := by rw [hl]; rfl
    have hPh : P F h = true := hpass.resolve_right (by simp [hl])
    obtain ⟨hain, hPa⟩ := hF.contains_scope hh ha
    obtain ⟨b, hb, htops, hfound⟩ := hF.exists_scope hh ha
    obtain ⟨above, habove⟩ := ih hain (Or.inl hPa) (hF.passing_eq_of_cons hl)
    obtain ⟨i, hi⟩ := List.getElem?_of_mem (hfound.mpr hPh)
    exact ⟨(i + 1) :: above, .within ha hb htops hi habove⟩

end WellFormed

section
variable [Content C] {n : Nat}

theorem rankFrom_of_outermost (hF : F.WellFormed) (hh : F.contains h = true)
    (hnil : F.passing P h = []) : F.rankFrom P (n + 1) h = .ok [] := by
  rw [rankFrom, hF.ancestor?_eq hh, hnil]
  rfl

/-- One step of the way from scope to scope. -/
theorem rankFrom_of_scope (hF : F.WellFormed) (hh : F.contains h = true)
    (ha : (F.passing P h).head? = some a) (hb : F.Bears b) (htops : b.tops = F.below a) :
    F.rankFrom P (n + 1) h =
      match (F.found P true b).findIdx? (· == h) with
      | none => .error (.notFound (.withinScope (F.describe h) (F.describe a)))
      | some i => (F.rankFrom P n a).map ((i + 1) :: ·) := by
  have hain := (hF.contains_scope hh ha).1
  have hnd := hF.nodup_handles_of_below hb htops
  rw [rankFrom, hF.ancestor?_eq hh, ha]
  simp only [bind, Except.bind, matchingDescendants_of_bears true hain hb htops hnd]
  cases (F.found P true b).findIdx? (· == h) with
  | none => rfl
  | some i =>
    simp only
    cases F.rankFrom P n a <;> rfl

theorem findIdx?_of_getElem? {i : Nat} (hnd : l.Nodup) (hi : l[i]? = some h) :
    l.findIdx? (· == h) = some i := by
  obtain ⟨hlt, rfl⟩ := List.getElem?_eq_some_iff.mp hi
  refine List.findIdx?_eq_some_iff_getElem.mpr ⟨hlt, by simp, fun j hj => ?_⟩
  have hne : j ≠ i := Nat.ne_of_lt hj
  simpa [hnd.getElem_inj_iff] using hne

theorem Ranked.rankFrom_eq {rank : List Nat} (hr : F.Ranked P h rank) (hF : F.WellFormed)
    (hh : F.contains h = true) (hn : rank.length < n) : F.rankFrom P n h = .ok rank := by
  induction hr generalizing n with
  | outermost hnil =>
    obtain ⟨n, rfl⟩ := Nat.exists_eq_succ_of_ne_zero (Nat.ne_zero_of_lt hn)
    exact rankFrom_of_outermost hF hh hnil
  | @within h a b i above ha hb htops hi _ ih =>
    obtain ⟨n, rfl⟩ := Nat.exists_eq_succ_of_ne_zero (Nat.ne_zero_of_lt hn)
    rw [List.length_cons] at hn
    have hnd := (hF.nodup_handles_of_below hb htops).sublist (F.found_sublist P true b)
    rw [rankFrom_of_scope hF hh ha hb htops, findIdx?_of_getElem? hnd hi]
    simp only [ih (hF.contains_scope hh ha).1 (Nat.lt_of_succ_lt_succ hn)]
    rfl

theorem Ranked.rank_eq {rank : List Nat} (hr : F.Ranked P h rank) (hF : F.WellFormed)
    (hh : F.contains h = true) : F.rank h P = .ok rank := by
  refine hr.rankFrom_eq hF hh ?_
  have hle := hF.length_passing_le (P := P) hh
  rw [hr.length_eq hF]
  omega

/-- A node that does not pass has no rank below one that does. -/
theorem WellFormed.rank_of_hidden (hF : F.WellFormed) (hh : F.contains h = true) (hP : P F h = false)
    (ha : (F.passing P h).head? = some a) :
    F.rank h P = .error (.notFound (.withinScope (F.describe h) (F.describe a))) := by
  obtain ⟨b, hb, htops, hfound⟩ := hF.exists_scope hh ha
  have hnone : (F.found P true b).findIdx? (· == h) = none := by
    refine List.findIdx?_eq_none_iff.mpr fun x hx => ?_
    refine beq_eq_false_iff_ne.mpr fun he => ?_
    rw [he, hfound, hP] at hx
    exact nomatch hx
  rw [rank, rankFrom_of_scope hF hh ha hb htops, hnone]

end
end Forest
end Grove
