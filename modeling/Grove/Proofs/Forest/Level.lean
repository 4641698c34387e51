import Grove.Proofs.Forest.Walk

/-!
# Levels

How far a node is from one above it, counted in parent steps, and what `depth` and `height` tell of
it. The walk up gives the depth, the walk down with a level beside each pending handle gives the
height; the number of levels of a stand is where the two meet.
-/

namespace Grove
set_option autoImplicit false

namespace Stand

/-- The number of nodes on the longest way down. -/
def levels : Stand → Nat
  | bare => 0
  | tree _ b r => max (b.levels + 1) r.levels

end Stand

namespace Forest
variable {C : Type} {F : Forest C} {a d h p : Handle} {b r st : Stand} {k m n : Nat}

/-- The handle that a number of parent steps leads to. -/
def climb (F : Forest C) : Nat → Handle → Option Handle
  | 0, h => some h
  | n + 1, h => (F.above? h).bind (F.climb n)

theorem climb_succ_of_above? (hp : F.above? h = some p) (n : Nat) :
    F.climb (n + 1) h = F.climb n p := by
  rw [climb, hp, Option.bind_some]

theorem climb_succ (F : Forest C) (n : Nat) (h : Handle) :
    F.climb (n + 1) h = (F.climb n h).bind F.above? := by
  induction n generalizing h with
  | zero =>
    cases hp : F.above? h with
    | none => simp [climb, hp]
    | some p => simp [climb, hp]
  | succ n ih =>
    cases hp : F.above? h with
    | none => rw [climb, climb, hp, Option.bind_none, Option.bind_none, Option.bind_none]
    | some p => rw [climb_succ_of_above? hp, climb_succ_of_above? hp, ih]

/-! ## The way up -/

theorem ascend_succ_of_length_lt {start : Option Handle} (hlen : (F.ascend n start).length < n) :
    F.ascend (n + 1) start = F.ascend n start := by
  induction n generalizing start with
  | zero => exact absurd hlen (Nat.not_lt_zero _)
  | succ n ih =>
    cases start with
    | none => rfl
    | some h =>
      rw [ascend_succ_some] at hlen ⊢
      rw [ascend_succ_some, ih (Nat.lt_of_succ_lt_succ hlen)]

theorem ascendants_of_contains (hh : F.contains h = true) :
    F.ascendants h = .ok (F.lineage (F.above? h)) := by
  simp only [ascendants, parent_of_contains hh]
  rfl

theorem ascendantsAndSelf_of_contains (hh : F.contains h = true) :
    F.ascendantsAndSelf h = .ok (F.lineage (some h)) := by
  obtain ⟨n, hn⟩ := contains_iff.mp hh
  simp only [ascendantsAndSelf, node_of_get? hn]
  rfl

theorem mem_roots_iff : h ∈ F.roots ↔ F.contains h = true ∧ F.above? h = none := by
  simp only [roots, List.mem_map, List.mem_filter, Prod.exists, Store.mem_entries_iff]
  constructor
  · rintro ⟨k, n, ⟨hn, hroot⟩, rfl⟩
    refine ⟨contains_iff.mpr ⟨n, hn⟩, ?_⟩
    rw [above?_of_get? hn]
    exact Option.isNone_iff_eq_none.mp hroot
  · rintro ⟨hh, hroot⟩
    obtain ⟨n, hn⟩ := contains_iff.mp hh
    refine ⟨h, n, ⟨hn, ?_⟩, rfl⟩
    rw [Option.isNone_iff_eq_none, ← above?_of_get? hn]
    exact hroot

namespace WellFormed

theorem lineage_eq_cons (hF : F.WellFormed) (hh : F.contains h = true) :
    F.lineage (some h) = h :: F.lineage (F.above? h) := by
  have hlen := hF.length_lineage_le hh
  rw [lineage, ascend_succ_some, List.length_cons] at hlen
  have hshort : F.ascend (F.size + 2) (F.above? h) = F.ascend (F.size + 1) (F.above? h) :=
    ascend_succ_of_length_lt (by omega)
  rw [lineage, ascend_succ_some, lineage, hshort]

theorem isCutOff_lineage (hF : F.WellFormed) (hh : F.contains h = true) :
    F.isCutOff (F.lineage (F.above? h)) = false := by
  have hlen := hF.length_lineage_le hh
  rw [hF.lineage_eq_cons hh, List.length_cons] at hlen
  rw [isCutOff, beq_eq_false_iff_ne]
  omega

theorem mem_lineage_above?_iff (hF : F.WellFormed) :
    a ∈ F.lineage (F.above? h) ↔ F.Above a h := by
  cases hp : F.above? h with
  | none =>
    have hnot : ¬ F.Above a h := by
      intro ha
      obtain ⟨q, -, hq⟩ := Relation.TransGen.tail'_iff.mp ha
      exact absurd (hq.symm.trans hp) (by simp)
    simp [lineage, hnot]
  | some p =>
    rw [hF.mem_lineage_iff (hF.contains_of_above? hp), Above, Relation.TransGen.tail'_iff]
    simp only [Over, hp, Option.some.injEq]
    constructor
    · intro ha
      exact ⟨p, ha, rfl⟩
    · rintro ⟨q, ha, rfl⟩
      exact ha

theorem depth_eq (hF : F.WellFormed) (hh : F.contains h = true) :
    F.depth h = .ok (F.lineage (F.above? h)).length := by
  simp only [depth, ascendants_of_contains hh]
  exact if_neg (by rw [hF.isCutOff_lineage hh]; exact Bool.false_ne_true)

theorem depth_of_over (hF : F.WellFormed) (hp : F.Over p h) (hk : F.depth p = .ok k) :
    F.depth h = .ok (k + 1) := by
  have hpin := hF.contains_of_above? hp
  rw [hF.depth_eq hpin] at hk
  rw [hF.depth_eq (Forest.contains_of_above? hp), hp, hF.lineage_eq_cons hpin, List.length_cons,
    Except.ok.inj hk]

theorem depth_of_climb (hF : F.WellFormed) (hn : F.climb n d = some a) (hk : F.depth a = .ok k) :
    F.depth d = .ok (k + n) := by
  induction n generalizing d with
  | zero =>
    cases hn
    exact hk
  | succ n ih =>
    obtain ⟨p, hp, hpa⟩ := Option.bind_eq_some_iff.mp hn
    exact hF.depth_of_over hp (ih hpa)

theorem climb_inj (hF : F.WellFormed) (ha : F.contains a = true) (hm : F.climb m d = some a)
    (hn : F.climb n d = some a) : m = n := by
  have hk := hF.depth_eq ha
  have he := (hF.depth_of_climb hm hk).symm.trans (hF.depth_of_climb hn hk)
  exact Nat.add_left_cancel (Except.ok.inj he)

/-- The uppermost node of a way up is a root, the one that `rootOf` tells. -/
theorem exists_root (hF : F.WellFormed) (hh : F.contains h = true) :
    ∃ top, F.rootOf h = .ok top ∧ (F.lineage (some h)).getLast? = some top ∧
      F.contains top = true ∧ F.above? top = none ∧ F.Covers top h := by
  have hlen := hF.length_lineage_le hh
  obtain ⟨top, htop, hroot⟩ := getLast?_ascend (F := F) (h := h) (n := F.size + 2)
    (by unfold lineage at hlen; omega)
  change (F.lineage (some h)).getLast? = some top at htop
  have hcovers := (hF.mem_lineage_iff hh).mp (List.mem_of_getLast? htop)
  refine ⟨top, ?_, htop, hF.contains_of_covers hcovers hh, hroot, hcovers⟩
  simp only [rootOf, hF.ensureRooted_lineage hh, List.getLastD_eq_getLast?, htop]
  rfl

end WellFormed

/-- Nothing is above a root, so two roots above one node are the same. -/
theorem root_unique (ha : F.above? a = none) (hp : F.above? p = none) (had : F.Covers a d)
    (hpd : F.Covers p d) : a = p := by
  have hsame : ∀ {x y}, F.above? y = none → F.Covers x y → x = y := by
    intro x y hy hxy
    rcases Relation.ReflTransGen.cases_tail hxy with he | ⟨q, -, hq⟩
    · exact he.symm
    · exact absurd (hq.symm.trans hy) (by simp)
  rcases covers_total had hpd with hap | hpa
  · exact hsame hp hap
  · exact (hsame ha hpa).symm

/-! ## The way down -/

/-- A stand that waits on the pending list counts with all its levels. -/
theorem heightFrom_bears (hst : F.Bears st) (n level top : Nat) (pending : List (Handle × Nat))
    (hle : level ≤ top) :
    F.heightFrom (st.handles.length + n) (st.tops.reverse.map (·, level + 1) ++ pending) top =
      F.heightFrom n pending (max top (level + st.levels)) := by
  induction st generalizing n level top pending with
  | bare => simp [Stand.handles, Stand.tops, Stand.levels, Nat.max_eq_left hle]
  | tree h b r ihb ihr =>
    obtain ⟨hh, hbelow, hb, hr⟩ := hst
    have hlen : (Stand.tree h b r).handles.length + n =
        r.handles.length + ((b.handles.length + n) + 1) := by
      simp only [Stand.handles, List.length_cons, List.length_append]
      omega
    have htops : (Stand.tree h b r).tops.reverse.map (·, level + 1) ++ pending =
        r.tops.reverse.map (·, level + 1) ++ ((h, level + 1) :: pending) := by
      simp [Stand.tops]
    -- the trees beside are met first, then the node, and last what stands below it
    rw [hlen, htops, ihr hr _ _ _ _ hle, heightFrom, children_of_contains hh, hbelow]
    change F.heightFrom (b.handles.length + n) (b.tops.reverse.map (·, level + 1 + 1) ++ pending)
      (max (max top (level + r.levels)) (level + 1)) = _
    rw [ihb hb _ _ _ _ (Nat.le_max_right _ _)]
    congr 1
    simp only [Stand.levels]
    omega

theorem Bears.height_eq (hst : F.Bears (.tree h b .bare))
    (hnd : (Stand.tree h b .bare).handles.Nodup) : F.height h = .ok (b.levels + 1) := by
  have hwalk := heightFrom_bears hst (F.nodes.capacity - (Stand.tree h b .bare).handles.length)
    0 0 [] (Nat.le_refl 0)
  rw [Nat.add_sub_cancel' (hst.length_le_capacity hnd)] at hwalk
  have hmax : max 0 (0 + (Stand.tree h b .bare).levels) = b.levels + 1 := by
    simp [Stand.levels]
  rw [hmax] at hwalk
  exact hwalk.trans (by rw [heightFrom]; rfl)

namespace WellFormed

/-- Every handle of a stand is fewer steps below a top than the stand has levels. -/
theorem exists_climb_of_mem_handles (hF : F.WellFormed) (hst : F.Bears st)
    (hd : d ∈ st.handles) : ∃ t ∈ st.tops, ∃ n < st.levels, F.climb n d = some t := by
  induction st with
  | bare => simp [Stand.handles] at hd
  | tree top b r ihb ihr =>
    obtain ⟨-, hbelow, hb, hr⟩ := hst
    rcases List.mem_cons.mp hd with rfl | hd
    · have hpos : 0 < (Stand.tree d b r).levels :=
        Nat.lt_of_lt_of_le (Nat.succ_pos _) (Nat.le_max_left _ _)
      exact ⟨d, List.mem_cons_self, 0, hpos, rfl⟩
    rcases List.mem_append.mp hd with hd | hd
    · obtain ⟨t, ht, n, hn, hclimb⟩ := ihb hb hd
      have hover : F.above? t = some top := hF.above?_eq_some_iff.mpr (hbelow ▸ ht)
      refine ⟨top, List.mem_cons_self, n + 1, ?_, ?_⟩
      · exact Nat.lt_of_lt_of_le (Nat.succ_lt_succ hn) (Nat.le_max_left _ _)
      · rw [climb_succ, hclimb, Option.bind_some, hover]
    · obtain ⟨t, ht, n, hn, hclimb⟩ := ihr hr hd
      exact ⟨t, List.mem_cons_of_mem _ ht, n, Nat.lt_of_lt_of_le hn (Nat.le_max_right _ _), hclimb⟩

theorem exists_climb_of_levels (hF : F.WellFormed) (hst : F.Bears st)
    (hn : st.levels = n + 1) : ∃ t ∈ st.tops, ∃ d ∈ st.handles, F.climb n d = some t := by
  induction st generalizing n with
  | bare => exact absurd hn (Nat.zero_ne_add_one n)
  | tree top b r ihb ihr =>
    obtain ⟨-, hbelow, hb, hr⟩ := hst
    rw [Stand.levels] at hn
    rcases Nat.le_total (b.levels + 1) r.levels with hle | hle
    · rw [Nat.max_eq_right hle] at hn
      obtain ⟨t, ht, d, hd, hclimb⟩ := ihr hr hn
      exact ⟨t, List.mem_cons_of_mem _ ht, d,
        List.mem_cons_of_mem _ (List.mem_append_right _ hd), hclimb⟩
    · rw [Nat.max_eq_left hle] at hn
      cases n with
      | zero => exact ⟨top, List.mem_cons_self, top, List.mem_cons_self, rfl⟩
      | succ n =>
        obtain ⟨t, ht, d, hd, hclimb⟩ := ihb hb (Nat.succ.inj hn)
        have hover : F.above? t = some top := hF.above?_eq_some_iff.mpr (hbelow ▸ ht)
        refine ⟨top, List.mem_cons_self, d,
          List.mem_cons_of_mem _ (List.mem_append_left _ hd), ?_⟩
        rw [climb_succ, hclimb, Option.bind_some, hover]

end WellFormed
end Forest
end Grove
