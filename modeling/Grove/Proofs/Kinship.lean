import Grove.Proofs.Forest.Level
import Grove.Proofs.Integrity

/-!
# Kinship

The views down a forest follow children links from a pending list, the views up follow parent links.
In a well-formed forest they tell the same: who is below whom, to which root a node belongs, how far it
is from a node above it, and that the trees of the roots are all nodes, none of them twice.
-/

namespace Grove
set_option autoImplicit false

namespace Forest
variable {C : Type} {F : Forest C} {a d h : Handle} {st : Stand}

/-- The views down and the views up agree. -/
structure Concordant (F : Forest C) : Prop where
  /-- who is below whom -/
  kin : ∀ a d, F.contains a = true → F.contains d = true →
    ∃ ds up above, F.descendants a = .ok ds ∧ F.ascendants d = .ok up ∧
      F.isAncestor d a = .ok above ∧ (d ∈ ds ↔ above = true) ∧ (above = true ↔ a ∈ up)
  /-- the root of a node is the end of its way up, and no other root has it in its tree -/
  root : ∀ d, F.contains d = true →
    ∃ top up, F.rootOf d = .ok top ∧ F.ascendantsAndSelf d = .ok up ∧ up.getLast? = some top ∧
      top ∈ F.roots ∧ ∀ r ∈ F.roots, ∃ ds, F.descendantsAndSelf r = .ok ds ∧ (d ∈ ds ↔ r = top)
  /-- depths below a node, counted from that of the node, and the largest distance from it -/
  level : ∀ a, F.contains a = true →
    ∃ ds k low, F.descendantsAndSelf a = .ok ds ∧ F.depth a = .ok k ∧ F.height a = .ok (low + 1) ∧
      (∀ d ∈ ds, ∃ n ≤ low, (∀ m, F.climb m d = some a ↔ m = n) ∧ F.depth d = .ok (k + n)) ∧
      ∃ d ∈ ds, F.climb low d = some a
  /-- the trees of the roots are the whole forest -/
  trees : F.ids.Nodup ∧
    ∃ dss, F.roots.mapM F.descendantsAndSelf = .ok dss ∧ dss.flatten.Perm F.ids

theorem nodup_roots (F : Forest C) : F.roots.Nodup :=
  (F.nodes.handles_nodup).sublist ((List.filter_sublist).map Prod.fst)

namespace WellFormed

theorem exists_bears_roots (hF : F.WellFormed) :
    ∃ st, F.Bears st ∧ st.tops = F.roots ∧ st.handles.Nodup ∧
      ∀ h, h ∈ st.handles ↔ F.contains h = true := by
  obtain ⟨st, hst, htops⟩ := exists_bears_of_tops (F := F) (l := F.roots) fun r hr => by
    have hr := (mem_roots_iff.mp hr).1
    exact ⟨hr, hF.exists_bears hr⟩
  refine ⟨st, hst, htops, ?_, fun h => ⟨hst.contains, fun hh => ?_⟩⟩
  · apply hF.nodup_handles hst (q := none)
    · intro t ht
      exact (mem_roots_iff.mp (htops ▸ ht)).2
    · exact htops ▸ F.nodup_roots
  · obtain ⟨top, -, -, htop, hroot, hcovers⟩ := hF.exists_root hh
    exact (hF.mem_handles_iff hst).mpr ⟨top, htops ▸ mem_roots_iff.mpr ⟨htop, hroot⟩, hcovers⟩

theorem trees_eq_ids (hF : F.WellFormed) :
    ∃ dss, F.roots.mapM F.descendantsAndSelf = .ok dss ∧ dss.flatten.Perm F.ids := by
  obtain ⟨st, hst, htops, hnd, hmem⟩ := hF.exists_bears_roots
  obtain ⟨dss, hdss, hflat⟩ := hst.mapM_descendantsAndSelf hnd
  refine ⟨dss, htops ▸ hdss, ?_⟩
  rw [hflat]
  apply (List.perm_ext_iff_of_nodup hnd F.nodes.handles_nodup).mpr
  intro h
  exact (hmem h).trans mem_ids_iff.symm

theorem exists_descendants (hF : F.WellFormed) (ha : F.contains a = true) :
    ∃ ds, F.descendants a = .ok ds ∧ ∀ d, d ∈ ds ↔ F.Above a d := by
  obtain ⟨b, hb, hbt⟩ := hF.exists_bears ha
  have hst : F.Bears (.tree a b .bare) := ⟨ha, hbt.symm, hb, trivial⟩
  have hpoint : ∀ t ∈ b.tops, F.above? t = some a := fun t ht =>
    hF.above?_eq_some_iff.mpr (hbt ▸ ht)
  have hnd := hF.nodup_handles hb hpoint (hbt ▸ hF.nodup_below a)
  exact ⟨b.handles, hst.descendants_eq hnd, fun d => hF.mem_below_iff hst⟩

theorem concordant_kin (hF : F.WellFormed) (ha : F.contains a = true)
    (hd : F.contains d = true) :
    ∃ ds up above, F.descendants a = .ok ds ∧ F.ascendants d = .ok up ∧
      F.isAncestor d a = .ok above ∧ (d ∈ ds ↔ above = true) ∧ (above = true ↔ a ∈ up) := by
  classical
  obtain ⟨ds, hds, hmem⟩ := hF.exists_descendants ha
  refine ⟨ds, _, _, hds, ascendants_of_contains hd, hF.isAncestor_eq hd, ?_, ?_⟩
  · rw [hmem, decide_eq_true_iff]
  · rw [hF.mem_lineage_above?_iff, decide_eq_true_iff]

theorem concordant_root (hF : F.WellFormed) (hd : F.contains d = true) :
    ∃ top up, F.rootOf d = .ok top ∧ F.ascendantsAndSelf d = .ok up ∧ up.getLast? = some top ∧
      top ∈ F.roots ∧ ∀ r ∈ F.roots, ∃ ds, F.descendantsAndSelf r = .ok ds ∧ (d ∈ ds ↔ r = top) := by
  obtain ⟨top, hroot, hlast, htop, hnone, hcovers⟩ := hF.exists_root hd
  refine ⟨top, _, hroot, ascendantsAndSelf_of_contains hd, hlast,
    mem_roots_iff.mpr ⟨htop, hnone⟩, fun r hr => ?_⟩
  obtain ⟨hrin, hrnone⟩ := mem_roots_iff.mp hr
  obtain ⟨ds, hds, -, hmem⟩ := hF.descendantsAndSelf_eq hrin
  refine ⟨ds, hds, ?_⟩
  rw [hmem]
  constructor
  · exact fun hrd => root_unique hrnone hnone hrd hcovers
  · rintro rfl
    exact hcovers

theorem concordant_level (hF : F.WellFormed) (ha : F.contains a = true) :
    ∃ ds k low, F.descendantsAndSelf a = .ok ds ∧ F.depth a = .ok k ∧ F.height a = .ok (low + 1) ∧
      (∀ d ∈ ds, ∃ n ≤ low, (∀ m, F.climb m d = some a ↔ m = n) ∧ F.depth d = .ok (k + n)) ∧
      ∃ d ∈ ds, F.climb low d = some a := by
  obtain ⟨b, hb, hbt⟩ := hF.exists_bears ha
  have hst : F.Bears (.tree a b .bare) := ⟨ha, hbt.symm, hb, trivial⟩
  have hnd : (Stand.tree a b .bare).handles.Nodup :=
    hF.nodup_handles hst (q := F.above? a) (by simp [Stand.tops]) (List.nodup_singleton a)
  have hlevels : (Stand.tree a b .bare).levels = b.levels + 1 := Nat.max_zero _
  refine ⟨_, _, b.levels, hst.descendantsAndSelf_eq rfl hnd, hF.depth_eq ha, hst.height_eq hnd,
    fun d hd => ?_, ?_⟩
  · obtain ⟨t, ht, n, hn, hclimb⟩ := hF.exists_climb_of_mem_handles hst hd
    obtain rfl : t = a := List.mem_singleton.mp ht
    refine ⟨n, by omega, fun m => ?_, hF.depth_of_climb hclimb (hF.depth_eq ha)⟩
    constructor
    · exact fun hm => hF.climb_inj ha hm hclimb
    · rintro rfl
      exact hclimb
  · obtain ⟨t, ht, d, hd, hclimb⟩ := hF.exists_climb_of_levels hst hlevels
    obtain rfl : t = a := List.mem_singleton.mp ht
    exact ⟨d, hd, hclimb⟩

end WellFormed

/-- In a well-formed forest of any shape the views down and the views up tell the same. -/
theorem concordant_of_wellFormed (hF : F.WellFormed) : F.Concordant where
  kin _ _ ha hd := hF.concordant_kin ha hd
  root _ hd := hF.concordant_root hd
  level _ ha := hF.concordant_level ha
  trees := ⟨F.nodes.handles_nodup, hF.trees_eq_ids⟩

end Forest

def Session.grove : Session Label := (Session.fresh Label {}).after
  [.create ⟨.block, "a"⟩, .create ⟨.block, "b"⟩, .create ⟨.leaf, "c"⟩, .create ⟨.leaf, "d"⟩,
    .create ⟨.leaf, "e"⟩, .addChild ⟨1, 0⟩ ⟨2, 0⟩, .addChildren ⟨0, 0⟩ [⟨1, 0⟩, ⟨3, 0⟩]]

theorem concordant_grove :
    Session.grove.forest.WellFormed ∧ Session.grove.forest.Concordant ∧
      Session.grove.forest.roots = [⟨0, 0⟩, ⟨4, 0⟩] ∧
      Session.grove.forest.height ⟨0, 0⟩ = .ok 3 := by
  have hF : Session.grove.forest.WellFormed :=
    Session.wellFormed_after (Forest.wellFormed_empty {}) _
  exact ⟨hF, Forest.concordant_of_wellFormed hF, by decide, rfl⟩

end Grove
