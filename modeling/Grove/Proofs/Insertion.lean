import Grove.Proofs.Edit.DeepCopy
import Grove.Proofs.Edit.Insert
import Grove.Proofs.Integrity

/-!
# Insertion of a child

What comes to stand at the chosen position is the given node if that is a root, and else, as the
settings have it, a copy of its subtree. The copy is finished before the first link to it is written,
so it shows the subtree as it was, even when the parent is part of that subtree; and no node that
was there before is below a copy, so the copy can be linked anywhere.
-/

namespace Grove
set_option autoImplicit false

namespace Forest
variable {C : Type} {F G : Forest C} {c p x : Handle} {i : Nat} {f : Handle → Handle}

structure Inserted (F G : Forest C) (p : Handle) (i : Nat) (x : Handle) : Prop where
  children : G.below p = (F.below p).insertIdx i x
  parent : G.above? x = some p
  contentOf?_eq : ∀ k, G.contentOf? k = F.contentOf? k
  above?_eq : ∀ k, k ≠ x → G.above? k = F.above? k
  below_eq : ∀ k, k ≠ p → G.below k = F.below k
  settings : G.settings = F.settings

/-- `G` is `F` with a copy of the subtree of `x` as the child of `p` at position `i`; the copy consists
of new nodes, `c` is its root, and `f` gives the copy of each node. -/
structure CopyInserted (F G : Forest C) (p : Handle) (i : Nat) (x c : Handle)
    (f : Handle → Handle) : Prop where
  fresh : F.contains c = false
  children : G.below p = (F.below p).insertIdx i c
  parent : G.above? c = some p
  copy : F.DeepCopy G x c f
  target : G.contentOf? p = F.contentOf? p ∧ G.above? p = F.above? p
  old : ∀ k, F.contains k = true → k ≠ p → G.get? k = F.get? k
  wellFormed : G.WellFormed
  settings : G.settings = F.settings

theorem inserted_link (hp : F.contains p = true) (hx : F.contains x = true) :
    F.Inserted (F.link p i x) p i x := by
  refine ⟨?_, ?_, contentOf?_link F p i x, ?_, ?_, rfl⟩
  · rw [below_link hp, if_pos rfl]
  · rw [above?_link hx, if_pos rfl]
  · intro k hk
    rw [above?_link hx, if_neg hk]
  · intro k hk
    rw [below_link hp, if_neg hk]

theorem Sprouted.copyInserted (hG : F.Sprouted G c) (hF : F.WellFormed)
    (hp : F.contains p = true) (hi : i ≤ (F.below p).length) (hcopy : F.DeepCopy G x c f) :
    F.CopyInserted (G.link p i c) p i x c f := by
  have hpG := hG.old.contains hp
  have hne : ∀ k, F.contains k = true → k ≠ c := fun k hk => ne_of_contains hk hG.fresh
  have hrelink := hcopy.relink hp (contentOf?_link G p i c) fun k hk => by
    rw [below_link hpG, if_neg hk]
  refine ⟨hG.fresh, ?_, ?_, hrelink, ⟨?_, ?_⟩, ?_, ?_, hG.old.settings⟩
  · rw [below_link hpG, if_pos rfl, hG.old.below_eq hp]
  · rw [above?_link hG.contains, if_pos rfl]
  · rw [contentOf?_link, hG.old.contentOf?_eq hp]
  · rw [above?_link hG.contains, if_neg (hne p hp), hG.old.above?_eq hp]
  · intro k hk hkp
    rw [get?_link hpG hG.contains hkp (hne k hk), hG.old.get? k hk]
  · refine hG.wellFormed.link hpG hG.contains hG.root (hG.not_covers hF hp) ?_
    rwa [hG.old.below_eq hp]

end Forest

namespace EditM
variable {C : Type} [ShallowCopy C] {s : Session C} {p x : Handle} {i : Nat}

/-- How a node is inserted, whether it is a root or has a parent already. The contents that shallow
copies preserve are those with `copyable`. -/
structure InsertsChild (copyable : C → Prop) (s : Session C) (p : Handle) (i : Nat) (x : Handle) :
    Prop where
  /-- a root that is not above the parent is linked itself -/
  of_root : s.forest.above? x = none → ¬ s.forest.Covers x p →
    ∃ t, insertChild p i x s = .ok x t ∧ s.forest.Inserted t.forest p i x
  /-- a root that is the parent or above it is refused -/
  of_covers : s.forest.above? x = none → s.forest.Covers x p →
    insertChild p i x s = .error (.cycleDetected (s.forest.describe x)) s
  /-- for an owned node a copy is linked, wherever the node stands -/
  of_copy : ∀ q, s.forest.above? x = some q → s.forest.settings.sanitize = .copy →
    (∀ k n, s.forest.Covers x k → s.forest.get? k = some n → copyable n.content) →
      ∃ c t f, insertChild p i x s = .ok c t ∧ s.forest.CopyInserted t.forest p i x c f
  /-- an owned node is refused if the settings say so -/
  of_reject : ∀ q, s.forest.above? x = some q → s.forest.settings.sanitize = .reject →
    insertChild p i x s =
      .error (.alreadyOwned (s.forest.describe x) (s.forest.describe q)) s

theorem insertChild_of_covers (hF : s.forest.WellFormed) (hp : s.forest.contains p = true)
    (hi : i ≤ (s.forest.below p).length) (hx : s.forest.contains x = true)
    (hroot : s.forest.above? x = none) (hc : s.forest.Covers x p) :
    insertChild p i x s = .error (.cycleDetected (s.forest.describe x)) s := by
  have hattach : attach p i x s = .error (.cycleDetected (s.forest.describe x)) s := by
    rw [attach, bind_of_error _ (setAsParentOf_of_covers hF hp hx hroot hc)]
  rw [insertChild_eq hp hi, bind_of_ok _ (sanitize_of_root hx hroot), bind_of_error _ hattach]

theorem insertsChild [RegularCopy C] (hF : s.forest.WellFormed) (hp : s.forest.contains p = true)
    (hi : i ≤ (s.forest.below p).length) (hx : s.forest.contains x = true) :
    InsertsChild (fun content => RegularCopy.copyable content = true) s p i x where
  of_root hroot hnot :=
    ⟨_, insertChild_of_root hF hp hi hx hroot hnot, Forest.inserted_link hp hx⟩
  of_covers := insertChild_of_covers hF hp hi hx
  of_copy q hq hset hcopyable := by
    obtain ⟨c, t, f, hrun, hsprout, hcopy⟩ := copy_run hF hx hcopyable
    have hsanitize : sanitize x s = .ok c t := by rw [sanitize_of_copy hq hset, hrun]
    exact ⟨c, _, f, insertChild_of_sprouted hF hp hi hsanitize hsprout,
      hsprout.copyInserted hF hp hi hcopy⟩
  of_reject _ hq hset := insertChild_of_sanitize_error hp hi (sanitize_of_reject hq hset)

end EditM

theorem insertsChild_at_position :
    (∀ (s : Session Label), s.forest.WellFormed → ∀ p i x, s.forest.contains p = true →
      i ≤ (s.forest.below p).length → s.forest.contains x = true →
        EditM.InsertsChild (fun l : Label => l.kind ≠ .badCopy) s p i x) ∧
    ∀ (s : Session Plain), s.forest.WellFormed → ∀ p i x, s.forest.contains p = true →
      i ≤ (s.forest.below p).length → s.forest.contains x = true →
        EditM.InsertsChild (fun _ : Plain => True) s p i x := by
  constructor
  · intro s hF p i x hp hi hx
    obtain ⟨hroot, hcovers, hcopy, hreject⟩ := EditM.insertsChild hF hp hi hx
    refine ⟨hroot, hcovers, fun q hq hset hgood => ?_, hreject⟩
    exact hcopy q hq hset fun k n hk hn => decide_eq_true (hgood k n hk hn)
  · intro s hF p i x hp hi hx
    obtain ⟨hroot, hcovers, hcopy, hreject⟩ := EditM.insertsChild hF hp hi hx
    exact ⟨hroot, hcovers, fun q hq hset _ => hcopy q hq hset fun _ _ _ _ => rfl, hreject⟩

def Session.tower : Session Label := (Session.fresh Label {}).after
  [.create ⟨.block, "a"⟩, .create ⟨.block, "b"⟩, .create ⟨.block, "c"⟩,
    .addChild ⟨0, 0⟩ ⟨1, 0⟩, .addChild ⟨1, 0⟩ ⟨2, 0⟩]

theorem insertsChild_tower :
    Session.tower.forest.WellFormed ∧
    ∃ c t f, EditM.insertChild ⟨2, 0⟩ 0 ⟨1, 0⟩ Session.tower = .ok c t ∧
      Session.tower.forest.CopyInserted t.forest ⟨2, 0⟩ 0 ⟨1, 0⟩ c f := by
  have hF : Session.tower.forest.WellFormed :=
    Session.wellFormed_after (Forest.wellFormed_empty {}) _
  have hblocks : ∀ e ∈ Session.tower.forest.nodes.entries, e.2.content.kind ≠ .badCopy := by decide
  refine ⟨hF, (insertsChild_at_position.1 _ hF ⟨2, 0⟩ 0 ⟨1, 0⟩ rfl (Nat.zero_le _) rfl).of_copy
    ⟨0, 0⟩ rfl rfl fun k n _ hn => ?_⟩
  exact hblocks (k, n) (Store.mem_entries_iff.mpr hn)

end Grove
