import Grove.Edit.Swap
import Grove.Proofs.Forest.Links
import Mathlib.Data.List.InsertIdx
import Mathlib.Data.List.Perm.Basic

/-!
# Relinking

The changes of whole links, as functions on forests: planting a node, linking a root below a node,
unlinking a child, putting a root in the place of a child, taking nodes out, renaming handles. Each
of them keeps a well-formed forest well-formed, under the conditions that the edits check.
-/

namespace Grove
set_option autoImplicit false

theorem Handle.exchange_exchange (a b h : Handle) :
    exchange a b (exchange a b h) = h := by
  unfold exchange
  by_cases ha : h = a
  · subst ha
    by_cases hb : b = h <;> simp [hb]
  · by_cases hb : h = b
    · subst hb
      simp [ha]
    · simp [ha, hb]

theorem Handle.exchange_of_ne {a b h : Handle} (hna : h ≠ a) (hnb : h ≠ b) :
    exchange a b h = h := by
  simp [exchange, hna, hnb]

namespace Forest
variable {C : Type} {F G : Forest C} {a b c h k p q x : Handle} {i : Nat}

theorem eraseIdx_eq_erase {l : List Handle} (hl : l.Nodup) (hi : l[i]? = some c) :
    l.eraseIdx i = l.erase c := by
  obtain ⟨hlt, rfl⟩ := List.getElem?_eq_some_iff.mp hi
  exact (hl.erase_getElem i hlt).symm

theorem mem_eraseIdx_iff {l : List Handle} (hl : l.Nodup) (hi : l[i]? = some c) :
    h ∈ l.eraseIdx i ↔ h ≠ c ∧ h ∈ l := by
  rw [eraseIdx_eq_erase hl hi]
  exact hl.mem_erase_iff

theorem set_eq_map {l : List Handle} (hl : l.Nodup) (hi : l[i]? = some c) (x : Handle) :
    l.set i x = l.map fun h => if h = c then x else h := by
  induction l generalizing i with
  | nil => rfl
  | cons b l ih =>
    obtain ⟨hb, hl⟩ := List.nodup_cons.mp hl
    cases i with
    | zero =>
      obtain rfl : b = c := by simpa using hi
      have hrest : (l.map fun h => if h = b then x else h) = l.map id :=
        List.map_congr_left fun h hh => if_neg (ne_of_mem_of_not_mem hh hb)
      rw [List.set_cons_zero, List.map_cons, if_pos rfl, hrest, List.map_id]
    | succ i =>
      have hi : l[i]? = some c := by simpa using hi
      have hbc : b ≠ c := fun he => hb (he ▸ List.mem_of_getElem? hi)
      rw [List.set_cons_succ, List.map_cons, if_neg hbc, ih hl hi]

/-! ## Planting -/

def plant (F : Forest C) (content : C) : Handle × Forest C :=
  ((F.nodes.insert { content }).1, { F with nodes := (F.nodes.insert { content }).2 })

theorem get?_plant (F : Forest C) (content : C) (k : Handle) :
    (F.plant content).2.get? k =
      if k = (F.plant content).1 then some { content } else F.get? k :=
  Store.get?_insert F.nodes _ k

theorem get?_plant_fst (F : Forest C) (content : C) : F.get? (F.plant content).1 = none :=
  Store.get?_insert_fst F.nodes { content }

theorem not_contains_plant_fst (F : Forest C) (content : C) :
    F.contains (F.plant content).1 = false :=
  not_contains_iff.mpr (get?_plant_fst F content)

@[simp] theorem settings_plant (F : Forest C) (content : C) :
    (F.plant content).2.settings = F.settings := rfl

theorem contains_plant (F : Forest C) (content : C) (k : Handle) :
    (F.plant content).2.contains k = true ↔ k = (F.plant content).1 ∨ F.contains k = true := by
  simp only [contains_iff, get?_plant]
  by_cases hk : k = (F.plant content).1 <;> simp [hk]

@[simp] theorem above?_plant (F : Forest C) (content : C) (k : Handle) :
    (F.plant content).2.above? k = F.above? k := by
  simp only [above?, get?_plant]
  split
  · rename_i hk
    rw [hk, get?_plant_fst]
    rfl
  · rfl

@[simp] theorem below_plant (F : Forest C) (content : C) (k : Handle) :
    (F.plant content).2.below k = F.below k := by
  simp only [below, get?_plant]
  split
  · rename_i hk
    rw [hk, get?_plant_fst]
    rfl
  · rfl

theorem contentOf?_plant (F : Forest C) (content : C) (k : Handle) :
    (F.plant content).2.contentOf? k =
      if k = (F.plant content).1 then some content else F.contentOf? k := by
  simp only [contentOf?, get?_plant]
  split <;> rfl

theorem WellFormed.plant (hF : F.WellFormed) (content : C) : (F.plant content).2.WellFormed :=
  hF.congr (above?_plant F content) (below_plant F content)

/-! ## Linking a root -/

/-- Makes `x` the child of `p` at position `i`. -/
def link (F : Forest C) (p : Handle) (i : Nat) (x : Handle) : Forest C :=
  (F.setParent x (some p)).setBelow p ((F.below p).insertIdx i x)

@[simp] theorem settings_link (F : Forest C) (p : Handle) (i : Nat) (x : Handle) :
    (F.link p i x).settings = F.settings := rfl

@[simp] theorem contains_link (F : Forest C) (p : Handle) (i : Nat) (x k : Handle) :
    (F.link p i x).contains k = F.contains k := by
  simp [link]

@[simp] theorem contentOf?_link (F : Forest C) (p : Handle) (i : Nat) (x k : Handle) :
    (F.link p i x).contentOf? k = F.contentOf? k := by
  simp [link]

theorem above?_link (hx : F.contains x = true) (k : Handle) :
    (F.link p i x).above? k = if k = x then some p else F.above? k := by
  simp [link, above?_setParent hx]

theorem below_link (hp : F.contains p = true) (k : Handle) :
    (F.link p i x).below k = if k = p then (F.below p).insertIdx i x else F.below k := by
  rw [link, below_setBelow (by simpa using hp), below_setParent]

/-- A way up in a linked forest uses the new edge at most once, at its upper end. -/
theorem above_of_link (hx : F.contains x = true) (ha : (F.link p i x).Above a b) :
    F.Above a b ∨ F.Covers a p ∧ F.Covers x b := by
  have hstep : ∀ {q h}, (F.link p i x).Over q h → F.Over q h ∨ q = p ∧ h = x := by
    intro q h hq
    rw [Over, above?_link hx] at hq
    by_cases hh : h = x
    · rw [if_pos hh] at hq
      exact Or.inr ⟨(Option.some.inj hq).symm, hh⟩
    · rw [if_neg hh] at hq
      exact Or.inl hq
  induction ha with
  | single hab =>
    rcases hstep hab with h | ⟨rfl, rfl⟩
    · exact Or.inl (.single h)
    · exact Or.inr ⟨.refl, .refl⟩
  | tail _ hbc ih =>
    rcases hstep hbc with h | ⟨rfl, rfl⟩
    · rcases ih with ih | ⟨hap, hxb⟩
      · exact Or.inl (ih.tail h)
      · exact Or.inr ⟨hap, hxb.tail h⟩
    · rcases ih with ih | ⟨hap, -⟩
      · exact Or.inr ⟨ih.to_reflTransGen, .refl⟩
      · exact Or.inr ⟨hap, .refl⟩

theorem WellFormed.link (hF : F.WellFormed) (hp : F.contains p = true) (hx : F.contains x = true)
    (hroot : F.above? x = none) (hnot : ¬ F.Covers x p) (hi : i ≤ (F.below p).length) :
    (F.link p i x).WellFormed := by
  have hfresh : ∀ q, x ∉ F.below q := by
    intro q hq
    rw [hF.above?_eq_some_iff.mpr hq] at hroot
    exact absurd hroot (by simp)
  refine wellFormed_iff_links.mpr ⟨fun q h => ?_, fun q => ?_, fun h hh => ?_⟩
  · rw [above?_link hx, below_link hp]
    by_cases hq : q = p
    · subst hq
      rw [if_pos rfl, List.mem_insertIdx hi]
      by_cases hh : h = x
      · simp [hh]
      · simp [hh, hF.above?_eq_some_iff]
    · rw [if_neg hq]
      by_cases hh : h = x
      · subst hh
        simp [Ne.symm hq, hfresh q]
      · rw [if_neg hh]
        exact hF.above?_eq_some_iff
  · rw [below_link hp]
    split
    · rw [(List.perm_insertIdx x _ hi).nodup_iff]
      exact List.nodup_cons.mpr ⟨hfresh p, hF.nodup_below p⟩
    · exact hF.nodup_below q
  · rcases above_of_link hx hh with h | ⟨hhp, hxh⟩
    · exact hF.acyclic _ h
    · exact hnot (hxh.trans hhp)

/-! ## Unlinking a child -/

/-- Makes `c`, the child of `p` at position `i`, a root. -/
def unlink (F : Forest C) (p : Handle) (i : Nat) (c : Handle) : Forest C :=
  (F.setBelow p ((F.below p).eraseIdx i)).setParent c none

@[simp] theorem settings_unlink (F : Forest C) (p : Handle) (i : Nat) (c : Handle) :
    (F.unlink p i c).settings = F.settings := rfl

@[simp] theorem contains_unlink (F : Forest C) (p : Handle) (i : Nat) (c k : Handle) :
    (F.unlink p i c).contains k = F.contains k := by
  simp [unlink]

@[simp] theorem contentOf?_unlink (F : Forest C) (p : Handle) (i : Nat) (c k : Handle) :
    (F.unlink p i c).contentOf? k = F.contentOf? k := by
  simp [unlink]

theorem above?_unlink (hc : F.contains c = true) (k : Handle) :
    (F.unlink p i c).above? k = if k = c then none else F.above? k := by
  rw [unlink, above?_setParent (by simpa using hc), above?_setBelow]

theorem below_unlink (hp : F.contains p = true) (k : Handle) :
    (F.unlink p i c).below k = if k = p then (F.below p).eraseIdx i else F.below k := by
  rw [unlink, below_setParent, below_setBelow hp]

theorem over_of_unlink (hc : F.contains c = true) (hq : (F.unlink p i c).Over q h) :
    F.Over q h := by
  rw [Over, above?_unlink hc] at hq
  split at hq
  · exact absurd hq (by simp)
  · exact hq

theorem covers_of_unlink (hc : F.contains c = true) (ha : (F.unlink p i c).Covers a b) :
    F.Covers a b :=
  Relation.ReflTransGen.mono (fun _ _ => over_of_unlink hc) _ _ ha

theorem WellFormed.unlink (hF : F.WellFormed) (hi : (F.below p)[i]? = some c) :
    (F.unlink p i c).WellFormed := by
  have hmem : c ∈ F.below p := List.mem_of_getElem? hi
  have hc := hF.contains_of_mem_below hmem
  have hp := Forest.contains_of_mem_below hmem
  refine wellFormed_iff_links.mpr ⟨fun q h => ?_, fun q => ?_, fun h hh => ?_⟩
  · rw [above?_unlink hc, below_unlink hp]
    by_cases hq : q = p
    · subst hq
      rw [if_pos rfl, mem_eraseIdx_iff (hF.nodup_below q) hi, ← hF.above?_eq_some_iff]
      by_cases hh : h = c <;> simp [hh]
    · rw [if_neg hq]
      by_cases hh : h = c
      · subst hh
        simp only [if_true, reduceCtorEq, false_iff]
        intro hcq
        exact hq (Option.some.inj ((hF.above?_eq_some_iff.mpr hcq).symm.trans
          (hF.above?_eq_some_iff.mpr hmem)))
      · rw [if_neg hh]
        exact hF.above?_eq_some_iff
  · rw [below_unlink hp]
    split
    · exact (hF.nodup_below p).eraseIdx i
    · exact hF.nodup_below q
  · exact hF.acyclic h (Relation.TransGen.mono (fun _ _ => over_of_unlink hc) _ _ hh)

/-! ## Putting a root in the place of a child -/

/-- Makes `x` the child of `p` at position `i`, where `c` was; `c` becomes a root. -/
def substitute (F : Forest C) (p : Handle) (i : Nat) (x c : Handle) : Forest C :=
  ((F.setParent x (some p)).setBelow p ((F.below p).set i x)).setParent c none

@[simp] theorem settings_substitute (F : Forest C) (p : Handle) (i : Nat) (x c : Handle) :
    (F.substitute p i x c).settings = F.settings := rfl

@[simp] theorem contains_substitute (F : Forest C) (p : Handle) (i : Nat) (x c k : Handle) :
    (F.substitute p i x c).contains k = F.contains k := by
  simp [substitute]

@[simp] theorem contentOf?_substitute (F : Forest C) (p : Handle) (i : Nat) (x c k : Handle) :
    (F.substitute p i x c).contentOf? k = F.contentOf? k := by
  simp [substitute]

theorem above?_substitute (hx : F.contains x = true) (hc : F.contains c = true) (k : Handle) :
    (F.substitute p i x c).above? k =
      if k = c then none else if k = x then some p else F.above? k := by
  rw [substitute, above?_setParent (by simpa using hc), above?_setBelow, above?_setParent hx]

theorem below_substitute (hp : F.contains p = true) (k : Handle) :
    (F.substitute p i x c).below k = if k = p then (F.below p).set i x else F.below k := by
  rw [substitute, below_setParent, below_setBelow (by simpa using hp), below_setParent]

theorem getElem?_substitute (hi : (F.below p)[i]? = some c) :
    ((F.substitute p i x c).below p)[i]? = some x := by
  obtain ⟨hlt, -⟩ := List.getElem?_eq_some_iff.mp hi
  rw [below_substitute (Forest.contains_of_mem_below (List.mem_of_getElem? hi)), if_pos rfl,
    List.getElem?_set_self hlt]

/-- Substituting is unlinking the old child and linking the new one. -/
theorem WellFormed.substitute (hF : F.WellFormed) (hi : (F.below p)[i]? = some c)
    (hx : F.contains x = true) (hroot : F.above? x = none) (hnot : ¬ F.Covers x p) :
    (F.substitute p i x c).WellFormed := by
  have hmem : c ∈ F.below p := List.mem_of_getElem? hi
  have hc := hF.contains_of_mem_below hmem
  have hp := Forest.contains_of_mem_below hmem
  obtain ⟨hlt, -⟩ := List.getElem?_eq_some_iff.mp hi
  have hxc : x ≠ c := by
    rintro rfl
    rw [hF.above?_eq_some_iff.mpr hmem] at hroot
    exact absurd hroot (by simp)
  have hbelow : (F.unlink p i c).below p = (F.below p).eraseIdx i := by
    rw [below_unlink hp, if_pos rfl]
  have hlink : ((F.unlink p i c).link p i x).WellFormed := by
    refine (hF.unlink hi).link (by simpa using hp) (by simpa using hx) ?_ ?_ ?_
    · rw [above?_unlink hc, hroot, ite_self]
    · exact fun h => hnot (covers_of_unlink hc h)
    · rw [hbelow, List.length_eraseIdx_of_lt hlt]
      omega
  refine hlink.congr (fun k => ?_) (fun k => ?_)
  · rw [above?_substitute hx hc, above?_link (by simpa using hx), above?_unlink hc]
    by_cases hk : k = c
    · subst hk
      simp [Ne.symm hxc]
    · simp [hk]
  · rw [below_substitute hp, below_link (by simpa using hp), hbelow,
      List.insertIdx_eraseIdx_self (Nat.ne_of_lt hlt), below_unlink hp]
    split <;> simp_all

/-- A way up after a substitution uses the new edge at most once. -/
theorem covers_of_substitute (hx : F.contains x = true) (hc : F.contains c = true)
    (ha : (F.substitute p i x c).Covers a b) : F.Covers a b ∨ F.Covers a p ∧ F.Covers x b := by
  have hstep : ∀ {q h}, (F.substitute p i x c).Over q h → F.Over q h ∨ q = p ∧ h = x := by
    intro q h hq
    rw [Over, above?_substitute hx hc] at hq
    split at hq
    · exact absurd hq (by simp)
    · split at hq
      · rename_i hh
        exact Or.inr ⟨(Option.some.inj hq).symm, hh⟩
      · exact Or.inl hq
  induction ha with
  | refl => exact Or.inl .refl
  | tail _ hbc ih =>
    rcases hstep hbc with h | ⟨rfl, rfl⟩
    · exact ih.imp (·.tail h) fun hac => ⟨hac.1, hac.2.tail h⟩
    · exact Or.inr ⟨ih.elim id And.left, .refl⟩

/-! ## Taking nodes out -/

/-- Takes the listed nodes out. -/
def uproot (F : Forest C) (ds : List Handle) : Forest C :=
  { F with nodes := ds.foldl Store.erase F.nodes }

@[simp] theorem settings_uproot (F : Forest C) (ds : List Handle) :
    (F.uproot ds).settings = F.settings := rfl

theorem get?_uproot (F : Forest C) (ds : List Handle) (k : Handle) :
    (F.uproot ds).get? k = if k ∈ ds then none else F.get? k := by
  induction ds generalizing F with
  | nil => rfl
  | cons d ds ih =>
    have hstep : (F.uproot (d :: ds)) = ({ F with nodes := F.nodes.erase d } : Forest C).uproot ds :=
      rfl
    have herase : ({ F with nodes := F.nodes.erase d } : Forest C).get? k =
        if k = d then none else F.get? k := Store.get?_erase F.nodes d k
    rw [hstep, ih, herase]
    by_cases hk : k = d <;> by_cases hm : k ∈ ds <;> simp [hk, hm]

theorem contains_uproot (F : Forest C) (ds : List Handle) (k : Handle) :
    (F.uproot ds).contains k = true ↔ k ∉ ds ∧ F.contains k = true := by
  simp only [contains_iff, get?_uproot]
  by_cases hk : k ∈ ds <;> simp [hk]

theorem above?_uproot (F : Forest C) (ds : List Handle) (k : Handle) :
    (F.uproot ds).above? k = if k ∈ ds then none else F.above? k := by
  simp only [above?, get?_uproot]
  split <;> rfl

theorem below_uproot (F : Forest C) (ds : List Handle) (k : Handle) :
    (F.uproot ds).below k = if k ∈ ds then [] else F.below k := by
  simp only [below, get?_uproot]
  split <;> rfl

/-- A root is taken out with everything below it. -/
theorem WellFormed.uproot (hF : F.WellFormed) {ds : List Handle} (hroot : F.above? x = none)
    (hds : ∀ k, k ∈ ds ↔ F.Covers x k) : (F.uproot ds).WellFormed := by
  have hclosed : ∀ {q h}, F.Over q h → (q ∈ ds ↔ h ∈ ds) := by
    intro q h hq
    rw [hds, hds]
    constructor
    · intro hx
      exact hx.tail hq
    · intro hx
      rcases Relation.ReflTransGen.cases_tail hx with rfl | ⟨r, hr, hrh⟩
      · rw [hq] at hroot
        exact absurd hroot (by simp)
      · exact Option.some.inj (hrh.symm.trans hq) ▸ hr
  refine wellFormed_iff_links.mpr ⟨fun q h => ?_, fun q => ?_, fun h hh => ?_⟩
  · rw [above?_uproot, below_uproot]
    by_cases hh : h ∈ ds <;> by_cases hq : q ∈ ds
    · simp [hh, hq]
    · simp only [hh, hq, if_true, if_false, reduceCtorEq, false_iff]
      exact fun hm => hq ((hclosed (hF.above?_eq_some_iff.mpr hm)).mpr hh)
    · simp only [hh, hq, if_true, if_false, List.not_mem_nil, iff_false]
      exact fun hm => hh ((hclosed hm).mp hq)
    · simp only [hh, hq, if_false]
      exact hF.above?_eq_some_iff
  · rw [below_uproot]
    split
    · exact List.nodup_nil
    · exact hF.nodup_below q
  · refine hF.acyclic h (Relation.TransGen.mono (fun q k hq => ?_) _ _ hh)
    rw [Over, above?_uproot] at hq
    split at hq
    · exact absurd hq (by simp)
    · exact hq

/-! ## Renaming -/

/-- Renaming the handles in all links keeps their shape. -/
theorem WellFormed.rename (hF : F.WellFormed) {r : Handle → Handle} (hr : ∀ h, r (r h) = h)
    (ha : ∀ h, G.above? (r h) = (F.above? h).map r)
    (hb : ∀ h, G.below (r h) = (F.below h).map r) : G.WellFormed := by
  have hinj : Function.Injective r := fun u v huv => by rw [← hr u, huv, hr]
  have ha' : ∀ h, G.above? h = (F.above? (r h)).map r := fun h => by rw [← ha, hr]
  have hb' : ∀ h, G.below h = (F.below (r h)).map r := fun h => by rw [← hb, hr]
  have hover : ∀ {q h}, G.Over q h → F.Over (r q) (r h) := by
    intro q h hq
    rw [Over, ha'] at hq
    obtain ⟨q', hq', rfl⟩ := Option.map_eq_some_iff.mp hq
    rw [Over, hq', hr]
  refine wellFormed_iff_links.mpr ⟨fun q h => ?_, fun q => ?_, fun h hh => ?_⟩
  · rw [ha', hb', List.mem_map]
    constructor
    · intro hq
      obtain ⟨q', hq', rfl⟩ := Option.map_eq_some_iff.mp hq
      exact ⟨r h, by rw [hr]; exact hF.above?_eq_some_iff.mp hq', hr h⟩
    · rintro ⟨h', hh', rfl⟩
      rw [hr, hF.above?_eq_some_iff.mpr hh', Option.map_some, hr]
  · rw [hb']
    exact (hF.nodup_below (r q)).map hinj
  · exact hF.acyclic (r h) (Relation.TransGen.lift r (fun _ _ => hover) _ _ hh)

end Forest
end Grove
