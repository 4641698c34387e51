import Grove.Proofs.Removal
import Mathlib.Data.List.Induction

/-!
# Lists of children

Nodes are added to the children of a parent one after the other. Whether a node joins them itself or by
a copy is decided when its turn comes, and by then a node that was named before is owned. So of the nodes
without a parent each joins the children itself where it is named for the first time, and whatever else is
named is copied as it stands at that moment. Setting the children is the same after all former children
have become roots.
-/

namespace Grove
set_option autoImplicit false

namespace Forest
variable {C : Type} {E F G : Forest C} {a b k p x y : Handle} {l l' xs ys : List Handle}
  {f : Handle → Handle} {copyable : C → Prop}

/-! ## Lists that get longer -/

theorem Relisted.extend (hE : F.Relisted E p l) (hG : E.Relisted G p l') (hl : l ⊆ l') :
    F.Relisted G p l' :=
  hE.trans hG fun _ hk => Or.inl (hl hk)

theorem Relisted.congr (hE : F.Relisted E p l) (hG : G.SameNodes E) : F.Relisted G p l := by
  refine ⟨hG.symm.wellFormed hE.wellFormed, ?_, ?_, ?_, ?_, hG.settings.trans hE.settings⟩
  · rw [hG.below_eq, hE.children]
  · intro k hk
    rw [hG.above?_eq, hE.above?_eq k hk]
  · intro k hk hkp
    rw [hG.below_eq, hE.below_eq k hk hkp]
  · intro k hk
    rw [contentOf?, hG.get?, ← contentOf?, hE.contentOf?_eq k hk]

theorem Relisted.owned (hG : F.Relisted G p l) (hl : F.below p ⊆ l) (hk : F.contains k = true)
    (howned : F.above? k ≠ none) : G.above? k ≠ none := by
  rw [hG.above?_eq k hk]
  split
  · exact Option.some_ne_none p
  · rename_i hkl
    rw [if_neg fun hm => hkl (hl hm)]
    exact howned

theorem Relisted.covers_parent (hG : F.Relisted G p l) (hp : F.contains p = true)
    (hF : F.WellFormed) (hc : G.Covers a p) : F.Covers a p := by
  induction hc using Relation.ReflTransGen.head_induction_on with
  | refl => exact .refl
  | @head a c hac hcp ih =>
    have hc : F.contains c = true := hF.contains_of_covers ih hp
    have hcl : c ∉ l := by
      intro hm
      have hpc : G.Over p c := hG.wellFormed.above?_eq_some_iff.mpr (hG.children ▸ hm)
      exact hG.wellFormed.not_covers_of_over hpc hcp
    have hup : G.above? c = some a := hac
    rw [hG.above?_eq c hc, if_neg hcl] at hup
    split at hup
    · exact nomatch hup
    · exact ih.head hup

theorem DeepCopy.owned (hG : F.DeepCopy G x y f) (hwf : G.WellFormed) (hF : F.WellFormed)
    (hy : G.above? y ≠ none) (hk : F.Covers x k) : G.above? (f k) ≠ none := by
  rcases Relation.ReflTransGen.cases_tail hk with rfl | ⟨q, hq, hqk⟩
  · rwa [hG.root]
  · have hm : f k ∈ G.below (f q) := by
      rw [hG.below_eq q hq]
      exact List.mem_map_of_mem (hF.above?_eq_some_iff.mp hqk)
    rw [hwf.above?_eq_some_iff.mpr hm]
    exact Option.some_ne_none _

/-! ## Nodes that join the children -/

/-- The nodes `xs` have joined the children of `p` in `F` and are the nodes `ys` there, each of them
itself or by a copy. -/
structure Joined (F G : Forest C) (p : Handle) (xs ys : List Handle) : Prop where
  relisted : F.Relisted G p (F.below p ++ ys)
  /-- no new node is a root -/
  owned : ∀ k, G.contains k = true → F.contains k = true ∨ G.above? k ≠ none
  root : ∀ y ∈ ys, F.above? y = none
  named : ∀ y ∈ ys, F.contains y = true → y ∈ xs
  listed : ∀ x ∈ xs, F.contains x = true → F.above? x = none → x ∈ ys

theorem Joined.refl (hF : F.WellFormed) (p : Handle) : F.Joined F p [] [] := by
  refine ⟨?_, fun k hk => Or.inl hk, nofun, nofun, nofun⟩
  rw [List.append_nil]
  exact .refl hF p

theorem Joined.above?_eq_none_iff (hE : F.Joined E p xs ys) (hF : F.WellFormed)
    (hx : E.contains x = true) :
    E.above? x = none ↔ (F.contains x = true ∧ F.above? x = none) ∧ x ∉ xs := by
  constructor
  · intro hroot
    have hxF : F.contains x = true := (hE.owned x hx).resolve_right fun howned => howned hroot
    have hxl : x ∉ F.below p ++ ys := by
      intro hm
      rw [hE.relisted.above?_eq x hxF, if_pos hm] at hroot
      exact nomatch hroot
    rw [hE.relisted.above?_eq x hxF, if_neg hxl] at hroot
    have hxroot : F.above? x = none := by
      rwa [if_neg fun hm => hxl (List.mem_append_left ys hm)] at hroot
    refine ⟨⟨hxF, hxroot⟩, ?_⟩
    intro hm
    exact hxl (List.mem_append_right _ (hE.listed x hm hxF hxroot))
  · rintro ⟨⟨hxF, hxroot⟩, hxs⟩
    have hxp : x ∉ F.below p := by
      intro hm
      exact nomatch (hF.above?_eq_some_iff.mpr hm).symm.trans hxroot
    have hxl : x ∉ F.below p ++ ys := by
      intro hm
      rcases List.mem_append.mp hm with hm | hm
      · exact hxp hm
      · exact hxs (hE.named x hm hxF)
    rw [hE.relisted.above?_eq x hxF, if_neg hxl, if_neg hxp, hxroot]

theorem Joined.snoc (hE : F.Joined E p xs ys) (hF : F.WellFormed) (hstands : E.StandsFor G y x)
    (hadmits : E.Admits copyable p x) (hG : E.Relisted G p (E.below p ++ [y])) :
    F.Joined G p (xs ++ [x]) (ys ++ [y]) := by
  have hlist : E.below p ++ [y] = F.below p ++ (ys ++ [y]) := by
    rw [hE.relisted.children, List.append_assoc]
  have hlonger : E.below p ⊆ E.below p ++ [y] := List.subset_append_left _ _
  have hyroot : E.above? y = none := hstands.above?_eq_none
  have hyowned : G.above? y ≠ none := by
    have hm : y ∈ G.below p := hG.children ▸ List.mem_append_right _ List.mem_cons_self
    rw [hG.wellFormed.above?_eq_some_iff.mpr hm]
    exact Option.some_ne_none p
  constructor
  case relisted =>
    rw [← hlist]
    exact hE.relisted.extend hG (hE.relisted.children ▸ hlonger)
  case owned =>
    -- a node is new in this step as part of the copy, or was there before it
    have hold : ∀ k, E.contains k = true → F.contains k = true ∨ G.above? k ≠ none := by
      intro k hk
      exact (hE.owned k hk).imp_right (hG.owned hlonger hk)
    intro k hk
    rcases hstands with ⟨-, -, hsame⟩ | ⟨-, f, hcopy⟩
    · exact hold k (hsame k ▸ hk)
    · rcases hcopy.covered k hk with hk | ⟨l, hl, rfl⟩
      · exact hold k hk
      · exact Or.inr (hcopy.owned hG.wellFormed hE.relisted.wellFormed hyowned hl)
  case root =>
    intro z hz
    rcases List.mem_append.mp hz with hz | hz
    · exact hE.root z hz
    · rw [List.mem_singleton.mp hz]
      cases hyF : F.contains y with
      | false => exact above?_eq_none_of_not_contains hyF
      | true =>
        by_contra howned
        exact hE.relisted.owned (List.subset_append_left _ _) hyF howned hyroot
  case named =>
    intro z hz hzF
    rcases List.mem_append.mp hz with hz | hz
    · exact List.mem_append_left _ (hE.named z hz hzF)
    · obtain rfl := List.mem_singleton.mp hz
      rcases hstands with ⟨-, rfl, -⟩ | ⟨-, f, hcopy⟩
      · exact List.mem_append_right _ hz
      · exact absurd (hE.relisted.contains hzF) (by simp [hcopy.fresh_root])
  case listed =>
    intro z hz hzF hzroot
    by_cases hzxs : z ∈ xs
    · exact List.mem_append_left _ (hE.listed z hzxs hzF hzroot)
    · have hz : z ∈ [x] := (List.mem_append.mp hz).resolve_left hzxs
      obtain rfl := List.mem_singleton.mp hz
      have hfree : E.above? z = none :=
        (hE.above?_eq_none_iff hF hadmits.1).mpr ⟨⟨hzF, hzroot⟩, hzxs⟩
      rcases hstands with ⟨-, rfl, -⟩ | ⟨howned, -⟩
      · exact List.mem_append_right _ hz
      · exact absurd hfree howned

end Forest

/-! ## One addition after the other -/

namespace EditM
variable {C : Type} [ShallowCopy C] {s t u v : Session C} {e : Error} {p x y : Handle}
  {l xs ys zs : List Handle} {own : Handle → Prop} {i : Nat}

/-- From the session `s` on the nodes `xs` have been added to the children of `p`, one after the other,
and have become the nodes `ys` there. -/
inductive Adds (p : Handle) (s : Session C) : List Handle → List Handle → Session C → Prop where
  | nil : Adds p s [] [] s
  | snoc {t u : Session C} {xs ys : List Handle} {x y : Handle} :
      Adds p s xs ys t → addChild p x t = .ok y u → Adds p s (xs ++ [x]) (ys ++ [y]) u

theorem Adds.mapM (h : Adds p s xs ys t) : xs.mapM (addChild p) s = .ok ys t := by
  induction h with
  | nil => rfl
  | snoc _ hx ih =>
    rw [List.mapM_append, bind_of_ok _ ih, List.mapM_cons]
    have hlast := bind_of_ok (fun y => do return y :: (← [].mapM (addChild p))) hx
    rw [bind_of_ok _ hlast]
    rfl

theorem Adds.of_mapM (h : Adds p s l zs u) (hrun : xs.mapM (addChild p) u = .ok ys t) :
    Adds p s (l ++ xs) (zs ++ ys) t := by
  induction xs generalizing l zs u ys with
  | nil =>
    rw [List.mapM_nil] at hrun
    cases hrun
    rwa [List.append_nil, List.append_nil]
  | cons x xs ih =>
    rw [List.mapM_cons] at hrun
    obtain ⟨y, v, hx, hrest⟩ := bind_eq_ok.mp hrun
    obtain ⟨ys', w, hxs, hpure⟩ := bind_eq_ok.mp hrest
    cases hpure
    have hmore := ih (h.snoc hx) hxs
    rwa [List.append_assoc, List.append_assoc] at hmore

theorem Adds.of_mapM_error (h : Adds p s l zs u) (hrun : xs.mapM (addChild p) u = .error e t) :
    ∃ l' x rest zs' v, l ++ xs = l' ++ x :: rest ∧ Adds p s l' zs' v ∧
      addChild p x v = .error e t := by
  induction xs generalizing l zs u with
  | nil => exact nomatch hrun
  | cons x xs ih =>
    rw [List.mapM_cons] at hrun
    rcases bind_eq_error.mp hrun with hx | ⟨y, v, hx, hrest⟩
    · exact ⟨l, x, xs, zs, u, rfl, h, hx⟩
    · rcases bind_eq_error.mp hrest with hxs | ⟨ys', w, -, hpure⟩
      · obtain ⟨l', x', rest, zs', w, hl, hmore⟩ := ih (h.snoc hx) hxs
        rw [List.append_assoc] at hl
        exact ⟨l', x', rest, zs', w, hl, hmore⟩
      · exact nomatch hpure

theorem addChild_eq (hp : s.forest.contains p = true) (x : Handle) :
    addChild p x s = insertChild p (s.forest.below p).length x s := by
  simp only [addChild, bind_of_ok _ (query_numChildren hp)]

theorem getElem?_concat_eq_some {a b : Handle} (hb : (l ++ [a])[i]? = some b) :
    l[i]? = some b ∨ i = l.length ∧ a = b := by
  rcases Nat.lt_or_ge i l.length with hi | hi
  · rw [List.getElem?_append_left hi] at hb
    exact Or.inl hb
  · rw [List.getElem?_append_right hi, List.getElem?_singleton] at hb
    split at hb
    · exact Or.inr ⟨by omega, Option.some.inj hb⟩
    · exact nomatch hb

/-- How the nodes `xs` that have been added from the session `s` to the session `t` stand in the list `ys`
of new children. Those of `own` are there themselves where they are named for the first time; in any other
place there is a copy of the node as it stood when its turn came, which has not been touched since. -/
structure Entered (s t : Session C) (p : Handle) (own : Handle → Prop) (xs ys : List Handle) :
    Prop where
  length_eq : ys.length = xs.length
  itself : ∀ i x, xs[i]? = some x → own x → x ∉ xs.take i → ys[i]? = some x
  copied : ∀ i x, xs[i]? = some x → (own x → x ∈ xs.take i) →
    ∃ y u v f, ys[i]? = some y ∧ y ≠ x ∧ Adds p s (xs.take i) (ys.take i) u ∧
      addChild p x u = .ok y v ∧ u.forest.DeepCopy v.forest x y f ∧
        v.forest.Relisted t.forest p (t.forest.below p)

variable [RegularCopy C]

theorem addChild_eq_ok (hF : s.forest.WellFormed) (hp : s.forest.contains p = true)
    (hrun : addChild p x s = .ok y t) :
    s.forest.Admits (RegularCopy.copyable · = true) p x ∧ s.forest.StandsFor t.forest y x ∧
      s.forest.Relisted t.forest p (s.forest.below p ++ [y]) := by
  rw [addChild_eq hp] at hrun
  rcases insertChild_outcome hF p (s.forest.below p).length x with
    ⟨hadmits, z, u, hrun', hstands, hG⟩ | ⟨-, e, u, hrun', -⟩
  · obtain ⟨rfl, rfl⟩ := EStateM.Result.ok.inj (hrun.symm.trans hrun')
    rw [List.insertIdx_length_self] at hG
    exact ⟨hadmits, hstands, hG⟩
  · exact nomatch hrun.symm.trans hrun'

theorem addChild_eq_error (hF : s.forest.WellFormed) (hp : s.forest.contains p = true)
    (hrun : addChild p x s = .error e t) : t.forest.SameNodes s.forest := by
  rw [addChild_eq hp] at hrun
  rcases insertChild_outcome hF p (s.forest.below p).length x with
    ⟨-, z, u, hrun', -⟩ | ⟨-, e', u, hrun', hsame⟩
  · exact nomatch hrun.symm.trans hrun'
  · obtain ⟨-, rfl⟩ := EStateM.Result.error.inj (hrun.symm.trans hrun')
    exact hsame

theorem Adds.joined (h : Adds p s xs ys t) (hF : s.forest.WellFormed)
    (hp : s.forest.contains p = true) : s.forest.Joined t.forest p xs ys := by
  induction h with
  | nil => exact .refl hF p
  | snoc _ hx ih =>
    obtain ⟨hadmits, hstands, hG⟩ :=
      addChild_eq_ok ih.relisted.wellFormed (ih.relisted.contains hp) hx
    exact ih.snoc hF hstands hadmits hG

theorem Adds.entered (h : Adds p s xs ys t) (hF : s.forest.WellFormed)
    (hp : s.forest.contains p = true) :
    Entered s t p (fun x => s.forest.contains x = true ∧ s.forest.above? x = none) xs ys := by
  induction h with
  | nil => exact ⟨rfl, nofun, nofun⟩
  | @snoc t u xs ys x y h hx ih =>
    have hjoined := h.joined hF hp
    obtain ⟨hadmits, hstands, hG⟩ :=
      addChild_eq_ok hjoined.relisted.wellFormed (hjoined.relisted.contains hp) hx
    have hlength := ih.length_eq
    have hlast : (ys ++ [y])[xs.length]? = some y := by
      rw [← hlength, List.getElem?_concat_length]
    -- what was there before the last addition is at the same place after it
    have hearlier : ∀ {i : Nat} {z : Handle}, xs[i]? = some z →
        (xs ++ [x]).take i = xs.take i ∧ (ys ++ [y]).take i = ys.take i ∧
          (ys ++ [y])[i]? = ys[i]? := by
      intro i z hz
      obtain ⟨hi, -⟩ := List.getElem?_eq_some_iff.mp hz
      refine ⟨List.take_append_of_le_length (by omega), List.take_append_of_le_length (by omega), ?_⟩
      exact List.getElem?_append_left (by omega)
    constructor
    case length_eq => simp [hlength]
    case itself =>
      intro i z hz hown hfirst
      rcases getElem?_concat_eq_some hz with hz | ⟨rfl, rfl⟩
      · obtain ⟨htake, -, hget⟩ := hearlier hz
        rw [hget]
        rw [htake] at hfirst
        exact ih.itself i z hz hown hfirst
      · rw [List.take_left] at hfirst
        have hroot := (hjoined.above?_eq_none_iff hF hadmits.1).mpr ⟨hown, hfirst⟩
        rcases hstands with ⟨-, rfl, -⟩ | ⟨howned, -⟩
        · exact hlast
        · exact absurd hroot howned
    case copied =>
      intro i z hz hnot
      rcases getElem?_concat_eq_some hz with hz | ⟨rfl, rfl⟩
      · obtain ⟨htake, htake', hget⟩ := hearlier hz
        rw [htake] at hnot
        obtain ⟨w, u', v, f, hw, hne, hadds, hrun, hcopy, hlater⟩ := ih.copied i z hz hnot
        refine ⟨w, u', v, f, hget.trans hw, hne, ?_, hrun, hcopy, ?_⟩
        · rw [htake, htake']
          exact hadds
        · rw [hG.children]
          exact hlater.extend hG (List.subset_append_left _ _)
      · rw [List.take_left] at hnot
        have howned : t.forest.above? x ≠ none := by
          intro hroot
          obtain ⟨hown, hfirst⟩ := (hjoined.above?_eq_none_iff hF hadmits.1).mp hroot
          exact hfirst (hnot hown)
        rcases hstands with ⟨hroot, -⟩ | ⟨-, f, hcopy⟩
        · exact absurd hroot howned
        · refine ⟨y, t, u, f, hlast, ?_, ?_, hx, hcopy, .refl hG.wellFormed p⟩
          · exact (Forest.ne_of_contains hadmits.1 hcopy.fresh_root).symm
          · rw [List.take_left, List.take_left' hlength]
            exact h

/-! ## Adding and setting children -/

/-- How the children of `p` come to be the children `former`, which stay, and the nodes `xs`, which are
added from the session `v` on. -/
structure Fills (fill : EditM C (List Handle)) (s v : Session C) (p : Handle) (former : List Handle)
    (own : Handle → Prop) (xs : List Handle) : Prop where
  ok : ∀ ys t, fill s = .ok ys t →
    s.forest.Relisted t.forest p (former ++ ys) ∧ Entered v t p own xs ys
  /-- if a node is refused, those named before it have been added, and it has left no trace -/
  error : ∀ e t, fill s = .error e t → ∃ l x rest ys u, xs = l ++ x :: rest ∧ Adds p v l ys u ∧
    addChild p x u = .error e t ∧ t.forest.SameNodes u.forest ∧
      s.forest.Relisted t.forest p (former ++ ys) ∧ Entered v u p own l ys

def AddsChildren (s : Session C) (p : Handle) (xs : List Handle) : Prop :=
  ∃ v, v.forest = s.forest ∧ Fills (addChildren p xs) s v p (s.forest.below p)
    (fun x => s.forest.contains x = true ∧ s.forest.above? x = none) xs

structure SetsChildren (s : Session C) (p : Handle) (xs : List Handle) : Prop where
  fills : ∃ v, removeChildren p s = .ok (s.forest.below p) v ∧ Fills (setChildren p xs) s v p []
    (fun x => s.forest.contains x = true ∧ (x ∈ s.forest.below p ∨ s.forest.above? x = none)) xs
  released : ∀ ys t, setChildren p xs s = .ok ys t → ∀ c ∈ s.forest.below p, c ∉ xs →
    s.forest.Released t.forest c
  /-- the own children in another order are all there themselves, and no node is new -/
  reorder : xs.Perm (s.forest.below p) →
    ∃ t, setChildren p xs s = .ok xs t ∧ ∀ k, t.forest.contains k = s.forest.contains k

theorem fills_of_mapM {fill : EditM C (List Handle)} {former : List Handle}
    (hfill : fill s = xs.mapM (addChild p) v) (hp : s.forest.contains p = true)
    (hv : s.forest.Relisted v.forest p former)
    (hown : ∀ x, (v.forest.contains x = true ∧ v.forest.above? x = none) ↔ own x) :
    Fills fill s v p former own xs := by
  obtain rfl : (fun x => v.forest.contains x = true ∧ v.forest.above? x = none) = own :=
    funext fun x => propext (hown x)
  have hpv := hv.contains hp
  have hrelisted : ∀ {l zs : List Handle} {u : Session C}, Adds p v l zs u →
      s.forest.Relisted u.forest p (former ++ zs) := by
    intro l zs u h
    have hu := (h.joined hv.wellFormed hpv).relisted
    rw [hv.children] at hu
    exact hv.extend hu (List.subset_append_left _ _)
  constructor
  case ok =>
    intro ys t hrun
    have hadds : Adds p v xs ys t := Adds.nil.of_mapM (hfill.symm.trans hrun)
    exact ⟨hrelisted hadds, hadds.entered hv.wellFormed hpv⟩
  case error =>
    intro e t hrun
    obtain ⟨l, x, rest, zs, u, hl, hadds, hx⟩ :=
      Adds.nil.of_mapM_error (hfill.symm.trans hrun)
    have hu := hrelisted hadds
    have hsame := addChild_eq_error hu.wellFormed (hu.contains hp) hx
    exact ⟨l, x, rest, zs, u, hl, hadds, hx, hsame, hu.congr hsame,
      hadds.entered hv.wellFormed hpv⟩

omit [RegularCopy C] in
/-- But for the notice that may be raised, adding children is one addition after the other. -/
theorem addChildren_eq (hp : s.forest.contains p = true) (xs : List Handle) :
    ∃ v, v.forest = s.forest ∧ addChildren p xs s = xs.mapM (addChild p) v := by
  cases hempty : xs.isEmpty with
  | true => exact ⟨s, rfl, by simp [addChildren, hempty]⟩
  | false =>
    by_cases hsame : s.forest.below p = xs
    · refine ⟨{ s with notices := s.notices ++ [.ownChildrenAdded (s.forest.describe p)] }, rfl, ?_⟩
      simp only [addChildren, hempty, Bool.not_false, if_true, bind_of_ok _ (query_children hp),
        if_pos hsame]
      rfl
    · refine ⟨s, rfl, ?_⟩
      simp only [addChildren, hempty, Bool.not_false, if_true, bind_of_ok _ (query_children hp),
        if_neg hsame]

theorem addsChildren (hF : s.forest.WellFormed) (hp : s.forest.contains p = true)
    (xs : List Handle) : AddsChildren s p xs := by
  obtain ⟨v, hv, hfill⟩ := addChildren_eq hp xs
  refine ⟨v, hv, fills_of_mapM hfill hp ?_ ?_⟩
  · rw [hv]
    exact .refl hF p
  · intro x
    rw [hv]

/-- Roots that are not above the parent are added themselves. -/
theorem adds_roots (hF : s.forest.WellFormed) (hp : s.forest.contains p = true) (hnd : xs.Nodup)
    (hxs : ∀ x ∈ xs, s.forest.contains x = true ∧ s.forest.above? x = none ∧
      ¬ s.forest.Covers x p) :
    ∃ t, Adds p s xs xs t ∧ ∀ k, t.forest.contains k = s.forest.contains k := by
  induction xs using List.reverseRecOn with
  | nil => exact ⟨s, .nil, fun _ => rfl⟩
  | append_singleton l x ih =>
    obtain ⟨hl, -, hnot⟩ := List.nodup_append.mp hnd
    have hxl : x ∉ l := fun hm => hnot x hm x List.mem_cons_self rfl
    obtain ⟨u, hadds, hu⟩ := ih hl fun y hy => hxs y (List.mem_append_left _ hy)
    obtain ⟨hx, hroot, hcovers⟩ := hxs x (List.mem_append_right _ List.mem_cons_self)
    have hjoined := hadds.joined hF hp
    have hpu := hjoined.relisted.contains hp
    have hxu := hjoined.relisted.contains hx
    have hrootu := (hjoined.above?_eq_none_iff hF hxu).mpr ⟨⟨hx, hroot⟩, hxl⟩
    have hrun := insertChild_of_root hjoined.relisted.wellFormed hpu (Nat.le_refl _) hxu hrootu
      fun hc => hcovers (hjoined.relisted.covers_parent hp hF hc)
    rw [← addChild_eq hpu] at hrun
    refine ⟨_, hadds.snoc hrun, ?_⟩
    intro k
    rw [Session.forest_withForest, Forest.contains_link, hu]

theorem setsChildren (hF : s.forest.WellFormed) (hp : s.forest.contains p = true)
    (xs : List Handle) : SetsChildren s p xs := by
  obtain ⟨G, hremove, hG⟩ := removeChildren_run hF hp
  have hfill : setChildren p xs s = xs.mapM (addChild p) (s.withForest G) :=
    bind_of_ok _ (discard_of_ok hremove)
  have hempty : s.forest.Relisted G p [] := by
    have hrelisted := hG.relisted hF fun c hc => hc
    rwa [Forest.filter_not_mem_self] at hrelisted
  have hpG := hempty.contains hp
  constructor
  case fills =>
    refine ⟨_, hremove, fills_of_mapM hfill hp hempty ?_⟩
    intro x
    rw [Session.forest_withForest, hG.contains_eq, hG.above?_eq]
    split <;> simp [*]
  case released =>
    intro ys t hrun c hc hcxs
    have hadds : Adds p (s.withForest G) xs ys t := Adds.nil.of_mapM (hfill.symm.trans hrun)
    have hjoined := hadds.joined hempty.wellFormed hpG
    have hrelisted : s.forest.Relisted t.forest p ys := by
      refine hempty.extend ?_ (List.nil_subset ys)
      have hlist := hjoined.relisted
      rwa [Session.forest_withForest, hempty.children, List.nil_append] at hlist
    apply hrelisted.released hF hc
    · intro hm
      exact hcxs (hjoined.named c hm (hempty.contains (hF.contains_of_mem_below hc)))
    · intro h hm
      have hroot := hjoined.root h hm
      rw [Session.forest_withForest, hG.above?_eq] at hroot
      split at hroot
      · rename_i hin
        exact Or.inl hin
      · exact Or.inr hroot
  case reorder =>
    intro hperm
    obtain ⟨t, hadds, ht⟩ := adds_roots (s := s.withForest G) hempty.wellFormed hpG
      (hperm.nodup_iff.mpr (hF.nodup_below p)) (by
        intro x hx
        have hxp : x ∈ s.forest.below p := hperm.mem_iff.mp hx
        refine ⟨hempty.contains (hF.contains_of_mem_below hxp), ?_, ?_⟩
        · rw [Session.forest_withForest, hG.above?_eq, if_pos hxp]
        · intro hc
          exact hF.not_covers_of_over (hF.above?_eq_some_iff.mpr hxp) (hG.covers hc))
    refine ⟨t, hfill.trans hadds.mapM, ?_⟩
    intro k
    rw [ht, Session.forest_withForest, hG.contains_eq]

end EditM

/-- The children of any node can be added to and be set, with labels as with plain contents. -/
theorem fills_children :
    (∀ s : Session Label, s.forest.WellFormed → ∀ p, s.forest.contains p = true → ∀ xs,
      EditM.AddsChildren s p xs ∧ EditM.SetsChildren s p xs) ∧
    ∀ s : Session Plain, s.forest.WellFormed → ∀ p, s.forest.contains p = true → ∀ xs,
      EditM.AddsChildren s p xs ∧ EditM.SetsChildren s p xs :=
  ⟨fun _ hF _ hp xs => ⟨EditM.addsChildren hF hp xs, EditM.setsChildren hF hp xs⟩,
    fun _ hF _ hp xs => ⟨EditM.addsChildren hF hp xs, EditM.setsChildren hF hp xs⟩⟩

def Session.coppice : Session Label := (Session.fresh Label {}).after
  [.create ⟨.block, "a"⟩, .create ⟨.block, "b"⟩, .create ⟨.leaf, "c"⟩, .create ⟨.leaf, "d"⟩,
    .create ⟨.leaf, "e"⟩, .create ⟨.leaf, "f"⟩, .addChildren ⟨1, 0⟩ [⟨2, 0⟩, ⟨3, 0⟩],
    .addChildren ⟨0, 0⟩ [⟨1, 0⟩, ⟨4, 0⟩]]

/-- The second block keeps one of its leaves and gets the root; the leaf that has another parent, the one
that is named again and the block itself are copied. The leaf that is not named is a root in the end. -/
theorem fills_children_coppice :
    Session.coppice.forest.WellFormed ∧ Session.coppice.forest.contains ⟨1, 0⟩ = true ∧
      ∃ t, EditM.setChildren ⟨1, 0⟩ [⟨3, 0⟩, ⟨4, 0⟩, ⟨5, 0⟩, ⟨3, 0⟩, ⟨1, 0⟩] Session.coppice =
          .ok [⟨3, 0⟩, ⟨6, 0⟩, ⟨5, 0⟩, ⟨7, 0⟩, ⟨8, 0⟩] t ∧
        Session.coppice.forest.Released t.forest ⟨2, 0⟩ := by
  have hF : Session.coppice.forest.WellFormed :=
    Session.wellFormed_after (Forest.wellFormed_empty {}) _
  have hvalue : (match EditM.setChildren ⟨1, 0⟩ [⟨3, 0⟩, ⟨4, 0⟩, ⟨5, 0⟩, ⟨3, 0⟩, ⟨1, 0⟩]
      Session.coppice with
    | .ok ys _ => ys
    | .error _ _ => []) = [⟨3, 0⟩, ⟨6, 0⟩, ⟨5, 0⟩, ⟨7, 0⟩, ⟨8, 0⟩] := by decide +kernel
  obtain ⟨-, hsets⟩ := fills_children.1 Session.coppice hF ⟨1, 0⟩ rfl
    [⟨3, 0⟩, ⟨4, 0⟩, ⟨5, 0⟩, ⟨3, 0⟩, ⟨1, 0⟩]
  cases hrun : EditM.setChildren ⟨1, 0⟩ [⟨3, 0⟩, ⟨4, 0⟩, ⟨5, 0⟩, ⟨3, 0⟩, ⟨1, 0⟩]
      Session.coppice with
  | error e t =>
    rw [hrun] at hvalue
    exact nomatch hvalue
  | ok ys t =>
    rw [hrun] at hvalue
    obtain rfl := hvalue
    exact ⟨hF, rfl, t, rfl, hsets.released _ t hrun ⟨2, 0⟩ (by decide) (by decide)⟩

end Grove
