import Grove.Proofs.Edit.Branch

/-!
# Copies as walks

A deep copy keeps a pending list of nodes to be copied. If the copy hook leaves the nodes that it
finds alone, a pending list that begins with the tops of a stand is worked off by copying the stand,
tree by tree. So a copy in a branching forest takes each node of the subtree at most once, and ends.
-/

namespace Grove
set_option autoImplicit false

/-- A copy of `h` that leaves the nodes that it finds as they are and is a new node or the source, or
else fails, but not for a walk without end. -/
def EditM.Tidy {C : Type} (s : Session C) (h : Handle) (x : EditM C Handle) : Prop :=
  (∃ c t, x s = .ok c t ∧ s.forest.Extends t.forest ∧ (c = h ∨ s.forest.contains c = false)) ∨
    ∃ e t, x s = .error e t ∧ e ≠ .endlessWalk

/-- Contents whose copy hook is tidy in branching forests. -/
class TidyCopy (C : Type) [ShallowCopy C] : Prop where
  tidy : ∀ {s : Session C} (h : Handle), s.forest.Branching → EditM.Tidy s h (EditM.copyShallow h)

theorem TidyCopy.ends {C : Type} [ShallowCopy C] [TidyCopy C] {s t : Session C} {h : Handle}
    (hF : s.forest.Branching) : EditM.copyShallow h s ≠ .error .endlessWalk t := by
  intro hrun
  rcases TidyCopy.tidy h hF with ⟨c, u, hok, -⟩ | ⟨e, u, herror, hne⟩
  · rw [hok] at hrun
    exact nomatch hrun
  · rw [herror] at hrun
    cases hrun
    exact hne rfl

theorem TidyCopy.extends_of_ok {C : Type} [ShallowCopy C] [TidyCopy C] {s t : Session C}
    {h c : Handle} (hF : s.forest.Branching) (hrun : EditM.copyShallow h s = .ok c t) :
    s.forest.Extends t.forest ∧ (c = h ∨ s.forest.contains c = false) := by
  rcases TidyCopy.tidy h hF with ⟨d, u, hok, hext, hor⟩ | ⟨e, u, herror, -⟩
  · rw [hok] at hrun
    cases hrun
    exact ⟨hext, hor⟩
  · rw [herror] at hrun
    exact nomatch hrun

namespace Forest
variable {C : Type} {F : Forest C} {k p x : Handle}

theorem ensureAcyclic_of_childless [Content C] (hx : F.contains x = true) (hne : p ≠ x)
    (hleaf : F.below x = []) : F.ensureAcyclic p x = .ok () := by
  have hpx : (p == x) = false := by simpa using hne
  simp only [ensureAcyclic, hpx, hasChildren_of_contains hx, hleaf]
  rfl

end Forest

namespace EditM
variable {C : Type} {s t u : Session C} {c h k p target x : Handle} {b r : Stand} {e : Error}

theorem onFailure_congr {α : Type} {x y : EditM C α} (cleanup : EditM C Unit) (hxy : x s = y s) :
    onFailure x cleanup s = onFailure y cleanup s := by
  simp only [onFailure, tryCatch, tryCatchThe, MonadExceptOf.tryCatch, EStateM.tryCatch, hxy]

/-- What holds while the nodes of `F` are copied below a new node. -/
structure Copying (F : Forest C) (s : Session C) (target : Handle) : Prop where
  branching : s.forest.Branching
  old : F.Extends s.forest
  fresh : F.contains target = false
  contains : s.forest.contains target = true

theorem Copying.back {F : Forest C} (hs : Copying F s target) (ht : Copying F t c)
    (hlive : t.forest.contains target = true) : Copying F t target :=
  ⟨ht.branching, ht.old, hs.fresh, hlive⟩

variable [ShallowCopy C]

/-- What fails under a cleanup that does not fail has failed without it. -/
theorem onFailure_release_eq_error {α : Type} {x : EditM C α}
    (hrun : onFailure x (release c) s = .error e t) : ∃ u, x s = .error e u := by
  cases hx : x s with
  | ok a u =>
    rw [onFailure_of_ok _ hx] at hrun
    exact nomatch hrun
  | error e' u =>
    obtain ⟨v, hv⟩ := release_run c u
    rw [onFailure_of_error hx hv] at hrun
    cases hrun
    exact ⟨u, rfl⟩

theorem attachLast_of_childless (hp : s.forest.contains p = true)
    (hx : s.forest.contains x = true) (hroot : s.forest.above? x = none)
    (hleaf : s.forest.below x = []) (hne : p ≠ x) :
    attachLast p x s =
      .ok () (s.withForest (s.forest.link p (s.forest.below p).length x)) := by
  have hpass := Forest.ensureAcyclic_of_childless hx hne hleaf
  rw [attachLast, bind_of_ok _ (query_numChildren hp)]
  exact attach_of_passed hp hx hroot hpass (Nat.le_refl _)

theorem attachLast_aside {F : Forest C} (hext : F.Extends s.forest) (hpF : F.contains p = false)
    (hxF : F.contains x = false) (hp : s.forest.contains p = true)
    (hx : s.forest.contains x = true) (hroot : s.forest.above? x = none)
    (hleaf : s.forest.below x = []) (hne : p ≠ x) :
    ∃ t, attachLast p x s = .ok () t ∧ F.Extends t.forest ∧
      ∀ k, t.forest.contains k = s.forest.contains k := by
  refine ⟨_, attachLast_of_childless hp hx hroot hleaf hne, ⟨fun k hk => ?_, hext.settings⟩,
    fun k => Forest.contains_link _ _ _ _ k⟩
  have hkp : k ≠ p := Forest.ne_of_contains hk hpF
  have hkx : k ≠ x := Forest.ne_of_contains hk hxF
  rw [Session.forest_withForest, Forest.get?_link hp hx hkp hkx, hext.get? k hk]

/-! ## Copying a stand -/

/-- Copies the nodes of a stand, each below the copy of the one above it, and the tops below a
target. -/
def copyStand : Stand → Handle → EditM C Unit
  | .bare, _ => return ()
  | .tree h b r, target => do
    let copy ← copyBare h
    onFailure (attachLast target copy) (release copy)
    copyStand b copy
    copyStand r target

/-- A deep copy along the stand below its source. -/
def copyAlong (st : Stand) (source : Handle) : EditM C Handle := do
  let root ← copyBare source
  onFailure (copyStand st root) (release root)
  return root

theorem copyStand_of_ok (hcopy : copyBare h s = .ok c t) (hattach : attachLast target c t = .ok () u) :
    copyStand (.tree h b r) target s = (copyStand b c >>= fun _ => copyStand r target) u := by
  rw [copyStand, bind_of_ok _ hcopy, bind_of_ok _ (onFailure_of_ok _ hattach)]

theorem copyStand_of_error (hcopy : copyBare h s = .error e t) :
    copyStand (.tree h b r) target s = .error e t := by
  rw [copyStand, bind_of_error _ hcopy]

section
variable [TidyCopy C]

theorem copyBare_ne_endlessWalk (hF : s.forest.Branching) :
    copyBare h s ≠ .error .endlessWalk t := by
  intro hrun
  rcases bind_eq_error.mp hrun with hcopy | ⟨b, u, -, hcheck⟩
  · exact TidyCopy.ends hF hcopy
  rcases bind_eq_error.mp hcheck with hnode | ⟨n, v, -, hrest⟩
  · cases hb : u.forest.contains b with
    | true =>
      obtain ⟨n, -, hq⟩ := query_node hb
      rw [hq] at hnode
      exact nomatch hnode
    | false =>
      rw [query_node_of_not_contains hb] at hnode
      exact nomatch hnode
  · dsimp only at hrest
    split at hrest
    · obtain ⟨w, hw⟩ := release_run b v
      rw [bind_of_ok _ (describe_run b v), bind_of_ok _ hw, bind_of_error _ (throw_run _ w)] at hrest
      exact nomatch hrest
    · exact nomatch hrest

end

variable [BuiltCopy C] [TidyCopy C] {F : Forest C} {st : Stand}

/-- The copy of a node with a parent is new, and can be attached to the target. -/
theorem Copying.attach (hs : Copying F s target) (howned : F.above? h ≠ none)
    (hcopy : copyBare h s = .ok c t) :
    ∃ u, attachLast target c t = .ok () u ∧ Copying F u target ∧ Copying F u c ∧
      ∀ k, s.forest.contains k = true → u.forest.contains k = true := by
  obtain ⟨hshallow, hc, hroot, hleaf⟩ := copyBare_eq_ok hcopy
  obtain ⟨hext, hor⟩ := TidyCopy.extends_of_ok hs.branching hshallow
  have ht : t.forest.Branching :=
    (hookLaw_keepsBranching.linkLaw.copyBare h).of_ok hcopy hs.branching
  have hold := hs.old.trans hext
  have hnew : s.forest.contains c = false := by
    rcases hor with rfl | hnew
    · obtain ⟨p, hp⟩ := Option.ne_none_iff_exists'.mp howned
      rw [hold.above?_eq (Forest.contains_of_above? hp)] at hroot
      exact absurd hroot howned
    · exact hnew
  have hne : target ≠ c := Forest.ne_of_contains hs.contains hnew
  have htarget := hext.contains hs.contains
  have hcF := hs.old.not_contains hnew
  obtain ⟨u, hrun, hextu, hlive⟩ := attachLast_aside hold hs.fresh hcF htarget hc hroot hleaf hne
  have hu := (hookLaw_keepsBranching.attachLast target c).of_ok hrun ht
  refine ⟨u, hrun, ⟨hu, hextu, hs.fresh, ?_⟩, ⟨hu, hextu, hcF, ?_⟩, fun k hk => ?_⟩
  · rw [hlive, htarget]
  · rw [hlive, hc]
  · rw [hlive, hext.contains hk]

theorem Copying.stand (hs : Copying F s target) (howned : ∀ k ∈ st.handles, F.above? k ≠ none)
    (hrun : copyStand st target s = .ok () t) :
    Copying F t target ∧ ∀ k, s.forest.contains k = true → t.forest.contains k = true := by
  induction st generalizing s t target with
  | bare =>
    cases hrun
    exact ⟨hs, fun _ hk => hk⟩
  | tree h b r ihb ihr =>
    cases hcopy : copyBare h s with
    | error e u =>
      rw [copyStand_of_error hcopy] at hrun
      exact nomatch hrun
    | ok c u =>
      obtain ⟨v, hattach, htarget, hc, hlive⟩ := hs.attach (howned h List.mem_cons_self) hcopy
      rw [copyStand_of_ok hcopy hattach] at hrun
      obtain ⟨_, w, hbelow, hbeside⟩ := bind_eq_ok.mp hrun
      obtain ⟨hw, hliveb⟩ := ihb hc (fun k hk => howned k (by simp [Stand.handles, hk])) hbelow
      obtain ⟨ht, hliver⟩ := ihr (hs.back hw (hliveb target htarget.contains))
        (fun k hk => howned k (by simp [Stand.handles, hk])) hbeside
      exact ⟨ht, fun k hk => hliver k (hliveb k (hlive k hk))⟩

theorem Copying.stand_ne_endlessWalk (hs : Copying F s target)
    (howned : ∀ k ∈ st.handles, F.above? k ≠ none) :
    copyStand st target s ≠ .error .endlessWalk t := by
  induction st generalizing s t target with
  | bare => exact fun hrun => nomatch hrun
  | tree h b r ihb ihr =>
    intro hrun
    cases hcopy : copyBare h s with
    | error e u =>
      rw [copyStand_of_error hcopy] at hrun
      cases hrun
      exact copyBare_ne_endlessWalk hs.branching hcopy
    | ok c u =>
      obtain ⟨v, hattach, htarget, hc, -⟩ := hs.attach (howned h List.mem_cons_self) hcopy
      have hownedb : ∀ k ∈ b.handles, F.above? k ≠ none := fun k hk =>
        howned k (by simp [Stand.handles, hk])
      rw [copyStand_of_ok hcopy hattach] at hrun
      rcases bind_eq_error.mp hrun with hbelow | ⟨_, w, hbelow, hbeside⟩
      · exact ihb hc hownedb hbelow
      · obtain ⟨hw, hliveb⟩ := hc.stand hownedb hbelow
        exact ihr (hs.back hw (hliveb target htarget.contains))
          (fun k hk => howned k (by simp [Stand.handles, hk])) hbeside

/-- A pending list that begins with the tops of a stand is worked off by copying the stand. -/
theorem Copying.pending (hs : Copying F s target) (hst : F.Bears st)
    (howned : ∀ k ∈ st.handles, F.above? k ≠ none) (n : Nat)
    (pending : List (Handle × Handle)) :
    copyPending (st.handles.length + n) (st.tops.map (·, target) ++ pending) s =
      (copyStand st target >>= fun _ => copyPending n pending) s := by
  induction st generalizing s target n pending with
  | bare =>
    rw [Stand.handles, List.length_nil, Nat.zero_add]
    rfl
  | tree h b r ihb ihr =>
    obtain ⟨hh, hbelow, hb, hr⟩ := hst
    have hlen : (Stand.tree h b r).handles.length + n =
        b.handles.length + (r.handles.length + n) + 1 := by
      rw [Stand.handles, List.length_cons, List.length_append]
      omega
    rw [hlen, Stand.tops, List.map_cons, List.cons_append]
    cases hcopy : copyBare h s with
    | error e u =>
      have hstop : copyPending (b.handles.length + (r.handles.length + n) + 1)
          ((h, target) :: (r.tops.map (·, target) ++ pending)) s = .error e u := by
        simp only [copyPending, bind_of_error _ hcopy]
      rw [hstop, bind_of_error _ (copyStand_of_error hcopy)]
    | ok c u =>
      obtain ⟨v, hattach, htarget, hc, -⟩ := hs.attach (howned h List.mem_cons_self) hcopy
      have hownedb : ∀ k ∈ b.handles, F.above? k ≠ none := fun k hk =>
        howned k (by simp [Stand.handles, hk])
      have hkids := query_children (hc.old.contains hh)
      rw [hc.old.below_eq hh, hbelow] at hkids
      rw [copyPending_cons _ _ hcopy hattach hkids, ihb hc hb hownedb]
      have hfirst := copyStand_of_ok (b := b) (r := r) hcopy hattach
      cases hdown : copyStand b c v with
      | error e w =>
        rw [bind_of_error _ hdown] at hfirst ⊢
        rw [bind_of_error _ hfirst]
      | ok _ w =>
        obtain ⟨hw, hliveb⟩ := hc.stand hownedb hdown
        rw [bind_of_ok _ hdown] at hfirst ⊢
        rw [ihr (hs.back hw (hliveb target htarget.contains)) hr
          fun k hk => howned k (by simp [Stand.handles, hk])]
        simp only [bind, EStateM.bind, hfirst]

/-! ## Deep copies -/

theorem copy_eq_copyAlong (hF : s.forest.Branching) (hb : s.forest.Bears b)
    (htops : b.tops = s.forest.below h) (hnd : b.handles.Nodup)
    (howned : ∀ k ∈ b.handles, s.forest.above? k ≠ none) (hh : s.forest.contains h = true) :
    copy h s = copyAlong b h s ∧ ∀ t, copy h s ≠ .error .endlessWalk t := by
  cases hcopy : copyBare h s with
  | error e u =>
    have hrun : copy h s = .error e u := by rw [copy, bind_of_error _ hcopy]
    refine ⟨hrun.trans (by rw [copyAlong, bind_of_error _ hcopy]), fun t ht => ?_⟩
    rw [hrun] at ht
    cases ht
    exact copyBare_ne_endlessWalk hF hcopy
  | ok c u =>
    obtain ⟨hshallow, hc, -, hleaf⟩ := copyBare_eq_ok hcopy
    obtain ⟨hext, hor⟩ := TidyCopy.extends_of_ok hF hshallow
    have hu : u.forest.Branching := (hookLaw_keepsBranching.linkLaw.copyBare h).of_ok hcopy hF
    have hbelow : copyBelow h c u = copyStand b c u ∧
        ∀ t, copyStand b c u ≠ .error .endlessWalk t := by
      rw [copyBelow_eq (hext.contains hh), hext.below_eq hh, ← htops]
      rcases hor with rfl | hnew
      · -- a source that is handed back has no children
        rw [hext.below_eq hh, ← htops] at hleaf
        cases b with
        | bare => exact ⟨by cases u.forest.nodes.capacity <;> rfl, fun t ht => by cases ht⟩
        | tree top b r => cases hleaf
      · have hstart : Copying s.forest u c := ⟨hu, hext, hnew, hc⟩
        have hle : b.handles.length ≤ u.forest.nodes.capacity :=
          Nat.le_trans (Forest.length_le_size hnd fun k hk => hext.contains (hb.contains hk))
            (Forest.size_le_capacity _)
        have hwalk := hstart.pending hb howned (u.forest.nodes.capacity - b.handles.length) []
        rw [Nat.add_sub_cancel' hle, List.append_nil] at hwalk
        refine ⟨hwalk.trans ?_, fun t => hstart.stand_ne_endlessWalk howned⟩
        cases hrun : copyStand b c u with
        | ok _ v =>
          rw [bind_of_ok _ hrun]
          cases u.forest.nodes.capacity - b.handles.length <;> rfl
        | error e v => rw [bind_of_error _ hrun]
    have hguard := onFailure_congr (release c) hbelow.1
    have hsame : copy h s = copyAlong b h s := by
      rw [copy, copyAlong, bind_of_ok _ hcopy, bind_of_ok _ hcopy]
      simp only [bind, EStateM.bind, hguard]
    refine ⟨hsame, fun t ht => ?_⟩
    rw [hsame, copyAlong, bind_of_ok _ hcopy] at ht
    rcases bind_eq_error.mp ht with hfail | ⟨_, v, -, hpure⟩
    · obtain ⟨w, hw⟩ := onFailure_release_eq_error hfail
      exact hbelow.2 w hw
    · cases hpure

end EditM
end Grove
