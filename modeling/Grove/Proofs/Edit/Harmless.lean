import Grove.Proofs.Edit.Relist
import Grove.Proofs.Edit.Trade
import Grove.Proofs.Edit.Transplant
import Grove.Proofs.Integrity

/-!
# Failures without trace

An edit of one place either succeeds or leaves all nodes as they were. What can fail is asked before
the first link is written; a copy that fails half way is taken out again; and a move that has taken a
node out cannot fail to put it in. Only for the nodes that an edit makes copies of does it matter what
the copy hook does, and there it is enough that their contents are clean.
-/

namespace Grove
set_option autoImplicit false

namespace EditM
variable {C α β : Type} {s t : Session C}

/-- If an edit fails in a session, all nodes are as they were before. -/
def Harmless (x : EditM C α) (s : Session C) : Prop :=
  ∀ e t, x s = .error e t → t.forest.SameNodes s.forest

namespace Harmless

theorem of_ok {x : EditM C α} {a : α} (hx : x s = .ok a t) : Harmless x s := by
  intro e u he
  rw [hx] at he
  exact nomatch he

theorem of_error {x : EditM C α} {e : Error} (hx : x s = .error e t)
    (hsame : t.forest.SameNodes s.forest) : Harmless x s := by
  intro e' u he
  rw [hx] at he
  cases he
  exact hsame

theorem congr {x y : EditM C α} (hy : Harmless y s) (hxy : x s = y s) : Harmless x s :=
  fun e t he => hy e t (hxy ▸ he)

theorem query_bind {q : Forest C → Except Error α} {f : α → EditM C β}
    (hf : ∀ a, q s.forest = .ok a → Harmless (f a) s) : Harmless (query q >>= f) s := by
  cases hq : q s.forest with
  | ok a => exact (hf a hq).congr (bind_of_ok f (query_of_ok hq))
  | error e => exact of_error (bind_of_error f (query_of_error hq)) (.refl _)

theorem look_bind {g : Forest C → α} {f : α → EditM C β} (hf : Harmless (f (g s.forest)) s) :
    Harmless (look g >>= f) s :=
  hf.congr (bind_of_ok f (look_run g s))

theorem describe_bind [Content C] {h : Handle} {f : String → EditM C β}
    (hf : Harmless (f (s.forest.describe h)) s) : Harmless (describe h >>= f) s :=
  hf.congr (bind_of_ok f (describe_run h s))

theorem throw (e : Error) : Harmless (throw e : EditM C α) s :=
  of_error (throw_run e s) (.refl _)

theorem pure (a : α) : Harmless (pure a : EditM C α) s := of_ok (pure_run a s)

theorem bind {x : EditM C α} {f : α → EditM C β} (hx : Harmless x s)
    (hf : ∀ a t, x s = .ok a t → ∃ b u, f a t = .ok b u) : Harmless (x >>= f) s := by
  intro e t he
  rcases bind_eq_error.mp he with h | ⟨a, u, hxu, hfu⟩
  · exact hx e t h
  · obtain ⟨b, v, hok⟩ := hf a u hxu
    rw [hok] at hfu
    exact nomatch hfu

theorem map {x : EditM C α} (f : α → β) (hx : Harmless x s) : Harmless (f <$> x) s := by
  intro e t he
  cases h : x s with
  | ok a u =>
    rw [map_of_ok f h] at he
    exact nomatch he
  | error e' u =>
    rw [map_of_error f h] at he
    cases he
    exact hx _ _ h

theorem discard {x : EditM C α} (hx : Harmless x s) : Harmless (discard x) s := hx.map _

theorem checked {p : Prop} [Decidable p] {x : EditM C α} (fault : Forest C → Error)
    (hx : ¬ p → Harmless x s) :
    Harmless (if p then look fault >>= fun e => (MonadExcept.throw e : EditM C PUnit) >>= fun _ => x
      else x) s := by
  by_cases hp : p
  · rw [if_pos hp]
    exact look_bind (of_error (bind_of_error _ (throw_run _ s)) (.refl _))
  · rw [if_neg hp]
    exact hx hp

end Harmless

theorem harmless_query (q : Forest C → Except Error α) : Harmless (query q) s := by
  cases hq : q s.forest with
  | ok a => exact .of_ok (query_of_ok hq)
  | error e => exact .of_error (query_of_error hq) (.refl _)

/-! ## Linking edits and copies -/

theorem Sprouts.harmless {x : EditM C Handle} (hx : Sprouts x s) : Harmless x s := by
  rcases hx with ⟨c, t, hrun, -⟩ | ⟨e, t, hrun, hsame⟩
  · exact .of_ok hrun
  · exact .of_error hrun hsame

theorem harmless_setContent (h : Handle) (f : C → C) : Harmless (setContent h f) s := by
  cases hh : s.forest.contains h with
  | false => exact .of_error (setContent_of_not_contains f hh) (.refl _)
  | true => exact .of_ok (setContent_of_contains f hh)

section
variable [Content C]

theorem harmless_removeChild (hF : s.forest.WellFormed) (p : Handle) (i : Nat) :
    Harmless (removeChild p i) s := by
  cases hi : (s.forest.below p)[i]? with
  | none =>
    obtain ⟨e, hrun⟩ := removeChild_of_getElem?_eq_none hi
    exact .of_error hrun (.refl _)
  | some c => exact .of_ok (removeChild_of_getElem? hF hi)

theorem harmless_removeChildNode (hF : s.forest.WellFormed) (p c : Handle) :
    Harmless (removeChildNode p c) s := by
  refine .query_bind fun index? _ => ?_
  cases index? with
  | some i =>
    exact .bind (harmless_removeChild hF p i).discard fun _ t _ => ⟨some i, t, pure_run _ t⟩
  | none => exact .describe_bind (.of_ok (bind_of_ok _ (notify_run _ s)))

theorem harmless_removeChildrenRange (hF : s.forest.WellFormed) (p : Handle) (start stop : Nat) :
    Harmless (removeChildrenRange p start stop) s := by
  refine .query_bind fun len hlen => .checked _ fun h₁ => .checked _ fun h₂ => ?_
  have hlen' := (Forest.numChildren_eq_ok hlen).2
  obtain ⟨G, hrun, -⟩ := removeSlice_run (p := p) (i := start) (n := stop - start) hF (by omega)
  exact .of_ok hrun

theorem harmless_detach (hF : s.forest.WellFormed) (h : Handle) : Harmless (detach h) s := by
  cases hh : s.forest.contains h with
  | false => exact .of_error (detach_of_not_contains hh) (.refl _)
  | true => exact .of_ok (detach_of_contains hF hh)

theorem harmless_dispose (hF : s.forest.WellFormed) (h : Handle) : Harmless (dispose h) s := by
  cases hh : s.forest.contains h with
  | false => exact .of_error (dispose_of_not_contains hh) (.refl _)
  | true =>
    cases hp : s.forest.above? h with
    | some p => exact .of_error (dispose_of_owned hp) (.refl _)
    | none =>
      obtain ⟨ds, -, -, -, hrun⟩ := dispose_of_root hF hh hp
      exact .of_ok hrun

end

variable [ShallowCopy C]

theorem harmless_delete (hF : s.forest.WellFormed) (base : Handle) : Harmless (delete base) s := by
  refine .query_bind fun parent? _ => ?_
  cases parent? with
  | none => exact .describe_bind (.of_ok (notify_run _ s))
  | some p => exact .query_bind fun i _ => (harmless_removeChild hF p i).discard

theorem harmless_swapPositions (hF : s.forest.WellFormed) (a b : Handle) :
    Harmless (swapPositions a b) s := by
  rcases swapPositions_outcome hF a b with ⟨G, hrun, -⟩ | ⟨e, hrun⟩
  · exact .of_ok hrun
  · exact .of_error hrun (.refl _)

theorem harmless_transplant (hF : s.forest.WellFormed) (base x : Handle) :
    Harmless (transplant base x) s := by
  by_cases hrun : ∃ p, s.forest.above? base = some p ∧ s.forest.contains x = true ∧
      ¬ s.forest.Covers x base
  · obtain ⟨p, hp, hx, hnot⟩ := hrun
    obtain ⟨t, hok, -⟩ := transplant_run hF hp hx hnot
    exact .of_ok hok
  · refine .query_bind fun parent? hparent => ?_
    obtain ⟨hb, hp⟩ := Forest.parent_eq_ok hparent
    cases parent? with
    | none => exact .describe_bind (.throw _)
    | some p =>
      dsimp only
      split
      · exact .pure _
      · refine .query_bind fun u hu => ?_
        have hx : s.forest.contains x = false := by
          have hnot := hF.not_covers_of_ensureNotAbove hb hu
          exact Bool.eq_false_iff.mpr fun hx => hrun ⟨p, hp, hx, hnot⟩
        have hkids := query_of_not_contains (q := fun F => F.hasChildren x) rfl hx
        exact .of_error (bind_of_error _ (bind_of_error _ hkids)) (.refl _)

theorem harmless_sanitize (hF : s.forest.WellFormed) {h : Handle} (hh : s.forest.Clean h) :
    Harmless (sanitize h) s := by
  rcases sanitize_of_clean hF hh with hrun | hsprouts
  · exact .of_ok hrun
  · exact hsprouts.harmless

/-! ## Insertions -/

variable {x : Handle}

theorem harmless_insertChild (hF : s.forest.WellFormed) (p : Handle) (i : Nat)
    (hx : s.forest.Clean x) : Harmless (insertChild p i x) s := by
  cases hp : s.forest.contains p with
  | false => exact .of_error (insertChild_of_not_contains hp i x) (.refl _)
  | true =>
    by_cases hi : i ≤ (s.forest.below p).length
    · rcases sanitize_of_clean hF hx with hrun | ⟨y, t, hrun, hs⟩ | ⟨e, t, hrun, hsame⟩
      · rcases insertChild_of_sanitize_ok hp hi hrun (.refl _) hF with ⟨-, -, -, hok⟩ | ⟨e, herror⟩
        · exact .of_ok hok
        · exact .of_error herror (.refl _)
      · exact .of_ok (insertChild_of_sprouted hF hp hi hrun hs)
      · exact .of_error (insertChild_of_sanitize_error hp hi hrun) hsame
    · exact .of_error (insertChild_of_lt hp (Nat.not_le.mp hi) x) (.refl _)

/-- Putting a clean node in the place of a child, with what can be asked for afterwards. -/
theorem setChild_of_clean (hF : s.forest.WellFormed) (p : Handle) (i : Nat)
    (hx : s.forest.Clean x) :
    (∃ c y t, setChild p i x s = .ok c t ∧ (s.forest.below p)[i]? = some c ∧
        t.forest.WellFormed ∧ t.forest.below p = (s.forest.below p).set i y) ∨
      ∃ e t, setChild p i x s = .error e t ∧ t.forest.SameNodes s.forest := by
  cases hi : (s.forest.below p)[i]? with
  | none =>
    obtain ⟨e, hrun⟩ := setChild_of_getElem?_eq_none hi x
    exact Or.inr ⟨e, s, hrun, .refl _⟩
  | some c =>
    have hp := Forest.contains_of_mem_below (List.mem_of_getElem? hi)
    rcases sanitize_of_clean hF hx with hrun | ⟨y, t, hrun, hs⟩ | ⟨e, t, hrun, hsame⟩
    · rcases setChild_of_sanitize_ok hi hrun (.refl _) hF with ⟨hx, hroot, hnot, hok⟩ | ⟨e, herror⟩
      · refine Or.inl ⟨c, x, _, hok, rfl, hF.substitute hi hx hroot hnot, ?_⟩
        rw [Session.forest_withForest, Forest.below_substitute hp, if_pos rfl]
      · exact Or.inr ⟨e, s, herror, .refl _⟩
    · have hi' : (t.forest.below p)[i]? = some c := by rwa [hs.old.below_eq hp]
      refine Or.inl ⟨c, y, _, setChild_of_sprouted hF hi hrun hs, rfl, ?_, ?_⟩
      · exact hs.wellFormed.substitute hi' hs.contains hs.root (hs.not_covers hF hp)
      · rw [Session.forest_withForest, Forest.below_substitute (hs.old.contains hp), if_pos rfl,
          hs.old.below_eq hp]
    · exact Or.inr ⟨e, t, setChild_of_sanitize_error hi hrun, hsame⟩

theorem harmless_setChild (hF : s.forest.WellFormed) (p : Handle) (i : Nat)
    (hx : s.forest.Clean x) : Harmless (setChild p i x) s := by
  rcases setChild_of_clean hF p i hx with ⟨c, y, t, hrun, -⟩ | ⟨e, t, hrun, hsame⟩
  · exact .of_ok hrun
  · exact .of_error hrun hsame

/-- After a node was put in the place of a child, the child at that position can be asked for. -/
theorem harmless_setChild_child (hF : s.forest.WellFormed) (p : Handle) (i : Nat)
    (hx : s.forest.Clean x) :
    Harmless (do
      discard (setChild p i x)
      query fun F => F.child p i) s := by
  refine .bind (harmless_setChild hF p i hx).discard fun a t hrun => ?_
  rcases setChild_of_clean hF p i hx with ⟨c, y, u, hset, hc, -, hu⟩ | ⟨e, u, hset, -⟩
  · rw [discard_of_ok hset] at hrun
    cases hrun
    have hi : (t.forest.below p)[i]? = some y := by
      rw [hu, List.getElem?_set_self (List.getElem?_eq_some_iff.mp hc).1]
    exact ⟨y, t, query_of_ok (Forest.child_of_getElem? hi)⟩
  · rw [discard_of_error hset] at hrun
    exact nomatch hrun

theorem harmless_addChild (hF : s.forest.WellFormed) (p : Handle) (hx : s.forest.Clean x) :
    Harmless (addChild p x) s :=
  .query_bind fun i _ => harmless_insertChild hF p i hx

theorem harmless_replaceChild (hF : s.forest.WellFormed) (p old : Handle)
    (hx : s.forest.Clean x) : Harmless (replaceChild p old x) s := by
  refine .query_bind fun index? _ => ?_
  cases index? with
  | some i => exact harmless_setChild hF p i hx
  | none => exact .describe_bind (.describe_bind (.throw _))

theorem harmless_setChildAndRemove (hF : s.forest.WellFormed) (p : Handle) (start stop : Nat)
    (hx : s.forest.Clean x) : Harmless (setChildAndRemove p x start stop) s := by
  refine .checked _ fun h₁ => .query_bind fun len hlen => .checked _ fun h₂ => ?_
  have hlen' := (Forest.numChildren_eq_ok hlen).2
  refine .bind (harmless_setChild hF p start hx).discard fun a t hrun => ?_
  rcases setChild_of_clean hF p start hx with ⟨c, y, u, hset, hc, ht, hbelow⟩ | ⟨e, u, hset, -⟩
  · rw [discard_of_ok hset] at hrun
    cases hrun
    obtain ⟨hlt, -⟩ := List.getElem?_eq_some_iff.mp hc
    have hlength : (t.forest.below p).length = (s.forest.below p).length := by
      rw [hbelow, List.length_set]
    obtain ⟨G, hremove, hG⟩ := removeSlice_run (p := p) (i := start + 1)
      (n := stop - (start + 1)) ht (by omega)
    -- the slice begins after the node that was put in
    have hstart : (G.below p)[start]? = some y := by
      rw [hG.below_eq, Forest.filter_not_mem_slice (ht.nodup_below p),
        List.getElem?_append_left (by rw [List.length_take]; omega),
        List.getElem?_take_of_lt (Nat.lt_succ_self start), hbelow, List.getElem?_set_self hlt]
    have hchild : query (fun F => F.child p start) (t.withForest G) = .ok y (t.withForest G) :=
      query_of_ok (Forest.child_of_getElem? hstart)
    exact ⟨y, _, (bind_of_ok _ (discard_of_ok hremove)).trans hchild⟩
  · rw [discard_of_error hset] at hrun
    exact nomatch hrun

theorem harmless_setAtPath (hF : s.forest.WellFormed) (root : Handle) (path : List Nat)
    (hx : s.forest.Clean x) : Harmless (setAtPath root x path) s := by
  unfold setAtPath
  split
  · exact .pure _
  · exact .query_bind fun p _ => (harmless_setChild hF p _ hx).map _

/-! ## Edits beside a node -/

theorem harmless_insertBeside (hF : s.forest.WellFormed) (side : Side) (base : Handle)
    (move : Bool) (hclean : s.forest.Clean x) : Harmless (insertBeside side base x move) s := by
  by_cases hrun : move = true ∧ ∃ p, s.forest.above? base = some p ∧
      s.forest.contains x = true ∧ ¬ s.forest.Covers x base
  · obtain ⟨rfl, p, hp, hx, hnot⟩ := hrun
    obtain ⟨i, -, hok⟩ := insertBeside_move hF side hp hx hnot
    exact .of_ok hok
  · refine .query_bind fun parent? hparent => ?_
    obtain ⟨hb, hp⟩ := Forest.parent_eq_ok hparent
    cases parent? with
    | none => exact .describe_bind (.of_ok (bind_of_ok _ (notify_run _ s)))
    | some p =>
      cases move with
      | false => exact .query_bind fun i _ => harmless_insertChild hF p _ hclean
      | true =>
        refine .query_bind fun u hu => ?_
        have hx : s.forest.contains x = false := by
          have hnot := hF.not_covers_of_ensureNotAbove hb hu
          exact Bool.eq_false_iff.mpr fun hx => hrun ⟨rfl, p, hp, hx, hnot⟩
        exact .of_error (bind_of_error _ (detach_of_not_contains hx)) (.refl _)

theorem harmless_replace (hF : s.forest.WellFormed) (base : Handle) (move : Bool)
    (hclean : s.forest.Clean x) : Harmless (replace base x move) s := by
  by_cases hrun : move = true ∧ ∃ p, s.forest.above? base = some p ∧
      s.forest.contains x = true ∧ ¬ s.forest.Covers x base
  · obtain ⟨rfl, p, hp, hx, hnot⟩ := hrun
    obtain ⟨i, -, hok⟩ := replace_move hF hp hx hnot
    exact .of_ok hok
  · refine .query_bind fun parent? hparent => ?_
    obtain ⟨hb, hp⟩ := Forest.parent_eq_ok hparent
    cases parent? with
    | none => exact .describe_bind (.of_ok (bind_of_ok _ (notify_run _ s)))
    | some p =>
      have hset : Harmless (do
          let i ← query fun F => F.positionIn p base
          discard (setChild p i x)
          query fun F => F.child p i) s :=
        .query_bind fun i _ => harmless_setChild_child hF p i hclean
      dsimp only
      split
      · exact .pure _
      · cases move with
        | false => exact hset
        | true =>
          refine .query_bind fun owned hx => ?_
          cases owned with
          | false => exact hset
          | true =>
            refine .query_bind fun u hu => ?_
            have hnot := hF.not_covers_of_ensureNotAbove hb hu
            exact absurd ⟨rfl, p, hp, (Forest.hasParent_eq_ok hx).1, hnot⟩ hrun

theorem harmless_swapSubtrees (hF : s.forest.WellFormed) {a b : Handle} (hne : a ≠ b)
    (ha : CleanContent (s.forest.contentOf? a)) : Harmless (swapSubtrees a b) s := by
  refine .query_bind fun nested hnested => ?_
  cases nested with
  | true =>
    exact .describe_bind (.describe_bind (.of_ok (bind_of_ok _ (notify_run _ s))))
  | false =>
    refine .query_bind fun owned howned => ?_
    cases owned with
    | false =>
      exact .describe_bind (.describe_bind (.of_ok (bind_of_ok _ (notify_run _ s))))
    | true =>
      obtain ⟨hab, hba⟩ := hF.not_covers_of_nested hne hnested
      obtain ⟨⟨p, hp⟩, q, hq⟩ := Forest.parents_of_owned howned
      rcases ha s a hF rfl with ⟨c, t, hcopy, hsprout⟩ | ⟨e, t, hcopy, hsame⟩
      · obtain ⟨u, hrun, -⟩ := trade_run hF hsprout hp hq hab hba
        exact .of_ok ((bind_of_ok _ hcopy).trans hrun)
      · exact .of_error (bind_of_error _ hcopy) hsame

theorem harmless_swap (hF : s.forest.WellFormed) {a : Handle} (b : Handle) (subtrees : Bool)
    (ha : CleanContent (s.forest.contentOf? a)) : Harmless (swap a b subtrees) s := by
  unfold swap
  split
  · exact .bind (harmless_query _).discard fun _ t _ => ⟨false, t, pure_run _ t⟩
  · rename_i hne
    cases subtrees with
    | true => exact harmless_swapSubtrees hF hne ha
    | false => exact .bind (harmless_swapPositions hF a b) fun _ t _ => ⟨true, t, pure_run _ t⟩

end EditM

/-- The node that a transform makes a copy of, if it makes one. -/
def Transform.source? : Transform → Option Handle
  | .replace _ x | .moveBefore _ x | .moveAfter _ x | .addChild _ x _ => some x
  | .swap a _ _ => some a
  | .delete _ => none

theorem Transform.harmless_of_clean {C : Type} [ShallowCopy C] {s : Session C}
    (hF : s.forest.WellFormed) (t : Transform)
    (hclean : ∀ h, t.source? = some h → s.forest.Clean h) : (t.execute (C := C)).Harmless s := by
  cases t with
  | replace base x => exact (EditM.harmless_replace hF base false (hclean x rfl)).discard
  | moveBefore base x =>
    exact (EditM.harmless_insertBeside hF .before base true (hclean x rfl)).discard
  | moveAfter base x =>
    exact (EditM.harmless_insertBeside hF .after base true (hclean x rfl)).discard
  | delete x => exact EditM.harmless_delete hF x
  | addChild p x i? =>
    cases i? with
    | none => exact (EditM.harmless_addChild hF p (hclean x rfl)).discard
    | some i => exact (EditM.harmless_insertChild hF p i (hclean x rfl)).discard
  | swap a b subtrees =>
    exact (EditM.harmless_swap hF b subtrees (hclean a rfl a .refl)).discard

/-- The edits that are carried out place by place, and may stop between two places. -/
def Edit.isSeries {C : Type} [Content C] : Edit C → Bool
  | addChildren .. => true
  | removeChildren .. => true
  | removeChildrenOfKind .. => true
  | setChildren .. => true
  | iterate .. => true
  | apply .. => true
  | applyReverse .. => true
  | survey .. => true
  | visit .. => true
  | _ => false

/-- The node that an edit of one place makes a copy of, if it makes one. -/
def Edit.source? {C : Type} [Content C] : Edit C → Option Handle
  | copyShallow h | copy h | sanitize h => some h
  | insertChild _ _ x | addChild _ x | addChildLeftOf _ x _ | addChildRightOf _ x _ => some x
  | setChild _ _ x | replaceChild _ _ x | setChildAndRemove _ x _ _ | setAtPath _ x _ => some x
  | insertBeside _ _ x _ | replace _ x _ => some x
  | swap a _ _ => some a
  | execute t => t.source?
  | _ => none

/-- If the node that an edit of one place makes a copy of is clean with all below it, the edit leaves
all nodes as they were if it fails. -/
theorem Edit.harmless_of_clean {C : Type} [ShallowCopy C] {s : Session C}
    (hF : s.forest.WellFormed) (e : Edit C) (he : e.isSeries = false)
    (hclean : ∀ h, e.source? = some h → s.forest.Clean h) : e.run.Harmless s := by
  cases e with
  | create content => exact .discard (.of_ok (EditM.create_run content s))
  | setContent h f => exact EditM.harmless_setContent h f
  | copyShallow h => exact (hclean h rfl h .refl s h hF rfl).harmless.discard
  | copy h => exact (EditM.copy_sprouts hF (hclean h rfl)).harmless.discard
  | sanitize h => exact (EditM.harmless_sanitize hF (hclean h rfl)).discard
  | dispose h => exact (EditM.harmless_dispose hF h).discard
  | detach h => exact EditM.harmless_detach hF h
  | insertChild p i x => exact (EditM.harmless_insertChild hF p i (hclean x rfl)).discard
  | addChild p x => exact (EditM.harmless_addChild hF p (hclean x rfl)).discard
  | addChildLeftOf p x y =>
    exact .discard (.query_bind fun i _ => EditM.harmless_insertChild hF p i (hclean x rfl))
  | addChildRightOf p x y =>
    exact .discard (.query_bind fun i _ => EditM.harmless_insertChild hF p (i + 1) (hclean x rfl))
  | removeChild p i => exact (EditM.harmless_removeChild hF p i).discard
  | removeChildNode p c => exact (EditM.harmless_removeChildNode hF p c).discard
  | removeChildrenRange p start stop =>
    exact (EditM.harmless_removeChildrenRange hF p start stop).discard
  | setChild p i x => exact (EditM.harmless_setChild hF p i (hclean x rfl)).discard
  | replaceChild p old x => exact (EditM.harmless_replaceChild hF p old (hclean x rfl)).discard
  | setChildAndRemove p x start stop =>
    exact (EditM.harmless_setChildAndRemove hF p start stop (hclean x rfl)).discard
  | setAtPath root x path => exact (EditM.harmless_setAtPath hF root path (hclean x rfl)).discard
  | insertBeside side base x move =>
    exact (EditM.harmless_insertBeside hF side base move (hclean x rfl)).discard
  | replace base x move => exact (EditM.harmless_replace hF base move (hclean x rfl)).discard
  | delete base => exact EditM.harmless_delete hF base
  | transplant base x => exact (EditM.harmless_transplant hF base x).discard
  | swap a b subtrees =>
    exact (EditM.harmless_swap hF b subtrees (hclean a rfl a .refl)).discard
  | execute t => exact t.harmless_of_clean hF hclean
  | addChildren | removeChildren | removeChildrenOfKind | setChildren | iterate | apply
  | applyReverse | survey | visit => exact nomatch he

theorem Edit.harmless_run {C : Type} [ShallowCopy C] [RegularCopy C] {s : Session C}
    (hF : s.forest.WellFormed) (e : Edit C) (he : e.isSeries = false) : e.run.Harmless s :=
  e.harmless_of_clean hF he fun h _ => EditM.clean_of_regular s.forest h

theorem EditM.harmless_execute {C : Type} [ShallowCopy C] [RegularCopy C] {s : Session C}
    (hF : s.forest.WellFormed) (t : Transform) : Harmless (t.execute (C := C)) s :=
  t.harmless_of_clean hF fun h _ => clean_of_regular s.forest h

/-- Whatever makes an edit of one place fail, the nodes are what they were, with labels, bad copies
among them, as with plain contents. -/
theorem sameNodes_of_failed_edit :
    (∀ (s : Session Label), s.forest.WellFormed → ∀ e : Edit Label, e.isSeries = false →
      ∀ error t, e.run s = .error error t → t.forest.SameNodes s.forest) ∧
    ∀ (s : Session Plain), s.forest.WellFormed → ∀ e : Edit Plain, e.isSeries = false →
      ∀ error t, e.run s = .error error t → t.forest.SameNodes s.forest :=
  ⟨fun _ hF e he => e.harmless_run hF he, fun _ hF e he => e.harmless_run hF he⟩

def Session.overBadCopy : Session Label := (Session.fresh Label {}).after
  [.create ⟨.block, "a"⟩, .create ⟨.badCopy, "b"⟩, .addChild ⟨0, 0⟩ ⟨1, 0⟩]

/-- The copy of the block fails when it comes to the bad copy, and leaves nothing behind. -/
theorem sameNodes_of_copy_overBadCopy :
    Session.overBadCopy.forest.WellFormed ∧
    ∃ error t, (Edit.copy ⟨0, 0⟩).run Session.overBadCopy = .error error t ∧
      t.forest.SameNodes Session.overBadCopy.forest := by
  have hF : Session.overBadCopy.forest.WellFormed :=
    Session.wellFormed_after (Forest.wellFormed_empty {}) _
  exact ⟨hF, _, _, rfl, sameNodes_of_failed_edit.1 _ hF (.copy ⟨0, 0⟩) rfl _ _ rfl⟩

end Grove
