import Grove.Proofs.Edit.Harmless

/-!
# Leftovers of copy hooks

A copy that fails takes out what the copy hook has handed back, and a swap of subtrees takes out its
placeholder. If the hook hands back the root of a new tree, that is all there is to take out. A hook
may also hand back a node that was there before, and then it is this node that goes, with everything
below it.
-/

namespace Grove
set_option autoImplicit false

namespace EditM
variable {C : Type} {s t : Session C} {a b h : Handle}

theorem sprouts_query_content {f : C → EditM C Handle}
    (hf : ∀ content, s.forest.contentOf? h = some content → Sprouts (f content) s) :
    Sprouts ((query fun F => F.content h) >>= f) s := by
  cases hh : s.forest.contains h with
  | false =>
    have hrun := bind_of_error f (query_content_of_not_contains hh)
    exact Or.inr ⟨_, s, hrun, .refl _⟩
  | true =>
    obtain ⟨n, hn⟩ := Forest.contains_iff.mp hh
    rw [Sprouts, bind_of_ok f (query_content hn)]
    exact hf n.content (Forest.contentOf?_of_get? hn)

theorem swap_traded [ShallowCopy C] (hF : s.forest.WellFormed)
    (hclean : CleanContent (s.forest.contentOf? a)) (hrun : swap a b true s = .ok true t) :
    s.forest.Traded t.forest a b := by
  unfold swap at hrun
  split at hrun
  · obtain ⟨_, u, -, hpure⟩ := bind_eq_ok.mp hrun
    exact nomatch hpure
  · rename_i hne
    exact swapSubtrees_traded hF hne hclean hrun

end EditM

namespace Probe
variable {p : Probe}

/-- Of the probes, those are clean whose copy is neither hung below a host nor the source itself. -/
theorem cleanContent_some (howned : p.kind ≠ .owned) (hsame : p.kind ≠ .same) :
    EditM.CleanContent (some p) := by
  intro s h hF hh
  refine EditM.sprouts_query_content fun content hcontent => ?_
  obtain rfl : p = content := Option.some.inj (hh.symm.trans hcontent)
  have hcreate : ∀ content, EditM.Sprouts (EditM.create content) s := fun content =>
    Or.inl ⟨_, _, EditM.create_run content s, hF.sprouted_plant content⟩
  cases hk : p.kind with
  | alpha => exact hcreate _
  | beta => exact hcreate _
  | prime => exact hcreate _
  | owned => exact absurd hk howned
  | fail => exact Or.inr ⟨_, s, rfl, .refl _⟩
  | same => exact absurd hk hsame

theorem cleanContent_none : EditM.CleanContent (none : Option Probe) := by
  intro s h _ hh
  refine EditM.sprouts_query_content fun content hcontent => ?_
  rw [hh] at hcontent
  exact nomatch hcontent

theorem clean_of_entries {F : Forest Probe}
    (hF : ∀ e ∈ F.nodes.entries, e.2.content.kind ≠ .owned ∧ e.2.content.kind ≠ .same)
    (h : Handle) : F.Clean h := by
  intro k _
  cases hk : F.get? k with
  | none =>
    rw [Forest.contentOf?, hk]
    exact cleanContent_none
  | some n =>
    obtain ⟨howned, hsame⟩ := hF (k, n) (Store.mem_entries_iff.mpr hk)
    rw [Forest.contentOf?_of_get? hk]
    exact cleanContent_some howned hsame

end Probe

/-- If the copy hook leaves nothing behind for the nodes that are copied, no edit of one place does
when it fails; and a swap of subtrees that says that it has changed something has let them trade
places, with all nodes still there. -/
theorem nothing_left_of_clean_copies (C : Type) [ShallowCopy C] (s : Session C)
    (hF : s.forest.WellFormed) :
    (∀ e : Edit C, e.isSeries = false → (∀ h, e.source? = some h → s.forest.Clean h) →
        ∀ error t, e.run s = .error error t → t.forest.SameNodes s.forest) ∧
      ∀ a b t, EditM.CleanContent (s.forest.contentOf? a) → EditM.swap a b true s = .ok true t →
        s.forest.Traded t.forest a b ∧ t.forest.contains a = true ∧ t.forest.contains b = true ∧
          t.forest.size = s.forest.size := by
  refine ⟨fun e he hclean => e.harmless_of_clean hF he hclean, fun a b t hclean hrun => ?_⟩
  have htraded := EditM.swap_traded hF hclean hrun
  refine ⟨htraded, ?_, ?_, htraded.size_eq⟩
  · rw [htraded.contains_eq, htraded.live.1]
  · rw [htraded.contains_eq, htraded.live.2]

def Session.overFail : Session Probe := (Session.fresh Probe {}).after
  [.create ⟨.alpha, "a"⟩, .create ⟨.fail, "b"⟩, .create ⟨.prime, "c"⟩, .addChild ⟨0, 0⟩ ⟨1, 0⟩,
    .addChild ⟨0, 0⟩ ⟨2, 0⟩]

/-- The copy of the whole fails and leaves all nodes as they were; the two children trade places. -/
theorem nothing_left_overFail :
    Session.overFail.forest.WellFormed ∧
      (∃ error t, (Edit.copy ⟨0, 0⟩).run Session.overFail = .error error t ∧
        t.forest.SameNodes Session.overFail.forest) ∧
      ∃ t, EditM.swap ⟨2, 0⟩ ⟨1, 0⟩ true Session.overFail = .ok true t ∧
        Session.overFail.forest.Traded t.forest ⟨2, 0⟩ ⟨1, 0⟩ ∧
        t.forest.contains ⟨2, 0⟩ = true ∧ t.forest.contains ⟨1, 0⟩ = true ∧ t.forest.size = 3 := by
  have hF : Session.overFail.forest.WellFormed :=
    Session.wellFormed_after (Forest.wellFormed_empty {}) _
  have hclean := Probe.clean_of_entries (F := Session.overFail.forest) (by decide)
  obtain ⟨hedits, hswap⟩ := nothing_left_of_clean_copies Probe Session.overFail hF
  exact ⟨hF, ⟨_, _, rfl, hedits (.copy ⟨0, 0⟩) rfl (fun h _ => hclean h) _ _ rfl⟩,
    ⟨_, rfl, hswap _ _ _ (hclean _ _ .refl) rfl⟩⟩

def Session.overSame : Session Probe := (Session.fresh Probe {}).after
  [.create ⟨.alpha, "a"⟩, .create ⟨.same, "b"⟩, .create ⟨.alpha, "c"⟩, .addChild ⟨0, 0⟩ ⟨1, 0⟩,
    .addChild ⟨0, 0⟩ ⟨2, 0⟩]

/-- The copy of the first child fails, and the child is gone; a swap of the two says that it has
changed something, and the first child is gone too. -/
theorem lost_overSame :
    Session.overSame.forest.WellFormed ∧ Session.overSame.forest.contains ⟨1, 0⟩ = true ∧
      (∃ error t, EditM.copy ⟨1, 0⟩ Session.overSame = .error error t ∧
        t.forest.contains ⟨1, 0⟩ = false) ∧
      ∃ t, EditM.swap ⟨1, 0⟩ ⟨2, 0⟩ true Session.overSame = .ok true t ∧
        t.forest.contains ⟨1, 0⟩ = false :=
  ⟨Session.wellFormed_after (Forest.wellFormed_empty {}) _, rfl, ⟨_, _, rfl, rfl⟩, ⟨_, rfl, rfl⟩⟩

end Grove
