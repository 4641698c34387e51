import Grove.Proofs.Edit.History
import Grove.Proofs.Edit.Swap
import Grove.Proofs.Sample.Copies

/-!
# Integrity

Every edit keeps a well-formed forest well-formed, also when it fails half way. The empty forest is
well-formed, so every forest that a history of edits leads to is.
-/

namespace Grove
set_option autoImplicit false

theorem Forest.wellFormed_empty {C : Type} (settings : Settings) :
    ({ settings } : Forest C).WellFormed := by
  have hget : ∀ h, ({ settings } : Forest C).get? h = none := Store.get?_empty
  refine wellFormed_iff_links.mpr ⟨fun p h => ?_, fun p => ?_, fun h hh => ?_⟩
  · simp [above?, below, hget]
  · simp [below, hget]
  · obtain ⟨p, -, hp⟩ := Relation.TransGen.tail'_iff.mp hh
    rw [Over, above?, hget] at hp
    exact absurd hp (by simp)

/-- A session in which nothing has been edited yet. -/
def Session.fresh (C : Type) (settings : Settings) : Session C := { forest := { settings } }

section
variable {C : Type} [ShallowCopy C] [SafeCopy C]

theorem Session.wellFormed_after {s : Session C} (hF : s.forest.WellFormed) (es : List (Edit C)) :
    (s.after es).forest.WellFormed :=
  EditM.editLaw_keepsWellFormed.after s es hF

end

/-- Whatever a history of edits does, and wherever its edits fail, it leads to a well-formed forest:
with labels, plain contents and probes, and under both policies. -/
theorem wellFormed_of_history (settings : Settings) :
    (∀ es : List (Edit Label), ((Session.fresh Label settings).after es).forest.WellFormed) ∧
    (∀ es : List (Edit Plain), ((Session.fresh Plain settings).after es).forest.WellFormed) ∧
    ∀ es : List (Edit Probe), ((Session.fresh Probe settings).after es).forest.WellFormed :=
  ⟨Session.wellFormed_after (Forest.wellFormed_empty settings),
    Session.wellFormed_after (Forest.wellFormed_empty settings),
    Session.wellFormed_after (Forest.wellFormed_empty settings)⟩

end Grove
