import Grove.Cursor
import Grove.Proofs.Forest.Links

/-!
# Movements of cursors

Every movement of a cursor takes it from where it is to another place, and gives the child that was
passed last on the way. A way may be broken at any place in between, so what holds of single steps
holds of movements by any number of them.
-/

namespace Grove
set_option autoImplicit false

namespace Cursor
variable {C : Type} {c : Cursor C} {m t : Nat}

/-- The cursor at the place `target`, and the child that it passes last on the way there: on the way
forward the one before that place, on the way back the one after it. -/
def goTo (target : Nat) (c : Cursor C) : Option Handle × Cursor C :=
  if c.position < target then
    (c.children[target - 1]?, { c with position := target, last := some (target - 1) })
  else if target < c.position then
    (c.children[target]?, { c with position := target, last := some target })
  else (none, c)

theorem goTo_of_lt (h : c.position < t) :
    c.goTo t = (c.children[t - 1]?, { c with position := t, last := some (t - 1) }) :=
  if_pos h

theorem goTo_of_gt (h : t < c.position) :
    c.goTo t = (c.children[t]?, { c with position := t, last := some t }) := by
  rw [goTo, if_neg (Nat.lt_asymm h), if_pos h]

@[simp] theorem goTo_position (c : Cursor C) : c.goTo c.position = (none, c) := by
  simp [goTo]

@[simp] theorem position_goTo (t : Nat) (c : Cursor C) : (c.goTo t).2.position = t := by
  rcases Nat.lt_trichotomy c.position t with hlt | rfl | hgt
  · rw [goTo_of_lt hlt]
  · rw [goTo_position]
  · rw [goTo_of_gt hgt]

@[simp] theorem session_goTo (t : Nat) (c : Cursor C) : (c.goTo t).2.session = c.session := by
  unfold goTo
  split
  · rfl
  · split <;> rfl

@[simp] theorem parent_goTo (t : Nat) (c : Cursor C) : (c.goTo t).2.parent = c.parent := by
  unfold goTo
  split
  · rfl
  · split <;> rfl

@[simp] theorem children_goTo (t : Nat) (c : Cursor C) : (c.goTo t).2.children = c.children := by
  simp [children]

/-- On a way that stays among the children something is passed. -/
theorem goTo_eq_some (hle : c.position ≤ c.children.length) (ht : t ≤ c.children.length)
    (hne : t ≠ c.position) : ∃ child, c.goTo t = (some child, (c.goTo t).2) := by
  rcases Nat.lt_or_gt_of_ne hne with hlt | hlt
  · exact ⟨_, by rw [goTo_of_gt hlt, List.getElem?_eq_getElem (by omega)]⟩
  · exact ⟨_, by rw [goTo_of_lt hlt, List.getElem?_eq_getElem (by omega)]⟩

/-- Only on which side of the target a way began makes a difference. -/
theorem goTo_congr {d : Cursor C} (hs : d.session = c.session) (hp : d.parent = c.parent)
    (hside : c.position < t ∧ d.position < t ∨ t < c.position ∧ t < d.position) :
    d.goTo t = c.goTo t := by
  obtain ⟨s, p, i, l⟩ := d
  obtain rfl : s = c.session := hs
  obtain rfl : p = c.parent := hp
  rcases hside with ⟨hc, hd⟩ | ⟨hc, hd⟩
  · rw [goTo_of_lt hc, goTo_of_lt hd]
    rfl
  · rw [goTo_of_gt hc, goTo_of_gt hd]
    rfl

theorem goTo_goTo_snd (hm : c.position < t ∧ m < t ∨ t < c.position ∧ t < m) :
    (c.goTo m).2.goTo t = c.goTo t :=
  goTo_congr (session_goTo m c) (parent_goTo m c) (by rwa [position_goTo])

/-- A way may be broken at a place in between. -/
theorem goTo_goTo (hle : c.position ≤ c.children.length) (ht : t ≤ c.children.length)
    (hm : c.position ≤ m ∧ m ≤ t ∨ t ≤ m ∧ m ≤ c.position) :
    c.goTo t = (((c.goTo m).2.goTo t).1.or (c.goTo m).1, ((c.goTo m).2.goTo t).2) := by
  by_cases hmt : m = t
  · have hstop : (c.goTo m).2.goTo t = (none, (c.goTo m).2) := by
      simpa only [position_goTo, hmt] using goTo_position (c.goTo t).2
    rw [hstop, hmt, Option.none_or]
  · obtain ⟨child, hchild⟩ := goTo_eq_some hle ht (by omega)
    rw [goTo_goTo_snd (by omega), hchild]
    rfl

/-! ## Single steps -/

theorem goTo_succ (hlt : c.position < c.children.length) :
    c.goTo (c.position + 1) = (some c.children[c.position], (c.goTo (c.position + 1)).2) := by
  rw [goTo_of_lt (Nat.lt_succ_self _), Nat.succ_sub_one, List.getElem?_eq_getElem hlt]

theorem next_of_lt (hlt : c.position < c.children.length) :
    c.next = c.goTo (c.position + 1) := by
  rw [next, goTo_of_lt (Nat.lt_succ_self _), Nat.succ_sub_one, List.getElem?_eq_getElem hlt]

theorem next_of_eq (heq : c.position = c.children.length) : c.next = (none, c) := by
  rw [next, List.getElem?_eq_none (Nat.le_of_eq heq.symm)]

theorem next_eq_goTo (hle : c.position ≤ c.children.length) :
    c.next = c.goTo (min (c.position + 1) c.children.length) := by
  rcases Nat.lt_or_eq_of_le hle with hlt | heq
  · rw [next_of_lt hlt, Nat.min_eq_left hlt]
  · rw [next_of_eq heq, Nat.min_eq_right (by omega), ← heq, goTo_position]

theorem previous_eq_goTo (hle : c.position ≤ c.children.length) :
    c.previous = c.goTo (c.position - 1) := by
  unfold previous previousIndex?
  by_cases h0 : c.position = 0
  · rw [if_pos h0, h0]
    simpa only [h0] using (goTo_position c).symm
  · rw [if_neg h0, goTo_of_gt (by omega)]
    simp only [List.getElem?_eq_getElem (show c.position - 1 < c.children.length by omega)]

/-! ## Several steps -/

theorem repeatMove_of_none {step : Cursor C → Option Handle × Cursor C} (n : Nat)
    (visited : Option Handle) (h : step c = (none, c)) :
    repeatMove step n visited c = (visited, c) := by
  cases n with
  | zero => rfl
  | succ n => rw [repeatMove, h]

theorem repeatMove_next (n : Nat) (visited : Option Handle)
    (hle : c.position ≤ c.children.length) :
    repeatMove next n visited c =
      ((c.goTo (min (c.position + n) c.children.length)).1.or visited,
        (c.goTo (min (c.position + n) c.children.length)).2) := by
  induction n generalizing visited c with
  | zero => simp [repeatMove, Nat.min_eq_left hle]
  | succ n ih =>
    rcases Nat.lt_or_eq_of_le hle with hlt | heq
    -- the way is broken after the first step, and the rest of it is the induction hypothesis
    · obtain ⟨child, hchild⟩ := goTo_eq_some hle hlt (Nat.succ_ne_self _)
      have hrest := ih (c := (c.goTo (c.position + 1)).2) (some child)
        (by rw [position_goTo, children_goTo]; exact hlt)
      rw [position_goTo, children_goTo, Nat.add_right_comm c.position 1 n,
        Nat.add_assoc c.position n 1] at hrest
      have hsplit := goTo_goTo (m := c.position + 1)
        (t := min (c.position + (n + 1)) c.children.length) hle (Nat.min_le_right _ _) (by omega)
      rw [repeatMove, next_of_lt hlt, hchild]
      dsimp only
      rw [hrest, hsplit, hchild, Option.or_assoc, Option.some_or]
    · rw [repeatMove_of_none _ _ (next_of_eq heq), Nat.min_eq_right (by omega), ← heq, goTo_position]
      simp

theorem repeatMove_previous (n : Nat) (visited : Option Handle)
    (hle : c.position ≤ c.children.length) :
    repeatMove previous n visited c =
      ((c.goTo (c.position - n)).1.or visited, (c.goTo (c.position - n)).2) := by
  induction n generalizing visited c with
  | zero => simp [repeatMove]
  | succ n ih =>
    have hprevious := previous_eq_goTo hle
    by_cases h0 : c.position = 0
    · rw [h0, Nat.zero_sub, ← h0, goTo_position] at hprevious
      rw [repeatMove_of_none _ _ hprevious, h0, Nat.zero_sub, ← h0, goTo_position]
      simp
    · obtain ⟨child, hchild⟩ := goTo_eq_some (t := c.position - 1) hle (by omega) (by omega)
      have hrest := ih (c := (c.goTo (c.position - 1)).2) (some child)
        (by rw [position_goTo, children_goTo]; omega)
      rw [position_goTo, Nat.sub_sub, Nat.add_comm 1 n] at hrest
      have hsplit := goTo_goTo (m := c.position - 1) (t := c.position - (n + 1)) hle (by omega)
        (by omega)
      rw [repeatMove, hprevious, hchild]
      dsimp only
      rw [hrest, hsplit, hchild, Option.or_assoc, Option.some_or]

theorem back_eq_goTo (hle : c.position ≤ c.children.length) (n : Nat) :
    c.back n = c.goTo (c.position - n) := by
  rw [back, repeatMove_previous n none hle, Option.or_none]

theorem moveBy_eq_goTo (hle : c.position ≤ c.children.length) {a : Int} (ha : a ≠ 0) :
    c.moveBy a = c.goTo (min (c.position + a).toNat c.children.length) := by
  rw [moveBy, if_neg ha]
  split
  · have hplace : (c.position + a).toNat = c.position + a.natAbs := by omega
    rw [repeatMove_next _ none hle, hplace, Option.or_none]
  · have hplace : min (c.position + a).toNat c.children.length = c.position - a.natAbs := by omega
    rw [repeatMove_previous _ none hle, hplace, Option.or_none]

/-! ## Searching and collecting -/

/-- A search passes the children after the cursor up to the first one that it is for. -/
theorem nextMatchingFrom_eq (P : Predicate C) (hF : c.session.forest.WellFormed) (n : Nat)
    (hle : c.position ≤ c.children.length) (hn : c.children.length < c.position + n) :
    nextMatchingFrom P n c =
      match (c.children.drop c.position).findIdx? (P c.session.forest) with
      | some j => c.goTo (c.position + j + 1)
      | none => (none, (c.goTo c.children.length).2) := by
  induction n generalizing c with
  | zero => omega
  | succ n ih =>
    rcases Nat.lt_or_eq_of_le hle with hlt | heq
    · have hchild := goTo_succ hlt
      have hlive : c.session.forest.contains c.children[c.position] = true :=
        hF.contains_of_mem_below (List.getElem_mem hlt)
      have hrest := ih (c := (c.goTo (c.position + 1)).2) (by rwa [session_goTo])
        (by rw [position_goTo, children_goTo]; exact hlt)
        (by rw [position_goTo, children_goTo]; omega)
      rw [position_goTo, children_goTo, session_goTo] at hrest
      rw [nextMatchingFrom, next_of_lt hlt, hchild]
      dsimp only
      rw [session_goTo, hlive, Bool.true_and, hrest, List.drop_eq_getElem_cons hlt,
        List.findIdx?_cons]
      split
      · exact hchild.symm
      · cases (c.children.drop (c.position + 1)).findIdx? (P c.session.forest) with
        | none =>
          have hsplit := goTo_goTo (m := c.position + 1) hle (Nat.le_refl _) (by omega)
          rw [Option.map_none, hsplit]
        | some j =>
          rw [Option.map_some]
          dsimp only
          rw [goTo_goTo_snd (by omega), Nat.add_right_comm c.position 1 j, Nat.add_assoc _ j 1]
    · rw [nextMatchingFrom, next_of_eq heq, List.drop_of_length_le (by omega), List.findIdx?_nil,
        ← heq, goTo_position]

theorem nextMatching_eq (P : Predicate C) (hF : c.session.forest.WellFormed)
    (hle : c.position ≤ c.children.length) :
    c.nextMatching P =
      match (c.children.drop c.position).findIdx? (P c.session.forest) with
      | some j => c.goTo (c.position + j + 1)
      | none => (none, (c.goTo c.children.length).2) :=
  nextMatchingFrom_eq P hF _ hle (by omega)

theorem restFrom_eq (n : Nat) (hle : c.position ≤ c.children.length)
    (hn : c.children.length < c.position + n) :
    restFrom n c = (c.children.drop c.position, (c.goTo c.children.length).2) := by
  induction n generalizing c with
  | zero => omega
  | succ n ih =>
    rcases Nat.lt_or_eq_of_le hle with hlt | heq
    · have hchild := goTo_succ hlt
      have hrest := ih (c := (c.goTo (c.position + 1)).2)
        (by rw [position_goTo, children_goTo]; exact hlt)
        (by rw [position_goTo, children_goTo]; omega)
      rw [position_goTo, children_goTo] at hrest
      have hsplit := goTo_goTo (m := c.position + 1) hle (Nat.le_refl _) (by omega)
      rw [restFrom, next_of_lt hlt, hchild]
      dsimp only
      rw [hrest, hsplit, List.drop_eq_getElem_cons hlt]
    · rw [restFrom, next_of_eq heq, List.drop_of_length_le (by omega), ← heq, goTo_position]

/-- What is left are the children after the cursor, in their order. -/
theorem rest_eq (hle : c.position ≤ c.children.length) :
    c.rest = (c.children.drop c.position, (c.goTo c.children.length).2) :=
  restFrom_eq _ hle (by omega)

end Cursor
end Grove
