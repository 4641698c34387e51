import Grove.Proofs.Handles

/-!
# Guarded arithmetic

The edits that compute with positions, once more, with every sum, difference and slice guarded: a sum
may not leave the slots of the store, which a machine can count, a difference may not fall below zero,
and a slice has to lie inside its list. In a branching forest no guard ever strikes, since a list of
children has fewer members than the store has slots, and slots are only added.
-/

namespace Grove
set_option autoImplicit false

namespace Guarded
variable {C : Type}

def plus (i n : Nat) : EditM C Nat := do
  if i + n > (← EditM.look fun F => F.nodes.capacity) then throw .positionOutsideList
  return i + n

def minus (i n : Nat) : EditM C Nat := do
  if i < n then throw .positionOutsideList
  return i - n

/-- The part of a list from position `start` up to, but not including, position `stop`. -/
def slice (l : List Handle) (start stop : Nat) : EditM C (List Handle) := do
  if stop < start ∨ l.length < stop then throw .positionOutsideList
  return (l.take stop).drop start

/-! ## Edits -/

section
variable [Content C]

def removeSlice (parent : Handle) (start : Nat) : Nat → EditM C (List Handle)
  | 0 => return []
  | n + 1 => do
    let last ← EditM.removeChild parent (← plus start n)
    return (← removeSlice parent start n) ++ [last]

def removeChildrenRange (parent : Handle) (start stop : Nat) : EditM C (List Handle) := do
  let len ← EditM.query fun F => F.numChildren parent
  if stop < start then throw (← EditM.look fun F => F.indexError parent start)
  if stop > len then throw (← EditM.look fun F => F.indexError parent stop)
  removeSlice parent start (← minus stop start)

/-- Passes the listed children one by one and steps back where one is removed. -/
def removeOfKindFrom (parent : Handle) (k : Kind C) : Nat → List Handle → EditM C (List Handle)
  | _, [] => return []
  | index, child :: rest => do
    let next ← plus index 1
    if (← EditM.query fun F => F.kind child) = k then
      let removed ← EditM.removeChild parent index
      return removed :: (← removeOfKindFrom parent k (← minus next 1) rest)
    else
      removeOfKindFrom parent k next rest

def removeChildrenOfKind (parent : Handle) (k : Kind C) : EditM C (List Handle) := do
  removeOfKindFrom parent k 0 (← EditM.query fun F => F.children parent)

def siblings (h : Handle) (select : List Handle → Nat → EditM C (List Handle)) :
    EditM C (List Handle) := do
  match ← EditM.query fun F => F.parent h with
  | none =>
    EditM.notify (.siblingsOfRoot (← EditM.describe h))
    return []
  | some parent =>
    let index ← EditM.query fun F => F.positionIn parent h
    select (← EditM.query fun F => F.children parent) index

def leftSiblings (h : Handle) : EditM C (List Handle) := siblings h fun cs i => slice cs 0 i

def rightSiblings (h : Handle) : EditM C (List Handle) :=
  siblings h fun cs i => do slice cs (← plus i 1) cs.length

end

section
variable [ShallowCopy C]

def addChildRightOf (parent child sibling : Handle) : EditM C Handle := do
  let index ← EditM.query fun F => F.siblingIndex parent sibling
  EditM.insertChild parent (← plus index 1) child

def insertBeside (side : Side) (base new : Handle) (move : Bool) : EditM C Handle := do
  match ← EditM.query fun F => F.parent base with
  | none =>
    EditM.notify (.insertedNextToRoot (← EditM.describe base))
    return new
  | some parent =>
    if move then
      EditM.query fun F => F.ensureNotAbove base new
      EditM.detach new
    let index ← EditM.query fun F => F.positionIn parent base
    EditM.insertChild parent (← plus index side.offset) new

def setChildAndRemove (parent new : Handle) (start stop : Nat) : EditM C Handle := do
  if stop ≤ start then throw (← EditM.look fun F => F.indexError parent start)
  if stop > (← EditM.query fun F => F.numChildren parent) then
    throw (← EditM.look fun F => F.indexError parent stop)
  discard (EditM.setChild parent start new)
  let next ← plus start 1
  discard (removeSlice parent next (← minus stop next))
  EditM.query fun F => F.child parent start

end

/-! ## Calls of a cursor -/

def next : CursorM C (Option Handle) := do
  let c ← get
  match c.children[c.position]? with
  | none => return none
  | some child =>
    let position ← CursorM.edit (plus c.position 1)
    modify fun c => { c with position, last := some c.position }
    return some child

def previous : CursorM C (Option Handle) := do
  let c ← get
  if c.position = 0 then return none
  let i ← CursorM.edit (minus c.position 1)
  match c.children[i]? with
  | none => return none
  | some child =>
    modify fun c => { c with position := i, last := some i }
    return some child

/-- Moves by a signed machine word; its magnitude is the unsigned word that counts the steps. -/
def moveBy (amount : BitVec 64) (c : Cursor C) : Option Handle × Cursor C :=
  if amount = 0 then (c.lastReturned?, c)
  else
    Cursor.repeatMove (if 0 < amount.toInt then Cursor.next else Cursor.previous) amount.abs.toNat
      none c

section
variable [ShallowCopy C]

def remove : CursorM C Handle := do
  let index ← CursorM.requireLast .removeUnmoved
  let c ← get
  let removed ← CursorM.edit (EditM.removeChild c.parent index)
  let position ← if index < c.position then CursorM.edit (minus c.position 1) else pure c.position
  modify fun c => { c with position, last := none }
  return removed

def add (new : Handle) : CursorM C Handle := do
  let c ← get
  let inserted ← CursorM.edit (EditM.insertChild c.parent c.position new)
  let position ← CursorM.edit (plus c.position 1)
  modify fun c => { c with position, last := none }
  return inserted

def removeBack : Nat → CursorM C Unit
  | 0 => return ()
  | n + 1 => do
    discard remove
    if (← previous).isNone then throw (.cursorState .replaceShort)
    removeBack n

def replace (new : Handle) (count : Nat) : CursorM C Handle := do
  if count = 0 then throw (.cursorState .replaceNone)
  let last ← CursorM.requireLast .replaceUnmoved
  if (← CursorM.edit (plus last 1)) < count then throw (.cursorState .replaceShort)
  removeBack (← CursorM.edit (minus count 1))
  let inserted ← CursorM.set new
  let c ← get
  if c.last.any fun index => decide (index < c.position) then
    discard previous
  return inserted

end
end Guarded

/-- An edit with guarded arithmetic. What holds a session for a while carries out such edits one after
the other, and computes with no position itself. -/
def Edit.guarded {C : Type} [ShallowCopy C] : Edit C → EditM C Unit
  | addChildRightOf p x y => discard (Guarded.addChildRightOf p x y)
  | removeChildrenRange p start stop => discard (Guarded.removeChildrenRange p start stop)
  | removeChildrenOfKind p k => discard (Guarded.removeChildrenOfKind p k)
  | setChildAndRemove p x start stop => discard (Guarded.setChildAndRemove p x start stop)
  | insertBeside side base x move => discard (Guarded.insertBeside side base x move)
  | e => e.run

/-- A call of a cursor with guarded arithmetic; the other movements are repetitions of these. -/
def Cursor.Move.guarded {C : Type} [ShallowCopy C] : Move C → CursorM C Unit
  | next => discard Guarded.next
  | previous => discard Guarded.previous
  | remove => discard Guarded.remove
  | add x => discard (Guarded.add x)
  | replace x count => discard (Guarded.replace x count)
  | m => m.run

/-! ## Room -/

/-- A list of children leaves room in the store for one position more than it has. -/
theorem Forest.Branching.length_below_lt {C : Type} {F : Forest C} (hF : F.Branching)
    (p : Handle) : (F.below p).length < F.nodes.capacity := by
  cases hp : F.contains p with
  | false =>
    rw [below_eq_nil_of_not_contains hp]
    exact F.nodes.slots_pos
  | true =>
    have hnot : p ∉ F.below p := fun hm => hF.acyclic p (.single hm)
    have hnd : (p :: F.below p).Nodup := List.nodup_cons.mpr ⟨hnot, hF.nodup p⟩
    have hlive : ∀ h ∈ p :: F.below p, F.contains h = true := by
      intro h hh
      rcases List.mem_cons.mp hh with rfl | hh
      · exact hp
      · exact hF.contains hh
    exact Nat.le_trans (length_le_size hnd hlive) (size_le_capacity F)

theorem LeadsTo.capacity_le {C : Type} {s t : Session C} (h : LeadsTo s t) :
    s.forest.nodes.capacity ≤ t.forest.nodes.capacity := by
  obtain ⟨hs, hst⟩ := h
  exact hst.capacity_le

namespace Forest
variable {C : Type} {F : Forest C} {p h : Handle} {i : Nat}

theorem lt_of_indexOfChild (hi : F.indexOfChild p h = .ok (some i)) :
    i < (F.below p).length := by
  cases hcs : F.children p with
  | error e =>
    rw [indexOfChild, hcs] at hi
    cases hi
  | ok cs =>
    rw [indexOfChild, hcs] at hi
    obtain ⟨-, rfl⟩ := children_eq_ok hcs
    obtain ⟨hlt, -⟩ := List.findIdx?_eq_some_iff_getElem.mp (Except.ok.inj hi)
    exact hlt

variable [Content C]

theorem lt_of_siblingIndex (hi : F.siblingIndex p h = .ok i) : i < (F.below p).length := by
  cases hindex : F.indexOfChild p h with
  | error e =>
    rw [siblingIndex, hindex] at hi
    cases hi
  | ok index? =>
    rw [siblingIndex, hindex] at hi
    cases index? with
    | none => cases hi
    | some j =>
      cases hi
      exact lt_of_indexOfChild hindex

theorem lt_of_positionIn (hi : F.positionIn p h = .ok i) : i < (F.below p).length := by
  cases hindex : F.indexOfChild p h with
  | error e =>
    rw [positionIn, hindex] at hi
    cases hi
  | ok index? =>
    rw [positionIn, hindex] at hi
    cases index? with
    | none => cases hi
    | some j =>
      cases hi
      exact lt_of_indexOfChild hindex

end Forest

/-- Two sequences run alike if they do after their first part. -/
theorem bind_congr_of_ok {ε σ α β : Type} {x : EStateM ε σ α} {f g : α → EStateM ε σ β} {s : σ}
    (h : ∀ a t, x s = .ok a t → f a t = g a t) : (x >>= f) s = (x >>= g) s := by
  cases hx : x s with
  | ok a t => rw [bind_of_ok f hx, bind_of_ok g hx, h a t hx]
  | error e t => rw [bind_of_error f hx, bind_of_error g hx]

theorem bind_congr_left {ε σ α β : Type} {x y : EStateM ε σ α} (f : α → EStateM ε σ β) {s : σ}
    (h : x s = y s) : (x >>= f) s = (y >>= f) s := by
  simp only [bind, EStateM.bind, h]

theorem discard_congr {ε σ α : Type} {x y : EStateM ε σ α} {s : σ} (h : x s = y s) :
    discard x s = discard y s := by
  simp only [discard, Functor.discard, Functor.mapConst, EStateM.map, Function.comp_apply, h]

namespace Guarded
variable {C : Type} {s : Session C} {i n : Nat}

theorem plus_of_le (h : i + n ≤ s.forest.nodes.capacity) : plus i n s = .ok (i + n) s := by
  rw [plus, bind_of_ok _ (EditM.look_run _ s)]
  simp only [if_neg (Nat.not_lt.mpr h)]
  rfl

theorem minus_of_le (h : n ≤ i) : minus i n s = .ok (i - n) s := by
  simp only [minus, if_neg (Nat.not_lt.mpr h)]
  rfl

theorem slice_of_le {l : List Handle} {start stop : Nat} (hstart : start ≤ stop)
    (hstop : stop ≤ l.length) : slice l start stop s = .ok ((l.take stop).drop start) s := by
  have hin : ¬(stop < start ∨ l.length < stop) := by omega
  simp only [slice, if_neg hin]
  rfl

/-! ## Guards that never strike -/

section
variable [Content C]

theorem removeSlice_eq (p : Handle) (start : Nat) (hroom : start + n ≤ s.forest.nodes.capacity) :
    removeSlice p start n s = EditM.removeSlice p start n s := by
  induction n generalizing s with
  | zero => rfl
  | succ n ih =>
    rw [removeSlice, EditM.removeSlice, bind_of_ok _ (plus_of_le (by omega))]
    refine bind_congr_of_ok fun last t ht => bind_congr_left _ (ih ?_)
    have hcap := ((EditM.partLaw_leadsTo.removeChild p _).of_ok ht).capacity_le
    omega

theorem removeChildrenRange_eq (hF : s.forest.Branching) (p : Handle) (start stop : Nat) :
    removeChildrenRange p start stop s = EditM.removeChildrenRange p start stop s := by
  refine bind_congr_of_ok fun len t hlen => ?_
  obtain ⟨hq, rfl⟩ := EditM.query_eq_ok.mp hlen
  obtain ⟨-, rfl⟩ := Forest.numChildren_eq_ok hq
  have hroom := hF.length_below_lt p
  by_cases horder : stop < start
  · simp only [if_pos horder]
    rfl
  by_cases hstop : stop > (t.forest.below p).length
  · simp only [if_neg horder, if_pos hstop]
    rfl
  simp only [if_neg horder, if_neg hstop]
  rw [bind_of_ok _ (minus_of_le (Nat.not_lt.mp horder))]
  exact removeSlice_eq p start (by omega)

theorem removeOfKindFrom_eq (p : Handle) (k : Kind C) (cs : List Handle)
    (hroom : i + cs.length ≤ s.forest.nodes.capacity) :
    removeOfKindFrom p k i cs s = EditM.removeOfKindFrom p k i cs s := by
  induction cs generalizing s i with
  | nil => rfl
  | cons c cs ih =>
    rw [List.length_cons] at hroom
    rw [removeOfKindFrom, EditM.removeOfKindFrom, bind_of_ok _ (plus_of_le (by omega))]
    refine bind_congr_of_ok fun kind t ht => ?_
    obtain ⟨-, rfl⟩ := EditM.query_eq_ok.mp ht
    by_cases hk : kind = k
    · rw [if_pos hk, if_pos hk]
      refine bind_congr_of_ok fun removed u hu => ?_
      have hcap := ((EditM.partLaw_leadsTo.removeChild p _).of_ok hu).capacity_le
      rw [bind_of_ok _ (minus_of_le (Nat.le_add_left 1 i)), Nat.add_sub_cancel]
      exact bind_congr_left _ (ih (by omega))
    · rw [if_neg hk, if_neg hk]
      exact ih (by omega)

theorem removeChildrenOfKind_eq (hF : s.forest.Branching) (p : Handle) (k : Kind C) :
    removeChildrenOfKind p k s = EditM.removeChildrenOfKind p k s := by
  refine bind_congr_of_ok fun cs t hcs => ?_
  obtain ⟨hq, rfl⟩ := EditM.query_eq_ok.mp hcs
  obtain ⟨-, rfl⟩ := Forest.children_eq_ok hq
  have hroom := hF.length_below_lt p
  exact removeOfKindFrom_eq p k _ (by omega)

/-- A selection with guards is the selection itself, if the guards hold at the position of every
child. -/
theorem siblings_eq {guarded : List Handle → Nat → EditM C (List Handle)}
    {select : List Handle → Nat → List Handle}
    (hselect : ∀ p i, i < (s.forest.below p).length →
      guarded (s.forest.below p) i s = .ok (select (s.forest.below p) i) s) (h : Handle) :
    siblings h guarded s = EditM.siblings h select s := by
  cases hp : s.forest.parent h with
  | error e =>
    have hask : s.forest.siblings? h select = .error e := by
      rw [Forest.siblings?, hp]
      rfl
    rw [siblings, EditM.siblings, bind_of_error _ (EditM.query_of_error hp),
      bind_of_error _ (EditM.query_of_error hask)]
  | ok parent? =>
    rw [siblings, bind_of_ok _ (EditM.query_of_ok hp)]
    cases parent? with
    | none =>
      have hask : s.forest.siblings? h select = .ok none := by
        rw [Forest.siblings?, hp]
        rfl
      rw [EditM.siblings, bind_of_ok _ (EditM.query_of_ok hask)]
    | some p =>
      cases hi : s.forest.positionIn p h with
      | error e =>
        have hask : s.forest.siblings? h select = .error e := by
          rw [Forest.siblings?, hp]
          simp only [bind, Except.bind, hi]
        rw [EditM.siblings, bind_of_error _ (EditM.query_of_error hask)]
        exact bind_of_error _ (EditM.query_of_error hi)
      | ok i =>
        have hlt := Forest.lt_of_positionIn hi
        have hkids := Forest.children_of_contains
          (Forest.contains_of_mem_below (List.getElem_mem hlt))
        have hask : s.forest.siblings? h select = .ok (some (select (s.forest.below p) i)) := by
          rw [Forest.siblings?, hp]
          simp only [bind, Except.bind, hi, hkids]
          rfl
        rw [EditM.siblings, bind_of_ok _ (EditM.query_of_ok hask)]
        simp only [bind_of_ok _ (EditM.query_of_ok (q := fun F => F.positionIn p h) hi),
          bind_of_ok _ (EditM.query_of_ok (q := fun F => F.children p) hkids)]
        exact hselect p i hlt

theorem leftSiblings_eq (h : Handle) : leftSiblings h s = EditM.leftSiblings h s :=
  siblings_eq (fun _ i hi => slice_of_le (Nat.zero_le i) (Nat.le_of_lt hi)) h

theorem rightSiblings_eq (hF : s.forest.Branching) (h : Handle) :
    rightSiblings h s = EditM.rightSiblings h s := by
  refine siblings_eq (fun p i hi => ?_) h
  have hroom := hF.length_below_lt p
  rw [bind_of_ok _ (plus_of_le (by omega)), slice_of_le hi (Nat.le_refl _), List.take_length]

end

section
variable [ShallowCopy C]

theorem addChildRightOf_eq (hF : s.forest.Branching) (p x y : Handle) :
    addChildRightOf p x y s = EditM.addChildRightOf p x y s := by
  refine bind_congr_of_ok fun i t hi => ?_
  obtain ⟨hq, rfl⟩ := EditM.query_eq_ok.mp hi
  have hroom := hF.length_below_lt p
  have hlt := Forest.lt_of_siblingIndex hq
  rw [bind_of_ok _ (plus_of_le (by omega))]

theorem insertBeside_eq (hF : s.forest.Branching) (side : Side) (base x : Handle) (move : Bool) :
    insertBeside side base x move s = EditM.insertBeside side base x move s := by
  have hinsert : ∀ (t : Session C) (p : Handle), t.forest.Branching →
      (do
        let i ← EditM.query fun F => F.positionIn p base
        EditM.insertChild p (← plus i side.offset) x : EditM C Handle) t =
      (do
        let i ← EditM.query fun F => F.positionIn p base
        EditM.insertChild p (i + side.offset) x : EditM C Handle) t := by
    intro t p ht
    refine bind_congr_of_ok fun i u hi => ?_
    obtain ⟨hq, rfl⟩ := EditM.query_eq_ok.mp hi
    have hroom := ht.length_below_lt p
    have hlt := Forest.lt_of_positionIn hq
    have hoffset : side.offset ≤ 1 := by cases side <;> decide
    rw [bind_of_ok _ (plus_of_le (by omega))]
  refine bind_congr_of_ok fun parent? t hparent => ?_
  obtain ⟨-, rfl⟩ := EditM.query_eq_ok.mp hparent
  cases parent? with
  | none => rfl
  | some p =>
    cases move with
    | false => exact hinsert t p hF
    | true =>
      refine bind_congr_of_ok fun _ u hu => bind_congr_of_ok fun _ v hv => ?_
      obtain ⟨-, rfl⟩ := EditM.query_eq_ok.mp hu
      exact hinsert v p ((EditM.detach_keepsBranching x).of_ok hv hF)

theorem setChildAndRemove_eq [BuiltCopy C] (hF : s.forest.Branching) (p x : Handle)
    (start stop : Nat) :
    setChildAndRemove p x start stop s = EditM.setChildAndRemove p x start stop s := by
  unfold setChildAndRemove EditM.setChildAndRemove
  by_cases horder : stop ≤ start
  · simp only [if_pos horder]
    rfl
  simp only [if_neg horder]
  refine bind_congr_of_ok fun len t hlen => ?_
  obtain ⟨hq, rfl⟩ := EditM.query_eq_ok.mp hlen
  obtain ⟨-, rfl⟩ := Forest.numChildren_eq_ok hq
  have hroom := hF.length_below_lt p
  by_cases hstop : stop > (t.forest.below p).length
  · simp only [if_pos hstop]
    rfl
  simp only [if_neg hstop]
  refine bind_congr_of_ok fun _ u hu => ?_
  have hcap := ((EditM.editLaw_leadsTo.setChild p start x).discard.of_ok hu).capacity_le
  rw [bind_of_ok _ (plus_of_le (by omega)), bind_of_ok _ (minus_of_le (by omega))]
  exact bind_congr_left _ (discard_congr (removeSlice_eq p (start + 1) (by omega)))

end
end Guarded
end Grove
