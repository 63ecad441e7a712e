import TreeSitter.Library.IndexMap

/-!
# TreeSitter.Library.Initializer

**Initializers of arrays** in C. An item is for the position behind the last one, or for one that
it designates; where nothing is written, a default stays. If every designator is for the next
position anyway, the array is the list of the values (`arrayOf_of_inOrder`). If every item has a
designator and they are distinct, the array is a table of the items (`arrayOf_designated`).
`ReadsAt` says what stands in an array from an offset on.
-/

namespace Library

open List

universe u

variable {α : Type u}

/-- An item of an initializer. -/
inductive InitItem (α : Type u) where
  | next (value : α)
  | designated (index : Nat) (value : α)

namespace InitItem

def value : InitItem α → α
  | next v => v
  | designated _ v => v

/-- Where an item is written, behind `position`. -/
def place (position : Nat) : InitItem α → Nat
  | next _ => position
  | designated index _ => index

end InitItem

/-- The position behind an item, and the array with it. -/
def writeItem (state : Nat × (Nat → α)) (item : InitItem α) : Nat × (Nat → α) :=
  (item.place state.1 + 1, Function.update state.2 (item.place state.1) item.value)

def arrayOf (default : α) (items : List (InitItem α)) : Nat → α :=
  (items.foldl writeItem (0, fun _ => default)).2

/-- Every designator is for the next position. -/
def InOrder : Nat → List (InitItem α) → Prop
  | _, [] => True
  | position, item :: items => item.place position = position ∧ InOrder (position + 1) items

theorem inOrder_next (values : List α) : ∀ position : Nat, InOrder position (values.map .next) := by
  induction values with
  | nil => exact fun _ => trivial
  | cons v values ih => exact fun position => ⟨rfl, ih (position + 1)⟩

variable {items : List (InitItem α)}

theorem inOrder_append {items' : List (InitItem α)} : ∀ {position : Nat},
    InOrder position items → InOrder (position + items.length) items' →
    InOrder position (items ++ items') := by
  induction items with
  | nil => exact fun _ h => h
  | cons item items ih =>
    intro position h h'
    refine ⟨h.1, ih h.2 ?_⟩
    rw [length_cons] at h'
    rwa [Nat.add_assoc, Nat.add_comm 1]

theorem foldl_writeItem_of_inOrder :
    ∀ {position : Nat} {a : Nat → α}, InOrder position items → ∀ p,
      (items.foldl writeItem (position, a)).2 p =
        if position ≤ p then ((items.map InitItem.value)[p - position]?).getD (a p) else a p := by
  induction items with
  | nil => intro position a _ p; simp
  | cons item items ih =>
    intro position a h p
    have hwrite : writeItem (position, a) item =
        (position + 1, Function.update a position item.value) := by
      rw [writeItem, h.1]
    rw [foldl_cons, hwrite, ih h.2]
    rcases Nat.lt_trichotomy p position with hlt | rfl | hgt
    · rw [if_neg (by omega), if_neg (by omega), Function.update_of_ne (by omega)]
    · rw [if_neg (by omega), if_pos le_rfl, Function.update_self]
      simp
    · obtain ⟨k, rfl⟩ : ∃ k, p = position + 1 + k := ⟨p - position - 1, by omega⟩
      rw [if_pos (by omega), if_pos (by omega), Function.update_of_ne (by omega),
        Nat.add_sub_cancel_left, Nat.add_assoc, Nat.add_sub_cancel_left, Nat.add_comm 1,
        map_cons, getElem?_cons_succ]

variable {default : α}

/-- **An initializer in order is a list of values.** -/
theorem arrayOf_of_inOrder (h : InOrder 0 items) (p : Nat) :
    arrayOf default items p = ((items.map InitItem.value)[p]?).getD default := by
  rw [arrayOf, foldl_writeItem_of_inOrder h, if_pos (Nat.zero_le _), Nat.sub_zero]

theorem foldl_writeItem_designated {items : List (Nat × α)} {p : Nat} : ∀ {state : Nat × (Nat → α)},
    (items.map Prod.fst).Nodup →
    ((items.map fun e => InitItem.designated e.1 e.2).foldl writeItem state).2 p =
      (lookupEntry p items).getD (state.2 p) := by
  induction items with
  | nil => intro state _; rfl
  | cons e items ih =>
    intro state hnodup
    rw [map_cons, nodup_cons] at hnodup
    rw [map_cons, foldl_cons, ih hnodup.2, writeItem, lookupEntry]
    dsimp only [InitItem.place, InitItem.value]
    by_cases hp : e.1 = p
    · have hnone : lookupEntry p items = none := by
        rw [Option.eq_none_iff_forall_ne_some]
        intro v hv
        exact hnodup.1 (mem_map.mpr ⟨(p, v), lookupEntry_eq_some hv, hp.symm⟩)
      rw [hnone, if_pos hp, hp, Function.update_self]
      rfl
    · rw [if_neg hp, Function.update_of_ne (Ne.symm hp)]

/-- **An initializer with distinct designators is a table.** -/
theorem arrayOf_designated {items : List (Nat × α)} (hnodup : (items.map Prod.fst).Nodup)
    (p : Nat) :
    arrayOf default (items.map fun e => InitItem.designated e.1 e.2) p =
      (lookupEntry p items).getD default :=
  foldl_writeItem_designated hnodup

/-! ### Reading -/

/-- An array has these values from an offset on. -/
def ReadsAt (array : Nat → α) (offset : Nat) (values : List α) : Prop :=
  ∀ j v, values[j]? = some v → array (offset + j) = v

variable {array : Nat → α} {values : List α} {offset : Nat}

theorem readsAt_cons {v : α} :
    ReadsAt array offset (v :: values) ↔ array offset = v ∧ ReadsAt array (offset + 1) values := by
  constructor
  · intro h
    refine ⟨h 0 v rfl, fun j w hj => ?_⟩
    rw [Nat.add_assoc, Nat.add_comm 1]
    exact h (j + 1) w hj
  · intro h j w hj
    cases j with
    | zero => exact h.1.trans (Option.some.inj hj)
    | succ j =>
      rw [← h.2 j w hj, Nat.add_assoc, Nat.add_comm 1]

theorem readsAt_append {values' : List α} : ∀ {offset : Nat},
    ReadsAt array offset (values ++ values') ↔
      ReadsAt array offset values ∧ ReadsAt array (offset + values.length) values' := by
  induction values with
  | nil => intro offset; exact ⟨fun h => ⟨fun _ _ hj => (nomatch hj), h⟩, And.right⟩
  | cons v values ih =>
    intro offset
    rw [cons_append, readsAt_cons, readsAt_cons, ih, and_assoc, length_cons,
      Nat.add_assoc, Nat.add_comm 1]

theorem ReadsAt.map_range (h : ReadsAt array offset values) :
    (List.range values.length).map (fun j => array (offset + j)) = values := by
  refine ext_getElem? fun j => ?_
  rw [getElem?_map]
  cases hj : values[j]? with
  | none =>
    rw [getElem?_eq_none (by simpa using getElem?_eq_none_iff.mp hj)]
    rfl
  | some v =>
    rw [List.getElem?_range (List.getElem?_eq_some_iff.mp hj).1, Option.map_some, h j v hj]

theorem ReadsAt.any_range [DecidableEq α] (h : ReadsAt array offset values) (v : α) :
    ((List.range values.length).any fun j => array (offset + j) = v) = decide (v ∈ values) := by
  conv_rhs => rw [← h.map_range]
  rw [Bool.eq_iff_iff, any_eq_true, decide_eq_true_eq, mem_map]
  simp

theorem readsAt_arrayOf (h : InOrder 0 items) :
    ReadsAt (arrayOf default items) 0 (items.map InitItem.value) := by
  intro j v hj
  rw [Nat.zero_add, arrayOf_of_inOrder h, hj, Option.getD_some]

end Library
