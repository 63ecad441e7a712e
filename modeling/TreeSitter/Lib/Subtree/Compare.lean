import TreeSitter.Lib.Subtree.Summarize

/-!
# TreeSitter.Lib.Subtree.Compare

**The order of subtrees.** `ts_subtree_compare` walks over two trees at once, with one stack on
which their nodes lie in pairs. It compares symbols and numbers of children, in preorder: the result
is that of comparing the sequences of these, which a tree is written down with, as words
(`compare_eq`). So it is a total preorder.
-/

namespace TreeSitter.Lib

open List

/-- A subtree: what the accessors say of it, and its children. -/
inductive ParsedTree where
  | mk (data : ChildFacts) (children : List ParsedTree)

namespace ParsedTree

def data : ParsedTree → ChildFacts
  | mk data _ => data

/-- `ts_subtree_children`. -/
def children : ParsedTree → List ParsedTree
  | mk _ children => children

/-- `ts_subtree_symbol`. -/
def symbol (tree : ParsedTree) : Nat := tree.data.symbol

/-- `ts_subtree_child_count`. -/
def childCount (tree : ParsedTree) : Nat := tree.children.length

/-- `ts_subtree_extra`. -/
def extra (tree : ParsedTree) : Bool := tree.data.extra

/-- `ts_subtree_error_cost`. -/
def errorCost (tree : ParsedTree) : Nat := tree.data.errorCost

/-- `ts_subtree_dynamic_precedence`. -/
def dynamicPrecedence (tree : ParsedTree) : Int :=
  if tree.childCount = 0 then 0 else tree.data.dynamicPrecedence

/-- What a parent reads of the tree. -/
def facts (tree : ParsedTree) : ChildFacts :=
  { tree.data with childCount := tree.childCount, dynamicPrecedence := tree.dynamicPrecedence }

mutual

/-- The number of nodes. -/
def nodeCount : ParsedTree → Nat
  | mk _ children => nodeCounts children + 1

/-- The number of nodes of some trees. -/
def nodeCounts : List ParsedTree → Nat
  | [] => 0
  | tree :: trees => nodeCount tree + nodeCounts trees

end

/-! ### The comparison -/

/-- The loop of `ts_subtree_compare` that puts the children on the stack, the first ones last. -/
def pushChildren (left right : List ParsedTree) : Nat → List ParsedTree → Option (List ParsedTree)
  | 0, stack => some stack
  | i + 1, stack => do
      let leftChild ← left[i]?
      let rightChild ← right[i]?
      pushChildren left right i (rightChild :: leftChild :: stack)

/-- The outer loop of `ts_subtree_compare`. The stack has its top in front. -/
def compareLoop : Nat → List ParsedTree → Option Int
  | 0, _ => none
  | _ + 1, [] => some 0
  | _ + 1, [_] => none
  | fuel + 1, right :: left :: stack =>
    if left.symbol < right.symbol then some (-1)
    else if right.symbol < left.symbol then some 1
    else if left.childCount < right.childCount then some (-1)
    else if right.childCount < left.childCount then some 1
    else do
      let stack ← pushChildren left.children right.children left.childCount stack
      compareLoop fuel stack

/-- `ts_subtree_compare`. The stack is shared, and empty whenever it is not in use. -/
def compare (left right : ParsedTree) : Option Int :=
  compareLoop (left.nodeCount + 1) [right, left]

/-! ### The order -/

mutual

/-- The symbols and numbers of children of a tree, in preorder. -/
def preorder : ParsedTree → List (Nat ×ₗ Nat)
  | mk data children => toLex (data.symbol, children.length) :: preorders children

/-- The sequences of some trees, one after another. -/
def preorders : List ParsedTree → List (Nat ×ₗ Nat)
  | [] => []
  | tree :: trees => preorder tree ++ preorders trees

end

/-- The result of a comparison. -/
def sign {α : Type} [LinearOrder α] (x y : α) : Int :=
  if x < y then -1 else if y < x then 1 else 0

theorem sign_self {α : Type} [LinearOrder α] (x : α) : sign x x = 0 := by
  rw [sign, if_neg (lt_irrefl x), if_neg (lt_irrefl x)]

theorem sign_eq_one {α : Type} [LinearOrder α] {x y : α} : sign x y = 1 ↔ y < x := by
  unfold sign
  split
  · next hlt => exact ⟨fun h => (by cases h), fun h => absurd h hlt.not_gt⟩
  · split
    · next hlt => exact ⟨fun _ => hlt, fun _ => rfl⟩
    · next hnot => exact ⟨fun h => (by cases h), fun h => absurd h hnot⟩

theorem sign_cons {α : Type} [LinearOrder α] (x y : α) (xs ys : List α) :
    sign (x :: xs) (y :: ys) = if x < y then -1 else if y < x then 1 else sign xs ys := by
  unfold sign
  rcases lt_trichotomy x y with hlt | rfl | hgt
  · have hcons : x :: xs < y :: ys := cons_lt_cons_iff.mpr (.inl hlt)
    rw [if_pos hcons, if_pos hlt]
  · have hcons (xs ys : List α) : x :: xs < x :: ys ↔ xs < ys := by
      rw [cons_lt_cons_iff, and_iff_right rfl, or_iff_right (lt_irrefl x)]
    rw [if_neg (lt_irrefl x), if_neg (lt_irrefl x)]
    by_cases hlt : xs < ys
    · rw [if_pos ((hcons xs ys).mpr hlt), if_pos hlt]
    · rw [if_neg fun h => hlt ((hcons xs ys).mp h), if_neg hlt]
      by_cases hgt : ys < xs
      · rw [if_pos ((hcons ys xs).mpr hgt), if_pos hgt]
      · rw [if_neg fun h => hgt ((hcons ys xs).mp h), if_neg hgt]
  · have hcons : y :: ys < x :: xs := cons_lt_cons_iff.mpr (.inl hgt)
    rw [if_neg hcons.not_gt, if_pos hcons, if_neg hgt.not_gt, if_pos hgt]

/-- Pairs of trees as they lie on the stack. -/
def interleave (pairs : List (ParsedTree × ParsedTree)) : List ParsedTree :=
  pairs.flatMap fun pair => [pair.2, pair.1]

theorem preorders_append (trees trees' : List ParsedTree) :
    preorders (trees ++ trees') = preorders trees ++ preorders trees' := by
  induction trees with
  | nil => rfl
  | cons tree trees ih => rw [cons_append, preorders, preorders, ih, append_assoc]

theorem nodeCounts_append (trees trees' : List ParsedTree) :
    nodeCounts (trees ++ trees') = nodeCounts trees + nodeCounts trees' := by
  induction trees with
  | nil => exact (Nat.zero_add _).symm
  | cons tree trees ih => rw [cons_append, nodeCounts, nodeCounts, ih, Nat.add_assoc]

theorem pushChildren_eq {left right : List ParsedTree} {n : Nat} (hleft : n ≤ left.length)
    (hright : n ≤ right.length) (stack : List ParsedTree) :
    pushChildren left right n stack =
      some (interleave ((left.take n).zip (right.take n)) ++ stack) := by
  induction n generalizing stack with
  | zero => rfl
  | succ n ih =>
    have hl := getElem?_eq_getElem hleft
    have hr := getElem?_eq_getElem hright
    have hlength : (left.take n).length = (right.take n).length := by
      rw [length_take, length_take]
      omega
    simp only [pushChildren, hl, hr, Option.bind_eq_bind, Option.bind_some,
      ih (Nat.le_of_succ_le hleft) (Nat.le_of_succ_le hright)]
    rw [take_add_one, take_add_one, hl, hr, zip_append hlength, interleave, interleave,
      flatMap_append, append_assoc]
    rfl

theorem compareLoop_eq {fuel : Nat} {pairs : List (ParsedTree × ParsedTree)}
    (h : nodeCounts (pairs.map Prod.fst) < fuel) :
    compareLoop fuel (interleave pairs) =
      some (sign (preorders (pairs.map Prod.fst)) (preorders (pairs.map Prod.snd))) := by
  induction fuel generalizing pairs with
  | zero => exact absurd h (Nat.not_lt_zero _)
  | succ fuel ih =>
    cases pairs with
    | nil => exact congrArg some (sign_self _).symm
    | cons pair pairs =>
      obtain ⟨⟨ldata, lchildren⟩, ⟨rdata, rchildren⟩⟩ := pair
      rw [map_cons, map_cons, preorders, preorders, preorder, preorder,
        cons_append, cons_append, sign_cons]
      change (if ldata.symbol < rdata.symbol then some (-1)
        else if rdata.symbol < ldata.symbol then some 1
        else if lchildren.length < rchildren.length then some (-1)
        else if rchildren.length < lchildren.length then some 1
        else (pushChildren lchildren rchildren lchildren.length (interleave pairs)).bind
          (compareLoop fuel)) = _
      simp only [Prod.Lex.toLex_lt_toLex]
      rcases lt_trichotomy ldata.symbol rdata.symbol with hlt | heq | hgt
      · rw [if_pos hlt, if_pos (.inl hlt)]
      · rw [heq, if_neg (lt_irrefl _), if_neg (lt_irrefl _)]
        simp only [lt_irrefl, false_or, true_and]
        rcases lt_trichotomy lchildren.length rchildren.length with hlt | heq | hgt
        · rw [if_pos hlt, if_pos hlt]
        · -- The nodes agree, and their children take their place.
          rw [heq, if_neg (lt_irrefl _), if_neg (lt_irrefl _), if_neg (lt_irrefl _),
            if_neg (lt_irrefl _), pushChildren_eq heq.ge le_rfl, Option.bind_some,
            take_of_length_le heq.le, take_length, interleave, interleave,
            ← flatMap_append, ← preorders_append, ← preorders_append]
          have hfst := map_fst_zip heq.le
          have hsnd := map_snd_zip heq.ge
          have hnext : compareLoop fuel (interleave (lchildren.zip rchildren ++ pairs)) = _ :=
            ih (by
              rw [map_append, hfst, nodeCounts_append]
              rw [map_cons, nodeCounts, nodeCount] at h
              omega)
          rw [map_append, map_append, hfst, hsnd] at hnext
          exact hnext
        · rw [if_neg hgt.not_gt, if_pos hgt, if_neg hgt.not_gt, if_pos hgt]
      · rw [if_neg hgt.not_gt, if_pos hgt, if_neg, if_pos (.inl hgt)]
        rintro (hlt | ⟨heq, -⟩)
        · exact hgt.not_gt hlt
        · exact hgt.ne' heq

/-- **The comparison is that of the sequences.** -/
theorem compare_eq (left right : ParsedTree) :
    left.compare right = some (sign left.preorder right.preorder) := by
  have hpair : nodeCounts [left] < left.nodeCount + 1 := by
    rw [nodeCounts, nodeCounts]
    exact Nat.lt_succ_self _
  have h : compareLoop (left.nodeCount + 1) (interleave [(left, right)]) = _ :=
    compareLoop_eq hpair
  rw [map_singleton, map_singleton, preorders, preorders, preorders, preorders,
    append_nil, append_nil] at h
  exact h

end ParsedTree

end TreeSitter.Lib
