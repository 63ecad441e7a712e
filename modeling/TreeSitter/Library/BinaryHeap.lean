import Mathlib

/-!
# TreeSitter.Library.BinaryHeap

A **binary min-heap** in a list, with the children of position `i` at `2 * i + 1` and
`2 * i + 2`. The elements are compared by `precedes`, which has to order them by a key of a linear
order; different elements may have equal keys.

The prefix that is a heap may be shorter than the list (`HeapTo`), so that elements can be
appended first and sifted into place later.
-/

namespace Library

open List

namespace BinaryHeap

variable {α κ : Type*}

/-! ### The operations -/

/-- The two positions exchange their elements. -/
def swapAt (xs : List α) (i j : Nat) : List α :=
  match xs[i]?, xs[j]? with
  | some a, some b => (xs.set i b).set j a
  | _, _ => xs

/-- The candidate, if it is there and precedes the element at the position chosen so far. -/
def pick (precedes : α → α → Bool) (xs : List α) (candidate chosen : Nat) : Nat :=
  match xs[candidate]?, xs[chosen]? with
  | some a, some b => if precedes a b then candidate else chosen
  | _, _ => chosen

/-- Move an element down until no child precedes it, in at most so many turns. -/
def siftDownLoop (precedes : α → α → Bool) : Nat → List α → Nat → List α
  | 0, xs, _ => xs
  | turns + 1, xs, index =>
    let smallest := pick precedes xs (2 * index + 2) (pick precedes xs (2 * index + 1) index)
    if smallest = index then xs
    else siftDownLoop precedes turns (swapAt xs index smallest) smallest

def siftDown (precedes : α → α → Bool) (xs : List α) (index : Nat) : List α :=
  siftDownLoop precedes xs.length xs index

/-- Move an element up until its parent is not preceded by it, in at most so many turns. -/
def siftUpLoop (precedes : α → α → Bool) : Nat → List α → Nat → List α
  | 0, xs, _ => xs
  | turns + 1, xs, index =>
    if index > 0 then
      let parent := (index - 1) / 2
      if pick precedes xs index parent = index then
        siftUpLoop precedes turns (swapAt xs index parent) parent
      else xs
    else xs

def siftUp (precedes : α → α → Bool) (xs : List α) (index : Nat) : List α :=
  siftUpLoop precedes index xs index

/-- The last element takes the place of another one, and the list gets shorter. -/
def replaceByLast (xs : List α) (index : Nat) : List α :=
  match xs.getLast? with
  | some last => (xs.set index last).dropLast
  | none => xs

/-- Remove the root. -/
def pop (precedes : α → α → Bool) (xs : List α) : List α :=
  let xs := replaceByLast xs 0
  if xs.length > 0 then siftDown precedes xs 0 else xs

/-- Remove the element at a position: the one that takes its place may have to go up or down. -/
def erase (precedes : α → α → Bool) (xs : List α) (index : Nat) : List α :=
  if index + 1 = xs.length then xs.dropLast
  else
    let xs := replaceByLast xs index
    if index > 0 ∧ pick precedes xs index ((index - 1) / 2) = index then siftUp precedes xs index
    else siftDown precedes xs index

/-- Sift up so many elements, from a position on. -/
def heapifyFrom (precedes : α → α → Bool) : Nat → List α → Nat → List α
  | 0, xs, _ => xs
  | count + 1, xs, heapSize => heapifyFrom precedes count (siftUp precedes xs heapSize) (heapSize + 1)

/-! ### Keys -/

variable {key : α → κ} {precedes : α → α → Bool}

/-- The key at a position; there is nothing above the end of the list. -/
def keyAt (key : α → κ) (xs : List α) (i : Nat) : WithTop κ :=
  xs[i]?.elim ⊤ fun a => (key a : WithTop κ)

variable {xs ys : List α} {i : Nat}

theorem keyAt_congr (h : xs[i]? = ys[i]?) :
    keyAt key xs i = keyAt key ys i := by
  rw [keyAt, keyAt, h]

theorem keyAt_of_forall {key' : α → κ} (h : ∀ x ∈ xs, key' x = key x) (i : Nat) :
    keyAt key' xs i = keyAt key xs i := by
  rw [keyAt, keyAt]
  cases hget : xs[i]? with
  | none => rfl
  | some x => simp [h x (mem_of_getElem? hget)]

theorem length_swapAt (xs : List α) (i j : Nat) : (swapAt xs i j).length = xs.length := by
  unfold swapAt
  split <;> simp

theorem keyAt_swapAt {j : Nat} (hi : i < xs.length) (hj : j < xs.length) (k : Nat) :
    keyAt key (swapAt xs i j) k =
      if k = j then keyAt key xs i else if k = i then keyAt key xs j else keyAt key xs k := by
  have hget : (swapAt xs i j)[k]? = if k = j then xs[i]? else if k = i then xs[j]? else xs[k]? := by
    rw [swapAt, getElem?_eq_getElem hi, getElem?_eq_getElem hj]
    simp only [getElem?_set, length_set]
    by_cases hkj : k = j
    · subst hkj
      simp [hj]
    · by_cases hki : k = i
      · subst hki
        simp [hi, hkj, Ne.symm hkj]
      · simp [hkj, hki, Ne.symm hkj, Ne.symm hki]
  simp only [keyAt, hget]
  split
  · rfl
  · split <;> rfl

theorem swapAt_perm (xs : List α) (i j : Nat) : (swapAt xs i j).Perm xs := by
  unfold swapAt
  split
  · rename_i a b ha hb
    obtain ⟨hi, rfl⟩ := List.getElem?_eq_some_iff.1 ha
    obtain ⟨hj, rfl⟩ := List.getElem?_eq_some_iff.1 hb
    exact set_set_perm hi hj
  · exact .refl _

variable [LinearOrder κ]

/-- The first `n` elements are a heap. -/
def HeapTo (key : α → κ) (n : Nat) (xs : List α) : Prop :=
  ∀ i, 0 < i → i < n → keyAt key xs ((i - 1) / 2) ≤ keyAt key xs i

theorem keyAt_lt_top : keyAt key xs i < ⊤ ↔ i < xs.length := by
  rw [keyAt]
  cases h : xs[i]? with
  | none => simpa using getElem?_eq_none_iff.1 h
  | some a => simpa using (List.getElem?_eq_some_iff.1 h).1

/-- What the choice comes to: the position with the smaller key, the old one when they are
equal. -/
theorem pick_cases (hprecedes : ∀ a b, precedes a b = decide (key a < key b)) (xs : List α)
    (candidate chosen : Nat) (hchosen : chosen < xs.length) :
    (pick precedes xs candidate chosen = candidate ∧ keyAt key xs candidate < keyAt key xs chosen) ∨
      (pick precedes xs candidate chosen = chosen ∧
        keyAt key xs chosen ≤ keyAt key xs candidate) := by
  unfold pick keyAt
  rw [getElem?_eq_getElem hchosen]
  cases h : xs[candidate]? with
  | none => simp
  | some a =>
    simp only [hprecedes, decide_eq_true_iff, Option.elim_some, WithTop.coe_lt_coe,
      WithTop.coe_le_coe]
    split
    · exact .inl ⟨rfl, by assumption⟩
    · exact .inr ⟨rfl, not_lt.1 (by assumption)⟩

/-! ### Sifting down -/

/-- The only edges that may be out of order are those from a position to its children, and its
parent is not after them. -/
structure DownReady (key : α → κ) (xs : List α) (index : Nat) : Prop where
  inside : index < xs.length
  others : ∀ i, 0 < i → (i - 1) / 2 ≠ index → keyAt key xs ((i - 1) / 2) ≤ keyAt key xs i
  grand : 0 < index → ∀ c, 0 < c → (c - 1) / 2 = index →
    keyAt key xs ((index - 1) / 2) ≤ keyAt key xs c

variable {index : Nat}

theorem DownReady.swap {child : Nat} (h : DownReady key xs index) (hchild : 0 < child)
    (hparent : (child - 1) / 2 = index) (hlt : keyAt key xs child < keyAt key xs index)
    (hmin : ∀ c, 0 < c → (c - 1) / 2 = index → keyAt key xs child ≤ keyAt key xs c) :
    DownReady key (swapAt xs index child) child := by
  have hinside : child < xs.length := keyAt_lt_top.1 (hlt.trans_le le_top)
  have hne : index ≠ child := by omega
  refine ⟨by rwa [length_swapAt], ?_, ?_⟩
  · intro i hi hpi
    rw [keyAt_swapAt h.inside hinside, keyAt_swapAt h.inside hinside]
    rw [if_neg hpi]
    by_cases hic : i = child
    · -- the edge on which the exchange was
      rw [if_pos hic, if_pos (hic ▸ hparent)]
      exact hlt.le
    · rw [if_neg hic]
      by_cases hii : i = index
      · have := h.grand (by omega) child hchild hparent
        rw [if_pos hii, if_neg (by omega), hii]
        exact this
      · rw [if_neg hii]
        by_cases hpp : (i - 1) / 2 = index
        · rw [if_pos hpp]
          exact hmin i hi hpp
        · rw [if_neg hpp]
          exact h.others i hi hpp
  · intro _ c hc hpc
    rw [keyAt_swapAt h.inside hinside, keyAt_swapAt h.inside hinside, hparent, if_neg hne, if_pos rfl,
      if_neg (by omega), if_neg (by omega)]
    have := h.others c hc (by omega)
    rwa [hpc] at this

theorem siftDownLoop_heap (hprecedes : ∀ a b, precedes a b = decide (key a < key b)) :
    ∀ {turns : Nat} {xs : List α} {index : Nat}, xs.length ≤ turns + index →
    DownReady key xs index → ∀ n, HeapTo key n (siftDownLoop precedes turns xs index) := by
  intro turns
  induction turns with
  | zero =>
    intro xs index hturns h
    have := h.inside
    omega
  | succ turns ih =>
    intro xs index hturns h n
    rw [siftDownLoop]
    have hchild : ∀ c, 0 < c → (c - 1) / 2 = index → c = 2 * index + 1 ∨ c = 2 * index + 2 := by
      intro c hc hpc
      omega
    rcases pick_cases hprecedes xs (2 * index + 1) index h.inside with ⟨hl, hlt⟩ | ⟨hl, hle⟩
    · have hinside := keyAt_lt_top.1 (hlt.trans_le le_top)
      rw [hl]
      rcases pick_cases hprecedes xs (2 * index + 2) (2 * index + 1) hinside with ⟨hr, hrt⟩ | ⟨hr, hre⟩
      · rw [hr, if_neg (by omega)]
        refine ih (by rw [length_swapAt]; omega) (h.swap (by omega) (by omega) (hrt.trans hlt) ?_) n
        intro c hc hpc
        rcases hchild c hc hpc with rfl | rfl
        · exact hrt.le
        · exact le_rfl
      · rw [hr, if_neg (by omega)]
        refine ih (by rw [length_swapAt]; omega) (h.swap (by omega) (by omega) hlt ?_) n
        intro c hc hpc
        rcases hchild c hc hpc with rfl | rfl
        · exact le_rfl
        · exact hre
    · rw [hl]
      rcases pick_cases hprecedes xs (2 * index + 2) index h.inside with ⟨hr, hrt⟩ | ⟨hr, hre⟩
      · rw [hr, if_neg (by omega)]
        refine ih (by rw [length_swapAt]; omega) (h.swap (by omega) (by omega) hrt ?_) n
        intro c hc hpc
        rcases hchild c hc hpc with rfl | rfl
        · exact (hrt.trans_le hle).le
        · exact le_rfl
      · rw [hr, if_pos rfl]
        intro i hi _
        by_cases hpi : (i - 1) / 2 = index
        · rw [hpi]
          rcases hchild i hi hpi with rfl | rfl
          · exact hle
          · exact hre
        · exact h.others i hi hpi

theorem siftDownLoop_perm : ∀ {turns : Nat} {xs : List α} {index : Nat},
    (siftDownLoop precedes turns xs index).Perm xs := by
  intro turns
  induction turns with
  | zero =>
    intro xs index
    exact .refl _
  | succ turns ih =>
    intro xs index
    rw [siftDownLoop]
    split
    · exact .refl _
    · exact ih.trans (swapAt_perm _ _ _)

theorem siftDown_heap (hprecedes : ∀ a b, precedes a b = decide (key a < key b))
    (h : DownReady key xs index) (n : Nat) : HeapTo key n (siftDown precedes xs index) :=
  siftDownLoop_heap hprecedes (by omega) h n

theorem siftDown_perm (xs : List α) (index : Nat) : (siftDown precedes xs index).Perm xs :=
  siftDownLoop_perm

/-! ### Sifting up -/

/-- The only edge among the first `n` elements that may be out of order is the one from a position
to its parent, which is not after the position's children. -/
structure UpReady (key : α → κ) (n : Nat) (xs : List α) (index : Nat) : Prop where
  inside : index < xs.length
  others : ∀ i, 0 < i → i < n → i ≠ index → keyAt key xs ((i - 1) / 2) ≤ keyAt key xs i
  grand : 0 < index → ∀ c, 0 < c → c < n → (c - 1) / 2 = index →
    keyAt key xs ((index - 1) / 2) ≤ keyAt key xs c

variable {n : Nat}

theorem UpReady.swap (h : UpReady key n xs index) (hpos : 0 < index)
    (hlt : keyAt key xs index < keyAt key xs ((index - 1) / 2)) :
    UpReady key n (swapAt xs index ((index - 1) / 2)) ((index - 1) / 2) := by
  have hinside := h.inside
  have hparent : (index - 1) / 2 < xs.length := by omega
  refine ⟨by rwa [length_swapAt], ?_, ?_⟩
  · intro i hi hin hne
    rw [keyAt_swapAt hinside hparent, keyAt_swapAt hinside hparent, if_neg hne]
    by_cases hii : i = index
    · -- the edge on which the exchange was
      rw [if_pos hii, if_pos (by rw [hii])]
      exact hlt.le
    · rw [if_neg hii]
      by_cases hpi : (i - 1) / 2 = (index - 1) / 2
      · rw [if_pos hpi]
        exact hlt.le.trans (hpi ▸ h.others i hi hin hii)
      · rw [if_neg hpi]
        by_cases hpx : (i - 1) / 2 = index
        · rw [if_pos hpx]
          exact h.grand hpos i hi hin hpx
        · rw [if_neg hpx]
          exact h.others i hi hin hii
  · intro hppos c hc hcn hpc
    have hup := h.others ((index - 1) / 2) hppos (by omega) (by omega)
    rw [keyAt_swapAt hinside hparent, keyAt_swapAt hinside hparent, if_neg (by omega), if_neg (by omega),
      if_neg (by omega)]
    by_cases hci : c = index
    · rw [if_pos hci]
      exact hup
    · rw [if_neg hci]
      exact hup.trans (hpc ▸ h.others c hc hcn hci)

theorem siftUpLoop_heap (hprecedes : ∀ a b, precedes a b = decide (key a < key b)) :
    ∀ {turns : Nat} {xs : List α} {index : Nat}, index ≤ turns → index < n →
    UpReady key n xs index → HeapTo key n (siftUpLoop precedes turns xs index) := by
  intro turns
  induction turns with
  | zero =>
    intro xs index hturns _ h i hi hin
    exact h.others i hi hin (by omega)
  | succ turns ih =>
    intro xs index hturns hn h
    rw [siftUpLoop]
    by_cases hpos : index > 0
    · rw [if_pos hpos]
      have hparent : (index - 1) / 2 < xs.length := by have := h.inside; omega
      rcases pick_cases hprecedes xs index ((index - 1) / 2) hparent with ⟨hp, hlt⟩ | ⟨hp, hle⟩
      · simp only [hp, if_true]
        exact ih (by omega) (by omega) (h.swap hpos hlt)
      · simp only [hp, show (index - 1) / 2 ≠ index by omega, if_false]
        intro i hi hin
        by_cases hii : i = index
        · rw [hii]
          exact hle
        · exact h.others i hi hin hii
    · rw [if_neg hpos]
      intro i hi hin
      exact h.others i hi hin (by omega)

theorem siftUpLoop_perm : ∀ {turns : Nat} {xs : List α} {index : Nat},
    (siftUpLoop precedes turns xs index).Perm xs := by
  intro turns
  induction turns with
  | zero =>
    intro xs index
    exact .refl _
  | succ turns ih =>
    intro xs index
    rw [siftUpLoop]
    split
    · dsimp only
      split
      · exact ih.trans (swapAt_perm _ _ _)
      · exact .refl _
    · exact .refl _

theorem siftUp_heap (hprecedes : ∀ a b, precedes a b = decide (key a < key b)) (hn : index < n)
    (h : UpReady key n xs index) :
    HeapTo key n (siftUp precedes xs index) :=
  siftUpLoop_heap hprecedes le_rfl hn h

theorem siftUp_perm (xs : List α) (index : Nat) : (siftUp precedes xs index).Perm xs :=
  siftUpLoop_perm

/-! ### The root -/

theorem HeapTo.keyAt_root_le (h : HeapTo key n xs) :
    ∀ i < n, keyAt key xs 0 ≤ keyAt key xs i := by
  intro i
  induction i using Nat.strongRecOn with
  | ind i ih =>
    intro hi
    by_cases hzero : i = 0
    · rw [hzero]
    · exact (ih ((i - 1) / 2) (by omega) (by omega)).trans (h i (by omega) hi)

variable {x : α}

theorem HeapTo.root_le (h : HeapTo key (x :: xs).length (x :: xs)) :
    ∀ y ∈ x :: xs, key x ≤ key y := by
  intro y hy
  obtain ⟨i, hi⟩ := mem_iff_getElem?.1 hy
  have := h.keyAt_root_le i (List.getElem?_eq_some_iff.1 hi).1
  simpa [keyAt, hi] using this

/-! ### Heaps with an element changed or removed -/

theorem HeapTo.all (h : HeapTo key xs.length xs) (i : Nat) (hi : 0 < i) :
    keyAt key xs ((i - 1) / 2) ≤ keyAt key xs i := by
  by_cases hlt : i < xs.length
  · exact h i hi hlt
  · rw [keyAt, keyAt, getElem?_eq_none (not_lt.1 hlt)]
    exact le_top

/-- A heap in which the element at a position was exchanged is ready to sift down from there, if
its parent is not after the new element. -/
theorem HeapTo.downReady (h : HeapTo key xs.length xs) (hinside : index < ys.length)
    (hsame : ∀ i < ys.length, i ≠ index → ys[i]? = xs[i]?)
    (hparent : 0 < index → keyAt key ys ((index - 1) / 2) ≤ keyAt key ys index) :
    DownReady key ys index := by
  have hkey : ∀ i < ys.length, i ≠ index → keyAt key ys i = keyAt key xs i :=
    fun i hi hne => keyAt_congr (hsame i hi hne)
  refine ⟨hinside, ?_, ?_⟩
  · intro i hi hpi
    by_cases hlt : i < ys.length
    · by_cases hii : i = index
      · subst hii
        exact hparent hi
      · rw [hkey _ (by omega) hpi, hkey i hlt hii]
        exact h.all i hi
    · rw [show keyAt key ys i = ⊤ by rw [keyAt, getElem?_eq_none (not_lt.1 hlt)]; rfl]
      exact le_top
  · intro hpos c hc hpc
    by_cases hlt : c < ys.length
    · rw [hkey _ (by omega) (by omega), hkey c hlt (by omega)]
      exact (h.all index hpos).trans (hpc ▸ h.all c hc)
    · rw [show keyAt key ys c = ⊤ by rw [keyAt, getElem?_eq_none (not_lt.1 hlt)]; rfl]
      exact le_top

/-- Likewise for sifting up, if the new element is before its parent. -/
theorem HeapTo.upReady (h : HeapTo key xs.length xs) (hinside : index < ys.length)
    (hsame : ∀ i < ys.length, i ≠ index → ys[i]? = xs[i]?) (hpos : 0 < index)
    (hparent : keyAt key ys index < keyAt key ys ((index - 1) / 2)) :
    UpReady key ys.length ys index := by
  have hkey : ∀ i < ys.length, i ≠ index → keyAt key ys i = keyAt key xs i :=
    fun i hi hne => keyAt_congr (hsame i hi hne)
  have hup : keyAt key ys ((index - 1) / 2) ≤ keyAt key xs index := by
    rw [hkey _ (by omega) (by omega)]
    exact h.all index hpos
  refine ⟨hinside, ?_, ?_⟩
  · intro i hi hlt hii
    rw [hkey i hlt hii]
    by_cases hpi : (i - 1) / 2 = index
    · rw [hpi]
      exact (hparent.le.trans hup).trans (hpi ▸ h.all i hi)
    · rw [hkey _ (by omega) hpi]
      exact h.all i hi
  · intro _ c hc hlt hpc
    rw [hkey c hlt (by omega)]
    exact hup.trans (hpc ▸ h.all c hc)

theorem length_replaceByLast (xs : List α) (index : Nat) :
    (replaceByLast xs index).length = xs.length - 1 := by
  unfold replaceByLast
  split
  · simp
  · rename_i h
    simp [getLast?_eq_none_iff.1 h]

theorem getElem?_replaceByLast (hi : i < xs.length - 1) (hne : i ≠ index) :
    (replaceByLast xs index)[i]? = xs[i]? := by
  unfold replaceByLast
  split
  · rw [getElem?_dropLast, if_pos (by simpa using hi), getElem?_set_ne (Ne.symm hne)]
  · rfl

theorem replaceByLast_perm (h : xs[index]? = some x) :
    xs.Perm (x :: replaceByLast xs index) := by
  obtain ⟨hlt, rfl⟩ := List.getElem?_eq_some_iff.1 h
  rcases List.eq_nil_or_concat xs with rfl | ⟨ys, last, rfl⟩
  · cases hlt
  · rw [replaceByLast]
    simp only [concat_eq_append, getLast?_append, getLast?_singleton,
      Option.some_or, length_append, length_singleton] at hlt ⊢
    refine (perm_append_singleton last ys).trans ?_
    by_cases hys : index < ys.length
    · rw [set_append_left _ _ hys, dropLast_concat, getElem_append_left hys]
      have herase : (last :: ys).Perm (last :: ys.get ⟨index, hys⟩ :: ys.eraseIdx index) :=
        (getElem_cons_eraseIdx_perm hys).symm.cons last
      exact (herase.trans (.swap _ _ _)).trans ((set_perm_cons_eraseIdx hys last).symm.cons _)
    · obtain rfl : index = ys.length := by omega
      simp

theorem HeapTo.of_forall {key' : α → κ} (h : HeapTo key n xs) (hkey : ∀ x ∈ xs, key' x = key x) :
    HeapTo key' n xs := by
  intro i hi hin
  rw [keyAt_of_forall hkey, keyAt_of_forall hkey]
  exact h i hi hin

theorem siftDown_root_heap (hprecedes : ∀ a b, precedes a b = decide (key a < key b)) {y : α}
    (h : HeapTo key (x :: xs).length (x :: xs)) (n : Nat) :
    HeapTo key n (siftDown precedes (y :: xs) 0) := by
  refine siftDown_heap hprecedes (h.downReady (by simp) ?_ (by simp)) n
  intro i _ hi
  cases i with
  | zero => exact absurd rfl hi
  | succ i => rfl

/-! ### Removing and adding elements -/

section Removal

variable {key' : α → κ} {xs : List α}
variable {index : Nat}

theorem HeapTo.replaceByLast_downReady (h : HeapTo key xs.length xs)
    (hkey : ∀ x ∈ replaceByLast xs index, key' x = key x) (hindex : index + 1 < xs.length)
    (hparent : 0 < index → keyAt key' (replaceByLast xs index) ((index - 1) / 2) ≤
      keyAt key' (replaceByLast xs index) index) :
    DownReady key' (replaceByLast xs index) index := by
  have hlength := length_replaceByLast xs index
  have hready : DownReady key (replaceByLast xs index) index := by
    refine h.downReady (by omega) (fun i hi hne => getElem?_replaceByLast (by omega) hne) ?_
    intro hpos
    have := hparent hpos
    rwa [keyAt_of_forall hkey, keyAt_of_forall hkey] at this
  refine ⟨hready.inside, ?_, ?_⟩
  · intro i hi hpi
    rw [keyAt_of_forall hkey, keyAt_of_forall hkey]
    exact hready.others i hi hpi
  · intro hpos c hc hpc
    rw [keyAt_of_forall hkey, keyAt_of_forall hkey]
    exact hready.grand hpos c hc hpc

theorem HeapTo.replaceByLast_upReady (h : HeapTo key xs.length xs)
    (hkey : ∀ x ∈ replaceByLast xs index, key' x = key x) (hindex : index + 1 < xs.length)
    (hpos : 0 < index)
    (hparent : keyAt key' (replaceByLast xs index) index <
      keyAt key' (replaceByLast xs index) ((index - 1) / 2)) :
    UpReady key' (replaceByLast xs index).length (replaceByLast xs index) index := by
  have hlength := length_replaceByLast xs index
  have hready : UpReady key (replaceByLast xs index).length (replaceByLast xs index) index := by
    refine h.upReady (by omega) (fun i hi hne => getElem?_replaceByLast (by omega) hne) hpos ?_
    rwa [keyAt_of_forall hkey, keyAt_of_forall hkey] at hparent
  refine ⟨hready.inside, ?_, ?_⟩
  · intro i hi hin hii
    rw [keyAt_of_forall hkey, keyAt_of_forall hkey]
    exact hready.others i hi hin hii
  · intro hpos c hc hcn hpc
    rw [keyAt_of_forall hkey, keyAt_of_forall hkey]
    exact hready.grand hpos c hc hcn hpc

/-- Without the root, the rest is a heap. The keys may be others by then, if they are the same for
what is left. -/
theorem pop_heap (hprecedes : ∀ a b, precedes a b = decide (key' a < key' b))
    (h : HeapTo key xs.length xs) (hkey : ∀ x ∈ replaceByLast xs 0, key' x = key x) (n : Nat) :
    HeapTo key' n (pop precedes xs) := by
  have hlength := length_replaceByLast xs 0
  rw [pop]
  split
  · exact siftDown_heap hprecedes (h.replaceByLast_downReady hkey (by omega) (by simp)) n
  · intro i hi _
    rw [keyAt, keyAt, getElem?_eq_none (by omega), getElem?_eq_none (by omega)]

theorem pop_perm {x : α} (h : xs[0]? = some x) : xs.Perm (x :: pop precedes xs) := by
  refine (replaceByLast_perm h).trans (.cons x ?_)
  rw [pop]
  split
  · exact (siftDown_perm _ _).symm
  · exact .refl _

theorem replaceByLast_of_last (h : index + 1 = xs.length) :
    replaceByLast xs index = xs.dropLast := by
  rcases List.eq_nil_or_concat xs with rfl | ⟨ys, last, rfl⟩
  · cases h
  · obtain rfl : index = ys.length := by simpa using h
    simp [replaceByLast]

theorem erase_heap (hprecedes : ∀ a b, precedes a b = decide (key' a < key' b))
    (hindex : index < xs.length) (h : HeapTo key xs.length xs)
    (hkey : ∀ x ∈ replaceByLast xs index, key' x = key x) :
    HeapTo key' (erase precedes xs index).length (erase precedes xs index) := by
  have hlength := length_replaceByLast xs index
  rw [erase]
  split
  · rename_i hlast
    rw [replaceByLast_of_last hlast] at hkey hlength
    intro i hi hin
    rw [keyAt_of_forall hkey, keyAt_of_forall hkey]
    have hsame : ∀ j ≤ i, keyAt key xs.dropLast j = keyAt key xs j := by
      intro j hj
      exact keyAt_congr (by rw [getElem?_dropLast, if_pos (by omega)])
    rw [hsame i le_rfl, hsame _ (by omega)]
    exact h.all i hi
  · rename_i hlast
    dsimp only
    have hparent : (index - 1) / 2 < (replaceByLast xs index).length := by omega
    split
    · rename_i hup
      rw [(siftUp_perm _ _).length_eq]
      rcases pick_cases hprecedes _ index _ hparent with ⟨-, hlt⟩ | ⟨hp, -⟩
      · exact siftUp_heap hprecedes (by omega) (h.replaceByLast_upReady hkey (by omega) hup.1 hlt)
      · omega
    · rename_i hup
      refine siftDown_heap hprecedes (h.replaceByLast_downReady hkey (by omega) ?_) _
      intro hpos
      rcases pick_cases hprecedes _ index _ hparent with ⟨hp, -⟩ | ⟨-, hle⟩
      · exact absurd ⟨hpos, hp⟩ hup
      · exact hle

theorem erase_perm {x : α} (h : xs[index]? = some x) : xs.Perm (x :: erase precedes xs index) := by
  refine (replaceByLast_perm h).trans (.cons x ?_)
  rw [erase]
  split
  · rename_i hlast
    rw [replaceByLast_of_last hlast]
  · dsimp only
    split
    · exact (siftUp_perm _ _).symm
    · exact (siftDown_perm _ _).symm

end Removal

theorem HeapTo.upReady_next (h : HeapTo key n xs) (hn : n < xs.length) :
    UpReady key (n + 1) xs n := by
  refine ⟨hn, ?_, ?_⟩
  · intro i hi hin hne
    exact h i hi (by omega)
  · intro _ c _ hcn hpc
    omega

theorem heapifyFrom_heap (hprecedes : ∀ a b, precedes a b = decide (key a < key b)) :
    ∀ {count : Nat} {xs : List α} {n : Nat}, HeapTo key n xs → n + count ≤ xs.length →
    HeapTo key (n + count) (heapifyFrom precedes count xs n) := by
  intro count
  induction count with
  | zero =>
    intro xs n h _
    exact h
  | succ count ih =>
    intro xs n h hlength
    have hsift := siftUp_heap hprecedes (Nat.lt_succ_self n) (h.upReady_next (by omega))
    have := ih hsift (by rw [(siftUp_perm _ _).length_eq]; omega)
    rwa [Nat.add_right_comm n 1 count] at this

theorem heapifyFrom_perm : ∀ {count : Nat} {xs : List α} {n : Nat},
    (heapifyFrom precedes count xs n).Perm xs := by
  intro count
  induction count with
  | zero =>
    intro xs n
    exact .refl _
  | succ count ih =>
    intro xs n
    exact ih.trans (siftUp_perm _ _)

/-! ### The linear scan -/

/-- The first of two elements, the old one when neither precedes the other. -/
def better (precedes : α → α → Bool) (best x : α) : α := if precedes x best then x else best

/-- A linear scan for the element that precedes the others. -/
def scan (precedes : α → α → Bool) : List α → Option α
  | [] => none
  | x :: xs => some (xs.foldl (better precedes) x)

theorem foldl_better_spec (hprecedes : ∀ a b, precedes a b = decide (key a < key b)) :
    ∀ (xs : List α) (x : α), xs.foldl (better precedes) x ∈ x :: xs ∧
      ∀ y ∈ x :: xs, key (xs.foldl (better precedes) x) ≤ key y := by
  intro xs
  induction xs with
  | nil =>
    intro x
    simp
  | cons y xs ih =>
    intro x
    obtain ⟨hmem, hle⟩ := ih (better precedes x y)
    have hbetter : better precedes x y ∈ [x, y] ∧ key (better precedes x y) ≤ key x ∧
        key (better precedes x y) ≤ key y := by
      rw [better, hprecedes]
      by_cases hlt : key y < key x
      · simp [hlt, hlt.le]
      · simp [hlt, not_lt.1 hlt]
    obtain ⟨hxy, hx, hy⟩ := hbetter
    have hfirst := hle _ (by simp : better precedes x y ∈ better precedes x y :: xs)
    rw [foldl_cons]
    refine ⟨?_, ?_⟩
    · rcases mem_cons.1 hmem with heq | hmem
      · rw [heq]
        rcases mem_pair.1 hxy with h | h <;> simp [h]
      · simp [hmem]
    · intro z hz
      rcases mem_cons.1 hz with rfl | hz
      · exact hfirst.trans hx
      · rcases mem_cons.1 hz with rfl | hz
        · exact hfirst.trans hy
        · exact hle z (by simp [hz])

/-- The scan finds the element with the least key, wherever it stands. -/
theorem scan_eq_some (hprecedes : ∀ a b, precedes a b = decide (key a < key b)) (hmem : x ∈ xs)
    (hmin : ∀ y ∈ xs, y ≠ x → key x < key y) : scan precedes xs = some x := by
  cases xs with
  | nil => cases hmem
  | cons y ys =>
    obtain ⟨hbest, hle⟩ := foldl_better_spec hprecedes ys y
    rw [scan, Option.some_inj]
    by_contra hne
    exact absurd (hle x hmem) (not_le.2 (hmin _ hbest hne))

end BinaryHeap

end Library
