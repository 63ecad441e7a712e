import Mathlib

/-!
# TreeSitter.Library.IndexMap

A **map that remembers insertion order**: a list of entries with distinct keys.
Inserting at a key that is present replaces the value in place, as the `indexmap`
crate does; a new key goes to the end. `get?_insert` and `get?_extend` say what
lookups see.
-/

namespace Library

open List

universe u v

variable {κ : Type u} {ν : Type v} [DecidableEq κ]

def insertEntry (k : κ) (v : ν) : List (κ × ν) → List (κ × ν)
  | [] => [(k, v)]
  | e :: es => if e.1 = k then (k, v) :: es else e :: insertEntry k v es

def lookupEntry (k : κ) : List (κ × ν) → Option ν
  | [] => none
  | e :: es => if e.1 = k then some e.2 else lookupEntry k es

theorem lookupEntry_insertEntry (k k' : κ) (v : ν) :
    ∀ es : List (κ × ν), lookupEntry k' (insertEntry k v es) =
      if k = k' then some v else lookupEntry k' es
  | [] => by simp [insertEntry, lookupEntry]
  | e :: es => by
    rw [insertEntry]
    by_cases hek : e.1 = k
    · rw [if_pos hek, lookupEntry, lookupEntry]
      by_cases hkk : k = k'
      · simp [hkk]
      · rw [if_neg hkk, if_neg hkk, if_neg (hek ▸ hkk)]
    · rw [if_neg hek, lookupEntry, lookupEntry, lookupEntry_insertEntry k k' v es]
      by_cases hek' : e.1 = k'
      · rw [if_pos hek', if_pos hek', if_neg fun h => hek (hek'.trans h.symm)]
      · rw [if_neg hek', if_neg hek']

theorem map_fst_insertEntry (k : κ) (v : ν) :
    ∀ es : List (κ × ν), (insertEntry k v es).map Prod.fst =
      if k ∈ es.map Prod.fst then es.map Prod.fst else es.map Prod.fst ++ [k]
  | [] => by simp [insertEntry]
  | e :: es => by
    rw [insertEntry]
    by_cases hek : e.1 = k
    · simp [hek]
    · rw [if_neg hek, map_cons, map_fst_insertEntry k v es, map_cons]
      by_cases hmem : k ∈ es.map Prod.fst
      · rw [if_pos hmem, if_pos (mem_cons_of_mem _ hmem)]
      · have hmem' : k ∉ e.1 :: es.map Prod.fst :=
          not_mem_cons_of_ne_of_not_mem (Ne.symm hek) hmem
        rw [if_neg hmem, if_neg hmem', cons_append]

variable {es : List (κ × ν)} {v : ν} {k : κ}

theorem lookupEntry_eq_some (h : lookupEntry k es = some v) : (k, v) ∈ es := by
  induction es with
  | nil => cases h
  | cons e es ih =>
    rw [lookupEntry] at h
    split at h
    · rename_i hek
      cases h
      rw [← hek]
      exact mem_cons_self
    · exact mem_cons_of_mem _ (ih h)

theorem lookupEntry_of_mem (hnd : (es.map Prod.fst).Nodup) (h : (k, v) ∈ es) :
    lookupEntry k es = some v := by
  induction es with
  | nil => cases h
  | cons e es ih =>
    rw [map_cons, nodup_cons] at hnd
    rw [lookupEntry]
    rcases mem_cons.mp h with rfl | h
    · rw [if_pos rfl]
    · have hne : e.1 ≠ k := by
        rintro rfl
        exact hnd.1 (mem_map.mpr ⟨_, h, rfl⟩)
      rw [if_neg hne, ih hnd.2 h]

theorem insertEntry_of_lookupEntry_eq_none (h : lookupEntry k es = none) :
    insertEntry k v es = es ++ [(k, v)] := by
  induction es with
  | nil => rfl
  | cons e es ih =>
    rw [lookupEntry] at h
    split at h
    · cases h
    · rename_i hek
      rw [insertEntry, if_neg hek, ih h, cons_append]

/-- Entries with distinct keys, in insertion order. -/
structure IndexMap (κ : Type u) (ν : Type v) where
  entries : List (κ × ν)
  nodup : (entries.map Prod.fst).Nodup

namespace IndexMap

variable {m m' : IndexMap κ ν} {k k' : κ} {v : ν}

omit [DecidableEq κ] in
/-- The map without entries. -/
def empty : IndexMap κ ν := ⟨[], nodup_nil⟩

/-- The value at a key. -/
def get? (m : IndexMap κ ν) (k : κ) : Option ν := lookupEntry k m.entries

/-- The keys in insertion order. -/
def keys (m : IndexMap κ ν) : List κ := m.entries.map Prod.fst

theorem mem_entries_iff : (k, v) ∈ m.entries ↔ m.get? k = some v :=
  ⟨lookupEntry_of_mem m.nodup, lookupEntry_eq_some⟩

/-- Insertion: in place if the key is present, at the end otherwise. -/
def insert (m : IndexMap κ ν) (k : κ) (v : ν) : IndexMap κ ν where
  entries := insertEntry k v m.entries
  nodup := by
    rw [map_fst_insertEntry]
    split
    · exact m.nodup
    · rename_i hk
      exact m.nodup.append (nodup_singleton k) (by simpa using hk)

theorem get?_insert (m : IndexMap κ ν) (k k' : κ) (v : ν) :
    (m.insert k v).get? k' = if k = k' then some v else m.get? k' :=
  lookupEntry_insertEntry k k' v m.entries

/-- Insertion of a new key; at one that is present the value stays. -/
def insertNew (m : IndexMap κ ν) (k : κ) (v : ν) : IndexMap κ ν :=
  if (m.get? k).isSome then m else m.insert k v

theorem get?_insertNew (m : IndexMap κ ν) (k k' : κ) (v : ν) :
    (m.insertNew k v).get? k' = if k = k' then some ((m.get? k).getD v) else m.get? k' := by
  rw [insertNew]
  by_cases hkk : k = k'
  · subst hkk
    rw [if_pos rfl]
    cases h : m.get? k with
    | none => simp [get?_insert]
    | some w => simp [h]
  · rw [if_neg hkk]
    split
    · rfl
    · rw [get?_insert, if_neg hkk]

/-- Insert all entries of another map, in its order. -/
def extend (m m' : IndexMap κ ν) : IndexMap κ ν :=
  m'.entries.foldl (fun acc e => acc.insert e.1 e.2) m

theorem get?_foldl_insert (k : κ) :
    ∀ (es : List (κ × ν)), (es.map Prod.fst).Nodup → ∀ m : IndexMap κ ν,
      (es.foldl (fun acc e => acc.insert e.1 e.2) m).get? k = (lookupEntry k es).or (m.get? k)
  | [], _, m => by simp [lookupEntry]
  | e :: es, hnd, m => by
    rw [map_cons, nodup_cons] at hnd
    rw [foldl_cons, get?_foldl_insert k es hnd.2, get?_insert, lookupEntry]
    by_cases hek : e.1 = k
    · have hnone : lookupEntry k es = none := by
        rw [Option.eq_none_iff_forall_ne_some]
        intro w hw
        exact hnd.1 (mem_map.mpr ⟨(k, w), lookupEntry_eq_some hw, hek.symm⟩)
      rw [if_pos hek, if_pos hek, hnone, Option.none_or, Option.some_or]
    · rw [if_neg hek, if_neg hek]

theorem get?_extend (m m' : IndexMap κ ν) (k : κ) :
    (m.extend m').get? k = (m'.get? k).or (m.get? k) :=
  get?_foldl_insert k m'.entries m'.nodup m

/-- Change the values in place. -/
def mapValues {μ : Type*} (f : ν → μ) (m : IndexMap κ ν) : IndexMap κ μ where
  entries := m.entries.map fun e => (e.1, f e.2)
  nodup := by
    rw [map_map]
    exact m.nodup

theorem get?_mapValues {μ : Type*} (f : ν → μ) (m : IndexMap κ ν) (k : κ) :
    (m.mapValues f).get? k = (m.get? k).map f := by
  obtain ⟨es, hnd⟩ := m
  simp only [get?, mapValues]
  clear hnd
  induction es with
  | nil => rfl
  | cons e es ih =>
    rw [map_cons, lookupEntry, lookupEntry]
    split
    · rfl
    · exact ih

end IndexMap

end Library
