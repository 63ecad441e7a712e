import TreeSitter.Generate.Render.Identifiers

/-!
# TreeSitter.Generate.Render.Enumerators

Whether the **enumerators** of a parser are distinct. The identifier of a symbol gets a number, if it
is there already, but those of an alias and of an external token are put down as they are: two of
them are the same if their names are the same without their special characters
(`Generator.enumeratorsDistinct_iff`).
-/

namespace TreeSitter.Generate

open List

namespace Generator

variable {g : Generator}

/-- `external_token_id`. -/
def externalTokenId (name : String) : String := "ts_external_token_" ++ sanitizeIdentifier name

def externalTokenEnum (g : Generator) : List String :=
  g.externalTokens.map fun token => externalTokenId token.1

/-- No enumerator is declared twice. -/
def EnumeratorsDistinct (g : Generator) : Prop :=
  g.symbolEnum.Nodup ∧ g.externalTokenEnum.Nodup

/-- The names of aliases of one kind, and those of external tokens, are different when they are
sanitized. -/
def NamesDistinct (g : Generator) : Prop :=
  (g.uniqueAliases.Pairwise fun x y =>
    x.isNamed = y.isNamed → sanitizeIdentifier x.value ≠ sanitizeIdentifier y.value) ∧
    g.externalTokens.Pairwise fun x y => sanitizeIdentifier x.1 ≠ sanitizeIdentifier y.1

theorem exists_suffixLoop_eq (base : String) (used : List String) (fuel : Nat) :
    ∀ suffixNumber, ∃ k, suffixLoop base used fuel suffixNumber = withSuffix base k := by
  induction fuel with
  | zero => exact fun suffixNumber => ⟨suffixNumber, rfl⟩
  | succ fuel ih =>
    intro suffixNumber
    rw [suffixLoop]
    split
    next => exact ih _
    next => exact ⟨suffixNumber, rfl⟩

theorem mem_identifiersFrom {id : String} (symbols : List Symbol) : ∀ {used : List String},
    id ∈ identifiersFrom g used symbols → id = "ts_builtin_sym_end" ∨
      ∃ metadata suffix, id = baseIdentifier metadata ++ suffix := by
  induction symbols with
  | nil => exact fun h => absurd h not_mem_nil
  | cons symbol symbols ih =>
    intro used h
    rcases mem_cons.mp h with rfl | h
    · rw [chooseIdentifier]
      split
      next => exact .inl rfl
      next =>
        obtain ⟨k, hk⟩ := exists_suffixLoop_eq (baseIdentifier (g.metadataForSymbol symbol)) used
          (used.length + 1) 1
        exact .inr ⟨_, _, hk⟩
    · exact ih h

theorem aliasIdentifier_ne (as : Alias) (metadata : String × VariableType) (suffix : String) :
    aliasIdentifier as ≠ "ts_builtin_sym_end" ∧
      aliasIdentifier as ≠ baseIdentifier metadata ++ suffix := by
  obtain ⟨name, kind⟩ := metadata
  rw [aliasIdentifier]
  split <;> cases kind <;> simp [← String.toList_inj, baseIdentifier]

theorem aliasIdentifier_inj (x y : Alias) : aliasIdentifier x = aliasIdentifier y ↔
    x.isNamed = y.isNamed ∧ sanitizeIdentifier x.value = sanitizeIdentifier y.value := by
  rw [aliasIdentifier, aliasIdentifier]
  cases x.isNamed <;> cases y.isNamed <;> simp [← String.toList_inj]

/-- **The enumerators are distinct exactly if the sanitized names are.** -/
theorem enumeratorsDistinct_iff (h : g.EndFirst) : g.EnumeratorsDistinct ↔ g.NamesDistinct := by
  have haliases : g.uniqueAliases.map g.aliasIdent = g.uniqueAliases.map aliasIdentifier := by
    refine map_congr_left fun as has => ?_
    rw [aliasIdent, (mem_uniqueAliases.mp has).2]
  have hdisjoint :
      (g.symbols.map g.symbolIdent).Disjoint (g.uniqueAliases.map aliasIdentifier) := by
    intro id hid hmem
    obtain ⟨as, -, rfl⟩ := mem_map.mp hmem
    rw [h.map_symbolIdent] at hid
    rcases mem_identifiersFrom _ hid with heq | ⟨metadata, suffix, heq⟩
    · exact (aliasIdentifier_ne as ("", .named) "").1 heq
    · exact (aliasIdentifier_ne as metadata suffix).2 heq
  refine and_congr ?_ ?_
  · rw [h.symbolEnum_eq, haliases, nodup_append',
      and_iff_right h.nodup_map_symbolIdent, and_iff_left hdisjoint, List.Nodup, pairwise_map]
    refine List.Pairwise.iff fun x y => ?_
    rw [Ne, aliasIdentifier_inj, not_and]
  · refine pairwise_map.trans (List.Pairwise.iff fun x y => not_congr ?_)
    exact String.append_right_inj "ts_external_token_"

/-- Two external tokens with names that differ in a blank. -/
def blankApart : Generator where
  table := { states := [], symbols := [.eof], actionLists := [] }
  aliasSequences := []
  vars := []
  lexicalVariables := []
  externalTokens := [("a b", .anonymous), ("ab", .anonymous)]
  defaultAliases := .empty
  nodup := by decide

theorem enumeratorsDistinct_iff_blankApart :
    blankApart.EnumeratorsDistinct ↔ blankApart.NamesDistinct :=
  enumeratorsDistinct_iff ⟨rfl, by decide⟩

theorem exists_not_enumeratorsDistinct :
    ∃ g : Generator, g.EndFirst ∧ ¬ g.EnumeratorsDistinct := by
  have hname : sanitizeIdentifier "a b" = sanitizeIdentifier "ab" := by decide +kernel
  have htoken : externalTokenId "a b" = externalTokenId "ab" :=
    congrArg ("ts_external_token_" ++ ·) hname
  refine ⟨blankApart, ⟨rfl, by decide⟩, fun ⟨_, h⟩ => ?_⟩
  have henum : blankApart.externalTokenEnum = [externalTokenId "a b", externalTokenId "ab"] := rfl
  rw [henum, htoken] at h
  exact (nodup_cons.mp h).1 mem_cons_self

end Generator

end TreeSitter.Generate
