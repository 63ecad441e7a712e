import TreeSitter.Generate.PrepareGrammar.ExpandRule
import TreeSitter.Library.StringReplace

/-!
# TreeSitter.Generate.PrepareGrammar.ClassShorthands

The **shorthand classes** of a pattern, `\w`, `\s`, `\d` and their complements. `expand_rule`
replaces them in the text of the pattern, before that is parsed. In that text, a backslash and the
character behind it are one **token**. The replacement does not know tokens: in `\\w`, it finds `\w`
behind a backslash that belongs to the token in front. So a pattern keeps its meaning if and only if
no escaped backslash stands in front of one of the six letters (`shorthandsExact_iff`).
-/

namespace TreeSitter.Generate

open List Library

/-! ### Replacing escapes -/

/-- Replace escapes from the left, all at once. An escape that has no replacement is not skipped:
what stands behind its backslash is looked at again. -/
def replaceEscapes (escapes : List (Char × List Char)) : List Char → List Char
  | '\\' :: c :: chars =>
    match escapes.lookup c with
    | some written => written ++ replaceEscapes escapes chars
    | none => '\\' :: replaceEscapes escapes (c :: chars)
  | c :: chars => c :: replaceEscapes escapes chars
  | [] => []

/-- Replacing an escape `\d` does not touch what has been written for another escape: there is no
`\d` in it, and it makes none together with what stands around it. -/
structure Inert (d : Char) (written : List Char) : Prop where
  head : written.head? ≠ some d
  ne_nil : written ≠ []
  notInfix : ¬ ['\\', d] <:+: written
  getLast : written.getLast? ≠ some '\\'

instance (d : Char) (written : List Char) : Decidable (Inert d written) :=
  decidable_of_iff (written.head? ≠ some d ∧ written ≠ [] ∧ ¬ ['\\', d] <:+: written ∧
      written.getLast? ≠ some '\\')
    ⟨fun h => ⟨h.1, h.2.1, h.2.2.1, h.2.2.2⟩, fun h => ⟨h.head, h.ne_nil, h.notInfix, h.getLast⟩⟩

variable {chars : List Char} {c d : Char}

theorem isPrefix_pair_iff :
    ['\\', d] <+: c :: chars ↔ c = '\\' ∧ chars.head? = some d := by
  cases chars with
  | nil => simp
  | cons c' chars => simp [cons_prefix_cons, eq_comm]

/-- A text without the pattern stays, if its last character is no backslash. -/
theorem replaceChars_append_of_notInfix {replacement front rest : List Char}
    (h : ¬ ['\\', d] <:+: front) (hlast : front.getLast? ≠ some '\\') :
    replaceChars ['\\', d] replacement (front ++ rest) =
      front ++ replaceChars ['\\', d] replacement rest := by
  induction front with
  | nil => rfl
  | cons c front ih =>
    have hprefix : ¬ ['\\', d] <+: c :: (front ++ rest) := by
      rw [isPrefix_pair_iff]
      rintro ⟨rfl, hhead⟩
      cases front with
      | nil => exact hlast rfl
      | cons c' front =>
        refine h (List.IsPrefix.isInfix (isPrefix_pair_iff.mpr ⟨rfl, ?_⟩))
        exact hhead
    rw [cons_append, replaceChars_cons hprefix, cons_append]
    congr 1
    refine ih (fun hin => h (hin.trans (suffix_cons c front).isInfix)) ?_
    cases front with
    | nil => simp
    | cons c' front => simpa using hlast

section Escapes

variable {escapes : List (Char × List Char)} {d : Char} {written : List Char}

theorem exists_mem_of_lookup {c : Char} {found : List Char}
    (hfound : escapes.lookup c = some found) : ∃ e ∈ escapes, e.2 = found := by
  induction escapes with
  | nil => cases hfound
  | cons e escapes ih =>
    rw [List.lookup_cons] at hfound
    split at hfound
    · exact ⟨e, mem_cons_self, Option.some_inj.mp hfound⟩
    · obtain ⟨e', hmem, heq⟩ := ih hfound
      exact ⟨e', mem_cons_of_mem _ hmem, heq⟩

theorem inert_of_lookup (h : ∀ e ∈ escapes, Inert d e.2) {c : Char} {found : List Char}
    (hfound : escapes.lookup c = some found) : Inert d found := by
  obtain ⟨e, hmem, rfl⟩ := exists_mem_of_lookup hfound
  exact h e hmem

theorem replaceEscapes_backslash (c : Char) (chars : List Char) :
    replaceEscapes escapes ('\\' :: c :: chars) =
      match escapes.lookup c with
      | some written => written ++ replaceEscapes escapes chars
      | none => '\\' :: replaceEscapes escapes (c :: chars) := by
  rw [replaceEscapes]

theorem replaceEscapes_cons {c : Char} (h : c ≠ '\\') (chars : List Char) :
    replaceEscapes escapes (c :: chars) = c :: replaceEscapes escapes chars := by
  rw [replaceEscapes]
  exact fun c' chars' heq _ => h heq

theorem head?_replaceEscapes (h : ∀ e ∈ escapes, Inert d e.2) (hd : d ≠ '\\') (chars : List Char) :
    (replaceEscapes escapes chars).head? = some d ↔ chars.head? = some d := by
  rw [replaceEscapes.eq_def]
  split
  next c chars =>
    split
    next found hfound =>
      have hinert := inert_of_lookup h hfound
      obtain ⟨first, rest, rfl⟩ := exists_cons_of_ne_nil hinert.ne_nil
      refine iff_of_false hinert.head ?_
      simpa using hd.symm
    next => rfl
  next => rfl
  next => rfl

/-- **One more escape**: replacing it afterwards is replacing it at once with the others. -/
theorem replaceChars_replaceEscapes (h : ∀ e ∈ escapes, Inert d e.2) (hd : d ≠ '\\')
    (hnew : escapes.lookup d = none) (chars : List Char) :
    replaceChars ['\\', d] written (replaceEscapes escapes chars) =
      replaceEscapes (escapes ++ [(d, written)]) chars := by
  have hlookup (c : Char) : (escapes ++ [(d, written)]).lookup c =
      (escapes.lookup c).or (if c = d then some written else none) := by
    rw [lookup_append, List.lookup_cons, lookup_nil]
    by_cases hc : c = d
    · simp [hc]
    · rw [if_neg hc, beq_eq_false_iff_ne.mpr hc]
  induction chars using replaceEscapes.induct escapes with
  | case1 c chars found hfound ih =>
    have hinert := inert_of_lookup h hfound
    rw [replaceEscapes_backslash, replaceEscapes_backslash, hlookup, hfound, Option.some_or]
    dsimp only
    rw [replaceChars_append_of_notInfix hinert.notInfix hinert.getLast, ih]
  | case2 c chars hnone ih =>
    rw [replaceEscapes_backslash, replaceEscapes_backslash, hlookup, hnone, Option.none_or]
    dsimp only
    by_cases hc : c = d
    · subst hc
      rw [replaceEscapes_cons hd, replaceEscapes_cons hd,
        replaceChars_cons fun hprefix => hd (isPrefix_pair_iff.mp hprefix).1] at ih
      rw [if_pos rfl, replaceEscapes_cons hd]
      dsimp only
      rw [← (List.cons.inj ih).2]
      exact replaceChars_append (cons_ne_nil _ _) written _
    · have hprefix : ¬ ['\\', d] <+: '\\' :: replaceEscapes escapes (c :: chars) := by
        rw [isPrefix_pair_iff, head?_replaceEscapes h hd]
        rintro ⟨-, hhead⟩
        exact hc (Option.some_inj.mp hhead)
      rw [if_neg hc, replaceChars_cons hprefix, ih]
  | case3 c chars hother ih =>
    have hunfold (escapes : List (Char × List Char)) :
        replaceEscapes escapes (c :: chars) = c :: replaceEscapes escapes chars := by
      rw [replaceEscapes]
      exact hother
    have hprefix : ¬ ['\\', d] <+: c :: replaceEscapes escapes chars := by
      rw [isPrefix_pair_iff, head?_replaceEscapes h hd]
      rintro ⟨rfl, hhead⟩
      cases chars with
      | nil => cases hhead
      | cons c' chars => exact hother c' chars rfl rfl
    rw [hunfold, hunfold, replaceChars_cons hprefix, ih]
  | case4 => rw [replaceEscapes, replaceEscapes, replaceChars_nil]

/-- **One escape after another**: if what is written for one is inert for those behind it, this is
replacing all of them at once. -/
theorem foldl_replaceChars (escapes : List (Char × List Char)) :
    escapes.Pairwise (fun e e' => Inert e'.1 e.2 ∧ e'.1 ≠ e.1) → (∀ e ∈ escapes, e.1 ≠ '\\') →
      ∀ chars, escapes.foldl (fun chars e => replaceChars ['\\', e.1] e.2 chars) chars =
        replaceEscapes escapes chars := by
  induction escapes using List.reverseRecOn with
  | nil =>
    intro _ _ chars
    induction chars using replaceEscapes.induct [] with
    | case1 c chars found hfound => cases hfound
    | case2 c chars _ ih => rw [replaceEscapes_backslash, lookup_nil, ← ih]; rfl
    | case3 c chars hother ih =>
      rw [replaceEscapes, ← ih]
      · rfl
      · exact hother
    | case4 => rfl
  | append_singleton escapes e ih =>
    intro hpairwise hbackslash chars
    rw [pairwise_append] at hpairwise
    obtain ⟨hescapes, -, hlast⟩ := hpairwise
    have hd : e.1 ≠ '\\' := hbackslash e (mem_append_right _ (mem_singleton_self _))
    have hnew : escapes.lookup e.1 = none := by
      rw [lookup_eq_none_iff]
      intro e' hmem
      exact bne_iff_ne.mpr (hlast e' hmem e (mem_singleton_self _)).2
    rw [foldl_append, foldl_cons, foldl_nil,
      ih hescapes (fun e' hmem => hbackslash e' (mem_append_left _ hmem)),
      replaceChars_replaceEscapes
        (fun e' hmem => (hlast e' hmem e (mem_singleton_self _)).1) hd hnew]

end Escapes

/-! ### The six classes -/

def classShorthands : List (Char × List Char) :=
  [('w', "[0-9A-Za-z_]".toList), ('s', "[\\t-\\r ]".toList), ('d', "[0-9]".toList),
    ('W', "[^0-9A-Za-z_]".toList), ('S', "[^\\t-\\r ]".toList), ('D', "[^0-9]".toList)]

/-- **The six replacements** are one. -/
theorem toList_replaceClasses (value : String) :
    (replaceClasses value).toList = replaceEscapes classShorthands value.toList := by
  rw [← foldl_replaceChars classShorthands (by decide) (by decide), replaceClasses]
  simp only [ne_eq, String.reduceEq, not_false_eq_true, toList_replace]
  rfl

/-! ### Tokens -/

/-- A token of a pattern: a character, or a backslash and the character that it escapes. -/
inductive PatternToken where
  | char (c : Char)
  | escape (c : Char)

/-- The tokens of a pattern, from the left. A backslash at the end escapes nothing. -/
def patternTokens : List Char → List PatternToken
  | '\\' :: c :: chars => .escape c :: patternTokens chars
  | c :: chars => .char c :: patternTokens chars
  | [] => []

namespace PatternToken

def text : PatternToken → List Char
  | .char c => [c]
  | .escape c => ['\\', c]

/-- The text of a token, with the class in place of a shorthand. -/
def classText : PatternToken → List Char
  | .char c => [c]
  | .escape c => (classShorthands.lookup c).getD ['\\', c]

/-- A token, with the tokens of the class in place of a shorthand. -/
def written (token : PatternToken) : List PatternToken := patternTokens token.classText

/-- An escaped backslash, and one of the six letters behind it. -/
def Collide (token next : PatternToken) : Prop :=
  token = .escape '\\' ∧ ∃ c, next = .char c ∧ (classShorthands.lookup c).isSome

end PatternToken

/-- The pattern with the class in place of each shorthand, token by token. -/
def writtenPattern (value : String) : String :=
  String.ofList ((patternTokens value.toList).flatMap PatternToken.classText)

theorem patternTokens_backslash (c : Char) (chars : List Char) :
    patternTokens ('\\' :: c :: chars) = .escape c :: patternTokens chars := by rw [patternTokens]

theorem patternTokens_cons (h : c ≠ '\\') (chars : List Char) :
    patternTokens (c :: chars) = .char c :: patternTokens chars := by
  rw [patternTokens]
  exact fun c' chars' heq _ => h heq

/-- **Tokens** are the text. -/
theorem flatMap_text_patternTokens (chars : List Char) :
    (patternTokens chars).flatMap PatternToken.text = chars := by
  induction chars using patternTokens.induct with
  | case1 c chars ih => rw [patternTokens_backslash, flatMap_cons, ih]; rfl
  | case2 c chars hother ih =>
    rw [patternTokens, flatMap_cons, ih]
    · rfl
    · exact hother
  | case3 => rfl

/-- **The tokens of a class** stay together, whatever stands behind it. -/
theorem patternTokens_class {found : List Char} (h : classShorthands.lookup c = some found)
    (rest : List Char) :
    patternTokens (found ++ rest) = patternTokens found ++ patternTokens rest := by
  obtain ⟨e, hmem, rfl⟩ := exists_mem_of_lookup h
  simp only [classShorthands, mem_cons, not_mem_nil, or_false] at hmem
  rcases hmem with rfl | rfl | rfl | rfl | rfl | rfl <;> rfl

/-- **The tokens of the written pattern**: those of the pattern, with the tokens of the class in
place of each shorthand. So an escaped backslash is one there, too. -/
theorem patternTokens_flatMap_classText (chars : List Char) :
    patternTokens ((patternTokens chars).flatMap PatternToken.classText) =
      (patternTokens chars).flatMap PatternToken.written := by
  induction chars using patternTokens.induct with
  | case1 c chars ih =>
    rw [patternTokens_backslash, flatMap_cons, flatMap_cons, ← ih,
      PatternToken.written, PatternToken.classText]
    cases hfound : classShorthands.lookup c with
    | some found => exact patternTokens_class hfound _
    | none => exact patternTokens_backslash c _
  | case2 c chars hother ih =>
    have htokens : patternTokens (c :: chars) = .char c :: patternTokens chars := by
      rw [patternTokens]
      exact hother
    rw [htokens, flatMap_cons, flatMap_cons, ← ih, PatternToken.written, PatternToken.classText]
    by_cases hc : c = '\\'
    · subst hc
      cases chars with
      | nil => rfl
      | cons c' chars => exact absurd rfl (hother c' chars rfl)
    · rw [singleton_append, patternTokens_cons hc, patternTokens_cons hc]
      rfl
  | case3 => rfl

theorem eq_of_head?_patternTokens (h : (patternTokens (d :: chars)).head? = some (.char c)) :
    c = d := by
  rw [patternTokens.eq_def] at h
  split at h
  next => cases h
  next heq =>
    cases heq
    cases h
    rfl
  next heq => cases heq

theorem lookup_backslash : classShorthands.lookup '\\' = none := by decide

theorem head?_class {found : List Char} (h : classShorthands.lookup c = some found) :
    found.head? = some '[' := by
  obtain ⟨e, hmem, rfl⟩ := exists_mem_of_lookup h
  simp only [classShorthands, mem_cons, not_mem_nil, or_false] at hmem
  rcases hmem with rfl | rfl | rfl | rfl | rfl | rfl <;> rfl

/-- Behind an escaped backslash, the replacement goes on as it should, unless one of the six letters
stands there. -/
theorem replaceEscapes_backslash_eq_iff (chars : List Char) :
    replaceEscapes classShorthands ('\\' :: chars) =
        '\\' :: (patternTokens chars).flatMap PatternToken.classText ↔
      replaceEscapes classShorthands chars =
          (patternTokens chars).flatMap PatternToken.classText ∧
        ∀ token ∈ (patternTokens chars).head?, ¬ PatternToken.Collide (.escape '\\') token := by
  cases chars with
  | nil => exact iff_of_true rfl ⟨rfl, by simp [patternTokens]⟩
  | cons d chars =>
    rw [replaceEscapes_backslash]
    cases hfound : classShorthands.lookup d with
    | some found =>
      have hd : d ≠ '\\' := by
        rintro rfl
        rw [lookup_backslash] at hfound
        cases hfound
      refine iff_of_false (fun heq => ?_) fun h => ?_
      · have hhead := congrArg List.head? heq
        dsimp only at hhead
        rw [head?_append, head?_class hfound] at hhead
        cases hhead
      · refine h.2 (.char d) ?_ ⟨rfl, d, rfl, by rw [hfound]; rfl⟩
        rw [patternTokens_cons hd]
        rfl
    | none =>
      dsimp only
      rw [cons_inj_right]
      refine (and_iff_left ?_).symm
      rintro token htoken ⟨-, c, rfl, hsome⟩
      rw [eq_of_head?_patternTokens htoken, hfound] at hsome
      cases hsome

/-- **When the replacement is right**: no escaped backslash stands in front of one of the six
letters. -/
theorem replaceEscapes_eq_iff (chars : List Char) :
    replaceEscapes classShorthands chars =
        (patternTokens chars).flatMap PatternToken.classText ↔
      (patternTokens chars).IsChain fun token next => ¬ token.Collide next := by
  induction chars using patternTokens.induct with
  | case1 c chars ih =>
    rw [patternTokens_backslash, flatMap_cons, isChain_cons, ← ih]
    by_cases hc : c = '\\'
    · subst hc
      rw [replaceEscapes_backslash, PatternToken.classText, lookup_backslash]
      dsimp only
      rw [Option.getD_none, cons_append, cons_append, nil_append,
        cons_inj_right, replaceEscapes_backslash_eq_iff, and_comm]
    · have hapart : ∀ token ∈ (patternTokens chars).head?,
          ¬ PatternToken.Collide (.escape c) token :=
        fun token _ hcollide => hc (PatternToken.escape.inj hcollide.1)
      rw [and_iff_right hapart, replaceEscapes_backslash, PatternToken.classText]
      cases hfound : classShorthands.lookup c with
      | some found =>
        dsimp only
        rw [Option.getD_some, append_right_inj]
      | none =>
        dsimp only
        rw [replaceEscapes_cons hc, Option.getD_none, cons_append, cons_append,
          nil_append, cons_inj_right, cons_inj_right]
  | case2 c chars hother ih =>
    have htokens : patternTokens (c :: chars) = .char c :: patternTokens chars := by
      rw [patternTokens]
      exact hother
    have hreplace : replaceEscapes classShorthands (c :: chars) =
        c :: replaceEscapes classShorthands chars := by
      rw [replaceEscapes]
      exact hother
    have hapart : ∀ token ∈ (patternTokens chars).head?,
        ¬ PatternToken.Collide (.char c) token :=
      fun token _ hcollide => PatternToken.noConfusion hcollide.1
    rw [htokens, hreplace, flatMap_cons, isChain_cons, and_iff_right hapart, ← ih]
    exact cons_inj_right c
  | case3 => exact iff_of_true rfl .nil

/-! ### Patterns -/

section Patterns

variable (parse : String → Bool → Except String Hir)

/-- The words of the pattern with the class in place of each shorthand: what it is to stand for. -/
def writtenLang (value flags : String) : Language Char :=
  match parse (writtenPattern value) (flags.contains 'i') with
  | .error _ => 0
  | .ok hir => hir.lang

/-- The parser reads the classes that are written out as what the shorthands stand for. -/
def ReadsClasses (asciiLang : String → String → Language Char) (value : String) : Prop :=
  ∀ flags, writtenLang parse value flags = asciiLang value flags

/-- **The replacement is right** for a pattern: it changes the shorthands only, and leaves each of
the other tokens as it is; and the pattern stands for the words that it stands for with ASCII
shorthand classes. -/
structure ShorthandsExact (asciiLang : String → String → Language Char) (value : String) :
    Prop where
  tokens : patternTokens (replaceClasses value).toList =
    (patternTokens value.toList).flatMap PatternToken.written
  lang : ∀ flags, patternLang parse value flags = asciiLang value flags

theorem replaceClasses_eq_iff (value : String) :
    replaceClasses value = writtenPattern value ↔
      (patternTokens value.toList).IsChain fun token next => ¬ token.Collide next := by
  rw [← replaceEscapes_eq_iff, ← toList_replaceClasses, writtenPattern, ← String.toList_inj,
    String.toList_ofList]

theorem tokens_replaceClasses_iff (value : String) :
    patternTokens (replaceClasses value).toList =
        (patternTokens value.toList).flatMap PatternToken.written ↔
      replaceClasses value = writtenPattern value := by
  rw [← patternTokens_flatMap_classText, writtenPattern, ← String.toList_inj, String.toList_ofList]
  constructor
  · intro h
    have htext := congrArg (List.flatMap PatternToken.text) h
    rwa [flatMap_text_patternTokens, flatMap_text_patternTokens] at htext
  · exact congrArg patternTokens

theorem patternLang_eq_writtenLang {value : String}
    (h : replaceClasses value = writtenPattern value) (flags : String) :
    patternLang parse value flags = writtenLang parse value flags := by
  cases hparse : parse (writtenPattern value) (flags.contains 'i') <;>
    simp only [patternLang, parsePattern, h, writtenLang, hparse]

/-- **When the replacement is right**: no escaped backslash stands in front of one of the six
letters. For other readings of the shorthands, the parser has to read the classes that are written
out so, too. -/
theorem shorthandsExact_iff (value : String) :
    (ShorthandsExact parse (writtenLang parse) value ↔
      (patternTokens value.toList).IsChain fun token next => ¬ token.Collide next) ∧
    ∀ asciiLang, ShorthandsExact parse asciiLang value ↔
      ((patternTokens value.toList).IsChain fun token next => ¬ token.Collide next) ∧
        ReadsClasses parse asciiLang value := by
  have hiff (asciiLang : String → String → Language Char) :
      ShorthandsExact parse asciiLang value ↔
        replaceClasses value = writtenPattern value ∧ ReadsClasses parse asciiLang value := by
    constructor
    · intro h
      have heq := (tokens_replaceClasses_iff value).mp h.tokens
      exact ⟨heq, fun flags =>
        (patternLang_eq_writtenLang parse heq flags).symm.trans (h.lang flags)⟩
    · rintro ⟨heq, hreads⟩
      exact ⟨(tokens_replaceClasses_iff value).mpr heq, fun flags =>
        (patternLang_eq_writtenLang parse heq flags).trans (hreads flags)⟩
  rw [← replaceClasses_eq_iff]
  exact ⟨(hiff _).trans (and_iff_left fun _ => rfl), hiff⟩

end Patterns

/-! ### An escaped backslash -/

/-- The character that a token stands for, where it stands for itself. -/
def literalChar : PatternToken → Option Char
  | .char c => if "\\.+*?()|[\x7b^$".toList.contains c then none else some c
  | .escape c => if c.isAlphanum then none else some c

def charHir (c : Char) : Hir := .classUnicode [⟨c, c, le_rfl⟩]

/-- The parser, on patterns without operators. -/
def parseLiteral (value : String) (_ : Bool) : Except String Hir :=
  match (patternTokens value.toList).mapM literalChar with
  | some chars => .ok (.concat (chars.map charHir))
  | none => .error "not a literal"

theorem langConcat_charHir (chars : List Char) : langConcat (chars.map charHir) = word chars := by
  induction chars with
  | nil => rfl
  | cons c chars ih =>
    rw [map_cons, langConcat, ih, word_cons]
    congr 1
    ext w
    rw [charHir, Hir.lang, mem_letters]
    constructor
    · rintro ⟨a, ⟨r, hmem, hge, hle⟩, rfl⟩
      rw [mem_singleton] at hmem
      subst hmem
      rw [le_antisymm hle hge]
      rfl
    · intro hw
      exact ⟨c, ⟨_, mem_singleton_self _, le_rfl, le_rfl⟩, hw⟩

theorem lang_parseLiteral {value flags : String}
    (h : (patternTokens (replaceClasses value).toList).mapM literalChar = some chars) :
    patternLang parseLiteral value flags = word chars := by
  rw [patternLang, parsePattern, parseLiteral, h]
  exact langConcat_charHir chars

theorem writtenLang_parseLiteral {value flags : String}
    (h : (patternTokens (writtenPattern value).toList).mapM literalChar = some chars) :
    writtenLang parseLiteral value flags = word chars := by
  rw [writtenLang, parseLiteral, h]
  exact langConcat_charHir chars

/-- The pattern `\\w` stands for a backslash and a letter, but the code makes the name of a class
of it. -/
theorem exists_not_shorthandsExact :
    ¬ ∀ parse value, ShorthandsExact parse (writtenLang parse) value := by
  intro h
  have hlang := (h parseLiteral "\\\\w").lang ""
  have hcode : patternLang parseLiteral "\\\\w" "" = word "[0-9A-Za-z_]".toList := by
    refine lang_parseLiteral ?_
    rw [toList_replaceClasses]
    decide
  have hpattern : writtenLang parseLiteral "\\\\w" "" = word "\\w".toList := by
    refine writtenLang_parseLiteral ?_
    rw [writtenPattern, String.toList_ofList]
    decide
  rw [hcode, hpattern] at hlang
  have hmem : "[0-9A-Za-z_]".toList ∈ word "\\w".toList := hlang ▸ Set.mem_singleton _
  exact absurd (Set.mem_singleton_iff.mp hmem) (by decide)

end TreeSitter.Generate
