import TreeSitter.Tags.TagQueue
import TreeSitter.Lib.Utf8Chunks
import TreeSitter.Lib.Utf8Valid

/-!
# TreeSitter.Tags.LineInfo

**What the tag extractor remembers of a line.** The line and the columns of a tag are computed from
the start of its line, or carried on from the name of the previous tag, if that one *ends* on the
row on which this name begins. The line that is carried on is the one on which the previous name
*begins*. So the tags are what they are when nothing is remembered, if and only if the names that
follow each other agree about their lines (`isTransparent_iff`); a name of several lines does not
agree with the next one behind it.
-/

namespace TreeSitter.Tags

open Library Lib

/-! ### Afresh -/

def Node.lineBegin (node : Node) : Nat := node.startByte - node.startPosition.column

def freshLineRange (source : List UInt8) (name : Node) : ByteRange :=
  lineRange source name.startByte name.startPosition maxLineLen

/-- The columns of a name, counted from the start of its line. -/
def freshColumns (source : List UInt8) (name : Node) : ByteRange :=
  let start := utf16Len (sliceOf source ⟨name.lineBegin, name.startByte⟩)
  ⟨start, start + utf16Len (sliceOf source name.byteRange)⟩

def freshLineInfo (source : List UInt8) (name : Node) : LineInfo where
  utf8Position := name.endPosition
  utf8Byte := name.endByte
  utf16Column := (freshColumns source name).stop
  lineRange := freshLineRange source name

/-- A tag has the line and the columns of its name. -/
def Tag.IsFresh (source : List UInt8) (name : Node) (tag : Tag) : Prop :=
  tag.lineRange = freshLineRange source name ∧ tag.utf16ColumnRange = freshColumns source name

/-! ### The names of tags -/

/-- The name and the tag of a match, if there is to be a tag for it. -/
def taggedNode (config : TagsConfiguration) (source : List UInt8) (scopes : List LocalScope)
    (mat : QueryMatch) : Option (Node × Node) :=
  let info := config.info mat
  let parts := matchParts config mat
  if mat.patternIndex < config.tagsPatternIndex then none
  else
    match parts.nameNode, parts.tagNode with
    | some nameNode, some tagNode =>
      if nameNode.hasError then none
      else if info.nameMustBeNonLocal &&
          isLocal (sliceOf source nameNode.byteRange) nameNode.byteRange scopes then none
      else some (nameNode, tagNode)
    | _, _ => none

/-- The scopes behind a match. -/
def scopesAfter (config : TagsConfiguration) (source : List UInt8) (scopes : List LocalScope)
    (mat : QueryMatch) : List LocalScope :=
  if mat.patternIndex < config.tagsPatternIndex then
    mat.captures.foldl (addLocal config source (config.info mat).localScopeInherits) scopes
  else scopes

/-- The names of the tags of some matches, one after another. -/
def taggedNames (config : TagsConfiguration) (source : List UInt8) :
    List LocalScope → List QueryMatch → List Node
  | _, [] => []
  | scopes, mat :: queryMatches =>
    ((taggedNode config source scopes mat).map Prod.fst).toList ++
      taggedNames config source (scopesAfter config source scopes mat) queryMatches

/-! ### Agreement -/

/-- **Two names agree**: if the first one ends on the row on which the second one begins, they have
one line; and if it does not end behind where the second one begins, the columns add up. -/
def Agree (source : List UInt8) (name next : Node) : Prop :=
  name.endPosition.row = next.startPosition.row →
    freshLineRange source name = freshLineRange source next ∧
      (name.endPosition.column ≤ next.startPosition.column → (freshColumns source name).stop +
            utf16Len (sliceOf source ⟨name.endByte, next.startByte⟩) =
          (freshColumns source next).start)

/-- **What is remembered does not matter**: in every run, a match that gives a tag gives it the line
and the columns of its name. -/
def IsTransparent (config : TagsConfiguration) (source : List UInt8)
    (queryMatches : List QueryMatch) : Prop :=
  ∀ it flag mat it' nameNode tagNode tag lineInfo, Reaches config source queryMatches it →
    turn config source flag it = .matched mat it' →
      taggedNode config source it.scopes mat = some (nameNode, tagNode) →
        matchTag config source it mat = some (tag, lineInfo) → tag.IsFresh source nameNode

variable {config : TagsConfiguration} {source : List UInt8} {it it' it'' : TagsIter}
  {mat : QueryMatch} {queryMatches : List QueryMatch} {flag : Option Nat}
  {nameNode tagNode : Node} {left : List (Tag × Nat)} {yielded : List Tag}

/-! ### A match -/

theorem matchTag_of_taggedNode
    (h : taggedNode config source it.scopes mat = some (nameNode, tagNode)) :
    ¬ mat.patternIndex < config.tagsPatternIndex ∧
      matchTag config source it mat =
        some (Prod.map id some (makeTag (config.info mat) source it.prevLineInfo
          (matchParts config mat) nameNode tagNode)) := by
  rw [taggedNode] at h
  split at h
  next => cases h
  next hindex =>
    refine ⟨hindex, ?_⟩
    split at h
    next name tag hname htag =>
      split at h
      next => cases h
      next herror =>
        split at h
        next => cases h
        next hlocal =>
          cases h
          rw [matchTag]
          dsimp only
          rw [hname, htag]
          dsimp only
          rw [if_neg herror, if_neg hlocal]
          rfl
    next => cases h

theorem prevLineInfo_of_taggedNode (h : taggedNode config source it.scopes mat = none) :
    (takeMatch config source it mat).prevLineInfo = it.prevLineInfo := by
  rw [taggedNode] at h
  rw [takeMatch]
  split
  next => rfl
  next hindex =>
    rw [if_neg hindex] at h
    rw [matchTag]
    dsimp only
    cases hname : (matchParts config mat).nameNode with
    | none => rfl
    | some name =>
      cases htag : (matchParts config mat).tagNode with
      | none =>
        dsimp only
        split
        next tag lineInfo heq =>
          split at heq
          next =>
            cases heq
            rfl
          next => cases heq
        next => rfl
      | some tag =>
        rw [hname, htag] at h
        dsimp only at h ⊢
        split at h
        next herror =>
          rw [if_pos herror]
        next herror =>
          rw [if_neg herror]
          split at h
          next hlocal => rw [if_pos hlocal]
          next => cases h

theorem takeMatch_scopes (it : TagsIter) (mat : QueryMatch) :
    (takeMatch config source it mat).scopes = scopesAfter config source it.scopes mat := by
  rw [takeMatch, scopesAfter]
  split
  · rfl
  · split
    · rfl
    · rfl

theorem takeMatch_prevLineInfo
    (h : taggedNode config source it.scopes mat = some (nameNode, tagNode)) :
    (takeMatch config source it mat).prevLineInfo =
      some (makeTag (config.info mat) source it.prevLineInfo
        (matchParts config mat) nameNode tagNode).2 := by
  obtain ⟨hindex, htag⟩ := matchTag_of_taggedNode h
  rw [takeMatch, if_neg hindex, htag]
  rfl

/-! ### A tag -/

variable {info : PatternInfo} {parts : MatchParts}

theorem makeTag_lineInfo {prevLineInfo : Option LineInfo}
    (h : (makeTag info source prevLineInfo parts nameNode tagNode).1.IsFresh source nameNode) :
    (makeTag info source prevLineInfo parts nameNode tagNode).2 = freshLineInfo source nameNode := by
  obtain ⟨hline, hcolumns⟩ := h
  have hstop := congrArg ByteRange.stop hcolumns
  rw [freshLineInfo, ← hline, ← hstop]
  rfl

theorem columns_eq_iff {source : List UInt8} {name : Node} {start : Nat} :
    (⟨start, start + utf16Len (sliceOf source name.byteRange)⟩ : ByteRange) =
      freshColumns source name ↔ start = (freshColumns source name).start := by
  rw [freshColumns, ByteRange.mk.injEq]
  dsimp only
  constructor
  · exact And.left
  · rintro rfl
    exact ⟨rfl, rfl⟩

/-- **A tag is fresh** just if its name agrees with the previous one. -/
theorem makeTag_isFresh_iff (last : Option Node) :
    (makeTag info source (last.map (freshLineInfo source)) parts nameNode tagNode).1.IsFresh source
        nameNode ↔ ∀ name ∈ last, Agree source name nameNode := by
  have hafresh : (⟨0 + utf16Len (sliceOf source ⟨nameNode.lineBegin, nameNode.startByte⟩),
      0 + utf16Len (sliceOf source ⟨nameNode.lineBegin, nameNode.startByte⟩) +
        utf16Len (sliceOf source nameNode.byteRange)⟩ : ByteRange) =
          freshColumns source nameNode := by
    rw [columns_eq_iff, Nat.zero_add]
    rfl
  cases last with
  | none => exact iff_of_true ⟨rfl, hafresh⟩ (by simp)
  | some name =>
    simp only [Option.mem_some_iff, forall_eq', Option.map_some, Agree]
    by_cases hrow : name.endPosition.row = nameNode.startPosition.row
    · have hsame : (some (freshLineInfo source name)).filter
          (fun info => info.utf8Position.row = nameNode.startPosition.row) =
            some (freshLineInfo source name) := by
        simp [freshLineInfo, hrow]
      simp only [Tag.IsFresh, makeTag, hsame, hrow, true_implies]
      refine and_congr_right fun _ => ?_
      by_cases hcolumn : name.endPosition.column ≤ nameNode.startPosition.column
      · rw [if_pos (show (freshLineInfo source name).utf8Position.column ≤ _ from hcolumn),
          columns_eq_iff]
        exact ⟨fun h _ => h, fun h => h hcolumn⟩
      · rw [if_neg (show ¬ (freshLineInfo source name).utf8Position.column ≤ _ from hcolumn)]
        exact iff_of_true hafresh fun h => absurd h hcolumn
    · have hother : (some (freshLineInfo source name)).filter
          (fun info => info.utf8Position.row = nameNode.startPosition.row) = none := by
        simp [freshLineInfo, hrow]
      simp only [Tag.IsFresh, makeTag, hother]
      exact iff_of_true ⟨rfl, hafresh⟩ fun h => absurd h hrow

/-! ### Names on one line -/

theorem utf16Len_append {bytes bytes' : List UInt8} (h : utf8Error bytes = none)
    (h' : utf8Error bytes' = none) : utf16Len (bytes ++ bytes') = utf16Len bytes + utf16Len bytes' := by
  have happend : utf8Error (bytes ++ bytes') = none := by
    rw [utf8Error_eq_none_iff] at h h' ⊢
    rw [utf8Run_append, h]
    exact h'
  rw [utf16Len, utf16Len, utf16Len, LossyUtf8.lossyBytes_of_valid happend,
    LossyUtf8.lossyBytes_of_valid h, LossyUtf8.lossyBytes_of_valid h', List.map_append,
    List.sum_append]

theorem sliceOf_append {start middle stop : Nat} (h : start ≤ middle) (h' : middle ≤ stop) :
    sliceOf source ⟨start, stop⟩ = sliceOf source ⟨start, middle⟩ ++ sliceOf source ⟨middle, stop⟩ := by
  rw [sliceOf, sliceOf, sliceOf]
  dsimp only
  rw [show stop - start = (middle - start) + (stop - middle) from by omega, List.take_add,
    List.drop_drop, Nat.add_sub_cancel' h]

/-- **Names of one line agree**, one behind the other, where they do not cut a character. -/
theorem agree_of_sameLine {name next : Node} (hline : name.lineBegin = next.lineBegin)
    (hstart : name.lineBegin ≤ name.startByte) (hname : name.startByte ≤ name.endByte)
    (hnext : name.endByte ≤ next.startByte)
    (hfront : utf8Error (sliceOf source ⟨name.lineBegin, name.startByte⟩) = none)
    (hvalid : utf8Error (sliceOf source name.byteRange) = none)
    (hbetween : utf8Error (sliceOf source ⟨name.endByte, next.startByte⟩) = none) :
    Agree source name next := by
  have hupto : utf8Error (sliceOf source ⟨name.lineBegin, name.endByte⟩) = none := by
    rw [sliceOf_append hstart hname]
    rw [utf8Error_eq_none_iff] at hfront hvalid ⊢
    rw [utf8Run_append, hfront]
    exact hvalid
  intro _
  refine ⟨?_, fun _ => ?_⟩
  · have hbegin : name.startByte - name.startPosition.column =
        next.startByte - next.startPosition.column := hline
    rw [freshLineRange, freshLineRange, lineRange, lineRange, hbegin]
  · show utf16Len (sliceOf source ⟨name.lineBegin, name.startByte⟩) +
      utf16Len (sliceOf source name.byteRange) + _ = utf16Len (sliceOf source ⟨next.lineBegin, _⟩)
    rw [← utf16Len_append hfront hvalid, Node.byteRange, ← sliceOf_append hstart hname,
      ← utf16Len_append hupto hbetween, ← sliceOf_append (hstart.trans hname) hnext, hline]

/-! ### All matches -/

/-- The tag that a match gives is fresh. -/
def MatchFresh (config : TagsConfiguration) (source : List UInt8) (it : TagsIter)
    (mat : QueryMatch) : Prop :=
  ∀ nameNode tagNode tag lineInfo,
    taggedNode config source it.scopes mat = some (nameNode, tagNode) →
      matchTag config source it mat = some (tag, lineInfo) → tag.IsFresh source nameNode

/-- The tags of some matches are fresh, when they are handled one after another. -/
def AllFresh (config : TagsConfiguration) (source : List UInt8) :
    TagsIter → List QueryMatch → Prop
  | _, [] => True
  | it, mat :: queryMatches =>
    MatchFresh config source it mat ∧
      AllFresh config source (takeMatch config source it mat) queryMatches

theorem matchFresh_iff
    (h : taggedNode config source it.scopes mat = some (nameNode, tagNode)) :
    MatchFresh config source it mat ↔ (makeTag (config.info mat) source it.prevLineInfo
      (matchParts config mat) nameNode tagNode).1.IsFresh source nameNode := by
  obtain ⟨-, htag⟩ := matchTag_of_taggedNode h
  constructor
  · exact fun hfresh => hfresh _ _ _ _ h htag
  · intro hfresh name node tag lineInfo hnode hmatch
    rw [h] at hnode
    rw [htag] at hmatch
    cases hnode
    cases hmatch
    exact hfresh

/-- **The tags are fresh** just if the names agree one after another. What is remembered is what
there is to be remembered of the last name, as long as its tag is fresh. -/
theorem allFresh_iff (queryMatches : List QueryMatch) : ∀ (it : TagsIter) (last : Option Node),
    it.prevLineInfo = last.map (freshLineInfo source) →
      (AllFresh config source it queryMatches ↔
        (last.toList ++ taggedNames config source it.scopes queryMatches).IsChain
          (Agree source)) := by
  induction queryMatches with
  | nil =>
    intro it last _
    cases last with
    | none => exact iff_of_true trivial .nil
    | some name => exact iff_of_true trivial (.singleton _)
  | cons mat queryMatches ih =>
    intro it last hlast
    rw [AllFresh, taggedNames]
    cases hnode : taggedNode config source it.scopes mat with
    | none =>
      have hvacuous : MatchFresh config source it mat := by
        intro name node tag lineInfo hsome
        rw [hnode] at hsome
        cases hsome
      rw [ih _ last ((prevLineInfo_of_taggedNode hnode).trans hlast), takeMatch_scopes]
      exact and_iff_right hvacuous
    | some nodes =>
      obtain ⟨nameNode, tagNode⟩ := nodes
      have hagree := matchFresh_iff hnode
      rw [hlast, makeTag_isFresh_iff] at hagree
      have hrest (hfresh : MatchFresh config source it mat) :=
        ih (takeMatch config source it mat) (some nameNode)
          ((takeMatch_prevLineInfo hnode).trans
            (congrArg some (makeTag_lineInfo ((matchFresh_iff hnode).mp hfresh))))
      rw [and_congr_right hrest, hagree, takeMatch_scopes]
      show _ ↔ (last.toList ++ nameNode :: _).IsChain _
      cases last with
      | none => simp
      | some name => simp

/-! ### Runs -/

theorem SameLine.matchFresh (h : SameLine it it') :
    MatchFresh config source it mat ↔ MatchFresh config source it' mat := by
  rw [MatchFresh, MatchFresh, h.1, h.matchTag]

theorem SameLine.allFresh (h : SameLine it it') :
    AllFresh config source it queryMatches ↔ AllFresh config source it' queryMatches := by
  induction queryMatches generalizing it it' with
  | nil => exact Iff.rfl
  | cons mat queryMatches ih => rw [AllFresh, AllFresh, h.matchFresh, ih h.takeMatch]

theorem Runs.allFresh (h : Runs config source it left yielded it')
    (hfresh : AllFresh config source it it.queryMatches) :
    AllFresh config source it' it'.queryMatches := by
  induction h with
  | refl => exact hfresh
  | matched hturn _ ih =>
    obtain ⟨-, hmatches, -, hsame⟩ := turn_matched hturn
    rw [hmatches, AllFresh] at hfresh
    exact ih (hsame.allFresh.mpr hfresh.2)
  | skipped hturn _ ih =>
    obtain ⟨-, -, hmatches, hsame⟩ := turn_leaves (.inl hturn)
    rw [← hmatches] at hfresh
    exact ih (hsame.allFresh.mpr hfresh)
  | yielded hturn _ ih =>
    obtain ⟨-, -, hmatches, hsame⟩ := turn_leaves (.inr hturn)
    rw [← hmatches] at hfresh
    exact ih (hsame.allFresh.mpr hfresh)

theorem Runs.allFresh_of_matched (h : Runs config source it left yielded it')
    (hfinished : it'.queryMatches = [])
    (hfresh : ∀ it₁ flag mat it₂ left yielded, Runs config source it left yielded it₁ →
      turn config source flag it₁ = .matched mat it₂ → MatchFresh config source it₁ mat) :
    AllFresh config source it it.queryMatches := by
  induction h with
  | refl =>
    rw [hfinished]
    trivial
  | matched hturn _ ih =>
    obtain ⟨-, hmatches, -, hsame⟩ := turn_matched hturn
    rw [hmatches, AllFresh, ← hsame.allFresh]
    exact ⟨hfresh _ _ _ _ _ _ (.refl _) hturn, ih hfinished
      fun it₁ flag mat it₂ left yielded hruns => hfresh it₁ flag mat it₂ _ _ (.matched hturn hruns)⟩
  | skipped hturn _ ih =>
    obtain ⟨-, -, hmatches, hsame⟩ := turn_leaves (.inl hturn)
    rw [← hmatches, ← hsame.allFresh]
    exact ih hfinished
      fun it₁ flag mat it₂ left yielded hruns => hfresh it₁ flag mat it₂ _ _ (.skipped hturn hruns)
  | yielded hturn _ ih =>
    obtain ⟨-, -, hmatches, hsame⟩ := turn_leaves (.inr hturn)
    rw [← hmatches, ← hsame.allFresh]
    exact ih hfinished
      fun it₁ flag mat it₂ left yielded hruns => hfresh it₁ flag mat it₂ _ _ (.yielded hturn hruns)

/-- All runs are as good as the one that handles the matches one after another. -/
theorem isTransparent_iff_allFresh :
    IsTransparent config source queryMatches ↔
      AllFresh config source (.new source queryMatches) queryMatches := by
  constructor
  · intro htransparent
    obtain ⟨left, yielded, it, it', hruns, hfinished⟩ :=
      @exists_finished config source queryMatches
    exact hruns.allFresh_of_matched (turn_finished hfinished).1
      fun it₁ flag mat it₂ left yielded hruns hturn nameNode tagNode tag lineInfo =>
        htransparent it₁ flag mat it₂ nameNode tagNode tag lineInfo ⟨left, yielded, hruns⟩ hturn
  · intro hfresh it flag mat it' nameNode tagNode tag lineInfo ⟨left, yielded, hruns⟩ hturn
    have hleft := hruns.allFresh hfresh
    rw [(turn_matched hturn).2.1, AllFresh] at hleft
    exact hleft.1 nameNode tagNode tag lineInfo

/-- **When what is remembered does not matter**: the names of the tags agree about their lines, each
with the next one. -/
theorem isTransparent_iff (config : TagsConfiguration) (source : List UInt8)
    (queryMatches : List QueryMatch) :
    IsTransparent config source queryMatches ↔
      (taggedNames config source [⟨false, ⟨0, source.length⟩, []⟩] queryMatches).IsChain
        (Agree source) :=
  isTransparent_iff_allFresh.trans (allFresh_iff queryMatches (.new source queryMatches) none rfl)

/-- Names of one line are one behind the other, and cut no character. -/
def InLine (source : List UInt8) (name next : Node) : Prop :=
  name.endPosition.row = next.startPosition.row →
    name.lineBegin = next.lineBegin ∧ name.startByte ≤ name.endByte ∧
    name.endByte ≤ next.startByte ∧
    utf8Error (sliceOf source ⟨name.lineBegin, name.startByte⟩) = none ∧
    utf8Error (sliceOf source name.byteRange) = none ∧
    utf8Error (sliceOf source ⟨name.endByte, next.startByte⟩) = none

/-- **What is remembered does not matter** where names are in order and cut no character. -/
theorem isTransparent_of_inLine
    (h : (taggedNames config source [⟨false, ⟨0, source.length⟩, []⟩] queryMatches).IsChain
      (InLine source)) : IsTransparent config source queryMatches := by
  refine isTransparent_iff_allFresh.mpr ((allFresh_iff _ (.new source _) none rfl).mpr
    (h.imp fun name next hline hrow => ?_))
  obtain ⟨hbegin, hname, hnext, hfront, hvalid, hbetween⟩ := hline hrow
  exact agree_of_sameLine hbegin (Nat.sub_le _ _) hname hnext hfront hvalid hbetween hrow

/-! ### A name of two lines -/

/-- A query whose one pattern captures a name that is all of its node. -/
def nameConfig : TagsConfiguration where
  captureMap := fun index => if index = 1 then some ⟨0, true⟩ else none
  docCaptureIndex := none
  nameCaptureIndex := some 0
  ignoreCaptureIndex := none
  localScopeCaptureIndex := none
  localDefinitionCaptureIndex := none
  tagsPatternIndex := 0
  patternInfo := [{}]

def nameMatch (node : Node) : QueryMatch := ⟨0, [⟨node, 0⟩, ⟨node, 1⟩]⟩

/-- In `a⏎b c`, the first name is `a⏎b` and the second one is `c`, which gets the line of `a`. -/
theorem exists_not_isTransparent :
    ¬ ∀ config source queryMatches, IsTransparent config source queryMatches := by
  intro h
  have htransparent := h nameConfig [0x61, 0x0A, 0x62, 0x20, 0x63]
    [nameMatch ⟨0, 3, ⟨0, 0⟩, ⟨1, 1⟩, false, by decide⟩,
      nameMatch ⟨4, 5, ⟨1, 2⟩, ⟨1, 3⟩, false, by decide⟩]
  rw [isTransparent_iff_allFresh, allFresh_iff _ _ none rfl] at htransparent
  have hagree : Agree [0x61, 0x0A, 0x62, 0x20, 0x63] ⟨0, 3, ⟨0, 0⟩, ⟨1, 1⟩, false, by decide⟩
      ⟨4, 5, ⟨1, 2⟩, ⟨1, 3⟩, false, by decide⟩ := htransparent.rel_head? rfl
  have hstart : 0 = 2 := congrArg ByteRange.start (hagree rfl).1
  cases hstart

/-- In `a b`, both names are on one line. -/
theorem isTransparent_of_inLine_ab : IsTransparent nameConfig [0x61, 0x20, 0x62]
    [nameMatch ⟨0, 1, ⟨0, 0⟩, ⟨0, 1⟩, false, by decide⟩,
      nameMatch ⟨2, 3, ⟨0, 2⟩, ⟨0, 3⟩, false, by decide⟩] :=
  isTransparent_of_inLine (.cons_cons (fun _ => by decide) (.singleton _))

end TreeSitter.Tags
