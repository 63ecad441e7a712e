import Mathlib

/-!
# TreeSitter.Library.MacroExpansion

**Macros** are symbols with bodies, which are words of symbols again. A word is read from the left:
a macro is replaced by one of its bodies, any other symbol is consumed. A body may be good for
the end of a word only. Reading ends on all words exactly if no macro calls itself, over any
number of other ones (`forall_terminates_iff`). A call counts if it can be reached: the macros
before it in the body have to be **productive**, that is, have a way to be read to their end.
-/

namespace Library

open List Relation

/-- The bodies of the symbols that are macros, each with whether it needs the end of the word. -/
abbrev Macros (α : Type*) := α → Option (List (List α × Bool))

namespace Macros

variable {α : Type*} (m : Macros α)

/-- One step of reading. -/
inductive Unfolds : List α → List α → Prop
  | consume {s : α} {post : List α} : m s = none → Unfolds (s :: post) post
  | expand {s : α} {post body : List α} {bodies : List (List α × Bool)} {atEnd : Bool} :
      m s = some bodies → (body, atEnd) ∈ bodies → (atEnd = true → post = []) →
      Unfolds (s :: post) (body ++ post)

/-- Reading the word ends, whatever bodies are taken. -/
def Terminates (w : List α) : Prop := Acc (fun a b => m.Unfolds b a) w

/-- The macro can be read to its end, at the end of the word or anywhere in it. -/
inductive Productive : α → Bool → Prop
  | intro {s : α} {e : Bool} {bodies : List (List α × Bool)} {body : List α} {atEnd : Bool} :
      m s = some bodies → (body, atEnd) ∈ bodies → (atEnd = true → e = true) →
      (∀ u t v, body = u ++ t :: v → (m t).isSome = true → Productive t (v.isEmpty && e)) →
      Productive s e

/-- A macro in a place, and one that is read because of it. -/
def Calls (x y : α × Bool) : Prop :=
  ∃ bodies body atEnd u v, m x.1 = some bodies ∧ (body, atEnd) ∈ bodies ∧
    (atEnd = true → x.2 = true) ∧ body = u ++ y.1 :: v ∧ (m y.1).isSome = true ∧
    y.2 = (v.isEmpty && x.2) ∧ ∀ t ∈ u, (m t).isSome = true → m.Productive t false

/-- No macro calls itself. -/
def Acyclic : Prop := ∀ x, ¬ TransGen m.Calls x x

variable {m}

theorem terminates_nil : m.Terminates [] := by
  refine Acc.intro _ fun w h => ?_
  cases h

variable {post : List α} {s : α}

theorem Terminates.cons (hs : m s = none) (h : m.Terminates post) :
    m.Terminates (s :: post) := by
  refine Acc.intro _ fun w hw => ?_
  cases hw with
  | consume => exact h
  | expand hbodies => rw [hs] at hbodies; cases hbodies

/-! ### Productive macros -/

theorem Productive.reflTransGen {e : Bool} (h : m.Productive s e) :
    ∀ {post : List α}, (e = true → post = []) → ReflTransGen m.Unfolds (s :: post) post := by
  induction h with
  | @intro s e bodies body atEnd hs hbody hend _ ih =>
    intro post hpost
    refine ReflTransGen.head (.expand hs hbody fun h => hpost (hend h)) ?_
    -- The body is read symbol by symbol; `v` is what is left of it.
    suffices hrest : ∀ v u, body = u ++ v → ReflTransGen m.Unfolds (v ++ post) post from
      hrest body [] rfl
    intro v
    induction v with
    | nil => exact fun _ _ => .refl
    | cons t v ihv =>
      intro u hu
      have hnext := ihv (u ++ [t]) (by rw [hu, append_assoc]; rfl)
      cases ht : m t with
      | none => exact hnext.head (.consume ht)
      | some _ =>
        refine (ih u t v hu (by rw [ht]; rfl) fun h => ?_).trans hnext
        rw [Bool.and_eq_true, List.isEmpty_iff] at h
        rw [h.1, hpost h.2]
        rfl

theorem reflTransGen_of_productive {u : List α}
    (h : ∀ t ∈ u, (m t).isSome = true → m.Productive t false) (post : List α) :
    ReflTransGen m.Unfolds (u ++ post) post := by
  induction u with
  | nil => exact .refl
  | cons t u ih =>
    have hrest := ih fun t' ht' => h t' (mem_cons_of_mem _ ht')
    cases ht : m t with
    | none => exact hrest.head (.consume ht)
    | some _ =>
      have hproductive := h t mem_cons_self (by rw [ht]; rfl)
      exact (hproductive.reflTransGen nofun).trans hrest

variable {x y : α × Bool}

theorem Calls.transGen (h : m.Calls x y) (hpost : x.2 = true → post = []) :
    ∃ post', TransGen m.Unfolds (x.1 :: post) (y.1 :: post') ∧ (y.2 = true → post' = []) := by
  obtain ⟨bodies, body, atEnd, u, v, hx, hbody, hend, rfl, -, hy, hu⟩ := h
  refine ⟨v ++ post, ?_, fun h => ?_⟩
  · refine TransGen.head' (.expand hx hbody fun h => hpost (hend h)) ?_
    rw [append_assoc]
    exact reflTransGen_of_productive hu _
  · rw [hy, Bool.and_eq_true, List.isEmpty_iff] at h
    rw [h.1, hpost h.2]
    rfl

theorem transGen_calls (h : TransGen m.Calls x y) :
    ∀ {post : List α}, (x.2 = true → post = []) →
      ∃ post', TransGen m.Unfolds (x.1 :: post) (y.1 :: post') ∧ (y.2 = true → post' = []) := by
  induction h with
  | single h => exact fun hpost => h.transGen hpost
  | tail _ h ih =>
    intro post hpost
    obtain ⟨post₁, hread, hpost₁⟩ := ih hpost
    obtain ⟨post₂, hread', hpost₂⟩ := h.transGen hpost₁
    exact ⟨post₂, hread.trans hread', hpost₂⟩

/-! ### Termination -/

theorem Terminates.of_reflTransGen {w w' : List α} (h : ReflTransGen m.Unfolds w w')
    (hw : m.Terminates w) : m.Terminates w' := by
  induction h with
  | refl => exact hw
  | tail _ hstep ih => exact ih.inv hstep

theorem not_terminates_of_calls (hx : TransGen m.Calls x x) (hpost : x.2 = true → post = []) :
    ¬ m.Terminates (x.1 :: post) := by
  intro hacc
  have htrans : Acc (TransGen fun a b => m.Unfolds b a) (x.1 :: post) := hacc.transGen
  generalize hw : x.1 :: post = w at htrans
  induction htrans generalizing post with
  | intro w _ ih =>
    subst hw
    obtain ⟨post', hread, hpost'⟩ := transGen_calls hx hpost
    have hswap : TransGen (fun a b => m.Unfolds b a) (x.1 :: post') (x.1 :: post) :=
      transGen_swap.mpr hread
    exact ih _ hswap hpost' (hacc.of_reflTransGen hread.to_reflTransGen) rfl

theorem acyclic_of_bodies
    (h : ∀ s bodies body atEnd, m s = some bodies → (body, atEnd) ∈ bodies → m.Terminates body) :
    m.Acyclic := by
  intro x hx
  obtain ⟨y, -, bodies, body, atEnd, u, v, hy, hbody, -, rfl, -, hx₂, hu⟩ :=
    TransGen.tail'_iff.mp hx
  refine not_terminates_of_calls hx (fun h => ?_)
    ((h y.1 bodies _ atEnd hy hbody).of_reflTransGen (reflTransGen_of_productive hu _))
  rw [hx₂, Bool.and_eq_true, List.isEmpty_iff] at h
  exact h.1

theorem terminates_body {e atEnd : Bool} {bodies : List (List α × Bool)} {body : List α}
    (hs : m s = some bodies) (hbody : (body, atEnd) ∈ bodies) (hend : atEnd = true → e = true)
    (hpost : post.isEmpty = e) (hcalls : ∀ y, m.Calls (s, e) y → ∀ post', post'.isEmpty = y.2 →
      (m.Productive y.1 y.2 → m.Terminates post') → m.Terminates (y.1 :: post'))
    (hrest : m.Productive s e → m.Terminates post) : m.Terminates (body ++ post) := by
  suffices hread : ∀ v u, body = u ++ v →
      (v ≠ [] → ∀ t ∈ u, (m t).isSome = true → m.Productive t false) →
      ((∀ u' t v', v = u' ++ t :: v' → (m t).isSome = true → m.Productive t (v'.isEmpty && e)) →
        m.Terminates post) → m.Terminates (v ++ post) by
    refine hread body [] rfl (by simp) fun h => hrest ?_
    exact .intro hs hbody hend h
  intro v
  induction v with
  | nil => exact fun u _ _ h => h fun u' t v' hv => by simp at hv
  | cons t v ih =>
    intro u hu hproductive hlast
    cases ht : m t with
    | none =>
      refine Terminates.cons ht (ih (u ++ [t]) (by rw [hu, append_assoc]; rfl) ?_ ?_)
      · intro _ t' ht' hsome
        rcases mem_append.mp ht' with hmem | hmem
        · exact hproductive (cons_ne_nil _ _) t' hmem hsome
        · rw [mem_singleton.mp hmem, ht] at hsome
          cases hsome
      · intro h
        refine hlast fun u' t' v' hv hsome => ?_
        cases u' with
        | nil =>
          obtain ⟨rfl, rfl⟩ := List.cons.inj hv
          rw [ht] at hsome
          cases hsome
        | cons _ u' => exact h u' t' v' (List.cons.inj hv).2 hsome
    | some bodies' =>
      have hsome : (m t).isSome = true := by rw [ht]; rfl
      refine hcalls (t, v.isEmpty && e)
        ⟨bodies, body, atEnd, u, v, hs, hbody, hend, hu, hsome, rfl,
          hproductive (cons_ne_nil _ _)⟩ _ ?_ ?_
      · rw [← hpost]
        cases v <;> simp
      · intro hcall
        refine ih (u ++ [t]) (by rw [hu, append_assoc]; rfl) ?_ ?_
        · intro hne t' ht' hsome'
          rcases mem_append.mp ht' with hmem | hmem
          · exact hproductive (cons_ne_nil _ _) t' hmem hsome'
          · rw [mem_singleton.mp hmem]
            rwa [isEmpty_eq_false_iff.mpr hne, Bool.false_and] at hcall
        · intro h
          refine hlast fun u' t' v' hv hsome' => ?_
          cases u' with
          | nil =>
            obtain ⟨rfl, rfl⟩ := List.cons.inj hv
            exact hcall
          | cons _ u' => exact h u' t' v' (List.cons.inj hv).2 hsome'

theorem Calls.isSome (h : m.Calls x y) : (m y.1).isSome = true := by
  obtain ⟨-, -, -, -, -, -, -, -, -, hsome, -⟩ := h
  exact hsome

theorem acc_calls (hfinite : {s | (m s).isSome = true}.Finite) (hacyclic : m.Acyclic)
    (x : α × Bool) (hx : (m x.1).isSome = true) : Acc (fun y x => m.Calls x y) x := by
  have hnodes : {y : α × Bool | (m y.1).isSome = true}.Finite :=
    (hfinite.prod (Set.finite_univ (α := Bool))).subset fun y hy => ⟨hy, trivial⟩
  have hirrefl : Std.Irrefl (TransGen fun y x => m.Calls x y) :=
    ⟨fun x hx => hacyclic x (transGen_swap.mp hx)⟩
  have horder : IsStrictOrder (α × Bool) (TransGen fun y x => m.Calls x y) := ⟨⟩
  have hwf := hnodes.wellFoundedOn (r := TransGen fun y x => m.Calls x y)
  rw [Set.wellFoundedOn_iff] at hwf
  induction hwf.apply x with
  | intro x _ ih =>
    refine Acc.intro _ fun y hy => ?_
    exact ih y ⟨.single hy, hy.isSome, hx⟩ hy.isSome

/-- **Reading ends on every word exactly if no macro calls itself.** -/
theorem forall_terminates_iff (hfinite : {s | (m s).isSome = true}.Finite) :
    (∀ w, m.Terminates w) ↔ m.Acyclic := by
  refine ⟨fun h => acyclic_of_bodies fun _ _ body _ _ _ => h body, fun hacyclic => ?_⟩
  have hunfold : ∀ x : α × Bool, Acc (fun y x => m.Calls x y) x → (m x.1).isSome = true →
      ∀ post, post.isEmpty = x.2 → (m.Productive x.1 x.2 → m.Terminates post) →
      m.Terminates (x.1 :: post) := by
    intro x hx
    induction hx with
    | intro x _ ih =>
      intro hsome post hpost hrest
      refine Acc.intro _ fun w hw => ?_
      cases hw with
      | consume hs => rw [hs] at hsome; cases hsome
      | expand hs hbody hend =>
        refine terminates_body hs hbody (fun h => ?_) hpost
          (fun y hy => ih y hy hy.isSome) hrest
        rw [← hpost, hend h]
        rfl
  intro w
  induction w with
  | nil => exact terminates_nil
  | cons s w ih =>
    cases hs : m s with
    | none => exact ih.cons hs
    | some bodies =>
      have hsome : (m s).isSome = true := by rw [hs]; rfl
      exact hunfold (s, w.isEmpty) (acc_calls hfinite hacyclic _ hsome) hsome w rfl fun _ => ih

end Macros

end Library
