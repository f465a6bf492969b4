import DreamBerd.World.Copy
import DreamBerd.World.Index
import Mathlib.Logic.Relation

/-!
# Where values come from

The values of a store change in few ways (`ValueStep`): a value of the language is made or takes the
place of another one, and a datum that is no value of the language is copied, or is read out of a
string as one of its elements. So such a datum was there from the beginning or it is a text
(`ValueSteps.origin`).
-/

namespace DreamBerd

variable {vs vs' : Array Value} {d : Datum}

/-- Whether a datum that is no value of the language is held in place of a value. -/
@[grind]
def Value.isBare : Value → Bool
  | number _ | string .. | list .. | boolean _ | undefined | blank | object .. | map _ | keyword _
  | function .. | builtin .. | promise _ => false
  | bare _ => true

theorem CharRow.ne_nil_of_get {row : CharRow} {chars : List Char}
    (got : row.get i = .ok chars) : chars ≠ [] := by
  cases i with
  | none => cases got
  | some i =>
    unfold CharRow.get at got
    dsimp only [bind, Except.bind] at got
    split at got
    · cases got
    · split at got
      · cases got
      · split at got
        · cases got
          exact List.cons_ne_nil _ _
        · cases got

/-- A datum is the element that some index of a string gives. -/
def IsElement (vs : Array Value) (d : Datum) : Prop :=
  ∃ (n : Nat) (row : CharRow) (members : ScopeRef) (i : Option Number) (chars : List Char),
    vs[n]? = some (.string row members) ∧ row.get i = .ok chars ∧ d = .text (String.ofList chars)

theorem IsElement.exists_text (element : IsElement vs d) : ∃ s, s ≠ "" ∧ d = .text s := by
  obtain ⟨_, _, _, _, chars, -, got, rfl⟩ := element
  refine ⟨_, fun empty => CharRow.ne_nil_of_get got ?_, rfl⟩
  simpa using congrArg String.toList empty

inductive ValueStep : Array Value → Array Value → Prop
  | made {vs : Array Value} {v : Value} : v.isBare = false → ValueStep vs (vs.push v)
  | changed {vs : Array Value} {v : Value} (n : Nat) :
    v.isBare = false → ValueStep vs (vs.setIfInBounds n v)
  | copied {vs : Array Value} {d : Datum} : .bare d ∈ vs → ValueStep vs (vs.push (.bare d))
  | read {vs : Array Value} {d : Datum} : IsElement vs d → ValueStep vs (vs.push (.bare d))

abbrev ValueSteps : Array Value → Array Value → Prop := Relation.ReflTransGen ValueStep

theorem ValueStep.origin (step : ValueStep vs vs') (there : .bare d ∈ vs') :
    .bare d ∈ vs ∨ IsElement vs d := by
  cases step with
  | made proper =>
    rcases Array.mem_push.mp there with old | rfl
    · exact .inl old
    · cases proper
  | changed n proper =>
    rcases Array.mem_or_eq_of_mem_setIfInBounds there with old | rfl
    · exact .inl old
    · cases proper
  | copied source =>
    rcases Array.mem_push.mp there with old | same
    · exact .inl old
    · cases same
      exact .inl source
  | read element =>
    rcases Array.mem_push.mp there with old | same
    · exact .inl old
    · cases same
      exact .inr element

theorem ValueSteps.origin (steps : ValueSteps vs vs') (there : .bare d ∈ vs') :
    .bare d ∈ vs ∨ ∃ s, s ≠ "" ∧ d = .text s := by
  induction steps with
  | refl => exact .inl there
  | tail _ step ih =>
    rcases step.origin there with old | element
    · exact ih old
    · exact .inr element.exists_text

theorem ValueSteps.proper (steps : ValueSteps vs vs') {n : Nat}
    (proper : ∃ v, vs[n]? = some v ∧ v.isBare = false) : ∃ v, vs'[n]? = some v ∧ v.isBare = false := by
  induction steps with
  | refl => exact proper
  | tail _ step ih =>
    obtain ⟨v, found, proper⟩ := ih
    obtain ⟨inside, -⟩ := Array.getElem?_eq_some_iff.mp found
    cases step with
    | changed m new =>
      by_cases same : m = n
      · subst same
        exact ⟨_, Array.getElem?_setIfInBounds_self_of_lt inside, new⟩
      · exact ⟨v, (Array.getElem?_setIfInBounds_ne same).trans found, proper⟩
    | made | copied | read =>
      refine ⟨v, ?_, proper⟩
      rwa [Array.getElem?_push_lt inside, ← Array.getElem?_eq_getElem inside]

/-! ## Copies -/

theorem Redirection.isBare_ofValue (f : Redirection) (v : Value) : (f.ofValue v).isBare = v.isBare := by
  cases v with
  | promise held => cases held <;> rfl
  | _ => rfl

theorem Store.value_eq_or_mem (s : Store) (r : ValueRef) :
    s.value r = .undefined ∨ s.value r ∈ s.values := by
  unfold Store.value
  cases found : s.values[r.index]? with
  | none => exact .inl rfl
  | some v => exact .inr (Array.mem_of_getElem? found)

theorem ValueStep.copy (f : Redirection) (s : Store) (r : ValueRef)
    (kept : ∀ v ∈ s.values, v ∈ vs) : ValueStep vs (vs.push (f.ofValue (s.value r))) := by
  cases bare : (s.value r).isBare with
  | false => exact .made ((f.isBare_ofValue _).trans bare)
  | true =>
    cases held : s.value r with
    | bare d =>
      rcases s.value_eq_or_mem r with undefined | member
      · rw [held] at undefined
        cases undefined
      · rw [held] at member
        exact .copied (kept _ member)
    | _ =>
      rw [held] at bare
      cases bare

theorem valueSteps_append_copies (f : Redirection) (s : Store) (rs : List ValueRef)
    (kept : ∀ v ∈ s.values, v ∈ vs) :
    ValueSteps vs (vs ++ (rs.map fun r => f.ofValue (s.value r)).toArray) := by
  induction rs generalizing vs with
  | nil => simpa using Relation.ReflTransGen.refl
  | cons r rs ih =>
    have rest := @ih (vs.push (f.ofValue (s.value r))) fun v member =>
      Array.mem_push.mpr (.inl (kept v member))
    rw [List.map_cons, List.toArray_cons, ← Array.append_assoc]
    exact .head (.copy f s r kept) rest

theorem Store.valueSteps_withCopies (s : Store) (cells : List Cell) :
    ValueSteps s.values (s.withCopies s cells).values :=
  valueSteps_append_copies _ s _ fun _ member => member

end DreamBerd
