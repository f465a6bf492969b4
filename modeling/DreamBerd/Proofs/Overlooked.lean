import DreamBerd.Proofs.Nexts

/-!
# Next values that are overlooked

Before a statement runs, every `next x` of its expressions should have become a name, as nothing else can
evaluate it. The pass that replaces them goes through all parts of an expression but one: behind `await` it
looks at the called name only, and not at the arguments of the call. An expression `Overlooks` next values
if there are some in such arguments, and these are what is left (`Run.next_left_iff_overlooked`).
-/

namespace DreamBerd

def Store.Denotes (s : Store) (scopes : List ScopeRef) (word : String) (t : Token) : Prop :=
  ∃ v, Reads s scopes t.text v ∧ s.value v = .keyword word

namespace Expr

mutual

/-- Some call in the expression, at whatever depth, is one of a name with the property. -/
def Calls (p : Token → Prop) : Expr → Prop
  | value _ => False
  | list items => CallsIn p items
  | call site args => p site ∨ CallsIn p args
  | index v n => v.Calls p ∨ n.Calls p
  | binary _ _ l r => l.Calls p ∨ r.Calls p
  | unary _ e => e.Calls p

def CallsIn (p : Token → Prop) : List Expr → Prop
  | [] => False
  | e :: es => e.Calls p ∨ CallsIn p es

end

mutual

/-- Next values are called for in the arguments of a call that is awaited, which is no call of `next` itself
and stands in no other call that is awaited. -/
def Overlooks (next await : Token → Prop) : Expr → Prop
  | value _ => False
  | list items => OverlooksIn next await items
  | call site args =>
    await site ∧ (∃ inner given, args = [.call inner given] ∧ ¬next inner ∧ CallsIn next given) ∨
      ¬await site ∧ ¬next site ∧ OverlooksIn next await args
  | index v n => v.Overlooks next await ∨ n.Overlooks next await
  | binary _ _ l r => l.Overlooks next await ∨ r.Overlooks next await
  | unary _ e => e.Overlooks next await

def OverlooksIn (next await : Token → Prop) : List Expr → Prop
  | [] => False
  | e :: es => e.Overlooks next await ∨ OverlooksIn next await es

end

end Expr

namespace Run

variable {w w' : World} {scopes : List ScopeRef} {a : Awaited}

theorem denotes_iff {word : String}
    (found : w.store.lookup scopes t.text = .ok (some e)) (holds : w.store.entryValue e = .ok v) :
    w.store.Denotes scopes word t ↔ w.store.value v = .keyword word := by
  constructor
  · rintro ⟨u, ⟨e', found', holds'⟩, keyword⟩
    cases found.symm.trans found'
    cases holds.symm.trans holds'
    exact keyword
  · exact fun keyword => ⟨v, ⟨e, found, holds⟩, keyword⟩

theorem calledValue_eq_ok {site : Token} (done : calledValue scopes t site w = .ok v w') :
    w' = w ∧ ∀ k, w.store.Denotes scopes k t ↔ v = .keyword k := by
  obtain ⟨e, _, found, rest⟩ := bind_eq_ok done
  obtain ⟨found, rfl⟩ := ofExcept_eq_ok found
  cases e with
  | none => cases rest
  | some e =>
    obtain ⟨r, _, holds, last⟩ := bind_eq_ok rest
    obtain ⟨holds, rfl⟩ := ofExcept_eq_ok holds
    cases last
    exact ⟨rfl, fun _ => denotes_iff found holds⟩

theorem nextToken_eq_ok (done : nextToken scopes t w = .ok p w') : w' = w := by
  obtain ⟨x, w₁, site, ⟨⟩⟩ := bind_eq_ok done
  obtain ⟨⟨_, x?⟩, _, looked, rest⟩ := bind_eq_ok site
  obtain ⟨-, rfl⟩ := ofExcept_eq_ok looked
  cases x? with
  | none => cases rest
  | some x =>
    obtain ⟨_, _, ⟨⟩, rest⟩ := bind_eq_ok rest
    split at rest
    · cases rest
    · cases rest
      rfl

mutual

theorem replaceNext_left {w w' : World} {a : Awaited} (done : replaceNext scopes e w = .ok (e', a) w') :
    w' = w ∧ (e'.Calls (w.store.Denotes scopes "next") ↔
      e.Overlooks (w.store.Denotes scopes "next") (w.store.Denotes scopes "await")) := by
  cases e with
  | value t =>
    cases done
    exact ⟨rfl, Iff.rfl⟩
  | list items =>
    obtain ⟨⟨items', b⟩, _, all, ⟨⟩⟩ := bind_eq_ok done
    exact replaceNextAll_left all
  | index l r | binary op token l r =>
    obtain ⟨⟨l', b⟩, _, first, rest⟩ := bind_eq_ok done
    obtain ⟨⟨r', b'⟩, _, second, ⟨⟩⟩ := bind_eq_ok rest
    obtain ⟨rfl, left⟩ := replaceNext_left first
    obtain ⟨rfl, right⟩ := replaceNext_left second
    exact ⟨rfl, or_congr left right⟩
  | unary op e =>
    obtain ⟨⟨e', b⟩, _, operand, ⟨⟩⟩ := bind_eq_ok done
    obtain ⟨same, left⟩ := replaceNext_left operand
    exact ⟨same, left⟩
  | call site args =>
    obtain ⟨v, _, called, rest⟩ := bind_eq_ok done
    obtain ⟨rfl, denotes⟩ := calledValue_eq_ok called
    rw [Expr.Overlooks, denotes, denotes]
    split at rest
    · split at rest
      · obtain ⟨⟨new, x⟩, _, named, ⟨⟩⟩ := bind_eq_ok rest
        obtain rfl := nextToken_eq_ok named
        exact ⟨rfl, by simp [Expr.Calls]⟩
      · cases rest
    · split at rest
      · obtain ⟨u, _, called', inside⟩ := bind_eq_ok rest
        obtain ⟨rfl, denotes'⟩ := calledValue_eq_ok called'
        split at inside
        · split at inside
          · obtain ⟨⟨new, x⟩, _, named, ⟨⟩⟩ := bind_eq_ok inside
            obtain rfl := nextToken_eq_ok named
            exact ⟨rfl, by simp [Expr.Calls, denotes']⟩
          · cases inside
        · rename_i other
          cases inside
          have notNext : ¬u = .keyword "next" := other
          exact ⟨rfl, by simp [Expr.Calls, Expr.CallsIn, denotes, denotes', notNext]⟩
      · cases rest
    · obtain ⟨⟨args', b⟩, _, all, ⟨⟩⟩ := bind_eq_ok rest
      obtain ⟨rfl, left⟩ := replaceNextAll_left all
      rename_i notNext notAwait
      have notNext : ¬v = .keyword "next" := notNext
      have notAwait : ¬v = .keyword "await" := notAwait
      exact ⟨rfl, by simp [Expr.Calls, denotes, notNext, notAwait, left]⟩

theorem replaceNextAll_left {w w' : World} {a : Awaited} {es es' : List Expr}
    (done : rewriteAll (fun t => return (t, ∅)) (replaceCall scopes) es w = .ok (es', a) w') :
    w' = w ∧ (Expr.CallsIn (w.store.Denotes scopes "next") es' ↔
      Expr.OverlooksIn (w.store.Denotes scopes "next") (w.store.Denotes scopes "await") es) := by
  cases es with
  | nil =>
    cases done
    exact ⟨rfl, Iff.rfl⟩
  | cons e es =>
    obtain ⟨⟨e', b⟩, _, first, rest⟩ := bind_eq_ok done
    obtain ⟨⟨es', b'⟩, _, others, ⟨⟩⟩ := bind_eq_ok rest
    obtain ⟨rfl, left⟩ := replaceNext_left first
    obtain ⟨rfl, right⟩ := replaceNextAll_left others
    exact ⟨rfl, or_congr left right⟩

end

/-- Where the next values of an expression are replaced, calls of `next` are left if and only if the expression
overlooks some. -/
theorem next_left_iff_overlooked {e e' : Expr} (done : replaceNext scopes e w = .ok (e', a) w') :
    e'.Calls (w'.store.Denotes scopes "next") ↔
      e.Overlooks (w.store.Denotes scopes "next") (w.store.Denotes scopes "await") := by
  obtain ⟨rfl, left⟩ := replaceNext_left done
  exact left

/-- A world with the keywords `await` and `next` and a function `f`. -/
def waitingWorld : World :=
  { (default : World) with store := { Store.empty with
    values := #[.keyword "await", .keyword "next", .function ["a"] [] false]
    scopes := #[⟨[("await", .predefined ⟨0⟩), ("next", .predefined ⟨1⟩), ("f", .named "f" ⟨2⟩)]⟩] } }

/-- The expression `await f(next x)`. -/
def awaitsNext : Expr :=
  .call (nameToken "await") [.call (nameToken "f") [.call (nameToken "next") [.value (nameToken "x")]]]

/-- All of `await f(next x)` is left, the call of `next` as well. -/
theorem awaited_next_left :
    replaceNext [⟨0⟩] awaitsNext waitingWorld = .ok (awaitsNext, ∅) waitingWorld ∧
      awaitsNext.Calls (waitingWorld.store.Denotes [⟨0⟩] "next") := by
  have done : replaceNext [⟨0⟩] awaitsNext waitingWorld = .ok (awaitsNext, ∅) waitingWorld := rfl
  refine ⟨done, (next_left_iff_overlooked done).mpr (Or.inl ⟨⟨⟨0⟩, ⟨_, rfl, rfl⟩, rfl⟩, ?_⟩)⟩
  refine ⟨nameToken "f", _, rfl, ?_, .inl (.inl ⟨⟨1⟩, ⟨_, rfl, rfl⟩, rfl⟩)⟩
  rintro ⟨_, ⟨_, ⟨⟩, ⟨⟩⟩, ⟨⟩⟩

end Run

end DreamBerd
