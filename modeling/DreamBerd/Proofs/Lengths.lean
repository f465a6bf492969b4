import DreamBerd.Proofs.Failing
import DreamBerd.Proofs.Restoring

/-!
# The length among the members

A list or string has its length among its members, beside the elements, and what changes the elements has to
bring it up to date. Taking a character out of a string is the one operation that does not: by
`Operation.length_shown`, the length that is shown is too large by the number of characters that have been
taken out since the string was last added or assigned to.
-/

namespace DreamBerd

open Run

/-! ## Operations -/

/-- An operation on a value with elements, and the values that it is given. -/
inductive Operation where
  | get (i : ValueRef)
  | set (i x : ValueRef)
  | push (x : ValueRef)
  | pop (i : ValueRef)

namespace Operation

/-- Carry out the operation; lists and strings have their own ways to add and take out. -/
def run (r : ValueRef) : Operation → Run Unit
  | get i => do let _ ← getIndex r i
  | set i x => setIndex r i x
  | push x => do
    match ← value r with
    | .list .. => pushItem r x
    | _ => pushText r x
  | pop i => do
    match ← value r with
    | .list .. => let _ ← popItem r i
    | _ => let _ ← popText r i

def runAll (r : ValueRef) : List Operation → Run Unit
  | [] => return ()
  | op :: ops => do
    op.run r
    runAll r ops

/-- How far the length that a string shows is ahead after the operation, if it was `d` ahead before. -/
def lag (d : Nat) : Operation → Nat
  | get _ => d
  | pop _ => d + 1
  | _ => 0

end Operation

namespace Value

def length? : Value → Option Nat
  | .list row _ => some row.items.length
  | .string row _ => some row.chars.length
  | _ => none

def isString : Value → Bool
  | .string .. => true
  | _ => false

end Value

def ShowsLength (s : Store) (r : ValueRef) (n : Nat) : Prop :=
  ∃ m e, (s.value r).members? = some m ∧ (s.scope m).get? "length" = some (.named "length" e) ∧
    s.value e = .number (.int n)

/-- A list or string of `n` elements shows a length that is `d` ahead. -/
structure Measured (s : Store) (r : ValueRef) (string : Bool) (n d : Nat) : Prop where
  kind : (s.value r).isString = string
  length : (s.value r).length? = some n
  shown : ShowsLength s r (n + d)

section Stores

variable {s s' : Store} {r : ValueRef} {m : ScopeRef} {v : Value} {string : Bool} {n d k : Nat}

theorem ShowsLength.unique (first : ShowsLength s r n) (second : ShowsLength s r k) : n = k := by
  obtain ⟨m, e, members, named, value⟩ := first
  obtain ⟨m', e', members', named', value'⟩ := second
  cases members.symm.trans members'
  cases named.symm.trans named'
  cases value.symm.trans value'
  rfl

theorem lt_size_of_value (some : s.value r ≠ .undefined) : r.index < s.values.size := by
  by_contra outside
  rw [Store.value, Array.getElem?_eq_none (Nat.le_of_not_lt outside)] at some
  exact some rfl

theorem value_push {vs : Array Value} (inside : r.index < vs.size) (u : Value) :
    (vs.push u)[r.index]?.getD .undefined = vs[r.index]?.getD .undefined := by
  rw [Array.getElem?_push, if_neg inside.ne]

theorem value_set {vs : Array Value} (inside : r.index < vs.size) :
    (vs.setIfInBounds r.index v)[r.index]?.getD .undefined = v := by
  rw [Array.getElem?_setIfInBounds_self_of_lt inside]
  rfl

theorem value_set_push {vs : Array Value} (inside : r.index < vs.size) :
    ((vs.setIfInBounds r.index v).push u)[r.index]?.getD .undefined = v :=
  (value_push (by rwa [Array.size_setIfInBounds]) u).trans (value_set inside)

namespace Measured

section

variable (measured : Measured s r string n d)

include measured

theorem value_ne : s.value r ≠ .undefined := by
  intro undefined
  have length := measured.length
  rw [undefined] at length
  cases length

theorem inside : r.index < s.values.size :=
  lt_size_of_value measured.value_ne

theorem members_lt (members : (s.value r).members? = some m) :
    m.index < s.scopes.size := by
  obtain ⟨m', e, members', named, -⟩ := measured.shown
  cases members.symm.trans members'
  exact Store.lt_size_of_mem_entries (Ledger.mem_of_get? named)

/-- What is only added changes nothing. -/
theorem grow (grown : s.Extends [] s') :
    Measured s' r string n d := by
  have same := grown.value_eq measured.inside
  refine ⟨same ▸ measured.kind, same ▸ measured.length, ?_⟩
  obtain ⟨m, e, members, named, value⟩ := measured.shown
  refine ⟨m, e, same ▸ members, ?_, ?_⟩
  · rwa [grown.scopes m (List.not_mem_nil) (measured.members_lt members)]
  · rw [grown.value_eq (lt_size_of_value (by rw [value]; rintro ⟨⟩))]
    exact value

/-- A change of the elements alone leaves the length that is shown. -/
theorem set (members : v.members? = (s.value r).members?)
    (kind : v.isString = string) (length : v.length? = some k) (same : k + d' = n + d) :
    Measured { s with values := s.values.setIfInBounds r.index v } r string k d' := by
  have new : { s with values := s.values.setIfInBounds r.index v }.value r = v :=
    value_set measured.inside
  refine ⟨new.symm ▸ kind, new.symm ▸ length, ?_⟩
  obtain ⟨m, e, held, named, value⟩ := measured.shown
  refine ⟨m, e, by rw [new, members, held], named, ?_⟩
  have apart : r.index ≠ e.index := by
    intro index
    have number : s.value r = .number (.int (n + d : Nat)) := by
      rwa [Store.value, index]
    have elements := measured.length
    rw [number] at elements
    cases elements
  rwa [Store.value, Array.getElem?_setIfInBounds_ne apart, same]

end

end Measured

end Stores

theorem CharRow.length_pop {row new : CharRow} {at? : Removal}
    (popped : row.pop at? = .ok (c, new)) : new.chars.length + 1 = row.chars.length := by
  cases at? with
  | last =>
    rw [CharRow.pop] at popped
    split at popped
    · rename_i last
      cases popped
      have some := List.length_pos_of_mem (List.mem_of_getLast? last)
      rw [List.length_dropLast]
      omega
    · cases popped
  | index i =>
    obtain ⟨n, -, popped⟩ := bind_eq_ok_iff.mp popped
    split at popped
    · rename_i found
      cases popped
      have inside := (List.getElem?_eq_some_iff.mp found).1
      rw [List.length_eraseIdx_of_lt inside]
      omega
    · cases popped

namespace Operation

variable {α β : Type} {w w' : World} {r i : ValueRef} {m : ScopeRef} {v : Value} {string : Bool}
  {n d : Nat} {op : Operation} {ops : List Operation}

theorem of_bind_value {f : Value → Run β} (kind : w.store.value i = v)
    (ran : (value i >>= f) w = .ok b w') : f v w = .ok b w' := by
  subst kind
  exact ran

theorem of_bind_ofExcept {f : α → Run β}
    (ran : (ofExcept x >>= f) w = .ok b w') : ∃ a, x = .ok a ∧ f a w = .ok b w' := by
  obtain ⟨a, w₁, done, rest⟩ := bind_eq_ok ran
  obtain ⟨gives, rfl⟩ := ofExcept_eq_ok done
  exact ⟨a, gives, rest⟩

theorem of_bind_textOf {f : String → Run β} (ran : (textOf i >>= f) w = .ok b w') :
    ∃ text, f text w = .ok b w' := by
  obtain ⟨text, w₁, done, rest⟩ := bind_eq_ok ran
  obtain ⟨-, rfl⟩ := ofExcept_eq_ok done
  exact ⟨text, rest⟩

theorem of_bind_removal {f : Removal → Run β} (ran : (removal i >>= f) w = .ok b w') :
    ∃ at?, f at? w = .ok b w' := by
  obtain ⟨at?, w₁, asked, ran⟩ := bind_eq_ok ran
  cases kind : w.store.value i <;> cases of_bind_value kind asked <;> exact ⟨_, ran⟩

theorem extends_of_grows (grows : Grows x) (ran : x w = .ok a w') : w.store.Extends [] w'.store := by
  obtain ⟨a', s', grown, done⟩ := grows w.store
  cases ran.symm.trans (done w rfl)
  exact grown

/-- New elements, and the length brought up to date. -/
theorem measured_refreshed (measured : Measured w.store r string k d)
    (old : (w.store.value r).members? = some m) (members : v.members? = some m)
    (kind : v.isString = string) (length : v.length? = some n)
    (ran : (do setValue r v; refreshLength m n : Run Unit) w = .ok () w') :
    Measured w'.store r string n 0 := by
  have inside := measured.inside
  have there := measured.members_lt old
  cases ran
  have new : ((w.store.values.setIfInBounds r.index v).push (.number (.int n)))[r.index]?.getD .undefined =
      v := value_set_push inside
  refine ⟨(congrArg Value.isString new).trans kind, (congrArg Value.length? new).trans length, ?_⟩
  refine ⟨m, ⟨w.store.values.size⟩, (congrArg Value.members? new).trans members, ?_, ?_⟩
  · refine (congrArg (Ledger.get? · "length") (Store.scope_withScope there _)).trans ?_
    rw [Ledger.get?_put_self]
    simp
  · refine (congrArg (·.getD Value.undefined) Array.getElem?_push).trans ?_
    rw [if_pos Array.size_setIfInBounds.symm]
    rfl

theorem measured_list {row : Row ValueRef} (kind : w.store.value r = .list row m)
    (measured : Measured w.store r false n 0) (ran : op.run r w = .ok () w') :
    ∃ n, Measured w'.store r false n 0 := by
  have members : (w.store.value r).members? = some m := by rw [kind]; rfl
  cases op with
  | get i =>
    obtain ⟨x, w₁, got, ⟨⟩⟩ := bind_eq_ok ran
    have got := of_bind_value kind got
    obtain ⟨-, rfl⟩ := ofExcept_eq_ok (of_bind_value rfl got)
    exact ⟨n, measured⟩
  | set i x =>
    have ran := of_bind_value kind ran
    obtain ⟨new, -, ran⟩ := of_bind_ofExcept (of_bind_value rfl ran)
    obtain ⟨_, u, set, ran⟩ := bind_eq_ok ran
    by_cases changed : new.items.length ≠ row.items.length
    · rw [if_pos changed] at ran
      exact ⟨_, measured_refreshed measured members rfl rfl rfl ((bind_ok set).trans ran)⟩
    · rw [if_neg changed] at ran
      cases set
      cases ran
      have length := measured.length
      rw [kind] at length
      cases length
      exact ⟨_, measured.set (members.symm ▸ rfl) rfl rfl (congrArg (· + 0) (not_not.mp changed))⟩
  | push x =>
    have ran : pushItem r x w = .ok () w' := of_bind_value kind ran
    obtain ⟨new, -, ran⟩ := of_bind_ofExcept (of_bind_value kind ran)
    exact ⟨_, measured_refreshed measured members rfl rfl rfl ran⟩
  | pop i =>
    obtain ⟨x, w₁, ran, ⟨⟩⟩ := bind_eq_ok (of_bind_value kind ran)
    obtain ⟨at?, ran⟩ := of_bind_removal (of_bind_value kind ran)
    obtain ⟨⟨x, new⟩, -, ran⟩ := of_bind_ofExcept ran
    obtain ⟨_, u, set, ran⟩ := bind_eq_ok ran
    obtain ⟨_, u', shown, ⟨⟩⟩ := bind_eq_ok ran
    exact ⟨_, measured_refreshed measured members rfl rfl rfl ((bind_ok set).trans shown)⟩

theorem measured_string {row : CharRow} (kind : w.store.value r = .string row m)
    (measured : Measured w.store r true n d) (ran : op.run r w = .ok () w') :
    ∃ n, Measured w'.store r true n (op.lag d) := by
  have members : (w.store.value r).members? = some m := by rw [kind]; rfl
  cases op with
  | get i =>
    obtain ⟨x, w₁, got, ⟨⟩⟩ := bind_eq_ok ran
    have got := of_bind_value kind got
    obtain ⟨chars, -, made⟩ := of_bind_ofExcept (of_bind_value rfl got)
    exact ⟨n, measured.grow (extends_of_grows (grows_newValue _) made)⟩
  | set i x =>
    have ran := of_bind_value kind ran
    have ran := of_bind_value rfl ran
    cases index : (w.store.value i).number? with
    | none =>
      rw [index] at ran
      cases ran
    | some at_ =>
      rw [index] at ran
      obtain ⟨added, ran⟩ := of_bind_textOf ran
      obtain ⟨new, -, ran⟩ := of_bind_ofExcept ran
      exact ⟨_, measured_refreshed measured members rfl rfl rfl ran⟩
  | push x =>
    have ran : pushText r x w = .ok () w' := of_bind_value kind ran
    obtain ⟨added, ran⟩ := of_bind_textOf ran
    obtain ⟨new, -, ran⟩ := of_bind_ofExcept (of_bind_value kind ran)
    exact ⟨_, measured_refreshed measured members rfl rfl rfl ran⟩
  | pop i =>
    obtain ⟨x, w₁, ran, ⟨⟩⟩ := bind_eq_ok (of_bind_value kind ran)
    obtain ⟨at?, ran⟩ := of_bind_removal (of_bind_value kind ran)
    obtain ⟨⟨c, new⟩, popped, ran⟩ := of_bind_ofExcept ran
    obtain ⟨_, u, set, made⟩ := bind_eq_ok ran
    cases set
    have length := measured.length
    rw [kind] at length
    cases length
    have shorter : new.chars.length + (d + 1) = row.chars.length + d := by
      have := CharRow.length_pop popped
      omega
    have taken := measured.set (v := .string new m) (members.symm ▸ rfl) rfl rfl shorter
    exact ⟨_, taken.grow (extends_of_grows (grows_newTextWith _ _) made)⟩

/-! ## Sequences of operations -/

/-- The value has been made as a list or string, and nothing that was there then has changed since. -/
def Fresh (s : Store) (r : ValueRef) : Prop :=
  ∃ w₀ w₁, ((∃ items, newList items w₀ = .ok r w₁) ∨
    ∃ given text, newTextWith given text w₀ = .ok r w₁) ∧ w₁.store.Extends [] s

theorem measured_made {given : Scope} {push pop : Action} {u : ScopeRef → Value}
    (kind : ∀ m, (u m).isString = string) (members : ∀ m, (u m).members? = some m)
    (length : ∀ m, (u m).length? = some n)
    (made : (newMembers given push pop n >>= fun m => newValue (u m)) w = .ok r w') :
    Measured w'.store r string n 0 := by
  cases made
  have new {vs : Array Value} {v : Value} : (vs.push v)[vs.size]?.getD .undefined = v := by
    rw [Array.getElem?_push_size]
    rfl
  refine ⟨(congrArg Value.isString new).trans (kind _), (congrArg Value.length? new).trans (length _), ?_⟩
  refine ⟨⟨w.store.scopes.size⟩, ⟨(w.store.values.push _ |>.push _).size⟩,
    (congrArg Value.members? new).trans (members _), ?_, (value_push ?_ _).trans new⟩
  · simp [Store.scope, Ledger.get?_put_self]
  · exact Nat.lt_of_lt_of_eq (Nat.lt_succ_self _) (Array.size_push _).symm

theorem Fresh.measured (fresh : Fresh w.store r) :
    ∃ n, Measured w.store r (w.store.value r).isString n 0 := by
  obtain ⟨w₀, w₁, made, grown⟩ := fresh
  have later {string : Bool} {n : Nat} (new : Measured w₁.store r string n 0) :
      ∃ n, Measured w.store r (w.store.value r).isString n 0 :=
    ⟨n, (new.grow grown).kind.symm ▸ new.grow grown⟩
  rcases made with ⟨items, made⟩ | ⟨given, text, made⟩
  · exact later (measured_made (u := .list (Row.ofList items)) (fun _ => rfl) (fun _ => rfl)
      (fun _ => rfl) made)
  · exact later (measured_made (u := .string (CharRow.ofText text)) (fun _ => rfl) (fun _ => rfl)
      (fun _ => rfl) made)

/-- How far the length that is shown is ahead after operations; that of a list never is. -/
def lags (string : Bool) (d : Nat) (ops : List Operation) : Nat := if string then ops.foldl lag d else 0

theorem lags_nil : lags string 0 [] = 0 := by
  cases string <;> rfl

theorem measured_run (measured : Measured w.store r string n (lags string d []))
    (ran : op.run r w = .ok () w') : ∃ n, Measured w'.store r string n (lags string d [op]) := by
  have kind := measured.kind
  have length := measured.length
  cases value : w.store.value r <;> rw [value] at kind length <;> cases length <;> cases kind
  case list => exact measured_list value measured ran
  case string => exact measured_string value measured ran

theorem measured_runAll (measured : Measured w.store r string n (lags string d []))
    (ran : runAll r ops w = .ok () w') : ∃ n, Measured w'.store r string n (lags string d ops) := by
  induction ops generalizing w n d with
  | nil =>
    cases ran
    exact ⟨n, measured⟩
  | cons op ops ih =>
    obtain ⟨_, w₁, first, rest⟩ := bind_eq_ok ran
    obtain ⟨n₁, measured₁⟩ := measured_run measured first
    exact ih measured₁ rest

/-- The length that a list shows is its number of elements after any operations that succeed. That of a
string is ahead by the characters that were taken out since the last addition or assignment. -/
theorem length_shown (fresh : Fresh w.store r) (ran : runAll r ops w = .ok () w') :
    ∃ n, (w'.store.value r).length? = some n ∧
      ∀ k, ShowsLength w'.store r k ↔ k = n + lags (w.store.value r).isString 0 ops := by
  obtain ⟨n₀, start⟩ := fresh.measured
  obtain ⟨n, measured⟩ := measured_runAll (d := 0) (lags_nil.symm ▸ start) ran
  refine ⟨n, measured.length, fun k => ⟨fun shows => shows.unique measured.shown, ?_⟩⟩
  rintro rfl
  exact measured.shown

def twoCharacters : World :=
  { (default : World) with store := { (default : Store) with
      values := #[.builtin 2 .stringPush true, .builtin 2 .stringPop true, .number (.int 2),
        .string (.ofText "ab") ⟨0⟩, .blank]
      scopes := #[⟨[("push", .named "push" ⟨0⟩), ("pop", .named "pop" ⟨1⟩),
        ("length", .named "length" ⟨2⟩)]⟩] } }

theorem fresh_twoCharacters : Fresh twoCharacters.store ⟨3⟩ := by
  refine ⟨default, _, .inr ⟨.empty, "ab", rfl⟩, ?_⟩
  exact extends_of_grows (grows_newValue .blank)
    (rfl : _ = EStateM.Result.ok (⟨4⟩ : ValueRef) twoCharacters)

/-- A string of two characters, of which one is taken out, shows a length of two. -/
theorem length_shown_after_pop : Fresh twoCharacters.store ⟨3⟩ ∧
    ∃ w, runAll ⟨3⟩ [.pop ⟨4⟩] twoCharacters = .ok () w ∧
      (w.store.value ⟨3⟩).length? = some 1 ∧ ShowsLength w.store ⟨3⟩ 2 := by
  have popped : ∃ w, runAll ⟨3⟩ [.pop ⟨4⟩] twoCharacters = .ok () w ∧
      (w.store.value ⟨3⟩).length? = some 1 := ⟨_, rfl, rfl⟩
  obtain ⟨w, ran, one⟩ := popped
  obtain ⟨n, length, shows⟩ := length_shown fresh_twoCharacters ran
  cases one.symm.trans length
  exact ⟨fresh_twoCharacters, w, ran, one, (shows 2).mpr rfl⟩

end Operation

end DreamBerd
