import DreamBerd.Proofs.Restoring

/-!
# Where a name is bound

A name is read with `Store.lookup`, and changed and deleted where `Store.lookupWithin` finds it. Both lead to
the same entry, and the scope that is found binds the last part of the name to it (`Store.lookups_agree`).
Deletion takes the whole name out of this scope and not its last part, so it fails for a name with points
(`Run.deletes_exactly_iff`).
-/

namespace DreamBerd

open List

variable {s : Store} {x : ScopeRef} {scopes : List ScopeRef} {d e : Entry} {base name : String} {names : List String}

theorem splitChars_eq (c : Char) (cs : List Char) : splitChars c cs = cs.splitOn c := by
  induction cs with
  | nil => rfl
  | cons d cs ih =>
    rw [splitChars, ih, splitOn_cons_eq_if_modifyHead]
    by_cases same : d = c
    · simp [same]
    · rw [if_neg same, if_neg (by simpa using same)]
      cases split : cs.splitOn c with
      | nil => exact absurd split (splitOn_ne_nil _ _)
      | cons part parts => rfl

/-- A name has parts without points, and one part if it is without points itself. -/
theorem exists_nameParts (name : String) : ∃ base names, nameParts name = base :: names ∧
    (∀ part ∈ base :: names, '.' ∉ part.toList) ∧ (names = [] → base = name) := by
  obtain ⟨first, parts, whole, absent, cut, -⟩ := splitOn_eq_parts '.' name.toList
  refine ⟨.ofList first, parts.map .ofList, by rw [nameParts, splitChars_eq, cut, map_cons], ?_, fun none => ?_⟩
  · rw [← map_cons, forall_mem_map]
    simpa using absent
  · cases map_eq_nil_iff.mp none
    rw [flatMap_nil, append_nil] at whole
    rw [← whole, String.ofList_toList]

namespace Store

/-- Both results are failures of the same kind, or the same entry, if any, bound in the scope that one of them gives. -/
structure Agrees (s : Store) (last : String) (entry : Except Fault (Option Entry))
    (within : Except Fault (Option Entry × Option ScopeRef)) : Prop where
  same : within.map (·.1) = entry
  bound : ∀ e y?, within = .ok (some e, y?) → ∃ y, y? = some y ∧ (s.scope y).get? last = some e

theorem Agrees.none (y? : Option ScopeRef) : s.Agrees last (.ok none) (.ok (none, y?)) :=
  ⟨rfl, fun _ _ found => by cases found⟩

theorem Agrees.some (bound : (s.scope x).get? last = .some e) :
    s.Agrees last (.ok (.some e)) (.ok (.some e, .some x)) := by
  refine ⟨rfl, ?_⟩
  rintro e y? ⟨⟩
  exact ⟨x, rfl, bound⟩

theorem members_agree (bound : (s.scope x).get? k = some d) :
    s.Agrees ((k :: names).getLast?.getD "") (s.member d names) (s.memberWithin d x names) := by
  induction names generalizing d x k with
  | nil => exact .some bound
  | cons name names ih =>
    rw [member, memberWithin, getLast?_cons_cons]
    cases s.entryValue d with
    | error f => exact ⟨rfl, fun _ _ found => by cases found⟩
    | ok v =>
      dsimp only [Bind.bind, Except.bind]
      cases (s.value v).members? with
      | none => exact .none _
      | some m =>
        dsimp only
        cases there : (s.scope m).get? name with
        | none => exact .none _
        | some e => exact ih there

/-- Both ways to look up a name fail alike or find the same entry, and the scope where it is found binds it by its
last part. -/
theorem lookups_agree (s : Store) (scopes : List ScopeRef) (name : String) :
    s.Agrees (lastPart name) (s.lookup scopes name) (s.lookupWithin scopes name) := by
  obtain ⟨base, names, cut, -, whole⟩ := exists_nameParts name
  rw [lookup, lookupWithin, lastPart, cut]
  cases names with
  | nil =>
    cases whole rfl
    dsimp only
    cases found : s.innermost name scopes with
    | none => exact .none _
    | some p => exact .some (scope_of_innermost found)
  | cons next names =>
    dsimp only
    cases found : s.innermost base scopes with
    | none => exact .none _
    | some p => exact members_agree (scope_of_innermost found)

end Store

/-! ## Deleting a name -/

theorem not_mem_lastPart : '.' ∉ (lastPart name).toList := by
  obtain ⟨base, names, cut, absent, -⟩ := exists_nameParts name
  rw [lastPart, cut, getLast?_eq_some_getLast (cons_ne_nil _ _)]
  exact absent _ (getLast_mem _)

theorem Store.lookupWithin_bound (found : s.lookupWithin scopes name = .ok (some e, some x)) :
    (s.scope x).get? (lastPart name) = some e := by
  obtain ⟨base, names, cut, -, whole⟩ := exists_nameParts name
  rw [lookupWithin, cut] at found
  rw [lastPart, cut]
  cases names with
  | nil =>
    cases whole rfl
    dsimp only at found
    split at found
    · rename_i bound
      cases found
      exact scope_of_innermost bound
    · cases found
  | cons next names =>
    dsimp only at found
    split at found
    · rename_i bound
      obtain ⟨_, ⟨⟩, bound⟩ := (members_agree (scope_of_innermost bound)).bound e _ found
      exact bound
    · cases found

/-- The value that is written so has not been deleted. -/
def Literal.Spared (deleted : List Deleted) : Literal → Prop
  | number n => ∀ m, .number m ∈ deleted → (m == n) = false
  | text s => .text s ∉ deleted

namespace Run

variable {w w' : World} {i : Interpreter} {c : Context} {t : Token} {l : Literal} {deleted : List Deleted}

theorem isDeleted_number (held : s.value r = .number n) (spared : (Literal.number n).Spared deleted) :
    s.isDeleted deleted r = false := by
  rw [Store.isDeleted, held, Bool.and_eq_false_iff, any_eq_false]
  refine .inr fun d member => ?_
  cases d with
  | number m => exact Bool.eq_false_iff.mp (spared m member)
  | text u => exact Bool.false_ne_true

theorem isDeleted_text {u : String} (held : s.value r = .string (.ofText u) m)
    (spared : (Literal.text u).Spared deleted) : s.isDeleted deleted r = false := by
  have same : (CharRow.ofText u).text = u := String.ofList_toList
  rw [Store.isDeleted, held]
  dsimp only
  rw [same, any_eq_false.mpr fun d member => ?_, Bool.false_and, Bool.false_and, Bool.and_false]
  cases d with
  | number m => exact Bool.false_ne_true
  | text v => exact fun equal => spared (eq_of_beq equal ▸ member)

theorem newValue_made (v : Value) (w : World) : ∃ r s', newValue v w = .ok r { w with store := s' } ∧
    w.store.Extends [] s' ∧ s'.value r = v := by
  obtain ⟨r, s', grown, made⟩ := grows_newValue v w.store
  have same := made w rfl
  refine ⟨r, s', same, grown, ?_⟩
  cases same
  simp [Store.value]

theorem literal_ok (read : Literal.ofText t.text = .ok l) (spared : l.Spared w.part.deleted) :
    ∃ r s', literal t w = .ok r { w with store := s' } ∧ w.store.Extends [] s' ∧
      s'.isDeleted w.part.deleted r = false := by
  have ends {m : Run ValueRef} {r : ValueRef} {s' : Store} (made : m w = .ok r { w with store := s' })
      (kept : s'.isDeleted w.part.deleted r = false) : (do
        let r ← m
        if ← isDeleted r then complainAtLine (.deletedValue (← deletedText r)) t.line
        return r) w = .ok r { w with store := s' } := by
    rw [bind_ok made]
    show (if s'.isDeleted w.part.deleted r then _ else _ : Run _) _ = _
    rw [kept]
    rfl
  rw [literal, bind_ok (ofExcept_ok read)]
  cases l with
  | number n =>
    obtain ⟨r, s', made, grown, held⟩ := newValue_made (.number n) w
    have kept := isDeleted_number held spared
    exact ⟨r, s', ends made kept, grown, kept⟩
  | text u =>
    obtain ⟨m, s₁, grown, members⟩ := grows_newMembers .empty .stringPush .stringPop (CharRow.ofText u).chars.length w.store
    obtain ⟨r, s', made, grown', held⟩ := newValue_made (.string (.ofText u) m) { w with store := s₁ }
    have kept := isDeleted_text held spared
    exact ⟨r, s', ends ((bind_ok (members w rfl)).trans made) kept, grown.trans grown', kept⟩

def erased (w : World) (x : ScopeRef) (name : String) : World :=
  { w with store := w.store.withScope x (·.erase name) }

theorem deleteName_eq (found : w.store.lookupWithin c.scopes t.text = .ok (some e, some x)) :
    deleteName c t w = if (w.store.scope x).contains t.text then deleteLiteral t (erased w x t.text)
      else .error (.breakdown .key) w := by
  rw [deleteName, bind_ok (lookupWithin_ok found)]
  dsimp only
  rw [bind_ok scope_ok]
  split
  · rfl
  · rfl

theorem deleteLiteral_ok (read : Literal.ofText t.text = .ok l) (spared : l.Spared w.part.deleted) :
    ∃ w', deleteLiteral t w = .ok () w' ∧ w.store.Extends [] w'.store := by
  obtain ⟨r, s', written, grown, kept⟩ := literal_ok read spared
  have adds (d : Deleted) : (do
      if !(← isDeleted r) then modifySection fun p => { p with deleted := p.deleted ++ [d] }) { w with store := s' } =
        .ok () { w with store := s', part := { w.part with deleted := w.part.deleted ++ [d] } } := by
    show (if !s'.isDeleted w.part.deleted r then _ else _ : Run Unit) _ = _
    rw [kept]
    rfl
  rw [deleteLiteral, bind_ok written, bind_ok value_ok]
  cases { w with store := s' }.store.value r with
  | number n => exact ⟨_, adds (.number n), grown⟩
  | _ => exact ⟨_, adds (.text t.text), grown⟩

/-- A scope no longer binds a name, and every other scope that there was and every other name in it is what it was. -/
def DeletesOnly (w w' : World) (x : ScopeRef) (name : String) : Prop :=
  ∀ y k, y.index < w.store.scopes.size →
    (w'.store.scope y).get? k = if y = x ∧ k = name then none else (w.store.scope y).get? k

theorem deletesOnly_erased (inside : x.index < w.store.scopes.size)
    (grown : (erased w x name).store.Extends [] w'.store) : DeletesOnly w w' x name := by
  intro y k old
  rw [grown.scopes y not_mem_nil (by simpa [erased, Store.withScope] using old)]
  by_cases same : y = x
  · subst same
    rw [erased, Store.scope_withScope inside]
    by_cases same : k = name
    · rw [if_pos ⟨rfl, same⟩, same, Ledger.get?_erase_self]
    · rw [if_neg fun both => same both.2, Ledger.get?_erase_of_ne (Ne.symm same)]
  · rw [if_neg fun both => same both.1, erased, Store.scope_withScope_of_ne same]

theorem execute_delete (clause : ClauseRef) (n : Nat) (keyword : Token) (debug : Nat) :
    execute i c clause n (.delete keyword t debug) w = (do deleteName c t; return none) w := by
  have started : execute i c clause n (.delete keyword t debug) w = ((do deleteName c t; return none) >>= fun result =>
      removeNames c [] >>= fun _ => pure result) w := rfl
  rw [started, bind_assoc]
  refine congrFun (congrArg _ (funext fun _ => ?_)) w
  obtain ⟨scopes, queue, boards⟩ := c
  cases scopes <;> rfl

/-- Deleting a name that is found and whose text has not been deleted as a value takes just this name out of
the scope where it is found if and only if it has no points, and a text of digits is a number. -/
theorem deletes_exactly_iff (clause : ClauseRef) (n : Nat) (keyword : Token) (debug : Nat)
    (found : w.store.lookupWithin c.scopes t.text = .ok (some e, some x))
    (spared : ∀ l, Literal.ofText t.text = .ok l → l.Spared w.part.deleted) :
    ((∃ w', execute i c clause n (.delete keyword t debug) w = .ok none w' ∧ DeletesOnly w w' x (lastPart t.text)) ↔
      '.' ∉ t.text.toList ∧ ∃ l, Literal.ofText t.text = .ok l) ∧
    ((w.store.scope x).get? t.text = none →
      execute i c clause n (.delete keyword t debug) w = .error (.breakdown .key) w) := by
  have bound := Store.lookupWithin_bound found
  have inside := Store.lt_size_of_mem_entries (Ledger.mem_of_get? bound)
  rw [execute_delete]
  refine ⟨⟨?_, ?_⟩, fun absent => bind_error ?_⟩
  · rintro ⟨w', done, deletes⟩
    obtain ⟨_, _, done, ⟨⟩⟩ := bind_eq_ok done
    rw [deleteName_eq found] at done
    split at done
    · obtain ⟨_, _, written, -⟩ := bind_eq_ok done
      obtain ⟨l, _, read, -⟩ := bind_eq_ok written
      obtain ⟨read, -⟩ := ofExcept_eq_ok read
      refine ⟨fun dotted => ?_, l, read⟩
      obtain ⟨_, done', grown⟩ := deleteLiteral_ok (w := erased w x t.text) read (spared l read)
      cases done.symm.trans done'
      have other : lastPart t.text ≠ t.text := fun same => not_mem_lastPart (same.symm ▸ dotted)
      have gone := deletes x (lastPart t.text) inside
      rw [deletesOnly_erased inside grown x _ inside, if_neg fun both => other both.2, bound, if_pos ⟨rfl, rfl⟩] at gone
      cases gone
    · cases done
  · rintro ⟨plain, l, read⟩
    rw [lastPart_eq plain] at bound ⊢
    obtain ⟨w', done, grown⟩ := deleteLiteral_ok (w := erased w x t.text) read (spared l read)
    have there : (w.store.scope x).contains t.text = true := by rw [Ledger.contains, bound, Option.isSome_some]
    refine ⟨w', bind_ok (a := ()) ?_, deletesOnly_erased inside grown⟩
    rw [deleteName_eq found, if_pos there, done]
  · rw [deleteName_eq found, Ledger.contains, absent]
    rfl

/-- An object with a member. -/
def memberWorld : World :=
  { (default : World) with store := { Store.empty with
    values := #[.object "C" ⟨1⟩, .number (.int 1)]
    scopes := #[⟨[("o", .named "o" ⟨0⟩)]⟩, ⟨[("x", .named "x" ⟨1⟩)]⟩] } }

/-- The object can be deleted, and the member cannot. -/
theorem only_object_deleted : let c : Context := ⟨[⟨0⟩], ⟨0⟩, []⟩
    (∃ w', execute (interpreter 0) c ⟨0⟩ 0 (.delete default ⟨.name, "o", 1, 7⟩ 0) memberWorld = .ok none w' ∧
      DeletesOnly memberWorld w' ⟨0⟩ "o") ∧
    execute (interpreter 0) c ⟨0⟩ 0 (.delete default ⟨.name, "o.x", 1, 9⟩ 0) memberWorld =
      .error (.breakdown .key) memberWorld := by
  have spared (s : String) : ∀ l, Literal.ofText s = .ok l → l.Spared memberWorld.part.deleted := by
    rintro (n | u) -
    · exact nofun
    · exact not_mem_nil
  have object := deletes_exactly_iff (i := interpreter 0) (c := ⟨[⟨0⟩], ⟨0⟩, []⟩) ⟨0⟩ 0 default 0
    (rfl : memberWorld.store.lookupWithin _ (⟨.name, "o", 1, 7⟩ : Token).text = .ok (some _, some ⟨0⟩)) (spared _)
  have member := deletes_exactly_iff (i := interpreter 0) (c := ⟨[⟨0⟩], ⟨0⟩, []⟩) ⟨0⟩ 0 default 0
    (rfl : memberWorld.store.lookupWithin _ (⟨.name, "o.x", 1, 9⟩ : Token).text = .ok (some _, some ⟨1⟩)) (spared _)
  have parts : "o".splitOn "." = ["o"] := splitOn_char_of_not_mem (by decide)
  have read : Literal.ofText "o" = .ok (.text "o") := by
    rw [Literal.ofText, parts]
    rfl
  exact ⟨object.1.mpr ⟨by decide, _, read⟩, member.2 rfl⟩

end Run

end DreamBerd
