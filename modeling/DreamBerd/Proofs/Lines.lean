import DreamBerd.Proofs.Worlds

/-!
# What a passing line changes

A line that passes makes the variables in scope older, and forgets the names of those that are left
with nothing. `Passed` says what else stays as it was: a name that is no variable keeps its meaning, and
a variable that no scope holds keeps its lifetimes. `tick_owned` follows a variable that is held under
a single name: it gets older once, and its name stays as long as it has a lifetime.
-/

namespace DreamBerd

open List Ledger

def NamesOnly (w w' : World) : Prop :=
  w' = { w with store := { w.store with
    slots := w'.store.slots, scopes := w'.store.scopes, fresh := w'.store.fresh } }

namespace NamesOnly

variable {w w' w'' : World}

theorem refl (w : World) : NamesOnly w w := rfl

theorem trans (first : NamesOnly w w') (second : NamesOnly w' w'') : NamesOnly w w'' := by
  unfold NamesOnly at first second ⊢
  rw [second, first]

theorem part (same : NamesOnly w w') : w'.part = w.part := by rw [same]

theorem values (same : NamesOnly w w') : w'.store.values = w.store.values := by rw [same]

theorem boards (same : NamesOnly w w') : w'.store.boards = w.store.boards := by rw [same]

end NamesOnly

def Absent (r : VariableRef) (es : List (String × Entry)) : Prop := ∀ k, (k, .variable r) ∉ es

namespace Run

variable {w w' : World} {name : String} {r : VariableRef} {xs : List ScopeRef} {x : ScopeRef}

/-! ## Entries -/

def older (w : World) (r : VariableRef) : World :=
  { w with store := w.store.withVariable r (w.store.variableOf r).tick }

theorem tickEntries_cons_variable (name : String) (r : VariableRef) (es : List (String × Entry)) :
    tickEntries ((name, .variable r) :: es) w =
      (do
        let gone ← tickEntries es
        return if (w.store.variableOf r).tick.lifetimes.isEmpty then name :: gone else gone)
        (older w r) := rfl

theorem tickEntries_cons (name : String) (es : List (String × Entry))
    (other : ∀ r, e ≠ .variable r) : tickEntries ((name, e) :: es) w = tickEntries es w := by
  rcases e with v | ⟨n, v⟩ | r
  · rfl
  · rfl
  · exact absurd rfl (other r)

/-- What happens to the variables of entries when a line passes. -/
structure Aged (es : List (String × Entry)) (gone : List String) (w w' : World) : Prop where
  namesOnly : NamesOnly w w'
  scopes : w'.store.scopes = w.store.scopes
  size : w'.store.slots.size = w.store.slots.size
  gone : ∀ k ∈ gone, ∃ r, (k, .variable r) ∈ es
  untouched : ∀ r, Absent r es → w'.store.variableOf r = w.store.variableOf r

theorem tickEntries_aged (es : List (String × Entry)) (w : World) :
    ∃ gone w', tickEntries es w = .ok gone w' ∧ Aged es gone w w' := by
  induction es generalizing w with
  | nil => exact ⟨[], w, rfl, .refl w, rfl, rfl, by simp, fun _ _ => rfl⟩
  | cons e es ih =>
    obtain ⟨name, e⟩ := e
    by_cases isVariable : ∃ r, e = .variable r
    · obtain ⟨r, rfl⟩ := isVariable
      obtain ⟨gone, w', ticks, aged⟩ :=
        ih (older w r)
      refine ⟨_, w', (tickEntries_cons_variable name r es).trans (bind_ok ticks), ?_⟩
      have first : NamesOnly w (older w r) := rfl
      refine ⟨first.trans aged.namesOnly, aged.scopes, ?_, ?_, ?_⟩
      · rw [aged.size]
        simp [older, Store.withVariable]
      · intro k member
        split at member
        · rcases mem_cons.mp member with rfl | later
          · exact ⟨r, mem_cons_self⟩
          · obtain ⟨r', among⟩ := aged.gone k later
            exact ⟨r', mem_cons_of_mem _ among⟩
        · obtain ⟨r', among⟩ := aged.gone k member
          exact ⟨r', mem_cons_of_mem _ among⟩
      · intro r' absent
        have other : r' ≠ r := fun same => absent name (same ▸ mem_cons_self)
        rw [aged.untouched r' fun k among => absent k (mem_cons_of_mem _ among)]
        exact Store.variableOf_withVariable_of_ne other _
    · obtain ⟨gone, w', ticks, aged⟩ := ih w
      have other : ∀ r, e ≠ .variable r := fun r same => isVariable ⟨r, same⟩
      refine ⟨gone, w', (tickEntries_cons name es other).trans ticks, aged.namesOnly, aged.scopes,
        aged.size, ?_, ?_⟩
      · intro k member
        obtain ⟨r', among⟩ := aged.gone k member
        exact ⟨r', mem_cons_of_mem _ among⟩
      · intro r' absent
        exact aged.untouched r' fun k among => absent k (mem_cons_of_mem _ among)

theorem tickEntries_append (es fs : List (String × Entry)) :
    tickEntries (es ++ fs) = (do
      let gone ← tickEntries es
      let more ← tickEntries fs
      return gone ++ more) := by
  induction es with
  | nil => simp only [nil_append, tickEntries, pure_bind, bind_pure]
  | cons e es ih =>
    rcases e with ⟨name, v | ⟨n, v⟩ | r⟩
    · exact ih
    · exact ih
    · simp only [cons_append, tickEntries, bind_assoc, ih]
      congr 1
      funext v
      split <;> rfl

structure Once (es : List (String × Entry)) (name : String) (r : VariableRef) : Prop where
  split : ∃ before after, es = before ++ (name, .variable r) :: after ∧
    Absent r before ∧ Absent r after ∧ name ∉ before.map (·.1) ∧ name ∉ after.map (·.1)

theorem once_of_get? {l : Scope} (distinct : l.keys.Nodup) (bound : l.get? name = some (.variable r))
    (only : ∀ k, (k, .variable r) ∈ l.entries → k = name) : Once l.entries name r := by
  obtain ⟨before, after, whole⟩ := append_of_mem (mem_of_get? bound)
  have keys : (before.map (·.1) ++ name :: after.map (·.1)).Nodup := by
    have split : l.keys = before.map (·.1) ++ name :: after.map (·.1) := by
      rw [Ledger.keys, whole, map_append, map_cons]
    exact split ▸ distinct
  obtain ⟨-, others, apart⟩ := nodup_append.mp keys
  have newBefore : name ∉ before.map (·.1) := fun member => apart name member name
    mem_cons_self rfl
  have newAfter : name ∉ after.map (·.1) := (nodup_cons.mp others).1
  have alone {part : List (String × Entry)} (within : part ⊆ l.entries)
      (new : name ∉ part.map (·.1)) : Absent r part := by
    intro k among
    obtain rfl := only k (within among)
    exact new (mem_map.mpr ⟨_, among, rfl⟩)
  refine ⟨before, after, whole, alone ?_ newBefore, alone ?_ newAfter, newBefore, newAfter⟩
  · rw [whole]
    exact subset_append_left _ _
  · rw [whole]
    exact subset_append_of_subset_right _ (subset_cons_self _ _)

theorem tickEntries_once {es : List (String × Entry)} (once : Once es name r)
    (inside : r.index < w.store.slots.size) :
    ∃ gone w', tickEntries es w = .ok gone w' ∧ Aged es gone w w' ∧
      w'.store.variableOf r = (w.store.variableOf r).tick ∧
      (name ∈ gone ↔ (w.store.variableOf r).tick.lifetimes = []) := by
  obtain ⟨before, after, rfl, absentBefore, absentAfter, newBefore, newAfter⟩ := once.split
  obtain ⟨gone₁, w₁, ticks₁, aged₁⟩ := tickEntries_aged before w
  have same₁ := aged₁.untouched r absentBefore
  obtain ⟨gone₂, w₂, ticks₂, aged₂⟩ := tickEntries_aged after (older w₁ r)
  obtain ⟨gone, w', ticks, aged⟩ := tickEntries_aged (before ++ (name, .variable r) :: after) w
  have steps : tickEntries (before ++ (name, .variable r) :: after) w = .ok (gone₁ ++
      if (w.store.variableOf r).tick.lifetimes.isEmpty then name :: gone₂ else gone₂) w₂ := by
    rw [tickEntries_append, bind_ok ticks₁, ← same₁]
    exact bind_ok ((tickEntries_cons_variable name r after).trans (bind_ok ticks₂))
  have others {part : List (String × Entry)} {gone : List String} {u u' : World}
      (aged : Aged part gone u u') (new : name ∉ part.map (·.1)) : name ∉ gone := by
    intro member
    obtain ⟨r', among⟩ := aged.gone name member
    exact new (mem_map.mpr ⟨_, among, rfl⟩)
  rw [steps] at ticks
  cases ticks
  refine ⟨_, w₂, steps, aged, ?_, ?_⟩
  · rw [aged₂.untouched r absentAfter, ← same₁]
    exact Store.variableOf_withVariable (aged₁.size ▸ inside) _
  · rw [List.mem_append, or_iff_right (others aged₁ newBefore), ← List.isEmpty_iff]
    split
    · exact iff_of_true mem_cons_self ‹_›
    · exact iff_of_false (others aged₂ newAfter) ‹_›

/-! ## Scopes -/

/-- What a passing line leaves of the names and variables of scopes. -/
structure Passed (xs : List ScopeRef) (w w' : World) : Prop where
  namesOnly : NamesOnly w w'
  size : w'.store.slots.size = w.store.slots.size
  scopesSize : w'.store.scopes.size = w.store.scopes.size
  others : ∀ y, y ∉ xs → w'.store.scope y = w.store.scope y
  thinned : ∀ y, ∃ gone : List String, w'.store.scope y = gone.foldl erase (w.store.scope y) ∧
    ∀ k ∈ gone, ∃ r, (k, .variable r) ∈ (w.store.scope y).entries
  untouched : ∀ r, (∀ y ∈ xs, Absent r (w.store.scope y).entries) →
    w'.store.variableOf r = w.store.variableOf r

theorem Passed.nil (w : World) : Passed [] w w :=
  ⟨.refl w, rfl, rfl, fun _ _ => rfl, fun _ => ⟨[], rfl, by simp⟩, fun _ _ => rfl⟩

theorem Passed.entries_subset (passed : Passed xs w w') (y : ScopeRef) :
    (w'.store.scope y).entries ⊆ (w.store.scope y).entries := by
  obtain ⟨gone, thinner, -⟩ := passed.thinned y
  rw [thinner, entries_foldl_erase]
  exact filter_subset_self _

theorem Passed.trans {ys : List ScopeRef} {w'' : World} (first : Passed xs w w')
    (second : Passed ys w' w'') : Passed (xs ++ ys) w w'' := by
  refine ⟨first.namesOnly.trans second.namesOnly, second.size.trans first.size,
    second.scopesSize.trans first.scopesSize, ?_, ?_, ?_⟩
  · intro y outside
    rw [mem_append, not_or] at outside
    rw [second.others y outside.2, first.others y outside.1]
  · intro y
    obtain ⟨gone, thinner, named⟩ := first.thinned y
    obtain ⟨gone', thinner', named'⟩ := second.thinned y
    refine ⟨gone ++ gone', by rw [foldl_append, ← thinner, thinner'], ?_⟩
    intro k member
    rcases mem_append.mp member with early | late
    · exact named k early
    · obtain ⟨r, among⟩ := named' k late
      exact ⟨r, first.entries_subset y among⟩
  · intro r absent
    rw [second.untouched r, first.untouched r]
    · exact fun y member => absent y (mem_append_left ys member)
    · intro y member k among
      exact absent y (mem_append_right xs member) k (first.entries_subset y among)

theorem passScope_ok {gone : List String} {w₁ : World}
    (ticks : tickEntries (w.store.scope x).entries w = .ok gone w₁)
    (aged : Aged (w.store.scope x).entries gone w w₁) :
    ∃ w', passScope x w = .ok () w' ∧ Passed [x] w w' ∧ w'.store.slots = w₁.store.slots ∧
      w'.store.scope x = gone.foldl erase (w.store.scope x) := by
  have scopes (y : ScopeRef) : w₁.store.scope y = w.store.scope y := by
    rw [Store.scope, Store.scope, aged.scopes]
  have passed {w' : World} (namesOnly : NamesOnly w₁ w') (slots : w'.store.slots = w₁.store.slots)
      (scopesSize : w'.store.scopes.size = w₁.store.scopes.size)
      (others : ∀ y, y ≠ x → w'.store.scope y = w.store.scope y)
      (thinner : w'.store.scope x = gone.foldl erase (w.store.scope x)) : Passed [x] w w' := by
    refine ⟨aged.namesOnly.trans namesOnly, slots ▸ aged.size, scopesSize.trans (by rw [aged.scopes]), ?_,
      ?_, ?_⟩
    · intro y outside
      exact others y fun same => outside (mem_singleton.mpr same)
    · intro y
      by_cases same : y = x
      · subst same
        exact ⟨gone, thinner, aged.gone⟩
      · exact ⟨[], others y same, by simp⟩
    · intro r absent
      rw [Store.variableOf, slots]
      exact aged.untouched r (absent x mem_cons_self)
  have start : passScope x w = (if !gone.isEmpty then
      modifyScope x fun s => gone.foldl erase s else pure ()) w₁ :=
    (bind_ok scope_ok).trans (bind_ok ticks)
  by_cases empty : gone = []
  · subst empty
    exact ⟨w₁, start, passed (.refl w₁) rfl rfl (fun y _ => scopes y) (scopes x), rfl, scopes x⟩
  · have changes : (!gone.isEmpty) = true := by simpa using empty
    rw [if_pos changes] at start
    have inside : x.index < w₁.store.scopes.size := by
      obtain ⟨k, member⟩ := exists_mem_of_ne_nil gone empty
      obtain ⟨r, among⟩ := aged.gone k member
      rw [aged.scopes]
      exact Store.lt_size_of_mem_entries among
    have thinner : (w₁.store.withScope x fun s => gone.foldl erase s).scope x =
        gone.foldl erase (w.store.scope x) := by
      rw [Store.scope_withScope inside, scopes]
    refine ⟨_, start, passed rfl rfl Array.size_modify ?_ thinner, rfl, thinner⟩
    intro y other
    exact (Store.scope_withScope_of_ne other _).trans (scopes y)

theorem passScopes_passed (xs : List ScopeRef) (w : World) :
    ∃ w', passScopes xs w = .ok () w' ∧ Passed xs w w' := by
  induction xs generalizing w with
  | nil => exact ⟨w, rfl, .nil w⟩
  | cons x xs ih =>
    obtain ⟨gone, w₁, ticks, aged⟩ := tickEntries_aged (w.store.scope x).entries w
    obtain ⟨w₂, passes, passed, -, -⟩ := passScope_ok ticks aged
    obtain ⟨w', rest, passed'⟩ := ih w₂
    exact ⟨w', (bind_ok passes).trans rest, passed.trans passed'⟩

theorem passScopes_append (xs ys : List ScopeRef) :
    passScopes (xs ++ ys) = (do passScopes xs; passScopes ys) := by
  induction xs with
  | nil => simp only [nil_append, passScopes, pure_bind]
  | cons x xs ih => simp only [cons_append, passScopes, bind_assoc, ih]

structure Owned (s : Store) (scopes : List ScopeRef) (x : ScopeRef) (name : String)
    (r : VariableRef) : Prop where
  inside : r.index < s.slots.size
  distinct : ∀ y ∈ scopes, (s.scope y).keys.Nodup
  bound : (s.scope x).get? name = some (.variable r)
  only : ∀ y ∈ scopes, ∀ k, (k, .variable r) ∈ (s.scope y).entries → y = x ∧ k = name

section Owned

variable {scopes : List ScopeRef} (nodup : scopes.Nodup) (member : x ∈ scopes)

theorem Owned.passed (owned : Owned w.store scopes x name r) (passed : Passed xs w w')
    (stays : (w'.store.scope x).get? name = some (.variable r)) : Owned w'.store scopes x name r := by
  refine ⟨passed.size ▸ owned.inside, ?_, stays, ?_⟩
  · intro y member
    obtain ⟨gone, thinner, -⟩ := passed.thinned y
    rw [thinner]
    exact (owned.distinct y member).sublist (keys_foldl_erase_subset gone _)
  · intro y member k among
    exact owned.only y member k (passed.entries_subset y among)

include nodup member

theorem tick_owned (owned : Owned w.store scopes x name r) :
    ∃ w', tick scopes w = .ok () w' ∧ Passed scopes.reverse w w' ∧
      w'.store.variableOf r = (w.store.variableOf r).tick ∧
      (w'.store.scope x).get? name =
        if (w.store.variableOf r).tick.lifetimes = [] then none else some (.variable r) := by
  obtain ⟨before, after, whole⟩ := append_of_mem (mem_reverse.mpr member)
  have apart : (before ++ x :: after).Nodup := whole ▸ nodup_reverse.mpr nodup
  obtain ⟨-, others, apart⟩ := nodup_append.mp apart
  have outsideBefore : x ∉ before := fun member => apart x member x mem_cons_self rfl
  have outsideAfter : x ∉ after := (nodup_cons.mp others).1
  have absent (y : ScopeRef) (member : y ∈ before ++ x :: after) (other : y ≠ x) :
      Absent r (w.store.scope y).entries :=
    fun k among => other (owned.only y (mem_reverse.mp (whole ▸ member)) k among).1
  have once : Once (w.store.scope x).entries name r :=
    once_of_get? (owned.distinct x member) owned.bound fun k among => (owned.only x member k among).2
  -- The scopes further out do not hold the variable, and they leave the scope of its name alone.
  obtain ⟨w₁, passes₁, passed₁⟩ := passScopes_passed before w
  have sameScope : w₁.store.scope x = w.store.scope x := passed₁.others x outsideBefore
  have sameVariable : w₁.store.variableOf r = w.store.variableOf r := by
    apply passed₁.untouched
    intro y member
    exact absent y (mem_append_left _ member) fun same => outsideBefore (same ▸ member)
  obtain ⟨gone, w₂, ticks, aged, becomesOlder, goes⟩ :=
    tickEntries_once (sameScope ▸ once) (passed₁.size ▸ owned.inside)
  obtain ⟨w₃, passes₃, passed₃, slots, thinner⟩ := passScope_ok ticks aged
  obtain ⟨w', passes', passed'⟩ := passScopes_passed after w₃
  have passed := passed₁.trans passed₃
  refine ⟨w', ?_, ?_, ?_, ?_⟩
  · rw [tick, whole, passScopes_append, bind_ok passes₁]
    exact (bind_ok passes₃).trans passes'
  · rw [whole, ← singleton_append, ← append_assoc]
    exact passed.trans passed'
  · rw [passed'.untouched r, Store.variableOf, slots, ← sameVariable]
    · exact becomesOlder
    · intro y member k among
      have later : y ∈ before ++ x :: after :=
        mem_append_right before (mem_cons_of_mem x member)
      exact absent y later (fun same => outsideAfter (same ▸ member)) k
        (passed.entries_subset y among)
  · rw [passed'.others x outsideAfter, thinner, sameScope, ← sameVariable]
    split
    · exact get?_foldl_erase_of_mem (goes.mpr ‹_›)
    · rw [get?_foldl_erase fun member => absurd (goes.mp member) ‹_›, owned.bound]

end Owned

end Run

end DreamBerd
