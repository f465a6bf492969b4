import DreamBerd.Clause.Read
import DreamBerd.Proofs.Turns
import DreamBerd.World.Load

/-!
# The names of the language

Every program starts with a scope that holds the predefined names. A name can be listed more than once,
and the last meaning counts: `table_get?` says that no other meaning takes the place of a keyword that
declares functions, or of `async`. Loading gives each name a value with its meaning (`loadPredefined_ok`),
and loading code changes neither (`loadCode_ok`), so that the keywords are found in a new scope with the
predefined names (`newGlobals_knows`).

`resolve` reads a text and chooses a form for each of its clauses in such a scope.
-/

namespace DreamBerd

open List Predefined

/-- A form without its expressions and its block. -/
def Form.outline {ε κ : Type} (form : Form ε κ) : Form Unit Unit := form.map (fun _ => ()) fun _ => ()

theorem Form.outline_map {ε κ ε' κ' : Type} (g : ε → ε') (h : κ → κ') (form : Form ε κ) :
    (form.map g h).outline = form.outline := by
  cases form with
  | assignment =>
    rw [map, outline, map, map_map]
    rfl
  | _ => rfl

namespace Ledger

variable {κ α : Type} [BEq κ] [LawfulBEq κ] {l : Ledger κ α} {k : κ} {v : α}

theorem get?_foldl_put {entries : List (κ × α)} (only : ∀ e ∈ entries, e.1 = k → e.2 = v)
    (found : l.get? k = some v ∨ ∃ e ∈ entries, e.1 = k) :
    (entries.foldl (fun l e => l.put e.1 e.2) l).get? k = some v := by
  induction entries generalizing l with
  | nil =>
    rcases found with found | ⟨e, none, -⟩
    · exact found
    · cases none
  | cons e es ih =>
    have later : ∀ e' ∈ es, e'.1 = k → e'.2 = v :=
      (forall_mem_cons.mp only).2
    rw [foldl_cons]
    by_cases here : e.1 = k
    · refine ih later (.inl ?_)
      rw [here, only e mem_cons_self here, get?_put_self]
    · refine ih later ?_
      rw [get?_put_of_ne here]
      refine found.imp_right ?_
      rintro ⟨e', member, same⟩
      rcases mem_cons.mp member with rfl | member
      · exact absurd same here
      · exact ⟨e', member, same⟩

end Ledger

namespace Predefined

variable {word : String}

theorem sublist_of_mem_selections {cs s : List Char} (member : s ∈ selections cs) : s.Sublist cs := by
  induction cs generalizing s with
  | nil =>
    rw [selections, mem_singleton] at member
    rw [member]
  | cons c cs ih =>
    obtain ⟨rest, among, written⟩ := mem_flatMap.mp member
    rcases mem_pair.mp written with rfl | rfl
    · exact (ih among).cons c
    · exact (ih among).cons_cons c

theorem sublist_of_mem_functionWords (member : word ∈ functionWords) :
    word.toList.Sublist "function".toList ∧ word.toList ≠ [] := by
  obtain ⟨cs, among, rfl⟩ := mem_map.mp member
  split
  · decide
  · rename_i some
    rw [String.toList_ofList]
    exact ⟨sublist_of_mem_selections among, fun none => some (by rw [none]; rfl)⟩

theorem isFunctionWord_of_mem (member : word ∈ functionWords) : isFunctionWord word = true :=
  isSublist_iff_sublist.mpr (sublist_of_mem_functionWords member).1

/-- The names with other meanings, which are listed after the keywords. -/
def meanings : List (String × Predefined) :=
  functions ++ constants ++ mathFunctions ++ mathConstants ++ smallNumbers ++ tensFunctions

theorem isFunctionWord_meanings :
    (meanings.all fun e => e.1.toList.isEmpty || !isFunctionWord e.1) = true := by
  decide

theorem async_not_mem_meanings : (meanings.all fun e => e.1 != "async") = true := by
  decide

def leads (word : String) : Prop := word = "async" ∨ word ∈ functionWords

theorem point_not_mem (leading : leads word) : '.' ∉ word.toList := by
  rcases leading with rfl | function
  · decide
  · intro point
    have letter := (sublist_of_mem_functionWords function).1.mem point
    revert letter
    decide

theorem table_get? (leading : leads word) : table.get? word = some (.keyword word) := by
  have other : ∀ e ∈ meanings, e.1 ≠ word := by
    intro e member same
    rcases leading with rfl | function
    · have apart := all_eq_true.mp async_not_mem_meanings e member
      rw [same] at apart
      cases apart
    · have apart := all_eq_true.mp isFunctionWord_meanings e member
      rw [same, isFunctionWord_of_mem function, Bool.not_true, Bool.or_false, List.isEmpty_iff] at apart
      exact (sublist_of_mem_functionWords function).2 apart
  have listed : word ∈ keywordWords ++ functionWords := by
    rcases leading with rfl | function
    · exact mem_append_left _ (by decide)
    · exact mem_append_right _ function
  have whole : table = Ledger.merge .empty
      ⟨(keywordWords ++ functionWords).map (fun w => (w, keyword w)) ++ meanings⟩ := by
    simp only [table, Ledger.ofList, meanings, append_assoc]
  rw [whole]
  refine Ledger.get?_foldl_put ?_ (.inr ⟨(word, keyword word), ?_, rfl⟩)
  · intro e member same
    rcases mem_append.mp member with key | meaning
    · obtain ⟨w, -, rfl⟩ := mem_map.mp key
      exact congrArg keyword same
    · exact absurd same (other e meaning)
  · exact mem_append_left _ (mem_map.mpr ⟨word, listed, rfl⟩)

end Predefined

namespace Run

variable {w w' : World}

/-! ## Loading the names -/

theorem mapM_newValue_ok {α : Type} (f : α → Value) (l : Ledger String α) (w : World) :
    ∃ loaded : Ledger String ValueRef, ∃ w', (l.entries.mapM fun e => do
        return (e.1, ← newValue (f e.2)) : Run (List (String × ValueRef))) w = .ok loaded.entries w' ∧
      w.store.values.toList <+: w'.store.values.toList ∧
      ∀ k p, l.get? k = some p →
        ∃ v, loaded.get? k = some v ∧ w'.store.values[v.index]? = some (f p) := by
  obtain ⟨entries⟩ := l
  induction entries generalizing w with
  | nil => exact ⟨⟨[]⟩, w, rfl, prefix_rfl, fun k p none => by cases none⟩
  | cons e es ih =>
    obtain ⟨⟨loaded⟩, w', load, grown, finds⟩ := ih { w with store := { w.store with
      values := w.store.values.push (f e.2) } }
    have first : (do return (e.1, ← newValue (f e.2)) : Run (String × ValueRef)) w =
        .ok (e.1, ⟨w.store.values.size⟩)
          { w with store := { w.store with values := w.store.values.push (f e.2) } } := rfl
    refine ⟨⟨(e.1, ⟨w.store.values.size⟩) :: loaded⟩, w', ?_, ?_, ?_⟩
    · rw [mapM_cons, bind_ok first, bind_ok load]
      rfl
    · refine List.IsPrefix.trans ?_ grown
      rw [Array.toList_push]
      exact prefix_append _ _
    · intro k p found
      rw [Ledger.get?, Ledger.find] at found ⊢
      split at found
      · rename_i same
        rw [if_pos same]
        cases found
        exact ⟨_, rfl, Store.getElem?_eq_some_of_grown grown (by simp)⟩
      · rename_i other
        rw [if_neg other]
        exact finds k p found

def NamesLoaded (w : World) : Prop :=
  ∀ name p, table.get? name = some p →
    ∃ v, w.predefined.get? name = some v ∧ w.store.value v = valueOfPredefined p

theorem loadPredefined_ok (w : World) : ∃ w', loadPredefined w = .ok () w' ∧ NamesLoaded w' := by
  obtain ⟨loaded, w', load, -, finds⟩ := mapM_newValue_ok valueOfPredefined table w
  refine ⟨{ w' with predefined := loaded }, ?_, ?_⟩
  · rw [loadPredefined, bind_ok load]
    rfl
  · intro name p listed
    obtain ⟨v, found, holds⟩ := finds name p listed
    exact ⟨v, found, by rw [Store.value, holds]; rfl⟩

/-! ## Loading code -/

/-- Loading code leaves the names and their values as they are. -/
def SameNames (w w' : World) : Prop :=
  w'.predefined = w.predefined ∧ w'.store.values = w.store.values

theorem SameNames.refl (w : World) : SameNames w w := ⟨rfl, rfl⟩

theorem SameNames.trans (first : SameNames w w') (second : SameNames w' w'') : SameNames w w'' :=
  ⟨second.1.trans first.1, second.2.trans first.2⟩

theorem SameNames.namesLoaded (same : SameNames w w') (names : NamesLoaded w) : NamesLoaded w' := by
  intro name p listed
  obtain ⟨v, found, holds⟩ := names name p listed
  refine ⟨v, same.1 ▸ found, ?_⟩
  rwa [Store.value, same.2]

def withClause (w : World) (fs : List Statement) : World :=
  { w with store := { w.store with clauses := w.store.clauses.push fs } }

theorem newClause_ok (fs : List Statement) (w : World) :
    newClause fs w = .ok ⟨w.store.clauses.size⟩ (withClause w fs) := rfl

mutual

theorem loadCode_ok : ∀ clauses w, ∃ code w', loadCode clauses w = .ok code w' ∧ SameNames w w'
  | [], w => ⟨[], w, by rw [loadCode]; rfl, .refl w⟩
  | .mk forms :: clauses, w => by
    obtain ⟨fs, w₁, load, -, same₁⟩ := loadForms_ok forms w
    obtain ⟨code, w', rest, same'⟩ := loadCode_ok clauses (withClause w₁ fs)
    refine ⟨⟨w₁.store.clauses.size⟩ :: code, w', ?_, same₁.trans same'⟩
    rw [loadCode, bind_ok load, bind_ok (newClause_ok fs w₁), bind_ok rest]
    rfl

theorem loadForms_ok : ∀ forms w, ∃ fs w', loadForms forms w = .ok fs w' ∧
    fs.map Form.outline = forms.map Form.outline ∧ SameNames w w'
  | [], w => ⟨[], w, by rw [loadForms]; rfl, rfl, .refl w⟩
  | form :: forms, w => by
    obtain ⟨code, w₁, load, names⟩ := loadBlock_ok form w
    obtain ⟨fs, w', rest, same, names'⟩ := loadForms_ok forms w₁
    refine ⟨form.map .source (fun _ => code) :: fs, w', ?_, ?_, names.trans names'⟩
    · rw [loadForms, bind_ok load, bind_ok rest]
      rfl
    · rw [map_cons, map_cons, Form.outline_map, same]

theorem loadBlock_ok (form : Form (List Token) (List Clause)) (w : World) :
    ∃ code w', loadBlock form w = .ok code w' ∧ SameNames w w' := by
  unfold loadBlock
  split
  case h_6 => exact ⟨[], w, rfl, .refl w⟩
  all_goals exact loadCode_ok _ w

end

/-! ## The keywords -/

def Knows (w : World) (x : ScopeRef) (word : String) : Prop :=
  ∃ v, (w.store.scope x).get? word = some (.predefined v) ∧ w.store.value v = .keyword word

theorem newGlobals_knows (names : NamesLoaded w) :
    ∃ x w', newGlobals w = .ok x w' ∧ w'.store.clauses = w.store.clauses ∧
      ∀ word, leads word → Knows w' x word := by
  refine ⟨⟨w.store.scopes.size⟩, _, rfl, rfl, ?_⟩
  intro word leading
  obtain ⟨v, found, holds⟩ := names word _ (table_get? leading)
  refine ⟨v, ?_, holds⟩
  have entries : (w.predefined.mapWithKey fun _ => Entry.predefined).get? word =
      (w.predefined.get? word).map Entry.predefined :=
    Ledger.get?_mapWithKey w.predefined fun _ _ => rfl
  show ((w.store.scopes.push (w.predefined.mapWithKey fun _ => Entry.predefined))[
    w.store.scopes.size]?.getD .empty).get? word = _
  rw [Array.getElem?_push_size, Option.getD_some, entries, found]
  rfl

section Known

variable {x : ScopeRef} {t : Token}

theorem Knows.keywordOf_eq (known : Knows w x t.text) (leading : leads t.text) :
    keywordOf [x] t w = .ok (some t.text) w := by
  obtain ⟨v, found, holds⟩ := known
  exact keywordOf_ok (point_not_mem leading) (Store.innermost_cons found) rfl holds

theorem Knows.isFunctionKeyword_eq (known : Knows w x t.text) (leading : leads t.text) :
    isFunctionKeyword [x] t w = .ok (isFunctionWord t.text) w := by
  unfold isFunctionKeyword
  rw [bind_ok (known.keywordOf_eq leading)]
  rfl

theorem Knows.isKeyword_eq (known : Knows w x t.text) (leading : leads t.text)
    (words : List String) : isKeyword [x] t words w = .ok (words.contains t.text) w := by
  unfold isKeyword
  rw [bind_ok (known.keywordOf_eq leading)]
  rfl

end Known

/-! ## Choosing forms -/

/-- Load the predefined names, read a text, and choose a form for each of its clauses where only these
names are known. -/
def resolve (src : Source) (tokens : List Token) : Run (List (Option (Nat × Statement))) := do
  loadPredefined
  let code ← loadCode (← ofExcept (Clause.ofTokens src tokens))
  let x ← newGlobals
  code.mapM fun clause => do classify [x] (← forms clause)

theorem resolve_of_read {src : Source} {tokens : List Token} {read : List (Form (List Token) (List Clause))}
    (reads : Clause.ofTokens src tokens = .ok [.mk read]) (w : World) :
    ∃ fs x w', fs.map Form.outline = read.map Form.outline ∧
      (∀ word, leads word → Knows w' x word) ∧
      resolve src tokens w = (do return [← classify [x] fs] : Run _) w' := by
  obtain ⟨w₁, named, names⟩ := loadPredefined_ok w
  obtain ⟨fs, w₂, load, same, kept⟩ := loadForms_ok read w₁
  have loaded : loadCode [.mk read] w₁ = .ok [⟨w₂.store.clauses.size⟩] (withClause w₂ fs) := by
    rw [loadCode, bind_ok load, loadCode]
    rfl
  have names' : NamesLoaded (withClause w₂ fs) := kept.namesLoaded names
  obtain ⟨x, w', opened, clauses, known⟩ := newGlobals_knows names'
  have written : forms ⟨w₂.store.clauses.size⟩ w' = .ok fs w' := by
    show EStateM.Result.ok (w'.store.clauses[w₂.store.clauses.size]?.getD []) w' = _
    rw [clauses, withClause, Array.getElem?_push_size]
    rfl
  refine ⟨fs, x, w', same, known, ?_⟩
  unfold resolve
  rw [bind_ok named, bind_ok (ofExcept_ok reads), bind_ok loaded, bind_ok opened, mapM_cons,
    bind_of_eq (bind_ok written)]
  rfl

end Run

end DreamBerd
