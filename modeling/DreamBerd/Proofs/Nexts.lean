import DreamBerd.Proofs.Overloading

/-!
# The next values that a statement asks for

An expression that asks for next values of variables is rewritten in two passes: `next x` becomes the
name under which the next value of `x` will be found, and the other mentions of `x` become the name of
its present value. The relation `Nexts` says which sites an expression asks for. Both passes only read,
and they succeed on every expression in the relation.
-/

namespace DreamBerd

open List

/-! ## The names of next values -/

theorem toList_nextName (name : String) (x : ScopeRef) :
    (nextName name x).toList =
      name.toList ++ '_' :: (Nat.toDigits 10 (100000000000000 + x.index) ++ "__next".toList) := by
  simp [nextName]

/-- Where a mark occurs last, a text can be cut in one way only. -/
theorem append_mark_inj {as bs cs ds : List Char} (absent : c ∉ cs) (absent' : c ∉ ds)
    (same : as ++ c :: cs = bs ++ c :: ds) : as = bs ∧ cs = ds := by
  induction as generalizing bs with
  | nil =>
    cases bs with
    | nil => exact ⟨rfl, (List.cons.inj same).2⟩
    | cons b bs =>
      have inside : c ∈ cs := by
        rw [(List.cons.inj same).2]
        simp
      exact absurd inside absent
  | cons a as ih =>
    cases bs with
    | nil =>
      have inside : c ∈ ds := by
        rw [← (List.cons.inj same).2]
        simp
      exact absurd inside absent'
    | cons b bs =>
      obtain ⟨head, tail⟩ := List.cons.inj same
      obtain ⟨front, back⟩ := ih tail
      exact ⟨by rw [head, front], back⟩

theorem not_mem_toDigits (other : c.isDigit = false) (n : Nat) : c ∉ Nat.toDigits 10 n := by
  intro member
  have digit : c.isDigit = true := Nat.isDigit_of_mem_toDigits (by decide) (by decide) member
  rw [other] at digit
  cases digit

theorem nextName_inj {s s' : Site} (same : nextName s.1 s.2 = nextName s'.1 s'.2) : s = s' := by
  have texts := congrArg String.toList same
  rw [toList_nextName, toList_nextName, ← cons_append, ← cons_append, ← append_assoc,
    ← append_assoc] at texts
  obtain ⟨names, digits⟩ := append_mark_inj (not_mem_toDigits (by decide) _)
    (not_mem_toDigits (by decide) _) (append_cancel_right texts)
  have numbers := congrArg (Nat.ofDigitChars 10 · 0) digits
  simp only [Nat.ofDigitChars_ten_toDigits] at numbers
  have scopes : s.2 = s'.2 := congrArg ScopeRef.mk (Nat.add_left_cancel numbers)
  exact Prod.ext (String.toList_inj.mp names) scopes

theorem nextName_ne_previousName (name name' : String) (x : ScopeRef) :
    nextName name x ≠ previousName name' := by
  intro same
  have lasts := congrArg (·.toList.getLast?) same
  simp only [nextName, previousName, String.toList_append, getLast?_append] at lasts
  cases lasts

theorem plain_nextName {name : String} (plain : '.' ∉ name.toList) (x : ScopeRef) :
    '.' ∉ (nextName name x).toList := by
  rw [toList_nextName]
  intro member
  rcases mem_append.mp member with front | back
  · exact plain front
  · rcases mem_cons.mp back with mark | back
    · exact absurd mark (by decide)
    · rcases mem_append.mp back with digit | ending
      · exact not_mem_toDigits (by decide) _ digit
      · exact absurd ending (by decide)

/-! ## Asking for next values -/

/-- The sites of two expressions, each once. -/
def joined (a b : List Site) : List Site := a ++ b.filter (!a.contains ·)

mutual

inductive Nexts (s : Store) (scopes : List ScopeRef) : Expr → List Site → Expr → Prop
  | value (t : Token) : Nexts s scopes (.value t) [] (.value t)
  | list {items items' : List Expr} {a : List Site} :
      NextsAll s scopes items a items' → Nexts s scopes (.list items) a (.list items')
  | index {v n v' n' : Expr} {a b : List Site} :
      Nexts s scopes v a v' → Nexts s scopes n b n' →
        Nexts s scopes (.index v n) (joined a b) (.index v' n')
  | binary {op : Operator} {t : Token} {l r l' r' : Expr} {a b : List Site} :
      Nexts s scopes l a l' → Nexts s scopes r b r' →
        Nexts s scopes (.binary op t l r) (joined a b) (.binary op t l' r')
  | unary {op : Token} {e e' : Expr} {a : List Site} :
      Nexts s scopes e a e' → Nexts s scopes (.unary op e) a (.unary op e')
  | next {site t : Token} {word : ValueRef} {r : VariableRef} {x : ScopeRef} :
      Reads s scopes site.text word → s.value word = .keyword "next" → '.' ∉ t.text.toList →
      s.innermost t.text scopes = some (.variable r, x) →
        Nexts s scopes (.call site [.value t]) [(t.text, x)]
          (.value { t with text := nextName t.text x })
  | call {site : Token} {args args' : List Expr} {v : ValueRef} {a : List Site} :
      Reads s scopes site.text v → s.value v ≠ .keyword "next" → s.value v ≠ .keyword "await" →
      NextsAll s scopes args a args' → Nexts s scopes (.call site args) a (.call site args')

inductive NextsAll (s : Store) (scopes : List ScopeRef) : List Expr → List Site → List Expr → Prop
  | nil : NextsAll s scopes [] [] []
  | cons {e e' : Expr} {es es' : List Expr} {a b : List Site} :
      Nexts s scopes e a e' → NextsAll s scopes es b es' →
        NextsAll s scopes (e :: es) (joined a b) (e' :: es')

end

namespace Run

variable {w : World} {scopes : List ScopeRef} {names : List String}

theorem nextToken_ok (plain : '.' ∉ t.text.toList)
    (found : w.store.innermost t.text scopes = some (.variable r, x)) :
    nextToken scopes t w = .ok ({ t with text := nextName t.text x }, x) w := by
  have some := Store.scope_of_innermost found
  have inhabited : ¬(w.store.scope x).isEmpty = true := by
    intro empty
    have nothing : (w.store.scope x).entries = [] := isEmpty_iff.mp empty
    have member := Ledger.mem_of_get? some
    rw [nothing] at member
    cases member
  have site : siteScope scopes t.text w = .ok x w := by
    unfold siteScope
    rw [bind_ok (lookupWithin_ok (Store.lookupWithin_eq plain found))]
    refine (bind_ok scope_ok).trans ?_
    rw [if_neg inhabited]
    rfl
  unfold nextToken
  rw [bind_ok site, lastPart_eq plain]
  rfl

theorem calledValue_ok {site : Token} (reads : Reads w.store scopes t.text v) :
    calledValue scopes t site w = .ok (w.store.value v) w := by
  obtain ⟨entry, finds, holds⟩ := reads
  exact (bind_ok (lookup_ok finds)).trans ((bind_ok (entryValue_ok holds)).trans value_ok)

mutual

/-- The first pass finds the sites, and changes nothing else. -/
theorem replaceNext_ok (nexts : Nexts w.store scopes e a e') :
    ∃ renamed, replaceNext scopes e w = .ok (e', ⟨a, [], renamed⟩) w := by
  cases nexts with
  | value t => exact ⟨[], rfl⟩
  | list items =>
    obtain ⟨renamed, done⟩ := replaceNextAll_ok items
    exact ⟨renamed, (bind_ok done).trans rfl⟩
  | index l r | binary l r =>
    obtain ⟨renamed, done⟩ := replaceNext_ok l
    obtain ⟨renamed', done'⟩ := replaceNext_ok r
    exact ⟨renamed ++ renamed', (bind_ok done).trans ((bind_ok done').trans rfl)⟩
  | unary e =>
    obtain ⟨renamed, done⟩ := replaceNext_ok e
    exact ⟨renamed, (bind_ok done).trans rfl⟩
  | @next site t word r x reads keyword plain found =>
    refine ⟨[(t, { t with text := nextName t.text x })], ?_⟩
    refine (bind_ok (calledValue_ok reads)).trans ?_
    rw [keyword]
    exact (bind_ok (nextToken_ok plain found)).trans rfl
  | @call site args args' v a reads notNext notAwait all =>
    obtain ⟨renamed, done⟩ := replaceNextAll_ok all
    refine ⟨renamed, (bind_ok (calledValue_ok reads)).trans ?_⟩
    generalize w.store.value v = called at notNext notAwait
    split
    · exact absurd rfl notNext
    · exact absurd rfl notAwait
    · exact (bind_ok done).trans rfl

theorem replaceNextAll_ok {es es' : List Expr} (nexts : NextsAll w.store scopes es a es') :
    ∃ renamed, rewriteAll (fun t => return (t, ∅)) (replaceCall scopes) es w =
      .ok (es', ⟨a, [], renamed⟩) w := by
  cases nexts with
  | nil => exact ⟨[], rfl⟩
  | cons e es =>
    obtain ⟨renamed, done⟩ := replaceNext_ok e
    obtain ⟨renamed', done'⟩ := replaceNextAll_ok es
    exact ⟨renamed ++ renamed', (bind_ok done).trans ((bind_ok done').trans rfl)⟩

end

/-! ## Keeping present values -/

/-- All names are those of present values. -/
def KeepsPresent (l : Scope) : Prop := ∀ k ∈ l.keys, ∃ name, k = previousName name

theorem KeepsPresent.merge (first : KeepsPresent l) (second : KeepsPresent m) :
    KeepsPresent (l.merge m) := by
  intro k member
  rcases Ledger.mem_keys_merge member with left | right
  · exact first k left
  · exact second k right

theorem keepsPresent_empty : KeepsPresent .empty := by
  intro k member
  cases member

theorem KeepsPresent.get?_nextName (keeps : KeepsPresent l) (name : String)
    (x : ScopeRef) : l.get? (nextName name x) = none := by
  rw [Ledger.get?_eq_none_iff]
  intro member
  obtain ⟨name', same⟩ := keeps _ member
  exact nextName_ne_previousName name name' x same

theorem keepToken_ok (known : ∀ name ∈ names, ∃ v, Reads w.store scopes name v) (t : Token) :
    ∃ t' k, keepToken scopes names t w = .ok (t', k) w ∧ KeepsPresent k.scope := by
  unfold keepToken
  by_cases other : (t.is .string || !names.contains t.text) = true
  · rw [if_pos other]
    exact ⟨t, ∅, rfl, keepsPresent_empty⟩
  · rw [if_neg other]
    have member : t.text ∈ names := by simp_all
    obtain ⟨v, entry, finds, holds⟩ := known t.text member
    refine ⟨_, _, (bind_ok (lookup_ok finds)).trans ((bind_ok (entryValue_ok holds)).trans rfl), ?_⟩
    intro k among
    exact ⟨t.text, mem_singleton.mp among⟩

mutual

theorem keepPrevious_ok (known : ∀ name ∈ names, ∃ v, Reads w.store scopes name v) (e : Expr) :
    ∃ e' k, keepPrevious scopes names e w = .ok (e', k) w ∧ KeepsPresent k.scope := by
  cases e with
  | value t =>
    obtain ⟨t', k, done, keeps⟩ := keepToken_ok known t
    exact ⟨.value t', k, bind_ok done, keeps⟩
  | list items =>
    obtain ⟨items', k, done, keeps⟩ := keepPreviousAll_ok known items
    exact ⟨.list items', k, bind_ok done, keeps⟩
  | call site args =>
    obtain ⟨args', k, done, keeps⟩ := keepPreviousAll_ok known args
    exact ⟨.call site args', k, bind_ok done, keeps⟩
  | index v n =>
    obtain ⟨v', k, done, keeps⟩ := keepPrevious_ok known v
    obtain ⟨n', k', done', keeps'⟩ := keepPrevious_ok known n
    exact ⟨.index v' n', k ∪ k', (bind_ok done).trans (bind_ok done'), keeps.merge keeps'⟩
  | binary op t l r =>
    obtain ⟨l', k, done, keeps⟩ := keepPrevious_ok known l
    obtain ⟨r', k', done', keeps'⟩ := keepPrevious_ok known r
    exact ⟨.binary op t l' r', k ∪ k', (bind_ok done).trans (bind_ok done'), keeps.merge keeps'⟩
  | unary op e =>
    obtain ⟨e', k, done, keeps⟩ := keepPrevious_ok known e
    exact ⟨.unary op e', k, bind_ok done, keeps⟩

theorem keepPreviousAll_ok (known : ∀ name ∈ names, ∃ v, Reads w.store scopes name v) (es : List Expr) :
    ∃ es' k, rewriteAll (keepToken scopes names) (fun _ _ kept => kept) es w = .ok (es', k) w ∧
      KeepsPresent k.scope := by
  cases es with
  | nil => exact ⟨[], ∅, rfl, keepsPresent_empty⟩
  | cons e es =>
    obtain ⟨e', k, done, keeps⟩ := keepPrevious_ok known e
    obtain ⟨es', k', done', keeps'⟩ := keepPreviousAll_ok known es
    exact ⟨e' :: es', k ∪ k', (bind_ok done).trans (bind_ok done'), keeps.merge keeps'⟩

end

end Run

end DreamBerd
