import DreamBerd.Proofs.Restoring
import Mathlib.Data.Finset.Card

/-!
# Copies are faithful

The search for all that a value leads to comes to an end before its rounds are used up: every round but
the last two finds a cell of the store that was not found before (`Store.parts_subset_found`). So the
cells that are copied lead to nothing outside, and each copy is the original with all references
redirected to copies (`Store.mirrors_withCopies`): the two are the same graph.
-/

namespace DreamBerd

open List Redirection

variable {s source s' : Store}

namespace Store

variable {c : Cell} {found new last : List Cell} {ρ : Type} {n : Nat}

/-! ## The search -/

theorem subset_findFrom (rounds : Nat) (found last : List Cell) :
    found ⊆ s.findFrom rounds found last := by
  induction rounds generalizing found last with
  | zero => exact fun _ member => member
  | succ rounds ih =>
    rw [findFrom]
    split
    · exact fun _ member => member
    · exact fun c member => ih _ _ (mem_append_left _ member)

theorem mem_found (s : Store) (r : ValueRef) : .value r ∈ s.found r :=
  subset_findFrom _ _ _ mem_cons_self

def cells (s : Store) : List Cell :=
  (List.range s.values.size).map (fun n => .value ⟨n⟩) ++
  (List.range s.scopes.size).map (fun n => .scope ⟨n⟩) ++
  (List.range s.slots.size).map (fun n => .slot ⟨n⟩) ++
  (List.range s.clauses.size).map (fun n => .clause ⟨n⟩)

theorem parts_eq_nil (outside : c ∉ s.cells) : s.parts c = [] := by
  simp only [cells, mem_append, mem_map, mem_range, not_or, not_exists, not_and] at outside
  obtain ⟨⟨⟨values, scopes⟩, slots⟩, clauses⟩ := outside
  cases c with
  | value r =>
    have behind : s.values.size ≤ r.index := Nat.le_of_not_lt fun inside => values r.index inside rfl
    simp [parts, value, behind]
  | scope r =>
    have behind : s.scopes.size ≤ r.index := Nat.le_of_not_lt fun inside => scopes r.index inside rfl
    simp [parts, scope, behind, Ledger.empty]
  | slot r =>
    have behind : s.slots.size ≤ r.index := Nat.le_of_not_lt fun inside => slots r.index inside rfl
    simp [parts, variableOf, behind]
  | clause r =>
    have behind : s.clauses.size ≤ r.index := Nat.le_of_not_lt fun inside => clauses r.index inside rfl
    simp [parts, forms, behind]

def missing (s : Store) (found : List Cell) : Finset Cell := s.cells.toFinset \ found.toFinset

theorem card_missing_le (s : Store) (found : List Cell) :
    (s.missing found).card ≤ s.values.size + s.scopes.size + s.slots.size + s.clauses.size := by
  calc (s.missing found).card
      ≤ s.cells.toFinset.card := Finset.card_le_card Finset.sdiff_subset
    _ ≤ s.cells.length := s.cells.toFinset_card_le
    _ = _ := by simp [cells, Nat.add_assoc]

theorem card_missing_lt (inside : c ∈ s.cells) (before : c ∉ found) (now : c ∈ new) :
    (s.missing (found ++ new)).card < (s.missing found).card := by
  refine Finset.card_lt_card ((Finset.ssubset_iff_of_subset ?_).mpr ⟨c, ?_, ?_⟩)
  · intro d
    simp only [missing, Finset.mem_sdiff, mem_toFinset, mem_append, not_or]
    rintro ⟨there, early, -⟩
    exact ⟨there, early⟩
  · simp [missing, inside, before]
  · simp [missing, now]

/-- What was found before the last round leads to nothing new. -/
def Searched (s : Store) (found last : List Cell) : Prop :=
  ∀ c ∈ found, c ∈ last ∨ s.parts c ⊆ found

theorem Searched.step (searched : s.Searched found last)
    (fresh : ((last.flatMap s.parts).filter (!found.contains ·)).eraseDups = new) :
    s.Searched (found ++ new) new := by
  intro c member
  rcases mem_append.mp member with old | here
  · refine .inr fun d part => ?_
    rcases searched c old with late | early
    · by_cases known : d ∈ found
      · exact mem_append_left _ known
      · refine mem_append_right _ (fresh ▸ mem_eraseDups.mpr (mem_filter.mpr ⟨?_, ?_⟩))
        · exact mem_flatMap.mpr ⟨c, late, part⟩
        · simpa using known
    · exact mem_append_left _ (early part)
  · exact .inl here

theorem not_mem_of_fresh (fresh : ((last.flatMap s.parts).filter (!found.contains ·)).eraseDups = new)
    (member : c ∈ new) : c ∉ found := by
  rw [← fresh, mem_eraseDups, mem_filter] at member
  simpa using member.2

theorem findFrom_closed {rounds : Nat} (searched : s.Searched found last)
    (enough : (s.missing found).card + 2 ≤ rounds) :
    ∀ c ∈ s.findFrom rounds found last, s.parts c ⊆ s.findFrom rounds found last := by
  induction rounds generalizing found last with
  | zero => omega
  | succ rounds ih =>
    have step := searched.step rfl
    rw [findFrom]
    split
    · -- nothing is new
      rename_i none
      rw [none, append_nil] at step
      intro c member
      exact (step c member).resolve_left not_mem_nil
    · generalize fresh : ((last.flatMap s.parts).filter (!found.contains ·)).eraseDups = new
      by_cases inside : ∃ c ∈ new, c ∈ s.cells
      · obtain ⟨c, among, inside⟩ := inside
        have fewer := card_missing_lt inside (not_mem_of_fresh fresh among) among
        exact ih (searched.step fresh) (by omega)
      · -- what is new leads to nothing, so that the next round is the last
        obtain ⟨rounds, rfl⟩ : ∃ n, rounds = n + 1 := ⟨rounds - 1, by omega⟩
        have ends : new.flatMap s.parts = [] :=
          flatMap_eq_nil_iff.mpr fun c among =>
            parts_eq_nil fun there => inside ⟨c, among, there⟩
        rw [findFrom, ends]
        intro c member
        rcases searched.step fresh c member with late | early
        · have nothing : s.parts c = [] := flatMap_eq_nil_iff.mp ends c late
          rw [nothing]
          exact nil_subset _
        · exact early

theorem parts_subset_found (s : Store) (r : ValueRef) (member : c ∈ s.found r) :
    s.parts c ⊆ s.found r := by
  refine findFrom_closed ?_ (Nat.add_le_add_right (s.card_missing_le _) 2) c member
  exact fun c among => .inl among

/-! ## What is added -/

section Places

variable [DecidableEq ρ] {cells : List Cell} {part? : Cell → Option ρ} {c' : Cell} {r r' : ρ} {f : Nat → ρ}

/-- What is copied has its place among the copies of its kind. -/
theorem exists_place (copied : c ∈ cells) (part : part? c = some r) (f : Nat → ρ) :
    ∃ n, (cells.filterMap part?)[n]? = some r ∧ ((cells.filterMap part?).idxOf? r).elim r f = f n := by
  have member : r ∈ cells.filterMap part? := mem_filterMap.mpr ⟨c, copied, part⟩
  obtain ⟨n, found⟩ := Option.isSome_iff_exists.mp (isSome_idxOf?.mpr member)
  obtain ⟨inside, there, -⟩ := idxOf?_eq_some_iff.mp found
  refine ⟨n, (getElem?_eq_getElem inside).trans (congrArg some there), ?_⟩
  rw [found]
  rfl

theorem getElem?_copies {index : ρ → Nat} (xs : Array β) (g : ρ → β) (places : ∀ n, index (f n) = xs.size + n)
    (copied : c ∈ cells) (part : part? c = some r) : (xs ++ ((cells.filterMap part?).map g).toArray)[index
      (((cells.filterMap part?).idxOf? r).elim r f)]? = some (g r) := by
  obtain ⟨n, there, place⟩ := exists_place copied part f
  rw [place, places, Array.getElem?_append_right (Nat.le_add_right _ _), Nat.add_sub_cancel_left,
    getElem?_toArray, getElem?_map, there]
  rfl

theorem eq_of_place (apart : ∀ m n, f m = f n → m = n) (copied : c ∈ cells) (copied' : c' ∈ cells)
    (part : part? c = some r) (part' : part? c' = some r')
    (same : ((cells.filterMap part?).idxOf? r).elim r f = ((cells.filterMap part?).idxOf? r').elim r' f) :
    r = r' := by
  obtain ⟨m, here, place⟩ := exists_place copied part f
  obtain ⟨n, there, place'⟩ := exists_place copied' part' f
  cases apart m n ((place.symm.trans same).trans place')
  exact Option.some.inj (here.symm.trans there)

end Places

theorem extends_withCopies (s source : Store) (cells : List Cell) :
    s.Extends [] (s.withCopies source cells) := by
  refine ⟨?_, ?_, ?_, ?_, ?_, rfl⟩
  · exact ⟨_, (Array.toList_append).symm⟩
  · exact ⟨_, (Array.toList_append).symm⟩
  · exact ⟨_, (Array.toList_append).symm⟩
  · rw [withCopies, Array.size_append]
    exact Nat.le_add_right _ _
  · intro y _ inside
    rw [scope, withCopies, Array.getElem?_append_left inside]
    rfl

end Store

/-! ## Mirrors -/

/-- Under a redirection every one of the given cells of a store has a copy of its own in another one,
and the cells lead to nothing but each other. -/
structure Redirection.Mirrors (f : Redirection) (source : Store) (cells : List Cell) (s : Store) :
    Prop where
  closed : ∀ c ∈ cells, source.parts c ⊆ cells
  value : ∀ r, .value r ∈ cells → s.values[(f.value r).index]? = some (f.ofValue (source.value r))
  scope : ∀ r, .scope r ∈ cells →
    s.scopes[(f.scope r).index]? = some ((source.scope r).mapWithKey f.ofEntry)
  slot : ∀ r, .slot r ∈ cells →
    s.slots[(f.slot r).index]? = some (f.ofVariable (source.variableOf r))
  clause : ∀ r, .clause r ∈ cells →
    s.clauses[(f.clause r).index]? = some ((source.forms r).map f.ofStatement)
  valueApart : ∀ r r', .value r ∈ cells → .value r' ∈ cells → f.value r = f.value r' → r = r'
  scopeApart : ∀ r r', .scope r ∈ cells → .scope r' ∈ cells → f.scope r = f.scope r' → r = r'
  slotApart : ∀ r r', .slot r ∈ cells → .slot r' ∈ cells → f.slot r = f.slot r' → r = r'
  clauseApart : ∀ r r', .clause r ∈ cells → .clause r' ∈ cells → f.clause r = f.clause r' → r = r'

namespace Store

theorem mirrors_withCopies (s source : Store) (r : ValueRef) :
    (into s (source.found r)).Mirrors source (source.found r)
      (s.withCopies source (source.found r)) where
  closed _ member := source.parts_subset_found r member
  value _ copied := getElem?_copies s.values _ (fun _ => rfl) copied rfl
  scope _ copied := getElem?_copies s.scopes _ (fun _ => rfl) copied rfl
  slot _ copied := getElem?_copies s.slots _ (fun _ => rfl) copied rfl
  clause _ copied := getElem?_copies s.clauses _ (fun _ => rfl) copied rfl
  valueApart _ _ copied copied' := eq_of_place (by simp) copied copied' rfl rfl
  scopeApart _ _ copied copied' := eq_of_place (by simp) copied copied' rfl rfl
  slotApart _ _ copied copied' := eq_of_place (by simp) copied copied' rfl rfl
  clauseApart _ _ copied copied' := eq_of_place (by simp) copied copied' rfl rfl

theorem value_withCopies (s source : Store) (r : ValueRef) :
    ((into s (source.found r)).value r).index <
        (s.withCopies source (source.found r)).values.size ∧
    (s.withCopies source (source.found r)).value ((into s (source.found r)).value r) =
      (into s (source.found r)).ofValue (source.value r) := by
  have added := (mirrors_withCopies s source r).value r (source.mem_found r)
  refine ⟨(Array.getElem?_eq_some_iff.mp added).1, ?_⟩
  rw [value, added]
  rfl

end Store

theorem Redirection.Mirrors.extends {f : Redirection} {cells : List Cell}
    {changed : List ScopeRef} (mirrors : f.Mirrors source cells s) (grown : s.Extends changed s')
    (apart : ∀ r, .scope r ∈ cells → f.scope r ∉ changed) : f.Mirrors source cells s' where
  closed := mirrors.closed
  value r copied := Store.getElem?_eq_some_of_grown grown.values (mirrors.value r copied)
  scope r copied := by
    have there := mirrors.scope r copied
    have inside := (Array.getElem?_eq_some_iff.mp there).1
    have same := grown.scopes _ (apart r copied) inside
    rw [Store.scope, Store.scope, there,
      Array.getElem?_eq_getElem (Nat.lt_of_lt_of_le inside grown.size)] at same
    rw [Array.getElem?_eq_getElem (Nat.lt_of_lt_of_le inside grown.size)]
    exact congrArg some same
  slot r copied := Store.getElem?_eq_some_of_grown grown.slots (mirrors.slot r copied)
  clause r copied := Store.getElem?_eq_some_of_grown grown.clauses (mirrors.clause r copied)
  valueApart := mirrors.valueApart
  scopeApart := mirrors.scopeApart
  slotApart := mirrors.slotApart
  clauseApart := mirrors.clauseApart

/-- The second value is a copy of the first one: what they lead to is the same graph. -/
def IsCopy (source : Store) (r : ValueRef) (s : Store) (r' : ValueRef) : Prop :=
  ∃ (f : Redirection) (cells : List Cell),
    .value r ∈ cells ∧ f.value r = r' ∧ f.Mirrors source cells s

end DreamBerd
