import DreamBerd.Proofs.Indices
import DreamBerd.World.Compare
import Mathlib.Logic.Relation

/-!
# Equality by type and content

`Store.really` goes down two values level by level. One level is described by `Store.Agree`: the values
are of one kind, with the same content, and their elements are related. Values are equal if they agree
and their elements are equal (`Store.reallyIn_eq_yes_iff`), so a relation in which related values agree
relates only values whose comparison cannot end with anything but yes (`Store.yes_of_agree`).

The comparison of finite values does end: on the way down no value comes twice (`Store.within_of_acc`),
so there are fewer levels than the bound allows. From these two facts `Store.really_equivalence` gets
that equality is an equivalence, with the relation of copies, the equality turned around, and two
equalities in a row.
-/

namespace DreamBerd

open List Ledger

variable {α κ : Type} {xs : List α} {t : Truth}

/-! ## Answers -/

namespace Store

section AllYes

variable {f : α → Except Fault Truth}

theorem allYes_eq_yes_iff {ts : List Truth} : allYes ts = .yes ↔ ∀ t ∈ ts, t = .yes := by
  unfold allYes
  cases all : ts.all Truth.isYes with
  | true =>
    simp only [all_eq_true, Truth.isYes, beq_iff_eq] at all
    exact ⟨fun _ => all, fun _ => rfl⟩
  | false =>
    simp only [all_eq_false, Truth.isYes, beq_iff_eq] at all
    obtain ⟨t, member, other⟩ := all
    exact ⟨fun same => absurd same (by decide), fun each => absurd (each t member) other⟩

theorem allYes_eq (ts : List Truth) : allYes ts = .yes ∨ allYes ts = .no := by
  unfold allYes
  cases ts.all Truth.isYes with
  | true => exact .inl rfl
  | false => exact .inr rfl

/-- Whether all answers are yes: the answers that a comparison of several pairs gives. -/
def allOf (f : α → Except Fault Truth) (xs : List α) : Except Fault Truth := do
  return allYes (← xs.mapM f)

theorem allOf_eq_ok (done : allOf f xs = .ok t) : ∃ ts, xs.mapM f = .ok ts ∧ t = allYes ts := by
  obtain ⟨ts, read, ⟨⟩⟩ := bind_eq_ok_iff.mp done
  exact ⟨ts, read, rfl⟩

theorem allOf_eq_yes_iff : allOf f xs = .ok .yes ↔ ∀ x ∈ xs, f x = .ok .yes := by
  constructor
  · intro done x member
    obtain ⟨ts, read, all⟩ := allOf_eq_ok done
    obtain ⟨t, among, gives⟩ := exists_mem_of_mapM read member
    rw [gives, allYes_eq_yes_iff.mp all.symm t among]
  · intro each
    obtain ⟨ts, read⟩ := exists_mapM_eq_ok fun x member => ⟨_, each x member⟩
    have all : allYes ts = .yes := by
      rw [allYes_eq_yes_iff]
      intro t member
      obtain ⟨x, among, gives⟩ := exists_of_mem_mapM read member
      rw [each x among] at gives
      cases gives
      rfl
    unfold allOf
    rw [read]
    exact congrArg Except.ok all

theorem allOf_answers (each : ∀ x ∈ xs, ∃ t, f x = .ok t) :
    allOf f xs = .ok .yes ∨ allOf f xs = .ok .no := by
  obtain ⟨ts, read⟩ := exists_mapM_eq_ok each
  unfold allOf
  rw [read]
  exact (allYes_eq ts).imp (congrArg Except.ok) (congrArg Except.ok)

end AllYes

/-! ## Keys -/

section Keys

variable [BEq κ] [PartialEquivBEq κ] {x y : Ledger κ α}

theorem sameKeys_iff (left : x.Distinct) (right : y.Distinct) :
    sameKeys x y = true ↔ ∀ k, x.contains k = y.contains k := by
  unfold sameKeys
  rw [Bool.and_eq_true, beq_iff_eq, all_eq_true]
  have passed : ∀ {x y : Ledger κ α}, (∀ j ∈ x.keys, y.contains j = true) →
      ∀ k, x.contains k = true → y.contains k = true := by
    intro x y among k there
    obtain ⟨j, member, same⟩ := contains_eq_true_iff.mp there
    rw [Ledger.contains, ← Ledger.get?_congr same]
    exact among j member
  constructor
  · rintro ⟨size, among⟩ k
    rw [Bool.eq_iff_iff]
    exact ⟨passed among k, passed (left.contains_of_size_le among size.ge) k⟩
  · intro same
    have among : ∀ k ∈ x.keys, y.contains k = true := by
      intro k member
      rw [← same, left.contains_of_mem member]
    have back : ∀ k ∈ y.keys, x.contains k = true := by
      intro k member
      rw [same, right.contains_of_mem member]
    exact ⟨le_antisymm (left.size_le among) (right.size_le back), among⟩

end Keys

end Store

def Ledger.Rel {κ α : Type} [BEq κ] (R : α → α → Prop) (x y : Ledger κ α) : Prop :=
  ∀ k, Option.Rel R (x.get? k) (y.get? k)

namespace Store

theorem isSome_eq_of_rel {R : α → α → Prop} {u v : Option α} (pair : Option.Rel R u v) :
    u.isSome = v.isSome := by
  cases pair <;> rfl

theorem rel_iff [BEq κ] [PartialEquivBEq κ] {x y : Ledger κ α} {R : α → α → Prop} (left : x.Distinct)
    (right : y.Distinct) : sameKeys x y = true ∧ (∀ p ∈ x.common y, R p.1 p.2) ↔ x.Rel R y := by
  rw [sameKeys_iff left right]
  constructor
  · rintro ⟨same, each⟩ k
    have found := same k
    unfold Ledger.contains at found
    cases one : x.get? k with
    | none =>
      cases other : y.get? k with
      | none => exact .none
      | some v =>
        rw [one, other] at found
        cases found
    | some u =>
      cases other : y.get? k with
      | none =>
        rw [one, other] at found
        cases found
      | some v => exact .some (each (u, v) (left.mem_common.mpr ⟨k, one, other⟩))
  · intro related
    constructor
    · intro k
      exact isSome_eq_of_rel (related k)
    · rintro ⟨u, v⟩ member
      obtain ⟨k, one, other⟩ := left.mem_common.mp member
      have pair := related k
      rw [one, other] at pair
      cases pair
      assumption

end Store

/-! ## Keys of maps -/

theorem Number.beq_eq_false_of_isNan {m n : Number} (nan : m.isNan = true) : (m == n) = false := by
  cases m with
  | real x =>
    have shape : Binary64.shape x = .nan := eq_of_beq nan
    have nothing : extent? (.real x) = none := by
      rw [extent?, extentOfFloat?, shape]
    cases same : (Number.real x == n) with
    | false => rfl
    | true =>
      rcases beq_iff.mp same with ⟨_, _, other, -⟩ | scalars
      · cases other
      · obtain ⟨e, left, -⟩ := scalarEq_iff.mp scalars
        rw [nothing] at left
        cases left
  | int n | truth b | tuple xs => cases nan

namespace MapKey

variable {k : MapKey}

theorem text_beq_iff {s : String} : (text s == k) = true ↔ k = text s := by
  cases k with
  | text t =>
    show (s == t) = true ↔ _
    rw [beq_iff_eq, MapKey.text.injEq, eq_comm]
  | number n => constructor <;> intro same <;> cases same

theorem number_beq_iff {m : Number} : (number m == k) = true ↔
    ∃ n, k = number n ∧ ((m == n) = true ∨ m.isNan = true ∧ n.isNan = true) := by
  cases k with
  | text t =>
    constructor
    · intro same
      cases same
    · rintro ⟨_, same, -⟩
      cases same
  | number n =>
    show (m == n || (m.isNan && n.isNan)) = true ↔ _
    simp

instance : PartialEquivBEq MapKey where
  symm := by
    intro j k same
    cases j with
    | text s =>
      rw [text_beq_iff.mp same]
      exact text_beq_iff.mpr rfl
    | number m =>
      obtain ⟨n, rfl, equal⟩ := number_beq_iff.mp same
      exact number_beq_iff.mpr ⟨m, rfl, equal.imp BEq.symm And.symm⟩
  trans := by
    intro i j k first second
    cases i with
    | text s =>
      rwa [text_beq_iff.mp first] at second
    | number l =>
      obtain ⟨m, rfl, left⟩ := number_beq_iff.mp first
      obtain ⟨n, rfl, right⟩ := number_beq_iff.mp second
      refine number_beq_iff.mpr ⟨n, rfl, ?_⟩
      rcases left with equal | ⟨nan, nan'⟩
      · rcases right with equal' | ⟨nan, -⟩
        · exact .inl (BEq.trans equal equal')
        · cases (Number.beq_eq_false_of_isNan nan).symm.trans (BEq.symm equal)
      · rcases right with equal | ⟨-, nan''⟩
        · cases (Number.beq_eq_false_of_isNan nan').symm.trans equal
        · exact .inr ⟨nan, nan''⟩

end MapKey

/-! ## Values and what they are built from -/

inductive Ordinary (s : Store) : Value → Prop
  | number (n : Number) : Ordinary s (.number n)
  | string (row : CharRow) (members : ScopeRef) : Ordinary s (.string row members)
  | boolean (t : Truth) : Ordinary s (.boolean t)
  | undefined : Ordinary s .undefined
  | keyword (word : String) : Ordinary s (.keyword word)
  | list (row : Row ValueRef) (members : ScopeRef) : Ordinary s (.list row members)
  | map {entries : Ledger MapKey ValueRef} : entries.Distinct → Ordinary s (.map entries)
  | object (name : String) {members : ScopeRef} :
    (s.scope members).Distinct → Ordinary s (.object name members)

namespace Store

variable {k : Nat} {v w : Value} {C : ValueRef → ValueRef → Prop} {r : ValueRef}

def elements (s : Store) : Value → List ValueRef
  | .list row _ => row.items
  | .map entries => entries.entries.map (·.2)
  | .object _ members => (s.scope members).entries.filterMap fun e => (s.entryValue e.2).toOption
  | _ => []

def Inside (s : Store) (x a : ValueRef) : Prop := x ∈ s.elements (s.value a)

/-- A value is built from another one, at any depth. -/
def Holds (s : Store) (a x : ValueRef) : Prop := Relation.ReflTransGen s.Inside x a

/-- A value has at most the given number of levels below it. -/
def Within (s : Store) : Nat → ValueRef → Prop
  | 0, a => ∀ x, ¬s.Inside x a
  | n + 1, a => ∀ x, s.Inside x a → s.Within n x

variable {s : Store} {a b x : ValueRef}

theorem lt_size_of_inside (inside : s.Inside x a) : a.index < s.values.size := by
  by_contra outside
  rw [Inside, value, Array.getElem?_eq_none (Nat.le_of_not_lt outside)] at inside
  cases inside

theorem not_transGen_self (finite : Acc s.Inside a) : ¬Relation.TransGen s.Inside a a := by
  have deep := finite.transGen
  induction deep with
  | intro a _ ih =>
    intro loop
    exact ih a loop (finite.inv_of_transGen loop) loop

theorem within_of_acc (finite : Acc s.Inside a) :
    ∀ (seen : List ValueRef) (n : Nat), (seen.map ValueRef.index).Nodup →
      (∀ x ∈ seen, x.index < s.values.size) → (∀ x ∈ seen, Relation.TransGen s.Inside a x) →
      s.values.size ≤ n + seen.length → s.Within n a := by
  induction finite with
  | intro a below ih =>
    intro seen n once known above bound
    have loopless := not_transGen_self (.intro a below)
    have longer : ∀ x, s.Inside x a → ((a :: seen).map ValueRef.index).Nodup ∧
        seen.length < s.values.size := by
      intro x inside
      have new : a.index ∉ seen.map ValueRef.index := by
        intro member
        obtain ⟨y, among, same⟩ := mem_map.mp member
        have twice : y = a := by
          cases y
          cases same
          rfl
        exact loopless (twice ▸ above y among)
      have nodup : ((a :: seen).map ValueRef.index).Nodup := nodup_cons.mpr ⟨new, once⟩
      have subset : (a :: seen).map ValueRef.index ⊆ List.range s.values.size := by
        intro i member
        obtain ⟨y, among, rfl⟩ := mem_map.mp member
        rw [mem_range]
        rcases mem_cons.mp among with rfl | old
        · exact lt_size_of_inside inside
        · exact known y old
      have short := (subperm_of_subset nodup subset).length_le
      rw [length_map, length_range] at short
      exact ⟨nodup, short⟩
    cases n with
    | zero =>
      intro x inside
      have room := (longer x inside).2
      omega
    | succ n =>
      intro x inside
      refine ih x inside (a :: seen) n (longer x inside).1 ?_ ?_ ?_
      · intro y among
        rcases mem_cons.mp among with rfl | old
        · exact lt_size_of_inside inside
        · exact known y old
      · intro y among
        rcases mem_cons.mp among with rfl | old
        · exact .single inside
        · exact .head inside (above y old)
      · rw [length_cons]
        omega

/-! ## One level of the comparison -/

def OfEntries (s : Store) (R : ValueRef → ValueRef → Prop) (e e' : Entry) : Prop :=
  ∃ u v, s.entryValue e = .ok u ∧ s.entryValue e' = .ok v ∧ R u v

section Members

variable {x y : ScopeRef} {f : ValueRef × ValueRef → Except Fault Truth} {p : Entry × Entry}
  {q : ValueRef × ValueRef}

def valuesOf (s : Store) (p : Entry × Entry) : Except Fault (ValueRef × ValueRef) := do
  return (← s.entryValue p.1, ← s.entryValue p.2)

theorem commonMembers_eq : s.commonMembers x y = ((s.scope x).common (s.scope y)).mapM s.valuesOf := rfl

theorem valuesOf_eq_ok_iff :
    s.valuesOf p = .ok q ↔ s.entryValue p.1 = .ok q.1 ∧ s.entryValue p.2 = .ok q.2 := by
  constructor
  · intro gives
    obtain ⟨u, left, gives⟩ := bind_eq_ok_iff.mp gives
    obtain ⟨v, right, ⟨⟩⟩ := bind_eq_ok_iff.mp gives
    exact ⟨left, right⟩
  · rintro ⟨left, right⟩
    rw [valuesOf, left, right]
    rfl

theorem OfEntries.of_valuesOf {R : ValueRef → ValueRef → Prop} (related : s.OfEntries R p.1 p.2)
    (gives : s.valuesOf p = .ok q) : R q.1 q.2 := by
  obtain ⟨u, v, left, right, pair⟩ := related
  obtain ⟨left', right'⟩ := valuesOf_eq_ok_iff.mp gives
  rwa [← Except.ok.inj (left.symm.trans left'), ← Except.ok.inj (right.symm.trans right')]

theorem commonMembers_iff {R : ValueRef → ValueRef → Prop} :
    (∃ qs, s.commonMembers x y = .ok qs ∧ ∀ q ∈ qs, R q.1 q.2) ↔
      ∀ p ∈ (s.scope x).common (s.scope y), s.OfEntries R p.1 p.2 := by
  constructor
  · rintro ⟨qs, read, each⟩ p member
    obtain ⟨q, among, gives⟩ := exists_mem_of_mapM read member
    obtain ⟨left, right⟩ := valuesOf_eq_ok_iff.mp gives
    exact ⟨q.1, q.2, left, right, each q among⟩
  · intro each
    have found : ∀ p ∈ (s.scope x).common (s.scope y), ∃ q, s.valuesOf p = .ok q := by
      intro p member
      obtain ⟨u, v, left, right, -⟩ := each p member
      exact ⟨(u, v), valuesOf_eq_ok_iff.mpr ⟨left, right⟩⟩
    obtain ⟨qs, read⟩ := exists_mapM_eq_ok found
    refine ⟨qs, read, fun q member => ?_⟩
    obtain ⟨p, among, gives⟩ := exists_of_mem_mapM read member
    exact (each p among).of_valuesOf gives

theorem allOf_members_eq_yes_iff :
    (do allOf f (← s.commonMembers x y)) = .ok .yes ↔
      ∀ p ∈ (s.scope x).common (s.scope y),
        s.OfEntries (fun u v => f (u, v) = .ok .yes) p.1 p.2 := by
  rw [← commonMembers_iff, bind_eq_ok_iff]
  exact exists_congr fun qs => and_congr Iff.rfl allOf_eq_yes_iff

end Members

/-- Two values agree by type and content if their elements are related. -/
inductive Agree (s : Store) (R : ValueRef → ValueRef → Prop) : Value → Value → Prop
  | number {m n : Number} : (m == n) = true → Agree s R (.number m) (.number n)
  | string {x y : CharRow} (m m' : ScopeRef) :
    x.chars = y.chars → Agree s R (.string x m) (.string y m')
  | boolean (t : Truth) : Agree s R (.boolean t) (.boolean t)
  | undefined : Agree s R .undefined .undefined
  | keyword (word : String) : Agree s R (.keyword word) (.keyword word)
  | list {x y : Row ValueRef} (m m' : ScopeRef) :
    List.Forall₂ R x.items y.items → Agree s R (.list x m) (.list y m')
  | map {x y : Ledger MapKey ValueRef} : x.Rel R y → Agree s R (.map x) (.map y)
  | object (name : String) {x y : ScopeRef} :
    (s.scope x).Rel (s.OfEntries R) (s.scope y) → Agree s R (.object name x) (.object name y)

theorem ofBool_eq_yes_iff {b : Bool} : Truth.ofBool b = .yes ↔ b = true := by
  cases b <;> simp [Truth.ofBool]

def sameContent (s : Store) : Value → Value → Bool
  | .number m, .number n => m == n
  | .string x _, .string y _ => x.chars == y.chars
  | .boolean t, .boolean u => t == u
  | .undefined, .undefined => true
  | .keyword v, .keyword w => v == w
  | .list x _, .list y _ => x.items.length == y.items.length
  | .map x, .map y => sameKeys x y
  | .object n x, .object m y => n == m && sameKeys (s.scope x) (s.scope y)
  | _, _ => false

def elementPairs (s : Store) : Value → Value → Except Fault (List (ValueRef × ValueRef))
  | .list x _, .list y _ => .ok (x.items.zip y.items)
  | .map x, .map y => .ok (x.common y)
  | .object _ x, .object _ y => s.commonMembers x y
  | _, _ => .ok []

theorem mem_elements_of_mem_elementPairs {ps : List (ValueRef × ValueRef)} {p : ValueRef × ValueRef}
    (pairs : s.elementPairs v w = .ok ps) (member : p ∈ ps) :
    p.1 ∈ s.elements v ∧ p.2 ∈ s.elements w := by
  unfold elementPairs at pairs
  split at pairs
  · cases pairs
    exact of_mem_zip member
  · cases pairs
    obtain ⟨⟨i, left⟩, j, right⟩ := exists_mem_of_mem_common member
    exact ⟨mem_map.mpr ⟨_, left, rfl⟩, mem_map.mpr ⟨_, right, rfl⟩⟩
  · obtain ⟨q, among, gives⟩ := exists_of_mem_mapM (commonMembers_eq.symm.trans pairs) member
    obtain ⟨one, other⟩ := valuesOf_eq_ok_iff.mp gives
    obtain ⟨⟨i, left⟩, j, right⟩ := exists_mem_of_mem_common among
    exact ⟨mem_filterMap.mpr ⟨_, left, by rw [one]; rfl⟩,
      mem_filterMap.mpr ⟨_, right, by rw [other]; rfl⟩⟩
  · cases pairs
    cases member

theorem reallyIn_succ (left : Ordinary s (s.value a)) (right : Ordinary s (s.value b)) :
    s.reallyIn (k + 1) a b =
      if s.sameContent (s.value a) (s.value b) then do
        allOf (fun p => s.reallyIn k p.1 p.2) (← s.elementPairs (s.value a) (s.value b))
      else .ok .no := by
  show s.reallyInside (fun p => s.reallyIn k p.1 p.2) _ _ = _
  generalize s.value a = v, s.value b = w at left right
  cases left <;> cases right
  case number.number x y | keyword.keyword x y =>
    show Except.ok (Truth.ofBool (x == y)) = if x == y then _ else _
    cases x == y <;> rfl
  case string.string x _ y _ =>
    show Except.ok (Truth.ofBool (x.chars == y.chars)) = if x.chars == y.chars then _ else _
    cases x.chars == y.chars <;> rfl
  case boolean.boolean t u => cases t <;> cases u <;> rfl
  all_goals rfl

theorem agree_iff {R : ValueRef → ValueRef → Prop} (left : Ordinary s v) (right : Ordinary s w) :
    Agree s R v w ↔
      s.sameContent v w = true ∧ ∃ ps, s.elementPairs v w = .ok ps ∧ ∀ p ∈ ps, R p.1 p.2 := by
  constructor
  · intro agree
    cases agree with
    | number same => exact ⟨same, [], rfl, by simp⟩
    | string m m' same => exact ⟨beq_iff_eq.mpr same, [], rfl, by simp⟩
    | boolean t => exact ⟨beq_self_eq_true t, [], rfl, by simp⟩
    | undefined => exact ⟨rfl, [], rfl, by simp⟩
    | keyword word => exact ⟨beq_self_eq_true word, [], rfl, by simp⟩
    | list m m' items =>
      obtain ⟨length, each⟩ := List.forall₂_iff_zip.mp items
      exact ⟨beq_iff_eq.mpr length, _, rfl, fun p member => each member⟩
    | map entries =>
      cases left with
      | map one =>
        cases right with
        | map other =>
          obtain ⟨keys, each⟩ := (rel_iff one other).mpr entries
          exact ⟨keys, _, rfl, each⟩
    | object name members =>
      cases left with
      | object _ one =>
        cases right with
        | object _ other =>
          obtain ⟨keys, each⟩ := (rel_iff one other).mpr members
          refine ⟨?_, commonMembers_iff.mpr each⟩
          rw [sameContent, beq_self_eq_true, keys]
          rfl
  · rintro ⟨content, ps, pairs, each⟩
    cases left <;> cases right
    case number.number => exact .number content
    case string.string => exact .string _ _ (eq_of_beq content)
    case boolean.boolean => exact eq_of_beq content ▸ .boolean _
    case undefined.undefined => exact .undefined
    case keyword.keyword => exact eq_of_beq content ▸ .keyword _
    case list.list =>
      cases pairs
      exact .list _ _ (List.forall₂_iff_zip.mpr ⟨eq_of_beq content, fun member => each _ member⟩)
    case map.map one _ other =>
      cases pairs
      exact .map ((rel_iff one other).mp ⟨content, each⟩)
    case object.object n _ one m _ other =>
      obtain ⟨name, keys⟩ := Bool.and_eq_true_iff.mp content
      rw [← eq_of_beq name]
      exact .object n ((rel_iff one other).mp ⟨keys, commonMembers_iff.mp ⟨ps, pairs, each⟩⟩)
    all_goals cases content

theorem reallyIn_eq_yes_iff (left : Ordinary s (s.value a)) (right : Ordinary s (s.value b)) :
    s.reallyIn (k + 1) a b = .ok .yes ↔
      Agree s (fun x y => s.reallyIn k x y = .ok .yes) (s.value a) (s.value b) := by
  rw [reallyIn_succ left right, agree_iff left right]
  cases s.sameContent (s.value a) (s.value b) with
  | false => simp
  | true =>
    rw [if_pos rfl, bind_eq_ok_iff, and_iff_right rfl]
    exact exists_congr fun ps => and_congr Iff.rfl allOf_eq_yes_iff

/-! ## Related elements -/

section Related

variable [BEq κ] {R R' : α → α → Prop} {x y z : Ledger κ α}

theorem rel_imp {u v : Option α} (pair : Option.Rel R u v) (weaker : ∀ a b, R a b → R' a b) :
    Option.Rel R' u v := by
  cases pair with
  | some related => exact .some (weaker _ _ related)
  | none => exact .none

theorem rel_swap {u v : Option α} (pair : Option.Rel R u v) : Option.Rel (fun a b => R b a) v u := by
  cases pair with
  | some related => exact .some related
  | none => exact .none

theorem rel_comp {u v w : Option α} (first : Option.Rel R u v) (second : Option.Rel R' v w) :
    Option.Rel (Relation.Comp R R') u w := by
  cases first with
  | some related =>
    cases second with
    | some related' => exact .some ⟨_, related, related'⟩
  | none =>
    cases second with
    | none => exact .none

theorem forall₂_comp {as bs cs : List α} (first : List.Forall₂ R as bs)
    (second : List.Forall₂ R' bs cs) : List.Forall₂ (Relation.Comp R R') as cs := by
  induction first generalizing cs with
  | nil =>
    cases second
    exact .nil
  | cons related _ ih =>
    cases second with
    | cons related' rest => exact .cons ⟨_, related, related'⟩ (ih rest)

end Related

namespace Agree

variable {R R' : ValueRef → ValueRef → Prop} {u : Value}

theorem imp (left : Ordinary s v) (right : Ordinary s w) (agree : Agree s R v w)
    (weaker : ∀ x y, x ∈ s.elements v → y ∈ s.elements w → R x y → R' x y) : Agree s R' v w := by
  obtain ⟨content, ps, pairs, each⟩ := (agree_iff left right).mp agree
  refine (agree_iff left right).mpr ⟨content, ps, pairs, fun p member => ?_⟩
  obtain ⟨inLeft, inRight⟩ := mem_elements_of_mem_elementPairs pairs member
  exact weaker p.1 p.2 inLeft inRight (each p member)

theorem swap (agree : Agree s R v w) : Agree s (fun x y => R y x) w v := by
  cases agree with
  | number same => exact .number (BEq.symm same)
  | string m m' same => exact .string m' m same.symm
  | boolean t => exact .boolean t
  | undefined => exact .undefined
  | keyword word => exact .keyword word
  | list m m' items => exact .list m' m items.flip
  | map entries => exact .map fun k => rel_swap (entries k)
  | object name members =>
    refine .object name fun k => rel_imp (rel_swap (members k)) ?_
    rintro e e' ⟨x, y, left, right, related⟩
    exact ⟨y, x, right, left, related⟩

theorem comp (first : Agree s R u v) (second : Agree s R' v w) : Agree s (Relation.Comp R R') u w := by
  cases first with
  | number same =>
    cases second with
    | number same' => exact .number (BEq.trans same same')
  | string m _ same =>
    cases second with
    | string _ m' same' => exact .string m m' (same.trans same')
  | boolean t =>
    cases second with
    | boolean => exact .boolean t
  | undefined =>
    cases second with
    | undefined => exact .undefined
  | keyword word =>
    cases second with
    | keyword => exact .keyword word
  | list m _ items =>
    cases second with
    | list _ m' items' => exact .list m m' (forall₂_comp items items')
  | map entries =>
    cases second with
    | map entries' => exact .map fun k => rel_comp (entries k) (entries' k)
  | object name members =>
    cases second with
    | object _ members' =>
      refine .object name fun k => rel_imp (rel_comp (members k) (members' k)) ?_
      rintro e e' ⟨e'', ⟨x, y, left, middle, related⟩, y', z, middle', right, related'⟩
      rw [middle] at middle'
      cases middle'
      exact ⟨x, z, left, right, y, related, related'⟩

end Agree

/-! ## Copies -/

/-- Two values are the same, up to what they are built from. -/
inductive Alike (s : Store) (C : ValueRef → ValueRef → Prop) : Value → Value → Prop
  | number (n : Number) : Alike s C (.number n) (.number n)
  | string (row : CharRow) (m m' : ScopeRef) : Alike s C (.string row m) (.string row m')
  | boolean (t : Truth) : Alike s C (.boolean t) (.boolean t)
  | undefined : Alike s C .undefined .undefined
  | keyword (word : String) : Alike s C (.keyword word) (.keyword word)
  | list {x y : Row ValueRef} (m m' : ScopeRef) : x.places = y.places →
    List.Forall₂ C x.items y.items → Alike s C (.list x m) (.list y m')
  | map {x y : Ledger MapKey ValueRef} :
    List.Forall₂ (fun e e' => e.1 = e'.1 ∧ C e.2 e'.2) x.entries y.entries →
    Alike s C (.map x) (.map y)
  | object (name : String) {x y : ScopeRef} :
    List.Forall₂ (fun e e' => e.1 = e'.1 ∧ s.OfEntries C e.2 e'.2) (s.scope x).entries
      (s.scope y).entries →
    Alike s C (.object name x) (.object name y)

/-- Two values are structurally identical: they are paired, and values that are paired are the same up
to what they are built from, which is paired again. -/
def IsCopy (s : Store) (a b : ValueRef) : Prop :=
  ∃ C : ValueRef → ValueRef → Prop, C a b ∧ ∀ x y, C x y → Alike s C (s.value x) (s.value y)

theorem rel_of_forall₂ [BEq κ] {R : α → α → Prop} {x y : Ledger κ α}
    (entries : List.Forall₂ (fun e e' => e.1 = e'.1 ∧ R e.2 e'.2) x.entries y.entries) : x.Rel R y := by
  intro k
  obtain ⟨xs⟩ := x
  obtain ⟨ys⟩ := y
  show Option.Rel R (find k xs) (find k ys)
  change List.Forall₂ _ xs ys at entries
  induction entries with
  | nil => exact .none
  | cons one _ ih =>
    rw [find, find, one.1]
    split
    · exact .some one.2
    · exact ih

theorem allOf_yes_of_each {f : α → Except Fault Truth} (done : allOf f xs = .ok t)
    (each : ∀ x ∈ xs, ∀ u, f x = .ok u → u = .yes) : t = .yes := by
  obtain ⟨ts, read, rfl⟩ := allOf_eq_ok done
  refine allYes_eq_yes_iff.mpr fun u member => ?_
  obtain ⟨x, among, gives⟩ := exists_of_mem_mapM read member
  exact each x among u gives

theorem yes_of_agree (closed : ∀ x y, C x y →
      Ordinary s (s.value x) ∧ Ordinary s (s.value y) ∧ Agree s C (s.value x) (s.value y))
    (pair : C a b) (done : s.reallyIn k a b = .ok t) : t = .yes := by
  induction k generalizing a b t with
  | zero => cases done
  | succ k ih =>
    obtain ⟨left, right, agree⟩ := closed a b pair
    obtain ⟨content, ps, pairs, each⟩ := (agree_iff left right).mp agree
    rw [reallyIn_succ left right, if_pos content, pairs] at done
    exact allOf_yes_of_each done fun p member u gives => ih (each p member) gives

/-! ## Plain values -/

/-- A finite value that is built from values that are compared by content, in which every number equals
itself, as all do but the one that is none, and every name of an object stands for a value. -/
structure Plain (s : Store) (a : ValueRef) : Prop where
  finite : Acc s.Inside a
  ordinary : ∀ x, s.Holds a x → Ordinary s (s.value x)
  numbers : ∀ x n, s.Holds a x → s.value x = .number n → (n == n) = true
  named : ∀ x name members, s.Holds a x → s.value x = .object name members →
    ∀ e ∈ (s.scope members).entries, ∃ v, s.entryValue e.2 = .ok v

namespace Plain

theorem inside (plain : Plain s a) (below : s.Inside x a) : Plain s x where
  finite := plain.finite.inv below
  ordinary y holds := plain.ordinary y (holds.tail below)
  numbers y n holds := plain.numbers y n (holds.tail below)
  named y name members holds := plain.named y name members (holds.tail below)

theorem of_elements (ordinary : Ordinary s (s.value a))
    (number : ∀ n, s.value a = .number n → (n == n) = true)
    (named : ∀ name members, s.value a = .object name members →
      ∀ e ∈ (s.scope members).entries, ∃ v, s.entryValue e.2 = .ok v)
    (elements : ∀ x, s.Inside x a → Plain s x) : Plain s a := by
  have cases : ∀ x, s.Holds a x → x = a ∨ ∃ y, Plain s y ∧ s.Holds y x := by
    intro x holds
    rcases Relation.ReflTransGen.cases_tail holds with same | ⟨y, holds, below⟩
    · exact .inl same.symm
    · exact .inr ⟨y, elements y below, holds⟩
  refine ⟨.intro a fun x below => (elements x below).finite, ?_, ?_, ?_⟩
  · intro x holds
    rcases cases x holds with rfl | ⟨y, plain, holds⟩
    · exact ordinary
    · exact plain.ordinary x holds
  · intro x n holds
    rcases cases x holds with rfl | ⟨y, plain, holds⟩
    · exact number n
    · exact plain.numbers x n holds
  · intro x name members holds
    rcases cases x holds with rfl | ⟨y, plain, holds⟩
    · exact named name members
    · exact plain.named x name members holds

theorem within (plain : Plain s a) : s.Within s.values.size a :=
  within_of_acc plain.finite [] s.values.size nodup_nil (by simp) (by simp) (Nat.le_add_right _ _)

end Plain

theorem Plain.exists_elementPairs (left : Plain s a) (right : Plain s b) :
    ∃ ps, s.elementPairs (s.value a) (s.value b) = .ok ps := by
  unfold elementPairs
  split
  · exact ⟨_, rfl⟩
  · exact ⟨_, rfl⟩
  · rename_i n x m y va vb
    refine exists_mapM_eq_ok fun p member => ?_
    obtain ⟨⟨i, inLeft⟩, j, inRight⟩ := exists_mem_of_mem_common member
    obtain ⟨u, gives⟩ := left.named a n x .refl va _ inLeft
    obtain ⟨v, gives'⟩ := right.named b m y .refl vb _ inRight
    exact ⟨(u, v), valuesOf_eq_ok_iff.mpr ⟨gives, gives'⟩⟩
  · exact ⟨_, rfl⟩

theorem reallyIn_answers_step (left : Plain s a) (right : Plain s b)
    (each : ∀ x y, s.Inside x a → s.Inside y b → ∃ t, s.reallyIn k x y = .ok t) :
    s.reallyIn (k + 1) a b = .ok .yes ∨ s.reallyIn (k + 1) a b = .ok .no := by
  rw [reallyIn_succ (left.ordinary a .refl) (right.ordinary b .refl)]
  split
  · obtain ⟨ps, pairs⟩ := left.exists_elementPairs right
    rw [pairs]
    refine allOf_answers fun p member => ?_
    obtain ⟨inLeft, inRight⟩ := mem_elements_of_mem_elementPairs pairs member
    exact each p.1 p.2 inLeft inRight
  · exact .inr rfl

theorem reallyIn_answers (deep : s.Within n a) (fuel : n < k) (left : Plain s a)
    (right : Plain s b) : s.reallyIn k a b = .ok .yes ∨ s.reallyIn k a b = .ok .no := by
  induction n generalizing a b k with
  | zero =>
    obtain ⟨k, rfl⟩ := Nat.exists_eq_add_of_lt fuel
    exact reallyIn_answers_step left right fun x _ below => absurd below (deep x)
  | succ n ih =>
    obtain ⟨k, rfl⟩ : ∃ k', k = k' + 1 := ⟨k - 1, by omega⟩
    refine reallyIn_answers_step left right fun x y below below' => ?_
    rcases ih (k := k) (deep x below) (by omega) (left.inside below) (right.inside below') with yes | no
    · exact ⟨_, yes⟩
    · exact ⟨_, no⟩

theorem really_answers (left : Plain s a) (right : Plain s b) :
    s.really a b = .ok .yes ∨ s.really a b = .ok .no :=
  reallyIn_answers left.within (by unfold extent; omega) left right

theorem really_of_agree
    (closed : ∀ x y, C x y → Plain s x ∧ Plain s y ∧ Agree s C (s.value x) (s.value y))
    (pair : C a b) : s.really a b = .ok .yes := by
  obtain ⟨left, right, -⟩ := closed a b pair
  rcases really_answers left right with yes | no
  · exact yes
  · have ordinary : ∀ x y, C x y →
        Ordinary s (s.value x) ∧ Ordinary s (s.value y) ∧ Agree s C (s.value x) (s.value y) := by
      intro x y related
      obtain ⟨one, other, agree⟩ := closed x y related
      exact ⟨one.ordinary x .refl, other.ordinary y .refl, agree⟩
    cases yes_of_agree ordinary pair no

def Same (s : Store) (a b : ValueRef) : Prop :=
  Plain s a ∧ Plain s b ∧ ∃ k, s.reallyIn k a b = .ok .yes

theorem Same.agree (same : Same s a b) : Agree s (Same s) (s.value a) (s.value b) := by
  obtain ⟨left, right, k, yes⟩ := same
  cases k with
  | zero => cases yes
  | succ k =>
    have agree := (reallyIn_eq_yes_iff (left.ordinary a .refl) (right.ordinary b .refl)).mp yes
    refine agree.imp (left.ordinary a .refl) (right.ordinary b .refl) fun x y below below' yes => ?_
    exact ⟨left.inside below, right.inside below', k, yes⟩

theorem Same.symm (same : Same s a b) : s.really b a = .ok .yes := by
  refine really_of_agree (C := fun x y => Same s y x) (fun x y related => ?_) same
  exact ⟨related.2.1, related.1, related.agree.swap⟩

theorem Same.trans (first : Same s a b) (second : Same s b c) : s.really a c = .ok .yes := by
  refine really_of_agree (C := Relation.Comp (Same s) (Same s)) (fun x z related => ?_)
    ⟨b, first, second⟩
  obtain ⟨y, one, other⟩ := related
  exact ⟨one.1, other.2.1, one.agree.comp other.agree⟩

theorem Alike.agree (alike : Alike s C v w) (number : ∀ n, v = .number n → (n == n) = true) :
    Agree s C v w := by
  cases alike with
  | number n => exact .number (number n rfl)
  | string row m m' => exact .string m m' rfl
  | boolean t => exact .boolean t
  | undefined => exact .undefined
  | keyword word => exact .keyword word
  | list m m' _ items => exact .list m m' items
  | map entries => exact .map (rel_of_forall₂ entries)
  | object name members => exact .object name (rel_of_forall₂ members)

theorem really_of_isCopy (left : Plain s a) (right : Plain s b) (copy : IsCopy s a b) :
    s.really a b = .ok .yes := by
  obtain ⟨C, pair, alike⟩ := copy
  refine really_of_agree (C := fun x y => Plain s x ∧ Plain s y ∧ C x y) ?_ ⟨left, right, pair⟩
  rintro x y ⟨one, other, related⟩
  refine ⟨one, other, ?_⟩
  have agree := (alike x y related).agree fun n => one.numbers x n .refl
  refine agree.imp (one.ordinary x .refl) (other.ordinary y .refl) fun _ _ below below' related => ?_
  exact ⟨one.inside below, other.inside below', related⟩

/-- Equality by type and content is an equivalence of plain values: it is always certain, holds between
values that are structurally identical, and is symmetric and transitive. -/
theorem really_equivalence (s : Store) :
    (∀ a b, Plain s a → Plain s b → s.really a b = .ok .yes ∨ s.really a b = .ok .no) ∧
    (∀ a b, Plain s a → Plain s b → IsCopy s a b → s.really a b = .ok .yes) ∧
    (∀ a b, Plain s a → Plain s b → s.really a b = s.really b a) ∧
    (∀ a b c, Plain s a → Plain s b → Plain s c → s.really a b = .ok .yes →
      s.really b c = .ok .yes → s.really a c = .ok .yes) := by
  refine ⟨fun a b => really_answers, fun a b => really_of_isCopy, fun a b left right => ?_,
    fun a b c left middle right first second => ?_⟩
  · have turned : ∀ {x y}, Plain s x → Plain s y → s.really x y = .ok .yes →
        s.really y x = .ok .yes := fun one other yes => Same.symm ⟨one, other, _, yes⟩
    rcases really_answers left right with yes | no
    · rw [yes, turned left right yes]
    · rcases really_answers right left with yes' | no'
      · rw [turned right left yes', yes']
      · rw [no, no']
  · exact Same.trans ⟨left, middle, _, first⟩ ⟨middle, right, _, second⟩

/-- A store with two lists of maps that have equal numbers as keys and values, in different spelling and
order, and a third list with the first map. -/
def nestedStore : Store :=
  { empty with
    values := #[.number (.int 1), .number (.real 1.0), .boolean .maybe,
      .map ⟨[(.text "x", ⟨0⟩), (.number (.int 2), ⟨2⟩)]⟩,
      .map ⟨[(.number (.real 2.0), ⟨2⟩), (.text "x", ⟨1⟩)]⟩,
      .list (.ofList [⟨3⟩]) ⟨0⟩, .list (.ofList [⟨4⟩]) ⟨0⟩, .list (.ofList [⟨3⟩]) ⟨0⟩] }

theorem plain_of_nestedStore_list {members : ScopeRef}
    (list : nestedStore.value r = .list (.ofList [m]) members) (plain : Plain nestedStore m) :
    Plain nestedStore r := by
  refine .of_elements (list ▸ .list _ _) (by simp [list]) (by simp [list]) fun x below => ?_
  rw [Inside, list] at below
  rwa [mem_singleton.mp below]

theorem plain_of_nestedStore_map {u v : ValueRef} {j k : MapKey}
    (map : nestedStore.value r = .map ⟨[(j, u), (k, v)]⟩)
    (distinct : Distinct (⟨[(j, u), (k, v)]⟩ : Ledger MapKey ValueRef))
    (one : Plain nestedStore u) (other : Plain nestedStore v) : Plain nestedStore r := by
  refine .of_elements (map ▸ .map distinct) (by simp [map]) (by simp [map]) fun x below => ?_
  rw [Inside, map] at below
  rcases mem_cons.mp below with rfl | below
  · exact one
  · rwa [mem_singleton.mp below]

theorem nestedStore_plain : Plain nestedStore ⟨5⟩ ∧ Plain nestedStore ⟨6⟩ ∧ Plain nestedStore ⟨7⟩ := by
  have numbers : ∀ r, r = ⟨0⟩ ∨ r = ⟨1⟩ ∨ r = ⟨2⟩ → Plain nestedStore r := by
    rintro r (rfl | rfl | rfl)
    · refine .of_elements (.number (.int 1)) (fun n same => ?_) (by simp [nestedStore, value]) ?_
      · cases same
        decide
      · simp [Inside, nestedStore, value, elements]
    · refine .of_elements (.number (.real 1.0)) (fun n same => ?_) (by simp [nestedStore, value]) ?_
      · cases same
        decide
      · simp [Inside, nestedStore, value, elements]
    · exact .of_elements (.boolean .maybe) (by simp [nestedStore, value])
        (by simp [nestedStore, value]) (by simp [Inside, nestedStore, value, elements])
  have first : Plain nestedStore ⟨3⟩ := plain_of_nestedStore_map rfl
    ⟨by decide, by decide⟩ (numbers _ (.inl rfl)) (numbers _ (.inr (.inr rfl)))
  have second : Plain nestedStore ⟨4⟩ := plain_of_nestedStore_map rfl
    ⟨by decide, by decide⟩ (numbers _ (.inr (.inr rfl))) (numbers _ (.inr (.inl rfl)))
  exact ⟨plain_of_nestedStore_list rfl first, plain_of_nestedStore_list rfl second,
    plain_of_nestedStore_list rfl first⟩

theorem nestedStore_isCopy : IsCopy nestedStore ⟨7⟩ ⟨5⟩ := by
  refine ⟨fun x y => (x = y ∧ x.index < 5) ∨ (x = ⟨7⟩ ∧ y = ⟨5⟩), .inr ⟨rfl, rfl⟩, ?_⟩
  rintro x y (⟨rfl, inside⟩ | ⟨rfl, rfl⟩)
  · obtain ⟨i⟩ := x
    have kept : i = 0 ∨ i = 1 ∨ i = 2 ∨ i = 3 ∨ i = 4 := by
      simp only at inside
      omega
    rcases kept with rfl | rfl | rfl | rfl | rfl
    · exact .number _
    · exact .number _
    · exact .boolean _
    · exact .map (.cons ⟨rfl, .inl ⟨rfl, by decide⟩⟩ (.cons ⟨rfl, .inl ⟨rfl, by decide⟩⟩ .nil))
    · exact .map (.cons ⟨rfl, .inl ⟨rfl, by decide⟩⟩ (.cons ⟨rfl, .inl ⟨rfl, by decide⟩⟩ .nil))
  · exact .list _ _ rfl (.cons (.inl ⟨rfl, by decide⟩) .nil)

/-- A list equals its copy and a list that spells its elements differently, in both directions. -/
theorem really_equivalence_nested :
    (Plain nestedStore ⟨5⟩ ∧ Plain nestedStore ⟨6⟩ ∧ Plain nestedStore ⟨7⟩) ∧
    IsCopy nestedStore ⟨7⟩ ⟨5⟩ ∧ nestedStore.really ⟨7⟩ ⟨5⟩ = .ok .yes ∧
    nestedStore.really ⟨5⟩ ⟨6⟩ = .ok .yes ∧ nestedStore.really ⟨6⟩ ⟨5⟩ = .ok .yes ∧
    nestedStore.really ⟨7⟩ ⟨6⟩ = .ok .yes := by
  obtain ⟨-, reflexive, symmetric, transitive⟩ := really_equivalence nestedStore
  obtain ⟨five, six, seven⟩ := nestedStore_plain
  have copied := reflexive _ _ seven five nestedStore_isCopy
  have spelled : nestedStore.really ⟨5⟩ ⟨6⟩ = .ok .yes := by decide
  exact ⟨⟨five, six, seven⟩, nestedStore_isCopy, copied, spelled,
    (symmetric _ _ six five).trans spelled, transitive _ _ _ seven five six copied spelled⟩

end Store

end DreamBerd
