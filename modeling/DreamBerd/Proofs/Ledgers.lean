import DreamBerd.Ledger
import Mathlib.Data.List.Nodup
import Mathlib.Data.List.Perm.Subperm
import Mathlib.Data.Set.Basic

/-!
# What is found in a ledger

A ledger is searched for the first entry with a key. The first lemmas hold for keys whose equality is
not that of their spelling, such as numbers, those under `Distinct` for ledgers in which no two keys are
equal; the others are about keys that are the same only if they are spelled the same, and most of them
about ledgers in which each key occurs once.
-/

namespace DreamBerd

open List

namespace Ledger

variable {κ α β : Type} [BEq κ] [PartialEquivBEq κ]

/-- What was written under a key is found under the keys that equal it. -/
theorem get?_put (l : Ledger κ α) (k j : κ) (v : α) :
    (l.put k v).get? j = if k == j then some v else l.get? j := by
  obtain ⟨entries⟩ := l
  show find j (write k v entries) = if k == j then some v else find j entries
  induction entries with
  | nil => rfl
  | cons e es ih =>
    rw [write]
    by_cases here : (e.1 == k) = true
    · rw [if_pos here, find, find, BEq.congr_left here]
      split <;> rfl
    · rw [if_neg here, find, find, ih]
      by_cases found : (e.1 == j) = true
      · have other : ¬(k == j) = true := fun same => here (BEq.trans found (BEq.symm same))
        rw [if_pos found, if_neg other, if_pos found]
      · rw [if_neg found, if_neg found]

omit [PartialEquivBEq κ] in
theorem exists_mem_of_get? {l : Ledger κ α} {j : κ} {v : α} (found : l.get? j = some v) :
    ∃ k, (k, v) ∈ l.entries ∧ (k == j) = true := by
  obtain ⟨entries⟩ := l
  change find j entries = some v at found
  induction entries with
  | nil => cases found
  | cons e es ih =>
    rw [find] at found
    split at found
    · rename_i same
      cases found
      exact ⟨e.1, mem_cons_self, same⟩
    · obtain ⟨k, member, same⟩ := ih found
      exact ⟨k, mem_cons_of_mem e member, same⟩

omit [PartialEquivBEq κ] in
theorem get?_mapWithKey (l : Ledger κ α) {f : κ → α → β} {j : κ}
    (respects : ∀ k, (k == j) = true → f k = f j) : (l.mapWithKey f).get? j = (l.get? j).map (f j) := by
  obtain ⟨entries⟩ := l
  show find j (entries.map fun e => (e.1, f e.1 e.2)) = (find j entries).map (f j)
  induction entries with
  | nil => rfl
  | cons e es ih =>
    rw [map_cons, find, find]
    by_cases here : (e.1 == j) = true
    · rw [if_pos here, if_pos here, respects e.1 here]
      rfl
    · rw [if_neg here, if_neg here, ih]

omit [PartialEquivBEq κ] in
theorem mem_keys_put {l : Ledger κ α} {k j : κ} {v : α} (member : j ∈ (l.put k v).keys) :
    j = k ∨ j ∈ l.keys := by
  obtain ⟨entries⟩ := l
  change j ∈ (write k v entries).map (·.1) at member
  induction entries with
  | nil => exact .inl (mem_singleton.mp member)
  | cons e es ih =>
    rw [write] at member
    split at member
    · exact .inr member
    · rcases mem_cons.mp member with here | later
      · exact .inr (here ▸ mem_cons_self)
      · exact (ih later).imp_right (mem_cons_of_mem _)

omit [PartialEquivBEq κ] in
theorem mem_keys_merge {l m : Ledger κ α} {j : κ} (member : j ∈ (l.merge m).keys) :
    j ∈ l.keys ∨ j ∈ m.keys := by
  obtain ⟨entries⟩ := m
  induction entries generalizing l with
  | nil => exact .inl member
  | cons e es ih =>
    rcases ih member with before | later
    · rcases mem_keys_put before with here | old
      · exact .inr (here ▸ mem_cons_self)
      · exact .inl old
    · exact .inr (mem_cons_of_mem _ later)

section Distinct

variable {κ α : Type} [BEq κ]

structure Distinct (l : Ledger κ α) : Prop where
  apart : l.keys.Pairwise fun j k => (j == k) = false
  self : ∀ k ∈ l.keys, (k == k) = true

def common (x y : Ledger κ α) : List (α × α) :=
  x.entries.filterMap fun e => (y.get? e.1).map fun v => (e.2, v)

theorem contains_eq_true_iff {l : Ledger κ α} {k : κ} :
    l.contains k = true ↔ ∃ j ∈ l.keys, (j == k) = true := by
  obtain ⟨entries⟩ := l
  show (find k entries).isSome = true ↔ ∃ j ∈ entries.map (·.1), (j == k) = true
  induction entries with
  | nil => simp [find]
  | cons e es ih =>
    rw [find, map_cons, exists_mem_cons_iff]
    by_cases here : (e.1 == k) = true
    · simp [here]
    · rw [if_neg here, ih]
      simp [here]

theorem entries_put_of_get?_eq_none {l : Ledger κ α} {k : κ} {v : α} (absent : l.get? k = none) :
    (l.put k v).entries = l.entries ++ [(k, v)] := by
  obtain ⟨entries⟩ := l
  show write k v entries = entries ++ [(k, v)]
  change find k entries = none at absent
  induction entries with
  | nil => rfl
  | cons e es ih =>
    rw [find] at absent
    split at absent
    · cases absent
    · rename_i other
      rw [write, if_neg other, ih absent, cons_append]

theorem exists_mem_of_mem_common {x y : Ledger κ α} (member : p ∈ x.common y) :
    (∃ k, (k, p.1) ∈ x.entries) ∧ ∃ k, (k, p.2) ∈ y.entries := by
  obtain ⟨⟨k, u⟩, among, found⟩ := mem_filterMap.mp member
  obtain ⟨v, got, rfl⟩ := Option.map_eq_some_iff.mp found
  obtain ⟨j, there, -⟩ := exists_mem_of_get? got
  exact ⟨⟨k, among⟩, j, there⟩

theorem Distinct.contains_of_mem {l : Ledger κ α} {k : κ} (distinct : l.Distinct)
    (member : k ∈ l.keys) : l.contains k = true :=
  contains_eq_true_iff.mpr ⟨k, member, distinct.self k member⟩

variable [PartialEquivBEq κ] {l x y : Ledger κ α} {j k : κ} {u v : α}

theorem get?_congr (same : (j == k) = true) : l.get? j = l.get? k := by
  obtain ⟨entries⟩ := l
  show find j entries = find k entries
  induction entries with
  | nil => rfl
  | cons e es ih => rw [find, find, ih, BEq.congr_right same]

theorem Distinct.get?_of_mem (distinct : l.Distinct) (member : (k, v) ∈ l.entries)
    (same : (k == j) = true) : l.get? j = some v := by
  obtain ⟨entries⟩ := l
  show find j entries = some v
  have apart : (entries.map (·.1)).Pairwise fun j k => (j == k) = false := distinct.apart
  induction entries with
  | nil => cases member
  | cons e es ih =>
    rw [map_cons, pairwise_cons] at apart
    rcases mem_cons.mp member with rfl | later
    · rw [find, if_pos same]
    · have other : ¬(e.1 == j) = true := by
        intro first
        have equal := BEq.trans first (BEq.symm same)
        rw [apart.1 k (mem_map.mpr ⟨_, later, rfl⟩)] at equal
        cases equal
      rw [find, if_neg other]
      exact ih ⟨apart.2, fun k among => distinct.self k (mem_cons_of_mem _ among)⟩ later apart.2

theorem Distinct.mem_common (distinct : x.Distinct) :
    (u, v) ∈ x.common y ↔ ∃ k, x.get? k = some u ∧ y.get? k = some v := by
  unfold common
  rw [mem_filterMap]
  constructor
  · rintro ⟨⟨k, u'⟩, member, found⟩
    obtain ⟨v', got, same⟩ := Option.map_eq_some_iff.mp found
    cases same
    have self := distinct.self k (mem_map.mpr ⟨_, member, rfl⟩)
    exact ⟨k, distinct.get?_of_mem member self, got⟩
  · rintro ⟨k, left, right⟩
    obtain ⟨j, member, same⟩ := exists_mem_of_get? left
    refine ⟨(j, u), member, ?_⟩
    rw [get?_congr same, right]
    rfl

theorem Distinct.eq_of_mem_common (distinct : x.Distinct) (member : p ∈ x.common x) : p.1 = p.2 := by
  obtain ⟨k, one, other⟩ := distinct.mem_common.mp member
  exact Option.some.inj (one.symm.trans other)

def keyClass (k : κ) : Set κ := {i | (k == i) = true}

theorem beq_of_keyClass_eq (self : (j == j) = true) (same : keyClass j = keyClass k) :
    (j == k) = true := by
  have member : j ∈ keyClass k := same ▸ self
  exact BEq.symm member

section

variable (distinct : x.Distinct) (among : ∀ k ∈ x.keys, y.contains k = true)

include distinct among

theorem Distinct.subperm :
    (x.keys.map keyClass).Subperm (y.keys.map keyClass) := by
  have nodup : (x.keys.map keyClass).Nodup := by
    rw [List.Nodup, pairwise_map]
    refine distinct.apart.imp_of_mem fun {j k} left _ apart same => ?_
    rw [beq_of_keyClass_eq (distinct.self j left) same] at apart
    cases apart
  refine subperm_of_subset nodup ?_
  intro c member
  obtain ⟨k, inside, rfl⟩ := mem_map.mp member
  obtain ⟨j, there, same⟩ := contains_eq_true_iff.mp (among k inside)
  refine mem_map.mpr ⟨j, there, ?_⟩
  ext i
  show (j == i) = true ↔ (k == i) = true
  rw [BEq.congr_left same]

theorem Distinct.size_le :
    x.size ≤ y.size := by
  simpa [keys, size] using (distinct.subperm among).length_le

theorem Distinct.contains_of_size_le
    (small : y.size ≤ x.size) : ∀ k ∈ y.keys, x.contains k = true := by
  have perm : (x.keys.map keyClass).Perm (y.keys.map keyClass) := by
    refine (distinct.subperm among).perm_of_length_le ?_
    simpa [keys, size] using small
  intro k inside
  obtain ⟨j, there, same⟩ := mem_map.mp (perm.mem_iff.mpr (mem_map.mpr ⟨k, inside, rfl⟩))
  exact contains_eq_true_iff.mpr ⟨j, there, beq_of_keyClass_eq (distinct.self j there) same⟩

end

end Distinct

section Spelled

variable {κ α : Type} [BEq κ] [LawfulBEq κ] {l : Ledger κ α} {k j : κ} {v : α}

theorem get?_eq_none_iff : l.get? k = none ↔ k ∉ l.keys := by
  obtain ⟨entries⟩ := l
  show find k entries = none ↔ k ∉ entries.map (·.1)
  induction entries with
  | nil => simp [find]
  | cons e es ih =>
    rw [find, map_cons, mem_cons, not_or]
    by_cases here : e.1 = k
    · simp [here]
    · rw [if_neg (by simpa using here), ih]
      exact ⟨fun absent => ⟨fun same => here same.symm, absent⟩, And.right⟩

theorem mem_of_get? (found : l.get? k = some v) : (k, v) ∈ l.entries := by
  obtain ⟨j, member, same⟩ := exists_mem_of_get? found
  exact eq_of_beq same ▸ member

theorem get?_of_mem (once : l.keys.Nodup) (member : (k, v) ∈ l.entries) : l.get? k = some v := by
  have distinct : l.Distinct := ⟨once.imp beq_false_of_ne, fun _ _ => BEq.rfl⟩
  exact distinct.get?_of_mem member BEq.rfl

theorem entries_put_of_not_mem (absent : k ∉ l.keys) : (l.put k v).entries = l.entries ++ [(k, v)] :=
  entries_put_of_get?_eq_none (get?_eq_none_iff.mpr absent)

theorem nodup_keys_put (once : l.keys.Nodup) (absent : k ∉ l.keys) : (l.put k v).keys.Nodup := by
  have keys : (l.put k v).keys = l.keys.concat k := by
    rw [Ledger.keys, entries_put_of_not_mem absent, map_append, concat_eq_append]
    rfl
  rw [keys]
  exact once.concat absent

theorem get?_put_self : (l.put k v).get? k = some v := by
  rw [get?_put, if_pos BEq.rfl]

theorem get?_put_of_ne (other : k ≠ j) : (l.put k v).get? j = l.get? j := by
  rw [get?_put, if_neg (by simpa using other)]

theorem entries_foldl_erase (gone : List κ) (l : Ledger κ α) :
    (gone.foldl erase l).entries = l.entries.filter fun e => !gone.contains e.1 := by
  induction gone generalizing l with
  | nil => simp
  | cons k gone ih =>
    rw [foldl_cons, ih, erase, filter_filter]
    apply filter_congr
    intro e _
    rw [contains_cons, Bool.not_or, Bool.and_comm]

theorem keys_foldl_erase_subset (gone : List κ) (l : Ledger κ α) :
    (gone.foldl erase l).keys.Sublist l.keys := by
  unfold keys
  rw [entries_foldl_erase]
  exact filter_sublist.map _

theorem get?_erase_self : (l.erase k).get? k = none := by
  rw [get?_eq_none_iff]
  intro member
  obtain ⟨e, among, same⟩ := mem_map.mp member
  have stays := (mem_filter.mp among).2
  rw [same] at stays
  simp at stays

theorem get?_erase_of_ne (other : k ≠ j) : (l.erase k).get? j = l.get? j := by
  obtain ⟨entries⟩ := l
  show find j (entries.filter fun e => !(e.1 == k)) = find j entries
  induction entries with
  | nil => rfl
  | cons e es ih =>
    rw [filter_cons, find]
    by_cases here : e.1 = k
    · rw [if_neg (by simp [here]), ih, if_neg (by simpa [here] using other)]
    · rw [if_pos (by simpa using here), find, ih]

theorem get?_foldl_erase_of_mem {gone : List κ} (goes : k ∈ gone) : (gone.foldl erase l).get? k = none := by
  rw [get?_eq_none_iff, keys, entries_foldl_erase]
  intro member
  obtain ⟨e, among, rfl⟩ := mem_map.mp member
  have stays := (mem_filter.mp among).2
  rw [contains_iff_mem.mpr goes] at stays
  cases stays

theorem get?_foldl_erase {gone : List κ} (stays : k ∉ gone) :
    (gone.foldl erase l).get? k = l.get? k := by
  induction gone generalizing l with
  | nil => rfl
  | cons j gone ih =>
    rw [mem_cons, not_or] at stays
    rw [foldl_cons, ih stays.2, get?_erase_of_ne fun same => stays.1 (Eq.symm same)]

end Spelled

end Ledger

end DreamBerd
