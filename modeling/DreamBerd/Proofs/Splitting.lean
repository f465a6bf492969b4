import DreamBerd.Fault
import Mathlib.Data.String.Basic

/-!
# Cutting texts

Lines are cut at line breaks and names at points. `splitOn_parts` gives the parts that a text is cut
into, as long as the separator does not start inside one of them. `splitOn_char` says that cutting a
text at one character is cutting the list of its characters.
-/

namespace DreamBerd

open String

variable {c : Char}

/-! ## The walk over a text -/

section Walk

variable {d e : Char} {a b p q : List Char} {start : Pos.Raw} {found : List String}

theorem atEnd_append (a b : List Char) :
    Pos.Raw.atEnd (ofList (a ++ b)) ⟨utf8Len a⟩ = true ↔ b = [] := by
  rw [atEnd_iff, rawEndPos_ofList, utf8Len_append, Pos.Raw.mk_le_mk, ← utf8Len_eq_zero]
  omega

theorem next_append (a b : List Char) (d : Char) :
    Pos.Raw.next (ofList (a ++ d :: b)) ⟨utf8Len a⟩ = ⟨utf8Len (a ++ [d])⟩ := by
  simpa using next_of_valid a d b

/-- A step over the next character of the text, with the next one of the separator. -/
theorem splitOnAux_step :
    splitOnAux (ofList (a ++ d :: b)) (ofList (p ++ e :: q)) start ⟨utf8Len a⟩ ⟨utf8Len p⟩ found =
      if d == e then
        if q = [] then
          splitOnAux (ofList (a ++ d :: b)) (ofList (p ++ e :: q)) ⟨utf8Len (a ++ [d])⟩
            ⟨utf8Len (a ++ [d])⟩ 0
            (Pos.Raw.extract (ofList (a ++ d :: b)) start
              ((⟨utf8Len (a ++ [d])⟩ : Pos.Raw).unoffsetBy ⟨utf8Len (p ++ [e])⟩) :: found)
        else
          splitOnAux (ofList (a ++ d :: b)) (ofList (p ++ e :: q)) start ⟨utf8Len (a ++ [d])⟩
            ⟨utf8Len (p ++ [e])⟩ found
      else
        splitOnAux (ofList (a ++ d :: b)) (ofList (p ++ e :: q)) start
          (Pos.Raw.next (ofList (a ++ d :: b)) ((⟨utf8Len a⟩ : Pos.Raw).unoffsetBy ⟨utf8Len p⟩)) 0
          found := by
  have whole := atEnd_append (p ++ [e]) q
  rw [List.append_assoc, List.singleton_append] at whole
  rw [splitOnAux, if_neg (mt (atEnd_append a _).mp (List.cons_ne_nil d b)), get_of_valid a, get_of_valid p, next_append, next_append]
  simp only [List.headD_cons, whole]

theorem splitOnAux_pass (sep r : List Char) (absent : c ∉ a) (l : List Char) :
    splitOnAux (ofList (l ++ a ++ r)) (ofList (c :: sep)) start ⟨utf8Len l⟩ 0 found =
      splitOnAux (ofList (l ++ a ++ r)) (ofList (c :: sep)) start ⟨utf8Len (l ++ a)⟩ 0 found := by
  induction a generalizing l with
  | nil => rw [List.append_nil]
  | cons d a ih =>
    rw [List.mem_cons, not_or] at absent
    have other : ¬(d == c) = true := by simpa using Ne.symm absent.1
    have step := @splitOnAux_step d c l (a ++ r) [] sep start found
    have rest := ih absent.2 (l ++ [d])
    rw [if_neg other] at step
    simp only [List.append_assoc, List.cons_append, List.nil_append] at step rest ⊢
    rwa [← rest, ← next_append]

/-- A walk that has passed the start `p` of the separator goes on behind its end. -/
theorem splitOnAux_match (r : List Char) (some : q ≠ []) (l p : List Char) :
    splitOnAux (ofList (l ++ q ++ r)) (ofList (p ++ q)) start ⟨utf8Len l⟩ ⟨utf8Len p⟩ found =
      splitOnAux (ofList (l ++ q ++ r)) (ofList (p ++ q)) ⟨utf8Len (l ++ q)⟩ ⟨utf8Len (l ++ q)⟩ 0
        (Pos.Raw.extract (ofList (l ++ q ++ r)) start
          ((⟨utf8Len (l ++ q)⟩ : Pos.Raw).unoffsetBy ⟨utf8Len (p ++ q)⟩) :: found) := by
  induction q generalizing l p with
  | nil => exact absurd rfl some
  | cons d q ih =>
    have step := @splitOnAux_step d d l (q ++ r) p q start found
    rw [if_pos BEq.rfl] at step
    rw [List.append_assoc, List.cons_append, step]
    cases q with
    | nil => rfl
    | cons d' q =>
      have rest := ih (List.cons_ne_nil d' q) (l ++ [d]) (p ++ [d])
      rw [if_neg (List.cons_ne_nil d' q)]
      simpa only [List.append_assoc, List.cons_append, List.nil_append] using rest

theorem splitOnAux_parts (sep l a : List Char) (parts : List (List Char))
    (absent : ∀ p ∈ a :: parts, c ∉ p) (found : List String) :
    splitOnAux (ofList (l ++ a ++ parts.flatMap ((c :: sep) ++ ·))) (ofList (c :: sep)) ⟨utf8Len l⟩
        ⟨utf8Len l⟩ 0 found =
      found.reverse ++ (a :: parts).map ofList := by
  rw [splitOnAux_pass sep _ (absent a List.mem_cons_self)]
  induction parts generalizing l a found with
  | nil =>
    have last := extract_of_valid l a []
    rw [← utf8Len_append] at last
    rw [splitOnAux, List.flatMap_nil, if_pos ((atEnd_append (l ++ a) []).mpr rfl), last]
    simp
  | cons part parts ih =>
    have absent : ∀ p ∈ part :: parts, c ∉ p := (List.forall_mem_cons.mp absent).2
    have cut := @splitOnAux_match (c :: sep) ⟨utf8Len l⟩ found (part ++ parts.flatMap ((c :: sep) ++ ·))
      (List.cons_ne_nil c sep) (l ++ a) []
    have back : (⟨utf8Len (l ++ a ++ c :: sep)⟩ : Pos.Raw).unoffsetBy ⟨utf8Len ([] ++ c :: sep)⟩ =
        ⟨utf8Len (l ++ a)⟩ := by
      rw [List.nil_append, utf8Len_append, Pos.Raw.unoffsetBy, Nat.add_sub_cancel]
    have passed := extract_of_valid l a (c :: sep ++ (part ++ parts.flatMap ((c :: sep) ++ ·)))
    have rest := ih (l ++ a ++ c :: sep) part absent (ofList a :: found)
    rw [← utf8Len_append, ← List.append_assoc] at passed
    rw [← splitOnAux_pass sep _ (absent part List.mem_cons_self)] at rest
    rw [back, passed] at cut
    simp only [List.append_assoc, List.flatMap_cons] at cut rest ⊢
    refine cut.trans (rest.trans ?_)
    simp

theorem splitOn_parts (c : Char) (sep a : List Char) (parts : List (List Char))
    (absent : ∀ p ∈ a :: parts, c ∉ p) :
    (ofList (a ++ parts.flatMap ((c :: sep) ++ ·))).splitOn (ofList (c :: sep)) =
      (a :: parts).map ofList := by
  have walk := splitOnAux_parts sep [] a parts absent []
  rw [splitOn]
  simpa using walk

end Walk

/-! ## Cutting at one character -/

/-- What is between the characters that a list is cut at. -/
theorem splitOn_eq_parts (c : Char) (cs : List Char) : ∃ a parts, cs = a ++ parts.flatMap ([c] ++ ·) ∧
    (∀ p ∈ a :: parts, c ∉ p) ∧ cs.splitOn c = a :: parts ∧ cs.count c = parts.length := by
  induction cs with
  | nil => exact ⟨[], [], rfl, by simp, rfl, rfl⟩
  | cons d cs ih =>
    obtain ⟨a, parts, whole, absent, cut, count⟩ := ih
    rw [List.splitOn_cons_eq_if_modifyHead, cut, List.count_cons, count]
    by_cases same : d = c
    · exact ⟨[], a :: parts, by simp [whole, same], by simpa using absent, by simp [same], by simp [same]⟩
    · refine ⟨d :: a, parts, by simp [whole], ?_, by simp [same], by simp [same]⟩
      simpa [Ne.symm same] using absent

theorem splitOn_char (s : String) (c : Char) :
    s.splitOn (ofList [c]) = (s.toList.splitOn c).map ofList := by
  obtain ⟨a, parts, whole, absent, cut, -⟩ := splitOn_eq_parts c s.toList
  rw [cut, ← splitOn_parts c [] a parts absent, ← whole, ofList_toList]

theorem splitOn_char_of_not_mem {s : String} (absent : c ∉ s.toList) :
    s.splitOn (ofList [c]) = [s] := by
  rw [splitOn_char, List.splitOn_eq_singleton absent, List.map_singleton, ofList_toList]

theorem length_splitOn_char (s : String) (c : Char) :
    (s.splitOn (ofList [c])).length = s.toList.count c + 1 := by
  obtain ⟨a, parts, -, -, cut, count⟩ := splitOn_eq_parts c s.toList
  rw [splitOn_char, cut, count, List.length_map, List.length_cons]

end DreamBerd
