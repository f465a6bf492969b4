import DreamBerd.Proofs.Scopes
import Mathlib.Data.List.Induction

/-!
# Where statements are cut

A statement ends at an exclamation mark, a question mark or a closing brace behind which no scope is open
(`EndsAt`). Nothing is asked of the braces before: where more scopes have been closed than were opened, no
statement ends until as many have been opened again.

Every text is either free of such ends (`Uncut`) or has a first one, behind which the rest is cut as a text
of its own (`cut_induction`, with `statements_of_uncut` and `statements_of_end`). `statements_cut_at_ends`
says for any text that its statements lose nothing but the space around them, and that they are cut at all
the ends and nowhere else.
-/

namespace DreamBerd

open List

namespace Clause

variable {ts xs before tokens s : List Token} {t : Token}

/-! ## Ends of statements -/

/-- The number of scopes that the tokens open, less those that they close. -/
def depth : List Token → Int
  | [] => 0
  | t :: ts => scopeStep t + depth ts

theorem depth_append (xs ys : List Token) : depth (xs ++ ys) = depth xs + depth ys := by
  induction xs with
  | nil => exact (Int.zero_add _).symm
  | cons x xs ih => rw [cons_append, depth, depth, ih, Int.add_assoc]

theorem depth_concat (ts : List Token) (t : Token) : depth (ts ++ [t]) = depth ts + scopeStep t := by
  rw [depth_append, depth, depth, Int.add_zero]

theorem depth_flat (flat : ∀ t ∈ ts, Flat t) : depth ts = 0 := by
  induction ts with
  | nil => rfl
  | cons t ts ih =>
    rw [depth, (flat t mem_cons_self).1, ih (forall_mem_cons.mp flat).2]
    rfl

def EndsAt (before : List Token) (t : Token) : Prop :=
  isTerminator t = true ∧ depth (before ++ [t]) = 0

instance (before : List Token) (t : Token) : Decidable (EndsAt before t) :=
  inferInstanceAs (Decidable (_ ∧ _))

theorem endsAt_append (level : depth xs = 0) : EndsAt (xs ++ before) t ↔ EndsAt before t := by
  rw [EndsAt, EndsAt, append_assoc, depth_append, level, Int.zero_add]

def Uncut (ts : List Token) : Prop := ∀ before t after, ts = before ++ t :: after → ¬EndsAt before t

theorem Uncut.left {ys : List Token} (uncut : Uncut (xs ++ ys)) : Uncut xs := by
  rintro before t after rfl
  exact uncut before t (after ++ ys) (by simp)

theorem uncut_concat (uncut : Uncut ts) (goesOn : ¬EndsAt ts t) : Uncut (ts ++ [t]) := by
  intro before t' after whole
  rcases eq_nil_or_concat after with rfl | ⟨more, last, rfl⟩
  · obtain ⟨rfl, same⟩ := append_inj' whole rfl
    obtain rfl := singleton_inj.mp same
    exact goesOn
  · rw [concat_eq_append, ← cons_append, ← append_assoc] at whole
    exact uncut before t' more (append_inj' whole rfl).1

theorem uncut_or_first_end (ts : List Token) :
    Uncut ts ∨ ∃ before t after, ts = before ++ t :: after ∧ Uncut before ∧ EndsAt before t := by
  induction ts using List.reverseRecOn with
  | nil => exact .inl fun before t after whole => by simp at whole
  | append_singleton ts t ih =>
    rcases ih with uncut | ⟨before, t', after, rfl, uncut, ends⟩
    · by_cases ends : EndsAt ts t
      · exact .inr ⟨ts, t, [], rfl, uncut, ends⟩
      · exact .inl (uncut_concat uncut ends)
    · exact .inr ⟨before, t', after ++ [t], by simp, uncut, ends⟩

/-- What holds of a text without ends, and of a text with a first end if it holds of the rest, holds of
every text. -/
theorem cut_induction {motive : List Token → Prop} (uncut : ∀ ts, Uncut ts → motive ts)
    (ends : ∀ before t after, Uncut before → EndsAt before t → motive after →
      motive (before ++ t :: after)) (ts : List Token) : motive ts := by
  induction length : ts.length using Nat.strong_induction_on generalizing ts with
  | h n ih =>
    rcases uncut_or_first_end ts with none | ⟨before, t, after, rfl, none, atEnd⟩
    · exact uncut ts none
    · refine ends before t after none atEnd (ih after.length ?_ after rfl)
      rw [← length, length_append, length_cons]
      omega

theorem uncut_flat_append (flat : ∀ t ∈ xs, Flat t) (uncut : Uncut ts) : Uncut (xs ++ ts) := by
  induction ts using List.reverseRecOn with
  | nil =>
    rintro before t after whole ⟨terminates, -⟩
    rw [append_nil] at whole
    have among : t ∈ xs := by simp [whole]
    exact Bool.false_ne_true ((flat t among).2.symm.trans terminates)
  | append_singleton ts t ih =>
    rw [← append_assoc]
    refine uncut_concat (ih uncut.left) ?_
    rw [endsAt_append (depth_flat flat)]
    exact uncut ts t [] rfl

/-! ## Space around statements -/

theorem isSpace_of_isTerminator (terminates : isTerminator t = true) : isSpace t = false := by
  simp only [isTerminator, Bool.or_eq_true, Token.is, beq_iff_eq] at terminates
  rcases terminates with (kind | kind) | kind <;> simp [isSpace, Token.isBlank, Token.is, kind]

theorem exists_trimSpace (ts : List Token) : ∃ left right, ts = left ++ trimSpace ts ++ right ∧
    (∀ t ∈ left, isSpace t = true) ∧ ∀ t ∈ right, isSpace t = true := by
  refine ⟨ts.takeWhile isSpace, ((ts.dropWhile isSpace).reverse.takeWhile isSpace).reverse, ?_, ?_, ?_⟩
  · rw [trimSpace, append_assoc, ← reverse_append, takeWhile_append_dropWhile,
      reverse_reverse, takeWhile_append_dropWhile]
  · exact fun t member => mem_takeWhile_imp member
  · exact fun t member => mem_takeWhile_imp (mem_reverse.mp member)

theorem filter_spaces (spaces : ∀ t ∈ ts, isSpace t = true) : ts.filter (!isSpace ·) = [] := by
  rw [filter_eq_nil_iff]
  intro t member
  rw [spaces t member]
  exact Bool.false_ne_true

theorem filter_trimSpace (ts : List Token) :
    (trimSpace ts).filter (!isSpace ·) = ts.filter (!isSpace ·) := by
  obtain ⟨left, right, whole, before, behind⟩ := exists_trimSpace ts
  conv_rhs => rw [whole, filter_append, filter_append, filter_spaces before,
    filter_spaces behind, append_nil, nil_append]

theorem filter_dropWhile_isSpace (ts : List Token) :
    (ts.dropWhile isSpace).filter (!isSpace ·) = ts.filter (!isSpace ·) := by
  conv_rhs => rw [← takeWhile_append_dropWhile (l := ts), filter_append,
    filter_spaces fun t member => mem_takeWhile_imp member, nil_append]

theorem head?_dropWhile_isSpace : ∀ t ∈ (ts.dropWhile isSpace).head?, isSpace t = false := by
  intro t starts
  have first := head?_dropWhile_not isSpace ts
  rwa [Option.mem_def.mp starts] at first

theorem getLast?_trimSpace : ∀ t ∈ (trimSpace ts).getLast?, isSpace t = false := by
  rw [trimSpace, getLast?_reverse]
  exact head?_dropWhile_isSpace

theorem head?_trimSpace : ∀ t ∈ (trimSpace ts).head?, isSpace t = false := by
  intro t starts
  have whole : trimSpace ts ++ ((ts.dropWhile isSpace).reverse.takeWhile isSpace).reverse =
      ts.dropWhile isSpace := by
    rw [trimSpace, ← reverse_append, takeWhile_append_dropWhile, reverse_reverse]
  apply head?_dropWhile_isSpace
  rw [← whole, head?_append, Option.mem_def.mp starts]
  rfl

theorem trimSpace_concat (solid : isSpace t = false) :
    trimSpace (ts ++ [t]) = ts.dropWhile isSpace ++ [t] := by
  have alone : [t].dropWhile isSpace = [t] := dropWhile_isSpace (by simpa using solid)
  have front : (ts ++ [t]).dropWhile isSpace = ts.dropWhile isSpace ++ [t] := by
    rw [dropWhile_append, alone]
    split
    · rename_i empty
      rw [isEmpty_iff.mp empty]
      rfl
    · rfl
  rw [trimSpace, front, reverse_concat, dropWhile_isSpace (by simpa using solid), reverse_cons,
    reverse_reverse]

/-! ## Cutting a text -/

theorem cutFrom_of_uncut {passed rest : List Token} (uncut : Uncut (passed ++ ts)) :
    cutFrom (depth passed) passed.reverse (ts ++ rest) =
      cutFrom (depth (passed ++ ts)) (passed ++ ts).reverse rest := by
  induction ts generalizing passed with
  | nil => rw [append_nil, nil_append]
  | cons t ts ih =>
    have goesOn : ¬(isTerminator t = true ∧ depth passed + scopeStep t = 0) := by
      rw [← depth_concat]
      exact uncut passed t ts rfl
    have next : passed ++ t :: ts = passed ++ [t] ++ ts := by simp
    rw [next] at uncut ⊢
    rw [cons_append, cutFrom_push goesOn, ← depth_concat, ← ih uncut, reverse_concat]

theorem statements_of_uncut (uncut : Uncut ts) :
    statements ts = [trimSpace ts].filter (!·.isEmpty) := by
  have whole : cutFrom (depth []) [].reverse (ts ++ []) = cutFrom (depth ts) ts.reverse [] :=
    cutFrom_of_uncut uncut
  rw [append_nil, cutFrom, reverse_reverse] at whole
  exact congrArg (fun pieces => (pieces.map trimSpace).filter (!·.isEmpty)) whole

theorem statements_of_end {after : List Token} (uncut : Uncut before) (ends : EndsAt before t) :
    statements (before ++ t :: after) = (before.dropWhile isSpace ++ [t]) :: statements after := by
  obtain ⟨terminates, level⟩ := ends
  rw [depth_concat] at level
  have front : cutFrom (depth []) [].reverse (before ++ t :: after) =
      cutFrom (depth before) before.reverse (t :: after) := cutFrom_of_uncut uncut
  have cut : cutFrom 0 [] (before ++ t :: after) = (before ++ [t]) :: cutFrom 0 [] after := by
    refine front.trans ?_
    rw [cutFrom_stop terminates level, reverse_cons, reverse_reverse]
  rw [statements, cut, map_cons, trimSpace_concat (isSpace_of_isTerminator terminates),
    filter_cons_of_pos (by simp)]
  rfl

/-! ## The statements of a text -/

theorem filter_flatten_statements (tokens : List Token) :
    (statements tokens).flatten.filter (!isSpace ·) = tokens.filter (!isSpace ·) := by
  induction tokens using cut_induction with
  | uncut ts uncut =>
    have single : ([trimSpace ts].filter (!·.isEmpty)).flatten = trimSpace ts := by
      cases trimSpace ts <;> simp
    rw [statements_of_uncut uncut, single, filter_trimSpace]
  | ends before t after uncut ends ih =>
    rw [statements_of_end uncut ends, flatten_cons, filter_append, filter_append,
      filter_dropWhile_isSpace, ih, ← filter_append, ← filter_append, append_assoc,
      singleton_append]

theorem mem_statements (member : s ∈ statements tokens) :
    s ≠ [] ∧ (∀ t ∈ s.head?, isSpace t = false) ∧ ∀ t ∈ s.getLast?, isSpace t = false := by
  obtain ⟨trimmed, some⟩ := mem_filter.mp member
  obtain ⟨piece, -, rfl⟩ := mem_map.mp trimmed
  refine ⟨?_, head?_trimSpace, getLast?_trimSpace⟩
  rintro empty
  rw [empty] at some
  cases some

theorem exists_place {earlier later : List (List Token)}
    (split : statements tokens = earlier ++ s :: later) :
    ∃ before after, tokens = before ++ s ++ after ∧
      before.filter (!isSpace ·) = earlier.flatten.filter (!isSpace ·) ∧
      (∀ front t rest, s = front ++ t :: rest → EndsAt (before ++ front) t → rest = []) ∧
      (later ≠ [] → ∃ front t, s = front ++ [t] ∧ EndsAt (before ++ front) t) := by
  induction tokens using cut_induction generalizing earlier with
  | uncut ts uncut =>
    obtain ⟨left, right, whole, spaces, -⟩ := exists_trimSpace ts
    have only : earlier ++ s :: later = [trimSpace ts] := by
      have sub : (earlier ++ s :: later).Sublist [trimSpace ts] := by
        rw [← split, statements_of_uncut uncut]
        exact filter_sublist
      refine sub.eq_of_length_le ?_
      simp
      omega
    obtain ⟨rfl, rfl, rfl⟩ : earlier = [] ∧ s = trimSpace ts ∧ later = [] := by
      rcases earlier with _ | ⟨e, es⟩
      · simpa using only
      · simp at only
    refine ⟨left, right, whole, filter_spaces spaces, ?_, fun some => absurd rfl some⟩
    intro front t rest parts ends
    refine absurd ends (uncut (left ++ front) t (rest ++ right) ?_)
    rw [whole, parts]
    simp
  | ends before t after uncut ends ih =>
    rw [statements_of_end uncut ends] at split
    rcases earlier with _ | ⟨first, earlier⟩
    · obtain ⟨rfl, rfl⟩ := List.cons.inj split
      have spaces : ∀ t ∈ before.takeWhile isSpace, isSpace t = true :=
        fun t member => mem_takeWhile_imp member
      have front : before.takeWhile isSpace ++ before.dropWhile isSpace = before :=
        takeWhile_append_dropWhile
      refine ⟨before.takeWhile isSpace, after, ?_, filter_spaces spaces, ?_, fun _ => ⟨_, t, rfl, ?_⟩⟩
      · rw [← append_assoc, front, append_assoc, singleton_append]
      · intro inner t' rest parts atEnd
        rcases eq_nil_or_concat rest with rfl | ⟨more, last, rfl⟩
        · rfl
        · rw [concat_eq_append, ← cons_append, ← append_assoc] at parts
          refine absurd atEnd (uncut (before.takeWhile isSpace ++ inner) t' more ?_)
          rw [append_assoc, ← (append_inj' parts rfl).1, front]
      · rwa [front]
    · obtain ⟨rfl, more⟩ := List.cons.inj split
      obtain ⟨before', after', rfl, solid, inside, ended⟩ := ih more
      have level : depth (before ++ [t]) = 0 := ends.2
      have shift : ∀ front t', EndsAt (before ++ [t] ++ before' ++ front) t' ↔
          EndsAt (before' ++ front) t' := by
        intro front t'
        rw [append_assoc, endsAt_append level]
      refine ⟨before ++ [t] ++ before', after', by simp, ?_, ?_, ?_⟩
      · rw [filter_append, solid, flatten_cons, filter_append, filter_append,
          filter_append, filter_dropWhile_isSpace]
      · intro front t' rest parts atEnd
        exact inside front t' rest parts ((shift front t').mp atEnd)
      · intro some
        obtain ⟨front, t', parts, atEnd⟩ := ended some
        exact ⟨front, t', parts, (shift front t').mpr atEnd⟩

/-- Of any text, balanced or not, the statements hold all tokens but space, in order. None is empty, or
starts or ends with space. Each has its place in the text, and at its last token only, and there unless
nothing follows, a statement ends. -/
theorem statements_cut_at_ends (tokens : List Token) :
    (statements tokens).flatten.filter (!isSpace ·) = tokens.filter (!isSpace ·) ∧
    (∀ s ∈ statements tokens,
      s ≠ [] ∧ (∀ t ∈ s.head?, isSpace t = false) ∧ ∀ t ∈ s.getLast?, isSpace t = false) ∧
    ∀ earlier s later, statements tokens = earlier ++ s :: later →
      ∃ before after, tokens = before ++ s ++ after ∧
        before.filter (!isSpace ·) = earlier.flatten.filter (!isSpace ·) ∧
        (∀ front t rest, s = front ++ t :: rest → EndsAt (before ++ front) t → rest = []) ∧
        (later ≠ [] → ∃ front t, s = front ++ [t] ∧ EndsAt (before ++ front) t) :=
  ⟨filter_flatten_statements tokens, fun _ member => mem_statements member,
    fun _ _ _ split => exists_place split⟩

/-- The text `} x! { y! z`, where a scope is closed before it is opened. -/
def closedFirst : List Token :=
  [⟨.rCurly, "\x7d", 1, 0⟩, ⟨.whitespace, " ", 1, 1⟩, ⟨.name, "x", 1, 2⟩, ⟨.bang, "!", 1, 3⟩,
    ⟨.whitespace, " ", 1, 4⟩, ⟨.lCurly, "\x7b", 1, 5⟩, ⟨.whitespace, " ", 1, 6⟩, ⟨.name, "y", 1, 7⟩,
    ⟨.bang, "!", 1, 8⟩, ⟨.whitespace, " ", 1, 9⟩, ⟨.name, "z", 1, 10⟩]

/-- Its first statement goes on behind the first exclamation mark. -/
theorem closedFirst_cut :
    statements closedFirst = [] ++ closedFirst.take 9 :: [[⟨.name, "z", 1, 10⟩]] ∧
    ∃ before after, closedFirst = before ++ closedFirst.take 9 ++ after ∧
      ∃ front t, closedFirst.take 9 = front ++ [t] ∧ EndsAt (before ++ front) t := by
  have split : statements closedFirst = [] ++ closedFirst.take 9 :: [[⟨.name, "z", 1, 10⟩]] := by decide
  obtain ⟨before, after, whole, -, -, ends⟩ := (statements_cut_at_ends closedFirst).2.2 _ _ _ split
  exact ⟨split, before, after, whole, ends (by decide)⟩

end Clause

end DreamBerd
