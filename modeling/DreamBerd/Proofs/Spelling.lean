import DreamBerd.Proofs.Shapes
import Mathlib

/-!
# The tokens of an expression

`Expr.spelling` lists the tokens that an expression holds, from left to right. Reading keeps their order
(`spelling_in_order`): the tokens of an expression are a subsequence of those it was read from, so none
is made up, repeated or moved.

Reading does not keep every token. Blanks and brackets are not held, nor are the tokens between the items
of a list or the arguments of a call, nor what stands behind the token of a value; nothing else is lost
(`lost_iff_separates_or_overlooked`). The tokens behind a value are lost although nothing stands for them,
and so is a string between two arguments whose text is a comma (`Overlooked`).
-/

namespace DreamBerd

open List

variable {src : Source} {tokens others : List Token} {es : List Expr} {t : Token}
  {ps : List (List Token)} {e : Expr}

namespace Expr

variable {ts : List Token} {s : Split}

mutual

/-- The tokens that an expression holds: an operator before its operand or between its operands, a name
before the arguments. -/
def spelling : Expr → List Token
  | value t => [t]
  | list items => spellings items
  | call name args => name :: spellings args
  | index v i => spelling v ++ spelling i
  | binary _ t l r => spelling l ++ t :: spelling r
  | unary op e => op :: spelling e

def spellings : List Expr → List Token
  | [] => []
  | e :: es => spelling e ++ spellings es

end

/-! ## Order -/

theorem spellings_sublist (each : List.Forall₂ (fun p e => (spelling e).Sublist p) ps es) :
    (spellings es).Sublist ps.flatten := by
  induction each with
  | nil => exact nil_sublist _
  | cons one _ ih => exact one.append ih

theorem Shape.spelling_sublist (shape : Shape tokens s others) (spaced : Spaced tokens)
    (each : List.Forall₂ (fun p e => (spelling e).Sublist p) s.parts es) :
    (spelling (s.expr es)).Sublist tokens := by
  have first {front : List Token} {head : Token} (opens : Opens tokens front head) :
      [head].Sublist front := by
    rw [← opens.spaced spaced]
    exact filter_sublist
  have items := spellings_sublist each
  cases shape with
  | value starts =>
    exact singleton_sublist.mpr (mem_of_mem_filter (mem_of_mem_head? starts))
  | empty =>
    cases each
    exact nil_sublist _
  | list whole long =>
    rw [whole]
    exact (items.trans (flatten_sublist_joined long)).trans (infix_append _ _ _).sublist
  | call whole long _ opens =>
    rw [whole]
    exact (first opens).append (items.trans (flatten_sublist_joined long))
  | @index front v i back bracket whole =>
    obtain _ | ⟨value, _ | ⟨position, _ | _⟩⟩ := each
    rw [whole, append_assoc]
    refine (value.append ?_).trans (sublist_append_right _ _)
    exact (position.trans (sublist_append_left _ _)).cons bracket
  | binary whole =>
    obtain _ | ⟨left, _ | ⟨right, _ | _⟩⟩ := each
    rw [whole]
    exact left.append (right.cons_cons _)
  | unary whole opens =>
    obtain _ | ⟨operand, _ | _⟩ := each
    rw [whole]
    exact (first opens).append operand
  | @unaryCall front arg op name whole opens =>
    obtain _ | ⟨argument, _ | _⟩ := each
    rw [whole]
    refine (first opens).append (List.Sublist.cons_cons name ?_)
    simpa [spellings] using argument

theorem sublist_of_ofTokens (read : ofTokens src tokens = .ok e) (spaced : Spaced tokens) :
    (spelling e).Sublist tokens := by
  refine ofTokens_induction (motive := fun tokens e => Spaced tokens → (spelling e).Sublist tokens) ?_
    read spaced
  intro tokens s others es splits shape each spaced
  refine shape.spelling_sublist spaced ?_
  have parts : ∀ p ∈ s.parts, Part tokens p := fun p => isPart_of_mem_parts splits
  refine ((List.forall₂_and_left _ _).mpr ⟨parts, each⟩).imp fun p e one => ?_
  exact one.2.2 (spaced.of_infix one.1.1)

end Expr

/-! ## Blanks of a text -/

namespace Lexer

variable {line col : Nat} {c : Char} {rest : List Char}

theorem Reads.token {s : Step} (reads : Reads line col c rest s)
    (apart : ¬(c = '(' ∧ rest.head? = some ')')) :
    ∃ t, s.tokens = [t] ∧ (t.isBlank = true → isSpacing c = true ∧
      ∀ d, s.rest.head? = some d → isSpacing d = false) := by
  have solid {k : TokenKind} {text : String} {l d : Int} (other : k ≠ .whitespace) {more : List Char} :
      ∃ t, [(⟨k, text, l, d⟩ : Token)] = [t] ∧ (t.isBlank = true → isSpacing c = true ∧
        ∀ d, more.head? = some d → isSpacing d = false) :=
    ⟨_, rfl, fun blank => absurd (by simpa [Token.isBlank] using blank) other⟩
  cases reads with
  | newline => exact solid (by decide)
  | single kind =>
    have all : ∀ k ∈ singles, k ≠ .whitespace := by decide
    exact solid (all _ kind)
  | pair kind =>
    have all : ∀ k ∈ pairs, k ≠ .whitespace := by decide
    exact solid (all _ kind)
  | run kind =>
    have all : ∀ r ∈ runs, r.1 ≠ .whitespace := by decide
    exact solid (all _ kind)
  | string => exact solid (by decide)
  | emptyName => exact absurd ⟨rfl, rfl⟩ apart
  | blank spaced =>
    refine ⟨_, rfl, fun _ => ⟨spaced, fun d first => ?_⟩⟩
    have fails := head?_dropWhile_not isSpacing rest
    simpa [first] using fails
  | name => exact solid (by decide)

theorem spaced_of_scan {cs : List Char} (scanned : scan line col cs = .ok ts)
    (apart : ¬['(', ')'] <:+: cs) :
    Expr.Spaced ts ∧ ∀ t, ts.head? = some t → t.isBlank = true →
      ∃ c, cs.head? = some c ∧ isSpacing c = true := by
  fun_induction scan line col cs generalizing ts with
  | case1 =>
    cases scanned
    exact ⟨.nil, fun t none => by cases none⟩
  | case2 | case3 => cases scanned
  | case4 line col c rest s stepped more left ih =>
    cases scanned
    have later : ¬['(', ')'] <:+: s.rest := fun inside =>
      apart (inside.trans ((follows_step stepped).suffix.isInfix.trans (suffix_cons c rest).isInfix))
    obtain ⟨t, one, blank⟩ := (reads_step stepped).token (by
      rintro ⟨opens, closes⟩
      obtain ⟨tail, rfl⟩ := head?_eq_some_iff.mp closes
      exact apart (opens ▸ (prefix_append ['(', ')'] tail).isInfix))
    obtain ⟨spaced, starts⟩ := ih left later
    rw [one]
    refine ⟨?_, fun t' first isBlank => ⟨c, rfl, ?_⟩⟩
    · refine isChain_cons.mpr ⟨fun u next both => ?_, spaced⟩
      -- The blank was read to its end, so what follows it is not a blank.
      obtain ⟨d, first, spacing⟩ := starts u next both.2
      rw [(blank both.1).2 d first] at spacing
      cases spacing
    · cases first
      exact (blank isBlank).1

end Lexer

theorem Source.spaced_tokens {s : Source} (read : s.tokens = .ok ts)
    (apart : ¬['(', ')'] <:+: s.code.toList) : Expr.Spaced ts := by
  have blank {cs : List Char} (apart : ¬['(', ')'] <:+: cs) : ¬['(', ')'] <:+: cs ++ [' '] := by
    intro inside
    rcases infix_concat_iff.mp inside with ⟨front, whole⟩ | inside
    · have last := congrArg List.getLast? whole
      simp at last
    · exact apart inside
  have padded : ¬['(', ')'] <:+: (s.code ++ lexerPadding).toList := by
    simpa [lexerPadding] using blank (blank (blank apart))
  exact (Lexer.spaced_of_scan (Source.scan_of_tokens read) padded).1

/-- Reading keeps the order of the tokens: where no two blanks stand side by side, the tokens that an
expression holds are a subsequence of those that it was read from. The tokens of a text without `()`
are such. -/
theorem spelling_in_order (src : Source) (tokens : List Token) :
    (∀ e, Expr.Spaced tokens → Expr.ofTokens src tokens = .ok e →
      (Expr.spelling e).Sublist tokens) ∧
    ∀ text : Source, ¬['(', ')'] <:+: text.code.toList → text.tokens = .ok tokens →
      Expr.Spaced tokens :=
  ⟨fun _ spaced read => Expr.sublist_of_ofTokens read spaced,
    fun _ apart read => Source.spaced_tokens read apart⟩

/-- A call whose first argument is an item of a list and whose second one is a sum. -/
def itemAndSum : Source := ⟨"main.db", "f  [a, -b][0],  c + d"⟩

def itemAndSumTokens : List Token :=
  [⟨.name, "f", 1, 0⟩, ⟨.whitespace, "  ", 1, 2⟩, ⟨.lSquare, "[", 1, 3⟩, ⟨.name, "a", 1, 4⟩,
    ⟨.comma, ",", 1, 5⟩, ⟨.whitespace, " ", 1, 6⟩, ⟨.subtract, "-", 1, 7⟩, ⟨.name, "b", 1, 8⟩,
    ⟨.rSquare, "]", 1, 9⟩, ⟨.lSquare, "[", 1, 10⟩, ⟨.name, "0", 1, 11⟩, ⟨.rSquare, "]", 1, 12⟩,
    ⟨.comma, ",", 1, 13⟩, ⟨.whitespace, "  ", 1, 15⟩, ⟨.name, "c", 1, 16⟩, ⟨.whitespace, " ", 1, 17⟩,
    ⟨.add, "+", 1, 18⟩, ⟨.whitespace, " ", 1, 19⟩, ⟨.name, "d", 1, 20⟩, ⟨.whitespace, "   ", 1, 23⟩]

theorem spelling_in_order_itemAndSum : ∃ e, ¬['(', ')'] <:+: itemAndSum.code.toList ∧
    itemAndSum.tokens = .ok itemAndSumTokens ∧
    Expr.ofTokens itemAndSum itemAndSumTokens = .ok e ∧
    (Expr.spelling e).map Token.text = ["f", "a", "-", "b", "0", "c", "+", "d"] ∧
    (Expr.spelling e).Sublist itemAndSumTokens := by
  obtain ⟨keeps, spaced⟩ := spelling_in_order itemAndSum itemAndSumTokens
  have apart : ¬['(', ')'] <:+: itemAndSum.code.toList := by decide +kernel
  have cut : itemAndSum.tokens = .ok itemAndSumTokens := by decide +kernel
  have read : ∃ e, Expr.ofTokens itemAndSum itemAndSumTokens = .ok e ∧
      (Expr.spelling e).map Token.text = ["f", "a", "-", "b", "0", "c", "+", "d"] :=
    ⟨_, by cbv, by cbv⟩
  obtain ⟨e, read, spelled⟩ := read
  exact ⟨e, apart, cut, read, spelled, keeps e (spaced itemAndSum apart cut) read⟩

/-! ## Tokens that are lost -/

namespace Expr

variable {s : Split} {R : List Token → Expr → Prop}

/-- The tokens of a form outside its parts. -/
def Split.own : Split → List Token
  | value t => [t]
  | list _ => []
  | call name _ => [name]
  | index _ _ => []
  | binary _ t _ _ => [t]
  | unary op _ => [op]
  | unaryCall op name _ => [op, name]

theorem spelling_expr_perm (long : es.length = s.parts.length) :
    (spelling (s.expr es)).Perm (s.own ++ spellings es) := by
  cases s with
  | value t =>
    rw [eq_nil_of_length_eq_zero long]
    exact .refl _
  | list items | call name args => exact .refl _
  | index l r | binary op t l r =>
    obtain ⟨l, r, rfl⟩ := length_eq_two.mp long
    simp [Split.expr, Split.own, spelling, spellings]
  | unary op e =>
    obtain ⟨e, rfl⟩ := length_eq_one_iff.mp long
    simp [Split.expr, Split.own, spelling, spellings]
  | unaryCall op name arg => exact .refl _

theorem count_joined (long : ps.length = ts.length + 1) :
    (joined ps ts).count t = ps.flatten.count t + ts.count t := by
  induction ts generalizing ps with
  | nil => cases ps <;> rfl
  | cons u ts ih =>
    cases ps with
    | nil => cases long
    | cons p ps =>
      rw [joined, count_append, count_cons, ih (Nat.succ.inj long), flatten_cons,
        count_append, count_cons]
      omega

theorem count_solid (isSolid : t.isBlank = false) : (solid tokens).count t = tokens.count t :=
  count_filter (by simp [isSolid])

theorem count_eq_zero_of_brackets (isSolid : t.isBlank = false) (plain : t.isBracket = false)
    (brackets : ∀ u ∈ tokens, u.isBlank = false → u.isBracket = true) : tokens.count t = 0 := by
  refine count_eq_zero.mpr fun member => ?_
  rw [brackets t member isSolid] at plain
  cases plain

/-- How often a token that is not a blank occurs: as a token of the form, in the parts, left over, and
as a bracket. -/
structure Tally (tokens : List Token) (s : Split) (others : List Token) (t : Token) (own brackets : Nat) :
    Prop where
  count : tokens.count t = own + s.parts.flatten.count t + others.count t + brackets
  own_le : own ≤ s.own.count t
  own_eq : Spaced tokens → own = s.own.count t
  plain : t.isBracket = false → brackets = 0

theorem Shape.tally (shape : Shape tokens s others) (isSolid : t.isBlank = false) :
    ∃ own brackets, Tally tokens s others t own brackets := by
  have opened {front : List Token} {head : Token} (opens : Opens tokens front head) :
      front.count t ≤ [head].count t ∧ (Spaced tokens → front.count t = [head].count t) := by
    rw [← count_solid isSolid]
    exact ⟨opens.only.count_le t, fun spaced => by rw [opens.spaced spaced]⟩
  cases shape with
  | @value head starts =>
    refine ⟨[head].count t, 0, ?_, Nat.le_refl _, fun _ => rfl, fun _ => rfl⟩
    obtain ⟨more, spelled⟩ := head?_eq_some_iff.mp starts
    rw [← count_solid isSolid, spelled, count_cons, count_singleton]
    simp [Split.parts, Nat.add_comm]
  | empty brackets =>
    exact ⟨0, tokens.count t, by simp [Split.parts], Nat.zero_le _, fun _ => rfl,
      fun plain => count_eq_zero_of_brackets isSolid plain brackets⟩
  | @list front back head items separators whole long _ opens opening closing =>
    refine ⟨0, front.count t + back.count t, ?_, Nat.zero_le _, fun _ => rfl, fun plain => ?_⟩
    · rw [whole, count_append, count_append, count_joined long, Split.parts]
      omega
    · rw [count_eq_zero_of_brackets isSolid plain closing, count_eq_zero_of_brackets isSolid plain]
      intro u member solid
      rw [opens.eq_of_mem member solid, opening]
  | @call front name args separators whole long _ opens =>
    refine ⟨front.count t, 0, ?_, (opened opens).1, (opened opens).2, fun _ => rfl⟩
    rw [whole, count_append, count_joined long, Split.parts]
    omega
  | @index front v i back bracket whole blank opening closing =>
    refine ⟨0, front.count t + [bracket].count t + back.count t, ?_, Nat.zero_le _, fun _ => rfl,
      fun plain => ?_⟩
    · rw [whole]
      simp only [count_append, count_cons, count_nil, flatten_cons, flatten_nil,
        Split.parts]
      omega
    · rw [count_eq_zero_of_brackets isSolid plain closing, count_eq_zero_of_brackets isSolid plain,
        count_eq_zero_of_brackets isSolid plain]
      · intro u member _
        rw [mem_singleton.mp member, opening]
      · intro u member solid
        rw [blank u member] at solid
        cases solid
  | @binary op u l r whole =>
    refine ⟨[u].count t, 0, ?_, Nat.le_refl _, fun _ => rfl, fun _ => rfl⟩
    rw [whole]
    simp only [count_append, count_cons, count_nil, flatten_cons, flatten_nil,
      Split.parts]
    omega
  | @unary front e op whole opens =>
    refine ⟨front.count t, 0, ?_, (opened opens).1, (opened opens).2, fun _ => rfl⟩
    rw [whole]
    simp [Split.parts]
  | @unaryCall front arg op name whole opens =>
    have both : (Split.unaryCall op name arg).own.count t = [op].count t + [name].count t := by
      show List.count t ([op] ++ [name]) = _
      rw [count_append]
    refine ⟨front.count t + [name].count t, 0, ?_, ?_, fun spaced => ?_, fun _ => rfl⟩
    · rw [whole]
      simp only [count_append, count_cons, count_nil, flatten_cons, flatten_nil,
        Split.parts]
      omega
    · rw [both]
      exact Nat.add_le_add_right (opened opens).1 _
    · rw [both, (opened opens).2 spaced]

/-- Reading comes to a part in which the token is left over, whose form is `s`. -/
def Remains (src : Source) (tokens : List Token) (s : Split) (t : Token) : Prop :=
  ∃ part others, Reaches src tokens part ∧ split src part = .ok s ∧ Shape part s others ∧ t ∈ others

theorem exists_lost_part (each : List.Forall₂ R ps es)
    (lost : (spellings es).count t < ps.flatten.count t) :
    ∃ before p after e, ps = before ++ p :: after ∧ (∀ b ∈ before, ∃ e, R b e) ∧ R p e ∧
      (spelling e).count t < p.count t := by
  induction each with
  | nil => cases lost
  | @cons p e ps es one _ ih =>
    rw [spellings, flatten_cons, count_append, count_append] at lost
    by_cases here : (spelling e).count t < p.count t
    · exact ⟨[], p, ps, e, rfl, fun b none => absurd none not_mem_nil, one, here⟩
    · obtain ⟨before, q, after, e', rfl, read, other, there⟩ := ih (by omega)
      refine ⟨p :: before, q, after, e', rfl, fun b member => ?_, other, there⟩
      rcases mem_cons.mp member with rfl | member
      · exact ⟨e, one⟩
      · exact read b member

theorem remains_of_count_lt (read : ofTokens src tokens = .ok e) (isSolid : t.isBlank = false)
    (plain : t.isBracket = false) (lost : (spelling e).count t < tokens.count t) :
    ∃ s, Remains src tokens s t := by
  refine ofTokens_induction (motive := fun tokens e => (spelling e).count t < tokens.count t →
    ∃ s, Remains src tokens s t) ?_ read lost
  intro tokens s others es splits shape each lost
  obtain ⟨own, brackets, tally⟩ := shape.tally isSolid
  by_cases left : t ∈ others
  · exact ⟨s, tokens, others, .whole tokens, splits, shape, left⟩
  · have whole := tally.count
    have few := tally.own_le
    rw [tally.plain plain, count_eq_zero.mpr left] at whole
    rw [(spelling_expr_perm each.length_eq.symm).count_eq, count_append] at lost
    have fewer : (spellings es).count t < s.parts.flatten.count t := by omega
    obtain ⟨before, p, after, e, parts, reads, ⟨-, inner⟩, there⟩ := exists_lost_part each fewer
    obtain ⟨s', part, others', reaches, splits', shape', left'⟩ := inner there
    refine ⟨s', part, others', .part splits parts (fun b member => ?_) reaches, splits', shape', left'⟩
    obtain ⟨e, read, -⟩ := reads b member
    exact ⟨e, read⟩

theorem count_spellings_lt (each : List.Forall₂ (fun p e => (spelling e).Sublist p ∧ R p e) ps es)
    (member : p ∈ ps) (lt : ∀ e, R p e → (spelling e).count t < p.count t) :
    (spellings es).count t < ps.flatten.count t := by
  induction each with
  | nil => cases member
  | @cons q e ps es one each ih =>
    rw [spellings, flatten_cons, count_append, count_append]
    rcases mem_cons.mp member with rfl | later
    · have here := lt e one.2
      have others := (spellings_sublist (each.imp fun p e => And.left)).count_le t
      omega
    · have here := one.1.count_le t
      have others := ih later
      omega

theorem count_lt_of_remains (read : ofTokens src tokens = .ok e) (spaced : Spaced tokens)
    (isSolid : t.isBlank = false) (remains : Remains src tokens s t) :
    (spelling e).count t < tokens.count t := by
  refine ofTokens_induction (motive := fun tokens e => Spaced tokens → ∀ s, Remains src tokens s t →
    (spelling e).count t < tokens.count t) ?_ read spaced s remains
  rintro tokens s others es splits shape each spaced s' ⟨part, others', reaches, splits', shape', left⟩
  have inOrder : List.Forall₂ (fun p e => (spelling e).Sublist p ∧
      ∀ s, Remains src p s t → (spelling e).count t < p.count t) s.parts es := by
    refine ((List.forall₂_and_left _ _).mpr ⟨fun p => isPart_of_mem_parts splits, each⟩).imp ?_
    rintro p e ⟨isPart, read, lost⟩
    have spaced' := spaced.of_infix isPart.1
    exact ⟨sublist_of_ofTokens read spaced', lost spaced'⟩
  rw [(spelling_expr_perm each.length_eq.symm).count_eq, count_append]
  cases reaches with
  | whole =>
    obtain rfl : s' = s := Except.ok.inj (splits'.symm.trans splits)
    obtain ⟨own, brackets, tally⟩ := shape'.tally isSolid
    have whole := tally.count
    have here := count_pos_iff.mpr left
    have fewer := (spellings_sublist (inOrder.imp fun p e => And.left)).count_le t
    rw [tally.own_eq spaced] at whole
    omega
  | @part _ p _ s'' before after splits'' parts _ inside =>
    obtain rfl : s'' = s := Except.ok.inj (splits''.symm.trans splits)
    obtain ⟨own, brackets, tally⟩ := shape.tally isSolid
    have whole := tally.count
    have fewer := count_spellings_lt inOrder (by simp [parts])
      fun e lost => lost s' ⟨part, others', inside, splits', shape', left⟩
    rw [tally.own_eq spaced] at whole
    omega

/-- A comma between two items of a list or two arguments of a call, at any depth. -/
def Separates (src : Source) (tokens : List Token) (t : Token) : Prop :=
  t.kind = .comma ∧ ∃ s, Remains src tokens s t ∧ ∀ head, s ≠ .value head

/-- A token that reading passes over: one behind the token of a value, or one that parts items or
arguments without being a comma. -/
def Overlooked (src : Source) (tokens : List Token) (t : Token) : Prop :=
  ∃ s, Remains src tokens s t ∧ ((∃ head, s = .value head) ∨ t.kind ≠ .comma)

theorem exists_remains_iff :
    (∃ s, Remains src tokens s t) ↔ Separates src tokens t ∨ Overlooked src tokens t := by
  constructor
  · rintro ⟨s, remains⟩
    by_cases plain : (∃ head, s = .value head) ∨ t.kind ≠ .comma
    · exact .inr ⟨s, remains, plain⟩
    · rw [not_or, not_exists, not_not] at plain
      exact .inl ⟨plain.2, s, remains, plain.1⟩
  · rintro (⟨-, s, remains, -⟩ | ⟨s, remains, -⟩)
    · exact ⟨s, remains⟩
    · exact ⟨s, remains⟩

/-- What reading loses. A token other than a blank or a bracket that the expression holds less often than
it stands in the tokens separates items or arguments, or it is overlooked; and, where no two blanks stand
side by side, every such token is lost. So an expression holds all that it should exactly where no token
is overlooked. -/
theorem lost_iff_separates_or_overlooked (src : Source) (tokens : List Token) (e : Expr) (t : Token)
    (read : ofTokens src tokens = .ok e) (isSolid : t.isBlank = false) (plain : t.isBracket = false) :
    ((spelling e).count t < tokens.count t → Separates src tokens t ∨ Overlooked src tokens t) ∧
    (Spaced tokens → Separates src tokens t ∨ Overlooked src tokens t →
      (spelling e).count t < tokens.count t) := by
  rw [← exists_remains_iff]
  refine ⟨remains_of_count_lt read isSolid plain, ?_⟩
  rintro spaced ⟨s, remains⟩
  exact count_lt_of_remains read spaced isSolid remains

/-- Two strings side by side. -/
def twoStrings : Source := ⟨"main.db", "\"a\"\"b\""⟩

/-- Their tokens, without the blanks that end the text. -/
def twoStringsTokens : List Token := [⟨.string, "a", 1, 2⟩, ⟨.string, "b", 1, 5⟩]

theorem overlooked_second_string :
    ofTokens twoStrings twoStringsTokens = .ok (.value ⟨.string, "a", 1, 2⟩) ∧
      Overlooked twoStrings twoStringsTokens ⟨.string, "b", 1, 5⟩ := by
  have read : ofTokens twoStrings twoStringsTokens = .ok (.value ⟨.string, "a", 1, 2⟩) := by cbv
  have lost := (lost_iff_separates_or_overlooked twoStrings twoStringsTokens _ ⟨.string, "b", 1, 5⟩ read
    rfl rfl).1 (by decide)
  refine ⟨read, lost.resolve_left ?_⟩
  rintro ⟨⟨⟩, -⟩

/-- An expression can be read although it does not hold all that it should. -/
theorem second_string_lost : twoStrings.tokens.map trimTokens = .ok twoStringsTokens ∧
    ∃ e t, ofTokens twoStrings twoStringsTokens = .ok e ∧ t ∈ twoStringsTokens ∧ t.isBlank = false ∧
      t.isBracket = false ∧ ¬Separates twoStrings twoStringsTokens t ∧ t ∉ spelling e := by
  refine ⟨by decide +kernel, .value ⟨.string, "a", 1, 2⟩, ⟨.string, "b", 1, 5⟩, by cbv,
    by decide, rfl, rfl, ?_, by decide⟩
  rintro ⟨⟨⟩, -⟩

end Expr

end DreamBerd
