import DreamBerd.Proofs.Layout
import DreamBerd.Proofs.Places
import DreamBerd.Proofs.Statements

/-!
# How reading an expression fails

`Expr.split` cuts the tokens of an expression into the tokens of its parts, and `Expr.ofTokens` reads
the parts in their turn. A part is a shorter piece of the whole, so the bound on the levels is never
used up (`ofTokens_eq`), and reading fails with the fault of the first part that cannot be split
(`ofTokens_eq_error_iff`).

Almost every fault is a report that points at a token. `split_outcome` lists the others: there is
nothing to split, or splitting breaks down, and `Stumbles` says exactly where it does.
-/

namespace DreamBerd

open List

def Fault.Reported (f : Fault) : Prop := ∃ r, f = .report r

namespace Expr

variable {src : Source} {tokens part ts whole : List Token} {f : Fault} {w : Widest} {head t : Token}
  {i trail n stop lead : Nat} {depth : Int} {previous : Option Token} {best : Option Widest}
  {inner : List Token → Except Fault Expr}

/-! ## Parts -/

def Split.parts : Split → List (List Token)
  | value _ => []
  | list items => items
  | call _ args => args
  | index v i => [v, i]
  | binary _ _ l r => [l, r]
  | unary _ e => [e]
  | unaryCall _ _ arg => [arg]

/-- The expression of a form whose parts have been read. -/
def Split.expr : Split → List Expr → Expr
  | value t, _ => .value t
  | list _, items => .list items
  | call name _, args => .call name args
  | index _ _, [v, i] => .index v i
  | binary op t _ _, [l, r] => .binary op t l r
  | unary op _, [e] => .unary op e
  | unaryCall op name _, args => .unary op (.call name args)
  | _, _ => .list []

def buildWith (src : Source) (inner : List Token → Except Fault Expr) (tokens : List Token) :
    Except Fault Expr := do
  let s ← split src tokens
  return s.expr (← s.parts.mapM inner)

theorem build_succ (fuel : Nat) (tokens : List Token) :
    build src (fuel + 1) tokens = buildWith src (build src fuel) tokens := by
  unfold buildWith
  rw [build]
  cases split src tokens with
  | error f => rfl
  | ok s =>
    cases s with
    | value t => rfl
    | list items => rfl
    | call name args => rfl
    | _ =>
      show _ = (Split.parts _).mapM (build src fuel) >>= fun es => pure (Split.expr _ es)
      simp only [Split.parts, mapM_cons, mapM_nil, bind_assoc, pure_bind, Split.expr]

def Part (tokens part : List Token) : Prop := part <:+: tokens ∧ part.length < tokens.length

theorem Part.slice (some : tokens ≠ []) (start stop : Nat) :
    Part tokens (slice tokens (start + 1) stop) := by
  have positive := length_pos_iff.mpr some
  refine ⟨(drop_suffix _ _).isInfix.trans ( take_prefix _ _).isInfix, ?_⟩
  simp only [Expr.slice, length_drop, length_take]
  omega

theorem Part.slice_of_lt (inside : stop < tokens.length) (start : Nat) :
    Part tokens (Expr.slice tokens start stop) := by
  refine ⟨(drop_suffix _ _).isInfix.trans ( take_prefix _ _).isInfix, ?_⟩
  simp only [Expr.slice, length_drop, length_take]
  omega

theorem Part.drop (some : tokens ≠ []) (n : Nat) : Part tokens (tokens.drop (n + 1)) := by
  have positive := length_pos_iff.mpr some
  refine ⟨(drop_suffix _ _).isInfix, ?_⟩
  rw [length_drop]
  omega

theorem Part.take (inside : n < tokens.length) : Part tokens (tokens.take n) := by
  refine ⟨( take_prefix _ _).isInfix, ?_⟩
  rw [length_take]
  omega

theorem Part.cuts (some : tokens ≠ []) {starts stops : List Nat} :
    ∀ p ∈ cuts tokens starts stops, Part tokens p := by
  intro p member
  obtain ⟨⟨start, stop⟩, -, rfl⟩ := mem_map.mp member
  exact .slice some start stop

theorem drop_succ_of_drop (rest : tokens.drop i = t :: ts) : tokens.drop (i + 1) = ts := by
  rw [← drop_drop, rest]
  rfl

theorem getElem?_of_drop (rest : tokens.drop i = t :: ts) : tokens[i]? = some t := by
  rw [← head?_drop, rest]
  rfl

theorem Part.argument {name : Token} {rest : List Token} (named : tokens.drop n = name :: rest) :
    Part tokens rest := by
  have some : tokens ≠ [] := by
    rintro rfl
    simp at named
  rw [← drop_succ_of_drop named]
  exact .drop some n

inductive Outcome (src : Source) (tokens : List Token) (broken : Prop) : Except Fault Split → Prop
  | parts {s : Split} : (∀ p ∈ s.parts, Part tokens p) → Outcome src tokens broken (.ok s)
  | reported {f : Fault} : (src.Holds tokens → f.Reported) → Outcome src tokens broken (.error f)
  | breaks : broken → Outcome src tokens broken (.error (.breakdown .position))

theorem Outcome.mono {broken broken' : Prop} (outcome : Outcome src tokens broken r)
    (weaker : broken → broken') : Outcome src tokens broken' r := by
  cases outcome with
  | parts parts => exact .parts parts
  | reported reported => exact .reported reported
  | breaks because => exact .breaks (weaker because)

/-! ## The steps of splitting -/

theorem reported_of_checkBlanks (holds : src.Holds ts) (refused : checkBlanks src ts = .error f) :
    f.Reported := by
  fun_induction checkBlanks src ts with
  | case1 => cases refused
  | case2 | case3 =>
    cases refused
    exact holds.head.atToken _
  | case4 _ _ _ _ ih => exact ih holds.tail refused

theorem reported_of_widestFrom (holds : src.Holds ts)
    (refused : widestFrom src previous depth i best ts = .error f) : f.Reported := by
  fun_induction widestFrom src previous depth i best ts
  case case1 => cases refused
  case case3 | case5 =>
    cases refused
    exact holds.head.atToken _
  case case2 ih | case4 ih | case6 ih | case7 ih => exact ih holds.tail refused

theorem token_of_widestFrom (rest : whole.drop i = ts)
    (known : ∀ b, best = some b → whole[b.position]? = some b.token)
    (found : widestFrom src previous depth i best ts = .ok (some w)) :
    whole[w.position]? = some w.token := by
  fun_induction widestFrom src previous depth i best ts
  case case1 => exact known w (Except.ok.inj found)
  case case3 | case5 => cases found
  case case2 ih | case4 ih | case7 ih => exact ih (drop_succ_of_drop rest) known found
  case case6 ih =>
    refine ih (drop_succ_of_drop rest) ?_ found
    intro b chosen
    split at chosen
    · cases chosen
      exact getElem?_of_drop rest
    · exact known b chosen

theorem token_of_widest (found : widest src tokens = .ok (some w)) :
    tokens[w.position]? = some w.token := by
  refine token_of_widestFrom drop_zero ?_ found
  rintro b ⟨⟩

theorem position_of_widest (found : widest src tokens = .ok (some w)) : w.position < tokens.length :=
  (List.getElem?_eq_some_iff.mp (token_of_widest found)).1

theorem indexStart?_lt (found : indexStart? tokens depth stop = some i) : i < stop := by
  fun_induction indexStart? tokens depth stop
  case case1 => cases found
  case case2 =>
    cases found
    exact Nat.lt_succ_self _
  case case3 ih => exact Nat.lt_succ_of_lt (ih found)

/-- Looking for the blanks after a comma fails where there is nothing after it. -/
theorem callCommas_eq_error_iff {width : Nat} :
    callCommas width i ts = .error f ↔
      f = .breakdown .position ∧ 0 < width ∧ ∃ t, ts.getLast? = some t ∧ t.text = "," := by
  fun_induction callCommas width i ts
  case case1 => simp
  case case2 noWidth ih =>
    rw [map_eq_error_iff, ih]
    simp [noWidth]
  case case3 spelled wide =>
    constructor
    · rintro ⟨⟩
      exact ⟨rfl, Nat.pos_of_ne_zero wide, _, rfl, spelled⟩
    · rintro ⟨rfl, -⟩
      rfl
  case case4 ih => rw [map_eq_error_iff, ih, getLast?_cons_cons]
  case case5 ih => rw [ih, getLast?_cons_cons]
  case case6 t ts other ih =>
    cases ts with
    | nil => simp [callCommas, other]
    | cons next ts => rw [ih, getLast?_cons_cons]

/-! ## Forms -/

theorem outcome_splitList (long : lead + 1 < tokens.length) :
    Outcome src tokens False (splitList src tokens lead trail) := by
  have some : tokens ≠ [] := ne_nil_of_length_pos (by omega)
  have last : tokens.length - trail - 2 < tokens.length := by omega
  unfold splitList
  rw [getElem?_eq_getElem long, getElem?_eq_getElem last]
  dsimp only
  split
  · exact .reported fun holds => (holds _ (getElem_mem last)).atToken _
  · split
    · refine .parts fun p member => ?_
      rw [Split.parts, mem_singleton] at member
      rw [member]
      exact .slice some _ _
    · exact .parts (Part.cuts some)

theorem split_eq_bind (some : tokens ≠ []) :
    split src tokens = checkBlanks src tokens.tail.dropLast >>= fun _ =>
      if (solid tokens).map Token.kind = [.lSquare, .rSquare] then .ok (.list [])
      else widest src tokens >>= fun w =>
        (solid tokens).head?.elim (.error (.breakdown .position)) fun head =>
          splitNamed src tokens (solid tokens) (head.is .semicolon || head.is .subtract) head
            (leading tokens) (trailing tokens) w := by
  rw [split, if_neg (by simpa using some)]

theorem length_solid_add_le (tokens : List Token) :
    (solid tokens).length + leading tokens ≤ tokens.length := by
  cases tokens with
  | nil => exact Nat.le_refl 0
  | cons t ts =>
    have fewer : (solid ts).length ≤ ts.length := length_filter_le _ ts
    cases blank : t.isBlank with
    | true | false => simpa [leading, blank] using fewer

theorem outcome_splitAtom (starts : (solid tokens).head? = some head) :
    Outcome src tokens False (splitAtom src tokens (solid tokens) head (leading tokens) trail) := by
  obtain ⟨more, spelled⟩ := head?_eq_some_iff.mp starts
  have room := length_solid_add_le tokens
  rw [spelled, length_cons] at room
  have inside : head ∈ tokens := mem_of_mem_filter (spelled ▸ mem_cons_self)
  have some : tokens ≠ [] := ne_nil_of_mem inside
  unfold splitAtom
  split
  · exact .reported fun holds => (holds head inside).atToken _
  · split
    · rename_i closes
      apply outcome_splitList
      -- The bracket that closes the list stands behind the one that opens it.
      cases more with
      | nil =>
        rw [spelled] at closes
        cases closes.2
      | cons second more =>
        rw [length_cons] at room
        omega
    · split
      · dsimp only
        split
        · rename_i i found
          have before := indexStart?_lt found
          refine .parts fun p member => ?_
          rcases mem_pair.mp member with rfl | rfl
          · exact .slice_of_lt (by omega) _
          · exact .slice some _ _
        · exact .parts fun p none => absurd none not_mem_nil
      · exact .parts fun p none => absurd none not_mem_nil

/-- A name and the start of an argument come first. -/
def IsCall (tokens : List Token) : Prop :=
  ∃ name first more, solid tokens = name :: first :: more ∧ name.kind = .name ∧
    (first.kind = .name ∨ first.kind = .lSquare ∨ first.kind = .string)

/-- The arguments of a call are told apart by commas with blanks after them, and a comma comes
last. -/
structure EndsWithComma (tokens : List Token) (w : Widest) : Prop where
  comma : w.op = .comma
  wide : 0 < w.width
  isCall : IsCall tokens
  last : ∃ t, tokens.getLast? = some t ∧ t.text = ","

theorem EndsWithComma.signed_eq_false (ends : EndsWithComma tokens w)
    (starts : (solid tokens).head? = some head) :
    (head.is .semicolon || head.is .subtract) = false := by
  obtain ⟨name, first, more, spelled, kind, -⟩ := ends.isCall
  rw [spelled, head?_cons, Option.some.injEq] at starts
  rw [Token.is, Token.is, ← starts, kind]
  rfl

theorem outcome_splitOperator (starts : (solid tokens).head? = some head)
    (inside : w.position < tokens.length) :
    Outcome src tokens (EndsWithComma tokens w)
      (splitOperator src tokens (solid tokens) head (leading tokens) w) := by
  obtain ⟨more, spelled⟩ := head?_eq_some_iff.mp starts
  have among : head ∈ tokens := mem_of_mem_filter (spelled ▸ mem_cons_self)
  have some : tokens ≠ [] := ne_nil_of_mem among
  unfold splitOperator
  split
  · rename_i comma
    cases more with
    | nil =>
      rw [spelled]
      simp only [getElem?_cons_succ, getElem?_nil, Bool.and_false]
      exact .reported fun holds => (holds head among).atToken _
    | cons first more =>
      rw [spelled]
      simp only [getElem?_cons_succ, getElem?_cons_zero]
      split
      · exact .reported fun holds => (holds head among).atToken _
      · rename_i called
        split
        · rename_i failed
          obtain ⟨rfl, wide, ending⟩ := callCommas_eq_error_iff.mp failed
          refine .breaks ⟨comma, wide, ⟨head, first, more, spelled, ?_⟩, ending⟩
          simpa only [Bool.not_eq_true', Bool.not_eq_false, Bool.and_eq_true, Bool.or_eq_true,
            beq_iff_eq, or_assoc] using called
        · exact .parts (Part.cuts some)
  · refine .parts fun p member => ?_
    rcases mem_pair.mp member with rfl | rfl
    · exact .take inside
    · exact .drop some _

theorem outcome_splitRest {signed : Bool} {w : Option Widest}
    (starts : (solid tokens).head? = some head) (found : widest src tokens = .ok w) :
    Outcome src tokens (∃ b, w = some b ∧ EndsWithComma tokens b)
      (splitRest src tokens (solid tokens) signed head (leading tokens) trail w) := by
  have some : tokens ≠ [] := by
    rintro rfl
    cases starts
  have signedOr {broken : Prop} {c : Prop} [Decidable c] {r : Except Fault Split}
      (rest : Outcome src tokens broken r) : Outcome src tokens broken
        (if c then .ok (.unary head (tokens.drop (leading tokens + 1))) else r) := by
    split
    · refine .parts fun p member => ?_
      rw [mem_singleton.mp member]
      exact .drop some _
    · exact rest
  cases w with
  | none => exact signedOr ((outcome_splitAtom starts).mono False.elim)
  | some b =>
    exact signedOr ((outcome_splitOperator starts (position_of_widest found)).mono
      fun ends => ⟨b, rfl, ends⟩)

/-- Blanks wider than those of any operator part the name of a call from its argument. -/
def CallsAtOnce (tokens : List Token) (w : Widest) : Prop :=
  ∃ name gap arg more, tokens.drop (leading tokens) = name :: gap :: arg :: more ∧
    name.is .name = true ∧ gap.isBlank = true ∧ startsArgument arg.kind = true ∧ w.width < gap.width

/-- Splitting comes to a position that is not there: the blanks and the operators are as they should
be, but there are only blanks, or the comma that ends a call is looked behind. -/
inductive Stumbles (src : Source) (tokens : List Token) : Prop
  | blanks {w : Option Widest} (checked : checkBlanks src tokens.tail.dropLast = .ok ())
      (found : widest src tokens = .ok w) (some : tokens ≠ [])
      (blank : ∀ t ∈ tokens, t.isBlank = true) : Stumbles src tokens
  | comma {w : Widest} (checked : checkBlanks src tokens.tail.dropLast = .ok ())
      (found : widest src tokens = .ok (some w)) (ends : EndsWithComma tokens w)
      (apart : ¬CallsAtOnce tokens w) : Stumbles src tokens

theorem outcome_split (some : tokens ≠ []) : Outcome src tokens (Stumbles src tokens) (split src tokens) := by
  rw [split_eq_bind some]
  cases checked : checkBlanks src tokens.tail.dropLast with
  | error f =>
    refine .reported fun holds => reported_of_checkBlanks (holds.subset ?_) checked
    exact List.Subset.trans (dropLast_subset _) (tail_sublist _).subset
  | ok _ =>
    split
    · exact .parts fun p none => absurd none not_mem_nil
    cases found : widest src tokens with
    | error f => exact .reported fun holds => reported_of_widestFrom holds found
    | ok w =>
      show Outcome _ _ _ (Option.elim _ _ _)
      cases starts : (solid tokens).head? with
      | none =>
        refine .breaks (.blanks checked found some fun t member => ?_)
        have none := filter_eq_nil_iff.mp (head?_eq_none_iff.mp starts) t member
        simpa using none
      | some head =>
        have otherwise (apart : ∀ b, w = .some b → EndsWithComma tokens b → ¬CallsAtOnce tokens b)
            (signed : Bool) (trail : Nat) : Outcome src tokens (Stumbles src tokens)
              (splitRest src tokens (solid tokens) signed head (leading tokens) trail w) := by
          refine (outcome_splitRest starts found).mono ?_
          rintro ⟨b, rfl, ending⟩
          exact .comma checked found ending (apart b rfl ending)
        rw [Option.elim_some, splitNamed]
        split
        · rename_i name gap arg more opened
          have argument : ∀ p ∈ [gap :: arg :: more], Part tokens p := by
            intro p member
            rw [mem_singleton.mp member]
            exact .argument opened
          split
          · split
            · exact .parts argument
            · exact .parts argument
          · rename_i refused
            apply otherwise
            rintro b rfl ending ⟨name', gap', arg', more', dropped, named, blank, argues, wide⟩
            rw [ending.signed_eq_false starts] at opened
            obtain ⟨rfl, rfl, rfl, rfl⟩ : name' = name ∧ gap' = gap ∧ arg' = arg ∧ more' = more := by
              simpa using dropped.symm.trans opened
            exact refused (by simp [named, blank, argues, exceeds, wide])
        · rename_i short
          apply otherwise
          rintro b rfl ending ⟨name, gap, arg, more, dropped, -⟩
          rw [ending.signed_eq_false starts] at short
          exact short name gap arg more dropped

theorem EndsWithComma.splitRest_eq (ends : EndsWithComma tokens w)
    (starts : (solid tokens).head? = some head) :
    splitRest src tokens (solid tokens) false head lead trail (some w) =
      .error (.breakdown .position) := by
  obtain ⟨name, first, more, spelled, kind, argues⟩ := ends.isCall
  rw [spelled, head?_cons, Option.some.injEq] at starts
  have commas : callCommas w.width 0 tokens = .error (.breakdown .position) :=
    callCommas_eq_error_iff.mpr ⟨rfl, ends.wide, ends.last⟩
  show splitOperator src tokens (solid tokens) head lead w = _
  unfold splitOperator
  rw [if_pos ends.comma, spelled, ← starts]
  rcases argues with kind' | kind' | kind' <;> simp [kind, kind', commas]

theorem Stumbles.split_eq (stumbles : Stumbles src tokens) :
    split src tokens = .error (.breakdown .position) := by
  have some : tokens ≠ [] := by
    cases stumbles with
    | blanks _ _ some _ => exact some
    | comma _ _ ends _ =>
      obtain ⟨t, last, -⟩ := ends.last
      rintro rfl
      cases last
  rw [split_eq_bind some]
  cases stumbles with
  | blanks checked found _ blank =>
    have none : solid tokens = [] := by
      rw [filter_eq_nil_iff]
      intro t member
      simp [blank t member]
    rw [checked, found, none]
    rfl
  | @comma w checked found ends apart =>
    obtain ⟨name, arg, more, spelled, kind, argues⟩ := ends.isCall
    have starts : (solid tokens).head? = .some name := by rw [spelled, head?_cons]
    have notList : (solid tokens).map Token.kind ≠ [.lSquare, .rSquare] := by simp [spelled, kind]
    rw [checked, ok_bind, if_neg notList, found, ok_bind, starts, Option.elim_some,
      ends.signed_eq_false starts, splitNamed]
    split
    · rename_i name' gap arg' more' opened
      rw [if_neg]
      · exact ends.splitRest_eq starts
      · intro atOnce
        simp only [Bool.and_eq_true, exceeds, decide_eq_true_eq] at atOnce
        obtain ⟨⟨⟨named, blank⟩, argues'⟩, wide⟩ := atOnce
        exact apart ⟨name', gap, arg', more', opened, named, blank, argues', wide⟩
    · exact ends.splitRest_eq starts

theorem isPart_of_mem_parts (splits : split src tokens = .ok s) (member : part ∈ s.parts) :
    Part tokens part := by
  have some : tokens ≠ [] := by
    rintro rfl
    cases splits
  have outcome := @outcome_split src tokens some
  rw [splits] at outcome
  cases outcome with
  | parts parts => exact parts part member

theorem fault_of_split (holds : src.Holds tokens) (failed : split src tokens = .error f) :
    f.Reported ∨ f = .plain .nothingToRead ∨ f = .breakdown .position ∧ Stumbles src tokens := by
  by_cases some : tokens = []
  · subst some
    cases failed
    exact Or.inr (Or.inl rfl)
  · have outcome := @outcome_split src tokens some
    rw [failed] at outcome
    cases outcome with
    | reported reported => exact Or.inl (reported holds)
    | breaks stumbles => exact Or.inr (Or.inr ⟨rfl, stumbles⟩)

theorem split_eq_breakdown_iff (holds : src.Holds tokens) :
    split src tokens = .error (.breakdown .position) ↔ Stumbles src tokens := by
  refine ⟨fun failed => ?_, Stumbles.split_eq⟩
  rcases fault_of_split holds failed with ⟨r, reported⟩ | plain | ⟨-, stumbles⟩
  · cases reported
  · cases plain
  · exact stumbles

/-! ## Reading every part -/

theorem buildWith_congr {inner' : List Token → Except Fault Expr}
    (same : ∀ p, Part tokens p → inner p = inner' p) :
    buildWith src inner tokens = buildWith src inner' tokens := by
  refine bind_congr_ok fun s splits => ?_
  rw [mapM_congr fun p member => same p (isPart_of_mem_parts splits member)]

theorem Part.holds (holds : src.Holds tokens) (isPart : Part tokens part) : src.Holds part :=
  holds.subset isPart.1.subset

theorem build_eq_build {fuel fuel' : Nat} (enough : tokens.length < fuel)
    (enough' : tokens.length < fuel') : build src fuel tokens = build src fuel' tokens := by
  induction fuel generalizing fuel' tokens with
  | zero => cases enough
  | succ fuel ih =>
    cases fuel' with
    | zero => cases enough'
    | succ fuel' =>
      rw [build_succ, build_succ]
      apply buildWith_congr
      intro p isPart
      have shorter := isPart.2
      exact ih (by omega) (by omega)

/-- The bound on the levels is never used up, so the reader unfolds without it. -/
theorem ofTokens_eq : ofTokens src tokens = buildWith src (ofTokens src) tokens := by
  unfold ofTokens
  rw [build_succ]
  apply buildWith_congr
  intro p isPart
  exact build_eq_build isPart.2 (Nat.lt_succ_self p.length)

inductive Reaches (src : Source) : List Token → List Token → Prop
  | whole (tokens : List Token) : Reaches src tokens tokens
  | part {tokens p part : List Token} {s : Split} {before after : List (List Token)}
      (splits : split src tokens = .ok s) (parts : s.parts = before ++ p :: after)
      (read : ∀ b ∈ before, ∃ e, ofTokens src b = .ok e) (inside : Reaches src p part) :
      Reaches src tokens part

theorem buildWith_eq_error_iff :
    buildWith src inner tokens = .error f ↔ split src tokens = .error f ∨
      ∃ s, split src tokens = .ok s ∧ s.parts.mapM inner = .error f := by
  refine bind_eq_error_iff.trans (or_congr Iff.rfl (exists_congr fun s => and_congr Iff.rfl ?_))
  exact bind_pure_eq_error_iff

theorem ofTokens_eq_error_iff :
    ofTokens src tokens = .error f ↔ ∃ part, Reaches src tokens part ∧ split src part = .error f := by
  induction length : tokens.length using Nat.strongRecOn generalizing tokens with
  | ind n ih =>
    rw [ofTokens_eq, buildWith_eq_error_iff]
    constructor
    · rintro (failed | ⟨s, splits, failed⟩)
      · exact ⟨tokens, .whole tokens, failed⟩
      · obtain ⟨before, p, after, parts, read, fails⟩ := mapM_eq_error_iff.mp failed
        have isPart : Part tokens p := isPart_of_mem_parts splits (by simp [parts])
        obtain ⟨part, reaches, fails⟩ :=
          (ih p.length (length ▸ isPart.2) rfl).mp fails
        exact ⟨part, .part splits parts read reaches, fails⟩
    · rintro ⟨part, reaches, failed⟩
      cases reaches with
      | whole => exact Or.inl failed
      | @part _ p _ s before after splits parts read inside =>
        have isPart : Part tokens p := isPart_of_mem_parts splits (by simp [parts])
        refine Or.inr ⟨s, splits, mapM_eq_error_iff.mpr ⟨before, p, after, parts, read, ?_⟩⟩
        exact (ih p.length (length ▸ isPart.2) rfl).mpr ⟨part, inside, failed⟩

theorem Reaches.holds (holds : src.Holds tokens) (reaches : Reaches src tokens part) :
    src.Holds part := by
  induction reaches with
  | whole => exact holds
  | part splits parts _ _ ih =>
    exact ih ((isPart_of_mem_parts splits (by simp [parts])).holds holds)

end Expr

end DreamBerd
