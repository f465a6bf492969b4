import DreamBerd.Expr.Build
import DreamBerd.Token.Lexer
import Mathlib.Data.List.Basic

/-!
# Expressions laid out by blanks

A `Layout` is an expression tree of names, binary operators and calls in which every inner node has a
width. `Layout.chars` writes the tree down with that many blanks around the operator of a node, or
after the name and the commas of a call. `Layout.Stepped` asks that a node be wider than every node
below it.

`Layout.Spells` relates a layout to the tokens that its text is cut into, wherever these stand in the
source, and `Lexes.layout` shows that the lexer finds such tokens. `Layout.Mirrors` relates it to the
expression that has the same shape, operators and names.
-/

namespace DreamBerd

open List

variable {rest cs more : List Char} {c : Char} {line col n : Nat} {p : Char → Bool} {k : TokenKind}

/-! ## Names -/

theorem Lexer.opensName_of_isNameChar (continues : isNameChar c = true) (noPoint : c ≠ '.') :
    opensName c = true := by
  have others : ([' ', '(', ')', '\t', '"', Char.ofNat 39] ++ marks).all
      (fun d => !isNameChar d || d == '.') = true := rfl
  have absent : c ∉ [' ', '(', ')', '\t', '"', Char.ofNat 39] ++ marks := by
    intro member
    have only := all_eq_true.mp others c member
    rw [continues, Bool.not_true, Bool.false_or, beq_iff_eq] at only
    exact noPoint only
  simp only [mem_append, mem_cons, not_or] at absent
  obtain ⟨⟨blank, opening, closing, tab, quotes, quote⟩, noMark⟩ := absent
  simp [opensName, isSpacing, isQuote, blank, opening, closing, tab, quotes, quote, noMark]

/-- A name: a character that can open one, and characters that continue it. -/
structure Word where
  head : Char
  tail : List Char
  opens : Lexer.opensName head = true
  continues : ∀ c ∈ tail, Lexer.isNameChar c = true

namespace Word

def chars (w : Word) : List Char := w.head :: w.tail

def text (w : Word) : String := String.ofList w.chars

def ofChar (c : Char) (continues : Lexer.isNameChar c = true) (noPoint : c ≠ '.') : Word :=
  ⟨c, [], Lexer.opensName_of_isNameChar continues noPoint, by simp⟩

end Word

/-! ## Layouts -/

/-- An expression tree with a width at every inner node; a call has at least one argument. -/
inductive Layout where
  | name (word : Word)
  | binary (op : Operator) (width : Nat) (left right : Layout)
  | call (name : Word) (width : Nat) (arg : Layout) (args : List Layout)

namespace Layout

variable {P : Nat → Prop} {n : Nat}

def gap (n : Nat) : List Char := List.replicate n ' '

mutual

def chars : Layout → List Char
  | name w => w.chars
  | binary op n l r => chars l ++ (gap n ++ (op.symbol.toList ++ (gap n ++ chars r)))
  | call f n a as => f.chars ++ (gap n ++ (chars a ++ argChars n as))

/-- The text of the further arguments of a call: each stands after a comma and the blanks. -/
def argChars (n : Nat) : List Layout → List Char
  | [] => []
  | a :: as => ',' :: (gap n ++ (chars a ++ argChars n as))

end

def text (t : Layout) : String := String.ofList t.chars

mutual

def widths : Layout → List Nat
  | name _ => []
  | binary _ n l r => n :: (widths l ++ widths r)
  | call _ n a as => n :: (widths a ++ widthsAll as)

def widthsAll : List Layout → List Nat
  | [] => []
  | a :: as => widths a ++ widthsAll as

end

theorem forall_widths_binary {op : Operator} :
    (∀ v ∈ (binary op n l r).widths, P v) ↔
      P n ∧ (∀ v ∈ l.widths, P v) ∧ ∀ v ∈ r.widths, P v := by
  rw [widths]
  simp [or_imp, forall_and]

variable {a : Layout} {as : List Layout}

theorem forall_widths_call :
    (∀ v ∈ (call f n a as).widths, P v) ↔
      P n ∧ (∀ v ∈ a.widths, P v) ∧ ∀ v ∈ widthsAll as, P v := by
  rw [widths]
  simp [or_imp, forall_and]

theorem forall_widthsAll_cons :
    (∀ v ∈ widthsAll (a :: as), P v) ↔ (∀ v ∈ a.widths, P v) ∧ ∀ v ∈ widthsAll as, P v := by
  rw [widthsAll]
  simp [or_imp, forall_and]

mutual

/-- Each node is wider than all nodes below it, a call has blanks, and commas are no operators. -/
def Stepped : Layout → Prop
  | name _ => True
  | binary op n l r =>
    op ≠ .comma ∧ (∀ v ∈ widths l ++ widths r, v < n) ∧ Stepped l ∧ Stepped r
  | call _ n a as =>
    0 < n ∧ (∀ v ∈ widths a ++ widthsAll as, v < n) ∧ Stepped a ∧ SteppedAll as

def SteppedAll : List Layout → Prop
  | [] => True
  | a :: as => Stepped a ∧ SteppedAll as

end

mutual

/-- The expression has the shape of the layout, with the same operators and names and the arguments
in the same order. -/
def Mirrors : Layout → Expr → Prop
  | name w, .value t => t.kind = .name ∧ t.text = w.text
  | binary op _ l r, .binary op' t l' r' =>
    op' = op ∧ t.text = op.symbol ∧ Mirrors l l' ∧ Mirrors r r'
  | call f _ a as, .call t (e :: es) =>
    t.kind = .name ∧ t.text = f.text ∧ Mirrors a e ∧ MirrorsAll as es
  | _, _ => False

def MirrorsAll : List Layout → List Expr → Prop
  | [], [] => True
  | a :: as, e :: es => Mirrors a e ∧ MirrorsAll as es
  | _, _ => False

end

/-! ## Tokens of a layout -/

inductive Gap : Nat → List Token → Prop
  | nothing : Gap 0 []
  | blank {n : Nat} {t : Token} :
    t.kind = .whitespace → t.text = String.ofList (gap (n + 1)) → Gap (n + 1) [t]

def IsName (w : Word) (t : Token) : Prop := t.kind = .name ∧ t.text = w.text

def operatorKind : Operator → TokenKind
  | .add => .add
  | .sub => .subtract
  | .mul => .multiply
  | .div => .divide
  | .exp => .carrot
  | .gt => .greaterThan
  | .ge => .greaterEqual
  | .lt => .lessThan
  | .le => .lessEqual
  | .or => .pipe
  | .and => .and
  | .comma => .comma
  | .e | .ee | .eee | .eeee => .equal
  | .ne | .nee | .neee => .notEqual

def IsOperator (op : Operator) (t : Token) : Prop :=
  t.kind = operatorKind op ∧ t.text = op.symbol

mutual

def Spells : Layout → List Token → Prop
  | name w, ts => ∃ t, IsName w t ∧ ts = [t]
  | binary op n l r, ts =>
    ∃ left before o after right, Spells l left ∧ Gap n before ∧ IsOperator op o ∧ Gap n after ∧
      Spells r right ∧ ts = left ++ (before ++ (o :: (after ++ right)))
  | call f n a as, ts =>
    ∃ t blank first others, IsName f t ∧ Gap n blank ∧ Spells a first ∧ SpellsArgs n as others ∧
      ts = t :: (blank ++ (first ++ others))

def SpellsArgs (n : Nat) : List Layout → List Token → Prop
  | [], ts => ts = []
  | a :: as, ts =>
    ∃ c blank first others, IsOperator .comma c ∧ Gap n blank ∧ Spells a first ∧
      SpellsArgs n as others ∧ ts = c :: (blank ++ (first ++ others))

end

end Layout

/-! ## Cutting a layout into tokens -/

open Lexer Layout

/-- In front of `rest`, the lexer cuts `cs` into tokens of which `P` holds, and goes on with
`rest` in the same line. -/
def Lexes (cs rest : List Char) (P : List Token → Prop) : Prop :=
  ∀ line col, ∃ ts col', P ts ∧
    ∀ more, scan line col' rest = .ok more → scan line col (cs ++ rest) = .ok (ts ++ more)

theorem scan_step {more : List Token} (one : step line col c cs = .ok s)
    (others : scan s.line s.col s.rest = .ok more) :
    scan line col (c :: cs) = .ok (s.tokens ++ more) := by
  rw [scan]
  split
  · rename_i e failed
    rw [one] at failed
    cases failed
  · rename_i s' same
    rw [one] at same
    cases same
    rw [others]

namespace Lexes

variable {rest : List Char} {P Q : List Token → Prop}

theorem nil : Lexes [] rest (· = []) := by
  intro line col
  exact ⟨[], col, rfl, fun more h => h⟩

theorem append {a b : List Char} (first : Lexes a (b ++ rest) P) (second : Lexes b rest Q) :
    Lexes (a ++ b) rest (fun ts => ∃ x y, P x ∧ Q y ∧ ts = x ++ y) := by
  intro line col
  obtain ⟨x, col₁, hx, readsFirst⟩ := first line col
  obtain ⟨y, col₂, hy, readsSecond⟩ := second line col₁
  refine ⟨x ++ y, col₂, ⟨x, y, hx, hy, rfl⟩, ?_⟩
  intro more reads
  rw [append_assoc, append_assoc]
  exact readsFirst _ (readsSecond more reads)

theorem imp {cs : List Char} (reads : Lexes cs rest P) (weaker : ∀ ts, P ts → Q ts) :
    Lexes cs rest Q := by
  intro line col
  obtain ⟨ts, col', holds, goesOn⟩ := reads line col
  exact ⟨ts, col', weaker ts holds, goesOn⟩

theorem ofStep (c : Char) (cs : List Char) {P : Token → Prop}
    (one : ∀ line col, ∃ t col', P t ∧ step line col c (cs ++ rest) = .ok ⟨[t], line, col', rest⟩) :
    Lexes (c :: cs) rest (fun ts => ∃ t, P t ∧ ts = [t]) := by
  intro line col
  obtain ⟨t, col', holds, steps⟩ := one line col
  refine ⟨[t], col', ⟨t, holds, rfl⟩, ?_⟩
  intro more reads
  exact scan_step steps reads

end Lexes

/-! ## Lexemes -/

def Stops (p : Char → Bool) (rest : List Char) : Prop := ∀ c ∈ rest.head?, p c = false

theorem Stops.cons (h : p c = false) : Stops p (c :: cs) := by
  intro d hd
  cases hd
  exact h

theorem Stops.takeWhile_append (all : ∀ c ∈ more, p c = true) (stops : Stops p rest) :
    (more ++ rest).takeWhile p = more := by
  rw [takeWhile_append_of_pos all]
  cases rest with
  | nil => simp
  | cons c cs => simp [stops c rfl]

theorem Stops.dropWhile_append (all : ∀ c ∈ more, p c = true) (stops : Stops p rest) :
    (more ++ rest).dropWhile p = rest := by
  rw [dropWhile_append_of_pos all]
  cases rest with
  | nil => rfl
  | cons c cs => simp [stops c rfl]

theorem run_append (all : ∀ d ∈ more, p d = true) (stops : Stops p rest) (goesOn : rest ≠ []) :
    run k line col c p (more ++ rest) = .ok (lexeme k line col c more rest) := by
  unfold run
  rw [stops.takeWhile_append all, stops.dropWhile_append all]
  cases rest with
  | nil => exact absurd rfl goesOn
  | cons d ds => rfl

theorem step_opensName (opens : opensName c = true) :
    step line col c cs = run .name line col c isNameChar cs := by
  unfold step
  split <;> simp_all [opensName, marks]

theorem Lexes.word (stops : Stops isNameChar rest) (goesOn : rest ≠ []) :
    Lexes w.chars rest (fun ts => ∃ t, IsName w t ∧ ts = [t]) := by
  apply Lexes.ofStep
  intro line col
  rw [step_opensName w.opens, run_append w.continues stops goesOn]
  exact ⟨_, _, ⟨rfl, rfl⟩, rfl⟩

theorem flatMap_spacing_gap (n : Nat) : (gap n).flatMap spacing = gap n := by
  induction n with
  | zero => rfl
  | succ n ih =>
    have one : gap (n + 1) = ' ' :: gap n := replicate_succ
    rw [one, flatMap_cons, ih]
    rfl

theorem Lexes.gap (stops : Stops isSpacing rest) : Lexes (gap n) rest (Gap n) := by
  cases n with
  | zero => exact Lexes.nil.imp fun ts empty => empty ▸ Gap.nothing
  | succ n =>
    have blanks : ∀ c ∈ Layout.gap n, isSpacing c = true := by
      intro c hc
      rw [eq_of_mem_replicate hc]
      rfl
    have one : Layout.gap (n + 1) = ' ' :: Layout.gap n := replicate_succ
    have reads : Lexes (' ' :: Layout.gap n) rest
        (fun ts => ∃ t, (t.kind = .whitespace ∧ t.text = String.ofList (Layout.gap (n + 1))) ∧
          ts = [t]) := by
      apply Lexes.ofStep
      intro line col
      have spaced : spacingStep line col ' ' (Layout.gap n ++ rest) =
          ⟨[⟨.whitespace, String.ofList ((' ' :: Layout.gap n).flatMap spacing), line,
            (col + (Layout.gap n).length : Nat)⟩], line, col + (Layout.gap n).length + 1, rest⟩ := by
        unfold spacingStep
        rw [stops.takeWhile_append blanks, stops.dropWhile_append blanks]
        split
        · rfl
        · rfl
      have steps : step line col ' ' (Layout.gap n ++ rest) =
          .ok (spacingStep line col ' ' (Layout.gap n ++ rest)) := rfl
      rw [steps, spaced, ← one, flatMap_spacing_gap]
      simp [Layout.gap]
    refine reads.imp ?_
    rintro ts ⟨t, ⟨isBlank, hasText⟩, rfl⟩
    exact Gap.blank isBlank hasText

def FollowsOperator (rest : List Char) : Prop :=
  ∃ c cs, rest = c :: cs ∧ (c = ' ' ∨ opensName c = true)

theorem FollowsOperator.stops (follows : FollowsOperator rest) (mark : d ∈ marks) :
    Stops (· == d) rest := by
  obtain ⟨c, cs, rfl, blank | opens⟩ := follows
  · subst blank
    apply Stops.cons
    rw [beq_eq_false_iff_ne]
    rintro rfl
    exact absurd mark (by decide)
  · apply Stops.cons
    simp only [opensName, Bool.not_eq_true', Bool.or_eq_false_iff] at opens
    have absent := opens.2
    rw [contains_eq_mem, decide_eq_false_iff_not] at absent
    rw [beq_eq_false_iff_ne]
    rintro rfl
    exact absent mark

theorem FollowsOperator.ne_nil (follows : FollowsOperator rest) : rest ≠ [] := by
  obtain ⟨c, cs, rfl, -⟩ := follows
  exact cons_ne_nil c cs

theorem oneOrTwo_of_stops {one two : TokenKind} (stops : Stops (· == c) rest) (goesOn : rest ≠ []) :
    oneOrTwo one two c line col rest = .ok (single one line col rest) := by
  cases rest with
  | nil => exact absurd rfl goesOn
  | cons d ds =>
    have other : (d == c) = false := stops d rfl
    simp [oneOrTwo, other]

theorem run_equals (follows : FollowsOperator rest) :
    run k line col c (· == '=') (List.replicate n '=' ++ rest) =
      .ok (lexeme k line col c (List.replicate n '=') rest) := by
  have all : ∀ d ∈ List.replicate n '=', (d == '=') = true := by
    intro d hd
    rw [eq_of_mem_replicate hd]
    rfl
  exact run_append all (follows.stops (by decide)) follows.ne_nil

theorem step_equals (follows : FollowsOperator rest) :
    step line col '=' (List.replicate n '=' ++ rest) =
      run .equal line col '=' (· == '=') (List.replicate n '=' ++ rest) := by
  cases n with
  | succ n => rfl
  | zero =>
    obtain ⟨c, cs, rfl, _⟩ := id follows
    have other : (c == '>') = false := follows.stops (by decide) c rfl
    have differs : c ≠ '>' := by simpa using other
    simp [step, differs]

theorem Lexes.operator (op : Operator) (follows : FollowsOperator rest) :
    Lexes op.symbol.toList rest (fun ts => ∃ o, IsOperator op o ∧ ts = [o]) := by
  -- An operator is a single mark, a mark that could have been doubled, or a run of equals signs.
  have ofRun (k : TokenKind) (c : Char) (n : Nat) (text : op.symbol.toList = c :: List.replicate n '=')
      (kind : operatorKind op = k)
      (steps : ∀ line col, step line col c (List.replicate n '=' ++ rest) =
        run k line col c (· == '=') (List.replicate n '=' ++ rest)) :
      Lexes op.symbol.toList rest (fun ts => ∃ o, IsOperator op o ∧ ts = [o]) := by
    rw [text]
    apply Lexes.ofStep
    intro line col
    rw [steps, run_equals follows, lexeme, ← text]
    exact ⟨_, _, ⟨kind.symm, String.ofList_toList⟩, rfl⟩
  have ofOne (one two : TokenKind) (c d : Char) (text : op.symbol.toList = [c])
      (kind : operatorKind op = one) (symbol : one.symbol = op.symbol) (mark : d ∈ marks)
      (steps : ∀ line col cs, step line col c cs = oneOrTwo one two d line col cs) :
      Lexes op.symbol.toList rest (fun ts => ∃ o, IsOperator op o ∧ ts = [o]) := by
    rw [text]
    apply Lexes.ofStep
    intro line col
    rw [nil_append, steps, oneOrTwo_of_stops (follows.stops mark) follows.ne_nil]
    exact ⟨_, _, ⟨kind.symm, symbol⟩, rfl⟩
  cases op with
  | mul | div | exp | or | and | comma =>
    exact Lexes.ofStep _ [] fun line col => ⟨_, _, ⟨rfl, rfl⟩, rfl⟩
  | add => exact ofOne .add .increment '+' '+' rfl rfl rfl (by decide) fun _ _ _ => rfl
  | sub => exact ofOne .subtract .decrement '-' '-' rfl rfl rfl (by decide) fun _ _ _ => rfl
  | gt => exact ofOne .greaterThan .greaterEqual '>' '=' rfl rfl rfl (by decide) fun _ _ _ => rfl
  | lt => exact ofOne .lessThan .lessEqual '<' '=' rfl rfl rfl (by decide) fun _ _ _ => rfl
  | ge | le => exact Lexes.ofStep _ ['='] fun line col => ⟨_, _, ⟨rfl, rfl⟩, rfl⟩
  | e => exact ofRun .equal '=' 0 rfl rfl fun _ _ => step_equals follows
  | ee => exact ofRun .equal '=' 1 rfl rfl fun _ _ => step_equals follows
  | eee => exact ofRun .equal '=' 2 rfl rfl fun _ _ => step_equals follows
  | eeee => exact ofRun .equal '=' 3 rfl rfl fun _ _ => step_equals follows
  | ne => exact ofRun .notEqual ';' 1 rfl rfl fun _ _ => rfl
  | nee => exact ofRun .notEqual ';' 2 rfl rfl fun _ _ => rfl
  | neee => exact ofRun .notEqual ';' 3 rfl rfl fun _ _ => rfl

/-! ## The text of a layout -/

theorem Layout.chars_eq_cons (t : Layout) : ∃ c cs, t.chars = c :: cs ∧ opensName c = true := by
  match t with
  | .name w => exact ⟨w.head, w.tail, by rw [chars]; rfl, w.opens⟩
  | .binary op n l r =>
    obtain ⟨c, cs, text, opens⟩ := chars_eq_cons l
    exact ⟨c, _, by rw [chars, text]; rfl, opens⟩
  | .call f n a as => exact ⟨f.head, _, by rw [chars]; rfl, f.opens⟩

theorem Layout.chars_stops_isSpacing (t : Layout) (rest : List Char) :
    Stops isSpacing (t.chars ++ rest) := by
  obtain ⟨c, cs, text, opens⟩ := t.chars_eq_cons
  rw [text]
  apply Stops.cons
  simp only [opensName, Bool.not_eq_true', Bool.or_eq_false_iff] at opens
  exact opens.1.1

theorem Layout.symbol_eq_cons (op : Operator) :
    ∃ c cs, op.symbol.toList = c :: cs ∧ isNameChar c = false ∧ isSpacing c = false := by
  cases op <;> exact ⟨_, _, rfl, rfl, rfl⟩

theorem Layout.symbol_stops_isSpacing (op : Operator) (rest : List Char) :
    Stops isSpacing (op.symbol.toList ++ rest) := by
  obtain ⟨c, cs, text, -, noSpacing⟩ := symbol_eq_cons op
  rw [text]
  exact Stops.cons noSpacing

theorem Layout.gap_stops_isNameChar (stops : n = 0 → Stops isNameChar rest) :
    Stops isNameChar (gap n ++ rest) := by
  cases n with
  | zero => exact stops rfl
  | succ n => exact Stops.cons rfl

theorem Layout.gap_symbol_stops (n : Nat) (op : Operator) (rest : List Char) :
    Stops isNameChar (gap n ++ (op.symbol.toList ++ rest)) := by
  obtain ⟨c, cs, text, noName, -⟩ := symbol_eq_cons op
  rw [text]
  exact gap_stops_isNameChar fun _ => Stops.cons noName

theorem Layout.gap_chars_follow (n : Nat) (t : Layout) (rest : List Char) :
    FollowsOperator (gap n ++ (t.chars ++ rest)) := by
  cases n with
  | zero =>
    obtain ⟨c, cs, text, opens⟩ := t.chars_eq_cons
    rw [text]
    exact ⟨c, _, rfl, Or.inr opens⟩
  | succ n => exact ⟨' ', _, rfl, Or.inl rfl⟩

theorem Layout.argChars_stops (n : Nat) (as : List Layout) (stops : Stops isNameChar rest) :
    Stops isNameChar (argChars n as ++ rest) := by
  cases as with
  | nil => rw [argChars]; exact stops
  | cons a as => rw [argChars]; exact Stops.cons rfl

mutual

theorem Lexes.layout (t : Layout) {rest : List Char} (stepped : t.Stepped)
    (stops : Stops isNameChar rest) (goesOn : rest ≠ []) : Lexes t.chars rest t.Spells := by
  match t with
  | .name w =>
    refine (Lexes.word stops goesOn).imp fun ts h => ?_
    rwa [Spells]
  | .binary op n l r =>
    obtain ⟨-, -, steppedLeft, steppedRight⟩ := stepped
    have right := Lexes.layout r steppedRight stops goesOn
    have after := (Lexes.gap (n := n) (r.chars_stops_isSpacing rest)).append right
    have follows : FollowsOperator ((Layout.gap n ++ r.chars) ++ rest) := by
      rw [append_assoc]
      exact gap_chars_follow n r rest
    have sign := (Lexes.operator op follows).append after
    have before := (Lexes.gap (n := n) (by
      rw [append_assoc]
      exact symbol_stops_isSpacing op _)).append sign
    have left := (Lexes.layout l steppedLeft (by
      rw [append_assoc, append_assoc]
      exact gap_symbol_stops n op _) (append_ne_nil_of_right_ne_nil _ goesOn)).append before
    refine left.imp ?_
    rintro ts ⟨x, _, hx, ⟨b, _, hb, ⟨_, _, ⟨o, ho, rfl⟩, ⟨a, y, ha, hy, rfl⟩, rfl⟩, rfl⟩, rfl⟩
    exact ⟨x, b, o, a, y, hx, hb, ho, ha, hy, rfl⟩
  | .call f n a as =>
    obtain ⟨wide, -, steppedArg, steppedArgs⟩ := stepped
    have others := Lexes.layoutArgs n as steppedArgs stops goesOn
    have first := (Lexes.layout a steppedArg (argChars_stops n as stops)
      (append_ne_nil_of_right_ne_nil _ goesOn)).append others
    have blank := (Lexes.gap (n := n) (by
      rw [append_assoc]
      exact a.chars_stops_isSpacing _)).append first
    have word := (Lexes.word (w := f) (by
      rw [append_assoc]
      exact gap_stops_isNameChar fun none => absurd none (Nat.pos_iff_ne_zero.mp wide))
      (append_ne_nil_of_right_ne_nil _ goesOn)).append blank
    refine word.imp ?_
    rintro ts ⟨_, _, ⟨t, ht, rfl⟩, ⟨b, _, hb, ⟨x, y, hx, hy, rfl⟩, rfl⟩, rfl⟩
    exact ⟨t, b, x, y, ht, hb, hx, hy, rfl⟩

/-- The text of further arguments is cut into tokens that spell them. -/
theorem Lexes.layoutArgs (n : Nat) (as : List Layout) {rest : List Char}
    (stepped : SteppedAll as) (stops : Stops isNameChar rest) (goesOn : rest ≠ []) :
    Lexes (argChars n as) rest (SpellsArgs n as) := by
  match as with
  | [] =>
    refine Lexes.nil.imp fun ts h => ?_
    rwa [SpellsArgs]
  | a :: as =>
    have others := Lexes.layoutArgs n as stepped.2 stops goesOn
    have first := (Lexes.layout a stepped.1 (argChars_stops n as stops)
      (append_ne_nil_of_right_ne_nil _ goesOn)).append others
    have blank := (Lexes.gap (n := n) (by
      rw [append_assoc]
      exact a.chars_stops_isSpacing _)).append first
    have follows : FollowsOperator ((Layout.gap n ++ (a.chars ++ argChars n as)) ++ rest) := by
      rw [append_assoc, append_assoc]
      exact gap_chars_follow n a _
    have comma := (Lexes.operator .comma follows).append blank
    refine comma.imp ?_
    rintro ts ⟨_, _, ⟨c, hc, rfl⟩, ⟨b, _, hb, ⟨x, y, hx, hy, rfl⟩, rfl⟩, rfl⟩
    exact ⟨c, b, x, y, hc, hb, hx, hy, rfl⟩

end

end DreamBerd
