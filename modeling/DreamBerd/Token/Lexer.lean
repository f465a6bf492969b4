import DreamBerd.Fault

/-!
# Reading text into tokens

`Source.tokens` cuts a text into tokens. Blanks are tokens, because their widths decide how
expressions are grouped; an opening parenthesis counts as a blank and a closing one as nothing, and
`()` is an empty name. Quotes are weighed, a single quote one and a double quote two: a string opens
with a run of quotes and ends where later quotes weigh as much.

Each step reads one lexeme and leaves a rest that is no longer than what followed its first
character, so that reading ends. Most lexemes are told from longer ones by the character after them;
a text that ends before it is `Error.pastEnd`. `Reads` says what the steps read.
-/

namespace DreamBerd

namespace Lexer

/-- Why a text cannot be cut into tokens, with the line at which reading stopped. -/
inductive Error where
  | unmatchedQuotes (line : Nat)
  | userTooConfused (line : Nat)
  /-- A character was looked for behind the end of the text. -/
  | pastEnd (line : Nat)
  deriving DecidableEq

def isNameChar (c : Char) : Bool := c.isAlphanum || c == '_' || c == '.'

def isSpacing (c : Char) : Bool := c == ' ' || c == '(' || c == ')' || c == '\t'

def isQuote (c : Char) : Bool := c == '"' || c == Char.ofNat 39

def spacing (c : Char) : List Char :=
  if c == ' ' || c == '(' then [' '] else if c == '\t' then ['\t'] else []

def quoteWeight (c : Char) : Nat := if c == '"' then 2 else 1

def quoteCount (cs : List Char) : Nat := (cs.map quoteWeight).foldl (· + ·) 0

/-- Whether a run of quotes falls into two parts of equal weight. -/
def isMatchingPair (q : List Char) : Bool :=
  quoteCount q % 2 == 0 &&
    (List.range q.length).any (fun i => quoteCount (q.take i) == quoteCount q / 2)

/-- How a run of opening quotes ends: as an empty string, or before the first other character. -/
inductive Opening where
  | empty (rest : List Char)
  | opened (quotes : List Char) (rest : List Char)

def Opening.rest : Opening → List Char
  | .empty rest => rest
  | .opened _ rest => rest

/-- Read opening quotes, after the quotes `seen`, up to the first balanced pair. -/
def readOpening (line : Nat) (seen : List Char) : List Char → Except Error Opening
  | [] => .error (.pastEnd line)
  | c :: cs =>
    if isQuote c then
      if isMatchingPair (seen ++ [c]) then .ok (.empty cs) else readOpening line (seen ++ [c]) cs
    else .ok (.opened seen (c :: cs))

/-- Read the inside of a string up to the quotes that weigh `target`. `running` is the weight of the
quotes just read, `pending` holds them and `acc` what stands before, both in reverse. Behind quotes
another character is looked for, elsewhere the text may end. -/
def readBody (line target running : Nat) (pending acc : List Char) :
    List Char → Except Error (List Char × List Char)
  | [] => .error (if pending.isEmpty then .unmatchedQuotes line else .pastEnd line)
  | c :: cs =>
    if isQuote c then
      if running + quoteWeight c == target then .ok (acc.reverse, cs)
      else readBody line target (running + quoteWeight c) (c :: pending) acc cs
    else readBody line target 0 [] (c :: (pending ++ acc)) cs

/-- Read a string that starts with the quotes at the front of the text: its value and the rest. -/
def readString (line : Nat) (cs : List Char) : Except Error (List Char × List Char) :=
  match readOpening line [] cs with
  | .error e => .error e
  | .ok (.empty rest) => .ok ([], rest)
  | .ok (.opened quotes rest) => readBody line (quoteCount quotes) 0 [] [] rest

/-! ## One lexeme -/

/-- What a step reads: its tokens, the line and column of the next character, and the rest. -/
structure Step where
  tokens : List Token
  line : Nat
  col : Nat
  rest : List Char

def single (k : TokenKind) (line col : Nat) (rest : List Char) : Step :=
  ⟨[⟨k, k.symbol, line, col⟩], line, col + 1, rest⟩

def lexeme (k : TokenKind) (line col : Nat) (c : Char) (more rest : List Char) : Step :=
  ⟨[⟨k, String.ofList (c :: more), line, (col + more.length : Nat)⟩],
    line, col + more.length + 1, rest⟩

/-- A lexeme of the first character and the run of characters that satisfy `p`, read up to one that
does not. -/
def run (k : TokenKind) (line col : Nat) (c : Char) (p : Char → Bool) (rest : List Char) :
    Except Error Step :=
  match rest.dropWhile p with
  | [] => .error (.pastEnd line)
  | d :: rest' => .ok (lexeme k line col c (rest.takeWhile p) (d :: rest'))

/-- A lexeme of one character, or of two if `c` follows; its column is that of the first. -/
def oneOrTwo (one two : TokenKind) (c : Char) (line col : Nat) (rest : List Char) :
    Except Error Step :=
  match rest with
  | [] => .error (.pastEnd line)
  | d :: rest' =>
    if d == c then .ok ⟨[⟨two, two.symbol, line, col⟩], line, col + 2, rest'⟩
    else .ok (single one line col rest)

/-- A run of spacing characters, or the empty name that `()` stands for. -/
def spacingStep (line col : Nat) (c : Char) (rest : List Char) : Step :=
  let plain : Step :=
    let more := rest.takeWhile isSpacing
    ⟨[⟨.whitespace, String.ofList ((c :: more).flatMap spacing), line, (col + more.length : Nat)⟩],
      line, col + more.length + 1, rest.dropWhile isSpacing⟩
  match rest with
  | d :: rest' =>
    if c == '(' && d == ')' then
      ⟨[⟨.whitespace, "", line, col⟩, ⟨.name, "", line, col⟩, ⟨.whitespace, "", line, col⟩],
        line, col + 2, rest'⟩
    else plain
  | [] => plain

/-- The lexeme that starts with `c`, at the given line and column. -/
def step (line col : Nat) (c : Char) (rest : List Char) : Except Error Step :=
  match c with
  | '\n' => .ok ⟨[⟨.newline, "\n", (line + 1 : Nat), 0⟩], line + 1, 1, rest⟩
  | '}' => .ok (single .rCurly line col rest)
  | '{' => .ok (single .lCurly line col rest)
  | '[' => .ok (single .lSquare line col rest)
  | ']' => .ok (single .rSquare line col rest)
  | '.' => .ok (single .dot line col rest)
  | ':' => .ok (single .colon line col rest)
  | '|' => .ok (single .pipe line col rest)
  | '&' => .ok (single .and line col rest)
  | ',' => .ok (single .comma line col rest)
  | '*' => .ok (single .multiply line col rest)
  | '/' => .ok (single .divide line col rest)
  | '^' => .ok (single .carrot line col rest)
  | '+' => oneOrTwo .add .increment '+' line col rest
  | '-' => oneOrTwo .subtract .decrement '-' line col rest
  | '>' => oneOrTwo .greaterThan .greaterEqual '=' line col rest
  | '<' => oneOrTwo .lessThan .lessEqual '=' line col rest
  | ';' =>
    match rest with
    | [] => .error (.pastEnd line)
    | '=' :: _ => run .notEqual line col ';' (· == '=') rest
    | _ => .ok (single .semicolon line col rest)
  | '!' => run .bang line col '!' (· == '!') rest
  | '?' =>
    match run .question line col '?' (· == '?') rest with
    | .error e => .error e
    | .ok s =>
      if (rest.takeWhile (· == '?')).length ≥ 4 then .error (.userTooConfused line) else .ok s
  | '=' =>
    match rest with
    | '>' :: rest' => .ok ⟨[⟨.funcPoint, "=>", line, (col + 1 : Nat)⟩], line, col + 2, rest'⟩
    | _ => run .equal line col '=' (· == '=') rest
  | c =>
    if isQuote c then
      match readString line (c :: rest) with
      | .error e => .error e
      | .ok (value, rest') =>
        let last := col + (rest.length - rest'.length)
        .ok ⟨[⟨.string, String.ofList value, line, last⟩], line, last + 1, rest'⟩
    else if isSpacing c then .ok (spacingStep line col c rest)
    else run .name line col c isNameChar rest

/-! ## What the steps read -/

/-- The characters that open a lexeme other than a name, apart from blanks and quotes. -/
def marks : List Char :=
  ['\n', '}', '{', '[', ']', '.', ':', '|', '&', ',', '*', '/', '^', '+', '-', '>', '<', ';', '!',
    '?', '=']

/-- Whether a name can open with the character: letters, digits, the underscore, and whatever else
opens no other lexeme. -/
def opensName (c : Char) : Bool := !(isSpacing c || isQuote c || marks.contains c)

def singles : List TokenKind :=
  [.rCurly, .lCurly, .lSquare, .rSquare, .dot, .colon, .pipe, .and, .comma, .multiply, .divide,
    .carrot, .add, .subtract, .greaterThan, .lessThan, .semicolon]

def pairs : List TokenKind := [.increment, .decrement, .greaterEqual, .lessEqual, .funcPoint]

/-- The signs of any length: the kind, the first character and the one that is repeated. -/
def runs : List (TokenKind × Char × Char) :=
  [(.notEqual, ';', '='), (.bang, '!', '!'), (.question, '?', '?'), (.equal, '=', '=')]

/-- A mark that is neither a line break nor a question mark. -/
structure PlainMark (c : Char) : Prop where
  mem_marks : c ∈ marks
  ne_newline : c ≠ '\n'
  ne_question : c ≠ '?'

theorem plainMark_of_mem_symbol {k : TokenKind} {c : Char} (kind : k ∈ singles ++ pairs)
    (member : c ∈ k.symbol.toList) : PlainMark c := by
  have all : ∀ k ∈ singles ++ pairs,
      (k.symbol.toList.all fun c => marks.contains c && c != '\n' && c != '?') = true := by
    decide
  have mark := List.all_eq_true.mp (all k kind) c member
  simp only [Bool.and_eq_true, List.contains_iff_mem, bne_iff_ne] at mark
  exact ⟨mark.1.1, mark.1.2, mark.2⟩

theorem plainMark_of_single {k : TokenKind} {c : Char} (kind : k ∈ singles)
    (spelled : k.symbol = String.ofList [c]) : PlainMark c :=
  plainMark_of_mem_symbol (List.mem_append_left _ kind) (by simp [spelled])

theorem plainMark_of_pair {k : TokenKind} {c d : Char} (kind : k ∈ pairs)
    (spelled : k.symbol = String.ofList [c, d]) : PlainMark c ∧ PlainMark d :=
  ⟨plainMark_of_mem_symbol (List.mem_append_right _ kind) (by simp [spelled]),
    plainMark_of_mem_symbol (List.mem_append_right _ kind) (by simp [spelled])⟩

inductive Reads (line col : Nat) : Char → List Char → Step → Prop where
  | newline {rest : List Char} :
    Reads line col '\n' rest ⟨[⟨.newline, "\n", (line + 1 : Nat), 0⟩], line + 1, 1, rest⟩
  | single {k : TokenKind} {c : Char} {rest : List Char} (kind : k ∈ singles)
    (spelled : k.symbol = String.ofList [c]) : Reads line col c rest (single k line col rest)
  | pair {k : TokenKind} {c d : Char} {last : Nat} {rest : List Char} (kind : k ∈ pairs)
    (spelled : k.symbol = String.ofList [c, d]) (near : last ≤ col + 1) :
    Reads line col c (d :: rest) ⟨[⟨k, k.symbol, line, last⟩], line, col + 2, rest⟩
  | run {k : TokenKind} {c d : Char} {rest : List Char} (kind : (k, c, d) ∈ runs)
    (few : c = '?' → (rest.takeWhile (· == d)).length < 4) :
    Reads line col c rest
      (lexeme k line col c (rest.takeWhile (· == d)) (rest.dropWhile (· == d)))
  | string {c : Char} {rest value rest' : List Char} (quote : isQuote c = true)
    (read : readString line (c :: rest) = .ok (value, rest')) :
    Reads line col c rest
      ⟨[⟨.string, String.ofList value, line, (col + (rest.length - rest'.length) : Nat)⟩], line,
        col + (rest.length - rest'.length) + 1, rest'⟩
  | emptyName {rest : List Char} :
    Reads line col '(' (')' :: rest)
      ⟨[⟨.whitespace, "", line, col⟩, ⟨.name, "", line, col⟩, ⟨.whitespace, "", line, col⟩],
        line, col + 2, rest⟩
  | blank {c : Char} {rest : List Char} (spaced : isSpacing c = true)
    (apart : ¬(c = '(' ∧ rest.head? = some ')')) :
    Reads line col c rest
      ⟨[⟨.whitespace, String.ofList ((c :: rest.takeWhile isSpacing).flatMap spacing), line,
        (col + (rest.takeWhile isSpacing).length : Nat)⟩], line,
        col + (rest.takeWhile isSpacing).length + 1, rest.dropWhile isSpacing⟩
  | name {c : Char} {rest : List Char} (opens : opensName c = true) :
    Reads line col c rest
      (lexeme .name line col c (rest.takeWhile isNameChar) (rest.dropWhile isNameChar))

variable {line col : Nat} {c : Char} {rest : List Char} {s : Step}

theorem run_eq_ok {k : TokenKind} {p : Char → Bool} (read : run k line col c p rest = .ok s) :
    s = lexeme k line col c (rest.takeWhile p) (rest.dropWhile p) := by
  unfold run at read
  split at read
  · cases read
  · rename_i next
    cases read
    rw [next]

theorem Reads.of_oneOrTwo {one two : TokenKind} {d : Char}
    (read : oneOrTwo one two d line col rest = .ok s) (kind : one ∈ singles)
    (spelled : one.symbol = String.ofList [c]) (kind' : two ∈ pairs)
    (spelled' : two.symbol = String.ofList [c, d]) : Reads line col c rest s := by
  unfold oneOrTwo at read
  split at read
  · cases read
  · split at read
    · rename_i same
      cases read
      cases beq_iff_eq.mp same
      exact .pair kind' spelled' (Nat.le_succ _)
    · cases read
      exact .single kind spelled

theorem Reads.of_spacingStep (spaced : isSpacing c = true) :
    Reads line col c rest (spacingStep line col c rest) := by
  unfold spacingStep
  split
  · rename_i d rest'
    split
    · rename_i empty
      obtain ⟨rfl, rfl⟩ : c = '(' ∧ d = ')' := by simpa using empty
      exact .emptyName
    · rename_i apart
      exact .blank spaced (by simpa using apart)
  · exact .blank spaced (by simp)

theorem reads_step (stepped : step line col c rest = .ok s) : Reads line col c rest s := by
  unfold step at stepped
  split at stepped
  case h_1 => cases stepped; exact .newline
  case h_14 | h_15 | h_16 | h_17 => exact .of_oneOrTwo stepped (by decide) rfl (by decide) rfl
  case h_18 =>
    split at stepped
    · cases stepped
    · cases run_eq_ok stepped
      exact .run (by decide) fun other => absurd other (by decide)
    · cases stepped
      exact .single (by decide) rfl
  case h_19 =>
    cases run_eq_ok stepped
    exact .run (by decide) fun other => absurd other (by decide)
  case h_20 =>
    split at stepped
    · cases stepped
    · rename_i read
      cases run_eq_ok read
      split at stepped
      · cases stepped
      · rename_i few
        cases stepped
        exact .run (by decide) fun _ => Nat.lt_of_not_le few
  case h_21 =>
    split at stepped
    · cases stepped
      exact .pair (k := .funcPoint) (by decide) rfl (Nat.le_refl _)
    · cases run_eq_ok stepped
      exact .run (by decide) fun other => absurd other (by decide)
  case h_22 =>
    split at stepped
    · rename_i quote
      split at stepped
      · cases stepped
      · rename_i read
        cases stepped
        exact .string quote read
    · rename_i noQuote
      split at stepped
      · rename_i spaced
        cases stepped
        exact .of_spacingStep spaced
      · rename_i noSpacing
        cases run_eq_ok stepped
        exact .name (by simp_all [opensName, marks])
  all_goals
    cases stepped
    exact .single (by decide) rfl

/-! ## Every step leaves a shorter text -/

theorem suffix_readOpening {seen cs : List Char} {opening : Opening}
    (opened : readOpening line seen cs = .ok opening) : opening.rest <:+ cs := by
  fun_induction readOpening line seen cs with
  | case1 => cases opened
  | case2 seen c cs =>
    cases opened
    exact List.suffix_cons c cs
  | case3 seen c cs _ _ ih => exact (ih opened).trans (List.suffix_cons c cs)
  | case4 =>
    cases opened
    exact List.suffix_rfl

theorem suffix_readBody {target running : Nat} {pending acc cs value rest : List Char}
    (body : readBody line target running pending acc cs = .ok (value, rest)) : rest <:+ cs := by
  fun_induction readBody line target running pending acc cs with
  | case1 => cases body
  | case2 =>
    cases body
    exact List.suffix_cons _ _
  | case3 _ _ _ c _ _ _ ih | case4 _ _ _ c _ _ ih => exact (ih body).trans (List.suffix_cons c _)

/-- What follows a string is an end of what follows its first quote. -/
theorem suffix_readString {value rest' : List Char} (quote : isQuote c = true)
    (read : readString line (c :: rest) = .ok (value, rest')) : rest' <:+ rest := by
  unfold readString readOpening at read
  rw [if_pos quote] at read
  by_cases pair : isMatchingPair ([] ++ [c]) = true
  · rw [if_pos pair] at read
    cases read
    exact List.suffix_rfl
  · rw [if_neg pair] at read
    split at read
    · cases read
    · rename_i opened
      cases read
      exact suffix_readOpening opened
    · rename_i opened
      exact (suffix_readBody read).trans (suffix_readOpening opened)

theorem Reads.suffix (reads : Reads line col c rest s) : s.rest <:+ rest := by
  cases reads with
  | newline | single => exact List.suffix_rfl
  | pair => exact List.suffix_cons _ _
  | run => exact List.dropWhile_suffix _
  | string quote read => exact suffix_readString quote read
  | emptyName => exact List.suffix_cons _ _
  | blank | name => exact List.dropWhile_suffix _

theorem length_step (stepped : step line col c rest = .ok s) : s.rest.length ≤ rest.length :=
  (reads_step stepped).suffix.length_le

/-- Cut a text into tokens, starting at the given line and column. -/
def scan (line col : Nat) (cs : List Char) : Except Error (List Token) :=
  match cs with
  | [] => .ok []
  | c :: rest =>
    match _h : step line col c rest with
    | .error e => .error e
    | .ok s =>
      match scan s.line s.col s.rest with
      | .error e => .error e
      | .ok more => .ok (s.tokens ++ more)
termination_by cs.length
decreasing_by
  have := length_step _h
  simp only [List.length_cons]
  omega

end Lexer

/-- The blanks that end every text, so that a lexeme always has characters after it. -/
def lexerPadding : String := "   "

/-- The tokens of a source text, three blanks added at its end. -/
def Source.tokens (s : Source) : Except Fault (List Token) :=
  let padded : Source := { s with code := s.code ++ lexerPadding }
  match Lexer.scan 1 0 padded.code.toList with
  | .ok ts => .ok ts
  | .error (.unmatchedQuotes line) => .error (padded.atLine .unmatchedQuotes line)
  | .error (.userTooConfused line) => .error (padded.atLine .userTooConfused line)
  | .error (.pastEnd _) => .error (.breakdown .position)

theorem Source.scan_of_tokens {s : Source} {ts : List Token} (cut : s.tokens = .ok ts) :
    Lexer.scan 1 0 (s.code ++ lexerPadding).toList = .ok ts := by
  unfold Source.tokens at cut
  dsimp only at cut
  split at cut
  · rename_i scanned
    cases cut
    exact scanned
  all_goals cases cut

end DreamBerd
