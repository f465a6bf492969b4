import DreamBerd.Proofs.Failures

/-!
# How large the numbers of a source are

A source gives rise to numbers: the lines and columns of its tokens, their widths, and the counts of
the marks that end a statement. None is greater than the length of the text. `Lexer.scan_extents` says
so of the tokens, from which the forms that they are read into are made (`Clause.Within.drawn`).
-/

namespace DreamBerd

open List

namespace Lexer

variable {cs value : List Char} {s : Step}

/-! ## Columns and widths of tokens -/

theorem length_value_readBody {line target running : Nat} {pending acc rest : List Char}
    (body : readBody line target running pending acc cs = .ok (value, rest)) :
    value.length + rest.length ≤ acc.length + pending.length + cs.length := by
  fun_induction readBody line target running pending acc cs with
  | case1 => cases body
  | case2 =>
    cases body
    simp only [length_reverse, length_cons]
    omega
  | case3 _ _ _ _ _ _ _ ih =>
    have later := ih body
    simp only [length_cons] at later ⊢
    omega
  | case4 _ _ _ _ _ _ ih =>
    have later := ih body
    simp only [length_cons, length_append, length_nil] at later ⊢
    omega

theorem length_value_readString {line : Nat} {rest : List Char}
    (read : readString line cs = .ok (value, rest)) : value.length + rest.length ≤ cs.length := by
  unfold readString at read
  split at read
  · cases read
  · rename_i opened
    cases read
    have opening : rest.length ≤ cs.length := (suffix_readOpening opened).length_le
    simpa using opening
  · rename_i quotes inside opened
    have opening : inside.length ≤ cs.length := (suffix_readOpening opened).length_le
    have body := length_value_readBody read
    simp only [length_nil, Nat.zero_add] at body
    exact Nat.le_trans body opening

/-- The tokens of a step do not go further than what it reads, and are not wider. -/
structure Spans (col : Nat) (rest : List Char) (s : Step) : Prop where
  column : ∀ t ∈ s.tokens, 0 ≤ t.col ∧ t.col ≤ (col + rest.length : Nat)
  width : ∀ t ∈ s.tokens, t.width ≤ rest.length + 1

variable {line col : Nat} {c : Char} {rest : List Char}

theorem Spans.of_token (token : s.tokens = [t]) (column : t.col = (n : Nat))
    (inside : n ≤ col + rest.length) (width : t.width ≤ rest.length + 1) : Spans col rest s := by
  constructor
  · intro u member
    rw [token, mem_singleton] at member
    rw [member]
    omega
  · intro u member
    rw [token, mem_singleton] at member
    rwa [member]

theorem Spans.lexeme (k : TokenKind) (p : Char → Bool) :
    Spans col rest (lexeme k line col c (rest.takeWhile p) (rest.dropWhile p)) := by
  have whole := length_takeWhile_add_dropWhile p rest
  refine .of_token rfl rfl (by omega) ?_
  simp only [Token.width, String.length_ofList, length_cons]
  omega

theorem length_flatMap_spacing (cs : List Char) : (cs.flatMap spacing).length ≤ cs.length := by
  induction cs with
  | nil => exact Nat.le_refl _
  | cons c cs ih =>
    have one : (spacing c).length ≤ 1 := by
      unfold spacing
      split
      · exact Nat.le_refl _
      · split
        · exact Nat.le_refl _
        · exact Nat.zero_le _
    simp only [flatMap_cons, length_append, length_cons]
    omega

theorem Reads.spans (reads : Reads line col c rest s) : Spans col rest s := by
  cases reads with
  | newline =>
    refine .of_token rfl rfl (Nat.zero_le _) ?_
    exact Nat.le_trans (by decide : "\n".length ≤ 1) (Nat.le_add_left _ _)
  | single kind spelled =>
    refine .of_token rfl rfl (Nat.le_add_right _ _) ?_
    simp [Token.width, spelled]
  | pair kind spelled near =>
    refine .of_token rfl rfl ?_ ?_
    · simp only [length_cons]
      omega
    · simp [Token.width, spelled]
  | run => exact .lexeme _ _
  | string quote read =>
    have shorter := length_value_readString read
    simp only [length_cons] at shorter
    refine .of_token rfl rfl (by omega) ?_
    simp only [Token.width, String.length_ofList]
    omega
  | emptyName =>
    constructor
    · intro t member
      simp only [mem_cons, not_mem_nil, or_false] at member
      rcases member with rfl | rfl | rfl <;> dsimp only <;> omega
    · intro t member
      simp only [mem_cons, not_mem_nil, or_false] at member
      rcases member with rfl | rfl | rfl <;> exact Nat.zero_le _
  | blank =>
    have whole := length_takeWhile_add_dropWhile isSpacing rest
    have narrow := length_flatMap_spacing (c :: rest.takeWhile isSpacing)
    simp only [length_cons] at narrow
    refine .of_token rfl rfl (by omega) ?_
    simp only [Token.width, String.length_ofList]
    omega
  | name => exact .lexeme _ _

theorem scan_extents {ts : List Token} (scanned : scan line col cs = .ok ts) :
    ∀ t ∈ ts, (0 ≤ t.col ∧ t.col ≤ (col + cs.length : Nat)) ∧ t.width ≤ cs.length := by
  fun_induction scan line col cs generalizing ts with
  | case1 =>
    cases scanned
    exact fun t none => absurd none not_mem_nil
  | case2 | case3 => cases scanned
  | case4 line col c rest s stepped more rests ih =>
    cases scanned
    have spans := (reads_step stepped).spans
    have next := (reads_step stepped).next_column
    have fewer := length_step stepped
    simp only [length_cons]
    intro t member
    rcases mem_append.mp member with own | later
    · have column := spans.column t own
      have width := spans.width t own
      exact ⟨by omega, by omega⟩
    · have within := ih rests t later
      exact ⟨by omega, by omega⟩

end Lexer

/-! ## The numbers of a source -/

/-- The number is not greater than the length of the text with the blanks that end it. -/
def Source.Bounds (src : Source) (n : Int) : Prop :=
  n.natAbs ≤ src.code.length + lexerPadding.length

theorem Source.bounds_tokens {src : Source} {tokens : List Token} (cut : src.tokens = .ok tokens) :
    ∀ t ∈ tokens, src.Bounds t.line ∧ src.Bounds t.col ∧ src.Bounds t.width := by
  have length : (src.code ++ lexerPadding).toList.length =
      src.code.length + lexerPadding.length := by
    rw [String.length_toList, String.length_append]
  have padding : lexerPadding.length = 3 := rfl
  have breaks : (src.code ++ lexerPadding).toList.count '\n' ≤ src.code.length := by
    rw [String.toList_append, count_append]
    exact count_le_length
  have scanned := Source.scan_of_tokens cut
  intro t member
  have line := (Lexer.scan_lines 1 0 _).1 _ scanned t member
  have extent := Lexer.scan_extents scanned t member
  simp only [Bounds]
  omega

end DreamBerd
