import DreamBerd.Number.Digits
import DreamBerd.Proofs.PushAndPop
import DreamBerd.Proofs.WholeFloats

/-!
# Integers as arrays of digits

An integer can be read and assigned to digit by digit, like an array. `Number.Shows` says what a number
has to be for this: it counts as an integer, its text has certain digits, and divided by its absolute
value it gives its sign. The sign is a `Float`, and so is what an assignment leaves behind: its text ends
with a zero that counts as one more digit, or has an exponent.

`Number.assignSeen` is what an assignment does to the digits that are seen. A number follows it through
every sequence of assignments (`Number.Shows.setDigits`).
-/

namespace DreamBerd

namespace Number

open Decimal Binary64 List

variable {n : Number} {negative : Bool} {cs : List Char} {k d j m N : Nat} {q z : Int} {op : Nat × Nat}

/-- The digits that a number shows, its sign, and that it counts as an integer. -/
structure Shows (n : Number) (negative : Bool) (cs : List Char) : Prop where
  digits : n.digitText = .ok cs
  whole : n.isInt = .ok true
  sign : ∃ a, n.abs = .ok a ∧ n.div a = .ok (.real (signed negative 1.0))

/-- An integer divided by its absolute value is its sign. -/
theorem div_natAbs (nonzero : z ≠ 0) : (int z).div (int z.natAbs) = .ok (real (signed (z < 0) 1.0)) := by
  have positive : 0 < z.natAbs := Int.natAbs_pos.mpr nonzero
  have finite : ∀ negative, (signed negative 1.0).isFinite = true := by decide +kernel
  have quotient : quotient? z z.natAbs = some (signed (z < 0) 1.0) := by
    have float : ofRatio (decide (z < 0) != decide ((z.natAbs : Int) < 0)) z.natAbs
        (z.natAbs : Int).natAbs = signed (z < 0) 1.0 := by
      have above : decide ((z.natAbs : Int) < 0) = false := decide_eq_false (by omega)
      rw [Int.natAbs_natCast, ofRatio_eq_signed, ofRatio_self positive, above, Bool.bne_false]
    rw [quotient?, float]
    exact if_pos (finite _)
  rw [Number.div, whole?, whole?]
  dsimp only
  rw [if_neg (by omega), quotient]

/-- The digits of an integer. -/
def decimals (z : Int) : List Char := Nat.toDigits 10 z.natAbs

theorem shows_int (nonzero : z ≠ 0) (short : z.natAbs < 10 ^ maxDigits) :
    (int z).Shows (z < 0) (decimals z) := by
  refine ⟨?_, rfl, int z.natAbs, rfl, div_natAbs nonzero⟩
  have text : (int z).text = .ok (toString z) := if_neg (by simp only [Nat.pow_eq]; omega)
  have parts : toString z =
      (if decide (z < 0) then "-" else "") ++ String.ofList (Nat.toDigits 10 z.natAbs) := by
    rw [← String.toList_inj, toList_toString_int, String.toList_append, String.toList_ofList]
    by_cases negative : z < 0 <;> simp [negative]
  have seen : shown (toString z) = Nat.toDigits 10 z.natAbs := by
    rw [parts, shown_append, shown_sign, shown_ofList fun c => isDigit_toDigits, nil_append]
  rw [digitText, text, decimals, ← seen]
  rfl

theorem isInt_of_whole (whole : Whole m q N) :
    (real (signed negative (assemble m q))).isInt = .ok true := by
  have rest : (ratio m q).1 % (ratio m q).2 = 0 := by
    have value : ((ratio m q).1 : ℚ) / (ratio 1 q).2 = N := ratio_div.trans whole.value
    have same : (ratio 1 q).2 = (ratio m q).2 := by
      unfold ratio
      split <;> rfl
    have above : ((ratio 1 q).2 : ℚ) ≠ 0 := by exact_mod_cast ratio_pos.ne'
    rw [div_eq_iff above, same] at value
    have value : (ratio m q).1 = N * (ratio m q).2 := by exact_mod_cast value
    rw [value, Nat.mul_mod_left]
  have none : ofRatio negative 0 (ratio m q).2 = signed negative 0.0 := if_pos rfl
  have zero : ∀ negative, (if signed negative 0.0 < 0.0 then signed negative 0.0 + 1.0
      else if signed negative 0.0 == 0.0 then 0.0 else signed negative 0.0) = 0.0 := by decide +kernel
  have fraction : floatFraction (signed negative (assemble m q)) = 0.0 := by
    rw [floatFraction, Binary64.fraction, shape_signed_assemble whole.fits]
    dsimp only
    rw [rest, none]
    exact zero negative
  have near : ((if 1.0 - 0.0 < (0.0 : Float) then 1.0 - 0.0 else 0.0) < precision) := by decide +kernel
  rw [isInt, fraction]
  exact congrArg Except.ok (decide_eq_true near)

theorem shows_whole (whole : Whole m q N) :
    (real (signed negative (assemble m q))).Shows negative (shown (shortest m q).text) := by
  refine ⟨?_, isInt_of_whole whole, _, rfl, ?_⟩
  · have text : ofFloat (signed negative (assemble m q)) =
        (if negative then "-" else "") ++ (shortest m q).text := by
      rw [ofFloat, shape_signed_assemble whole.fits]
    have seen := shown_append (if negative then "-" else "") (shortest m q).text
    rw [← text, shown_sign, nil_append] at seen
    rw [← seen]
    rfl
  · have other : (assemble m q == 0.0) = false := by
      show (assemble m q).toModel.unpack.beq (0.0 : Float).toModel.unpack = false
      rw [whole.unpack]
      rfl
    have quotient (x : Float) : (real x).div (real x.abs) =
        if x.abs == 0.0 then .error (.breakdown .divisionByZero) else .ok (real (x / x.abs)) := rfl
    rw [quotient, whole.div_abs, whole.abs_signed, other]
    rfl

/-! ## Reading digits -/

theorem ofDigits_eq (digits : ∀ c ∈ cs, c.isDigit = true) (nonempty : cs ≠ [])
    (short : cs.length ≤ maxDigits) : ofDigits cs = .ok (digitsValue cs) := by
  have chars : (String.ofList cs).toList = (if false then ['-'] else []) ++ cs := String.toList_ofList
  have read : readInt? (String.ofList cs) = some (digitsValue cs : Int) :=
    readInt?_eq chars digits nonempty short
  rw [ofDigits, read]

theorem ofDigits_error (first : ∀ c ∈ cs.head?, c.isDigit = true)
    (numeral : ∀ c ∈ cs, isNumeral c = true)
    (other : ∃ c ∈ cs, c.isDigit = false) : ofDigits cs = .error (.breakdown .value) := by
  have signed : Signed (String.ofList cs) false cs := ⟨String.toList_ofList, first, numeral⟩
  have unread : readInt? (String.ofList cs) = none := by
    unfold readInt?
    rw [dropUnderscores_normalized signed.isNumeral]
    simp only [Option.bind_eq_bind, Option.bind_some, signed.takeSign_eq]
    rw [if_pos]
    have : cs.all Char.isDigit = false := by simpa using other
    simp [this]
  rw [ofDigits, unread]

/-- What `digitAt` reads: from index -1 on the digits, and nothing where there is another character. -/
def Reads (n : Number) (cs : List Char) : Prop :=
  ∀ i v, n.digitAt (some (.int i)) = .ok v ↔
    ∃ (k : Nat) (c : Char), i = k - 1 ∧ cs[k]? = some c ∧ c.isDigit = true ∧ v = .int (digitsValue [c])

theorem ofDigits_char {c : Char} {v : Int} (char : c.isDigit = true ∨ c = 'e' ∨ c = '+') :
    ofDigits [c] = .ok v ↔ c.isDigit = true ∧ v = digitsValue [c] := by
  rcases char with digit | rfl | rfl
  · have read : ofDigits [c] = _ :=
      ofDigits_eq (by simpa using digit) (by simp) (show 1 ≤ 4300 by decide)
    rw [read, Except.ok.injEq]
    exact ⟨fun same => ⟨digit, same.symm⟩, fun ⟨_, same⟩ => same.symm⟩
  · exact iff_of_false nofun nofun
  · exact iff_of_false nofun nofun

theorem Shows.reads (shows : n.Shows negative cs)
    (chars : ∀ c ∈ cs, c.isDigit = true ∨ c = 'e' ∨ c = '+') : n.Reads cs := by
  intro i v
  rw [Number.digitAt, shows.digits, ok_bind]
  dsimp only
  rw [show (int i).isInt = .ok true from rfl, ok_bind, if_pos rfl, bind_eq_ok_iff]
  constructor
  · rintro ⟨_, bounds, got⟩
    rw [show (int i).round = .ok i from rfl, ok_bind] at got
    have inside := checkBounds_int.mp bounds
    rw [atPosition?, if_pos (by omega)] at got
    cases there : cs[(i + 1).toNat]? with
    | none =>
      rw [there] at got
      cases got
    | some c =>
      rw [there] at got
      obtain ⟨w, read, same⟩ := bind_eq_ok_iff.mp got
      obtain ⟨digit, rfl⟩ := (ofDigits_char (chars c (mem_of_getElem? there))).mp read
      cases same
      exact ⟨_, c, by omega, there, digit, rfl⟩
  · rintro ⟨k, c, rfl, there, digit, rfl⟩
    have inside := (List.getElem?_eq_some_iff.mp there).1
    refine ⟨(), checkBounds_int.mpr (by omega), ?_⟩
    rw [show (int ((k : Int) - 1)).round = .ok ((k : Int) - 1) from rfl, ok_bind, atPosition?,
      if_pos (by omega), Int.sub_add_cancel, Int.toNat_natCast, there]
    dsimp only
    rw [(ofDigits_char (.inl digit)).mpr ⟨digit, rfl⟩]
    rfl

/-! ## Assigning to a digit -/

/-- Assign a digit at a position; the first one has the index -1. -/
def assign (n : Number) (op : Nat × Nat) : Except Fault Number :=
  n.setDigit (some (.int ((op.1 : Int) - 1))) (some (.int op.2))

/-- The characters with a digit in the place of one of them, or behind them. -/
def placed (cs : List Char) (op : Nat × Nat) : List Char :=
  cs.take op.1 ++ op.2.digitChar :: cs.drop (op.1 + 1)

/-- The integer of the digits after an assignment. -/
def reread (cs : List Char) (op : Nat × Nat) : Except Fault Int := do
  checkBounds "number" cs.length (.int ((op.1 : Int) - 1))
  ofDigits (placed cs op)

/-- The digits that are seen after an assignment that gives those of `N`: the text of the nearest
`Float`. -/
def seen (N : Nat) : Except Fault (List Char) :=
  if (N : ℚ) < Rounded.limit then .ok (shown (ofFloat (ofRatio false N 1)))
  else .error (.breakdown .overflow)

/-- What an assignment does to the digits that are seen. -/
def assignSeen (cs : List Char) (op : Nat × Nat) : Except Fault (List Char) := do
  seen (← reread cs op).toNat

/-- Assigning a digit multiplies the number of the new digits with the sign, which is a `Float`. -/
theorem Shows.assign_eq (shows : n.Shows negative cs) (digit : op.2 < 10) :
    n.assign op = reread cs op >>= fun v => (real (signed negative 1.0)).mul (.int v) := by
  obtain ⟨k, d⟩ := op
  obtain ⟨a, abs, sign⟩ := shows.sign
  have one : (toString (d : Int)).toList = [d.digitChar] := by
    rw [toList_toString_int, Int.natAbs_natCast, Nat.toDigits_of_lt_base digit]
    rfl
  have read : asDigit (some (.int d)) = .ok d := by
    have bounds : between (int 0) (int d) (int 9) = .ok true :=
      between_iff.mpr ⟨d, rfl, by simp, by exact_mod_cast Nat.le_of_lt_succ digit⟩
    show (between (int 0) (int d) (int 9) >>= fun b => if b then .ok (d : Int) else _) = _
    rw [bounds]
    rfl
  have position : ((k : Int) - 1 + 1).toNat = k := by omega
  rw [Number.assign, Number.setDigit, shows.digits, ok_bind, abs, ok_bind, sign, ok_bind, shows.whole,
    ok_bind, if_pos rfl]
  dsimp only
  rw [read, ok_bind, show (int ((k : Int) - 1)).isInt = .ok true from rfl, ok_bind, if_pos rfl, reread]
  cases bounds : checkBounds "number" cs.length (.int ((k : Int) - 1)) with
  | error f => rfl
  | ok u =>
    rw [ok_bind, ok_bind, show (int ((k : Int) - 1)).round = .ok ((k : Int) - 1) from rfl, ok_bind, one,
      position, append_assoc, singleton_append, placed]

theorem mul_int (x : Float) (k : Int) : (real x).mul (int k) = do return real (x * (← floatOfInt k)) :=
  rfl

/-- A run on numbers follows one on digits: both fail in the same way, or their results are related. -/
inductive Follows (R : Number → List Char → Prop) : Except Fault Number → Except Fault (List Char) → Prop
  | ok {n : Number} {cs : List Char} (related : R n cs) : Follows R (.ok n) (.ok cs)
  | error (f : Fault) : Follows R (.error f) (.error f)

theorem Follows.bind {R S : Number → List Char → Prop} {x : Except Fault Number}
    {y : Except Fault (List Char)} {g : Number → Except Fault Number}
    {h : List Char → Except Fault (List Char)} (follows : Follows R x y)
    (next : ∀ n cs, R n cs → Follows S (g n) (h cs)) : Follows S (x >>= g) (y >>= h) := by
  cases follows with
  | ok related => exact next _ _ related
  | error f => exact .error f

theorem Follows.mono {R S : Number → List Char → Prop} {x : Except Fault Number}
    {y : Except Fault (List Char)} (follows : Follows R x y) (weaker : ∀ n cs, R n cs → S n cs) : Follows S x y := by
  cases follows with
  | ok related => exact .ok (weaker _ _ related)
  | error f => exact .error f

theorem ofFloat_assemble (whole : Whole m q N) :
    ofFloat (signed false (assemble m q)) = (shortest m q).text := by
  rw [ofFloat, shape_signed_assemble whole.fits]
  exact String.empty_append

/-- The product of a sign and an integer is a `Float`, unless it is too large. -/
theorem follows_sign_mul (positive : 0 < N) :
    Follows (fun n cs => n.Shows negative cs ∧ Nearby N cs) ((real (signed negative 1.0)).mul (.int N))
      (seen N) := by
  have above : decide ((N : Int) < 0) = false := decide_eq_false (by omega)
  rw [mul_int, floatOfInt, ofInt?, above, Int.natAbs_natCast, seen]
  rcases lt_or_ge (N : ℚ) Rounded.limit with small | large
  · obtain ⟨m, q, n, whole, float, nearby⟩ := exists_nearby positive small
    have finite : (signed false (assemble m q)).isFinite = true :=
      isFinite_of_shape (shape_signed_assemble whole.fits)
    have plain : signed false (assemble m q) = assemble m q := if_neg Bool.false_ne_true
    have shows : (real (signed negative (assemble m q))).Shows negative _ := shows_whole whole
    rw [← whole.sign_mul] at shows
    rw [float, if_pos finite, if_pos small, ofFloat_assemble whole, plain]
    exact .ok ⟨shows, nearby⟩
  · obtain ⟨r, q, rounded, float⟩ := exists_rounded positive Nat.one_pos
    rw [Nat.cast_one, div_one] at rounded
    rw [float, rounded.eq_infinity large, isFinite_infinity, if_neg Bool.false_ne_true,
      if_neg (not_lt.mpr large)]
    exact .error _

/-! ## Sequences of assignments -/

/-- The digits of a positive integer. -/
structure Written (cs : List Char) : Prop where
  nonempty : cs ≠ []
  digits : ∀ c ∈ cs, c.isDigit = true
  first : cs.head? ≠ some '0'

/-- A position among the first `m` digits and a digit that it can be given; the first one is never
zero. -/
structure Assignable (m : Nat) (op : Nat × Nat) : Prop where
  inside : op.1 < m
  digit : op.2 < 10
  nonzero : op.1 = 0 → op.2 ≠ 0

def setDigits (n : Number) (ops : List (Nat × Nat)) : Except Fault Number := ops.foldlM assign n

/-- The digits after assignments to an array of digits. -/
def assigned (cs : List Char) (ops : List (Nat × Nat)) : List Char :=
  ops.foldl (fun cs op => cs.set op.1 op.2.digitChar) cs

theorem isDigit_digitChar (digit : d < 10) : d.digitChar.isDigit = true := by
  refine isDigit_toDigits (n := d) ?_
  rw [Nat.toDigits_of_lt_base digit]
  exact mem_cons_self

namespace Written

theorem toDigits_eq (written : Written cs) : Nat.toDigits 10 (digitsValue cs) = cs :=
  toDigits_digitsValue written.digits written.nonempty written.first

theorem value_pos (written : Written cs) : 0 < digitsValue cs := by
  have same := written.toDigits_eq
  by_contra zero
  rw [Nat.eq_zero_of_not_pos zero] at same
  exact written.first (by rw [← same]; rfl)

theorem set (written : Written cs) (assignable : Assignable m op) :
    Written (cs.set op.1 op.2.digitChar) := by
  refine ⟨by simpa using written.nonempty, ?_, ?_⟩
  · intro c member
    rcases mem_or_eq_of_mem_set member with old | rfl
    · exact written.digits c old
    · exact isDigit_digitChar assignable.digit
  · have first := written.first
    cases cs with
    | nil => exact first
    | cons c cs =>
      cases position : op.1 with
      | zero => simpa using assignable.nonzero position
      | succ k => exact first

theorem append_zero (written : Written cs) : Written (cs ++ ['0']) := by
  refine ⟨by simp, isDigit_append written.digits (isDigit_zeros 1), ?_⟩
  rw [head?_append_of_ne_nil _ written.nonempty]
  exact written.first

theorem reread_eq (written : Written cs) (short : cs.length ≤ maxDigits)
    (assignable : Assignable cs.length op) :
    reread cs op = .ok (digitsValue (cs.set op.1 op.2.digitChar) : Int) := by
  have new := written.set assignable
  have inside := assignable.inside
  have same : placed cs op = cs.set op.1 op.2.digitChar := by
    rw [set_eq_take_append_cons_drop, if_pos inside, placed]
  rw [reread, checkBounds_int.mpr (by omega), ok_bind, same]
  exact ofDigits_eq new.digits new.nonempty (by simpa using short)

end Written

theorem written_toDigits (positive : 0 < N) : Written (Nat.toDigits 10 N) :=
  ⟨Nat.toDigits_ne_nil, fun _ => isDigit_toDigits, head?_toDigits positive⟩

theorem length_sixteen (low : 10 ^ 15 ≤ N) (high : N < 10 ^ 16) : (Nat.toDigits 10 N).length = 16 := by
  have most := (Nat.length_toDigits_le_iff (b := 10) (k := 16) (by decide) (by decide)).mpr high
  have least :=
    mt (Nat.length_toDigits_le_iff (b := 10) (k := 15) (by decide) (by decide)).mp (not_lt.mpr low)
  omega

theorem mem_placed {c : Char} (member : c ∈ placed cs op) : c ∈ cs ∨ c = op.2.digitChar := by
  simp only [placed, mem_append, mem_cons] at member
  rcases member with front | new | back
  · exact .inl (mem_of_mem_take front)
  · exact .inr new
  · exact .inl (mem_of_mem_drop back)

/-- The digits with an exponent are not those of an integer, and one assignment does not change this. -/
theorem reread_error (scientific : Scientific cs) (digit : op.2 < 10) :
    ∃ f, reread cs op = .error f := by
  have new := isDigit_digitChar digit
  have numeral : ∀ c ∈ placed cs op, isNumeral c = true := by
    intro c member
    rcases mem_placed member with old | rfl
    · rcases scientific.chars c old with digit | rfl | rfl
      · exact isNumeral_of_isDigit digit
      · rfl
      · rfl
    · exact isNumeral_of_isDigit new
  obtain ⟨d, e, rfl⟩ := scientific
  obtain ⟨k, x⟩ := op
  have first : ∀ c ∈ (placed (Nat.toDigits 10 d ++ 'e' :: '+' :: Nat.toDigits 10 e) (k, x)).head?,
      c.isDigit = true := by
    intro c first
    cases k with
    | zero =>
      cases first
      exact new
    | succ k =>
      obtain ⟨y, ys, same⟩ := exists_cons_of_ne_nil (Nat.toDigits_ne_nil (b := 10) (n := d))
      rw [same] at first
      cases first
      exact isDigit_toDigits (same ▸ mem_cons_self)
  have other : ∃ c ∈ placed (Nat.toDigits 10 d ++ 'e' :: '+' :: Nat.toDigits 10 e) (k, x),
      c.isDigit = false := by
    rw [placed, ← singleton_append, ← append_assoc]
    rcases Nat.lt_or_ge (Nat.toDigits 10 d).length k with behind | before
    · refine ⟨'e', mem_append_left _ ?_, rfl⟩
      rw [take_append, take_of_length_le (by simpa using behind)]
      simp
    · refine ⟨'+', mem_append_right _ (mem_cons_of_mem _ ?_), rfl⟩
      rw [drop_append_of_le_length (by simpa using before)]
      simp
  rw [reread, ofDigits_error first numeral other]
  cases checkBounds "number" _ (.int ((k : Int) - 1)) with
  | error f => exact ⟨f, rfl⟩
  | ok u => exact ⟨_, rfl⟩

/-- What can be seen of an integer of `m` digits after `j` assignments. -/
inductive Sight (m j : Nat) (cs : List Char) : Prop
  | digits (written : Written cs) (count : cs.length = m + j) (few : j = 0 ∨ cs.length ≤ 17)
  | scientific (scientific : Scientific cs)

theorem Sight.chars (sight : Sight m j cs) : ∀ c ∈ cs, c.isDigit = true ∨ c = 'e' ∨ c = '+' := by
  cases sight with
  | digits written => exact fun c member => .inl (written.digits c member)
  | scientific scientific => exact scientific.chars

theorem Assignable.mono (assignable : Assignable m op) (more : m ≤ k) : Assignable k op :=
  ⟨Nat.lt_of_lt_of_le assignable.inside more, assignable.digit, assignable.nonzero⟩

/-- One assignment to a number, and to the digits that are seen of it. -/
theorem Shows.assign (shows : n.Shows negative cs) (sight : Sight m j cs) (short : m ≤ maxDigits)
    (assignable : Assignable m op) :
    Follows (fun n cs => n.Shows negative cs ∧ Sight m (j + 1) cs)
      (n.assign op) (assignSeen cs op) := by
  rw [shows.assign_eq assignable.digit, assignSeen]
  cases sight with
  | digits written count few =>
    have here : Assignable cs.length op := assignable.mono (by omega)
    have most : cs.length ≤ maxDigits := by
      rcases few with rfl | few
      · omega
      · exact few.trans (show 17 ≤ 4300 by decide)
    have new := written.set here
    rw [written.reread_eq most here, ok_bind, ok_bind, Int.toNat_natCast]
    refine (follows_sign_mul new.value_pos).mono fun n cs' ⟨shows, nearby⟩ => ⟨shows, ?_⟩
    cases nearby with
    | @digits n some few less near same =>
      have length : (Nat.toDigits 10 n).length = cs.length := by
        have set : (cs.set op.1 op.2.digitChar).length = cs.length := length_set
        rw [← set, ← new.toDigits_eq]
        rcases near with ⟨-, rfl⟩ | ⟨long, long'⟩
        · rfl
        · rw [length_sixteen (by omega) less, length_sixteen (by omega) (by omega)]
      have most := (Nat.length_toDigits_le_iff (b := 10) (k := 16) (by decide) (by decide)).mpr less
      have more : cs'.length = (Nat.toDigits 10 n).length + 1 := by rw [same, length_append]; rfl
      exact .digits (same ▸ (written_toDigits some).append_zero) (by omega) (.inr (by omega))
    | scientific _ scientific => exact .scientific scientific
  | scientific scientific =>
    obtain ⟨f, failed⟩ := reread_error scientific assignable.digit
    rw [failed]
    exact .error f

/-- A number follows the digits that are seen of it through a sequence of assignments. -/
theorem Shows.setDigits {ops : List (Nat × Nat)} (shows : n.Shows negative cs) (sight : Sight m j cs)
    (short : m ≤ maxDigits) (assignable : ∀ op ∈ ops, Assignable m op) :
    Follows (fun n cs => n.Shows negative cs ∧ Sight m (j + ops.length) cs) (n.setDigits ops)
      (ops.foldlM assignSeen cs) := by
  induction ops generalizing n cs j with
  | nil => exact .ok ⟨shows, sight⟩
  | cons op ops ih =>
    obtain ⟨here, rest⟩ := forall_mem_cons.mp assignable
    rw [Number.setDigits, foldlM_cons, foldlM_cons]
    refine (shows.assign sight short here).bind fun n cs ⟨shows, sight⟩ => ?_
    have run := ih shows sight rest
    rwa [Nat.add_right_comm] at run

theorem assigned_append {ops : List (Nat × Nat)} (ds : List Char)
    (inside : ∀ op ∈ ops, op.1 < cs.length) : assigned (cs ++ ds) ops = assigned cs ops ++ ds := by
  induction ops generalizing cs with
  | nil => rfl
  | cons op ops ih =>
    obtain ⟨here, rest⟩ := forall_mem_cons.mp inside
    show assigned ((cs ++ ds).set op.1 op.2.digitChar) ops =
      assigned (cs.set op.1 op.2.digitChar) ops ++ ds
    rw [set_append_left _ _ here, ih (by simpa using rest)]

theorem seen_short (positive : 0 < N) (short : N < 2 ^ 53) :
    seen N = .ok (Nat.toDigits 10 N ++ ['0']) := by
  have small : (N : ℚ) < Rounded.limit := by
    have unit : (2 : ℚ) ^ (1 : Int) ≤ 2 ^ maxExponent := zpow_le_zpow_right₀ (by norm_num) (by decide)
    have : (N : ℚ) < 2 ^ 53 := by exact_mod_cast short
    rw [zpow_one] at unit
    unfold Rounded.limit
    linarith
  obtain ⟨m, q, n, whole, float, nearby⟩ := exists_nearby positive small
  rw [seen, if_pos small, float, ofFloat_assemble whole]
  cases nearby with
  | digits _ _ _ near same =>
    rw [same]
    rcases near with ⟨-, rfl⟩ | ⟨long, -⟩
    · rfl
    · omega
  | scientific many => omega

/-- As long as there are few digits, each assignment acts as on an array and adds a zero. -/
theorem Written.foldlM_assignSeen {ops : List (Nat × Nat)} (written : Written cs)
    (few : cs.length + ops.length ≤ 16) (assignable : ∀ op ∈ ops, Assignable cs.length op) :
    ops.foldlM assignSeen cs = .ok (assigned cs ops ++ replicate ops.length '0') := by
  induction ops generalizing cs with
  | nil => exact congrArg Except.ok (append_nil cs).symm
  | cons op ops ih =>
    obtain ⟨here, rest⟩ := forall_mem_cons.mp assignable
    rw [length_cons] at few
    have new := written.set here
    have length : (cs.set op.1 op.2.digitChar).length = cs.length := length_set
    have small := digitsValue_lt new.digits
    have bound : 10 ^ (cs.set op.1 op.2.digitChar).length ≤ 10 ^ 15 :=
      Nat.pow_le_pow_right (by decide) (by omega)
    have most : cs.length ≤ maxDigits := (show cs.length ≤ 16 by omega).trans (show 16 ≤ 4300 by decide)
    have step : assignSeen cs op = .ok (cs.set op.1 op.2.digitChar ++ ['0']) := by
      rw [assignSeen, written.reread_eq most here, ok_bind, Int.toNat_natCast,
        seen_short new.value_pos (by omega), new.toDigits_eq]
    have next := ih new.append_zero (by simp only [length_append, length_singleton]; omega)
      fun o member => (rest o member).mono (by simp)
    rw [assigned_append ['0'] fun o member => length ▸ (rest o member).inside, append_assoc,
      singleton_append, ← replicate_succ] at next
    rw [foldlM_cons, step, ok_bind, next]
    rfl

/-- An assignment to a digit leaves a `Float` with the same sign. It shows the digits that an array would
hold, and a zero behind them for each assignment, but from sixteen digits on those of the nearest number
that a `Float` can be, then an exponent, so that the next assignment fails, and it fails if the number is
too large. -/
theorem digits_assigned {ops : List (Nat × Nat)} (nonzero : z ≠ 0)
    (short : (decimals z).length ≤ maxDigits)
    (assignable : ∀ op ∈ ops, Assignable (decimals z).length op) :
    Follows (fun n cs => n.Reads cs ∧ Sight (decimals z).length ops.length cs ∧
        ∃ a, n.abs = .ok a ∧ n.div a = .ok (.real (signed (z < 0) 1.0)))
      ((int z).setDigits ops) (ops.foldlM assignSeen (decimals z)) ∧
    ((decimals z).length + ops.length ≤ 16 → ops.foldlM assignSeen (decimals z) =
      .ok (assigned (decimals z) ops ++ replicate ops.length '0')) ∧
    ∀ cs op, Scientific cs → op.2 < 10 → ∃ f, assignSeen cs op = .error f := by
  have shows := shows_int nonzero ((Nat.length_toDigits_le_iff (by decide) (by decide)).mp short)
  have written := written_toDigits (Int.natAbs_pos.mpr nonzero)
  have sight : Sight (decimals z).length 0 _ := .digits written rfl (.inl rfl)
  refine ⟨?_, fun few => written.foldlM_assignSeen few assignable, fun cs op scientific digit => ?_⟩
  · have run := shows.setDigits sight short assignable
    rw [Nat.zero_add] at run
    exact run.mono fun n cs ⟨shows, sight⟩ => ⟨shows.reads sight.chars, sight, shows.sign⟩
  · obtain ⟨f, failed⟩ := reread_error scientific digit
    exact ⟨f, by rw [assignSeen, failed]; rfl⟩

/-- After `5` has been assigned to the second digit of `123`, there is a fourth digit. -/
theorem digits_assigned_fourth : ∃ n, (int 123).setDigits [(1, 5)] = .ok n ∧
    n.digitAt (some (.int 0)) = .ok (.int 5) ∧ n.digitAt (some (.int 2)) = .ok (.int 0) := by
  have assignable : ∀ op ∈ [(1, 5)], Assignable (decimals 123).length op := by
    intro op member
    rw [mem_singleton.mp member]
    exact ⟨by decide, by decide, by decide⟩
  obtain ⟨follows, array, -⟩ :=
    digits_assigned (z := 123) (by decide) (show 3 ≤ 4300 by decide) assignable
  rw [array (by decide)] at follows
  generalize (int 123).setDigits [(1, 5)] = result at follows ⊢
  cases follows with
  | ok related =>
    obtain ⟨reads, -⟩ := related
    exact ⟨_, rfl, (reads 0 _).mpr ⟨1, '5', rfl, rfl, rfl, rfl⟩,
      (reads 2 _).mpr ⟨3, '0', rfl, rfl, rfl, rfl⟩⟩

end Number

end DreamBerd
