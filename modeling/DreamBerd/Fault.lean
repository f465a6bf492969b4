import DreamBerd.Complaint
import DreamBerd.Position
import DreamBerd.Token

/-!
# Faults

Everything that can end a computation without a value. A complaint of the language is either
located, as a `Report` with the place in the source that it points at, or plain; a `Breakdown` is a
failure below the language, known only by its kind. `Source.atToken` and `Source.atLine` locate a
complaint; where the source has no such line, locating it breaks down.
-/

namespace DreamBerd

inductive Breakdown where
  /-- A position outside a sequence. -/
  | position
  /-- A key that a table lacks. -/
  | key
  /-- A value of the right type that cannot be used. -/
  | value
  | kind
  | field
  | divisionByZero
  /-- A number too large for its type. -/
  | overflow
  /-- A text that is no literal. -/
  | literal
  /-- A type that is not known by its name. -/
  | name
  /-- A case that was taken to be impossible. -/
  | impossible
  /-- A collection that changed while it was walked. -/
  | changed
  | missingFile
  /-- A file that ends too early. -/
  | endOfFile
  /-- A value that cannot be kept. -/
  | notStorable
  deriving DecidableEq

inductive Place where
  /-- Nowhere: the message stands alone. -/
  | nowhere
  /-- Code typed at the prompt, which is not shown again. -/
  | prompt
  | line (file : String) (line : Int) (text : String)
  /-- A token: its line, the blanks before it and its width. -/
  | token (file : String) (line : Int) (text : String) (indent : Nat) (width : Nat)
  deriving DecidableEq

structure Report where
  complaint : Complaint
  place : Place
  deriving DecidableEq

inductive Fault where
  | report (r : Report)
  | plain (c : Complaint)
  | breakdown (b : Breakdown)
  | exit
  /-- The program waits for a change that nothing can bring about. -/
  | waitsForever
  /-- The bound on the number of steps was too small. -/
  | outOfFuel
  deriving DecidableEq

/-! ## Text of reports -/

namespace Ansi

def yellow : String := "\x1b[33m"

def red : String := "\x1b[31m"

def reset : String := "\x1b[39m"

end Ansi

def blanks (n : Nat) : String := String.ofList (List.replicate n ' ')

namespace Place

def render (colour message : String) : Place → String
  | nowhere => message
  | prompt => "\n" ++ colour ++ message ++ Ansi.reset ++ "\n"
  | line file n text =>
    Ansi.yellow ++ file ++ ", line " ++ toString n ++ Ansi.reset ++ "\n\n  " ++ text ++ "\n\n"
      ++ colour ++ message ++ Ansi.reset
  | token file n text indent width =>
    Ansi.yellow ++ file ++ ", line " ++ toString n ++ Ansi.reset ++ "\n\n  " ++ text ++ "\n "
      ++ blanks indent ++ String.ofList (List.replicate width '^') ++ "\n"
      ++ colour ++ message ++ Ansi.reset

end Place

def Report.text (r : Report) : String := r.place.render Ansi.red r.complaint.message

/-! ## Locating complaints -/

/-- The name and the text of the code at work; typed code has an empty text. -/
structure Source where
  file : String
  code : String
  deriving DecidableEq, Inhabited

namespace Source

def lineText? (s : Source) (n : Int) : Option String :=
  atPosition? (s.code.splitOn "\n") (n - 1)

/-- The place of a token: the line that it ends in, and the columns that it fills. -/
def placeOfToken? (s : Source) (t : Token) : Option Place :=
  if s.code.isEmpty then some .prompt
  else (s.lineText? t.line).map fun text =>
    .token s.file t.line text (t.col - t.width + 1).toNat t.width

def placeOfLine? (s : Source) (n : Int) : Option Place :=
  if s.code.isEmpty then some .prompt
  else (s.lineText? n).map fun text => .line s.file n text

def atToken (s : Source) (c : Complaint) (t : Token) : Fault :=
  match s.placeOfToken? t with
  | some p => .report ⟨c, p⟩
  | none => .breakdown .position

def atLine (s : Source) (c : Complaint) (n : Int) : Fault :=
  match s.placeOfLine? n with
  | some p => .report ⟨c, p⟩
  | none => .breakdown .position

end Source

end DreamBerd
