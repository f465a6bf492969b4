import DreamBerd.Text.Blank

/-!
# The parts of a file

A line that starts with five equality signs begins a new part of a file; what else stands in the line,
without the signs and blanks around it, is the name of the part.
-/

namespace DreamBerd

/-- Make every kind of line break a line feed. -/
def Text.unifyBreaks : List Char → List Char
  | [] => []
  | '\r' :: '\n' :: cs => '\n' :: unifyBreaks cs
  | c :: cs => (if c = '\r' then '\n' else c) :: unifyBreaks cs

def Text.lines (s : String) : List String :=
  (String.ofList (unifyBreaks s.toList)).splitOn "\n"

namespace Program

structure Part where
  name : String
  code : String
  deriving DecidableEq

def unnamed : String := "__unnamed_file__"

def isHeading (line : String) : Bool := "=====".toList.isPrefixOf line.toList

def nameInHeading (line : String) : String :=
  let name := Text.strip (Text.trimWhere (· == '=') line)
  if name.isEmpty then unnamed else name

/-- Divide lines into parts; `seen` are the lines of the first part that have been passed, the last of
them first. -/
def divide (name : String) (seen : List String) : List String → List Part
  | [] => [⟨name, "\n".intercalate seen.reverse⟩]
  | line :: lines =>
    if isHeading line then
      ⟨name, String.join (seen.reverse.map (· ++ "\n"))⟩ :: divide (nameInHeading line) [] lines
    else divide name (line :: seen) lines

def parts (text : String) : List Part := divide unnamed [] (Text.lines text)

end Program

end DreamBerd
