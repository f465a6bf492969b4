/-!
# Complaints

A complaint is the cause of an error that the language itself reports. `Complaint.message` is the
only place where these errors are worded.
-/

namespace DreamBerd

inductive Complaint where
  -- reading text
  | unmatchedQuotes
  | userTooConfused
  -- reading expressions
  | nothingToRead
  | tabInExpression
  | newlineInExpression
  | unequalOperatorBlanks
  | operatorAtEnd
  | expectedValue
  | unequalBracketBlanks
  | expectedCall
  -- reading statements
  | brokenTypeHint
  | badIndent
  | badFunctionToken
  | badFunctionKeywords
  | unclosedScope
  | scopeWithoutKeyword
  | unreadableStatement
  | tooManyClosingBraces
  -- indexing values
  | popNeedsInteger (what : String)
  | outOfBounds (what : String)
  | indexNotNumber (what : String)
  | noValueAtIndex
  | numberIndexNotInteger
  | assignIntoFraction
  | assignNonDigit
  | badMapKey
  | variableUndefined
  -- converting values
  | nonEmptyToNumber (what : String)
  | notANumber (typeName : String)
  | mathNeedsNumbers
  | onesDigitExpected (typeName : String)
  -- publishing values
  | nonTextKey
  | unknownForm
  | unknownPlainType (shown : String)
  | unknownRecordType
  | badPublishedTruth
  | badPublishedKind
  | badPublishedFunction
  -- calling
  | tooFewArguments (count : Int)
  | nameNotFound
  | nameNotFoundAwaiting
  | awaitArity
  | awaitNotCall
  | previousArity
  | previousNotName
  | previousNotVariable
  | notCallable
  | cannotEdit
  -- operating
  | deletedValue (shown : String)
  | badInterpolation
  | incomparable (left right : String)
  | unordered (typeName : String)
  | cannotNegate (typeName : String)
  | unknownOperator
  | unknownPairOperator
  | negativeRoot
  | notIndexable
  -- waiting for values
  | undefinedCall
  | nextArity
  | noNamespace
  | awaitNotFunction
  | lostNext
  | brokenNext
  | brokenStatement
  -- variables
  | dottedDeclaration
  | assignUndefined
  | assignIntoUnindexable
  | assignNonVariable
  | assignConstant
  | badTimeUnit
  | noPublishing
  | noAccessToken
  -- events, files, classes
  | noInputDevices
  | badEvent (shown : String)
  | notImportable (name : String)
  | notExportable
  | secondInstance (shown : String)
  | constructorIsVariable
  | unexpectedInClass (typeName : String)
  | unreadableForm
  | asyncReturn
  deriving DecidableEq

namespace Complaint

def argumentCount (n : Int) : String :=
  toString n ++ " argument" ++ (if n = 1 then "" else "s")

def message : Complaint → String
  | unmatchedQuotes => "Invalid string. Starting quotes do not match opening quotes."
  | userTooConfused => "User is too confused. Aborting due to trust issues."
  | nothingToRead => "Something went wrong, I don't know what so figure it out :)"
  | tabInExpression => "Tabs are not allowed in expressions."
  | newlineInExpression =>
    "Due to the laws of significant whitespace, no newline characters are permitted in expressions. "
      ++ "If your code is so long that it needs newlines, consider rewriting it :)"
  | unequalOperatorBlanks => "Whitespace must be equal on either side of an operator."
  | operatorAtEnd => "Operator cannot be at the end of an expression."
  | expectedValue => "Expected name or value."
  | unequalBracketBlanks => "Whitespace between either bracket of a list must be equal in length."
  | expectedCall =>
    "Expected function call. This is likely an issue of whitespace, as DreamBerd replaces "
      ++ "parentheses with spaces and has significant whitespace."
  | brokenTypeHint => "Something went wrong parsing type hints (a.k.a. removing them)."
  | badIndent => "Invalid indenting detected (must be a multiple of 3). Tabs count as 2 spaces."
  | badFunctionToken => "Invalid token in function declaration."
  | badFunctionKeywords => "Insufficient keyword count in function declaration."
  | unclosedScope => "End of statement with open scope must close the scope."
  | scopeWithoutKeyword => "Scoped code statement must start with a keyword."
  | unreadableStatement =>
    "Error parsing statement. I have no idea what went wrong, double check it and try again."
  | tooManyClosingBraces => "Too many closed braces with not enough open braces."
  | popNeedsInteger what => "Expected integer for " ++ what ++ " popping."
  | outOfBounds what => "Indexing out of " ++ what ++ " bounds."
  | indexNotNumber what => "Cannot index a " ++ what ++ " with a non-number value."
  | noValueAtIndex => "No value assigned to that index"
  | numberIndexNotInteger => "Expected integer for number indexing."
  | assignIntoFraction => "Cannot assign into a non-interger number."
  | assignNonDigit => "Cannot assign into a number with a non-integer value."
  | badMapKey => "Keys of a map must be an index or a number."
  | variableUndefined => "Variable is undefined."
  | nonEmptyToNumber what => "Cannot turn a non-empty " ++ what ++ " into a number."
  | notANumber typeName => "Cannot turn type " ++ typeName ++ " into a number."
  | mathNeedsNumbers => "Cannot pass in a non-number value into a math function."
  | onesDigitExpected typeName =>
    "Expected a number in the ones digit. Instead received a " ++ typeName
  | nonTextKey => "Serialization Error: Encountered non-string dictionary keys."
  | unknownForm => "Invalid object type in Dreamberd Variable deserialization."
  | unknownPlainType _ => "Invalid `python_obj_type` detected in deserialization."
  | unknownRecordType => "Invalid `dreamberd_obj_type` detected in deserialization."
  | badPublishedTruth => "Invalid boolean detected in object deserialization."
  | badPublishedKind => "Invalid TokenType detected in object deserialization."
  | badPublishedFunction => "Invalid builtin function detected in object deserialization."
  | tooFewArguments count =>
    "Expected more arguments for function call with " ++ argumentCount count ++ "."
  | nameNotFound => "Cannot find token in namespace."
  | nameNotFoundAwaiting => "Cannot find token in namespaces."
  | awaitArity => "Expected only one argument for await function."
  | awaitNotCall => "Expected argument of await function to be a function call."
  | previousArity => "Expected only one argument for previous function."
  | previousNotName => "Expected argument of previous function to be a variable."
  | previousNotVariable => "Expected argument of previous function to be a defined variable."
  | notCallable => "Attempted function call on non-function value."
  | cannotEdit => "Cannot edit the value of this variable."
  | deletedValue shown => "The value " ++ shown ++ " has been deleted."
  | badInterpolation => "Invalid interpolated string formatting."
  | incomparable left right =>
    "Cannot compare value of type " ++ left ++ " with one of type " ++ right ++ "."
  | unordered typeName => "Comparison not supported between elements of type " ++ typeName ++ "."
  | cannotNegate typeName => "Cannot negate a value of type " ++ typeName
  | unknownOperator => "Something went wrong. My bad."
  | unknownPairOperator => "Something went wrong here."
  | negativeRoot => "Cannot raise a negative base to a non-integer exponent."
  | notIndexable => "Attempting to index a value that is not indexable."
  | undefinedCall => "Attempted function call on undefined variable."
  | nextArity => "\"Next\"keyword can only take a single value as an argument."
  | noNamespace => "Attempted to access namespace of a value without a namespace."
  | awaitNotFunction => "Can only await a function."
  | lostNext => "Something went wrong with accessing the next value of a variable."
  | brokenNext => "Something went wrong."
  | brokenStatement => "Something went wrong. It's not your fault, it's mine."
  | dottedDeclaration => "Cannot declare a variable with periods in the name."
  | assignUndefined => "Attempted to set a name that is undefined."
  | assignIntoUnindexable => "Attempted to index into an un-indexable object."
  | assignNonVariable => "Attempted to set name that is not a variable."
  | assignConstant => "Attempted to set a variable that cannot be set."
  | badTimeUnit => "Invalid time unit for variable lifetime."
  | noPublishing =>
    "Cannot create a public global variable without a the GitHub API imported."
  | noAccessToken =>
    "To declare public globals, you must set the GITHUB_ACCESS_TOKEN to a personal access token."
  | noInputDevices =>
    "Attempted to use mouse and keyboard functionality without importing the [input] extra "
      ++ "dependency."
  | badEvent shown => "Invalid event for the \"after\" statement: \"" ++ shown ++ "\""
  | notImportable name => "Name " ++ name ++ " could not be imported."
  | notExportable => "Tried to export name that is not a name or variable."
  | secondInstance shown => "Already made instance of the class \"" ++ shown ++ "\"."
  | constructorIsVariable => "Cannot create class variable with the same name as the class."
  | unexpectedInClass typeName =>
    "Unexpected statement of type " ++ typeName ++ " in class declaration."
  | unreadableForm => "Error parsing statement. Try again."
  | asyncReturn => "Function executed asynchronously cannot have a return statement."

end Complaint

end DreamBerd
