import VersionRange.Datum

namespace VersionRange

/-!
# Errors

* `ParseError`: why a text is no version or no expression, as it is reported.
* `Fault`: everything that a call of the library can end with instead of a value.
-/

/-- Why a text cannot be read.  Whoever raises it says what the message is, which part of the input
    it is about, and whether there is an explanation or another report behind it. -/
structure ParseError where
  /-- The whole message. -/
  message : String
  /-- The part of the input that cannot be read. -/
  fragment : String
  /-- The explanation at the end of the message, if it has one. -/
  hint? : Option String := none
  /-- The report that this one was made for. -/
  cause? : Option ParseError := none
  deriving Repr

/-- What a call can end with instead of a value. Only some faults are worded by the library, see
    `Fault.message?`. -/
inductive Fault where
  /-- A text cannot be read. -/
  | parse (e : ParseError)
  /-- The token is no operator. -/
  | operator (token : Datum)
  /-- The token is a list or an object, which cannot even be looked up. -/
  | tokenKind
  /-- A numeral has more digits than are converted. -/
  | numeral
  /-- The version has fields that three numbers cannot hold. -/
  | fields (version : String)
  /-- One of the three numbers of an interchange version is negative. -/
  | negative
  /-- The version is no text. -/
  | notText
  /-- The value in place of a constraint is none. -/
  | notConstraint (value : Datum)
  /-- A member of a group is no constraint, or a value without parts was asked for one. -/
  | notMember
  /-- The fields do not make up a version. -/
  | badFields
  /-- A version was ordered against something else. -/
  | unordered
  /-- No parser has the name. -/
  | unknownParser (name : String)
  deriving Inhabited

/-- The tokens of the operators, in the order in which they are suggested to someone who gave none
    of them. -/
def operatorTokens : List String := ["=", "==", "<", "<=", ">", ">=", "!=", "<>"]

/-- The message of a fault, if the library words one. -/
def Fault.message? : Fault → Option String
  | parse e => some e.message
  | operator token => some ("Invalid operator " ++ token.shown ++ " given, expected one of: "
      ++ ", ".intercalate operatorTokens)
  | fields version => some (version ++ " has more than three numeric fields")
  | notText => some "Version must be a string"
  | notConstraint value => some ("Unsupported constraint type: " ++ value.kind)
  | tokenKind | numeral | negative | notMember | badFields | unordered | unknownParser _ => none

end VersionRange
