import VersionRange.Version.Order

namespace VersionRange

/-!
# Comparison operators

* `Operator`: the six comparisons, with `symbol`, `direction` and `hasEqual`.
* `Operator.ofToken?`: the operator with a spelling; two of them have two spellings.
* `Operator.check`: what an operator says about the outcome of a comparison.
* `Operator.relates`: what an operator says about two canonical texts.
-/

/-- A comparison of versions. What it says of two of them is `Operator.check`, and how it is
    written `Operator.symbol`. -/
inductive Operator where
  | eq
  | lt
  | le
  | gt
  | ge
  | ne
  deriving DecidableEq, Repr, Inhabited

/-- The side to which a comparison is open. Two bounds that are open to the same side always leave
    room for each other. -/
inductive Direction where
  /-- One point. -/
  | point
  /-- Everything below. -/
  | below
  /-- Everything above. -/
  | above
  /-- Everything but one point. -/
  | apart
  deriving DecidableEq, Repr

/-- The part of an operator that tells its direction. -/
def Direction.symbol : Direction → String
  | point => ""
  | below => "<"
  | above => ">"
  | apart => "!"

namespace Operator

/-- The operator in constraints. -/
def symbol : Operator → String
  | eq => "="
  | lt => "<"
  | le => "<="
  | gt => ">"
  | ge => ">="
  | ne => "!="

/-- The side to which an operator is open. -/
def direction : Operator → Direction
  | eq => .point
  | lt | le => .below
  | gt | ge => .above
  | ne => .apart

/-- Whether the symbol of an operator has an equals sign. -/
def hasEqual : Operator → Bool
  | eq | le | ge | ne => true
  | lt | gt => false

/-- The operator with a spelling. Equality has two of them, and inequality too. -/
def ofToken? : String → Option Operator
  | "=" | "==" => some eq
  | "<" => some lt
  | "<=" => some le
  | ">" => some gt
  | ">=" => some ge
  | "!=" | "<>" => some ne
  | _ => none

/-- The operator in a loose value. A list or an object is refused with another fault than a token
    that is none. -/
def ofDatum : Datum → Except Fault Operator
  | .text s =>
    match ofToken? s with
    | some op => .ok op
    | none => .error (.operator (.text s))
  | d => .error (if d.isScalar then .operator d else .tokenKind)

/-- Whether an operator accepts the outcome of a comparison of a version, on the left, with that of
    the operator. -/
def check : Operator → Ordering → Bool
  | eq, o => o.isEq
  | lt, o => o.isLT
  | le, o => o.isLE
  | gt, o => o.isGT
  | ge, o => o.isGE
  | ne, o => o.isNe

/-- Whether the left text stands to the right one as the operator says. Without `branches` a branch
    is equal to the same branch and in no other relation to anything. -/
def relates (op : Operator) (branches : Bool) (left right : String) : Except Fault Bool :=
  if isBranch left && isBranch right && !branches then .ok (op == eq && left == right)
  else do
    match ← compareTexts branches left right with
    | none => return false
    | some o => return op.check o

/-- The symbol that an operator is written with is one of its tokens, so what is written can be read
    back. -/
@[simp] theorem ofToken?_symbol (op : Operator) : ofToken? op.symbol = some op := by
  cases op <;> rfl

/-- A loose value that is the symbol of an operator stands for that operator. -/
@[simp] theorem ofDatum_symbol (op : Operator) : ofDatum (.text op.symbol) = .ok op := by
  simp [ofDatum]

/-- The tokens that are suggested in the report of a bad one are exactly those that are accepted. -/
theorem ofToken?_isSome_iff (token : String) :
    (ofToken? token).isSome = true ↔ token ∈ operatorTokens := by
  constructor
  · intro h
    unfold ofToken? at h
    split at h <;> simp_all [operatorTokens]
  · intro h
    simp only [operatorTokens, List.mem_cons, List.not_mem_nil, or_false] at h
    rcases h with rfl | rfl | rfl | rfl | rfl | rfl | rfl | rfl <;> rfl

/-! Opposite operators accept opposite outcomes. -/

/-- What is not less is greater or equal. -/
theorem check_ge (o : Ordering) : check ge o = !check lt o := by cases o <;> rfl

/-- What is not greater is less or equal. -/
theorem check_le (o : Ordering) : check le o = !check gt o := by cases o <;> rfl

/-- What is not equal is different. -/
theorem check_ne (o : Ordering) : check ne o = !check eq o := by cases o <;> rfl

end Operator

end VersionRange
