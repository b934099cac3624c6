import VersionRange.Text.Quoted

namespace VersionRange

/-!
# Loose values

Some entry points take values whose kind is not known beforehand: an operator token, a version, a
member of a group.  A `Datum` is such a value before it has been checked.

* `Datum.kind d`: the name of its kind in messages.
* `Datum.shown d`: the value as it stands in messages.
* `Datum.isScalar d`: whether it can serve as a key, that is, holds no list or object.
* `Datum.same a b`: equality, where a truth value counts as the number one or zero.
-/

/-- A value of any kind, as it comes from a caller without types. Decimal fractions are
    exact here. -/
inductive Datum where
  | null
  | bool (b : Bool)
  | int (n : Int)
  /-- The decimal fraction `mantissa / 10 ^ places`. -/
  | decimal (mantissa : Int) (places : Nat)
  | text (s : String)
  | list (items : List Datum)
  | object (fields : List (String × Datum))
  deriving Inhabited

namespace Datum

/-- The name of a kind of value in messages. -/
def kind : Datum → String
  | null => "NoneType"
  | bool _ => "bool"
  | int _ => "int"
  | decimal .. => "float"
  | text _ => "str"
  | list _ => "list"
  | object _ => "dict"

/-- The digits `ds` with the point after the first `whole` of them. -/
def pointed (ds : List Char) (whole : Int) : List Char :=
  if whole ≤ 0 then '0' :: '.' :: List.replicate (-whole).toNat '0' ++ ds
  else
    let n := whole.toNat
    let front := ds.take n ++ List.replicate (n - ds.length) '0'
    let back := ds.drop n
    front ++ '.' :: (if back.isEmpty then ['0'] else back)

/-- A decimal fraction in its shortest form: positional from `0.0001` up to sixteen whole digits,
    and with an exponent of at least two digits beyond. -/
def decimalText (mantissa : Int) (places : Nat) : List Char :=
  let ds := (Nat.toDigits 10 mantissa.natAbs).reverse.dropWhile (· == '0') |>.reverse
  let whole : Int := (Nat.toDigits 10 mantissa.natAbs).length - places
  let sign := if mantissa < 0 then ['-'] else []
  if mantissa = 0 then ['0', '.', '0']
  else if -4 < whole ∧ whole ≤ 16 then sign ++ pointed ds whole
  else
    let e := whole - 1
    let es := Nat.toDigits 10 e.natAbs
    let body := match ds with
      | d :: r@(_ :: _) => d :: '.' :: r
      | ds => ds
    sign ++ body ++ 'e' :: (if e < 0 then '-' else '+')
      :: (List.replicate (2 - es.length) '0' ++ es)

mutual

/-- The value as it stands in messages. -/
def shown : Datum → String
  | null => "None"
  | bool true => "True"
  | bool false => "False"
  | int n => toString n
  | decimal m p => String.ofList (decimalText m p)
  | text s => Text.quote s
  | list items => "[" ++ ", ".intercalate (shownItems items) ++ "]"
  | object fields => "\x7b" ++ ", ".intercalate (shownFields fields) ++ "\x7d"

/-- The items of a list as they stand in messages. -/
def shownItems : List Datum → List String
  | [] => []
  | d :: r => shown d :: shownItems r

/-- The fields of an object as they stand in messages. -/
def shownFields : List (String × Datum) → List String
  | [] => []
  | (name, d) :: r => (Text.quote name ++ ": " ++ shown d) :: shownFields r

end

/-- The value inside a longer text: a text stands there without quotes, any other value as it is
    shown. -/
def plainText : Datum → String
  | text s => s
  | d => shown d

/-- The denominator of a decimal fraction with some places. -/
def scale (places : Nat) : Int := Int.ofNat (Nat.pow 10 places)

/-- Whether the value can serve as a key. -/
def isScalar : Datum → Bool
  | list _ | object _ => false
  | _ => true

/-- The whole number that a value equals, if it equals one. A truth value is such a number
    as well. -/
def whole? : Datum → Option Int
  | bool b => some (if b then 1 else 0)
  | int n => some n
  | decimal m p => if m % scale p = 0 then some (m / scale p) else none
  | _ => none

mutual

/-- Equality of values. Numbers are equal if they have the same value, whatever their kind. -/
def same : Datum → Datum → Bool
  | null, null => true
  | text s, text t => s == t
  | list xs, list ys => sameItems xs ys
  | object xs, object ys => xs.length == ys.length && sameFields xs ys
  | decimal m p, decimal n q => m * scale q == n * scale p
  | a, b =>
    match whole? a, whole? b with
    | some m, some n => m == n
    | _, _ => false

/-- Equality of lists, item by item. -/
def sameItems : List Datum → List Datum → Bool
  | [], [] => true
  | x :: xs, y :: ys => same x y && sameItems xs ys
  | _, _ => false

/-- Whether every field of the first object has an equal one in the second. -/
def sameFields : List (String × Datum) → List (String × Datum) → Bool
  | [], _ => true
  | (name, x) :: xs, ys =>
    (match ys.lookup name with
      | some y => same x y
      | none => false) && sameFields xs ys

end

end Datum

end VersionRange
