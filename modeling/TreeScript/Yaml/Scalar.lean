import TreeScript.Decimal.Binary
import TreeScript.Decimal.Text
import TreeScript.Yaml.Basic

/-!
What scalars mean. A plain scalar is nothing, a truth value, an integer or a number when it is spelled
like one; any other is a text. A tag can ask for one of these meanings, and it must be met.
-/

set_option autoImplicit false

namespace TreeScript.Yaml

inductive Meaning where
  | null
  | bool (value : Bool)
  | int (value : Int)
  | float (value : Float)
  | text

def Meaning.tag : Meaning → String
  | null => "!!null"
  | bool _ => "!!bool"
  | int _ => "!!int"
  | float _ => "!!float"
  | text => "!!str"

/-! ### Numbers -/

/-- Digits of a base, at least one. -/
def baseDigits? (base : Nat) : List Char → Option Nat
  | [] => none
  | cs => cs.foldlM (fun n c => ((hexValue? c).filter (· < base)).map (base * n + ·)) 0
where
  hexValue? (c : Char) : Option Nat :=
    if c.isDigit then some (c.toNat - '0'.toNat)
    else if 'a' ≤ c.toLower ∧ c.toLower ≤ 'f' then some (c.toLower.toNat - 'a'.toNat + 10)
    else none

/-- The magnitude of an integer. It is octal after a zero, unless a letter names another base. -/
def magnitude? : List Char → Option Nat
  | ['0'] => some 0
  | '0' :: c :: cs =>
    match c.toLower with
    | 'x' => baseDigits? 16 cs
    | 'o' => baseDigits? 8 cs
    | 'b' => baseDigits? 2 cs
    | _ => baseDigits? 8 (c :: cs)
  | cs => baseDigits? 10 cs

/-- An integer that fits a word: a signed one, or without a sign one that is not negative. -/
def int? : List Char → Option Int
  | '-' :: cs => ((magnitude? cs).filter (· ≤ twoTo 63)).map fun n => -(n : Int)
  | '+' :: cs => ((magnitude? cs).filter (· < twoTo 63)).map fun n => (n : Int)
  | cs => ((magnitude? cs).filter (· < twoTo 64)).map fun n => (n : Int)

/-- The double nearest to `coeff * 10 ^ exponent`, if it is finite. -/
def nearestDouble? (coeff exponent : Int) : Option Float :=
  let top := (toString coeff.natAbs).length + exponent
  if coeff = 0 ∨ top < -400 then some 0
  else if 400 < top then none
  else
    let x := (Decimal.ofScientific coeff exponent).toDouble
    if Decimal.isReal x then some x else none

/-- A decimal number. -/
def float? (cs : List Char) : Option Float := do
  let mantissa := cs.takeWhile (!Decimal.isExponentMark ·)
  let fraction := mantissa.dropWhile (· ≠ '.')
  if !(fraction.drop 1).all Char.isDigit then
    none
  let (coeff, places) ← Decimal.readMantissa? mantissa
  let exponent ← match cs.dropWhile (!Decimal.isExponentMark ·) with
    | [] => some 0
    | _ :: digits => Decimal.readInt? digits
  nearestDouble? coeff (exponent - places)

/-! ### Spellings -/

def nullSpellings : List String := ["", "~", "null", "Null", "NULL"]

def infinity : Float := 1 / 0

/-- The words with a meaning of their own. -/
def wordMeaning? (text : String) : Option Meaning :=
  if nullSpellings.contains text then some .null
  else if ["true", "True", "TRUE"].contains text then some (.bool true)
  else if ["false", "False", "FALSE"].contains text then some (.bool false)
  else if [".nan", ".NaN", ".NAN"].contains text then some (.float (0 / 0))
  else if [".inf", ".Inf", ".INF", "+.inf", "+.Inf", "+.INF"].contains text then
    some (.float infinity)
  else if ["-.inf", "-.Inf", "-.INF"].contains text then some (.float (-infinity))
  else none

/-- What a plain scalar means by its spelling. Underscores may stand between the digits of a number. -/
def plainMeaning (text : String) : Meaning :=
  match wordMeaning? text with
  | some meaning => meaning
  | none =>
    match text.toList with
    | '.' :: _ => ((float? text.toList).map .float).getD .text
    | c :: _ =>
      if c.isDigit || c == '+' || c == '-' then
        let plain := text.toList.filter (· ≠ '_')
        match int? plain, float? plain with
        | some n, _ => .int n
        | none, some x => .float x
        | none, none => .text
      else .text
    | [] => .text

/-- What a scalar means, or nothing if that is not what its tag asks for. -/
def meaning? (tag : Option String) (isPlain : Bool) (text : String) : Option Meaning :=
  match tag with
  | none => some (if isPlain then plainMeaning text else .text)
  | some "!!str" => some .text
  | some tag =>
    match plainMeaning text with
    | .int n =>
      if tag = "!!float" then some (.float (Float.ofInt n))
      else if tag = "!!int" then some (.int n)
      else none
    | meaning => if tag = meaning.tag then some meaning else none

namespace Value

/-- The tag a value has or would have. -/
def kind : Value → String
  | .scalar (some tag) _ _ => tag
  | .scalar none isPlain text => (if isPlain then plainMeaning text else .text).tag
  | .sequence tag _ => tag.getD "!!seq"
  | .mapping tag _ => tag.getD "!!map"

def isNull (v : Value) : Bool := v.kind == "!!null"

/-- Whether a key asks for the entries of other mappings. -/
def isMerge : Value → Bool
  | .scalar none isPlain text => isPlain && text == "<<"
  | .scalar (some tag) _ text => tag == "!!merge" && text == "<<"
  | _ => false

/-- Whether two keys of a mapping count as the same one; collections all do. -/
def sameKey : Value → Value → Bool
  | .scalar _ _ s, .scalar _ _ t => s == t
  | .sequence _ _, .sequence _ _ => true
  | .mapping _ _, .mapping _ _ => true
  | _, _ => false

mutual

/-- How deep collections are nested in a value. -/
def depth : Value → Nat
  | .scalar _ _ _ => 0
  | .sequence _ items => depthAll items + 1
  | .mapping _ entries => depthEntries entries + 1

def depthAll : List Value → Nat
  | [] => 0
  | v :: vs => max (depth v) (depthAll vs)

def depthEntries : List (Value × Value) → Nat
  | [] => 0
  | (key, value) :: entries => max (max (depth key) (depth value)) (depthEntries entries)

end

theorem depth_sequence (tag : Option String) (items : List Value) :
    depth (.sequence tag items) = depthAll items + 1 := rfl

theorem depth_mapping (tag : Option String) (entries : List (Value × Value)) :
    depth (.mapping tag entries) = depthEntries entries + 1 := rfl

theorem depthAll_cons (v : Value) (vs : List Value) :
    depthAll (v :: vs) = max (depth v) (depthAll vs) := rfl

theorem depthEntries_cons (key value : Value) (entries : List (Value × Value)) :
    depthEntries ((key, value) :: entries) =
      max (max (depth key) (depth value)) (depthEntries entries) := rfl

end Value

end TreeScript.Yaml
