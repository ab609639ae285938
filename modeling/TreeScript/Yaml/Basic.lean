/-!
YAML documents: the values they hold, the tokens they are written with, and what can be wrong with them.
A scalar keeps its text; what a plain one means depends on who asks.
-/

set_option autoImplicit false

namespace TreeScript.Yaml

inductive Value where
  /-- A plain scalar is one without quotes. -/
  | scalar (tag : Option String) (isPlain : Bool) (text : String)
  | sequence (tag : Option String) (items : List Value)
  | mapping (tag : Option String) (entries : List (Value × Value))
deriving Inhabited

mutual

/-- Values are compared by their parts. -/
def Value.decEq : (v w : Value) → Decidable (v = w)
  | .scalar tag isPlain text, .scalar tag' isPlain' text' =>
    decidable_of_decidable_of_iff (p := tag = tag' ∧ isPlain = isPlain' ∧ text = text')
      (by rw [Value.scalar.injEq])
  | .sequence tag items, .sequence tag' items' =>
    have := Value.decEqItems items items'
    decidable_of_decidable_of_iff (p := tag = tag' ∧ items = items') (by rw [Value.sequence.injEq])
  | .mapping tag entries, .mapping tag' entries' =>
    have := Value.decEqEntries entries entries'
    decidable_of_decidable_of_iff (p := tag = tag' ∧ entries = entries')
      (by rw [Value.mapping.injEq])
  | .scalar .., .sequence .. | .scalar .., .mapping .. | .sequence .., .scalar ..
  | .sequence .., .mapping .. | .mapping .., .scalar .. | .mapping .., .sequence .. => .isFalse nofun

def Value.decEqItems : (items items' : List Value) → Decidable (items = items')
  | [], [] => .isTrue rfl
  | item :: items, item' :: items' =>
    have := Value.decEq item item'
    have := Value.decEqItems items items'
    decidable_of_decidable_of_iff (p := item = item' ∧ items = items') (by rw [List.cons.injEq])
  | [], _ :: _ | _ :: _, [] => .isFalse nofun

def Value.decEqEntries : (entries entries' : List (Value × Value)) → Decidable (entries = entries')
  | [], [] => .isTrue rfl
  | (key, value) :: entries, (key', value') :: entries' =>
    have := Value.decEq key key'
    have := Value.decEq value value'
    have := Value.decEqEntries entries entries'
    decidable_of_decidable_of_iff (p := (key = key' ∧ value = value') ∧ entries = entries')
      (by rw [List.cons.injEq, Prod.mk.injEq])
  | [], _ :: _ | _ :: _, [] => .isFalse nofun

end

instance : DecidableEq Value := Value.decEq

/-- The empty text that stands where a value is left out. -/
def Value.missing : Value := .scalar none true ""

inductive Token where
  | documentStart
  | blockSequenceStart
  | blockMappingStart
  | blockEnd
  | blockEntry
  | flowSequenceStart
  | flowSequenceEnd
  | flowMappingStart
  | flowMappingEnd
  | flowEntry
  | key
  | value
  | aliasTo (name : String)
  | anchor (name : String)
  | tag (name : String)
  | scalar (isPlain : Bool) (text : String)
deriving DecidableEq, Repr

/-- Why a text is not a document. -/
inductive SyntaxError where
  | controlCharacter
  | keyWithoutColon
  | misplacedEntry
  | misplacedKey
  | misplacedValue
  | badStart
  | tabInIndentation
  | unexpectedMarker
  | unexpectedEnd
  | badEscape
  | badBlockHeader
  | badAnchor
  | badTag
  | badDirective
  | expectedDocumentStart
  | expectedContent
  | expectedEntry
  | expectedKey
  | expectedSeparator
  | unknownAnchor (name : String)
deriving DecidableEq, Repr

def SyntaxError.message : SyntaxError → String
  | controlCharacter => "control characters are not allowed"
  | keyWithoutColon => "could not find expected ':'"
  | misplacedEntry => "block sequence entries are not allowed in this context"
  | misplacedKey => "mapping keys are not allowed in this context"
  | misplacedValue => "mapping values are not allowed in this context"
  | badStart => "found character that cannot start any token"
  | tabInIndentation => "found a tab character that violates indentation"
  | unexpectedMarker => "found unexpected document indicator"
  | unexpectedEnd => "found unexpected end of stream"
  | badEscape => "found unknown escape character"
  | badBlockHeader => "did not find expected comment or line break"
  | badAnchor => "did not find expected alphabetic or numeric character"
  | badTag => "did not find expected tag URI"
  | badDirective => "found unknown directive name"
  | expectedDocumentStart => "did not find expected <document start>"
  | expectedContent => "did not find expected node content"
  | expectedEntry => "did not find expected '-' indicator"
  | expectedKey => "did not find expected key"
  | expectedSeparator => "did not find expected ',' or closing bracket"
  | unknownAnchor name => "unknown anchor '" ++ name ++ "' referenced"

/-! ### Characters -/

def isBlank (c : Char) : Bool := c == ' ' || c == '\t'

def isBreak (c : Char) : Bool :=
  c == '\n' || c == '\r' || c == '\x85' || c == '\u2028' || c == '\u2029'

def isGap (c : Char) : Bool := isBlank c || isBreak c

/-- Whether a word ends before this character, which may be the end of the text. -/
def endsWord (c : Option Char) : Bool := c.all isGap

/-- The characters a document may hold. -/
def isAllowed (c : Char) : Bool :=
  let n := c.toNat
  n == 9 || n == 10 || n == 13 || (0x20 ≤ n && n ≤ 0x7E) || n == 0x85 ||
    (0xA0 ≤ n && n ≤ 0xD7FF) || (0xE000 ≤ n && n ≤ 0xFFFD) || 0x10000 ≤ n

/-- The characters of anchors and tag handles. -/
def isNameChar (c : Char) : Bool := c.isAlphanum || c == '_' || c == '-'

end TreeScript.Yaml
