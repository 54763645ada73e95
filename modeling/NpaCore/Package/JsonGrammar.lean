import NpaCore.Package.Json

/-!
# The JSON grammar

JSON texts over characters, after RFC 8259, each with the value that it stands for: members in
the order of the source, numbers as their text, strings decoded. The escape of a surrogate
stands for a character only together with the other half of its pair.
-/

namespace NpaCore.Package

/-! ### Blanks and numbers -/

def isBlank (c : Char) : Bool := c = ' ' || c = '\n' || c = '\r' || c = '\t'

def Blank (text : List Char) : Prop := ∀ c ∈ text, isBlank c = true

def Digits (text : List Char) : Prop := text ≠ [] ∧ ∀ c ∈ text, c.isDigit = true

/-- `int = zero / ( digit1-9 *DIGIT )`. -/
def IntegerText (text : List Char) : Prop :=
  text = ['0'] ∨ ∃ first others, text = first :: others ∧ first.isDigit = true ∧ first ≠ '0' ∧
    ∀ c ∈ others, c.isDigit = true

/-- `[ frac ]`. -/
def FractionText (text : List Char) : Prop :=
  text = [] ∨ ∃ digits, text = '.' :: digits ∧ Digits digits

/-- `[ exp ]`. -/
def ExponentText (text : List Char) : Prop :=
  text = [] ∨ ∃ mark sign digits, text = mark :: (sign ++ digits) ∧ (mark = 'e' ∨ mark = 'E') ∧
    (sign = [] ∨ sign = ['+'] ∨ sign = ['-']) ∧ Digits digits

def NumberText (text : List Char) : Prop :=
  ∃ minus integer fraction exponent, text = minus ++ (integer ++ (fraction ++ exponent)) ∧
    (minus = [] ∨ minus = ['-']) ∧ IntegerText integer ∧ FractionText fraction ∧
      ExponentText exponent

/-! ### Strings -/

def hexDigitValue (c : Char) : Option Nat :=
  if '0' ≤ c ∧ c ≤ '9' then some (c.toNat - '0'.toNat)
  else if 'a' ≤ c ∧ c ≤ 'f' then some (c.toNat - 'a'.toNat + 10)
  else if 'A' ≤ c ∧ c ≤ 'F' then some (c.toNat - 'A'.toNat + 10)
  else none

/-- Hexadecimal digits, and the number that they write after the digits before them. -/
inductive HexText : Nat → List Char → Nat → Prop
  | nil {value : Nat} : HexText value [] value
  | cons {value digit result : Nat} {c : Char} {text : List Char} :
    hexDigitValue c = some digit → HexText (value * 16 + digit) text result →
      HexText value (c :: text) result

/-- The number of `4HEXDIG`. -/
def CodeUnit (text : List Char) (unit : Nat) : Prop := text.length = 4 ∧ HexText 0 text unit

/-- The escapes of one letter, and what they stand for. -/
def letterEscapes : List (Char × Char) :=
  [('"', '"'), ('\\', '\\'), ('/', '/'), ('b', Char.ofNat 8), ('f', Char.ofNat 12), ('n', '\n'),
    ('r', '\r'), ('t', '\t')]

/-- One character of a string, and how it may be written. -/
inductive CharText : Char → List Char → Prop
  | unescaped {c : Char} : 0x20 ≤ c.toNat → c ≠ '"' → c ≠ '\\' → CharText c [c]
  | letter {letter c : Char} : (letter, c) ∈ letterEscapes → CharText c ['\\', letter]
  | unit {c : Char} {text : List Char} : CodeUnit text c.toNat → CharText c ('\\' :: 'u' :: text)
  | pair {c : Char} {text text' : List Char} {high low : Nat} :
    CodeUnit text high → 0xd800 ≤ high → high ≤ 0xdbff → CodeUnit text' low → 0xdc00 ≤ low →
      low ≤ 0xdfff → c.toNat = 0x10000 + (high - 0xd800) * 0x400 + (low - 0xdc00) →
        CharText c ('\\' :: 'u' :: (text ++ '\\' :: 'u' :: text'))

inductive CharsText : List Char → List Char → Prop
  | nil : CharsText [] []
  | cons {c : Char} {text : List Char} {chars others : List Char} :
    CharText c text → CharsText chars others → CharsText (c :: chars) (text ++ others)

/-- A string in its quotation marks. -/
def StringText (value : String) (text : List Char) : Prop :=
  ∃ chars, CharsText value.toList chars ∧ text = '"' :: (chars ++ ['"'])

/-! ### Values -/

mutual

inductive ValueText : JsonValue → List Char → Prop
  | null : ValueText .null "null".toList
  | true : ValueText (.bool true) "true".toList
  | false : ValueText (.bool false) "false".toList
  | number {text : List Char} : NumberText text → ValueText (.number (String.ofList text)) text
  | string {value : String} {text : List Char} : StringText value text →
      ValueText (.string value) text
  | emptyArray {blank : List Char} : Blank blank → ValueText (.array []) ('[' :: (blank ++ [']']))
  | array {values : List JsonValue} {text : List Char} : ElementsText values text →
      ValueText (.array values) ('[' :: (text ++ [']']))
  | emptyObject {blank : List Char} : Blank blank →
      ValueText (.object []) ('{' :: (blank ++ ['}']))
  | object {members : List JsonMember} {text : List Char} : MembersText members text →
      ValueText (.object members) ('{' :: (text ++ ['}']))

/-- Elements with the commas between them. -/
inductive ElementsText : List JsonValue → List Char → Prop
  | last {value : JsonValue} {before text after : List Char} :
      Blank before → ValueText value text → Blank after →
        ElementsText [value] (before ++ (text ++ after))
  | next {value : JsonValue} {values : List JsonValue} {before text after others : List Char} :
      Blank before → ValueText value text → Blank after → ElementsText values others →
        ElementsText (value :: values) (before ++ (text ++ (after ++ ',' :: others)))

/-- One member: a key, a colon and a value. -/
inductive MemberText : JsonMember → List Char → Prop
  | mk {key : String} {value : JsonValue} {before name gap gap' text after : List Char} :
      Blank before → StringText key name → Blank gap → Blank gap' → ValueText value text →
        Blank after →
          MemberText (.mk key value) (before ++ (name ++ (gap ++ ':' :: (gap' ++ (text ++ after)))))

/-- Members with the commas between them. -/
inductive MembersText : List JsonMember → List Char → Prop
  | last {member : JsonMember} {text : List Char} : MemberText member text →
      MembersText [member] text
  | next {member : JsonMember} {members : List JsonMember} {text others : List Char} :
      MemberText member text → MembersText members others →
        MembersText (member :: members) (text ++ ',' :: others)

end

/-- `JSON-text = ws value ws`. -/
def JsonText (value : JsonValue) (text : List Char) : Prop :=
  ∃ before body after, text = before ++ (body ++ after) ∧ Blank before ∧ ValueText value body ∧
    Blank after

/-! ### Limits -/

/-- The value at this depth, when it stands under a key with this bound, is within the limits. -/
inductive WithinLimits (limits : JsonResourceLimits) : ValuePlace → JsonValue → Prop
  | null {depth : Nat} {bound : Option Nat} : depth ≤ limits.nestingDepth →
      WithinLimits limits (depth, bound) .null
  | bool {depth : Nat} {bound : Option Nat} {value : Bool} : depth ≤ limits.nestingDepth →
      WithinLimits limits (depth, bound) (.bool value)
  | number {depth : Nat} {bound : Option Nat} {text : String} : depth ≤ limits.nestingDepth →
      text.utf8ByteSize ≤ limits.numberBytes → WithinLimits limits (depth, bound) (.number text)
  | string {depth : Nat} {bound : Option Nat} {text : String} : depth ≤ limits.nestingDepth →
      text.utf8ByteSize ≤ limits.stringBytes → WithinLimits limits (depth, bound) (.string text)
  | array {depth : Nat} {bound : Option Nat} {values : List JsonValue} :
      depth ≤ limits.nestingDepth →
        values.length ≤ min (bound.getD limits.arrayElements) limits.arrayElements →
          (∀ value ∈ values, WithinLimits limits (depth + 1, none) value) →
            WithinLimits limits (depth, bound) (.array values)
  | object {depth : Nat} {bound : Option Nat} {members : List JsonMember} :
      depth ≤ limits.nestingDepth → members.length ≤ limits.objectMembers →
        (∀ key value, .mk key value ∈ members → key.utf8ByteSize ≤ limits.stringBytes) →
          (∀ key value, .mk key value ∈ members →
            WithinLimits limits (depth + 1, arrayMemberBound limits key) value) →
            WithinLimits limits (depth, bound) (.object members)

end NpaCore.Package
