import DocAnnotations.Factory
import DocAnnotations.Text.Lower
import DocAnnotations.Text.Digit

/-!
Types whose constructor checks its arguments. All faults are reported, in the order of the fields.
Later assignments are not checked, but only declared fields can be assigned. A constant of the class
is no member of its instances.
-/

namespace DocAnnotations.Factory

open Text

/-- What a constructor argument may be. -/
inductive Shape where
  | anything
  | text
  | textOrNull
  | flag
  | flagOrNull
  | integer
  | integerOrNull
  | list
  | textsOrTextMap
  deriving DecidableEq, Repr

/-- A field of a model. Without a default its argument is required. -/
structure ModelField where
  name : String
  shape : Shape
  default? : Option Value := none

namespace Shape

def falseWords : List String := ["0", "off", "f", "false", "n", "no"]

def trueWords : List String := ["1", "on", "t", "true", "y", "yes"]

/-- The truth value that a word spells in any case. -/
def flagOfWord? (word : String) : Option Bool :=
  let small := lower word
  if trueWords.contains small then some true
  else if falseWords.contains small then some false
  else none

/-- The truth value that a number stands for. -/
def flagOfInt (n : Int) : Except FieldFault Bool :=
  if n = 0 then .ok false
  else if n = 1 then .ok true
  else .error .noFlagText

/-- Whole numbers below this bound, and from its opposite on, fit into 64 bits with a sign. -/
def smallBound : Int := 0x8000000000000000

def isSmall (n : Int) : Bool :=
  -smallBound ≤ n && n < smallBound

/-- Drops a fraction of zeros. -/
def dropZeroFraction (cs : List Char) : List Char :=
  match cs.span (· ≠ '.') with
  | (whole, '.' :: zeros) => if zeros.all (· = '0') then whole else cs
  | _ => cs

/-- The digits of a number, where single underscores may stand between them. -/
def joinDigits? : List Char → Option (List Char)
  | [] => none
  | [c] => if c.isDigit then some [c] else none
  | c :: '_' :: cs => if c.isDigit then (joinDigits? cs).map (c :: ·) else none
  | c :: cs => if c.isDigit then (joinDigits? cs).map (c :: ·) else none

/-- The whole number that a text spells. -/
def intOfText? (s : String) : Option Int :=
  match dropZeroFraction (trim s.toList) with
  | '-' :: cs => (joinDigits? cs).map fun ds => -(decimalValue ds : Int)
  | '+' :: cs => (joinDigits? cs).map fun ds => (decimalValue ds : Int)
  | cs => (joinDigits? cs).map fun ds => (decimalValue ds : Int)

/-- The longest text that is read as a number. -/
def maxNumberText : Nat := 4300

def checkInteger : Value → Except FieldFault Value
  | .int n => .ok (.int n)
  | .bool b => .ok (.int (if b then 1 else 0))
  | .text s =>
    if maxNumberText < s.length then .error .integerSize
    else match intOfText? s with
      | some n => .ok (.int n)
      | none => .error .noIntegerText
  | .float x =>
    if !x.isFinite then .error .notFinite
    else match x.toInt? with
      | none => .error .fractional
      | some n =>
        if -smallBound < n ∧ n < smallBound then .ok (.int n) else .error .integerSize
  | _ => .error .notInteger

def checkFlag : Value → Except FieldFault Value
  | .bool b => .ok (.bool b)
  | .text s =>
    match flagOfWord? s with
    | some b => .ok (.bool b)
    | none => .error .noFlagText
  | .int n => if isSmall n then (flagOfInt n).map .bool else .error .notFlag
  | .float x =>
    match x.toInt? with
    | some n => if isSmall n then (flagOfInt n).map .bool else .error .notFlag
    | none => .error .notFlag
  | _ => .error .notFlag

def isText (v : Value) : Bool :=
  v.text?.isSome

/-- The faults of a list of texts. -/
def textListFaults (path : List PathStep) : Value → List FieldError
  | .list items =>
    items.zipIdx.filterMap fun p =>
      if isText p.1 then none else some ⟨path ++ [.index p.2], .notText⟩
  | _ => [⟨path, .notList⟩]

/-- The faults of a map of texts. -/
def textMapFaults (path : List PathStep) : Value → List FieldError
  | .map entries =>
    entries.filterMap fun e =>
      if isText e.2 then none else some ⟨path ++ [.field e.1], .notText⟩
  | _ => [⟨path, .notMap⟩]

/-- A list of texts or a map of texts. The faults as a list come first. -/
def checkTexts (name : String) (v : Value) : Except (List FieldError) Value :=
  let asList := textListFaults [.field name, .field "list[str]"] v
  let asMap := textMapFaults [.field name, .field "dict[str,str]"] v
  if asList = [] ∨ asMap = [] then .ok v else .error (asList ++ asMap)

/-- One fault at a field. -/
def atField {α : Type} (name : String) : Except FieldFault α → Except (List FieldError) α
  | .ok a => .ok a
  | .error fault => .error [⟨[.field name], fault⟩]

/-- Checks the argument for a field, and turns it into the field's content. -/
def check (shape : Shape) (name : String) (v : Value) : Except (List FieldError) Value :=
  match shape, v with
  | anything, v => .ok v
  | textOrNull, .null => .ok .null
  | flagOrNull, .null => .ok .null
  | integerOrNull, .null => .ok .null
  | text, v | textOrNull, v => atField name (if isText v then .ok v else .error .notText)
  | flag, v | flagOrNull, v => atField name (checkFlag v)
  | integer, v | integerOrNull, v => atField name (checkInteger v)
  | list, .list items => .ok (.list items)
  | list, _ => atField name (.error .notList)
  | textsOrTextMap, v => checkTexts name v

end Shape

/-- The content of a field from the arguments, or its default, or its faults. -/
def ModelField.content (field : ModelField) (arguments : Entries Value) :
    Except (List FieldError) Value :=
  match arguments.get? field.name, field.default? with
  | some v, _ => field.shape.check field.name v
  | none, some v => .ok v
  | none, none => .error [⟨[.field field.name], .missing⟩]

/-- The contents of the fields, or the faults of all of them. -/
def modelContents (arguments : Entries Value) :
    List ModelField → Except (List FieldError) (Entries Value)
  | [] => .ok []
  | field :: rest =>
    match field.content arguments, modelContents arguments rest with
    | .ok v, .ok contents => .ok ((field.name, v) :: contents)
    | .ok _, .error errors => .error errors
    | .error errors, .ok _ => .error errors
    | .error errors, .error more => .error (errors ++ more)

/-- A type with checked arguments. Hidden fields are shown in instances, but are no arguments. -/
def model (typeName : String) (fields : List ModelField) (hidden : Entries Value := [])
    (methods : List (String × Method) := []) (constants : List String := []) : Factory :=
  { typeName
    required := (fields.filter (·.default?.isNone)).map (·.name)
    fields := fields.map (·.name)
    parameters := some (fields.map (·.name))
    methods
    build := fun arguments =>
      match modelContents arguments fields with
      | .ok contents => .ok (.object typeName (contents ++ hidden))
      | .error errors => .error (.invalid errors)
    assign := fun field content target =>
      if (fields.map (·.name) ++ hidden.keys).contains field then writeField field content target
      else if constants.contains field then .error .noSuchMember
      else .error .badContent }

end DocAnnotations.Factory
