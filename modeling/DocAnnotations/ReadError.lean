import DocAnnotations.Text.Quoted
import DocAnnotations.Value

/-!
What can go wrong when annotations are read. Each error says its cause; its message and its
context are functions of the cause.
-/

namespace DocAnnotations

/-- What stands at a place where the value of an argument cannot go on. -/
inductive Unexpected where
  | endBeforeValue
  | endInsideGroup
  | punctuation (c : Char)
  | missingComma
  deriving DecidableEq, Repr

/-- Why the text of annotation arguments has no value. Positions count tokens. -/
inductive ArgumentFault where
  | unclosedText
  | tooDeep
  | mismatchedBracket
  | unclosedBracket
  | unexpected (what : Unexpected) (position : Nat)
  | leftOver
  | foreignDigit (normalized : String)
  deriving DecidableEq, Repr

/-- A step towards a part of a constructor argument. -/
inductive PathStep where
  | field (name : String)
  | index (n : Nat)
  deriving DecidableEq, Repr

/-- Why a constructor argument is not valid. -/
inductive FieldFault where
  | missing
  | notText
  | notList
  | notMap
  | notInteger
  | noIntegerText
  | fractional
  | notFinite
  | integerSize
  | notFlag
  | noFlagText
  deriving DecidableEq, Repr

/-- A fault at a place among the constructor arguments. -/
structure FieldError where
  path : List PathStep
  fault : FieldFault
  deriving DecidableEq, Repr

/-- Why an instance of an annotation type cannot be built. -/
inductive BuildFault where
  | invalid (errors : List FieldError)
  | wrongArguments
  | noSuchMember
  | badContent
  deriving DecidableEq, Repr

/-- Why an annotation type cannot be registered. -/
inductive RegistrationFault where
  | emptyName
  | notCallable (type shown : String)
  | unknownRequired (type : String) (parameters : List String)
  | hiddenSetter (type field setter : String)
  | missingSetter (type field setter : String)
  | unknownPositional (type field : String)
  deriving DecidableEq, Repr

/-- What an error is about. -/
inductive ErrorCause where
  | classNotFound (className : String)
  | memberNotFound (key : DeclarationKey)
  | malformedValue (raw : String) (fault : ArgumentFault)
  | missingRequired (parameter type host : String)
  | unbalancedGroup (line : Nat) (file : Option String)
  | hydration (type host : String) (fault : BuildFault)
  | registration (fault : RegistrationFault)
  deriving DecidableEq, Repr

/-- An error of the annotation reader. It is privileged when a type of the mapping vocabulary
is to blame. -/
structure ReadError where
  cause : ErrorCause
  privileged : Bool := false
  deriving DecidableEq, Repr

/-- Why reading stops: an error of the reader, which may be put up with, or a limit that nothing
puts up with. -/
inductive Abort where
  | error (e : ReadError)
  | oversizedInteger
  | unfinishedStatement
  deriving DecidableEq, Repr

namespace Unexpected

def message : Unexpected → String
  | endBeforeValue => "값이 필요한 위치에서 입력이 끝났습니다"
  | endInsideGroup => "닫는 괄호 없이 입력이 끝났습니다"
  | punctuation c => "예상하지 못한 구두점 " ++ Text.quoted (String.singleton c)
  | missingComma => "요소 사이에 쉼표가 필요합니다"

end Unexpected

namespace ArgumentFault

/-- The message about the argument text `raw`. -/
def message (raw : String) : ArgumentFault → String
  | unclosedText => "닫히지 않은 문자열이 있습니다: " ++ Text.quoted raw
  | tooDeep => "어노테이션 값의 중첩이 너무 깊습니다: " ++ Text.quoted raw
  | mismatchedBracket => "괄호 짝이 맞지 않습니다: " ++ Text.quoted raw
  | unclosedBracket => "닫히지 않은 괄호가 있습니다: " ++ Text.quoted raw
  | unexpected what _ =>
    "어노테이션 값을 정규화할 수 없습니다 (" ++ what.message ++ "): " ++ Text.quoted raw
  | leftOver => "어노테이션 값 끝에 해석할 수 없는 내용이 있습니다: " ++ Text.quoted raw
  | foreignDigit _ =>
    "어노테이션 값을 파싱할 수 없습니다: " ++ Text.quoted raw ++ " (Expecting ',' delimiter)"

def context (raw : String) : ArgumentFault → Entries Value
  | unexpected _ position => [("position", .int position), ("value", .text raw)]
  | foreignDigit normalized => [("normalized", .text normalized), ("value", .text raw)]
  | _ => [("value", .text raw)]

end ArgumentFault

namespace FieldFault

/-- The short name of the fault. -/
def code : FieldFault → String
  | missing => "missing"
  | notText => "string_type"
  | notList => "list_type"
  | notMap => "dict_type"
  | notInteger => "int_type"
  | noIntegerText => "int_parsing"
  | fractional => "int_from_float"
  | notFinite => "finite_number"
  | integerSize => "int_parsing_size"
  | notFlag => "bool_type"
  | noFlagText => "bool_parsing"

end FieldFault

namespace RegistrationFault

def message : RegistrationFault → String
  | emptyName => "어노테이션 타입 이름이 비어 있습니다"
  | notCallable type shown => s!"{type}: 팩토리가 호출 가능한 객체가 아닙니다 ({shown})"
  | unknownRequired type parameters =>
    s!"{type}: 생성자에 없는 필수 인자가 지정되었습니다: " ++ ", ".intercalate parameters
  | hiddenSetter type _ setter => s!"{type}: 세터 {setter}은(는) 공개 메서드가 아닙니다"
  | missingSetter type _ setter => s!"{type}: 세터 메서드 {setter}이(가) 존재하지 않습니다"
  | unknownPositional type field => s!"{type}: 위치 값 필드 {field}이(가) 스키마에 없습니다"

def context : RegistrationFault → Entries Value
  | emptyName => []
  | notCallable type _ => [("annotation_type", .text type)]
  | unknownRequired type parameters =>
    [("annotation_type", .text type), ("parameters", .list (parameters.map .text))]
  | hiddenSetter type field setter | missingSetter type field setter =>
    [("annotation_type", .text type), ("field", .text field), ("setter", .text setter)]
  | unknownPositional type field =>
    [("annotation_type", .text type), ("positional", .text field)]

end RegistrationFault

namespace ErrorCause

/-- The text or null. -/
private def optionalText : Option String → Value
  | some s => .text s
  | none => .null

/-- The message that is shown to the reader's user. -/
def message : ErrorCause → String
  | classNotFound className => s!"클래스 {className}을(를) 찾을 수 없습니다"
  | memberNotFound key => key.text ++ "을(를) 찾을 수 없습니다"
  | malformedValue raw fault => fault.message raw
  | missingRequired parameter type host =>
    s!"어노테이션 {type}({host}에 선언됨)의 인스턴스를 만들 수 없습니다: "
      ++ s!"필수 생성자 인자 {parameter}이(가) 없거나 어노테이션 형식이 잘못되었습니다."
  | unbalancedGroup line file =>
    let shown := match file with
      | none | some "" => "<source>"
      | some path => path
    s!"예상하지 못한 닫는 중괄호 \x7d: {line}번째 줄 ({shown})"
  | hydration type host _ => s!"어노테이션 {type}({host}에 선언됨)을 생성할 수 없습니다: "
  | registration fault => fault.message

/-- What the error is about, by name in alphabetical order. -/
def context : ErrorCause → Entries Value
  | classNotFound className => [("class_name", .text className)]
  | memberNotFound key =>
    [("class_name", .text key.className), ("kind", .text key.kind.name),
     ("member", optionalText key.member)]
  | malformedValue raw fault => fault.context raw
  | missingRequired parameter type host =>
    [("annotation_type", .text type), ("host", .text host), ("parameter", .text parameter)]
  | unbalancedGroup line file => [("file", optionalText file), ("line", .int line)]
  | hydration type host _ => [("annotation_type", .text type), ("host", .text host)]
  | registration fault => fault.context

/-- Whether the cause is a declaration that is not there. Such errors are never put up with. -/
def isNotFound : ErrorCause → Bool
  | classNotFound _ | memberNotFound _ => true
  | _ => false

end ErrorCause

end DocAnnotations
