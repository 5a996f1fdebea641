import DocAnnotations.Argument.Token

/-!
The structure of an argument text: quoted texts, bare words and groups of elements with or without
a key. Tokens are read from left to right with a stack of the groups that are open.
-/

namespace DocAnnotations.Argument

/-- The structure of an argument text. An element of a group may have a key. -/
inductive Term where
  | text (s : String)
  | word (s : String)
  | group (bracket : Bracket) (elements : List (Option String × Term))
  deriving Inhabited

/-- A group whose closing bracket has not come: its elements in reverse, and the key of the
element that is being read. -/
structure OpenGroup where
  bracket : Bracket
  elements : List (Option String × Term)
  key : Option String

/-- What may come next inside a group. -/
inductive Stage where
  /-- An element, a comma or the closing bracket. -/
  | element
  /-- The equals sign after a key. -/
  | equals
  /-- The value of an element. -/
  | value
  /-- A comma, or the closing bracket. -/
  | separator
  deriving DecidableEq, Repr

/-- Where the reader stands: before the whole value, behind it, or inside a group. -/
inductive State where
  | start
  | finished (term : Term)
  | inside (stage : Stage) (group : OpenGroup) (outer : List OpenGroup)

namespace OpenGroup

/-- A group without elements. -/
def empty (bracket : Bracket) : OpenGroup :=
  ⟨bracket, [], none⟩

/-- Adds an element under the key that waits for it. -/
def add (group : OpenGroup) (term : Term) : OpenGroup :=
  { group with elements := (group.key, term) :: group.elements, key := none }

/-- The group with its elements in the order in which they came. -/
def close (group : OpenGroup) : Term :=
  .group group.bracket group.elements.reverse

end OpenGroup

namespace State

/-- The groups that are open, the innermost first. -/
def openGroups : State → List OpenGroup
  | inside _ group outer => group :: outer
  | _ => []

/-- Hands a complete term to the innermost open group. Without one it is the whole value. -/
def deliver (term : Term) : List OpenGroup → State
  | [] => finished term
  | group :: outer => inside .separator (group.add term) outer

/-- The state after the first token of a value. -/
def beginValue (openGroups : List OpenGroup) : Token → Except Unexpected State
  | .text s => .ok (deliver (.text s) openGroups)
  | .word s => .ok (deliver (.word s) openGroups)
  | .punct c =>
    match Bracket.ofOpener? c with
    | some bracket => .ok (inside .element (.empty bracket) openGroups)
    | none => .error (.punctuation c)

/-- The state after a token where an element may come. A text or word before an equals sign is a
key. -/
def beginElement (group : OpenGroup) (outer : List OpenGroup) (token : Token)
    (next : Option Token) : Except Unexpected State :=
  if token = .punct group.bracket.closer then .ok (deliver group.close outer)
  else if token = .punct ',' then .ok (inside .element group outer)
  else match token with
    | .punct _ => beginValue (group :: outer) token
    | .text s | .word s =>
      if next = some (.punct '=') then
        .ok (inside .equals { group with key := some (Text.strip s) } outer)
      else beginValue (group :: outer) token

/-- The state after one token, where `next` is the token behind it. After an element the next one
needs a comma, unless it spells the closing bracket. -/
def step (token : Token) (next : Option Token) : State → Except Unexpected State
  | start => beginValue [] token
  | finished term => .ok (finished term)
  | inside .element group outer => beginElement group outer token next
  | inside .equals group outer => .ok (inside .value group outer)
  | inside .value group outer => beginValue (group :: outer) token
  | inside .separator group outer =>
    if token = .punct ',' then .ok (inside .element group outer)
    else if token.content = String.singleton group.bracket.closer then
      beginElement group outer token next
    else .error .missingComma

/-- What is wrong when the tokens end here. -/
def atEnd : State → Except Unexpected Term
  | start => .error .endBeforeValue
  | finished term => .ok term
  | inside .element _ _ => .error .endInsideGroup
  | inside .separator _ _ => .error .missingComma
  | inside .equals _ _ | inside .value _ _ => .error .endBeforeValue

/-- Reads the remaining tokens, the first of which has the given position. -/
def read (position : Nat) (state : State) : List Token → Except ArgumentFault Term
  | [] =>
    match state.atEnd with
    | .ok term => .ok term
    | .error what => .error (.unexpected what position)
  | token :: rest =>
    match state with
    | finished _ => .error .leftOver
    | state =>
      match state.step token rest.head? with
      | .ok next => read (position + 1) next rest
      | .error what => .error (.unexpected what position)

end State

namespace Term

/-- The structure of a list of tokens. -/
def ofTokens (tokens : List Token) : Except ArgumentFault Term :=
  match checkBalance [] tokens with
  | some fault => .error fault
  | none => State.start.read 0 tokens

/-- The structure of an argument text. -/
def ofText (cs : List Char) : Except ArgumentFault Term :=
  match Token.lex cs with
  | .ok tokens => ofTokens tokens
  | .error fault => .error fault

end Term

end DocAnnotations.Argument
