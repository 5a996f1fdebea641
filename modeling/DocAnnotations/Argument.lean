import DocAnnotations.Argument.Meaning

/-!
Reading the arguments of an annotation. `attributes` are the arguments with a key and
`positional` is what is written without one.
-/

namespace DocAnnotations.Argument

open Text

/-- The error that says why `raw` has no value. -/
def malformed (raw : String) (fault : ArgumentFault) : ReadError :=
  { cause := .malformedValue raw fault }

/-- The JSON text that an argument text stands for. -/
def normalize (raw : String) : Except ReadError String :=
  match Term.ofText raw.toList with
  | .ok term => .ok (String.ofList term.json)
  | .error fault => .error (malformed raw fault)

/-- The value that an argument text stands for. -/
def evaluate (raw : String) : Except Abort Value :=
  match Term.ofText raw.toList with
  | .error fault => .error (.error (malformed raw fault))
  | .ok term =>
    match term.fault? with
    | none => .ok term.value
    | some .oversized => .error .oversizedInteger
    | some .foreignDigit =>
      .error (.error (malformed raw (.foreignDigit (String.ofList term.json))))

/-- The value of an argument list in parentheses. Other text holds no arguments. -/
def evaluateList (raw : String) : Except Abort (Option Value) :=
  match trim raw.toList with
  | '(' :: cs => (evaluate (String.ofList ('(' :: cs))).map some
  | _ => .ok none

/-- The arguments that are written with a key. There are none if all are written without one. -/
def attributes (raw : String) : Except Abort (Entries Value) :=
  (evaluateList raw).map fun
    | some (.map entries) => entries
    | _ => []

/-- The arguments if all are written without a key: one value, or the list of several. Null stands
for no argument. -/
def positional (raw : String) : Except Abort Value :=
  (evaluateList raw).map fun
    | some (.list [one]) => one
    | some (.list []) => .null
    | some (.list several) => .list several
    | _ => .null

end DocAnnotations.Argument
