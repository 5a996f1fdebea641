import DocAnnotations.Factory.Record
import DocAnnotations.Vocabulary

/-!
Annotation types by name: the vocabulary, and types of every kind that a registry can hold.
-/

namespace DocAnnotations.Factory

/-- What a registration offers: a factory, or something that cannot make instances. -/
inductive Maker where
  | factory (f : Factory)
  | notCallable (shown : String)

def outer : Factory :=
  model "Outer" [⟨"inner", .anything, some .null⟩, ⟨"label", .text, some (.text "")⟩,
    ⟨"items", .list, some (.list [])⟩]

def inner : Factory :=
  model "Inner" [⟨"x", .integer, some (.int 0)⟩]

def strict : Factory :=
  model "Strict" [⟨"code", .text, none⟩, ⟨"label", .text, some (.text "")⟩]

def param : Factory :=
  record "Param" [{ name := "name" }, { name := "type", default? := some (.text "") }]

def cache : Factory :=
  record "Cache" [{ name := "region" }, { name := "lifetime", default? := some (.int 0) },
    { name := "tags", default? := some (.list []) }] ["hits"]

def pair : Factory :=
  record "Pair" [{ name := "first" }, { name := "second_value" },
    { name := "value", default? := some .null }]

/-- A type without parameters whose instances begin with the given contents. -/
def plain (typeName : String) (contents : Entries Value) (methods : List (String × Method)) :
    Factory :=
  { record typeName [] with
    methods
    build := fun arguments =>
      if arguments.isEmpty then .ok (.object typeName contents) else .error .wrongArguments }

/-- Its level can only be a whole number or a truth value. -/
def fragile : Factory :=
  plain "Fragile" [("level", .int 0)] [("set_level", fun content target =>
    match content with
    | .int _ | .bool _ => writeField "level" content target
    | _ => .error .badContent)]

/-- A path with methods, where no methods are an empty list. -/
def route : Factory :=
  let base :=
    record "Route" [{ name := "path" }, { name := "methods", default? := some .null }] ["name"]
  { base with
    build := fun arguments =>
      (base.build arguments).map fun
        | .object type fields =>
          .object type (fields.map fun f =>
            if f.1 = "methods" ∧ f.2.isFalsy then (f.1, .list []) else f)
        | other => other }

def hiddenSetter : Factory :=
  plain "HiddenSetter" [] [("_set_secret", writeField "secret")]

/-- Adds an entry to the log of an instance. -/
def addToLog (tag : String) : Method := fun content target =>
  match target.fields.get? "log" with
  | some (.list entries) =>
    writeField "log" (.list (entries ++ [.list [.text tag, content]])) target
  | _ => .error .noSuchMember

def mixed : Factory :=
  plain "Mixed" [("log", .list [])]
    [("set_alpha", addToLog "alpha"), ("set_zeta_name", addToLog "zeta")]

/-- Takes any arguments, and keeps those that it does not name under `extra`. -/
def loose : Factory :=
  { typeName := "Loose"
    required := ["a"]
    fields := ["a", "b"]
    parameters := none
    methods := []
    build := fun arguments =>
      match arguments.get? "a" with
      | none => .error .wrongArguments
      | some a =>
        let extra := arguments.filter fun e => e.1 ≠ "a" ∧ e.1 ≠ "b"
        .ok (.object "Loose" [("a", a), ("b", (arguments.get? "b").getD (.int 1)),
          ("extra", .map extra)])
    assign := writeField }

/-- A function that makes a list of its items. -/
def listing : Factory :=
  let base := record "listing" [{ name := "items" }, { name := "limit", default? := some .null }]
  { base with
    build := fun arguments =>
      match base.build arguments, arguments.get? "items" with
      | .ok _, some (.list items) => .ok (.list items)
      | .ok _, some item => .ok (.list [item])
      | .ok _, none => .error .wrongArguments
      | .error fault, _ => .error fault }

/-- Makes a map of any arguments. -/
def mapping : Factory :=
  { typeName := "dict"
    required := []
    fields := []
    parameters := none
    methods := []
    build := fun arguments => .ok (.map arguments)
    assign := writeField }

/-- The factories by the name that a registration gives. -/
def catalogue : List (String × Factory) :=
  (Vocabulary.types ++ [outer, inner, strict, param, cache, pair, fragile, route, hiddenSetter,
    mixed, loose, listing, mapping]).map fun f => (f.typeName, f)

/-- What a name in a registration offers. -/
def named (name : String) : Maker :=
  match catalogue.find? (·.1 = name) with
  | some entry => .factory entry.2
  | none => .notCallable (Text.quoted "not callable")

end DocAnnotations.Factory
