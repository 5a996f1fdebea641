import DocAnnotations.Factory.Model
import DocAnnotations.Json
import DocAnnotations.Reader

/-!
Settings of a reader from environment variables. The names of variables are read without regard to
case, and of two variables with one name the later counts. All faults of values are reported, in
the order of the settings.
-/

namespace DocAnnotations

/-- Where sources are found, and how they are read. -/
structure Settings where
  sourcePath : String := "src"
  fileGlob : String := "**/*.php"
  typeNames : List String := []
  throwAll : Bool := false
  throwPrivileged : Bool := true
  deriving DecidableEq, Repr, Inhabited

/-- Why settings cannot be read: a text that is no JSON, or values that do not fit. -/
inductive SettingsFault where
  | unreadable
  | invalid (errors : List FieldError)
  deriving DecidableEq, Repr

namespace Settings

/-- The names of all variables that count start with this. -/
def variableStart : String := "docblock_"

/-- The content of the variable of a setting. -/
def content? (env : List (String × String)) (setting : String) : Option String :=
  (env.reverse.find? fun e => Text.lower e.1 = variableStart ++ setting).map (·.2)

/-- A setting that is a flag. -/
def readFlag (env : List (String × String)) (setting : String) (absent : Bool) :
    Except (List FieldError) Bool :=
  match content? env setting with
  | none => .ok absent
  | some word =>
    match Factory.Shape.flagOfWord? word with
    | some b => .ok b
    | none => .error [⟨[.field setting], .noFlagText⟩]

/-- The texts of a list, which may hold nothing else. -/
def textsOf (setting : String) (v : Value) : Except (List FieldError) (List String) :=
  match Factory.Shape.textListFaults [.field setting] v, v with
  | [], .list items => .ok (items.filterMap Value.text?)
  | errors, _ => .error errors

/-- A setting that is a list of texts in JSON. Null counts as not given. -/
def readTexts (env : List (String × String)) (setting : String) :
    Except SettingsFault (Except (List FieldError) (List String)) :=
  match content? env setting with
  | none => .ok (.ok [])
  | some written =>
    match Json.read? written with
    | none => .error .unreadable
    | some .null => .ok (.ok [])
    | some v => .ok (textsOf setting v)

/-- The faults of a value that was read. -/
def faults {α : Type} : Except (List FieldError) α → List FieldError
  | .ok _ => []
  | .error errors => errors

/-- The settings that variables give. -/
def ofVariables (env : List (String × String)) : Except SettingsFault Settings := do
  let defaults : Settings := {}
  let names ← readTexts env "type_name_attributes"
  let all := readFlag env "throw_exceptions" defaults.throwAll
  let privileged := readFlag env "throw_privileged_exceptions" defaults.throwPrivileged
  match names, all, privileged with
  | .ok typeNames, .ok throwAll, .ok throwPrivileged =>
    return {
      sourcePath :=
        Files.Path.normalize ((content? env "source_path").getD defaults.sourcePath)
      fileGlob := (content? env "file_glob").getD defaults.fileGlob
      typeNames, throwAll, throwPrivileged }
  | _, _, _ => .error (.invalid (faults names ++ faults all ++ faults privileged))

/-- A reader of the classes in an index, with these settings. -/
def reader (settings : Settings) (index : SourceIndex) (registry : Registry) : Reader :=
  { index
    resolver := { registry, typeNames := settings.typeNames }
    throwAll := settings.throwAll
    throwPrivileged := settings.throwPrivileged }

/-- A reader of the classes in the files of a source folder, with these settings. -/
def readerOfFiles (settings : Settings) (sources : Files.Tree) (registry : Registry) :
    Except Files.GlobFault Reader := do
  let (_, index) ← SourceIndex.addFiles {} sources settings.fileGlob
  return settings.reader index registry

end Settings

end DocAnnotations
