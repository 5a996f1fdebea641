import DocAnnotations.Proofs.Entries
import DocAnnotations.Proofs.Factory.Faithful
import DocAnnotations.Proofs.Import.EntryForm
import DocAnnotations.Proofs.Reader.Grouping
import DocAnnotations.Registry

/-! What a registry holds behind attempts to register types, some of which fail. -/
namespace DocAnnotations

open QualifiedName

/-- What every registered type keeps to, whichever of its parts were given. -/
structure Schema.Valid (schema : Schema) : Prop where
  name_ne_empty : schema.name ≠ ""
  name_relative : isAbsolute schema.name = false
  required_known : ∀ parameters ∈ schema.factory.parameters, ∀ p ∈ schema.required, p ∈ parameters
  setters_public : ∀ s ∈ schema.setters,
    s.2.toList.head? ≠ some '_' ∧ ∃ m ∈ schema.factory.methods, m.1 = s.2
  positional_known : ∀ field ∈ schema.positional,
    field ∈ schema.required ∨ field ∈ schema.fields ∨ field ∈ schema.setters.keys

namespace Registration

variable {r : Registration} {factory : Factory} {schema : Schema} {field : String}

theorem isAbsolute_storedName (r : Registration) : isAbsolute r.storedName = false :=
  decide_eq_false (head?_dropLeading _)

theorem unknownParameters_eq_nil_iff {required : List String} :
    unknownParameters factory required = [] ↔
      ∀ parameters ∈ factory.parameters, ∀ p ∈ required, p ∈ parameters := by
  rw [unknownParameters]
  cases factory.parameters <;> simp

theorem setterFault?_eq_none_iff {type : String} {setters : Entries String} :
    setterFault? type factory setters = none ↔
      ∀ s ∈ setters, s.2.toList.head? ≠ some '_' ∧ ∃ m ∈ factory.methods, m.1 = s.2 := by
  rw [setterFault?, List.findSome?_eq_none_iff]
  refine forall₂_congr fun s _ => ?_
  by_cases hhidden : s.2.toList.head? = some '_'
  · simp [hhidden]
  · rw [if_neg hhidden, ite_eq_left_iff]
    simp [hhidden, Factory.hasMethod]

theorem isPositional_iff :
    isPositional schema field = true ↔
      field ∈ schema.required ∨ field ∈ schema.fields ∨ field ∈ schema.setters.keys := by
  simp [isPositional, Entries.hasKey_iff_mem, or_assoc]

/-- The field that is taken by convention is always one of the type's own. -/
theorem mem_of_conventionalPositional {required fields : List String}
    (h : conventionalPositional required fields = some field) :
    field ∈ required ∨ field ∈ fields := by
  unfold conventionalPositional at h
  split at h
  next =>
    cases h
    exact .inl (List.mem_singleton_self field)
  next =>
    split at h
    next hvalue =>
      cases h
      exact .inr (List.contains_iff_mem.mp hvalue)
    next => cases h

/-- The positional field need only be checked where it is asked for. -/
theorem positional_known_iff :
    (∀ field ∈ (r.schemaFor factory).positional, isPositional (r.schemaFor factory) field = true) ↔
      ∀ field ∈ r.positional, isPositional (r.schemaFor factory) field = true := by
  cases hasked : r.positional with
  | some asked => simp [schemaFor, hasked]
  | none =>
    simp only [Option.not_mem_none, false_imp_iff, implies_true, iff_true]
    intro field hfield
    rw [schemaFor, hasked, Option.none_or] at hfield
    exact isPositional_iff.mpr ((mem_of_conventionalPositional hfield).imp_right .inl)

theorem fault?_eq_none_iff :
    r.fault? factory = none ↔
      unknownParameters factory (r.schemaFor factory).required = [] ∧
        setterFault? (r.schemaFor factory).name factory (r.schemaFor factory).setters = none ∧
        ∀ field ∈ r.positional, isPositional (r.schemaFor factory) field = true := by
  rw [fault?]
  split
  next h => simp [h]
  next h =>
    rw [Option.or_eq_none_iff, not_not.mp h]
    cases r.positional <;> simp

/-- A schema is valid exactly when its name is not empty and no check finds a fault. -/
theorem valid_schemaFor_iff :
    (r.schemaFor factory).Valid ↔ r.storedName ≠ "" ∧ r.fault? factory = none := by
  rw [fault?_eq_none_iff, ← positional_known_iff, unknownParameters_eq_nil_iff,
    setterFault?_eq_none_iff]
  constructor
  · intro h
    exact ⟨h.name_ne_empty, h.required_known, h.setters_public,
      fun field hfield => isPositional_iff.mpr (h.positional_known field hfield)⟩
  · rintro ⟨hname, hrequired, hsetters, hpositional⟩
    exact ⟨hname, r.isAbsolute_storedName, hrequired, hsetters,
      fun field hfield => isPositional_iff.mp (hpositional field hfield)⟩

/-- A registration gives a schema exactly when there is a factory and what it asks for is valid. -/
theorem schema_eq_ok_iff :
    r.schema = .ok schema ↔
      ∃ factory, r.maker = .factory factory ∧ schema = r.schemaFor factory ∧ schema.Valid := by
  rw [Registration.schema]
  by_cases hname : r.storedName = ""
  · rw [if_pos hname]
    refine iff_of_false nofun ?_
    rintro ⟨factory, -, rfl, hvalid⟩
    exact hvalid.name_ne_empty hname
  · rw [if_neg hname]
    cases r.maker with
    | notCallable shown => simp
    | factory factory =>
      dsimp only
      split
      next fault hfault =>
        refine iff_of_false nofun ?_
        rintro ⟨_, hmaker, rfl, hvalid⟩
        cases hmaker
        rw [(valid_schemaFor_iff.mp hvalid).2] at hfault
        cases hfault
      next hfault =>
        constructor
        · intro h
          rw [← Except.ok.inj h]
          exact ⟨factory, rfl, rfl, valid_schemaFor_iff.mpr ⟨hname, hfault⟩⟩
        · rintro ⟨_, hmaker, rfl, -⟩
          cases hmaker
          rfl

end Registration

namespace Entries

variable {α : Type}

/-- Behind a run of writes, the keys stand in the order in which they were first written. -/
theorem keys_foldl_insert {entries : Entries α} (names : List String)
    (h : entries.keys = names.eraseDups) (pairs : List (String × α)) :
    Entries.keys (pairs.foldl (fun entries p => entries.insert p.1 p.2) entries) =
      (names ++ pairs.map (·.1)).eraseDups := by
  induction pairs generalizing entries names with
  | nil => rw [List.map_nil, List.append_nil, List.foldl_nil, h]
  | cons p pairs ih =>
    have hkeys : (entries.insert p.1 p.2).keys = (names ++ [p.1]).eraseDups := by
      rw [keys_insert, h]
      by_cases hmem : p.1 ∈ names
      · rw [if_pos (List.mem_eraseDups.mpr hmem), eraseDups_append_of_mem hmem]
      · rw [if_neg (List.mem_eraseDups.not.mpr hmem), eraseDups_append_of_notMem hmem]
    rw [List.foldl_cons, ih _ hkeys, List.map_cons, List.append_assoc, List.singleton_append]

end Entries

namespace Registry

variable {registry next : Registry} {r : Registration} {schema : Schema}

/-- The registry behind an attempt to register a type. -/
def attempt (registry : Registry) (r : Registration) : Registry :=
  match registry.register r with
  | .ok (next, _) => next
  | .error _ => registry

/-- The registry behind attempts to register types, one after another. -/
def attempts (registry : Registry) (requests : List Registration) : Registry :=
  requests.foldl attempt registry

/-- The schemas that the successful ones among the attempts return, in order. -/
def returned (registry : Registry) : List Registration → List Schema
  | [] => []
  | r :: rest =>
    match registry.register r with
    | .ok (next, schema) => schema :: next.returned rest
    | .error _ => registry.returned rest

/-- Every type is valid and stands under its own name. -/
def Valid (registry : Registry) : Prop :=
  ∀ e ∈ registry.schemas, e.1 = e.2.name ∧ e.2.Valid

theorem attempts_cons (requests : List Registration) :
    registry.attempts (r :: requests) = (registry.attempt r).attempts requests := by
  rw [attempts, List.foldl_cons, attempts]

theorem attempts_append (requests later : List Registration) :
    registry.attempts (requests ++ later) = (registry.attempts requests).attempts later :=
  List.foldl_append

theorem register_eq_ok_iff :
    registry.register r = .ok (next, schema) ↔
      r.schema = .ok schema ∧ next = registry.add schema := by
  rw [register]
  cases r.schema with
  | ok other =>
    constructor
    · rintro ⟨⟩
      exact ⟨rfl, rfl⟩
    · rintro ⟨⟨⟩, rfl⟩
      rfl
  | error fault => simp

theorem valid_add (hregistry : registry.Valid) (hschema : schema.Valid) :
    (registry.add schema).Valid := by
  intro e he
  rcases Entries.mem_insert he with rfl | he
  · exact ⟨rfl, hschema⟩
  · exact hregistry e he

theorem valid_register (hregistry : registry.Valid)
    (h : registry.register r = .ok (next, schema)) : next.Valid := by
  obtain ⟨hschema, rfl⟩ := register_eq_ok_iff.mp h
  obtain ⟨factory, -, -, hvalid⟩ := Registration.schema_eq_ok_iff.mp hschema
  exact valid_add hregistry hvalid

theorem valid_addVocabulary (hregistry : registry.Valid)
    (h : registry.addVocabulary = .ok next) : next.Valid := by
  refine foldlM_invariant (fun factory _ known more hknown hmore => ?_) hregistry h
  cases hstored : known.register { name := Vocabulary.qualifiedName factory,
                                   maker := .factory factory, privileged := true } with
  | error e => rw [hstored] at hmore; cases hmore
  | ok stored =>
    rw [hstored] at hmore
    cases hmore
    exact valid_register hknown hstored

theorem valid_attempt (hregistry : registry.Valid) (r : Registration) :
    (registry.attempt r).Valid := by
  rw [attempt]
  split
  next h => exact valid_register hregistry h
  next => exact hregistry

theorem valid_attempts (hregistry : registry.Valid) (requests : List Registration) :
    (registry.attempts requests).Valid := by
  induction requests generalizing registry with
  | nil => exact hregistry
  | cons r rest ih =>
    rw [attempts_cons]
    exact ih (valid_attempt hregistry r)

theorem valid_empty : Valid {} := nofun

/-- Attempts leave behind what the successful ones of them stored. -/
theorem attempts_eq_foldl_add (requests : List Registration) :
    registry.attempts requests = (registry.returned requests).foldl add registry := by
  induction requests generalizing registry with
  | nil => rfl
  | cons r rest ih =>
    rw [attempts_cons, returned, attempt]
    cases h : registry.register r with
    | ok stored =>
      obtain ⟨next, schema⟩ := stored
      obtain ⟨-, rfl⟩ := register_eq_ok_iff.mp h
      exact ih
    | error fault => exact ih

theorem schemas_foldl_add (schemas : List Schema) :
    (schemas.foldl add registry).schemas =
      (schemas.map fun s => (s.name, s)).foldl (fun entries p => entries.insert p.1 p.2)
        registry.schemas := by
  induction schemas generalizing registry with
  | nil => rfl
  | cons schema rest ih => exact ih

/-- A name means the type that was stored under it last. -/
theorem get?_foldl_add (schemas : List Schema) (name : String) :
    (schemas.foldl add {}).get? name =
      (schemas.filter (·.name = dropLeading name)).getLast? := by
  rw [get?, schemas_foldl_add, Entries.get?_foldl_insert, Entries.get?_reverse, List.filter_map,
    List.map_map]
  simp [Entries.get?, Function.comp_def]

theorem names_foldl_add (schemas : List Schema) :
    (schemas.foldl add {}).names = (schemas.map (·.name)).eraseDups := by
  rw [names, schemas_foldl_add, Entries.keys_foldl_insert [] rfl, List.map_map]
  rfl

theorem contains_eq_isSome_get? (name : String) :
    registry.contains name = (registry.get? name).isSome := by
  rw [contains, get?, Bool.eq_iff_iff, Option.isSome_iff_ne_none, ne_eq,
    ← Entries.hasKey_eq_false_iff, Bool.not_eq_false]

/-- Behind any attempts to register types, every type is valid and stands under its own name, a
name means the type that was registered under it last, with or without backslashes in front, and
the names come in the order in which they were first registered. One more attempt stores what it
asks for if that is valid, and is as if it had not been made otherwise. -/
theorem attempts_invariant (requests : List Registration) :
    (attempts {} requests).Valid ∧
      (∀ name, (attempts {} requests).get? name =
        ((returned {} requests).filter (·.name = dropLeading name)).getLast?) ∧
      (∀ name, (attempts {} requests).contains name = true ↔
        ∃ schema ∈ returned {} requests, schema.name = dropLeading name) ∧
      (attempts {} requests).names = ((returned {} requests).map (·.name)).eraseDups ∧
      ∀ r,
        (∃ factory, r.maker = .factory factory ∧ (r.schemaFor factory).Valid ∧
          (attempts {} requests).register r =
            .ok ((attempts {} requests).add (r.schemaFor factory), r.schemaFor factory)) ∨
        (∀ factory, r.maker = .factory factory → ¬ (r.schemaFor factory).Valid) ∧
          (∃ fault, (attempts {} requests).register r =
            .error { cause := .registration fault }) ∧
          ∀ later, attempts {} (requests ++ r :: later) = attempts {} (requests ++ later) := by
  have hget (name : String) : (attempts {} requests).get? name =
      ((returned {} requests).filter (·.name = dropLeading name)).getLast? := by
    rw [attempts_eq_foldl_add, get?_foldl_add]
  refine ⟨valid_attempts valid_empty requests, hget, fun name => ?_, ?_, fun r => ?_⟩
  · rw [contains_eq_isSome_get?, hget, Option.isSome_iff_ne_none, ne_eq, List.getLast?_eq_none_iff]
    simp [List.filter_eq_nil_iff]
  · rw [attempts_eq_foldl_add, names_foldl_add]
  · cases hschema : r.schema with
    | ok schema =>
      obtain ⟨factory, hmaker, rfl, hvalid⟩ := Registration.schema_eq_ok_iff.mp hschema
      exact .inl ⟨factory, hmaker, hvalid, register_eq_ok_iff.mpr ⟨hschema, rfl⟩⟩
    | error fault =>
      have hfails : (attempts {} requests).register r =
          .error { cause := .registration fault } := by
        rw [register, hschema]
      refine .inr ⟨fun factory hmaker hvalid => ?_, ⟨fault, hfails⟩, fun later => ?_⟩
      · rw [Registration.schema_eq_ok_iff.mpr ⟨factory, hmaker, rfl, hvalid⟩] at hschema
        cases hschema
      · have hkept : attempt (attempts {} requests) r = attempts {} requests := by
          rw [attempt, hfails]
        rw [attempts_append, attempts_append, attempts_cons, hkept]

end Registry

end DocAnnotations
