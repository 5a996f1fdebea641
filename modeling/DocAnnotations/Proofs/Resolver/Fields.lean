import DocAnnotations.Proofs.Factory.Assignment
import DocAnnotations.Proofs.Resolver.Log
import DocAnnotations.Proofs.Schema

/-! What the fields of an instance hold: what its constructor made of them, and behind that what the
attributes that were left over are assigned to. -/
namespace DocAnnotations.Resolver

variable {schema : Schema} {arguments attributes : Entries Value} {built : Value}

/-- The content of the attribute that a required parameter takes. -/
def argument? (attributes : Entries Value) (parameter : String) : Option Value :=
  (Schema.matchRequired parameter attributes.keys).bind attributes.get?

/-- Puts the argument for one more parameter to the others. -/
def take (attributes arguments : Entries Value) (parameter : String) :
    Except String (Entries Value) :=
  match argument? attributes parameter with
  | some v => .ok (arguments.insert parameter v)
  | none => .error parameter

theorem argumentsFor_eq_foldlM (schema : Schema) (attributes : Entries Value) :
    argumentsFor schema attributes = schema.required.foldlM (take attributes) [] := rfl

/-- The fields that the attributes left over mean, with what they are assigned, in order. -/
def assigned (schema : Schema) (attributes : Entries Value) : List (String × Value) :=
  (attributes.filter fun e => !(consumed schema attributes).contains e.1).filterMap fun e =>
    (schema.matchField e.1).map (·, e.2)

theorem mem_assigned_iff {p : String × Value} : p ∈ assigned schema attributes ↔
    ∃ name, (name, p.2) ∈ attributes ∧ name ∉ consumed schema attributes ∧
      schema.matchField name = some p.1 := by
  simp only [assigned, List.mem_filterMap, List.mem_filter, Bool.not_eq_true',
    List.contains_eq_mem, decide_eq_false_iff_not, Option.map_eq_some_iff]
  constructor
  · rintro ⟨e, ⟨he, hleft⟩, field, hfield, rfl⟩
    exact ⟨e.1, he, hleft, hfield⟩
  · rintro ⟨name, he, hleft, hfield⟩
    exact ⟨(name, p.2), ⟨he, hleft⟩, p.1, hfield, rfl⟩

/-- Without setters, an attribute is assigned to the field that it means or else left out. -/
theorem applyAttribute_of_no_setters (h : schema.setters = []) (target : Value) (name : String)
    (v : Value) : applyAttribute schema target name v =
      match schema.matchField name with
      | some field => schema.factory.assign field v target
      | none => .ok target := by
  unfold applyAttribute
  cases schema.matchField name with
  | some field => rfl
  | none =>
    have hsetter : schema.matchSetter name = none := by
      simp [Schema.matchSetter, Schema.matchName, Entries.keys, h]
    rw [hsetter]

/-- Without setters, an instance is built and then filled field by field. -/
theorem instantiate_of_no_setters (h : schema.setters = []) :
    instantiate schema arguments attributes = (do
      let built ← schema.factory.build arguments
      (assigned schema attributes).foldlM (fun target p => schema.factory.assign p.1 p.2 target)
        built) := by
  simp only [instantiate, assigned, List.foldlM_filterMap, applyAttribute_of_no_setters h]
  refine bind_congr fun built => ?_
  congr 1
  funext target e
  cases schema.matchField e.1 <;> rfl

theorem mem_fields_of_mem_assigned {p : String × Value} (h : p ∈ assigned schema attributes) :
    p.1 ∈ schema.fields := by
  obtain ⟨name, -, -, hfield⟩ := mem_assigned_iff.mp h
  exact Schema.mem_of_matchName hfield

/-- The outcome for the constructor alone decides which assignments can fail, and how. -/
theorem exists_instantiate (hsetters : schema.setters = []) (hstores : schema.factory.Stores)
    (hb : schema.factory.build arguments = .ok built) :
    ∃ (opens : String → Bool) (fault : String → BuildFault),
      (∀ field content, opens field = false →
        schema.factory.assign field content built = .error (fault field)) ∧
      ∀ attributes, instantiate schema arguments attributes =
        match (assigned schema attributes).find? (!opens ·.1) with
        | none => .ok ((assigned schema attributes).foldl (fun v p => v.write p.1 p.2) built)
        | some p => .error (fault p.1) := by
  obtain ⟨opens, fault, hfill⟩ := hstores.exists_fill hb
  refine ⟨opens, fault, fun field content hclosed => ?_, fun attributes => ?_⟩
  · have hone := hfill [(field, content)]
    simp only [List.foldlM_cons, List.foldlM_nil, bind_pure, List.find?_cons, hclosed] at hone
    exact hone
  · rw [instantiate_of_no_setters hsetters, hb]
    exact hfill (assigned schema attributes)

/-- What an instance is made of is remembered if it stands on a declaration. -/
theorem hydrate_run (resolver : Resolver) (schema : Schema) (scope : Option NameScope)
    (key : Option DeclarationKey) (children attributes : Entries Value) (log : ReadLog) :
    resolver.hydrate schema scope key children attributes log =
      (match hydrateSchema schema ((key.map (·.text)).getD "<unknown>")
          (resolver.used scope children attributes) with
        | .ok v => .ok v
        | .error e => .error (.error e),
       match key with
        | some key => log.record key schema.name (resolver.used scope children attributes)
        | none => log) := by
  cases key with
  | some key => exact resolver.hydrate_apply schema scope key children attributes log
  | none =>
    change (match hydrateSchema schema "<unknown>" (resolver.used scope children attributes) with
      | .ok v => pure v
      | .error e => throw (Abort.error e) : ReadM Value) log = _
    dsimp only [Option.map_none, Option.getD_none]
    cases hydrateSchema schema "<unknown>" _ with
    | ok v => rfl
    | error e => rfl

theorem hydrateNamed_eq_ok_iff {resolver : Resolver} {type : String} {scope : Option NameScope}
    {key : Option DeclarationKey} {children : Entries Value} {raw : String} {log : ReadLog}
    {v : Value} (hs : resolver.registry.get? type = some schema) :
    (resolver.hydrateNamed scope key type children attributes raw log).1 = .ok v ↔
      hydrateSchema schema ((key.map (·.text)).getD "<unknown>")
        (resolver.used scope children attributes) = .ok v := by
  simp only [hydrateNamed, hs, hydrate_run]
  cases hydrateSchema schema _ (resolver.used scope children attributes) with
  | ok w => simp
  | error e => simp

@[simp]
theorem keys_used (resolver : Resolver) (scope : Option NameScope)
    (children attributes : Entries Value) :
    (resolver.used scope children attributes).keys = attributes.keys := by
  unfold used qualifyTypeNames
  cases scope with
  | none => exact Entries.keys_mapContents ..
  | some scope => rw [Entries.keys_mapContents, Entries.keys_mapContents]

end DocAnnotations.Resolver
