import DocAnnotations.Proofs.Resolver.Fields

/-! What becomes of a required argument: the attribute that is taken for it decides the field, unless
an attribute of another spelling is assigned to the field afterwards. -/
namespace DocAnnotations.Resolver

variable {schema : Schema} {arguments attributes : Entries Value} {parameter : String} {v : Value}

/-- What the attributes left over assign to a field, in order. -/
def overrides (schema : Schema) (attributes : Entries Value) (field : String) : List Value :=
  ((assigned schema attributes).filter (·.1 = field)).map (·.2)

/-- Only attributes that no parameter took, and that mean the field, are assigned to it. -/
theorem mem_overrides_iff {field : String} : v ∈ overrides schema attributes field ↔
    ∃ name, (name, v) ∈ attributes ∧ name ∉ consumed schema attributes ∧
      schema.matchField name = some field := by
  simp only [overrides, List.mem_map, List.mem_filter, decide_eq_true_eq, mem_assigned_iff]
  constructor
  · rintro ⟨p, ⟨⟨name, hmem, hleft, hfield⟩, rfl⟩, rfl⟩
    exact ⟨name, hmem, hleft, hfield⟩
  · rintro ⟨name, hmem, hleft, hfield⟩
    exact ⟨(field, v), ⟨⟨name, hmem, hleft, hfield⟩, rfl⟩, rfl⟩

theorem exists_of_take {next : Entries Value} (h : take attributes arguments parameter = .ok next) :
    ∃ content, argument? attributes parameter = some content ∧
      next = arguments.insert parameter content := by
  unfold take at h
  split at h
  next content hcontent =>
    cases h
    exact ⟨content, hcontent, rfl⟩
  next => cases h

/-- Each parameter has an argument, and those of other names are as before. -/
theorem get?_foldlM_take {parameters : List String} {entries : Entries Value}
    (h : parameters.foldlM (take attributes) entries = .ok arguments) (parameter : String) :
    if parameter ∈ parameters then
      ∃ content, argument? attributes parameter = some content ∧
        arguments.get? parameter = some content
    else arguments.get? parameter = entries.get? parameter := by
  induction parameters generalizing entries with
  | nil =>
    cases h
    rfl
  | cons first rest ih =>
    rw [List.foldlM_cons] at h
    obtain ⟨next, hnext, h⟩ := exists_of_bind_eq_ok h
    obtain ⟨content, hcontent, rfl⟩ := exists_of_take hnext
    have hrest := ih h
    rw [Entries.get?_insert] at hrest
    by_cases hr : parameter ∈ rest
    · rw [if_pos hr] at hrest
      rwa [if_pos (List.mem_cons_of_mem _ hr)]
    rw [if_neg hr] at hrest
    by_cases hf : first = parameter
    · subst hf
      rw [if_pos rfl] at hrest
      rw [if_pos List.mem_cons_self]
      exact ⟨content, hcontent, hrest⟩
    · rw [if_neg hf] at hrest
      rwa [if_neg (by simp [Ne.symm hf, hr])]

/-- A constructor gets, for each required parameter, the content of the attribute that it takes. -/
theorem exists_argument (h : argumentsFor schema attributes = .ok arguments)
    (hp : parameter ∈ schema.required) :
    ∃ picked content, Schema.matchRequired parameter attributes.keys = some picked ∧
      attributes.get? picked = some content ∧ arguments.get? parameter = some content := by
  have htaken := get?_foldlM_take h parameter
  rw [if_pos hp] at htaken
  obtain ⟨content, hcontent, hget⟩ := htaken
  obtain ⟨picked, hpicked, hattribute⟩ := Option.bind_eq_some_iff.mp hcontent
  exact ⟨picked, content, hpicked, hattribute, hget⟩

/-- A field that the constructor filled holds what was assigned to it last, or else what it held. -/
theorem get?_fields_instantiate (hsetters : schema.setters = []) (hstores : schema.factory.Stores)
    (hkeeps : schema.factory.KeepsArguments) {content : Value}
    (ha : arguments.get? parameter = some content)
    (h : instantiate schema arguments attributes = .ok v) :
    v.fields.get? parameter =
      some ((overrides schema attributes parameter).getLast?.getD content) := by
  cases hb : schema.factory.build arguments with
  | error fault => rw [instantiate, hb] at h; cases h
  | ok built =>
    have hbuilt := hkeeps _ _ _ _ hb ha
    obtain ⟨type, fields, rfl⟩ : ∃ type fields, built = .object type fields := by
      cases built with
      | object type fields => exact ⟨type, fields, rfl⟩
      | null | bool | int | float | text | list | map | generic => cases hbuilt
    obtain ⟨opens, fault, -, hfill⟩ := exists_instantiate hsetters hstores hb
    rw [hfill, Value.foldl_write_object] at h
    split at h
    next =>
      cases h
      change Entries.get? (List.foldl _ fields (assigned schema attributes)) parameter = _
      rw [Entries.get?_foldl_insert, Entries.get?_reverse]
      change (overrides schema attributes parameter).getLast?.or (Entries.get? fields parameter) = _
      rw [show Entries.get? fields parameter = some content from hbuilt]
      cases (overrides schema attributes parameter).getLast? <;> rfl
    next => cases h

/-- Among attributes that differ by more than case and underscores, none but the one that is taken
for a parameter means the field of that name. -/
theorem overrides_eq_nil (hd : Schema.Distinct attributes.keys) {picked : String}
    (hp : parameter ∈ schema.required)
    (hpicked : Schema.matchRequired parameter attributes.keys = some picked) :
    overrides schema attributes parameter = [] := by
  rw [List.eq_nil_iff_forall_not_mem]
  intro content hcontent
  obtain ⟨name, hmem, hleft, hfield⟩ := mem_overrides_iff.mp hcontent
  have hname : name ∈ attributes.keys := List.mem_map_of_mem hmem
  have hloose := (Schema.looseName_of_matchName (.inl (hd.ascii name hname)) hfield).2
  obtain ⟨hattribute, hpickedLoose⟩ := hd.matchName_eq_some_iff.mp hpicked
  obtain rfl := hd.eq_of_looseName hname hattribute (hloose.symm.trans hpickedLoose.symm)
  exact hleft (List.mem_filterMap.mpr ⟨parameter, hp, hpicked⟩)

theorem exists_of_hydrateSchema {host : String} (h : hydrateSchema schema host attributes = .ok v) :
    ∃ arguments, argumentsFor schema attributes = .ok arguments ∧
      instantiate schema arguments attributes = .ok v := by
  unfold hydrateSchema at h
  split at h
  next => cases h
  next arguments ha =>
    split at h
    next w hi =>
      cases h
      exact ⟨arguments, ha, hi⟩
    next => cases h

/-- Where a constructor keeps its arguments, the field of a required parameter holds what was
assigned to it last. Without such an attribute it holds the content of the attribute that was taken
for the parameter, and there is none if the names differ by more than case and underscores. -/
theorem get?_fields_hydrateNamed {resolver : Resolver} {type : String}
    (hs : resolver.registry.get? type = some schema) (hsetters : schema.setters = [])
    (hstores : schema.factory.Stores) (hkeeps : schema.factory.KeepsArguments)
    (hp : parameter ∈ schema.required) {scope : Option NameScope} {key : Option DeclarationKey}
    {children : Entries Value} {raw : String} {log : ReadLog}
    (h : (resolver.hydrateNamed scope key type children attributes raw log).1 = .ok v) :
    let used := resolver.used scope children attributes
    ∃ picked content, Schema.matchRequired parameter attributes.keys = some picked ∧
      used.get? picked = some content ∧
      v.fields.get? parameter =
        some ((overrides schema used parameter).getLast?.getD content) ∧
      (Schema.Distinct attributes.keys → v.fields.get? parameter = some content) := by
  intro used
  have hkeys : used.keys = attributes.keys := keys_used ..
  rw [hydrateNamed_eq_ok_iff hs] at h
  obtain ⟨arguments, ha, hi⟩ := exists_of_hydrateSchema h
  obtain ⟨picked, content, hpicked, hcontent, hargument⟩ := exists_argument ha hp
  have hfield := get?_fields_instantiate hsetters hstores hkeeps hargument hi
  refine ⟨picked, content, hkeys ▸ hpicked, hcontent, hfield, fun hd => ?_⟩
  rw [hfield, overrides_eq_nil (hkeys ▸ hd) hp hpicked]
  rfl

/-- Two more spellings of a required parameter: the last one of them decides. -/
theorem get?_fields_hydrateNamed_param :
    let param : Schema :=
      ⟨"Param", Factory.param, ["name"], ["name", "type"], [], some "name", false⟩
    let resolver : Resolver := { registry := ⟨[("Param", param)]⟩ }
    let attributes : Entries Value :=
      [("NAME", .text "_child_0"), ("name", .text "a"), ("na_me", .text "c")]
    let children : Entries Value := [("_child_0", .int 7)]
    ∃ v, (resolver.hydrateNamed none none "Param" children attributes "" {}).1 = .ok v ∧
      ∃ picked content, Schema.matchRequired "name" attributes.keys = some picked ∧
        v.fields.get? "name" = some ((overrides param (resolver.used none children attributes)
          "name").getLast?.getD content) := by
  intro param resolver attributes children
  have hs : resolver.registry.get? "Param" = some param := rfl
  have hstores : param.factory.Stores := Factory.stores_named (show Factory.named "Param" = _ from rfl)
  have hrun : (resolver.hydrateNamed none none "Param" children attributes "" {}).1 =
      .ok (.object "Param" [("name", .text "c"), ("type", .text "")]) := by
    decide
  have hkeeps : param.factory.KeepsArguments := Factory.keepsArguments_record _ _ _
  have hp : "name" ∈ param.required := List.mem_cons_self
  obtain ⟨picked, content, hpicked, -, hfield, -⟩ :=
    get?_fields_hydrateNamed hs rfl hstores hkeeps hp hrun
  exact ⟨_, hrun, picked, content, hpicked, hfield⟩

/-- An attribute of another spelling replaces the one that is matched exactly. -/
theorem hydrateNamed_other_spelling :
    let param : Schema :=
      ⟨"Param", Factory.param, ["name"], ["name", "type"], [], some "name", false⟩
    let resolver : Resolver := { registry := ⟨[("Param", param)]⟩ }
    let attributes : Entries Value := [("NAME", .text "b"), ("name", .text "a")]
    ∃ v, (resolver.hydrateNamed none none "Param" [] attributes "" {}).1 = .ok v ∧
      "name" ∈ param.required ∧ "name" ∈ param.fields ∧ param.setters = [] ∧
      param.factory.KeepsArguments ∧
      Schema.matchRequired "name" attributes.keys = some "name" ∧
      (resolver.used none [] attributes).get? "name" = some (.text "a") ∧
      v.fields.get? "name" = some (.text "b") := by
  intro param resolver attributes
  have hkeeps : param.factory.KeepsArguments := Factory.keepsArguments_record _ _ _
  have hrun : (resolver.hydrateNamed none none "Param" [] attributes "" {}).1 =
      .ok (.object "Param" [("name", .text "b"), ("type", .text "")]) := by
    decide
  exact ⟨_, hrun, List.mem_cons_self, List.mem_cons_self, rfl, hkeeps, by decide, by decide, rfl⟩

end DocAnnotations.Resolver
