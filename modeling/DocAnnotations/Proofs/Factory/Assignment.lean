import DocAnnotations.Factory.Catalogue
import DocAnnotations.Proofs.Entries

/-! What assignments make of the fields of an instance, for every kind of annotation type. -/
namespace DocAnnotations

/-- The value with a field written. Only instances have fields. -/
def Value.write (target : Value) (field : String) (content : Value) : Value :=
  match target with
  | .object type fields => .object type (Entries.insert fields field content)
  | other => other

/-- An instance, the only kind of value that has fields. -/
def Value.IsObject (v : Value) : Prop :=
  ∃ type fields, v = .object type fields

theorem Value.IsObject.write {v : Value} (h : v.IsObject) (field : String) (content : Value) :
    (v.write field content).IsObject := by
  obtain ⟨type, fields, rfl⟩ := h
  exact ⟨type, _, rfl⟩

theorem Value.foldl_write_object (pairs : List (String × Value)) (type : String)
    (fields : Entries Value) :
    pairs.foldl (fun v p => Value.write v p.1 p.2) (.object type fields) =
      .object type (pairs.foldl (fun (entries : Entries Value) p => entries.insert p.1 p.2) fields)
    := by
  induction pairs generalizing fields with
  | nil => rfl
  | cons p pairs ih => exact ih _

/-- Writes leave a value without fields as it is. -/
theorem Value.foldl_write_of_ne {v : Value} (h : ∀ type fields, v ≠ .object type fields)
    (pairs : List (String × Value)) : pairs.foldl (fun v p => v.write p.1 p.2) v = v := by
  have hwrite (field : String) (content : Value) : v.write field content = v := by
    cases v with
    | object type fields => exact absurd rfl (h type fields)
    | null | bool | int | float | text | list | map | generic => rfl
  induction pairs with
  | nil => rfl
  | cons p pairs ih => rw [List.foldl_cons, hwrite, ih]

namespace Factory

variable {factory : Factory} {arguments contents : Entries Value} {built v content : Value}
  {field : String}

/-- Assigning a field writes it and nothing else, unless the field is not open to assignments: then
it fails in a way that depends on the field only. -/
inductive Stores (factory : Factory) : Prop
  /-- Every field of an instance is open. -/
  | any (hassign : factory.assign = writeField)
  /-- The declared fields are open, and there are instances only. -/
  | declared (names : List String) (fault : String → BuildFault)
      (hassign : ∀ field content target, factory.assign field content target =
        if names.contains field then writeField field content target else .error (fault field))
      (hbuild : ∀ arguments v, factory.build arguments = .ok v →
        ∃ type fields, v = .object type fields)

/-- Of some fields, those that a new instance does not open to assignments all fail in one way. -/
def FailsEvenly (factory : Factory) (fields : List String) : Prop :=
  ∀ arguments built, factory.build arguments = .ok built →
    ∀ field ∈ fields, ∀ other ∈ fields, ∀ content otherContent fault otherFault,
      factory.assign field content built = .error fault →
        factory.assign other otherContent built = .error otherFault → fault = otherFault

/-- Arguments of the constructor become fields as they are. -/
def KeepsArguments (factory : Factory) : Prop :=
  ∀ arguments v field content, factory.build arguments = .ok v →
    arguments.get? field = some content → v.fields.get? field = some content

theorem writeField_of_isObject (h : v.IsObject) (field : String) (content : Value) :
    writeField field content v = .ok (v.write field content) := by
  obtain ⟨type, fields, rfl⟩ := h
  rfl

theorem writeField_of_not_isObject (h : ¬ v.IsObject) (field : String) (content : Value) :
    writeField field content v = .error .noSuchMember := by
  cases v with
  | object type fields => exact absurd ⟨type, fields, rfl⟩ h
  | null | bool | int | float | text | list | map | generic => rfl

/-- A run of assignments, where `P` are the values that come up. -/
theorem foldlM_assign (factory : Factory) (opens : String → Bool) (fault : String → BuildFault)
    {P : Value → Prop} (hassign : ∀ target, P target → ∀ field content,
      factory.assign field content target =
        if opens field then .ok (target.write field content) else .error (fault field))
    (hwrite : ∀ target, P target → ∀ field content, opens field = true →
      P (target.write field content))
    (pairs : List (String × Value)) (hbuilt : P built) :
    pairs.foldlM (fun target p => factory.assign p.1 p.2 target) built =
      match pairs.find? (!opens ·.1) with
      | none => .ok (pairs.foldl (fun v p => v.write p.1 p.2) built)
      | some p => .error (fault p.1) := by
  induction pairs generalizing built with
  | nil => rfl
  | cons p pairs ih =>
    rw [List.foldlM_cons, hassign built hbuilt, List.find?_cons, List.foldl_cons]
    cases hopen : opens p.1 with
    | false => rfl
    | true => exact ih (hwrite built hbuilt p.1 p.2 hopen)

/-- Assignments write all their fields, or fail as the first of them that is not open. -/
theorem Stores.exists_fill (h : factory.Stores) (hb : factory.build arguments = .ok built) :
    ∃ (opens : String → Bool) (fault : String → BuildFault),
      ∀ pairs : List (String × Value),
        pairs.foldlM (fun target p => factory.assign p.1 p.2 target) built =
          match pairs.find? (!opens ·.1) with
          | none => .ok (pairs.foldl (fun v p => v.write p.1 p.2) built)
          | some p => .error (fault p.1) := by
  cases h with
  | declared names fault hassign hbuild =>
    refine ⟨_, _, fun pairs => foldlM_assign factory names.contains fault (P := Value.IsObject) ?_
      (fun target htarget field content _ => htarget.write field content) pairs
      (hbuild arguments built hb)⟩
    intro target htarget field content
    rw [hassign, writeField_of_isObject htarget]
  | any hassign =>
    by_cases hbuilt : built.IsObject
    · refine ⟨fun _ => true, fun _ => .noSuchMember, fun pairs => foldlM_assign factory
        (fun _ => true) (fun _ => .noSuchMember) (P := Value.IsObject) ?_
        (fun target htarget field content _ => htarget.write field content) pairs hbuilt⟩
      intro target htarget field content
      rw [hassign, writeField_of_isObject htarget, if_pos rfl]
    · -- a value without fields stays what it is, as no assignment to it succeeds
      refine ⟨fun _ => false, fun _ => .noSuchMember, fun pairs => foldlM_assign factory
        (fun _ => false) (fun _ => .noSuchMember) (P := (· = built)) ?_ nofun pairs rfl⟩
      rintro target rfl field content
      rw [hassign, writeField_of_not_isObject hbuilt, if_neg Bool.false_ne_true]

/-- Where all fields of instances are open, only values that are no instances fail. -/
theorem failsEvenly_of_writeField (hassign : factory.assign = writeField)
    (fields : List String) : factory.FailsEvenly fields := by
  have hfault (field : String) (content target : Value) (fault : BuildFault)
      (h : factory.assign field content target = .error fault) : fault = .noSuchMember := by
    rw [hassign] at h
    by_cases htarget : target.IsObject
    · rw [writeField_of_isObject htarget] at h
      cases h
    · rw [writeField_of_not_isObject htarget] at h
      exact (Except.error.inj h).symm
  intro arguments built _ field _ other _ content otherContent fault otherFault h hother
  rw [hfault _ _ _ _ h, hfault _ _ _ _ hother]

section Kinds

theorem stores_model (typeName : String) (fields : List ModelField) (hidden : Entries Value)
    (methods : List (String × Method)) (constants : List String) :
    (model typeName fields hidden methods constants).Stores := by
  refine .declared (fields.map (·.name) ++ hidden.keys)
    (fun field => if constants.contains field then .noSuchMember else .badContent) ?_ ?_
  · intro field content target
    dsimp only [model]
    split_ifs <;> rfl
  · intro arguments v h
    dsimp only [model] at h
    split at h
    next => cases h; exact ⟨_, _, rfl⟩
    next => cases h

/-- Every type that a registration can name stores what is assigned. -/
theorem stores_named {name : String} (h : named name = .factory factory) : factory.Stores := by
  have hall : ∀ f ∈ Vocabulary.types ++ [outer, inner, strict, param, cache, pair, fragile, route,
      hiddenSetter, mixed, loose, listing, mapping], f.Stores := by
    simp only [Vocabulary.types, List.cons_append, List.nil_append, List.forall_mem_cons]
    exact ⟨stores_model .., stores_model .., stores_model .., stores_model .., stores_model ..,
      stores_model .., stores_model .., .any rfl, .any rfl, .any rfl, .any rfl, .any rfl, .any rfl,
      .any rfl, .any rfl, .any rfl, .any rfl, nofun⟩
  unfold named at h
  split at h
  next entry hentry =>
    obtain ⟨f, hf, rfl⟩ := List.mem_map.mp (List.mem_of_find?_eq_some hentry)
    cases h
    exact hall f hf
  next => cases h

theorem get?_recordContents {fields : List RecordField}
    (hmem : field ∈ fields.map (·.name)) (h : recordContents fields arguments = some contents)
    (ha : arguments.get? field = some content) : contents.get? field = some content := by
  induction fields generalizing contents with
  | nil => cases hmem
  | cons f rest ih =>
    rw [recordContents, List.mapM_cons, Option.bind_eq_bind, Option.bind_eq_some_iff] at h
    obtain ⟨e, he, h⟩ := h
    obtain ⟨w, hw, rfl⟩ := Option.map_eq_some_iff.mp he
    obtain ⟨more, hmore, h⟩ := Option.bind_eq_some_iff.mp h
    cases h
    rw [Entries.get?]
    by_cases hf : f.name = field
    · rw [if_pos hf, ← ha, ← hw, RecordField.content?, hf, ha, Option.some_or]
    · rw [if_neg hf]
      have hrest : field ∈ rest.map (·.name) := by simpa [Ne.symm hf] using hmem
      exact ih hrest hmore

theorem keepsArguments_record (typeName : String) (fields : List RecordField)
    (later : List String) : (record typeName fields later).KeepsArguments := by
  intro arguments v field content h ha
  dsimp only [record] at h
  split at h
  next contents hcontents =>
    split at h
    next hparameters =>
      cases h
      have hkey : field ∈ arguments.keys :=
        List.mem_map_of_mem (f := Prod.fst) (Entries.mem_of_get? ha)
      have hmem := List.all_eq_true.mp hparameters field hkey
      exact get?_recordContents (List.contains_iff_mem.mp hmem) hcontents ha
    next => cases h
  next => cases h

end Kinds

end Factory

end DocAnnotations
