import DocAnnotations.Proofs.Resolver.Fields

/-! Where a type only stores what is assigned, attributes whose names differ by more than case and
underscores may be written in any order: the instance has the same fields, or fails in the same way,
and the same is remembered of it. -/
namespace DocAnnotations

/-- The same value, whatever the order in which an instance holds its fields. -/
inductive Value.SameFields : Value → Value → Prop
  | refl (v : Value) : SameFields v v
  | object {type : String} {fields others : Entries Value}
      (h : ∀ field, fields.get? field = others.get? field) :
      SameFields (.object type fields) (.object type others)

/-- Values with the same fields, or the same failure. -/
inductive Value.Alike {ε : Type} : Except ε Value → Except ε Value → Prop
  | ok {v w : Value} (h : v.SameFields w) : Alike (.ok v) (.ok w)
  | error (e : ε) : Alike (.error e) (.error e)

/-- Of writes to distinct fields, the order does not matter. -/
theorem Value.foldl_write_perm {pairs others : List (String × Value)}
    (hnodup : (Entries.keys pairs).Nodup) (hperm : pairs.Perm others) (v : Value) :
    (pairs.foldl (fun v p => v.write p.1 p.2) v).SameFields
      (others.foldl (fun v p => v.write p.1 p.2) v) := by
  cases v with
  | object type fields =>
    rw [Value.foldl_write_object, Value.foldl_write_object]
    refine .object fun field => ?_
    have hothers : (Entries.keys others).Nodup := (hperm.map Prod.fst).nodup_iff.mp hnodup
    rw [Entries.get?_foldl_insert_of_nodup hnodup, Entries.get?_foldl_insert_of_nodup hothers,
      Entries.get?_perm hnodup hperm]
  | null | bool | int | float | text | list | map | generic =>
    rw [Value.foldl_write_of_ne (by simp), Value.foldl_write_of_ne (by simp)]
    exact .refl _

namespace ReadLog

/-- The latest attributes of an instance hide those before. -/
theorem attributesRead_record (log : ReadLog) (key : DeclarationKey) (type : String)
    (attributes : Entries Value) (className itemName typeName : String) :
    (log.record key type attributes).attributesRead className itemName typeName =
      if (⟨key.className, key.itemName, type⟩ : AttributeKey) =
          ⟨QualifiedName.dropLeading className, itemName, QualifiedName.dropLeading typeName⟩
        then attributes
      else log.attributesRead className itemName typeName := by
  unfold attributesRead record
  dsimp only
  rw [List.find?_cons]
  split_ifs with h
  · rw [decide_eq_true h]
  · rw [decide_eq_false h]

end ReadLog

namespace Resolver

variable {schema : Schema} {arguments attributes permuted : Entries Value}

theorem argument?_perm (hd : Schema.Distinct attributes.keys) (hperm : attributes.Perm permuted) :
    argument? attributes = argument? permuted := by
  funext parameter
  rw [argument?, argument?, Schema.matchRequired, Schema.matchRequired,
    hd.matchName_perm (hperm.map Prod.fst)]
  exact congrArg _ (funext (Entries.get?_perm (.of_map _ hd.nodup) hperm))

/-- Each required parameter takes the same argument. -/
theorem argumentsFor_perm (hd : Schema.Distinct attributes.keys)
    (hperm : attributes.Perm permuted) :
    argumentsFor schema attributes = argumentsFor schema permuted := by
  have htake : take attributes = take permuted := by
    funext arguments parameter
    rw [take, take, argument?_perm hd hperm]
  rw [argumentsFor_eq_foldlM, argumentsFor_eq_foldlM, htake]

theorem consumed_perm (hd : Schema.Distinct attributes.keys) (hperm : attributes.Perm permuted) :
    consumed schema attributes = consumed schema permuted := by
  refine List.filterMap_congr fun parameter _ => ?_
  exact hd.matchName_perm (hperm.map Prod.fst) parameter

theorem assigned_perm (hd : Schema.Distinct attributes.keys) (hperm : attributes.Perm permuted) :
    (assigned schema attributes).Perm (assigned schema permuted) := by
  unfold assigned
  rw [consumed_perm hd hperm]
  exact (hperm.filter _).filterMap _

/-- No two attributes mean the same field. -/
theorem nodup_keys_assigned (hd : Schema.Distinct attributes.keys) :
    (Entries.keys (assigned schema attributes)).Nodup := by
  have hloose : attributes.Pairwise fun a b => Schema.looseName a.1 ≠ Schema.looseName b.1 := by
    simpa [Entries.keys, List.Nodup, List.pairwise_map] using hd.nodup
  have hfield {e : String × Value} (he : e ∈ attributes) {p : String × Value}
      (hp : (schema.matchField e.1).map (·, e.2) = some p) :
      Schema.looseName p.1 = Schema.looseName e.1 := by
    obtain ⟨field, hfield, rfl⟩ := Option.map_eq_some_iff.mp hp
    have hascii : Text.IsAscii e.1 := hd.ascii e.1 (List.mem_map_of_mem he)
    exact (Schema.looseName_of_matchName (.inl hascii) hfield).2
  rw [Entries.keys, List.Nodup, List.pairwise_map, assigned, List.pairwise_filterMap]
  refine (hloose.filter _).imp_of_mem fun {a b} ha hb hne p hp q hq heq => hne ?_
  rw [← hfield (List.mem_of_mem_filter ha) hp, ← hfield (List.mem_of_mem_filter hb) hq, heq]

/-- In two orders of a list, either both have an element that is picked, or none has. -/
theorem find?_cases_of_perm {α : Type} {as others : List α} (picks : α → Bool)
    (hperm : as.Perm others) :
    (as.find? picks = none ∧ others.find? picks = none) ∨
      ∃ a other, as.find? picks = some a ∧ others.find? picks = some other := by
  cases ha : as.find? picks with
  | none =>
    have hnone : others.find? picks = none := by
      rw [List.find?_eq_none] at ha ⊢
      exact fun other hother => ha other (hperm.mem_iff.mpr hother)
    exact .inl ⟨rfl, hnone⟩
  | some a =>
    have hsome : (others.find? picks).isSome = true := by
      rw [List.find?_isSome]
      exact ⟨a, hperm.mem_iff.mp (List.mem_of_find?_eq_some ha), List.find?_some ha⟩
    obtain ⟨other, hother⟩ := Option.isSome_iff_exists.mp hsome
    exact .inr ⟨a, other, rfl, hother⟩

theorem instantiate_perm (hsetters : schema.setters = []) (hstores : schema.factory.Stores)
    (heven : schema.factory.FailsEvenly schema.fields) (hd : Schema.Distinct attributes.keys)
    (hperm : attributes.Perm permuted) :
    Value.Alike (instantiate schema arguments attributes) (instantiate schema arguments permuted) := by
  cases hb : schema.factory.build arguments with
  | error fault =>
    rw [instantiate, instantiate, hb]
    exact .error fault
  | ok built =>
    obtain ⟨opens, fault, hclosed, hfill⟩ := exists_instantiate hsetters hstores hb
    have hassigned : (assigned schema attributes).Perm (assigned schema permuted) :=
      assigned_perm hd hperm
    have hfault {names : Entries Value} {p : String × Value}
        (hp : (assigned schema names).find? (!opens ·.1) = some p) :
        p.1 ∈ schema.fields ∧ schema.factory.assign p.1 p.2 built = .error (fault p.1) :=
      ⟨mem_fields_of_mem_assigned (List.mem_of_find?_eq_some hp),
        hclosed p.1 p.2 (by simpa using List.find?_some hp)⟩
    rw [hfill, hfill]
    rcases find?_cases_of_perm (!opens ·.1) hassigned with ⟨hnone, hother⟩ | ⟨p, q, hp, hq⟩
    · rw [hnone, hother]
      exact .ok (Value.foldl_write_perm (nodup_keys_assigned hd) hassigned built)
    · -- Another field may fail first, but not in another way.
      obtain ⟨hfieldp, hassignp⟩ := hfault hp
      obtain ⟨hfieldq, hassignq⟩ := hfault hq
      have hsame : fault p.1 = fault q.1 :=
        heven arguments built hb _ hfieldp _ hfieldq _ _ _ _ hassignp hassignq
      rw [hp, hq]
      dsimp only
      rw [hsame]
      exact .error _

theorem hydrateSchema_perm (hsetters : schema.setters = []) (hstores : schema.factory.Stores)
    (heven : schema.factory.FailsEvenly schema.fields) (hd : Schema.Distinct attributes.keys)
    (hperm : attributes.Perm permuted) (host : String) :
    Value.Alike (hydrateSchema schema host attributes) (hydrateSchema schema host permuted) := by
  unfold hydrateSchema
  rw [argumentsFor_perm hd hperm]
  cases argumentsFor schema permuted with
  | error parameter => exact .error _
  | ok arguments =>
    dsimp only
    have h := @instantiate_perm _ arguments _ _ hsetters hstores heven hd hperm
    generalize instantiate schema arguments attributes = result at h
    generalize instantiate schema arguments permuted = permutedResult at h
    cases h with
    | ok h => exact .ok h
    | error fault => exact .error _

theorem used_perm (resolver : Resolver) (scope : Option NameScope) (children : Entries Value)
    (hperm : attributes.Perm permuted) :
    (resolver.used scope children attributes).Perm (resolver.used scope children permuted) := by
  have hsubstituted := hperm.map fun e => (e.1, substitute children e.2)
  unfold used qualifyTypeNames
  cases scope with
  | none => exact hsubstituted
  | some scope => exact hsubstituted.map _

/-- An instance of a type without setters does not depend on the order of its attributes, and
neither does what is remembered of it, if assignments only store what they get. -/
theorem hydrateNamed_perm {resolver : Resolver} {type : String}
    (hs : resolver.registry.get? type = some schema) (hsetters : schema.setters = [])
    (hstores : schema.factory.Stores) (heven : schema.factory.FailsEvenly schema.fields)
    (hd : Schema.Distinct attributes.keys) (hperm : attributes.Perm permuted)
    (scope : Option NameScope) (key : Option DeclarationKey) (children : Entries Value)
    (raw : String) (log : ReadLog) :
    let run := resolver.hydrateNamed scope key type children attributes raw log
    let permutedRun := resolver.hydrateNamed scope key type children permuted raw log
    Value.Alike run.1 permutedRun.1 ∧ run.2.lastError = permutedRun.2.lastError ∧
      ∀ className itemName typeName name,
        (run.2.attributesRead className itemName typeName).get? name =
          (permutedRun.2.attributesRead className itemName typeName).get? name := by
  intro run permutedRun
  have hused := resolver.used_perm scope children hperm
  have hdistinct : Schema.Distinct (resolver.used scope children attributes).keys := by
    rwa [keys_used]
  have hrun : run = resolver.hydrate schema scope key children attributes log := by
    simp only [run, hydrateNamed, hs]
  have hpermuted : permutedRun = resolver.hydrate schema scope key children permuted log := by
    simp only [permutedRun, hydrateNamed, hs]
  rw [hrun, hpermuted, hydrate_run, hydrate_run]
  refine ⟨?_, ?_, fun className itemName typeName name => ?_⟩
  · have h := hydrateSchema_perm hsetters hstores heven hdistinct hused
      ((key.map (·.text)).getD "<unknown>")
    dsimp only
    generalize hydrateSchema schema _ (resolver.used scope children attributes) = result at h
    generalize hydrateSchema schema _ (resolver.used scope children permuted) = result' at h
    cases h with
    | ok h => exact .ok h
    | error e => exact .error _
  · cases key with
    | none => rfl
    | some key => rfl
  · cases key with
    | none => rfl
    | some key =>
      dsimp only
      rw [ReadLog.attributesRead_record, ReadLog.attributesRead_record]
      split
      · exact Entries.get?_perm (.of_map _ hdistinct.nodup) hused name
      · rfl

/-- A child under a name without its underscore, and the first parameter in capitals. -/
theorem hydrateNamed_perm_pair :
    let pair : Schema := ⟨"Pair", Factory.pair, ["first", "second_value"],
      ["first", "second_value", "value"], [], some "value", false⟩
    let resolver : Resolver := { registry := ⟨[("Pair", pair)]⟩ }
    let key : DeclarationKey := { className := "Host" }
    let children : Entries Value := [("_child_0", .int 7)]
    let attributes : Entries Value :=
      [("value", .null), ("secondValue", .text "_child_0"), ("FIRST", .int 1)]
    let permuted : Entries Value :=
      [("FIRST", .int 1), ("value", .null), ("secondValue", .text "_child_0")]
    let run := resolver.hydrateNamed none (some key) "\\Pair" children attributes "" {}
    let permutedRun := resolver.hydrateNamed none (some key) "\\Pair" children permuted "" {}
    resolver.registry.get? "\\Pair" = some pair ∧ pair.setters = [] ∧ pair.factory.Stores ∧
      pair.factory.FailsEvenly pair.fields ∧ Schema.Distinct attributes.keys ∧ attributes.Perm permuted ∧
      Value.Alike run.1 permutedRun.1 ∧
      ∀ name, (run.2.attributesRead "Host" "c" "Pair").get? name =
        (permutedRun.2.attributesRead "Host" "c" "Pair").get? name := by
  intro pair resolver key children attributes permuted run permutedRun
  have hs : resolver.registry.get? "\\Pair" = some pair := rfl
  have hstores : pair.factory.Stores := Factory.stores_named (show Factory.named "Pair" = _ from rfl)
  have heven : pair.factory.FailsEvenly pair.fields := Factory.failsEvenly_of_writeField rfl _
  have hd : Schema.Distinct attributes.keys := by decide
  have hperm : attributes.Perm permuted := ((List.Perm.swap _ _ _).cons _).trans (.swap _ _ _)
  obtain ⟨halike, -, hread⟩ :=
    hydrateNamed_perm hs rfl hstores heven hd hperm none (some key) children "" {}
  exact ⟨hs, rfl, hstores, heven, hd, hperm, halike, hread "Host" "c" "Pair"⟩

/-- A type whose lower bound may not be above its upper one, which every assignment checks. -/
def range : Factory where
  typeName := "Range"
  required := []
  fields := ["low", "high"]
  parameters := some ["low", "high"]
  methods := []
  build _ := .ok (.object "Range" [("low", .int 0), ("high", .int 1)])
  assign field content target := do
    let assigned ← Factory.writeField field content target
    match assigned.fields.get? "low", assigned.fields.get? "high" with
    | some (.int low), some (.int high) => if low ≤ high then .ok assigned else .error .badContent
    | _, _ => .error .badContent

/-- Where an assignment reads another field, or fields are refused in different ways, the order of
the attributes decides. -/
theorem hydrateNamed_perm_ne :
    let ranged : Schema := ⟨"Range", range, [], ["low", "high"], [], none, false⟩
    let relationship : Schema := ⟨"Relationship", Vocabulary.relationship, ["relationship_type"],
      ["ONE_TO_ONE", "nope"], [], none, false⟩
    let resolver : Resolver :=
      { registry := ⟨[("Range", ranged), ("Relationship", relationship)]⟩ }
    let run (type : String) (attributes : Entries Value) :=
      (resolver.hydrateNamed none none type [] attributes "" {}).1
    let bounds : Entries Value := [("low", .int 5), ("high", .int 9)]
    let members : Entries Value :=
      [("relationship_type", .text "one_to_many"), ("ONE_TO_ONE", .null), ("nope", .null)]
    let permutedMembers : Entries Value :=
      [("relationship_type", .text "one_to_many"), ("nope", .null), ("ONE_TO_ONE", .null)]
    (Schema.Distinct bounds.keys ∧ Schema.Distinct members.keys ∧
      members.Perm permutedMembers) ∧
    (run "Range" bounds = .error (.error ⟨.hydration "Range" "<unknown>" .badContent, false⟩) ∧
      run "Range" bounds.reverse =
        .ok (.object "Range" [("low", .int 5), ("high", .int 9)])) ∧
    run "Relationship" members =
      .error (.error ⟨.hydration "Relationship" "<unknown>" .noSuchMember, false⟩) ∧
    run "Relationship" permutedMembers =
      .error (.error ⟨.hydration "Relationship" "<unknown>" .badContent, false⟩) := by
  intro ranged relationship resolver run bounds members permutedMembers
  have hperm : members.Perm permutedMembers := (List.Perm.swap _ _ _).cons _
  exact ⟨⟨by decide, by decide, hperm⟩, ⟨by decide, by decide⟩,
    by decide, by decide⟩

end Resolver

end DocAnnotations
