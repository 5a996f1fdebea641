import DocAnnotations.Proofs.AliasTable
import DocAnnotations.Proofs.Registry
import DocAnnotations.Proofs.Resolver.Order
import DocAnnotations.Proofs.SourceIndex

/-! Which attributes can be read back behind requests for instances, granted or not. -/
namespace DocAnnotations

open AliasTable QualifiedName

/-- A type is found under its own name. -/
theorem Registry.Valid.name_of_get? {registry : Registry} (h : registry.Valid) {name : String}
    {schema : Schema} (hs : registry.get? name = some schema) : schema.name = dropLeading name :=
  (h _ (Entries.mem_of_get? hs)).1.symm

namespace ReadLog

/-- Every spelling of a class and a type reads the same. -/
theorem attributesRead_congr {className other typeName otherType : String}
    (hclass : dropLeading className = dropLeading other)
    (htype : dropLeading typeName = dropLeading otherType) (log : ReadLog) (itemName : String) :
    log.attributesRead className itemName typeName =
      log.attributesRead other itemName otherType := by
  rw [attributesRead, attributesRead, hclass, htype]

end ReadLog

namespace Resolver

variable {resolver : Resolver} {type : String} {schema : Schema} {scope : Option NameScope}
  {children attributes : Entries Value} {raw : String} {log : ReadLog}

theorem hydrateNamed_of_get? (hs : resolver.registry.get? type = some schema)
    (key : Option DeclarationKey) :
    resolver.hydrateNamed scope key type children attributes raw log =
      resolver.hydrate schema scope key children attributes log := by
  rw [hydrateNamed, hs]

theorem hydrateNamed_eq_error_iff (hs : resolver.registry.get? type = some schema)
    {key : Option DeclarationKey} {stop : Abort} :
    (resolver.hydrateNamed scope key type children attributes raw log).1 = .error stop ↔
      ∃ e, stop = .error e ∧
        hydrateSchema schema ((key.map (·.text)).getD "<unknown>")
          (resolver.used scope children attributes) = .error e := by
  rw [hydrateNamed_of_get? hs, hydrate_run]
  cases hydrateSchema schema _ (resolver.used scope children attributes) with
  | ok v => simp
  | error e => simp [eq_comm]

/-- Under these names, attributes are read that were left for the key and the type. No name means a
key with a backslash in front. -/
def Meant (key : Option DeclarationKey) (type className itemName typeName : String) : Prop :=
  ∃ k ∈ key, dropLeading className = k.className ∧ itemName = k.itemName ∧
    dropLeading typeName = dropLeading type

instance (key : Option DeclarationKey) (type className itemName typeName : String) :
    Decidable (Meant key type className itemName typeName) :=
  inferInstanceAs (Decidable (∃ k ∈ key, _ ∧ _ ∧ _))

theorem meant_some_iff {key : DeclarationKey} {className itemName typeName : String} :
    Meant (some key) type className itemName typeName ↔
      dropLeading className = key.className ∧ itemName = key.itemName ∧
        dropLeading typeName = dropLeading type := by
  simp [Meant]

/-- A request for an instance leaves its attributes under the names that mean its declaration and
its type, whether or not it is granted. Nothing else that can be read changes. -/
theorem attributesRead_hydrateNamed (hvalid : resolver.registry.Valid)
    (hs : resolver.registry.get? type = some schema) (key : Option DeclarationKey)
    (className itemName typeName : String) :
    (resolver.hydrateNamed scope key type children attributes raw log).2.attributesRead
        className itemName typeName =
      if Meant key type className itemName typeName then
        resolver.used scope children attributes
      else log.attributesRead className itemName typeName := by
  rw [hydrateNamed_of_get? hs, hydrate_run]
  cases key with
  | none => rw [if_neg (by simp [Meant])]
  | some key =>
    rw [ReadLog.attributesRead_record, hvalid.name_of_get? hs]
    refine if_congr ?_ rfl rfl
    rw [AttributeKey.mk.injEq, meant_some_iff]
    exact and_congr eq_comm (and_congr eq_comm eq_comm)

/-- The attributes of an instance can be read back in every spelling of its class and its type if
its key spells the class without a backslash in front, and in no spelling otherwise. What can be
read of other classes, items and types is as before. -/
theorem attributesRead_after_hydrateNamed (hvalid : resolver.registry.Valid)
    (hs : resolver.registry.get? type = some schema) (key : DeclarationKey) :
    let before := log.attributesRead
    let after :=
      (resolver.hydrateNamed scope (some key) type children attributes raw log).2.attributesRead
    (isAbsolute key.className = false → ∀ className typeName,
      dropLeading className = dropLeading key.className →
        dropLeading typeName = dropLeading type →
          after className key.itemName typeName = resolver.used scope children attributes) ∧
    (isAbsolute key.className = true → after = before) ∧
    ∀ className itemName typeName,
      ¬ (dropLeading className = dropLeading key.className ∧ itemName = key.itemName ∧
        dropLeading typeName = dropLeading type) →
      after className itemName typeName = before className itemName typeName := by
  intro before after
  have hread (className itemName typeName : String) : after className itemName typeName =
      if Meant (some key) type className itemName typeName then
        resolver.used scope children attributes
      else before className itemName typeName :=
    attributesRead_hydrateNamed hvalid hs (some key) className itemName typeName
  refine ⟨fun hrelative className typeName hclass htype => ?_, fun habsolute => ?_,
    fun className itemName typeName hother => ?_⟩
  · rw [dropLeading_of_not_absolute hrelative] at hclass
    rw [hread, if_pos (meant_some_iff.mpr ⟨hclass, rfl, htype⟩)]
  · funext className itemName typeName
    rw [hread, if_neg]
    intro hmeant
    exact head?_dropLeading className ((meant_some_iff.mp hmeant).1 ▸ of_decide_eq_true habsolute)
  · rw [hread, if_neg]
    intro hmeant
    obtain ⟨hclass, hrest⟩ := meant_some_iff.mp hmeant
    refine hother ⟨?_, hrest⟩
    rw [← hclass, dropLeading_dropLeading]

/-- A child in the place of its placeholder, read back under absolute names. -/
theorem attributesRead_after_hydrateNamed_child :
    let param : Schema :=
      ⟨"Lib\\Param", Factory.param, ["name"], ["name", "type"], [], some "name", false⟩
    let resolver : Resolver := { registry := ⟨[("Lib\\Param", param)]⟩ }
    let key : DeclarationKey := ⟨"App\\Host", .onProperty, some "id"⟩
    let run := resolver.hydrateNamed none (some key) "Lib\\Param" [("_child_0", .int 7)]
      [("name", .text "_child_0")] "" {}
    resolver.registry.Valid ∧ resolver.registry.get? "Lib\\Param" = some param ∧
      run.1 = .ok (.object "Param" [("name", .int 7), ("type", .text "")]) ∧
      run.2.attributesRead "\\App\\Host" "p:id" "\\Lib\\Param" = [("name", .int 7)] := by
  intro param resolver key run
  have hschema : param.Valid := ⟨by decide, by decide, by decide, nofun, by decide⟩
  have hvalid : resolver.registry.Valid := Registry.valid_add Registry.valid_empty hschema
  have hs : resolver.registry.get? "Lib\\Param" = some param := rfl
  have hrun : run.1 = .ok (.object "Param" [("name", .int 7), ("type", .text "")]) := by
    decide
  have hread : run.2.attributesRead "\\App\\Host" "p:id" "\\Lib\\Param" =
      resolver.used none [("_child_0", .int 7)] [("name", .text "_child_0")] :=
    (attributesRead_after_hydrateNamed hvalid hs key).1 (by decide) _ _ (by decide) (by decide)
  have hused : resolver.used none [("_child_0", .int 7)] [("name", .text "_child_0")] =
      [("name", .int 7)] := by decide
  exact ⟨hvalid, hs, hrun, hread.trans hused⟩

/-- Under a key with a backslash in front, an instance is made and its attributes are lost. -/
theorem attributesRead_absolute_key :
    let param : Schema :=
      ⟨"Param", Factory.param, ["name"], ["name", "type"], [], some "name", false⟩
    let resolver : Resolver := { registry := ⟨[("Param", param)]⟩ }
    let key : DeclarationKey := { className := "\\Host" }
    let attributes : Entries Value := [("name", .text "a")]
    let run := resolver.hydrateNamed none (some key) "Param" [] attributes "" {}
    run.1 = .ok (.object "Param" [("name", .text "a"), ("type", .text "")]) ∧
      resolver.used none [] attributes = attributes ∧
      run.2.attributesRead key.className key.itemName "Param" = [] ∧
      run.2.attributesRead "Host" key.itemName "Param" = [] := by
  intro param resolver key attributes run
  have hschema : param.Valid := ⟨by decide, by decide, by decide, nofun, by decide⟩
  have hvalid : resolver.registry.Valid := Registry.valid_add Registry.valid_empty hschema
  have hs : resolver.registry.get? "Param" = some param := rfl
  have hrun : run.1 = .ok (.object "Param" [("name", .text "a"), ("type", .text "")]) := by
    decide
  have hread (className : String) (h : dropLeading className ≠ "\\Host") :
      run.2.attributesRead className key.itemName "Param" = [] :=
    (attributesRead_hydrateNamed hvalid hs (some key) ..).trans
      (if_neg fun hmeant => h (meant_some_iff.mp hmeant).1)
  exact ⟨hrun, by decide, hread _ (by decide), hread _ (by decide)⟩

/-- A request for an instance of a named type. -/
structure Request where
  scope : Option NameScope := none
  key : Option DeclarationKey := none
  type : String
  children : Entries Value := []
  attributes : Entries Value
  raw : String := ""

namespace Request

/-- What is remembered after a request, whether or not it is granted. -/
def after (resolver : Resolver) (log : ReadLog) (q : Request) : ReadLog :=
  (resolver.hydrateNamed q.scope q.key q.type q.children q.attributes q.raw log).2

/-- The attributes that a request leaves to be read under a class, an item and a type. -/
def left? (resolver : Resolver) (className itemName typeName : String) (q : Request) :
    Option (Entries Value) :=
  if resolver.registry.contains q.type ∧ Meant q.key q.type className itemName typeName then
    some (resolver.used q.scope q.children q.attributes)
  else none

theorem attributesRead_after (hvalid : resolver.registry.Valid) (log : ReadLog) (q : Request)
    (className itemName typeName : String) :
    (q.after resolver log).attributesRead className itemName typeName =
      (q.left? resolver className itemName typeName).getD
        (log.attributesRead className itemName typeName) := by
  rw [after, left?, Registry.contains_eq_isSome_get?]
  cases hs : resolver.registry.get? q.type with
  | none =>
    rw [hydrateNamed, hs, if_neg (by simp)]
    rfl
  | some schema =>
    rw [attributesRead_hydrateNamed hvalid hs]
    by_cases hmeant : Meant q.key q.type className itemName typeName
    · rw [if_pos hmeant, if_pos ⟨rfl, hmeant⟩, Option.getD_some]
    · rw [if_neg hmeant, if_neg (by simp [hmeant]), Option.getD_none]

end Request

/-- Behind a sequence of requests, what can be read is what the last of them left that was about
the same class, item and type. -/
theorem attributesRead_foldl_after (hvalid : resolver.registry.Valid) (requests : List Request)
    (log : ReadLog) (className itemName typeName : String) :
    (requests.foldl (Request.after resolver) log).attributesRead className itemName typeName =
      (requests.filterMap (Request.left? resolver className itemName typeName)).getLast?.getD
        (log.attributesRead className itemName typeName) := by
  induction requests generalizing log with
  | nil => rfl
  | cons q requests ih =>
    rw [List.foldl_cons, ih, q.attributesRead_after hvalid, List.filterMap_cons]
    cases q.left? resolver className itemName typeName with
    | none => rfl
    | some attributes => rw [Option.getD_some, List.getLast?_cons, Option.getD_some]

/-- A request that fails is about a registered type and leaves its attributes behind like one that
is granted. What can be read stays as it was exactly if it is about no declaration, if its key has a
backslash in front, or if the same attributes were there before. -/
theorem attributesRead_of_hydrateNamed_error (hvalid : resolver.registry.Valid)
    {key : Option DeclarationKey} {stop : Abort}
    (h : (resolver.hydrateNamed scope key type children attributes raw log).1 = .error stop) :
    let used := resolver.used scope children attributes
    let failed := (resolver.hydrateNamed scope key type children attributes raw log).2
    (∃ schema e, resolver.registry.get? type = some schema ∧
      hydrateSchema schema ((key.map (·.text)).getD "<unknown>") used = .error e ∧
      stop = .error e) ∧
    failed.lastError = log.lastError ∧
    (∀ className itemName typeName, failed.attributesRead className itemName typeName =
      if Meant key type className itemName typeName then used
      else log.attributesRead className itemName typeName) ∧
    (failed.attributesRead = log.attributesRead ↔
      ∀ k ∈ key, isAbsolute k.className = false →
        log.attributesRead k.className k.itemName type = used) := by
  intro used failed
  obtain ⟨schema, hs⟩ : ∃ schema, resolver.registry.get? type = some schema := by
    cases hs : resolver.registry.get? type with
    | some schema => exact ⟨schema, rfl⟩
    | none => rw [hydrateNamed, hs] at h; cases h
  have hread (className itemName typeName : String) :
      failed.attributesRead className itemName typeName =
        if Meant key type className itemName typeName then used
        else log.attributesRead className itemName typeName :=
    attributesRead_hydrateNamed hvalid hs key className itemName typeName
  refine ⟨?_, ?_, hread, ?_, ?_⟩
  · obtain ⟨e, hstop, he⟩ := (hydrateNamed_eq_error_iff hs).mp h
    exact ⟨schema, e, hs, he, hstop⟩
  · simp only [failed, hydrateNamed_of_get? hs, hydrate_run]
    cases key <;> rfl
  · intro hsame k hk hrelative
    rw [← hsame, hread, if_pos ⟨k, hk, dropLeading_of_not_absolute hrelative, rfl, rfl⟩]
  · intro hsame
    funext className itemName typeName
    rw [hread, ite_eq_right_iff]
    rintro ⟨k, hk, hclass, rfl, htype⟩
    -- A name that is read by has no backslash in front, so neither has the key that it means.
    have hrelative : isAbsolute k.className = false :=
      hclass ▸ decide_eq_false (head?_dropLeading className)
    rw [← hsame k hk hrelative]
    refine log.attributesRead_congr ?_ htype.symm k.itemName
    rw [← hclass, dropLeading_dropLeading]

/-- A setter refuses its value under a key whose attributes cannot be read. -/
theorem attributesRead_of_hydrateNamed_error_fragile :
    let fragile : Schema :=
      ⟨"Fragile", Factory.fragile, [], [], [("level", "set_level")], none, false⟩
    let resolver : Resolver := { registry := ⟨[("Fragile", fragile)]⟩ }
    let key : DeclarationKey := { className := "\\Host" }
    let run := resolver.hydrateNamed none (some key) "Fragile" [] [("level", .text "high")] "" {}
    let stop : Abort := .error ⟨.hydration "Fragile" "\\Host" .badContent, false⟩
    resolver.registry.Valid ∧ run.1 = .error stop ∧
      run.2.attributesRead = ({} : ReadLog).attributesRead := by
  intro fragile resolver key run stop
  have hschema : fragile.Valid := ⟨by decide, by decide, by decide, by decide, nofun⟩
  have hvalid : resolver.registry.Valid := Registry.valid_add Registry.valid_empty hschema
  have hs : resolver.registry.get? "Fragile" = some fragile := rfl
  have hrun : run.1 = .error stop := by
    decide
  obtain ⟨-, -, -, hread⟩ := attributesRead_of_hydrateNamed_error hvalid hrun
  refine ⟨hvalid, hrun, hread.mpr ?_⟩
  rintro _ ⟨⟩ hrelative
  exact absurd hrelative (by decide)

/-- After a failure, the attributes of an instance that was made before are replaced by others of
which no instance was made. -/
theorem attributesRead_replaced_by_failure :
    let strict : Schema :=
      ⟨"Strict", Factory.strict, ["code"], ["code", "label"], [], some "code", false⟩
    let resolver : Resolver := { registry := ⟨[("Strict", strict)]⟩ }
    let key : DeclarationKey := { className := "Host" }
    let made := resolver.hydrateNamed none (some key) "Strict" [] [("code", .text "A")] "" {}
    let failed :=
      resolver.hydrateNamed none (some key) "Strict" [] [("label", .text "x")] "" made.2
    made.1 = .ok (.object "Strict" [("code", .text "A"), ("label", .text "")]) ∧
      failed.1 = .error (.error ⟨.missingRequired "code" "Strict" "Host", false⟩) ∧
      made.2.attributesRead "Host" "c" "Strict" = [("code", .text "A")] ∧
      failed.2.attributesRead "Host" "c" "Strict" = [("label", .text "x")] := by
  intro strict resolver key made failed
  have hschema : strict.Valid := ⟨by decide, by decide, by decide, nofun, by decide⟩
  have hvalid : resolver.registry.Valid := Registry.valid_add Registry.valid_empty hschema
  have hs : resolver.registry.get? "Strict" = some strict := rfl
  have hmade : made.1 = .ok (.object "Strict" [("code", .text "A"), ("label", .text "")]) := by
    decide
  have hfailed : failed.1 = .error (.error ⟨.missingRequired "code" "Strict" "Host", false⟩) := by
    decide
  have hmeant : Meant (some key) "Strict" "Host" "c" "Strict" := by decide
  exact ⟨hmade, hfailed, (attributesRead_hydrateNamed hvalid hs ..).trans (if_pos hmeant),
    (attributesRead_hydrateNamed hvalid hs ..).trans (if_pos hmeant)⟩

end Resolver

end DocAnnotations
