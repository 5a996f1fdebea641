import DocAnnotations.Proofs.Resolver.Tree
import DocAnnotations.Proofs.Run
import Mathlib.Data.List.Forall2

/-! What is made of fragments does not depend on what was remembered before. -/
namespace DocAnnotations.Resolver

/-- The attributes of an instance: placeholders give way to children, and written names of types to
qualified ones. -/
def used (resolver : Resolver) (scope : Option NameScope) (children attributes : Entries Value) :
    Entries Value :=
  qualifyTypeNames resolver.typeNames scope (attributes.mapContents fun _ v => substitute children v)

/-- Making an instance remembers its attributes whether or not it succeeds. -/
theorem hydrate_apply (resolver : Resolver) (schema : Schema) (scope : Option NameScope)
    (key : DeclarationKey) (children attributes : Entries Value) (log : ReadLog) :
    resolver.hydrate schema scope (some key) children attributes log =
      (match hydrateSchema schema key.text (resolver.used scope children attributes) with
        | .ok v => .ok v
        | .error e => .error (.error e),
       log.record key schema.name (resolver.used scope children attributes)) := by
  unfold hydrate used
  dsimp only
  rw [bind_of_ok (modify_apply _ log)]
  change (match hydrateSchema schema key.text _ with
    | .ok v => pure v
    | .error e => throw (Abort.error e) : ReadM Value) _ = _
  cases hydrateSchema schema key.text _ with
  | ok v => rfl
  | error e => rfl

/-- `x` gives the same result from every log. -/
def Steady {α : Type} (x : ReadM α) : Prop :=
  ∀ log, (x log).1 = (x {}).1

/-- `x` gives the same result from every log, and adds the same to it: the last error, if there is
one, and attributes. -/
def Adds {α : Type} (x : ReadM α) : Prop :=
  ∃ (result : Except Abort α) (last : Option ReadError)
    (attributes : List (AttributeKey × Entries Value)),
    ∀ log, x log = (result, ⟨last.or log.lastError, attributes ++ log.attributes⟩)

theorem adds_throw {α : Type} (stop : Abort) : Adds (throw stop : ReadM α) :=
  ⟨.error stop, none, [], fun _ => rfl⟩

namespace Adds

variable {α β : Type}

theorem steady {x : ReadM α} (hx : Adds x) : Steady x := by
  obtain ⟨result, last, attributes, hx⟩ := hx
  intro log
  rw [hx, hx]

theorem pure (a : α) : Adds (Pure.pure a) := ⟨.ok a, none, [], fun _ => rfl⟩

theorem bind {x : ReadM α} {k : α → ReadM β} (hx : Adds x) (hk : ∀ a, Adds (k a)) :
    Adds (x >>= k) := by
  obtain ⟨result, last, attributes, hx⟩ := hx
  cases result with
  | error stop => exact ⟨.error stop, last, attributes, fun log => bind_of_error (hx log)⟩
  | ok a =>
    obtain ⟨result, last', attributes', hk⟩ := hk a
    refine ⟨result, last'.or last, attributes' ++ attributes, fun log => ?_⟩
    rw [bind_of_ok (hx log), hk, Option.or_assoc, List.append_assoc]

theorem mapM {f : α → ReadM β} (hf : ∀ a, Adds (f a)) (as : List α) : Adds (as.mapM f) := by
  induction as with
  | nil => exact pure []
  | cons a as ih =>
    rw [List.mapM_cons]
    exact (hf a).bind fun b => ih.bind fun bs => pure (b :: bs)

end Adds

theorem adds_fallBack (schema : Schema) (scope : Option NameScope) (key : DeclarationKey)
    (name raw : String) (e : ReadError) : Adds (fallBack schema scope key name raw e) := by
  have hremember (e : ReadError) :
      Adds (modify fun log => { log with lastError := some e } : ReadM PUnit) :=
    ⟨.ok ⟨⟩, some e, [], fun _ => rfl⟩
  refine (hremember _).bind fun _ => ?_
  split
  · exact (adds_throw _).bind fun _ => .pure _
  · exact .pure _

theorem attributes_fallBack (schema : Schema) (scope : Option NameScope) (key : DeclarationKey)
    (name raw : String) (e : ReadError) (log : ReadLog) :
    (fallBack schema scope key name raw e log).2.attributes = log.attributes := by
  unfold fallBack
  dsimp only
  rw [bind_of_ok (modify_apply _ log)]
  split <;> rfl

variable (resolver : Resolver) (scope : Option NameScope) (key : DeclarationKey)

theorem adds_settle (schema : Schema) (name raw : String) (children : List Value) :
    Adds (resolver.settle scope key schema name raw children) := by
  unfold settle
  split
  next e _ => exact adds_fallBack schema scope key name raw e
  next stop _ _ => exact adds_throw stop
  next given _ =>
    -- the attributes of the instance are remembered before the error is, if there is one
    obtain ⟨used, hrecord⟩ : ∃ used, ∀ log : ReadLog, log.record key schema.name
        (resolver.used scope (placeholders children) given) =
          ⟨log.lastError, used :: log.attributes⟩ := ⟨_, fun _ => rfl⟩
    simp only [hydrate_apply, hrecord]
    cases hydrateSchema schema key.text _ with
    | ok v => exact ⟨.ok v, none, [used], fun _ => rfl⟩
    | error e =>
      obtain ⟨result, last, attributes, hfall⟩ := adds_fallBack schema scope key name raw e
      refine ⟨result, last, attributes ++ [used], fun log => ?_⟩
      rw [List.append_assoc]
      exact hfall _

/-- What is remembered of the attributes depends on the attributes alone. -/
theorem attributes_settle (schema : Schema) (name raw : String) (children : List Value)
    (log : ReadLog) : (resolver.settle scope key schema name raw children log).2.attributes =
      match (attributesOf schema raw).toOption with
      | some attributes =>
        (log.record key schema.name
          (resolver.used scope (placeholders children) attributes)).attributes
      | none => log.attributes := by
  unfold settle
  cases attributesOf schema raw with
  | error stop =>
    cases stop with
    | error e => exact attributes_fallBack schema scope key name raw e log
    | oversizedInteger | unfinishedStatement => rfl
  | ok attributes =>
    simp only [hydrate_apply, Except.toOption]
    cases hydrateSchema schema key.text _ with
    | ok v => rfl
    | error e => exact attributes_fallBack schema scope key name raw e _

theorem adds_resolveAll {fs : List Fragment} (h : ∀ f ∈ fs, Adds (resolver.resolve scope key f)) :
    Adds (resolver.resolveAll scope key fs) := by
  induction fs with
  | nil => exact .pure []
  | cons f rest ih =>
    exact (h f (by simp)).bind fun v => (ih fun g hg => h g (by simp [hg])).bind fun vs => .pure _

theorem adds_resolve (f : Fragment) : Adds (resolver.resolve scope key f) := by
  induction f with
  | mk name raw children ih =>
    unfold resolve
    split
    next => exact .pure _
    next schema _ =>
      exact (resolver.adds_resolveAll scope key ih).bind fun values =>
        resolver.adds_settle scope key schema name raw values

theorem adds_convert (type : String) (f : Fragment) : Adds (resolver.convert scope key type f) := by
  unfold convert
  split
  next => exact .pure _
  next schema _ =>
    exact (resolver.adds_resolveAll scope key fun c _ => resolver.adds_resolve scope key c).bind
      fun values => resolver.adds_settle scope key schema f.name f.raw values

theorem adds_mapM_convert (type : String) (fs : List Fragment) :
    Adds (fs.mapM (resolver.convert scope key type)) :=
  .mapM (resolver.adds_convert scope key type) fs

theorem steady_resolve (f : Fragment) : Steady (resolver.resolve scope key f) :=
  (resolver.adds_resolve scope key f).steady

theorem steady_resolveAll (fs : List Fragment) : Steady (resolver.resolveAll scope key fs) :=
  (resolver.adds_resolveAll scope key fun f _ => resolver.adds_resolve scope key f).steady

theorem steady_convert (type : String) (f : Fragment) :
    Steady (resolver.convert scope key type f) :=
  (resolver.adds_convert scope key type f).steady

theorem steady_mapM_convert (type : String) (fs : List Fragment) :
    Steady (fs.mapM (resolver.convert scope key type)) :=
  (resolver.adds_mapM_convert scope key type fs).steady

/-- The values of several fragments are those of each. -/
theorem forall₂_of_resolveAll {fs : List Fragment} {vs : List Value} {log : ReadLog}
    (h : (resolver.resolveAll scope key fs log).1 = .ok vs) :
    List.Forall₂ (fun f v => (resolver.resolve scope key f {}).1 = .ok v) fs vs := by
  induction fs generalizing vs log with
  | nil =>
    cases h
    exact .nil
  | cons f rest ih =>
    rw [resolveAll] at h
    obtain ⟨v, middle, hv, hrest⟩ := exists_of_bind_ok (Prod.ext h rfl)
    obtain ⟨values, next, hvalues, hend⟩ := exists_of_bind_ok hrest
    cases hend
    refine .cons ?_ (ih (congrArg Prod.fst hvalues))
    rw [← steady_resolve resolver scope key f log, hv]

end DocAnnotations.Resolver
