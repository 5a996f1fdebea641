import DocAnnotations.Proofs.Resolver.Failure

/-! What instances are made of. -/
namespace DocAnnotations.Resolver

variable {resolver : Resolver} {scope : Option NameScope} {key : DeclarationKey} {type : String}
  {v : Value}

/-- The value is the instance of the type that the text and the children of a fragment give. -/
def MadeAs (resolver : Resolver) (scope : Option NameScope) (key : DeclarationKey) (type : String)
    (f : Fragment) (v : Value) : Prop :=
  ∃ schema children, resolver.registry.get? type = some schema ∧
    (resolver.resolveAll scope key f.children {}).1 = .ok children ∧
      resolver.attempt scope key schema f.raw children = .ok v

theorem isGeneric_of_fallBack {schema : Schema} {name raw : String} {e : ReadError} {log : ReadLog}
    (h : (fallBack schema scope key name raw e log).1 = .ok v) : v.isGeneric = true := by
  unfold fallBack at h
  dsimp only at h
  rw [bind_of_ok (modify_apply _ log)] at h
  split at h
  next => cases h
  next =>
    cases h
    rfl

/-- What is settled is an instance or kept as text. -/
theorem attempt_of_settle {schema : Schema} {name raw : String} {children : List Value}
    {log : ReadLog} (h : (resolver.settle scope key schema name raw children log).1 = .ok v)
    (hv : v.isGeneric = false) : resolver.attempt scope key schema raw children = .ok v := by
  unfold settle at h
  unfold attempt
  cases ha : attributesOf schema raw with
  | error stop =>
    simp only [ha] at h
    cases stop with
    | error e =>
      rw [isGeneric_of_fallBack h] at hv
      cases hv
    | oversizedInteger | unfinishedStatement => cases h
  | ok attributes =>
    simp only [ha, hydrate_apply, bind, Except.bind] at h ⊢
    cases hr : hydrateSchema schema key.text
        (resolver.used scope (placeholders children) attributes) with
    | error e =>
      simp only [hr] at h
      rw [isGeneric_of_fallBack h] at hv
      cases hv
    | ok made =>
      simp only [hr] at h ⊢
      exact h

/-- An instance that a fragment is converted to is made as that type. -/
theorem madeAs_of_convert {f : Fragment} {log : ReadLog}
    (h : (resolver.convert scope key type f log).1 = .ok v) (hv : v.isGeneric = false) :
    resolver.MadeAs scope key type f v := by
  unfold convert at h
  cases hs : resolver.registry.get? type with
  | none =>
    simp only [hs] at h
    cases h
    cases hv
  | some schema =>
    simp only [hs] at h
    obtain ⟨children, middle, hchildren, hsettle⟩ := exists_of_bind_ok (Prod.ext h rfl)
    refine ⟨schema, children, hs, ?_, attempt_of_settle (congrArg Prod.fst hsettle) hv⟩
    rw [← resolver.steady_resolveAll scope key f.children log, hchildren]

/-- A fragment is converted to the type that its name stands for. -/
theorem resolve_eq_convert {f : Fragment} (ht : resolver.qualify scope f.name = some type) :
    resolver.resolve scope key f = resolver.convert scope key type f := by
  cases f with
  | mk name raw children =>
    rw [resolve, convert, ht]
    rfl

/-- An instance that a fragment stands for is made as the type that its name stands for. -/
theorem madeAs_of_resolve {f : Fragment} {log : ReadLog}
    (h : (resolver.resolve scope key f log).1 = .ok v) (hv : v.isGeneric = false) :
    ∃ type, resolver.qualify scope f.name = some type ∧ resolver.MadeAs scope key type f v := by
  cases ht : resolver.qualify scope f.name with
  | some type =>
    rw [resolve_eq_convert ht] at h
    exact ⟨type, rfl, madeAs_of_convert h hv⟩
  | none =>
    cases f with
    | mk name raw children =>
      rw [resolve_of_none (by rw [typeOf?, ht]; rfl)] at h
      cases h
      cases hv

/-- Each of several values comes of one of the fragments. -/
theorem exists_of_mapM {α β : Type} {f : α → ReadM β} (hf : ∀ a, Steady (f a)) {as : List α}
    {bs : List β} {log : ReadLog} (h : (as.mapM f log).1 = .ok bs) :
    ∀ b ∈ bs, ∃ a ∈ as, (f a {}).1 = .ok b := by
  induction as generalizing bs log with
  | nil =>
    cases h
    nofun
  | cons a as ih =>
    rw [List.mapM_cons] at h
    obtain ⟨b, middle, hb, hrest⟩ := exists_of_bind_ok (Prod.ext h rfl)
    obtain ⟨rest, next, hrest, hend⟩ := exists_of_bind_ok hrest
    cases hend
    intro c hc
    rcases List.mem_cons.mp hc with rfl | hc
    · refine ⟨a, by simp, ?_⟩
      rw [← hf a log, hb]
    · obtain ⟨d, hd, hfound⟩ := ih (congrArg Prod.fst hrest) c hc
      exact ⟨d, by simp [hd], hfound⟩

end DocAnnotations.Resolver
