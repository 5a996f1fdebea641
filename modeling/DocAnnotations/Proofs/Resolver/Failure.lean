import DocAnnotations.Proofs.Argument.Digits
import DocAnnotations.Proofs.Resolver.Log

/-! Which errors stop the resolving of a fragment, and what stands in the place of the others. -/
namespace DocAnnotations.Resolver

open Argument

theorem error_of_attributesOf {schema : Schema} {raw : String} {stop : Abort}
    (hd : WithinDigits raw) (h : attributesOf schema raw = .error stop) :
    ∃ e, stop = .error e ∧ e.privileged = false := by
  unfold attributesOf at h
  cases ha : attributes raw with
  | error other => rw [ha] at h; cases h; exact error_of_attributes hd ha
  | ok attributes =>
    rw [ha] at h
    simp only [bind, Except.bind, pure, Except.pure] at h
    split at h
    next => cases h
    next => cases h
    next field _ _ =>
      split at h
      next => cases h
      next =>
        cases hp : positional raw with
        | error other => rw [hp] at h; cases h; exact error_of_positional hd hp
        | ok v => rw [hp] at h; cases v <;> cases h

theorem error_of_hydrateSchema {schema : Schema} {host : String} {attributes : Entries Value}
    {e : ReadError} (h : hydrateSchema schema host attributes = .error e) :
    e.privileged = schema.privileged := by
  unfold hydrateSchema at h
  split at h
  next => cases h; rfl
  next =>
    split at h
    next => cases h
    next => cases h; rfl

/-- From every log, `x` stops with the first of these errors that is privileged, and else gives
`v`. The last of the errors that came up is remembered. -/
structure Reports {α : Type} (x : ReadM α) (errors : List ReadError) (v : α) : Prop where
  stops : ∀ e, errors.find? (·.privileged) = some e → ∀ log, ∃ next,
    x log = (.error (.error e), next) ∧ next.lastError = some e
  answers : errors.find? (·.privileged) = none → ∀ log, ∃ next,
    x log = (.ok v, next) ∧ next.lastError = errors.getLast?.or log.lastError

namespace Reports

variable {α β : Type} {x : ReadM α} {k : α → ReadM β} {errors more : List ReadError} {v : α} {w : β}

theorem pure (v : α) : Reports (Pure.pure v) [] v where
  stops _ h := by cases h
  answers _ log := ⟨log, rfl, rfl⟩

theorem bind_stops (hx : Reports x errors v) {e : ReadError}
    (h : errors.find? (·.privileged) = some e) : Reports (x >>= k) errors w where
  stops e' he' log := by
    obtain ⟨next, hrun, hlast⟩ := hx.stops e' he' log
    exact ⟨next, bind_of_error hrun, hlast⟩
  answers hn := by rw [h] at hn; cases hn

theorem bind (hx : Reports x errors v) (hk : Reports (k v) more w) :
    Reports (x >>= k) (errors ++ more) w where
  stops e he log := by
    rw [List.find?_append] at he
    cases hf : errors.find? (·.privileged) with
    | some first =>
      rw [hf] at he
      cases he
      exact (hx.bind_stops (w := w) hf).stops e hf log
    | none =>
      rw [hf] at he
      obtain ⟨middle, hrun, -⟩ := hx.answers hf log
      obtain ⟨next, hrun', hlast⟩ := hk.stops e he middle
      exact ⟨next, (bind_of_ok hrun).trans hrun', hlast⟩
  answers hn log := by
    rw [List.find?_append, Option.or_eq_none_iff] at hn
    obtain ⟨middle, hrun, hmiddle⟩ := hx.answers hn.1 log
    obtain ⟨next, hrun', hlast⟩ := hk.answers hn.2 middle
    refine ⟨next, (bind_of_ok hrun).trans hrun', ?_⟩
    rw [hlast, hmiddle, List.getLast?_append, Option.or_assoc]

end Reports

/-- What an argument text comes to as an instance of a type, with the values of the children. -/
def attempt (resolver : Resolver) (scope : Option NameScope) (key : DeclarationKey)
    (schema : Schema) (raw : String) (children : List Value) : Except Abort Value := do
  let attributes ← attributesOf schema raw
  (resolver.hydrate schema scope (some key) (placeholders children) attributes {}).1

/-- An error as it is remembered: privileged if its type is. -/
def blamed (schema : Schema) (e : ReadError) : ReadError :=
  { e with privileged := schema.privileged }

variable {resolver : Resolver} {scope : Option NameScope} {key : DeclarationKey} {schema : Schema}
  {name raw : String} {values : List Value}

theorem fallBack_apply {e : ReadError} (he : (e.privileged || schema.privileged) = schema.privileged)
    (log : ReadLog) : fallBack schema scope key name raw e log =
      (if schema.privileged then .error (.error (blamed schema e))
        else .ok (keep scope (some key) name raw),
       { log with lastError := some (blamed schema e) }) := by
  unfold fallBack
  dsimp only
  rw [he, bind_of_ok (modify_apply _ log)]
  cases hp : schema.privileged <;> simp [blamed, hp] <;> rfl

theorem settle_of_ok {v : Value} (h : resolver.attempt scope key schema raw values = .ok v)
    (log : ReadLog) : ∃ next, resolver.settle scope key schema name raw values log = (.ok v, next) ∧
      next.lastError = log.lastError := by
  unfold attempt at h
  unfold settle
  cases ha : attributesOf schema raw with
  | error stop => rw [ha] at h; cases h
  | ok attributes =>
    simp only [ha, bind, Except.bind, hydrate_apply] at h ⊢
    split at h
    next => cases h; exact ⟨_, rfl, rfl⟩
    next => cases h

theorem settle_of_error (name : String) {e : ReadError} (hd : WithinDigits raw)
    (h : resolver.attempt scope key schema raw values = .error (.error e)) (log : ReadLog) :
    ∃ next, resolver.settle scope key schema name raw values log =
        (if schema.privileged then .error (.error (blamed schema e))
          else .ok (keep scope (some key) name raw), next) ∧
      next.lastError = some (blamed schema e) := by
  unfold attempt at h
  unfold settle
  cases ha : attributesOf schema raw with
  | error stop =>
    rw [ha] at h
    cases h
    obtain ⟨e', he, hp⟩ := error_of_attributesOf hd ha
    cases he
    exact ⟨_, fallBack_apply (by simp [hp]) log, rfl⟩
  | ok attributes =>
    simp only [ha, bind, Except.bind, hydrate_apply] at h ⊢
    split at h
    next => cases h
    next e' he =>
      cases h
      exact ⟨_, fallBack_apply (by simp [error_of_hydrateSchema he]) _, rfl⟩

theorem error_of_attempt {stop : Abort} (hd : WithinDigits raw)
    (h : resolver.attempt scope key schema raw values = .error stop) : ∃ e, stop = .error e := by
  unfold attempt at h
  cases ha : attributesOf schema raw with
  | error other =>
    rw [ha] at h
    cases h
    exact (error_of_attributesOf hd ha).imp fun _ he => he.1
  | ok attributes =>
    simp only [ha, bind, Except.bind, hydrate_apply] at h
    split at h
    next => cases h
    next e _ => cases h; exact ⟨e, rfl⟩

/-- The errors of an instance that cannot be made, and what is there instead. -/
theorem settle_reports (resolver : Resolver) (scope : Option NameScope) (key : DeclarationKey)
    (schema : Schema) (name : String) (values : List Value) (hd : WithinDigits raw) :
    match resolver.attempt scope key schema raw values with
    | .ok v => Reports (resolver.settle scope key schema name raw values) [] v
    | .error (.error e) =>
      Reports (resolver.settle scope key schema name raw values) [blamed schema e]
        (keep scope (some key) name raw)
    | .error _ => False := by
  cases h : resolver.attempt scope key schema raw values with
  | ok v => exact ⟨nofun, fun _ log => settle_of_ok h log⟩
  | error stop =>
    obtain ⟨e, rfl⟩ := error_of_attempt hd h
    refine ⟨fun e' he log => ?_, fun hn log => ?_⟩
    · obtain ⟨hp, rfl⟩ : schema.privileged = true ∧ blamed schema e = e' := by
        simpa [blamed] using he
      simpa [hp] using settle_of_error name hd h log
    · have hp : schema.privileged = false := by simpa [blamed] using hn
      simpa [hp] using settle_of_error name hd h log

/-- The error of a fragment of a known type that cannot be made with its children. -/
def failure? (resolver : Resolver) (scope : Option NameScope) (key : DeclarationKey)
    (f : Fragment) : Option ReadError :=
  match resolver.typeOf? scope f.name, (resolver.resolveAll scope key f.children {}).1 with
  | some schema, .ok values =>
    match resolver.attempt scope key schema f.raw values with
    | .error (.error e) => some (blamed schema e)
    | _ => none
  | _, _ => none

/-- The errors of the reached fragments in the order in which they come up. -/
def errorsOf (resolver : Resolver) (scope : Option NameScope) (key : DeclarationKey)
    (f : Fragment) : List ReadError :=
  (evaluated resolver scope f).filterMap (resolver.failure? scope key)

def errorsOfAll (resolver : Resolver) (scope : Option NameScope) (key : DeclarationKey)
    (fs : List Fragment) : List ReadError :=
  (evaluatedAll resolver scope fs).filterMap (resolver.failure? scope key)

variable {children : List Fragment}

theorem errorsOf_of_none (ht : resolver.typeOf? scope name = none) :
    resolver.errorsOf scope key ⟨name, raw, children⟩ = [] := by
  simp [errorsOf, evaluated, failure?, ht]

theorem errorsOf_of_some (ht : resolver.typeOf? scope name = some schema) :
    resolver.errorsOf scope key ⟨name, raw, children⟩ = resolver.errorsOfAll scope key children ++
      (resolver.failure? scope key ⟨name, raw, children⟩).toList := by
  simp only [errorsOf, errorsOfAll, evaluated, ht, List.filterMap_append, List.filterMap_cons,
    List.filterMap_nil]
  cases resolver.failure? scope key ⟨name, raw, children⟩ <;> rfl

theorem resolve_of_none (ht : resolver.typeOf? scope name = none) :
    resolver.resolve scope key ⟨name, raw, children⟩ = pure (keep scope (some key) name raw) := by
  rw [typeOf?] at ht
  simp only [resolve, ht]

theorem resolve_of_some (ht : resolver.typeOf? scope name = some schema) :
    resolver.resolve scope key ⟨name, raw, children⟩ = (do
      let values ← resolver.resolveAll scope key children
      resolver.settle scope key schema name raw values) := by
  rw [typeOf?] at ht
  simp only [resolve, ht]

theorem reports_resolveAll {fs : List Fragment}
    (h : ∀ f ∈ fs, ∃ v, Reports (resolver.resolve scope key f) (resolver.errorsOf scope key f) v) :
    ∃ vs, Reports (resolver.resolveAll scope key fs) (resolver.errorsOfAll scope key fs) vs := by
  induction fs with
  | nil => exact ⟨[], .pure []⟩
  | cons f rest ih =>
    obtain ⟨v, hv⟩ := h f (by simp)
    obtain ⟨vs, hvs⟩ := ih fun g hg => h g (by simp [hg])
    refine ⟨v :: vs, ?_⟩
    have hall : resolver.errorsOfAll scope key (f :: rest) =
        resolver.errorsOf scope key f ++ (resolver.errorsOfAll scope key rest ++ []) := by
      simp [errorsOf, errorsOfAll, evaluatedAll]
    rw [hall, resolveAll]
    exact hv.bind (hvs.bind (.pure _))

/-- Resolving reports the errors of the reached fragments and nothing else. -/
theorem reports_resolve (key : DeclarationKey) (f : Fragment)
    (hd : ∀ g ∈ evaluated resolver scope f, WithinDigits g.raw) :
    ∃ v, Reports (resolver.resolve scope key f) (resolver.errorsOf scope key f) v := by
  induction f with
  | mk name raw children ih =>
    cases ht : resolver.typeOf? scope name with
    | none =>
      rw [errorsOf_of_none ht, resolve_of_none ht]
      exact ⟨_, .pure _⟩
    | some schema =>
      have hmem {g : Fragment} : g ∈ evaluated resolver scope ⟨name, raw, children⟩ ↔ _ :=
        mem_evaluated_mk
      obtain ⟨values, hv⟩ := reports_resolveAll fun c hc => ih c hc fun g hg =>
        hd g (hmem.mpr (.inr ⟨by simp [ht], c, hc, hg⟩))
      rw [errorsOf_of_some ht, resolve_of_some ht]
      cases hp : (resolver.errorsOfAll scope key children).find? (·.privileged) with
      | some e =>
        obtain ⟨next, hrun, -⟩ := hv.stops e hp {}
        have hf : resolver.failure? scope key ⟨name, raw, children⟩ = none := by
          simp [failure?, ht, hrun]
        rw [hf, Option.toList_none, List.append_nil]
        exact ⟨default, hv.bind_stops hp⟩
      | none =>
        obtain ⟨next, hrun, -⟩ := hv.answers hp {}
        have hs := resolver.settle_reports scope key schema name values
          (hd _ (hmem.mpr (.inl rfl)))
        simp only [failure?, ht, hrun]
        cases ha : resolver.attempt scope key schema raw values with
        | ok v => rw [ha] at hs; exact ⟨v, hv.bind hs⟩
        | error stop =>
          rw [ha] at hs
          cases stop with
          | error e => exact ⟨_, hv.bind hs⟩
          | oversizedInteger | unfinishedStatement => exact hs.elim

theorem mem_errorsOfAll {fs : List Fragment} {e : ReadError} :
    e ∈ resolver.errorsOfAll scope key fs ↔ ∃ c ∈ fs, e ∈ resolver.errorsOf scope key c := by
  simp only [errorsOfAll, errorsOf, List.mem_filterMap, mem_evaluatedAll]
  grind

/-- What resolving a fragment gives, whatever was read before. -/
def HasValue (resolver : Resolver) (scope : Option NameScope) (key : DeclarationKey)
    (f : Fragment) (v : Value) : Prop :=
  ∀ log, (resolver.resolve scope key f log).1 = .ok v

theorem resolveAll_of_hasValue {fs : List Fragment} {vs : List Value}
    (h : List.Forall₂ (resolver.HasValue scope key) fs vs) (log : ReadLog) :
    (resolver.resolveAll scope key fs log).1 = .ok vs := by
  induction h generalizing log with
  | nil => rfl
  | @cons f v rest vs hf _ ih =>
    obtain ⟨middle, hmiddle⟩ : ∃ middle, resolver.resolve scope key f log = (.ok v, middle) :=
      ⟨_, Prod.ext (hf log) rfl⟩
    obtain ⟨next, hnext⟩ : ∃ next, resolver.resolveAll scope key rest middle = (.ok vs, next) :=
      ⟨_, Prod.ext (ih middle) rfl⟩
    rw [resolveAll, bind_of_ok hmiddle, bind_of_ok hnext]
    rfl

theorem exists_resolveAll {fs : List Fragment} {vs : List Value}
    (h : List.Forall₂ (resolver.HasValue scope key) fs vs) (log : ReadLog) :
    ∃ next, resolver.resolveAll scope key fs log = (.ok vs, next) :=
  ⟨_, Prod.ext (resolveAll_of_hasValue h log) rfl⟩

/-- After its children, a fragment of a known type is settled with their values. -/
theorem exists_resolve_eq_settle (ht : resolver.typeOf? scope name = some schema)
    (h : List.Forall₂ (resolver.HasValue scope key) children values) (log : ReadLog) :
    ∃ middle, resolver.resolve scope key ⟨name, raw, children⟩ log =
      resolver.settle scope key schema name raw values middle := by
  obtain ⟨middle, hmiddle⟩ := exists_resolveAll h log
  refine ⟨middle, ?_⟩
  rw [resolve_of_some ht, bind_of_ok hmiddle]

theorem hasValue_of_settle (ht : resolver.typeOf? scope name = some schema)
    (h : List.Forall₂ (resolver.HasValue scope key) children values) {errors : List ReadError}
    {v : Value} (hs : Reports (resolver.settle scope key schema name raw values) errors v)
    (hq : errors.find? (·.privileged) = none) :
    resolver.HasValue scope key ⟨name, raw, children⟩ v := by
  intro log
  obtain ⟨middle, hmiddle⟩ := exists_resolve_eq_settle ht h log
  obtain ⟨next, hnext, -⟩ := hs.answers hq middle
  rw [hmiddle, hnext]

/-- Without privileged errors, each of several fragments has a value. -/
theorem exists_values_of_no_privileged {fs : List Fragment}
    (hd : ∀ f ∈ fs, ∀ g ∈ evaluated resolver scope f, WithinDigits g.raw)
    (hn : (resolver.errorsOfAll scope key fs).find? (·.privileged) = none) :
    ∃ values, List.Forall₂ (resolver.HasValue scope key) fs values := by
  have hvalue : ∀ f ∈ fs, ∃ v, resolver.HasValue scope key f v := fun f hf => by
    obtain ⟨v, hv⟩ := reports_resolve key f (hd f hf)
    have hquiet : (resolver.errorsOf scope key f).find? (·.privileged) = none :=
      List.find?_eq_none.mpr fun e he =>
        List.find?_eq_none.mp hn e (mem_errorsOfAll.mpr ⟨f, hf, he⟩)
    refine ⟨v, fun log => ?_⟩
    obtain ⟨next, hrun, -⟩ := hv.answers hquiet log
    rw [hrun]
  choose! valueOf hvalueOf using hvalue
  exact ⟨fs.map valueOf, List.forall₂_map_right_iff.mpr (List.forall₂_same.mpr hvalueOf)⟩

/-- Without privileged errors, a fragment of a known type hands its parent what can be made of it
with the values of its children, and otherwise the annotation kept as text. -/
theorem hasValue_of_no_privileged {f : Fragment} (ht : resolver.typeOf? scope f.name = some schema)
    (hd : ∀ g ∈ evaluated resolver scope f, WithinDigits g.raw)
    (hn : (resolver.errorsOf scope key f).find? (·.privileged) = none) :
    ∃ values, List.Forall₂ (resolver.HasValue scope key) f.children values ∧
      match resolver.failure? scope key f with
      | none => ∃ v, resolver.attempt scope key schema f.raw values = .ok v ∧
          resolver.HasValue scope key f v
      | some _ => resolver.HasValue scope key f (keep scope (some key) f.name f.raw) := by
  obtain ⟨name, raw, children⟩ := f
  dsimp only at ht ⊢
  rw [errorsOf_of_some ht, List.find?_append, Option.or_eq_none_iff] at hn
  obtain ⟨values, hvalues⟩ := exists_values_of_no_privileged (fun c hc g hg =>
    hd g (mem_evaluated_mk.mpr (.inr ⟨by simp [ht], c, hc, hg⟩))) hn.1
  refine ⟨values, hvalues, ?_⟩
  have hs := resolver.settle_reports scope key schema name values
    (hd _ (mem_evaluated_mk.mpr (.inl rfl)))
  have hfail : resolver.failure? scope key ⟨name, raw, children⟩ =
      match resolver.attempt scope key schema raw values with
      | .error (.error e) => some (blamed schema e)
      | _ => none := by
    simp only [failure?, ht, resolveAll_of_hasValue hvalues {}]
  have hquiet := hn.2
  rw [hfail] at hquiet ⊢
  cases ha : resolver.attempt scope key schema raw values with
  | ok v =>
    rw [ha] at hs
    exact ⟨v, rfl, hasValue_of_settle ht hvalues hs rfl⟩
  | error stop =>
    rw [ha] at hs hquiet
    cases stop with
    | error e => exact hasValue_of_settle ht hvalues hs hquiet
    | oversizedInteger | unfinishedStatement => exact hs.elim

theorem privileged_of_failure? {f : Fragment} {e : ReadError}
    (h : resolver.failure? scope key f = some e) :
    ∃ schema, resolver.typeOf? scope f.name = some schema ∧ e.privileged = schema.privileged := by
  unfold failure? at h
  split at h
  next schema values ht hv =>
    split at h
    next => cases h; exact ⟨schema, ht, rfl⟩
    next => cases h
  next => cases h

/-- A reached fragment of a privileged type fails. -/
def PrivilegedFailure (resolver : Resolver) (scope : Option NameScope) (key : DeclarationKey)
    (root : Fragment) : Prop :=
  ∃ f schema, Reached resolver scope root f ∧ resolver.typeOf? scope f.name = some schema ∧
    schema.privileged = true ∧ (resolver.failure? scope key f).isSome

theorem find?_errorsOf_eq_none_iff {root : Fragment} :
    (resolver.errorsOf scope key root).find? (·.privileged) = none ↔
      ¬ PrivilegedFailure resolver scope key root := by
  rw [List.find?_eq_none]
  constructor
  · rintro hn ⟨f, schema, hr, ht, hp, hf⟩
    obtain ⟨e, he⟩ := Option.isSome_iff_exists.mp hf
    obtain ⟨other, ho, hpe⟩ := privileged_of_failure? he
    obtain rfl := Option.some.inj (ht.symm.trans ho)
    exact hn e (List.mem_filterMap.mpr ⟨f, mem_evaluated_iff.mpr hr, he⟩) (hpe.trans hp)
  · intro hn e he hp
    obtain ⟨f, hf, hfail⟩ := List.mem_filterMap.mp he
    obtain ⟨schema, ht, hpe⟩ := privileged_of_failure? hfail
    exact hn ⟨f, schema, mem_evaluated_iff.mp hf, ht, hpe.symm.trans hp, by simp [hfail]⟩

/-- Only failures of privileged types stop the resolving of a fragment. Otherwise every reached
fragment of a known type is made with the values of its children, or kept as text if it fails, and
the last failure is remembered. -/
theorem resolve_failure_policy (key : DeclarationKey) {root : Fragment}
    (hd : ∀ f, Reached resolver scope root f → WithinDigits f.raw) (log : ReadLog) :
    let result := (resolver.resolve scope key root log).1
    let lastError := (resolver.resolve scope key root log).2.lastError
    ((∃ stop, result = .error stop) ↔ PrivilegedFailure resolver scope key root) ∧
      (∀ stop, result = .error stop →
        ∃ e, stop = .error e ∧ e.privileged = true ∧ lastError = some e) ∧
      (∀ v, result = .ok v →
        lastError = (resolver.errorsOf scope key root).getLast?.or log.lastError ∧
        ∀ f schema, Reached resolver scope root f → resolver.typeOf? scope f.name = some schema →
          ∃ values, List.Forall₂ (resolver.HasValue scope key) f.children values ∧
            match resolver.failure? scope key f with
            | none => ∃ w, resolver.attempt scope key schema f.raw values = .ok w ∧
                resolver.HasValue scope key f w
            | some _ => resolver.HasValue scope key f (keep scope (some key) f.name f.raw)) := by
  have hd' : ∀ f ∈ evaluated resolver scope root, WithinDigits f.raw :=
    fun f hf => hd f (mem_evaluated_iff.mp hf)
  obtain ⟨v, hv⟩ := reports_resolve key root hd'
  cases hp : (resolver.errorsOf scope key root).find? (·.privileged) with
  | some e =>
    obtain ⟨next, hrun, hlast⟩ := hv.stops e hp log
    have hpe : e.privileged = true := by simpa using List.find?_some hp
    have hfail : PrivilegedFailure resolver scope key root := by
      by_contra hn
      rw [find?_errorsOf_eq_none_iff.mpr hn] at hp
      cases hp
    simp only [hrun]
    refine ⟨⟨fun _ => hfail, fun _ => ⟨_, rfl⟩⟩, fun stop hstop => ?_, nofun⟩
    cases hstop
    exact ⟨e, rfl, hpe, hlast⟩
  | none =>
    obtain ⟨next, hrun, hlast⟩ := hv.answers hp log
    simp only [hrun]
    refine ⟨⟨nofun, fun h => absurd h (find?_errorsOf_eq_none_iff.mp hp)⟩, nofun, fun w _ => ?_⟩
    refine ⟨hlast, fun f schema hr ht => hasValue_of_no_privileged ht (fun g hg => ?_) ?_⟩
    · exact hd g (hr.trans (mem_evaluated_iff.mp hg))
    · rw [find?_errorsOf_eq_none_iff] at hp ⊢
      exact fun ⟨g, other, hg, h⟩ => hp ⟨g, other, hr.trans hg, h⟩

/-- A privileged type below an ordinary one, with an argument list that is not closed. -/
theorem resolve_failure_policy_unclosed :
    let note : Schema := ⟨"Note", Factory.model "Note" [⟨"text", .text, none⟩], ["text"], ["text"],
      [], none, false⟩
    let resolver : Resolver :=
      { registry := ⟨[("Note", note), ("Table", { note with name := "Table", privileged := true })]⟩ }
    let root : Fragment := ⟨"Note", "(text=12, by=_child_0)", [⟨"Table", "(text=", []⟩]⟩
    let run := resolver.resolve none { className := "Host" } root {}
    (∀ f, Reached resolver none root f → WithinDigits f.raw) ∧
      ∃ e, run.1 = .error (.error e) ∧ e.privileged = true ∧ run.2.lastError = some e := by
  intro note resolver root run
  have hd : ∀ f, Reached resolver none root f → WithinDigits f.raw := by
    intro f hf
    obtain rfl | rfl : f = root ∨ f = ⟨"Table", "(text=", []⟩ := by
      obtain rfl | ⟨-, c, hc, hf⟩ := hf.eq_or_head
      · exact .inl rfl
      · obtain rfl := List.mem_singleton.mp hc
        obtain rfl | ⟨-, d, hd, -⟩ := hf.eq_or_head
        · exact .inr rfl
        · cases hd
    · have hlex : Token.lex (Text.trim root.raw.toList) = .ok [.punct '(', .word "text", .punct '=',
          .word "12", .punct ',', .word "by", .punct '=', .word "_child_0", .punct ')'] := by
        decide
      exact withinDigits_of_lex hlex (by decide)
    · have hlex : Token.lex (Text.trim "(text=".toList) = .ok [.punct '(', .word "text",
          .punct '='] := by decide
      exact withinDigits_of_lex hlex (by decide +kernel)
  obtain ⟨hstops, herror, -⟩ := resolve_failure_policy { className := "Host" } hd {}
  have htable : resolver.typeOf? none "Table" =
      some { note with name := "Table", privileged := true } := rfl
  have hfail : PrivilegedFailure resolver none { className := "Host" } root :=
    ⟨⟨"Table", "(text=", []⟩, { note with name := "Table", privileged := true },
      .child .root (by decide) (List.mem_singleton.mpr rfl), htable, rfl,
      by decide +kernel⟩
  obtain ⟨stop, hstop⟩ := hstops.mpr hfail
  obtain ⟨e, rfl, hp, hlast⟩ := herror stop hstop
  exact ⟨hd, e, hstop, hp, hlast⟩

end DocAnnotations.Resolver
