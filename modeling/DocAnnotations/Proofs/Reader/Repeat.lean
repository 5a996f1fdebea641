import DocAnnotations.Proofs.Reader.Inheritance
import DocAnnotations.Proofs.Reader.Shield

/-! A look-up that is made again gives the same, and remembers the same error unless the first one
has kept annotations. -/
namespace DocAnnotations.Reader

variable {α β : Type} {reader current next later : Reader} {cls : SourceClass}
  {key : DeclarationKey} {scope : NameScope} {groups : AnnotationGroups}

/-- Names mean the same for the later reader, it has the same settings, and it keeps the alias
tables that were found. -/
structure Later (reader later : Reader) : Prop where
  index : later.index = reader.index
  resolver : later.resolver = reader.resolver
  throwAll : later.throwAll = reader.throwAll
  throwPrivileged : later.throwPrivileged = reader.throwPrivileged
  tables : ∀ name table, reader.aliasTables.get? name = some table →
    later.aliasTables.get? name = some table

namespace Later

theorem refl (reader : Reader) : Later reader reader :=
  ⟨rfl, rfl, rfl, rfl, fun _ _ h => h⟩

theorem trans (h : Later reader current) (hl : Later current later) : Later reader later where
  index := hl.index.trans h.index
  resolver := hl.resolver.trans h.resolver
  throwAll := hl.throwAll.trans h.throwAll
  throwPrivileged := hl.throwPrivileged.trans h.throwPrivileged
  tables name table ht := hl.tables name table (h.tables name table ht)

variable {log : ReadLog} {fragments : FragmentCache} {annotations : AnnotationCache}

/-- What else a reader keeps does not count. -/
theorem keeping (h : Later reader later) :
    Later reader { later with log, fragments, annotations } :=
  ⟨h.index, h.resolver, h.throwAll, h.throwPrivileged, h.tables⟩

theorem of_keeping (h : Later { reader with log, fragments, annotations } later) :
    Later reader later :=
  ⟨h.index, h.resolver, h.throwAll, h.throwPrivileged, h.tables⟩

theorem surfaces_eq (h : Later reader later) (e : ReadError) :
    later.surfaces e = reader.surfaces e := by
  rw [surfaces, surfaces, h.throwAll, h.throwPrivileged]

end Later

/-- `x` changes nothing but the alias tables, and run again later it comes to the same without a
change. After an error this is so as long as no more tables are found. -/
def Repeatable (x : ReaderM α) : Prop :=
  ∀ ⦃reader next : Reader⦄ ⦃result : Except Abort α⦄, x reader = (result, next) →
    next = reader.withTables next.aliasTables ∧ Later reader next ∧
    ∀ later, Later next later →
      ((∃ a, result = .ok a) ∨ later.aliasTables = next.aliasTables) → x later = (result, later)

namespace Repeatable

theorem pure (a : α) : Repeatable (Pure.pure a) := by
  intro reader next result h
  cases h
  exact ⟨rfl, .refl reader, fun _ _ _ => rfl⟩

theorem fail (cause : ErrorCause) : Repeatable (Reader.fail cause : ReaderM α) := by
  intro reader next result h
  cases h
  exact ⟨rfl, .refl reader, fun _ _ _ => rfl⟩

theorem bind {x : ReaderM α} {k : α → ReaderM β} (hx : Repeatable x) (hk : ∀ a, Repeatable (k a)) :
    Repeatable (x >>= k) := by
  intro reader next result h
  rw [bind_apply] at h
  cases hr : x reader with
  | mk first middle =>
    rw [hr] at h
    obtain ⟨htables, hlater, hagain⟩ := hx hr
    cases first with
    | error stop =>
      cases h
      refine ⟨htables, hlater, fun later hl hok => bind_of_error ?_⟩
      rcases hok with ⟨a, ha⟩ | hsame
      · cases ha
      · exact hagain later hl (.inr hsame)
    | ok a =>
      obtain ⟨htables', hlater', hagain'⟩ := hk a h
      refine ⟨?_, hlater.trans hlater', fun later hl hok => ?_⟩
      · rw [htables', htables]
        rfl
      · rw [bind_of_ok (hagain later (hlater'.trans hl) (.inl ⟨a, rfl⟩))]
        exact hagain' later hl hok

/-- What follows the reading of the reader must make the same of every reader for which names mean
the same. -/
theorem get_bind {k : Reader → ReaderM β} (hk : ∀ reader, Repeatable (k reader))
    (hsame : ∀ {reader later : Reader}, Later reader later → k later = k reader) :
    Repeatable (MonadState.get >>= k) := by
  intro reader next result h
  rw [get_bind_apply] at h
  obtain ⟨htables, hlater, hagain⟩ := hk reader h
  refine ⟨htables, hlater, fun later hl hok => ?_⟩
  rw [get_bind_apply, hsame (hlater.trans hl)]
  exact hagain later hl hok

end Repeatable

theorem hostClass_repeatable (name : String) : Repeatable (hostClass name) := by
  refine .get_bind (fun reader => ?_) fun h => by rw [h.index]
  split
  next cls _ => exact .pure cls
  next => exact .fail _

theorem declaringClass_repeatable (key : DeclarationKey) : Repeatable (declaringClass key) := by
  refine (hostClass_repeatable _).bind fun cls => ?_
  split
  next => exact (Repeatable.fail _).bind fun _ => .pure cls
  next => exact .pure cls

theorem Later.isKnown_eq (h : Later reader later) : later.isKnown = reader.isKnown := by
  funext name
  rw [isKnown, isKnown, h.index, h.resolver]

theorem Later.computeTable_eq (h : Later reader later) (cls : SourceClass) :
    later.computeTable cls = reader.computeTable cls := by
  rw [computeTable, computeTable, h.index, h.isKnown_eq]

/-- The table of a class is kept once it is found. If it cannot be found, nothing is kept. -/
theorem scopeOf_repeatable (cls : SourceClass) : Repeatable (scopeOf cls) := by
  intro reader next result h
  have hfound {reader : Reader} {table : AliasTable}
      (ht : reader.aliasTables.get? cls.qualifiedName = some table) :
      scopeOf cls reader = (.ok ⟨table, reader.isKnown⟩, reader) := by
    unfold scopeOf
    rw [get_bind_apply, ht]
    rfl
  have hunfound {reader : Reader} (ht : reader.aliasTables.get? cls.qualifiedName = none) :
      scopeOf cls reader = match reader.computeTable cls with
        | .ok table => (.ok ⟨table, reader.isKnown⟩,
            reader.withTables (reader.aliasTables.insert cls.qualifiedName table))
        | .error stop => (.error stop, reader) := by
    unfold scopeOf
    rw [get_bind_apply, ht]
    cases reader.computeTable cls <;> rfl
  cases ht : reader.aliasTables.get? cls.qualifiedName with
  | some table =>
    rw [hfound ht] at h
    cases h
    refine ⟨rfl, .refl reader, fun later hl _ => ?_⟩
    rw [hfound (hl.tables _ _ ht), hl.isKnown_eq]
  | none =>
    rw [hunfound ht] at h
    cases hc : reader.computeTable cls with
    | ok table =>
      rw [hc] at h
      cases h
      have hkept : Later reader
          (reader.withTables (reader.aliasTables.insert cls.qualifiedName table)) := by
        refine ⟨rfl, rfl, rfl, rfl, fun name other hother => ?_⟩
        have hne : cls.qualifiedName ≠ name := by
          rintro rfl
          rw [ht] at hother
          cases hother
        rw [withTables, Entries.get?_insert, if_neg hne, hother]
      refine ⟨rfl, hkept, fun later hl _ => ?_⟩
      have htable : (reader.withTables (reader.aliasTables.insert cls.qualifiedName table)
          ).aliasTables.get? cls.qualifiedName = some table := by
        rw [withTables, Entries.get?_insert, if_pos rfl]
      rw [hfound (hl.tables _ _ htable), (hkept.trans hl).isKnown_eq]
    | error stop =>
      rw [hc] at h
      cases h
      refine ⟨rfl, .refl reader, fun later hl hok => ?_⟩
      rcases hok with ⟨a, ha⟩ | hsame
      · cases ha
      · rw [hunfound (hsame ▸ ht), hl.computeTable_eq, hc]

theorem declaringAncestor_repeatable (kind : DeclarationKind) (name : String) (fuel : Nat)
    (cls : SourceClass) : Repeatable (declaringAncestor kind name fuel cls) := by
  induction fuel generalizing cls with
  | zero => exact .pure none
  | succ fuel ih =>
    unfold declaringAncestor
    split
    next => exact .pure _
    next =>
      split
      next => exact .pure none
      next => exact .pure none
      next written _ _ =>
        refine (scopeOf_repeatable cls).bind fun scope => ?_
        refine .get_bind (fun reader => ?_) fun h => by rw [h.index]
        split
        next => exact .pure none
        next parent _ => exact ih parent

/-- The reader with fragments that it keeps, and with more in its log. -/
def noting (reader : Reader) (fragments : FragmentCache) (last : Option ReadError)
    (attributes : List (AttributeKey × Entries Value)) : Reader :=
  { reader with
    fragments
    log := ⟨last.or reader.log.lastError, attributes ++ reader.log.attributes⟩ }

/-- The later reader resolves as the first one does, and has the fragments of the first one, or
those that were found since. -/
structure Resumes (reader : Reader) (found : FragmentCache) (later : Reader) : Prop where
  resolver : later.resolver = reader.resolver
  fragments : later.fragments = reader.fragments ∨ later.fragments = found

theorem Resumes.refl (reader : Reader) (found : FragmentCache) : Resumes reader found reader :=
  ⟨rfl, .inl rfl⟩

theorem Resumes.fragments_eq (h : Resumes reader reader.fragments later) :
    later.fragments = reader.fragments :=
  h.fragments.elim id id

theorem fragmentsOf_resumes (cls : SourceClass) (key : DeclarationKey) (scope : NameScope)
    (reader : Reader) : ∃ found, ∀ later, Resumes reader found later →
      fragmentsOf cls key scope later =
        (.ok (reader.keptFragments scope cls key), { later with fragments := found }) := by
  have hcached {later : Reader} {fragments : List Fragment}
      (hf : cached? later.fragments cls.qualifiedName key.itemName = some fragments) :
      fragmentsOf cls key scope later = (.ok fragments, later) := by
    unfold fragmentsOf
    rw [get_bind_apply, hf]
    rfl
  unfold keptFragments
  cases hf : cached? reader.fragments cls.qualifiedName key.itemName with
  | some fragments =>
    refine ⟨reader.fragments, fun later h => ?_⟩
    rw [hcached (h.fragments_eq ▸ hf), ← h.fragments_eq]
    rfl
  | none =>
    refine ⟨store reader.fragments cls.qualifiedName key.itemName
      (computeFragments reader.resolver scope cls key), fun later h => ?_⟩
    rcases h.fragments with hfragments | hfragments
    · have hf' : cached? later.fragments cls.qualifiedName key.itemName = none := hfragments ▸ hf
      unfold fragmentsOf
      rw [get_bind_apply, hf', ← hfragments, ← h.resolver]
      rfl
    · rw [hcached (by rw [hfragments, cached?_store, if_pos ⟨rfl, rfl⟩]), ← hfragments]
      rfl

/-- What adds to the log only comes to the same from every reader. -/
theorem withLog_adds {x : ReadM α} (hx : Resolver.Adds x) :
    ∃ result last attributes, ∀ reader : Reader,
      withLog x reader = (result, reader.noting reader.fragments last attributes) := by
  obtain ⟨result, last, attributes, hx⟩ := hx
  refine ⟨result, last, attributes, fun reader => ?_⟩
  rw [withLog, hx]
  rfl

/-- Behind the fragments, an upgrade converts those that match. -/
theorem upgrade_apply {resolver : Resolver} {wanted : String} {found : FragmentCache}
    {fragments : List Fragment} (groups : AnnotationGroups) (hresolver : later.resolver = resolver)
    (hreg : resolver.registry.contains wanted = true)
    (hfound : fragmentsOf cls key scope later =
      (.ok fragments, { later with fragments := found })) :
    upgrade cls key scope groups wanted later =
      if matching scope fragments groups wanted = [] then
        (.ok .null, { later with fragments := found })
      else (do
        let values ← withLog ((matching scope fragments groups wanted).mapM
          (resolver.convert scope key wanted))
        if values.any Value.isGeneric then return .null
        modify fun r =>
          { r with
            annotations := store r.annotations cls.qualifiedName key.itemName
              (Entries.insert groups wanted values) }
        return AnnotationGroups.shown values : ReaderM Value)
          { later with fragments := found } := by
  subst hresolver
  unfold upgrade
  rw [get_bind_apply]
  dsimp only
  rw [if_neg (by simpa using hreg), bind_of_ok hfound]
  change (if (matching scope fragments groups wanted).isEmpty = true then _ else _ : ReaderM Value)
    _ = _
  by_cases hempty : matching scope fragments groups wanted = []
  · rw [if_pos hempty, if_pos (List.isEmpty_iff.mpr hempty)]
    rfl
  · rw [if_neg hempty, if_neg (mt List.isEmpty_iff.mp hempty)]
    rfl

/-- An upgrade is kept, or else it comes to the same again and adds the same to the log. -/
theorem upgrade_cases (cls : SourceClass) (key : DeclarationKey) (scope : NameScope)
    (groups : AnnotationGroups) (wanted : String) (reader : Reader) :
    ∃ found last attributes,
      (∃ result, ∀ later, Resumes reader found later → upgrade cls key scope groups wanted later =
        (result, later.noting found last attributes)) ∨
      ∃ values, upgrade cls key scope groups wanted reader = (.ok (AnnotationGroups.shown values),
        { reader.noting found last attributes with
          annotations := store reader.annotations cls.qualifiedName key.itemName
            (Entries.insert groups wanted values) }) := by
  by_cases hreg : reader.resolver.registry.contains wanted = true
  · obtain ⟨found, hfound⟩ := fragmentsOf_resumes cls key scope reader
    generalize reader.keptFragments scope cls key = fragments at hfound
    obtain ⟨result, last, attributes, hconvert⟩ :=
      withLog_adds (reader.resolver.adds_mapM_convert scope key wanted
        (matching scope fragments groups wanted))
    have hrun (later : Reader) (h : Resumes reader found later) :=
      upgrade_apply groups h.resolver hreg (hfound later h)
    by_cases hempty : matching scope fragments groups wanted = []
    · refine ⟨found, none, [], .inl ⟨.ok .null, fun later h => ?_⟩⟩
      rw [hrun later h, if_pos hempty]
      rfl
    · cases result with
      | error stop =>
        refine ⟨found, last, attributes, .inl ⟨.error stop, fun later h => ?_⟩⟩
        rw [hrun later h, if_neg hempty, bind_of_error (hconvert _)]
        rfl
      | ok values =>
        refine ⟨found, last, attributes, ?_⟩
        by_cases hgeneric : values.any Value.isGeneric = true
        · refine .inl ⟨.ok .null, fun later h => ?_⟩
          rw [hrun later h, if_neg hempty, bind_of_ok (hconvert _), if_pos hgeneric]
          rfl
        · refine .inr ⟨values, ?_⟩
          rw [hrun reader (.refl reader found), if_neg hempty, bind_of_ok (hconvert _),
            if_neg hgeneric]
          rfl
  · refine ⟨reader.fragments, none, [], .inl ⟨.ok .null, fun later h => ?_⟩⟩
    unfold upgrade
    rw [get_bind_apply, h.resolver, ← h.fragments_eq]
    dsimp only
    rw [if_pos (by simpa using hreg)]
    rfl

theorem groupsOf_of_cached (scope : NameScope)
    (hcached : cached? reader.annotations cls.qualifiedName key.itemName = some groups) :
    groupsOf cls key scope reader = (.ok groups, reader) := by
  unfold groupsOf
  rw [get_bind_apply, hcached]
  rfl

/-- Annotations that are not there yet are kept, or else finding them stops again and adds the same
to the log. -/
theorem groupsOf_cases (scope : NameScope)
    (hcached : cached? reader.annotations cls.qualifiedName key.itemName = none) :
    ∃ found last attributes,
      (∃ stop, ∀ later, Resumes reader found later →
        cached? later.annotations cls.qualifiedName key.itemName = none →
          groupsOf cls key scope later = (.error stop, later.noting found last attributes)) ∨
      ∃ groups, groupsOf cls key scope reader = (.ok groups,
        { reader.noting found last attributes with
          annotations := store reader.annotations cls.qualifiedName key.itemName groups }) := by
  obtain ⟨found, hfound⟩ := fragmentsOf_resumes cls key scope reader
  generalize reader.keptFragments scope cls key = fragments at hfound
  have hadds : Resolver.Adds (computeGroups reader.resolver scope key fragments) :=
    adds_computeGroups fragments
  obtain ⟨result, last, attributes, hcompute⟩ := withLog_adds hadds
  refine ⟨found, last, attributes, ?_⟩
  cases result with
  | error stop =>
    refine .inl ⟨stop, fun later h hnone => ?_⟩
    rw [← h.resolver] at hcompute
    unfold groupsOf
    rw [get_bind_apply, hnone]
    dsimp only
    rw [bind_of_ok (hfound later h), get_bind_apply, bind_of_error (hcompute _)]
    rfl
  | ok groups =>
    refine .inr ⟨groups, ?_⟩
    unfold groupsOf
    rw [get_bind_apply, hcached]
    dsimp only
    rw [bind_of_ok (hfound reader (.refl reader found)), get_bind_apply, bind_of_ok (hcompute _)]
    rfl

/-- What a look-up that is made again remembers: the same error, or none where annotations were kept
meanwhile. -/
def ReportedAgain (reader next : Reader) (log : ReadLog) : Prop :=
  log.lastError = next.log.lastError ∨ log.lastError = none ∧ next.annotations ≠ reader.annotations

/-- Begun without a last error, `x` comes to the same again, and if it does not stop, to the same
error or none. -/
def Recurs (x : ReaderM α) : Prop :=
  ∀ ⦃reader next : Reader⦄ ⦃result : Except Abort α⦄, reader.log.lastError = none →
    x reader = (result, next) → Later reader next ∧ ∀ log : ReadLog, log.lastError = none →
      ∃ log', x { next with log } = (result, { next with log := log' }) ∧
        ∀ a, result = .ok a → ReportedAgain reader next log'

/-- `k` has ended and left annotations of the declaration of which it makes the same again. -/
def Remade (cls : SourceClass) (key : DeclarationKey) (k : AnnotationGroups → ReaderM α)
    (reader next : Reader) (result : Except Abort α) : Prop :=
  Later reader next ∧ ∃ left, cached? next.annotations cls.qualifiedName key.itemName = some left ∧
    ∀ log : ReadLog, log.lastError = none →
      ∃ log', k left { next with log } = (result, { next with log := log' }) ∧
        (next.log.lastError = log'.lastError.or reader.log.lastError ∨
          log'.lastError = none ∧ next.annotations ≠ reader.annotations)

/-- Of the annotations of the declaration that it leaves behind, `k` makes the same that it made of
those that it was given. -/
def Remakes (cls : SourceClass) (key : DeclarationKey) (k : AnnotationGroups → ReaderM α) : Prop :=
  ∀ ⦃reader next : Reader⦄ ⦃groups : AnnotationGroups⦄ ⦃result : Except Abort α⦄,
    cached? reader.annotations cls.qualifiedName key.itemName = some groups →
    k groups reader = (result, next) → Remade cls key k reader next result

section Remade

variable {k : AnnotationGroups → ReaderM α} {a : α} {result : Except Abort α}
  (hcached : cached? reader.annotations cls.qualifiedName key.itemName = some groups)
include hcached

/-- What only adds to the log adds the same to it again. -/
theorem remade_of_noting {found : FragmentCache} {last : Option ReadError}
    {attributes : List (AttributeKey × Entries Value)}
    (hrun : ∀ later, Resumes reader found later →
      k groups later = (result, later.noting found last attributes))
    (h : k groups reader = (result, next)) : Remade cls key k reader next result := by
  rw [hrun reader (.refl reader found)] at h
  cases h
  refine ⟨(Later.refl reader).keeping, groups, hcached, fun log hlog => ?_⟩
  refine ⟨⟨last.or log.lastError, attributes ++ log.attributes⟩, hrun _ ⟨rfl, .inr rfl⟩, .inl ?_⟩
  rw [hlog, Option.or_none]
  rfl

theorem remade_of_pure (hrun : k groups = pure a) (h : k groups reader = (result, next)) :
    Remade cls key k reader next result := by
  rw [hrun] at h
  cases h
  have hnothing (later : Reader) (hl : Resumes reader reader.fragments later) :
      k groups later = (.ok a, later.noting reader.fragments none []) := by
    rw [hrun, ← hl.fragments_eq]
    rfl
  exact remade_of_noting hcached hnothing (by rw [hrun]; rfl)

/-- What is kept under the wanted name is found there. -/
theorem remade_of_kept {scope : NameScope} {wanted : String} {values : List Value}
    {found : FragmentCache} {last : Option ReadError}
    {attributes : List (AttributeKey × Entries Value)}
    (hn : groups.shown? (className wanted) = none) :
    Remade cls key (lookUp cls key scope · wanted) reader
      { reader.noting found last attributes with
        annotations := store reader.annotations cls.qualifiedName key.itemName
          (Entries.insert groups (className wanted) values) }
      (.ok (AnnotationGroups.shown values)) := by
  have hleft : cached? (store reader.annotations cls.qualifiedName key.itemName
      (Entries.insert groups (className wanted) values)) cls.qualifiedName key.itemName =
        some (Entries.insert groups (className wanted) values) := by
    rw [cached?_store, if_pos ⟨rfl, rfl⟩]
  have hshown : AnnotationGroups.shown? (Entries.insert groups (className wanted) values)
      (className wanted) = some (AnnotationGroups.shown values) := by
    rw [AnnotationGroups.shown?, Entries.get?_insert, if_pos rfl]
    rfl
  -- the annotations that were kept before have nothing under the wanted name
  have hchanged : store reader.annotations cls.qualifiedName key.itemName
      (Entries.insert groups (className wanted) values) ≠ reader.annotations := by
    intro hsame
    rw [hsame, hcached] at hleft
    rw [Option.some.inj hleft, hshown] at hn
    cases hn
  refine ⟨(Later.refl reader).keeping, _, hleft, fun log hlog => ?_⟩
  exact ⟨log, congrFun (lookUp_of_shown? hshown) _, .inr ⟨hlog, hchanged⟩⟩

end Remade

/-- What is read off the annotations can be read off again. -/
theorem pure_remakes (f : AnnotationGroups → α) : Remakes cls key fun groups => pure (f groups) :=
  fun _ _ _ _ hcached h => remade_of_pure hcached rfl h

theorem lookUp_remakes (cls : SourceClass) (key : DeclarationKey) (scope : NameScope)
    (wanted : String) : Remakes cls key (lookUp cls key scope · wanted) := by
  intro reader next groups result hcached h
  cases hn : groups.shown? (className wanted) with
  | some v => exact remade_of_pure hcached (lookUp_of_shown? hn) h
  | none =>
    cases hq : groups.shown? (QualifiedName.dropLeading (scope.find (className wanted))) with
    | some v => exact remade_of_pure hcached (lookUp_of_other hn hq) h
    | none =>
      have hrun : lookUp cls key scope groups wanted =
          upgrade cls key scope groups (className wanted) := lookUp_of_not_shown hn hq
      obtain ⟨found, last, attributes, ⟨made, hmade⟩ | ⟨values, hkept⟩⟩ :=
        upgrade_cases cls key scope groups (className wanted) reader
      · rw [← hrun] at hmade
        obtain rfl : made = result :=
          congrArg Prod.fst ((hmade reader (.refl reader found)).symm.trans h)
        exact remade_of_noting hcached hmade h
      · dsimp only at h
        rw [hrun, hkept] at h
        cases h
        exact remade_of_kept hcached hn

/-- The annotations of a declaration are found again as they were left behind. -/
theorem Remakes.recurs {k : AnnotationGroups → ReaderM α} (hk : Remakes cls key k)
    (scope : NameScope) : Recurs (groupsOf cls key scope >>= k) := by
  intro reader next result hlast h
  cases hcached : cached? reader.annotations cls.qualifiedName key.itemName with
  | some groups =>
    rw [bind_of_ok (groupsOf_of_cached scope hcached)] at h
    obtain ⟨hlater, left, hleft, hagain⟩ := hk hcached h
    refine ⟨hlater, fun log hlog => ?_⟩
    obtain ⟨log', hrun, hreport⟩ := hagain log hlog
    refine ⟨log', ?_, fun a ha => ?_⟩
    · refine (bind_of_ok ?_).trans hrun
      exact groupsOf_of_cached scope hleft
    · rw [hlast, Option.or_none] at hreport
      exact hreport.imp_left Eq.symm
  | none =>
    obtain ⟨found, last, attributes, ⟨stop, hstop⟩ | ⟨groups, hkept⟩⟩ :=
      groupsOf_cases scope hcached
    · rw [bind_of_error (hstop reader (.refl reader found) hcached)] at h
      cases h
      refine ⟨(Later.refl reader).keeping, fun log hlog => ?_⟩
      refine ⟨⟨last.or log.lastError, attributes ++ log.attributes⟩, ?_, nofun⟩
      exact bind_of_error (hstop _ ⟨rfl, .inr rfl⟩ hcached)
    · rw [bind_of_ok hkept] at h
      have hstored : cached? (store reader.annotations cls.qualifiedName key.itemName groups)
          cls.qualifiedName key.itemName = some groups := by
        rw [cached?_store, if_pos ⟨rfl, rfl⟩]
      obtain ⟨hlater, left, hleft, hagain⟩ := hk hstored h
      have hchanged : next.annotations ≠ reader.annotations := by
        intro hsame
        rw [hsame, hcached] at hleft
        cases hleft
      refine ⟨.of_keeping hlater, fun log hlog => ?_⟩
      obtain ⟨log', hrun, hreport⟩ := hagain log hlog
      refine ⟨log', ?_, fun a ha => ?_⟩
      · refine (bind_of_ok ?_).trans hrun
        exact groupsOf_of_cached scope hleft
      · cases hl : log'.lastError with
        | none => exact .inr ⟨hl, hchanged⟩
        | some e =>
          rcases hreport with hreport | ⟨hnone, -⟩
          · rw [ReportedAgain, hreport, hl]
            exact .inl rfl
          · rw [hl] at hnone
            cases hnone

/-- A walk in front may be repeated from whatever the rest leaves behind. -/
theorem Repeatable.bind_recurs {x : ReaderM α} {k : α → ReaderM β} (hx : Repeatable x)
    (hk : ∀ a, Recurs (k a)) : Recurs (x >>= k) := by
  intro reader next result hlast h
  rw [bind_apply] at h
  cases hr : x reader with
  | mk first middle =>
    rw [hr] at h
    obtain ⟨htables, hlater, hagain⟩ := hx hr
    cases first with
    | error stop =>
      cases h
      refine ⟨hlater, fun log hlog => ⟨log, ?_, nofun⟩⟩
      exact bind_of_error (hagain _ (Later.refl next).keeping (.inr rfl))
    | ok a =>
      have hmiddle : middle.log.lastError = none := by
        rw [htables]
        exact hlast
      have hannotations : middle.annotations = reader.annotations := by rw [htables]; rfl
      obtain ⟨hlater', hrest⟩ := hk a hmiddle h
      refine ⟨hlater.trans hlater', fun log hlog => ?_⟩
      obtain ⟨log', hrun, hreport⟩ := hrest log hlog
      refine ⟨log', ?_, fun b hb => ?_⟩
      · rw [bind_of_ok (hagain _ hlater'.keeping (.inl ⟨a, rfl⟩)), hrun]
      · have hreport := hreport b hb
        rwa [ReportedAgain, hannotations] at hreport

/-- Errors of a guarded look-up are remembered again. -/
structure Renews (x : ReaderM α) : Prop where
  fresh : ∀ reader : Reader, x reader.cleared = x reader
  again : ∀ ⦃reader next : Reader⦄ ⦃a : α⦄, x reader = (.ok a, next) → Later reader next ∧
    ∃ log, x next = (.ok a, { next with log }) ∧ ReportedAgain reader next log

/-- A guarded look-up gives what it finds, or nothing after an error that is not shown. -/
theorem guarded_cases {x : ReaderM α} {empty a : α} (h : guarded empty x reader = (.ok a, next)) :
    x reader.cleared = (.ok a, next) ∨ a = empty ∧ ∃ e middle,
      x reader.cleared = (.error (.error e), middle) ∧ middle.surfaces e = false ∧
        next = { middle with log.lastError := some e } := by
  unfold guarded at h
  split at h
  next e middle hx =>
    rw [Prod.mk.injEq] at h
    obtain ⟨hresult, rfl⟩ := h
    split at hresult
    next => cases hresult
    next hs =>
      cases hresult
      have hs : middle.surfaces e = false := Bool.eq_false_iff.mpr hs
      exact .inr ⟨rfl, e, middle, hx, hs, rfl⟩
  next hx => exact .inl h

theorem guarded_of_error {x : ReaderM α} {empty : α} {e : ReadError}
    (h : x reader.cleared = (.error (.error e), next)) (hs : next.surfaces e = false) :
    guarded empty x reader = (.ok empty, { next with log.lastError := some e }) := by
  have hs : ({ next with log.lastError := some e } : Reader).surfaces e = false := hs
  unfold cleared at h
  simp only [guarded, h, hs]
  rfl

theorem Recurs.renews {x : ReaderM α} (hx : Recurs x) (empty : α) : Renews (guarded empty x) := by
  refine ⟨fun reader => rfl, fun reader next a h => ?_⟩
  rcases guarded_cases h with hfound | ⟨rfl, e, middle, hstopped, hs, rfl⟩
  · obtain ⟨hlater, hagain⟩ := hx rfl hfound
    obtain ⟨log, hrun, hreport⟩ := hagain { next.log with lastError := none } rfl
    exact ⟨hlater.of_keeping, log, guarded_of_ok hrun, hreport a rfl⟩
  · obtain ⟨hlater, hagain⟩ := hx rfl hstopped
    obtain ⟨log, hrun, -⟩ := hagain { middle.log with lastError := none } rfl
    refine ⟨hlater.of_keeping.keeping, { log with lastError := some e }, ?_, .inl rfl⟩
    exact guarded_of_error hrun hs

theorem Renews.map {x : ReaderM α} (hx : Renews x) (f : α → β) :
    Renews (x >>= fun a => pure (f a)) := by
  refine ⟨fun reader => ?_, fun reader next b h => ?_⟩
  · rw [bind_apply, bind_apply, hx.fresh]
  · obtain ⟨a, middle, ha, hb⟩ := exists_of_bind_ok h
    cases hb
    obtain ⟨hlater, log, hrun, hreport⟩ := hx.again ha
    exact ⟨hlater, log, bind_of_ok hrun, hreport⟩

theorem resolve_renews (key : DeclarationKey) (wanted : String) : Renews (resolve key wanted) := by
  refine Recurs.renews ?_ _
  refine (declaringClass_repeatable key).bind_recurs fun cls => ?_
  refine (scopeOf_repeatable cls).bind_recurs fun scope => ?_
  exact (lookUp_remakes cls key scope wanted).recurs scope

theorem resolveAll_renews (key : DeclarationKey) : Renews (resolveAll key) := by
  refine Recurs.renews ?_ _
  refine (declaringClass_repeatable key).bind_recurs fun cls => ?_
  refine (scopeOf_repeatable cls).bind_recurs fun scope => ?_
  exact (pure_remakes AnnotationGroups.toEntries).recurs scope

/-- A guarded walk may be made again from whatever comes after it. An error that is not shown is
remembered again. -/
theorem Repeatable.guarded {x : ReaderM α} {empty a : α} (hx : Repeatable x)
    (h : guarded empty x reader = (.ok a, next)) :
    Later reader next ∧ next.annotations = reader.annotations ∧ ∀ later, Later next later →
      (a ≠ empty ∨ later.aliasTables = next.aliasTables) → Reader.guarded empty x later =
        (.ok a, { later with log.lastError := next.log.lastError }) := by
  rcases guarded_cases h with hfound | ⟨rfl, e, middle, hstopped, hs, rfl⟩
  · obtain ⟨htables, hlater, hagain⟩ := hx hfound
    have hlast : next.log.lastError = none := by rw [htables]; rfl
    refine ⟨hlater.of_keeping, by rw [htables]; rfl, fun later hl _ => ?_⟩
    rw [hlast]
    exact guarded_of_ok (hagain later.cleared hl.keeping (.inl ⟨a, rfl⟩))
  · obtain ⟨htables, hlater, hagain⟩ := hx hstopped
    refine ⟨hlater.of_keeping.keeping, by rw [htables]; rfl, fun later hl hok => ?_⟩
    have hmiddle : Later middle later := hl.of_keeping
    rcases hok with hne | hsame
    · exact absurd rfl hne
    · have hrun := hagain later.cleared hmiddle.keeping (.inr hsame)
      have hs : later.cleared.surfaces e = false := (hmiddle.surfaces_eq e).trans hs
      exact (guarded_of_error hrun hs).trans rfl

/-- A look-up behind a guarded walk. -/
theorem Repeatable.bind_renews {x : ReaderM α} {empty : α} {k : α → ReaderM β} {nothing : β}
    (hx : Repeatable x) (hempty : k empty = Pure.pure nothing)
    (hk : ∀ a, a ≠ empty → Renews (k a)) : Renews (Reader.guarded empty x >>= k) := by
  refine ⟨fun reader => rfl, fun reader next b h => ?_⟩
  obtain ⟨a, middle, ha, hb⟩ := exists_of_bind_ok h
  obtain ⟨hlater, hannotations, hagain⟩ := hx.guarded ha
  by_cases hne : a = empty
  · subst hne
    rw [hempty] at hb
    cases hb
    have hrun := hagain next (.refl next) (.inr rfl)
    exact ⟨hlater, next.log, by rw [bind_of_ok hrun, hempty]; rfl, .inl rfl⟩
  · obtain ⟨hlater', log, hrun, hreport⟩ := (hk a hne).again hb
    refine ⟨hlater.trans hlater', log, ?_, ?_⟩
    · -- the look-up clears what the walk in front of it remembers
      rw [bind_of_ok (hagain next hlater' (.inl hne)), ← (hk a hne).fresh]
      exact ((hk a hne).fresh next).trans hrun
    · rwa [ReportedAgain, hannotations] at hreport

theorem memberKey_repeatable (host : String) (kind : DeclarationKind) (name : String) :
    Repeatable (do
      let cls ← hostClass (className host)
      match ← declaringAncestor kind name maxParents cls with
      | some cls => return some ⟨cls.qualifiedName, kind, some name⟩
      | none => Reader.fail (.memberNotFound ⟨className host, kind, some name⟩) :
        ReaderM (Option DeclarationKey)) := by
  refine (hostClass_repeatable _).bind fun cls => ?_
  refine (declaringAncestor_repeatable kind name maxParents cls).bind fun found => ?_
  cases found with
  | some cls => exact .pure _
  | none => exact .fail _

theorem annotationOfMember_renews (kind : DeclarationKind) (host name wanted : String) :
    Renews (annotationOfMember kind host name wanted) := by
  refine (memberKey_repeatable host kind name).bind_renews rfl fun found hne => ?_
  cases found with
  | some key => exact resolve_renews key wanted
  | none => exact absurd rfl hne

theorem annotationsOfMember_renews (kind : DeclarationKind) (host name : String) :
    Renews (annotationsOfMember kind host name) := by
  refine (memberKey_repeatable host kind name).bind_renews rfl fun found hne => ?_
  cases found with
  | some key => exact (resolveAll_renews key).map AnnotationGroups.flatten
  | none => exact absurd rfl hne

namespace LookUp

theorem renews (lookUp : LookUp) : Renews lookUp.run := by
  cases lookUp with
  | resolve key wanted => exact (resolve_renews key wanted).map Reply.single
  | resolveAll key => exact (resolveAll_renews key).map Reply.byName
  | annotationOfClass host wanted => exact (resolve_renews _ wanted).map Reply.single
  | annotationOfProperty host name wanted =>
    exact (annotationOfMember_renews .onProperty host (propertyName name) wanted).map Reply.single
  | annotationOfMethod host name wanted =>
    exact (annotationOfMember_renews .onMethod host name wanted).map Reply.single
  | annotationsOfClass host =>
    exact ((resolveAll_renews _).map AnnotationGroups.flatten).map Reply.all
  | annotationsOfProperty host name =>
    exact (annotationsOfMember_renews .onProperty host (propertyName name)).map Reply.all
  | annotationsOfMethod host name =>
    exact (annotationsOfMember_renews .onMethod host name).map Reply.all

/-- A look-up that is made again gives the same and leaves everything but the log as it was. It
remembers the same error, unless the first one has kept annotations: then the second one, which
finds them, may remember none. From the second one on, all remember the same. -/
theorem run_again (lookUp : LookUp) {reader next : Reader} {reply : Reply}
    (h : lookUp.run reader = (.ok reply, next)) :
    ∃ log, lookUp.run next = (.ok reply, { next with log }) ∧
      (log.lastError = next.log.lastError ∨
        log.lastError = none ∧ next.annotations ≠ reader.annotations) ∧
      ∃ log', lookUp.run { next with log } = (.ok reply, { next with log := log' }) ∧
        log'.lastError = log.lastError := by
  obtain ⟨-, log, hrun, hreport⟩ := lookUp.renews.again h
  obtain ⟨-, log', hrun', hreport'⟩ := lookUp.renews.again hrun
  refine ⟨log, hrun, hreport, log', hrun', ?_⟩
  rcases hreport' with hsame | ⟨-, hchanged⟩
  · exact hsame
  · exact absurd rfl hchanged

/-- A single annotation that is kept as text. -/
def isText : Reply → Bool
  | .single v => v.isGeneric
  | _ => false

/-- An upgrade that fails is not kept, and tried again. -/
theorem run_again_failedUpgrade :
    let lookUp := LookUp.annotationOfClass "App\\Host" "Lib\\Note"
    let reader := hostReader "/** @Note(type=\"x\") */" [("Lib\\Note", Factory.param)]
    ∃ reply next, lookUp.run reader = (.ok reply, next) ∧ next.log.lastError.isSome = true ∧
      ∃ log, lookUp.run next = (.ok reply, { next with log }) ∧
        (log.lastError = next.log.lastError ∨
          log.lastError = none ∧ next.annotations ≠ reader.annotations) ∧
        ∃ log', lookUp.run { next with log } = (.ok reply, { next with log := log' }) ∧
          log'.lastError = log.lastError := by
  intro lookUp reader
  have hok : (lookUp.run reader).1.toOption.isSome = true := by decide +kernel
  have hlast : (lookUp.run reader).2.log.lastError.isSome = true := by decide +kernel
  cases hrun : lookUp.run reader with
  | mk result next =>
    rw [hrun] at hok hlast
    cases result with
    | error stop => cases hok
    | ok reply => exact ⟨reply, next, rfl, hlast, lookUp.run_again hrun⟩

/-- The first look-up finds the annotation without a name, keeps it as text and remembers the error.
The second one gives the same text and remembers nothing. -/
theorem not_run_again_reported :
    let lookUp := LookUp.annotationOfClass "Host" "Note"
    let reader := hostReader "/** @Note(type=\"x\") */" [("Note", Factory.param)] none ""
    let first := lookUp.run reader
    let second := lookUp.run first.2
    (∃ reply, first.1 = .ok reply ∧ second.1 = .ok reply ∧ isText reply = true) ∧
      first.2.log.lastError = some { cause := .missingRequired "name" "Note" "Host" } ∧
      second.2.log.lastError = none := by
  intro lookUp reader first second
  have hfirst : first.2.log.lastError =
      some { cause := .missingRequired "name" "Note" "Host" } := by decide +kernel
  have hsecond : second.2.log.lastError = none := by decide +kernel
  have htext : first.1.toOption.map isText = some true := by decide +kernel
  refine ⟨?_, hfirst, hsecond⟩
  cases hreply : first.1 with
  | error stop =>
    rw [hreply] at htext
    cases htext
  | ok reply =>
    rw [hreply] at htext
    obtain ⟨-, log, hagain, -⟩ := lookUp.renews.again (Prod.ext hreply rfl)
    exact ⟨reply, rfl, congrArg Prod.fst hagain, Option.some.inj htext⟩

end LookUp

end DocAnnotations.Reader
