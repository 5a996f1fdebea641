import DocAnnotations.Proofs.Reader.OtherName

/-! Members are looked up in the nearest class that declares them, from a class upwards. -/
namespace DocAnnotations.Reader

variable {α β : Type} {reader current next : Reader} {cls parent : SourceClass}
  {key : DeclarationKey} {kind : DeclarationKind} {name : String} {tables : Entries AliasTable}

/-- The alias table that the reader has for a class, or else makes for it. -/
def tableOf (reader : Reader) (cls : SourceClass) : Except Abort AliasTable :=
  match reader.aliasTables.get? cls.qualifiedName with
  | some table => .ok table
  | none => reader.computeTable cls

/-- The names that are valid in a class. -/
def scopeFor (reader : Reader) (cls : SourceClass) : Except Abort NameScope :=
  (reader.tableOf cls).map fun table => ⟨table, reader.isKnown⟩

/-- The class of the index that the written parent stands for in the class, if there is one. -/
def parentOf (reader : Reader) (cls : SourceClass) : Except Abort (Option SourceClass) :=
  match cls.parent with
  | none | some "" => .ok none
  | some written => (reader.scopeFor cls).map fun scope =>
    reader.index.class? (if scope.find written = "" then written else scope.find written)

/-- The class so many parents up, if there is one. -/
def ancestor? (reader : Reader) : Nat → SourceClass → Option SourceClass
  | 0, cls => some cls
  | i + 1, cls => (reader.parentOf cls).toOption.join.bind (reader.ancestor? i)

theorem parentOf_of_find {written target : String} (hp : cls.parent = some written)
    (hwritten : written ≠ "") (htarget : target ≠ "")
    (h : (reader.scopeFor cls).toOption.map (·.find written) = some target) :
    reader.parentOf cls = .ok (reader.index.class? target) := by
  rw [parentOf, hp]
  cases hs : reader.scopeFor cls with
  | error stop => rw [hs] at h; cases h
  | ok scope =>
    rw [hs] at h
    obtain rfl := Option.some.inj h
    simp [htarget, Except.map]

theorem ancestor?_succ (h : reader.parentOf cls = .ok (some parent)) (i : Nat) :
    reader.ancestor? (i + 1) cls = reader.ancestor? i parent := by
  rw [ancestor?, h]
  rfl

theorem exists_parentOf_of_ancestor? {i : Nat} {found : SourceClass}
    (h : reader.ancestor? (i + 1) cls = some found) :
    ∃ parent, reader.parentOf cls = .ok (some parent) := by
  obtain ⟨parent, hparent, -⟩ := Option.bind_eq_some_iff.mp h
  refine ⟨parent, ?_⟩
  cases hp : reader.parentOf cls with
  | error stop => rw [hp] at hparent; cases hparent
  | ok parent? =>
    rw [hp] at hparent
    exact congrArg Except.ok hparent

/-- The class itself has the member. -/
abbrev Declares (kind : DeclarationKind) (name : String) (cls : SourceClass) : Prop :=
  (cls.member? kind (some name)).isSome = true

/-- A class stands in the index under its own name. -/
def Indexed (reader : Reader) (cls : SourceClass) : Prop :=
  reader.index.class? cls.qualifiedName = some cls

theorem Indexed.eq_of_qualifiedName {other : SourceClass} (h : reader.Indexed cls)
    (ho : reader.Indexed other) (hname : cls.qualifiedName = other.qualifiedName) :
    cls = other := by
  rw [Indexed, hname, ho] at h
  exact (Option.some.inj h).symm

theorem indexed_of_parentOf (hb : reader.index.Built)
    (h : reader.parentOf cls = .ok (some parent)) : reader.Indexed parent := by
  unfold parentOf at h
  split at h
  next => cases h
  next => cases h
  next written _ _ =>
    cases hs : reader.scopeFor cls with
    | error stop => rw [hs] at h; cases h
    | ok scope =>
      rw [hs] at h
      exact hb.class?_qualifiedName (Except.ok.inj h)

section Tables

/-- The reader with other alias tables. -/
def withTables (reader : Reader) (tables : Entries AliasTable) : Reader :=
  { reader with aliasTables := tables }

@[simp]
theorem withTables_fragments : (reader.withTables tables).fragments = reader.fragments := rfl

@[simp]
theorem withTables_annotations : (reader.withTables tables).annotations = reader.annotations := rfl

@[simp]
theorem withTables_resolver : (reader.withTables tables).resolver = reader.resolver := rfl

/-- `x` neither reads nor writes alias tables. -/
def TableFree (x : ReaderM α) : Prop :=
  ∀ reader tables, x (reader.withTables tables) = ((x reader).1, (x reader).2.withTables tables)

theorem TableFree.pure (a : α) : TableFree (Pure.pure a) := fun _ _ => rfl

theorem TableFree.bind {x : ReaderM α} {k : α → ReaderM β} (hx : TableFree x)
    (hk : ∀ a, TableFree (k a)) : TableFree (x >>= k) := by
  intro reader tables
  have h := hx reader tables
  cases hr : x reader with
  | mk result next =>
    rw [hr] at h
    cases result with
    | ok a => rw [bind_of_ok h, bind_of_ok hr, hk a next tables]
    | error stop => rw [bind_of_error h, bind_of_error hr]

theorem fragmentsOf_tableFree (cls : SourceClass) (key : DeclarationKey) (scope : NameScope) :
    TableFree (fragmentsOf cls key scope) := by
  intro reader tables
  unfold fragmentsOf
  simp only [get_bind_apply, withTables_fragments]
  cases cached? reader.fragments cls.qualifiedName key.itemName <;> rfl

theorem groupsOf_tableFree (cls : SourceClass) (key : DeclarationKey) (scope : NameScope) :
    TableFree (groupsOf cls key scope) := by
  intro reader tables
  unfold groupsOf
  simp only [get_bind_apply, withTables_annotations]
  cases cached? reader.annotations cls.qualifiedName key.itemName with
  | some groups => rfl
  | none =>
    refine (fragmentsOf_tableFree cls key scope).bind (fun fragments reader tables => ?_)
      reader tables
    simp only [get_bind_apply, withTables_resolver]
    exact TableFree.bind (fun _ _ => rfl) (fun _ _ _ => rfl) reader tables

/-- The names that are valid in a class are found. Each class keeps the table that it had, or would
get. -/
theorem scopeOf_run (cls : SourceClass) (reader : Reader) :
    ∃ tables, scopeOf cls reader = (reader.scopeFor cls, reader.withTables tables) ∧
      ∀ other, (other.qualifiedName = cls.qualifiedName → other = cls) →
        (reader.withTables tables).tableOf other = reader.tableOf other := by
  unfold scopeOf scopeFor tableOf
  rw [get_bind_apply]
  cases ht : reader.aliasTables.get? cls.qualifiedName with
  | some table => exact ⟨reader.aliasTables, rfl, fun _ _ => rfl⟩
  | none =>
    cases hc : reader.computeTable cls with
    | error stop => exact ⟨reader.aliasTables, rfl, fun _ _ => rfl⟩
    | ok table =>
      refine ⟨reader.aliasTables.insert cls.qualifiedName table, rfl, fun other hother => ?_⟩
      -- The table that is added is the one that the class would get.
      simp only [withTables, Entries.get?_insert]
      by_cases hname : cls.qualifiedName = other.qualifiedName
      · obtain rfl := hother hname.symm
        rw [if_pos rfl, ht]
        exact hc.symm
      · rw [if_neg hname]
        rfl

/-- What comes of the annotations of a declaration depends on no table but the one of its class. -/
theorem onGroups_withTables {k : SourceClass → NameScope → AnnotationGroups → ReaderM α}
    (hk : ∀ cls scope groups, TableFree (k cls scope groups))
    (ht : ∀ cls, declaring reader.index key = .ok cls →
      (reader.withTables tables).tableOf cls = reader.tableOf cls) :
    ∃ left, onGroups key k (reader.withTables tables) =
      ((onGroups key k reader).1, (onGroups key k reader).2.withTables left) := by
  have hclass : declaringClass key reader = (declaring reader.index key, reader) :=
    declaringClass_apply key reader
  have hclass' : declaringClass key (reader.withTables tables) =
      (declaring reader.index key, reader.withTables tables) := declaringClass_apply key _
  unfold onGroups
  cases hc : declaring reader.index key with
  | error stop =>
    rw [hc] at hclass hclass'
    exact ⟨tables, by rw [bind_of_error hclass, bind_of_error hclass']⟩
  | ok cls =>
    rw [hc] at hclass hclass'
    obtain ⟨first, hfirst, -⟩ := scopeOf_run cls reader
    obtain ⟨second, hsecond, -⟩ := scopeOf_run cls (reader.withTables tables)
    have hscope : (reader.withTables tables).scopeFor cls = reader.scopeFor cls := by
      rw [scopeFor, ht cls hc]
      rfl
    rw [hscope] at hsecond
    refine ⟨second, ?_⟩
    rw [bind_of_ok hclass, bind_of_ok hclass', bind_apply, bind_apply, hfirst, hsecond]
    cases reader.scopeFor cls with
    | error stop => rfl
    | ok scope =>
      exact (groupsOf_tableFree cls key scope).bind (hk cls scope) (reader.withTables first) second

end Tables

/-- The reader as a look-up starts with it, without a last error. -/
def cleared (reader : Reader) : Reader :=
  { reader with log.lastError := none }

/-- The readers differ in nothing but the last error and in which alias tables they keep. -/
structure Walked (reader next : Reader) : Prop where
  settled : next.cleared.withTables [] = reader.cleared.withTables []
  tableOf_eq : ∀ cls, reader.Indexed cls → next.tableOf cls = reader.tableOf cls

namespace Walked

theorem withLastError (reader : Reader) (last : Option ReadError) :
    Walked reader { reader with log.lastError := last } :=
  ⟨rfl, fun _ _ => rfl⟩

theorem index_eq (h : Walked reader next) : next.index = reader.index :=
  (congrArg Reader.index h.settled :)

theorem resolver_eq (h : Walked reader next) : next.resolver = reader.resolver :=
  (congrArg Reader.resolver h.settled :)

theorem isKnown_eq (h : Walked reader next) : next.isKnown = reader.isKnown :=
  (congrArg Reader.isKnown h.settled :)

theorem shield_eq (h : Walked reader next) (empty : α) : shield next empty = shield reader empty :=
  (congrArg (shield · empty) h.settled :)

theorem trans (h : Walked reader current) (hn : Walked current next) : Walked reader next := by
  refine ⟨hn.settled.trans h.settled, fun cls hc => ?_⟩
  rw [hn.tableOf_eq cls (by rwa [Indexed, h.index_eq]), h.tableOf_eq cls hc]

/-- The step of a walk: the names that are valid in one more class are found. -/
theorem scopeOf (h : Walked reader current) (hc : reader.Indexed cls) :
    ∃ next, Walked reader next ∧ scopeOf cls current = (reader.scopeFor cls, next) := by
  obtain ⟨tables, hrun, htables⟩ := scopeOf_run cls current
  have hscope : current.scopeFor cls = reader.scopeFor cls := by
    rw [scopeFor, scopeFor, h.tableOf_eq cls hc, h.isKnown_eq]
  have hnext : Walked current (current.withTables tables) := by
    refine ⟨rfl, fun other ho => htables other fun hname => ?_⟩
    rw [Indexed, h.index_eq] at ho
    exact Indexed.eq_of_qualifiedName ho hc hname
  exact ⟨_, h.trans hnext, by rw [hrun, hscope]⟩

/-- What comes of the annotations of a declaration is the same, before a walk and after it. -/
theorem onGroups {k : SourceClass → NameScope → AnnotationGroups → ReaderM α}
    (h : Walked reader next) (hb : reader.index.Built) (key : DeclarationKey)
    (hk : ∀ cls scope groups, TableFree (k cls scope groups)) :
    ∃ left, onGroups key k next.cleared =
      ((onGroups key k reader.cleared).1, (onGroups key k reader.cleared).2.withTables left) := by
  have hnext : next.cleared = reader.cleared.withTables next.aliasTables :=
    (congrArg (withTables · next.aliasTables) h.settled :)
  rw [hnext]
  refine onGroups_withTables hk fun cls hc => ?_
  have ht := h.tableOf_eq cls (hb.class?_qualifiedName (class?_of_declaring hc))
  rw [← hnext]
  exact ht

theorem resolve_fst (h : Walked reader next) (hb : reader.index.Built) (wanted : String) :
    (resolve key wanted next).1 = (resolve key wanted reader).1 := by
  obtain ⟨left, hfindings⟩ := h.onGroups hb key fun cls scope groups =>
    (fragmentsOf_tableFree cls key scope).bind fun fragments =>
      TableFree.pure (⟨cls, scope, groups, fragments⟩ : Findings)
  have hfindings : (findings key next.cleared).1 = (findings key reader.cleared).1 :=
    (congrArg Prod.fst hfindings :)
  rw [Reader.resolve_fst, Reader.resolve_fst, h.shield_eq]
  change shield reader Value.null ((findings key next.cleared).1 >>= _) = _
  rw [hfindings, h.resolver_eq]
  rfl

theorem resolveAll_fst (h : Walked reader next) (hb : reader.index.Built) :
    (resolveAll key next).1 = (resolveAll key reader).1 := by
  obtain ⟨left, hall⟩ := h.onGroups hb key fun _ _ groups =>
    TableFree.pure (AnnotationGroups.toEntries groups)
  change (guarded [] (Reader.onGroups key fun _ _ groups => pure groups.toEntries) next).1 =
    (guarded [] (Reader.onGroups key fun _ _ groups => pure groups.toEntries) reader).1
  rw [guarded_fst, guarded_fst]
  change shield (Reader.onGroups key _ next.cleared).2 [] (Reader.onGroups key _ next.cleared).1 = _
  rw [hall]
  rfl

end Walked

/-- From a class that does not declare the member, the walk goes on with the parent, if any. -/
theorem declaringAncestor_step (h : Walked reader current) (hc : reader.Indexed cls)
    (hnot : ¬ Declares kind name cls) (fuel : Nat) :
    ∃ next, Walked reader next ∧ declaringAncestor kind name (fuel + 1) cls current =
      match reader.parentOf cls with
      | .ok (some parent) => declaringAncestor kind name fuel parent next
      | .ok none => (.ok none, next)
      | .error stop => (.error stop, next) := by
  rw [declaringAncestor, parentOf, if_neg hnot]
  cases cls.parent with
  | none => exact ⟨current, h, rfl⟩
  | some written =>
    by_cases hwritten : written = ""
    · subst hwritten
      exact ⟨current, h, rfl⟩
    · obtain ⟨next, hnext, hscope⟩ := h.scopeOf hc
      refine ⟨next, hnext, ?_⟩
      cases hs : reader.scopeFor cls with
      | error stop =>
        rw [hs] at hscope
        simp only [bind_of_error hscope]
        rfl
      | ok scope =>
        rw [hs] at hscope
        simp only [bind_of_ok hscope, get_bind_apply, hnext.index_eq, Except.map]
        cases reader.index.class? _ <;> rfl

/-- The walk ends at the nearest ancestor that declares the member, if it is near enough. -/
theorem declaringAncestor_of_nearest (hb : reader.index.Built) {i fuel : Nat} {found : SourceClass}
    (h : Walked reader current) (hc : reader.Indexed cls) (hi : i < fuel)
    (hfound : reader.ancestor? i cls = some found) (hdeclares : Declares kind name found)
    (hnearest : ∀ j < i, ∀ c ∈ reader.ancestor? j cls, ¬ Declares kind name c) :
    ∃ next, Walked reader next ∧
      declaringAncestor kind name fuel cls current = (.ok (some found), next) := by
  -- The walk goes from reader to reader, while the ancestors are those of the first one.
  induction i generalizing cls current fuel with
  | zero =>
    obtain ⟨fuel, rfl⟩ := Nat.exists_eq_add_one.mpr hi
    cases hfound
    refine ⟨current, h, ?_⟩
    rw [declaringAncestor, if_pos hdeclares]
    rfl
  | succ i ih =>
    obtain ⟨fuel, rfl⟩ := Nat.exists_eq_add_one.mpr (Nat.zero_lt_of_lt hi)
    have hnot : ¬ Declares kind name cls := hnearest 0 (Nat.succ_pos i) cls rfl
    obtain ⟨next, hnext, hstep⟩ := declaringAncestor_step h hc hnot fuel
    obtain ⟨parent, hp⟩ := exists_parentOf_of_ancestor? hfound
    rw [hp] at hstep
    rw [ancestor?_succ hp] at hfound
    obtain ⟨last, hlast, hrun⟩ := ih hnext (indexed_of_parentOf hb hp)
      (Nat.lt_of_succ_lt_succ hi) hfound fun j hj c hcj =>
        hnearest (j + 1) (Nat.succ_lt_succ hj) c (ancestor?_succ hp j ▸ hcj)
    exact ⟨last, hlast, hstep.trans hrun⟩

/-- The walk finds nothing where no near ancestor declares the member, wherever the parents lead. -/
theorem declaringAncestor_of_absent (hb : reader.index.Built) {fuel : Nat}
    (h : Walked reader current) (hc : reader.Indexed cls)
    (habsent : ∀ i < fuel, ∀ c ∈ reader.ancestor? i cls,
      ¬ Declares kind name c ∧ ∃ parent?, reader.parentOf c = .ok parent?) :
    ∃ next, Walked reader next ∧
      declaringAncestor kind name fuel cls current = (.ok none, next) := by
  -- By induction on the bound, a cycle of parents is no case of its own.
  induction fuel generalizing cls current with
  | zero => exact ⟨current, h, rfl⟩
  | succ fuel ih =>
    obtain ⟨hnot, parent?, hp⟩ := habsent 0 (Nat.succ_pos fuel) cls rfl
    obtain ⟨next, hnext, hstep⟩ := declaringAncestor_step h hc hnot fuel
    rw [hp] at hstep
    cases parent? with
    | none => exact ⟨next, hnext, hstep⟩
    | some parent =>
      obtain ⟨last, hlast, hrun⟩ := ih hnext (indexed_of_parentOf hb hp) fun i hi c hci =>
        habsent (i + 1) (Nat.succ_lt_succ hi) c (ancestor?_succ hp i ▸ hci)
      exact ⟨last, hlast, hstep.trans hrun⟩

/-- The look-ups of a member read the declaration in the nearest ancestor that has it, and fail
where none has it. -/
structure FindsNearest (reader : Reader) (cls : SourceClass) (kind : DeclarationKind)
    (name : String) (one : String → ReaderM Value) (all : ReaderM (List Value)) : Prop where
  nearest : ∀ i < maxParents, ∀ found ∈ reader.ancestor? i cls, Declares kind name found →
    (∀ j < i, ∀ c ∈ reader.ancestor? j cls, ¬ Declares kind name c) →
      (∀ wanted, (one wanted reader).1 =
        (resolve ⟨found.qualifiedName, kind, some name⟩ wanted reader).1) ∧
      (all reader).1 =
        (resolveAll ⟨found.qualifiedName, kind, some name⟩ reader).1.map AnnotationGroups.flatten
  absent : (∀ i < maxParents, ∀ c ∈ reader.ancestor? i cls,
      ¬ Declares kind name c ∧ ∃ parent?, reader.parentOf c = .ok parent?) →
    (∀ wanted, (one wanted reader).1 =
      .error (.error { cause := .memberNotFound ⟨cls.qualifiedName, kind, some name⟩ })) ∧
    (all reader).1 =
      .error (.error { cause := .memberNotFound ⟨cls.qualifiedName, kind, some name⟩ })

section Member

variable {host : String}

theorem hostClass_of_class? (reader : Reader) (h : reader.index.class? name = some cls) :
    hostClass name reader = (.ok cls, reader) := by
  rw [hostClass_apply, host_eq_ok_iff.mpr h]

theorem memberKey_of_nearest (hb : reader.index.Built) {i : Nat}
    {found : SourceClass} (hc : reader.index.class? (className host) = some cls)
    (hi : i < maxParents) (hfound : reader.ancestor? i cls = some found)
    (hdeclares : Declares kind name found)
    (hnearest : ∀ j < i, ∀ c ∈ reader.ancestor? j cls, ¬ Declares kind name c) :
    ∃ next, Walked reader next ∧
      memberKey host kind name reader =
        (.ok (some ⟨found.qualifiedName, kind, some name⟩), next) := by
  obtain ⟨next, hnext, hrun⟩ := declaringAncestor_of_nearest hb (Walked.withLastError reader none)
    (hb.class?_qualifiedName hc) hi hfound hdeclares hnearest
  refine ⟨next, hnext, guarded_of_ok ?_⟩
  rw [bind_of_ok (hostClass_of_class? { reader with log.lastError := none } hc),
    bind_of_ok hrun]
  rfl

theorem memberKey_of_absent (hb : reader.index.Built)
    (hc : reader.index.class? (className host) = some cls)
    (habsent : ∀ i < maxParents, ∀ c ∈ reader.ancestor? i cls,
      ¬ Declares kind name c ∧ ∃ parent?, reader.parentOf c = .ok parent?) :
    (memberKey host kind name reader).1 =
      .error (.error { cause := .memberNotFound ⟨cls.qualifiedName, kind, some name⟩ }) := by
  obtain ⟨next, hnext, hrun⟩ := declaringAncestor_of_absent hb
    (Walked.withLastError reader none) (hb.class?_qualifiedName hc) habsent
  have hname : cls.qualifiedName = className host := by
    rw [hb.qualifiedName_of_class? hc, className, QualifiedName.dropLeading_dropLeading]
  unfold memberKey
  rw [guarded_fst, bind_of_ok (hostClass_of_class? { reader with log.lastError := none } hc),
    bind_of_ok hrun, hname]
  rfl

theorem annotationsOfMember_findNearest (hb : reader.index.Built)
    (hc : reader.index.class? (className host) = some cls) (kind : DeclarationKind)
    (name : String) : FindsNearest reader cls kind name (annotationOfMember kind host name)
      (annotationsOfMember kind host name) where
  nearest i hi found hfound hdeclares hnearest := by
    obtain ⟨next, hnext, hkey⟩ := memberKey_of_nearest hb hc hi hfound hdeclares hnearest
    refine ⟨fun wanted => ?_, ?_⟩
    · rw [annotationOfMember, bind_of_ok hkey]
      exact hnext.resolve_fst hb wanted
    · rw [annotationsOfMember, bind_of_ok hkey, ← hnext.resolveAll_fst hb]
      dsimp only
      rw [bind_apply]
      cases resolveAll ⟨found.qualifiedName, kind, some name⟩ next with
      | mk result last => cases result <;> rfl
  absent habsent := by
    have hkey := memberKey_of_absent hb hc habsent
    refine ⟨fun wanted => ?_, ?_⟩
    · rw [annotationOfMember, bind_of_error (Prod.ext hkey rfl)]
    · rw [annotationsOfMember, bind_of_error (Prod.ext hkey rfl)]

/-- Whatever a reader has found before, the look-ups of a property or a method of a class that is
there come to what the declaration in the nearest of its first 64 ancestors comes to that has the
member. If none has it, they fail with the class and the member, also where the parents are a cycle
or one of them is not there. -/
theorem property_and_method_findNearest (hb : reader.index.Built)
    (hc : reader.index.class? (className host) = some cls) (name : String) :
    FindsNearest reader cls .onProperty (propertyName name)
        (fun wanted => propertyAnnotation host name wanted) (propertyAnnotations host name) ∧
      FindsNearest reader cls .onMethod name
        (fun wanted => methodAnnotation host name wanted) (methodAnnotations host name) :=
  ⟨annotationsOfMember_findNearest hb hc .onProperty (propertyName name),
    annotationsOfMember_findNearest hb hc .onMethod name⟩

end Member

/-- A class whose parent is imported under another name. -/
def importingHost : SourceClass :=
  { name := "Host", qualifiedName := "App\\Host", scope := some "App", parent := some "Upper" }

/-- A class with a method, below the class that it is the parent of. -/
def declaringBase : SourceClass :=
  { name := "Base", qualifiedName := "Lib\\Base", scope := some "Lib", parent := some "\\App\\Host"
    methods := [("run", { kind := .method, name := "run", docComment := some "/** @todo */" })] }

/-- Two classes that are the parents of each other. -/
def cyclicPair : Reader where
  index := (SourceIndex.addClass {} importingHost "<?php\nuse Lib\\Base as Upper;\n").addClass
    declaringBase ""

theorem parentOf_importingHost : cyclicPair.parentOf importingHost = .ok (some declaringBase) :=
  parentOf_of_find rfl (by decide) (by decide : "Lib\\Base" ≠ "") (by decide +kernel)

theorem parentOf_declaringBase : cyclicPair.parentOf declaringBase = .ok (some importingHost) :=
  parentOf_of_find rfl (by decide) (by decide : "App\\Host" ≠ "") (by decide +kernel)

theorem eq_of_ancestor?_cyclicPair (i : Nat) :
    (∀ c ∈ cyclicPair.ancestor? i importingHost, c = importingHost ∨ c = declaringBase) ∧
      ∀ c ∈ cyclicPair.ancestor? i declaringBase, c = importingHost ∨ c = declaringBase := by
  induction i with
  | zero =>
    exact ⟨fun c hc => .inl (Option.some.inj hc).symm, fun c hc => .inr (Option.some.inj hc).symm⟩
  | succ i ih =>
    rw [ancestor?_succ parentOf_importingHost, ancestor?_succ parentOf_declaringBase]
    exact ⟨ih.2, ih.1⟩

/-- The parent has the method, and neither of the two has the property. -/
theorem property_and_method_findNearest_cyclicPair :
    cyclicPair.index.Built ∧
      cyclicPair.index.class? (className "\\App\\Host") = some importingHost ∧
      (∀ wanted, (cyclicPair |> methodAnnotation "\\App\\Host" "run" wanted).1 =
        (resolve ⟨"Lib\\Base", .onMethod, some "run"⟩ wanted cyclicPair).1) ∧
      (propertyAnnotations "\\App\\Host" "$id" cyclicPair).1 = .error
        (.error { cause := .memberNotFound ⟨"App\\Host", .onProperty, some "id"⟩ }) := by
  have hb : cyclicPair.index.Built := (SourceIndex.Built.empty.addClass _ _).addClass _ _
  have hc : cyclicPair.index.class? (className "\\App\\Host") = some importingHost := by
    rw [show className "\\App\\Host" = "App\\Host" by decide]
    rfl
  obtain ⟨-, hmethod⟩ := property_and_method_findNearest hb hc "run"
  obtain ⟨hproperty, -⟩ := property_and_method_findNearest hb hc "$id"
  have hbase : declaringBase ∈ cyclicPair.ancestor? 1 importingHost :=
    ancestor?_succ parentOf_importingHost 0
  refine ⟨hb, hc, (hmethod.nearest 1 (by decide) _ hbase (by decide) fun j hj c hcj => ?_).1, ?_⟩
  · obtain rfl : j = 0 := Nat.lt_one_iff.mp hj
    obtain rfl := Option.some.inj hcj
    decide
  · rw [show propertyName "$id" = "id" by decide] at hproperty
    refine (hproperty.absent fun i _ c hci => ?_).2
    rcases (eq_of_ancestor?_cyclicPair i).1 c hci with rfl | rfl
    · exact ⟨by decide, _, parentOf_importingHost⟩
    · exact ⟨by decide, _, parentOf_declaringBase⟩

end DocAnnotations.Reader
