import DocAnnotations.Proofs.Entries
import DocAnnotations.Proofs.Resolver.Log
import DocAnnotations.Proofs.SourceIndex

/-! What the caches of a reader should hold: what a fresh reader computes. -/
namespace DocAnnotations

/-- The names in the end are those under which an annotation is added, and those from before. -/
theorem AnnotationGroups.hasKey_foldl_add_iff {α : Type} (name : α → String) (value : α → Value)
    {ps : List α} (groups : AnnotationGroups) {key : String} :
    Entries.hasKey (ps.foldl (fun (groups : AnnotationGroups) p => groups.add (name p) (value p))
      groups) key = true ↔ (∃ p ∈ ps, name p = key) ∨ Entries.hasKey groups key = true := by
  induction ps generalizing groups with
  | nil => simp
  | cons p ps ih =>
    rw [List.foldl_cons, ih, add, Entries.hasKey_insert_iff]
    simp only [List.mem_cons, exists_eq_or_imp]
    exact or_left_comm.trans or_assoc.symm

namespace Reader

variable {index : SourceIndex} {resolver : Resolver} {cls : SourceClass} {item : String}
  {key other : DeclarationKey}

theorem cached?_store {α : Type} (cache : Entries (Entries α)) (name item : String) (content : α)
    (name' item' : String) : cached? (store cache name item content) name' item' =
      if name = name' ∧ item = item' then some content else cached? cache name' item' := by
  simp only [cached?, store, Entries.get?_insert]
  by_cases hn : name = name'
  · subst hn
    cases cache.get? name <;> by_cases hi : item = item' <;>
      simp [Entries.get?_insert, hi, Entries.get?]
  · simp [hn]

/-- What holds of everything in a cache still holds when something is stored of which it holds. -/
theorem forall_cached?_store {α : Type} {P : String → String → α → Prop}
    {cache : Entries (Entries α)} {name item : String} {content : α}
    (h : ∀ name item content, cached? cache name item = some content → P name item content)
    (hnew : P name item content) (name' item' : String) (content' : α)
    (hc : cached? (store cache name item content) name' item' = some content') :
    P name' item' content' := by
  rw [cached?_store] at hc
  split at hc
  next hsame =>
    cases hc
    exact hsame.1 ▸ hsame.2 ▸ hnew
  next => exact h name' item' content' hc

/-- The names that are valid in a class, as a fresh reader computes them. -/
def freshScope (index : SourceIndex) (resolver : Resolver) (cls : SourceClass) :
    Except Abort NameScope :=
  let reader : Reader := { index, resolver }
  (reader.computeTable cls).map (⟨·, reader.isKnown⟩)

theorem freshScope_eq_ok_iff {scope : NameScope} : freshScope index resolver cls = .ok scope ↔
    ({ index, resolver } : Reader).computeTable cls = .ok scope.table ∧
      scope.known = ({ index, resolver } : Reader).isKnown := by
  rw [freshScope]
  cases ({ index, resolver } : Reader).computeTable cls with
  | error stop => simp [Except.map]
  | ok table =>
    obtain ⟨table', known⟩ := scope
    simp [Except.map, eq_comm]

/-- The key names an item of the class. -/
structure KeyFor (index : SourceIndex) (cls : SourceClass) (item : String) (key : DeclarationKey) :
    Prop where
  found : index.class? key.className = some cls
  className : key.className = cls.qualifiedName
  itemName : key.itemName = item
  hasName : key.kind ≠ .onClass → key.member.isSome
  isMember : key.kind ≠ .onClass → (cls.member? key.kind key.member).isSome

theorem KeyFor.eq_of_qualifiedName {cls' : SourceClass} {item' : String}
    (h : KeyFor index cls item key) (ho : KeyFor index cls' item' other)
    (hn : cls'.qualifiedName = cls.qualifiedName) : cls' = cls := by
  have hc := h.found
  rw [h.className, ← hn, ← ho.className, ho.found] at hc
  exact Option.some.inj hc

theorem toList_itemName (key : DeclarationKey) : key.itemName.toList =
    match key.kind with
    | .onClass => ['c']
    | .onProperty => 'p' :: ':' :: key.memberName.toList
    | .onMethod => 'm' :: ':' :: key.memberName.toList := by
  unfold DeclarationKey.itemName
  cases key.kind <;> simp

/-- A key of a member names it. -/
def HasMember (key : DeclarationKey) : Prop :=
  key.kind ≠ .onClass → key.member.isSome

/-- Keys of one item are of one kind, and name the same member. -/
theorem kind_and_member_eq (hi : key.itemName = other.itemName) (h : HasMember key)
    (ho : HasMember other) :
    key.kind = other.kind ∧ (key.kind ≠ .onClass → key.member = other.member) := by
  have hi : key.itemName.toList = other.itemName.toList := by rw [hi]
  rw [toList_itemName, toList_itemName] at hi
  have hm (hk : key.kind ≠ .onClass) (hk' : other.kind ≠ .onClass)
      (hn : key.memberName.toList = other.memberName.toList) : key.member = other.member := by
    obtain ⟨m, hm⟩ := Option.isSome_iff_exists.mp (h hk)
    obtain ⟨m', hm'⟩ := Option.isSome_iff_exists.mp (ho hk')
    have := String.toList_inj.mp hn
    simp only [DeclarationKey.memberName, hm, hm', Option.getD_some] at this
    rw [hm, hm', this]
  cases hk : key.kind <;> cases hk' : other.kind <;> simp only [hk, hk'] at hi hm
  case onClass.onClass => exact ⟨rfl, fun hne => absurd rfl hne⟩
  case onProperty.onProperty | onMethod.onMethod =>
    exact ⟨rfl, fun _ => hm (by simp) (by simp) (by simpa using hi)⟩
  all_goals simp at hi

/-- Keys of one item stand for the same declaration of a class. -/
theorem annotationSource_eq (hi : key.itemName = other.itemName) (h : HasMember key)
    (ho : HasMember other) (cls : SourceClass) :
    annotationSource cls key = annotationSource cls other := by
  obtain ⟨hkind, hmember⟩ := kind_and_member_eq hi h ho
  by_cases hk : key.kind = .onClass
  · simp [annotationSource, SourceClass.member?, ← hkind, hk]
  · simp [annotationSource, ← hkind, hmember hk]

theorem computeFragments_eq (hi : key.itemName = other.itemName) (h : HasMember key)
    (ho : HasMember other) (scope : NameScope) (cls : SourceClass) :
    computeFragments resolver scope cls key = computeFragments resolver scope cls other := by
  rw [computeFragments, computeFragments, annotationSource_eq hi h ho]

theorem KeyFor.itemName_eq (h : KeyFor index cls item key) (ho : KeyFor index cls item other) :
    key.itemName = other.itemName :=
  h.itemName.trans ho.itemName.symm

theorem KeyFor.computeFragments_eq (h : KeyFor index cls item key)
    (ho : KeyFor index cls item other) (scope : NameScope) :
    computeFragments resolver scope cls key = computeFragments resolver scope cls other :=
  Reader.computeFragments_eq (h.itemName_eq ho) h.hasName ho.hasName scope cls

/-- The fragments that look like the type and are found under their names. -/
def matching (scope : NameScope) (fragments : List Fragment) (groups : AnnotationGroups)
    (type : String) : List Fragment :=
  fragments.filter fun f => (spellings scope type).contains f.name && Entries.hasKey groups f.name

/-- An entry for a registered type that fresh annotations lack: the matching fragments, each made
an instance of the type. -/
structure Rehydrated (index : SourceIndex) (resolver : Resolver) (cls : SourceClass) (item : String)
    (scope : NameScope) (fragments : List Fragment) (fresh : AnnotationGroups)
    (entry : String × List Value) : Prop where
  registered : resolver.registry.contains entry.1 = true
  absent : Entries.hasKey fresh entry.1 = false
  unwritten : ∀ f ∈ fragments, f.name ≠ entry.1
  matched : matching scope fragments fresh entry.1 ≠ []
  converted : ∃ key, KeyFor index cls item key ∧
    ((matching scope fragments fresh entry.1).mapM
      (resolver.convert scope key entry.1) {}).1 = .ok entry.2
  instances : ∀ v ∈ entry.2, v.isGeneric = false

/-- Fresh annotations of an item, followed by entries for more types. -/
def Grown (index : SourceIndex) (resolver : Resolver) (cls : SourceClass) (item : String)
    (scope : NameScope) (fragments : List Fragment) (groups : AnnotationGroups) : Prop :=
  ∃ fresh more : AnnotationGroups, groups = fresh ++ more ∧ (Entries.keys more).Nodup ∧
    (∃ key, KeyFor index cls item key ∧
      (computeGroups resolver scope key fragments {}).1 = .ok fresh) ∧
    ∀ entry ∈ more, Rehydrated index resolver cls item scope fragments fresh entry

/-- The reader has these settings, and every cache holds what a fresh reader computes. -/
structure Coherent (index : SourceIndex) (resolver : Resolver) (reader : Reader) : Prop where
  index_eq : reader.index = index
  resolver_eq : reader.resolver = resolver
  aliasTables : ∀ name table, reader.aliasTables.get? name = some table →
    ∃ cls scope, index.class? name = some cls ∧ cls.qualifiedName = name ∧
      freshScope index resolver cls = .ok scope ∧ table = scope.table
  fragments : ∀ name item fragments, cached? reader.fragments name item = some fragments →
    ∃ cls key scope, cls.qualifiedName = name ∧ KeyFor index cls item key ∧
      freshScope index resolver cls = .ok scope ∧
      fragments = computeFragments resolver scope cls key
  annotations : ∀ name item groups, cached? reader.annotations name item = some groups →
    ∃ cls key scope, cls.qualifiedName = name ∧ KeyFor index cls item key ∧
      freshScope index resolver cls = .ok scope ∧
      Grown index resolver cls item scope (computeFragments resolver scope cls key) groups

end Reader

end DocAnnotations
