import DocAnnotations.Proofs.Reader.LookUp

/-! Readers whose caches hold, for every declaration, what a new reader finds and what upgrades of
it have added. -/
namespace DocAnnotations.Reader

open QualifiedName AnnotationGroups

/-- A reader with the same settings that has found nothing yet. -/
def renewed (reader : Reader) : Reader :=
  { index := reader.index, resolver := reader.resolver, throwAll := reader.throwAll,
    throwPrivileged := reader.throwPrivileged }

/-- Keys that spell their declaration in the only way: a class has no member name. -/
structure Standard (key : DeclarationKey) : Prop extends Proper key where
  classMember : key.kind = .onClass → key.member = none

variable {base reader : Reader} {resolver : Resolver} {cls : SourceClass} {item name type : String}
  {key other : DeclarationKey} {scope : NameScope} {fragments : List Fragment}
  {fresh more groups : AnnotationGroups} {values : List Value} {grows : Prop}

/-- An item has one standard key. -/
theorem KeyFor.eq_of_standard {index : SourceIndex} (h : KeyFor index cls item key)
    (ho : KeyFor index cls item other) (hs : Standard key) (hs' : Standard other) :
    key = other := by
  have hclass : key.className = other.className := by rw [h.className, ho.className]
  obtain ⟨hkind, hmember⟩ := kind_and_member_eq (h.itemName_eq ho) h.hasName ho.hasName
  have hmember : key.member = other.member := by
    by_cases hk : key.kind = .onClass
    · rw [hs.classMember hk, hs'.classMember (hkind ▸ hk)]
    · exact hmember hk
  cases key
  cases other
  simp_all

/-- What an upgrade finds among annotations: instances of the type, unless no fragment matches or
not all of them become instances. -/
def upgraded (resolver : Resolver) (scope : NameScope) (key : DeclarationKey)
    (fragments : List Fragment) (groups : AnnotationGroups) (type : String) :
    Except Abort (Option (List Value)) :=
  if resolver.registry.contains type ∧ matching scope fragments groups type ≠ [] then
    ((matching scope fragments groups type).mapM (resolver.convert scope key type) {}).1.map
      fun values => if values.any Value.isGeneric then none else some values
  else .ok none

theorem upgraded_of_contains_eq_false (hr : resolver.registry.contains type = false) :
    upgraded resolver scope key fragments groups type = .ok none := by
  simp [upgraded, hr]

theorem upgraded_of_matching_eq_nil (hm : matching scope fragments groups type = []) :
    upgraded resolver scope key fragments groups type = .ok none := by
  simp [upgraded, hm]

theorem upgraded_of_matching_ne_nil (key : DeclarationKey)
    (hr : resolver.registry.contains type = true)
    (hm : matching scope fragments groups type ≠ []) :
    upgraded resolver scope key fragments groups type =
      ((matching scope fragments groups type).mapM (resolver.convert scope key type) {}).1.map
        fun values => if values.any Value.isGeneric then none else some values :=
  if_pos ⟨hr, hm⟩

theorem upgraded_eq_ok_some_iff :
    upgraded resolver scope key fragments groups type = .ok (some values) ↔
      resolver.registry.contains type = true ∧ matching scope fragments groups type ≠ [] ∧
        ((matching scope fragments groups type).mapM (resolver.convert scope key type) {}).1 =
          .ok values ∧ ∀ v ∈ values, v.isGeneric = false := by
  unfold upgraded
  split
  next hc =>
    cases ((matching scope fragments groups type).mapM (resolver.convert scope key type) {}).1 with
    | error stop => simp [Except.map]
    | ok converted =>
      simp only [Except.map, Except.ok.injEq, Option.ite_none_left_eq_some, Option.some.injEq, hc,
        true_and]
      constructor
      · rintro ⟨hv, rfl⟩
        exact ⟨hc.2, rfl, by simpa using hv⟩
      · rintro ⟨-, rfl, hv⟩
        exact ⟨by simpa using hv, rfl⟩
  next hc => simp [← and_assoc, hc]

/-- What a look-up by a name finds among annotations. -/
def foundAmong (resolver : Resolver) (scope : NameScope) (key : DeclarationKey)
    (fragments : List Fragment) (groups : AnnotationGroups) (name : String) : Except Abort Value :=
  match shown? groups name with
  | some v => .ok v
  | none =>
    match shown? groups (dropLeading (scope.find name)) with
    | some v => .ok v
    | none =>
      (upgraded resolver scope key fragments groups name).map fun values =>
        (values.map shown).getD .null

theorem foundAmong_of_get? (h : Entries.get? groups name = some values) :
    foundAmong resolver scope key fragments groups name = .ok (shown values) := by
  simp [foundAmong, shown?, h]

theorem foundAmong_of_alias (hn : Entries.get? groups name = none)
    (hq : Entries.get? groups (dropLeading (scope.find name)) = some values) :
    foundAmong resolver scope key fragments groups name = .ok (shown values) := by
  simp [foundAmong, shown?, hn, hq]

theorem foundAmong_of_absent (hn : Entries.get? groups name = none)
    (hq : Entries.get? groups (dropLeading (scope.find name)) = none) :
    foundAmong resolver scope key fragments groups name =
      (upgraded resolver scope key fragments groups name).map fun values =>
        (values.map shown).getD .null := by
  simp [foundAmong, shown?, hn, hq]

/-- Instances that an upgrade of new annotations gives for a name that somebody may want. -/
structure Added (resolver : Resolver) (scope : NameScope) (key : DeclarationKey)
    (fragments : List Fragment) (fresh : AnnotationGroups) (type : String) (values : List Value) :
    Prop where
  wanted : ∃ wanted, className wanted = type
  absent : Entries.get? fresh type = none
  aliasAbsent : Entries.get? fresh (dropLeading (scope.find type)) = none
  upgraded : upgraded resolver scope key fragments fresh type = .ok (some values)

/-- New annotations, followed by what upgrades of them give. Nothing follows if they do not
grow. -/
def Extended (grows : Prop) (resolver : Resolver) (scope : NameScope) (key : DeclarationKey)
    (fragments : List Fragment) (groups : AnnotationGroups) : Prop :=
  ∃ fresh more, (computeGroups resolver scope key fragments {}).1 = .ok fresh ∧
    groups = fresh ++ more ∧
      ∀ entry ∈ more, grows ∧ Added resolver scope key fragments fresh entry.1 entry.2

namespace Added

theorem contains (h : Added resolver scope key fragments fresh type values) :
    resolver.registry.contains type = true :=
  (upgraded_eq_ok_some_iff.mp h.upgraded).1

theorem foundAmong_eq (h : Added resolver scope key fragments fresh type values) :
    foundAmong resolver scope key fragments fresh type = .ok (shown values) := by
  rw [foundAmong_of_absent h.absent h.aliasAbsent, h.upgraded]
  rfl

/-- Nobody wrote the name of the type, or it would have been found. -/
theorem unwritten (h : Added resolver scope key fragments fresh type values)
    (hfresh : (computeGroups resolver scope key fragments {}).1 = .ok fresh) :
    ∀ f ∈ fragments, f.name ≠ type := by
  intro f hf hname
  obtain ⟨wanted, hw⟩ := h.wanted
  have hd : dropLeading f.name = f.name := by rw [hname, ← hw, className, dropLeading_dropLeading]
  have hr : resolver.registry.contains f.name = true := hname ▸ h.contains
  have habsent := Entries.hasKey_eq_false_iff.mpr h.absent
  have halias := Entries.hasKey_eq_false_iff.mpr h.aliasAbsent
  rcases hasKey_of_written hfresh hf hd hr with hkey | hkey
  · rw [hname, habsent] at hkey
    cases hkey
  · rw [hname, halias] at hkey
    cases hkey

end Added

namespace Extended

theorem refl (hfresh : (computeGroups resolver scope key fragments {}).1 = .ok fresh) :
    Extended grows resolver scope key fragments fresh :=
  ⟨fresh, [], hfresh, (List.append_nil _).symm, nofun⟩

theorem mono {grows' : Prop} (hg : grows → grows')
    (h : Extended grows resolver scope key fragments groups) :
    Extended grows' resolver scope key fragments groups := by
  obtain ⟨fresh, more, hfresh, heq, hmore⟩ := h
  exact ⟨fresh, more, hfresh, heq, fun entry he => ⟨hg (hmore entry he).1, (hmore entry he).2⟩⟩

/-- New annotations are extended by what an upgrade of them gives. -/
theorem insert
    (hfresh : (computeGroups resolver scope key fragments {}).1 = .ok fresh)
    (hmore : ∀ entry ∈ more, grows ∧ Added resolver scope key fragments fresh entry.1 entry.2)
    (hn : Entries.get? (fresh ++ more) type = none)
    (hadded : Added resolver scope key fragments fresh type values) :
    Extended True resolver scope key fragments (Entries.insert (fresh ++ more) type values) := by
  refine ⟨fresh, more ++ [(type, values)], hfresh, ?_, fun other ho => ⟨trivial, ?_⟩⟩
  · rw [Entries.insert_of_get?_eq_none hn, List.append_assoc]
  · rcases List.mem_append.mp ho with ho | ho
    · exact (hmore other ho).2
    · obtain rfl := List.mem_singleton.mp ho
      exact hadded

end Extended

/-- The reader has the settings of a new one, its caches are coherent, and the annotations of every
declaration with a standard key are extended ones. -/
structure Settled (grows : Prop) (base reader : Reader) : Prop
    extends Coherent base.index base.resolver reader where
  renewed_eq : reader.renewed = base
  extended : ∀ cls key scope groups, KeyFor base.index cls key.itemName key → Standard key →
    freshScope base.index base.resolver cls = .ok scope →
      cached? reader.annotations cls.qualifiedName key.itemName = some groups →
        Extended grows base.resolver scope key
          (computeFragments base.resolver scope cls key) groups

namespace Settled

theorem mono {grows' : Prop} (hg : grows → grows') (h : Settled grows base reader) :
    Settled grows' base reader where
  toCoherent := h.toCoherent
  renewed_eq := h.renewed_eq
  extended cls key scope groups hk hstd hs hc :=
    (h.extended cls key scope groups hk hstd hs hc).mono hg

theorem mono_true (reader : Reader) (h : Settled grows base reader) : Settled True base reader :=
  h.mono fun _ => trivial

theorem withLog (h : Settled grows base reader) (log : ReadLog) :
    Settled grows base { reader with log } where
  toCoherent := h.toCoherent.withLog log
  renewed_eq := h.renewed_eq
  extended := h.extended

theorem insertTable (h : Settled grows base reader)
    (hc : base.index.class? cls.qualifiedName = some cls)
    (hs : freshScope base.index base.resolver cls = .ok scope) :
    Settled grows base
      { reader with aliasTables := reader.aliasTables.insert cls.qualifiedName scope.table } where
  toCoherent := h.toCoherent.insertTable hc hs
  renewed_eq := h.renewed_eq
  extended := h.extended

theorem storeFragments (h : Settled grows base reader) (hk : KeyFor base.index cls item key)
    (hs : freshScope base.index base.resolver cls = .ok scope) :
    Settled grows base { reader with
      fragments := store reader.fragments cls.qualifiedName item
        (computeFragments base.resolver scope cls key) } where
  toCoherent := h.toCoherent.storeFragments hk hs
  renewed_eq := h.renewed_eq
  extended := h.extended

theorem storeAnnotations (h : Settled grows base reader)
    (hk : KeyFor base.index cls key.itemName key) (hstd : Standard key)
    (hs : freshScope base.index base.resolver cls = .ok scope)
    (hgrown : Grown base.index base.resolver cls key.itemName scope
      (computeFragments base.resolver scope cls key) groups)
    (hext : Extended grows base.resolver scope key
      (computeFragments base.resolver scope cls key) groups) :
    Settled grows base { reader with
      annotations := store reader.annotations cls.qualifiedName key.itemName groups } where
  toCoherent := h.toCoherent.storeAnnotations hk hs hgrown
  renewed_eq := by simpa only [Reader.renewed] using h.renewed_eq
  extended cls' key' scope' groups' hk' hstd' hs' hc := by
    rw [cached?_store] at hc
    split at hc
    next hn =>
      obtain rfl : cls' = cls := hk.eq_of_qualifiedName hk' hn.1.symm
      have hkey : key = key' := hk.eq_of_standard (hn.2.symm ▸ hk') hstd hstd'
      have hscope : scope = scope' := Except.ok.inj (hs.symm.trans hs')
      rw [← Option.some.inj hc, ← hkey, ← hscope]
      exact hext
    next => exact h.extended cls' key' scope' groups' hk' hstd' hs' hc

theorem stable (grows : Prop) (base : Reader) :
    Stable base.index base.resolver (Settled grows base) where
  coherent _ h := h.toCoherent
  withLog _ log h := h.withLog log
  insertTable _ _ _ h hc hs := h.insertTable hc hs
  storeFragments _ _ _ _ _ h hk hs := h.storeFragments hk hs

/-- Nothing is found yet by a new reader. -/
theorem renewed (reader : Reader) : Settled grows reader.renewed reader.renewed where
  toCoherent := coherent_fresh _ _ _ _
  renewed_eq := rfl
  extended _ _ _ _ _ _ _ h := by cases h

end Settled

end DocAnnotations.Reader
