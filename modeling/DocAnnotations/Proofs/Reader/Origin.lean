import DocAnnotations.Proofs.Reader.LookUp
import DocAnnotations.Proofs.Resolver.Origin

/-! Where the instances among the annotations of a declaration come from. -/
namespace DocAnnotations

/-- Each value of a group was added under its name, or was there before. -/
theorem AnnotationGroups.exists_of_get?_foldl_add {α : Type} (name : α → String)
    (value : α → Value) {ps : List α} {groups : AnnotationGroups} {key : String}
    {values : List Value}
    (h : Entries.get? (ps.foldl (fun (groups : AnnotationGroups) p =>
      groups.add (name p) (value p)) groups) key = some values) :
    ∀ v ∈ values, (∃ p ∈ ps, name p = key ∧ value p = v) ∨
      ∃ before, Entries.get? groups key = some before ∧ v ∈ before := by
  induction ps generalizing groups with
  | nil => exact fun v hv => .inr ⟨values, h, hv⟩
  | cons p ps ih =>
    intro v hv
    obtain ⟨q, hq, hname, hvalue⟩ | ⟨before, hbefore, hmem⟩ := ih h v hv
    · exact .inl ⟨q, List.mem_cons_of_mem _ hq, hname, hvalue⟩
    · simp only [AnnotationGroups.add, Entries.get?_insert] at hbefore
      split at hbefore
      next hname =>
        cases hbefore
        rcases List.mem_append.mp hmem with hmem | hmem
        · cases hold : Entries.get? groups (name p) with
          | none => simp [hold] at hmem
          | some old =>
            rw [hold] at hmem
            exact .inr ⟨old, hname ▸ hold, hmem⟩
        · exact .inl ⟨p, List.mem_cons_self, hname, (List.mem_singleton.mp hmem).symm⟩
      next => exact .inr ⟨before, hbefore, hmem⟩

namespace Reader

open QualifiedName AnnotationGroups

variable {index : SourceIndex} {resolver : Resolver} {cls : SourceClass} {item type name : String}
  {key first : DeclarationKey} {scope : NameScope} {fragments : List Fragment}
  {groups fresh : AnnotationGroups} {values : List Value} {v : Value}

/-- The key stands for an item of a class that is there. -/
structure Names (index : SourceIndex) (cls : SourceClass) (item : String) (key : DeclarationKey) :
    Prop where
  declaring : declaring index key = .ok cls
  itemName : key.itemName = item
  hasMember : HasMember key

/-- Some fragment is found by a name when all of them are resolved for the first time. -/
def Held (resolver : Resolver) (scope : NameScope) (first : DeclarationKey)
    (fragments : List Fragment) (name : String) : Prop :=
  ∃ f ∈ fragments, ∃ v, (resolver.resolve scope first f {}).1 = .ok v ∧
    resultName resolver scope f v = name

/-- A fragment is kept as text when it is resolved for the first time. -/
def KeptAsText (resolver : Resolver) (scope : NameScope) (first : DeclarationKey) (f : Fragment) :
    Prop :=
  ∃ v, (resolver.resolve scope first f {}).1 = .ok v ∧ v.isGeneric = true

/-- Where nothing was found under a registered type when the fragments were first resolved, those
whose written names are spellings of the type, and by whose names annotations were found, did not
become instances of other types then. -/
def Unmixed (resolver : Resolver) (scope : NameScope) (fragments : List Fragment)
    (first : DeclarationKey) (type : String) : Prop :=
  resolver.registry.contains type = true → ¬ Held resolver scope first fragments type →
    ∀ f ∈ fragments, f.name ∈ spellings scope type →
      Held resolver scope first fragments f.name →
        KeptAsText resolver scope first f ∨ resolver.qualify scope f.name = some type

/-- How an instance of a type comes to be among the annotations of an item: of a fragment whose
written name stands for the type, or of one that was kept as text, whose written name is a spelling
of the type. -/
inductive Sourced (index : SourceIndex) (resolver : Resolver) (cls : SourceClass) (item : String)
    (scope : NameScope) (fragments : List Fragment) (first : DeclarationKey) (type : String)
    (v : Value) : Prop where
  | qualified {key : DeclarationKey} {f : Fragment} : Names index cls item key → f ∈ fragments →
      resolver.qualify scope f.name = some type → resolver.MadeAs scope key type f v →
        Sourced index resolver cls item scope fragments first type v
  | respelled {key : DeclarationKey} {f : Fragment} : Names index cls item key → f ∈ fragments →
      f.name ∈ spellings scope type → KeptAsText resolver scope first f →
        resolver.MadeAs scope key type f v →
          Sourced index resolver cls item scope fragments first type v

/-- Annotations of an item that hold what was found first, and whose instances have a source. -/
structure Traced (index : SourceIndex) (resolver : Resolver) (cls : SourceClass) (item : String)
    (scope : NameScope) (fragments : List Fragment) (first : DeclarationKey)
    (groups : AnnotationGroups) : Prop where
  names : Names index cls item first
  resolved : ∀ f ∈ fragments, ∃ v, (resolver.resolve scope first f {}).1 = .ok v
  held : ∀ name, Held resolver scope first fragments name → Entries.hasKey groups name = true
  written : ∀ f ∈ fragments, Entries.hasKey groups f.name = true →
    Held resolver scope first fragments f.name
  sourced : ∀ type values, Unmixed resolver scope fragments first type →
    Entries.get? groups type = some values → ∀ v ∈ values, v.isGeneric = false →
      Sourced index resolver cls item scope fragments first type v

/-- A name that stands for no type keeps its fragment as text. -/
theorem keptAsText_of_unqualified {f : Fragment} (h : resolver.qualify scope f.name = none) :
    KeptAsText resolver scope first f := by
  obtain ⟨written, raw, children⟩ := f
  have hnone : resolver.typeOf? scope written = none := by
    rw [Resolver.typeOf?, h]
    rfl
  rw [KeptAsText, Resolver.resolve_of_none hnone]
  exact ⟨_, rfl, rfl⟩

theorem hasKey_fresh_iff (h : (computeGroups resolver scope key fragments {}).1 = .ok fresh)
    (name : String) :
    Entries.hasKey fresh name = true ↔ Held resolver scope key fragments name := by
  obtain ⟨values, hvalues, rfl⟩ := exists_values_of_computeGroups h
  obtain ⟨hlength, hzip⟩ := List.forall₂_iff_zip.mp hvalues
  rw [hasKey_foldl_add_iff (fun p : Fragment × Value => resultName resolver scope p.1 p.2) (·.2) []]
  constructor
  · rintro (⟨p, hp, hname⟩ | hnil)
    · exact ⟨p.1, (List.of_mem_zip hp).1, p.2, hzip hp, hname⟩
    · cases hnil
  · rintro ⟨f, hf, v, hv, hname⟩
    rw [← List.map_fst_zip hlength.le] at hf
    obtain ⟨p, hp, rfl⟩ := List.mem_map.mp hf
    obtain rfl : p.2 = v := Except.ok.inj ((hzip hp).symm.trans hv)
    exact .inl ⟨p, hp, hname⟩

theorem traced_of_computeGroups (hk : Names index cls item key)
    (h : (computeGroups resolver scope key fragments {}).1 = .ok fresh) :
    Traced index resolver cls item scope fragments key fresh where
  names := hk
  resolved := by
    obtain ⟨values, hvalues, -⟩ := exists_values_of_computeGroups h
    obtain ⟨hlength, hzip⟩ := List.forall₂_iff_zip.mp hvalues
    intro f hf
    rw [← List.map_fst_zip hlength.le] at hf
    obtain ⟨p, hp, rfl⟩ := List.mem_map.mp hf
    exact ⟨p.2, hzip hp⟩
  held name hname := (hasKey_fresh_iff h name).mpr hname
  written f _ hname := (hasKey_fresh_iff h f.name).mp hname
  sourced := by
    obtain ⟨values, hvalues, rfl⟩ := exists_values_of_computeGroups h
    obtain ⟨-, hzip⟩ := List.forall₂_iff_zip.mp hvalues
    intro type group _ hgroup v hv hinstance
    obtain ⟨p, hp, hname, rfl⟩ | ⟨before, hbefore, -⟩ := exists_of_get?_foldl_add
      (fun p : Fragment × Value => resultName resolver scope p.1 p.2) (·.2) hgroup v hv
    · obtain ⟨made, hqualify, hmade⟩ := Resolver.madeAs_of_resolve (hzip hp) hinstance
      obtain rfl : made = type := by
        rw [← hname]
        simp [resultName, hinstance, hqualify]
      exact .qualified hk (List.of_mem_zip hp).1 hqualify hmade
    · cases hbefore

/-- What nothing is found under now, nothing was found under at first. -/
theorem Traced.not_held (h : Traced index resolver cls item scope fragments first groups)
    (hn : Entries.get? groups name = none) : ¬ Held resolver scope first fragments name := by
  intro hheld
  have hkey := h.held _ hheld
  rw [Entries.hasKey_eq_false_iff.mpr hn] at hkey
  cases hkey

/-- Annotations grow by instances of a registered type that nothing was found under. -/
theorem Traced.insert (h : Traced index resolver cls item scope fragments first groups)
    (hk : Names index cls item key) (hd : dropLeading type = type)
    (hr : resolver.registry.contains type = true) (hn : Entries.get? groups type = none)
    (hq : Entries.get? groups (dropLeading (scope.find type)) = none)
    (hc : ((matching scope fragments groups type).mapM (resolver.convert scope key type) {}).1 =
      .ok values) :
    Traced index resolver cls item scope fragments first (Entries.insert groups type values) where
  names := h.names
  resolved := h.resolved
  held name hname := (Entries.hasKey_insert_iff _ _).mpr (.inr (h.held name hname))
  written f hf hname := by
    rcases (Entries.hasKey_insert_iff _ _).mp hname with hname | hname
    · -- The type would have been found by the name of the fragment.
      obtain ⟨v, hv⟩ := h.resolved f hf
      have hheld : Held resolver scope first fragments (resultName resolver scope f v) :=
        ⟨f, hf, v, hv, rfl⟩
      rw [hname] at hd hr hn hq
      rcases resultName_of_written hd hr v with hresult | hresult
      · exact absurd (hresult ▸ hheld) (h.not_held hn)
      · exact absurd (hresult ▸ hheld) (h.not_held hq)
    · exact h.written f hf hname
  sourced other group hunmixed hgroup v hv hinstance := by
    rw [Entries.get?_insert] at hgroup
    split at hgroup
    next hname =>
      cases hgroup
      subst hname
      obtain ⟨f, hf, hconvert⟩ :=
        Resolver.exists_of_mapM (fun f => resolver.steady_convert scope key type f) hc v hv
      obtain ⟨hmem, hspelled⟩ := List.mem_filter.mp hf
      rw [Bool.and_eq_true, List.contains_iff_mem] at hspelled
      have hmade := Resolver.madeAs_of_convert hconvert hinstance
      have hnot : ¬ Held resolver scope first fragments type := h.not_held hn
      rcases hunmixed hr hnot f hmem hspelled.1 (h.written f hmem hspelled.2) with hkept | hqualify
      · exact .respelled hk hmem hspelled.1 hkept hmade
      · exact .qualified hk hmem hqualify hmade
    next => exact h.sourced other group hunmixed hgroup v hv hinstance

end Reader

end DocAnnotations
