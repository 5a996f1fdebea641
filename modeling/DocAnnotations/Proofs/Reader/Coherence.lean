import DocAnnotations.Proofs.Reader.Cache
import DocAnnotations.Proofs.Reader.Leads

/-! Every reading keeps the caches of a reader coherent. -/
namespace DocAnnotations.Reader

open QualifiedName

variable {index : SourceIndex} {resolver : Resolver}

/-- The reader has these settings, and its alias tables are those that a fresh reader computes. -/
structure Scoped (index : SourceIndex) (resolver : Resolver) (reader : Reader) : Prop where
  index_eq : reader.index = index
  resolver_eq : reader.resolver = resolver
  aliasTables : ∀ name table, reader.aliasTables.get? name = some table →
    ∃ cls scope, index.class? name = some cls ∧ cls.qualifiedName = name ∧
      freshScope index resolver cls = .ok scope ∧ table = scope.table

namespace Scoped

variable {reader : Reader} {cls : SourceClass} {scope : NameScope}

theorem fresh (index : SourceIndex) (resolver : Resolver) (throwAll throwPrivileged : Bool) :
    Scoped index resolver { index, resolver, throwAll, throwPrivileged } where
  index_eq := rfl
  resolver_eq := rfl
  aliasTables := nofun

theorem withLog (h : Scoped index resolver reader) (log : ReadLog) :
    Scoped index resolver { reader with log } :=
  ⟨h.index_eq, h.resolver_eq, h.aliasTables⟩

theorem isKnown_eq (h : Scoped index resolver reader) :
    reader.isKnown = ({ index, resolver } : Reader).isKnown := by
  funext name
  rw [isKnown, isKnown, h.index_eq, h.resolver_eq]

theorem computeTable_eq (h : Scoped index resolver reader) (cls : SourceClass) :
    reader.computeTable cls = ({ index, resolver } : Reader).computeTable cls := by
  rw [computeTable, computeTable, h.isKnown_eq, h.index_eq]

theorem insertTable (h : Scoped index resolver reader)
    (hc : index.class? cls.qualifiedName = some cls)
    (hs : freshScope index resolver cls = .ok scope) :
    Scoped index resolver
      { reader with aliasTables := reader.aliasTables.insert cls.qualifiedName scope.table } where
  index_eq := h.index_eq
  resolver_eq := h.resolver_eq
  aliasTables name table ht := by
    rw [Entries.get?_insert] at ht
    split at ht
    next hn => cases ht; exact ⟨cls, scope, hn ▸ hc, hn, hs, rfl⟩
    next => exact h.aliasTables name table ht

end Scoped

namespace Coherent

variable {reader : Reader}

theorem toScoped (h : Coherent index resolver reader) : Scoped index resolver reader :=
  ⟨h.index_eq, h.resolver_eq, h.aliasTables⟩

theorem withLog (h : Coherent index resolver reader) (log : ReadLog) :
    Coherent index resolver { reader with log } :=
  { h with }

theorem insertTable (h : Coherent index resolver reader) {cls : SourceClass} {scope : NameScope}
    (hc : index.class? cls.qualifiedName = some cls)
    (hs : freshScope index resolver cls = .ok scope) :
    Coherent index resolver
      { reader with aliasTables := reader.aliasTables.insert cls.qualifiedName scope.table } :=
  { h with aliasTables := (h.toScoped.insertTable hc hs).aliasTables }

variable {cls : SourceClass} {item : String} {key : DeclarationKey} {scope : NameScope}

theorem storeFragments (h : Coherent index resolver reader) (hk : KeyFor index cls item key)
    (hs : freshScope index resolver cls = .ok scope) :
    Coherent index resolver { reader with
      fragments := store reader.fragments cls.qualifiedName item
        (computeFragments resolver scope cls key) } :=
  { h with fragments := forall_cached?_store h.fragments ⟨cls, key, scope, rfl, hk, hs, rfl⟩ }

theorem storeAnnotations (h : Coherent index resolver reader) (hk : KeyFor index cls item key)
    (hs : freshScope index resolver cls = .ok scope) {groups : AnnotationGroups}
    (hg : Grown index resolver cls item scope (computeFragments resolver scope cls key) groups) :
    Coherent index resolver { reader with
      annotations := store reader.annotations cls.qualifiedName item groups } :=
  { h with annotations := forall_cached?_store h.annotations ⟨cls, key, scope, rfl, hk, hs, hg⟩ }

end Coherent

theorem coherent_fresh (index : SourceIndex) (resolver : Resolver)
    (throwAll throwPrivileged : Bool) :
    Coherent index resolver { index, resolver, throwAll, throwPrivileged } :=
  { Scoped.fresh index resolver throwAll throwPrivileged with
    fragments := nofun
    annotations := nofun }

/-- Readers with such alias tables and with a property that new alias tables do not touch. -/
structure NamesStable (index : SourceIndex) (resolver : Resolver) (I : Reader → Prop) : Prop where
  isScoped : ∀ reader, I reader → Scoped index resolver reader
  withLog : ∀ reader log, I reader → I { reader with log }
  insertTable : ∀ reader cls scope, I reader → index.class? cls.qualifiedName = some cls →
    freshScope index resolver cls = .ok scope →
      I { reader with aliasTables := reader.aliasTables.insert cls.qualifiedName scope.table }

/-- Coherent readers with a property that new alias tables and fragments do not touch. -/
structure Stable (index : SourceIndex) (resolver : Resolver) (I : Reader → Prop) : Prop where
  coherent : ∀ reader, I reader → Coherent index resolver reader
  withLog : ∀ reader log, I reader → I { reader with log }
  insertTable : ∀ reader cls scope, I reader → index.class? cls.qualifiedName = some cls →
    freshScope index resolver cls = .ok scope →
      I { reader with aliasTables := reader.aliasTables.insert cls.qualifiedName scope.table }
  storeFragments : ∀ reader cls item key scope, I reader → KeyFor index cls item key →
    freshScope index resolver cls = .ok scope →
      I { reader with
        fragments := store reader.fragments cls.qualifiedName item
          (computeFragments resolver scope cls key) }

theorem Stable.names {I : Reader → Prop} (h : Stable index resolver I) :
    NamesStable index resolver I where
  isScoped reader hI := (h.coherent reader hI).toScoped
  withLog := h.withLog
  insertTable := h.insertTable

theorem stable_coherent (index : SourceIndex) (resolver : Resolver) :
    Stable index resolver (Coherent index resolver) where
  coherent _ h := h
  withLog _ log h := h.withLog log
  insertTable _ _ _ h hc hs := h.insertTable hc hs
  storeFragments _ _ _ _ _ h hk hs := h.storeFragments hk hs

/-- `x` keeps the caches coherent, and its result has the property. -/
def Yields (index : SourceIndex) (resolver : Resolver) {α : Type} (x : ReaderM α) (P : α → Prop) :
    Prop :=
  ∀ reader, Coherent index resolver reader →
    Coherent index resolver (x reader).2 ∧ ∀ a, (x reader).1 = .ok a → P a

namespace Yields

variable {α β : Type} {P : α → Prop} {Q : β → Prop}

theorem iff_leads {x : ReaderM α} : Yields index resolver x P ↔
    Leads (Coherent index resolver) (Coherent index resolver) x
      fun result => ∀ a, result = .ok a → P a :=
  Iff.rfl

theorem of_leads {x : ReaderM α} {R : Except Abort α → Prop}
    (h : Leads (Coherent index resolver) (Coherent index resolver) x R)
    (hR : ∀ a, R (.ok a) → P a) : Yields index resolver x P :=
  iff_leads.mpr (h.imp fun _ hr a ha => hR a (ha ▸ hr))

theorem pure {a : α} (ha : P a) : Yields index resolver (Pure.pure a) P :=
  iff_leads.mpr (.pure fun _ hb => Except.ok.inj hb ▸ ha)

theorem bind {x : ReaderM α} {k : α → ReaderM β} (hx : Yields index resolver x P)
    (hk : ∀ a, P a → Yields index resolver (k a) Q) : Yields index resolver (x >>= k) Q :=
  iff_leads.mpr (.bind (iff_leads.mp hx) (fun a ha => hk a (ha a rfl)) (fun _ h => h)
    fun _ _ => nofun)

theorem get : Yields index resolver (MonadState.get : ReaderM Reader)
    (Coherent index resolver ·) := fun _ h =>
  ⟨h, fun _ hb => Except.ok.inj hb ▸ h⟩

theorem modify {f : Reader → Reader}
    (hf : ∀ reader, Coherent index resolver reader → Coherent index resolver (f reader)) :
    Yields index resolver (modifyThe Reader f : ReaderM PUnit) fun _ => True := fun reader h =>
  ⟨hf reader h, fun _ _ => trivial⟩

theorem withLog {x : ReadM α} (hx : Resolver.Steady x) :
    Yields index resolver (Reader.withLog x) ((x {}).1 = .ok ·) := fun reader h =>
  ⟨h.withLog _, fun _ ha => (hx reader.log).symm.trans ha⟩

theorem guarded {x : ReaderM α} {empty : α} (hx : Yields index resolver x P) (he : P empty) :
    Yields index resolver (Reader.guarded empty x) P := by
  have hlog : ∀ reader log, Coherent index resolver reader →
      Coherent index resolver { reader with log } := fun _ log h => h.withLog log
  intro reader h
  obtain ⟨hnext, other, inner, -, hinner, hresult⟩ :=
    Leads.guarded hlog hlog (iff_leads.mp hx) reader h
  refine ⟨hnext, fun a ha => ?_⟩
  rcases ok_or_eq_of_shield (hresult.symm.trans ha) with ha | rfl
  · exact hinner a ha
  · exact he

end Yields

end DocAnnotations.Reader
