import DocAnnotations.Proofs.Resolver.Log
import DocAnnotations.Reader

/-! What a reading gives and what it leaves behind, one step after another. -/
namespace DocAnnotations.Reader

/-- From every reader with the property `I`, the reading leaves one with the property `J`, and its
result, which may be an error, has the property `P`. -/
def Leads {α : Type} (I J : Reader → Prop) (x : ReaderM α) (P : Except Abort α → Prop) : Prop :=
  ∀ reader, I reader → J (x reader).2 ∧ P (x reader).1

/-- A result as the settings of a reader show it: an error that is not shown gives `empty`. -/
def shield {α : Type} (reader : Reader) (empty : α) : Except Abort α → Except Abort α
  | .error (.error e) => if reader.surfaces e then .error (.error e) else .ok empty
  | result => result

/-- What is shown as a value was found, or is what takes the place of an error. -/
theorem ok_or_eq_of_shield {α : Type} {reader : Reader} {empty a : α} {result : Except Abort α}
    (h : shield reader empty result = .ok a) : result = .ok a ∨ a = empty := by
  unfold shield at h
  split at h
  next =>
    split at h
    · cases h
    · exact .inr (Except.ok.inj h).symm
  next => exact .inl h

namespace Leads

variable {α β : Type} {I J K : Reader → Prop} {P : Except Abort α → Prop}
  {Q : Except Abort β → Prop}

theorem mono {x : ReaderM α} (h : Leads I J x P) (hJ : ∀ reader, J reader → K reader) :
    Leads I K x P := fun reader hI =>
  ⟨hJ _ (h reader hI).1, (h reader hI).2⟩

theorem imp {P' : Except Abort α → Prop} {x : ReaderM α} (h : Leads I J x P)
    (hP : ∀ result, P result → P' result) : Leads I J x P' := fun reader hI =>
  ⟨(h reader hI).1, hP _ (h reader hI).2⟩

theorem pure {a : α} (ha : P (.ok a)) : Leads I I (Pure.pure a) P := fun _ h => ⟨h, ha⟩

theorem throw {stop : Abort} (hs : P (.error stop)) :
    Leads I I (MonadExcept.throw stop : ReaderM α) P := fun _ h => ⟨h, hs⟩

theorem fail {cause : ErrorCause} (hs : P (.error (.error { cause }))) :
    Leads I I (Reader.fail cause : ReaderM α) P :=
  throw hs

theorem bind {x : ReaderM α} {k : α → ReaderM β} (hx : Leads I J x P)
    (hk : ∀ a, P (.ok a) → Leads J K (k a) Q) (hJ : ∀ reader, J reader → K reader)
    (he : ∀ stop, P (.error stop) → Q (.error stop)) : Leads I K (x >>= k) Q := by
  intro reader h
  obtain ⟨hnext, hp⟩ := hx reader h
  rw [bind_apply]
  cases hr : x reader with
  | mk result next =>
    rw [hr] at hnext hp
    cases result with
    | ok a => exact hk a hp next hnext
    | error stop => exact ⟨hJ next hnext, he stop hp⟩

theorem get_bind {k : Reader → ReaderM β} (hk : ∀ reader, I reader → Leads I K (k reader) Q) :
    Leads I K (MonadState.get >>= k) Q := fun reader h =>
  hk reader h reader h

theorem modify_bind {f : Reader → Reader} {k : PUnit → ReaderM β}
    (hf : ∀ reader, I reader → J (f reader)) (hk : Leads J K (k ⟨⟩) Q) :
    Leads I K (modifyThe Reader f >>= k) Q := fun reader h =>
  hk (f reader) (hf reader h)

theorem lift (x : Except Abort α) : Leads I I (liftM x : ReaderM α) (· = x) := fun _ h => ⟨h, rfl⟩

/-- Reading fragments does not depend on what was remembered before. -/
theorem withLog (hI : ∀ reader log, I reader → I { reader with log }) {x : ReadM α}
    (hx : Resolver.Steady x) : Leads I I (Reader.withLog x) (· = (x {}).1) := fun reader h =>
  ⟨hI reader _ h, hx reader.log⟩

theorem guarded (hI : ∀ reader log, I reader → I { reader with log })
    (hJ : ∀ reader log, J reader → J { reader with log }) {x : ReaderM α} {empty : α}
    (hx : Leads I J x P) : Leads I J (Reader.guarded empty x)
      fun result => ∃ reader inner, J reader ∧ P inner ∧ result = shield reader empty inner := by
  intro reader h
  obtain ⟨hnext, hp⟩ := hx { reader with log.lastError := none } (hI reader _ h)
  unfold Reader.guarded
  split
  next e next hr =>
    rw [hr] at hnext hp
    exact ⟨hJ next _ hnext, next, .error (.error e), hnext, hp, rfl⟩
  next hr =>
    refine ⟨hnext, _, _, hnext, hp, ?_⟩
    unfold shield
    split
    next e he => exact (hr e _ (Prod.ext he rfl)).elim
    next => rfl

end Leads

end DocAnnotations.Reader
