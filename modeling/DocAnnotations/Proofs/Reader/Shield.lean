import DocAnnotations.Proofs.Reader.Leads

/-! Which errors are shown changes neither what a look-up comes to nor what it leaves behind. -/
namespace DocAnnotations.Reader

variable {α β : Type}

/-- `x` does not read which errors are shown. -/
def Blind (x : ReaderM α) : Prop :=
  ∀ reader general privileged, x (reader.setThrow general privileged) =
    ((x reader).1, (x reader).2.setThrow general privileged)

namespace Blind

theorem pure (a : α) : Blind (Pure.pure a) := fun _ _ _ => rfl

theorem fail (cause : ErrorCause) : Blind (Reader.fail cause : ReaderM α) := fun _ _ _ => rfl

theorem lift (x : Except Abort α) : Blind (liftM x : ReaderM α) := fun _ _ _ => rfl

theorem withLog (x : ReadM α) : Blind (Reader.withLog x) := fun _ _ _ => rfl

theorem bind {x : ReaderM α} {k : α → ReaderM β} (hx : Blind x) (hk : ∀ a, Blind (k a)) :
    Blind (x >>= k) := by
  intro reader general privileged
  have h := hx reader general privileged
  cases hr : x reader with
  | mk result next =>
    rw [hr] at h
    cases result with
    | ok a => rw [bind_of_ok h, bind_of_ok hr, hk a next general privileged]
    | error stop => rw [bind_of_error h, bind_of_error hr]

/-- What follows the reading of the reader must make the same of it under all settings. -/
theorem get_bind {k : Reader → ReaderM β} (hk : ∀ reader, Blind (k reader))
    (hsame : ∀ reader general privileged, k (Reader.setThrow reader general privileged) = k reader) :
    Blind (MonadState.get >>= k) := by
  intro reader general privileged
  change k (reader.setThrow general privileged) (reader.setThrow general privileged) = _
  rw [hsame]
  exact hk reader reader general privileged

theorem modify_bind {f : Reader → Reader} {k : PUnit → ReaderM β}
    (hf : ∀ reader general privileged,
      f (Reader.setThrow reader general privileged) = (f reader).setThrow general privileged)
    (hk : Blind (k ⟨⟩)) : Blind (modifyThe Reader f >>= k) := by
  intro reader general privileged
  change k ⟨⟩ (f (reader.setThrow general privileged)) = _
  rw [hf]
  exact hk (f reader) general privileged

end Blind

/-- Under all settings `x` comes to the same outcome, of which the settings make its result, and
leaves the same behind. An error is remembered also where it is not shown. -/
def Shielded (empty : α) (x : ReaderM α) : Prop :=
  ∀ reader : Reader, ∃ (outcome : Except Abort α) (next : Reader),
    (∀ e, outcome = .error (.error e) → next.log.lastError = some e) ∧
    ∀ general privileged, x (reader.setThrow general privileged) =
      (shield (next.setThrow general privileged) empty outcome, next.setThrow general privileged)

namespace Shielded

variable {empty : α} {x : ReaderM α}

theorem pure (empty a : α) : Shielded empty (Pure.pure a) := fun reader =>
  ⟨.ok a, reader, nofun, fun _ _ => rfl⟩

theorem guarded (hx : Blind x) (empty : α) : Shielded empty (Reader.guarded empty x) := by
  intro reader
  have hrun (general privileged : Bool) :
      x { reader.setThrow general privileged with log.lastError := none } = _ :=
    hx { reader with log.lastError := none } general privileged
  cases hr : x { reader with log.lastError := none } with
  | mk result next =>
    simp only [hr] at hrun
    unfold Reader.guarded
    cases result with
    | ok a => exact ⟨.ok a, next, nofun, fun general privileged => by rw [hrun]; rfl⟩
    | error stop =>
      cases stop with
      | error e =>
        refine ⟨.error (.error e), { next with log.lastError := some e }, ?_, ?_⟩
        · intro e' he
          cases he
          rfl
        · intro general privileged
          rw [hrun]
          rfl
      | oversizedInteger =>
        exact ⟨.error .oversizedInteger, next, by simp, fun _ _ => by rw [hrun]; rfl⟩
      | unfinishedStatement =>
        exact ⟨.error .unfinishedStatement, next, by simp, fun _ _ => by rw [hrun]; rfl⟩

/-- An error that the first reading does not show ends the second one too. -/
theorem bind {empty' : β} {k : α → ReaderM β} (hx : Shielded empty x)
    (hk : ∀ a, Shielded empty' (k a)) (hempty : k empty = Pure.pure empty') :
    Shielded empty' (x >>= k) := by
  intro reader
  obtain ⟨outcome, next, hlast, hrun⟩ := hx reader
  cases outcome with
  | ok a =>
    obtain ⟨outcome', next', hlast', hrun'⟩ := hk a next
    refine ⟨outcome', next', hlast', fun general privileged => ?_⟩
    rw [bind_of_ok (hrun general privileged)]
    exact hrun' general privileged
  | error stop =>
    cases stop with
    | error e =>
      refine ⟨.error (.error e), next, fun e' he => ?_, fun general privileged => ?_⟩
      · cases he
        exact hlast e rfl
      · have hrun := hrun general privileged
        cases hs : (next.setThrow general privileged).surfaces e with
        | true =>
          simp only [shield, hs, if_true] at hrun ⊢
          exact bind_of_error hrun
        | false =>
          simp only [shield, hs, Bool.false_eq_true, if_false] at hrun ⊢
          rw [bind_of_ok hrun, hempty]
          rfl
    | oversizedInteger =>
      exact ⟨.error .oversizedInteger, next, by simp, fun _ _ => bind_of_error (hrun _ _)⟩
    | unfinishedStatement =>
      exact ⟨.error .unfinishedStatement, next, by simp, fun _ _ => bind_of_error (hrun _ _)⟩

theorem map (hx : Shielded empty x) (f : α → β) :
    Shielded (f empty) (x >>= fun a => Pure.pure (f a)) :=
  hx.bind (fun a => pure _ (f a)) rfl

end Shielded

/-- The look-ups of a reader. -/
inductive LookUp where
  | resolve (key : DeclarationKey) (wanted : String)
  | resolveAll (key : DeclarationKey)
  | annotationOfClass (host wanted : String)
  | annotationOfProperty (host name wanted : String)
  | annotationOfMethod (host name wanted : String)
  | annotationsOfClass (host : String)
  | annotationsOfProperty (host name : String)
  | annotationsOfMethod (host name : String)

/-- What a look-up gives: what was found for one name, for all names, or all annotations. -/
inductive Reply where
  | single (v : Value)
  | byName (entries : Entries Value)
  | all (annotations : List Value)

namespace LookUp

/-- What a look-up that finds nothing gives. -/
def nothing : LookUp → Reply
  | resolve .. | annotationOfClass .. | annotationOfProperty .. | annotationOfMethod .. =>
    .single .null
  | resolveAll .. => .byName []
  | annotationsOfClass .. | annotationsOfProperty .. | annotationsOfMethod .. => .all []

def run : LookUp → ReaderM Reply
  | resolve key wanted => do return Reply.single (← Reader.resolve key wanted)
  | resolveAll key => do return Reply.byName (← Reader.resolveAll key)
  | annotationOfClass host wanted => do return Reply.single (← Reader.classAnnotation host wanted)
  | annotationOfProperty host name wanted =>
    do return Reply.single (← Reader.propertyAnnotation host name wanted)
  | annotationOfMethod host name wanted =>
    do return Reply.single (← Reader.methodAnnotation host name wanted)
  | annotationsOfClass host => do return Reply.all (← Reader.classAnnotations host)
  | annotationsOfProperty host name => do return Reply.all (← Reader.propertyAnnotations host name)
  | annotationsOfMethod host name => do return Reply.all (← Reader.methodAnnotations host name)

end LookUp

end DocAnnotations.Reader
