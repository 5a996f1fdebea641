import DocAnnotations.Reader

/-! What a computation that may stop leaves behind, one step after another. -/
namespace DocAnnotations

theorem exists_of_bind_eq_ok {ε α β : Type} {x : Except ε α} {k : α → Except ε β} {b : β}
    (h : x >>= k = .ok b) : ∃ a, x = .ok a ∧ k a = .ok b := by
  cases x with
  | error e => cases h
  | ok a => exact ⟨a, rfl, h⟩

section

variable {σ α β : Type}

theorem modify_apply (f : σ → σ) (s : σ) :
    (modify f : ExceptT Abort (StateM σ) PUnit) s = (.ok ⟨⟩, f s) := rfl

theorem get_bind_apply (k : σ → ExceptT Abort (StateM σ) β) (s : σ) : (get >>= k) s = k s s := rfl

theorem bind_apply (x : ExceptT Abort (StateM σ) α) (k : α → ExceptT Abort (StateM σ) β) (s : σ) :
    (x >>= k) s = match x s with
      | (.ok a, next) => k a next
      | (.error stop, next) => (.error stop, next) := by
  simp only [bind, ExceptT.bind, ExceptT.mk, ExceptT.bindCont, StateT.bind]
  cases x s with
  | mk result next => cases result <;> rfl

theorem bind_of_ok {x : ExceptT Abort (StateM σ) α} {k : α → ExceptT Abort (StateM σ) β}
    {s next : σ} {a : α} (h : x s = (.ok a, next)) : (x >>= k) s = k a next := by
  rw [bind_apply, h]

theorem bind_of_error {x : ExceptT Abort (StateM σ) α} {k : α → ExceptT Abort (StateM σ) β}
    {s next : σ} {stop : Abort} (h : x s = (.error stop, next)) :
    (x >>= k) s = (.error stop, next) := by
  rw [bind_apply, h]

theorem exists_of_bind_ok {x : ExceptT Abort (StateM σ) α} {k : α → ExceptT Abort (StateM σ) β}
    {s next : σ} {b : β} (h : (x >>= k) s = (.ok b, next)) :
    ∃ a middle, x s = (.ok a, middle) ∧ k a middle = (.ok b, next) := by
  rw [bind_apply] at h
  cases hr : x s with
  | mk result middle =>
    rw [hr] at h
    cases result with
    | ok a => exact ⟨a, middle, rfl, h⟩
    | error stop => cases h

end

end DocAnnotations
