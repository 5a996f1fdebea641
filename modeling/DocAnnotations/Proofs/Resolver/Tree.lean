import DocAnnotations.Resolver

/-! The fragments of a tree that are resolved on the way to its root. -/
namespace DocAnnotations

/-- Induction over fragments, with the hypothesis for all children. -/
@[elab_as_elim, induction_eliminator]
theorem Fragment.induction {motive : Fragment → Prop}
    (mk : ∀ name raw children, (∀ c ∈ children, motive c) → motive ⟨name, raw, children⟩) :
    ∀ f, motive f :=
  fun f => Fragment.rec (motive_1 := motive) (motive_2 := fun fs => ∀ c ∈ fs, motive c) mk
    (by simp) (fun _ _ hf hfs => by simpa using ⟨hf, hfs⟩) f

namespace Resolver

variable {resolver : Resolver} {scope : Option NameScope}

/-- The type that a written name qualifies to. -/
def typeOf? (resolver : Resolver) (scope : Option NameScope) (name : String) : Option Schema :=
  (resolver.qualify scope name).bind resolver.registry.get?

/-- The root, and the children of fragments that are reached and name a type. -/
inductive Reached (resolver : Resolver) (scope : Option NameScope) (root : Fragment) :
    Fragment → Prop where
  | root : Reached resolver scope root root
  | child {f c : Fragment} : Reached resolver scope root f →
      (resolver.typeOf? scope f.name).isSome → c ∈ f.children → Reached resolver scope root c

mutual

/-- The reached fragments as they are evaluated: children from left to right, then the parent. -/
def evaluated (resolver : Resolver) (scope : Option NameScope) : Fragment → List Fragment
  | ⟨name, raw, children⟩ =>
    match resolver.typeOf? scope name with
    | none => [⟨name, raw, children⟩]
    | some _ => evaluatedAll resolver scope children ++ [⟨name, raw, children⟩]

def evaluatedAll (resolver : Resolver) (scope : Option NameScope) : List Fragment → List Fragment
  | [] => []
  | f :: rest => evaluated resolver scope f ++ evaluatedAll resolver scope rest

end

theorem Reached.trans {root f g : Fragment} (hf : Reached resolver scope root f)
    (hg : Reached resolver scope f g) : Reached resolver scope root g := by
  induction hg with
  | root => exact hf
  | child _ ht hc ih => exact .child ih ht hc

theorem Reached.head {root c f : Fragment} (ht : (resolver.typeOf? scope root.name).isSome)
    (hc : c ∈ root.children) (h : Reached resolver scope c f) : Reached resolver scope root f :=
  (Reached.child .root ht hc).trans h

theorem Reached.eq_or_head {root f : Fragment} (h : Reached resolver scope root f) :
    f = root ∨ (resolver.typeOf? scope root.name).isSome ∧
      ∃ c ∈ root.children, Reached resolver scope c f := by
  induction h with
  | root => exact .inl rfl
  | child _ ht hc ih =>
    obtain rfl | ⟨hr, d, hd, hg⟩ := ih
    · exact .inr ⟨ht, _, hc, .root⟩
    · exact .inr ⟨hr, d, hd, .child hg ht hc⟩

theorem mem_evaluatedAll {fs : List Fragment} {f : Fragment} :
    f ∈ evaluatedAll resolver scope fs ↔ ∃ c ∈ fs, f ∈ evaluated resolver scope c := by
  induction fs with
  | nil => simp [evaluatedAll]
  | cons c rest ih => simp [evaluatedAll, ih]

theorem mem_evaluated_mk {name raw : String} {children : List Fragment} {f : Fragment} :
    f ∈ evaluated resolver scope ⟨name, raw, children⟩ ↔
      f = ⟨name, raw, children⟩ ∨ (resolver.typeOf? scope name).isSome ∧
        ∃ c ∈ children, f ∈ evaluated resolver scope c := by
  rw [evaluated]
  cases resolver.typeOf? scope name <;> simp [mem_evaluatedAll, or_comm]

/-- Evaluation comes to the reached fragments and no others. -/
theorem mem_evaluated_iff {root f : Fragment} :
    f ∈ evaluated resolver scope root ↔ Reached resolver scope root f := by
  constructor
  · intro h
    induction root with
    | mk name raw children ih =>
      obtain rfl | ⟨ht, c, hc, h⟩ := mem_evaluated_mk.mp h
      · exact .root
      · exact .head ht hc (ih c hc h)
  · intro h
    induction root with
    | mk name raw children ih =>
      rw [mem_evaluated_mk]
      exact h.eq_or_head.imp_right fun ⟨ht, c, hc, h⟩ => ⟨ht, c, hc, ih c hc h⟩

end Resolver

end DocAnnotations
