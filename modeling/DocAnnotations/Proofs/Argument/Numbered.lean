import DocAnnotations.Proofs.Argument.Written

/-! Written values with their children numbered from left to right. -/
namespace DocAnnotations.Argument

variable {α β γ : Type}

namespace Atom

/-- The atom with another child in the place of its child. -/
def relabel (f : α → β) : Atom α → Atom β
  | null => null
  | bool b => bool b
  | int n => int n
  | text s => text s
  | child a => child (f a)

def child? : Atom α → Option α
  | child a => some a
  | _ => none

def text? : Atom α → Option String
  | text s => some s
  | _ => none

end Atom

namespace Written

/-- The value with other children in the places of its children. -/
def relabel (f : α → β) : Written α → Written β :=
  fold (fun a => .atom (a.relabel f)) .list .map

/-- What the atoms of a written value hold, in their order. -/
def collect (f : Atom α → Option γ) : Written α → List γ :=
  fold (fun a => (f a).toList) List.flatten fun entries => (entries.map (·.2)).flatten

def children : Written α → List α :=
  collect Atom.child?

def texts : Written α → List String :=
  collect Atom.text?

@[simp]
theorem relabel_atom (f : α → β) (a : Atom α) : relabel f (.atom a) = .atom (a.relabel f) := by
  simp [relabel]

@[simp]
theorem relabel_list (f : α → β) (items : List (Written α)) :
    relabel f (.list items) = .list (items.map (relabel f)) := by
  simp [relabel]

@[simp]
theorem relabel_map (f : α → β) (entries : List (String × Written α)) :
    relabel f (.map entries) = .map (entries.map fun e => (e.1, e.2.relabel f)) := by
  simp [relabel]

/-- What comes of a value with other children is what comes of the value, with another meaning of
its children. -/
theorem fold_relabel (f : α → β) (atom : Atom β → γ) (list : List γ → γ)
    (map : List (String × γ) → γ) (v : Written α) :
    fold atom list map (v.relabel f) = fold (fun a => atom (a.relabel f)) list map v := by
  induction v with
  | atom a => simp
  | list items ih =>
    rw [relabel_list, fold_list, fold_list, List.map_map]
    exact congrArg list (List.map_congr_left ih)
  | map entries ih =>
    rw [relabel_map, fold_map, fold_map, List.map_map]
    exact congrArg map (List.map_congr_left fun e he => congrArg _ (ih e he))

theorem depth_relabel (f : α → β) (v : Written α) : (v.relabel f).depth = v.depth :=
  fold_relabel f _ _ _ v

theorem valid_relabel (f : α → β) (v : Written α) : (v.relabel f).Valid ↔ v.Valid := by
  rw [Valid, fold_relabel, Valid]
  have h : (fun a : Atom α => (a.relabel f).Valid) = Atom.Valid := by
    funext a
    cases a <;> rfl
  rw [h]

theorem value_relabel (f : α → β) (child : β → Value) (v : Written α) :
    (v.relabel f).value child = v.value (child ∘ f) := by
  rw [value, fold_relabel, value]
  congr 1
  funext a
  cases a <;> rfl

section

variable (f : Atom α → Option γ)

@[simp]
theorem collect_atom (a : Atom α) : collect f (.atom a) = (f a).toList := by
  simp [collect]

@[simp]
theorem collect_list (items : List (Written α)) :
    collect f (.list items) = items.flatMap (collect f) := by
  simp [collect, List.flatMap]

@[simp]
theorem collect_map (entries : List (String × Written α)) :
    collect f (.map entries) = entries.flatMap (·.2.collect f) := by
  simp [collect, List.flatMap, Function.comp_def]

end

@[simp]
theorem children_atom (a : Atom α) : children (.atom a) = a.child?.toList :=
  collect_atom _ a

@[simp]
theorem children_list (items : List (Written α)) :
    children (.list items) = items.flatMap children :=
  collect_list _ items

@[simp]
theorem children_map (entries : List (String × Written α)) :
    children (.map entries) = entries.flatMap (·.2.children) :=
  collect_map _ entries

@[simp]
theorem texts_atom (a : Atom α) : texts (.atom a) = a.text?.toList :=
  collect_atom _ a

@[simp]
theorem texts_list (items : List (Written α)) : texts (.list items) = items.flatMap texts :=
  collect_list _ items

@[simp]
theorem texts_map (entries : List (String × Written α)) :
    texts (.map entries) = entries.flatMap (·.2.texts) :=
  collect_map _ entries

theorem texts_relabel (f : α → β) (v : Written α) : (v.relabel f).texts = v.texts := by
  have h : (fun a : Atom α => (a.relabel f).text?.toList) = fun a => a.text?.toList := by
    funext a
    cases a <;> rfl
  rw [texts, collect, fold_relabel, h, texts, collect]

mutual

/-- Gives each child its number, where the first has number `n`. -/
def number (n : Nat) : Written α → Written (Nat × α)
  | .atom a => .atom (a.relabel (n, ·))
  | .list items => .list (numberItems n items)
  | .map entries => .map (numberEntries n entries)

def numberItems (n : Nat) : List (Written α) → List (Written (Nat × α))
  | [] => []
  | v :: rest => number n v :: numberItems (n + v.children.length) rest

def numberEntries (n : Nat) : List (String × Written α) → List (String × Written (Nat × α))
  | [] => []
  | (key, v) :: rest => (key, number n v) :: numberEntries (n + v.children.length) rest

end

/-- Numbers change the labels of children and nothing else. -/
theorem relabel_number (n : Nat) (v : Written α) : (v.number n).relabel Prod.snd = v := by
  induction v generalizing n with
  | atom a => cases a <;> simp [number, Atom.relabel]
  | list items ih =>
    rw [number, relabel_list]
    congr 1
    induction items generalizing n with
    | nil => rfl
    | cons v rest ihr =>
      rw [numberItems, List.map_cons, ih v (by simp), ihr fun w hw => ih w (by simp [hw])]
  | map entries ih =>
    rw [number, relabel_map]
    congr 1
    induction entries generalizing n with
    | nil => rfl
    | cons e rest ihr =>
      rw [numberEntries, List.map_cons, ih e (by simp), ihr fun w hw => ih w (by simp [hw])]

/-- The children are numbered in their order. -/
theorem children_number (n : Nat) (v : Written α) :
    (v.number n).children = (v.children.zipIdx n).map Prod.swap := by
  induction v generalizing n with
  | atom a => cases a <;> simp only [number, children_atom, Atom.relabel] <;> rfl
  | list items ih =>
    rw [number, children_list, children_list]
    induction items generalizing n with
    | nil => rfl
    | cons v rest ihr =>
      rw [numberItems, List.flatMap_cons, List.flatMap_cons, ih v (by simp),
        ihr fun w hw => ih w (by simp [hw]), List.zipIdx_append, List.map_append]
  | map entries ih =>
    rw [number, children_map, children_map]
    induction entries generalizing n with
    | nil => rfl
    | cons e rest ihr =>
      rw [numberEntries, List.flatMap_cons, List.flatMap_cons, ih e (by simp),
        ihr fun w hw => ih w (by simp [hw]), List.zipIdx_append, List.map_append]

theorem relabel_numberEntries (n : Nat) (entries : List (String × Written α)) :
    (numberEntries n entries).map (fun e => (e.1, e.2.relabel Prod.snd)) = entries := by
  simpa [number] using relabel_number n (.map entries)

theorem children_numberEntries (n : Nat) (entries : List (String × Written α)) :
    (numberEntries n entries).flatMap (·.2.children) =
      ((entries.flatMap (·.2.children)).zipIdx n).map Prod.swap := by
  simpa [number] using children_number n (.map entries)

end Written

namespace Arguments

variable {arguments : Arguments α}

/-- The arguments with other children in the places of their children. -/
def relabel (f : α → β) (arguments : Arguments α) : Arguments β :=
  arguments.map fun e => (e.1, e.2.relabel f)

/-- The children of all arguments in their order. -/
def children (arguments : Arguments α) : List α :=
  arguments.flatMap (·.2.children)

/-- The texts among all arguments. -/
def texts (arguments : Arguments α) : List String :=
  arguments.flatMap (·.2.texts)

/-- The arguments with their children numbered from left to right. -/
def number (arguments : Arguments α) : Arguments (Nat × α) :=
  Written.numberEntries 0 arguments

@[simp]
theorem relabel_number (arguments : Arguments α) : arguments.number.relabel Prod.snd = arguments :=
  Written.relabel_numberEntries 0 arguments

theorem children_number (arguments : Arguments α) :
    arguments.number.children = arguments.children.zipIdx.map Prod.swap :=
  Written.children_numberEntries 0 arguments

theorem depth_relabel (f : α → β) (arguments : Arguments α) :
    (arguments.relabel f).depth = arguments.depth := by
  simp only [depth, relabel, List.map_map, Function.comp_def, Written.depth_relabel]

theorem valid_relabel (f : α → β) : (arguments.relabel f).Valid ↔ arguments.Valid := by
  have hkeys : (arguments.relabel f).map (·.1) = arguments.map (·.1) := by
    simp [relabel, Function.comp_def]
  have hvalues : (∀ e ∈ arguments.relabel f, e.2.Valid) ↔ ∀ e ∈ arguments, e.2.Valid := by
    simp only [relabel, List.forall_mem_map, Written.valid_relabel]
  exact ⟨fun h => ⟨hkeys ▸ h.keys, hvalues.mp h.values⟩,
    fun h => ⟨hkeys.symm ▸ h.keys, hvalues.mpr h.values⟩⟩

theorem values_relabel (f : α → β) (child : β → Value) (arguments : Arguments α) :
    (arguments.relabel f).values child = arguments.values (child ∘ f) := by
  simp only [values, relabel, List.map_map, Function.comp_def, Written.value_relabel]

theorem texts_relabel (f : α → β) (arguments : Arguments α) :
    (arguments.relabel f).texts = arguments.texts := by
  simp only [texts, relabel, List.flatMap_map, Written.texts_relabel]

theorem valid_number : arguments.number.Valid ↔ arguments.Valid := by
  rw [← valid_relabel Prod.snd, relabel_number]

theorem texts_number (arguments : Arguments α) : arguments.number.texts = arguments.texts := by
  rw [← texts_relabel Prod.snd, relabel_number]

theorem depth_number (arguments : Arguments α) : arguments.number.depth = arguments.depth := by
  rw [← depth_relabel Prod.snd, relabel_number]

end Arguments

end DocAnnotations.Argument
