import DocAnnotations.Proofs.Entries
import DocAnnotations.Proofs.Mention
import DocAnnotations.Resolver.Hydration

/-! Values that show no placeholder, and types whose instances show none of their own accord. -/
namespace DocAnnotations

/-- The texts of the parts of an annotation value. -/
def ValueParts.texts (parts : ValueParts) : List String :=
  parts.type.toList ++ parts.variableName.toList ++ parts.leadingWords ++ parts.comment.toList

/-- The texts that an annotation kept as text shows: its value and the parts of it. -/
def Generic.texts (g : Generic) : List String :=
  g.value :: g.parts.texts

namespace Value

mutual

/-- The texts that a value shows at any depth, keys of maps included. -/
def texts : Value → List String
  | text s => [s]
  | list items => itemTexts items
  | map entries => Entries.keys entries ++ contentTexts entries
  | generic g => g.texts
  | object _ fields => contentTexts fields
  | null | bool _ | int _ | float _ => []

def itemTexts : List Value → List String
  | [] => []
  | v :: rest => v.texts ++ itemTexts rest

def contentTexts : List (String × Value) → List String
  | [] => []
  | (_, v) :: rest => v.texts ++ contentTexts rest

end

theorem mem_itemTexts {items : List Value} {s : String} :
    s ∈ itemTexts items ↔ ∃ v ∈ items, s ∈ v.texts := by
  induction items with
  | nil => simp [itemTexts]
  | cons v rest ih => simp [itemTexts, ih]

theorem mem_contentTexts {entries : List (String × Value)} {s : String} :
    s ∈ contentTexts entries ↔ ∃ e ∈ entries, s ∈ e.2.texts := by
  induction entries with
  | nil => simp [contentTexts]
  | cons e rest ih => simp [contentTexts, ih]

/-- None of its texts mentions a placeholder. -/
def Free (v : Value) : Prop :=
  ∀ s ∈ v.texts, ¬ Mentions s.toList

instance (v : Value) : Decidable v.Free :=
  inferInstanceAs (Decidable (∀ s ∈ v.texts, ¬ Mentions s.toList))

@[simp]
theorem free_null : Free .null := nofun

@[simp]
theorem free_bool (b : Bool) : Free (.bool b) := nofun

@[simp]
theorem free_int (n : Int) : Free (.int n) := nofun

@[simp]
theorem free_float (x : Binary64) : Free (.float x) := nofun

@[simp]
theorem free_text {s : String} : Free (.text s) ↔ ¬ Mentions s.toList := by
  simp [Free, texts]

@[simp]
theorem free_list {items : List Value} : Free (.list items) ↔ ∀ v ∈ items, v.Free := by
  simp only [Free, texts, mem_itemTexts]
  exact ⟨fun h v hv s hs => h s ⟨v, hv, hs⟩, fun h s ⟨v, hv, hs⟩ => h v hv s hs⟩

@[simp]
theorem free_object {type : String} {fields : Entries Value} :
    Free (.object type fields) ↔ ∀ e ∈ fields, e.2.Free := by
  simp only [Free, texts, mem_contentTexts]
  exact ⟨fun h e he s hs => h s ⟨e, he, hs⟩, fun h s ⟨e, he, hs⟩ => h e he s hs⟩

@[simp]
theorem free_map {entries : Entries Value} :
    Free (.map entries) ↔ ∀ e ∈ entries, ¬ Mentions e.1.toList ∧ e.2.Free := by
  have hobject : Free (.object "" entries) ↔ ∀ e ∈ entries, e.2.Free := free_object
  rw [Free, texts] at hobject
  rw [Free, texts, List.forall_mem_append, hobject]
  simp [Entries.keys, imp_and, forall_and]

end Value

namespace Factory

variable {content target v : Value}

/-- What a factory makes shows a placeholder only if it is handed a value that does. -/
structure Faithful (factory : Factory) (parameters : List String) : Prop where
  build : ∀ {arguments v}, (∀ e ∈ arguments, e.1 ∈ parameters ∧ e.2.Free) →
    factory.build arguments = .ok v → v.Free
  assign : ∀ {field content target v}, content.Free → target.Free →
    factory.assign field content target = .ok v → v.Free
  method : ∀ m ∈ factory.methods, ∀ {content target v}, content.Free → target.Free →
    m.2 content target = .ok v → v.Free

theorem Faithful.call {factory : Factory} {parameters : List String}
    (hf : factory.Faithful parameters) {name : String} (hc : content.Free) (ht : target.Free)
    (h : factory.call name content target = .ok v) : v.Free := by
  rw [Factory.call] at h
  split at h
  next m hm => exact hf.method m (List.mem_of_find?_eq_some hm) hc ht h
  next => cases h

theorem free_writeField {field : String} (hc : content.Free) (ht : target.Free)
    (h : writeField field content target = .ok v) : v.Free := by
  unfold writeField at h
  split at h
  next type fields =>
    cases h
    rw [Value.free_object] at ht ⊢
    intro e he
    rcases Entries.mem_insert he with rfl | he
    · exact hc
    · exact ht e he
  next => cases h

namespace Shape

theorem atField_eq_ok {α : Type} {name : String} {x : Except FieldFault α} {a : α}
    (h : atField name x = .ok a) : x = .ok a := by
  cases x with
  | ok b => cases h; rfl
  | error fault => cases h

theorem checkFlag_eq_ok (h : checkFlag content = .ok v) : ∃ b, v = .bool b := by
  have hmap {n : Int} (h : (flagOfInt n).map Value.bool = .ok v) : ∃ b, v = .bool b := by
    cases hn : flagOfInt n with
    | ok b => rw [hn] at h; cases h; exact ⟨b, rfl⟩
    | error fault => rw [hn] at h; cases h
  unfold checkFlag at h
  split at h
  next b => cases h; exact ⟨b, rfl⟩
  next =>
    split at h
    next b _ => cases h; exact ⟨b, rfl⟩
    next => cases h
  next =>
    split at h
    next => exact hmap h
    next => cases h
  next =>
    split at h
    next =>
      split at h
      next => exact hmap h
      next => cases h
    next => cases h
  next => cases h

theorem checkInteger_eq_ok (h : checkInteger content = .ok v) : ∃ n, v = .int n := by
  unfold checkInteger at h
  split at h
  next n => cases h; exact ⟨n, rfl⟩
  next => cases h; exact ⟨_, rfl⟩
  next =>
    split at h
    next => cases h
    next =>
      split at h
      next n _ => cases h; exact ⟨n, rfl⟩
      next => cases h
  next =>
    split at h
    next => cases h
    next =>
      split at h
      next => cases h
      next n _ =>
        split at h
        next => cases h; exact ⟨n, rfl⟩
        next => cases h
  next => cases h

/-- A checked argument is kept, or turned into a number or a truth value. -/
theorem check_eq_ok {shape : Shape} {name : String} (h : shape.check name content = .ok v) :
    v = content ∨ (∃ b, v = .bool b) ∨ ∃ n, v = .int n := by
  unfold check at h
  split at h
  case h_1 | h_2 | h_3 | h_4 => cases h; exact .inl rfl
  case h_5 | h_6 =>
    have h := atField_eq_ok h
    split at h
    next => cases h; exact .inl rfl
    next => cases h
  case h_7 | h_8 => exact .inr (.inl (checkFlag_eq_ok (atField_eq_ok h)))
  case h_9 | h_10 => exact .inr (.inr (checkInteger_eq_ok (atField_eq_ok h)))
  case h_11 => cases h; exact .inl rfl
  case h_12 => cases atField_eq_ok h
  case h_13 =>
    unfold checkTexts at h
    dsimp only at h
    split at h
    next => cases h; exact .inl rfl
    next => cases h

theorem free_of_check {shape : Shape} {name : String} (hc : content.Free)
    (h : shape.check name content = .ok v) : v.Free := by
  rcases check_eq_ok h with rfl | ⟨b, rfl⟩ | ⟨n, rfl⟩
  · exact hc
  · exact Value.free_bool b
  · exact Value.free_int n

end Shape

variable {arguments contents : Entries Value}

theorem free_of_modelField {field : ModelField} (hdefault : ∀ v ∈ field.default?, v.Free)
    (ha : ∀ e ∈ arguments, e.2.Free) (h : field.content arguments = .ok v) : v.Free := by
  unfold ModelField.content at h
  split at h
  next w _ hw => exact Shape.free_of_check (ha _ (Entries.mem_of_get? hw)) h
  next w _ hw => cases h; exact hdefault _ hw
  next => cases h

theorem free_of_modelContents {fields : List ModelField}
    (hdefault : ∀ f ∈ fields, ∀ v ∈ f.default?, v.Free) (ha : ∀ e ∈ arguments, e.2.Free)
    (h : modelContents arguments fields = .ok contents) : ∀ e ∈ contents, e.2.Free := by
  induction fields generalizing contents with
  | nil => cases h; nofun
  | cons field rest ih =>
    obtain ⟨hfield, hrest⟩ := List.forall_mem_cons.mp hdefault
    rw [modelContents] at h
    split at h
    next v more hv hmore =>
      cases h
      exact List.forall_mem_cons.mpr ⟨free_of_modelField hfield ha hv, ih hrest hmore⟩
    all_goals cases h

/-- A type with checked arguments is faithful if its defaults, its hidden fields and its methods
are. -/
theorem faithful_model {typeName : String} {fields : List ModelField} {hidden : Entries Value}
    {methods : List (String × Method)} {constants : List String}
    (hdefault : ∀ f ∈ fields, ∀ v ∈ f.default?, v.Free)
    (hhidden : ∀ e ∈ hidden, e.2.Free)
    (hmethod : ∀ m ∈ methods, ∀ {content target v}, content.Free → target.Free →
      m.2 content target = .ok v → v.Free) (parameters : List String) :
    (model typeName fields hidden methods constants).Faithful parameters where
  build ha h := by
    dsimp only [model] at h
    split at h
    next contents hcontents =>
      cases h
      rw [Value.free_object]
      intro e he
      rcases List.mem_append.mp he with he | he
      · exact free_of_modelContents hdefault (fun e he => (ha e he).2) hcontents e he
      · exact hhidden e he
    next => cases h
  assign hc ht h := by
    dsimp only [model] at h
    split at h
    next => exact free_writeField hc ht h
    next => split at h <;> cases h
  method := hmethod

/-- The types of the mapping vocabulary show nothing of their own accord. -/
theorem faithful_vocabulary : ∀ f ∈ Vocabulary.types, ∀ parameters, f.Faithful parameters := by
  have htext : ¬ Mentions "".toList := by decide
  have hleft : ¬ Mentions "LEFT".toList := by decide
  refine List.forall_mem_cons.mpr ⟨?table, List.forall_mem_cons.mpr ⟨?column,
    List.forall_mem_cons.mpr ⟨?relationship, List.forall_mem_cons.mpr ⟨?orderBy, nofun⟩⟩⟩⟩
  case table => exact faithful_model (by simpa using htext) nofun nofun
  case column => exact faithful_model (by simpa using htext) nofun nofun
  case orderBy => exact faithful_model (by simp) nofun nofun
  case relationship =>
    refine faithful_model (by simpa using ⟨htext, hleft⟩) (by simpa using htext) ?_
    refine List.forall_mem_cons.mpr ⟨nofun, List.forall_mem_cons.mpr ⟨?_, nofun⟩⟩
    exact fun hc ht h => free_writeField hc ht h

end Factory

/-- The positional field mentions no placeholder, and the factory shows none of its own accord. -/
structure Schema.Faithful (schema : Schema) : Prop where
  positional : ∀ field ∈ schema.positional, ¬ Mentions field.toList
  factory : schema.factory.Faithful schema.required

theorem foldlM_invariant {ε α β : Type} {P : β → Prop} {f : β → α → Except ε β} {as : List α}
    (hstep : ∀ a ∈ as, ∀ {b c}, P b → f b a = .ok c → P c) {b c : β} (hb : P b)
    (h : as.foldlM f b = .ok c) : P c := by
  induction as generalizing b with
  | nil => cases h; exact hb
  | cons a as ih =>
    rw [List.foldlM_cons] at h
    cases ha : f b a with
    | error e => rw [ha] at h; cases h
    | ok next =>
      rw [ha] at h
      refine ih (fun a ha => hstep a (List.mem_cons_of_mem _ ha)) ?_ h
      exact hstep a List.mem_cons_self hb ha

namespace Resolver

variable {schema : Schema} {attributes : Entries Value} {v : Value}

theorem free_of_argumentsFor {arguments : Entries Value} (ha : ∀ e ∈ attributes, e.2.Free)
    (h : argumentsFor schema attributes = .ok arguments) :
    ∀ e ∈ arguments, e.1 ∈ schema.required ∧ e.2.Free := by
  unfold argumentsFor at h
  refine foldlM_invariant
    (P := fun arguments : Entries Value => ∀ e ∈ arguments, e.1 ∈ schema.required ∧ e.2.Free)
    (fun parameter hparameter arguments next harguments hnext => ?_) (by simp) h
  split at hnext
  next w hw =>
    cases hnext
    obtain ⟨name, -, hw⟩ := Option.bind_eq_some_iff.mp hw
    have hfree := ha (name, w) (Entries.mem_of_get? hw)
    intro e he
    rcases Entries.mem_insert he with rfl | he
    · exact ⟨hparameter, hfree⟩
    · exact harguments e he
  next => cases hnext

theorem free_of_applyAttribute (hf : schema.factory.Faithful schema.required)
    {target content : Value} {name : String} (hcontent : content.Free) (htarget : target.Free)
    (h : applyAttribute schema target name content = .ok v) : v.Free := by
  unfold applyAttribute at h
  split at h
  next => exact hf.assign hcontent htarget h
  next =>
    split at h
    next => exact hf.call hcontent htarget h
    next => cases h; exact htarget

theorem free_of_instantiate (hf : schema.factory.Faithful schema.required)
    {arguments : Entries Value} (harguments : ∀ e ∈ arguments, e.1 ∈ schema.required ∧ e.2.Free)
    (ha : ∀ e ∈ attributes, e.2.Free) (h : instantiate schema arguments attributes = .ok v) :
    v.Free := by
  unfold instantiate at h
  cases hbuilt : schema.factory.build arguments with
  | error fault => rw [hbuilt] at h; cases h
  | ok built =>
    rw [hbuilt] at h
    refine foldlM_invariant (P := Value.Free) (fun e he target next htarget hnext => ?_)
      (hf.build harguments hbuilt) h
    exact free_of_applyAttribute hf (ha e (List.mem_filter.mp he).1) htarget hnext

/-- An instance of a faithful type shows what its attributes show. -/
theorem free_of_hydrateSchema (hf : schema.factory.Faithful schema.required) {host : String}
    (ha : ∀ e ∈ attributes, e.2.Free) (h : hydrateSchema schema host attributes = .ok v) :
    v.Free := by
  unfold hydrateSchema at h
  split at h
  next => cases h
  next arguments harguments =>
    split at h
    next w hw =>
      cases h
      exact free_of_instantiate hf (free_of_argumentsFor ha harguments) ha hw
    next => cases h

end Resolver

theorem Registration.eq_schemaFor {r : Registration} {factory : Factory} {schema : Schema}
    (hmaker : r.maker = .factory factory) (h : r.schema = .ok schema) :
    schema = r.schemaFor factory := by
  unfold Registration.schema at h
  split at h
  next => cases h
  next =>
    rw [hmaker] at h
    dsimp only at h
    split at h
    next => cases h
    next => exact (Except.ok.inj h).symm

/-- The types of a registry with the mapping vocabulary are faithful. -/
theorem Registry.faithful_withVocabulary : ∀ e ∈ withVocabulary.schemas, e.2.Faithful := by
  have hpositional : ∀ f ∈ Vocabulary.types,
      ∀ field ∈ Registration.conventionalPositional f.required f.fields,
        ¬ Mentions field.toList := by decide
  have hadd {known : Registry} (h : addVocabulary {} = .ok known) :
      ∀ e ∈ known.schemas, e.2.Faithful := by
    refine foldlM_invariant (P := fun known : Registry => ∀ e ∈ known.schemas, e.2.Faithful)
      (fun factory hfactory known next hknown hnext => ?_) (by simp) h
    rw [register] at hnext
    split at hnext
    next schema hschema =>
      cases hnext
      obtain rfl := Registration.eq_schemaFor rfl hschema
      intro e he
      rcases Entries.mem_insert he with rfl | he
      · exact ⟨hpositional factory hfactory, Factory.faithful_vocabulary factory hfactory _⟩
      · exact hknown e he
    next => cases hnext
  unfold withVocabulary
  split
  next known h => exact hadd h
  next => simp

end DocAnnotations
