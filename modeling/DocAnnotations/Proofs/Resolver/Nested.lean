import DocAnnotations.Proofs.Comment.Written
import DocAnnotations.Proofs.Resolver.Failure

/-! Annotations with children, from their text to the attributes that are remembered. -/
namespace DocAnnotations

namespace Fragment

theorem placeholder_injective : Function.Injective placeholder := by
  intro m n h
  have hdigits : Nat.toDigits 10 m = Nat.toDigits 10 n := by
    have := congrArg String.toList h
    simpa [toList_placeholder] using this
  have := congrArg (Nat.ofDigitChars 10 · 0) hdigits
  simpa using this

open Argument in
theorem plainWord_placeholder (n : Nat) : PlainWord (placeholder n) where
  bare := by
    refine bare_of_all (fun h => ?_) (List.all_eq_true.mpr fun c hc => ?_)
    · have := congrArg String.toList h
      simp [toList_placeholder] at this
    · have hall : ("_child0123456789".toList.all fun c =>
          !(Text.isBlank c || Token.isPunct c || Token.isQuote c)) = true := by decide +kernel
      exact List.all_eq_true.mp hall c (mem_placeholder hc)
  isText := by
    have hlist : (placeholder n).toList = '_' :: ("child_".toList ++ Nat.toDigits 10 n) :=
      toList_placeholder n
    rw [ofWord_of_head hlist (by decide) (by decide), hlist]
    rfl

end Fragment

namespace ReadLog

/-- The attributes of the latest instance of a type on a declaration. -/
def recorded (log : ReadLog) (key : DeclarationKey) (type : String) : Option (Entries Value) :=
  (log.attributes.find? (·.1 = ⟨key.className, key.itemName, type⟩)).map (·.2)

theorem recorded_record (log : ReadLog) (key : DeclarationKey) (type : String)
    (attributes : Entries Value) :
    (log.record key type attributes).recorded key type = some attributes := by
  simp [recorded, record]

end ReadLog

namespace Resolver

open Argument Comment

theorem get?_zipIdx (values : List Value) (k n : Nat) :
    Entries.get? ((values.zipIdx k).map fun c => (Fragment.placeholder c.2, c.1))
      (Fragment.placeholder (k + n)) = values[n]? := by
  induction values generalizing k n with
  | nil => rfl
  | cons v rest ih =>
    rw [List.zipIdx_cons, List.map_cons, Entries.get?]
    cases n with
    | zero => rw [Nat.add_zero, if_pos rfl, List.getElem?_cons_zero]
    | succ n =>
      have hne : Fragment.placeholder k ≠ Fragment.placeholder (k + (n + 1)) :=
        Fragment.placeholder_injective.ne (by omega)
      have := ih (k + 1) n
      rw [if_neg hne, List.getElem?_cons_succ, ← this, Nat.add_assoc, Nat.add_comm 1 n]

/-- Each placeholder stands for the child with its number. -/
theorem get?_placeholders (values : List Value) (n : Nat) :
    (placeholders values).get? (Fragment.placeholder n) = values[n]? := by
  simpa [placeholders] using get?_zipIdx values 0 n

theorem get?_placeholders_of_ne {values : List Value} {s : String}
    (h : ∀ n < values.length, s ≠ Fragment.placeholder n) :
    (placeholders values).get? s = none := by
  rw [← Entries.hasKey_eq_false_iff, ← Bool.not_eq_true, Entries.hasKey_iff_mem]
  rw [Entries.keys, placeholders, List.map_map, List.mem_map]
  rintro ⟨⟨v, n⟩, hm, rfl⟩
  exact h n (List.snd_lt_of_mem_zipIdx hm) rfl

theorem substituteItems_eq_map (children : Entries Value) (items : List Value) :
    substituteItems children items = items.map (substitute children) := by
  induction items with
  | nil => rfl
  | cons v rest ih => simp [substituteItems, ih]

theorem substituteEntries_eq_map (children : Entries Value) (entries : List (String × Value)) :
    substituteEntries children entries = entries.map fun e => (e.1, substitute children e.2) := by
  induction entries with
  | nil => rfl
  | cons e rest ih => simp [substituteEntries, ih]

section Substitute

variable {α : Type} {children : Entries Value} {word : α → String} {valueOf : α → Value}

theorem substitute_atom {a : Atom α}
    (hc : ∀ b ∈ a.child?, children.get? (word b) = some (valueOf b))
    (ht : ∀ s ∈ a.text?, children.get? s = none) :
    substitute children (a.value fun b => .text (word b)) = a.value valueOf := by
  cases a with
  | null | bool | int => rfl
  | text s => simp [Atom.value, substitute, ht s rfl]
  | child b => simp [Atom.value, substitute, hc b rfl]

/-- The words that stand for children give way to them at any depth, and other texts stay. -/
theorem substitute_value {v : Written α}
    (hc : ∀ b ∈ v.children, children.get? (word b) = some (valueOf b))
    (ht : ∀ s ∈ v.texts, children.get? s = none) :
    substitute children (v.value fun b => .text (word b)) = v.value valueOf := by
  induction v with
  | atom a =>
    rw [Written.value_atom, Written.value_atom]
    exact substitute_atom (fun b hb => hc b (by simpa using hb))
      fun s hs => ht s (by simpa using hs)
  | list items ih =>
    rw [Written.children_list] at hc
    rw [Written.texts_list] at ht
    rw [Written.value_list, Written.value_list, substitute, substituteItems_eq_map, List.map_map]
    exact congrArg _ (List.map_congr_left fun v hv =>
      ih v hv (fun b hb => hc b (List.mem_flatMap.mpr ⟨v, hv, hb⟩))
        fun s hs => ht s (List.mem_flatMap.mpr ⟨v, hv, hs⟩))
  | map entries ih =>
    rw [Written.children_map] at hc
    rw [Written.texts_map] at ht
    rw [Written.value_map, Written.value_map, substitute, substituteEntries_eq_map, List.map_map]
    exact congrArg _ (List.map_congr_left fun e he => congrArg _ <|
      ih e he (fun b hb => hc b (List.mem_flatMap.mpr ⟨e, he, hb⟩))
        fun s hs => ht s (List.mem_flatMap.mpr ⟨e, he, hs⟩))

end Substitute

theorem qualifyTypeNames_nil (scope : Option NameScope) (attributes : Entries Value) :
    qualifyTypeNames [] scope attributes = attributes := by
  cases scope with
  | none => rfl
  | some scope => simp [qualifyTypeNames, namesTypes, Entries.mapContents]

variable {resolver : Resolver} {scope : Option NameScope} {key : DeclarationKey} {schema : Schema}
  {name raw : String} {arguments : Arguments Child} {valueOf : Child → Value}

/-- The attributes that an instance takes from numbered arguments are the ones that were written,
with the values of the children in their places. -/
theorem used_number (hnames : resolver.typeNames = [])
    (ht : ∀ n < arguments.children.length, Fragment.placeholder n ∉ arguments.texts) :
    resolver.used scope (placeholders (arguments.children.map valueOf))
      (arguments.number.values fun b => .text (placeholderOf b)) = arguments.values valueOf := by
  have hchild : ∀ b ∈ arguments.number.children,
      (placeholders (arguments.children.map valueOf)).get? (placeholderOf b) =
        some (valueOf b.2) := by
    intro b hb
    rw [Arguments.children_number, List.mem_map] at hb
    obtain ⟨⟨c, n⟩, hm, rfl⟩ := hb
    have hc : arguments.children[n]? = some c := List.mk_mem_zipIdx_iff_getElem?.mp hm
    rw [placeholderOf, get?_placeholders, List.getElem?_map]
    change Option.map valueOf arguments.children[n]? = some (valueOf c)
    rw [hc, Option.map_some]
  have htext : ∀ s ∈ arguments.number.texts,
      (placeholders (arguments.children.map valueOf)).get? s = none := by
    rw [Arguments.texts_number]
    intro s hs
    refine get?_placeholders_of_ne fun n hn he => ht n (by simpa using hn) (he ▸ hs)
  have hsubstitute : (arguments.number.values fun b => .text (placeholderOf b)).mapContents
      (fun _ v => substitute (placeholders (arguments.children.map valueOf)) v) =
        arguments.number.values (valueOf ∘ Prod.snd) := by
    rw [Entries.mapContents, Arguments.values, Arguments.values, List.map_map]
    exact List.map_congr_left fun e he => congrArg _ <|
      substitute_value (fun b hb => hchild b (List.mem_flatMap.mpr ⟨e, he, hb⟩))
        fun s hs => htext s (List.mem_flatMap.mpr ⟨e, he, hs⟩)
  rw [used, hnames, qualifyTypeNames_nil, hsubstitute, ← Arguments.values_relabel,
    Arguments.relabel_number]

/-- The attributes of a printed argument list, for every type. -/
theorem attributesOf_print {α : Type} {arguments : Arguments α} {word : α → String}
    (h : arguments.Valid) (hd : arguments.depth ≤ checkBalance.maxNesting)
    (hw : ∀ b, PlainWord (word b)) :
    attributesOf schema (String.ofList (arguments.term word).print) =
      .ok (arguments.values fun b => .text (word b)) := by
  rw [attributesOf, Arguments.attributes_print h hd hw]
  simp only [bind, Except.bind]
  split
  next => rfl
  next => rfl
  next field _ _ =>
    by_cases he : arguments = []
    · subst he
      rw [Arguments.positional_print_nil hw]
      rfl
    · have hne : (!(arguments.values fun b => .text (word b)).isEmpty) = true := by
        simp [Arguments.values, he]
      rw [if_pos hne]
      rfl

/-- The attributes of an instance are remembered, also if it cannot be made. -/
theorem recorded_settle {attributes : Entries Value} {values : List Value}
    (ha : attributesOf schema raw = .ok attributes) (log : ReadLog) :
    (resolver.settle scope key schema name raw values log).2.recorded key schema.name =
      some (resolver.used scope (placeholders values) attributes) := by
  rw [ReadLog.recorded, attributes_settle, ha]
  exact ReadLog.recorded_record _ _ _ _

theorem hasValue_fragments {children : List Child}
    (hv : ∀ c ∈ children, (resolver.resolve scope key c.fragment {}).1 = .ok (valueOf c)) :
    List.Forall₂ (resolver.HasValue scope key) (children.map Child.fragment)
      (children.map valueOf) := by
  rw [List.forall₂_map_left_iff, List.forall₂_map_right_iff, List.forall₂_same]
  exact fun c hc log => (resolver.steady_resolve scope key c.fragment log).trans (hv c hc)

/-- From the text of an annotation to the attributes that are remembered: the text holds this one
annotation, and each child, however deep it stands, gives way to what its own fragment resolves
to. -/
theorem recorded_printed (hname : IsName name) (h : arguments.Valid)
    (hd : arguments.depth ≤ checkBalance.maxNesting) (hc : ∀ c ∈ arguments.children, c.Valid)
    (ht : ∀ n < arguments.children.length, Fragment.placeholder n ∉ arguments.texts)
    (htype : resolver.typeOf? scope name = some schema) (hnames : resolver.typeNames = [])
    (hv : ∀ c ∈ arguments.children,
      (resolver.resolve scope key c.fragment {}).1 = .ok (valueOf c)) :
    ∃ f, fragments (String.ofList (printed name (arguments.term Child.text))) = [f] ∧
      f.name = name ∧ f.children = arguments.children.map Child.fragment ∧
      ∀ log, (resolver.resolve scope key f log).2.recorded key schema.name =
        some (arguments.values valueOf) := by
  refine ⟨_, fragments_printed hname h hc, rfl, rfl, fun log => ?_⟩
  obtain ⟨middle, hmiddle⟩ := exists_resolve_eq_settle htype (hasValue_fragments hv) log
  have hattributes : attributesOf schema
      (String.ofList (arguments.number.term placeholderOf).print) =
        .ok (arguments.number.values fun b => .text (placeholderOf b)) :=
    attributesOf_print (Arguments.valid_number.mpr h) (by rwa [Arguments.depth_number])
      fun b => Fragment.plainWord_placeholder b.1
  rw [hmiddle, recorded_settle hattributes middle, used_number hnames ht]

/-- Rows in a list and in a map inside it, and a text that looks like a row. -/
theorem recorded_printed_rows :
    let row : Schema := ⟨"Row", Factory.model "Row" [⟨"x", .integer, none⟩], ["x"], ["x"], [],
      none, false⟩
    let table : Schema := ⟨"Table", Factory.model "Table" [⟨"rows", .anything, none⟩], ["rows"],
      ["rows"], [], none, false⟩
    let resolver : Resolver := { registry := ⟨[("Row", row), ("Table", table)]⟩ }
    let key : DeclarationKey := { className := "Host" }
    let text := "@Table(\"rows\"=\x7b@Row(\"x\"=1), \x7b\"last\"=@Row(\"x\"=-2)\x7d\x7d, " ++
      "\"note\"=\"@Row(\"\"x\"\"=3)\")"
    ∃ f, fragments text = [f] ∧
      (resolver.resolve none key f {}).2.recorded key "Table" =
        some [("rows", .list [.object "Row" [("x", .int 1)],
          .map [("last", .object "Row" [("x", .int (-2))])]]), ("note", .text "@Row(\"x\"=3)")] := by
  intro row table resolver key text
  let child (n : Int) : Child := ⟨"Row", [("x", .atom (.int n))]⟩
  let arguments : Arguments Child :=
    [("rows", .list [.atom (.child (child 1)), .map [("last", .atom (.child (child (-2))))]]),
      ("note", .atom (.text "@Row(\"x\"=3)"))]
  have hname : IsName "Table" := by decide
  have hdepth : arguments.depth ≤ checkBalance.maxNesting := by decide
  have htype : resolver.typeOf? none "Table" = some table := rfl
  have hvalid : arguments.Valid := by
    have hlast : ValidKeys ["last"] := by decide
    have hnote : Clean "@Row(\"x\"=3)" := by decide
    refine ⟨by decide, List.forall_mem_cons.mpr ⟨?_, List.forall_mem_cons.mpr ⟨?_,
      List.forall_mem_nil _⟩⟩⟩
    · simp [Atom.Valid, hlast]
    · simpa [Atom.Valid] using hnote
  have hchildren : arguments.children = [child 1, child (-2)] := by
    simp [Arguments.children, arguments, Atom.child?]
  have hchild : ∀ c ∈ arguments.children, c.Valid := by
    have hvalue (n : Int) (hn : (Atom.int n : Atom Empty).Valid) : (child n).Valid :=
      ⟨(by decide : IsName "Row"), (by decide : ValidKeys ["x"]), by
        simpa [child] using hn⟩
    rw [hchildren]
    exact List.forall_mem_cons.mpr ⟨hvalue 1 (by decide),
      List.forall_mem_cons.mpr ⟨hvalue (-2) (by decide), List.forall_mem_nil _⟩⟩
  have hplain : ∀ n < arguments.children.length,
      Fragment.placeholder n ∉ arguments.texts := by decide
  have hvalue : ∀ c ∈ arguments.children, (resolver.resolve none key c.fragment {}).1 =
      .ok (.object c.name (c.arguments.values Empty.elim)) := by decide +kernel
  obtain ⟨f, hf, -, -, hrecorded⟩ :=
    recorded_printed hname hvalid hdepth hchild hplain htype rfl hvalue
  have htext : String.ofList (printed "Table" (Arguments.term Child.text arguments)) = text := by
    decide
  exact ⟨f, htext ▸ hf, hrecorded {}⟩

end Resolver

end DocAnnotations
