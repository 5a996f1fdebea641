import DocAnnotations.Proofs.Comment.Clear
import DocAnnotations.Proofs.Resolver.Kept
import DocAnnotations.Proofs.Resolver.Literal

/-! Where the annotations that are made of a comment show placeholders. -/
namespace DocAnnotations.Resolver

open Argument Comment

variable {resolver : Resolver} {scope : Option NameScope} {key : DeclarationKey} {schema : Schema}
  {comment name raw : String} {f : Fragment} {ps : List Part} {values : List Value}

theorem free_given (hscope : ∀ s ∈ scope, s.table.Free) {leaf : Lexeme → Value}
    {sketches : Entries Sketch}
    (h : ∀ e ∈ sketches, ¬ Mentions e.1.toList ∧ (e.2.value leaf).Free) :
    (Value.map (resolver.given scope leaf sketches)).Free := by
  have hentries : ∀ e ∈ sketches.mapContents fun _ w => w.value leaf,
      ¬ Mentions e.1.toList ∧ e.2.Free := by
    intro e he
    obtain ⟨d, hd, rfl⟩ := List.mem_map.mp he
    exact h d hd
  rw [given, Value.free_map]
  cases scope with
  | none => exact hentries
  | some s =>
    have hlookup : FreeLookup ((some s).map (·.lookup)) := freeLookup_of_scope hscope
    intro e he
    obtain ⟨d, hd, rfl⟩ := List.mem_map.mp he
    obtain ⟨hkey, hvalue⟩ := hentries d hd
    refine ⟨hkey, ?_⟩
    dsimp only
    split
    next => exact free_qualifyValue hlookup _ hvalue
    next => exact hvalue

theorem free_seen_of_child {l : Lexeme} {n : Nat} (hvalues : ∀ v ∈ values, v.Free)
    (hl : l.child? = some n) (hn : n < values.length) : (seen values l).Free := by
  rw [seen, label_of_child? hl, get?_placeholders, List.getElem?_eq_getElem hn, Option.getD_some]
  exact hvalues _ (List.getElem_mem hn)

theorem free_plain {l : Lexeme} (h : ¬ Mentions l.label.toList) : l.plain.Free := by
  have htext : (Value.text l.label).Free := Value.free_text.mpr h
  cases l with
  | punct c | text ps => exact htext
  | word ps =>
    rw [Lexeme.plain]
    obtain hv | hv | ⟨b, hv⟩ | ⟨n, hv⟩ | ⟨x, hv⟩ := scalar_value_cases (Lexeme.word ps).label <;>
      simp [hv, h]

theorem free_seen_of_written {l : Lexeme} (h : ¬ Mentions l.label.toList) :
    (seen values l).Free := by
  have hnone : (placeholders values).get? l.label = none :=
    get?_placeholders_of_ne fun n _ hn => h (hn ▸ mentions_placeholder n)
  rw [seen, hnone]
  exact free_plain h

/-- The attributes of an annotation whose children are all used up show nothing but them. -/
theorem free_used (hf : Annotates comment f ps) (hclear : Clear (undecorate comment.toList))
    (hscope : ∀ s ∈ scope, s.table.Free) (hconsumed : Consumed ps)
    (hpositional : ∀ field ∈ schema.positional, ¬ Mentions field.toList)
    (hlength : values.length = f.children.length) (hvalues : ∀ v ∈ values, v.Free)
    {attributes : Entries Value} (ha : attributesOf schema f.raw = .ok attributes) :
    (Value.map (resolver.used scope (placeholders values) attributes)).Free := by
  obtain ⟨sketches, hgives, rfl⟩ := Sketch.exists_gives hf.lex_eq ha
  rw [used_eq_given]
  refine free_given hscope (hgives.free (hf.parted parted_clear hclear) hconsumed hpositional
    (fun l hl ⟨ls, hls, hmem⟩ => ?_) fun l hl => free_seen_of_written hl)
  obtain ⟨n, hn⟩ := Option.isSome_iff_exists.mp hl
  exact free_seen_of_child hvalues hn (hlength ▸ hf.lt_of_child? hls hmem hn)

/-- From every log, `x` gives results with the property only, and the attributes that it remembers
show no placeholder. -/
def Conceals {α : Type} (P : α → Prop) (x : ReadM α) : Prop :=
  ∀ log, (∀ a, (x log).1 = .ok a → P a) ∧
    ∀ r ∈ (x log).2.attributes, r ∈ log.attributes ∨ (Value.map r.2).Free

namespace Conceals

variable {α β : Type} {P Q : α → Prop}

theorem pure {a : α} (h : P a) : Conceals P (Pure.pure a : ReadM α) :=
  fun _ => ⟨fun _ hb => Except.ok.inj hb ▸ h, fun _ hr => .inl hr⟩

theorem mono {x : ReadM α} (h : ∀ a, P a → Q a) (hx : Conceals P x) : Conceals Q x :=
  fun log => ⟨fun a ha => h a ((hx log).1 a ha), (hx log).2⟩

theorem bind {R : β → Prop} {x : ReadM α} {k : α → ReadM β} (hx : Conceals P x)
    (hk : ∀ a, P a → Conceals R (k a)) : Conceals R (x >>= k) := by
  intro log
  obtain ⟨hresult, hlog⟩ := hx log
  rw [bind_apply]
  cases hrun : x log with
  | mk result next =>
    rw [hrun] at hresult hlog
    cases result with
    | error stop => exact ⟨nofun, hlog⟩
    | ok a =>
      obtain ⟨hresult', hlog'⟩ := hk a (hresult a rfl) next
      exact ⟨hresult', fun r hr => (hlog' r hr).elim (hlog r) .inr⟩

end Conceals

/-- The annotation kept as text, or a value that shows no placeholder. -/
def KeptOrFree (scope : Option NameScope) (key : DeclarationKey) (name raw : String) (v : Value) :
    Prop :=
  v = keep scope (some key) name raw ∨ v.Free

theorem conceals_fallBack (schema : Schema) (scope : Option NameScope) (key : DeclarationKey)
    (name raw : String) (e : ReadError) :
    Conceals (KeptOrFree scope key name raw) (fallBack schema scope key name raw e) := by
  intro log
  refine ⟨fun v hv => ?_, fun r hr => .inl ?_⟩
  · unfold fallBack at hv
    dsimp only at hv
    rw [bind_of_ok (modify_apply _ log)] at hv
    split at hv
    next => cases hv
    next => cases hv; exact .inl rfl
  · rwa [attributes_fallBack] at hr

/-- Making an instance from free attributes conceals placeholders, or the annotation is kept as
text. -/
theorem conceals_settle (hfactory : schema.factory.Faithful schema.required)
    (hused : ∀ attributes, attributesOf schema raw = .ok attributes →
      (Value.map (resolver.used scope (placeholders values) attributes)).Free) :
    Conceals (KeptOrFree scope key name raw)
      (resolver.settle scope key schema name raw values) := by
  intro log
  unfold settle
  split
  next e _ => exact conceals_fallBack schema scope key name raw e log
  next => exact ⟨nofun, fun _ hr => .inl hr⟩
  next attributes ha =>
    have hfree := hused attributes ha
    have hrecord : ∀ r ∈ (log.record key schema.name
        (resolver.used scope (placeholders values) attributes)).attributes,
          r ∈ log.attributes ∨ (Value.map r.2).Free := by
      intro r hr
      rcases List.mem_cons.mp hr with rfl | hr
      · exact .inr hfree
      · exact .inl hr
    simp only [hydrate_apply]
    cases hmade : hydrateSchema schema key.text _ with
    | ok v =>
      refine ⟨fun w hw => ?_, hrecord⟩
      cases hw
      have hvalues := fun e he => (Value.free_map.mp hfree e he).2
      exact .inr (free_of_hydrateSchema hfactory hvalues hmade)
    | error e =>
      obtain ⟨hresult, hlog⟩ := conceals_fallBack schema scope key name raw e (log.record _ _ _)
      exact ⟨hresult, fun r hr => (hlog r hr).elim (hrecord r) .inr⟩

theorem conceals_resolveAll {fs : List Fragment}
    (h : ∀ c ∈ fs, Conceals Value.Free (resolver.resolve scope key c)) :
    Conceals (fun vs => vs.length = fs.length ∧ ∀ v ∈ vs, v.Free)
      (resolver.resolveAll scope key fs) := by
  induction fs with
  | nil => exact .pure ⟨rfl, nofun⟩
  | cons c rest ih =>
    obtain ⟨hc, hrest⟩ := List.forall_mem_cons.mp h
    rw [resolveAll]
    refine hc.bind fun v hv => (ih hrest).bind fun vs hvs => .pure ⟨?_, ?_⟩
    · rw [List.length_cons, List.length_cons, hvs.1]
    · exact List.forall_mem_cons.mpr ⟨hv, hvs.2⟩

/-- The ways to make a fragment an annotation: as the type that its name stands for, or as a given
one. -/
def Makes (resolver : Resolver) (scope : Option NameScope) (key : DeclarationKey) (f : Fragment)
    (x : ReadM Value) : Prop :=
  x = resolver.resolve scope key f ∨ ∃ type, x = resolver.convert scope key type f

theorem Makes.cases {x : ReadM Value} (h : Makes resolver scope key f x) :
    x = Pure.pure (keep scope (some key) f.name f.raw) ∨
      ∃ type schema, resolver.registry.get? type = some schema ∧
        x = (do
          let values ← resolver.resolveAll scope key f.children
          resolver.settle scope key schema f.name f.raw values) := by
  rcases h with rfl | ⟨type, rfl⟩
  · obtain ⟨name, raw, children⟩ := f
    cases ht : resolver.typeOf? scope name with
    | none => exact .inl (resolve_of_none ht)
    | some schema =>
      obtain ⟨type, -, hs⟩ := Option.bind_eq_some_iff.mp ht
      exact .inr ⟨type, schema, hs, resolve_of_some ht⟩
  · unfold convert
    cases hs : resolver.registry.get? type with
    | none => exact .inl rfl
    | some schema => exact .inr ⟨type, schema, hs, rfl⟩

theorem consumed_of_children_eq_nil (hf : Annotates comment f ps) (h : f.children = []) :
    Consumed ps := by
  intro ls hls l hl
  have hwritten := Lexeme.written_iff.mp (hf.children_eq_nil_iff.mp h)
  exact .inl (Lexeme.written_iff.mpr fun n hn =>
    hwritten n (Annotates.mem_of_mem_parts hls hl hn))

section Free

variable (hscope : ∀ s ∈ scope, s.table.Free)
include hscope

theorem free_keep_iff_of_annotates (hf : Annotates comment f ps)
    (hcomment : ¬ Mentions (undecorate comment.toList)) :
    (keep scope (some key) f.name f.raw).Free ↔ f.children = [] := by
  rw [free_keep_iff hscope, hf.mentions_raw_iff hcomment, not_not]

variable (hregistry : ∀ e ∈ resolver.registry.schemas, e.2.Faithful)
  (hclear : Clear (undecorate comment.toList))
include hregistry hclear

theorem conceals_of_children (hf : Annotates comment f ps) (hconsumed : Consumed ps)
    (hchildren : ∀ c ∈ f.children, Conceals Value.Free (resolver.resolve scope key c))
    {x : ReadM Value} (hx : Makes resolver scope key f x) :
    Conceals (KeptOrFree scope key f.name f.raw) x := by
  rcases hx.cases with rfl | ⟨type, schema, hs, rfl⟩
  · exact .pure (.inl rfl)
  · have hschema := hregistry _ (Entries.mem_of_get? hs)
    exact (conceals_resolveAll hchildren).bind fun values hvalues =>
      conceals_settle hschema.factory fun attributes ha =>
        free_used hf hclear hscope hconsumed hschema.positional hvalues.1 hvalues.2 ha

/-- An annotation without children shows no placeholder in any case. -/
theorem conceals_of_childless (hf : Annotates comment f ps) (h : f.children = []) :
    Conceals Value.Free (resolver.resolve scope key f) := by
  refine (conceals_of_children hscope hregistry hclear hf (consumed_of_children_eq_nil hf h)
    (by simp [h]) (.inl rfl)).mono fun v hv => ?_
  rcases hv with rfl | hv
  · exact (free_keep_iff_of_annotates hscope hf hclear.not_mentions).mpr h
  · exact hv

end Free

/-- What is made of the annotations of a comment that mentions no placeholder, where names, types
and their instances mention none of their own accord. An annotation that is kept as text shows
placeholders exactly if it has children. All other annotations, with all that they hold, and all
attributes that are remembered show none if every child is a whole word of the argument list and no
key. Line breaks and tabs are left out of quoted texts, so there the comment must mention no
placeholder without them either. -/
theorem makes_conceals (key : DeclarationKey) (hcomment : ¬ Mentions comment.toList)
    (hscope : ∀ s ∈ scope, s.table.Free)
    (hregistry : ∀ e ∈ resolver.registry.schemas, e.2.Faithful) (hf : Annotates comment f ps) :
    ((keep scope (some key) f.name f.raw).Free ↔ f.children = []) ∧
      (Clear (undecorate comment.toList) → Consumed ps →
        ∀ x, Makes resolver scope key f x → ∀ log,
          (∀ v, (x log).1 = .ok v → v = keep scope (some key) f.name f.raw ∨ v.Free) ∧
            ∀ r ∈ (x log).2.attributes, r ∈ log.attributes ∨ (Value.map r.2).Free) := by
  have htext : ¬ Mentions (undecorate comment.toList) :=
    fun hm => hcomment (mentions_of_undecorate hm)
  refine ⟨free_keep_iff_of_annotates hscope hf htext, fun hclear hconsumed x hx => ?_⟩
  refine conceals_of_children hscope hregistry hclear hf hconsumed (fun c hc => ?_) hx
  obtain ⟨qs, hqs, hnil⟩ := hf.exists_of_mem_children hc
  exact conceals_of_childless hscope hregistry hclear hqs hnil

theorem faithful_outerAndInner : ∀ e ∈ outerAndInner.registry.schemas, e.2.Faithful := by
  have hempty : ¬ Mentions "".toList := by decide
  have houter : ∀ parameters, Factory.outer.Faithful parameters :=
    Factory.faithful_model (by simpa using hempty) nofun nofun
  have hinner : ∀ parameters, Factory.inner.Faithful parameters :=
    Factory.faithful_model (by simp) nofun nofun
  exact List.forall_mem_cons.mpr ⟨⟨by decide, houter _⟩,
    List.forall_mem_cons.mpr ⟨⟨by decide, hinner _⟩, nofun⟩⟩

/-- The scope of a class with an import. -/
def appScope : NameScope :=
  { table := ⟨"App", [("Lib\\Tag", "Tag")]⟩, known := fun _ => false }

theorem free_appScope : appScope.table.Free :=
  ⟨by decide, List.forall_mem_cons.mpr ⟨by decide, nofun⟩⟩

/-- A child that is a value of its own. -/
theorem makes_conceals_nested :
    let comment := "/** @Outer(label=\"a\", inner=@Inner(x=1)) */"
    let key : DeclarationKey := { className := "Host" }
    let f : Fragment := ⟨"Outer", "(label=\"a\", inner=_child_0)", [⟨"Inner", "(x=1)", []⟩]⟩
    ∃ ps, Annotates comment f ps ∧ Consumed ps ∧
      ¬ (keep (some appScope) (some key) f.name f.raw).Free ∧
      ∀ log, (∀ v, (outerAndInner.resolve (some appScope) key f log).1 = .ok v →
          v = keep (some appScope) (some key) f.name f.raw ∨ v.Free) ∧
        ∀ r ∈ (outerAndInner.resolve (some appScope) key f log).2.attributes,
          r ∈ log.attributes ∨ (Value.map r.2).Free := by
  intro comment key f
  let o : Occurrence := ⟨"Outer".toList, "(label=\"a\", inner=@Inner(x=1)) ".toList⟩
  have hmem : o ∈ occurrences comment := by decide +kernel
  have hf : o.fragment .withChildren = f := by decide +kernel
  have hannotates : Annotates comment f o.parts := hf ▸ .whole hmem
  have hconsumed : Consumed o.parts := by
    have hlex : Lexeme.lex o.parts = .ok [.punct '(', .word ("label".toList.map .char), .punct '=',
        .text [.char 'a'], .punct ',', .word ("inner".toList.map .char), .punct '=',
        .word [.child 0], .punct ')'] := by
      decide +kernel
    intro ls hls
    cases hlex.symm.trans hls
    decide
  have hcomment : ¬ Mentions comment.toList := by decide
  have hclear : Clear (undecorate comment.toList) := by decide
  have hscope : ∀ s ∈ some appScope, s.table.Free := by
    rintro _ ⟨⟩
    exact free_appScope
  obtain ⟨hkept, hconceals⟩ := makes_conceals key hcomment hscope faithful_outerAndInner hannotates
  refine ⟨o.parts, hannotates, hconsumed, fun hfree => ?_, fun log => ?_⟩
  · cases hkept.mp hfree
  · exact hconceals hclear hconsumed _ (.inl rfl) log

/-- An annotation without a type that is registered shows the placeholder of its child. -/
theorem resolve_shows_placeholder :
    let comment := "/** @Unknown(inner=@Inner(x=1)) */"
    let key : DeclarationKey := { className := "Host" }
    let f : Fragment := ⟨"Unknown", "(inner=_child_0)", [⟨"Inner", "(x=1)", []⟩]⟩
    let shown : Generic :=
      ⟨"Unknown", "(inner=_child_0)", { type := some "(inner=_child_0)" }, some key⟩
    ¬ Mentions comment.toList ∧ f ∈ fragments comment ∧
      (outerAndInner.resolve none key f {}).1 = .ok (.generic shown) ∧
      Mentions shown.value.toList := by
  intro comment key f shown
  exact ⟨by decide, by decide +kernel, by decide, by decide⟩

end DocAnnotations.Resolver
