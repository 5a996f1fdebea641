import DocAnnotations.Proofs.Argument.Sketch
import DocAnnotations.Proofs.Resolver.Log
import DocAnnotations.Proofs.Source.Arguments

/-! Arguments without a key give the attributes that they give as one value under the key of the
positional field, unless they are a single null. -/
namespace DocAnnotations

namespace Argument

open Text

variable {cs key : List Char} {token : Token} {label : String} {vs : List String}
  {term : String → Term} {t : Term}

/-- Values in brackets, with commas between them. -/
def listed (bracket : Bracket) (vs : List String) : List Char :=
  bracket.opener :: ((", ".toList).intercalate (vs.map String.toList) ++ [bracket.closer])

/-- Values as one value: several make a list. -/
def asOne : List String → List Char
  | [v] => v.toList
  | vs => listed .curly vs

/-- A value in parentheses under a key. -/
def underKey (key cs : List Char) : List Char :=
  '(' :: (key ++ '=' :: cs ++ [')'])

namespace Term

/-- The list of terms without keys, in brackets. -/
def listed (bracket : Bracket) (ts : List Term) : Term :=
  .group bracket (ts.map (none, ·))

/-- The term of values that are written as one. -/
def asOne : List Term → Term
  | [t] => t
  | ts => listed .curly ts

theorem value_listed (bracket : Bracket) (ts : List Term) :
    (listed bracket ts).value = .list (ts.map value) :=
  value_unkeyed bracket id ts

theorem value_asOne (ts : List Term) (hne : ts ≠ []) : (asOne ts).value = several (ts.map value) := by
  rcases ts with _ | ⟨t, _ | ⟨u, rest⟩⟩
  · exact absurd rfl hne
  · rfl
  · exact value_listed .curly _

/-- Only a single null is null. -/
theorem value_asOne_eq_null_iff {ts : List Term} :
    (asOne ts).value = .null ↔ ∃ t, ts = [t] ∧ t.value = .null := by
  rcases ts with _ | ⟨t, _ | ⟨u, rest⟩⟩
  · simp [asOne, value_listed]
  · simp [asOne]
  · simp [asOne, value_listed]

/-- Parentheses around values have the faults of the values as one. -/
theorem fault?_listed_round (ts : List Term) : (listed .round ts).fault? = (asOne ts).fault? := by
  rcases ts with _ | ⟨t, _ | ⟨u, rest⟩⟩
  · rfl
  · cases h : t.fault? <;>
      simp [listed, asOne, fault?, elementFaults, Contents.ofElements, Contents.all, h]
  · rfl

theorem depth_listed_round_le (ts : List Term) :
    (listed .round ts).depth ≤ (asOne ts).depth + 1 := by
  rcases ts with _ | ⟨t, _ | ⟨u, rest⟩⟩
  · exact Nat.le_succ 1
  · simp [listed, asOne, depth, elementsDepth]
  · exact Nat.le_succ _

theorem fault?_underKey (field : String) (t : Term) :
    (group .round [(some field, t)]).fault? = t.fault? := by
  cases h : t.fault? <;> simp [fault?, elementFaults, Contents.ofElements, Contents.all, h]

theorem value_underKey (field : String) (t : Term) :
    (group .round [(some field, t)]).value = .map [(field, t.value)] := rfl

theorem depth_underKey (field : String) (t : Term) :
    (group .round [(some field, t)]).depth = t.depth + 1 := by
  simp [depth, elementsDepth]

/-- Null is a word, and no number. -/
theorem fault?_of_value_eq_null (h : t.value = .null) : t.fault? = none := by
  cases t with
  | text s => rfl
  | group bracket elements => exact absurd h (Sketch.groupValue_ne_null _)
  | word s =>
    rw [value, Scalar.value] at h
    rw [fault?, Scalar.fault?]
    cases hword : Scalar.ofWord s with
    | null | bool b | text => rfl
    | number =>
      rw [hword] at h
      dsimp only at h
      split at h
      next n _ => exact absurd h (Sketch.numeral_value_ne_null n)
      next => cases h

end Term

theorem spells_listed (h : ∀ v ∈ vs, Spells v.toList (term v)) (bracket : Bracket) :
    Spells (listed bracket vs) (.listed bracket (vs.map term)) := by
  have helements : ∀ v ∈ vs, SpellsElement v.toList (none, term v) := fun v hv => .unkeyed (h v hv)
  have hspells := spells_group helements bracket
  rwa [List.cons_append, ← Function.comp_def (none, ·) term, ← List.map_map] at hspells

theorem spells_asOne (h : ∀ v ∈ vs, Spells v.toList (term v)) :
    Spells (asOne vs) (.asOne (vs.map term)) := by
  rcases vs with _ | ⟨v, _ | ⟨w, rest⟩⟩
  · exact spells_listed h .curly
  · exact h v List.mem_cons_self
  · exact spells_listed h .curly

theorem spells_underKey (hkey : Token.lex key = .ok [token]) (hlabel : token.label? = some label)
    (h : Spells cs t) : Spells (underKey key cs) (.group .round [(some (strip label), t)]) := by
  have helement : ∀ item ∈ [key ++ '=' :: cs], SpellsElement item (some (strip label), t) := by
    intro item hitem
    obtain rfl := List.mem_singleton.mp hitem
    exact .keyed (lexes_iff_lex.mpr hkey) hlabel h
  have hspells := @spells_group _ id _ _ helement .round
  simpa [underKey, Bracket.opener, Bracket.closer] using hspells

theorem Spells.eq {u : Term} (h : Spells cs t) (hu : Spells cs u) : t = u := by
  obtain ⟨tokens, hlexes, hspelled⟩ := h
  obtain ⟨others, hothers, hspelled'⟩ := hu
  obtain rfl := Except.ok.inj ((lexes_iff_lex.mp hlexes).symm.trans (lexes_iff_lex.mp hothers))
  exact Except.ok.inj ((State.read_start hspelled 0).symm.trans (State.read_start hspelled' 0))

/-- An argument list has a value if it has a structure in which no number is at fault. -/
theorem evaluateList_eq_ok_iff {value : Option Value} :
    evaluateList (String.ofList ('(' :: (cs ++ [')']))) = .ok value ↔
      ∃ t, Term.ofText ('(' :: (cs ++ [')'])) = .ok t ∧ t.fault? = none ∧ value = some t.value := by
  constructor
  · intro h
    rw [evaluateList, String.toList_ofList, trim_of_not_blank rfl rfl cs] at h
    obtain ⟨v, hv, rfl⟩ := exists_of_map_eq_ok h
    unfold evaluate at hv
    rw [String.toList_ofList] at hv
    split at hv
    next => cases hv
    next t ht =>
      split at hv
      next hfault =>
        cases hv
        exact ⟨t, ht, hfault, rfl⟩
      next => cases hv
      next => cases hv
  · rintro ⟨t, ht, hfault, rfl⟩
    exact evaluateList_of_ofText ht hfault

end Argument

namespace Resolver

open Argument

variable {schema : Schema} {field : String} {key cs : List Char} {token : Token} {label : String}
  {vs : List String} {term : String → Term} {t : Term}

/-- The attributes of a type with a positional field, from the value of an argument list. -/
def attributesFrom (field : String) : Option Value → Entries Value
  | some (.map entries) => entries
  | some (.list vs) =>
    match several vs with
    | .null => []
    | v => [(field, v)]
  | _ => []

/-- All attributes come from the one value of the argument text. -/
theorem attributesOf_eq_map (hpositional : schema.positional = some field) (hne : field ≠ "")
    (raw : String) : attributesOf schema raw = (evaluateList raw).map (attributesFrom field) := by
  unfold attributesOf attributes positional
  cases evaluateList raw with
  | error stop => rfl
  | ok value =>
    simp only [Except.map, bind, Except.bind, pure, Except.pure]
    split
    next hnone => rw [hpositional] at hnone; cases hnone
    next hempty => exact absurd (Option.some.inj (hpositional.symm.trans hempty)) hne
    next other _ hother =>
      obtain rfl := Option.some.inj (hpositional.symm.trans hother)
      rcases value with _ | value
      · rfl
      cases value with
      | map entries => cases entries <;> rfl
      | list vs =>
        rcases vs with _ | ⟨one, _ | ⟨other, rest⟩⟩
        · rfl
        · cases one <;> rfl
        · rfl
      | null | bool | int | float | text | generic | object => rfl

/-- A text of one structure gives attributes unless it nests too deep or has a number at fault. -/
theorem toOption_attributesOf (hpositional : schema.positional = some field) (hne : field ≠ "")
    (h : Spells ('(' :: (cs ++ [')'])) t) :
    (attributesOf schema (String.ofList ('(' :: (cs ++ [')'])))).toOption =
      if t.depth ≤ checkBalance.maxNesting ∧ t.fault? = none then
        some (attributesFrom field (some t.value))
      else none := by
  rw [attributesOf_eq_map hpositional hne]
  split
  next hread =>
    rw [evaluateList_eq_ok_iff.mpr ⟨t, h.ofText hread.1, hread.2, rfl⟩]
    rfl
  next hread =>
    cases he : evaluateList (String.ofList ('(' :: (cs ++ [')']))) with
    | error stop => rfl
    | ok value =>
      obtain ⟨u, hu, hfault, rfl⟩ := evaluateList_eq_ok_iff.mp he
      obtain ⟨hspells, hd⟩ := ofText_eq_ok_iff.mp hu
      obtain rfl := h.eq hspells
      exact absurd ⟨hd, hfault⟩ hread

theorem attributesFrom_list (field : String) (values : List Value) :
    attributesFrom field (some (.list values)) = [(field, several values)] ↔
      several values ≠ .null := by
  rw [attributesFrom]
  split
  next hnull => simp [hnull]
  next hnull => simpa using hnull

variable {resolver : Resolver} {type : String} {scope : Option NameScope} {host : DeclarationKey}
  {name raw other : String}

theorem attributes_convert_congr (hs : resolver.registry.get? type = some schema)
    (h : (attributesOf schema raw).toOption = (attributesOf schema other).toOption)
    (children : List Fragment) (log : ReadLog) :
    (resolver.convert scope host type ⟨name, raw, children⟩ log).2.attributes =
      (resolver.convert scope host type ⟨name, other, children⟩ log).2.attributes := by
  simp only [convert, hs]
  rw [bind_apply, bind_apply]
  cases resolver.resolveAll scope host children log with
  | mk result next =>
    cases result with
    | error stop => rfl
    | ok values => simp only [attributes_settle, h]

section Values

variable (hpositional : schema.positional = some field) (hne : field ≠ "")
  (hread : ∀ v ∈ vs, Spells v.toList (term v))
include hpositional hne hread

/-- Without a key, values give themselves as one value, but a null gives nothing. -/
theorem toOption_attributesOf_listed
    (hd : (Term.asOne (vs.map term)).depth < checkBalance.maxNesting) :
    (attributesOf schema (String.ofList (listed .round vs))).toOption =
      if (Term.asOne (vs.map term)).fault? = none then
        some (attributesFrom field (some (.list ((vs.map term).map Term.value))))
      else none := by
  have hdepth := Nat.le_trans (Term.depth_listed_round_le (vs.map term)) hd
  have hgives := toOption_attributesOf hpositional hne (spells_listed hread .round)
  rw [Term.fault?_listed_round, Term.value_listed] at hgives
  refine hgives.trans ?_
  simp only [hdepth, true_and]

/-- Under the key of the field, the list of several values counts as a level of its own. -/
theorem toOption_attributesOf_underKey (hkey : Token.lex key = .ok [token])
    (hlabel : token.label? = some label) (hfield : Text.strip label = field) :
    (attributesOf schema (String.ofList (underKey key (asOne vs)))).toOption =
      if (Term.asOne (vs.map term)).depth < checkBalance.maxNesting ∧
          (Term.asOne (vs.map term)).fault? = none then
        some [(field, (Term.asOne (vs.map term)).value)]
      else none := by
  have hspells := spells_underKey hkey hlabel (spells_asOne hread)
  rw [hfield] at hspells
  rw [underKey, toOption_attributesOf hpositional hne hspells, Term.fault?_underKey,
    Term.depth_underKey, Term.value_underKey]
  rfl

end Values

/-- Arguments without a key are remembered like one value under the key of the positional field,
unless they are a single null, which is taken for no argument. A list under the key must leave room
for its own brackets. -/
theorem convert_positional (hs : resolver.registry.get? type = some schema)
    (hpositional : schema.positional = some field) (hne : field ≠ "")
    (hkey : Token.lex key = .ok [token]) (hlabel : token.label? = some label)
    (hfield : Text.strip label = field) (hvs : vs ≠ [])
    (hread : ∀ v ∈ vs, Term.ofText v.toList = .ok (term v)) :
    let plain := String.ofList (listed .round vs)
    let keyed := String.ofList (underKey key (asOne vs))
    let whole := Term.asOne (vs.map term)
    (whole.depth < checkBalance.maxNesting →
      ((attributesOf schema plain).toOption = (attributesOf schema keyed).toOption ↔
        ∀ v, vs = [v] → (term v).value ≠ .null)) ∧
    (checkBalance.maxNesting ≤ whole.depth → (attributesOf schema keyed).toOption = none) ∧
    ((attributesOf schema plain).toOption = (attributesOf schema keyed).toOption →
      ∀ scope host name children log,
        (resolver.convert scope host type ⟨name, plain, children⟩ log).2.attributes =
          (resolver.convert scope host type ⟨name, keyed, children⟩ log).2.attributes) := by
  intro plain keyed whole
  have hspells : ∀ v ∈ vs, Spells v.toList (term v) := fun v hv =>
    (ofText_eq_ok_iff.mp (hread v hv)).1
  have hkeyed : (attributesOf schema keyed).toOption = _ :=
    toOption_attributesOf_underKey hpositional hne hspells hkey hlabel hfield
  refine ⟨fun hd => ?_, fun hd => ?_, fun h scope host name children log =>
    attributes_convert_congr hs h children log⟩
  · have hplain : (attributesOf schema plain).toOption = _ :=
      toOption_attributesOf_listed hpositional hne hspells hd
    have hwhole : whole.value = several ((vs.map term).map Term.value) :=
      Term.value_asOne _ (by simpa using hvs)
    have hnull : whole.value ≠ .null ↔ ∀ v, vs = [v] → (term v).value ≠ .null := by
      rw [ne_eq, Term.value_asOne_eq_null_iff]
      constructor
      · rintro h v rfl hv
        exact h ⟨term v, rfl, hv⟩
      · rintro h ⟨t, ht, hv⟩
        obtain ⟨v, rfl, rfl⟩ := List.map_eq_singleton_iff.mp ht
        exact h v rfl hv
    rw [hplain, hkeyed, ← hnull]
    by_cases hfault : whole.fault? = none
    · rw [if_pos hfault, if_pos ⟨hd, hfault⟩, Option.some.injEq, hwhole]
      exact attributesFrom_list field _
    · rw [if_neg hfault, if_neg fun h => hfault h.2]
      exact iff_of_true rfl fun hvalue => hfault (Term.fault?_of_value_eq_null hvalue)
  · rw [hkeyed, if_neg fun h => Nat.not_lt.mpr hd h.1]

theorem ofText_of_lex (tokens : List Token) (hlex : Token.lex cs = .ok tokens)
    (h : Term.ofTokens tokens = .ok t) : Term.ofText cs = .ok t := by
  rw [Term.ofText, hlex]
  exact h

/-- Two values, one of them a list, under a key between quotes. -/
theorem convert_positional_two :
    let param : Schema := ⟨"Param", Factory.param, ["name"], ["name", "type"], [], some "name", false⟩
    let resolver : Resolver := { registry := ⟨[("Param", param)]⟩ }
    let key : DeclarationKey := { className := "Host" }
    let plain : Fragment := ⟨"Param", "(null, \x7b'a'\x7d)", []⟩
    let keyed : Fragment := ⟨"Param", "(\"name\"=\x7bnull, \x7b'a'\x7d\x7d)", []⟩
    (resolver.convert none key "Param" plain {}).2.attributes =
      (resolver.convert none key "Param" keyed {}).2.attributes := by
  intro param resolver key plain keyed
  let term (v : String) : Term := if v = "null" then .word v else .group .curly [(none, .text "a")]
  have hs : resolver.registry.get? "Param" = some param := rfl
  have hword : Term.ofText "null".toList = .ok (term "null") :=
    ofText_of_lex [.word "null"] (by decide) rfl
  have hlist : Term.ofText "\x7b'a'\x7d".toList = .ok (term "\x7b'a'\x7d") :=
    ofText_of_lex [.punct '\x7b', .text "a", .punct '\x7d'] (by decide) rfl
  have hread : ∀ v ∈ ["null", "\x7b'a'\x7d"], Term.ofText v.toList = .ok (term v) :=
    List.forall_mem_cons.mpr ⟨hword, List.forall_mem_cons.mpr ⟨hlist, List.forall_mem_nil _⟩⟩
  obtain ⟨hagree, -, hconvert⟩ := convert_positional hs rfl (by decide)
    (show Token.lex "\"name\"".toList = .ok [.text "name"] by decide) rfl
    (by decide) (by simp) hread
  have hlists : ∀ v, ["null", "\x7b'a'\x7d"] = [v] → (term v).value ≠ .null := by simp
  have hplain : String.ofList (listed .round ["null", "\x7b'a'\x7d"]) = plain.raw := by
    decide
  have hkeyed : String.ofList (underKey "\"name\"".toList (asOne ["null", "\x7b'a'\x7d"])) =
      keyed.raw := by decide
  have hdepth : (Term.asOne (["null", "\x7b'a'\x7d"].map term)).depth < checkBalance.maxNesting := by
    decide
  rw [hplain, hkeyed] at hagree hconvert
  exact hconvert ((hagree hdepth).mpr hlists) none key "Param" [] {}

/-- A null without a key gives no attribute, and under the key of the field it gives one. -/
theorem convert_positional_null :
    let param : Schema := ⟨"Param", Factory.param, ["name"], ["name", "type"], [], some "name", false⟩
    let resolver : Resolver := { registry := ⟨[("Param", param)]⟩ }
    let key : DeclarationKey := { className := "Host" }
    let plain : Fragment := ⟨"Param", "(null)", []⟩
    let keyed : Fragment := ⟨"Param", "(name=null)", []⟩
    resolver.registry.get? "Param" = some param ∧ param.positional = some "name" ∧
      Term.ofText "null".toList = .ok (.word "null") ∧
      (resolver.convert none key "Param" plain {}).2.attributes = [(⟨"Host", "c", "Param"⟩, [])] ∧
      (resolver.convert none key "Param" keyed {}).2.attributes =
        [(⟨"Host", "c", "Param"⟩, [("name", .null)])] := by
  intro param resolver key plain keyed
  have hword : Term.ofText "null".toList = .ok (.word "null") :=
    ofText_of_lex [.word "null"] (by decide) rfl
  exact ⟨rfl, rfl, hword, by decide +kernel, by decide +kernel⟩

end Resolver

end DocAnnotations
