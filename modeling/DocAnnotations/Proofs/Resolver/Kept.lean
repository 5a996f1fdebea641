import DocAnnotations.Proofs.AliasTable
import DocAnnotations.Proofs.Factory.Faithful
import DocAnnotations.Resolver
import Mathlib.Data.List.TakeDrop

/-! What names stand for that mention no placeholder, and annotations that are kept as text. -/
namespace DocAnnotations

namespace AliasTable

open QualifiedName

variable {table : AliasTable} {known : String → Bool} {name : String}

/-- Neither the namespace nor an imported name mentions a placeholder. -/
def Free (table : AliasTable) : Prop :=
  ¬ Mentions table.scope.toList ∧ ∀ i ∈ table.imports, ¬ Mentions i.1.toList

theorem mentions_below_iff {scope rest : String} :
    Mentions (below scope rest).toList ↔ Mentions scope.toList ∨ Mentions rest.toList := by
  rw [below, String.toList_append, String.toList_append, List.append_assoc]
  exact mentions_append_cons_iff (by decide)

theorem not_mentions_throughImports (h : table.Free) (hname : ¬ Mentions name.toList)
    {found : String} (hfound : table.throughImports name = some found) :
    ¬ Mentions found.toList := by
  rw [throughImports, Option.filter_eq_some_iff] at hfound
  obtain ⟨i, hi, hthrough⟩ := List.mem_filterMap.mp (List.mem_of_getLast? hfound.1)
  have hqualified := h.2 i hi
  rw [throughImport] at hthrough
  split at hthrough
  next => cases hthrough; exact hqualified
  next =>
    obtain ⟨rest, hrest, rfl⟩ := Option.map_eq_some_iff.mp hthrough
    obtain rfl := relativeTo?_eq_some_iff.mp hrest
    rw [mentions_below_iff, not_or] at hname ⊢
    exact ⟨hqualified, hname.2⟩

theorem not_mentions_ambient (h : table.Free) (hname : ¬ Mentions name.toList) {found : String}
    (hfound : table.ambient known name = some found) : ¬ Mentions found.toList := by
  rw [ambient] at hfound
  split at hfound
  next =>
    cases hfound
    rw [mentions_below_iff, not_or]
    exact ⟨h.1, hname⟩
  next =>
    split at hfound
    next => cases hfound; exact hname
    next => cases hfound

theorem not_mentions_findTrimmed? (h : table.Free) (hname : ¬ Mentions name.toList)
    {found : String} (hfound : table.findTrimmed? known name = some found) :
    ¬ Mentions found.toList := by
  have hdrop : ¬ Mentions (dropLeading name).toList := by
    rw [dropLeading, String.toList_ofList]
    exact fun hm => hname (hm.mono (List.dropWhile_suffix _).isInfix)
  rw [findTrimmed?] at hfound
  split at hfound
  next => cases hfound
  next =>
    split at hfound
    next =>
      split at hfound
      next => cases hfound; exact hdrop
      next => cases hfound
    next =>
      split at hfound
      next => cases hfound; exact hname
      next =>
        rcases Option.or_eq_some_iff.mp hfound with hthrough | ⟨-, hambient⟩
        · exact not_mentions_throughImports h hname hthrough
        · exact not_mentions_ambient h hname hambient

/-- A free table resolves free names to free names. -/
theorem not_mentions_find (h : table.Free) (hname : ¬ Mentions name.toList) :
    ¬ Mentions (table.find known name).toList := by
  have hstrip : ¬ Mentions (Text.strip name).toList := by
    rwa [Text.strip, String.toList_ofList, mentions_trim_iff]
  rw [find, find?]
  cases hfound : table.findTrimmed? known (Text.strip name) with
  | none => exact hstrip
  | some found => exact not_mentions_findTrimmed? h hstrip hfound

end AliasTable

/-- What names stand for is free if they are. -/
def FreeLookup (lookup : Option TypeLookup) : Prop :=
  ∀ word : String, ¬ Mentions word.toList → ¬ Mentions (typeNamed lookup word).toList

theorem freeLookup_of_scope {scope : Option NameScope} (h : ∀ s ∈ scope, s.table.Free) :
    FreeLookup (scope.map (·.lookup)) := by
  intro word hword
  cases scope with
  | none => exact hword
  | some s =>
    have hfound : ¬ Mentions (s.find word).toList := AliasTable.not_mentions_find (h s rfl) hword
    rw [typeNamed, show (Option.map NameScope.lookup (some s)).bind (· word) = some (s.find word)
      from rfl]
    dsimp only
    split
    next => exact hword
    next => exact hfound

namespace ValueParts

open Text

variable {lookup : Option TypeLookup} {cs before rest : List Char} {s : String}

/-- A part of a text stands in it, or is the type that a word of it names. -/
def PartOf (lookup : Option TypeLookup) (cs : List Char) (s : String) : Prop :=
  s.toList <:+: cs ∨ ∃ word : String, word.toList <:+: cs ∧ s = typeNamed lookup word

theorem PartOf.mono {ds : List Char} (hd : ds <:+: cs) (h : PartOf lookup ds s) :
    PartOf lookup cs s :=
  h.imp (·.trans hd) fun ⟨word, hword, hs⟩ => ⟨word, hword.trans hd, hs⟩

theorem partOf_of_isInfix {ds : List Char} (h : ds <:+: cs) :
    PartOf lookup cs (String.ofList ds) :=
  .inl (by rwa [String.toList_ofList])

theorem partOf_typeNamed {w : List Char} (hw : w ∈ words cs) :
    PartOf lookup cs (typeNamed lookup (String.ofList w)) :=
  .inr ⟨_, by rw [String.toList_ofList]; exact isInfix_of_mem_words hw, rfl⟩

theorem partOf_withoutVariable (hs : s ∈ (withoutVariable lookup cs).texts) :
    PartOf lookup cs s := by
  unfold withoutVariable at hs
  split at hs
  next => cases hs
  next word hwords =>
    obtain rfl : s = typeNamed lookup (String.ofList word) := by simpa [texts] using hs
    exact partOf_typeNamed (hwords ▸ List.mem_singleton.mpr rfl)
  next =>
    obtain rfl : s = String.ofList (trim cs) := by simpa [texts] using hs
    exact partOf_of_isInfix (trim_isInfix cs)

theorem partOf_aroundVariable (hs : s ∈ (aroundVariable lookup before rest).texts) :
    PartOf lookup before s ∨ PartOf lookup rest s := by
  have hcomment : trim ((rest.dropWhile (!isBlank ·)).drop 1) <:+: rest :=
    (trim_isInfix _).trans ((List.drop_suffix _ _).trans (List.dropWhile_suffix _)).isInfix
  simp only [texts, aroundVariable, List.mem_append, Option.mem_toList, Option.some.injEq] at hs
  rcases hs with ((htype | rfl) | hleading) | hcomment'
  · split at htype
    next word hword =>
      obtain ⟨w, hw, rfl⟩ := List.map_eq_singleton_iff.mp hword
      cases htype
      exact .inl (partOf_typeNamed (hw ▸ List.mem_singleton.mpr rfl))
    next => cases htype
  · exact .inr (partOf_of_isInfix (List.takeWhile_prefix _).isInfix)
  · split at hleading
    next => cases hleading
    next =>
      obtain ⟨w, hw, rfl⟩ := List.mem_map.mp hleading
      exact .inl (partOf_of_isInfix (isInfix_of_mem_words hw))
  · split at hcomment'
    next => cases hcomment'
    next =>
      cases hcomment'
      exact .inr (partOf_of_isInfix hcomment)

/-- Each part of a value is a part of its text. -/
theorem partOf_ofValue {value : String} (hs : s ∈ (ofValue lookup value).texts) :
    PartOf lookup value.toList s := by
  have hsplit := List.takeWhile_append_dropWhile (p := (· ≠ '$')) (l := value.toList)
  unfold ofValue splitAtVariable at hs
  rw [List.span_eq_takeWhile_dropWhile] at hs
  generalize value.toList.takeWhile (· ≠ '$') = before at hs hsplit
  generalize value.toList.dropWhile (· ≠ '$') = rest at hs hsplit
  have hbefore : before <:+: value.toList := hsplit ▸ (List.prefix_append before rest).isInfix
  have hrest : rest <:+: value.toList := hsplit ▸ (List.suffix_append before rest).isInfix
  cases rest with
  | nil => exact (partOf_withoutVariable hs).mono hbefore
  | cons c rest => exact (partOf_aroundVariable hs).elim (·.mono hbefore) (·.mono hrest)

end ValueParts

namespace Resolver

mutual

theorem free_qualifyValue {lookup : TypeLookup} (h : FreeLookup (some lookup)) :
    ∀ v : Value, v.Free → (qualifyValue lookup v).Free
  | .text s => fun hv => by
    rw [qualifyValue, Value.free_text]
    exact h s (Value.free_text.mp hv)
  | .list items => fun hv => by
    rw [qualifyValue, Value.free_list]
    exact free_qualifyItems h items (Value.free_list.mp hv)
  | .null | .bool _ | .int _ | .float _ | .map _ | .generic _ | .object _ _ => fun hv => hv

theorem free_qualifyItems {lookup : TypeLookup} (h : FreeLookup (some lookup)) :
    ∀ items : List Value, (∀ v ∈ items, v.Free) → ∀ v ∈ qualifyItems lookup items, v.Free
  | [] => fun _ => nofun
  | v :: rest => fun hall => by
    obtain ⟨hv, hrest⟩ := List.forall_mem_cons.mp hall
    exact List.forall_mem_cons.mpr ⟨free_qualifyValue h v hv, free_qualifyItems h rest hrest⟩

end

/-- An annotation that is kept as text shows what its text mentions. -/
theorem free_keep_iff {scope : Option NameScope} (h : ∀ s ∈ scope, s.table.Free)
    {key : Option DeclarationKey} {name raw : String} :
    (keep scope key name raw).Free ↔ ¬ Mentions raw.toList := by
  constructor
  · intro hfree
    exact hfree raw List.mem_cons_self
  · intro hraw s hs
    rcases List.mem_cons.mp hs with rfl | hs
    · exact hraw
    · rcases ValueParts.partOf_ofValue hs with hs | ⟨word, hword, rfl⟩
      · exact fun hm => hraw (hm.mono hs)
      · exact freeLookup_of_scope h word fun hm => hraw (hm.mono hword)

end Resolver

end DocAnnotations
