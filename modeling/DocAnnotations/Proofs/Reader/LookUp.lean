import DocAnnotations.Proofs.Reader.Coherence
import Mathlib.Data.List.Nodup

/-! What is found by the look-ups of a coherent reader, and what they leave behind. -/
namespace DocAnnotations.Reader

open QualifiedName

variable {index : SourceIndex} {resolver : Resolver} {cls : SourceClass} {item : String}
  {key : DeclarationKey} {scope : NameScope}

section Stable

variable {I : Reader → Prop}

theorem scopeOf_leads (hI : NamesStable index resolver I)
    (hc : index.class? cls.qualifiedName = some cls) :
    Leads I I (scopeOf cls) (· = freshScope index resolver cls) := by
  unfold scopeOf
  refine .get_bind fun reader h => ?_
  have h := hI.isScoped reader h
  split
  next table ht =>
    obtain ⟨other, scope, ho, hn, hs, rfl⟩ := h.aliasTables _ _ ht
    obtain rfl := Option.some.inj (hc.symm.trans ho)
    refine .pure (Eq.symm ?_)
    rw [freshScope_eq_ok_iff] at hs ⊢
    exact ⟨hs.1, h.isKnown_eq⟩
  next =>
    refine (Leads.lift _).bind (fun table ht => ?_) (fun _ h => h) fun stop hs => ?_
    · rw [h.computeTable_eq] at ht
      have hs : freshScope index resolver cls = .ok ⟨table, reader.isKnown⟩ :=
        freshScope_eq_ok_iff.mpr ⟨ht.symm, h.isKnown_eq⟩
      exact .modify_bind (fun reader h => hI.insertTable reader cls _ h hc hs) (.pure hs.symm)
    · rw [h.computeTable_eq] at hs
      simp only [freshScope, ← hs]
      rfl

/-- The class of a name that is there. -/
def host (index : SourceIndex) (name : String) : Except Abort SourceClass :=
  match index.class? name with
  | some cls => .ok cls
  | none => .error (.error { cause := .classNotFound name })

theorem host_eq_ok_iff {name : String} :
    host index name = .ok cls ↔ index.class? name = some cls := by
  unfold host
  split <;> simp_all

theorem hostClass_apply (name : String) (reader : Reader) :
    hostClass name reader = (host reader.index name, reader) := by
  unfold hostClass host
  rw [get_bind_apply]
  cases reader.index.class? name <;> rfl

theorem hostClass_leads (hI : NamesStable index resolver I) (name : String) :
    Leads I I (hostClass name) (· = host index name) := by
  intro reader h
  rw [hostClass_apply, (hI.isScoped reader h).index_eq]
  exact ⟨h, rfl⟩

/-- Keys that look-ups are asked for: a class name without a backslash in front, and a name for a
member. -/
structure Proper (key : DeclarationKey) : Prop where
  className : dropLeading key.className = key.className
  member : key.kind ≠ .onClass → key.member.isSome

/-- The class of a declaration that is there. -/
def declaring (index : SourceIndex) (key : DeclarationKey) : Except Abort SourceClass := do
  let cls ← host index key.className
  if key.kind ≠ .onClass ∧ (cls.member? key.kind key.member).isNone then
    .error (.error { cause := .memberNotFound key })
  else .ok cls

theorem declaringClass_apply (key : DeclarationKey) (reader : Reader) :
    declaringClass key reader = (declaring reader.index key, reader) := by
  unfold declaringClass declaring
  cases hh : host reader.index key.className with
  | error stop => exact bind_of_error (by rw [hostClass_apply, hh])
  | ok cls =>
    rw [bind_of_ok (by rw [hostClass_apply, hh])]
    simp only [bind, Except.bind]
    split <;> rfl

theorem declaringClass_leads (hI : NamesStable index resolver I) (key : DeclarationKey) :
    Leads I I (declaringClass key) (· = declaring index key) := by
  intro reader h
  rw [declaringClass_apply, (hI.isScoped reader h).index_eq]
  exact ⟨h, rfl⟩

theorem declaring_eq_ok_iff : declaring index key = .ok cls ↔
    index.class? key.className = some cls ∧
      (key.kind ≠ .onClass → (cls.member? key.kind key.member).isSome) := by
  unfold declaring
  cases hfound : host index key.className with
  | error stop =>
    have hnot : index.class? key.className ≠ some cls := fun h => by
      rw [host_eq_ok_iff.mpr h] at hfound
      cases hfound
    simp [bind, Except.bind, hnot]
  | ok found =>
    rw [host_eq_ok_iff.mp hfound]
    simp only [bind, Except.bind, Option.some.injEq]
    split
    next hm =>
      simp only [reduceCtorEq, false_iff, not_and, Classical.not_imp]
      rintro rfl
      exact ⟨hm.1, by simpa using hm.2⟩
    next hm =>
      simp only [Except.ok.injEq, iff_self_and]
      rintro rfl hk
      simpa [hk, Option.isSome_iff_ne_none] using hm

theorem class?_of_declaring (h : declaring index key = .ok cls) :
    index.class? key.className = some cls :=
  (declaring_eq_ok_iff.mp h).1

theorem keyFor_of_declaring (hb : index.Built) (hp : Proper key)
    (h : declaring index key = .ok cls) : KeyFor index cls key.itemName key := by
  obtain ⟨hfound, hmember⟩ := declaring_eq_ok_iff.mp h
  exact ⟨hfound, by rw [hb.qualifiedName_of_class? hfound, hp.className], rfl, hp.member, hmember⟩

theorem fragmentsOf_leads (hI : Stable index resolver I) (hk : KeyFor index cls item key)
    (hs : freshScope index resolver cls = .ok scope) :
    Leads I I (fragmentsOf cls key scope) (· = .ok (computeFragments resolver scope cls key)) := by
  obtain rfl := hk.itemName
  unfold fragmentsOf
  refine .get_bind fun reader h => ?_
  have h := hI.coherent reader h
  split
  next fragments hf =>
    obtain ⟨other, key', scope', ho, hk', hs', rfl⟩ := h.fragments _ _ _ hf
    obtain rfl := hk.eq_of_qualifiedName hk' ho
    obtain rfl := Except.ok.inj (hs.symm.trans hs')
    exact .pure (congrArg _ (hk'.computeFragments_eq hk scope))
  next =>
    rw [h.resolver_eq]
    exact .modify_bind (fun reader h => hI.storeFragments reader cls _ key scope h hk hs)
      (.pure rfl)

theorem declaringAncestor_leads (hI : NamesStable index resolver I) (hb : index.Built)
    (kind : DeclarationKind) (name : String) (fuel : Nat)
    (hc : index.class? cls.qualifiedName = some cls) :
    Leads I I (declaringAncestor kind name fuel cls) fun result =>
      ∀ other, result = .ok (some other) → index.class? other.qualifiedName = some other := by
  induction fuel generalizing cls with
  | zero => exact .pure nofun
  | succ fuel ih =>
    unfold declaringAncestor
    split
    next => exact .pure fun other ho => by cases ho; exact hc
    next =>
      split
      next => exact .pure nofun
      next => exact .pure nofun
      next written _ _ =>
        refine (scopeOf_leads hI hc).bind (fun scope _ => ?_) (fun _ h => h) fun _ _ => nofun
        refine .get_bind fun reader h => ?_
        split
        next => exact .pure nofun
        next parent hparent =>
          rw [(hI.isScoped reader h).index_eq] at hparent
          exact ih (hb.class?_qualifiedName hparent)

theorem memberKey_leads (hI : NamesStable index resolver I) (hb : index.Built) (host : String)
    (kind : DeclarationKind) (name : String) :
    Leads I I (memberKey host kind name) fun result => ∀ key, result = .ok (some key) →
      Proper key ∧ key.kind = kind := by
  have hkey : Leads I I
      (do
        let cls ← hostClass (Reader.className host)
        match ← declaringAncestor kind name maxParents cls with
        | some cls => return some ⟨cls.qualifiedName, kind, some name⟩
        | none => fail (.memberNotFound ⟨Reader.className host, kind, some name⟩))
      fun result => ∀ key, result = .ok (some key) → Proper key ∧ key.kind = kind := by
    refine (hostClass_leads hI _).bind (fun cls hc => ?_) (fun _ h => h) fun _ _ => nofun
    have hc := hb.class?_qualifiedName (host_eq_ok_iff.mp hc.symm)
    refine (declaringAncestor_leads hI hb kind name maxParents hc).bind (fun found hfound => ?_)
      (fun _ h => h) fun _ _ => nofun
    split
    next other =>
      refine .pure fun key hkey => ?_
      cases hkey
      exact ⟨⟨hb.dropLeading_qualifiedName (hfound other rfl), fun _ => rfl⟩, rfl⟩
    next => exact .fail nofun
  refine (Leads.guarded hI.withLog hI.withLog hkey).imp fun result hresult => ?_
  obtain ⟨reader, inner, -, hinner, rfl⟩ := hresult
  intro key hk
  rcases ok_or_eq_of_shield hk with hk | hk
  · exact hinner key hk
  · cases hk

/-- A reading goes on with the class of a declaration and the names that are valid there. -/
theorem declaring_leads {α : Type} {J : Reader → Prop} {k : SourceClass → NameScope → ReaderM α}
    {Q : Except Abort α → Prop} (hI : NamesStable index resolver I) (hb : index.Built)
    (hJ : ∀ reader, I reader → J reader)
    (hk : ∀ cls scope, declaring index key = .ok cls → freshScope index resolver cls = .ok scope →
      Leads I J (k cls scope) Q)
    (he : ∀ stop, declaring index key >>= freshScope index resolver = .error stop →
      Q (.error stop)) :
    Leads I J
      (do
        let cls ← declaringClass key
        let scope ← scopeOf cls
        k cls scope) Q := by
  refine (declaringClass_leads hI key).bind (fun cls hc => ?_) hJ fun stop hc => he stop ?_
  · have hclass := hb.class?_qualifiedName (class?_of_declaring hc.symm)
    refine (scopeOf_leads hI hclass).bind (fun scope hs => ?_) hJ fun stop hs => he stop ?_
    · exact hk cls scope hc.symm hs.symm
    · rw [← hc]
      exact hs.symm
  · rw [← hc]
    rfl

end Stable

theorem scopeOf_yields (hc : index.class? cls.qualifiedName = some cls) :
    Yields index resolver (scopeOf cls) (freshScope index resolver cls = .ok ·) :=
  .of_leads (scopeOf_leads (stable_coherent _ _).names hc) fun _ h => h.symm

theorem declaringClass_yields (hb : index.Built) (hp : Proper key) :
    Yields index resolver (declaringClass key) fun cls => KeyFor index cls key.itemName key :=
  .of_leads (declaringClass_leads (stable_coherent _ _).names key) fun _ h =>
    keyFor_of_declaring hb hp h.symm

theorem fragmentsOf_yields (hk : KeyFor index cls item key)
    (hs : freshScope index resolver cls = .ok scope) :
    Yields index resolver (fragmentsOf cls key scope)
      (· = computeFragments resolver scope cls key) :=
  .of_leads (fragmentsOf_leads (stable_coherent _ _) hk hs) fun _ h => Except.ok.inj h

/-- The annotations that are computed afresh, from the values of the fragments. -/
theorem exists_values_of_computeGroups {fs : List Fragment} {fresh : AnnotationGroups}
    {log : ReadLog} (h : (computeGroups resolver scope key fs log).1 = .ok fresh) :
    ∃ values, List.Forall₂ (fun f v => (resolver.resolve scope key f {}).1 = .ok v) fs values ∧
      fresh = (fs.zip values).foldl (fun (groups : AnnotationGroups) p =>
        groups.add (resultName resolver scope p.1 p.2) p.2) [] := by
  obtain ⟨values, next, hvalues, hend⟩ := exists_of_bind_ok (Prod.ext h rfl)
  cases hend
  exact ⟨values, resolver.forall₂_of_resolveAll scope key (congrArg Prod.fst hvalues), rfl⟩

theorem hasKey_of_computeGroups {fs : List Fragment} {f : Fragment} {fresh : AnnotationGroups}
    {log : ReadLog} (h : (computeGroups resolver scope key fs log).1 = .ok fresh) (hf : f ∈ fs) :
    ∃ v, Entries.hasKey fresh (resultName resolver scope f v) = true := by
  obtain ⟨values, hvalues, rfl⟩ := exists_values_of_computeGroups h
  rw [← List.map_fst_zip hvalues.length_eq.le] at hf
  obtain ⟨p, hp, rfl⟩ := List.mem_map.mp hf
  exact ⟨p.2, (AnnotationGroups.hasKey_foldl_add_iff
    (fun p : Fragment × Value => resultName resolver scope p.1 p.2) (·.2) []).mpr
    (.inl ⟨p, hp, rfl⟩)⟩

/-- A fragment that is written with the full name of a type is found by that name, or by the name
that it stands for. -/
theorem resultName_of_written {f : Fragment} (hd : dropLeading f.name = f.name)
    (hr : resolver.registry.contains f.name = true) (v : Value) :
    resultName resolver scope f v = f.name ∨
      resultName resolver scope f v = dropLeading (scope.find f.name) := by
  unfold resultName
  split
  next => exact .inl rfl
  next =>
    unfold Resolver.qualify
    cases hq : scope.find? f.name with
    | none =>
      left
      simp [hq, hr, hd]
    | some found =>
      have hfind : scope.find f.name = found := by
        simp only [NameScope.find?, NameScope.find, AliasTable.find] at hq ⊢
        rw [hq, Option.getD_some]
      cases hreg : resolver.registry.contains found with
      | true => right; simp [hq, hreg, hfind]
      | false => left; simp [hq, hreg, hr, hd]

theorem hasKey_of_written {fs : List Fragment} {f : Fragment} {fresh : AnnotationGroups}
    {log : ReadLog} (h : (computeGroups resolver scope key fs log).1 = .ok fresh) (hf : f ∈ fs)
    (hd : dropLeading f.name = f.name) (hr : resolver.registry.contains f.name = true) :
    Entries.hasKey fresh f.name = true ∨
      Entries.hasKey fresh (dropLeading (scope.find f.name)) = true := by
  obtain ⟨v, hv⟩ := hasKey_of_computeGroups h hf
  rcases resultName_of_written hd hr v with hname | hname
  · exact .inl (hname ▸ hv)
  · exact .inr (hname ▸ hv)

theorem adds_computeGroups (fs : List Fragment) :
    Resolver.Adds (computeGroups resolver scope key fs) :=
  (resolver.adds_resolveAll scope key fun f _ => resolver.adds_resolve scope key f).bind
    fun _ => .pure _

theorem steady_computeGroups (fs : List Fragment) :
    Resolver.Steady (computeGroups resolver scope key fs) :=
  (adds_computeGroups fs).steady

theorem groupsOf_yields (hk : KeyFor index cls item key)
    (hs : freshScope index resolver cls = .ok scope) :
    Yields index resolver (groupsOf cls key scope)
      (Grown index resolver cls item scope (computeFragments resolver scope cls key)) := by
  have hi := hk.itemName
  unfold groupsOf
  refine Yields.get.bind fun reader h => ?_
  split
  next groups hg =>
    obtain ⟨other, key', scope', ho, hk', hs', hgrown⟩ := h.annotations _ _ _ hg
    obtain rfl := hk.eq_of_qualifiedName hk' ho
    obtain rfl := Except.ok.inj (hs.symm.trans hs')
    rw [hi] at hk' hgrown
    exact .pure (hk.computeFragments_eq hk' scope ▸ hgrown)
  next =>
    refine (fragmentsOf_yields hk hs).bind fun fragments hf => ?_
    subst hf
    refine Yields.get.bind fun reader' h' => ?_
    rw [h'.resolver_eq, hi]
    refine (Yields.withLog (steady_computeGroups _)).bind fun groups hg => ?_
    have hgrown : Grown index resolver cls item scope (computeFragments resolver scope cls key)
        groups := ⟨groups, [], (List.append_nil _).symm, List.nodup_nil, ⟨key, hk, hg⟩, nofun⟩
    exact (Yields.modify fun reader h => h.storeAnnotations hk hs hgrown).bind
      fun _ _ => .pure hgrown

/-- Entries under names that no fragment has match none. -/
theorem matching_append {fs : List Fragment} {fresh more : AnnotationGroups}
    (h : ∀ entry ∈ more, ∀ f ∈ fs, f.name ≠ entry.1) (type : String) :
    matching scope fs (fresh ++ more) type = matching scope fs fresh type := by
  refine List.filter_congr fun f hf => ?_
  have hmore : Entries.hasKey more f.name = false := by
    rw [← Bool.not_eq_true, Entries.hasKey_iff_mem]
    intro hm
    obtain ⟨entry, he, hn⟩ := List.mem_map.mp hm
    exact h entry he f hf hn.symm
  rw [Entries.hasKey_append, hmore, Bool.or_false]

/-- Annotations grow by an entry for a registered type that nothing was found under. -/
theorem Grown.insert {fs : List Fragment} {groups : AnnotationGroups} {type : String}
    {values : List Value} (h : Grown index resolver cls item scope fs groups)
    (hk : KeyFor index cls item key) (hd : dropLeading type = type)
    (hr : resolver.registry.contains type = true) (hn : Entries.get? groups type = none)
    (hq : Entries.get? groups (dropLeading (scope.find type)) = none)
    (hm : matching scope fs groups type ≠ [])
    (hc : ((matching scope fs groups type).mapM (resolver.convert scope key type) {}).1 =
      .ok values) (hi : ∀ v ∈ values, v.isGeneric = false) :
    Grown index resolver cls item scope fs (Entries.insert groups type values) := by
  obtain ⟨fresh, more, rfl, hnodup, ⟨first, hfirst, hfresh⟩, hmore⟩ := h
  rw [matching_append fun entry he => (hmore entry he).unwritten] at hm hc
  rw [← Entries.hasKey_eq_false_iff, Entries.hasKey_append, Bool.or_eq_false_iff] at hn hq
  have hunwritten : ∀ f ∈ fs, f.name ≠ type := by
    rintro f hf rfl
    obtain hw | hw := hasKey_of_written hfresh hf hd hr
    · rw [hn.1] at hw; cases hw
    · rw [hq.1] at hw; cases hw
  refine ⟨fresh, more ++ [(type, values)], ?_, ?_, ⟨first, hfirst, hfresh⟩, fun entry he => ?_⟩
  · rw [Entries.insert_of_get?_eq_none, List.append_assoc]
    rw [← Entries.hasKey_eq_false_iff, Entries.hasKey_append, hn.1, hn.2]
    rfl
  · have hnot : type ∉ Entries.keys more := fun hmem => by
      rw [← Entries.hasKey_iff_mem, hn.2] at hmem
      cases hmem
    simp only [Entries.keys, List.map_append, List.map_cons, List.map_nil] at hnodup hnot ⊢
    exact List.Nodup.append hnodup (List.nodup_singleton _) (by simpa using hnot)
  · obtain he | he := List.mem_append.mp he
    · exact hmore entry he
    · obtain rfl := List.mem_singleton.mp he
      exact ⟨hr, hn.1, hunwritten, hm, ⟨key, hk, hc⟩, hi⟩

theorem upgrade_yields (hk : KeyFor index cls item key)
    (hs : freshScope index resolver cls = .ok scope) {groups : AnnotationGroups} {type : String}
    (hg : Grown index resolver cls item scope (computeFragments resolver scope cls key) groups)
    (hd : dropLeading type = type) (hn : Entries.get? groups type = none)
    (hq : Entries.get? groups (dropLeading (scope.find type)) = none) :
    Yields index resolver (upgrade cls key scope groups type) fun _ => True := by
  have hi := hk.itemName
  unfold upgrade
  refine Yields.get.bind fun reader h => ?_
  rw [h.resolver_eq]
  dsimp only
  split
  next => exact .pure trivial
  next hr =>
    refine (fragmentsOf_yields hk hs).bind fun fragments hf => ?_
    subst hf
    split
    next => exact .pure trivial
    next hm =>
      refine (Yields.withLog (resolver.steady_mapM_convert scope key type _)).bind
        fun values hc => ?_
      split
      next => exact .pure trivial
      next hv =>
        have hgrown := hg.insert hk hd (by simpa using hr) hn hq (mt List.isEmpty_iff.mpr hm) hc
          (by simpa using hv)
        rw [hi]
        exact (Yields.modify fun reader h => h.storeAnnotations hk hs hgrown).bind
          fun _ _ => .pure trivial

section Found

variable {groups : AnnotationGroups} {wanted : String} {v : Value}

theorem lookUp_of_shown? (h : groups.shown? (className wanted) = some v) :
    lookUp cls key scope groups wanted = pure v := by
  have hname : dropLeading (Text.strip wanted) = className wanted := rfl
  simp only [lookUp, hname, h]

theorem lookUp_of_other (hn : groups.shown? (className wanted) = none)
    (h : groups.shown? (dropLeading (scope.find (className wanted))) = some v) :
    lookUp cls key scope groups wanted = pure v := by
  have hname : dropLeading (Text.strip wanted) = className wanted := rfl
  simp only [lookUp, hname, hn, h]

/-- Where neither the wanted name nor the class that it stands for is there, an annotation may be
upgraded. -/
theorem lookUp_of_not_shown (hn : groups.shown? (className wanted) = none)
    (hq : groups.shown? (dropLeading (scope.find (className wanted))) = none) :
    lookUp cls key scope groups wanted = upgrade cls key scope groups (className wanted) := by
  have hname : dropLeading (Text.strip wanted) = className wanted := rfl
  simp only [lookUp, hname, hn, hq]

end Found

theorem lookUp_yields (hk : KeyFor index cls item key)
    (hs : freshScope index resolver cls = .ok scope) {groups : AnnotationGroups}
    (hg : Grown index resolver cls item scope (computeFragments resolver scope cls key) groups)
    (wanted : String) :
    Yields index resolver (lookUp cls key scope groups wanted) fun _ => True := by
  unfold lookUp
  dsimp only
  split
  next => exact .pure trivial
  next hn =>
    split
    next => exact .pure trivial
    next hq =>
      simp only [AnnotationGroups.shown?, Option.map_eq_none_iff] at hn hq
      exact upgrade_yields hk hs hg (dropLeading_dropLeading _) hn hq

theorem resolve_yields (hb : index.Built) (hp : Proper key) (wanted : String) :
    Yields index resolver (resolve key wanted) fun _ => True := by
  refine Yields.guarded ?_ trivial
  refine (declaringClass_yields hb hp).bind fun cls hk => ?_
  refine (scopeOf_yields (hk.className ▸ hk.found)).bind fun scope hs => ?_
  exact (groupsOf_yields hk hs).bind fun groups hg => lookUp_yields hk hs hg wanted

theorem resolveAll_yields (hb : index.Built) (hp : Proper key) :
    Yields index resolver (resolveAll key) fun _ => True := by
  refine Yields.guarded ?_ trivial
  refine (declaringClass_yields hb hp).bind fun cls hk => ?_
  refine (scopeOf_yields (hk.className ▸ hk.found)).bind fun scope hs => ?_
  exact (groupsOf_yields hk hs).bind fun groups _ => .pure trivial

theorem memberKey_yields (hb : index.Built) (host : String) (kind : DeclarationKind)
    (name : String) :
    Yields index resolver (memberKey host kind name) fun found => ∀ key ∈ found, Proper key :=
  .of_leads (memberKey_leads (stable_coherent _ _).names hb host kind name) fun _ h key hk =>
    (h key (by rw [hk])).1

end DocAnnotations.Reader
