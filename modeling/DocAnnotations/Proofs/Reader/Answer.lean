import DocAnnotations.Proofs.Reader.Settled

/-! What look-ups give from a settled reader, errors included. -/
namespace DocAnnotations.Reader

open QualifiedName AnnotationGroups

variable {base : Reader} {cls : SourceClass} {key : DeclarationKey} {scope : NameScope}
  {groups : AnnotationGroups} {grows : Prop}

/-- A declaration with a standard key, and its names and fragments as a new reader finds them. -/
structure Declared (base : Reader) (key : DeclarationKey) (cls : SourceClass) (scope : NameScope)
    (fragments : List Fragment) : Prop where
  keyFor : KeyFor base.index cls key.itemName key
  standard : Standard key
  scope_eq : freshScope base.index base.resolver cls = .ok scope
  fragments_eq : fragments = computeFragments base.resolver scope cls key

/-- What is known of the result of a reading from a coherent reader holds from a settled one. -/
theorem Leads.and_yields {α : Type} {J : Reader → Prop} {x : ReaderM α}
    {P : Except Abort α → Prop} {Q : α → Prop} (hx : Leads (Settled grows base) J x P)
    (hy : Yields base.index base.resolver x Q) :
    Leads (Settled grows base) J x fun result => P result ∧ ∀ a, result = .ok a → Q a :=
  fun reader h => ⟨(hx reader h).1, (hx reader h).2, (hy reader h.toCoherent).2⟩

variable {fragments : List Fragment} {fresh more groups : AnnotationGroups}

theorem Declared.fragments_leads (hd : Declared base key cls scope fragments) :
    Leads (Settled grows base) (Settled grows base) (fragmentsOf cls key scope)
      (· = .ok fragments) :=
  hd.fragments_eq ▸ fragmentsOf_leads (Settled.stable grows base) hd.keyFor hd.scope_eq

/-- The annotations that are found are extended ones. An error comes from a new reader too. -/
theorem groupsOf_leads (grows : Prop) (hd : Declared base key cls scope fragments) :
    Leads (Settled grows base) (Settled grows base) (groupsOf cls key scope) fun result =>
      (∀ stop, result = .error stop →
        (computeGroups base.resolver scope key fragments {}).1 = .error stop) ∧
      ∀ groups, result = .ok groups → Extended grows base.resolver scope key fragments groups := by
  have hfragments := hd.fragments_eq
  unfold groupsOf
  refine .get_bind fun reader h => ?_
  split
  next groups hg =>
    refine .pure ⟨nofun, fun groups' heq => ?_⟩
    cases heq
    rw [hfragments]
    exact h.extended cls key scope groups hd.keyFor hd.standard hd.scope_eq hg
  next =>
    refine hd.fragments_leads.bind (fun fragments' hf => ?_) (fun _ h => h) fun _ hf => ?_
    · cases hf
      refine .get_bind fun reader h => ?_
      rw [h.resolver_eq]
      refine (Leads.withLog (fun _ log h => h.withLog log) (steady_computeGroups _)).bind
        (fun groups hg => ?_) (fun _ h => h) fun stop hg => ⟨fun other ho => ?_, nofun⟩
      · have hext : Extended grows base.resolver scope key fragments groups := .refl hg.symm
        have hgrown : Grown base.index base.resolver cls key.itemName scope fragments groups :=
          ⟨groups, [], (List.append_nil _).symm, List.nodup_nil, ⟨key, hd.keyFor, hg.symm⟩, nofun⟩
        refine .modify_bind (fun reader h => h.storeAnnotations hd.keyFor hd.standard hd.scope_eq
          (hfragments ▸ hgrown) (hfragments ▸ hext)) (.pure ⟨nofun, fun groups' heq => ?_⟩)
        cases heq
        exact hext
      · cases ho
        exact hg.symm
    · cases hf

/-- Annotations that a settled reader keeps for a declaration. -/
structure Kept (grows : Prop) (base : Reader) (key : DeclarationKey) (cls : SourceClass)
    (scope : NameScope) (fragments : List Fragment) (fresh more : AnnotationGroups) : Prop
    extends Declared base key cls scope fragments where
  fresh_eq : (computeGroups base.resolver scope key fragments {}).1 = .ok fresh
  added : ∀ entry ∈ more,
    grows ∧ Added base.resolver scope key fragments fresh entry.1 entry.2
  grown : Grown base.index base.resolver cls key.itemName scope fragments (fresh ++ more)

namespace Kept

variable {wanted : String} {values : List Value}

/-- What matches does not depend on what was added before. -/
theorem matching_eq (h : Kept grows base key cls scope fragments fresh more) (type : String) :
    matching scope fragments (fresh ++ more) type = matching scope fragments fresh type :=
  matching_append (fun entry he => (h.added entry he).2.unwritten h.fresh_eq) type

/-- What an upgrade adds may be kept. -/
theorem storeAnnotations (h : Kept grows base key cls scope fragments fresh more)
    (hn : Entries.get? (fresh ++ more) (className wanted) = none)
    (hq : Entries.get? (fresh ++ more) (dropLeading (scope.find (className wanted))) = none)
    (hu : upgraded base.resolver scope key fragments fresh (className wanted) = .ok (some values))
    {reader : Reader} (hr : Settled True base reader) :
    Settled True base { reader with
      annotations := store reader.annotations cls.qualifiedName key.itemName
        (Entries.insert (fresh ++ more) (className wanted) values) } := by
  have hfragments := h.fragments_eq
  obtain ⟨hreg, hm, hc, hv⟩ := upgraded_eq_ok_some_iff.mp hu
  rw [← h.matching_eq] at hm hc
  have hgrown := h.grown.insert h.keyFor (dropLeading_dropLeading _) hreg hn hq hm hc hv
  have hext : Extended True base.resolver scope key fragments
      (Entries.insert (fresh ++ more) (className wanted) values) := by
    have habsent := (Entries.get?_append_eq_none_iff.mp hn).1
    have halias := (Entries.get?_append_eq_none_iff.mp hq).1
    exact .insert h.fresh_eq h.added hn ⟨⟨wanted, rfl⟩, habsent, halias, hu⟩
  rw [hfragments] at hgrown hext
  exact hr.storeAnnotations h.keyFor h.standard h.scope_eq hgrown hext

/-- What an upgrade gives does not depend on what was added before. -/
theorem upgrade_leads (h : Kept grows base key cls scope fragments fresh more)
    (hn : Entries.get? (fresh ++ more) (className wanted) = none)
    (hq : Entries.get? (fresh ++ more) (dropLeading (scope.find (className wanted))) = none) :
    Leads (Settled grows base) (Settled True base)
      (upgrade cls key scope (fresh ++ more) (className wanted)) fun result =>
        result = (upgraded base.resolver scope key fragments fresh (className wanted)).map
          fun values => (values.map shown).getD .null := by
  have hmatch := h.matching_eq (className wanted)
  unfold upgrade
  refine .get_bind fun reader hreader => ?_
  rw [hreader.resolver_eq]
  dsimp only
  split
  next hreg =>
    refine (Leads.pure ?_).mono Settled.mono_true
    rw [upgraded_of_contains_eq_false (by simpa using hreg)]
    rfl
  next hreg =>
    refine h.fragments_leads.bind (fun fragments' hf => ?_) Settled.mono_true nofun
    cases hf
    change Leads _ _ (if (matching scope fragments (fresh ++ more) (className wanted)).isEmpty
      then _ else _) _
    split
    next hm =>
      refine (Leads.pure ?_).mono Settled.mono_true
      rw [upgraded_of_matching_eq_nil (hmatch ▸ List.isEmpty_iff.mp hm)]
      rfl
    next hm =>
      have hupgraded := upgraded_of_matching_ne_nil key (by simpa using hreg)
        (hmatch ▸ mt List.isEmpty_iff.mpr hm)
      rw [← hmatch] at hupgraded
      refine (Leads.withLog (fun _ log h => h.withLog log)
        (base.resolver.steady_mapM_convert scope key (className wanted) _)).bind
          (fun values hc => ?_) Settled.mono_true fun stop hc => ?_
      · have hupgraded := hupgraded.trans (congrArg _ hc.symm)
        split
        next hv =>
          refine (Leads.pure ?_).mono Settled.mono_true
          simp [hupgraded, Except.map, hv]
        next hv =>
          simp only [Except.map, hv] at hupgraded
          refine .modify_bind (J := Settled True base)
            (fun reader hr => h.storeAnnotations hn hq hupgraded (hr.mono_true _)) (.pure ?_)
          rw [hupgraded]
          rfl
      · rw [hupgraded.trans (congrArg _ hc.symm)]
        rfl

end Kept

/-- What is found among the annotations of a declaration is what a new reader finds by the name, or
by a type that the name stands for and that was added. -/
def FoundFor (grows : Prop) (resolver : Resolver) (scope : NameScope) (key : DeclarationKey)
    (fragments : List Fragment) (fresh : AnnotationGroups) (name : String)
    (result : Except Abort Value) : Prop :=
  result = foundAmong resolver scope key fragments fresh name ∨
    grows ∧ ∃ wanted, className wanted = dropLeading (scope.find name) ∧ className wanted ≠ name ∧
      resolver.registry.contains (className wanted) = true ∧
        result = foundAmong resolver scope key fragments fresh (className wanted)

/-- What is kept under a name is what a new reader finds by it. -/
theorem Kept.foundAmong_eq {name : String} {values : List Value}
    (h : Kept grows base key cls scope fragments fresh more)
    (hn : Entries.get? (fresh ++ more) name = some values) :
    foundAmong base.resolver scope key fragments fresh name = .ok (shown values) := by
  rw [Entries.get?_append] at hn
  cases hf : Entries.get? fresh name with
  | some values' =>
    rw [hf] at hn
    cases hn
    exact foundAmong_of_get? hf
  | none =>
    rw [hf] at hn
    exact (h.added _ (Entries.mem_of_get? hn)).2.foundAmong_eq

/-- What is kept under the name that a name stands for is what a new reader finds by one of them. -/
theorem Kept.foundFor_alias {name : String} {values : List Value}
    (h : Kept grows base key cls scope fragments fresh more)
    (hn : Entries.get? (fresh ++ more) name = none)
    (hq : Entries.get? (fresh ++ more) (dropLeading (scope.find name)) = some values) :
    FoundFor grows base.resolver scope key fragments fresh name (.ok (shown values)) := by
  have hne : dropLeading (scope.find name) ≠ name := by
    intro heq
    rw [heq, hn] at hq
    cases hq
  have hfresh := (Entries.get?_append_eq_none_iff.mp hn).1
  have hfound := (h.foundAmong_eq hq).symm
  rw [Entries.get?_append] at hq
  cases hf : Entries.get? fresh (dropLeading (scope.find name)) with
  | some values' =>
    rw [hf] at hq
    cases hq
    exact Or.inl (foundAmong_of_alias hfresh hf).symm
  | none =>
    rw [hf] at hq
    obtain ⟨hgrows, hadded⟩ := h.added _ (Entries.mem_of_get? hq)
    obtain ⟨other, hother⟩ := hadded.wanted
    dsimp only at hadded hother
    rw [← hother] at hne hadded hfound
    exact Or.inr ⟨hgrows, other, hother, hne, hadded.contains, hfound⟩

theorem Kept.lookUp_leads (h : Kept grows base key cls scope fragments fresh more)
    (wanted : String) :
    Leads (Settled grows base) (Settled True base)
      (lookUp cls key scope (fresh ++ more) wanted)
      (FoundFor grows base.resolver scope key fragments fresh (className wanted)) := by
  cases hn : Entries.get? (fresh ++ more) (className wanted) with
  | some values =>
    rw [lookUp_of_shown? (v := shown values) (by simp [shown?, hn])]
    exact (Leads.pure (Or.inl (h.foundAmong_eq hn).symm)).mono Settled.mono_true
  | none =>
    have hshown : shown? (fresh ++ more) (className wanted) = none := by simp [shown?, hn]
    cases hq : Entries.get? (fresh ++ more) (dropLeading (scope.find (className wanted))) with
    | some values =>
      rw [lookUp_of_other (v := shown values) hshown (by simp [shown?, hq])]
      exact (Leads.pure (h.foundFor_alias hn hq)).mono Settled.mono_true
    | none =>
      have hfn := (Entries.get?_append_eq_none_iff.mp hn).1
      have hfq := (Entries.get?_append_eq_none_iff.mp hq).1
      rw [lookUp_of_not_shown hshown (by simp [shown?, hq])]
      refine (h.upgrade_leads hn hq).imp fun result hresult => Or.inl ?_
      rw [hresult, foundAmong_of_absent hfn hfq]

/-- What a new reader finds for a declaration by a name, before its settings hide an error. -/
def found (base : Reader) (key : DeclarationKey) (name : String) : Except Abort Value := do
  let cls ← declaring base.index key
  let scope ← freshScope base.index base.resolver cls
  let fragments := computeFragments base.resolver scope cls key
  let fresh ← (computeGroups base.resolver scope key fragments {}).1
  foundAmong base.resolver scope key fragments fresh name

/-- A wanted name is another name of a registered type in the class of the declaration. -/
structure OtherName (base : Reader) (key : DeclarationKey) (name type : String) : Prop where
  scope : ∃ cls scope, declaring base.index key = .ok cls ∧
    freshScope base.index base.resolver cls = .ok scope ∧ dropLeading (scope.find name) = type
  ne : type ≠ name
  registered : base.resolver.registry.contains type = true

/-- What a new reader finds by the name, or by the type that it is another name of. -/
def Answers (grows : Prop) (base : Reader) (key : DeclarationKey) (name : String)
    (result : Except Abort Value) : Prop :=
  result = found base key name ∨
    grows ∧ ∃ wanted, OtherName base key name (className wanted) ∧
      result = found base key (className wanted)

theorem found_of_declared (hc : declaring base.index key = .ok cls)
    (hs : freshScope base.index base.resolver cls = .ok scope)
    (hfragments : fragments = computeFragments base.resolver scope cls key) (name : String) :
    found base key name = (computeGroups base.resolver scope key fragments {}).1 >>=
      fun fresh => foundAmong base.resolver scope key fragments fresh name := by
  simp only [found, bind, Except.bind, hc, hs, hfragments]

theorem found_of_undeclared {stop : Abort}
    (h : declaring base.index key >>= freshScope base.index base.resolver = .error stop)
    (name : String) : found base key name = .error stop := by
  cases hc : declaring base.index key with
  | error _ =>
    rw [hc] at h
    cases h
    simp only [found, hc, bind, Except.bind]
  | ok cls =>
    rw [hc] at h
    have hs : freshScope base.index base.resolver cls = .error stop := h
    simp only [found, hc, hs, bind, Except.bind]

theorem Settled.shield_eq {α : Type} {reader : Reader} (h : Settled grows base reader)
    (empty : α) : shield reader empty = shield base empty := by
  rw [← h.renewed_eq]
  rfl

/-- A reading goes on with the class of a declaration and the names that are valid there. -/
theorem declared_leads {α : Type} {J : Reader → Prop} {k : SourceClass → NameScope → ReaderM α}
    {Q : Except Abort α → Prop} (hb : base.index.Built) (hstd : Standard key)
    (hJ : ∀ reader, Settled grows base reader → J reader)
    (hk : ∀ cls scope,
      Declared base key cls scope (computeFragments base.resolver scope cls key) →
        declaring base.index key = .ok cls → Leads (Settled grows base) J (k cls scope) Q)
    (he : ∀ stop, declaring base.index key >>= freshScope base.index base.resolver = .error stop →
      Q (.error stop)) :
    Leads (Settled grows base) J
      (do
        let cls ← declaringClass key
        let scope ← scopeOf cls
        k cls scope) Q :=
  declaring_leads (Settled.stable grows base).names hb hJ (fun cls scope hc hs =>
    hk cls scope ⟨keyFor_of_declaring hb hstd.toProper hc, hstd, hs, rfl⟩ hc) he

theorem lookUpKey_leads (hb : base.index.Built) (hstd : Standard key) (wanted : String) :
    Leads (Settled grows base) (Settled True base)
      (do
        let cls ← declaringClass key
        let scope ← scopeOf cls
        let groups ← groupsOf cls key scope
        lookUp cls key scope groups wanted)
      (Answers grows base key (className wanted)) := by
  refine declared_leads hb hstd Settled.mono_true (fun cls scope hd hc => ?_)
    fun stop hstop => Or.inl ?_
  · have hfound := found_of_declared hc hd.scope_eq rfl
    have hgroups := (groupsOf_leads grows hd).and_yields (groupsOf_yields hd.keyFor hd.scope_eq)
    refine hgroups.bind (fun groups hg => ?_) Settled.mono_true fun stop hg => Or.inl ?_
    · obtain ⟨⟨_, hext⟩, hgrown⟩ := hg
      obtain ⟨fresh, more, hfresh, rfl, hmore⟩ := hext groups rfl
      have hkept : Kept grows base key cls scope _ fresh more := ⟨hd, hfresh, hmore, hgrown _ rfl⟩
      have hfound (name : String) : found base key name = foundAmong base.resolver scope key
          (computeFragments base.resolver scope cls key) fresh name := by
        rw [hfound, hfresh]
        rfl
      refine (hkept.lookUp_leads wanted).imp fun result hresult => ?_
      rcases hresult with rfl | ⟨hgrows, other, hother, hne, hreg, rfl⟩
      · exact Or.inl (hfound _).symm
      · have hname : OtherName base key (className wanted) (className other) :=
          ⟨⟨cls, scope, hc, hd.scope_eq, hother.symm⟩, hne, hreg⟩
        exact Or.inr ⟨hgrows, other, hname, (hfound _).symm⟩
    · rw [hfound, hg.1.1 stop rfl]
      rfl
  · exact (found_of_undeclared hstop _).symm

theorem resolve_leads (hb : base.index.Built) (hstd : Standard key) (wanted : String) :
    Leads (Settled grows base) (Settled True base) (resolve key wanted) fun result =>
      ∃ inner, Answers grows base key (className wanted) inner ∧
        result = shield base .null inner := by
  refine (Leads.guarded (fun _ log h => h.withLog log) (fun _ log h => h.withLog log)
    (lookUpKey_leads hb hstd wanted)).imp fun result hresult => ?_
  obtain ⟨reader, inner, hreader, hinner, rfl⟩ := hresult
  exact ⟨inner, hinner, by rw [hreader.shield_eq]⟩

end DocAnnotations.Reader
