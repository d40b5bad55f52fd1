import DispatchLisp.Interpreter
import DispatchLisp.Proofs.Store.Contexts

/-!
# Proofs.Context.Links — who imports whom

An import is recorded twice: by the importer, with the source and the qualifier, and by the
source, with the importer and the qualifier. One lemma for each operation says what it does to
the two records; an import adds the same link to both, and importing again adds none.
-/

namespace DispatchLisp

/-! ## Records -/

/-- Whether some records of imports name a source and a qualifier. -/
def RecordsImport (records : List ImportRecord) (source : ContextId) (qualifier : String) : Prop :=
  ∃ r ∈ records, r.source.index = source.index ∧ r.qualifier = qualifier

/-- Whether some usages name an importer and a qualifier. -/
def RecordsUsage (usages : List Usage) (importer : ContextId) (qualifier : String) : Prop :=
  ∃ u ∈ usages, u.importer.index = importer.index ∧ qualifier ∈ u.qualifiers

theorem recordsImport_cons {r : ImportRecord} {rest : List ImportRecord} {source : ContextId}
    {qualifier : String} : RecordsImport (r :: rest) source qualifier ↔
      (r.source.index = source.index ∧ r.qualifier = qualifier) ∨
        RecordsImport rest source qualifier := by
  simp [RecordsImport]

theorem recordsUsage_cons {u : Usage} {rest : List Usage} {importer : ContextId}
    {qualifier : String} : RecordsUsage (u :: rest) importer qualifier ↔
      (u.importer.index = importer.index ∧ qualifier ∈ u.qualifiers) ∨
        RecordsUsage rest importer qualifier := by
  simp [RecordsUsage]

/-- Recording an import adds its source and qualifier, and takes none away. -/
theorem recordsImport_recordImport (record : ImportRecord) (records : List ImportRecord)
    (source : ContextId) (qualifier : String) :
    RecordsImport (recordImport record records) source qualifier ↔
      RecordsImport records source qualifier ∨
        (record.source.index = source.index ∧ record.qualifier = qualifier) := by
  induction records with
  | nil =>
      rw [recordImport, recordsImport_cons]
      exact or_comm
  | cons r rest ih =>
      rw [recordImport]
      split
      case isTrue hsame =>
        -- the record that is replaced names the same source and qualifier
        simp only [Bool.and_eq_true, decide_eq_true_eq, beq_iff_eq] at hsame
        rw [recordsImport_cons, recordsImport_cons, hsame.1, hsame.2]
        exact ⟨fun h => .inl h, fun h => h.elim id .inl⟩
      case isFalse =>
        rw [recordsImport_cons, recordsImport_cons, ih, or_assoc]

/-- Recording a usage adds its importer and qualifier, and takes none away. -/
theorem recordsUsage_recordUsage (user : ContextId) (added : String) (usages : List Usage)
    (importer : ContextId) (qualifier : String) :
    RecordsUsage (recordUsage user added usages) importer qualifier ↔
      RecordsUsage usages importer qualifier ∨
        (user.index = importer.index ∧ added = qualifier) := by
  induction usages with
  | nil =>
      rw [recordUsage, recordsUsage_cons]
      simp [RecordsUsage, eq_comm]
  | cons u rest ih =>
      rw [recordUsage]
      split
      case isTrue hsame =>
        split
        case isTrue hmem =>
          -- the usage is on record already, so nothing is added
          have hadded : added ∈ u.qualifiers := List.contains_iff_mem.mp hmem
          rw [recordsUsage_cons, hsame]
          constructor
          · exact .inl
          · rintro (h | ⟨huser, rfl⟩)
            · exact h
            · exact .inl ⟨huser, hadded⟩
        case isFalse =>
          rw [recordsUsage_cons, recordsUsage_cons, hsame]
          simp only [List.mem_append, List.mem_singleton]
          grind
      case isFalse =>
        rw [recordsUsage_cons, recordsUsage_cons, ih, or_assoc]

namespace Store

/-! ## Links -/

/-- Whether a context has recorded an import from another under a qualifier. -/
def Imports (s : Store) (importer source : ContextId) (qualifier : String) : Prop :=
  RecordsImport (s.context importer).imports source qualifier

/-- Whether a context has recorded that another imports it under a qualifier. -/
def ImportedBy (s : Store) (source importer : ContextId) (qualifier : String) : Prop :=
  RecordsUsage (s.context source).usages importer qualifier

/-- Whether importers and sources have recorded the same imports. -/
def LinksAgree (s : Store) : Prop :=
  ∀ importer source qualifier,
    s.Imports importer source qualifier ↔ s.ImportedBy source importer qualifier

theorem Imports.hasContext {s : Store} {importer source : ContextId} {qualifier : String}
    (h : s.Imports importer source qualifier) : s.HasContext importer := by
  by_cases hthere : s.HasContext importer
  · exact hthere
  · rw [Imports, context_of_not_hasContext hthere] at h
    rcases h with ⟨r, hr, _⟩
    cases hr

theorem ImportedBy.hasContext {s : Store} {importer source : ContextId} {qualifier : String}
    (h : s.ImportedBy source importer qualifier) : s.HasContext source := by
  by_cases hthere : s.HasContext source
  · exact hthere
  · rw [ImportedBy, context_of_not_hasContext hthere] at h
    rcases h with ⟨u, hu, _⟩
    cases hu

/-- Whether two stores have recorded the same imports, and the same have been made. -/
structure SameLinks (s s' : Store) : Prop where
  size : s'.contexts.size = s.contexts.size
  history : s'.history = s.history
  imports : ∀ importer source qualifier,
    s'.Imports importer source qualifier ↔ s.Imports importer source qualifier
  importedBy : ∀ source importer qualifier,
    s'.ImportedBy source importer qualifier ↔ s.ImportedBy source importer qualifier

theorem SameLinks.refl (s : Store) : SameLinks s s :=
  ⟨rfl, rfl, fun _ _ _ => .rfl, fun _ _ _ => .rfl⟩

theorem SameLinks.trans {s s' s'' : Store} (h : SameLinks s s') (h' : SameLinks s' s'') :
    SameLinks s s'' := by
  constructor
  · exact h'.size.trans h.size
  · exact h'.history.trans h.history
  · intro importer source qualifier
    rw [h'.imports, h.imports]
  · intro source importer qualifier
    rw [h'.importedBy, h.importedBy]

theorem SameLinks.agree {s s' : Store} (h : SameLinks s s') (hs : s.LinksAgree) :
    s'.LinksAgree := by
  intro importer source qualifier
  rw [h.imports, h.importedBy]
  exact hs importer source qualifier

theorem sameLinks_of_contexts {s s' : Store} (hcontexts : s'.contexts = s.contexts)
    (hhistory : s'.history = s.history) : SameLinks s s' := by
  constructor
  · exact congrArg Array.size hcontexts
  · exact hhistory
  · intro importer source qualifier
    rw [Imports, Imports, context_congr hcontexts]
  · intro source importer qualifier
    rw [ImportedBy, ImportedBy, context_congr hcontexts]

/-- A change that keeps the records of a context keeps all links. -/
theorem sameLinks_updateContext (s : Store) (id : ContextId) {f : ContextCell → ContextCell}
    (himports : ∀ cell, (f cell).imports = cell.imports)
    (husages : ∀ cell, (f cell).usages = cell.usages) : SameLinks s (s.updateContext id f) := by
  constructor
  · exact size_updateContext _ _ _
  · rfl
  · intro importer source qualifier
    rw [Imports, Imports, context_updateContext_part ContextCell.imports himports]
  · intro source importer qualifier
    rw [ImportedBy, ImportedBy, context_updateContext_part ContextCell.usages husages]

theorem sameLinks_defineAll (s : Store) (id : ContextId) (entries : List (String × Value)) :
    SameLinks s (s.defineAll id entries) :=
  s.sameLinks_updateContext id (fun _ => rfl) (fun _ => rfl)

theorem sameLinks_replaceTable (s : Store) (id : ContextId) (table : Table Value) :
    SameLinks s (s.replaceTable id table) :=
  s.sameLinks_updateContext id (fun _ => rfl) (fun _ => rfl)

theorem sameLinks_defineNative (s : Store) (id : ContextId) (name : String) (lazy : Bool)
    (role : NativeRole) : SameLinks s (s.defineNative id name lazy role).2 := by
  have hnative : SameLinks s (s.newNative name lazy role).2 := sameLinks_of_contexts rfl rfl
  exact hnative.trans (sameLinks_defineAll _ id [(name, .native (s.newNative name lazy role).1)])

/-- A new root context has no links. -/
theorem sameLinks_newRoot (s : Store) :
    SameLinks (s.newContext rootName none).2 s.newRoot.2 := by
  let main := (s.newContext rootName none).1
  have hnatives := List.foldlRecOn (motive := SameLinks (s.newContext rootName none).2)
    rootNatives (fun s (native : String × Bool × NativeRole) =>
      (s.defineNative main native.1 native.2.1 native.2.2).2) (.refl _)
    fun s' hs' native _ => hs'.trans (sameLinks_defineNative s' _ _ _ _)
  exact (hnatives.trans (sameLinks_defineAll _ main _)).trans (sameLinks_defineAll _ main _)

/-- A new context has no links, and the others keep theirs. -/
theorem imports_newContext (s : Store) (name : String) (parent : Option ContextId)
    (importer source : ContextId) (qualifier : String) :
    (s.newContext name parent).2.Imports importer source qualifier ↔
      s.Imports importer source qualifier := by
  rw [Imports, Imports, context_newContext_part ContextCell.imports fun _ => rfl]

theorem importedBy_newContext (s : Store) (name : String) (parent : Option ContextId)
    (source importer : ContextId) (qualifier : String) :
    (s.newContext name parent).2.ImportedBy source importer qualifier ↔
      s.ImportedBy source importer qualifier := by
  rw [ImportedBy, ImportedBy, context_newContext_part ContextCell.usages fun _ => rfl]

theorem agree_newContext {s : Store} (h : s.LinksAgree) (name : String)
    (parent : Option ContextId) : (s.newContext name parent).2.LinksAgree := by
  intro importer source qualifier
  rw [imports_newContext, importedBy_newContext]
  exact h importer source qualifier

/-! ## Importing -/

/-- Taking bindings over records the link with the importer. -/
theorem imports_reimport {s : Store} {user : ContextId} (huser : s.HasContext user)
    (source : ContextId) (added : String) (importer other : ContextId) (qualifier : String) :
    (s.reimport user source added).Imports importer other qualifier ↔
      s.Imports importer other qualifier ∨
        (importer.index = user.index ∧ source.index = other.index ∧ added = qualifier) := by
  unfold Imports reimport
  -- only the user's own records change
  by_cases hown : importer.index = user.index
  · have hthere : s.HasContext importer := by
      unfold HasContext at huser ⊢
      rwa [hown]
    rw [context_updateContext_self hown hthere, ContextCell.takeOver,
      recordsImport_recordImport]
    simp only [hown, true_and]
  · rw [context_updateContext_ne hown]
    simp only [hown, false_and, or_false]

theorem importedBy_reimport (s : Store) (user source : ContextId) (added : String)
    (other importer : ContextId) (qualifier : String) :
    (s.reimport user source added).ImportedBy other importer qualifier ↔
      s.ImportedBy other importer qualifier := by
  rw [ImportedBy, ImportedBy, reimport,
    context_updateContext_part ContextCell.usages fun cell => (rfl : (cell.takeOver ..).usages = _)]

/-- Importing again what is imported adds no link. -/
theorem sameLinks_reimport {s : Store} {user source : ContextId} {added : String}
    (h : s.Imports user source added) : SameLinks s (s.reimport user source added) := by
  refine ⟨size_reimport .., rfl, ?_, importedBy_reimport s user source added⟩
  intro importer other qualifier
  rw [imports_reimport h.hasContext]
  constructor
  · rintro (hbefore | ⟨huser, hsource, rfl⟩)
    · exact hbefore
    -- the link that is added is the one that is there already
    · rcases h with ⟨r, hr, hrsource, hrqualifier⟩
      refine ⟨r, ?_, hrsource.trans hsource, hrqualifier⟩
      rwa [context_of_index s huser]
  · exact .inl

/-- An import records the link with the importer. -/
theorem imports_importFrom {s : Store} {user : ContextId} (huser : s.HasContext user)
    (source : ContextId) (added : String) (importer other : ContextId) (qualifier : String) :
    (s.importFrom user source added).Imports importer other qualifier ↔
      s.Imports importer other qualifier ∨
        (importer.index = user.index ∧ source.index = other.index ∧ added = qualifier) := by
  rw [← imports_reimport huser, Imports, Imports,
    context_importFrom_part ContextCell.imports fun _ _ => rfl]

/-- An import records the link with the source. -/
theorem importedBy_importFrom {s : Store} {source : ContextId} (hsource : s.HasContext source)
    (user : ContextId) (added : String) (other importer : ContextId) (qualifier : String) :
    (s.importFrom user source added).ImportedBy other importer qualifier ↔
      s.ImportedBy other importer qualifier ∨
        (other.index = source.index ∧ user.index = importer.index ∧ added = qualifier) := by
  rw [← importedBy_reimport s user source added, ImportedBy, ImportedBy, context_importFrom]
  -- taking bindings over leaves all usages alone, and then only the source's change
  by_cases hown : other.index = source.index
  · have hthere : (s.reimport user source added).HasContext other := by
      unfold HasContext at hsource ⊢
      rwa [size_reimport, hown]
    rw [context_updateContext_self hown hthere, recordsUsage_recordUsage]
    simp only [hown, true_and]
  · rw [context_updateContext_ne hown]
    simp only [hown, false_and, or_false]

theorem agree_importFrom {s : Store} (h : s.LinksAgree) {user source : ContextId}
    (huser : s.HasContext user) (hsource : s.HasContext source) (added : String) :
    (s.importFrom user source added).LinksAgree := by
  intro importer other qualifier
  rw [imports_importFrom huser, importedBy_importFrom hsource, h importer other qualifier,
    eq_comm (a := importer.index), eq_comm (a := source.index)]
  grind

/-! ## Propagation -/

/-- The importers that some usages name, each with each of its qualifiers. -/
def usersOf (usages : List Usage) : List (ContextId × String) :=
  usages.flatMap fun usage => usage.qualifiers.map fun qualifier => (usage.importer, qualifier)

theorem mem_usersOf {usages : List Usage} {user : ContextId × String} :
    user ∈ usersOf usages ↔ ∃ u ∈ usages, u.importer = user.1 ∧ user.2 ∈ u.qualifiers := by
  rw [usersOf, List.mem_flatMap]
  constructor
  · rintro ⟨u, hu, huser⟩
    obtain ⟨qualifier, hqualifier, rfl⟩ := List.mem_map.mp huser
    exact ⟨u, hu, rfl, hqualifier⟩
  · rintro ⟨u, hu, himporter, hqualifier⟩
    exact ⟨u, hu, List.mem_map.mpr ⟨user.2, hqualifier, by rw [himporter]⟩⟩

/-- A context is propagated to one user after another. -/
theorem propagate_eq (s : Store) (source : ContextId) :
    s.propagate source = (usersOf (s.context source).usages).foldl
      (fun s user => s.reimport user.1 source user.2) s := by
  simp only [usersOf, List.foldl_flatMap, List.foldl_map, propagate]

theorem importedBy_of_mem_usersOf {s : Store} {source : ContextId} {user : ContextId × String}
    (h : user ∈ usersOf (s.context source).usages) : s.ImportedBy source user.1 user.2 := by
  obtain ⟨u, hu, himporter, hqualifier⟩ := mem_usersOf.mp h
  exact ⟨u, hu, congrArg ContextId.index himporter, hqualifier⟩

/-- Bringing the importers of a context up to date adds no link. -/
theorem sameLinks_propagate {s : Store} (h : s.LinksAgree) (source : ContextId) :
    SameLinks s (s.propagate source) := by
  rw [propagate_eq]
  -- importers and sources agree throughout
  refine List.foldlRecOn (motive := SameLinks s) _ _ (.refl s) fun s' hs' user huser => ?_
  have hlink : s.Imports user.1 source user.2 :=
    (h user.1 source user.2).mpr (importedBy_of_mem_usersOf huser)
  exact hs'.trans (sameLinks_reimport ((hs'.imports _ _ _).mpr hlink))

/-- A context that imports nothing from another is not touched when that one is propagated. -/
theorem context_propagate_of_not_importer {s : Store} {source d : ContextId}
    (h : ∀ qualifier, ¬ s.ImportedBy source d qualifier) :
    (s.propagate source).context d = s.context d := by
  rw [propagate_eq]
  refine List.foldlRecOn (motive := fun s' : Store => s'.context d = s.context d) _ _ rfl
    fun s' hs' user huser => ?_
  -- every importer that is visited has a link, and this context has none
  have hne : d.index ≠ user.1.index := by
    intro heq
    obtain ⟨u, hu, himporter, hqualifier⟩ := mem_usersOf.mp huser
    exact h user.2 ⟨u, hu, by rw [himporter, heq], hqualifier⟩
  rw [reimport, context_updateContext_ne hne, hs']

end Store

end DispatchLisp
