import DispatchLisp.Proofs.Context.BoundNames

/-!
# Proofs.Context.Refill — the names that a source gives to a context

The forms of a source bind names in a context and take over the bindings of other contexts, one
after another. A context that is filled so binds no names but those that it is given
(`names_fill_subset`). It binds all of them when no import takes a name away (`names_fill`), and
none does when all that is on record comes again (`losesNone_of_records`), or when the qualifiers
tell names apart (`Settled.fill`).
-/

namespace DispatchLisp

/-- The qualifier that goes with a context: its name and a dot. -/
def ContextId.qualifier (c : ContextId) : String :=
  c.name ++ "."

/-- What a form does to the context that is filled: it binds a name, or it takes over the bindings
of a context. -/
inductive Move where
  | bind (name : String) (v : Value)
  | take (source : ContextId)

/-- A move but for the value that it binds. -/
def Move.outline : Move → Move
  | bind name _ => bind name .nothing
  | take source => take source

namespace Store

/-- The store after a move. -/
def carryOut (c : ContextId) (s : Store) : Move → Store
  | .bind name v => s.define c name v
  | .take source => s.importFrom c source source.qualifier

/-- The store after some moves. -/
def fill (s : Store) (c : ContextId) (moves : List Move) : Store :=
  moves.foldl (carryOut c) s

/-! ## The names that moves give -/

/-- The names that a context binds after some moves if no name is taken away, when the other
contexts bind certain names. -/
def gather (bound : ContextId → Set String) (c : ContextId) : List Move → Set String → Set String
  | [], names => names
  | .bind name _ :: rest, names => gather bound c rest (insert name names)
  | .take source :: rest, names =>
    gather bound c rest
      (behind source.qualifier (if source.index = c.index then names else bound source) ∪ names)

section

variable {bound bound' : ContextId → Set String} {c : ContextId} {moves moves' : List Move}
  {names names' : Set String}

theorem subset_gather : names ⊆ gather bound c moves names := by
  induction moves generalizing names with
  | nil => exact subset_rfl
  | cons move rest ih =>
      cases move with
      | bind name v => exact (Set.subset_insert name names).trans ih
      | take source => exact Set.subset_union_right.trans ih

/-- What another context binds is given behind its qualifier. -/
theorem behind_subset_gather {source : ContextId} (h : .take source ∈ moves)
    (hother : source.index ≠ c.index) :
    behind source.qualifier (bound source) ⊆ gather bound c moves names := by
  induction moves generalizing names with
  | nil => cases h
  | cons move rest ih =>
      rcases List.mem_cons.mp h with rfl | hrest
      · rw [gather, if_neg hother]
        exact Set.subset_union_left.trans subset_gather
      · cases move with
        | bind name v => exact ih hrest
        | take other => exact ih hrest

theorem gather_congr
    (h : ∀ source, .take source ∈ moves → source.index ≠ c.index → bound' source = bound source) :
    gather bound' c moves names = gather bound c moves names := by
  induction moves generalizing names with
  | nil => rfl
  | cons move rest ih =>
      have hrest := fun source hsource => h source (List.mem_cons_of_mem _ hsource)
      cases move with
      | bind name v => exact ih hrest
      | take source =>
          rw [gather, gather, ih hrest]
          by_cases hown : source.index = c.index
          · rw [if_pos hown, if_pos hown]
          · rw [if_neg hown, if_neg hown, h source List.mem_cons_self hown]

theorem gather_outline : gather bound c (moves.map Move.outline) names = gather bound c moves names := by
  induction moves generalizing names with
  | nil => rfl
  | cons move rest ih =>
      cases move with
      | bind name v => exact ih
      | take source => exact ih

/-- The given names one by one, when the context does not take over from itself. -/
theorem mem_gather (h : ∀ source, .take source ∈ moves → source.index ≠ c.index) {name : String} :
    name ∈ gather bound c moves names ↔
      name ∈ names ∨ (∃ v, .bind name v ∈ moves) ∨
        ∃ source, .take source ∈ moves ∧ name ∈ behind source.qualifier (bound source) := by
  induction moves generalizing names with
  | nil => simp [gather]
  | cons move rest ih =>
      have hrest := fun source hsource => h source (List.mem_cons_of_mem _ hsource)
      cases move with
      | bind other v =>
          rw [gather, ih hrest]
          simp only [Set.mem_insert_iff, List.mem_cons, Move.bind.injEq, reduceCtorEq, false_or]
          grind
      | take source =>
          rw [gather, ih hrest, if_neg (h source List.mem_cons_self)]
          simp only [Set.mem_union, List.mem_cons, Move.take.injEq, reduceCtorEq, false_or]
          grind

end

/-! ## Filling -/

section

variable {s : Store} {c : ContextId} {moves : List Move} {bound : ContextId → Set String}

theorem size_carryOut (move : Move) :
    (s.carryOut c move).contexts.size = s.contexts.size := by
  cases move with
  | bind name v => exact size_updateContext _ _ _
  | take source => exact size_importFrom _ _ _ _

theorem HasContext.carryOut {d : ContextId} (h : s.HasContext d) (move : Move) :
    (s.carryOut c move).HasContext d :=
  Nat.lt_of_lt_of_eq h (size_carryOut move).symm

theorem HasContext.fill {d : ContextId} (h : s.HasContext d) : (s.fill c moves).HasContext d :=
  List.foldlRecOn (motive := fun s : Store => s.HasContext d) moves (Store.carryOut c) h
    fun _ hs move _ => hs.carryOut move

theorem names_take (hc : s.HasContext c) (source d : ContextId) :
    (s.carryOut c (.take source)).names d =
      if d.index = c.index then
        behind source.qualifier (s.names source) ∪
          (s.names d \ s.onRecord d source source.qualifier)
      else s.names d := by
  rw [carryOut, names_importFrom, names_reimport hc]

theorem names_carryOut_ne (hc : s.HasContext c) (move : Move) {d : ContextId}
    (hd : d.index ≠ c.index) : (s.carryOut c move).names d = s.names d := by
  cases move with
  | bind name v =>
      rw [carryOut, names_define hc, if_neg hd]
  | take source => rw [names_take hc, if_neg hd]

theorem names_fill_ne (hc : s.HasContext c) {d : ContextId} (hd : d.index ≠ c.index) :
    (s.fill c moves).names d = s.names d := by
  induction moves generalizing s with
  | nil => rfl
  | cons move rest ih => exact (ih (hc.carryOut move)).trans (names_carryOut_ne hc move hd)

/-- What is taken over by a move, in terms of what the other contexts bind. -/
theorem names_source (hbound : ∀ d, d.index ≠ c.index → s.names d = bound d) (source : ContextId) :
    s.names source = if source.index = c.index then s.names c else bound source := by
  split
  case isTrue hown => exact s.names_of_index hown
  case isFalse hother => exact hbound source hother

/-- A filled context binds no names but those that it is given. -/
theorem names_fill_subset (hc : s.HasContext c)
    (hbound : ∀ d, d.index ≠ c.index → s.names d = bound d) {names : Set String}
    (hnames : s.names c ⊆ names) : (s.fill c moves).names c ⊆ gather bound c moves names := by
  induction moves generalizing s names with
  | nil => exact hnames
  | cons move rest ih =>
      have hstep := fun d hd => (names_carryOut_ne hc move hd).trans (hbound d hd)
      cases move with
      | bind name v =>
          refine ih (hc.carryOut _) hstep ?_
          rw [carryOut, names_define hc, if_pos rfl]
          exact Set.insert_subset_insert hnames
      | take source =>
          refine ih (hc.carryOut _) hstep ?_
          rw [names_take hc, if_pos rfl, names_source hbound]
          refine Set.union_subset_union (behind_mono ?_) (Set.sdiff_subset.trans hnames)
          split
          · exact hnames
          · exact subset_rfl

/-- Whether no move takes a name away. -/
def LosesNone (c : ContextId) : Store → List Move → Prop
  | _, [] => True
  | s, move :: rest =>
    s.names c ⊆ (s.carryOut c move).names c ∧ LosesNone c (s.carryOut c move) rest

/-- A filled context binds all the names that it is given when none is taken away. -/
theorem names_fill (hc : s.HasContext c) (hbound : ∀ d, d.index ≠ c.index → s.names d = bound d)
    (hkept : LosesNone c s moves) :
    (s.fill c moves).names c = gather bound c moves (s.names c) := by
  induction moves generalizing s with
  | nil => rfl
  | cons move rest ih =>
      have hstep := fun d hd => (names_carryOut_ne hc move hd).trans (hbound d hd)
      have hrest : (s.fill c (move :: rest)).names c = _ := ih (hc.carryOut move) hstep hkept.2
      rw [hrest]
      cases move with
      | bind name v => rw [carryOut, names_define hc, if_pos rfl, gather]
      | take source =>
          have hall := hkept.1
          rw [names_take hc, if_pos rfl] at hall ⊢
          rw [gather, ← names_source hbound]
          congr 1
          refine subset_antisymm (Set.union_subset_union_right _ Set.sdiff_subset) ?_
          exact Set.union_subset Set.subset_union_left hall

/-! ## What is on record -/

theorem onRecord_take (hc : s.HasContext c) (source d other : ContextId) (qualifier : String) :
    (s.carryOut c (.take source)).onRecord d other qualifier =
      if d.index = c.index ∧ source = other ∧ source.qualifier = qualifier then
        behind source.qualifier (s.names source)
      else s.onRecord d other qualifier := by
  rw [carryOut, onRecord_importFrom, onRecord_reimport hc]

theorem onRecord_bind (name : String) (v : Value) (d other : ContextId) (qualifier : String) :
    (s.carryOut c (.bind name v)).onRecord d other qualifier = s.onRecord d other qualifier := by
  have himports : ((s.define c name v).context d).imports = (s.context d).imports := by
    refine context_updateContext_part ContextCell.imports ?_ s c d
    exact fun _ => rfl
  rw [onRecord, carryOut, himports, onRecord]

/-- What a context has on record for another one after it has taken over from it. -/
theorem onRecord_fill (hc : s.HasContext c) {source : ContextId} (hother : source.index ≠ c.index)
    (h : .take source ∈ moves ∨ s.onRecord c source source.qualifier =
      behind source.qualifier (s.names source)) :
    (s.fill c moves).onRecord c source source.qualifier =
      behind source.qualifier (s.names source) := by
  induction moves generalizing s with
  | nil => exact h.resolve_left List.not_mem_nil
  | cons move rest ih =>
      have hsource := names_carryOut_ne hc move hother
      rw [← hsource]
      refine ih (hc.carryOut move) ?_
      rw [hsource]
      cases move with
      | bind name v =>
          rw [onRecord_bind]
          exact h.imp_left fun h => (List.mem_cons.mp h).resolve_left (by simp)
      | take other =>
          rw [onRecord_take hc]
          by_cases hown : other = source
          · subst hown
            exact .inr (if_pos ⟨rfl, rfl, rfl⟩)
          · rw [if_neg fun hall => hown hall.2.1]
            refine h.imp_left fun h => (List.mem_cons.mp h).resolve_left fun heq => hown ?_
            cases heq
            rfl

/-- Nothing is lost when all that is on record is taken over again. -/
theorem losesNone_of_records (hc : s.HasContext c)
    (hother : ∀ source, .take source ∈ moves → source.index ≠ c.index)
    (hrecords : ∀ source, .take source ∈ moves →
      s.onRecord c source source.qualifier ⊆ behind source.qualifier (s.names source)) :
    LosesNone c s moves := by
  induction moves generalizing s with
  | nil => trivial
  | cons move rest ih =>
      have hrest : ∀ source, .take source ∈ rest →
          (s.carryOut c move).onRecord c source source.qualifier ⊆
            behind source.qualifier ((s.carryOut c move).names source) := by
        intro source hsource
        have hmem := List.mem_cons_of_mem move hsource
        rw [names_carryOut_ne hc move (hother source hmem)]
        cases move with
        | bind name v =>
            rw [onRecord_bind]
            exact hrecords source hmem
        | take other =>
            rw [onRecord_take hc]
            split
            case isTrue hsame => rw [hsame.2.1]
            case isFalse => exact hrecords source hmem
      refine ⟨?_, ih (hc.carryOut move) (fun source hsource =>
        hother source (List.mem_cons_of_mem _ hsource)) hrest⟩
      cases move with
      | bind name v =>
          rw [carryOut, names_define hc, if_pos rfl]
          exact Set.subset_insert _ _
      | take source =>
          rw [names_take hc, if_pos rfl]
          intro name hname
          by_cases hrecord : name ∈ s.onRecord c source source.qualifier
          · exact .inl (hrecords source List.mem_cons_self hrecord)
          · exact .inr ⟨hname, hrecord⟩

/-! ## Names that do not get into each other's way -/

/-- Whether the qualifiers of some contexts, among them the one that is filled and all that it
takes over from, tell names apart: no bound name and no other qualifier begins with one. -/
structure ToldApart (among : ContextId → Prop) (c : ContextId) (moves : List Move) : Prop where
  own : among c
  taken : ∀ source, .take source ∈ moves → among source
  bound : ∀ k name v, among k → .bind name v ∈ moves → name ∉ behind k.qualifier Set.univ
  qualifiers : ∀ k k', among k → among k' → k ≠ k' →
    k'.qualifier ∉ behind k.qualifier Set.univ

theorem behind_subset_univ {qualifier : String} {names : Set String} :
    behind qualifier names ⊆ behind qualifier Set.univ :=
  behind_mono (Set.subset_univ _)

/-- Of two qualifiers of one name one begins with the other. -/
theorem qualifier_mem_behind {q q' name : String} (h : name ∈ behind q Set.univ)
    (h' : name ∈ behind q' Set.univ) : q' ∈ behind q Set.univ ∨ q ∈ behind q' Set.univ := by
  rw [mem_behind_univ] at h h'
  rw [mem_behind_univ, mem_behind_univ]
  exact List.prefix_or_prefix_of_prefix h h'

/-- Whether every name of a context that begins with one of some qualifiers is there because of
what the context with that qualifier binds. -/
structure Settled (among : ContextId → Prop) (c : ContextId) (s : Store) : Prop where
  records : ∀ k, among k → s.onRecord c k k.qualifier ⊆ behind k.qualifier Set.univ
  names : ∀ k, among k →
    s.names c ∩ behind k.qualifier Set.univ ⊆ behind k.qualifier (s.names k)

variable {among : ContextId → Prop}

/-- No move takes a settled name away: what an earlier one brought is brought again. -/
theorem Settled.subset_carryOut (h : Settled among c s) (hc : s.HasContext c) {move : Move}
    (hapart : ToldApart among c [move]) : s.names c ⊆ (s.carryOut c move).names c := by
  cases move with
  | bind name v =>
      rw [Store.carryOut, names_define hc, if_pos rfl]
      exact Set.subset_insert _ _
  | take source =>
      have hsource := hapart.taken source List.mem_cons_self
      rw [names_take hc, if_pos rfl]
      intro name hname
      by_cases hrecord : name ∈ s.onRecord c source source.qualifier
      · exact .inl (h.names source hsource ⟨hname, h.records source hsource hrecord⟩)
      · exact .inr ⟨hname, hrecord⟩

/-- A move keeps names settled. -/
theorem Settled.carryOut (h : Settled among c s) (hc : s.HasContext c) {move : Move}
    (hapart : ToldApart among c [move]) : Settled among c (s.carryOut c move) := by
  have hkept := h.subset_carryOut hc hapart
  have hgrows : ∀ d, s.names d ⊆ (s.carryOut c move).names d := by
    intro d
    by_cases hd : d.index = c.index
    · rw [s.names_of_index hd, names_of_index _ hd]
      exact hkept
    · rw [names_carryOut_ne hc move hd]
  refine ⟨?_, ?_⟩
  · intro k hk
    cases move with
    | bind name v =>
        rw [onRecord_bind]
        exact h.records k hk
    | take source =>
        rw [onRecord_take hc]
        split
        case isTrue hsame =>
          rw [← hsame.2.2]
          exact behind_subset_univ
        case isFalse => exact h.records k hk
  · rintro k hk name ⟨hname, hbehind⟩
    have hbefore : name ∈ s.names c → name ∈ behind k.qualifier ((s.carryOut c move).names k) :=
      fun hold => behind_mono (hgrows k) (h.names k hk ⟨hold, hbehind⟩)
    cases move with
    | bind other v =>
        rw [Store.carryOut, names_define hc, if_pos rfl] at hname
        rcases hname with rfl | hold
        · exact absurd hbehind (hapart.bound k _ v hk List.mem_cons_self)
        · exact hbefore hold
    | take source =>
        rw [names_take hc, if_pos rfl] at hname
        rcases hname with hfresh | ⟨hold, _⟩
        · -- a fresh name begins with one qualifier only
          by_cases hsame : source = k
          · subst hsame
            exact behind_mono (hgrows source) hfresh
          · have hsource := hapart.taken source List.mem_cons_self
            rcases qualifier_mem_behind (behind_subset_univ hfresh) hbehind with hq | hq
            · exact absurd hq (hapart.qualifiers source k hsource hk hsame)
            · exact absurd hq (hapart.qualifiers k source hk hsource (Ne.symm hsame))
        · exact hbefore hold

theorem ToldApart.head {move : Move} {rest : List Move} (h : ToldApart among c (move :: rest)) :
    ToldApart among c [move] := by
  have hmem : ∀ d ∈ [move], d ∈ move :: rest := fun d hd => by
    rw [List.mem_singleton.mp hd]
    exact List.mem_cons_self
  exact ⟨h.own, fun source hsource => h.taken source (hmem _ hsource),
    fun k name v hk hbind => h.bound k name v hk (hmem _ hbind), h.qualifiers⟩

theorem ToldApart.tail {move : Move} {rest : List Move} (h : ToldApart among c (move :: rest)) :
    ToldApart among c rest :=
  ⟨h.own, fun source hsource => h.taken source (List.mem_cons_of_mem _ hsource),
    fun k name v hk hbind => h.bound k name v hk (List.mem_cons_of_mem _ hbind), h.qualifiers⟩

theorem Settled.fill (h : Settled among c s) (hc : s.HasContext c)
    (hapart : ToldApart among c moves) :
    LosesNone c s moves ∧ Settled among c (s.fill c moves) := by
  induction moves generalizing s with
  | nil => exact ⟨trivial, h⟩
  | cons move rest ih =>
      have hsettled := h.carryOut hc hapart.head
      obtain ⟨hrest, hfilled⟩ := ih hsettled (hc.carryOut move) hapart.tail
      exact ⟨⟨h.subset_carryOut hc hapart.head, hrest⟩, hfilled⟩

end

end Store

end DispatchLisp
