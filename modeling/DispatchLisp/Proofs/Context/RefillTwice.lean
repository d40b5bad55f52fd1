import DispatchLisp.Proofs.Context.HandOn
import DispatchLisp.Proofs.Context.Refill

/-!
# Proofs.Context.RefillTwice — filling a context anew, twice in a row

To fill a context anew is to drop its bindings, to carry out the moves of a source, and to hand
the outcome on to everyone who imports the context. The second time the sources may bind more than
the first time, since users of the context can be among them, and what an import has on record may
have changed.

Main statements: `names_refill_twice`, for a context that gets nothing back from its users;
`names_refill_twice_of_apart`, for qualifiers that tell names apart.
-/

namespace DispatchLisp

namespace Store

/-- The contexts that import a context. -/
def users (s : Store) (c : ContextId) : List ContextId :=
  (s.context c).usages.map (·.importer)

/-- Fills a context anew and hands the outcome on. -/
def refill (s : Store) (c : ContextId) (moves : List Move) : Store :=
  ((s.replaceTable c []).fill c moves).propagate c

theorem take_mem_of_outline {moves moves' : List Move}
    (hsame : moves'.map Move.outline = moves.map Move.outline) {source : ContextId}
    (h : .take source ∈ moves') : .take source ∈ moves := by
  have hmem : Move.take source ∈ moves.map Move.outline :=
    hsame ▸ List.mem_map.mpr ⟨_, h, rfl⟩
  obtain ⟨move, hmove, heq⟩ := List.mem_map.mp hmem
  cases move with
  | bind name v => cases heq
  | take other =>
      cases heq
      exact hmove

/-! ## Users -/

/-- Whether the usages of a context are in order, when contexts go by certain names: every user is
there and listed once, by its name and with the qualifier of the context. -/
structure UsersInOrder (named : Nat → String) (s : Store) (c : ContextId) : Prop where
  distinct : s.Distinct (s.users c)
  qualifiers : ∀ u ∈ (s.context c).usages, u.qualifiers = [c.qualifier]
  names : ∀ user ∈ s.users c, user.name = named user.index

variable {named : Nat → String} {s : Store} {c : ContextId} {moves moves' : List Move}

theorem eq_of_index {c d : ContextId} (hc : c.name = named c.index) (hd : d.name = named d.index)
    (h : c.index = d.index) : c = d := by
  rcases c with ⟨i, name⟩
  rcases d with ⟨j, name'⟩
  cases h
  rw [show name = named i from hc, show name' = named i from hd]

theorem recordUsage_of_user {usages : List Usage} {user : ContextId} {qualifier : String}
    (h : ∀ u ∈ usages, u.qualifiers = [qualifier]) (huser : user ∈ usages.map (·.importer)) :
    recordUsage user qualifier usages = usages := by
  induction usages with
  | nil => cases huser
  | cons u rest ih =>
      obtain ⟨hu, hrest⟩ := List.forall_mem_cons.mp h
      rw [recordUsage]
      split
      case isTrue => simp [hu]
      case isFalse hother =>
        rw [List.map_cons] at huser
        rw [ih hrest ((List.mem_cons.mp huser).resolve_left (Ne.symm hother))]

theorem recordUsage_of_new {usages : List Usage} {user : ContextId} (qualifier : String)
    (huser : user ∉ usages.map (·.importer)) :
    recordUsage user qualifier usages = usages ++ [⟨user, [qualifier]⟩] := by
  induction usages with
  | nil => rfl
  | cons u rest ih =>
      rw [List.map_cons, List.mem_cons, not_or] at huser
      rw [recordUsage, if_neg (Ne.symm huser.1), ih huser.2, List.cons_append]

theorem usages_reimport (user source : ContextId) (qualifier : String) (d : ContextId) :
    ((s.reimport user source qualifier).context d).usages = (s.context d).usages :=
  context_updateContext_part ContextCell.usages (fun cell => (rfl : (cell.takeOver ..).usages = _))
    s user d

theorem usages_replaceTable (table : Table Value) (d : ContextId) :
    ((s.replaceTable c table).context d).usages = (s.context d).usages := by
  refine context_updateContext_part ContextCell.usages ?_ s c d
  exact fun _ => rfl

theorem usages_bind (name : String) (v : Value) (d : ContextId) :
    ((s.carryOut c (.bind name v)).context d).usages = (s.context d).usages := by
  refine context_updateContext_part ContextCell.usages ?_ s c d
  exact fun _ => rfl

theorem usages_take {d : ContextId} (hd : s.HasContext d) (source : ContextId) :
    ((s.carryOut c (.take source)).context d).usages =
      if d.index = source.index then recordUsage c source.qualifier (s.context d).usages
      else (s.context d).usages := by
  rw [carryOut, context_importFrom]
  split
  case isTrue hown =>
    have hthere : (s.reimport c source source.qualifier).HasContext d :=
      hd.reimport _ _ _
    rw [context_updateContext_self hown hthere, usages_reimport]
  case isFalse hother => rw [context_updateContext_ne hother, usages_reimport]

theorem UsersInOrder.congr {s' : Store} (h : UsersInOrder named s c)
    (hsize : s'.contexts.size = s.contexts.size)
    (husages : (s'.context c).usages = (s.context c).usages) : UsersInOrder named s' c := by
  have husers : s'.users c = s.users c := by
    rw [users, husages, users]
  constructor
  · rw [husers]
    exact ⟨fun user huser => Nat.lt_of_lt_of_eq (h.distinct.there user huser) hsize.symm,
      h.distinct.apart⟩
  · rw [husages]
    exact h.qualifiers
  · rw [husers]
    exact h.names

/-- What a move makes of the users of a context: who takes over from it becomes one of them. -/
theorem usages_carryOut {d : ContextId} (h : UsersInOrder named s d) (hd : s.HasContext d)
    (hdnamed : d.name = named d.index) {move : Move}
    (hmove : ∀ source, move = .take source → source.name = named source.index) :
    (move = .take d ∧ c ∉ s.users d ∧ ((s.carryOut c move).context d).usages =
      (s.context d).usages ++ [⟨c, [d.qualifier]⟩]) ∨
    ((move = .take d → c ∈ s.users d) ∧
      ((s.carryOut c move).context d).usages = (s.context d).usages) := by
  cases move with
  | bind name v => exact .inr ⟨nofun, usages_bind name v d⟩
  | take source =>
      rw [usages_take hd]
      by_cases hown : d.index = source.index
      · have hsame : source = d := (eq_of_index hdnamed (hmove source rfl) hown).symm
        subst hsame
        rw [if_pos rfl]
        by_cases huser : c ∈ s.users source
        · exact .inr ⟨fun _ => huser, recordUsage_of_user h.qualifiers huser⟩
        · exact .inl ⟨rfl, huser, recordUsage_of_new _ huser⟩
      · rw [if_neg hown]
        refine .inr ⟨fun h => ?_, rfl⟩
        cases h
        exact absurd rfl hown

theorem UsersInOrder.carryOut {d : ContextId} (h : UsersInOrder named s d) (hd : s.HasContext d)
    (hdnamed : d.name = named d.index) (hc : s.HasContext c) (hcnamed : c.name = named c.index)
    {move : Move} (hmove : ∀ source, move = .take source → source.name = named source.index) :
    UsersInOrder named (s.carryOut c move) d := by
  have hsize : (s.carryOut c move).contexts.size = s.contexts.size := size_carryOut move
  rcases usages_carryOut h hd hdnamed hmove with ⟨_, hnew, husages⟩ | ⟨_, husages⟩
  · -- the move adds a user, which was none before
    have husers : (s.carryOut c move).users d = s.users d ++ [c] := by
      rw [users, husages, List.map_append]
      rfl
    refine ⟨⟨?_, ?_⟩, ?_, ?_⟩
    · rw [husers]
      intro user huser
      rcases List.mem_append.mp huser with hold | hadded
      · exact Nat.lt_of_lt_of_eq (h.distinct.there user hold) hsize.symm
      · rw [List.mem_singleton.mp hadded]
        exact Nat.lt_of_lt_of_eq hc hsize.symm
    · rw [husers, List.pairwise_append]
      refine ⟨h.distinct.apart, List.pairwise_singleton _ _, fun user huser other hother => ?_⟩
      rw [List.mem_singleton.mp hother]
      intro hsame
      exact hnew (eq_of_index (h.names user huser) hcnamed hsame ▸ huser)
    · rw [husages]
      intro u hu
      rcases List.mem_append.mp hu with hold | hadded
      · exact h.qualifiers u hold
      · rw [List.mem_singleton.mp hadded]
    · rw [husers]
      intro user huser
      rcases List.mem_append.mp huser with hold | hadded
      · exact h.names user hold
      · rw [List.mem_singleton.mp hadded]
        exact hcnamed
  · exact h.congr hsize husages

/-- A context is handed on to its users one by one. -/
theorem propagate_eq_handOn (h : UsersInOrder named s c) :
    s.propagate c = s.handOn c c.qualifier (s.users c) := by
  rw [handOn, users, List.foldl_map, propagate]
  refine List.foldl_ext _ _ _ fun s' u hu => ?_
  rw [h.qualifiers u hu]
  rfl

theorem usages_handOn (source : ContextId) (qualifier : String) (users : List ContextId)
    (d : ContextId) :
    ((s.handOn source qualifier users).context d).usages = (s.context d).usages :=
  List.foldlRecOn (motive := fun s' : Store => (s'.context d).usages = (s.context d).usages) users
    (fun s user => s.reimport user source qualifier) rfl
    fun s' hs' user _ => (usages_reimport (s := s') user source qualifier d).trans hs'

theorem size_handOn (source : ContextId) (qualifier : String) (users : List ContextId) :
    (s.handOn source qualifier users).contexts.size = s.contexts.size :=
  List.foldlRecOn (motive := fun s' : Store => s'.contexts.size = s.contexts.size) users
    (fun s user => s.reimport user source qualifier) rfl
    fun _ hs' _ _ => (size_reimport ..).trans hs'

/-! ## The state between the two times -/

/-- A context keeps its users in order while it is filled. -/
theorem UsersInOrder.fill {d : ContextId} (h : UsersInOrder named s d) (hd : s.HasContext d)
    (hdnamed : d.name = named d.index) (hc : s.HasContext c) (hcnamed : c.name = named c.index)
    (hmoves : ∀ source, .take source ∈ moves → source.name = named source.index) :
    UsersInOrder named (s.fill c moves) d := by
  induction moves generalizing s with
  | nil => exact h
  | cons move rest ih =>
      have hmove : ∀ source, move = .take source → source.name = named source.index :=
        fun source heq => hmoves source (heq ▸ List.mem_cons_self)
      exact ih (h.carryOut hd hdnamed hc hcnamed hmove) (hd.carryOut move) (hc.carryOut move)
        fun source hsource => hmoves source (List.mem_cons_of_mem _ hsource)

/-- A context that takes over from itself is one of its users from then on. -/
theorem mem_users_fill (h : UsersInOrder named s c) (hc : s.HasContext c)
    (hcnamed : c.name = named c.index)
    (hmoves : ∀ source, .take source ∈ moves → source.name = named source.index)
    (hown : .take c ∈ moves ∨ c ∈ s.users c) : c ∈ (s.fill c moves).users c := by
  induction moves generalizing s with
  | nil => exact hown.resolve_left List.not_mem_nil
  | cons move rest ih =>
      have hmove : ∀ source, move = .take source → source.name = named source.index :=
        fun source heq => hmoves source (heq ▸ List.mem_cons_self)
      refine ih (h.carryOut hc hcnamed hc hcnamed hmove) (hc.carryOut move)
        (fun source hsource => hmoves source (List.mem_cons_of_mem _ hsource)) ?_
      rcases usages_carryOut (c := c) h hc hcnamed hmove with ⟨_, _, husages⟩ | ⟨huser, husages⟩
      · right
        rw [users, husages, List.map_append]
        exact List.mem_append_right _ (List.mem_singleton_self _)
      · -- no user is added here, so the context is one already, or a later move makes it one
        rcases hown with hmem | hbefore
        · rcases List.mem_cons.mp hmem with heq | hmem
          · right
            rw [users, husages]
            exact huser heq.symm
          · exact .inl hmem
        · right
          rw [users, husages]
          exact hbefore

/-- A context whose users are known already has the same users after it has been filled. -/
theorem usages_fill (h : UsersInOrder named s c) (hc : s.HasContext c)
    (hcnamed : c.name = named c.index)
    (hmoves : ∀ source, .take source ∈ moves → source.name = named source.index)
    (hown : .take c ∈ moves → c ∈ s.users c) :
    ((s.fill c moves).context c).usages = (s.context c).usages := by
  induction moves generalizing s with
  | nil => rfl
  | cons move rest ih =>
      have hmove : ∀ source, move = .take source → source.name = named source.index :=
        fun source heq => hmoves source (heq ▸ List.mem_cons_self)
      rcases usages_carryOut (c := c) h hc hcnamed hmove with ⟨heq, hnew, _⟩ | ⟨_, husages⟩
      · exact absurd (hown (heq ▸ List.mem_cons_self)) hnew
      · refine (ih (h.congr (size_carryOut move) husages) (hc.carryOut move)
          (fun source hsource => hmoves source (List.mem_cons_of_mem _ hsource)) ?_).trans husages
        intro hmem
        rw [users, husages]
        exact hown (List.mem_cons_of_mem _ hmem)

theorem onRecord_replaceTable (table : Table Value) (d source : ContextId) (qualifier : String) :
    (s.replaceTable c table).onRecord d source qualifier = s.onRecord d source qualifier := by
  have himports : ((s.replaceTable c table).context d).imports = (s.context d).imports := by
    refine context_updateContext_part ContextCell.imports ?_ s c d
    exact fun _ => rfl
  rw [onRecord, himports, onRecord]

theorem onRecord_fill_ne (hc : s.HasContext c) {d : ContextId} (hd : d.index ≠ c.index)
    (source : ContextId) (qualifier : String) :
    (s.fill c moves).onRecord d source qualifier = s.onRecord d source qualifier := by
  induction moves generalizing s with
  | nil => rfl
  | cons move rest ih =>
      refine (ih (hc.carryOut move)).trans ?_
      cases move with
      | bind name v => exact onRecord_bind name v d source qualifier
      | take other => rw [onRecord_take hc, if_neg fun hall => hd hall.1]

/-- What is needed of a store to fill a context in it: the context is there, contexts go by their
names, and the users are in order. -/
structure Ready (named : Nat → String) (s : Store) (c : ContextId) (moves : List Move) :
    Prop where
  there : s.HasContext c
  own : c.name = named c.index
  sources : ∀ source, .take source ∈ moves → source.name = named source.index
  users : UsersInOrder named s c

/-- The store in which a context has been filled anew, before it is handed on. -/
def refilled (s : Store) (c : ContextId) (moves : List Move) : Store :=
  (s.replaceTable c []).fill c moves

namespace Ready

variable (h : Ready named s c moves)

include h

theorem emptied : Ready named (s.replaceTable c []) c moves where
  there := h.there.replaceTable _ _
  own := h.own
  sources := h.sources
  users := h.users.congr (size_replaceTable ..) (usages_replaceTable [] c)

theorem refilled : Ready named (s.refilled c moves) c moves where
  there := h.emptied.there.fill
  own := h.own
  sources := h.sources
  users := h.emptied.users.fill h.emptied.there h.own h.emptied.there h.own h.sources

theorem refill_eq : s.refill c moves =
    (s.refilled c moves).handOn c c.qualifier ((s.refilled c moves).users c) :=
  propagate_eq_handOn h.refilled.users

theorem usages_refill :
    ((s.refill c moves).context c).usages = ((s.refilled c moves).context c).usages := by
  rw [h.refill_eq, usages_handOn]

theorem refill : Ready named (s.refill c moves) c moves where
  there := by
    rw [h.refill_eq]
    exact Nat.lt_of_lt_of_eq h.refilled.there (size_handOn ..).symm
  own := h.own
  sources := h.sources
  users := by
    refine h.refilled.users.congr ?_ h.usages_refill
    rw [h.refill_eq, size_handOn]

theorem outline (hsame : moves'.map Move.outline = moves.map Move.outline) :
    Ready named s c moves' :=
  ⟨h.there, h.own, fun source hsource => h.sources source (take_mem_of_outline hsame hsource),
    h.users⟩

/-- A context that is not one of its users does not take over from itself. -/
theorem source_ne (hown : ∀ user ∈ (s.refill c moves).users c, user.index ≠ c.index) :
    ∀ source, .take source ∈ moves → source.index ≠ c.index := by
  intro source hsource hindex
  have hsame := eq_of_index (h.sources source hsource) h.own hindex
  subst hsame
  refine hown source ?_ rfl
  rw [Store.users, h.usages_refill]
  exact mem_users_fill h.emptied.users h.emptied.there h.own h.sources (.inl hsource)

end Ready

theorem names_refilled_ne (hc : s.HasContext c) {d : ContextId} (hd : d.index ≠ c.index) :
    (s.refilled c moves).names d = s.names d := by
  rw [refilled, names_fill_ne (hc.replaceTable c []) hd, names_replaceTable_nil hc, if_neg hd]

theorem names_emptied (hc : s.HasContext c) : (s.replaceTable c []).names c = ∅ := by
  rw [names_replaceTable_nil hc, if_pos rfl]

/-- A context that has been filled anew binds only names that it is given. -/
theorem names_refilled_subset (hc : s.HasContext c) :
    (s.refilled c moves).names c ⊆ gather s.names c moves ∅ := by
  refine names_fill_subset (hc.replaceTable c []) (fun d hd => ?_) (names_emptied hc).subset
  rw [names_replaceTable_nil hc, if_neg hd]

/-- It binds all of them when none is taken away. -/
theorem names_refilled (hc : s.HasContext c) (hkept : LosesNone c (s.replaceTable c []) moves) :
    (s.refilled c moves).names c = gather s.names c moves ∅ := by
  have hbound : ∀ d, d.index ≠ c.index → (s.replaceTable c []).names d = s.names d := by
    intro d hd
    rw [names_replaceTable_nil hc, if_neg hd]
  rw [refilled, names_fill (hc.replaceTable c []) hbound hkept, names_emptied hc]

/-! ## Qualifiers that tell names apart -/

section

variable {among : ContextId → Prop}

theorem Settled.keepsOwn (hsettled : Settled among c s) (hown : among c) :
    s.KeepsOwn c c.qualifier := by
  rintro name ⟨hname, hrecord⟩
  exact hsettled.names c hown ⟨hname, hsettled.records c hown hrecord⟩

/-- The names of a context that has been filled anew are settled when qualifiers tell names
apart, and all that are given are there. -/
theorem Ready.settled (h : Ready named s c moves) (hapart : ToldApart among c moves)
    (hrecords : ∀ k, among k → s.onRecord c k k.qualifier ⊆ behind k.qualifier Set.univ) :
    (s.refilled c moves).names c = gather s.names c moves ∅ ∧
      Settled among c (s.refilled c moves) := by
  have hsettled : Settled among c (s.replaceTable c []) := by
    constructor
    · intro k hk
      rw [onRecord_replaceTable]
      exact hrecords k hk
    · intro k _
      rw [names_emptied h.there, Set.empty_inter]
      exact Set.empty_subset _
  obtain ⟨hkept, hfilled⟩ := hsettled.fill h.emptied.there hapart
  exact ⟨names_refilled h.there hkept, hfilled⟩

/-- What a context has on record begins with the qualifier it was taken over under, also after it
has been handed on. -/
theorem Ready.records_refill (h : Ready named s c moves) (hapart : ToldApart among c moves)
    (hrecords : ∀ k, among k → s.onRecord c k k.qualifier ⊆ behind k.qualifier Set.univ) :
    ∀ k, among k → (s.refill c moves).onRecord c k k.qualifier ⊆ behind k.qualifier Set.univ := by
  intro k hk
  rw [h.refill_eq]
  exact onRecord_handOn_subset h.refilled.users.distinct ((h.settled hapart hrecords).2.records k hk)

theorem ToldApart.outline (h : ToldApart among c moves)
    (hsame : moves'.map Move.outline = moves.map Move.outline) : ToldApart among c moves' := by
  refine ⟨h.own, fun source hsource => h.taken source (take_mem_of_outline hsame hsource),
    fun k name v hk hbind => ?_, h.qualifiers⟩
  have hmem : Move.bind name .nothing ∈ moves.map Move.outline :=
    hsame ▸ List.mem_map.mpr ⟨_, hbind, rfl⟩
  obtain ⟨move, hmove, heq⟩ := List.mem_map.mp hmem
  cases move with
  | bind other w =>
      cases heq
      exact h.bound k name w hk hmove
  | take other => cases heq

end

section Twice

variable (h : Ready named s c moves) (hsame : moves'.map Move.outline = moves.map Move.outline)

include h hsame

/-- The second time a context has the users that it had after the first time. -/
theorem users_refilled_again :
    ((s.refill c moves).refilled c moves').users c = (s.refilled c moves).users c := by
  have hagain := (h.refill.outline hsame).emptied
  have husages : (((s.refill c moves).refilled c moves').context c).usages =
      (((s.refill c moves).replaceTable c []).context c).usages := by
    refine usages_fill hagain.users hagain.there hagain.own hagain.sources fun hown => ?_
    have huser : c ∈ (s.refilled c moves).users c :=
      mem_users_fill h.emptied.users h.emptied.there h.own h.sources
        (.inl (take_mem_of_outline hsame hown))
    rw [users, usages_replaceTable, h.usages_refill]
    exact huser
  rw [users, husages, usages_replaceTable, h.usages_refill, users]

/-- When the context binds the same names before it is handed on, every context does afterwards. -/
theorem names_refill_again
    (hnames : ((s.refill c moves).refilled c moves').names c = (s.refilled c moves).names c)
    (hself : ∀ user ∈ (s.refilled c moves).users c, user.index = c.index →
      (s.refilled c moves).KeepsOwn c c.qualifier ∧
        ((s.refill c moves).refilled c moves').KeepsOwn c c.qualifier) (d : ContextId) :
    ((s.refill c moves).refill c moves').names d = (s.refill c moves).names d := by
  have hagain := h.refill.outline hsame
  rw [hagain.refill_eq, users_refilled_again h hsame, h.refill_eq]
  rw [h.refill_eq] at hnames hself hagain
  have hdistinct := hagain.refilled.users.distinct
  rw [← h.refill_eq, users_refilled_again h hsame, h.refill_eq] at hdistinct
  refine names_handOn_again h.refilled.users.distinct hdistinct ?_ hnames ?_ ?_ d
  · intro user huser hindex
    have hkept := hself user huser hindex
    exact ⟨eq_of_index (h.refilled.users.names user huser) h.own hindex, hkept.1, hkept.2⟩
  · intro d hd
    exact names_refilled_ne hagain.there hd
  · intro user _ hother
    rw [Store.refilled, onRecord_fill_ne hagain.emptied.there hother, onRecord_replaceTable]

omit hsame in
/-- Where no user is the context itself or one that it takes over from, handing on changes the names
of neither. -/
theorem names_refill_of_free
    (hfree : ∀ user ∈ (s.refill c moves).users c,
      user.index ≠ c.index ∧ ∀ source, .take source ∈ moves → user.index ≠ source.index) :
    (s.refill c moves).names c = (s.refilled c moves).names c ∧
      ∀ source, .take source ∈ moves → (s.refill c moves).names source = s.names source := by
  have hother := h.source_ne fun user huser => (hfree user huser).1
  have husers : (s.refill c moves).users c = (s.refilled c moves).users c := by
    rw [users, h.usages_refill, users]
  rw [husers] at hfree
  have hdistinct := h.refilled.users.distinct
  rw [h.refill_eq]
  refine ⟨names_handOn_ne hdistinct fun user huser => Ne.symm (hfree user huser).1, ?_⟩
  intro source hsource
  rw [names_handOn_ne hdistinct fun user huser => Ne.symm ((hfree user huser).2 source hsource),
    names_refilled_ne h.there (hother source hsource)]

/-- Then the context is given the same names the second time, and all of them stay. -/
theorem names_refilled_of_free
    (hfree : ∀ user ∈ (s.refill c moves).users c,
      user.index ≠ c.index ∧ ∀ source, .take source ∈ moves → user.index ≠ source.index) :
    ((s.refill c moves).refilled c moves').names c = gather s.names c moves ∅ := by
  have hagain := h.refill.outline hsame
  have hother := h.source_ne fun user huser => (hfree user huser).1
  have hsources := (names_refill_of_free h hfree).2
  have hgather : gather (s.refill c moves).names c moves ∅ = gather s.names c moves ∅ :=
    gather_congr fun source hsource _ => hsources source hsource
  have htaken := fun source => @take_mem_of_outline moves moves' hsame source
  rw [names_refilled h.refill.there, ← gather_outline, hsame, gather_outline, hgather]
  refine losesNone_of_records hagain.emptied.there
    (fun source hsource => hother source (htaken source hsource)) fun source hsource => ?_
  -- what the context has on record is what it took over the first time
  have hmem := htaken source hsource
  have hne : source ≠ c := fun heq => hother source hmem (by rw [heq])
  rw [onRecord_replaceTable, names_replaceTable_nil h.refill.there, if_neg (hother source hmem),
    hsources source hmem, h.refill_eq,
    onRecord_handOn_ne h.refilled.users.distinct (.inr hne), Store.refilled,
    onRecord_fill h.emptied.there (hother source hmem) (.inl hmem),
    names_replaceTable_nil h.there, if_neg (hother source hmem)]

/-- Filling a context anew twice, when neither it nor a context that it takes over from is among
its users. Then the sources bind the same names both times, and the second time nothing is
taken away. So names stay the same exactly when none that the context is given was taken away
the first time. -/
theorem names_refill_twice
    (hfree : ∀ user ∈ (s.refill c moves).users c,
      user.index ≠ c.index ∧ ∀ source, .take source ∈ moves → user.index ≠ source.index) :
    (∀ d, ((s.refill c moves).refill c moves').names d = (s.refill c moves).names d) ↔
      gather (s.refill c moves).names c moves ∅ ⊆ (s.refill c moves).names c := by
  have hagain := h.refill.outline hsame
  obtain ⟨hnames, hsources⟩ := names_refill_of_free h hfree
  have hsecond := names_refilled_of_free h hsame hfree
  have hgather : gather (s.refill c moves).names c moves ∅ = gather s.names c moves ∅ :=
    gather_congr fun source hsource _ => hsources source hsource
  have husers : (s.refill c moves).users c = (s.refilled c moves).users c := by
    rw [users, h.usages_refill, users]
  rw [husers] at hfree
  rw [hgather, hnames]
  constructor
  · intro hall
    have hlater : ((s.refill c moves).refill c moves').names c =
        ((s.refill c moves).refilled c moves').names c := by
      rw [hagain.refill_eq, users_refilled_again h hsame]
      refine names_handOn_ne ?_ fun user huser => Ne.symm (hfree user huser).1
      have := hagain.refilled.users.distinct
      rwa [users_refilled_again h hsame] at this
    rw [← hsecond, ← hlater, hall c, hnames]
  · intro hsubset
    refine names_refill_again h hsame ?_ fun user huser hindex =>
      absurd hindex (hfree user huser).1
    rw [hsecond]
    exact subset_antisymm hsubset (names_refilled_subset h.there)

section

variable {among : ContextId → Prop} (hapart : ToldApart among c moves)
  (hrecords : ∀ k, among k → s.onRecord c k k.qualifier ⊆ behind k.qualifier Set.univ)

include hapart hrecords

/-- When a context binds the same names after it has been filled a second time, none of its users
that it takes over from binds anything: the longest name of such a user would come back to it with
two qualifiers in front. -/
theorem names_eq_empty_of_refill_again
    (hall : ((s.refill c moves).refill c moves').names c = (s.refill c moves).names c)
    {source user : ContextId} (hsource : .take source ∈ moves) (hother : source.index ≠ c.index)
    (huser : user ∈ (s.refilled c moves).users c) (hindex : user.index = source.index) :
    (s.refill c moves).names source = ∅ := by
  have hagain := h.refill.outline hsame
  have hdistinct := h.refilled.users.distinct
  have hkept := (h.settled hapart hrecords).2.keepsOwn hapart.own
  obtain ⟨hsecond, hsettled'⟩ :=
    hagain.settled (hapart.outline hsame) (h.records_refill hapart hrecords)
  have hself : ∀ user ∈ (s.refilled c moves).users c, user.index = c.index →
      user = c ∧ (s.refilled c moves).KeepsOwn c c.qualifier := fun user huser hindex =>
    ⟨eq_of_index (h.refilled.users.names user huser) h.own hindex, hkept⟩
  rw [← gather_outline, hsame, gather_outline] at hsecond
  by_contra hnonempty
  obtain ⟨name, hname, hlongest⟩ := exists_longest_name (Set.nonempty_iff_ne_empty.mpr hnonempty)
  have hgiven : source.qualifier ++ name ∈ ((s.refill c moves).refilled c moves').names c := by
    rw [hsecond]
    exact behind_subset_gather hsource hother (mem_behind_append.mpr hname)
  have hlater : source.qualifier ++ name ∈ ((s.refill c moves).refill c moves').names c := by
    have hdistinct' := hagain.refilled.users.distinct
    rw [hagain.refill_eq, names_handOn_self hdistinct' hagain.refilled.there
      fun user huser hindex =>
        ⟨eq_of_index (hagain.refilled.users.names user huser) h.own hindex,
          hsettled'.keepsOwn hapart.own⟩]
    exact .inr hgiven
  rw [hall, h.refill_eq, names_handOn_self hdistinct h.refilled.there hself] at hlater
  rcases hlater with ⟨_, hown⟩ | hbefore
  · -- only what the context takes over from itself begins with its own qualifier
    have hne : c ≠ source := fun heq => hother (by rw [heq])
    have hamong := hapart.taken source hsource
    rcases qualifier_mem_behind (behind_subset_univ hown) ⟨name, trivial, rfl⟩ with hq | hq
    · exact hapart.qualifiers c source hapart.own hamong hne hq
    · exact hapart.qualifiers source c hamong hapart.own (Ne.symm hne) hq
  · have hback : c.qualifier ++ (source.qualifier ++ name) ∈ (s.refill c moves).names source := by
      rw [h.refill_eq, ← names_of_index _ hindex]
      exact behind_subset_handOn hdistinct h.refilled.there hself huser
        (fun heq => hother (hindex.symm.trans heq)) (mem_behind_append.mpr hbefore)
    have hlength := hlongest _ hback
    simp only [ContextId.qualifier, String.length_append] at hlength
    have hdot : ".".length = 1 := rfl
    omega

omit hsame in
/-- When the users that a context takes over from bind nothing in the end, they had nothing to
give: a user is handed all that the context was given. -/
theorem names_source_refill
    (hempty : ∀ source, .take source ∈ moves → source.index ≠ c.index →
      (∃ user ∈ (s.refilled c moves).users c, user.index = source.index) →
        (s.refill c moves).names source = ∅)
    (source : ContextId) (hsource : .take source ∈ moves) (hother : source.index ≠ c.index) :
    (s.refill c moves).names source = s.names source := by
  have hdistinct := h.refilled.users.distinct
  obtain ⟨hfirst, hsettled⟩ := h.settled hapart hrecords
  by_cases huser : ∃ user ∈ (s.refilled c moves).users c, user.index = source.index
  · have hnone := hempty source hsource hother huser
    obtain ⟨user, huser, hindex⟩ := huser
    have hhanded := behind_subset_handOn hdistinct h.refilled.there
      (fun user huser hindex => ⟨eq_of_index (h.refilled.users.names user huser) h.own hindex,
        hsettled.keepsOwn hapart.own⟩) huser fun heq => hother (hindex.symm.trans heq)
    rw [← h.refill_eq, names_of_index _ hindex, hnone, hfirst] at hhanded
    rw [hnone, eq_comm, Set.eq_empty_iff_forall_notMem]
    intro name hname
    exact hhanded (mem_behind_append.mpr
      (behind_subset_gather hsource hother (mem_behind_append.mpr hname)))
  · push Not at huser
    rw [h.refill_eq, names_handOn_ne hdistinct fun user hmem => Ne.symm (huser user hmem),
      names_refilled_ne h.there hother]

/-- Filling a context anew twice, when the qualifiers tell names apart. Names stay the same exactly
when no other context that it takes over from is a user of it that binds names: such a user has
been handed what it gave, and gives back more each time. -/
theorem names_refill_twice_of_apart :
    (∀ d, ((s.refill c moves).refill c moves').names d = (s.refill c moves).names d) ↔
      ∀ source, .take source ∈ moves → source.index ≠ c.index →
        (∃ user ∈ (s.refill c moves).users c, user.index = source.index) →
          (s.refill c moves).names source = ∅ := by
  have hagain := h.refill.outline hsame
  have husers : (s.refill c moves).users c = (s.refilled c moves).users c := by
    rw [users, h.usages_refill, users]
  rw [husers]
  obtain ⟨hfirst, hsettled⟩ := h.settled hapart hrecords
  obtain ⟨hsecond, hsettled'⟩ :=
    hagain.settled (hapart.outline hsame) (h.records_refill hapart hrecords)
  rw [← gather_outline, hsame, gather_outline] at hsecond
  constructor
  · rintro hall source hsource hother ⟨user, huser, hindex⟩
    exact names_eq_empty_of_refill_again h hsame hapart hrecords (hall c) hsource hother huser hindex
  · intro hempty
    refine names_refill_again h hsame ?_ fun user huser hindex =>
      ⟨hsettled.keepsOwn hapart.own, hsettled'.keepsOwn hapart.own⟩
    rw [hsecond, hfirst]
    exact gather_congr (names_source_refill h hapart hrecords hempty)

end

end Twice

end Store

end DispatchLisp
