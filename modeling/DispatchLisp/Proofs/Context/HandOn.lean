import DispatchLisp.Proofs.Context.BoundNames

/-!
# Proofs.Context.HandOn — names that a context hands on to its users

A context that has changed is imported again into each of its users. Doing that twice with the
same names is doing it once (`names_handOn_again`), also when the context is one of its own
users.
-/

namespace DispatchLisp

namespace Store

/-- Takes the bindings of a context over into some others, under one qualifier. -/
def handOn (s : Store) (c : ContextId) (qualifier : String) (users : List ContextId) : Store :=
  users.foldl (fun s user => s.reimport user c qualifier) s

variable {s : Store} {c : ContextId} {qualifier : String} {users : List ContextId}

/-- Whether no two of some contexts are the same one, and all are there. -/
structure Distinct (s : Store) (users : List ContextId) : Prop where
  there : ∀ user ∈ users, s.HasContext user
  apart : users.Pairwise fun user other => user.index ≠ other.index

theorem Distinct.tail {user : ContextId} {rest : List ContextId}
    (h : s.Distinct (user :: rest)) (source : ContextId) (qualifier : String) :
    (s.reimport user source qualifier).Distinct rest := by
  refine ⟨fun other hother => ?_, (List.pairwise_cons.mp h.apart).2⟩
  have hthere := h.there other (List.mem_cons_of_mem _ hother)
  exact hthere.reimport _ _ _

theorem names_handOn_ne (h : s.Distinct users) {d : ContextId}
    (hd : ∀ user ∈ users, d.index ≠ user.index) :
    (s.handOn c qualifier users).names d = s.names d := by
  induction users generalizing s with
  | nil => rfl
  | cons user rest ih =>
      obtain ⟨huser, hrest⟩ := List.forall_mem_cons.mp hd
      have hthere := h.there user List.mem_cons_self
      refine (ih (h.tail c qualifier) hrest).trans ?_
      rw [names_reimport hthere, if_neg huser]

theorem onRecord_handOn_ne (h : s.Distinct users) {d source : ContextId} {q : String}
    (hd : (∀ user ∈ users, d.index ≠ user.index) ∨ source ≠ c) :
    (s.handOn c qualifier users).onRecord d source q = s.onRecord d source q := by
  induction users generalizing s with
  | nil => rfl
  | cons user rest ih =>
      have hthere := h.there user List.mem_cons_self
      refine (ih (h.tail c qualifier) (hd.imp_left fun h =>
        (List.forall_mem_cons.mp h).2)).trans ?_
      rw [onRecord_reimport hthere, if_neg]
      rintro ⟨huser, hsource, _⟩
      rcases hd with hd | hd
      · exact hd user List.mem_cons_self huser
      · exact hd hsource.symm

/-- The first user takes its turn, and nothing that comes later concerns it. -/
theorem names_handOn_head {user : ContextId} {rest : List ContextId}
    (h : s.Distinct (user :: rest)) :
    (s.handOn c qualifier (user :: rest)).names user = (s.reimport user c qualifier).names user :=
  names_handOn_ne (h.tail c qualifier) (List.pairwise_cons.mp h.apart).1

/-- Then it has on record what it has been handed. -/
theorem onRecord_handOn_head {user : ContextId} {rest : List ContextId}
    (h : s.Distinct (user :: rest)) :
    (s.handOn c qualifier (user :: rest)).onRecord user c qualifier =
      behind qualifier (s.names c) := by
  have hlater : (s.handOn c qualifier (user :: rest)).onRecord user c qualifier = _ :=
    onRecord_handOn_ne (h.tail c qualifier) (.inl (List.pairwise_cons.mp h.apart).1)
  rw [hlater, onRecord_reimport (h.there user List.mem_cons_self), if_pos ⟨rfl, rfl, rfl⟩]

/-- And it binds that. -/
theorem behind_subset_handOn_head {user : ContextId} {rest : List ContextId}
    (h : s.Distinct (user :: rest)) :
    behind qualifier (s.names c) ⊆ (s.handOn c qualifier (user :: rest)).names user := by
  rw [names_handOn_head h, names_reimport (h.there user List.mem_cons_self), if_pos rfl]
  exact Set.subset_union_left

/-- What is on record begins with a qualifier, also after something has been handed on. -/
theorem onRecord_handOn_subset (h : s.Distinct users) {d source : ContextId} {q : String}
    (hd : s.onRecord d source q ⊆ behind q Set.univ) :
    (s.handOn c qualifier users).onRecord d source q ⊆ behind q Set.univ := by
  induction users generalizing s with
  | nil => exact hd
  | cons user rest ih =>
      refine ih (h.tail c qualifier) ?_
      rw [onRecord_reimport (h.there user List.mem_cons_self)]
      split
      case isTrue hsame =>
        rw [← hsame.2.2]
        exact behind_mono (Set.subset_univ _)
      case isFalse => exact hd

/-- Whether a context that is among its own users loses no name when it takes over from itself. -/
def KeepsOwn (s : Store) (c : ContextId) (qualifier : String) : Prop :=
  s.names c ∩ s.onRecord c c qualifier ⊆ behind qualifier (s.names c)

theorem names_reimport_own (hc : s.HasContext c) (h : s.KeepsOwn c qualifier) :
    (s.reimport c c qualifier).names c = behind qualifier (s.names c) ∪ s.names c := by
  rw [names_reimport hc, if_pos rfl]
  refine subset_antisymm (Set.union_subset_union_right _ Set.sdiff_subset) ?_
  refine Set.union_subset Set.subset_union_left fun name hname => ?_
  by_cases hrecord : name ∈ s.onRecord c c qualifier
  · exact .inl (h ⟨hname, hrecord⟩)
  · exact .inr ⟨hname, hrecord⟩

/-- What another context takes over does not matter for that. -/
theorem keepsOwn_reimport_ne {user : ContextId} (hthere : s.HasContext user)
    (hother : user.index ≠ c.index) :
    (s.reimport user c qualifier).KeepsOwn c qualifier ↔ s.KeepsOwn c qualifier := by
  rw [KeepsOwn, KeepsOwn, names_reimport hthere, if_neg (Ne.symm hother),
    onRecord_reimport hthere, if_neg fun hall => hother hall.1.symm]

/-- So it goes for the users that are left, when the first one has taken over. -/
theorem keepsOwn_tail {user : ContextId} {rest : List ContextId} (h : s.Distinct (user :: rest))
    (hself : ∀ other ∈ user :: rest, other.index = c.index → other = c ∧ s.KeepsOwn c qualifier) :
    ∀ other ∈ rest, other.index = c.index →
      other = c ∧ (s.reimport user c qualifier).KeepsOwn c qualifier := by
  intro other hother hindex
  have hne : user.index ≠ other.index := (List.pairwise_cons.mp h.apart).1 other hother
  rw [keepsOwn_reimport_ne (h.there user List.mem_cons_self) fun heq => hne (heq.trans hindex.symm)]
  exact hself other (List.mem_cons_of_mem _ hother) hindex

/-- Handing on changes the names of the source only when it is a user of its own. -/
theorem names_handOn_self (h : s.Distinct users) (hc : s.HasContext c)
    (hself : ∀ user ∈ users, user.index = c.index → user = c ∧ s.KeepsOwn c qualifier) :
    (s.handOn c qualifier users).names c =
      {name | (∃ user ∈ users, user.index = c.index) ∧ name ∈ behind qualifier (s.names c)} ∪
        s.names c := by
  induction users generalizing s with
  | nil => simp [handOn]
  | cons user rest ih =>
      have hthere := h.there user List.mem_cons_self
      by_cases hown : user.index = c.index
      · obtain ⟨rfl, hkept⟩ := hself user List.mem_cons_self hown
        -- no other user is the source, so nothing more happens to it
        rw [names_handOn_head h, names_reimport_own hc hkept]
        congr 1
        ext name
        simp
      · have hsame : (s.reimport user c qualifier).names c = s.names c := by
          rw [names_reimport hthere, if_neg (Ne.symm hown)]
        have hlater : (s.handOn c qualifier (user :: rest)).names c = _ :=
          ih (h.tail c qualifier) (hc.reimport _ _ _) (keepsOwn_tail h hself)
        rw [hlater, hsame]
        congr 1
        ext name
        simp [hown]

/-- A user is handed what the source binds. -/
theorem behind_subset_handOn (h : s.Distinct users) (hc : s.HasContext c)
    (hself : ∀ user ∈ users, user.index = c.index → user = c ∧ s.KeepsOwn c qualifier)
    {user : ContextId} (huser : user ∈ users) (hother : user.index ≠ c.index) :
    behind qualifier (s.names c) ⊆ (s.handOn c qualifier users).names user := by
  induction users generalizing s with
  | nil => cases huser
  | cons first rest ih =>
      have hthere := h.there first List.mem_cons_self
      rcases List.mem_cons.mp huser with rfl | hrest
      · exact behind_subset_handOn_head h
      · have hgrows : s.names c ⊆ (s.reimport first c qualifier).names c := by
          by_cases hown : first.index = c.index
          · obtain ⟨rfl, hkept⟩ := hself first List.mem_cons_self hown
            rw [names_reimport_own hthere hkept]
            exact Set.subset_union_right
          · rw [names_reimport hthere, if_neg (Ne.symm hown)]
        exact (behind_mono hgrows).trans
          (ih (h.tail c qualifier) (hc.reimport _ _ _) (keepsOwn_tail h hself) hrest)

/-- Handing the same names on a second time changes no names: whoever got them has them on record
by now. -/
theorem names_handOn_again {s' : Store} (h : s.Distinct users) (h' : s'.Distinct users)
    (hself : ∀ user ∈ users, user.index = c.index →
      user = c ∧ s.KeepsOwn c qualifier ∧ s'.KeepsOwn c qualifier)
    (hnames : s'.names c = s.names c)
    (hothers : ∀ d, d.index ≠ c.index → s'.names d = (s.handOn c qualifier users).names d)
    (hrecords : ∀ user ∈ users, user.index ≠ c.index →
      s'.onRecord user c qualifier = (s.handOn c qualifier users).onRecord user c qualifier)
    (d : ContextId) :
    (s'.handOn c qualifier users).names d = (s.handOn c qualifier users).names d := by
  -- the two runs go from user to user together; users whose turn has come have their final names
  induction users generalizing s s' with
  | nil =>
      by_cases hd : d.index = c.index
      · rw [names_of_index _ hd, names_of_index _ hd]
        exact hnames
      · exact hothers d hd
  | cons user rest ih =>
      have hthere := h.there user List.mem_cons_self
      have hthere' := h'.there user List.mem_cons_self
      have hapart := (List.pairwise_cons.mp h.apart).1
      refine ih (h.tail c qualifier) (h'.tail c qualifier) ?_ ?_ ?_ ?_
      · intro other hother hindex
        have hne : user.index ≠ c.index := fun heq =>
          hapart other hother (heq.trans hindex.symm)
        rw [keepsOwn_reimport_ne hthere hne, keepsOwn_reimport_ne hthere' hne]
        exact hself other (List.mem_cons_of_mem _ hother) hindex
      · by_cases hown : user.index = c.index
        · obtain ⟨rfl, hkept, hkept'⟩ := hself user List.mem_cons_self hown
          rw [names_reimport_own hthere hkept, names_reimport_own hthere' hkept', hnames]
        · rw [names_reimport hthere, names_reimport hthere', if_neg (Ne.symm hown),
            if_neg (Ne.symm hown), hnames]
      · intro other hother
        by_cases hindex : other.index = user.index
        · -- what is handed on is on record, and so it drops nothing that it does not bring back
          have huser : user.index ≠ c.index := fun heq => hother (hindex.trans heq)
          rw [names_of_index _ hindex, names_of_index _ hindex, names_reimport hthere', if_pos rfl,
            hothers user huser, hrecords user List.mem_cons_self huser, onRecord_handOn_head h,
            hnames, Set.union_sdiff_self]
          exact Set.union_eq_right.mpr (behind_subset_handOn_head h)
        · rw [names_reimport hthere', if_neg hindex]
          exact hothers other hother
      · intro other hother hindex
        have hne : other.index ≠ user.index := Ne.symm (hapart other hother)
        rw [onRecord_reimport hthere', if_neg fun hall => hne hall.1]
        exact hrecords other (List.mem_cons_of_mem _ hother) hindex

end Store

end DispatchLisp
