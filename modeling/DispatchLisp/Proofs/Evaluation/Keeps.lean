import DispatchLisp.Builtin.Run
import DispatchLisp.Proofs.Except

/-!
# Proofs.Evaluation.Keeps — what a computation does to the machine

A computation *keeps* a relation when every state is so related to the state that the computation
leaves behind, whether it ends early or not. Relations that hold of no change and of one change
after another are kept by a sequence of steps when each step keeps them.

Main statement: `quiet_run`, natives on finished values change values only.
-/

namespace DispatchLisp

variable {ε ε' α β : Type} {R : Machine → Machine → Prop}

/-- Whether a computation relates every state to the one that it leaves behind. -/
def Keeps (R : Machine → Machine → Prop) (x : Computation ε α) : Prop :=
  ∀ m, R m (x m).2

/-- Whether a relation holds of no change and of one change after another. -/
structure Accumulates (R : Machine → Machine → Prop) : Prop where
  refl : ∀ m, R m m
  trans : ∀ {m m' m''}, R m m' → R m' m'' → R m m''

/-! ## Sequences of steps -/

theorem Keeps.mono {S : Machine → Machine → Prop} {x : Computation ε α} (hx : Keeps R x)
    (h : ∀ m m', R m m' → S m m') : Keeps S x := by
  intro m
  exact h m _ (hx m)

theorem mapError_snd (f : ε → ε') (x : Computation ε α) (m : Machine) :
    (x.mapError f m).2 = (x m).2 := by
  unfold Computation.mapError
  generalize x m = result
  rcases result with ⟨_ | _, m'⟩ <;> rfl

theorem Keeps.mapError {x : Computation ε α} (hx : Keeps R x) (f : ε → ε') :
    Keeps R (x.mapError f) := by
  intro m
  rw [mapError_snd]
  exact hx m

theorem Keeps.lift {x : Eval α} (hx : Keeps R x) : Keeps R (liftM x : NativeEval α) :=
  hx.mapError _

theorem liftM_snd (x : Eval α) (m : Machine) : ((liftM x : NativeEval α) m).2 = (x m).2 :=
  mapError_snd _ x m

theorem liftM_of_ok {x : Eval α} {a : α} {m m' : Machine} (h : x m = (.ok a, m')) :
    (liftM x : NativeEval α) m = (.ok a, m') := by
  show Computation.mapError Raised.fault x m = _
  unfold Computation.mapError
  rw [h]

theorem liftM_of_error {x : Eval α} {e : Fault} {m m' : Machine} (h : x m = (.error e, m')) :
    (liftM x : NativeEval α) m = (.error (.fault e), m') := by
  show Computation.mapError Raised.fault x m = _
  unfold Computation.mapError
  rw [h]

theorem mapError_eq_ok {f : ε → ε'} {x : Computation ε α} {a : α} {m m' : Machine}
    (h : x.mapError f m = (.ok a, m')) : x m = (.ok a, m') := by
  unfold Computation.mapError at h
  generalize x m = result at h ⊢
  rcases result with ⟨e | b, after⟩
  · cases h
  · cases h
    rfl

theorem liftM_eq_ok {x : Eval α} {a : α} {m m' : Machine}
    (h : (liftM x : NativeEval α) m = (.ok a, m')) : x m = (.ok a, m') :=
  mapError_eq_ok h

theorem Keeps.guarded {x : NativeEval α} (hx : Keeps R x) : Keeps R x.guarded :=
  hx.mapError _

theorem guarded_eq_ok {x : NativeEval α} {a : α} {m m' : Machine}
    (h : x.guarded m = (.ok a, m')) : x m = (.ok a, m') :=
  mapError_eq_ok h

namespace Accumulates

theorem still (h : Accumulates R) {x : Computation ε α} (hx : ∀ m, (x m).2 = m) : Keeps R x := by
  intro m
  rw [hx m]
  exact h.refl m

theorem pure (h : Accumulates R) (a : α) : Keeps R (Pure.pure a : Computation ε α) :=
  h.still fun _ => rfl

theorem throw (h : Accumulates R) (e : ε) : Keeps R (MonadExcept.throw e : Computation ε α) :=
  h.still fun _ => rfl

theorem ask (h : Accumulates R) (f : Machine → α) : Keeps R (ask f : Computation ε α) :=
  h.still fun _ => rfl

theorem askStore (h : Accumulates R) (f : Store → α) : Keeps R (askStore f : Computation ε α) :=
  h.still fun _ => rfl

theorem lookAtAll (h : Accumulates R) (parts : List Part) :
    Keeps R (lookAtAll parts : Computation ε (List Value)) :=
  h.still fun _ => rfl

theorem queryStore (h : Accumulates R) (f : Store → Except Fault α) : Keeps R (queryStore f) :=
  h.still fun _ => rfl

theorem queryNative (h : Accumulates R) (f : Store → Except Raised α) : Keeps R (queryNative f) :=
  h.still fun _ => rfl

theorem check (h : Accumulates R) (x : Except Fault α) : Keeps R (check x) :=
  h.still fun _ => rfl

/-- A sequence at one state: the second step is taken from where the first one ends. -/
theorem bind_at (h : Accumulates R) {x : Computation ε α} {f : α → Computation ε β} {m : Machine}
    (hx : R m (x m).2) (hf : ∀ a m', x m = (.ok a, m') → R m' (f a m').2) :
    R m ((x >>= f) m).2 := by
  show R m (Computation.bind x f m).2
  unfold Computation.bind
  generalize x m = result at hx hf ⊢
  rcases result with ⟨e | a, m'⟩
  · exact hx
  · exact h.trans hx (hf a m' rfl)

theorem bind (h : Accumulates R) {x : Computation ε α} {f : α → Computation ε β}
    (hx : Keeps R x) (hf : ∀ a, Keeps R (f a)) : Keeps R (x >>= f) := by
  intro m
  apply h.bind_at (hx m)
  intro a m' _
  exact hf a m'

end Accumulates

theorem Computation.id_map (x : Computation ε α) : (id <$> x) = x := by
  funext m
  show Computation.bind x (fun a => Computation.pure (id a)) m = x m
  unfold Computation.bind
  rcases x m with ⟨_ | _, m'⟩ <;> rfl

theorem Computation.bind_assoc {γ : Type} (x : Computation ε α) (f : α → Computation ε β)
    (g : β → Computation ε γ) : x >>= f >>= g = x >>= fun a => f a >>= g := by
  funext m
  show Computation.bind (Computation.bind x f) g m =
    Computation.bind x (fun a => Computation.bind (f a) g) m
  simp only [Computation.bind]
  rcases x m with ⟨_ | _, m'⟩ <;> rfl

instance : LawfulMonad (Computation ε) :=
  LawfulMonad.mk' _ Computation.id_map (fun _ _ => rfl) Computation.bind_assoc

/-- Other reasons for ending early are given to a sequence by giving them to its steps. -/
theorem Computation.mapError_bind (g : ε → ε') (x : Computation ε α) (f : α → Computation ε β) :
    (x >>= f).mapError g = x.mapError g >>= fun a => (f a).mapError g := by
  funext m
  show Computation.mapError g (Computation.bind x f) m =
    Computation.bind (Computation.mapError g x) (fun a => Computation.mapError g (f a)) m
  simp only [Computation.mapError, Computation.bind]
  rcases x m with ⟨_ | _, m'⟩ <;> rfl

theorem Computation.bind_of_ok {x : Computation ε α} {f : α → Computation ε β} {m m' : Machine}
    {a : α} (h : x m = (.ok a, m')) : (x >>= f) m = f a m' := by
  show Computation.bind x f m = _
  unfold Computation.bind
  rw [h]

theorem Computation.bind_of_error {x : Computation ε α} {f : α → Computation ε β} {m m' : Machine}
    {e : ε} (h : x m = (.error e, m')) : (x >>= f) m = (.error e, m') := by
  show Computation.bind x f m = _
  unfold Computation.bind
  rw [h]

/-- With enough arguments a check of their number goes on. -/
theorem check_requireArity {name : String} {count least : Nat} (h : least ≤ count) (m : Machine) :
    check (requireArity name count least none) m = (.ok (), m) := by
  rw [check, requireArity, if_neg (Nat.not_lt.mpr h)]

/-- What follows depends only on what the first step comes to. -/
theorem Computation.bind_congr {x y : Computation ε α} {f : α → Computation ε β} {m m' : Machine}
    (h : x m = y m') : (x >>= f) m = (y >>= f) m' := by
  show Computation.bind x f m = Computation.bind y f m'
  unfold Computation.bind
  rw [h]

/-- A sequence that answers has answered at every step. -/
theorem Computation.bind_eq_ok {x : Computation ε α} {f : α → Computation ε β} {m m' : Machine}
    {b : β} (h : (x >>= f) m = (.ok b, m')) :
    ∃ a between, x m = (.ok a, between) ∧ f a between = (.ok b, m') := by
  change Computation.bind x f m = _ at h
  unfold Computation.bind at h
  generalize x m = result at h ⊢
  rcases result with ⟨e | a, between⟩
  · cases h
  · exact ⟨a, between, rfl, h⟩

/-! ## Quiet steps -/

/-- Whether at most values and the log have changed: contexts, functions, modules and what the host
has set are the same, and no list or dict is taken away. -/
structure Quiet (m m' : Machine) : Prop where
  contexts : m'.store.contexts = m.store.contexts
  functions : m'.store.functions = m.store.functions
  history : m'.store.history = m.store.history
  modules : m'.modules = m.modules
  root : m'.root = m.root
  objects : m'.objects = m.objects
  disk : m'.disk = m.disk
  logThreshold : m'.logThreshold = m.logThreshold
  lists : m.store.lists.size ≤ m'.store.lists.size
  dicts : m.store.dicts.size ≤ m'.store.dicts.size

theorem quiet : Accumulates Quiet where
  refl _ := ⟨rfl, rfl, rfl, rfl, rfl, rfl, rfl, rfl, Nat.le_refl _, Nat.le_refl _⟩
  trans h h' :=
    ⟨h'.contexts.trans h.contexts, h'.functions.trans h.functions, h'.history.trans h.history,
      h'.modules.trans h.modules, h'.root.trans h.root, h'.objects.trans h.objects,
      h'.disk.trans h.disk, h'.logThreshold.trans h.logThreshold,
      Nat.le_trans h.lists h'.lists, Nat.le_trans h.dicts h'.dicts⟩

/-- Whether at most values differ between two stores, and the later one lacks none. -/
structure Store.OnlyValues (s s' : Store) : Prop where
  contexts : s'.contexts = s.contexts
  functions : s'.functions = s.functions
  history : s'.history = s.history
  lists : s.lists.size ≤ s'.lists.size
  dicts : s.dicts.size ≤ s'.dicts.size

namespace Store

variable (s : Store)

theorem onlyValues_newList (items : List Value) (evaluated : Bool) :
    s.OnlyValues (s.newList items evaluated).2 :=
  ⟨rfl, rfl, rfl, by simp [newList], Nat.le_refl _⟩

theorem onlyValues_setItems (id : ListId) (items : List Value) :
    s.OnlyValues (s.setItems id items) :=
  ⟨rfl, rfl, rfl, Nat.le_of_eq Array.size_modify.symm, Nat.le_refl _⟩

theorem onlyValues_newDict (entries : Association Atom Value) :
    s.OnlyValues (s.newDict entries).2 :=
  ⟨rfl, rfl, rfl, Nat.le_refl _, by simp [newDict]⟩

theorem onlyValues_putEntry (id : DictId) (key : Atom) (v : Value) :
    s.OnlyValues (s.putEntry id key v) :=
  ⟨rfl, rfl, rfl, Nat.le_refl _, Nat.le_of_eq Array.size_modify.symm⟩

theorem onlyValues_newFloat (x : Binary64) : s.OnlyValues (s.newFloat x).2 := by
  cases x <;> exact ⟨rfl, rfl, rfl, Nat.le_refl _, Nat.le_refl _⟩

end Store

theorem Store.OnlyValues.quiet {m : Machine} {store : Store} (h : m.store.OnlyValues store) :
    Quiet m { m with store } :=
  ⟨h.contexts, h.functions, h.history, rfl, rfl, rfl, rfl, rfl, h.lists, h.dicts⟩

/-- Making something that is no context and no function is quiet. -/
theorem quiet_allocate {f : Store → α × Store} (hf : ∀ s : Store, s.OnlyValues (f s).2) :
    Keeps Quiet (allocate f : Computation ε α) := by
  intro m
  exact (hf m.store).quiet

theorem quiet_changeStore {f : Store → Store} (hf : ∀ s : Store, s.OnlyValues (f s)) :
    Keeps Quiet (changeStore f : Computation ε Unit) := by
  intro m
  exact (hf m.store).quiet

theorem quiet_tryChange {f : Store → Except Fault Store}
    (hf : ∀ s s' : Store, f s = .ok s' → s.OnlyValues s') : Keeps Quiet (tryChange f) := by
  intro m
  unfold tryChange
  cases hstore : f m.store with
  | error e => exact quiet.refl m
  | ok store => exact (hf _ _ hstore).quiet

theorem quiet_makeList (items : List Value) (evaluated : Bool) :
    Keeps Quiet (makeList items evaluated : Computation ε Value) :=
  quiet.bind (quiet_allocate fun s => s.onlyValues_newList items evaluated) fun _ => quiet.pure _

theorem quiet_newFloat (x : Binary64) :
    Keeps Quiet (allocate fun s => s.newFloat x : Computation ε Value) :=
  quiet_allocate fun s => s.onlyValues_newFloat x

theorem quiet_newObject (typeName className : String) :
    Keeps Quiet (allocate fun s => s.newObject typeName className : Computation ε HostObject) :=
  quiet_allocate fun _ => ⟨rfl, rfl, rfl, Nat.le_refl _, Nat.le_refl _⟩

mutual

/-- Making the value of a form makes lists and nothing else. -/
theorem ofForm_eq (s : Store) : (t : Form) → (s.ofForm t).2 = { s with lists := (s.ofForm t).2.lists }
  | .int _ | .float _ | .string _ | .keyword _ | .symbol _ => rfl
  | .list items => by
      simp only [Store.ofForm, Store.newList]
      rw [ofForms_eq s items]

theorem ofForms_eq (s : Store) :
    (items : List Form) → (s.ofForms items).2 = { s with lists := (s.ofForms items).2.lists }
  | [] => rfl
  | item :: items => by
      simp only [Store.ofForms]
      rw [ofForms_eq (s.ofForm item).2 items, ofForm_eq s item]

end

mutual

theorem size_ofForm (s : Store) : (t : Form) → s.lists.size ≤ (s.ofForm t).2.lists.size
  | .int _ | .float _ | .string _ | .keyword _ | .symbol _ => Nat.le_refl _
  | .list items =>
      Nat.le_trans (size_ofForms s items) ((s.ofForms items).2.onlyValues_newList _ false).lists

theorem size_ofForms (s : Store) :
    (items : List Form) → s.lists.size ≤ (s.ofForms items).2.lists.size
  | [] => Nat.le_refl _
  | item :: items => Nat.le_trans (size_ofForm s item) (size_ofForms (s.ofForm item).2 items)

end

theorem quiet_ofForm (t : Form) : Keeps Quiet (allocate fun s => s.ofForm t : Computation ε Value) :=
  quiet_allocate fun s => by
    have hsize := size_ofForm s t
    rw [ofForm_eq]
    exact ⟨rfl, rfl, rfl, hsize, Nat.le_refl _⟩

theorem quiet_textOf (v : Value) : Keeps Quiet (textOf v) :=
  quiet.queryStore _

theorem quiet_record (level : LogLevel) (message : Store → Except Fault String) :
    Keeps Quiet (record level message) := by
  refine quiet.bind (quiet.ask _) fun threshold => ?_
  split
  · refine quiet.bind (quiet.queryStore _) fun text => ?_
    exact fun m => ⟨rfl, rfl, rfl, rfl, rfl, rfl, rfl, rfl, Nat.le_refl _, Nat.le_refl _⟩
  · exact quiet.pure _

/-- A record below the threshold is dropped before its message is made. -/
theorem record_of_lt {level : LogLevel} {m : Machine} (h : level.number < m.logThreshold)
    (message : Store → Except Fault String) : record level message m = (.ok (), m) := by
  have hask : (ask Machine.logThreshold : Eval Nat) m = (.ok m.logThreshold, m) := rfl
  rw [record, Computation.bind_of_ok hask, if_neg (Nat.not_le.mpr h)]
  rfl

/-- A record that is kept goes to the end of the log if its message can be made. -/
theorem record_of_le {level : LogLevel} {m : Machine} (h : m.logThreshold ≤ level.number)
    (message : Store → Except Fault String) :
    record level message m =
      match message m.store with
      | .ok text => (.ok (), { m with log := m.log ++ [⟨level, text⟩] })
      | .error e => (.error e, m) := by
  have hask : (ask Machine.logThreshold : Eval Nat) m = (.ok m.logThreshold, m) := rfl
  rw [record, Computation.bind_of_ok hask, if_pos h]
  cases htext : message m.store with
  | error e => exact Computation.bind_of_error (by rw [queryStore, htext])
  | ok text => exact Computation.bind_of_ok (by rw [queryStore, htext])

/-- A record whose message can be made never fails. -/
theorem record_of_ok (level : LogLevel) {message : Store → Except Fault String}
    (h : ∀ s, ∃ text, message s = .ok text) (m : Machine) :
    ∃ m', record level message m = (.ok (), m') ∧ Quiet m m' := by
  have hquiet := quiet_record level message m
  refine ⟨_, ?_, hquiet⟩
  have hok : (record level message m).1 = .ok () := by
    rcases Nat.lt_or_ge level.number m.logThreshold with hlow | hkept
    · rw [record_of_lt hlow]
    · obtain ⟨text, htext⟩ := h m.store
      rw [record_of_le hkept, htext]
  rw [← hok]

/-! ## Natives on finished values -/

theorem quiet_operation (op : Operation) (name : String) (args : List Value) :
    Keeps Quiet (op.run name args) := by
  refine quiet.bind (quiet.check _).lift fun _ => ?_
  cases args with
  | nil => exact quiet.pure _
  | cons first rest =>
      refine quiet.bind (quiet.queryNative _) fun v => ?_
      split
      · exact quiet_newFloat _
      · exact quiet.pure _

theorem quiet_remainder (args : List Value) : Keeps Quiet (remainder args) := by
  refine quiet.bind (quiet.check _).lift fun _ => ?_
  split
  · split
    · exact quiet.throw _
    · exact quiet.pure _
  · exact quiet.pure _

theorem quiet_equalBuiltin (args : List Value) : Keeps Quiet (equalBuiltin args) := by
  refine quiet.bind (quiet.check _) fun _ => ?_
  split
  · exact quiet.queryStore _
  · exact quiet.pure _

theorem quiet_comparison (c : Comparison) (name : String) (args : List Value) :
    Keeps Quiet (c.run name args) :=
  quiet.bind (quiet.check _) fun _ => quiet.bind (quiet.check _) fun _ => quiet.pure _

theorem quiet_makeDict (pairs : List Value) : Keeps Quiet (makeDict pairs) := by
  unfold makeDict
  split
  · refine quiet.bind (quiet.queryStore _) fun entries => ?_
    exact quiet.bind (quiet_allocate fun s => s.onlyValues_newDict entries) fun _ => quiet.pure _
  · exact quiet.throw _

theorem quiet_getBuiltin (args : List Value) : Keeps Quiet (getBuiltin args) := by
  refine quiet.bind (quiet.check _) fun _ => ?_
  split
  · refine quiet.bind (quiet.check _) fun _ => ?_
    split
    · exact quiet.queryStore _
    · exact quiet.pure _
  · exact quiet.queryStore _
  · exact quiet.pure _

theorem quiet_setBuiltin (args : List Value) : Keeps Quiet (setBuiltin args) := by
  refine quiet.bind (quiet.check _) fun _ => ?_
  split
  · refine quiet.bind (quiet_tryChange fun s s' h => ?_) fun _ => quiet.pure _
    unfold Store.setItem at h
    simp only at h
    split at h
    · cases h
      exact s.onlyValues_setItems _ _
    · cases h
  · exact quiet.pure _

theorem quiet_putBuiltin (args : List Value) : Keeps Quiet (putBuiltin args) := by
  refine quiet.bind (quiet.check _) fun _ => ?_
  split
  · refine quiet.bind (quiet_tryChange fun s s' h => ?_) fun _ => quiet.pure _
    unfold Store.setKey at h
    split at h
    · cases h
      exact s.onlyValues_putEntry _ _ _
    -- a key that is refused changes nothing: the fault needs its text only
    · rcases bind_eq_ok.mp h with ⟨text, _, hrefused⟩
      cases hrefused
  · exact quiet.pure _

theorem quiet_elementBuiltin (name : String) (index : Int) (args : List Value) :
    Keeps Quiet (elementBuiltin name index args) := by
  refine quiet.bind (quiet.check _) fun _ => ?_
  split
  · exact quiet.queryStore _
  · exact quiet.pure _

theorem quiet_lengthBuiltin (args : List Value) : Keeps Quiet (lengthBuiltin args) := by
  refine quiet.bind (quiet.check _) fun _ => ?_
  split
  · exact quiet.bind (quiet.askStore _) fun _ => quiet.pure _
  · exact quiet.bind (quiet.askStore _) fun _ => quiet.pure _
  · exact quiet.pure _
  · exact quiet.pure _

theorem quiet_cut (id : ListId) (first : Int) (last : Option Int) :
    Keeps Quiet (sliceBuiltin.cut id first last) :=
  quiet.bind (quiet.askStore _) fun _ => quiet_makeList _ _

theorem quiet_sliceBuiltin (args : List Value) : Keeps Quiet (sliceBuiltin args) := by
  refine quiet.bind (quiet.check _) fun _ => quiet.bind (quiet.check _) fun _ => ?_
  split
  · exact quiet_cut _ _ _
  · exact quiet_cut _ _ _
  · exact quiet.pure _

theorem quiet_concatBuiltin (args : List Value) : Keeps Quiet (concatBuiltin args) :=
  quiet.bind (quiet.queryStore _) fun _ => quiet_makeList _ _

theorem quiet_keysBuiltin (args : List Value) : Keeps Quiet (keysBuiltin args) := by
  refine quiet.bind (quiet.check _) fun _ => ?_
  split
  · exact quiet.bind (quiet.askStore _) fun _ => quiet_makeList _ _
  · exact quiet.pure _

theorem quiet_strBuiltin (args : List Value) : Keeps Quiet (strBuiltin args) :=
  quiet.bind (quiet.queryStore _) fun _ => quiet.pure _

/-- Natives on finished values are quiet. -/
theorem quiet_run (b : Builtin) (args : List Value) : Keeps Quiet (b.run args) := by
  -- only those that make or change a list, a dict or a double change anything
  cases b with
  | add | sub | mul | div => exact quiet_operation _ _ _
  | mod => exact quiet_remainder args
  | eq | ne => exact quiet.bind (quiet_equalBuiltin args).lift fun _ => quiet.pure _
  | lt | le | gt | ge => exact (quiet_comparison _ _ args).lift
  | list => exact quiet_makeList args true
  | dict => exact (quiet_makeDict args).lift
  | get => exact (quiet_getBuiltin args).lift
  | set => exact (quiet_setBuiltin args).lift
  | put => exact (quiet_putBuiltin args).lift
  | first | last => exact (quiet_elementBuiltin _ _ args).lift
  | len => exact (quiet_lengthBuiltin args).lift
  | slice => exact (quiet_sliceBuiltin args).lift
  | concat => exact (quiet_concatBuiltin args).lift
  | keys => exact (quiet_keysBuiltin args).lift
  | str => exact (quiet_strBuiltin args).lift
  | not | type | symbol =>
      refine quiet.bind (quiet.check _).lift fun _ => ?_
      split
      · exact quiet.pure _
      · exact quiet.pure _

end DispatchLisp
