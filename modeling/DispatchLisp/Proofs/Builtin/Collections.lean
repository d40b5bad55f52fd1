import DispatchLisp.Builtin.Run
import DispatchLisp.Proofs.Evaluation.Keeps
import DispatchLisp.Proofs.Signature
import DispatchLisp.Proofs.Store.Objects

/-!
# Proofs.Builtin.Collections — what the natives on lists and dicts do

Each native on collections checks its arguments first. With arguments that pass it reads, changes or
makes a collection, as the equations here say; with others it ends with a fault and nothing has
changed. `set` and `put` are the only ones that change a collection, and only the one that they are
called with (`set_cases`, `put_cases`).
-/

namespace DispatchLisp

section

variable {α : Type} (m : Machine)

/-! ## Steps inside a native -/

theorem liftM_queryStore (f : Store → Except Fault α) :
    (liftM (queryStore f) : NativeEval α) m = ((f m.store).mapError .fault, m) := by
  show Computation.mapError Raised.fault (queryStore f) m = _
  unfold Computation.mapError queryStore
  cases f m.store <;> rfl

/-- What follows a check that fails does not happen. -/
theorem liftM_check_error {x : Except Fault Unit} {e : Fault} (h : x = .error e)
    (f : Unit → Eval α) :
    (liftM (check x >>= f) : NativeEval α) m = (.error (.fault e), m) := by
  subst h
  rfl

theorem liftM_check_ok {x : Except Fault Unit} (h : x = .ok ()) (f : Unit → Eval α) :
    (liftM (check x >>= f) : NativeEval α) m = (liftM (f ()) : NativeEval α) m := by
  subst h
  rfl

/-- Two checks are one. -/
theorem check_check (x y : Except Fault Unit) (f : Unit → Eval α) :
    (check x >>= fun _ => check y >>= f) = (check (x >>= fun _ => y) >>= f) := by
  funext m
  cases x <;> rfl

/-- Making a list never fails and changes nothing that was there. -/
theorem makeList_eq {ε : Type} (items : List Value) (evaluated : Bool) :
    ∃ new m', (makeList items evaluated : Computation ε Value) m = (.ok (.list new), m') ∧
      m.store.Makes (.list new) m'.store ∧ m'.store.list new = ⟨items, evaluated⟩ :=
  ⟨_, _, rfl, m.store.makes_newList items evaluated, Store.list_newList m.store items evaluated⟩

/-! ## Reading -/

theorem run_get_list (l : ListId) (index : Int) :
    Builtin.get.run [.list l, .int index] m = ((m.store.getItem l index).mapError .fault, m) :=
  liftM_queryStore m fun s => s.getItem l index

theorem run_get_dict (d : DictId) (key : Value) :
    Builtin.get.run [.dict d, key] m = ((m.store.getKey d key).mapError .fault, m) :=
  liftM_queryStore m fun s => s.getKey d key

theorem run_len_list (l : ListId) :
    Builtin.len.run [.list l] m = (.ok (.int (m.store.list l).items.length), m) :=
  rfl

theorem run_len_dict (d : DictId) :
    Builtin.len.run [.dict d] m = (.ok (.int (m.store.dict d).entries.length), m) :=
  rfl

/-! ## Changing -/

theorem liftM_tryChange {f : Store → Except Fault Store} (v : Value) :
    (liftM (tryChange f >>= fun _ => pure v : Eval Value) : NativeEval Value) m =
      match f m.store with
      | .ok store => (.ok v, { m with store })
      | .error e => (.error (.fault e), m) := by
  show Computation.mapError Raised.fault (Computation.bind (tryChange f) _) m = _
  simp only [Computation.mapError, Computation.bind, tryChange]
  cases f m.store <;> rfl

theorem run_set (l : ListId) (index : Int) (v : Value) :
    Builtin.set.run [.list l, .int index, v] m =
      match m.store.setItem l index v with
      | .ok store => (.ok (.list l), { m with store })
      | .error e => (.error (.fault e), m) :=
  liftM_tryChange m (.list l)

theorem run_put (d : DictId) (key v : Value) :
    Builtin.put.run [.dict d, key, v] m =
      match m.store.setKey d key v with
      | .ok store => (.ok (.dict d), { m with store })
      | .error e => (.error (.fault e), m) :=
  liftM_tryChange m (.dict d)

/-- A call of `set` fails and changes nothing, or it replaces one element of the list. -/
theorem set_cases (args : List Value) :
    (∃ e, Builtin.set.run args m = (.error (.fault e), m)) ∨
    ∃ l index v n, args = [.list l, .int index, v] ∧
      position? (m.store.list l).items.length index = some n ∧
      Builtin.set.run args m = (.ok (.list l),
        { m with store := m.store.setItems l ((m.store.list l).items.set n v) }) := by
  cases hcheck : requireArguments "set" args [[.list], [.int], [.any]] with
  | error e => exact .inl ⟨e, liftM_check_error m hcheck _⟩
  | ok _ =>
      rcases requireArguments_eq_ok_iff.mp hcheck with _ | ⟨hl, _ | ⟨hi, _ | ⟨_, _ | _⟩⟩⟩
      obtain ⟨l, rfl⟩ := value_of_accept.1 hl
      obtain ⟨index, rfl⟩ := value_of_accept.2.2 hi
      rw [run_set, Store.setItem]
      cases hposition : position? (m.store.list l).items.length index with
      | none => exact .inl ⟨_, rfl⟩
      | some n => exact .inr ⟨l, index, _, n, rfl, hposition, rfl⟩

/-- What a key that can change is refused with: its text is shown if it has one. -/
def Store.refusal (s : Store) (key : Value) : Fault :=
  match s.render key with
  | .ok text => .mutableKey text
  | .error e => e

theorem Store.mutableKey_eq (s : Store) (key : Value) :
    (s.mutableKey key : Except Fault α) = .error (s.refusal key) := by
  unfold Store.mutableKey Store.refusal
  cases s.render key <;> rfl

theorem Store.kind_refusal {s : Store} {key : Value} (h : s.AcyclicFrom key) :
    (s.refusal key).kind = .type := by
  rcases s.render_cases key with ⟨_, text, htext⟩ | ⟨hcyclic, _⟩
  · rw [Store.refusal, htext]
    rfl
  · exact absurd h hcyclic

theorem run_put_atom (d : DictId) (key : Atom) (v : Value) :
    Builtin.put.run [.dict d, .atom key, v] m =
      (.ok (.dict d), { m with store := m.store.putEntry d key v }) :=
  run_put m d (.atom key) v

/-- A list or dict as a key is refused by all dicts in the same way. -/
theorem run_put_refused {key : Value} (hkey : ∀ a, key ≠ .atom a) (d : DictId) (v : Value) :
    Builtin.put.run [.dict d, key, v] m = (.error (.fault (m.store.refusal key)), m) := by
  rw [run_put]
  cases key with
  | atom a => exact absurd rfl (hkey a)
  | list l => rw [Store.setKey, Store.mutableKey_eq]; simp
  | dict other => rw [Store.setKey, Store.mutableKey_eq]; simp

/-- A call of `put` fails and changes nothing, or it binds a key of the dict. -/
theorem put_cases (args : List Value) :
    (∃ e, Builtin.put.run args m = (.error (.fault e), m)) ∨
    ∃ d key v, args = [.dict d, .atom key, v] ∧
      Builtin.put.run args m = (.ok (.dict d), { m with store := m.store.putEntry d key v }) := by
  cases hcheck : requireArguments "put" args [[.dict], [.any], [.any]] with
  | error e => exact .inl ⟨e, liftM_check_error m hcheck _⟩
  | ok _ =>
      rcases requireArguments_eq_ok_iff.mp hcheck with
        _ | ⟨hd, _ | @⟨key, _, _, _, _, _ | @⟨v, _, _, _, _, _ | _⟩⟩⟩
      obtain ⟨d, rfl⟩ := value_of_accept.2.1 hd
      cases key with
      | atom key => exact .inr ⟨d, key, v, rfl, run_put_atom m d key v⟩
      | list l => exact .inl ⟨_, run_put_refused m (fun _ heq => by cases heq) d v⟩
      | dict other => exact .inl ⟨_, run_put_refused m (fun _ heq => by cases heq) d v⟩

/-! ## Making -/

theorem run_slice (l : ListId) (first last : Int) :
    Builtin.slice.run [.list l, .int first, .int last] m =
      makeList (slice (m.store.list l).items first (some last)) (m.store.list l).evaluated m :=
  rfl

theorem run_slice_to_end (l : ListId) (first : Int) :
    Builtin.slice.run [.list l, .int first] m =
      makeList (slice (m.store.list l).items first none) (m.store.list l).evaluated m :=
  rfl

theorem concatItems_lists (s : Store) (name : String) (position : Nat) (ls : List ListId) :
    s.concatItems name position (ls.map .list) = .ok (ls.flatMap fun l => (s.list l).items) := by
  induction ls generalizing position with
  | nil => rfl
  | cons l ls ih =>
      rw [List.map_cons, Store.concatItems, requireKind_eq_ok_iff.mpr ⟨.list, by simp, rfl⟩, ok_bind,
        ih, ok_bind]
      rfl

theorem run_concat_eq (args : List Value) :
    Builtin.concat.run args m =
      match m.store.concatItems "concat" 0 args with
      | .ok items => makeList items true m
      | .error e => (.error (.fault e), m) := by
  show Computation.mapError Raised.fault (Computation.bind (queryStore _) _) m = _
  simp only [Computation.mapError, Computation.bind, queryStore]
  cases m.store.concatItems "concat" 0 args <;> rfl

theorem run_concat (ls : List ListId) :
    Builtin.concat.run (ls.map .list) m =
      makeList (ls.flatMap fun l => (m.store.list l).items) true m := by
  rw [run_concat_eq, concatItems_lists]

theorem run_keys (d : DictId) :
    Builtin.keys.run [.dict d] m = makeList ((m.store.dict d).entries.keys.map .atom) true m :=
  rfl

theorem run_dict_eq (args : List Value) :
    Builtin.dict.run args m =
      if args.length % 2 = 0 then
        match m.store.pairEntries [] args with
        | .ok entries => (.ok (.dict (m.store.newDict entries).1),
            { m with store := (m.store.newDict entries).2 })
        | .error e => (.error (.fault e), m)
      else (.error (.fault (.badShape .dictPairs)), m) := by
  show (liftM (makeDict args) : NativeEval Value) m = _
  unfold makeDict
  split
  · show Computation.mapError Raised.fault (Computation.bind (queryStore _) _) m = _
    simp only [Computation.mapError, Computation.bind, queryStore]
    cases m.store.pairEntries [] args <;> rfl
  · rfl

/-- A call of `slice` fails and changes nothing, or it makes a list. -/
theorem slice_cases (args : List Value) :
    (∃ e, Builtin.slice.run args m = (.error (.fault e), m)) ∨
    ∃ items evaluated, Builtin.slice.run args m = makeList items evaluated m := by
  rw [Builtin.run]
  unfold sliceBuiltin
  rw [check_check]
  cases hcheck : requireArity "slice" args.length 2 (some 3) >>= fun _ =>
      requireKinds "slice" 0 args [[.list], [.int], [.int]] with
  | error e => exact .inl ⟨e, liftM_check_error m rfl _⟩
  | ok _ =>
      rw [liftM_check_ok m rfl]
      obtain ⟨_, harity, hkinds⟩ := bind_eq_ok.mp hcheck
      -- what passes the checks is a list with one end or both
      obtain ⟨hleast, hmost⟩ := requireArity_eq_ok_iff.mp harity
      rcases args with _ | ⟨collection, _ | ⟨start, rest⟩⟩
      · cases hleast
      · exact absurd hleast (by simp)
      obtain ⟨hlist, hothers⟩ := requireKinds_cons_eq_ok_iff.mp hkinds
      obtain ⟨hstart, hlast⟩ := requireKinds_cons_eq_ok_iff.mp hothers
      obtain ⟨l, rfl⟩ := value_of_accept.1 hlist
      obtain ⟨first, rfl⟩ := value_of_accept.2.2 hstart
      rcases rest with _ | ⟨stop, _ | _⟩
      · exact .inr ⟨_, _, run_slice_to_end m l first⟩
      · obtain ⟨last, rfl⟩ := value_of_accept.2.2 (requireKinds_cons_eq_ok_iff.mp hlast).1
        exact .inr ⟨_, _, run_slice m l first last⟩
      · exact absurd (hmost 3 rfl) (by simp)

/-- A call of `concat` fails and changes nothing, or it makes a list. -/
theorem concat_cases (args : List Value) :
    (∃ e, Builtin.concat.run args m = (.error (.fault e), m)) ∨
    ∃ items evaluated, Builtin.concat.run args m = makeList items evaluated m := by
  rw [run_concat_eq]
  split
  · exact .inr ⟨_, _, rfl⟩
  · exact .inl ⟨_, rfl⟩

/-- A call of `keys` fails and changes nothing, or it makes a list. -/
theorem keys_cases (args : List Value) :
    (∃ e, Builtin.keys.run args m = (.error (.fault e), m)) ∨
    ∃ items evaluated, Builtin.keys.run args m = makeList items evaluated m := by
  cases hcheck : requireArguments "keys" args [[.dict]] with
  | error e => exact .inl ⟨e, liftM_check_error m hcheck _⟩
  | ok _ =>
      rcases requireArguments_eq_ok_iff.mp hcheck with _ | ⟨hd, _ | _⟩
      obtain ⟨d, rfl⟩ := value_of_accept.2.1 hd
      exact .inr ⟨_, _, run_keys m d⟩

end

end DispatchLisp
