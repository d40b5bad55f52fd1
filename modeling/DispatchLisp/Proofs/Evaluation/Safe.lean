import DispatchLisp.Builtin.Run
import DispatchLisp.Proofs.Evaluation.Keeps
import DispatchLisp.Proofs.Store.Sealed

/-!
# Proofs.Evaluation.Safe — computations that lead to no code

What a computation comes to is *safe* when the store it leaves is sealed, code that is not free is as
it was, values that were loose are loose still, an invariant of collections is kept, and the answer is
of the wanted kind, a loose value most of the time. Safe computations follow one another safely
(`Safe.bind`). Natives on finished values are safe on loose values (`safe_builtin`): they answer atoms,
one of their arguments, something out of a loose collection, or a new collection of such values. Only
`set` and `put` change collections in place; they are safe where the invariant allows the change.
-/

namespace DispatchLisp

variable {ε ε' α β : Type} {free : ListId → Prop} {inv : Store.CollectionInvariant}

/-- Whether what a computation comes to from a store is safe, with an answer that is as wanted in the
store that is left. -/
structure Safe (free : ListId → Prop) (inv : Store.CollectionInvariant) (s : Store)
    (Wanted : Store → α → Prop) (result : Except ε α × Machine) : Prop where
  isSealed : result.2.store.Sealed free
  since : s.Since free inv result.2.store
  answer : ∀ a, result.1 = .ok a → Wanted result.2.store a

/-- Whether values are loose. -/
def LooseAll (free : ListId → Prop) (s : Store) (values : List Value) : Prop :=
  ∀ v ∈ values, s.Loose free v

theorem LooseAll.later {s s' : Store} {values : List Value} (h : LooseAll free s values)
    (hsince : s.Since free inv s') : LooseAll free s' values :=
  fun v hv => hsince.loose v (h v hv)

/-! ## Steps -/

section

variable {m : Machine} {Wanted : Store → α → Prop} {Between : Store → β → Prop}

/-- Where the store is not changed, only the answer matters. -/
theorem Safe.still (h : m.store.Sealed free) {result : Except ε α × Machine}
    (hsame : result.2.store = m.store) (hanswer : ∀ a, result.1 = .ok a → Wanted m.store a) :
    Safe free inv m.store Wanted result := by
  refine ⟨hsame ▸ h, ?_, ?_⟩
  · rw [hsame]
    exact .refl _
  · rw [hsame]
    exact hanswer

theorem Safe.pure (h : m.store.Sealed free) {a : α} (ha : Wanted m.store a) :
    Safe free inv m.store Wanted ((Pure.pure a : Computation ε α) m) :=
  .still h rfl fun _ hanswer => by
    cases hanswer
    exact ha

theorem Safe.throw (h : m.store.Sealed free) (e : ε) :
    Safe free inv m.store Wanted ((MonadExcept.throw e : Computation ε α) m) :=
  .still h rfl fun _ hanswer => by cases hanswer

/-- After a harmless change everything that was relied on can be relied on. -/
theorem Safe.harmless {m' : Machine} (h : m.store.Sealed free)
    (hchange : m.store.Harmless free inv m'.store) {outcome : Except ε α}
    (hanswer : ∀ a, outcome = .ok a → Wanted m'.store a) :
    Safe free inv m.store Wanted (outcome, m') :=
  ⟨h.harmless hchange, hchange.since, hanswer⟩

/-- One safe step after another, which depends on how the first one has gone. -/
theorem Safe.bind_run {x : Computation ε β} {f : β → Computation ε α}
    (hx : Safe free inv m.store Between (x m))
    (hf : ∀ b m', x m = (.ok b, m') → m'.store.Sealed free → m.store.Since free inv m'.store →
      Between m'.store b → Safe free inv m'.store Wanted (f b m')) :
    Safe free inv m.store Wanted ((x >>= f) m) := by
  rcases hfirst : x m with ⟨e | b, m'⟩
  · rw [hfirst] at hx
    rw [Computation.bind_of_error hfirst]
    exact ⟨hx.isSealed, hx.since, fun a ha => by cases ha⟩
  · rw [hfirst] at hx
    rw [Computation.bind_of_ok hfirst]
    have hnext := hf b m' hfirst hx.isSealed hx.since (hx.answer b rfl)
    exact ⟨hnext.isSealed, hx.since.trans hnext.since, hnext.answer⟩

/-- One safe step after another. -/
theorem Safe.bind {x : Computation ε β} {f : β → Computation ε α}
    (hx : Safe free inv m.store Between (x m))
    (hf : ∀ b m', m'.store.Sealed free → m.store.Since free inv m'.store → Between m'.store b →
      Safe free inv m'.store Wanted (f b m')) :
    Safe free inv m.store Wanted ((x >>= f) m) :=
  hx.bind_run fun b m' _ => hf b m'

/-- Whatever follows a step that leaves the store as it is and whose answer does not matter. -/
theorem Safe.bind_still {x : Computation ε β} {f : β → Computation ε α} (h : m.store.Sealed free)
    (hsame : (x m).2.store = m.store)
    (hf : ∀ b m', m'.store.Sealed free → m.store.Since free inv m'.store →
      Safe free inv m'.store Wanted (f b m')) :
    Safe free inv m.store Wanted ((x >>= f) m) := by
  have hfirst : Safe free inv m.store (fun _ _ => True) (x m) := .still h hsame fun _ _ => trivial
  exact hfirst.bind fun b m' h' hsince _ => hf b m' h' hsince

theorem Safe.ask {ask : Store → β} {f : β → Computation ε α}
    (hf : Safe free inv m.store Wanted (f (ask m.store) m)) :
    Safe free inv m.store Wanted ((askStore ask >>= f) m) :=
  hf

/-- Asking the store something that may be a fault. -/
theorem Safe.query {ask : Store → Except Fault β} {f : β → Eval α} (h : m.store.Sealed free)
    (hf : ∀ b, ask m.store = .ok b → Safe free inv m.store Wanted (f b m)) :
    Safe free inv m.store Wanted ((queryStore ask >>= f) m) := by
  cases hask : ask m.store with
  | error e =>
      have hfirst : queryStore ask m = (.error e, m) := by rw [queryStore, hask]
      rw [Computation.bind_of_error hfirst]
      exact .throw h e
  | ok b =>
      have hfirst : queryStore ask m = (.ok b, m) := by rw [queryStore, hask]
      rw [Computation.bind_of_ok hfirst]
      exact hf b hask

/-- A check that changes nothing. -/
theorem Safe.check {x : Except Fault β} {f : β → Eval α} (h : m.store.Sealed free)
    (hf : ∀ b, Safe free inv m.store Wanted (f b m)) :
    Safe free inv m.store Wanted ((DispatchLisp.check x >>= f) m) :=
  show Safe free inv m.store Wanted ((queryStore (fun _ => x) >>= f) m) from
    .query h fun b _ => hf b

theorem Safe.mapError {s : Store} {g : ε → ε'} {x : Computation ε α}
    (h : Safe free inv s Wanted (x m)) : Safe free inv s Wanted (x.mapError g m) := by
  unfold Computation.mapError
  rcases hx : x m with ⟨e | a, m'⟩
  · rw [hx] at h
    exact ⟨h.isSealed, h.since, fun a ha => by cases ha⟩
  · rw [hx] at h
    refine ⟨h.isSealed, h.since, fun b hb => h.answer b ?_⟩
    cases hb
    rfl

theorem Safe.lift {s : Store} {x : Eval α} (h : Safe free inv s Wanted (x m)) :
    Safe free inv s Wanted ((liftM x : NativeEval α) m) :=
  h.mapError

theorem Safe.guarded {s : Store} {x : NativeEval α} (h : Safe free inv s Wanted (x m)) :
    Safe free inv s Wanted (x.guarded m) :=
  h.mapError

/-- A check inside a native. -/
theorem Safe.checkNative {x : Except Fault β} {f : β → NativeEval α} (h : m.store.Sealed free)
    (hf : ∀ b, Safe free inv m.store Wanted (f b m)) :
    Safe free inv m.store Wanted (((liftM (DispatchLisp.check x) : NativeEval β) >>= f) m) := by
  cases x with
  | error e => exact .throw h (Raised.fault e)
  | ok b => exact hf b

theorem Safe.allocate {f : Store → α × Store} (h : m.store.Sealed free)
    (hchange : m.store.Harmless free inv (f m.store).2) (ha : Wanted (f m.store).2 (f m.store).1) :
    Safe free inv m.store Wanted ((DispatchLisp.allocate f : Computation ε α) m) :=
  show Safe free inv m.store Wanted (.ok (f m.store).1, { m with store := (f m.store).2 }) from
    .harmless h hchange fun _ hanswer => by
      cases hanswer
      exact ha

theorem Safe.changeStore {f : Store → Store} (h : m.store.Sealed free)
    (hchange : m.store.Harmless free inv (f m.store)) :
    Safe free inv m.store (fun _ _ => True) ((DispatchLisp.changeStore f : Computation ε Unit) m) :=
  show Safe free inv m.store (fun _ _ => True) (.ok (), { m with store := f m.store }) from
    .harmless h hchange fun _ _ => trivial

/-- Something new, answered as a value of another kind. -/
theorem Safe.allocateFor {f : Store → β × Store} {g : β → α} (h : m.store.Sealed free)
    (hchange : m.store.Harmless free inv (f m.store).2) (ha : Wanted (f m.store).2 (g (f m.store).1)) :
    Safe free inv m.store Wanted
      ((do let b ← DispatchLisp.allocate f; return g b : Computation ε α) m) := by
  have hmade : Safe free inv m.store (fun s b => Wanted s (g b))
      ((DispatchLisp.allocate f : Computation ε β) m) := .allocate h hchange ha
  exact hmade.bind fun b m' h' _ hb => .pure h' hb

/-- Changing the store where that is no fault. -/
theorem Safe.tryChange {f : Store → Except Fault Store} (h : m.store.Sealed free)
    (hf : ∀ s, f m.store = .ok s → m.store.Harmless free inv s) :
    Safe free inv m.store (fun _ _ => True) (DispatchLisp.tryChange f m) := by
  unfold DispatchLisp.tryChange
  cases hstore : f m.store with
  | error e => exact .still h rfl fun _ _ => trivial
  | ok s => exact .harmless h (hf s hstore) fun _ _ => trivial

/-- The text of a value is only asked for in order to end with a fault. -/
theorem Safe.throwText (h : m.store.Sealed free) (v : Value) (f : String → Fault) :
    Safe free inv m.store Wanted
      ((textOf v >>= fun text => MonadExcept.throw (f text) : Eval α) m) :=
  .query h fun _ _ => .throw h _

/-- The log is no part of the store. -/
theorem Safe.record (h : m.store.Sealed free) (level : LogLevel)
    (message : Store → Except Fault String) :
    Safe free inv m.store (fun _ _ => True) (DispatchLisp.record level message m) := by
  have hask : (DispatchLisp.ask Machine.logThreshold : Eval Nat) m = (.ok m.logThreshold, m) := rfl
  rw [DispatchLisp.record, Computation.bind_of_ok hask]
  split
  · exact .query h fun text _ => .still h rfl fun _ _ => trivial
  · exact .pure h trivial

/-- A new list of loose values is loose if it is finished, or if new lists are free. -/
theorem Safe.makeList (h : m.store.Sealed free) {items : List Value}
    (hitems : LooseAll free m.store items) {evaluated : Bool}
    (hself : evaluated = true ∨ ∀ new : ListId, m.store.lists.size ≤ new.index → free new) :
    Safe free inv m.store (Store.Loose free)
      ((DispatchLisp.makeList items evaluated : Computation ε Value) m) := by
  have hchange : m.store.Harmless free inv (m.store.newList items evaluated).2 :=
    h.toApart.harmless_newList (fun v hv => (hitems v hv).has) fun _ => hitems
  have hnew := h.toApart.loose_newList hitems (hself.imp_right fun hnew => hnew _ (Nat.le_refl _))
  exact .allocateFor h hchange hnew

theorem Safe.makeFinished (h : m.store.Sealed free) {items : List Value}
    (hitems : LooseAll free m.store items) :
    Safe free inv m.store (Store.Loose free)
      ((DispatchLisp.makeList items true : Computation ε Value) m) :=
  .makeList h hitems (.inl rfl)

end

/-! ## Numbers and texts -/

/-- Whether a value is an atom that is no native. -/
def Value.IsPlain (v : Value) : Prop :=
  ∃ a, v = .atom a ∧ ∀ f, a ≠ .native f

theorem Value.IsPlain.loose {v : Value} (h : v.IsPlain) (s : Store) : s.Loose free v := by
  obtain ⟨a, rfl, ha⟩ := h
  apply Store.loose_atom
  cases a with
  | native f => exact absurd rfl (ha f)
  | _ => trivial

theorem isPlain_onNumbers {op : Operation} {a b : Number} {v : Value}
    (h : op.onNumbers a b = .ok v) : v.IsPlain := by
  unfold Operation.onNumbers at h
  split at h
  · cases h
    exact ⟨_, rfl, fun _ heq => by cases heq⟩
  · obtain ⟨x, _, h⟩ := bind_eq_ok.mp h
    obtain ⟨y, _, h⟩ := bind_eq_ok.mp h
    cases h
    exact ⟨_, rfl, fun _ heq => by cases heq⟩

theorem isPlain_onValues {op : Operation} {a b v : Value} (h : op.onValues a b = .ok v) :
    v.IsPlain := by
  unfold Operation.onValues at h
  split at h
  · exact isPlain_onNumbers h
  · cases h

theorem isPlain_string (text : String) : (Value.string text).IsPlain :=
  ⟨_, rfl, fun _ heq => by cases heq⟩

theorem isPlain_repeatText {text : String} {count : Int} {v : Value}
    (h : repeatText text count = .ok v) : v.IsPlain := by
  unfold repeatText at h
  dsimp only at h
  split at h
  · cases h
  · split at h
    · cases h
      exact isPlain_string _
    · split at h
      · cases h
      · split at h
        · cases h
        · cases h
          exact isPlain_string _

/-- An operator makes a number or a text. -/
theorem isPlain_apply {op : Operation} {s : Store} {a b v : Value} (h : op.apply s a b = .ok v) :
    v.IsPlain := by
  unfold Operation.apply at h
  split at h
  · split at h
    · cases h
      exact isPlain_string _
    · cases h
  · exact isPlain_repeatText h
  · exact isPlain_repeatText h
  · split at h
    · cases h
    · exact isPlain_onValues h
  · exact isPlain_onValues h

theorem loose_fold {op : Operation} {s s' : Store} {start v : Value} {args : List Value}
    (hstart : s.Loose free start) (h : op.fold s' start args = .ok v) : s.Loose free v := by
  induction args generalizing start with
  | nil =>
      cases h
      exact hstart
  | cons arg rest ih =>
      obtain ⟨next, hnext, hrest⟩ := bind_eq_ok.mp h
      exact ih ((isPlain_apply hnext).loose s) hrest

/-! ## Natives on finished values -/

section

variable {m : Machine} {args : List Value}

theorem safe_operation (h : m.store.Sealed free) (hargs : LooseAll free m.store args)
    (op : Operation) (name : String) :
    Safe free inv m.store (Store.Loose free) (op.run name args m) := by
  refine .checkNative h fun _ => ?_
  cases args with
  | nil => exact .pure h (Store.loose_atom trivial)
  | cons first rest =>
      have hfirst := hargs first List.mem_cons_self
      have hfolded : Safe free inv m.store (Store.Loose free)
          ((queryNative fun s => op.fold s first rest : NativeEval Value) m) :=
        .still h rfl fun v hv => loose_fold hfirst hv
      refine hfolded.bind fun v m' h' _ hv => ?_
      split
      case h_1 x =>
        refine Safe.allocate h' ?_ ?_
        · cases x <;> exact h'.toApart.harmless_same rfl rfl rfl rfl
        · cases x <;> exact Store.loose_atom trivial
      case h_2 => exact .pure h' hv

theorem safe_remainder (h : m.store.Sealed free) (args : List Value) :
    Safe free inv m.store (Store.Loose free) (remainder args m) := by
  refine .checkNative h fun _ => ?_
  split
  · split
    · exact .throw h _
    · exact .pure h (Store.loose_atom trivial)
  · exact .pure h (Store.loose_atom trivial)

theorem safe_equalBuiltin (h : m.store.Sealed free) (args : List Value) :
    Safe free inv m.store (fun _ _ => True) (equalBuiltin args m) := by
  refine .check h fun _ => ?_
  split
  · exact .still h rfl fun _ _ => trivial
  · exact .pure h trivial

theorem safe_comparison (h : m.store.Sealed free) (c : Comparison) (name : String)
    (args : List Value) : Safe free inv m.store (Store.Loose free) (c.run name args m) :=
  .check h fun _ => .check h fun _ => .pure h (Store.loose_atom trivial)

/-! ### Dicts -/

/-- Entries made of loose values in turn. -/
theorem entries_pairEntries {s s' : Store} {entries made : Association Atom Value}
    (h : ∀ e ∈ entries, s.Has (.atom e.1) ∧ s.Loose free e.2) {pairs : List Value}
    (hpairs : LooseAll free s pairs) (hmade : s'.pairEntries entries pairs = .ok made) :
    ∀ e ∈ made, s.Has (.atom e.1) ∧ s.Loose free e.2 := by
  induction entries, pairs using Store.pairEntries.induct with
  | case1 entries key v rest ih =>
      obtain ⟨hkey, hpairs⟩ := List.forall_mem_cons.mp hpairs
      obtain ⟨hv, hrest⟩ := List.forall_mem_cons.mp hpairs
      exact ih (Store.Apart.entries_put h hkey.has hv) hrest hmade
  | case2 entries key v rest hkey =>
      rw [Store.pairEntries] at hmade
      · obtain ⟨text, _, hmade⟩ := bind_eq_ok.mp hmade
        cases hmade
      · exact hkey
  | case3 entries pairs hpair hother =>
      rw [Store.pairEntries] at hmade
      · cases hmade
        exact h
      · exact hpair
      · exact hother

theorem safe_makeDict (h : m.store.Sealed free) (hargs : LooseAll free m.store args) :
    Safe free inv m.store (Store.Loose free) (makeDict args m) := by
  unfold makeDict
  split
  · refine .query h fun entries hentries => ?_
    have hmade := entries_pairEntries (fun _ he => absurd he List.not_mem_nil) hargs hentries
    have hempty : DistinctKeys (Association.keys ([] : Association Atom Value)) := .nil
    have hkeys := distinctKeys_pairEntries hempty hentries
    have hchange : m.store.Harmless free inv _ := h.toApart.harmless_newDict hkeys hmade
    refine .allocateFor h hchange (hchange.apart.loose_dict ?_)
    simp [Store.newDict]
  · exact .throw h _

/-! ### Reading collections -/

theorem loose_getItem {s : Store} (h : s.Apart free) {id : ListId} (hid : s.Loose free (.list id))
    {index : Int} {v : Value} (hv : s.getItem id index = .ok v) : s.Loose free v := by
  unfold Store.getItem at hv
  dsimp only at hv
  split at hv
  case h_1 found hfound =>
    cases hv
    obtain ⟨n, _, hn⟩ := Option.bind_eq_some_iff.mp hfound
    exact h.loose_item hid (List.mem_of_getElem? hn)
  case h_2 => cases hv

theorem loose_getKey {s : Store} (h : s.Apart free) {id : DictId} {key v : Value}
    (hv : s.getKey id key = .ok v) : s.Loose free v := by
  unfold Store.getKey at hv
  split at hv
  case h_1 a =>
    split at hv
    case h_1 found hfound =>
      cases hv
      obtain ⟨k, hk⟩ := Association.mem_of_get? hfound
      exact (h.entries id _ hk).2
    case h_2 => cases hv
  case h_2 =>
    obtain ⟨text, _, hv⟩ := bind_eq_ok.mp hv
    cases hv

theorem safe_getBuiltin (h : m.store.Sealed free) (hargs : LooseAll free m.store args) :
    Safe free inv m.store (Store.Loose free) (getBuiltin args m) := by
  refine .check h fun _ => ?_
  split
  case h_1 id key =>
    have hid := hargs (.list id) List.mem_cons_self
    refine .check h fun _ => ?_
    split
    · exact .still h rfl fun v hv => loose_getItem h.toApart hid hv
    · exact .pure h (Store.loose_atom trivial)
  case h_2 id key => exact .still h rfl fun v hv => loose_getKey h.toApart hv
  case h_3 => exact .pure h (Store.loose_atom trivial)

theorem safe_elementBuiltin (h : m.store.Sealed free) (hargs : LooseAll free m.store args)
    (name : String) (index : Int) :
    Safe free inv m.store (Store.Loose free) (elementBuiltin name index args m) := by
  refine .check h fun _ => ?_
  split
  case h_1 id =>
    have hid := hargs (.list id) List.mem_cons_self
    exact .still h rfl fun v hv => loose_getItem h.toApart hid hv
  case h_2 => exact .pure h (Store.loose_atom trivial)

theorem safe_lengthBuiltin (h : m.store.Sealed free) (args : List Value) :
    Safe free inv m.store (Store.Loose free) (lengthBuiltin args m) := by
  refine .check h fun _ => ?_
  split <;> exact .pure h (Store.loose_atom trivial)

/-! ### Changing collections -/

/-- What a native on finished values makes of a store by changing a collection in place. -/
inductive Store.Mutation (s : Store) : Builtin → List Value → Store → Prop where
  | set {id : ListId} {n : Int} {v : Value} {s' : Store} :
      s.setItem id n v = .ok s' → Mutation s .set [.list id, .int n, v] s'
  | put {id : DictId} {key v : Value} {s' : Store} :
      s.setKey id key v = .ok s' → Mutation s .put [.dict id, key, v] s'

/-- Whether what a native changes in place keeps an invariant. -/
def Store.CollectionInvariant.Allows (inv : Store.CollectionInvariant) (s : Store) (b : Builtin)
    (args : List Value) : Prop :=
  ∀ s', s.Mutation b args s' → inv.At s → inv.At s'

theorem safe_setBuiltin (h : m.store.Sealed free) (hargs : LooseAll free m.store args)
    (hallowed : inv.Allows m.store .set args) :
    Safe free inv m.store (Store.Loose free) (setBuiltin args m) := by
  refine .check h fun _ => ?_
  split
  case h_1 id index v =>
    have hid := hargs (.list id) (by simp)
    have hv := hargs v (by simp)
    refine Safe.bind (.tryChange h fun s hs => ?_) fun _ m' h' hsince _ => ?_
    · have hkeeps := hallowed s (.set hs)
      unfold Store.setItem at hs
      dsimp only at hs
      split at hs
      · cases hs
        -- the elements are those from before and the new one
        refine h.toApart.harmless_setItems hid (fun w hw => ?_) hkeeps
        rcases List.mem_or_eq_of_mem_set hw with hold | rfl
        · exact h.toApart.loose_item hid hold
        · exact hv
      · cases hs
    · exact .pure h' (hsince.loose _ hid)
  case h_2 => exact .pure h (Store.loose_atom trivial)

theorem safe_putBuiltin (h : m.store.Sealed free) (hargs : LooseAll free m.store args)
    (hallowed : inv.Allows m.store .put args) :
    Safe free inv m.store (Store.Loose free) (putBuiltin args m) := by
  refine .check h fun _ => ?_
  split
  case h_1 id key v =>
    have hid := hargs (.dict id) (by simp)
    have hkey := hargs key (by simp)
    have hv := hargs v (by simp)
    refine Safe.bind (.tryChange h fun s hs => ?_) fun _ m' h' hsince _ => ?_
    · have hkeeps := hallowed s (.put hs)
      unfold Store.setKey at hs
      split at hs
      · cases hs
        exact h.toApart.harmless_putEntry id hkey.has hv hkeeps
      · obtain ⟨text, _, hs⟩ := bind_eq_ok.mp hs
        cases hs
    · exact .pure h' (hsince.loose _ hid)
  case h_2 => exact .pure h (Store.loose_atom trivial)

/-! ### New collections out of old ones -/

theorem mem_slice {items : List α} {first : Int} {last : Option Int} {a : α}
    (h : a ∈ slice items first last) : a ∈ items :=
  List.mem_of_mem_take (List.mem_of_mem_drop h)

/-- A part of a list of code is a new list of code. -/
theorem safe_cut (h : m.store.Sealed free) {id : ListId} (hid : m.store.Loose free (.list id))
    (first : Int) (last : Option Int) :
    Safe free inv m.store (Store.Loose free) (sliceBuiltin.cut id first last m) :=
  .makeList h (fun _ hv => h.toApart.loose_item hid (mem_slice hv))
    ((hid.held id (.self id)).imp_right fun hfree new hnew => h.fresh id hfree new hnew)

theorem safe_sliceBuiltin (h : m.store.Sealed free) (hargs : LooseAll free m.store args) :
    Safe free inv m.store (Store.Loose free) (sliceBuiltin args m) := by
  refine .check h fun _ => .check h fun _ => ?_
  split
  case h_1 id first => exact safe_cut h (hargs _ List.mem_cons_self) first none
  case h_2 id first last => exact safe_cut h (hargs _ List.mem_cons_self) first (some last)
  case h_3 => exact .pure h (Store.loose_atom trivial)

theorem loose_concatItems {s : Store} (h : s.Apart free) {name : String} {position : Nat}
    {items : List Value} (hargs : LooseAll free s args)
    (hitems : s.concatItems name position args = .ok items) : LooseAll free s items := by
  induction args generalizing position items with
  | nil =>
      cases hitems
      exact fun v hv => absurd hv List.not_mem_nil
  | cons arg rest ih =>
      obtain ⟨harg, hrest⟩ := List.forall_mem_cons.mp hargs
      obtain ⟨_, _, hitems⟩ := bind_eq_ok.mp hitems
      obtain ⟨others, hothers, hitems⟩ := bind_eq_ok.mp hitems
      have htail := ih hrest hothers
      cases arg with
      | list id =>
          cases hitems
          intro v hv
          rcases List.mem_append.mp hv with hv | hv
          · exact h.loose_item harg hv
          · exact htail v hv
      -- what is no list adds nothing; the check before has refused it anyway
      | atom | dict =>
          cases hitems
          exact htail

theorem safe_concatBuiltin (h : m.store.Sealed free) (hargs : LooseAll free m.store args) :
    Safe free inv m.store (Store.Loose free) (concatBuiltin args m) :=
  .query h fun _ hitems => .makeFinished h (loose_concatItems h.toApart hargs hitems)

theorem safe_keysBuiltin (h : m.store.Sealed free) (args : List Value) :
    Safe free inv m.store (Store.Loose free) (keysBuiltin args m) := by
  refine .check h fun _ => ?_
  split
  case h_1 id =>
    refine Safe.makeFinished h fun v hv => ?_
    obtain ⟨key, hkey, rfl⟩ := List.mem_map.mp hv
    obtain ⟨entry, hentry, rfl⟩ := List.mem_map.mp hkey
    exact Store.loose_atom (h.entries id entry hentry).1
  case h_2 => exact .pure h (Store.loose_atom trivial)

theorem safe_strBuiltin (h : m.store.Sealed free) (args : List Value) :
    Safe free inv m.store (Store.Loose free) (strBuiltin args m) :=
  .query h fun _ _ => .pure h (Store.loose_atom trivial)

/-- Natives on finished values are safe on loose values. -/
theorem safe_builtin (h : m.store.Sealed free) (hargs : LooseAll free m.store args) (b : Builtin)
    (hallowed : inv.Allows m.store b args) :
    Safe free inv m.store (Store.Loose free) (b.run args m) := by
  cases b with
  | add | sub | mul | div => exact safe_operation h hargs _ _
  | mod => exact safe_remainder h args
  | eq | ne =>
      exact Safe.bind (safe_equalBuiltin h args).lift
        fun _ m' h' _ _ => .pure h' (Store.loose_atom trivial)
  | lt | le | gt | ge => exact (safe_comparison h _ _ args).lift
  | not | type =>
      refine .checkNative h fun _ => ?_
      cases args <;> exact .pure h (Store.loose_atom trivial)
  | list => exact .makeFinished h hargs
  | dict => exact (safe_makeDict h hargs).lift
  | get => exact (safe_getBuiltin h hargs).lift
  | set => exact (safe_setBuiltin h hargs hallowed).lift
  | put => exact (safe_putBuiltin h hargs hallowed).lift
  | first | last => exact (safe_elementBuiltin h hargs _ _).lift
  | len => exact (safe_lengthBuiltin h args).lift
  | slice => exact (safe_sliceBuiltin h hargs).lift
  | concat => exact (safe_concatBuiltin h hargs).lift
  | keys => exact (safe_keysBuiltin h args).lift
  | symbol =>
      refine .checkNative h fun _ => ?_
      split <;> exact .pure h (Store.loose_atom trivial)
  | str => exact (safe_strBuiltin h args).lift

end

end DispatchLisp
