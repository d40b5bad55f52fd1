import DispatchLisp.Proofs.Builtin.Dictionary
import DispatchLisp.Proofs.Builtin.Updates
import DispatchLisp.Proofs.Dispatch.Selection
import DispatchLisp.Proofs.Evaluation.Calls
import DispatchLisp.Proofs.Evaluation.Frame

/-!
# Proofs.Evaluation.Independence — derived collections are objects of their own

No evaluation takes a list or dict away (`frame_keepsValues`). Natives that answer a derived collection
make it as their last step, when all calls inside them are over (`native_produces`), and so does the
binding of the other arguments of a call (`bindArguments_makes`). So what they make has not been there
before, and it is independent of all that was. With the right arguments they do answer
(`native_answers`).

Main statement: `collections_are_independent`.
-/

namespace DispatchLisp

/-! ## Values stay -/

/-- Whether every value that was there is still there. -/
def KeepsValues (m m' : Machine) : Prop :=
  ∀ v, m.store.Has v → m'.store.Has v

theorem keepsValues_of_size {m m' : Machine} (hlists : m.store.lists.size ≤ m'.store.lists.size)
    (hdicts : m.store.dicts.size ≤ m'.store.dicts.size) : KeepsValues m m' :=
  fun _ hv => hv.of_size hlists hdicts

/-- No step of an evaluation takes a value away. -/
theorem frame_keepsValues : Frame fun _ => KeepsValues where
  accumulates _ := ⟨fun _ _ hv => hv, fun h h' v hv => h' v (h v hv)⟩
  ofQuiet _ _ _ h := keepsValues_of_size h.lists h.dicts
  functions _ m store h := by
    cases h <;> exact keepsValues_of_size (Nat.le_refl _) (Nat.le_refl _)
  defineAll _ _ _ := keepsValues_of_size (Nat.le_refl _) (Nat.le_refl _)
  inside _ _ _ _ _ h v hv := h v (hv.of_size (Nat.le_refl _) (Nat.le_refl _))
  loaded _ _ _ _ _ _ _ h v hv := h v (hv.of_size (Nat.le_refl _) (Nat.le_refl _))
  imported _ _ _ _ _ _ := keepsValues_of_size (Nat.le_refl _) (Nat.le_refl _)

/-! ## Making collections -/

/-- Whether a value is a collection that has been made since a state, and as the last thing: what was
there right before is as it was, and the collection is independent of it. -/
def Machine.Produces (m : Machine) (v : Value) (m' : Machine) : Prop :=
  ∃ before : Machine, KeepsValues m before ∧ before.store.Makes v m'.store ∧
    before.store.Independent v

theorem Machine.Produces.of_makes {m before m' : Machine} {v : Value}
    (hkept : KeepsValues m before) (h : before.store.Makes v m'.store) : m.Produces v m' :=
  ⟨before, hkept, h, Store.independent_of_absent h.absent⟩

/-- Whether a native answers a collection that it makes. -/
def Native.makesCollection (f : Native) : Bool :=
  match f.role with
  | .builtin .list | .builtin .dict | .builtin .slice | .builtin .concat | .builtin .keys => true
  | .traversal _ => true
  | _ => false

section

variable {m m' : Machine} {v : Value}

/-- A list is made by the last step. -/
theorem makes_of_makeList {ε : Type} {items : List Value} {evaluated : Bool}
    (h : (makeList items evaluated : Computation ε Value) m = (.ok v, m')) :
    m.store.Makes v m'.store := by
  obtain ⟨new, after, hmade, hmakes, _⟩ := makeList_eq (ε := ε) m items evaluated
  rw [hmade] at h
  cases h
  exact hmakes

/-- What fails or makes a list has made one if it answers. -/
theorem makes_of_cases {x : NativeEval Value}
    (hcases : (∃ e, x m = (.error (.fault e), m)) ∨
      ∃ items evaluated, x m = makeList items evaluated m)
    (h : x m = (.ok v, m')) : m.store.Makes v m'.store := by
  rcases hcases with ⟨e, herror⟩ | ⟨items, evaluated, hmade⟩
  · rw [herror] at h
    cases h
  · rw [hmade] at h
    exact makes_of_makeList h

theorem run_dict_makes {args : List Value} (h : Builtin.dict.run args m = (.ok v, m')) :
    m.store.Makes v m'.store := by
  rw [run_dict_eq] at h
  split at h
  · split at h
    · cases h
      exact m.store.makes_newDict _
    · cases h
  · cases h

/-- A traversal of a list collects what the calls answer and makes a list of it. -/
theorem run_traversal (t : Traversal) (applyElement : Value → Value → NativeEval Value) (g : Value)
    (l : ListId) (m : Machine) :
    t.run applyElement [g, .list l] m =
      if g.isCallable = true then
        (do let items ← t.collect (applyElement g) l (m.store.list l).items.length 0
            makeList items true) m
      else (.error (.fault (.functionExpected t.name g.typeName)), m) := by
  have hchecked : (liftM (check (requireArguments t.name [g, .list l] [[.any], [.list]])) :
      NativeEval Unit) m = (.ok (), m) := rfl
  have hcount : (askStore fun s => (s.list l).items.length : NativeEval Nat) m =
      (.ok (m.store.list l).items.length, m) := rfl
  rw [Traversal.run, Computation.bind_of_ok hchecked]
  split
  · exact Computation.bind_of_ok hcount
  · rfl

/-- A traversal makes its list when all calls are over. -/
theorem traversal_produces {t : Traversal} {applyElement : Value → Value → NativeEval Value}
    (hone : ∀ g w, Keeps KeepsValues (applyElement g w)) {args : List Value}
    (h : t.run applyElement args m = (.ok v, m')) : m.Produces v m' := by
  obtain ⟨_, _, hcheck, _⟩ := Computation.bind_eq_ok h
  rcases requireArguments_eq_ok_iff.mp (congrArg Prod.fst (liftM_eq_ok hcheck)) with
    _ | @⟨g, _, _, _, _, _ | ⟨hlist, _ | _⟩⟩
  obtain ⟨l, rfl⟩ := value_of_accept.1 hlist
  rw [run_traversal] at h
  split at h
  case isFalse => cases h
  case isTrue =>
    obtain ⟨items, walked, hwalk, hmade⟩ := Computation.bind_eq_ok h
    -- the calls keep what is there in any context
    have hkept := frame_keepsValues.collect (c := ⟨0, ""⟩) t (hone g) l
      (m.store.list l).items.length 0 m
    rw [hwalk] at hkept
    exact .of_makes hkept (makes_of_makeList hmade)

/-- A native for collections answers one that it has made as its last step, whatever it is called
with. -/
theorem native_produces {host : Host} {ev : Evaluator} {c : ContextId} {f : Native}
    (hf : f.makesCollection = true) {applyElement : Value → Value → NativeEval Value}
    (hone : ∀ g w, Keeps KeepsValues (applyElement g w)) {parts : List Part}
    (h : f.run host ev applyElement parts c m = (.ok v, m')) : m.Produces v m' := by
  have hmakes : ∀ {m₁ : Machine}, m.store.Makes v m₁.store → m.Produces v m₁ :=
    fun hmade => .of_makes (fun _ hw => hw) hmade
  unfold Native.makesCollection at hf
  unfold Native.run at h
  split at hf
  case h_7 => cases hf
  case h_6 t hrole =>
    rw [hrole] at h
    obtain ⟨values, _, hvalues, h⟩ := Computation.bind_eq_ok h
    cases hvalues
    exact traversal_produces hone h
  all_goals
    rename_i hrole
    rw [hrole] at h
    obtain ⟨values, _, hvalues, h⟩ := Computation.bind_eq_ok h
    cases hvalues
  case h_1 => exact hmakes (makes_of_makeList h)
  case h_2 => exact hmakes (run_dict_makes h)
  case h_3 => exact hmakes (makes_of_cases (slice_cases m _) h)
  case h_4 => exact hmakes (makes_of_cases (concat_cases m _) h)
  case h_5 => exact hmakes (makes_of_cases (keys_cases m _) h)

section

variable {host : Host} (hhost : host.Respects fun _ => KeepsValues) (depth : Nat) (c : ContextId)

theorem keepsValues_nothing (_ _ : Value) :
    Keeps KeepsValues (pure .nothing : NativeEval Value) :=
  (frame_keepsValues.accumulates ⟨0, ""⟩).pure _

include hhost in
theorem keepsValues_applyOne (g w : Value) :
    Keeps KeepsValues (applyOne host (evaluate host depth) c g w) :=
  frame_keepsValues.applyWith (frame_keepsValues.evaluate hhost depth) hhost keepsValues_nothing
    g (c := c) _ _

end

/-- A written call evaluates its operands first; what it answers is new even to them. -/
theorem call_produces {host : Host} (hhost : host.Respects fun _ => KeepsValues) {depth : Nat}
    {c : ContextId} {f : Native} (hf : f.makesCollection = true) (heager : f.lazy = false)
    {expr : Value} {exprs : List Value} (hcall : m.store.IsNativeCall c f exprs expr)
    (h : evaluate host (depth + 1) expr c m = (.ok v, m')) :
    ∃ values m₁, evaluateAll (evaluate host depth) c (fixedParts exprs) m = (.ok values, m₁) ∧
      KeepsValues m m₁ ∧ m₁.Produces v m' := by
  have hkept := frame_keepsValues.evaluateAll (frame_keepsValues.evaluate hhost depth) (c := c)
    (fixedParts exprs) m
  rw [evaluate_nativeCall host depth hcall,
    apply_of_takesValues (by simp [Value.takesValues, heager])] at h
  obtain ⟨values, m₁, hvalues, h⟩ := Computation.bind_eq_ok (guarded_eq_ok h)
  have hvalues := liftM_eq_ok hvalues
  rw [hvalues] at hkept
  exact ⟨values, m₁, hvalues, hkept, native_produces hf (keepsValues_applyOne hhost depth c) h⟩

/-! ### Calls that answer -/

/-- Whether arguments are those that a native for collections asks for, where a function that is called
with elements has to answer. -/
def NativeRole.Takes (answers : Value → Prop) : NativeRole → List Value → Prop
  | .builtin .list, _ => True
  | .builtin .dict, args => ∃ pairs, AtomKeys pairs ∧ args = pairArguments pairs
  | .builtin .slice, args => ∃ l i, args = [.list l, .int i] ∨ ∃ j, args = [.list l, .int i, .int j]
  | .builtin .concat, args => ∃ ls : List ListId, args = ls.map .list
  | .builtin .keys, args => ∃ d, args = [.dict d]
  | .traversal _, args => ∃ g l, args = [g, .list l] ∧ g.isCallable = true ∧ answers g
  | _, _ => False

theorem collect_answers (t : Traversal) {g : Value → NativeEval Value}
    (hg : ∀ w m, ∃ a m', g w m = (.ok a, m')) (l : ListId) (count position : Nat) (m : Machine) :
    ∃ items m', t.collect g l count position m = (.ok items, m') := by
  induction count generalizing position m with
  | zero => exact ⟨[], m, rfl⟩
  | succ count ih =>
      have hask : (askStore fun s => (s.list l).items[position]? : NativeEval (Option Value)) m =
          (.ok (m.store.list l).items[position]?, m) := rfl
      rw [Traversal.collect, Computation.bind_of_ok hask]
      cases (m.store.list l).items[position]? with
      | none => exact ⟨[], m, rfl⟩
      | some item =>
          obtain ⟨a, m₁, hcall⟩ := hg item m
          obtain ⟨others, m₂, hothers⟩ := ih (position + 1) m₁
          have hstops : (g item).withoutStop m = (.ok a, m₁) := by
            unfold NativeEval.withoutStop Computation.mapError
            rw [hcall]
          dsimp only
          rw [Computation.bind_of_ok hstops, Computation.bind_of_ok hothers]
          cases t with
          | map => exact ⟨_, _, rfl⟩
          | filter => exact ⟨_, _, rfl⟩

/-- A traversal answers if the function does that it calls with the elements. -/
theorem traversal_answers (t : Traversal) {applyElement : Value → Value → NativeEval Value}
    {g : Value} (hcallable : g.isCallable = true)
    (hg : ∀ w m, ∃ a m', applyElement g w m = (.ok a, m')) (l : ListId) (m : Machine) :
    ∃ v m', t.run applyElement [g, .list l] m = (.ok v, m') := by
  obtain ⟨items, walked, hwalk⟩ := collect_answers t hg l (m.store.list l).items.length 0 m
  rw [run_traversal, if_pos hcallable, Computation.bind_of_ok hwalk]
  exact ⟨_, _, rfl⟩

/-- A call with the right arguments answers. -/
theorem native_answers {host : Host} {ev : Evaluator} {c : ContextId} {f : Native}
    {applyElement : Value → Value → NativeEval Value} {args : List Value}
    (hargs : f.role.Takes (fun g => ∀ w m, ∃ a m', applyElement g w m = (.ok a, m')) args)
    (m : Machine) : ∃ v m', f.run host ev applyElement (fixedParts args) c m = (.ok v, m') := by
  unfold Native.run
  unfold NativeRole.Takes at hargs
  split at hargs
  -- other natives make no collection, so nothing is asked of them
  case h_7 => exact hargs.elim
  all_goals
    rename_i hrole
    rw [hrole]
    dsimp only
    rw [Computation.bind_of_ok (lookAtAll_fixedParts _ m)]
  case h_1 => exact ⟨_, _, rfl⟩
  case h_2 =>
    obtain ⟨pairs, hpairs, rfl⟩ := hargs
    obtain ⟨d, m₀, _, _, hrun⟩ := run_dict_pairs m hpairs
    exact ⟨_, _, hrun⟩
  case h_3 =>
    obtain ⟨l, i, rfl | ⟨j, rfl⟩⟩ := hargs
    · exact ⟨_, _, rfl⟩
    · exact ⟨_, _, rfl⟩
  case h_4 =>
    obtain ⟨ls, rfl⟩ := hargs
    exact ⟨_, _, run_concat m ls⟩
  case h_5 =>
    obtain ⟨d, rfl⟩ := hargs
    exact ⟨_, _, rfl⟩
  case h_6 t =>
    obtain ⟨g, l, rfl, hcallable, hanswers⟩ := hargs
    exact traversal_answers t hcallable hanswers l m

/-- Binding the arguments of a call makes a list of the others and binds it to the name for them. -/
theorem bindArguments_makes {c : ContextId} (hc : m.store.HasContext c) {p : Parameters}
    {name : String} (hrest : p.rest = some name) (args : List Value) :
    ∃ others m', bindArguments c p args m = (.ok (), m') ∧
      m'.store.own? c name = some (.list others) ∧
      m'.store.list others = ⟨args.drop p.fixed.length, true⟩ ∧
      m.store.Makes (.list others) m'.store := by
  have hmade := m.store.makes_newList (args.drop p.fixed.length) true
  refine ⟨⟨m.store.lists.size⟩, _, bindArguments_eq c p args m, ?_,
    m.store.list_bindAll_new p args hrest, ?_⟩
  · rw [Store.own?, Store.context_bindAll_self m.store p args hc]
    exact m.store.get?_boundTable_rest p args hrest _
  · unfold Store.bindAll
    rw [hrest]
    exact ⟨hmade.absent, ⟨hmade.made.1, hmade.made.2⟩, hmade.has, hmade.same⟩

end

/-! ## The main statement -/

/-- Updates are local and what is made is new. Setting an element in range replaces this element of
this list; putting a value under a key binds this key of this dict; no other list or dict changes, and an
update that fails changes nothing. A native for collections answers when it is called with what it asks
for, and whatever it answers, it has made as its last step: called with values or expressions, called
with an element inside another native, or written as a call, which first evaluates the operands. So has
the binding of the arguments of a call the list of the others. What has been made so is independent of
all that was there before: whatever is updated later, of the one or of the others, the other side stays
as it is. -/
theorem collections_are_independent {host : Host} (hhost : host.Respects fun _ => KeepsValues) :
    (∀ (m : Machine) (l : ListId) (i : Int) (v : Value),
      let items := (m.store.list l).items
      (-items.length ≤ i ∧ i < items.length) → ∃ n m', n < items.length ∧
        (n : Int) = (if i < 0 then i + items.length else i) ∧
        Builtin.set.run [.list l, .int i, v] m = (.ok (.list l), m') ∧
        m'.store.list l = ⟨items.set n v, (m.store.list l).evaluated⟩ ∧
        m.store.ChangesOnly (.list l) m'.store) ∧
    (∀ (m : Machine) (d : DictId) (key : Atom) (v : Value), m.store.Has (.dict d) →
      ∃ m', Builtin.put.run [.dict d, .atom key, v] m = (.ok (.dict d), m') ∧
        BindsKey key v (m.store.dict d).entries (m'.store.dict d).entries ∧
        m.store.ChangesOnly (.dict d) m'.store) ∧
    (∀ (b : Builtin) (args : List Value) (m m' : Machine) (e : Raised), b.updates = true →
      b.run args m = (.error e, m') → m' = m) ∧
    (∀ (f : Native) (depth : Nat) (c : ContextId) (args : List Value) (m : Machine),
      f.role.Takes (fun g => ∀ element m₁, ∃ answer m₂,
        applyOne host (evaluate host depth) c g element m₁ = (.ok answer, m₂)) args →
      ∃ v m', applyValues host (evaluate host depth) (.native f) (fixedParts args) true c m =
        (.ok v, m')) ∧
    (∀ (f : Native) (depth : Nat) (c : ContextId) (m m' : Machine) (v : Value),
      f.makesCollection = true →
      (∀ parts evaluated,
        applyValues host (evaluate host depth) (.native f) parts evaluated c m = (.ok v, m') →
        m.Produces v m') ∧
      (∀ element, applyOne host (evaluate host depth) c (.native f) element m = (.ok v, m') →
        m.Produces v m') ∧
      ∀ expr exprs, f.lazy = false → m.store.IsNativeCall c f exprs expr →
        evaluate host (depth + 1) expr c m = (.ok v, m') →
        ∃ values m₁, evaluateAll (evaluate host depth) c (fixedParts exprs) m = (.ok values, m₁) ∧
          KeepsValues m m₁ ∧ m₁.Produces v m') ∧
    ∀ (m : Machine) (c : ContextId) (p : Parameters) (name : String) (args : List Value),
      m.store.HasContext c → p.rest = some name →
      ∃ others m', bindArguments c p args m = (.ok (), m') ∧
        m'.store.own? c name = some (.list others) ∧
        m'.store.list others = ⟨args.drop p.fixed.length, true⟩ ∧
        m.Produces (.list others) m' := by
  refine ⟨fun m l i v hi => run_set_in_range v hi, fun m d key v hd => run_put_binds hd key v,
    fun b args m m' e hb h => eq_of_update_error hb h,
    fun f depth c args m hargs => native_answers hargs m, fun f depth c m m' v hf => ?_,
    fun m c p name args hc hrest => ?_⟩
  · have hone := keepsValues_applyOne hhost depth c
    exact ⟨fun parts evaluated h => native_produces hf hone h,
      fun element h => native_produces hf keepsValues_nothing h,
      fun expr exprs heager hcall h => call_produces hhost hf heager hcall h⟩
  · obtain ⟨others, m', hrun, hbound, hcell, hmade⟩ := bindArguments_makes hc hrest args
    exact ⟨others, m', hrun, hbound, hcell, .of_makes (fun _ hw => hw) hmade⟩

/-! ### A list and its full slice -/

/-- The native that makes slices. -/
def slicing : Native :=
  ⟨0, "slice", false, .builtin .slice⟩

/-- The native that makes lists. -/
def listing : Native :=
  ⟨1, "list", false, .builtin .list⟩

/-- The native that maps. -/
def mapping : Native :=
  ⟨2, "map", false, .traversal .map⟩

/-- A machine with the list `[10 20 30]`, the code of a call that slices it from its start on, and the
dict `[1 10]`. -/
def sliceInCode : Machine :=
  { Machine.initial .empty LogLevel.warning.number with
    store :=
      { Store.empty with
        lists := #[⟨[.int 10, .int 20, .int 30], true⟩, ⟨[.native slicing, .list ⟨0⟩, .int 0], false⟩]
        dicts := #[⟨[(.int 1, .int 10)]⟩]
        contexts := #[⟨none, [], [], []⟩]
        natives := 3 } }

/-- The full slice is a new list: setting its last element leaves the list that it was cut from as it
is. Setting an element after the last one fails and changes nothing, putting a key that is there already
replaces what it binds, making a list of each element answers, and the list of the other arguments of a
call is new too. -/
theorem collections_are_independent_of_full_slice :
    (∃ m' m'', evaluate Host.basic 2 (.list ⟨1⟩) ⟨0, "code"⟩ sliceInCode = (.ok (.list ⟨2⟩), m') ∧
      ¬ sliceInCode.store.Has (.list ⟨2⟩) ∧
      Builtin.set.run [.list ⟨2⟩, .int (-1), .int 99] m' = (.ok (.list ⟨2⟩), m'') ∧
      m''.store.list ⟨2⟩ = ⟨[.int 10, .int 20, .int 99], true⟩ ∧
      m''.store.list ⟨0⟩ = ⟨[.int 10, .int 20, .int 30], true⟩) ∧
    (∀ e m', Builtin.set.run [.list ⟨0⟩, .int 3, .int 99] sliceInCode = (.error e, m') →
      m' = sliceInCode) ∧
    (∃ m', Builtin.put.run [.dict ⟨0⟩, .int 1, .int 99] sliceInCode = (.ok (.dict ⟨0⟩), m') ∧
      BindsKey (.int 1) (.int 99) [(.int 1, .int 10)] (m'.store.dict ⟨0⟩).entries) ∧
    (∃ v m', applyValues Host.basic (evaluate Host.basic 1) (.native mapping)
      (fixedParts [.native listing, .list ⟨0⟩]) true ⟨0, "code"⟩ sliceInCode = (.ok v, m')) ∧
    ∃ others m', bindArguments ⟨0, "code"⟩ ⟨[], some "others"⟩ [.int 1] sliceInCode = (.ok (), m') ∧
      sliceInCode.Produces (.list others) m' := by
  have hhost : Host.basic.Respects fun _ => KeepsValues := Host.basic_respects frame_keepsValues
  obtain ⟨hset, hput, hfailed, hanswers, hmade, hrest⟩ := collections_are_independent hhost
  have hcall : sliceInCode.store.IsNativeCall ⟨0, "code"⟩ slicing [.list ⟨0⟩, .int 0] (.list ⟨1⟩) :=
    ⟨⟨1⟩, _, rfl, rfl, rfl⟩
  obtain ⟨m', hrun, hcell, hsource⟩ : ∃ m',
      evaluate Host.basic 2 (.list ⟨1⟩) ⟨0, "code"⟩ sliceInCode = (.ok (.list ⟨2⟩), m') ∧
      m'.store.list ⟨2⟩ = ⟨[.int 10, .int 20, .int 30], true⟩ ∧
      m'.store.list ⟨0⟩ = ⟨[.int 10, .int 20, .int 30], true⟩ := ⟨_, rfl, rfl, rfl⟩
  obtain ⟨_, m₁, _, hkept, before, hbefore, hmakes, hindependent⟩ :=
    (hmade slicing 1 ⟨0, "code"⟩ sliceInCode m' _ rfl).2.2 _ _ rfl hcall hrun
  have hold : ∀ w, sliceInCode.store.Has w → before.store.Has w := fun w hw =>
    hbefore w (hkept w hw)
  refine ⟨?_, fun e m' h => hfailed .set _ _ _ _ rfl h, ?_, ?_, ?_⟩
  · obtain ⟨n, m'', hn, hplace, hrun', hcell', _⟩ := hset m' ⟨2⟩ (-1) (.int 99) (by simp [hcell])
    rw [hcell] at hn hplace hcell'
    have hplace : (n : Int) = 2 := by simpa using hplace
    obtain rfl : n = 2 := Int.ofNat.inj hplace
    refine ⟨m', m'', hrun, fun h => hmakes.absent (hold _ h), hrun', hcell', ?_⟩
    have hupdates : Updates (· = .list ⟨2⟩) m' m'' := by
      have hstep : Updates (· = .list ⟨2⟩) m'
          (Builtin.set.run [.list ⟨2⟩, .int (-1), .int 99] m').2 := .step _ (.refl m') rfl rfl
      rwa [hrun'] at hstep
    have hsame : m''.store.list ⟨0⟩ = m'.store.list ⟨0⟩ :=
      hindependent.sources m' m'' hupdates (.list ⟨0⟩) (hold _ Nat.two_pos)
    exact hsame.trans hsource
  · obtain ⟨m'', hrun', hbinds, _⟩ := hput sliceInCode ⟨0⟩ (.int 1) (.int 99) Nat.one_pos
    exact ⟨m'', hrun', hbinds⟩
  · exact hanswers mapping 1 ⟨0, "code"⟩ [.native listing, .list ⟨0⟩] sliceInCode
      ⟨.native listing, ⟨0⟩, rfl, rfl, fun element m₁ => ⟨_, _, rfl⟩⟩
  · obtain ⟨others, m'', hrun', _, _, hproduces⟩ :=
      hrest sliceInCode ⟨0, "code"⟩ ⟨[], some "others"⟩ "others" [.int 1] Nat.one_pos rfl
    exact ⟨others, m'', hrun', hproduces⟩

end DispatchLisp
