import DispatchLisp.Embedding.Definition
import DispatchLisp.Embedding.Natives
import DispatchLisp.Proofs.Context.Root
import DispatchLisp.Proofs.Evaluation.Calls
import DispatchLisp.Proofs.Reader.Values
import DispatchLisp.Proofs.Value.Literal

/-!
# Proofs.Evaluation.Literal — literals evaluate to what they are written for

Where the names of the constants, the intrinsic types and the two constructors mean what they mean
in a root context, the code of a literal evaluates to a value that is seen as the literal
(`Datum.Literal.evaluates`). Evaluation makes collections and changes none, so the elements of a
collection stay what they are while the rest is evaluated. Together with what the reader makes of
the text of a literal, a literal value survives rendering, reading and evaluating
(`evaluate_parse_render`).
-/

namespace DispatchLisp

/-! ## Code in a store -/

namespace Form

theorem datumAll_eq (items : List Form) : datumAll items = items.map datum := by
  induction items with
  | nil => rfl
  | cons item items ih => rw [datumAll, ih, List.map_cons]

end Form

namespace Store

/-- Whether a value is seen as the code of a form, by someone. -/
def IsCode (s : Store) (v : Value) (t : Form) : Prop :=
  ∃ depth outer, s.viewWithin depth outer v = t.datum

theorem isCode_ofForm (s : Store) (t : Form) : (s.ofForm t).2.IsCode (s.ofForm t).1 t :=
  ⟨_, _, s.view_ofForm t⟩

section

variable {s s' : Store}

mutual

/-- Code stays what it is as long as the lists of code that it holds do. -/
theorem viewWithin_of_lists : (t : Form) → ∀ depth outer v,
    (∀ id, s.Holds v id → (s.list id).evaluated = false → s'.list id = s.list id) →
    s.viewWithin depth outer v = t.datum → s'.viewWithin depth outer v = t.datum
  | .int _ | .float _ | .string _ | .keyword _ | .symbol _ => by
      intro depth outer v _ h
      rw [viewWithin_eq_atom h]
      cases depth <;> rfl
  | .list items => by
      intro depth outer v hsame h
      obtain ⟨id, values, further, rfl, rfl, _, hopen, hcell, hdata⟩ := viewWithin_eq_code h
      have hself := hsame id (.self id) (congrArg ListCell.evaluated hcell)
      have hitems : ∀ v ∈ values, ∀ other, s.Holds v other → (s.list other).evaluated = false →
          s'.list other = s.list other := by
        intro v hv other hholds
        exact hsame other (.item (hcell ▸ hv) hholds)
      have hlater := viewsWithin_of_lists items _ _ _ hitems hdata
      rw [viewWithin, hopen, if_neg Bool.false_ne_true, hself, hcell]
      exact congrArg (Datum.list false) hlater

theorem viewsWithin_of_lists : (items : List Form) → ∀ depth outer (values : List Value),
    (∀ v ∈ values, ∀ id, s.Holds v id → (s.list id).evaluated = false → s'.list id = s.list id) →
    values.map (s.viewWithin depth outer) = Form.datumAll items →
    values.map (s'.viewWithin depth outer) = Form.datumAll items
  | [] => by
      intro depth outer values _ h
      rw [List.map_eq_nil_iff.mp h]
      rfl
  | item :: items => by
      intro depth outer values hsame h
      obtain ⟨v, rest, rfl, hitem, hrest⟩ := List.map_eq_cons_iff.mp h
      obtain ⟨hv, hvs⟩ := List.forall_mem_cons.mp hsame
      rw [List.map_cons, viewWithin_of_lists item _ _ _ hv hitem,
        viewsWithin_of_lists items _ _ _ hvs hrest]
      rfl

end

theorem IsCode.of_lists {v : Value} {t : Form} (h : s.IsCode v t)
    (hsame : ∀ id, s.Holds v id → (s.list id).evaluated = false → s'.list id = s.list id) :
    s'.IsCode v t := by
  obtain ⟨depth, outer, hview⟩ := h
  exact ⟨depth, outer, viewWithin_of_lists t _ _ _ hsame hview⟩

/-- Code stays what it is when a store grows. -/
theorem IsCode.later {v : Value} {t : Form} (h : s.IsCode v t) (hgrow : Grows s s') :
    s'.IsCode v t :=
  h.of_lists fun _ _ hcode => hgrow.list_eq (index_lt_of_code hcode)

/-- What an atom is written as is the atom. -/
theorem IsCode.atom {v : Value} {t : Form} {a : Atom} (h : s.IsCode v t)
    (hdatum : t.datum = .atom a) : v = .atom a := by
  obtain ⟨depth, outer, hview⟩ := h
  exact viewWithin_eq_atom (hview.trans hdatum)

/-- The code of a list is an unevaluated list of code. -/
theorem IsCode.list {v : Value} {items : List Form} (h : s.IsCode v (.list items)) :
    ∃ id values, v = .list id ∧ s.list id = ⟨values, false⟩ ∧
      List.Forall₂ s.IsCode values items := by
  obtain ⟨depth, outer, hview⟩ := h
  obtain ⟨id, values, further, hv, _, _, _, hcell, hdata⟩ := viewWithin_eq_code hview
  refine ⟨id, values, hv, hcell, ?_⟩
  have hmap : List.Forall₂ (· = ·) (values.map (s.viewWithin further (v :: outer)))
      (items.map Form.datum) := by
    rw [List.forall₂_eq_eq_eq, hdata, Form.datumAll_eq]
  have hitems := List.forall₂_map_left_iff.mp (List.forall₂_map_right_iff.mp hmap)
  exact hitems.imp fun _ _ hitem => ⟨further, _, hitem⟩

end

/-! ## Where literals evaluate -/

/-- Whether the names that literals are written with mean in a context what they stand for. -/
structure BindsLiterals (s : Store) (c : ContextId) : Prop where
  list : ∃ id, s.lookup? c "list" = some (.native ⟨id, "list", false, .builtin .list⟩)
  dict : ∃ id, s.lookup? c "dict" = some (.native ⟨id, "dict", false, .builtin .dict⟩)
  atom : ∀ (a : Atom) (name : String), a.Literal → a.form = .symbol name →
    s.lookup? c name = some (.atom a)

theorem BindsLiterals.congr {s s' : Store} {c : ContextId} (h : s.BindsLiterals c)
    (hcontexts : s'.contexts = s.contexts) : s'.BindsLiterals c := by
  constructor
  · rw [lookup?_congr hcontexts]
    exact h.list
  · rw [lookup?_congr hcontexts]
    exact h.dict
  · intro a name ha hname
    rw [lookup?_congr hcontexts]
    exact h.atom a name ha hname

theorem bindsLiterals_newRoot (s : Store) : s.newRoot.2.BindsLiterals s.newRoot.1 := by
  constructor
  · exact s.lookup?_newRoot_native (by decide)
  · exact s.lookup?_newRoot_native (by decide)
  · intro a name ha hname
    cases ha with
    | int | float | string | keyword => cases hname
    | bool b =>
        cases hname
        cases b with
        | true => exact s.lookup?_newRoot_constant (by decide)
        | false => exact s.lookup?_newRoot_constant (by decide)
    | nothing =>
        cases hname
        exact s.lookup?_newRoot_constant (by decide)
    | type htype =>
        cases hname
        exact s.lookup?_newRoot_type htype

end Store

/-- Whether nothing has happened to a machine but that lists and dicts were made. -/
structure Machine.Gains (m m' : Machine) : Prop where
  collections : Store.Grows m.store m'.store
  contexts : m'.store.contexts = m.store.contexts

theorem Machine.Gains.refl (m : Machine) : m.Gains m :=
  ⟨.refl _, rfl⟩

theorem Machine.Gains.trans {m m' m'' : Machine} (h : m.Gains m') (h' : m'.Gains m'') :
    m.Gains m'' :=
  ⟨h.collections.trans h'.collections, h'.contexts.trans h.contexts⟩

/-! ## Evaluation -/

namespace Datum

/-- Whether code for a tree evaluates to a value that is seen as the tree, if evaluation may go as
deep as the tree. -/
def Evaluates (d : Datum) : Prop :=
  ∀ (host : Host) (depth : Nat) (c : ContextId) (m : Machine) (expr : Value),
    d.depth ≤ depth → m.store.BindsLiterals c → m.store.IsCode expr d.form →
      ∃ v m', evaluate host depth expr c m = (.ok v, m') ∧ m.Gains m' ∧ m'.store.SeenAs v d

section

variable {host : Host} {depth : Nat} {c : ContextId}

theorem evaluate_symbol {name : String} {v : Value} {m : Machine}
    (h : m.store.lookup? c name = some v) :
    evaluate host (depth + 1) (.symbol name) c m = (.ok v, m) := by
  have hfound : (queryStore fun s => s.lookup c name : Eval Value) m = (.ok v, m) := by
    rw [queryStore, Store.lookup, h]
  rw [← hfound]
  exact congrFun (guarded_liftM _) m

/-- A literal atom is the value of its code, or the binding of its name. -/
theorem evaluates_atom {a : Atom} (h : a.Literal) : (atom a).Evaluates := by
  intro host depth c m expr hdepth hbinds hcode
  obtain ⟨further, outer, hview⟩ := hcode
  refine ⟨.atom a, m, ?_, .refl m, Store.seenAs_atom _ a⟩
  rcases depth with _ | depth
  · cases hdepth
  · cases h with
    | int | float | string | keyword =>
        rw [Store.viewWithin_eq_atom hview]
        rfl
    | bool b =>
        rw [Store.viewWithin_eq_atom hview]
        exact evaluate_symbol (hbinds.atom _ _ (.bool b) rfl)
    | nothing =>
        rw [Store.viewWithin_eq_atom hview]
        exact evaluate_symbol (hbinds.atom _ _ .nothing rfl)
    | type htype =>
        rw [Store.viewWithin_eq_atom hview]
        exact evaluate_symbol (hbinds.atom _ _ (.type htype) rfl)

/-- The parts of a call are evaluated one after another, and the earlier values stay the trees that
they are. -/
theorem evaluateAll_of_evaluates (host : Host) {items : List Datum}
    (h : ∀ item ∈ items, item.Evaluates) (hdepth : depthAll items ≤ depth) {m : Machine} {exprs : List Value}
    (hbinds : m.store.BindsLiterals c) (hcode : List.Forall₂ m.store.IsCode exprs (formAll items)) :
    ∃ values m', evaluateAll (evaluate host depth) c (fixedParts exprs) m = (.ok values, m') ∧
      m.Gains m' ∧ List.Forall₂ m'.store.SeenAs values items := by
  induction items generalizing m exprs with
  | nil =>
      cases hcode
      exact ⟨[], m, rfl, .refl m, .nil⟩
  | cons item items ih =>
      rw [depthAll, Nat.max_le] at hdepth
      cases hcode with
      | @cons expr _ rest _ hexpr hrest =>
      obtain ⟨v, m', hv, hgains, hseen⟩ :=
        h item List.mem_cons_self host depth c m expr hdepth.1 hbinds hexpr
      obtain ⟨values, m'', hvalues, hgains', hseen'⟩ :=
        ih (fun other hother => h other (List.mem_cons_of_mem _ hother)) hdepth.2
          (hbinds.congr hgains.contexts)
          (hrest.imp fun _ _ hcode => hcode.later hgains.collections)
      -- what the first part came to is still the same tree when the others have been evaluated
      refine ⟨v :: values, m'', ?_, hgains.trans hgains', .cons (hseen.later hgains'.collections) hseen'⟩
      have hlook : (askStore (Part.fixed expr) : Eval Value) m = (.ok expr, m) := rfl
      show evaluateAll _ c (Part.fixed expr :: fixedParts rest) m = _
      rw [evaluateAll, Computation.bind_of_ok hlook, Computation.bind_of_ok hv,
        Computation.bind_of_ok hvalues]
      rfl

/-- Code for a finished list calls the constructor with code for the elements. -/
theorem evaluates_list {items : List Datum} (h : ∀ item ∈ items, item.Evaluates) :
    (list true items).Evaluates := by
  intro host depth c m expr hdepth hbinds hcode
  obtain ⟨id, codes, rfl, hcell, hcodes⟩ := Store.IsCode.list hcode
  rcases hcodes with _ | ⟨⟨further, outer, hhead⟩, hrest⟩
  rcases depth with _ | depth
  · cases hdepth
  · obtain ⟨native, hnative⟩ := hbinds.list
    have hcall : m.store.IsNativeCall c ⟨native, "list", false, .builtin .list⟩ _ (.list id) :=
      ⟨id, _, rfl, hcell, by rw [Store.viewWithin_eq_atom hhead]; exact hnative⟩
    obtain ⟨values, m', hvalues, hgains, hseen⟩ :=
      evaluateAll_of_evaluates host h (Nat.le_of_succ_le_succ hdepth) hbinds hrest
    refine ⟨_, _, evaluate_builtinCall host depth hcall hvalues, hgains.trans ⟨?_, rfl⟩,
      Store.seenAs_newList hseen true⟩
    exact Store.grows_newList _ _ _

/-- Values of keys and values in turn make a dict with the keys in order, none of which replaces
another. -/
theorem pairEntries_entryData {s : Store} {keys : List Atom} {data : List Datum}
    {values : List Value} (hlength : keys.length = data.length)
    (hseen : List.Forall₂ s.SeenAs values (entryData keys data))
    (entries : Association Atom Value)
    (hdistinct : DistinctKeys (entries.keys ++ keys)) :
    ∃ made, s.pairEntries entries values = .ok (entries ++ made) ∧ made.map (·.1) = keys ∧
      List.Forall₂ s.SeenAs (made.map (·.2)) data := by
  induction keys generalizing data values entries with
  | nil =>
      cases data with
      | cons d data => cases hlength
      | nil =>
          cases hseen
          exact ⟨[], by rw [List.append_nil]; rfl, rfl, .nil⟩
  | cons key keys ih =>
      cases data with
      | nil => cases hlength
      | cons d data =>
          rcases hseen with _ | ⟨hkey, _ | ⟨hv, hrest⟩⟩
          rename_i v rest
          -- the key is none of the earlier ones, so its entry goes to the end
          have hput : entries.put Atom.alike key v = entries ++ [(key, v)] :=
            Association.put_of_absent
              (fun k hk => (List.pairwise_append.mp hdistinct).2.2 k hk key List.mem_cons_self) v
          have hsplit : Association.keys (entries ++ [(key, v)]) ++ keys =
              entries.keys ++ key :: keys := by
            simp [Association.keys]
          rw [← hsplit] at hdistinct
          obtain ⟨made, hmade, hkeys, hvalues⟩ := ih (Nat.succ.inj hlength) hrest _ hdistinct
          refine ⟨(key, v) :: made, ?_, congrArg (key :: ·) hkeys, .cons hv hvalues⟩
          rw [Store.viewWithin_eq_atom hkey.view_eq, Store.pairEntries, hput, hmade,
            List.append_assoc]
          rfl

/-- Code for a dict calls the constructor with code for the keys and values. -/
theorem evaluates_dict {keys : List Atom} {data : List Datum} (hlength : keys.length = data.length)
    (hkeys : ∀ key ∈ keys, key.Literal) (hdistinct : DistinctKeys keys)
    (h : ∀ d ∈ data, d.Evaluates) : (dict keys data).Evaluates := by
  intro host depth c m expr hdepth hbinds hcode
  obtain ⟨id, codes, rfl, hcell, hcodes⟩ := Store.IsCode.list hcode
  rcases hcodes with _ | ⟨⟨further, outer, hhead⟩, hrest⟩
  rcases depth with _ | depth
  · cases hdepth
  · obtain ⟨native, hnative⟩ := hbinds.dict
    have hcall : m.store.IsNativeCall c ⟨native, "dict", false, .builtin .dict⟩ _ (.list id) :=
      ⟨id, _, rfl, hcell, by rw [Store.viewWithin_eq_atom hhead]; exact hnative⟩
    have hentries : ∀ item ∈ entryData keys data, item.Evaluates :=
      forall_entryData (fun key hkey => evaluates_atom (hkeys key hkey)) h
    have hinner : depthAll (entryData keys data) ≤ depth := by
      rw [depthAll_entryData hlength]
      exact Nat.le_of_succ_le_succ hdepth
    rw [formEntries_eq] at hrest
    obtain ⟨values, m', hvalues, hgains, hseen⟩ :=
      evaluateAll_of_evaluates host hentries hinner hbinds hrest
    obtain ⟨made, hmade, rfl, hvaluesSeen⟩ :=
      pairEntries_entryData hlength hseen [] hdistinct
    have heven : values.length % 2 = 0 := by
      rw [hseen.length_eq, length_entryData hlength]
      exact Nat.mul_mod_right 2 _
    have hquery : (queryStore fun s => s.pairEntries [] values) m' = (.ok made, m') := by
      rw [queryStore, hmade]
      rfl
    have hdict : makeDict values m' = (.ok (.dict (m'.store.newDict made).1),
        { m' with store := (m'.store.newDict made).2 }) := by
      rw [makeDict, if_pos heven, Computation.bind_of_ok hquery]
      rfl
    have hrun : (Builtin.dict.run values).guarded m' = makeDict values m' :=
      congrFun (guarded_liftM (makeDict values)) m'
    refine ⟨_, _, (evaluate_builtinCall host depth hcall hvalues).trans (hrun.trans hdict),
      hgains.trans ⟨Store.grows_newDict _ _, rfl⟩, Store.seenAs_newDict hvaluesSeen⟩

/-- Code for a literal evaluates to the literal. -/
theorem Literal.evaluates {d : Datum} (h : d.Literal) : d.Evaluates := by
  induction h with
  | atom ha => exact evaluates_atom ha
  | list _ ih => exact evaluates_list ih
  | dict hlength hkeys hdistinct _ ih => exact evaluates_dict hlength hkeys hdistinct ih

end

end Datum

/-! ## Rendering, reading and evaluating -/

/-- Reads a text that holds one expression, and evaluates it in a root context of its own. -/
def evaluateAfresh (host : Host) (text : String) : Eval Value := do
  let expr ← readExpression text
  let c ← allocate Store.newRoot
  evaluateIn host expr c

theorem Store.grows_defineNatives (s : Store) (c : ContextId)
    (natives : List (String × Bool × NativeRole)) : Grows s (s.defineNatives c natives) := by
  refine List.foldlRecOn (motive := fun s' => Grows s s') natives _ (.refl s) ?_
  intro s' hs' native _
  exact hs'.trans ⟨List.prefix_refl _, List.prefix_refl _⟩

theorem Store.grows_newRoot (s : Store) : Grows s s.newRoot.2 := by
  have hmade : Grows s (s.newContext rootName none).2 := ⟨List.prefix_refl _, List.prefix_refl _⟩
  have hnatives : Grows s s.withNatives := hmade.trans (grows_defineNatives _ _ _)
  have hdefined : ∀ (s' : Store) (c : ContextId) (entries : List (String × Value)),
      Grows s' (s'.defineAll c entries) :=
    fun _ _ _ => ⟨List.prefix_refl _, List.prefix_refl _⟩
  rw [newRoot_eq]
  exact (hnatives.trans (hdefined _ _ _)).trans (hdefined _ _ _)

/-- A text that cannot be read is not evaluated. -/
theorem evaluateAfresh_of_error (host : Host) {text : String} {e : ReadError}
    (h : parse text = .error e) (m : Machine) :
    evaluateAfresh host text m = (.error (.unreadable e), m) := by
  have hread : readExpression text m = (.error (.unreadable e), m) := by
    rw [readExpression, h]
    rfl
  rw [evaluateAfresh, Computation.bind_of_error hread]

/-- What the text of a literal is read as evaluates to the literal. -/
theorem Datum.Literal.evaluateAfresh {d : Datum} (h : d.Literal) (hdepth : d.depth ≤ depthLimit)
    {text : String} (hparse : parse text = .ok d.form) (host : Host) (m : Machine) :
    ∃ v m', evaluateAfresh host text m = (.ok v, m') ∧ m'.store.view v = d := by
  let expr := (m.store.ofForm d.form).1
  let read : Machine := { m with store := (m.store.ofForm d.form).2 }
  let c := read.store.newRoot.1
  let ready : Machine := { read with store := read.store.newRoot.2 }
  have hread : readExpression text m = (.ok expr, read) := by
    rw [readExpression, hparse]
    rfl
  have hroot : (allocate Store.newRoot : Eval ContextId) read = (.ok c, ready) := rfl
  have hcode : ready.store.IsCode expr d.form :=
    (m.store.isCode_ofForm d.form).later read.store.grows_newRoot
  have hbinds : ready.store.BindsLiterals c := read.store.bindsLiterals_newRoot
  obtain ⟨v, m', hv, _, hseen⟩ := h.evaluates host depthLimit c ready expr hdepth hbinds hcode
  refine ⟨v, m', ?_, hseen.view_eq⟩
  rw [DispatchLisp.evaluateAfresh, Computation.bind_of_ok hread, Computation.bind_of_ok hroot]
  exact hv

/-- A dict under a keyword and a truth value, with a list inside. -/
def Store.withDict : DictId × Store :=
  let (id, s) := Store.empty.newList [.int 1, .float (.zero true), .nothing] true
  s.newDict [(.keyword "a", .list id), (.bool true, .type "Int")]

/-- The tree of the empty list inside some lists, all of them finished. -/
def Datum.nested : Nat → Datum
  | 0 => .list true []
  | n + 1 => .list true [nested n]

/-- Makes the empty list inside some lists, all of them finished. -/
def Store.nest (s : Store) : Nat → ListId × Store
  | 0 => s.newList [] true
  | n + 1 =>
    let (id, s) := s.nest n
    s.newList [.list id] true

theorem Datum.literal_nested (n : Nat) : (nested n).Literal := by
  induction n with
  | zero => exact .list fun _ hitem => absurd hitem List.not_mem_nil
  | succ n ih =>
      refine .list fun item hitem => ?_
      rw [List.mem_singleton.mp hitem]
      exact ih

theorem Datum.depth_nested (n : Nat) : (nested n).depth = n + 1 := by
  induction n with
  | zero => rfl
  | succ n ih => rw [nested, depth, depthAll, depthAll, ih, Nat.max_zero]

theorem Store.seenAs_nest (s : Store) (n : Nat) :
    (s.nest n).2.SeenAs (.list (s.nest n).1) (Datum.nested n) := by
  induction n with
  | zero => exact seenAs_newList .nil true
  | succ n ih => exact seenAs_newList (.cons ih .nil) true

end DispatchLisp
