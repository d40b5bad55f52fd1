import DispatchLisp.Evaluation.Evaluate
import DispatchLisp.Proofs.Evaluation.Calls
import DispatchLisp.Proofs.Evaluation.Frame
import DispatchLisp.Proofs.Evaluation.Safe

/-!
# Proofs.Evaluation.Sealing — evaluation keeps a store sealed

Evaluation comes to code in two ways: it is given an expression, and a call takes the parts of the
expression and the body of a function. None of these becomes a value by that. Special forms evaluate
the parts that they are given, or put them into the body of a function; natives on finished values
are given values only. The one exception is `quote`, which answers its part itself. So a step of
evaluation is safe if the part of a `quote` is loose and what a native changes in place keeps the
invariant (`safe_step`), given an evaluator that is.
-/

namespace DispatchLisp

variable {free : ListId → Prop} {inv : Store.CollectionInvariant}

/-- Whether evaluating any expression that is there is safe. -/
def Evaluator.IsSafe (free : ListId → Prop) (inv : Store.CollectionInvariant) (ev : Evaluator) :
    Prop :=
  ∀ (expr : Value) (c : ContextId) (m : Machine), m.store.Sealed free → m.store.Has expr →
    Safe free inv m.store (Store.Loose free) (ev expr c m)

/-- Whether, from a store on, something that is there stands at the place of each part. -/
def PartsThere (free : ListId → Prop) (inv : Store.CollectionInvariant) (s : Store)
    (parts : List Part) : Prop :=
  ∀ part ∈ parts, ∀ s' : Store, s'.Sealed free → s.Since free inv s' → s'.Has (part s')

/-! ## Parts -/

section

variable {s s' : Store} {parts : List Part}

theorem PartsThere.later (h : PartsThere free inv s parts) (hsince : s.Since free inv s') :
    PartsThere free inv s' parts :=
  fun part hpart s'' h'' hlater => h part hpart s'' h'' (hsince.trans hlater)

theorem PartsThere.head {part : Part} (h : PartsThere free inv s (part :: parts))
    (hs : s.Sealed free) : s.Has (part s) :=
  h part List.mem_cons_self s hs (.refl s)

theorem PartsThere.tail {part : Part} (h : PartsThere free inv s (part :: parts)) :
    PartsThere free inv s parts :=
  fun other hother => h other (List.mem_cons_of_mem _ hother)

theorem PartsThere.lookAtAll (h : PartsThere free inv s parts) (hs : s.Sealed free) :
    ∀ v ∈ parts.map (fun part => part s), s.Has v := by
  intro v hv
  obtain ⟨part, hpart, rfl⟩ := List.mem_map.mp hv
  exact h part hpart s hs (.refl s)

theorem partsThere_fixed {values : List Value} (h : ∀ v ∈ values, s.Has v) :
    PartsThere free inv s (fixedParts values) := by
  intro part hpart s' _ hsince
  obtain ⟨v, hv, rfl⟩ := List.mem_map.mp hpart
  exact hsince.has v (h v hv)

/-- Where an element of a list stood, there is an element or nothing later. -/
theorem partsThere_parts (id : ListId) : PartsThere free inv s (s.parts id) := by
  intro part hpart s' hs' _
  obtain ⟨n, _, rfl⟩ := List.mem_map.mp hpart
  show s'.Has (((s'.list id).items[n]?).getD .nothing)
  cases hitem : (s'.list id).items[n]? with
  | none => trivial
  | some v => exact hs'.items id v (List.mem_of_getElem? hitem)

theorem partsThere_bindings (hs : s.Sealed free) (id : ListId) :
    PartsThere free inv s (bindingParts s id) := by
  unfold bindingParts
  split
  case h_1 rest hitems =>
    exact partsThere_fixed fun v hv => hs.items id v (hitems ▸ List.mem_cons_of_mem _ hv)
  case h_2 => exact partsThere_parts id

end

section

variable {ev : Evaluator} {c : ContextId} {m : Machine}

/-! ## Sequences -/

/-- Looking at a part and evaluating what stands there. -/
theorem safe_evaluatePart (hev : ev.IsSafe free inv) {part : Part} {parts : List Part} {α : Type}
    {Wanted : Store → α → Prop} {f : Value → Eval α} (h : m.store.Sealed free)
    (hparts : PartsThere free inv m.store (part :: parts))
    (hf : ∀ v m', m'.store.Sealed free → PartsThere free inv m'.store parts →
      m'.store.Loose free v → Safe free inv m'.store Wanted (f v m')) :
    Safe free inv m.store Wanted ((do f (← ev (← askStore part) c)) m) :=
  .ask (.bind (hev _ c m h (hparts.head h)) fun v m' h' hsince hv =>
    hf v m' h' (hparts.tail.later hsince) hv)

theorem safe_evaluateSequence (hev : ev.IsSafe free inv) {parts : List Part} {result : Value}
    (h : m.store.Sealed free) (hparts : PartsThere free inv m.store parts)
    (hresult : m.store.Loose free result) :
    Safe free inv m.store (Store.Loose free) (evaluateSequence ev c result parts m) := by
  induction parts generalizing m result with
  | nil => exact .pure h hresult
  | cons part rest ih =>
      exact safe_evaluatePart hev h hparts fun v m' h' hrest hv => ih h' hrest hv

theorem safe_evaluateUntil (hev : ev.IsSafe free inv) {stop : Bool} {parts : List Part} {result : Value}
    (h : m.store.Sealed free) (hparts : PartsThere free inv m.store parts)
    (hresult : m.store.Loose free result) :
    Safe free inv m.store (Store.Loose free) (evaluateUntil ev c stop result parts m) := by
  induction parts generalizing m result with
  | nil => exact .pure h hresult
  | cons part rest ih =>
      refine safe_evaluatePart hev h hparts fun v m' h' hrest hv => ?_
      split
      · exact .pure h' hv
      · exact ih h' hrest hv

theorem safe_evaluateIf (hev : ev.IsSafe free inv) {parts : List Part} (h : m.store.Sealed free)
    (hparts : PartsThere free inv m.store parts) :
    Safe free inv m.store (Store.Loose free) (evaluateIf ev c parts m) := by
  unfold evaluateIf
  split
  case h_1 condition first =>
    refine safe_evaluatePart hev h hparts fun v m' h' hrest hv => ?_
    split
    · exact hev _ c m' h' (hrest.head h')
    · exact .pure h' (Store.loose_atom trivial)
  case h_2 condition first second =>
    refine safe_evaluatePart hev h hparts fun v m' h' hrest hv => ?_
    split
    · exact hev _ c m' h' (hrest.head h')
    · exact hev _ c m' h' (hrest.tail.head h')
  case h_3 => exact .throw h _

/-! ## Bindings -/

theorem safe_define (h : m.store.Sealed free) (c : ContextId) (name : String) {v : Value}
    (hv : m.store.Loose free v) :
    Safe free inv m.store (fun _ _ => True)
      ((changeStore fun s => s.define c name v : Computation Fault Unit) m) :=
  .changeStore h (h.toApart.harmless_define c name hv)

theorem safe_evaluateDef (hev : ev.IsSafe free inv) {args : List Value} (h : m.store.Sealed free)
    (hargs : ∀ v ∈ args, m.store.Has v) :
    Safe free inv m.store (Store.Loose free) (evaluateDef ev c args m) := by
  unfold evaluateDef
  split
  case h_1 target expr =>
    cases target.symbol? with
    | none => exact .throwText h _ _
    | some name =>
        refine Safe.bind (hev expr c m h (hargs expr (by simp))) fun v m' h' _ hv => ?_
        refine Safe.bind (safe_define h' c name hv) fun _ m'' h'' hsince _ => ?_
        exact .pure h'' (hsince.loose v hv)
  case h_2 => exact .throw h _

theorem safe_bindPairs (hev : ev.IsSafe free inv) : (parts : List Part) → {m : Machine} →
    m.store.Sealed free → PartsThere free inv m.store parts →
    Safe free inv m.store (fun _ _ => True) (bindPairs ev c parts m)
  | [], _, h, _ => .pure h trivial
  | [_], _, h, _ => .pure h trivial
  | name :: value :: rest, m, h, hparts => by
      unfold bindPairs
      refine .ask (.ask ?_)
      cases (name m.store).symbol? with
      | none => exact .throwText h _ _
      | some text =>
          refine Safe.bind (hev _ c m h (hparts.tail.head h)) fun v m' h' hsince hv => ?_
          refine Safe.bind (safe_define h' c text hv) fun _ m'' h'' hlater _ => ?_
          exact safe_bindPairs hev rest h'' (hparts.tail.tail.later (hsince.trans hlater))

theorem safe_newContext {ε : Type} (h : m.store.Sealed free) (name : String)
    (parent : Option ContextId) :
    Safe free inv m.store (fun _ _ => True)
      ((allocate fun s => s.newContext name parent : Computation ε ContextId) m) :=
  .allocate h (h.toApart.harmless_newContext name parent) trivial

theorem safe_evaluateLet (hev : ev.IsSafe free inv) {parts : List Part} (h : m.store.Sealed free)
    (hparts : PartsThere free inv m.store parts) :
    Safe free inv m.store (Store.Loose free) (evaluateLet ev c parts m) := by
  unfold evaluateLet
  split
  case h_1 => exact .throw h _
  case h_2 bindings body =>
    refine .ask ?_
    cases bindings m.store with
    | list id =>
        refine .ask ?_
        split
        · refine Safe.bind (safe_newContext h "let" (some c)) fun inner m1 h1 hsince1 _ => ?_
          have hpairs := (partsThere_bindings h id).later hsince1
          refine Safe.bind (safe_bindPairs hev _ h1 hpairs) fun _ m2 h2 hsince2 _ => ?_
          have hbody := hparts.tail.later (hsince1.trans hsince2)
          refine .ask (safe_evaluateSequence hev h2 ?_ (Store.loose_atom trivial))
          exact partsThere_fixed (hbody.lookAtAll h2)
        · exact .throw h _
    | atom | dict => exact .throwText h _ _

/-! ## Functions -/

/-- Several forms become one list of code, which no value leads to. -/
theorem safe_makeBody {forms : List Value} (h : m.store.Sealed free)
    (hforms : ∀ v ∈ forms, m.store.Has v) :
    Safe free inv m.store Store.Has (makeBody forms m) := by
  unfold makeBody
  split
  · exact .pure h trivial
  · exact .pure h (hforms _ List.mem_cons_self)
  · have hitems : ∀ v ∈ Value.symbol SpecialForm.doForm.name :: forms, m.store.Has v :=
      List.forall_mem_cons.mpr ⟨trivial, hforms⟩
    refine .allocateFor h (h.toApart.harmless_newList hitems nofun) ?_
    show m.store.lists.size < (m.store.newList _ false).2.lists.size
    simp [Store.newList]

theorem safe_makePattern {parameters : Value} {forms : List Value} (h : m.store.Sealed free)
    (hforms : ∀ v ∈ forms, m.store.Has v) :
    Safe free inv m.store (fun s p => s.Has p.body) (makePattern c parameters forms m) :=
  .query h fun _ _ => .bind (safe_makeBody h hforms) fun _ _ h' _ hbody => .pure h' hbody

theorem safe_newFunction {ε : Type} (h : m.store.Sealed free) (label : String)
    {patterns : List Pattern} (hbodies : ∀ p ∈ patterns, m.store.Has p.body) :
    Safe free inv m.store (fun _ _ => True)
      ((allocate fun s => s.newFunction label patterns : Computation ε FunctionId) m) :=
  .allocate h (h.toApart.harmless_newFunction label hbodies) trivial

theorem safe_evaluateFn {args : List Value} (h : m.store.Sealed free)
    (hargs : ∀ v ∈ args, m.store.Has v) :
    Safe free inv m.store (Store.Loose free) (evaluateFn c args m) := by
  unfold evaluateFn
  split
  case h_1 => exact .throw h _
  case h_2 parameters forms =>
    have hforms := fun v hv => hargs v (List.mem_cons_of_mem _ hv)
    refine Safe.bind (safe_makePattern h hforms) fun p m' h' _ hp => ?_
    refine Safe.bind (safe_newFunction h' "fn" (by simpa using hp)) fun id m'' h'' _ _ => ?_
    exact .pure h'' (Store.loose_atom trivial)

theorem safe_extendBinding (h : m.store.Sealed free) (name : String) {p : Pattern}
    (hp : m.store.Has p.body) :
    Safe free inv m.store (fun _ _ => True) (extendBinding c name p m) := by
  have hbindNew : ∀ label patterns, (∀ q ∈ patterns, m.store.Has q.body) →
      Safe free inv m.store (fun _ _ => True) (extendBinding.bindNew c name label patterns m) := by
    intro label patterns hbodies
    refine Safe.bind (safe_newFunction h label hbodies) fun id m' h' _ _ => ?_
    refine Safe.bind (safe_define h' c name (Store.loose_atom trivial)) fun _ m'' h'' _ _ => ?_
    exact .pure h'' trivial
  have hnew := hbindNew name [p] (by simpa using hp)
  unfold extendBinding
  refine .ask (.ask ?_)
  -- a native is refused, a function is extended, and anything else is replaced
  rcases m.store.lookup? c name with _ | a | id | id
  · exact hnew
  · cases a with
    | native f => exact .throw h _
    | function id =>
        dsimp only
        split
        · refine Safe.bind (.changeStore h (h.toApart.harmless_extend id hp)) fun _ m' h' _ _ => ?_
          exact .pure h' trivial
        · refine .ask (hbindNew _ _ fun q hq => ?_)
          rcases mem_addPattern hq with rfl | hq
          · exact hp
          · exact h.bodies id q hq
    | _ => exact hnew
  · exact hnew
  · exact hnew

theorem safe_evaluateDefn {args : List Value} (h : m.store.Sealed free)
    (hargs : ∀ v ∈ args, m.store.Has v) :
    Safe free inv m.store (Store.Loose free) (evaluateDefn c args m) := by
  unfold evaluateDefn
  split
  case h_1 target parameters forms =>
    cases target.symbol? with
    | none => exact .throwText h _ _
    | some name =>
        have hforms := fun v (hv : v ∈ forms) => hargs v (by simp [hv])
        refine Safe.bind (safe_makePattern h hforms) fun p m1 h1 _ hp => ?_
        refine Safe.bind (safe_extendBinding h1 name hp) fun id m2 h2 _ _ => ?_
        refine Safe.bind (.record h2 _ _) fun _ m3 h3 _ _ => ?_
        exact .pure h3 (Store.loose_atom trivial)
  case h_2 => exact .throw h _

/-! ## All special forms -/

/-- A special form is safe on parts that are there, if a part that is quoted is loose. -/
theorem safe_specialForm (hev : ev.IsSafe free inv) (f : SpecialForm) {parts : List Part}
    (h : m.store.Sealed free) (hparts : PartsThere free inv m.store parts)
    (hquoted : f = .quoteForm → ∀ part, parts = [part] → m.store.Loose free (part m.store)) :
    Safe free inv m.store (Store.Loose free) (f.run ev c parts m) := by
  have hargs := hparts.lookAtAll h
  cases f with
  | ifForm => exact safe_evaluateIf hev h hparts
  | doForm => exact safe_evaluateSequence hev h hparts (Store.loose_atom trivial)
  | quoteForm =>
      refine .ask ?_
      rcases parts with _ | ⟨part, _ | ⟨other, rest⟩⟩
      · exact .throw h _
      · exact .pure h (hquoted rfl part rfl)
      · exact .throw h _
  | andForm | orForm => exact safe_evaluateUntil hev h hparts (Store.loose_atom trivial)
  | letForm => exact safe_evaluateLet hev h hparts
  | fnForm => exact .ask (safe_evaluateFn h hargs)
  | defForm => exact .ask (safe_evaluateDef hev h hargs)
  | defnForm => exact .ask (safe_evaluateDefn h hargs)

/-! ## Texts and modules -/

theorem safe_read {ε : Type} (h : m.store.Sealed free) (t : Form) :
    Safe free inv m.store Store.Has ((allocate fun s => s.ofForm t : Computation ε Value) m) := by
  obtain ⟨hapart, hsince, hthere⟩ := Store.since_ofForm h.toApart t
  refine ⟨h.later hsince.lists hapart, hsince, fun v hv => ?_⟩
  cases hv
  exact hthere

theorem safe_evaluateForms (hev : ev.IsSafe free inv) {forms : List Form} {result : Value}
    (h : m.store.Sealed free) (hresult : m.store.Loose free result) :
    Safe free inv m.store (Store.Loose free) (evaluateForms ev c result forms m) := by
  induction forms generalizing m result with
  | nil => exact .pure h hresult
  | cons form rest ih =>
      refine Safe.bind (safe_read h form) fun expr m1 h1 _ hexpr => ?_
      exact Safe.bind (hev expr c m1 h1 hexpr) fun v m2 h2 _ hv => ih h2 hv

theorem safe_evaluateText (hev : ev.IsSafe free inv) (text : String) (h : m.store.Sealed free) :
    Safe free inv m.store (Store.Loose free) (evaluateText ev text c m) := by
  refine Safe.bind (safe_evaluateForms hev h (Store.loose_atom trivial)) fun v m' h' _ hv => ?_
  cases (parseAll text).error with
  | none => exact .pure h' hv
  | some e => exact .throw h' _

/-- Expressions are evaluated to values that are all loose in the end. -/
theorem safe_evaluateAll (hev : ev.IsSafe free inv) {parts : List Part} (h : m.store.Sealed free)
    (hparts : PartsThere free inv m.store parts) :
    Safe free inv m.store (LooseAll free) (evaluateAll ev c parts m) := by
  induction parts generalizing m with
  | nil => exact .pure h fun _ hv => absurd hv List.not_mem_nil
  | cons part rest ih =>
      refine safe_evaluatePart hev h hparts fun v m' h' hrest hv => ?_
      refine Safe.bind (ih h' hrest) fun vs m'' h'' hsince hvs => ?_
      exact .pure h'' (List.forall_mem_cons.mpr ⟨hsince.loose v hv, hvs⟩)

theorem safe_loadModule (hev : ev.IsSafe free inv) (name source : String) (path : Option Path)
    (h : m.store.Sealed free) :
    Safe free inv m.store (fun _ _ => True) (loadModule ev name source path m) := by
  refine Safe.bind_still h rfl fun root m1 h1 _ => ?_
  refine Safe.bind (safe_newContext h1 name root) fun inner m2 h2 _ _ => ?_
  refine Safe.bind (safe_evaluateText hev source h2) fun _ m3 h3 _ _ => ?_
  refine Safe.bind_still h3 rfl fun _ m4 h4 _ => ?_
  exact Safe.bind (.record h4 _ _) fun _ m5 h5 _ _ => .pure h5 trivial

theorem safe_provideModule (hev : ev.IsSafe free inv) (name : String) (h : m.store.Sealed free) :
    Safe free inv m.store (fun _ _ => True) (provideModule ev name m) := by
  refine Safe.bind_still h rfl fun found m1 h1 _ => ?_
  cases found with
  | some module => exact .pure h1 trivial
  | none =>
      refine Safe.bind_still h1 rfl fun disk m2 h2 _ => ?_
      cases disk.resolve? name with
      | error e => exact .throw h2 _
      | ok path =>
          cases path with
          | none => exact .throw h2 _
          | some path => exact (safe_loadModule hev _ _ _ h2).lift

theorem safe_importModule (hev : ev.IsSafe free inv) (name : String) (qualifier : Option String)
    (h : m.store.Sealed free) :
    Safe free inv m.store (fun _ _ => True) (importModule ev c name qualifier m) := by
  refine Safe.bind (safe_provideModule hev name h) fun module m1 h1 _ _ => ?_
  refine Safe.bind (.changeStore h1 (h1.toApart.harmless_importFrom c module.context _)) ?_
  intro _ m2 h2 _ _
  exact Safe.bind (Safe.record h2 _ _).lift fun _ m3 h3 _ _ => .pure h3 trivial

theorem safe_importForm (hev : ev.IsSafe free inv) {parts : List Part} (h : m.store.Sealed free)
    (hparts : PartsThere free inv m.store parts) :
    Safe free inv m.store (Store.Loose free) (importForm ev c parts m) := by
  unfold importForm
  split
  · refine Safe.bind (safe_evaluateAll hev h hparts).lift fun args m1 h1 _ _ => ?_
    refine .checkNative h1 fun texts => ?_
    cases texts with
    | nil => exact .pure h1 (Store.loose_atom trivial)
    | cons name rest =>
        refine Safe.bind (safe_importModule hev name rest.head? h1) fun module m2 h2 _ _ => ?_
        exact .pure h2 (Store.loose_atom trivial)
  · exact .throw h _

/-! ## Calls of functions -/

/-- The values that a call binds are its arguments. -/
theorem loose_bindings {s : Store} {args : List Value} (hargs : LooseAll free s args)
    (p : Parameters) : ∀ b ∈ p.bindings args, s.Loose free b.2 := by
  intro b hb
  obtain ⟨⟨d, arg⟩, hpair, hname⟩ := List.mem_filterMap.mp hb
  obtain ⟨name, _, rfl⟩ := Option.map_eq_some_iff.mp hname
  exact hargs arg (List.of_mem_zip hpair).2

theorem safe_bindArguments {p : Parameters} {args : List Value} (h : m.store.Sealed free)
    (hargs : LooseAll free m.store args) :
    Safe free inv m.store (fun _ _ => True) (bindArguments c p args m) := by
  have hbound : m.store.Harmless free inv _ :=
    h.toApart.harmless_defineAll c (loose_bindings hargs p)
  refine Safe.bind (.changeStore h hbound) fun _ m' h' hsince _ => ?_
  cases p.rest with
  | none => exact .pure h' trivial
  | some name =>
      have hothers : LooseAll free m'.store (args.drop p.fixed.length) :=
        fun v hv => hargs.later hsince v (List.mem_of_mem_drop hv)
      exact Safe.bind (.makeFinished h' hothers) fun others m'' h'' _ hlist =>
        safe_define h'' c name hlist

/-- A call binds values in a new context and evaluates a body, which is code that is there. -/
theorem safe_applyFunction (hev : ev.IsSafe free inv) (id : FunctionId) {args : List Value}
    {evaluated : Bool} (h : m.store.Sealed free) (hargs : LooseAll free m.store args) :
    Safe free inv m.store (Store.Loose free) (applyFunction ev id args evaluated m) := by
  refine .ask ?_
  cases hselected : selectPattern? (m.store.patterns id) args with
  | none => exact .query h fun _ _ => .throw h _
  | some p =>
      have hbody : m.store.Has p.body := h.bodies id p (List.mem_of_find?_eq_some hselected)
      refine Safe.bind (.record h _ _) fun _ m1 h1 hsince1 _ => ?_
      refine Safe.bind (safe_newContext h1 id.name (some p.context)) fun inner m2 h2 hsince2 _ => ?_
      have hargs2 := (hargs.later hsince1).later hsince2
      refine Safe.bind (safe_bindArguments h2 hargs2) fun _ m3 h3 hsince3 _ => ?_
      exact hev p.body inner m3 h3 (hsince3.has _ (hsince2.has _ (hsince1.has _ hbody)))

/-! ## Traversals -/

/-- Whether calling a loose value with a loose value is safe. -/
def AppliesSafely (free : ListId → Prop) (inv : Store.CollectionInvariant)
    (applyOne : Value → Value → NativeEval Value) : Prop :=
  ∀ (f v : Value) (m : Machine), m.store.Sealed free → m.store.Loose free f → m.store.Loose free v →
    Safe free inv m.store (Store.Loose free) (applyOne f v m)

theorem safe_collect (t : Traversal) {applyOne : Value → Value → NativeEval Value}
    (hone : AppliesSafely free inv applyOne) {f : Value} {id : ListId} {count position : Nat}
    (h : m.store.Sealed free) (hf : m.store.Loose free f) (hid : m.store.Loose free (.list id)) :
    Safe free inv m.store (LooseAll free) (t.collect (applyOne f) id count position m) := by
  induction count generalizing position m with
  | zero => exact .pure h fun _ hv => absurd hv List.not_mem_nil
  | succ count ih =>
      refine .ask ?_
      -- the list is looked at again for every element, as the calls may have changed it
      cases hitem : (m.store.list id).items[position]? with
      | none => exact .pure h fun _ hv => absurd hv List.not_mem_nil
      | some item =>
          have hloose := h.toApart.loose_item hid (List.mem_of_getElem? hitem)
          refine Safe.bind (hone f item m h hf hloose).mapError fun v m1 h1 hsince1 hv => ?_
          have hid1 := hsince1.loose _ hid
          refine Safe.bind (ih h1 (hsince1.loose f hf) hid1) fun others m2 h2 hsince2 hothers => ?_
          have hkept := hsince2.loose _ (hsince1.loose item hloose)
          cases t with
          | map => exact .pure h2 (List.forall_mem_cons.mpr ⟨hsince2.loose v hv, hothers⟩)
          | filter =>
              refine .pure h2 ?_
              split
              · exact List.forall_mem_cons.mpr ⟨hkept, hothers⟩
              · exact hothers

theorem safe_traversal (t : Traversal) {applyOne : Value → Value → NativeEval Value}
    (hone : AppliesSafely free inv applyOne) {args : List Value} (h : m.store.Sealed free)
    (hargs : LooseAll free m.store args) :
    Safe free inv m.store (Store.Loose free) (t.run applyOne args m) := by
  refine .checkNative h fun _ => ?_
  split
  case h_1 f id =>
    split
    · have hf := hargs f (by simp)
      have hid := hargs (.list id) (by simp)
      refine .ask (.bind (safe_collect t hone h hf hid) fun items m' h' _ hitems => ?_)
      exact .makeFinished h' hitems
    · exact .throw h _
  case h_2 => exact .pure h (Store.loose_atom trivial)

/-! ## Calls -/

/-- Whether what stands at the places of a call may be passed to a function: all of it is there, it is
loose unless the function takes its arguments as they are written and does not quote them, and the
invariant allows what the function changes in place. -/
structure PassedTo (free : ListId → Prop) (inv : Store.CollectionInvariant) (s : Store) (f : Value)
    (args : List Part) : Prop where
  there : PartsThere free inv s args
  loose : (∀ g, f = .native g → g.lazy = false) → ∀ part ∈ args, s.Loose free (part s)
  quoted : ∀ g, f = .native g → g.role = .form .quoteForm →
    ∀ part, args = [part] → s.Loose free (part s)
  allowed : ∀ g b, f = .native g → g.role = .builtin b →
    inv.Allows s b (args.map fun part => part s)

/-- Loose values may be passed to any function, if it may change what it changes. -/
theorem passedTo_of_loose {s : Store} {args : List Value} (hargs : LooseAll free s args) {f : Value}
    (hallowed : ∀ g b, f = .native g → g.role = .builtin b → inv.Allows s b args) :
    PassedTo free inv s f (fixedParts args) := by
  have hloose : ∀ part ∈ fixedParts args, s.Loose free (part s) := by
    intro part hpart
    obtain ⟨v, hv, rfl⟩ := List.mem_map.mp hpart
    exact hargs v hv
  refine ⟨partsThere_fixed fun v hv => (hargs v hv).has, fun _ => hloose, ?_, ?_⟩
  · intro g _ _ part hpart
    exact hloose part (hpart ▸ List.mem_cons_self)
  · rw [map_fixedParts]
    exact hallowed

theorem looseAll_map {s : Store} {parts : List Part} (h : ∀ part ∈ parts, s.Loose free (part s)) :
    LooseAll free s (parts.map fun part => part s) := by
  intro v hv
  obtain ⟨part, hpart, rfl⟩ := List.mem_map.mp hv
  exact h part hpart

variable {host : Host}

theorem safe_native (hev : ev.IsSafe free inv) {applyOne : Value → Value → NativeEval Value}
    (hone : AppliesSafely free inv applyOne) {f : Native} {args : List Part} (h : m.store.Sealed free)
    (hf : f.IsStandard) (hargs : PassedTo free inv m.store (.native f) args) :
    Safe free inv m.store (Store.Loose free) (f.run host ev applyOne args c m) := by
  rcases f with ⟨id, name, lazy, role⟩
  have hvalues : lazy = false → LooseAll free m.store (args.map fun part => part m.store) := by
    intro hlazy
    refine looseAll_map (hargs.loose fun g hg => ?_)
    cases hg
    exact hlazy
  cases role with
  | builtin b => exact .ask (safe_builtin h (hvalues hf) b (hargs.allowed _ b rfl rfl))
  | traversal t => exact .ask (safe_traversal t hone h (hvalues hf))
  | form form =>
      refine (safe_specialForm hev form h hargs.there fun hquote => ?_).lift
      exact hargs.quoted _ rfl (by rw [hquote])
  | importModule => exact safe_importForm hev h hargs.there
  | host key => exact hf.elim

/-- What cannot be called is shown in the fault. -/
theorem safe_notCallable (h : m.store.Sealed free) (f : Value) :
    Safe free inv m.store (Store.Loose free)
      ((do throw (.fault (.notCallable (← textOf f))) : NativeEval Value) m) :=
  .bind_still h (congrArg Machine.store (mapError_snd Raised.fault (textOf f) m))
    fun _ _ h' _ => .throw h' _

theorem safe_applyWith (hev : ev.IsSafe free inv) {applyOne : Value → Value → NativeEval Value}
    (hone : AppliesSafely free inv applyOne) {f : Value} {args : List Part} {evaluated : Bool}
    (h : m.store.Sealed free) (hf : m.store.Has f) (hargs : PassedTo free inv m.store f args) :
    Safe free inv m.store (Store.Loose free) (applyWith host ev applyOne f args evaluated c m) := by
  rcases f with a | id | id
  · cases a with
    | native f => exact safe_native hev hone h hf hargs
    | function id =>
        have hvalues := looseAll_map (hargs.loose nofun)
        exact .ask (safe_applyFunction hev id h hvalues).lift
    | _ => exact safe_notCallable h _
  · exact safe_notCallable h _
  · exact safe_notCallable h _

theorem safe_applyOne (hev : ev.IsSafe free inv) (c : ContextId) :
    AppliesSafely free inv (applyOne host ev c) := by
  intro f v m h hf hv
  -- a traversal that is called with one value comes to no elements
  have hnothing : AppliesSafely free inv fun _ _ => (return .nothing : NativeEval Value) :=
    fun _ _ m h _ _ => .pure h (Store.loose_atom trivial)
  have hargs : LooseAll free m.store [v] := by simpa [LooseAll] using hv
  -- and a native that changes a collection takes more values
  have hallowed : ∀ g b, f = .native g → g.role = .builtin b → inv.Allows m.store b [v] :=
    fun _ _ _ _ _ hmutation => by cases hmutation
  exact safe_applyWith hev hnothing h hf.has (passedTo_of_loose hargs hallowed)

theorem safe_applyValues (hev : ev.IsSafe free inv) {f : Value} {args : List Part} {evaluated : Bool}
    (h : m.store.Sealed free) (hf : m.store.Has f) (hargs : PassedTo free inv m.store f args) :
    Safe free inv m.store (Store.Loose free) (applyValues host ev f args evaluated c m) :=
  safe_applyWith hev (safe_applyOne hev c) h hf hargs

/-- A call is safe on expressions that are there, if one that is quoted is loose and the native may
change what it changes. -/
theorem safe_apply (hev : ev.IsSafe free inv) {f : Value} {exprs : List Value}
    (h : m.store.Sealed free) (hf : m.store.Has f) (hexprs : ∀ expr ∈ exprs, m.store.Has expr)
    (hquoted : ∀ id name, f = .native ⟨id, name, true, .form .quoteForm⟩ →
      ∀ expr, exprs = [expr] → m.store.Loose free expr)
    (hallowed : ∀ id name b, f = .native ⟨id, name, false, .builtin b⟩ → ∀ args m',
      evaluateAll ev c (fixedParts exprs) m = (.ok args, m') → inv.Allows m'.store b args) :
    Safe free inv m.store (Store.Loose free) (apply host ev f (fixedParts exprs) c m) := by
  have hthere : PartsThere free inv m.store (fixedParts exprs) := partsThere_fixed hexprs
  -- all but a lazy native is called with the values of the expressions
  have heager : Safe free inv m.store (Store.Loose free) ((do
      let args ← evaluateAll ev c (fixedParts exprs)
      applyValues host ev f (fixedParts args) true c : NativeEval Value) m) := by
    refine Safe.bind_run (safe_evaluateAll hev h hthere).lift fun args m' hrun h' hsince hargs => ?_
    refine safe_applyValues hev h' (hsince.has f hf) (passedTo_of_loose hargs fun g b hg hrole => ?_)
    obtain ⟨id, name, lazy, role⟩ := g
    cases hg
    cases hrole
    cases hf
    exact hallowed id name b rfl args m' (liftM_eq_ok hrun)
  rcases f with a | id | id
  · cases a with
    | native g =>
        rcases g with ⟨id, name, lazy, role⟩
        cases lazy with
        | false => exact heager
        | true =>
            -- a lazy native gets the expressions as they are; of these only `quote` answers one
            refine safe_applyValues hev h hf ⟨hthere, fun hlazy => ?_, ?_, ?_⟩
            · cases hlazy _ rfl
            · intro g hg hrole part hpart
              cases hg
              cases hrole
              obtain ⟨expr, rfl, rfl⟩ := List.map_eq_singleton_iff.mp hpart
              exact hquoted id name rfl expr rfl
            · intro g b hg hrole
              cases hg
              cases hrole
              cases hf
    | function id => exact heager
    | _ => exact safe_notCallable h _
  · exact safe_notCallable h _
  · exact safe_notCallable h _

/-! ## One step -/

theorem has_headValue (h : m.store.Sealed free) {head f : Value} (hhead : m.store.Has head)
    (hf : m.store.headValue? c head = some f) : m.store.Has f := by
  unfold Store.headValue? at hf
  split at hf
  · exact (h.toApart.loose_lookup hf).has
  · cases hf
    exact hhead

theorem safe_call (hev : ev.IsSafe free inv) {head : Value} {exprs : List Value}
    (h : m.store.Sealed free) (hhead : m.store.Has head) (hexprs : ∀ v ∈ exprs, m.store.Has v)
    (hquoted : ∀ id name,
      m.store.headValue? c head = some (.native ⟨id, name, true, .form .quoteForm⟩) →
      ∀ expr, exprs = [expr] → m.store.Loose free expr)
    (hallowed : ∀ id name b,
      m.store.headValue? c head = some (.native ⟨id, name, false, .builtin b⟩) → ∀ args m',
      evaluateAll ev c (fixedParts exprs) m = (.ok args, m') → inv.Allows m'.store b args) :
    Safe free inv m.store (Store.Loose free) ((do
      let f ← resolveHead head c
      apply host ev f (fixedParts exprs) c : NativeEval Value) m) := by
  have hsame := resolveHead_snd head c m
  rcases hresolve : resolveHead head c m with ⟨e | f, m'⟩
  · rw [hresolve] at hsame
    subst hsame
    rw [Computation.bind_of_error (liftM_of_error hresolve)]
    exact .throw h (Raised.fault e)
  · rw [hresolve] at hsame
    subst hsame
    have hf := headValue?_of_resolveHead hresolve
    rw [Computation.bind_of_ok (liftM_of_ok hresolve)]
    refine safe_apply hev h (has_headValue h hhead hf) hexprs (fun id name hquote => ?_)
      fun id name b hchange => ?_
    · exact hquoted id name (hquote ▸ hf)
    · exact hallowed id name b (hchange ▸ hf)

/-- A step of evaluation is safe if the part that it may quote is loose and what it may change in place
keeps the invariant. -/
theorem safe_step (hev : ev.IsSafe free inv) {expr : Value} (h : m.store.Sealed free)
    (hexpr : m.store.Has expr)
    (hquoted : ∀ x, m.store.IsFormCall c .quoteForm [x] expr → m.store.Loose free x)
    (hallowed : ∀ id name b exprs,
      m.store.IsNativeCall c ⟨id, name, false, .builtin b⟩ exprs expr → ∀ args m',
      evaluateAll ev c (fixedParts exprs) m = (.ok args, m') → inv.Allows m'.store b args) :
    Safe free inv m.store (Store.Loose free) (step host ev expr c m) := by
  rcases expr with a | id | id
  · cases a with
    | symbol name =>
        refine Safe.lift (.still h rfl fun v hv => ?_)
        exact h.toApart.loose_lookup (Store.lookup?_of_lookup hv)
    | _ => exact .pure h (Store.loose_atom hexpr)
  · refine .ask ?_
    -- a finished list is its own value, and any other one that is not empty is a call
    rcases hcell : m.store.list id with ⟨items, evaluated⟩
    dsimp only
    cases evaluated with
    | true => exact .pure h (h.toApart.loose_finished hexpr (congrArg ListCell.evaluated hcell))
    | false =>
        have hitems : ∀ v ∈ items, m.store.Has v := by
          have hthere := h.items id
          rwa [hcell] at hthere
        cases items with
        | nil => exact .throw h _
        | cons head exprs =>
            obtain ⟨hhead, hexprs⟩ := List.forall_mem_cons.mp hitems
            refine safe_call hev h hhead hexprs (fun native name hquote expr hexpr => hquoted expr ?_)
              fun native name b hchange => hallowed native name b exprs ?_
            · exact ⟨native, name, id, head, rfl, by rw [hcell, hexpr], hquote⟩
            · exact ⟨id, head, rfl, hcell, hchange⟩
  · exact .pure h (h.toApart.loose_dict hexpr)

end

end DispatchLisp
