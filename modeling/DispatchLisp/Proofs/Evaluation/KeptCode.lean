import DispatchLisp.Proofs.Evaluation.FirstError
import DispatchLisp.Proofs.Evaluation.Literal
import DispatchLisp.Proofs.Evaluation.Sealing
import DispatchLisp.Proofs.Module.Reload
import DispatchLisp.Proofs.Session

/-!
# Proofs.Evaluation.KeptCode — code that is not quoted is never changed

Evaluation is watched at the places where a `quote` would hand out code that is not free: an evaluator
that fails there (`evaluateUnless`) is safe, and as the evaluator handles no errors, a run in which it
does not come to such a place is what the evaluator does. So a run that does not hand out code that is
not free leaves all of it as it is (`evaluation_keeps_code`): the expressions that were read, and the
bodies of functions, with the same elements at every level. A quoted list is code and value at once,
and `set` changes it wherever it stands (`quoted_code_is_changed`).
-/

namespace DispatchLisp

variable {free : ListId → Prop} {inv : Store.CollectionInvariant} {α : Type}

/-! ## Evaluation that is watched -/

/-- What tells at which places an evaluation is made to fail. -/
abbrev EvaluationPlace := Value → ContextId → Machine → Bool

/-- Evaluates an expression, unless it comes to a place, which is a fault. -/
def evaluateUnless (host : Host) (place : EvaluationPlace) (f : Fault) : Nat → Evaluator
  | 0 => fun _ _ => throw .tooDeep
  | depth + 1 =>
    Evaluator.failing (fun expr c => (step host (evaluateUnless host place f depth) expr c).guarded)
      place f

/-- Whether a computation never comes to a place: it does not end in a fault just because evaluations
at the place do. -/
def Avoids (host : Host) (depth : Nat) (place : EvaluationPlace) (X : Evaluator → Eval α)
    (m : Machine) : Prop :=
  ∃ f, (X (evaluateUnless host place f depth) m).1 ≠ .error f

/-- Whether a computation does the same with evaluators that do the same, or else ends in the fault
that one of them ends in. -/
def Follows (X : Evaluator → Eval α) : Prop :=
  ∀ (ev ev' : Evaluator) (f : Fault),
    (∀ expr c m, ev' expr c m = ev expr c m ∨ (ev' expr c m).1 = .error f) →
    ∀ m, X ev' m = X ev m ∨ (X ev' m).1 = .error f

theorem TransparentEval.follows {X : Evaluator → Eval α} (hX : TransparentEval X) : Follows X := by
  intro ev ev' f h m
  rcases Transparent.agrees hX h m with hsame | hfault
  · have hrun := guarded_congr hsame
    rw [guarded_liftM, guarded_liftM] at hrun
    exact .inl hrun
  · rcases hrun : X ev' m with ⟨e | a, m'⟩
    · rw [liftM_of_error hrun] at hfault
      cases hfault
      exact .inr rfl
    · rw [liftM_of_ok hrun] at hfault
      cases hfault

/-- A reload goes on after a fault only to put the earlier bindings back. -/
theorem follows_reloadContext (c : ContextId) (source : String) :
    Follows fun ev => reloadContext ev c source := by
  intro ev ev' f h m
  have htext := (TransparentEval.evaluateText source c).follows ev ev' f h (m.emptied c)
  dsimp only at htext ⊢
  rcases htext with hsame | hfault
  · rcases hrun : evaluateText ev source c (m.emptied c) with ⟨e | v, m'⟩
    · rw [hrun] at hsame
      rw [reloadContext_of_error hrun, reloadContext_of_error hsame]
      exact .inl rfl
    · rw [hrun] at hsame
      rw [reloadContext_of_ok hrun, reloadContext_of_ok hsame]
      exact .inl rfl
  · have hrun : evaluateText ev' source c (m.emptied c) =
        (.error f, (evaluateText ev' source c (m.emptied c)).2) := Prod.ext hfault rfl
    rw [reloadContext_of_error hrun]
    exact .inr rfl

/-- Up to the first place, evaluation that is watched is evaluation. -/
theorem evaluateUnless_agrees {host : Host} (hhost : host.LetsThrough) (place : EvaluationPlace)
    (f : Fault) (depth : Nat) (expr : Value) (c : ContextId) (m : Machine) :
    evaluateUnless host place f depth expr c m = evaluate host depth expr c m ∨
      (evaluateUnless host place f depth expr c m).1 = .error f := by
  induction depth generalizing expr c m with
  | zero => exact .inl rfl
  | succ depth ih =>
      rw [evaluateUnless, evaluate]
      cases hplace : place expr c m with
      | true => exact .inr (by rw [Evaluator.failing_of_place hplace])
      | false =>
          rw [Evaluator.failing_of_not_place hplace]
          rcases (Transparent.step hhost expr c).agrees ih m with hsame | hfault
          · exact .inl (guarded_congr hsame)
          · have hrun : step host (evaluateUnless host place f depth) expr c m =
                (.error (.fault f), (step host (evaluateUnless host place f depth) expr c m).2) :=
              Prod.ext hfault rfl
            rw [guarded_congr (y := throw (.fault f)) hrun]
            exact .inr rfl

/-- A computation that avoids a place does with the evaluator what it does when it is watched. -/
theorem eq_of_avoids {host : Host} (hhost : host.LetsThrough) {depth : Nat} {place : EvaluationPlace}
    {X : Evaluator → Eval α} (hX : Follows X) {m : Machine} {f : Fault}
    (h : (X (evaluateUnless host place f depth) m).1 ≠ .error f) :
    X (evaluateUnless host place f depth) m = X (evaluate host depth) m :=
  (hX _ _ f (evaluateUnless_agrees hhost place f depth) m).resolve_right h

/-! ## Watching what is quoted -/

/-- Whether a place is wherever code that is not free would be quoted. -/
def WatchesQuotes (free : ListId → Prop) (place : EvaluationPlace) : Prop :=
  ∀ (m : Machine) (c : ContextId) (expr x : Value), m.store.IsFormCall c .quoteForm [x] expr →
    (∃ id, m.store.Holds x id ∧ (m.store.list id).evaluated = false ∧ ¬ free id) →
    place expr c m = true

/-- Whether a place is wherever a native would change a collection against an invariant, given the
values that the parts of the call come to. -/
def WatchesChanges (inv : Store.CollectionInvariant) (host : Host) (place : EvaluationPlace) : Prop :=
  ∀ (m : Machine) (c : ContextId) (expr : Value) (id : Nat) (name : String) (b : Builtin)
    (exprs : List Value), m.store.IsNativeCall c ⟨id, name, false, .builtin b⟩ exprs expr →
    ∀ (depth : Nat) (args : List Value) (m' : Machine),
    evaluateAll (evaluate host depth) c (fixedParts exprs) m = (.ok args, m') →
    ¬ inv.Allows m'.store b args → place expr c m = true

theorem watchesChanges_nothing (host : Host) (place : EvaluationPlace) :
    WatchesChanges .nothing host place :=
  fun _ _ _ _ _ _ _ _ _ _ _ _ hnot => absurd (fun _ _ _ => trivial) hnot

/-- An evaluation that fails where code would be handed out, or where a collection would be changed
against the invariant, is safe. -/
theorem isSafe_evaluateUnless {host : Host} (hhost : host.LetsThrough) {place : EvaluationPlace}
    (hplace : WatchesQuotes free place) (hchanges : WatchesChanges inv host place) (f : Fault)
    (depth : Nat) : (evaluateUnless host place f depth).IsSafe free inv := by
  induction depth with
  | zero => exact fun expr c m h _ => .throw h Fault.tooDeep
  | succ depth ih =>
      intro expr c m h hexpr
      rw [evaluateUnless]
      cases hwatched : place expr c m with
      | true =>
          rw [Evaluator.failing_of_place hwatched]
          exact .throw h f
      | false =>
          rw [Evaluator.failing_of_not_place hwatched]
          refine (safe_step ih h hexpr (fun x hquote => ?_) ?_).guarded
          · have hthere : m.store.Has x := by
              obtain ⟨_, _, id, head, _, hcell, _⟩ := hquote
              exact h.items id x (by simp [hcell])
            refine ⟨hthere, fun id hholds => ?_⟩
            by_contra hcode
            rw [not_or, Bool.not_eq_true] at hcode
            have hplaced := hplace m c expr x hquote ⟨id, hholds, hcode⟩
            rw [hwatched] at hplaced
            cases hplaced
          · intro id name b exprs hcall args m' hvalues
            by_contra hnot
            -- the values are those that the evaluator comes to
            have hsame := eq_of_avoids hhost
              (TransparentEval.evaluateAll (fixedParts exprs)).follows (m := m) (f := f)
              (fun hfault => by rw [hvalues] at hfault; cases hfault)
            rw [hvalues] at hsame
            have hplaced := hchanges m c expr id name b exprs hcall depth args m' hsame.symm hnot
            rw [hwatched] at hplaced
            cases hplaced

/-- Whether an expression is a call of `quote` with a collection as its part. -/
def quotesCollection : EvaluationPlace := fun expr c m =>
  match expr with
  | .list id =>
    match (m.store.list id).items with
    | [_, .atom _] => false
    | head :: _ =>
      match m.store.headValue? c head with
      | some (.native f) => decide (f.role = .form .quoteForm)
      | _ => false
    | [] => false
  | _ => false

/-- Only a collection holds code. -/
theorem watchesQuotes_quotesCollection (free : ListId → Prop) :
    WatchesQuotes free quotesCollection := by
  intro m c expr x hquote hcode
  obtain ⟨nativeId, name, id, head, rfl, hcell, hhead⟩ := hquote
  obtain ⟨other, hholds, _⟩ := hcode
  cases hholds <;> simp [quotesCollection, hcell, hhead]

/-! ## Code that has been read -/

namespace Store

mutual

/-- Code that is made from a form holds new lists only. -/
theorem holds_ofForm {s later : Store} {id : ListId} : (t : Form) → Grows (s.ofForm t).2 later →
    later.Holds (s.ofForm t).1 id → s.lists.size ≤ id.index
  | .int _ | .float _ | .string _ | .keyword _ | .symbol _ => fun _ hholds => by cases hholds
  | .list items => fun hgrow hholds => by
      have hbefore := (seenAs_ofForms s items).1
      have hmade := grows_newList (s.ofForms items).2 (s.ofForms items).1 false
      have hcell : later.list ⟨(s.ofForms items).2.lists.size⟩ = ⟨(s.ofForms items).1, false⟩ := by
        rw [← list_newList (s.ofForms items).2 (s.ofForms items).1 false]
        exact hgrow.list_eq (by simp [ofForm, newList])
      cases hholds with
      | self => exact hbefore.size_lists
      | item hv hholds =>
          rw [hcell] at hv
          exact holds_ofForms items (hmade.trans hgrow) hv hholds

theorem holds_ofForms {s later : Store} {id : ListId} {v : Value} : (items : List Form) →
    Grows (s.ofForms items).2 later → v ∈ (s.ofForms items).1 → later.Holds v id →
    s.lists.size ≤ id.index
  | [] => fun _ hv => absurd hv List.not_mem_nil
  | item :: items => fun hgrow hv hholds => by
      have hfirst := (seenAs_ofForm s item).1
      have hrest := (seenAs_ofForms (s.ofForm item).2 items).1
      rcases List.mem_cons.mp hv with rfl | hv
      · exact holds_ofForm item (hrest.trans hgrow) hholds
      · exact Nat.le_trans hfirst.size_lists (holds_ofForms items hgrow hv hholds)

end

/-- Code that has just been read is sealed off: no value leads to any list that it holds. -/
theorem sealed_ofForm {s : Store} (h : s.Apart free) (t : Form) :
    (s.ofForm t).2.Sealed fun id => ¬ (s.ofForm t).2.Holds (s.ofForm t).1 id := by
  -- everything is free that is not made in reading
  have hold : s.Apart fun id => id.index < s.lists.size ∨ (s.ofForm t).2.lists.size ≤ id.index :=
    h.of_size fun id hid => .inl hid
  obtain ⟨hapart, _, hthere⟩ := apart_ofForm hold t
  refine ⟨hapart.mono fun id hid hholds => ?_, fun id _ new hnew hholds => ?_⟩
  · have hnew := holds_ofForm t (.refl _) hholds
    have hmade := hapart.size_of_holds hholds hthere
    omega
  · have hmade := hapart.size_of_holds hholds hthere
    omega

end Store

/-! ## What may happen later -/

/-- What may have happened from one state to a later one while evaluations never came to a place:
code was read, expressions that were there and texts were evaluated, in any context, and modules were
loaded and reloaded. -/
inductive Later (host : Host) (place : EvaluationPlace) (m : Machine) : Machine → Prop where
  | now : Later host place m m
  | read {m' : Machine} (t : Form) :
      Later host place m m' → Later host place m { m' with store := (m'.store.ofForm t).2 }
  | evaluate {m' : Machine} (depth : Nat) {expr : Value} {c : ContextId} :
      Later host place m m' → m'.store.Has expr →
      Avoids host depth place (fun ev => ev expr c) m' →
      Later host place m (evaluate host depth expr c m').2
  | text {m' : Machine} (depth : Nat) {code : String} {c : ContextId} :
      Later host place m m' → Avoids host depth place (fun ev => evaluateText ev code c) m' →
      Later host place m (evaluateText (DispatchLisp.evaluate host depth) code c m').2
  | load {m' : Machine} (depth : Nat) {name source : String} {path : Option Path} :
      Later host place m m' → Avoids host depth place (fun ev => loadModule ev name source path) m' →
      Later host place m (loadModule (DispatchLisp.evaluate host depth) name source path m').2
  | reload {m' : Machine} (depth : Nat) {source : String} {c : ContextId} :
      Later host place m m' → Avoids host depth place (fun ev => reloadContext ev c source) m' →
      Later host place m (reloadContext (DispatchLisp.evaluate host depth) c source m').2

/-- A reload binds the values of the source or, after a fault, those from before. -/
theorem safe_reloadContext {ev : Evaluator} (hev : ev.IsSafe free inv) {m : Machine}
    (h : m.store.Sealed free) (c : ContextId) (source : String) :
    Safe free inv m.store (fun _ _ => True) (reloadContext ev c source m) := by
  have hemptied : m.store.Harmless free inv (m.emptied c).store :=
    h.toApart.harmless_replaceTable c fun _ hb => absurd hb List.not_mem_nil
  have htext := safe_evaluateText hev source (h.harmless hemptied) (c := c)
  have hsince := hemptied.since.trans htext.since
  rcases hrun : evaluateText ev source c (m.emptied c) with ⟨e | v, m'⟩
  · rw [hrun] at htext hsince
    rw [reloadContext_of_error hrun]
    have hbefore : m'.store.Harmless free inv (m'.withTable c (m.store.context c).table).store :=
      htext.isSealed.toApart.harmless_replaceTable c fun b hb =>
        hsince.loose _ (h.bound c b hb)
    exact ⟨htext.isSealed.harmless hbefore, hsince.trans hbefore.since, fun _ _ => trivial⟩
  · rw [hrun] at htext hsince
    rw [reloadContext_of_ok hrun]
    obtain ⟨hpropagated, hlater⟩ := htext.isSealed.toApart.apart_propagate c
    exact ⟨htext.isSealed.later hlater.lists hpropagated, hsince.trans hlater, fun _ _ => trivial⟩

/-- A computation that avoids the places where an evaluation would not be safe is safe. -/
theorem safe_of_avoids {host : Host} (hhost : host.LetsThrough) {place : EvaluationPlace}
    (hplace : WatchesQuotes free place) (hchanges : WatchesChanges inv host place) {depth : Nat}
    {X : Evaluator → Eval α} (hX : Follows X) {m : Machine} (havoid : Avoids host depth place X m)
    {Wanted : Store → α → Prop}
    (hsafe : ∀ ev : Evaluator, ev.IsSafe free inv → Safe free inv m.store Wanted (X ev m)) :
    Safe free inv m.store Wanted (X (evaluate host depth) m) := by
  obtain ⟨f, hf⟩ := havoid
  rw [← eq_of_avoids hhost hX hf]
  exact hsafe _ (isSafe_evaluateUnless hhost hplace hchanges f depth)

/-- Whatever happens later, a sealed store stays sealed, and what could be relied on still can. -/
theorem Later.safe {host : Host} (hhost : host.LetsThrough) {place : EvaluationPlace}
    (hplace : WatchesQuotes free place) (hchanges : WatchesChanges inv host place) {m m' : Machine}
    (h : Later host place m m') (hsealed : m.store.Sealed free) :
    m'.store.Sealed free ∧ m.store.Since free inv m'.store := by
  induction h with
  | now => exact ⟨hsealed, .refl _⟩
  | read t _ ih =>
      obtain ⟨hapart, hsince, _⟩ := Store.since_ofForm ih.1.toApart t
      exact ⟨ih.1.later hsince.lists hapart, ih.2.trans hsince⟩
  | evaluate depth _ hexpr havoid ih =>
      have hrun := safe_of_avoids hhost hplace hchanges (TransparentEval.evaluate _ _).follows havoid
        fun ev hev => hev _ _ _ ih.1 hexpr
      exact ⟨hrun.isSealed, ih.2.trans hrun.since⟩
  | text depth _ havoid ih =>
      have hrun := safe_of_avoids hhost hplace hchanges (TransparentEval.evaluateText _ _).follows havoid
        fun ev hev => safe_evaluateText hev _ ih.1
      exact ⟨hrun.isSealed, ih.2.trans hrun.since⟩
  | load depth _ havoid ih =>
      have hrun := safe_of_avoids hhost hplace hchanges (TransparentEval.loadModule _ _ _).follows havoid
        fun ev hev => safe_loadModule hev _ _ _ ih.1
      exact ⟨hrun.isSealed, ih.2.trans hrun.since⟩
  | reload depth _ havoid ih =>
      have hrun := safe_of_avoids hhost hplace hchanges (follows_reloadContext _ _) havoid
        fun ev hev => safe_reloadContext hev ih.1 _ _
      exact ⟨hrun.isSealed, ih.2.trans hrun.since⟩

theorem Later.keeps {host : Host} (hhost : host.LetsThrough) {place : EvaluationPlace}
    (hplace : WatchesQuotes free place) {m m' : Machine} (h : Later host place m m')
    (hsealed : m.store.Sealed free) :
    m'.store.Sealed free ∧ m.store.Since free .nothing m'.store :=
  h.safe hhost hplace (watchesChanges_nothing host place) hsealed

/-! ## A new interpreter -/

namespace Store

theorem apart_empty : Store.empty.Apart free := by
  constructor
  · intro id v hv
    cases hv
  · intro id _ v hv
    cases hv
  · intro id e he
    cases he
  · intro id p hp
    cases hp
  · intro c b hb
    cases hb

theorem apart_defineAll {s : Store} (h : s.Apart free) (c : ContextId)
    {entries : List (String × Value)} (hentries : ∀ b ∈ entries, s.Loose free b.2) :
    (s.defineAll c entries).Apart free := by
  have hdefined : Harmless free .nothing s _ := h.harmless_defineAll c hentries
  exact hdefined.apart

theorem apart_defineNative {s : Store} (h : s.Apart free) (c : ContextId) (name : String)
    {lazy : Bool} {role : NativeRole} (hnative : Native.IsStandard ⟨s.natives, name, lazy, role⟩) :
    (s.defineNative c name lazy role).2.Apart free := by
  have hcounted : Harmless free .nothing s { s with natives := s.natives + 1 } :=
    h.harmless_same rfl rfl rfl rfl
  have hmade : Has { s with natives := s.natives + 1 } (.native ⟨s.natives, name, lazy, role⟩) :=
    hnative
  have hentries : ∀ b ∈ [(name, Value.native ⟨s.natives, name, lazy, role⟩)],
      Loose free { s with natives := s.natives + 1 } b.2 :=
    List.forall_mem_singleton.mpr (loose_atom hmade)
  exact apart_defineAll hcounted.apart c hentries

theorem apart_defineNatives {s : Store} (h : s.Apart free) (c : ContextId)
    {natives : List (String × Bool × NativeRole)}
    (hnatives : ∀ id, ∀ native ∈ natives,
      Native.IsStandard ⟨id, native.1, native.2.1, native.2.2⟩) :
    (s.defineNatives c natives).Apart free := by
  induction natives generalizing s with
  | nil => exact h
  | cons native rest ih =>
      have hfirst := apart_defineNative h c native.1 (hnatives s.natives native List.mem_cons_self)
      exact ih hfirst fun id other hother => hnatives id other (List.mem_cons_of_mem _ hother)

theorem isStandard_rootNatives (id : Nat) :
    ∀ native ∈ rootNatives, Native.IsStandard ⟨id, native.1, native.2.1, native.2.2⟩ := by
  intro native hnative
  simp only [rootNatives, List.mem_append, List.mem_map] at hnative
  rcases hnative with ((⟨form, _, rfl⟩ | ⟨b, _, rfl⟩) | ⟨t, _, rfl⟩) | ⟨b, _, rfl⟩ <;> rfl

/-- A new root context binds natives of the language, types and constants. -/
theorem apart_newRoot {s : Store} (h : s.Apart free) : s.newRoot.2.Apart free := by
  have hcontext : Harmless free .nothing s _ := h.harmless_newContext rootName none
  have hnatives : s.withNatives.Apart free :=
    apart_defineNatives hcontext.apart _ isStandard_rootNatives
  have htypes : ∀ b ∈ rootTypes, s.withNatives.Loose free b.2 := by
    intro b hb
    obtain ⟨name, _, rfl⟩ := List.mem_map.mp hb
    exact loose_atom trivial
  rw [newRoot_eq]
  refine apart_defineAll (apart_defineAll hnatives s.newRoot.1 htypes) s.newRoot.1 fun b hb => ?_
  simp only [rootConstants, List.mem_cons, List.not_mem_nil, or_false] at hb
  rcases hb with rfl | rfl | rfl <;> exact loose_atom trivial

end Store

/-- In a new interpreter no value leads to code. -/
theorem sealed_newSession (host : Host) : (newSession host).store.Sealed fun _ => False :=
  ⟨Store.apart_defineNative (Store.apart_newRoot Store.apart_empty) firstRoot "import" rfl,
    fun _ hfree => hfree.elim⟩

/-! ## Code that is kept -/

/-- Evaluation changes no code but code that `quote` hands out. Given any lists of code that may be
handed out, and with them all later ones if there are any, let no value lead to other code: in a new
interpreter no value leads to code at all, and code that has been read is held by no value, nor is any
list of it. As long as `quote` hands out no other code, values lead to no other code, all of it has
the elements that it had, at every level, and so an expression that was read and the body of a
function are seen as the tree that they were, in whatever context code is evaluated. -/
theorem evaluation_keeps_code (natives : Natives) :
    ((newSession natives.host).store.Sealed fun _ => False) ∧
    (∀ (free : ListId → Prop) (s : Store) (t : Form), s.Sealed free →
      (s.ofForm t).2.Sealed free ∧
      ((s.ofForm t).2.Sealed fun id => ¬ (s.ofForm t).2.Holds (s.ofForm t).1 id) ∧
      (s.ofForm t).2.IsCode (s.ofForm t).1 t) ∧
    ∀ (free : ListId → Prop) (place : EvaluationPlace) (m m' : Machine),
      m.store.Sealed free → WatchesQuotes free place → Later natives.host place m m' →
      m'.store.Sealed free ∧
      (∀ id, (m.store.list id).evaluated = false → ¬ free id →
        m'.store.list id = m.store.list id) ∧
      (∀ v t, m.store.IsCode v t → (∀ id, m.store.Holds v id → ¬ free id) →
        m'.store.IsCode v t) ∧
      ∀ f, ∀ p ∈ m.store.patterns f, ∀ t, m.store.IsCode p.body t →
        (∀ id, m.store.Holds p.body id → ¬ free id) → m'.store.IsCode p.body t := by
  refine ⟨sealed_newSession _, fun free s t hsealed => ?_, ?_⟩
  · have hread := Store.apart_ofForm hsealed.toApart t
    exact ⟨hsealed.later hread.2.1.lists hread.1, Store.sealed_ofForm hsealed.toApart t,
      s.isCode_ofForm t⟩
  · intro free place m m' hsealed hplace hlater
    obtain ⟨hkept, hsince⟩ := hlater.keeps natives.letsThrough hplace hsealed
    have hcode : ∀ v t, m.store.IsCode v t → (∀ id, m.store.Holds v id → ¬ free id) →
        m'.store.IsCode v t :=
      fun v t hv hfree => hv.of_lists fun id hholds hcode => hsince.same id hcode (hfree id hholds)
    exact ⟨hkept, hsince.same, hcode, fun f p _ t => hcode p.body t⟩

/-- The state in which a form has been read, and what was read. -/
def Machine.reading (m : Machine) (t : Form) : Value × Machine :=
  let (v, store) := m.store.ofForm t
  (v, { m with store })

/-- The form of a program that changes a list that its code makes. -/
def changesOwnList : Form :=
  .list [.symbol "set", .list [.symbol "list", .int 1, .int 2], .int 0, .int 9]

/-- The form of a program that changes a list that it quotes. -/
def changesQuotedList : Form :=
  .list [.symbol "set", .list [.symbol "quote", .list [.int 1, .int 2]], .int 0, .int 9]

/-- No functions of a host. -/
def noNatives : Natives := fun _ _ _ => .answer .nothing

/-- A program that changes a list that its code makes has the same code after it has run. -/
theorem evaluation_keeps_code_of_list :
    let program := (newSession noNatives.host).reading changesOwnList
    (evaluate noNatives.host 10 program.1 firstRoot program.2).2.store.IsCode program.1
      changesOwnList := by
  obtain ⟨hnew, hread, hkeeps⟩ := evaluation_keeps_code noNatives
  obtain ⟨hsealed, _, hcode⟩ := hread _ _ changesOwnList hnew
  have hthere := (Store.apart_ofForm hnew.toApart changesOwnList).2.2
  have havoid : Avoids noNatives.host 10 quotesCollection
      (fun ev => ev ((newSession noNatives.host).reading changesOwnList).1 firstRoot)
      ((newSession noNatives.host).reading changesOwnList).2 := by
    refine ⟨.tooDeep, fun hfault => ?_⟩
    have hanswer : (evaluateUnless noNatives.host quotesCollection .tooDeep 10
        ((newSession noNatives.host).reading changesOwnList).1 firstRoot
        ((newSession noNatives.host).reading changesOwnList).2).1.isOk = true := by
      decide +kernel
    rw [hfault] at hanswer
    cases hanswer
  exact (hkeeps _ _ _ _ hsealed (watchesQuotes_quotesCollection _)
    (.evaluate 10 .now hthere havoid)).2.2.1 _ _ hcode fun _ _ hfree => hfree

/-- The text of what a session answers, if it is a value. -/
def answerText? (m : Machine) (code : String) : Option String :=
  match Interpreter.eval noNatives.host firstRoot code m with
  | (.ok v, m') => m'.store.render? v
  | (.error _, _) => none

/-- A program that changes a list that it quotes has other code after it has run, and a function whose
body is a quoted list answers what the list has been changed to. -/
theorem quoted_code_is_changed :
    (let program := (newSession noNatives.host).reading changesQuotedList
      let after := (evaluate noNatives.host 10 program.1 firstRoot program.2).2
      program.2.store.render? program.1 = some "(set (quote (1 2)) 0 9)" ∧
        after.store.render? program.1 = some "(set (quote (9 2)) 0 9)") ∧
    answerText? (newSession noNatives.host) "(defn f [] (quote (1 2))) (f)" = some "(1 2)" ∧
    answerText? (newSession noNatives.host) "(defn f [] (quote (1 2))) (set (f) 0 9) (f)" =
      some "(9 2)" := by
  decide +kernel

end DispatchLisp
