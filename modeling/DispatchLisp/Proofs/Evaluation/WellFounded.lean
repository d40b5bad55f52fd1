import DispatchLisp.Proofs.Evaluation.KeptCode
import DispatchLisp.Proofs.Store.Containment

/-!
# Proofs.Evaluation.WellFounded — collections stay well-founded

Evaluation makes collections out of values that are there, which keeps containment acyclic. Only `set`
and `put` change a collection that may be found in other ones by then. So evaluation is watched where
one of them would put a value into a collection that is found in the value, itself included
(`WatchesCycles`). A run that does not come to such a place keeps containment acyclic, and so do all
programs without `set` and `put`; then `str` and `=` end on every value (`containment_stays_acyclic`).
-/

namespace DispatchLisp

/-! ## Watching changes of collections -/

/-- Whether an expression is a call of `set` or `put` whose parts come to a collection, a position or
key, and a value in which the collection is found. -/
def MakesCycle (host : Host) (expr : Value) (c : ContextId) (m : Machine) : Prop :=
  ∃ (id : Nat) (name : String) (b : Builtin) (exprs : List Value) (depth : Nat)
    (collection key v : Value) (m' : Machine),
    (b = .set ∨ b = .put) ∧ m.store.IsNativeCall c ⟨id, name, false, .builtin b⟩ exprs expr ∧
    evaluateAll (evaluate host depth) c (fixedParts exprs) m = (.ok [collection, key, v], m') ∧
    m'.store.Reaches v collection

/-- Whether a place is wherever that is so. -/
def WatchesCycles (host : Host) (place : EvaluationPlace) : Prop :=
  ∀ expr c m, MakesCycle host expr c m → place expr c m = true

/-- Containment stays acyclic unless the collection that is changed is found in the new value. -/
theorem allows_acyclicity {s : Store} {b : Builtin} {args : List Value}
    (h : b = .set ∨ b = .put → ∀ collection key v, args = [collection, key, v] →
      ¬ s.Reaches v collection) : Store.acyclicity.Allows s b args := by
  intro s' hmutation hs
  cases hmutation with
  | set hset => exact (Store.acyclic_setItem_iff hset hs).mpr (h (.inl rfl) _ _ _ rfl)
  | put hput => exact hs.setKey hput (h (.inr rfl) _ _ _ rfl)

theorem WatchesCycles.watchesChanges {host : Host} {place : EvaluationPlace}
    (h : WatchesCycles host place) : WatchesChanges Store.acyclicity host place := by
  intro m c expr id name b exprs hcall depth args m' hvalues hnot
  by_contra hplace
  refine hnot (allows_acyclicity fun hb collection key v hargs hway => hplace ?_)
  subst hargs
  exact h expr c m ⟨id, name, b, exprs, depth, collection, key, v, m', hb, hcall, hvalues, hway⟩

/-- Whether an expression is a call of `set` or `put`. -/
def changesCollection : EvaluationPlace := fun expr c m =>
  match expr with
  | .list id =>
    match (m.store.list id).items with
    | head :: _ =>
      match m.store.headValue? c head with
      | some (.native f) => decide (f.role = .builtin .set) || decide (f.role = .builtin .put)
      | _ => false
    | [] => false
  | _ => false

theorem watchesCycles_changesCollection (host : Host) : WatchesCycles host changesCollection := by
  rintro expr c m ⟨id, name, b, exprs, _, _, _, _, _, hb, hcall, _, _⟩
  obtain ⟨listId, head, rfl, hcell, hhead⟩ := hcall
  rcases hb with rfl | rfl <;> simp [changesCollection, hcell, hhead]

/-- Where all code is free nothing has to be watched that is quoted. -/
theorem watchesQuotes_of_free (place : EvaluationPlace) : WatchesQuotes (fun _ => True) place :=
  fun _ _ _ _ _ ⟨_, _, _, hcode⟩ => absurd trivial hcode

/-! ## The start -/

section

variable (host : Host) (disk : Disk) (logThreshold : Nat)

/-- All that is stored in a new interpreter is there. -/
theorem sealed_start :
    (Interpreter.start host none (.initial disk logThreshold)).2.store.Sealed fun _ => True :=
  ⟨(sealed_newSession host).toApart.mono fun _ hfree => hfree.elim, fun _ _ _ _ => trivial⟩

/-- A new interpreter has no collections. -/
theorem acyclic_start : (Interpreter.start host none (.initial disk logThreshold)).2.store.Acyclic := by
  intro v hway
  obtain ⟨w, hfirst, _⟩ := Relation.TransGen.head'_iff.mp hway
  cases hfirst with
  | item hv => cases hv
  | key he => cases he
  | value he => cases he

end

/-! ## Texts and comparisons -/

section

variable {s : Store}

theorem plainTexts_of_acyclicFrom {args : List Value} (hs : ∀ v ∈ args, s.AcyclicFrom v) :
    ∃ texts, plainTexts s args = .ok texts := by
  induction args with
  | nil => exact ⟨[], rfl⟩
  | cons v rest ih =>
      obtain ⟨hv, hrest⟩ := List.forall_mem_cons.mp hs
      obtain ⟨texts, htexts⟩ := ih hrest
      obtain ⟨text, htext⟩ : ∃ text, plainText s v = .ok text := by
        unfold plainText
        split
        · exact ⟨_, rfl⟩
        · exact Store.render_of_acyclicFrom hv
      exact ⟨text :: texts, by rw [plainTexts, htext, htexts]; rfl⟩

theorem equalsAll_of_acyclic (hs : s.Acyclic) (a : Value) (args : List Value) :
    s.equalsAll a args ≠ .error .tooDeep := by
  induction args with
  | nil => exact fun hfault => by cases hfault
  | cons b rest ih =>
      rw [Store.equalsAll]
      rcases hfirst : s.equal a b with e | _ | _
      · intro hfault
        cases hfault
        exact Store.equal_ne_tooDeep (hs.from a) b hfirst
      · exact fun hfault => by cases hfault
      · exact ih

end

/-- `str` joins the texts of its arguments. -/
theorem strBuiltin_of_texts {m : Machine} {args : List Value} {texts : List String}
    (h : plainTexts m.store args = .ok texts) :
    strBuiltin args m = (.ok (.string (String.join texts)), m) := by
  have hquery : (queryStore fun s => plainTexts s args) m = (.ok texts, m) := by
    rw [queryStore, h]
  exact Computation.bind_of_ok hquery

/-- `str` answers a text. -/
theorem strBuiltin_of_acyclic {m : Machine} (hs : m.store.Acyclic) (args : List Value) :
    ∃ text, strBuiltin args m = (.ok (.string text), m) := by
  obtain ⟨texts, htexts⟩ := plainTexts_of_acyclicFrom fun v (_ : v ∈ args) => hs.from v
  exact ⟨_, strBuiltin_of_texts htexts⟩

/-- `=` comes to an answer, or to a fault that is not that of a comparison without an end. -/
theorem equalBuiltin_of_acyclic {m : Machine} (hs : m.store.Acyclic) (args : List Value) :
    (equalBuiltin args m).1 ≠ .error .tooDeep := by
  cases args with
  | nil => exact fun hfault => by cases hfault
  | cons a rest =>
      have hone : 1 ≤ (a :: rest).length := Nat.succ_pos _
      rw [equalBuiltin, Computation.bind_of_ok (check_requireArity hone m)]
      exact equalsAll_of_acyclic hs a rest

/-! ## The main statement -/

/-- Collections stay well-founded. All that is stored in a state that programs reach is there. When a
run does not come to a place where `set` or `put` puts a value into a collection that is found in the
value, containment stays acyclic, whatever else is evaluated; so it is acyclic in all states that are
reached without a call of `set` or `put`. Those places are the right ones: a change in place keeps
containment acyclic exactly if the collection is not found in the value. And where containment is
acyclic `str` has a text for every value, and no comparison with `=` goes on for ever. -/
theorem containment_stays_acyclic (natives : Natives) :
    (∀ (disk : Disk) (logThreshold : Nat) (place : EvaluationPlace) (m : Machine),
      Later natives.host place
        (Interpreter.start natives.host none (.initial disk logThreshold)).2 m →
      m.store.Sealed fun _ => True) ∧
    (∀ (disk : Disk) (logThreshold : Nat) (m : Machine),
      Later natives.host changesCollection
        (Interpreter.start natives.host none (.initial disk logThreshold)).2 m →
      m.store.Acyclic) ∧
    (∀ (place : EvaluationPlace) (m m' : Machine), WatchesCycles natives.host place →
      Later natives.host place m m' → (m.store.Sealed fun _ => True) → m.store.Acyclic →
      (m'.store.Sealed fun _ => True) ∧ m'.store.Acyclic) ∧
    (∀ (s s' : Store) (b : Builtin) (collection key v : Value), s.Acyclic → s.Has collection →
      s.Mutation b [collection, key, v] s' → (s'.Acyclic ↔ ¬ s.Reaches v collection)) ∧
    (∀ (m : Machine) (args : List Value), (m.store.Sealed fun _ => True) → m.store.Acyclic →
      (∀ v ∈ args, m.store.Has v) →
      (∃ text, strBuiltin args m = (.ok (.string text), m)) ∧
      (equalBuiltin args m).1 ≠ .error .tooDeep) := by
  have hkeeps : ∀ (place : EvaluationPlace) (m m' : Machine), WatchesCycles natives.host place →
      Later natives.host place m m' → (m.store.Sealed fun _ => True) → m.store.Acyclic →
      (m'.store.Sealed fun _ => True) ∧ m'.store.Acyclic := by
    intro place m m' hplace hlater hsealed hacyclic
    obtain ⟨hkept, hsince⟩ := hlater.safe natives.letsThrough (watchesQuotes_of_free place)
      hplace.watchesChanges hsealed
    exact ⟨hkept, hsince.keeps hacyclic⟩
  refine ⟨fun disk logThreshold place m hlater => ?_, fun disk logThreshold m hlater => ?_, hkeeps,
    ?_, ?_⟩
  · exact (hlater.keeps natives.letsThrough (watchesQuotes_of_free place)
      (sealed_start natives.host disk logThreshold)).1
  · exact (hkeeps _ _ _ (watchesCycles_changesCollection _) hlater
      (sealed_start natives.host disk logThreshold) (acyclic_start natives.host disk logThreshold)).2
  · intro s s' b collection key v hs hcollection hmutation
    cases hmutation with
    | set hset => exact Store.acyclic_setItem_iff hset hs
    | put hput => exact Store.acyclic_setKey_iff hput hcollection hs
  · intro m args _ hacyclic _
    exact ⟨strBuiltin_of_acyclic hacyclic args, equalBuiltin_of_acyclic hacyclic args⟩

/-- A program that makes collections of collections. -/
def nestsCollections : String :=
  "(def l (list 1 (list 2 3))) (def d (dict :k l)) (concat l (list d d))"

/-- A new interpreter after the program has run. -/
def afterNesting : Machine :=
  (evaluateText (evaluate noNatives.host 20) nestsCollections firstRoot
    (newSession noNatives.host)).2

/-- In the state that the program leaves, every value has a text. -/
theorem containment_stays_acyclic_nested :
    afterNesting.store.Acyclic ∧ ∀ v, afterNesting.store.Has v →
      ∃ text, strBuiltin [v] afterNesting = (.ok (.string text), afterNesting) := by
  have hanswer : (evaluateText (evaluateUnless noNatives.host changesCollection .tooDeep 20)
      nestsCollections firstRoot (newSession noNatives.host)).1.isOk = true := by
    decide +kernel
  have havoid : Avoids noNatives.host 20 changesCollection
      (fun ev => evaluateText ev nestsCollections firstRoot) (newSession noNatives.host) := by
    refine ⟨.tooDeep, fun hfault => ?_⟩
    rw [hfault] at hanswer
    cases hanswer
  obtain ⟨hsealed, hacyclic, _, _, htexts⟩ := containment_stays_acyclic noNatives
  have hthere := hsealed .empty 30 changesCollection afterNesting (.text 20 .now havoid)
  have hkept := hacyclic .empty 30 afterNesting (.text 20 .now havoid)
  refine ⟨hkept, fun v hv => ?_⟩
  exact (htexts afterNesting [v] hthere hkept (List.forall_mem_singleton.mpr hv)).1

end DispatchLisp
