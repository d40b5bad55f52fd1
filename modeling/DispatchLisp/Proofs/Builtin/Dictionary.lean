import DispatchLisp.Proofs.Builtin.Collections
import Mathlib.Data.List.Induction

/-!
# Proofs.Builtin.Dictionary — a dict is a finite map in the order of its keys

Whatever has been put into a dict, in whatever order, the dict shows of it just this: under each key
the value that was put last under a key that is the same, and of keys that are the same the one that
came first, in the order in which they came (`entriesOf`). A history of a dict (`DictHistory`) is
carried along by its entries: a put under an atom adds to them, a put under a list or dict is refused,
and nothing else touches them.

Main statement: `dict_is_finite_map`.
-/

namespace DispatchLisp

/-! ## Keys -/

/-- Whether an atom is a number that is not one. -/
def Atom.IsNan (a : Atom) : Prop :=
  ∃ n, a = .float (.nan n)

theorem Atom.exists_identity {a : Atom} (h : ¬ a.IsNan) : ∃ i, a.identity? = some i := by
  cases a with
  | float x =>
      cases x with
      | nan n => exact absurd ⟨n, rfl⟩ h
      | finite negative size => exact ⟨_, rfl⟩
      | infinite negative => exact ⟨_, rfl⟩
  | _ => exact ⟨_, rfl⟩

/-- Only a number that is not one is like an atom that is not the same. -/
theorem Atom.alike_eq_same {a : Atom} (h : ¬ a.IsNan) (b : Atom) : a.alike b = a.same b := by
  rw [alike]
  by_cases hab : a = b
  · obtain ⟨i, hi⟩ := exists_identity h
    have hsame : a.same b = true := (same_iff a b).mpr ⟨i, hi, hab ▸ hi⟩
    rw [hsame, Bool.or_true]
  · rw [decide_eq_false hab, Bool.false_or]

/-- What is left of some keys when each of them hides those after it that are the same. -/
def firstKeys : List Atom → List Atom
  | [] => []
  | key :: rest => key :: (firstKeys rest).filter fun other => !key.same other

theorem firstKeys_append_singleton (keys : List Atom) (key : Atom) :
    firstKeys (keys ++ [key]) =
      if keys.any fun k => k.same key then firstKeys keys else firstKeys keys ++ [key] := by
  induction keys with
  | nil => rfl
  | cons k rest ih =>
      rw [List.cons_append, firstKeys, firstKeys, ih, List.any_cons]
      cases rest.any fun k => k.same key with
      | true => simp
      | false =>
          cases hk : k.same key <;> simp [hk]

theorem pairwise_firstKeys (keys : List Atom) :
    (firstKeys keys).Pairwise fun key other => key.same other = false := by
  induction keys with
  | nil => exact .nil
  | cons k rest ih =>
      refine List.pairwise_cons.mpr ⟨fun other hother => ?_, ih.filter _⟩
      simpa using (List.mem_filter.mp hother).2

/-- Every key is the same as one that came first. -/
theorem exists_firstKeys {keys : List Atom} (h : ∀ k ∈ keys, ¬ k.IsNan) {key : Atom}
    (hkey : key ∈ keys) : ∃ first ∈ firstKeys keys, first.same key = true := by
  induction keys with
  | nil => cases hkey
  | cons k rest ih =>
      obtain ⟨hk, hrest⟩ := List.forall_mem_cons.mp h
      by_cases hsame : k.same key = true
      · exact ⟨k, List.mem_cons_self, hsame⟩
      · rcases List.mem_cons.mp hkey with rfl | hkey
        · rw [← Atom.alike_eq_same hk] at hsame
          exact absurd (Atom.alike_refl key) hsame
        · obtain ⟨first, hfirst, hfirstKey⟩ := ih hrest hkey
          -- a key that hid the first one would be the same as this key
          have hkept : k.same first = false := by
            by_contra hhidden
            exact hsame (Atom.same_trans (Bool.not_eq_false _ ▸ hhidden) hfirstKey)
          exact ⟨first, List.mem_cons_of_mem _ (List.mem_filter.mpr ⟨hfirst, by simp [hkept]⟩),
            hfirstKey⟩

/-- A key that came first has come before all keys that are the same. -/
theorem firstKeys_first {keys : List Atom} {key : Atom} (h : key ∈ firstKeys keys) :
    ∃ before after, keys = before ++ key :: after ∧ ∀ k ∈ before, k.same key = false := by
  induction keys with
  | nil => cases h
  | cons k rest ih =>
      rcases List.mem_cons.mp h with rfl | h
      · exact ⟨[], rest, rfl, fun k hk => absurd hk List.not_mem_nil⟩
      · obtain ⟨hfirst, hdiffers⟩ := List.mem_filter.mp h
        obtain ⟨before, after, rfl, hbefore⟩ := ih hfirst
        exact ⟨k :: before, after, rfl, List.forall_mem_cons.mpr ⟨by simpa using hdiffers, hbefore⟩⟩

/-! ## What has been put -/

/-- The entries of a dict after some puts. -/
def entriesOf (puts : List (Atom × Value)) : Association Atom Value :=
  puts.foldl (fun entries p => entries.put Atom.alike p.1 p.2) []

/-- The value that was put last under a key that is the same. -/
def lastPut? (puts : List (Atom × Value)) (key : Atom) : Option Value :=
  ((puts.filter fun p => p.1.same key).getLast?).map (·.2)

theorem entriesOf_append_singleton (puts : List (Atom × Value)) (key : Atom) (v : Value) :
    entriesOf (puts ++ [(key, v)]) = (entriesOf puts).put Atom.alike key v := by
  rw [entriesOf, List.foldl_append]
  rfl

section

variable {puts : List (Atom × Value)}

/-- Under each key there is the value that was put last. -/
theorem get?_entriesOf (h : ∀ p ∈ puts, ¬ p.1.IsNan) (key : Atom) :
    (entriesOf puts).get? Atom.alike key = lastPut? puts key := by
  induction puts using List.reverseRecOn with
  | nil => rfl
  | append_singleton puts p ih =>
      obtain ⟨hputs, hp⟩ := List.forall_mem_append.mp h
      rw [entriesOf_append_singleton, get?_put, ih hputs,
        Atom.alike_eq_same (hp p (List.mem_singleton_self p)), lastPut?, lastPut?,
        List.filter_append, List.filter_singleton]
      cases p.1.same key <;> simp

theorem isSome_lastPut? (puts : List (Atom × Value)) (key : Atom) :
    (lastPut? puts key).isSome = puts.any fun p => p.1.same key := by
  rw [lastPut?, Option.isSome_map, Bool.eq_iff_iff, List.getLast?_isSome, List.any_eq_true]
  simp [List.filter_eq_nil_iff]

/-- The keys are those that came first. -/
theorem keys_entriesOf (h : ∀ p ∈ puts, ¬ p.1.IsNan) :
    (entriesOf puts).keys = firstKeys (puts.map (·.1)) := by
  induction puts using List.reverseRecOn with
  | nil => rfl
  | append_singleton puts p ih =>
      obtain ⟨hputs, hp⟩ := List.forall_mem_append.mp h
      have hfound : (entriesOf puts).contains Atom.alike p.1 =
          (puts.map (·.1)).any fun k => k.same p.1 := by
        rw [Association.contains, get?_entriesOf hputs, isSome_lastPut?, List.any_map]
        rfl
      rw [entriesOf_append_singleton, Association.keys_put, ih hputs, hfound, List.map_append,
        List.map_singleton, firstKeys_append_singleton]

end

/-! ## The history of a dict -/

/-- The puts that are not refused: a list or dict is no key. -/
def acceptedPuts (puts : List (Value × Value)) : List (Atom × Value) :=
  puts.filterMap fun p =>
    match p.1 with
    | .atom key => some (key, p.2)
    | _ => none

/-- Whether a machine has come about by some puts into a dict that was empty at first. Anything that
leaves the dict alone may happen between them. -/
inductive DictHistory (d : DictId) : List (Value × Value) → Machine → Prop where
  | empty {m : Machine} : m.store.Has (.dict d) → (m.store.dict d).entries = [] → DictHistory d [] m
  | put {puts : List (Value × Value)} {m : Machine} (key v : Value) : DictHistory d puts m →
      DictHistory d (puts ++ [(key, v)]) (Builtin.put.run [.dict d, key, v] m).2
  | meanwhile {puts : List (Value × Value)} {m m' : Machine} : DictHistory d puts m →
      m'.store.Has (.dict d) → m'.store.dict d = m.store.dict d → DictHistory d puts m'

section

variable {d : DictId} {m : Machine}

theorem acceptedPuts_append (puts others : List (Value × Value)) :
    acceptedPuts (puts ++ others) = acceptedPuts puts ++ acceptedPuts others :=
  List.filterMap_append

/-- A refused put is as if it had not been. -/
theorem acceptedPuts_refused {key : Value} (h : ∀ a, key ≠ .atom a) (v : Value) :
    acceptedPuts [(key, v)] = [] := by
  cases key with
  | atom a => exact absurd rfl (h a)
  | list l => rfl
  | dict other => rfl

theorem mem_of_mem_acceptedPuts {puts : List (Value × Value)} {p : Atom × Value}
    (h : p ∈ acceptedPuts puts) : (.atom p.1, p.2) ∈ puts := by
  obtain ⟨⟨key, v⟩, hq, hp⟩ := List.mem_filterMap.mp h
  cases key with
  | atom a =>
      cases hp
      exact hq
  | list l => cases hp
  | dict other => cases hp

/-- One put: the dict stays where it is, and it has the entries of what has been put so far. -/
theorem entries_put_run (hthere : m.store.Has (.dict d)) {puts : List (Value × Value)}
    (hentries : (m.store.dict d).entries = entriesOf (acceptedPuts puts)) (key v : Value) :
    let after := (Builtin.put.run [.dict d, key, v] m).2
    after.store.Has (.dict d) ∧
      (after.store.dict d).entries = entriesOf (acceptedPuts (puts ++ [(key, v)])) := by
  intro after
  rw [acceptedPuts_append]
  by_cases hkey : ∃ a, key = .atom a
  · obtain ⟨a, rfl⟩ := hkey
    have hafter : after.store = m.store.putEntry d a v := rfl
    rw [hafter, (m.store.changesOnly_putEntry d a v).has, Store.dict_putEntry_self hthere, hentries]
    exact ⟨hthere, (entriesOf_append_singleton _ a v).symm⟩
  · have hrefused : ∀ a, key ≠ .atom a := fun a heq => hkey ⟨a, heq⟩
    have hafter : after = m := congrArg Prod.snd (run_put_refused m hrefused d v)
    rw [hafter, acceptedPuts_refused hrefused, List.append_nil]
    exact ⟨hthere, hentries⟩

/-- The invariant of a history: the entries are those of what has been put. -/
theorem DictHistory.entries {puts : List (Value × Value)} (h : DictHistory d puts m) :
    m.store.Has (.dict d) ∧ (m.store.dict d).entries = entriesOf (acceptedPuts puts) := by
  induction h with
  | empty hthere hempty => exact ⟨hthere, hempty⟩
  | put key v _ ih => exact entries_put_run ih.1 ih.2 key v
  | meanwhile _ hthere hsame ih => exact ⟨hthere, hsame ▸ ih.2⟩

theorem getKey_atom (s : Store) (d : DictId) (key : Atom) :
    s.getKey d (.atom key) =
      match (s.dict d).entries.get? Atom.alike key with
      | some v => .ok v
      | none => .error (.missingKey key.render) :=
  rfl

end

/-! ## Making a dict at once -/

/-- Keys and values in turn. -/
def pairArguments (pairs : List (Value × Value)) : List Value :=
  pairs.flatMap fun p => [p.1, p.2]

theorem length_pairArguments (pairs : List (Value × Value)) :
    (pairArguments pairs).length % 2 = 0 := by
  simp [pairArguments]

/-- Puts some values under their keys, one after another. -/
def putAll (d : DictId) (pairs : List (Value × Value)) (m : Machine) : Machine :=
  pairs.foldl (fun m p => (Builtin.put.run [.dict d, p.1, p.2] m).2) m

/-- Whether all keys are atoms. -/
def AtomKeys (pairs : List (Value × Value)) : Prop :=
  ∀ p ∈ pairs, ∃ a, p.1 = .atom a

/-- Up to the first key that is none, keys and values in turn are put one after another. -/
theorem pairEntries_append (s : Store) {pairs : List (Value × Value)} (h : AtomKeys pairs)
    (entries : Association Atom Value) (rest : List Value) :
    s.pairEntries entries (pairArguments pairs ++ rest) = s.pairEntries
      ((acceptedPuts pairs).foldl (fun entries p => entries.put Atom.alike p.1 p.2) entries) rest := by
  induction pairs generalizing entries with
  | nil => rfl
  | cons p pairs ih =>
      obtain ⟨⟨a, ha⟩, hpairs⟩ := List.forall_mem_cons.mp h
      obtain ⟨_, v⟩ := p
      subst ha
      exact ih hpairs (entries.put Atom.alike a v)

theorem modify_push_size {α : Type} (xs : Array α) (a : α) (f : α → α) :
    (xs.push a).modify xs.size f = xs.push (f a) := by
  apply Array.ext_getElem?
  intro i
  rw [Array.getElem?_modify, Array.getElem?_push, Array.getElem?_push]
  by_cases h : xs.size = i
  · simp [h]
  · simp [h, Ne.symm h]

/-- A dict that has just been made and then gets an entry is as if it had been made with it. -/
theorem putEntry_newDict (s : Store) (entries : Association Atom Value) (key : Atom) (v : Value) :
    (s.newDict entries).2.putEntry (s.newDict []).1 key v =
      (s.newDict (entries.put Atom.alike key v)).2 := by
  simp only [Store.newDict, Store.putEntry, modify_push_size]

theorem putAll_newDict (m : Machine) {pairs : List (Value × Value)} (h : AtomKeys pairs)
    (entries : Association Atom Value) :
    putAll (m.store.newDict []).1 pairs { m with store := (m.store.newDict entries).2 } =
      { m with
        store := (m.store.newDict ((acceptedPuts pairs).foldl
          (fun entries p => entries.put Atom.alike p.1 p.2) entries)).2 } := by
  induction pairs generalizing entries with
  | nil => rfl
  | cons p pairs ih =>
      obtain ⟨⟨a, ha⟩, hpairs⟩ := List.forall_mem_cons.mp h
      obtain ⟨_, v⟩ := p
      subst ha
      rw [putAll, List.foldl_cons, run_put_atom, putEntry_newDict]
      exact ih hpairs (entries.put Atom.alike a v)

/-- Puts one after another go on with a history. -/
theorem DictHistory.putAll {d : DictId} {puts : List (Value × Value)} {m : Machine}
    (h : DictHistory d puts m) (pairs : List (Value × Value)) :
    DictHistory d (puts ++ pairs) (putAll d pairs m) := by
  induction pairs generalizing puts m with
  | nil => rwa [List.append_nil]
  | cons p pairs ih =>
      rw [List.append_cons]
      exact ih (h.put p.1 p.2)

/-- Making a dict of pairs is making an empty one and putting the pairs. -/
theorem run_dict_pairs (m : Machine) {pairs : List (Value × Value)} (h : AtomKeys pairs) :
    ∃ d m₀, Builtin.dict.run [] m = (.ok (.dict d), m₀) ∧ DictHistory d [] m₀ ∧
      Builtin.dict.run (pairArguments pairs) m = (.ok (.dict d), putAll d pairs m₀) := by
  refine ⟨(m.store.newDict []).1, { m with store := (m.store.newDict []).2 }, rfl,
    .empty (m.store.makes_newDict []).made.1 (by rw [Store.dict_newDict]), ?_⟩
  have hentries := pairEntries_append m.store h [] []
  rw [List.append_nil] at hentries
  rw [run_dict_eq, if_pos (length_pairArguments pairs), hentries, putAll_newDict m h]
  rfl

/-- A dict is not made if one of the keys is none: the first of these is refused as `put` refuses it. -/
theorem run_dict_refused (m : Machine) {before after : List (Value × Value)} (h : AtomKeys before)
    {key v : Value} (hkey : ∀ a, key ≠ .atom a) :
    Builtin.dict.run (pairArguments (before ++ (key, v) :: after)) m =
      (.error (.fault (m.store.refusal key)), m) := by
  have hargs : pairArguments (before ++ (key, v) :: after) =
      pairArguments before ++ key :: v :: pairArguments after := by simp [pairArguments]
  rw [run_dict_eq, if_pos (length_pairArguments _), hargs, pairEntries_append m.store h]
  cases key with
  | atom a => exact absurd rfl (hkey a)
  | list l => rw [Store.pairEntries, Store.mutableKey_eq]; simp
  | dict other => rw [Store.pairEntries, Store.mutableKey_eq]; simp

/-! ## Hashes -/

/-- What the hash of an atom is computed from. -/
inductive HashSource where
  | number (v : ExactValue)
  | bool (b : Bool)
  | tagged (tag text : String)
  | text (text : String)
  | native (id : Nat)
  | function (index : Nat)
  | object (handle : Nat)
  | context (index : Nat)
  | nan (mark : Nat)

/-- Numbers are hashed by their exact values, whatever their kind; texts, keywords and types carry a tag
each, a symbol is hashed like its bare name; everything else by what object it is. -/
def Atom.hashSource : Atom → HashSource
  | .int n => .number (.finite (n * (unitsPerOne : Int)))
  | .float (.finite negative size) => .number (.finite (Binary64.signedUnits negative size))
  | .float (.infinite negative) => .number (.infinite negative)
  | .float (.nan mark) => .nan mark
  | .bool b => .bool b
  | .string text => .tagged "str" text
  | .symbol name => .text name
  | .keyword name => .tagged "kw" name
  | .nothing => .text "Nothing"
  | .type name => .tagged "type" name
  | .native f => .native f.id
  | .function id => .function id.index
  | .object o => .object o.handle
  | .context id => .context id.index

/-- What the hash of an atom is computed from is determined by what tells the atom from others. -/
def AtomIdentity.hashSource : AtomIdentity → HashSource
  | .number v => .number v
  | .bool b => .bool b
  | .string text => .tagged "str" text
  | .symbol name => .text name
  | .keyword name => .tagged "kw" name
  | .nothing => .text "Nothing"
  | .type name => .tagged "type" name
  | .native id => .native id
  | .function index => .function index
  | .object handle => .object handle
  | .context index => .context index

theorem Atom.hashSource_eq {a : Atom} {i : AtomIdentity} (h : a.identity? = some i) :
    a.hashSource = i.hashSource := by
  cases a with
  | float x => cases x <;> cases h <;> rfl
  | _ => cases h; rfl

/-- Keys that are the same have the same hash, so a table that compares hashes first finds them. -/
theorem Atom.hashSource_of_same {a b : Atom} (h : a.same b = true) : a.hashSource = b.hashSource := by
  obtain ⟨i, ha, hb⟩ := (same_iff a b).mp h
  rw [hashSource_eq ha, hashSource_eq hb]

/-! ## The finite map -/

/-- Whether a dict behaves as a finite map after some puts under atoms. -/
structure Machine.ShowsPuts (m : Machine) (d : DictId) (puts : List (Atom × Value)) : Prop where
  /-- every atom is accepted as a key -/
  accepts : ∀ key v, ∃ m', Builtin.put.run [.dict d, .atom key, v] m = (.ok (.dict d), m')
  /-- a list or dict is not, and nothing changes -/
  refuses : ∀ key v, (∀ a, key ≠ .atom a) → m.store.AcyclicFrom key →
    ∃ e : Fault, e.kind = .type ∧ Builtin.put.run [.dict d, key, v] m = (.error (.fault e), m)
  /-- what was put last under a key that is the same is found -/
  found : ∀ key v, lastPut? puts key = some v →
    Builtin.get.run [.dict d, .atom key] m = (.ok v, m)
  missing : ∀ key, lastPut? puts key = none →
    ∃ e : Fault, e.kind = .lookup ∧ Builtin.get.run [.dict d, .atom key] m = (.error (.fault e), m)
  contains : ∀ key, m.store.hasKey d (.atom key) = (lastPut? puts key).isSome
  /-- the keys are listed that came first, in order -/
  keys : ∃ new m', Builtin.keys.run [.dict d] m = (.ok (.list new), m') ∧
    (m'.store.list new).items = (firstKeys (puts.map (·.1))).map .atom
  length : Builtin.len.run [.dict d] m =
    (.ok (.int (firstKeys (puts.map (·.1))).length), m)

/-- After any puts a dict is a finite map. -/
theorem DictHistory.showsPuts {d : DictId} {puts : List (Value × Value)} {m : Machine}
    (h : DictHistory d puts m) (hnumbers : ∀ p ∈ acceptedPuts puts, ¬ p.1.IsNan) :
    m.ShowsPuts d (acceptedPuts puts) := by
  obtain ⟨hthere, hentries⟩ := h.entries
  -- all that a dict shows comes from its entries, and those from what was put last
  have hfound : ∀ key, (m.store.dict d).entries.get? Atom.alike key =
      lastPut? (acceptedPuts puts) key := by
    intro key
    rw [hentries, get?_entriesOf hnumbers]
  have hkeys : (m.store.dict d).entries.keys = firstKeys ((acceptedPuts puts).map (·.1)) := by
    rw [hentries, keys_entriesOf hnumbers]
  constructor
  case accepts => exact fun key v => ⟨_, run_put_atom m d key v⟩
  case refuses =>
    exact fun key v hkey hacyclic =>
      ⟨_, Store.kind_refusal hacyclic, run_put_refused m hkey d v⟩
  case found =>
    intro key v hv
    rw [run_get_dict, getKey_atom, hfound, hv]
    rfl
  case missing =>
    intro key hnone
    refine ⟨.missingKey key.render, rfl, ?_⟩
    rw [run_get_dict, getKey_atom, hfound, hnone]
    rfl
  case contains => exact fun key => congrArg Option.isSome (hfound key)
  case keys =>
    obtain ⟨new, m', hmade, _, hcell⟩ :=
      makeList_eq (ε := Raised) m ((m.store.dict d).entries.keys.map .atom) true
    exact ⟨new, m', (run_keys m d).trans hmade, by rw [hcell, hkeys]⟩
  case length =>
    rw [run_len_dict, ← hkeys, Association.keys, List.length_map]

/-- A machine with an empty dict and an empty list. -/
def emptyDict : Machine :=
  { Machine.initial .empty 0 with
    store := { Store.empty with lists := #[⟨[], true⟩], dicts := #[⟨[]⟩] } }

/-- Puts under `0`, `false`, `-0.0`, an empty list, `"x"` and the symbol `x`. -/
def mixedPuts : List (Value × Value) :=
  [(.int 0, .string "a"), (.bool false, .string "b"), (.float (.zero true), .string "c"),
    (.list ⟨0⟩, .string "d"), (.string "x", .string "e"), (.symbol "x", .string "f")]

end DispatchLisp
