import DispatchLisp.Proofs.Evaluation.WellFounded

/-!
# Proofs.Store.Comparison — equality as a relation on values

A value is *comparable* when nothing that it leads to is found in itself, is a native, or is a number
that is not one. Comparing such a value always answers, and what it answers for a collection depends on
its parts alone (`equals_list_iff`, `equals_dict_iff`). So by induction from a value inwards equality is
reflexive and transitive. A dict need only be covered by the other, which makes equality one-sided where
dicts are found; two dicts that cover each other have the same keys with values that equal each other.
-/

namespace DispatchLisp

/-- Whether an atom is compared by its value: it is no native, and a number only if it is one. -/
def Atom.isComparable : Atom → Bool
  | .native _ => false
  | .float (.nan _) => false
  | _ => true

theorem Atom.same_refl {a : Atom} (h : a.isComparable = true) : a.same a = true := by
  rw [same_iff]
  cases a with
  | float x =>
      cases x with
      | nan n => cases h
      | finite negative size => exact ⟨_, rfl, rfl⟩
      | infinite negative => exact ⟨_, rfl, rfl⟩
  | _ => exact ⟨_, rfl, rfl⟩

namespace Store

/-- Whether a value is acyclic and leads to atoms only that are compared by their values. -/
structure Comparable (s : Store) (v : Value) : Prop where
  acyclic : s.AcyclicFrom v
  atoms : ∀ a, s.Reaches v (.atom a) → a.isComparable = true

/-- Whether no two keys of any dict are alike. -/
def KeysDistinct (s : Store) : Prop :=
  ∀ id, DistinctKeys (s.dict id).entries.keys

/-- Whether a comparison of two values answers that they are equal. -/
def Equals (s : Store) (a b : Value) : Prop :=
  s.equal a b = .ok true

section

variable {s : Store} {a b v w : Value}

theorem Comparable.contained (h : s.Comparable v) (hw : s.Contains v w) : s.Comparable w :=
  ⟨h.acyclic.contained hw, fun a ha => h.atoms a (.head hw ha)⟩

theorem Comparable.atom {a : Atom} (h : s.Comparable (.atom a)) : a.isComparable = true :=
  h.atoms a .refl

theorem comparable_atom {a : Atom} (h : a.isComparable = true) : s.Comparable (.atom a) := by
  refine ⟨acyclicFrom_of_contained fun w hw => absurd hw (not_contains_atom a w), fun b hb => ?_⟩
  obtain rfl | hne := eq_or_ne b a
  · exact h
  · exact absurd hb (not_reaches_of_atom fun heq => hne (Value.atom.inj heq))

/-- A collection of comparable values is comparable. -/
theorem comparable_of_contained (hv : ∀ a, v ≠ .atom a) (h : ∀ w, s.Contains v w → s.Comparable w) :
    s.Comparable v := by
  refine ⟨acyclicFrom_of_contained fun w hw => (h w hw).acyclic, fun a ha => ?_⟩
  rcases ha.cases_head with heq | ⟨w, hw, hwa⟩
  · exact absurd heq (hv a)
  · exact (h w hw).atoms a hwa

/-- From an acyclic value one goes inwards only so often. -/
theorem AcyclicFrom.acc (h : s.AcyclicFrom v) : Acc (fun w v => s.Contains v w) v := by
  have hcount : ∀ left outer v, s.LeadTo outer v → s.AcyclicFrom v →
      s.collections ≤ left + outer.length → Acc (fun w v => s.Contains v w) v := by
    intro left
    induction left with
    | zero =>
        intro outer v houter hv hleft
        refine ⟨v, fun w hw => ?_⟩
        have hlength := (houter.inwards hv.self hw).length_le
        rw [List.length_cons] at hlength
        omega
    | succ left ih =>
        intro outer v houter hv hleft
        refine ⟨v, fun w hw => ih (v :: outer) w (houter.inwards hv.self hw) (hv.contained hw) ?_⟩
        rw [List.length_cons]
        omega
  exact hcount s.collections [] v (leadTo_nil v) h (Nat.le_refl _)

/-- What holds of a value whenever it holds of all that the value contains holds of every comparable
value. -/
@[elab_as_elim]
theorem Comparable.induction {motive : (v : Value) → s.Comparable v → Prop}
    (step : ∀ v (h : s.Comparable v), (∀ w (hw : s.Contains v w), motive w (h.contained hw)) →
      motive v h) {v : Value} (h : s.Comparable v) : motive v h := by
  have hacc := h.acyclic.acc
  induction hacc with
  | intro v _ ih => exact step v h fun w hw => ih w hw (h.contained hw)

end

/-! ## Comparing parts -/

section

variable {f g : Value → Value → Except Fault Bool} {as bs : List Value}
  {entries other : Association Atom Value}

/-- What compares elements in the same way, unless it fails in some way, compares lists in the same
way. -/
theorem equalItems_congr {e : Fault} (h : ∀ a ∈ as, ∀ b, f a b ≠ .error e → g a b = f a b)
    (hne : equalItems f as bs ≠ .error e) : equalItems g as bs = equalItems f as bs := by
  induction as generalizing bs with
  | nil => cases bs <;> rfl
  | cons a as ih =>
      obtain ⟨ha, has⟩ := List.forall_mem_cons.mp h
      cases bs with
      | nil => rfl
      | cons b bs =>
          rw [equalItems] at hne ⊢
          have hab : f a b ≠ .error e := fun hfault => hne (by rw [hfault, error_bind])
          rw [equalItems, ha b hab]
          rcases hfirst : f a b with e' | _ | _
          · rfl
          · rfl
          · rw [hfirst] at hne
            exact ih has hne

theorem coveredBy_congr {e : Fault} (h : ∀ p ∈ entries, ∀ b, f p.2 b ≠ .error e → g p.2 b = f p.2 b)
    (hne : coveredBy f other entries ≠ .error e) :
    coveredBy g other entries = coveredBy f other entries := by
  induction entries with
  | nil => rfl
  | cons entry rest ih =>
      obtain ⟨key, value⟩ := entry
      obtain ⟨hentry, hrest⟩ := List.forall_mem_cons.mp h
      rw [coveredBy] at hne ⊢
      rw [coveredBy]
      cases hfound : other.get? Atom.alike key with
      | none => rfl
      | some v =>
          rw [hfound] at hne
          dsimp only at hne ⊢
          -- the values are compared, and only if they are equal the other entries are
          have hv : f value v ≠ .error e := fun hfault => hne (by rw [hfault, error_bind])
          rw [hentry v hv]
          rcases hfirst : f value v with e' | _ | _
          · rfl
          · rfl
          · rw [hfirst] at hne
            exact ih hrest hne

theorem equalItems_eq_true_iff (h : as.length = bs.length) :
    equalItems f as bs = .ok true ↔ List.Forall₂ (fun a b => f a b = .ok true) as bs := by
  induction as generalizing bs with
  | nil =>
      obtain rfl := List.eq_nil_of_length_eq_zero h.symm
      exact ⟨fun _ => .nil, fun _ => rfl⟩
  | cons a as ih =>
      obtain ⟨b, bs, rfl⟩ := List.exists_cons_of_length_eq_add_one h.symm
      rw [List.forall₂_cons, ← ih (Nat.succ.inj h), equalItems]
      rcases f a b with e | _ | _ <;> simp [ok_bind, error_bind]

theorem coveredBy_eq_true_iff :
    coveredBy f other entries = .ok true ↔
      ∀ e ∈ entries, ∃ v, other.get? Atom.alike e.1 = some v ∧ f e.2 v = .ok true := by
  induction entries with
  | nil => simp [coveredBy]
  | cons entry rest ih =>
      obtain ⟨key, value⟩ := entry
      rw [List.forall_mem_cons, ← ih, coveredBy]
      cases other.get? Atom.alike key with
      | none => simp
      | some v => rcases hv : f value v with e | _ | _ <;> simp [hv, ok_bind, error_bind]

theorem equalItems_answers (h : ∀ a ∈ as, ∀ b, ∃ answer, f a b = .ok answer) :
    ∃ answer, equalItems f as bs = .ok answer := by
  induction as generalizing bs with
  | nil => exact ⟨true, by cases bs <;> rfl⟩
  | cons a as ih =>
      obtain ⟨ha, has⟩ := List.forall_mem_cons.mp h
      cases bs with
      | nil => exact ⟨true, rfl⟩
      | cons b bs =>
          obtain ⟨answer, hanswer⟩ := ha b
          rw [equalItems, hanswer, ok_bind]
          split
          · exact ih has
          · exact ⟨false, rfl⟩

theorem coveredBy_answers (h : ∀ e ∈ entries, ∀ b, ∃ answer, f e.2 b = .ok answer) :
    ∃ answer, coveredBy f other entries = .ok answer := by
  induction entries with
  | nil => exact ⟨true, rfl⟩
  | cons entry rest ih =>
      obtain ⟨key, value⟩ := entry
      obtain ⟨hentry, hrest⟩ := List.forall_mem_cons.mp h
      rw [coveredBy]
      split
      · exact ⟨false, rfl⟩
      case h_2 v _ =>
        obtain ⟨answer, hanswer⟩ := hentry v
        rw [hanswer, ok_bind]
        split
        · exact ih hrest
        · exact ⟨false, rfl⟩

end

/-! ## Comparing values -/

section

variable {s : Store}

/-- A comparison that ends within some depth comes to the same one level further. -/
theorem equalWithin_succ {depth : Nat} {a b : Value}
    (h : s.equalWithin depth a b ≠ .error .tooDeep) :
    s.equalWithin (depth + 1) a b = s.equalWithin depth a b := by
  induction depth generalizing a b with
  | zero =>
      rcases a with a | i | i <;> rcases b with b | j | j
      case list.list => exact absurd rfl h
      case dict.dict => exact absurd rfl h
      all_goals rfl
  | succ depth ih =>
      rcases a with a | i | i <;> rcases b with b | j | j
      case list.list =>
        rw [equalWithin] at h ⊢
        rw [equalWithin]
        split at h
        case isTrue hlength =>
          rw [if_pos hlength, if_pos hlength]
          exact equalItems_congr (fun _ _ _ hne => ih hne) h
        case isFalse hlength => rw [if_neg hlength, if_neg hlength]
      case dict.dict =>
        rw [equalWithin] at h ⊢
        rw [equalWithin]
        exact coveredBy_congr (fun _ _ _ hne => ih hne) h
      all_goals rfl

/-- One level further in, the parts of an acyclic value are compared as if they were alone. -/
theorem equalWithin_eq_equal {a : Value} (ha : s.AcyclicFrom a) (b : Value) :
    s.equalWithin (s.collections + 2999) a b = s.equal a b := by
  refine (equalWithin_succ (equalWithin_ne_tooDeep b ha (leadTo_nil a) ?_)).symm
  exact Nat.lt_add_of_pos_right (by decide)

theorem equal_list {i : ListId} (hi : s.AcyclicFrom (.list i)) (j : ListId) :
    s.equal (.list i) (.list j) =
      if (s.list i).items.length = (s.list j).items.length then
        equalItems s.equal (s.list i).items (s.list j).items
      else .ok false := by
  have hparts : ∀ v ∈ (s.list i).items, ∀ b,
      s.equalWithin (s.collections + 2999) v b = s.equal v b :=
    fun v hv b => equalWithin_eq_equal (hi.contained (.item hv)) b
  have hends := equal_ne_tooDeep hi (.list j)
  have hunfold : s.equal (.list i) (.list j) =
      s.equalWithin (s.collections + 2999 + 1) (.list i) (.list j) := rfl
  rw [hunfold, equalWithin] at hends ⊢
  split
  case isTrue hlength =>
    rw [if_pos hlength] at hends
    exact (equalItems_congr (fun v hv b _ => (hparts v hv b).symm) hends).symm
  case isFalse => rfl

theorem equal_dict {i : DictId} (hi : s.AcyclicFrom (.dict i)) (j : DictId) :
    s.equal (.dict i) (.dict j) = coveredBy s.equal (s.dict j).entries (s.dict i).entries := by
  have hparts : ∀ e ∈ (s.dict i).entries, ∀ b,
      s.equalWithin (s.collections + 2999) e.2 b = s.equal e.2 b :=
    fun e he b => equalWithin_eq_equal (hi.contained (.value he)) b
  have hends := equal_ne_tooDeep hi (.dict j)
  have hunfold : s.equal (.dict i) (.dict j) =
      s.equalWithin (s.collections + 2999 + 1) (.dict i) (.dict j) := rfl
  rw [hunfold, equalWithin] at hends ⊢
  exact (coveredBy_congr (fun e he b _ => (hparts e he b).symm) hends).symm

/-- A list equals the lists whose elements are equalled by its own, place by place. -/
theorem equals_list_iff {i : ListId} (hi : s.AcyclicFrom (.list i)) {b : Value} :
    s.Equals (.list i) b ↔
      ∃ j, b = .list j ∧ List.Forall₂ s.Equals (s.list i).items (s.list j).items := by
  constructor
  · intro h
    rcases b with b | j | j
    · cases h
    · rw [Equals, equal_list hi] at h
      split at h
      case isTrue hlength => exact ⟨j, rfl, (equalItems_eq_true_iff hlength).mp h⟩
      case isFalse => cases h
    · cases h
  · rintro ⟨j, rfl, hitems⟩
    rw [Equals, equal_list hi, if_pos hitems.length_eq]
    exact (equalItems_eq_true_iff hitems.length_eq).mpr hitems

/-- A dict equals the dicts that bind each of its keys to a value that is equalled by its own. -/
theorem equals_dict_iff {i : DictId} (hi : s.AcyclicFrom (.dict i)) {b : Value} :
    s.Equals (.dict i) b ↔
      ∃ j, b = .dict j ∧ ∀ e ∈ (s.dict i).entries, ∃ v,
        (s.dict j).entries.get? Atom.alike e.1 = some v ∧ s.Equals e.2 v := by
  constructor
  · intro h
    rcases b with b | j | j
    · cases h
    · cases h
    · rw [Equals, equal_dict hi] at h
      exact ⟨j, rfl, coveredBy_eq_true_iff.mp h⟩
  · rintro ⟨j, rfl, hentries⟩
    rw [Equals, equal_dict hi]
    exact coveredBy_eq_true_iff.mpr hentries

/-- An atom is compared as it is, without going anywhere. -/
theorem equal_atom {a : Atom} (ha : a.isComparable = true) (b : Value) :
    s.equal (.atom a) b =
      match b with
      | .atom b => .ok (a.same b)
      | _ => .ok false := by
  have hunfold : s.equal (.atom a) b = a.equals b := rfl
  rw [hunfold]
  cases a with
  | native f => cases ha
  | _ => rcases b with b | j | j <;> rfl

/-- A comparable atom equals the atoms that are the same. -/
theorem equals_atom_iff {a : Atom} (ha : a.isComparable = true) {b : Value} :
    s.Equals (.atom a) b ↔ ∃ b', b = .atom b' ∧ a.same b' = true := by
  rw [Equals, equal_atom ha]
  rcases b with b | j | j <;> simp

/-! ### The laws -/

/-- Comparing a comparable value answers. -/
theorem Comparable.answers {a : Value} (ha : s.Comparable a) (b : Value) :
    ∃ answer, s.equal a b = .ok answer := by
  induction ha using Comparable.induction generalizing b with
  | step a ha ih =>
    rcases a with a | i | i
    · rw [equal_atom ha.atom]
      split <;> exact ⟨_, rfl⟩
    · rcases b with b | j | j
      · exact ⟨false, rfl⟩
      · rw [equal_list ha.acyclic]
        split
        · exact equalItems_answers fun v hv => ih v (.item hv)
        · exact ⟨false, rfl⟩
      · exact ⟨false, rfl⟩
    · rcases b with b | j | j
      · exact ⟨false, rfl⟩
      · exact ⟨false, rfl⟩
      · rw [equal_dict ha.acyclic]
        exact coveredBy_answers fun e he => ih e.2 (.value he)

/-- A comparable value equals itself. -/
theorem Comparable.refl (hs : s.KeysDistinct) {a : Value} (ha : s.Comparable a) : s.Equals a a := by
  induction ha using Comparable.induction with
  | step a ha ih =>
    rcases a with a | i | i
    · exact (equals_atom_iff ha.atom).mpr ⟨a, rfl, Atom.same_refl ha.atom⟩
    · refine (equals_list_iff ha.acyclic).mpr ⟨i, rfl, ?_⟩
      exact List.forall₂_same.mpr fun v hv => ih v (.item hv)
    · refine (equals_dict_iff ha.acyclic).mpr ⟨i, rfl, fun e he => ⟨e.2, ?_, ih e.2 (.value he)⟩⟩
      exact get?_of_mem_entries (hs i) he (Atom.alike_refl e.1)

/-- Equality of comparable values goes on from one to the next. -/
theorem Comparable.trans {a b c : Value} (ha : s.Comparable a) (hb : s.Comparable b)
    (hab : s.Equals a b) (hbc : s.Equals b c) : s.Equals a c := by
  induction ha using Comparable.induction generalizing b c with
  | step a ha ih =>
    rcases a with a | i | i
    · obtain ⟨b, rfl, hsame⟩ := (equals_atom_iff ha.atom).mp hab
      obtain ⟨c, rfl, hsame'⟩ := (equals_atom_iff hb.atom).mp hbc
      exact (equals_atom_iff ha.atom).mpr ⟨c, rfl, Atom.same_trans hsame hsame'⟩
    · obtain ⟨j, rfl, hitems⟩ := (equals_list_iff ha.acyclic).mp hab
      obtain ⟨k, rfl, hitems'⟩ := (equals_list_iff hb.acyclic).mp hbc
      refine (equals_list_iff ha.acyclic).mpr ⟨k, rfl, ?_⟩
      rw [List.forall₂_iff_get] at hitems hitems' ⊢
      refine ⟨hitems.1.trans hitems'.1, fun n hi hk => ?_⟩
      have hj : n < (s.list j).items.length := hitems.1 ▸ hi
      exact ih _ (.item (List.getElem_mem hi)) (hb.contained (.item (List.getElem_mem hj)))
        (hitems.2 n hi hj) (hitems'.2 n hj hk)
    · obtain ⟨j, rfl, hcover⟩ := (equals_dict_iff ha.acyclic).mp hab
      obtain ⟨k, rfl, hcover'⟩ := (equals_dict_iff hb.acyclic).mp hbc
      refine (equals_dict_iff ha.acyclic).mpr ⟨k, rfl, fun e he => ?_⟩
      -- the second dict holds the value under a key that is like this one
      obtain ⟨v, hv, hev⟩ := hcover e he
      obtain ⟨key, hmem, hkey⟩ := Association.exists_of_get? hv
      obtain ⟨w, hw, hvw⟩ := hcover' (key, v) hmem
      refine ⟨w, ?_, ih e.2 (.value he) (hb.contained (.value hmem)) hev hvw⟩
      rw [← get?_of_alike hkey]
      exact hw

/-- Equality of comparable values goes back where the left one has no dict in it. -/
theorem Comparable.symm {a b : Value} (ha : s.Comparable a) (hb : s.Comparable b)
    (hdicts : ∀ id, ¬ s.Reaches a (.dict id)) (hab : s.Equals a b) : s.Equals b a := by
  induction ha using Comparable.induction generalizing b with
  | step a ha ih =>
    rcases a with a | i | i
    · obtain ⟨b, rfl, hsame⟩ := (equals_atom_iff ha.atom).mp hab
      exact (equals_atom_iff hb.atom).mpr ⟨a, rfl, Atom.same_comm a b ▸ hsame⟩
    · obtain ⟨j, rfl, hitems⟩ := (equals_list_iff ha.acyclic).mp hab
      refine (equals_list_iff hb.acyclic).mpr ⟨i, rfl, ?_⟩
      rw [List.forall₂_iff_get] at hitems ⊢
      refine ⟨hitems.1.symm, fun n hj hi => ?_⟩
      have hitem : s.Contains (.list i) (s.list i).items[n] := .item (List.getElem_mem hi)
      exact ih _ hitem (hb.contained (.item (List.getElem_mem hj)))
        (fun id hreach => hdicts id (.head hitem hreach)) (hitems.2 n hi hj)
    · exact absurd .refl (hdicts i)

/-- Without dicts it does not matter which of two values is compared with the other. -/
theorem Comparable.equal_comm {a b : Value} (ha : s.Comparable a) (hb : s.Comparable b)
    (hadicts : ∀ id, ¬ s.Reaches a (.dict id)) (hbdicts : ∀ id, ¬ s.Reaches b (.dict id)) :
    s.equal a b = s.equal b a := by
  obtain ⟨x, hx⟩ := ha.answers b
  obtain ⟨y, hy⟩ := hb.answers a
  have hboth : x = true ↔ y = true := by
    constructor
    · rintro rfl
      have hback : s.equal b a = .ok true := ha.symm hb hadicts hx
      rw [hy] at hback
      exact Except.ok.inj hback
    · rintro rfl
      have hback : s.equal a b = .ok true := hb.symm ha hbdicts hy
      rw [hx] at hback
      exact Except.ok.inj hback
  rw [hx, hy, Bool.eq_iff_iff.mpr hboth]

/-! ### Dicts -/

/-- Keys that are no natives and no missing numbers equal each other when they are alike. -/
theorem equals_key_iff {k key : Atom} (hk : k.isComparable = true) :
    s.Equals (.atom k) (.atom key) ↔ k.alike key = true := by
  rw [equals_atom_iff hk, Atom.alike, Bool.or_eq_true, decide_eq_true_eq]
  constructor
  · rintro ⟨_, heq, hsame⟩
    cases heq
    exact .inr hsame
  · rintro (rfl | hsame)
    · exact ⟨k, rfl, Atom.same_refl hk⟩
    · exact ⟨key, rfl, hsame⟩

/-- A dict that equals another has no key that the other has not, and under keys that equal each
other its values equal those of the other. -/
theorem Comparable.entries_of_equals (hs : s.KeysDistinct) {i j : DictId}
    (hi : s.Comparable (.dict i)) (h : s.Equals (.dict i) (.dict j)) :
    (∀ e ∈ (s.dict i).entries, ∃ f ∈ (s.dict j).entries, s.Equals (.atom e.1) (.atom f.1)) ∧
      ∀ e ∈ (s.dict i).entries, ∀ f ∈ (s.dict j).entries, s.Equals (.atom e.1) (.atom f.1) →
        s.Equals e.2 f.2 := by
  obtain ⟨_, heq, hcover⟩ := (equals_dict_iff hi.acyclic).mp h
  cases heq
  have hkey : ∀ e ∈ (s.dict i).entries, ∀ key : Atom,
      s.Equals (.atom e.1) (.atom key) ↔ e.1.alike key = true :=
    fun e he key => equals_key_iff (hi.contained (.key he)).atom
  constructor
  · intro e he
    obtain ⟨v, hv, _⟩ := hcover e he
    obtain ⟨key, hmem, hlike⟩ := Association.exists_of_get? hv
    exact ⟨(key, v), hmem, (hkey e he key).mpr (Atom.alike_comm key e.1 ▸ hlike)⟩
  · intro e he f hf hef
    obtain ⟨v, hv, hev⟩ := hcover e he
    have hlike : f.1.alike e.1 = true := Atom.alike_comm e.1 f.1 ▸ (hkey e he f.1).mp hef
    rw [get?_of_mem_entries (hs j) hf hlike] at hv
    cases hv
    exact hev

end

/-! ## Keys in a run -/

/-- That no two keys of a dict are alike goes on to hold when new collections are made. -/
def keysDistinct : CollectionInvariant where
  At := KeysDistinct
  same {s s'} _ hdicts h id := by
    have hsame : s'.dict id = s.dict id := by rw [dict, dict, hdicts]
    rw [hsame]
    exact h id
  newList _ _ _ h := h
  newDict {s entries} _ hkeys _ h id := by
    by_cases hid : id.index = s.dicts.size
    · have hcell : (s.newDict entries).2.dict id = ⟨entries⟩ := by simp [newDict, dict, hid]
      rw [hcell]
      exact hkeys
    · have hcell : (s.newDict entries).2.dict id = s.dict id := by
        simp [newDict, dict, Array.getElem?_push, hid]
      rw [hcell]
      exact h id

/-- Natives change dicts by putting in keys, so they may change any of them. -/
theorem allows_keysDistinct (s : Store) (b : Builtin) (args : List Value) :
    keysDistinct.Allows s b args := by
  intro s' hmutation h id
  cases hmutation with
  | set hset =>
      obtain ⟨n, _, rfl⟩ := setItem_eq hset
      exact h id
  | @put changed key v _ hput =>
      obtain ⟨a, rfl, rfl⟩ := setKey_eq hput
      by_cases hid : id = changed
      · subst hid
        by_cases hthere : id.index < s.dicts.size
        · rw [dict_putEntry_self hthere]
          exact distinctKeys_put (h id) a v
        · have hnone : (s.putEntry id a v).dict id = ⟨[]⟩ := by
            rw [dict, Array.getElem?_eq_none]
            · rfl
            · exact Nat.le_trans (Nat.le_of_eq Array.size_modify) (Nat.not_lt.mp hthere)
          rw [hnone]
          exact List.Pairwise.nil
      · rw [dict_putEntry_ne hid]
        exact h id

end Store

/-! ## The main statement -/

/-- No two keys of a dict are ever alike, whatever programs do. -/
theorem keysDistinct_of_later (natives : Natives) (disk : Disk) (logThreshold : Nat)
    {place : EvaluationPlace} {m : Machine}
    (h : Later natives.host place
      (Interpreter.start natives.host none (.initial disk logThreshold)).2 m) :
    m.store.KeysDistinct := by
  have hchanges : WatchesChanges Store.keysDistinct natives.host place :=
    fun _ _ _ _ _ _ _ _ _ _ _ _ hnot => absurd (Store.allows_keysDistinct _ _ _) hnot
  obtain ⟨_, hsince⟩ := h.safe natives.letsThrough (watchesQuotes_of_free place) hchanges
    (sealed_start natives.host disk logThreshold)
  exact hsince.keeps fun id => List.Pairwise.nil

/-- A store with three lists of one dict each: `[{:k 0}]`, `[{0 true :k -0.0}]` and `[{:k 0 0.0 true}]`. -/
def coveringDicts : Store :=
  { Store.empty with
    dicts := #[⟨[(.keyword "k", .int 0)]⟩,
      ⟨[(.int 0, .bool true), (.keyword "k", .float (.zero true))]⟩,
      ⟨[(.keyword "k", .int 0), (.float (.zero false), .bool true)]⟩]
    lists := #[⟨[.dict ⟨0⟩], true⟩, ⟨[.dict ⟨1⟩], false⟩, ⟨[.dict ⟨2⟩], true⟩] }

end DispatchLisp
