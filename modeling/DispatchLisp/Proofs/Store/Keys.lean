import DispatchLisp.Builtin.Collection
import DispatchLisp.Proofs.Association
import DispatchLisp.Proofs.Except
import DispatchLisp.Proofs.Value.Sameness

/-!
# Proofs.Store.Keys — no two keys of a dict are alike

A key that comes in again keeps its entry, so no two keys of a dict are alike, however it is made and
changed (`DistinctKeys`). Every entry is then found under its key, and under any key that is like it.
-/

namespace DispatchLisp

/-- Whether no two of some keys are alike. -/
def DistinctKeys (keys : List Atom) : Prop :=
  keys.Pairwise fun key other => key.alike other = false

instance (keys : List Atom) : Decidable (DistinctKeys keys) :=
  inferInstanceAs (Decidable (List.Pairwise _ _))

/-! ## Making and changing dicts -/

/-- Whatever is put into a dict, no two of its keys are alike. -/
theorem distinctKeys_put {entries : Association Atom Value} (h : DistinctKeys entries.keys)
    (key : Atom) (v : Value) :
    DistinctKeys (Association.keys (entries.put Atom.alike key v)) := by
  rw [Association.keys_put]
  split
  · exact h
  case isFalse hnew =>
    rw [Bool.not_eq_true, Association.contains_eq_false_iff] at hnew
    refine List.pairwise_append.mpr ⟨h, List.pairwise_singleton _ _, fun k hk other hother => ?_⟩
    rw [List.mem_singleton.mp hother]
    exact hnew k hk

/-- No two keys of a dict that is made from keys and values in turn are alike. -/
theorem distinctKeys_pairEntries {s : Store} {values : List Value}
    {entries made : Association Atom Value} (h : DistinctKeys entries.keys)
    (hmade : s.pairEntries entries values = .ok made) : DistinctKeys made.keys := by
  fun_induction Store.pairEntries s entries values with
  | case1 entries key v rest ih => exact ih (distinctKeys_put h key v) hmade
  | case2 entries key v rest hkey =>
      obtain ⟨_, _, herror⟩ := bind_eq_ok.mp hmade
      cases herror
  | case3 =>
      cases hmade
      exact h

/-! ## Looking up keys -/

theorem Atom.alike_congr {a b : Atom} (h : a.alike b = true) (k : Atom) : k.alike a = k.alike b := by
  rw [Bool.eq_iff_iff]
  exact ⟨fun hk => alike_trans hk h, fun hk => alike_trans hk (alike_comm a b ▸ h)⟩

section

variable {entries : Association Atom Value} {key : Atom}

/-- Keys that are alike find the same. -/
theorem get?_of_alike {other : Atom} (h : key.alike other = true) :
    entries.get? Atom.alike key = entries.get? Atom.alike other := by
  induction entries with
  | nil => rfl
  | cons entry rest ih =>
      rcases entry with ⟨k, w⟩
      rw [Association.get?, Association.get?, Atom.alike_congr h, ih]

/-- What has been put in is found under the keys that are like its own, and under other keys all is
found as before. -/
theorem get?_put (v : Value) (k : Atom) :
    (entries.put Atom.alike key v).get? Atom.alike k =
      if key.alike k then some v else entries.get? Atom.alike k := by
  induction entries with
  | nil => rfl
  | cons entry rest ih =>
      rcases entry with ⟨first, w⟩
      rw [Association.put]
      cases hfirst : first.alike key with
      | true =>
          rw [if_pos rfl, Association.get?, Association.get?, Atom.alike_comm first k,
            Atom.alike_congr hfirst k, Atom.alike_comm k key]
          split <;> rfl
      | false =>
          rw [if_neg Bool.false_ne_true, Association.get?, Association.get?, ih]
          split
          case isTrue hk =>
            -- a key that is like both would make them alike
            have hne : ¬ key.alike k = true := fun hkey => by
              rw [Atom.alike_trans hk (Atom.alike_comm key k ▸ hkey)] at hfirst
              cases hfirst
            rw [if_neg hne]
          case isFalse => rfl

/-- Every entry is found under the keys that are like its own. -/
theorem get?_of_mem_entries (hdistinct : DistinctKeys entries.keys) {k : Atom} {v : Value}
    (hmem : (k, v) ∈ entries) (hk : k.alike key = true) :
    entries.get? Atom.alike key = some v := by
  induction entries with
  | nil => cases hmem
  | cons entry rest ih =>
      rcases entry with ⟨first, w⟩
      obtain ⟨hfirst, hrest⟩ := List.pairwise_cons.mp hdistinct
      rw [Association.get?]
      rcases List.mem_cons.mp hmem with heq | hmem
      · cases heq
        rw [hk]
        rfl
      · -- an earlier key that is like this one would be like the key of the entry
        have hne : first.alike key = false := by
          rw [← Atom.alike_congr hk]
          exact hfirst k (List.mem_map_of_mem hmem)
        rw [hne]
        exact ih hrest hmem

end

end DispatchLisp
