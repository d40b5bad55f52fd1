import DispatchLisp.Proofs.Text.Characters
import Mathlib.Data.List.TakeWhile

/-!
# Proofs.Text.Longest — scanners that take the longest text of a kind

A scanner answers what it takes off the front of a text. It takes the longest text of a kind when
whatever it takes is of that kind and no longer one stands there (`TakesLongest.eq_some_iff`).
-/

namespace DispatchLisp

/-- Whether a lexeme is the longest text of a kind at the front of a text, with a rest behind
it. -/
structure Longest (kind : List Char → Prop) (text lexeme rest : List Char) : Prop where
  split : lexeme ++ rest = text
  isKind : kind lexeme
  longest : ∀ other, kind other → other <+: text → other.length ≤ lexeme.length

theorem Longest.unique {kind : List Char → Prop} {text lexeme lexeme' rest rest' : List Char}
    (h : Longest kind text lexeme rest) (h' : Longest kind text lexeme' rest') :
    lexeme = lexeme' ∧ rest = rest' := by
  have hfirst : lexeme <+: text := ⟨rest, h.split⟩
  have hsecond : lexeme' <+: text := ⟨rest', h'.split⟩
  have hlength : lexeme.length = lexeme'.length :=
    Nat.le_antisymm (h'.longest _ h.isKind hfirst) (h.longest _ h'.isKind hsecond)
  have hsplit : lexeme ++ rest = lexeme' ++ rest' := h.split.trans h'.split.symm
  exact List.append_inj hsplit hlength

/-- Whether a scanner takes texts of a kind only, and never misses one or a part of it. -/
structure TakesLongest (kind : List Char → Prop) (scan : List Char → Option (List Char)) :
    Prop where
  sound : ∀ {text lexeme}, scan text = some lexeme → kind lexeme ∧ lexeme <+: text
  complete : ∀ {text other}, kind other → other <+: text →
    ∃ lexeme, scan text = some lexeme ∧ other.length ≤ lexeme.length

theorem TakesLongest.eq_some_iff {kind : List Char → Prop} {scan : List Char → Option (List Char)}
    (h : TakesLongest kind scan) {text lexeme : List Char} :
    scan text = some lexeme ↔ ∃ rest, Longest kind text lexeme rest := by
  constructor
  · intro hscan
    obtain ⟨hkind, rest, hrest⟩ := h.sound hscan
    refine ⟨rest, hrest, hkind, ?_⟩
    intro other hother hfront
    obtain ⟨taken, htaken, hlength⟩ := h.complete hother hfront
    rw [hscan, Option.some.injEq] at htaken
    rwa [htaken]
  · rintro ⟨rest, hlongest⟩
    have hfront : lexeme <+: text := ⟨rest, hlongest.split⟩
    obtain ⟨taken, htaken, hlength⟩ := h.complete hlongest.isKind hfront
    obtain ⟨hkind, htext⟩ := h.sound htaken
    -- neither of the two is longer, and both stand at the front of the text
    have hsame : lexeme = taken :=
      (List.prefix_of_prefix_length_le hfront htext hlength).eq_of_length
        (Nat.le_antisymm hlength (hlongest.longest taken hkind htext))
    rwa [hsame]

/-- A scanner that takes a text in front of a rest takes the longest one there. -/
theorem TakesLongest.longest {kind : List Char → Prop} {scan : List Char → Option (List Char)}
    (h : TakesLongest kind scan) {lexeme rest : List Char}
    (hscan : scan (lexeme ++ rest) = some lexeme) : Longest kind (lexeme ++ rest) lexeme rest := by
  obtain ⟨after, hlongest⟩ := h.eq_some_iff.mp hscan
  have hrest := List.append_cancel_left hlongest.split
  rwa [hrest] at hlongest

/-- A text of a kind is taken as a whole when nothing follows it. -/
theorem TakesLongest.eq_self {kind : List Char → Prop} {scan : List Char → Option (List Char)}
    (h : TakesLongest kind scan) {text : List Char} (hkind : kind text) : scan text = some text :=
  h.eq_some_iff.mpr ⟨[], List.append_nil _, hkind, fun _ _ hfront => hfront.length_le⟩

/-- Scanning characters of one class goes at least as far as any run of them. -/
theorem length_le_takeWhile {p : Char → Bool} {run text : List Char} (hrun : run <+: text)
    (h : ∀ c ∈ run, p c = true) : run.length ≤ (text.takeWhile p).length := by
  obtain ⟨rest, rfl⟩ := hrun
  rw [List.takeWhile_append_of_pos h, List.length_append]
  exact Nat.le_add_right _ _

/-- A text of a kind is the longest one in front of a character that stands in none of that
kind. -/
theorem Longest.of_stops {kind : List Char → Prop} {p : Char → Bool}
    (hchars : ∀ text, kind text → ∀ c ∈ text, p c = true) {lexeme rest : List Char}
    (h : kind lexeme) (hrest : Stops p rest) : Longest kind (lexeme ++ rest) lexeme rest where
  split := rfl
  isKind := h
  longest := by
    intro other hother hfront
    have hrun := length_le_takeWhile hfront (hchars other hother)
    rwa [hrest.takeWhile_append (hchars lexeme h)] at hrun

end DispatchLisp
