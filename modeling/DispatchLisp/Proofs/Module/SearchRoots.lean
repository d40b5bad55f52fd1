import DispatchLisp.Module.Geometry
import DispatchLisp.Proofs.Session
import DispatchLisp.Proofs.Evaluation.Frame
import Mathlib.Data.List.Find

/-!
# Proofs.Module.SearchRoots — where a module name can lead

The pieces between the dots of a module name are texts of paths of their own. Joined, they stay
below a search root unless one of them begins with a slash: such a piece starts at the root of the
file system and drops what came before it. A name whose pieces come to no part at all has no file
that could be looked for. `module_search` says for every name which of these happens, and what
comes of an import of the name.
-/

namespace DispatchLisp

/-! ## Pieces of a text -/

theorem splitOnChar_ne_nil (separator : Char) (text : List Char) :
    splitOnChar separator text ≠ [] := by
  cases text with
  | nil => exact List.cons_ne_nil _ _
  | cons ch rest =>
      unfold splitOnChar
      split
      · exact List.cons_ne_nil _ _
      · split
        · exact List.cons_ne_nil _ _
        · exact List.cons_ne_nil _ _

/-- A piece is made of characters of the text, and the separator is not among them. -/
theorem mem_of_mem_splitOnChar {separator : Char} {text piece : List Char}
    (h : piece ∈ splitOnChar separator text) {ch : Char} (hch : ch ∈ piece) :
    ch ∈ text ∧ ch ≠ separator := by
  induction text generalizing piece with
  | nil =>
      rw [splitOnChar, List.mem_singleton] at h
      rw [h] at hch
      cases hch
  | cons first rest ih =>
      rw [splitOnChar] at h
      split at h
      case isTrue =>
        rcases List.mem_cons.mp h with rfl | h
        · cases hch
        · exact ⟨List.mem_cons_of_mem _ (ih h hch).1, (ih h hch).2⟩
      case isFalse hne =>
        -- a character that does not separate goes to the front of the first piece
        cases hsplit : splitOnChar separator rest with
        | nil => exact absurd hsplit (splitOnChar_ne_nil _ _)
        | cons front pieces =>
            rw [hsplit] at h ih
            rcases List.mem_cons.mp h with rfl | h
            · rcases List.mem_cons.mp hch with rfl | hch
              · exact ⟨List.mem_cons_self, hne⟩
              · have hrest := ih List.mem_cons_self hch
                exact ⟨List.mem_cons_of_mem _ hrest.1, hrest.2⟩
            · have hrest := ih (List.mem_cons_of_mem _ h) hch
              exact ⟨List.mem_cons_of_mem _ hrest.1, hrest.2⟩

/-- Only a text of separators has nothing between them. -/
theorem splitOnChar_all_nil {separator : Char} {text : List Char} :
    (∀ piece ∈ splitOnChar separator text, piece = []) ↔ ∀ ch ∈ text, ch = separator := by
  induction text with
  | nil => simp [splitOnChar]
  | cons first rest ih =>
      rw [splitOnChar]
      split
      case isTrue hfirst => simp [hfirst, ih]
      case isFalse hfirst =>
        cases hsplit : splitOnChar separator rest with
        | nil => exact absurd hsplit (splitOnChar_ne_nil _ _)
        | cons front pieces => simp [hfirst]

/-! ## Paths of texts -/

/-- Whether the text of a path begins at the root of the file system. -/
def IsRooted (text : List Char) : Prop :=
  text.head? = some '/'

instance (text : List Char) : Decidable (IsRooted text) :=
  inferInstanceAs (Decidable (_ = _))

/-- Whether parts lead to a file below the place that they are taken from: there are some, each
is a name, and none leads back. -/
structure LeadDown (parts : List String) : Prop where
  nonempty : parts ≠ []
  names : ∀ part ∈ parts, part ≠ "" ∧ part ≠ ".." ∧ '/' ∉ part.toList

namespace Path

/-- The path that parts lead to from another one. -/
def below (root : Path) (parts : List String) : Path :=
  ⟨root.slashes, root.parts ++ parts⟩

theorem isAbsolute_ofText (text : List Char) : (ofText text).isAbsolute = true ↔ IsRooted text := by
  unfold IsRooted
  cases text with
  | nil => simp [ofText, isAbsolute, keptSlashes]
  | cons first rest =>
      by_cases hfirst : first = '/'
      · simp only [ofText, isAbsolute, keptSlashes, hfirst, List.takeWhile_cons, beq_self_eq_true,
          if_true, List.length_cons, List.head?_cons, bne_iff_ne, iff_true]
        split <;> omega
      · simp [ofText, isAbsolute, keptSlashes, hfirst]

/-- The parts that a text names are made of its characters other than slashes. -/
theorem mem_parts_ofText {text : List Char} {part : String} (h : part ∈ (ofText text).parts) :
    part ≠ "" ∧ '/' ∉ part.toList ∧ ∀ ch ∈ part.toList, ch ∈ text := by
  simp only [ofText, List.mem_map, List.mem_filter] at h
  rcases h with ⟨piece, ⟨hpiece, hkept⟩, rfl⟩
  have hchars := fun ch (hch : ch ∈ piece) => mem_of_mem_splitOnChar hpiece hch
  refine ⟨?_, ?_, ?_⟩
  · rintro hempty
    have hnil : piece = [] := by simpa using congrArg String.toList hempty
    simp [hnil] at hkept
  · rw [String.toList_ofList]
    exact fun hslash => (hchars _ hslash).2 rfl
  · rw [String.toList_ofList]
    exact fun ch hch => (hchars ch hch).1

/-- A text without dots names no part at all exactly when it is nothing but slashes. -/
theorem parts_ofText_eq_nil {text : List Char} (hdot : '.' ∉ text) :
    (ofText text).parts = [] ↔ ∀ ch ∈ text, ch = '/' := by
  rw [← splitOnChar_all_nil]
  simp only [ofText, List.map_eq_nil_iff, List.filter_eq_nil_iff]
  refine forall₂_congr fun piece hpiece => ?_
  have hne : piece ≠ ['.'] := by
    rintro rfl
    exact hdot (mem_of_mem_splitOnChar hpiece (List.mem_singleton_self _)).1
  simp [hne]

theorem isAbsolute_join (p q : Path) :
    (p.join q).isAbsolute = (p.isAbsolute || q.isAbsolute) := by
  unfold join
  split
  case isTrue hq => rw [hq, Bool.or_true]
  case isFalse hq =>
    rw [Bool.not_eq_true] at hq
    rw [hq, Bool.or_false, isAbsolute, isAbsolute]

/-- The pieces that a joined path is made of: those from the last rooted one on, or all of them if
none is rooted. -/
def countedPieces : List (List Char) → List (List Char)
  | [] => []
  | piece :: rest => if ∃ later ∈ rest, IsRooted later then countedPieces rest else piece :: rest

theorem mem_of_mem_countedPieces {pieces : List (List Char)} {piece : List Char}
    (h : piece ∈ countedPieces pieces) : piece ∈ pieces := by
  induction pieces with
  | nil => cases h
  | cons first rest ih =>
      rw [countedPieces] at h
      split at h
      · exact List.mem_cons_of_mem _ (ih h)
      · exact h

theorem countedPieces_of_relative {pieces : List (List Char)}
    (h : ¬ ∃ piece ∈ pieces, IsRooted piece) : countedPieces pieces = pieces := by
  cases pieces with
  | nil => rfl
  | cons first rest =>
      rw [countedPieces, if_neg]
      rintro ⟨later, hlater, hrooted⟩
      exact h ⟨later, List.mem_cons_of_mem _ hlater, hrooted⟩

theorem isAbsolute_joinAll (p : Path) (pieces : List (List Char)) :
    ((pieces.map ofText).foldl join p).isAbsolute = true ↔
      p.isAbsolute = true ∨ ∃ piece ∈ pieces, IsRooted piece := by
  induction pieces generalizing p with
  | nil => simp
  | cons first rest ih =>
      rw [List.map_cons, List.foldl_cons, ih, isAbsolute_join, Bool.or_eq_true, isAbsolute_ofText,
        or_assoc]
      simp

/-- A rooted piece drops what came before it. -/
theorem parts_joinAll (p : Path) (pieces : List (List Char)) :
    ((pieces.map ofText).foldl join p).parts =
      (if ∃ piece ∈ pieces, IsRooted piece then [] else p.parts) ++
        (countedPieces pieces).flatMap fun piece => (ofText piece).parts := by
  induction pieces generalizing p with
  | nil => simp [countedPieces]
  | cons first rest ih =>
      rw [List.map_cons, List.foldl_cons, ih, countedPieces]
      by_cases hrest : ∃ piece ∈ rest, IsRooted piece
      · have hpieces : ∃ piece ∈ first :: rest, IsRooted piece := by
          rcases hrest with ⟨piece, hpiece, hrooted⟩
          exact ⟨piece, List.mem_cons_of_mem _ hpiece, hrooted⟩
        rw [if_pos hrest, if_pos hrest, if_pos hpieces]
      · have hpieces : (∃ piece ∈ first :: rest, IsRooted piece) ↔
            (ofText first).isAbsolute = true := by
          rw [List.exists_mem_cons_iff, or_iff_left hrest, isAbsolute_ofText]
        rw [if_neg hrest, if_neg hrest, if_congr hpieces rfl rfl, countedPieces_of_relative hrest,
          List.flatMap_cons, join]
        split
        · rfl
        · exact List.append_assoc _ _ _

end Path

/-! ## The path of a name -/

/-- The pieces between the dots of a module name. -/
def namePieces (name : String) : List (List Char) :=
  splitOnChar '.' name.toList

/-- Whether a piece of a module name starts at the root of the file system. -/
def RootedName (name : String) : Prop :=
  ∃ piece ∈ namePieces name, IsRooted piece

/-- Whether a module name has no usable component: the pieces that its path is made of are
nothing but slashes. -/
def NamelessModule (name : String) : Prop :=
  ∀ piece ∈ Path.countedPieces (namePieces name), ∀ ch ∈ piece, ch = '/'

instance (name : String) : Decidable (RootedName name) :=
  inferInstanceAs (Decidable (∃ piece ∈ _, _))

instance (name : String) : Decidable (NamelessModule name) :=
  @List.decidableBAll _ _ (fun piece => List.decidableBAll _ piece) _

/-- The path that a module name spells, before it has an ending. -/
def spelledPath (name : String) : Path :=
  ((namePieces name).map Path.ofText).foldl Path.join .empty

theorem dot_notMem_namePieces {name : String} {piece : List Char} (h : piece ∈ namePieces name) :
    '.' ∉ piece :=
  fun hdot => (mem_of_mem_splitOnChar h hdot).2 rfl

theorem isAbsolute_spelledPath (name : String) :
    (spelledPath name).isAbsolute = true ↔ RootedName name := by
  rw [spelledPath, Path.isAbsolute_joinAll]
  exact or_iff_right (by decide)

theorem parts_spelledPath (name : String) :
    (spelledPath name).parts =
      (Path.countedPieces (namePieces name)).flatMap fun piece => (Path.ofText piece).parts := by
  rw [spelledPath, Path.parts_joinAll]
  simp [Path.empty]

theorem spelledPath_nameless_iff (name : String) :
    (spelledPath name).parts = [] ↔ NamelessModule name := by
  rw [parts_spelledPath, List.flatMap_eq_nil_iff]
  refine forall₂_congr fun piece hpiece => ?_
  exact Path.parts_ofText_eq_nil (dot_notMem_namePieces (Path.mem_of_mem_countedPieces hpiece))

/-- No part of a spelled path is empty, and none holds a slash or a dot. -/
theorem mem_parts_spelledPath {name part : String} (h : part ∈ (spelledPath name).parts) :
    part ≠ "" ∧ '/' ∉ part.toList ∧ '.' ∉ part.toList := by
  rw [parts_spelledPath, List.mem_flatMap] at h
  rcases h with ⟨piece, hpiece, hpart⟩
  rcases Path.mem_parts_ofText hpart with ⟨hempty, hslash, hchars⟩
  refine ⟨hempty, hslash, fun hdot => ?_⟩
  exact dot_notMem_namePieces (Path.mem_of_mem_countedPieces hpiece) (hchars _ hdot)

theorem modulePath_of_nameless {name : String} (h : NamelessModule name) :
    modulePath name = .error ⟨spelledPath name⟩ := by
  have hlast : (spelledPath name).parts.getLast? = none := by
    rw [(spelledPath_nameless_iff name).mpr h, List.getLast?_nil]
  simp only [modulePath]
  split
  case h_1 => rfl
  case h_2 file hfile => exact absurd (hlast.symm.trans hfile) (Option.some_ne_none file).symm

/-- The path of a name that has a usable component: only its last part gets an ending. -/
theorem modulePath_of_named {name : String} (h : ¬ NamelessModule name) :
    ∃ p, modulePath name = .ok p ∧ LeadDown p.parts ∧
      (p.isAbsolute = true ↔ RootedName name) := by
  have hparts := mt (spelledPath_nameless_iff name).mp h
  rcases List.eq_nil_or_concat (spelledPath name).parts with hnil | ⟨directories, file, hspelled⟩
  · exact absurd hnil hparts
  rw [List.concat_eq_append] at hspelled
  refine ⟨{ spelledPath name with parts := directories ++ [file ++ moduleSuffix] }, ?_, ⟨?_, ?_⟩, ?_⟩
  · -- the last part gets the ending, and the parts before it stay
    have hlast : (spelledPath name).parts.getLast? = some file := by
      rw [hspelled, List.getLast?_concat]
    have hfront : (spelledPath name).parts.dropLast = directories := by
      rw [hspelled, List.dropLast_concat]
    simp only [modulePath]
    split
    case h_1 hnone => exact absurd (hlast.symm.trans hnone) (Option.some_ne_none file)
    case h_2 found hfound =>
      obtain rfl : file = found := Option.some.inj (hlast.symm.trans hfound)
      exact congrArg (fun parts => Except.ok { spelledPath name with
        parts := parts ++ [file ++ moduleSuffix] }) hfront
  · exact List.append_ne_nil_of_right_ne_nil _ (List.cons_ne_nil _ _)
  · intro part hpart
    rcases List.mem_append.mp hpart with hdirectory | hfile
    · -- a directory is spelled without dots, so it is no step back
      have hclean : part ≠ "" ∧ '/' ∉ part.toList ∧ '.' ∉ part.toList :=
        mem_parts_spelledPath (hspelled ▸ List.mem_append_left _ hdirectory)
      refine ⟨hclean.1, ?_, hclean.2.1⟩
      rintro rfl
      exact hclean.2.2 (by decide)
    · have hclean : file ≠ "" ∧ '/' ∉ file.toList ∧ '.' ∉ file.toList :=
        mem_parts_spelledPath (hspelled ▸ List.mem_append_right _ (List.mem_singleton_self _))
      rw [List.mem_singleton.mp hfile]
      -- a file is longer than a step back, because of its ending
      have hsuffix : moduleSuffix.toList = ['.', 'g', 'l', 'i', 's', 'p'] := by decide
      refine ⟨?_, ?_, ?_⟩
      · intro hempty
        have hlength := congrArg (fun text => text.toList.length) hempty
        simp [hsuffix] at hlength
      · intro hback
        have hlength := congrArg (fun text => text.toList.length) hback
        simp [hsuffix] at hlength
      · rw [String.toList_append, List.mem_append, hsuffix]
        rintro (hslash | hslash)
        · exact hclean.2.1 hslash
        · revert hslash
          decide
  · exact isAbsolute_spelledPath name

/-! ## Files below a root -/

namespace Disk

/-- Parts without steps back lead further down from wherever they are taken. -/
theorem walk?_down {d : Disk} {here there : Place} {parts : List String}
    (hparts : ∀ part ∈ parts, part ≠ "..") (h : d.walk? here parts = some there) :
    there = here ++ parts := by
  induction parts generalizing here with
  | nil =>
      rw [walk?, Option.some.injEq] at h
      rw [← h, List.append_nil]
  | cons part rest ih =>
      rw [walk?] at h
      split at h
      case isFalse => cases h
      case isTrue =>
        have hnext : here.next part = here ++ [part] :=
          if_neg (hparts part List.mem_cons_self)
        rw [ih (fun part hpart => hparts part (List.mem_cons_of_mem _ hpart)) h, hnext,
          List.append_assoc, List.singleton_append]

theorem walk?_append (d : Disk) (here : Place) (front back : List String) :
    d.walk? here (front ++ back) = (d.walk? here front).bind fun middle => d.walk? middle back := by
  induction front generalizing here with
  | nil => rfl
  | cons part rest ih =>
      rw [List.cons_append, walk?, walk?]
      split
      · exact ih _
      · rfl

/-- A file below a root is in the directory of the root or further down. -/
theorem place?_below {d : Disk} {root : Path} {parts : List String} (hparts : LeadDown parts)
    {place : Place} (h : d.place? (root.below parts) = some place) :
    ∃ directory, d.place? root = some directory ∧ place = directory ++ parts := by
  have habsolute : (root.below parts).isAbsolute = root.isAbsolute := rfl
  unfold place? at h ⊢
  rw [habsolute] at h
  split at h
  case isFalse => cases h
  case isTrue habs =>
    rw [Path.below, walk?_append] at h
    rcases Option.bind_eq_some_iff.mp h with ⟨directory, hroot, hdown⟩
    exact ⟨directory, by rw [if_pos habs, hroot],
      walk?_down (fun part hpart => (hparts.names part hpart).2.1) hdown⟩

theorem hasFile_iff {d : Disk} {p : Path} : d.hasFile p = true ↔ ∃ text, d.read? p = some text :=
  Option.isSome_iff_exists

theorem place?_of_hasFile {d : Disk} {p : Path} (h : d.hasFile p = true) :
    ∃ place, d.place? p = some place := by
  rcases hasFile_iff.mp h with ⟨text, htext⟩
  rcases Option.bind_eq_some_iff.mp htext with ⟨place, hplace, _⟩
  exact ⟨place, hplace⟩

theorem resolve?_of_nameless (d : Disk) {name : String} (h : NamelessModule name) :
    d.resolve? name = .error ⟨spelledPath name⟩ := by
  rw [resolve?, modulePath_of_nameless h]
  rfl

theorem resolve?_of_path (d : Disk) {name : String} {p : Path} (h : modulePath name = .ok p) :
    d.resolve? name = .ok ((d.roots.map (·.join p)).find? d.hasFile) := by
  rw [resolve?, h]
  rfl

/-- A relative path is looked for below each root. -/
theorem resolve?_of_relative (d : Disk) {name : String} {p : Path} (h : modulePath name = .ok p)
    (hp : p.isAbsolute = false) :
    d.resolve? name = .ok ((d.roots.map (·.below p.parts)).find? d.hasFile) := by
  rw [resolve?_of_path d h]
  congr 3
  funext root
  rw [Path.join, hp]
  rfl

/-- An absolute path is looked for itself, as often as there are roots. -/
theorem resolve?_of_absolute (d : Disk) {name : String} {p : Path} (h : modulePath name = .ok p)
    (hp : p.isAbsolute = true) :
    d.resolve? name = .ok (if d.roots ≠ [] ∧ d.hasFile p = true then some p else none) := by
  rw [resolve?_of_path d h]
  have hjoin : d.roots.map (·.join p) = List.replicate d.roots.length p := by
    rw [List.eq_replicate_iff]
    refine ⟨List.length_map _, fun q hq => ?_⟩
    rcases List.mem_map.mp hq with ⟨root, _, rfl⟩
    rw [Path.join, if_pos hp]
  rw [hjoin, List.find?_replicate]
  by_cases hroots : d.roots = []
  · simp [hroots]
  · simp [hroots, List.length_eq_zero_iff]

/-- What is found for a relative path is below a root, also as a place. -/
theorem resolve?_below {d : Disk} {name : String} {p found : Path} (h : modulePath name = .ok p)
    (hp : p.isAbsolute = false) (hdown : LeadDown p.parts)
    (hfound : d.resolve? name = .ok (some found)) :
    ∃ root ∈ d.roots, ∃ directory, found = root.below p.parts ∧
      d.place? root = some directory ∧ d.place? found = some (directory ++ p.parts) := by
  rw [resolve?_of_relative d h hp, Except.ok.injEq] at hfound
  rcases List.mem_map.mp (List.mem_of_find?_eq_some hfound) with ⟨root, hroot, rfl⟩
  rcases place?_of_hasFile (List.find?_some hfound) with ⟨place, hplace⟩
  rcases place?_below hdown hplace with ⟨directory, hdirectory, rfl⟩
  exact ⟨root, hroot, directory, rfl, hdirectory, hplace⟩

/-- Which file a relative path comes to, and its text, depends on what is below the roots only. -/
theorem resolve?_congr {d d' : Disk} {name : String} {p : Path} (h : modulePath name = .ok p)
    (hp : p.isAbsolute = false) (hroots : d'.roots = d.roots)
    (hbelow : ∀ root ∈ d.roots, d'.read? (root.below p.parts) = d.read? (root.below p.parts)) :
    d'.resolve? name = d.resolve? name ∧
      ∀ found, d.resolve? name = .ok (some found) → d'.read? found = d.read? found := by
  rw [resolve?_of_relative d h hp, resolve?_of_relative d' h hp, hroots]
  constructor
  · congr 1
    apply List.find?_congr
    intro q hq
    rcases List.mem_map.mp hq with ⟨root, hroot, rfl⟩
    rw [hasFile, hasFile, hbelow root hroot]
  · intro found hfound
    rw [Except.ok.injEq] at hfound
    rcases List.mem_map.mp (List.mem_of_find?_eq_some hfound) with ⟨root, hroot, rfl⟩
    exact hbelow root hroot

theorem read?_of_resolve? {d : Disk} {name : String} {found : Path}
    (h : d.resolve? name = .ok (some found)) : ∃ text, d.read? found = some text := by
  by_cases hname : NamelessModule name
  · rw [resolve?_of_nameless d hname] at h
    cases h
  · rcases modulePath_of_named hname with ⟨p, hp, _⟩
    rw [resolve?_of_path d hp, Except.ok.injEq] at h
    exact hasFile_iff.mp (List.find?_some h)

end Disk

/-! ## What loading and importing come to -/

section

variable {ev : Evaluator} {name : String} {m : Machine}

theorem loadModuleFile_of_nameless (h : NamelessModule name) :
    loadModuleFile ev name m =
      (.error (.host ⟨.value, some (UnnamedFile.message ⟨spelledPath name⟩)⟩), m) := by
  have hask : (ask Machine.disk : NativeEval Disk) m = (.ok m.disk, m) := rfl
  rw [loadModuleFile, Computation.bind_of_ok hask, m.disk.resolve?_of_nameless h]
  rfl

theorem loadModuleFile_of_missing (h : m.disk.resolve? name = .ok none) :
    loadModuleFile ev name m = (.error (.fault (.moduleNotFound name)), m) := by
  have hask : (ask Machine.disk : NativeEval Disk) m = (.ok m.disk, m) := rfl
  rw [loadModuleFile, Computation.bind_of_ok hask, h]
  rfl

theorem loadModuleFile_of_found {found : Path} {text : String}
    (h : m.disk.resolve? name = .ok (some found)) (htext : m.disk.read? found = some text) :
    loadModuleFile ev name m = (liftM (loadModule ev name text (some found)) : NativeEval Module) m := by
  have hask : (ask Machine.disk : NativeEval Disk) m = (.ok m.disk, m) := rfl
  rw [loadModuleFile, Computation.bind_of_ok hask, h]
  simp only [htext, Option.getD_some]

/-- An import of a module that is not registered fails with what loading its file fails with. -/
theorem importModule_of_unloadable {e : Raised} {m' : Machine} (hnew : m.modules.get? name = none)
    (h : loadModuleFile ev name m = (.error e, m')) (c : ContextId) (qualifier : Option String) :
    importModule ev c name qualifier m = (.error e, m') := by
  rw [← Frame.provideModule_of_new hnew] at h
  exact Computation.bind_of_error h

end

/-- Where a module name can lead. Its path has a part, none of them empty, a step back or with a
slash inside, and the path is relative unless a piece of the name begins with a slash. So on every
disk the file of such a name is below a root, as a path and as a place, and depends on nothing
else that the disk holds; the file of any other name is its path itself, wherever the roots are.
Only a name whose pieces come to nothing but slashes has no path: loading it is a host error,
where a file that is not there is a fault about the module. -/
theorem module_search (name : String) :
    (∀ p, modulePath name = .ok p →
      LeadDown p.parts ∧ (p.isAbsolute = true ↔ RootedName name) ∧
      (∀ disk found, ¬ RootedName name → Disk.resolve? disk name = .ok (some found) →
        ∃ root ∈ disk.roots, ∃ directory, found = root.below p.parts ∧
          disk.place? root = some directory ∧ disk.place? found = some (directory ++ p.parts)) ∧
      (∀ disk disk', ¬ RootedName name → disk'.roots = disk.roots →
        (∀ root ∈ disk.roots, disk'.read? (root.below p.parts) = disk.read? (root.below p.parts)) →
        Disk.resolve? disk' name = Disk.resolve? disk name ∧
          ∀ found, disk.resolve? name = .ok (some found) → disk'.read? found = disk.read? found) ∧
      ∀ disk, RootedName name →
        Disk.resolve? disk name =
          .ok (if disk.roots ≠ [] ∧ disk.hasFile p = true then some p else none)) ∧
    ((∃ e, modulePath name = .error e) ↔ NamelessModule name) ∧
    ∀ ev m,
      (NamelessModule name → loadModuleFile ev name m =
        (.error (.host ⟨.value, some (UnnamedFile.message ⟨spelledPath name⟩)⟩), m)) ∧
      (m.disk.resolve? name = .ok none →
        loadModuleFile ev name m = (.error (.fault (.moduleNotFound name)), m)) ∧
      (∀ found, m.disk.resolve? name = .ok (some found) →
        ∃ text, m.disk.read? found = some text ∧ loadModuleFile ev name m =
          (liftM (loadModule ev name text (some found)) : NativeEval Module) m) ∧
      ∀ c qualifier e m', m.modules.get? name = none →
        loadModuleFile ev name m = (.error e, m') →
        importModule ev c name qualifier m = (.error e, m') := by
  refine ⟨?_, ?_, ?_⟩
  · intro p hp
    have hnamed : ¬ NamelessModule name := by
      intro hnameless
      rw [modulePath_of_nameless hnameless] at hp
      cases hp
    obtain ⟨_, hpath, hdown, habsolute⟩ := modulePath_of_named hnamed
    rw [hp, Except.ok.injEq] at hpath
    subst hpath
    have hrelative : ¬ RootedName name → p.isAbsolute = false := fun hrooted =>
      Bool.eq_false_iff.mpr (mt habsolute.mp hrooted)
    refine ⟨hdown, habsolute, ?_, ?_, ?_⟩
    · intro disk found hrooted hfound
      exact Disk.resolve?_below hp (hrelative hrooted) hdown hfound
    · intro disk disk' hrooted hroots hbelow
      exact Disk.resolve?_congr hp (hrelative hrooted) hroots hbelow
    · intro disk hrooted
      exact disk.resolve?_of_absolute hp (habsolute.mpr hrooted)
  · constructor
    · rintro ⟨e, he⟩
      by_contra hnamed
      obtain ⟨p, hp, _⟩ := modulePath_of_named hnamed
      rw [hp] at he
      cases he
    · exact fun hnameless => ⟨_, modulePath_of_nameless hnameless⟩
  · intro ev m
    refine ⟨loadModuleFile_of_nameless, loadModuleFile_of_missing, ?_, ?_⟩
    · intro found hfound
      obtain ⟨text, htext⟩ := Disk.read?_of_resolve? hfound
      exact ⟨text, htext, loadModuleFile_of_found hfound htext⟩
    · intro c qualifier e m' hnew hload
      exact importModule_of_unloadable hnew hload c qualifier

/-- A disk with a search root and a file outside it. -/
def diskWithSecret : Disk :=
  { Disk.empty.write ⟨1, ["secret.glisp"]⟩ "(def x 1)" with roots := [⟨1, ["modules"]⟩] }

/-- The state of a new interpreter on that disk. -/
def besideSecret : Machine :=
  (Interpreter.start Host.basic none (.initial diskWithSecret 30)).2

/-- The module that comes with the language is found below the root that comes with it, a file
outside the roots under its own path, and the empty name cannot even be looked for. -/
theorem module_search_of_each_kind :
    (∃ root ∈ Disk.bundled.roots, ∃ directory,
      bundledRoot.below ["geometry.glisp"] = root.below ["geometry.glisp"] ∧
        Disk.bundled.place? root = some directory ∧
        Disk.bundled.place? (bundledRoot.below ["geometry.glisp"]) =
          some (directory ++ ["geometry.glisp"])) ∧
    diskWithSecret.resolve? "/secret" = .ok (some ⟨1, ["secret.glisp"]⟩) ∧
    loadModuleFile (evaluateIn Host.basic) "" besideSecret =
      (.error (.host ⟨.value, some (UnnamedFile.message ⟨spelledPath ""⟩)⟩), besideSecret) := by
  refine ⟨?_, ?_, ?_⟩
  · have hpath : modulePath "geometry" = .ok ⟨0, ["geometry.glisp"]⟩ := by rfl
    have hrelative : ¬ RootedName "geometry" := by decide +kernel
    have hfound : Disk.bundled.resolve? "geometry" =
        .ok (some (bundledRoot.below ["geometry.glisp"])) := by rfl
    exact ((module_search "geometry").1 _ hpath).2.2.1 _ _ hrelative hfound
  · have hpath : modulePath "/secret" = .ok ⟨1, ["secret.glisp"]⟩ := by rfl
    have hrooted : RootedName "/secret" := by decide +kernel
    have hthere : diskWithSecret.roots ≠ [] ∧
        diskWithSecret.hasFile ⟨1, ["secret.glisp"]⟩ = true := by decide +kernel
    rw [((module_search "/secret").1 _ hpath).2.2.2.2 diskWithSecret hrooted, if_pos hthere]
  · have hnameless : NamelessModule "" := by decide +kernel
    exact ((module_search "").2.2 (evaluateIn Host.basic) besideSecret).1 hnameless

/-- A name can lead out of the roots, and a name without a usable component is not reported as a
module that cannot be found. -/
theorem module_name_leaves_the_roots :
    modulePath "/secret" = .ok ⟨1, ["secret.glisp"]⟩ ∧
    diskWithSecret.resolve? "/secret" = .ok (some ⟨1, ["secret.glisp"]⟩) ∧
    (¬ ∃ root ∈ diskWithSecret.roots, ∃ parts, Path.mk 1 ["secret.glisp"] = root.below parts) ∧
    (Interpreter.eval Host.basic firstRoot "(import \"/secret\") /secret.x" besideSecret).1.toOption =
      some (.int 1) ∧
    Interpreter.report (Interpreter.eval Host.basic firstRoot "(import \"\")" besideSecret).1 =
      "GlispTypeError: PosixPath('.') has an empty name" := by
  refine ⟨by rfl, by rfl, ?_, by decide +kernel, by decide +kernel⟩
  rintro ⟨root, hroot, parts, hsame⟩
  rw [List.mem_singleton.mp hroot] at hsame
  have hfirst := congrArg (fun p => p.parts.head?) hsame
  revert hfirst
  simp [Path.below]

end DispatchLisp
