import DispatchLisp.Context.Lookup

/-!
# Context.Import — bindings taken over from other contexts

An import copies the bindings of a source into an importer, each name behind a qualifier. The
importer records which names it took over, the source who imports it, so that a changed source
can be imported again: names that it has lost disappear from the importer.
-/

namespace DispatchLisp

/-- The names that were taken over from a source under a qualifier. -/
def importedNames (source : ContextId) (qualifier : String) : List ImportRecord → List String
  | [] => []
  | r :: rest =>
    if r.source = source && r.qualifier == qualifier then r.names
    else importedNames source qualifier rest

/-- Records which names were taken over from a source under a qualifier. -/
def recordImport (record : ImportRecord) : List ImportRecord → List ImportRecord
  | [] => [record]
  | r :: rest =>
    if r.source = record.source && r.qualifier == record.qualifier then record :: rest
    else r :: recordImport record rest

/-- Records a qualifier under which a context is imported. -/
def recordUsage (importer : ContextId) (qualifier : String) : List Usage → List Usage
  | [] => [⟨importer, [qualifier]⟩]
  | u :: rest =>
    if u.importer = importer then
      if u.qualifiers.contains qualifier then u :: rest
      else { u with qualifiers := u.qualifiers ++ [qualifier] } :: rest
    else u :: recordUsage importer qualifier rest

/-- A context after taking over bindings from a source in place of the earlier ones. -/
def ContextCell.takeOver (c : ContextCell) (source : ContextId) (qualifier : String)
    (fresh : Table Value) : ContextCell :=
  let names := Association.keys fresh
  let stale := (importedNames source qualifier c.imports).filter fun name => !names.contains name
  { c with
    table := (stale.foldl Table.erase c.table).setAll fresh
    imports := recordImport ⟨source, qualifier, names⟩ c.imports }

namespace Store

/-- Takes over the present bindings of a source under a qualifier. -/
def reimport (s : Store) (importer source : ContextId) (qualifier : String) : Store :=
  let fresh := (s.context source).table.map fun (name, v) => (qualifier ++ name, v)
  s.updateContext importer fun c => c.takeOver source qualifier fresh

/-- Takes over the bindings of a source, which from then on knows of it. -/
def importFrom (s : Store) (importer source : ContextId) (qualifier : String) : Store :=
  let s := (s.reimport importer source qualifier).updateContext source fun c =>
    { c with usages := recordUsage importer qualifier c.usages }
  { s with history := s.history ++ [⟨importer, source, qualifier⟩] }

/-- Imports a context again into everyone who imports it. -/
def propagate (s : Store) (source : ContextId) : Store :=
  (s.context source).usages.foldl
    (fun s usage => usage.qualifiers.foldl
      (fun s qualifier => s.reimport usage.importer source qualifier) s) s

end Store

end DispatchLisp
