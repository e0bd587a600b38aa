import ComponentLint.Resolution.Alias
import ComponentLint.Source.Host

/-! Which file a specifier means: the first that exists of a fixed order of paths. Units of the program
count as existing files. -/
namespace ComponentLint

structure Search where
  host : SourceHost
  known : List Path

namespace Search

/-- The extensions tried behind a candidate, in order. -/
def extensions : List Text :=
  ["ts", "tsx", "d.ts", "vue", "js", "jsx", "mjs", "cjs"].map String.toList

def hasFile (s : Search) (p : Path) : Bool := s.known.any (·.same p) || s.host.hasFile p

def withExtension (p : Path) (extension : Text) : Path := ⟨p.chars ++ '.' :: extension⟩

/-- The path without its `.js` or `.jsx`. -/
def scriptStem? (p : Path) : Option Path :=
  match p.extension? with
  | some extension =>
    if extension = "js".toList || extension = "jsx".toList then
      some ⟨((Path.trimTail p.chars.reverse).drop (extension.length + 1)).reverse⟩
    else none
  | none => none

/-- The files that a candidate may mean: itself, a TypeScript file in place of a JavaScript one, then
with an extension, then the index of a directory. -/
def places (candidate : Path) : List Path :=
  [candidate] ++
    (match scriptStem? candidate with
    | some stem => [withExtension stem "ts".toList, withExtension stem "tsx".toList]
    | none => []) ++
    extensions.map (withExtension candidate) ++
    extensions.map fun extension => candidate.join ⟨"index.".toList ++ extension⟩

def file? (s : Search) (candidate : Path) : Option Path := (places candidate).find? s.hasFile

/-- A package in one directory of packages: its file, or the directory itself. -/
def packageAt? (s : Search) (base : Path) : Option Path :=
  match s.file? base with
  | some found => some found
  | none => if s.host.hasDirectory base then some base else none

/-- A package or its types, in the nearest directory above the importer that has one. -/
def package? (s : Search) (specifier : Text) (importer : Path) : Option Path :=
  match importer.parent? with
  | none => none
  | some directory =>
    directory.ancestors.findSome? fun above =>
      let packages := above.join (.ofString "node_modules")
      (s.packageAt? (packages.join ⟨specifier⟩)).or
        (s.packageAt? ((packages.join (.ofString "@types")).join ⟨specifier⟩))

/-- What an import means. Modules of the runtime itself are taken as they are named. -/
def resolve (s : Search) (r : Resolver) (specifier : Text) (importer : Path) : Option Path :=
  if Text.startsWith specifier "node:".toList then some ⟨specifier⟩
  else
    match s.file? (r.candidate specifier importer) with
    | some found => some found
    | none => if r.isBare specifier then s.package? specifier importer else none

end Search

end ComponentLint
