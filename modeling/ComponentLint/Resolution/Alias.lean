import ComponentLint.TsConfig.Basic

/-! Path aliases. A rule replaces the first segment of a specifier by a directory; the rules come from
the alias table, one for each first segment of its patterns. -/
namespace ComponentLint

structure AliasRule where
  symbol : Text
  /-- The directory that stands for the symbol; none means the default one. -/
  substitution : Option Text
deriving DecidableEq, Repr, Inhabited

namespace AliasRule

def defaultDirectory : Text := "src".toList

/-- The text with its first star removed. -/
def withoutStar : Text → Text
  | [] => []
  | c :: rest => if c = '*' then rest else c :: withoutStar rest

def symbolOf (pattern : Text) : Text := pattern.takeWhile (· ≠ '/')

/-- The first target of the entry for everything below the symbol. -/
def substitutionFor (table : List PathMapping) (symbol : Text) : Option Text :=
  (table.find? (·.pattern = symbol ++ "/*".toList)).bind fun m => m.targets.head?.map withoutStar

def put (rule : AliasRule) : List AliasRule → List AliasRule
  | [] => [rule]
  | r :: rest => if r.symbol = rule.symbol then rule :: rest else r :: put rule rest

/-- Patterns that start with a dot or a slash are no aliases. -/
def isAlias (pattern : Text) : Bool := pattern.head? ≠ some '.' && pattern.head? ≠ some '/'

/-- The rules of an alias table; without a table, `@` stands for the default directory. -/
def ofTable : Option (List PathMapping) → List AliasRule
  | none => [⟨['@'], none⟩]
  | some table =>
    ((table.map (·.pattern)).filter isAlias).foldl
      (fun rules pattern => put ⟨symbolOf pattern, substitutionFor table (symbolOf pattern)⟩ rules) []

/-- What is behind the symbol and its slash, if the specifier begins with them. -/
def strip? (rule : AliasRule) (specifier : Text) : Option Text :=
  Text.after? (rule.symbol ++ ['/']) specifier

end AliasRule

structure Resolver where
  baseDirectory : Path
  rules : List AliasRule
deriving DecidableEq, Repr, Inhabited

namespace Resolver

def ofRules (baseDirectory : Path) (rules : List AliasRule) : Resolver := ⟨baseDirectory.normalize, rules⟩

def ofTable (baseDirectory : Path) (table : Option (List PathMapping)) : Resolver :=
  ofRules baseDirectory (AliasRule.ofTable table)

/-- The first rule that applies, with what is behind its symbol. -/
def matchAlias (r : Resolver) (specifier : Text) : Option (AliasRule × Text) :=
  r.rules.findSome? fun rule => (rule.strip? specifier).map fun rest => (rule, rest)

/-- The candidate for a specifier in a file, found without looking at files. -/
def candidate (r : Resolver) (specifier : Text) (importer : Path) : Path :=
  match r.matchAlias specifier with
  | some (rule, rest) =>
    ((r.baseDirectory.join ⟨rule.substitution.getD AliasRule.defaultDirectory⟩).join ⟨rest⟩).normalize
  | none =>
    if (⟨specifier⟩ : Path).isAbsolute then ⟨specifier⟩
    else ((importer.parent?.getD ⟨[]⟩).join ⟨specifier⟩).normalize

/-- Whether a specifier names a package. -/
def isBare (r : Resolver) (specifier : Text) : Bool :=
  specifier.head? ≠ some '.' && !(⟨specifier⟩ : Path).isAbsolute && (r.matchAlias specifier).isNone

end Resolver

end ComponentLint
