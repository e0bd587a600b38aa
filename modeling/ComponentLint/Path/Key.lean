import ComponentLint.Path.Basic

/-! The key of a path, under which what belongs to it is kept: its normal form from the root on. -/
namespace ComponentLint.Path

/-- Steps that are put behind a path one by one. -/
def extend (p : Path) (steps : List Component) : Path := steps.foldl (fun q c => q.join ⟨c.chars⟩) p

/-- The path from the root on, with single slashes and without single dots; `..` stays, and so do two slashes at the
start and one at the end. A relative path is taken from the working directory, and the empty one is nowhere. -/
def absolute? (cwd p : Path) : Option Path :=
  if p.chars = [] then none
  else
    let steps := p.components.filter (· ≠ .current)
    let spelled :=
      if !p.isAbsolute then cwd.extend steps
      else if p.chars.startsWith ['/', '/'] && !p.chars.startsWith ['/', '/', '/'] then
        extend ⟨['/', '/']⟩ (steps.drop 1)
      else extend ⟨[]⟩ steps
    some (if p.chars.getLast? = some '/' then spelled.join ⟨[]⟩ else spelled)

def cacheKey (cwd p : Path) : Path := ((absolute? cwd p).getD p).normalize

end ComponentLint.Path
