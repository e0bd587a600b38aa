import ComponentLint.Resolution.Alias
import ComponentLint.Proofs.Distinct
import ComponentLint.Proofs.Text.Split

/-! The rules of an alias table. There is one for each first segment of its patterns, in the order in which these come
first, and what it stands for is read off the whole table. So no two rules apply to one specifier, and the order of a
table whose patterns are distinct makes no difference to what a specifier means. -/
namespace ComponentLint

namespace AliasRule

/-! ## Symbols -/

theorem slash_not_mem_symbolOf (pattern : Text) : '/' ∉ symbolOf pattern := by
  intro member
  have passed := List.all_eq_true.1 (List.all_takeWhile (p := (· ≠ '/')) (l := pattern)) '/' member
  simp at passed

/-- The symbol is what stands in front of the first slash. -/
theorem symbolOf_append {symbol : Text} (pure : '/' ∉ symbol) (rest : Text) :
    symbolOf (symbol ++ '/' :: rest) = symbol := by
  have passed : ∀ c ∈ symbol, decide (c ≠ '/') = true := by
    intro c member
    rw [decide_eq_true_iff]
    rintro rfl
    exact pure member
  rw [symbolOf, List.takeWhile_append_of_pos passed]
  simp

theorem strip?_eq_some_iff {rule : AliasRule} {specifier rest : Text} :
    rule.strip? specifier = some rest ↔ specifier = rule.symbol ++ '/' :: rest := by
  rw [strip?, Text.after?_eq_some_iff, List.append_assoc, List.singleton_append]

/-- A rule applies only to specifiers with its symbol as the first segment. -/
theorem symbolOf_of_strip? {rule : AliasRule} (pure : '/' ∉ rule.symbol) {specifier rest : Text}
    (applies : rule.strip? specifier = some rest) : rule.symbol = symbolOf specifier := by
  rw [strip?_eq_some_iff.1 applies, symbolOf_append pure]

/-! ## Substitutions -/

/-- The second text is the first with its first star taken out, if there is one. -/
inductive Unstarred : Text → Text → Prop where
  | plain {t : Text} (absent : '*' ∉ t) : Unstarred t t
  | star {front rest : Text} (absent : '*' ∉ front) : Unstarred (front ++ '*' :: rest) (front ++ rest)

theorem Unstarred.eq {t u : Text} (h : Unstarred t u) : withoutStar t = u := by
  cases h with
  | plain absent =>
    induction t with
    | nil => rfl
    | cons c t ih =>
      obtain ⟨other, later⟩ : '*' ≠ c ∧ '*' ∉ t := by simpa using absent
      rw [withoutStar, if_neg other.symm, ih later]
  | @star front rest absent =>
    induction front with
    | nil => rfl
    | cons c front ih =>
      obtain ⟨other, later⟩ : '*' ≠ c ∧ '*' ∉ front := by simpa using absent
      rw [List.cons_append, withoutStar, if_neg other.symm, ih later, List.cons_append]

theorem unstarred_withoutStar (t : Text) : Unstarred t (withoutStar t) := by
  by_cases star : '*' ∈ t
  · obtain ⟨front, rest, rfl, absent⟩ := List.eq_append_cons_of_mem star
    have taken : Unstarred (front ++ '*' :: rest) (front ++ rest) := .star absent
    rwa [taken.eq]
  · have kept : Unstarred t t := .plain star
    rwa [kept.eq]

/-- The directory comes from the first target of the first entry for everything below the symbol. -/
def Substitutes (table : List PathMapping) (symbol directory : Text) : Prop :=
  ∃ earlier entry later target targets, table = earlier ++ entry :: later ∧
    entry.pattern = symbol ++ "/*".toList ∧ (∀ e ∈ earlier, e.pattern ≠ symbol ++ "/*".toList) ∧
    entry.targets = target :: targets ∧ Unstarred target directory

theorem substitutionFor_eq_some_iff {table : List PathMapping} {symbol directory : Text} :
    substitutionFor table symbol = some directory ↔ Substitutes table symbol directory := by
  rw [substitutionFor, Option.bind_eq_some_iff]
  constructor
  · rintro ⟨entry, found, first⟩
    obtain ⟨target, head, rfl⟩ := Option.map_eq_some_iff.1 first
    obtain ⟨targets, split⟩ := List.head?_eq_some_iff.1 head
    obtain ⟨named, earlier, later, whole, others⟩ := List.find?_eq_some_iff_append.1 found
    exact ⟨earlier, entry, later, target, targets, whole, by simpa using named,
      fun e member => by simpa using others e member, split, unstarred_withoutStar target⟩
  · rintro ⟨earlier, entry, later, target, targets, whole, named, others, split, taken⟩
    refine ⟨entry, List.find?_eq_some_iff_append.2 ⟨by simpa using named, earlier, later, whole, ?_⟩, ?_⟩
    · intro e member
      simpa using others e member
    · rw [split, List.head?_cons, Option.map_some, taken.eq]

/-! ## The rules of a table -/

/-- The symbols of a table in the order in which they come first. -/
def symbols (table : List PathMapping) : List Text :=
  (((table.map (·.pattern)).filter isAlias).map symbolOf).eraseDups

/-- The rule that a table has for a symbol. -/
def forSymbol (table : List PathMapping) (symbol : Text) : AliasRule := ⟨symbol, substitutionFor table symbol⟩

/-- A rule that is put in again stands in its own place. -/
theorem put_forSymbol (table : List PathMapping) (symbol : Text) (known : List Text) :
    put (forSymbol table symbol) (known.map (forSymbol table)) =
      (if symbol ∈ known then known else known ++ [symbol]).map (forSymbol table) := by
  induction known with
  | nil => rfl
  | cons first known ih =>
    by_cases same : first = symbol
    · subst same
      simp [put, forSymbol]
    · have other : ¬(forSymbol table first).symbol = (forSymbol table symbol).symbol := same
      by_cases later : symbol ∈ known
      · rw [if_pos later] at ih
        rw [List.map_cons, put, if_neg other, ih, if_pos (List.mem_cons_of_mem _ later), List.map_cons]
      · rw [if_neg later] at ih
        rw [List.map_cons, put, if_neg other, ih, if_neg (by simp [Ne.symm same, later]), List.cons_append,
          List.map_cons]

theorem foldl_put (table : List PathMapping) (patterns : List Text) :
    patterns.foldl (fun rules pattern => put ⟨symbolOf pattern, substitutionFor table (symbolOf pattern)⟩ rules) [] =
      (patterns.map symbolOf).eraseDups.map (forSymbol table) := by
  induction patterns using List.reverseRecOn with
  | nil => rfl
  | append_singleton patterns pattern ih =>
    rw [List.foldl_append, ih, List.foldl_cons, List.foldl_nil, List.map_append, List.map_singleton, eraseDups_concat]
    have again := put_forSymbol table (symbolOf pattern) (patterns.map symbolOf).eraseDups
    simp only [List.mem_eraseDups] at again
    exact again

theorem ofTable_some (table : List PathMapping) : ofTable (some table) = (symbols table).map (forSymbol table) :=
  foldl_put table _

variable {table table' : List PathMapping} {rule rule' : AliasRule}

theorem ofTable_symbols (table : List PathMapping) : (ofTable (some table)).map (·.symbol) = symbols table := by
  rw [ofTable_some, List.map_map]
  exact List.map_id _

theorem mem_ofTable_iff :
    rule ∈ ofTable (some table) ↔ rule.symbol ∈ symbols table ∧ rule = forSymbol table rule.symbol := by
  rw [ofTable_some, List.mem_map]
  constructor
  · rintro ⟨symbol, member, rfl⟩
    exact ⟨member, rfl⟩
  · rintro ⟨member, whole⟩
    exact ⟨rule.symbol, member, whole.symm⟩

theorem slash_not_mem_symbol (member : rule ∈ ofTable (some table)) : '/' ∉ rule.symbol := by
  obtain ⟨symbol, -⟩ := mem_ofTable_iff.1 member
  obtain ⟨pattern, -, same⟩ := List.mem_map.1 (List.mem_eraseDups.1 symbol)
  rw [← same]
  exact slash_not_mem_symbolOf pattern

/-- No two rules of a table apply to one specifier. -/
theorem eq_of_strip? (member : rule ∈ ofTable (some table)) (member' : rule' ∈ ofTable (some table))
    {specifier rest rest' : Text} (applies : rule.strip? specifier = some rest)
    (applies' : rule'.strip? specifier = some rest') : rule = rule' := by
  have symbol := symbolOf_of_strip? (slash_not_mem_symbol member) applies
  have symbol' := symbolOf_of_strip? (slash_not_mem_symbol member') applies'
  rw [(mem_ofTable_iff.1 member).2, (mem_ofTable_iff.1 member').2, symbol, symbol']

/-- The order of a table whose patterns are distinct is not seen in the rules, but for their order. -/
theorem mem_ofTable_perm (perm : table'.Perm table) (distinct : (table.map (·.pattern)).Nodup) :
    rule ∈ ofTable (some table') ↔ rule ∈ ofTable (some table) := by
  have known : rule.symbol ∈ symbols table' ↔ rule.symbol ∈ symbols table := by
    rw [symbols, symbols, List.mem_eraseDups, List.mem_eraseDups]
    exact (((perm.map _).filter _).map _).mem_iff
  have same : forSymbol table' rule.symbol = forSymbol table rule.symbol := by
    rw [forSymbol, forSymbol, substitutionFor, substitutionFor, find?_key_perm perm distinct]
  rw [mem_ofTable_iff, mem_ofTable_iff, known, same]

end AliasRule

namespace Resolver

open AliasRule

variable {table table' : List PathMapping}

theorem matchAlias_ofTable {base : Path} {specifier rest : Text} {rule : AliasRule} :
    (ofTable base (some table)).matchAlias specifier = some (rule, rest) ↔
      rule ∈ AliasRule.ofTable (some table) ∧ rule.strip? specifier = some rest := by
  constructor
  · intro found
    obtain ⟨rule', member, applies⟩ := List.exists_of_findSome?_eq_some found
    obtain ⟨rest', stripped, same⟩ := Option.map_eq_some_iff.1 applies
    obtain ⟨rfl, rfl⟩ := Prod.mk.inj same
    exact ⟨member, stripped⟩
  · rintro ⟨member, stripped⟩
    cases found : (ofTable base (some table)).matchAlias specifier with
    | none =>
      have fails := List.findSome?_eq_none_iff.1 found rule member
      simp [stripped] at fails
    | some other =>
      obtain ⟨rule', member', applies⟩ := List.exists_of_findSome?_eq_some found
      obtain ⟨rest', stripped', rfl⟩ := Option.map_eq_some_iff.1 applies
      obtain rfl := eq_of_strip? member member' stripped stripped'
      rw [stripped] at stripped'
      rw [Option.some.inj stripped']

theorem matchAlias_perm (perm : table'.Perm table) (distinct : (table.map (·.pattern)).Nodup) (base : Path)
    (specifier : Text) :
    (ofTable base (some table')).matchAlias specifier = (ofTable base (some table)).matchAlias specifier := by
  ext ⟨rule, rest⟩
  rw [matchAlias_ofTable, matchAlias_ofTable, mem_ofTable_perm perm distinct]

end Resolver

namespace AliasRule

/-- The rules of a table have distinct symbols without slashes: what stands in front of the first slash of each pattern
that starts neither with a dot nor with a slash, in the order in which these symbols come first. A rule stands for the
first target of the first entry for everything below its symbol, with the first star taken out, if there is one. No two
rules apply to one specifier, and if the patterns of the table are distinct, its order makes no difference to where a
specifier leads and whether it names a package. -/
theorem ofTable_canonical (table : List PathMapping) :
    let rules := ofTable (some table)
    (rules.map (·.symbol)).Nodup ∧ (∀ rule ∈ rules, '/' ∉ rule.symbol) ∧
      rules.map (·.symbol) = (((table.map (·.pattern)).filter fun pattern =>
        pattern.head? ≠ some '.' ∧ pattern.head? ≠ some '/').map (List.takeWhile (· ≠ '/'))).eraseDups ∧
      (∀ rule ∈ rules, ∀ directory,
        rule.substitution = some directory ↔ Substitutes table rule.symbol directory) ∧
      (∀ rule ∈ rules, ∀ rule' ∈ rules, ∀ specifier, (rule.strip? specifier).isSome = true →
        (rule'.strip? specifier).isSome = true → rule = rule') ∧
      ((table.map (·.pattern)).Nodup → ∀ table' : List PathMapping, table'.Perm table →
        ∀ base specifier importer,
          (Resolver.ofTable base (some table')).candidate specifier importer =
              (Resolver.ofTable base (some table)).candidate specifier importer ∧
            (Resolver.ofTable base (some table')).isBare specifier =
              (Resolver.ofTable base (some table)).isBare specifier) := by
  intro rules
  have listed : rules.map (·.symbol) = symbols table := ofTable_symbols table
  refine ⟨?_, fun rule => slash_not_mem_symbol, ?_, ?_, ?_, ?_⟩
  · rw [listed]
    exact nodup_eraseDups _
  · rw [listed, symbols]
    congr 3
    funext pattern
    simp [isAlias]
  · intro rule member directory
    obtain ⟨-, whole⟩ := mem_ofTable_iff.1 member
    rw [whole]
    exact substitutionFor_eq_some_iff
  · intro rule member rule' member' specifier applies applies'
    obtain ⟨rest, stripped⟩ := Option.isSome_iff_exists.1 applies
    obtain ⟨rest', stripped'⟩ := Option.isSome_iff_exists.1 applies'
    exact eq_of_strip? member member' stripped stripped'
  · intro distinct table' perm base specifier importer
    have matched := Resolver.matchAlias_perm perm distinct base specifier
    constructor
    · rw [Resolver.candidate, Resolver.candidate, matched]
      rfl
    · rw [Resolver.isBare, Resolver.isBare, matched]

/-- Patterns that share a symbol, one with two targets and one with two stars, and the empty one. -/
theorem ofTable_canonical_shared :
    let table : List PathMapping := [⟨"~".toList, ["app".toList]⟩, ⟨"./x/*".toList, ["x/*".toList]⟩,
      ⟨"#shared".toList, ["shared/index.ts".toList]⟩, ⟨"~/*".toList, ["app/*/*".toList, "old/*".toList]⟩, ⟨[], []⟩,
      ⟨"~/deep/*".toList, ["deep/*".toList]⟩]
    let home : AliasRule := ⟨['~'], some "app//*".toList⟩
    let importer : Path := ⟨"/base/main.ts".toList⟩
    ofTable (some table) = [home, ⟨"#shared".toList, none⟩, ⟨[], none⟩] ∧
      ofTable (some table.reverse) = [home, ⟨[], none⟩, ⟨"#shared".toList, none⟩] ∧
      Substitutes table ['~'] "app//*".toList ∧
      (∀ rule' ∈ ofTable (some table), (rule'.strip? "~/a".toList).isSome = true → home = rule') ∧
      (Resolver.ofTable ⟨"/base".toList⟩ (some table.reverse)).candidate "~/a".toList importer =
        ⟨"/base/app/*/a".toList⟩ ∧
      (Resolver.ofTable ⟨"/base".toList⟩ (some table.reverse)).isBare "#shared".toList = true := by
  intro table home importer
  obtain ⟨-, -, -, substitution, alone, order⟩ := ofTable_canonical table
  have rules : ofTable (some table) = [home, ⟨"#shared".toList, none⟩, ⟨[], none⟩] := by decide +kernel
  have member : home ∈ ofTable (some table) := by simp [rules]
  have distinct : (table.map (·.pattern)).Nodup := by decide +kernel
  have turned := order distinct table.reverse (List.reverse_perm table) ⟨"/base".toList⟩
  refine ⟨rules, by decide +kernel, (substitution home member _).1 rfl, fun rule' member' applies => ?_, ?_, ?_⟩
  · exact alone home member rule' member' "~/a".toList (by decide +kernel) applies
  · rw [(turned "~/a".toList importer).1]
    decide +kernel
  · rw [(turned "#shared".toList importer).2]
    decide +kernel

end AliasRule

end ComponentLint
