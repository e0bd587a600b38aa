import ComponentLint.Proofs.Files.Places
import ComponentLint.Proofs.TsConfig.Precedence
import Mathlib.Data.List.Nodup
import Mathlib.Data.List.Perm.Subperm
import Mathlib.Logic.Relation

/-! How far `extends` is followed. The files on the way to a file are its chain; a file that is on its own chain closes
a cycle. Since the files of a chain are distinct files of the tree, no chain is longer than the tree has files, and the
bound on the recursion is never what ends it. -/
namespace ComponentLint.TsConfig

open Relation

variable {tree : FileTree}

/-! ## Visits -/

/-- A file that is asked for, and the files that ask for it, the nearest first, by the normal form of their paths. -/
structure Visit where
  chain : List Path
  path : Path
deriving DecidableEq

namespace Visit

/-- The visit to a base of the visited file. -/
def down (v : Visit) (base : Path) : Visit := ⟨v.path.normalize :: v.chain, base⟩

/-- The visited file is one of those that ask for it, however its path is spelled. -/
def Closes (v : Visit) : Prop := v.path.normalize ∈ v.chain

/-- A visit that goes through: it closes no cycle, and the file can be read and all its bases go through. -/
inductive Passes (tree : FileTree) : Visit → Prop where
  | through {v : Visit} {own : TsConfig} {bases : List Path} (fresh : ¬v.Closes)
      (here : written? tree v.path = some (own, bases)) (onward : ∀ base ∈ bases, Passes tree (v.down base)) :
      Passes tree v

theorem Passes.fresh {v : Visit} (passes : v.Passes tree) : ¬v.Closes := by
  cases passes with
  | through fresh _ _ => exact fresh

theorem Passes.written {v : Visit} (passes : v.Passes tree) : written? tree v.path ≠ none := by
  cases passes with
  | through _ here _ => simp [here]

/-- One visit comes to the next: to a base of its file, when the bases that are asked before it have gone through. -/
def Asks (tree : FileTree) (v w : Visit) : Prop :=
  ¬v.Closes ∧ ∃ own earlier base later, written? tree v.path = some (own, earlier ++ base :: later) ∧
    (∀ other ∈ earlier, Passes tree (v.down other)) ∧ w = v.down base

/-- What a visit comes to. The bound is what is left of the one that the first visit has. -/
def outcome (tree : FileTree) (v : Visit) : Except Fault TsConfig :=
  loadWithin tree (tree.nodes.length + 2 - v.chain.length) v.chain v.path

end Visit

open Visit

/-- A file names another as one of its bases. -/
def Extends (tree : FileTree) (p q : Path) : Prop := ∃ own bases, written? tree p = some (own, bases) ∧ q ∈ bases

/-- A visit and one to a base of its file, whatever becomes of the other bases. -/
def Visit.Leads (tree : FileTree) (v w : Visit) : Prop := ∃ base, Extends tree v.path base ∧ w = v.down base

variable {v w : Visit}

/-! ## Chains -/

/-- The files of a chain are distinct files of the tree. -/
structure Visit.Sound (tree : FileTree) (v : Visit) : Prop where
  distinct : v.chain.Nodup
  files : ∀ key ∈ v.chain, key.isAbsolute = true ∧ key.normalize = key ∧ tree.isFile key = true
  absolute : v.path.isAbsolute = true

theorem Visit.Sound.start {path : Path} (absolute : path.isAbsolute = true) : Sound tree ⟨[], path⟩ :=
  ⟨.nil, by simp, absolute⟩

theorem Visit.Sound.length_le (sound : v.Sound tree) : v.chain.length ≤ tree.nodes.length := by
  have places : (v.chain.map Path.place).Nodup := by
    refine List.Nodup.map_on (fun p inside q inside' same => ?_) sound.distinct
    obtain ⟨absolute, normal, -⟩ := sound.files p inside
    obtain ⟨absolute', normal', -⟩ := sound.files q inside'
    exact Path.eq_of_place absolute absolute' normal normal' same
  have among : v.chain.map Path.place ⊆ tree.nodes.map (·.1) := by
    intro place member
    obtain ⟨key, inside, rfl⟩ := List.mem_map.1 member
    obtain ⟨c, -, found⟩ := FileTree.isFile_iff.1 (sound.files key inside).2.2
    exact FileTree.mem_nodes_of_file found
  simpa using (places.subperm among).length_le

theorem Visit.Sound.down (sound : v.Sound tree) (fresh : ¬v.Closes) {own : TsConfig} {bases : List Path}
    (here : written? tree v.path = some (own, bases)) {base : Path} (member : base ∈ bases) :
    (v.down base).Sound tree := by
  obtain ⟨contents, raw, read, -, rfl, rfl⟩ := written?_eq_some here
  obtain ⟨specifier, -, found⟩ := List.mem_filterMap.1 member
  refine ⟨List.nodup_cons.2 ⟨fresh, sound.distinct⟩, fun key inside => ?_, ?_⟩
  · rcases List.mem_cons.1 inside with rfl | above
    · refine ⟨?_, Path.normalize_normalize _, FileTree.isFile_normalize (FileTree.isFile_of_read read)⟩
      rw [Path.normalize_isAbsolute]
      exact sound.absolute
    · exact sound.files key above
  · exact findBase_absolute (ofRaw_root_absolute raw sound.absolute) found

theorem Visit.Asks.sound (asks : Asks tree v w) (sound : v.Sound tree) : w.Sound tree := by
  obtain ⟨fresh, own, earlier, base, later, here, -, rfl⟩ := asks
  exact sound.down fresh here (by simp)

/-- Visits do not go down for ever. -/
theorem Visit.Sound.induction {motive : Visit → Prop}
    (step : ∀ v, v.Sound tree → (∀ w, w.Sound tree → w.chain.length = v.chain.length + 1 → motive w) → motive v)
    (sound : v.Sound tree) : motive v := by
  induction left : tree.nodes.length - v.chain.length using Nat.strongRecOn generalizing v with
  | ind n ih =>
    subst left
    refine step v sound fun w below longer => ih _ ?_ below rfl
    have bound := below.length_le
    omega

/-! ## What a visit comes to -/

/-- Takes bases in turn, loading each with `load`. -/
def takeAll (load : Path → Except Fault TsConfig) (c : TsConfig) : List Path → Except Fault TsConfig
  | [] => .ok c
  | base :: rest =>
    match load base with
    | .error f => .error f
    | .ok b => takeAll load (c.inherit b) rest

/-- The bases are those that the specifiers name from the directory of the file, which no base changes. -/
theorem inheritAll_eq_takeAll {load : Path → Except Fault TsConfig} {c : TsConfig} {specifiers : List Text} :
    inheritAll tree load c specifiers = takeAll load c (specifiers.filterMap (findBase tree c.root)) := by
  induction specifiers generalizing c with
  | nil => rfl
  | cons specifier rest ih =>
    rw [inheritAll]
    cases found : findBase tree c.root specifier with
    | none =>
      rw [List.filterMap_cons_none found]
      exact ih
    | some path =>
      rw [List.filterMap_cons_some found, takeAll]
      dsimp only
      cases load path with
      | error f => rfl
      | ok b => exact ih (c := c.inherit b)

theorem takeAll_congr {load load' : Path → Except Fault TsConfig} {c : TsConfig} {bases : List Path}
    (same : ∀ base ∈ bases, load base = load' base) : takeAll load c bases = takeAll load' c bases := by
  induction bases generalizing c with
  | nil => rfl
  | cons base rest ih =>
    rw [takeAll, takeAll, same base (by simp)]
    cases load' base with
    | error f => rfl
    | ok b => exact ih fun other member => same other (List.mem_cons_of_mem _ member)

/-- If all bases load, so does the file. -/
theorem takeAll_ok {load : Path → Except Fault TsConfig} {c : TsConfig} {bases : List Path}
    (loads : ∀ base ∈ bases, ∃ b, load base = .ok b) : ∃ done, takeAll load c bases = .ok done := by
  induction bases generalizing c with
  | nil => exact ⟨c, rfl⟩
  | cons base rest ih =>
    obtain ⟨b, loaded⟩ := loads base (by simp)
    rw [takeAll, loaded]
    exact ih fun other member => loads other (List.mem_cons_of_mem _ member)

/-- The first base that does not load ends the loading of the file. -/
theorem takeAll_error {load : Path → Except Fault TsConfig} {c : TsConfig} {earlier later : List Path} {base : Path}
    {f : Fault} (loads : ∀ other ∈ earlier, ∃ b, load other = .ok b) (fails : load base = .error f) :
    takeAll load c (earlier ++ base :: later) = .error f := by
  induction earlier generalizing c with
  | nil => rw [List.nil_append, takeAll, fails]
  | cons other earlier ih =>
    obtain ⟨b, loaded⟩ := loads other (by simp)
    rw [List.cons_append, takeAll, loaded]
    exact ih fun further member => loads further (List.mem_cons_of_mem _ member)

/-- Either all load, or there is a first one that does not. -/
theorem all_load_or_first_error (load : Path → Except Fault TsConfig) (bases : List Path) :
    (∀ base ∈ bases, ∃ b, load base = .ok b) ∨ ∃ earlier base later f, bases = earlier ++ base :: later ∧
      (∀ other ∈ earlier, ∃ b, load other = .ok b) ∧ load base = .error f := by
  induction bases with
  | nil => exact .inl (by simp)
  | cons base bases ih =>
    cases here : load base with
    | error f => exact .inr ⟨[], base, bases, f, rfl, by simp, here⟩
    | ok b =>
      rcases ih with all | ⟨earlier, other, later, f, rfl, loads, fails⟩
      · refine .inl fun other member => ?_
        rcases List.mem_cons.1 member with rfl | later
        · exact ⟨b, here⟩
        · exact all other later
      · refine .inr ⟨base :: earlier, other, later, f, rfl, fun before member => ?_, fails⟩
        rcases List.mem_cons.1 member with rfl | further
        · exact ⟨b, here⟩
        · exact loads before further

/-- Any bound that leaves room for the files of the tree gives the same. -/
theorem loadWithin_eq (sound : v.Sound tree) {fuel fuel' : Nat} (enough : tree.nodes.length + 2 ≤ fuel + v.chain.length)
    (enough' : tree.nodes.length + 2 ≤ fuel' + v.chain.length) :
    loadWithin tree fuel v.chain v.path = loadWithin tree fuel' v.chain v.path := by
  induction fuel generalizing v fuel' with
  | zero =>
    have bound := sound.length_le
    omega
  | succ fuel ih =>
    cases fuel' with
    | zero =>
      have bound := sound.length_le
      omega
    | succ fuel' =>
      rw [loadWithin, loadWithin]
      by_cases closes : v.Closes
      · rw [if_pos (List.contains_iff_mem.2 closes), if_pos (List.contains_iff_mem.2 closes)]
      rw [if_neg fun again => closes (List.contains_iff_mem.1 again),
        if_neg fun again => closes (List.contains_iff_mem.1 again)]
      cases read : tree.read v.path with
      | error f => rfl
      | ok contents =>
        dsimp only
        cases parsed : readRaw contents v.path with
        | error f => rfl
        | ok raw =>
          dsimp only
          rw [inheritAll_eq_takeAll, inheritAll_eq_takeAll]
          refine takeAll_congr fun base member => ?_
          have here : written? tree v.path = some (ofRaw raw v.path,
              (raw.extending.getD []).reverse.filterMap (findBase tree (ofRaw raw v.path).root)) := by
            simp [written?, read, parsed]
          have length : (v.down base).chain.length = v.chain.length + 1 := rfl
          exact ih (sound.down closes here member) (by omega) (by omega)

/-- A visit with some of the bound used up. -/
theorem outcome_eq (sound : v.Sound tree) : outcome tree v =
    loadWithin tree (tree.nodes.length + 1 - v.chain.length + 1) v.chain v.path := by
  apply loadWithin_eq sound <;> omega

theorem outcome_closes (sound : v.Sound tree) (closes : v.Closes) : outcome tree v = .error (.circular v.path) := by
  rw [outcome_eq sound, loadWithin, if_pos (List.contains_iff_mem.2 closes)]

theorem outcome_unwritten (sound : v.Sound tree) (fresh : ¬v.Closes) (unwritten : written? tree v.path = none) :
    ∃ f, outcome tree v = .error f ∧ ∀ q, f ≠ .circular q := by
  rw [outcome_eq sound, loadWithin, if_neg fun again => fresh (List.contains_iff_mem.1 again)]
  rw [written?] at unwritten
  cases read : tree.read v.path with
  | error f => exact ⟨_, rfl, by simp⟩
  | ok contents =>
    rw [read] at unwritten
    dsimp only at unwritten ⊢
    cases parsed : readRaw contents v.path with
    | ok raw => simp [parsed] at unwritten
    | error f =>
      refine ⟨f, rfl, fun q same => ?_⟩
      rw [readRaw] at parsed
      split at parsed
      · simp at parsed
      · rw [same] at parsed
        simp at parsed

/-- A file that is read takes its bases in turn. -/
theorem outcome_written (sound : v.Sound tree) (fresh : ¬v.Closes) {own : TsConfig} {bases : List Path}
    (here : written? tree v.path = some (own, bases)) :
    outcome tree v = takeAll (fun base => outcome tree (v.down base)) own bases := by
  obtain ⟨contents, raw, read, parsed, rfl, rfl⟩ := written?_eq_some here
  rw [outcome_eq sound, loadWithin, if_neg fun again => fresh (List.contains_iff_mem.1 again), read]
  dsimp only
  rw [parsed]
  dsimp only
  rw [inheritAll_eq_takeAll]
  refine takeAll_congr fun base member => ?_
  have below := sound.down fresh here member
  have length : (v.down base).chain.length = v.chain.length + 1 := rfl
  exact loadWithin_eq below (by omega) (by omega)

/-! ## Visits that go through and visits that do not -/

/-- By induction on the visit that goes through. -/
theorem ok_of_passes (sound : v.Sound tree) (passes : v.Passes tree) : ∃ c, outcome tree v = .ok c := by
  induction passes with
  | through fresh here onward ih =>
    rw [outcome_written sound fresh here]
    exact takeAll_ok fun base member => ih base member (sound.down fresh here member)

/-- What ends a visit ends the visits on the way to it. -/
theorem Visit.Asks.error (asks : Asks tree v w) (sound : v.Sound tree) {f : Fault} (fails : outcome tree w = .error f) :
    outcome tree v = .error f := by
  obtain ⟨fresh, own, earlier, base, later, here, passed, rfl⟩ := asks
  rw [outcome_written sound fresh here]
  refine takeAll_error (fun other member => ?_) fails
  exact ok_of_passes (sound.down fresh here (by simp [member])) (passed other member)

/-- Where a visit ends before its time: at a file that closes a cycle, or at one that cannot be read. -/
inductive Visit.Ends (tree : FileTree) (w : Visit) : Fault → Prop where
  | circular (closes : w.Closes) : Ends tree w (.circular w.path)
  | unwritten {f : Fault} (fresh : ¬w.Closes) (none_ : written? tree w.path = none) (other : ∀ q, f ≠ .circular q)
      (fails : outcome tree w = .error f) : Ends tree w f

/-- A visit goes through, or comes to the visit that ends it. By induction on how far visits can still go down. -/
theorem passes_or_ends (sound : v.Sound tree) :
    v.Passes tree ∨ ∃ w f, ReflTransGen (Asks tree) v w ∧ w.Ends tree f ∧ outcome tree v = .error f := by
  refine Sound.induction (motive := fun v => v.Passes tree ∨ ∃ w f, ReflTransGen (Asks tree) v w ∧ w.Ends tree f ∧
    outcome tree v = .error f) (fun v sound ih => ?_) sound
  by_cases closes : v.Closes
  · exact .inr ⟨v, _, .refl, .circular closes, outcome_closes sound closes⟩
  cases here : written? tree v.path with
  | none =>
    obtain ⟨f, fails, other⟩ := outcome_unwritten sound closes here
    exact .inr ⟨v, f, .refl, .unwritten closes here other fails, fails⟩
  | some found =>
    obtain ⟨own, bases⟩ := found
    have below (base : Path) (member : base ∈ bases) := ih _ (sound.down closes here member) rfl
    have passes (base : Path) (member : base ∈ bases) (loads : ∃ b, outcome tree (v.down base) = .ok b) :
        (v.down base).Passes tree := by
      refine (below base member).resolve_right ?_
      rintro ⟨w, f, -, -, fails⟩
      obtain ⟨b, loaded⟩ := loads
      rw [fails] at loaded
      contradiction
    rcases all_load_or_first_error (fun base => outcome tree (v.down base)) bases with all |
      ⟨earlier, base, later, f, rfl, loads, fails⟩
    · exact .inl (.through closes here fun base member => passes base member (all base member))
    · -- the bases before the first that does not load go through, so that one is asked
      have asks : Asks tree v (v.down base) := by
        refine ⟨closes, own, earlier, base, later, here, fun other member => ?_, rfl⟩
        exact passes other (by simp [member]) (loads other member)
      rcases below base (by simp) with through | ⟨w, f', way, ends, fails'⟩
      · obtain ⟨b, loaded⟩ := ok_of_passes (asks.sound sound) through
        rw [fails] at loaded
        contradiction
      · exact .inr ⟨w, f', .head asks way, ends, asks.error sound fails'⟩

/-- What a visit that goes through comes to does not depend on the files that ask for it. By induction on the visit. -/
theorem outcome_eq_of_passes (passes : v.Passes tree) (sound : v.Sound tree) (sound' : w.Sound tree)
    (same : w.path = v.path) (fewer : w.chain ⊆ v.chain) : outcome tree w = outcome tree v := by
  induction passes generalizing w with
  | @through v own bases fresh here onward ih =>
    have fresh' : ¬w.Closes := fun closes => fresh (by simpa [Closes, same] using fewer closes)
    have here' : written? tree w.path = some (own, bases) := by rw [same, here]
    rw [outcome_written sound fresh here, outcome_written sound' fresh' here']
    refine takeAll_congr fun base member => ?_
    refine ih base member (sound.down fresh here member) (sound'.down fresh' here' member) rfl ?_
    rw [Visit.down, same]
    exact List.cons_subset_cons _ fewer

/-! ## Ways from file to file -/

theorem Visit.Asks.leads (asks : Asks tree v w) : Leads tree v w := by
  obtain ⟨-, own, earlier, base, later, here, -, rfl⟩ := asks
  exact ⟨base, ⟨own, _, here, by simp⟩, rfl⟩

/-- All that is below a visit that goes through is visited, and goes through. -/
theorem Visit.Passes.of_leads (passes : v.Passes tree) (way : ReflTransGen (Leads tree) v w) :
    ReflTransGen (Asks tree) v w ∧ w.Passes tree := by
  induction way with
  | refl => exact ⟨.refl, passes⟩
  | tail _ leads ih =>
    obtain ⟨way, through⟩ := ih
    obtain ⟨base, ⟨own, bases, here, member⟩, rfl⟩ := leads
    cases through with
    | through fresh found onward =>
      obtain ⟨rfl, rfl⟩ := Prod.mk.inj (Option.some.inj (here.symm.trans found))
      obtain ⟨earlier, later, rfl⟩ := List.append_of_mem member
      refine ⟨way.tail ⟨fresh, own, earlier, base, later, here, fun other before => ?_, rfl⟩, onward base member⟩
      exact onward other (by simp [before])

theorem Visit.Leads.extends (leads : Leads tree v w) : Extends tree v.path w.path := by
  obtain ⟨base, named, rfl⟩ := leads
  exact named

/-- A way from file to file is a way of visits. -/
theorem exists_leads {p q : Path} (way : ReflTransGen (Extends tree) p q) (chain : List Path) :
    ∃ w, ReflTransGen (Leads tree) ⟨chain, p⟩ w ∧ w.path = q := by
  induction way with
  | refl => exact ⟨_, .refl, rfl⟩
  | tail _ named ih =>
    obtain ⟨w, way, rfl⟩ := ih
    exact ⟨_, way.tail ⟨_, named, rfl⟩, rfl⟩

/-- Visits go on behind each file of the chain. -/
theorem mem_chain_of_leads (way : ReflTransGen (Leads tree) v w) : v.chain ⊆ w.chain := by
  induction way with
  | refl => exact List.Subset.refl _
  | tail _ leads ih =>
    obtain ⟨base, -, rfl⟩ := leads
    exact List.subset_cons_of_subset _ ih

/-- The files of the chain are those on a way to the visited file. -/
theorem exists_of_mem_chain {path key : Path} (way : ReflTransGen (Leads tree) ⟨[], path⟩ w) (member : key ∈ w.chain) :
    ∃ p, p.normalize = key ∧ ReflTransGen (Extends tree) path p ∧ TransGen (Extends tree) p w.path := by
  induction way with
  | refl => simp at member
  | @tail v _ way leads ih =>
    have onward := leads.extends
    obtain ⟨base, -, rfl⟩ := leads
    rcases List.mem_cons.1 member with rfl | above
    · exact ⟨v.path, rfl, way.lift Visit.path fun _ _ => Visit.Leads.extends, .single onward⟩
    · obtain ⟨p, same, front, back⟩ := ih above
      exact ⟨p, same, front, back.tail onward⟩

/-! ## Cycles -/

/-- The visits that the loading of a file makes: each file takes its bases in turn, the last first, and no visit is made
behind one that does not go through. -/
def Visited (tree : FileTree) (path : Path) : Visit → Prop := ReflTransGen (Asks tree) ⟨[], path⟩

theorem Visited.leads {path : Path} (visited : Visited tree path w) : ReflTransGen (Leads tree) ⟨[], path⟩ w :=
  visited.lift id fun _ _ => Visit.Asks.leads

theorem Visited.sound {path : Path} (absolute : path.isAbsolute = true) (visited : Visited tree path w) :
    w.Sound tree := by
  induction visited with
  | refl => exact .start absolute
  | tail _ asks ih => exact asks.sound ih

theorem Visited.error {path : Path} (absolute : path.isAbsolute = true) (visited : Visited tree path w) {f : Fault}
    (fails : outcome tree w = .error f) : load tree path = .error f := by
  induction visited with
  | refl => exact fails
  | tail before asks ih => exact ih (asks.error (Visited.sound absolute before) fails)

section

variable {path : Path} (absolute : path.isAbsolute = true)
include absolute

/-- The loading goes through, or comes to the visit that ends it. -/
theorem load_passes_or_ends : ((⟨[], path⟩ : Visit).Passes tree ∧ ∃ c, load tree path = .ok c) ∨
    ∃ w f, Visited tree path w ∧ w.Ends tree f ∧ load tree path = .error f := by
  rcases passes_or_ends (.start absolute) with passes | ends
  · exact .inl ⟨passes, ok_of_passes (.start absolute) passes⟩
  · exact .inr ends

theorem passes_of_load {c : TsConfig} (loaded : load tree path = .ok c) : (⟨[], path⟩ : Visit).Passes tree := by
  rcases load_passes_or_ends absolute with ⟨passes, -⟩ | ⟨w, f, -, -, fails⟩
  · exact passes
  · exact nomatch loaded.symm.trans fails

/-- What a loading fails with is the fault of the visit that ends it. -/
theorem ends_of_load {f : Fault} (fails : load tree path = .error f) : ∃ w, Visited tree path w ∧ w.Ends tree f := by
  rcases load_passes_or_ends absolute with ⟨-, c, loaded⟩ | ⟨w, f', visited, ends, fails'⟩
  · exact nomatch loaded.symm.trans fails
  · obtain rfl : f' = f := Except.error.inj (fails'.symm.trans fails)
    exact ⟨w, visited, ends⟩

theorem load_circular_iff {q : Path} :
    load tree path = .error (.circular q) ↔ ∃ w, Visited tree path w ∧ w.Closes ∧ w.path = q := by
  constructor
  · intro fails
    obtain ⟨w, visited, ends⟩ := ends_of_load absolute fails
    cases ends with
    | circular closes => exact ⟨w, visited, closes, rfl⟩
    | unwritten _ _ other _ => exact absurd rfl (other q)
  · rintro ⟨w, visited, closes, rfl⟩
    exact visited.error absolute (outcome_closes (visited.sound absolute) closes)

theorem load_unwritten_iff : (∃ f, load tree path = .error f ∧ ∀ q, f ≠ .circular q) ↔
    ∃ w, Visited tree path w ∧ ¬w.Closes ∧ written? tree w.path = none := by
  constructor
  · rintro ⟨f, fails, other⟩
    obtain ⟨w, visited, ends⟩ := ends_of_load absolute fails
    cases ends with
    | circular _ => exact absurd rfl (other w.path)
    | unwritten fresh unwritten _ _ => exact ⟨w, visited, fresh, unwritten⟩
  · rintro ⟨w, visited, fresh, unwritten⟩
    obtain ⟨f, fails, other⟩ := outcome_unwritten (visited.sound absolute) fresh unwritten
    exact ⟨f, visited.error absolute fails, other⟩

/-- Ways of visits are ways from file to file, so a way from a file to itself shows as a visit that closes a cycle. -/
theorem load_ok_iff : (∃ c, load tree path = .ok c) ↔ ∀ p, ReflTransGen (Extends tree) path p →
    written? tree p ≠ none ∧ ∀ q, TransGen (Extends tree) p q → q.normalize ≠ p.normalize := by
  constructor
  · rintro ⟨c, loaded⟩ p way
    obtain ⟨w, front, rfl⟩ := exists_leads way []
    obtain ⟨-, through⟩ := (passes_of_load absolute loaded).of_leads front
    refine ⟨through.written, fun q onward => ?_⟩
    -- the visits on the way from a file to itself have the file in their chain
    obtain ⟨v, first, rest⟩ := TransGen.head'_iff.1 onward
    obtain ⟨u, back, rfl⟩ := exists_leads rest (w.down v).chain
    obtain ⟨-, through'⟩ := through.of_leads (.head ⟨v, first, rfl⟩ back)
    exact fun same => through'.fresh (mem_chain_of_leads back (by simp [same, Visit.down]))
  · intro free
    rcases load_passes_or_ends absolute with ⟨-, loaded⟩ | ⟨w, f, visited, ends, -⟩
    · exact loaded
    · exfalso
      cases ends with
      | circular closes =>
        obtain ⟨p, same, front, back⟩ := exists_of_mem_chain visited.leads closes
        exact (free p front).2 _ back same.symm
      | unwritten _ unwritten _ _ =>
        exact (free _ (visited.leads.lift Visit.path fun _ _ => Visit.Leads.extends)).1 unwritten

/-- Each way is gone, and what is at its end does not depend on the way. -/
theorem load_below {c : TsConfig} (loaded : load tree path = .ok c) (way : ReflTransGen (Leads tree) ⟨[], path⟩ w) :
    Visited tree path w ∧ ∃ b, outcome tree w = .ok b ∧ load tree w.path = .ok b := by
  obtain ⟨visited, through⟩ := (passes_of_load absolute loaded).of_leads way
  have sound := Visited.sound absolute visited
  obtain ⟨b, comes⟩ := ok_of_passes sound through
  exact ⟨visited, b, comes, (outcome_eq_of_passes through sound (.start sound.absolute) rfl (by simp)).trans comes⟩

end

/-- The loading of a file follows `extends` to an end. The files that ask for a file are distinct files of the tree, so
the bound on the recursion leaves room for all of them and never decides what comes out. It fails as circular exactly if
it comes to a file, however spelled, that is among those that ask for it, and otherwise exactly if it comes to a file
that cannot be read. It goes well exactly if every file there is a way to can be read and is on no way to itself; then
each way to a file, if there are several, is gone, and gives what that file is when it is loaded by itself. -/
theorem load_detects_cycles {path : Path} (absolute : path.isAbsolute = true) :
    (∀ w, Visited tree path w → w.chain.Nodup ∧ w.chain.length ≤ tree.nodes.length) ∧
    (∀ fuel ≥ tree.nodes.length + 2, loadWithin tree fuel [] path = load tree path) ∧
    (∀ q, load tree path = .error (.circular q) ↔ ∃ w, Visited tree path w ∧ w.Closes ∧ w.path = q) ∧
    ((∃ f, load tree path = .error f ∧ ∀ q, f ≠ .circular q) ↔
      ∃ w, Visited tree path w ∧ ¬w.Closes ∧ written? tree w.path = none) ∧
    ((∃ c, load tree path = .ok c) ↔ ∀ p, ReflTransGen (Extends tree) path p →
      written? tree p ≠ none ∧ ∀ q, TransGen (Extends tree) p q → q.normalize ≠ p.normalize) ∧
    (∀ c, load tree path = .ok c → ∀ w, ReflTransGen (Leads tree) ⟨[], path⟩ w → Visited tree path w ∧
      ∃ b, outcome tree w = .ok b ∧ load tree w.path = .ok b) := by
  refine ⟨fun w visited => ?_, fun fuel enough => ?_, fun q => load_circular_iff absolute, load_unwritten_iff absolute,
    load_ok_iff absolute, fun c loaded w way => load_below absolute loaded way⟩
  · have sound := Visited.sound absolute visited
    exact ⟨sound.distinct, sound.length_le⟩
  · exact loadWithin_eq (.start absolute) (by simpa using enough) (by simp)

/-- A base that is reached along two branches is loaded on both; a file that extends itself under another spelling is
circular. -/
theorem load_detects_cycles_spelled :
    let file (place : List String) (text : String) : Place × FileNode :=
      (place.map String.toList, .file (.text text.toList))
    let tree : FileTree := ⟨[
      file ["p", "tsconfig.json"] "\x7b\"extends\":[\"./a\",\"./b\"]\x7d",
      file ["p", "a.json"] "\x7b\"extends\":\"./base\"\x7d", file ["p", "b.json"] "\x7b\"extends\":\"./base\"\x7d",
      file ["p", "base.json"] "\x7b\"compilerOptions\":\x7b\"target\":\"es2020\"\x7d\x7d",
      file ["p", "loop.json"] "\x7b\"extends\":\"x/../../loop\"\x7d",
      (["p", "node_modules", "x"].map String.toList, .directory)]⟩
    let base : Path := .ofString "/p/base.json"
    let again : Path := .ofString "/p/node_modules/x/../../loop.json"
    (∃ c, load tree (.ofString "/p/tsconfig.json") = .ok c ∧ c.target = some "es2020".toList ∧
      ∀ side ∈ [Path.ofString "/p/a.json", .ofString "/p/b.json"],
        Visited tree (.ofString "/p/tsconfig.json") ⟨[side, .ofString "/p/tsconfig.json"], base⟩ ∧
        ∃ b, outcome tree ⟨[side, .ofString "/p/tsconfig.json"], base⟩ = .ok b ∧ load tree base = .ok b) ∧
    load tree (.ofString "/p/loop.json") = .error (.circular again) ∧
      ∃ w, Visited tree (.ofString "/p/loop.json") w ∧ w.Closes ∧ w.path = again := by
  intro file tree base again
  let top : Path := .ofString "/p/tsconfig.json"
  let loop : Path := .ofString "/p/loop.json"
  refine ⟨?_, ?_⟩
  · let c : TsConfig := { path := top, root := .ofString "/p", target := some "es2020".toList }
    have loaded : load tree top = .ok c := eq_ok_of_toOption (by decide +kernel)
    refine ⟨c, loaded, rfl, fun side member => ?_⟩
    obtain ⟨-, -, -, -, -, onward⟩ := @load_detects_cycles tree top (by decide)
    have first : Extends tree top side := by
      have written : written? tree top = some ({ path := top, root := .ofString "/p" },
        [.ofString "/p/b.json", .ofString "/p/a.json"]) := by decide +kernel
      exact ⟨_, _, written, by simpa [or_comm] using member⟩
    have both : ∀ side ∈ [Path.ofString "/p/a.json", .ofString "/p/b.json"],
        written? tree side = some ({ path := side, root := .ofString "/p" }, [base]) ∧ side.normalize = side := by
      decide +kernel
    obtain ⟨written, normal⟩ := both side member
    have way : ReflTransGen (Leads tree) ⟨[], top⟩ ⟨[side, top], base⟩ := by
      refine .tail (.single ⟨side, first, rfl⟩) ⟨base, ⟨_, _, written, by simp⟩, ?_⟩
      rw [Visit.down, Visit.down, normal]
      rfl
    exact onward c loaded _ way
  · have written : written? tree loop = some ({ path := loop, root := .ofString "/p" }, [again]) := by decide +kernel
    obtain ⟨-, -, circular, -⟩ := @load_detects_cycles tree loop (by decide)
    have visited : Visited tree loop ⟨[loop], again⟩ :=
      .single ⟨by simp [Closes], _, [], again, [], written, by simp, by decide +kernel⟩
    have closes : (⟨[loop], again⟩ : Visit).Closes := List.mem_singleton.2 (by decide +kernel)
    exact ⟨(circular again).2 ⟨_, visited, closes, rfl⟩, _, visited, closes, rfl⟩

end ComponentLint.TsConfig
