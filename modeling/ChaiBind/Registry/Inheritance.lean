import ChaiBind.Table

/-!
# Inheritance

The bases that classes declare make a graph in which a base need not be a
registered class. `closure` finds all ancestors of each class, or a cycle: a
search in depth from each class in turn puts every class after its registered
bases (`finishOrder`), unless it meets a class whose bases it is still looking
at; if there is no cycle, the ancestors of the classes are found one after the
other, and those that are known are not found again (`ancestors`).

The ancestors of a class are its bases in declared order and then the ancestors
of each registered base, every name at its first place only.
-/

namespace ChaiBind

/-- The declared bases of each class, classes in the order of their registration. -/
structure Inheritance where
  bases : Table String (List String)

/-- Classes each of which has the next one as a base; the first and the last are the same. -/
structure InheritanceCycle where
  classes : List String
deriving DecidableEq, Repr

/-- The classes with arrows between them. -/
def InheritanceCycle.display (c : InheritanceCycle) : String := " -> ".intercalate c.classes

namespace Inheritance

/-- The graph without classes. -/
def empty : Inheritance := ⟨Table.empty⟩

/-- Registers a class; registering it again replaces its bases. -/
def add (g : Inheritance) (name : String) (bases : List String) : Inheritance :=
  ⟨g.bases.insert name bases⟩

/-- The classes whose bases are known. -/
def classes (g : Inheritance) : List String := g.bases.keys

/-- Whether a class is one of the graph. -/
def contains (g : Inheritance) (name : String) : Bool := g.bases.contains name

/-- The direct bases of a class, none for a class that is not there. -/
def basesOf (g : Inheritance) (name : String) : List String := (g.bases.get? name).getD []

/-- The bases of a class that are registered classes. -/
def registeredBases (g : Inheritance) (name : String) : List String :=
  (g.basesOf name).filter g.contains

/-- Each class with each of its bases that is no registered class. -/
def unresolved (g : Inheritance) : List (String × String) :=
  g.bases.entries.flatMap fun e => (e.2.filter fun b => !g.contains b).map (e.1, ·)

/-! ## Order of finishing -/

/-- The cycle that a base closes which is on the path already. A path leads back from the class in
hand to the one at which the search started. -/
def cycleAt (path : List String) (base : String) : InheritanceCycle :=
  ⟨base :: (path.takeWhile (· ≠ base)).reverse ++ [base]⟩

/-- What a search does at a class, by itself or by searching on from there: a class on the path
closes a cycle, and one that is finished is passed over. -/
def meet (search : List String → String → Except InheritanceCycle (List String))
    (path finished : List String) (name : String) : Except InheritanceCycle (List String) :=
  if name ∈ path then .error (cycleAt path name)
  else if name ∈ finished then .ok finished
  else search finished name

/-- Finishes the registered bases of a class that are not finished yet, then the class. The path
holds classes that are not finished, each once, so that `depth` need be no more than the number of
classes that are not on it. -/
def visit (g : Inheritance) : Nat → List String → List String → String →
    Except InheritanceCycle (List String)
  | 0, _, finished, _ => .ok finished
  | depth + 1, path, finished, name => do
    let finished ←
      (g.registeredBases name).foldlM (meet (g.visit depth (name :: path)) (name :: path)) finished
    return finished ++ [name]

/-- All classes, each after its registered bases. -/
def finishOrder (g : Inheritance) : Except InheritanceCycle (List String) :=
  g.classes.foldlM (meet (g.visit g.bases.size []) []) []

/-! ## Ancestors -/

/-- The ancestors of some classes, as far as they are known. -/
abbrev Known := Table String (List String)

/-- What a search finds for each of some names in turn, one after the other, and what is known in
the end. -/
def gather (search : Known → String → List String × Known) : Known → List String →
    List String × Known
  | known, [] => ([], known)
  | known, name :: names =>
    let (found, known) := search known name
    let (more, known) := gather search known names
    (found ++ more, known)

/-- The ancestors of a class, and what is known then. If there is no cycle, then no class is in
hand twice, so that `depth` need be no more than the number of classes. -/
def ancestors (g : Inheritance) : Nat → Known → String → List String × Known
  | 0, known, _ => ([], known)
  | depth + 1, known, name =>
    match known.get? name with
    | some found => (found, known)
    | none =>
      let (inherited, known) := gather (g.ancestors depth) known (g.registeredBases name)
      let found := (g.basesOf name ++ inherited).eraseDups
      (found, known.insert name found)

/-- The ancestors of every class, in the order of registration, or a cycle. -/
def closure (g : Inheritance) : Except InheritanceCycle (Table String (List String)) := do
  let _ ← g.finishOrder
  let known := (gather (g.ancestors g.bases.size) Table.empty g.classes).2
  return g.bases.mapValues fun name _ => (known.get? name).getD []

end Inheritance

end ChaiBind
