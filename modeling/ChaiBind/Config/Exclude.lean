import ChaiBind.Config.Basic

/-!
# Exclude patterns

A pattern leaves out whatever lies in a directory of some name, ends in some
text, or holds some text. `ExcludePattern.ofText` tells which of them a written
pattern means; paths are read with slashes for backslashes.
-/

namespace ChaiBind

/-- Which paths are left out. -/
inductive ExcludePattern
  /-- In a directory, anywhere in the path. -/
  | within (directory : List Char)
  | ending (suffix : List Char)
  | containing (text : List Char)
deriving DecidableEq, Repr

/-- What comes before an ending, if a text has it. -/
def dropEnding? (ending cs : List Char) : Option (List Char) :=
  (ending.reverse.isPrefixOf? cs.reverse).map List.reverse

/-- Whether a text holds another one. -/
def holds (text : List Char) : List Char → Bool
  | [] => text.isEmpty
  | c :: cs => text.isPrefixOf (c :: cs) || holds text cs

namespace ExcludePattern

/-- The pattern after `**/`. -/
def ofAnywhere (cs : List Char) : ExcludePattern :=
  match dropEnding? ['/', '*'] cs with
  | some directory => .within directory
  | none => .ending cs

/-- A pattern without `**/` at its start. A star there means any start only if no slash follows. -/
def ofPlain (cs : List Char) : ExcludePattern :=
  if cs.head? = some '*' && !cs.contains '/' then .ending cs.tail
  else
    match dropEnding? ['/', '*'] cs with
    | some directory => .within directory
    | none => .containing cs

/-- The pattern that a text means. -/
def ofText (cs : List Char) : ExcludePattern :=
  match cs with
  | '*' :: '*' :: '/' :: rest => ofAnywhere rest
  | _ => ofPlain cs

/-- Whether a path, with slashes only, is left out. -/
def matches? (p : ExcludePattern) (path : List Char) : Bool :=
  match p with
  | .within directory =>
    holds ('/' :: directory ++ ['/']) path || (directory ++ ['/']).isPrefixOf path
  | .ending suffix => suffix.isSuffixOf path
  | .containing text => holds text path

end ExcludePattern

/-- A path with slashes for backslashes. -/
def withSlashes (path : List Char) : List Char := path.map fun c => if c = '\\' then '/' else c

/-- Whether one of the patterns leaves a path out. -/
def Config.isExcluded (c : Config) (path : String) : Bool :=
  c.excludes.any fun pattern =>
    (ExcludePattern.ofText pattern.toList).matches? (withSlashes path.toList)

end ChaiBind
