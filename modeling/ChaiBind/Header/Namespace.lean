import ChaiBind.Text.Blank
import ChaiBind.Text.Cursor
import ChaiBind.Text.Identifier

/-!
# Namespaces of a header

The namespace of a header is made of all named openings in its text, in order,
whether or not they are still open somewhere. Anonymous namespaces and `using`
directives are no openings.
-/

namespace ChaiBind.Header

open Text

/-- The longest run of `::` and an identifier, given enough steps; each one uses up characters. -/
def takeQualifiers : Nat → List Char → List Char × List Char
  | 0, cs => ([], cs)
  | n + 1, ':' :: ':' :: cs =>
    match takeIdentifier cs with
    | some (name, rest) =>
      let (more, rest) := takeQualifiers n rest
      (':' :: ':' :: name ++ more, rest)
    | none => ([], ':' :: ':' :: cs)
  | _ + 1, cs => ([], cs)

/-- The longest chain of identifiers with `::` between them, and what follows it. -/
def takeNameChain (cs : List Char) : Option (List Char × List Char) :=
  (takeIdentifier cs).map fun (name, rest) =>
    let (more, rest) := takeQualifiers rest.length rest
    (name ++ more, rest)

/-- The chain that a namespace opening at a position names. -/
def namespaceOpening? (p : Cursor) : Option (List Char) := do
  guard (!p.before.any isWord)
  let rest ← "namespace".toList.isPrefixOf? p.rest
  guard (rest.head?.any isBlank)
  let (chain, rest) ← takeNameChain (trimStart rest)
  guard ((trimStart rest).head? = some '{')
  return chain

/-- The names of the namespaces that are opened in a text, in order. -/
def namespaceOpenings (cs : List Char) : List (List Char) :=
  (cursors cs).filterMap namespaceOpening?

/-- The joined openings of a header, `none` if it has none. -/
def namespaceOf (cs : List Char) : Option String :=
  match namespaceOpenings cs with
  | [] => none
  | chains => some (String.ofList ("::".toList.intercalate chains))

end ChaiBind.Header
