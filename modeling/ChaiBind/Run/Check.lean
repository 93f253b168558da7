import ChaiBind.Json.Report
import ChaiBind.Run.Inventory
import ChaiBind.Run.Session

/-!
# Checking and listing

Neither command writes anything: checking compares the generated header with the
file that is there, listing shows what would be registered.
-/

namespace ChaiBind

open Console

/-- Checks that the generated header is up to date. -/
def checkOutput (t : FileTree) (o : GenerateOptions) : Session Unit := do
  let (c, g) ← prepare t o
  let shown := t.display c.output
  match t.readText c.output with
  | .ok current =>
    if current ≠ g.text then
      Session.say (statusLine "Stale" shown)
      throw (.outputStale shown)
    Session.say (statusLine "Checked" (shown ++ " (" ++ g.summary ++ ")"))
  | .error .notFound =>
    Session.say (statusLine "Missing" shown)
    throw (.outputMissing shown)
  | .error e => throw (.file .readOutput c.output e)

/-- Shows what a registry would hold. -/
def showInventory (t : FileTree) (o : ListOptions) : Session Unit := do
  let c ← o.source.resolve t
  let g ← produce t c
  if o.json then Session.print (g.registry.json.pretty ++ "\n")
  else Session.say g.registry.inventory

end ChaiBind
