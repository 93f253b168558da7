import ChaiBind.Diagnostic.Finding
import ChaiBind.Header.ClassDeclaration
import ChaiBind.Header.Marker

/-!
# The region of a class

The exposed part of a class stands between the first marker that begins a region
and the first marker after it that ends one. It belongs to the nearest class
declared before it. Every other use of the two markers is reported.
-/

namespace ChaiBind.Header

open Text

/-- The exposed part of a class. -/
structure Region where
  className : String
  /-- The text between the markers. -/
  body : List Char
  /-- The offset of that text. -/
  bodyOffset : Nat
deriving DecidableEq, Repr

/-- The region of a header, if it has a complete one, and what is wrong with its markers. -/
def regionOf (cs : List Char) : Option Region × List Diagnostic :=
  let ends := Marker.regionEnd.sites cs
  let report (f : Finding) (site : Marker.Site) := f.reportAt (locate cs site.start)
  match Marker.regionBegin.sites cs with
  | [] => (none, ends.map (report .endWithoutBegin))
  | first :: further =>
    let early := (ends.filter (·.start < first.start)).map (report .endWithoutBegin)
    match ends.find? (first.stop ≤ ·.start) with
    | none => (none, early ++ [report .regionNotClosed first])
    | some last =>
      let extra := further.head?.toList.map (report .furtherRegion)
      match owningClass? (classDeclarations cs) first.start with
      | none => (none, early ++ extra ++ [report .regionOutsideClass first])
      | some owner =>
        (some ⟨owner.name, slice cs first.stop last.start, first.stop⟩, early ++ extra)

theorem fst_regionOf (cs : List Char) :
    (regionOf cs).1 = (Marker.regionBegin.sites cs).head?.bind fun first =>
      ((Marker.regionEnd.sites cs).find? (first.stop ≤ ·.start)).bind fun last =>
        (owningClass? (classDeclarations cs) first.start).map fun owner =>
          ⟨owner.name, slice cs first.stop last.start, first.stop⟩ := by
  rw [regionOf]
  cases Marker.regionBegin.sites cs with
  | nil => rfl
  | cons first further =>
    simp only [List.head?_cons, Option.bind_some]
    cases (Marker.regionEnd.sites cs).find? (first.stop ≤ ·.start) with
    | none => rfl
    | some last =>
      simp only [Option.bind_some]
      cases owningClass? (classDeclarations cs) first.start <;> rfl

theorem regionOf_of_owner {cs : List Char} {first last : Marker.Site} {further : List Marker.Site}
    {owner : ClassDeclaration} (hbegin : Marker.regionBegin.sites cs = first :: further)
    (hlast : (Marker.regionEnd.sites cs).find? (first.stop ≤ ·.start) = some last)
    (howner : owningClass? (classDeclarations cs) first.start = some owner) :
    regionOf cs = (some ⟨owner.name, slice cs first.stop last.start, first.stop⟩,
      ((Marker.regionEnd.sites cs).filter (·.start < first.start)).map (fun s =>
          Finding.endWithoutBegin.reportAt (locate cs s.start)) ++
        further.head?.toList.map fun s => Finding.furtherRegion.reportAt (locate cs s.start)) := by
  rw [regionOf, hbegin]
  dsimp only
  rw [hlast]
  dsimp only
  rw [howner]

/-- A word without the commas around it. -/
def trimCommas (word : List Char) : List Char :=
  ((word.dropWhile (· = ',')).reverse.dropWhile (· = ',')).reverse

/-- The bases that the first bases marker lists on its line. -/
def basesOf (cs : List Char) : List String :=
  match Marker.bases.sites cs with
  | [] => []
  | site :: _ =>
    (((words (site.rest.takeWhile (· ≠ '\n'))).map trimCommas).filter (· ≠ [])).map String.ofList

end ChaiBind.Header
