import ChaiBind.Proofs.Header.SilentLines
import Mathlib.Data.List.Infix
import Mathlib.Tactic.MkIffOfInductiveProp

/-!
# The documented layout of a header

A header that is written as documented: the sentinel, the bases, the namespaces and the
class, the region between its markers, then each enumeration behind a marker, and the
closing braces (`Layout.text`). Its names can be any identifiers but the keyword that opens
namespaces, and its region any lines without markers and the words that declare classes
and open namespaces (`Layout.WellFormed`).

* `Layout.forall_mem_preamble`, `Layout.forall_mem_closing`: a property of the lines in front of
  the namespaces and of those behind the region.
* `isLayoutChar_line`, `containsWord_line`: what the lines of a layout are made of.
-/

namespace ChaiBind

open Text

namespace Marker

/-- A marker as it is documented. -/
def text (m : Marker) : List Char := "//= ".toList ++ [' '].intercalate m.words

end Marker

namespace Header

/-- Lines with a newline after each. -/
def joinLines (lines : List (List Char)) : List Char := lines.flatMap (· ++ ['\n'])

/-- An enumeration of a header, with the values as they are listed. -/
structure EnumLayout where
  isScoped : Bool
  name : List Char
  values : List (List Char)
deriving DecidableEq, Repr

/-- What a header that is written as documented says. -/
structure Layout where
  /-- The namespaces from the outermost one on. -/
  namespaces : List (List Char)
  className : List Char
  bases : List (List Char)
  /-- The lines between the markers of the region. -/
  body : List Char
  enums : List EnumLayout
deriving DecidableEq, Repr

/-! ## The text of a layout -/

/-- The line that opts in. -/
def sentinelLine : List Char := "//= SCRIPTABLE".toList

/-- The marker with the names of the bases. -/
def basesLine (bases : List (List Char)) : List Char := Marker.bases.text ++ spaced bases

/-- The line that opens a namespace. -/
def namespaceLine (name : List Char) : List Char := "namespace ".toList ++ (name ++ " \x7b".toList)

/-- The line that opens a class. -/
def classLine (name : List Char) : List Char := "class ".toList ++ (name ++ " \x7b".toList)

namespace EnumLayout

/-- What stands between the braces. -/
def body (e : EnumLayout) : List Char := ' ' :: (", ".toList.intercalate e.values ++ [' '])

/-- What follows the name. -/
def rest (e : EnumLayout) : List Char := " \x7b".toList ++ (e.body ++ "\x7d;".toList)

/-- The keyword that makes an enumeration scoped. -/
def keyword (e : EnumLayout) : List Char := if e.isScoped then "class ".toList else []

/-- The declaration, on one line. -/
def line (e : EnumLayout) : List Char := "enum ".toList ++ (e.keyword ++ (e.name ++ e.rest))

/-- The marker and the declaration. -/
def lines (e : EnumLayout) : List (List Char) := [Marker.enumeration.text, e.line]

end EnumLayout

namespace Layout

/-- The marker of the bases, unless there are none. -/
def basesLines (l : Layout) : List (List Char) := if l.bases = [] then [] else [basesLine l.bases]

/-- The lines in front of the class. -/
def preamble (l : Layout) : List (List Char) := sentinelLine :: l.basesLines

/-- The lines that close the class and the namespaces. -/
def closers (l : Layout) : List (List Char) :=
  "\x7d;".toList :: l.namespaces.map fun _ => "\x7d".toList

/-- The text in front of the class. -/
def front (l : Layout) : List Char :=
  joinLines l.preamble ++ joinLines (l.namespaces.map namespaceLine)

/-- The region with its markers. -/
def region (l : Layout) : List Char :=
  joinLines [Marker.regionBegin.text] ++ (l.body ++ joinLines [Marker.regionEnd.text])

/-- The enumerations, and what closes the class and the namespaces. -/
def closing (l : Layout) : List Char :=
  joinLines (l.enums.flatMap EnumLayout.lines) ++ joinLines l.closers

/-- The header as it is written. -/
def text (l : Layout) : List Char :=
  l.front ++ (joinLines [classLine l.className] ++ (l.region ++ l.closing))

/-- The offset of the region with its markers. -/
def regionOffset (l : Layout) : Nat := byteLength (l.front ++ joinLines [classLine l.className])

/-- The offset of the text between the markers. -/
def bodyOffset (l : Layout) : Nat := l.regionOffset + byteLength Marker.regionBegin.text

end Layout

/-! ## What is read back -/

/-- An enumeration as it is read behind its marker. -/
def EnumLayout.contents (e : EnumLayout) : Bool × List Char × List String :=
  (e.isScoped, e.name, e.values.map String.ofList)

namespace Layout

/-- The namespaces as they are named together. -/
def scope (l : Layout) : Option String :=
  if l.namespaces = [] then none else some (String.ofList ("::".toList.intercalate l.namespaces))

/-- What the text between the markers declares. -/
def members (l : Layout) : MethodTable × List Diagnostic :=
  methodsOf (String.ofList l.className) ('\n' :: l.body) l.bodyOffset l.text

end Layout

/-! ## Well-formed layouts -/

/-- An identifier that is not taken for the opening of a namespace, as any that is no keyword. -/
def IsName (name : List Char) : Prop := IsIdentifier name ∧ name ≠ "namespace".toList

instance (name : List Char) : Decidable (IsName name) :=
  inferInstanceAs (Decidable (IsIdentifier name ∧ name ≠ "namespace".toList))

/-- The name and the values are names. -/
@[mk_iff]
structure EnumLayout.WellFormed (e : EnumLayout) : Prop where
  name : IsName e.name
  values : ∀ v ∈ e.values, IsName v

instance (e : EnumLayout) : Decidable e.WellFormed :=
  decidable_of_iff _ (EnumLayout.wellFormed_iff e).symm

/-- The names are names, and nothing in the region marks, declares or opens anything. -/
@[mk_iff]
structure Layout.WellFormed (l : Layout) : Prop where
  namespaces : ∀ n ∈ l.namespaces, IsName n
  className : IsName l.className
  bases : ∀ b ∈ l.bases, IsName b
  enums : ∀ e ∈ l.enums, e.WellFormed
  /-- The region has complete lines. -/
  whole : EndsLine l.body
  unmarked : ¬ Marker.sign <:+: l.body
  noNamespace : containsWord "namespace".toList l.body = false
  noClass : containsWord "class".toList l.body = false

instance (l : Layout) : Decidable l.WellFormed :=
  decidable_of_iff _ (Layout.wellFormed_iff l).symm

/-! ## Lines -/

theorem joinLines_cons (line : List Char) (lines : List (List Char)) :
    joinLines (line :: lines) = line ++ '\n' :: joinLines lines := by
  rw [joinLines, List.flatMap_cons, List.append_assoc]
  rfl

theorem joinLines_singleton (line : List Char) : joinLines [line] = line ++ ['\n'] := by
  rw [joinLines_cons]
  rfl

theorem joinLines_append (lines lines' : List (List Char)) :
    joinLines (lines ++ lines') = joinLines lines ++ joinLines lines' := List.flatMap_append

theorem endsLine_joinLines (lines : List (List Char)) : EndsLine (joinLines lines) := by
  induction lines with
  | nil => exact endsLine_nil
  | cons line lines ih =>
    rw [joinLines, List.flatMap_cons]
    exact (endsLine_append_newline line).append ih

namespace Layout

variable {P : List Char → Prop}

theorem forall_mem_preamble {l : Layout} (hsentinel : P sentinelLine)
    (hbases : P (basesLine l.bases)) : ∀ line ∈ l.preamble, P line := by
  refine List.forall_mem_cons.2 ⟨hsentinel, ?_⟩
  rw [basesLines]
  split
  · exact nofun
  · exact List.forall_mem_singleton.2 hbases

theorem forall_mem_closing {l : Layout} (hmarker : P Marker.enumeration.text)
    (hline : ∀ e ∈ l.enums, P e.line) (hclass : P "\x7d;".toList) (hnamespace : P "\x7d".toList) :
    ∀ line ∈ l.enums.flatMap EnumLayout.lines ++ l.closers, P line := by
  refine List.forall_mem_append.2 ⟨fun line hmem => ?_, List.forall_mem_cons.2 ⟨hclass, ?_⟩⟩
  · obtain ⟨e, he, hmem⟩ := List.mem_flatMap.1 hmem
    rcases List.mem_cons.1 hmem with rfl | hmem
    · exact hmarker
    · obtain rfl := List.mem_singleton.1 hmem
      exact hline e he
  · exact List.forall_mem_map.2 fun _ _ => hnamespace

end Layout

theorem sites_line (m : Marker) (line : List Char) :
    m.sites (line ++ ['\n']) = (m.sites line).map (Marker.Site.extend ['\n']) := by
  rw [Marker.sites_append m (.inr (Marker.endsMarker_of_startsLine (startsLine_newline []))),
    Marker.sites_newline, List.map_nil, List.append_nil]

theorem sites_joinLines_eq_nil {m : Marker} {lines : List (List Char)}
    (h : ∀ line ∈ lines, m.sites line = []) : m.sites (joinLines lines) = [] := by
  induction lines with
  | nil => exact Marker.sites_of_notMem List.not_mem_nil
  | cons line lines ih =>
    obtain ⟨hline, hlines⟩ := List.forall_mem_cons.1 h
    rw [joinLines, List.flatMap_cons]
    refine Marker.sites_append_eq_nil (endsLine_append_newline line) ?_ (ih hlines)
    rw [sites_line, hline]
    rfl

theorem classDeclarations_joinLines_eq_nil {lines : List (List Char)}
    (h : ∀ line ∈ lines, '\n' ∉ line ∧ declaredName? line = none) :
    classDeclarations (joinLines lines) = [] := by
  induction lines with
  | nil => rfl
  | cons line lines ih =>
    obtain ⟨⟨hnewline, hline⟩, hlines⟩ := List.forall_mem_cons.1 h
    rw [joinLines_cons, classDeclarations_append_newline, classDeclarations_line hnewline, hline,
      ih hlines]
    rfl

theorem containsWord_joinLines_eq_false {w : List Char} (hw : IsIdentifier w)
    {lines : List (List Char)} (h : ∀ line ∈ lines, containsWord w line = false) :
    containsWord w (joinLines lines) = false := by
  have hnewline : '\n' ∉ w := notMem_of_isWord (fun _ => hw.isWord_of_mem) (by decide)
  induction lines with
  | nil => exact containsWord_nil hw
  | cons line lines ih =>
    obtain ⟨hline, hlines⟩ := List.forall_mem_cons.1 h
    rw [joinLines_cons, containsWord_append_cons hnewline (by decide), hline, ih hlines]
    rfl

/-! ## Characters of the lines -/

/-- The characters of the lines without markers. -/
def isLayoutChar (c : Char) : Bool := isPlain c || c = '\x7b' || c = '\x7d' || c = ';'

theorem notMem_of_isLayoutChar {line : List Char} (h : ∀ c ∈ line, isLayoutChar c) {d : Char}
    (hd : isLayoutChar d = false) : d ∉ line := by
  intro hmem
  rw [h d hmem] at hd
  cases hd

theorem isLayoutChar_of_isPlain {cs : List Char} (h : ∀ c ∈ cs, isPlain c) :
    ∀ c ∈ cs, isLayoutChar c := by
  intro c hc
  rw [isLayoutChar, h c hc]
  rfl

theorem IsName.isPlain {name : List Char} (h : IsName name) : ∀ c ∈ name, isPlain c := by
  intro c hc
  rw [Text.isPlain, h.1.isWord_of_mem hc]
  rfl

theorem isPlain_spaced {ws : List (List Char)} (h : ∀ w ∈ ws, IsName w) :
    ∀ c ∈ spaced ws, isPlain c := by
  intro c hc
  obtain ⟨w, hw, hc⟩ := List.mem_flatMap.1 hc
  rcases List.mem_cons.1 hc with rfl | hc
  · decide
  · exact (h w hw).isPlain c hc

theorem isPlain_intercalate {ws : List (List Char)} (h : ∀ w ∈ ws, IsName w) :
    ∀ c ∈ ", ".toList.intercalate ws, isPlain c :=
  forall_mem_intercalate (by decide) fun w hw => (h w hw).isPlain

theorem newline_notMem_basesLine {bases : List (List Char)} (h : ∀ b ∈ bases, IsName b) :
    '\n' ∉ basesLine bases := by
  have hspaced : '\n' ∉ spaced bases :=
    notMem_of_isLayoutChar (isLayoutChar_of_isPlain (isPlain_spaced h)) (by decide)
  rw [basesLine, List.mem_append, not_or]
  exact ⟨by decide +kernel, hspaced⟩

/-- The characters of a line that opens the block of a name. -/
theorem isLayoutChar_opening {word name : List Char} (hword : ∀ c ∈ word, isLayoutChar c)
    (h : IsName name) : ∀ c ∈ word ++ (name ++ " \x7b".toList), isLayoutChar c := by
  have hname : ∀ c ∈ name ++ " \x7b".toList, isLayoutChar c :=
    List.forall_mem_append.2 ⟨isLayoutChar_of_isPlain h.isPlain, by decide⟩
  exact List.forall_mem_append.2 ⟨hword, hname⟩

namespace EnumLayout

variable {e : EnumLayout} (h : e.WellFormed)
include h

theorem isPlain_body : ∀ c ∈ e.body, isPlain c := by
  have hvalues := isPlain_intercalate h.values
  exact List.forall_mem_cons.2 ⟨by decide, List.forall_mem_append.2 ⟨hvalues, by decide⟩⟩

theorem isLayoutChar_line : ∀ c ∈ e.line, isLayoutChar c := by
  have hkeyword : ∀ c ∈ e.keyword, isLayoutChar c := by
    rw [keyword]
    cases e.isScoped <;> decide
  have hrest : ∀ c ∈ e.rest, isLayoutChar c := List.forall_mem_append.2
    ⟨by decide, List.forall_mem_append.2 ⟨isLayoutChar_of_isPlain (isPlain_body h), by decide⟩⟩
  have hname := isLayoutChar_of_isPlain h.name.isPlain
  exact List.forall_mem_append.2
    ⟨by decide, List.forall_mem_append.2 ⟨hkeyword, List.forall_mem_append.2 ⟨hname, hrest⟩⟩⟩

end EnumLayout

/-! ## Words of the lines -/

theorem IsName.containsWord_eq_false {name : List Char} (h : IsName name) :
    containsWord "namespace".toList name = false :=
  containsWord_name h.1 h.2

/-- Neither of two texts around a character outside words has the word. -/
theorem containsWord_cut {u v : List Char} {d : Char} (hd : isWord d = false)
    (hu : containsWord "namespace".toList u = false)
    (hv : containsWord "namespace".toList v = false) :
    containsWord "namespace".toList (u ++ d :: v) = false := by
  have hword : ∀ c ∈ "namespace".toList, isWord c := by decide
  rw [containsWord_append_cons (notMem_of_isWord hword hd) hd, hu, hv]
  rfl

theorem containsWord_append_spaced {u : List Char} (hu : containsWord "namespace".toList u = false)
    {ws : List (List Char)} (h : ∀ w ∈ ws, IsName w) :
    containsWord "namespace".toList (u ++ spaced ws) = false := by
  induction ws generalizing u with
  | nil => rwa [spaced, List.flatMap_nil, List.append_nil]
  | cons w ws ih =>
    obtain ⟨hw, hws⟩ := List.forall_mem_cons.1 h
    exact containsWord_cut (by decide) hu (ih hw.containsWord_eq_false hws)

theorem containsWord_basesLine {bases : List (List Char)} (h : ∀ b ∈ bases, IsName b) :
    containsWord "namespace".toList (basesLine bases) = false :=
  containsWord_append_spaced (by decide +kernel) h

theorem containsWord_classLine {name : List Char} (h : IsName name) :
    containsWord "namespace".toList (classLine name) = false := by
  have hname : containsWord "namespace".toList (name ++ ' ' :: ['\x7b']) = false :=
    containsWord_cut (by decide) h.containsWord_eq_false (by decide)
  exact containsWord_cut (u := "class".toList) (d := ' ') (by decide) (by decide) hname

theorem containsWord_intercalate {ws : List (List Char)} (h : ∀ w ∈ ws, IsName w) {v : List Char}
    (hv : containsWord "namespace".toList v = false) :
    containsWord "namespace".toList (", ".toList.intercalate ws ++ ' ' :: v) = false := by
  induction ws with
  | nil => exact containsWord_cut (u := []) (by decide) rfl hv
  | cons w ws ih =>
    obtain ⟨hw, hws⟩ := List.forall_mem_cons.1 h
    cases ws with
    | nil =>
      rw [List.intercalate_singleton]
      exact containsWord_cut (by decide) hw.containsWord_eq_false hv
    | cons w' ws =>
      have hmore := containsWord_cut (u := []) (d := ' ') (by decide) rfl (ih hws)
      rw [List.intercalate_cons_cons, List.append_assoc, List.append_assoc]
      exact containsWord_cut (d := ',') (by decide) hw.containsWord_eq_false hmore

theorem EnumLayout.containsWord_line {e : EnumLayout} (h : e.WellFormed) :
    containsWord "namespace".toList e.line = false := by
  have hvalues := containsWord_intercalate h.values (v := "\x7d;".toList) (by decide)
  have hbody := containsWord_cut (u := "\x7b".toList) (d := ' ') (by decide) (by decide) hvalues
  have hname : containsWord "namespace".toList (e.name ++ e.rest) = false := by
    rw [rest, body, List.cons_append, List.append_assoc]
    exact containsWord_cut (by decide) h.name.containsWord_eq_false hbody
  refine containsWord_cut (u := "enum".toList) (d := ' ') (by decide) (by decide) ?_
  rw [keyword]
  cases e.isScoped with
  | false => exact hname
  | true => exact containsWord_cut (u := "class".toList) (d := ' ') (by decide) (by decide) hname

end Header

end ChaiBind
