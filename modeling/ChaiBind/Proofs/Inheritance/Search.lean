import ChaiBind.Registry.Inheritance
import Mathlib.Data.List.Chain
import Mathlib.Data.List.Nodup
import Mathlib.Data.List.Perm.Subperm
import Mathlib.Logic.Relation
import Mathlib.Order.WellFounded

/-!
# The search for a cycle

`Extends` relates a class to its registered bases. The search in depth keeps two
things: the classes on its path are distinct and each is a base of the one before
(`OnPath`), and those that it has finished stand after their registered bases
(`Ordered`). A base that is met on the path closes a cycle (`isCycle_cycleAt`);
classes in order, on the other hand, leave no room for one (`Ordered.acc`).

* `settles_visit`, `settles_finishOrder`: a search ends with a cycle, or with all
  that it was to finish in order; the depth that it is given always suffices.
* `closure_error_iff`: the ancestors are refused if and only if some class reaches
  itself, and what is reported then is a cycle. If they are not, then nested calls
  of `ancestors` are never about one class twice.
-/

namespace ChaiBind.Inheritance

variable {g : Inheritance}

/-- The first class has the second, which is registered, as a base. -/
def Extends (g : Inheritance) (a b : String) : Prop := b ∈ g.registeredBases a

theorem extends_iff {a b : String} : g.Extends a b ↔ b ∈ g.basesOf a ∧ g.contains b := by
  rw [Extends, registeredBases, List.mem_filter]

theorem contains_iff {a : String} : g.contains a ↔ a ∈ g.classes := g.bases.contains_iff a

theorem contains_of_mem_basesOf {a b : String} (h : b ∈ g.basesOf a) : g.contains a := by
  rw [contains, Table.contains, Option.isSome_iff_ne_none]
  intro hn
  simp [basesOf, hn] at h

/-- Classes each of which has the next one as a base, the first one again at the end, and no other
one twice. -/
structure IsCycle (g : Inheritance) (cs : List String) : Prop where
  two_le_length : 2 ≤ cs.length
  closed : cs.head? = cs.getLast?
  registered : ∀ x ∈ cs, g.contains x
  linked : cs.IsChain fun a b => b ∈ g.basesOf a
  distinct : cs.dropLast.Nodup

/-- What holds of the classes on the path of a search, the one in hand first. -/
structure OnPath (g : Inheritance) (path : List String) : Prop where
  distinct : path.Nodup
  registered : ∀ x ∈ path, g.contains x
  linked : path.IsChain fun b a => g.Extends a b

theorem OnPath.cons {name base : String} {path : List String} (h : g.OnPath (name :: path))
    (hb : g.Extends name base) (hp : base ∉ name :: path) : g.OnPath (base :: name :: path) where
  distinct := List.nodup_cons.2 ⟨hp, h.distinct⟩
  registered x hx := by
    rcases List.mem_cons.1 hx with rfl | hx
    · exact (extends_iff.1 hb).2
    · exact h.registered x hx
  linked := List.isChain_cons_cons.2 ⟨hb, h.linked⟩

/-- There are no more classes on a path than there are classes. -/
theorem OnPath.length_le {path : List String} (h : g.OnPath path) :
    path.length ≤ g.bases.size := by
  have hsub : path ⊆ g.classes := fun x hx => contains_iff.1 (h.registered x hx)
  have := (h.distinct.subperm hsub).length_le
  rwa [classes, Table.keys, List.length_map] at this

/-- A base on the path closes a cycle. -/
theorem isCycle_cycleAt {name base : String} {path : List String} (h : g.OnPath (name :: path))
    (hb : g.Extends name base) (hp : base ∈ name :: path) :
    g.IsCycle (cycleAt (name :: path) base).classes := by
  obtain ⟨near, far, hsplit, hnear⟩ := List.eq_append_cons_of_mem hp
  have hne : ∀ x ∈ near, decide (x ≠ base) = true := fun x hx =>
    decide_eq_true fun e => hnear (e ▸ hx)
  have hclasses : (cycleAt (name :: path) base).classes = (near ++ [base]).reverse ++ [base] := by
    rw [cycleAt, hsplit, List.takeWhile_append_of_pos hne, List.takeWhile_cons_of_neg (by simp)]
    simp
  have hpre : near ++ [base] <+: name :: path := ⟨far, by simp [hsplit]⟩
  -- the path starts with the class in hand, so that the cycle leads from it back to the base
  have hlast : (near ++ [base]).reverse.getLast? = some name := by
    have := congrArg List.head? hsplit
    simp only [List.head?_cons, List.head?_append] at this
    rw [List.getLast?_reverse, List.head?_append, this, List.head?_cons]
  rw [hclasses]
  constructor
  · simp
  · rw [List.reverse_append, List.getLast?_concat]
    rfl
  · intro x hx
    refine h.registered x (hpre.subset ?_)
    simp only [List.mem_append, List.mem_reverse, List.mem_singleton] at hx ⊢
    tauto
  · refine List.isChain_append.2 ⟨?_, List.isChain_singleton _, fun x hx y hy => ?_⟩
    · rw [List.isChain_reverse]
      have hnear := List.IsChain.prefix h.linked hpre
      exact hnear.imp fun b a hab => (extends_iff.1 hab).1
    · rw [hlast, Option.mem_some_iff] at hx
      rw [List.head?_singleton, Option.mem_some_iff] at hy
      exact hx ▸ hy ▸ (extends_iff.1 hb).1
  · rw [List.dropLast_concat, List.nodup_reverse]
    exact h.distinct.sublist hpre.sublist

/-- Classes each of which stands after its registered bases. -/
inductive Ordered (g : Inheritance) : List String → Prop
  | nil : Ordered g []
  | snoc {order : List String} {name : String} : Ordered g order →
      (∀ base, g.Extends name base → base ∈ order) → Ordered g (order ++ [name])

/-- From a class in order no sequence of registered bases goes on forever. -/
theorem Ordered.acc {order : List String} (h : g.Ordered order) :
    ∀ x ∈ order, Acc (fun b a => g.Extends a b) x := by
  induction h with
  | nil => simp
  | snoc _ hbases ih =>
    intro x hx
    rcases List.mem_append.1 hx with hx | hx
    · exact ih x hx
    · exact Acc.intro x fun b hb => ih b (hbases b (List.mem_singleton.1 hx ▸ hb))

/-! ## What the search finds -/

/-- What the search for some names comes to, given those that are finished: a cycle, or all of them
in order. -/
def Settles (g : Inheritance) (finished names : List String) :
    Except InheritanceCycle (List String) → Prop
  | .error c => g.IsCycle c.classes
  | .ok order => g.Ordered order ∧ finished ⊆ order ∧ names ⊆ order

/-- Searches for one name after the other settle all of them. -/
theorem settles_foldlM {search : List String → String → Except InheritanceCycle (List String)}
    {names : List String}
    (hs : ∀ finished, g.Ordered finished → ∀ name ∈ names,
      g.Settles finished [name] (search finished name))
    {finished : List String} (hf : g.Ordered finished) :
    g.Settles finished names (names.foldlM search finished) := by
  induction names generalizing finished with
  | nil => exact ⟨hf, List.Subset.refl _, List.nil_subset _⟩
  | cons name names ih =>
    rw [List.foldlM_cons]
    have hname := hs finished hf name List.mem_cons_self
    cases hr : search finished name with
    | error c =>
      rw [hr] at hname
      exact hname
    | ok order =>
      rw [hr] at hname
      obtain ⟨ho, hsub, hmem⟩ := hname
      have hrest := ih (fun f hf x hx => hs f hf x (List.mem_cons_of_mem _ hx)) ho
      show g.Settles finished (name :: names) (names.foldlM search order)
      cases hr' : names.foldlM search order with
      | error c =>
        rw [hr'] at hrest
        exact hrest
      | ok last =>
        rw [hr'] at hrest
        obtain ⟨hl, hsub', hmem'⟩ := hrest
        refine ⟨hl, List.Subset.trans hsub hsub', List.cons_subset.2 ⟨hsub' ?_, hmem'⟩⟩
        exact hmem List.mem_cons_self

/-- Meeting a name settles it if it closes a cycle or can be searched from. -/
theorem settles_meet {search : List String → String → Except InheritanceCycle (List String)}
    {path finished : List String} {name : String} (hf : g.Ordered finished)
    (hc : name ∈ path → g.IsCycle (cycleAt path name).classes)
    (hs : name ∉ path → g.Settles finished [name] (search finished name)) :
    g.Settles finished [name] (meet search path finished name) := by
  unfold meet
  split
  · exact hc ‹_›
  · split
    · exact ⟨hf, List.Subset.refl _, by simpa⟩
    · exact hs ‹_›

/-- A search from a class settles it. The depth and the path add up to the number of classes, so
that the depth is not used up before all classes are on the path. -/
theorem settles_visit {depth : Nat} {path finished : List String} {name : String}
    (hp : g.OnPath (name :: path)) (hd : g.bases.size ≤ depth + path.length)
    (hf : g.Ordered finished) : g.Settles finished [name] (g.visit depth path finished name) := by
  induction depth generalizing path finished name with
  | zero =>
    have := hp.length_le
    rw [List.length_cons] at this
    omega
  | succ depth ih =>
    have hd' : g.bases.size ≤ depth + (name :: path).length := by
      rw [List.length_cons]
      omega
    have hbases : g.Settles finished (g.registeredBases name)
        ((g.registeredBases name).foldlM (meet (g.visit depth (name :: path)) (name :: path))
          finished) :=
      settles_foldlM (fun finished hf base hb =>
        settles_meet hf (isCycle_cycleAt hp hb) fun hn => ih (hp.cons hb hn) hd' hf) hf
    rw [visit]
    generalize (g.registeredBases name).foldlM
      (meet (g.visit depth (name :: path)) (name :: path)) finished = r at hbases ⊢
    cases r with
    | error c => exact hbases
    | ok order =>
      obtain ⟨ho, hsub, hmem⟩ := hbases
      exact ⟨ho.snoc fun b hb => hmem hb, List.Subset.trans hsub (List.subset_append_left _ _),
        by simp⟩

theorem settles_finishOrder (g : Inheritance) : g.Settles [] g.classes g.finishOrder := by
  refine settles_foldlM (fun finished hf name hname => settles_meet hf (by simp) fun _ => ?_) .nil
  have hp : g.OnPath [name] :=
    ⟨by simp, by simpa using contains_iff.2 hname, List.isChain_singleton _⟩
  exact settles_visit hp (Nat.le_refl _) hf

/-! ## When the ancestors are found -/

theorem closure_eq_error_iff {c : InheritanceCycle} :
    g.closure = .error c ↔ g.finishOrder = .error c := by
  rw [closure]
  cases g.finishOrder <;> simp [bind, Except.bind, pure, Except.pure]

theorem closure_eq_ok_iff {found : Table String (List String)} :
    g.closure = .ok found ↔ (∃ order, g.finishOrder = .ok order) ∧
      g.bases.mapValues (fun name _ => ((gather (g.ancestors g.bases.size) Table.empty
        g.classes).2.get? name).getD []) = found := by
  rw [closure]
  cases g.finishOrder <;> simp [bind, Except.bind, pure, Except.pure]

/-- Without a cycle the registered bases of classes do not go on forever. -/
theorem wellFounded_extends {order : List String} (h : g.finishOrder = .ok order) :
    WellFounded fun b a => g.Extends a b := by
  have hs := g.settles_finishOrder
  rw [h] at hs
  refine ⟨fun x => ?_⟩
  by_cases hx : g.contains x
  · exact hs.1.acc x (hs.2.2 (contains_iff.1 hx))
  · exact Acc.intro x fun b hb =>
      absurd (contains_of_mem_basesOf (extends_iff.1 hb).1) hx

theorem not_transGen_self (h : WellFounded fun b a => g.Extends a b) (x : String) :
    ¬ Relation.TransGen g.Extends x x := fun hx =>
  h.transGen.irrefl.irrefl x (Relation.transGen_swap.2 hx)

/-- The first class of a cycle reaches itself. -/
theorem IsCycle.exists_transGen {cs : List String} (h : g.IsCycle cs) :
    ∃ x, g.contains x ∧ Relation.TransGen g.Extends x x := by
  obtain ⟨hlen, hclosed, hreg, hlinked, -⟩ := h
  match cs, hlen with
  | a :: b :: rest, _ =>
    have hchain : (a :: b :: rest).IsChain g.Extends :=
      hlinked.imp_of_mem_imp fun x y _ hy hxy => extends_iff.2 ⟨hxy, hreg y hy⟩
    obtain ⟨hab, hrest⟩ := List.isChain_cons_cons.1 hchain
    have hlast : (b :: rest).getLast (by simp) = a := by
      rw [List.head?_cons, List.getLast?_cons_cons, List.getLast?_eq_getLast_of_ne_nil (by simp),
        Option.some.injEq] at hclosed
      exact hclosed.symm
    exact ⟨a, hreg a List.mem_cons_self, .head' hab
      (List.relationReflTransGen_of_exists_isChain_cons rest hrest hlast)⟩

/-! ## Nested calls

`ancestors` calls itself at the registered bases of the class in hand and nowhere else, so that
nested calls are about classes each of which is a registered base of the one before. -/

theorem nodup_of_isChain (h : WellFounded fun b a => g.Extends a b) {calls : List String}
    (hc : calls.IsChain g.Extends) : calls.Nodup := by
  have ht : calls.IsChain (Relation.TransGen g.Extends) := hc.imp fun _ _ => .single
  refine (List.isChain_iff_pairwise.1 ht).imp fun {a b} hab e => ?_
  exact not_transGen_self h b (e ▸ hab)

/-- Calls that start with a class are nested no more than some number of times. -/
def CallsWithin (g : Inheritance) (n : Nat) (name : String) : Prop :=
  ∀ calls, (name :: calls).IsChain g.Extends → (name :: calls).length ≤ n

theorem CallsWithin.base {n : Nat} {name base : String} (h : g.CallsWithin (n + 1) name)
    (hb : g.Extends name base) : g.CallsWithin n base := fun calls hc =>
  Nat.le_of_succ_le_succ (h (base :: calls) (List.isChain_cons_cons.2 ⟨hb, hc⟩))

theorem not_callsWithin_zero (name : String) : ¬ g.CallsWithin 0 name := fun h =>
  absurd (h [] (List.isChain_singleton name)) (by simp)

/-- Without a cycle no more calls are nested than there are classes. -/
theorem callsWithin_size (h : WellFounded fun b a => g.Extends a b) {name : String}
    (hn : g.contains name) : g.CallsWithin g.bases.size name := fun calls hc => by
  have hreg : ∀ x ∈ name :: calls, g.contains x :=
    hc.induction _ _ (fun x y hxy _ => (extends_iff.1 hxy).2) (by simpa using hn)
  have hsub : name :: calls ⊆ g.classes := fun x hx => contains_iff.1 (hreg x hx)
  have := ((nodup_of_isChain h hc).subperm hsub).length_le
  rwa [classes, Table.keys, List.length_map] at this

theorem gather_congr {search search' : Known → String → List String × Known} {names : List String}
    (h : ∀ name ∈ names, ∀ known, search known name = search' known name) (known : Known) :
    gather search known names = gather search' known names := by
  induction names generalizing known with
  | nil => rfl
  | cons name names ih =>
    simp only [gather, h name List.mem_cons_self]
    rw [ih fun x hx => h x (List.mem_cons_of_mem _ hx)]

/-- More depth than there are nested calls makes no difference. -/
theorem ancestors_add {n : Nat} {name : String} (h : g.CallsWithin n name) (extra : Nat)
    (known : Known) : g.ancestors (n + extra) known name = g.ancestors n known name := by
  induction n generalizing name known with
  | zero => exact absurd h (not_callsWithin_zero name)
  | succ n ih =>
    rw [Nat.succ_add_eq_add_succ, Nat.add_succ, ancestors, ancestors,
      gather_congr fun base hb known => ih (h.base hb) known]

/-- The ancestors are refused if and only if some class reaches itself by registered bases, and
then a cycle is reported. If they are not refused, nested calls of `ancestors` are about distinct
classes, and its depth is never used up. -/
theorem closure_error_iff (g : Inheritance) :
    ((∃ c, g.closure = .error c) ↔ ∃ x, g.contains x ∧ Relation.TransGen g.Extends x x) ∧
      (∀ c, g.closure = .error c → g.IsCycle c.classes) ∧
      ∀ found, g.closure = .ok found →
        (∀ calls : List String, calls.IsChain g.Extends → calls.Nodup) ∧
          ∀ name extra known, g.contains name →
            g.ancestors (g.bases.size + extra) known name = g.ancestors g.bases.size known name := by
  have hs := g.settles_finishOrder
  have hcycle : ∀ c, g.closure = .error c → g.IsCycle c.classes := fun c hc => by
    rw [closure_eq_error_iff.1 hc] at hs
    exact hs
  refine ⟨⟨fun ⟨c, hc⟩ => (hcycle c hc).exists_transGen, fun ⟨x, _, hx⟩ => ?_⟩, hcycle,
    fun found hf => ?_⟩
  · cases hr : g.finishOrder with
    | error c => exact ⟨c, closure_eq_error_iff.2 hr⟩
    | ok order => exact absurd hx (not_transGen_self (wellFounded_extends hr) x)
  · obtain ⟨⟨order, ho⟩, -⟩ := closure_eq_ok_iff.1 hf
    have hw := wellFounded_extends ho
    exact ⟨fun calls hc => nodup_of_isChain hw hc,
      fun name extra known hn => ancestors_add (callsWithin_size hw hn) extra known⟩

/-- Two classes that are bases of each other. -/
def loop : Inheritance := (empty.add "A" ["X", "B"]).add "B" ["A"]

theorem isCycle_loop :
    loop.closure = .error ⟨["A", "B", "A"]⟩ ∧ loop.IsCycle ["A", "B", "A"] :=
  ⟨rfl, (closure_error_iff loop).2.1 _ rfl⟩

end ChaiBind.Inheritance
