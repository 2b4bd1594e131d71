import Lox.Tree.Insight
/-!
# Where statements stand

A spot is a statement of a program with the way to it: the number of each step from the outside in,
and the statements around it. In the order of their paths the spots follow the text of the program.
The walk over a program comes to every spot that is not inside a class body, to each one once and in
this order. Main statements: `Stmt.mem_rowSpots`, `Stmt.sorted_rowSpots`, `Insights.ofProgram_eq`,
`Insights.depth_nonneg`.
-/

namespace Lox

namespace Stmt

/-- The statements directly inside a statement, with those in the methods of a class. -/
def parts : Stmt → List Stmt
  | block _ body => body
  | ifElse _ _ yes no => yes :: no.toList
  | loop _ _ body => [body]
  | funDecl f => f.body
  | classDecl _ _ _ methods => methods.flatMap FunDecl.body
  | _ => []

def isFunction : Stmt → Bool
  | funDecl _ => true
  | _ => false

def isClass : Stmt → Bool
  | classDecl .. => true
  | _ => false

end Stmt

/-- A statement of a program, and where it stands. -/
structure Spot where
  /-- The number of each statement on the way among those beside it, outermost first. -/
  path : List Nat
  /-- The statements around it, outermost first. -/
  around : List Stmt
  stmt : Stmt

namespace Spot

/-- The spot is one of the program `ss`. -/
inductive Stands : List Stmt → Spot → Prop
  | here {ss : List Stmt} {i : Nat} {s : Stmt} : ss[i]? = some s → Stands ss ⟨[i], [], s⟩
  | inside {ss : List Stmt} {i : Nat} {s : Stmt} {spot : Spot} : ss[i]? = some s →
    Stands s.parts spot → Stands ss ⟨i :: spot.path, s :: spot.around, spot.stmt⟩

/-- The spot is not inside a class body. -/
def Outside (spot : Spot) : Prop := ∀ s ∈ spot.around, s.isClass = false

/-- The number of functions around the spot. -/
def depth (spot : Spot) : Nat := spot.around.countP Stmt.isFunction

/-- What is to be told about the function declared at the spot. -/
def function? (spot : Spot) : Option FunctionInfo :=
  match spot.stmt with
  | .funDecl f => some ⟨f.name.lexeme, f.params.map Token.lexeme, f.name.line, spot.depth⟩
  | _ => none

/-- What is to be told about the class declared at the spot. -/
def class? (spot : Spot) : Option ClassInfo :=
  match spot.stmt with
  | .classDecl _ name superclass methods => some ⟨name.lexeme, superclass.map (·.name.lexeme),
      name.line, methods.map fun m =>
        ⟨m.name.lexeme, m.params.map Token.lexeme, m.name.line, spot.depth⟩⟩
  | _ => none

/-- The name of the function or class declared at the spot. -/
def name? (spot : Spot) : Option Token :=
  match spot.stmt with
  | .funDecl f => some f.name
  | .classDecl _ name _ _ => some name
  | _ => none

/-- The spot as seen from farther out: number `i` of a row. -/
def beside (i : Nat) (spot : Spot) : Spot := { spot with path := i :: spot.path }

/-- The spot as seen from farther out: inside the statements `outer`. -/
def within (outer : List Stmt) (spot : Spot) : Spot := { spot with around := outer ++ spot.around }

end Spot

namespace Stmt

mutual

/-- A statement and the spots inside it, as the walk comes to them. -/
def spots : Stmt → List Spot
  | block brace body =>
    ⟨[], [], block brace body⟩ :: (rowSpots 0 body).map (Spot.within [block brace body])
  | ifElse keyword cond yes none =>
    ⟨[], [], ifElse keyword cond yes none⟩ ::
      (yes.spots.map (Spot.beside 0)).map (Spot.within [ifElse keyword cond yes none])
  | ifElse keyword cond yes (some no) =>
    ⟨[], [], ifElse keyword cond yes (some no)⟩ ::
      (yes.spots.map (Spot.beside 0) ++ no.spots.map (Spot.beside 1)).map
        (Spot.within [ifElse keyword cond yes (some no)])
  | loop keyword cond body =>
    ⟨[], [], loop keyword cond body⟩ ::
      (body.spots.map (Spot.beside 0)).map (Spot.within [loop keyword cond body])
  | funDecl (.mk name params body) =>
    ⟨[], [], funDecl (.mk name params body)⟩ ::
      (rowSpots 0 body).map (Spot.within [funDecl (.mk name params body)])
  | s => [⟨[], [], s⟩]

/-- The spots of a row of statements that are numbered from `i` on. -/
def rowSpots (i : Nat) : List Stmt → List Spot
  | [] => []
  | s :: rest => s.spots.map (Spot.beside i) ++ rowSpots (i + 1) rest

end

/-- The statements that the walk goes into from a statement. -/
def inner (s : Stmt) : List Stmt := if s.isClass then [] else s.parts

theorem visits_eq (s : Stmt) : s.visits = .enter s :: (listVisits s.inner ++ [.leave s]) := by
  cases s with
  | ifElse keyword cond yes no =>
    cases no <;> simp [visits, inner, parts, isClass, listVisits]
  | funDecl f =>
    cases f
    simp [visits, inner, parts, isClass, FunDecl.body]
  | _ => simp [visits, inner, parts, isClass, listVisits]

theorem spots_eq (s : Stmt) :
    s.spots = ⟨[], [], s⟩ :: (rowSpots 0 s.inner).map (Spot.within [s]) := by
  cases s with
  | ifElse keyword cond yes no =>
    cases no <;> simp [spots, inner, parts, isClass, rowSpots]
  | funDecl f =>
    cases f
    simp [spots, inner, parts, isClass, FunDecl.body]
  | _ => simp [spots, inner, parts, isClass, rowSpots]

mutual

/-- Induction along the walk. -/
theorem walk_induction {P : Stmt → Prop} (h : ∀ s, (∀ t ∈ s.inner, P t) → P s) : ∀ s, P s
  | block _ body => h _ (walk_induction_list h body)
  | ifElse _ _ yes none =>
    have hyes := walk_induction h yes
    h _ (List.forall_mem_singleton.2 hyes)
  | ifElse _ _ yes (some no) =>
    have hyes := walk_induction h yes
    have hno := walk_induction h no
    h _ (List.forall_mem_cons.2 ⟨hyes, List.forall_mem_singleton.2 hno⟩)
  | loop _ _ body =>
    have hbody := walk_induction h body
    h _ (List.forall_mem_singleton.2 hbody)
  | funDecl (.mk _ _ body) => h _ (walk_induction_list h body)
  | expr .. | print .. | varDecl .. | ret .. | classDecl .. => h _ (List.forall_mem_nil P)

theorem walk_induction_list {P : Stmt → Prop} (h : ∀ s, (∀ t ∈ s.inner, P t) → P s) :
    ∀ ss : List Stmt, ∀ t ∈ ss, P t
  | [] => List.forall_mem_nil P
  | s :: rest =>
    have hs := walk_induction h s
    have hrest := walk_induction_list h rest
    List.forall_mem_cons.2 ⟨hs, hrest⟩

end

variable {ss : List Stmt} {s : Stmt} {spot : Spot}

theorem inner_of_isClass (h : s.isClass = true) : s.inner = [] := by simp [inner, h]

theorem inner_of_not_isClass (h : s.isClass = false) : s.inner = s.parts := by simp [inner, h]

/-! ## Every spot once -/

theorem mem_rowSpots_from (i : Nat) : spot ∈ rowSpots i ss ↔
    ∃ (j : Nat) (s : Stmt) (spot' : Spot),
      ss[j]? = some s ∧ spot' ∈ s.spots ∧ spot = spot'.beside (i + j) := by
  induction ss generalizing i with
  | nil => simp [rowSpots]
  | cons s rest ih =>
    rw [rowSpots, List.mem_append, List.mem_map, ih]
    constructor
    · rintro (⟨spot', hs, rfl⟩ | ⟨j, t, spot', hj, ht, rfl⟩)
      · exact ⟨0, s, spot', rfl, hs, rfl⟩
      · exact ⟨j + 1, t, spot', hj, ht, by rw [Nat.add_assoc, Nat.add_comm 1 j]⟩
    · rintro ⟨j, t, spot', hj, ht, rfl⟩
      cases j with
      | zero =>
        obtain rfl : s = t := Option.some.inj hj
        exact .inl ⟨spot', ht, rfl⟩
      | succ j => exact .inr ⟨j, t, spot', hj, ht, by rw [Nat.add_assoc, Nat.add_comm 1 j]⟩

theorem mem_spots_iff : spot ∈ s.spots ↔
    spot = ⟨[], [], s⟩ ∨ ∃ spot' ∈ rowSpots 0 s.inner, spot = spot'.within [s] := by
  rw [spots_eq, List.mem_cons, List.mem_map]
  simp only [eq_comm]

/-- A row, given what stands inside its statements. -/
theorem mem_rowSpots_of (h : ∀ t ∈ ss, ∀ spot, spot ∈ rowSpots 0 t.inner ↔
      spot.Stands t.inner ∧ spot.Outside) (spot : Spot) :
    spot ∈ rowSpots 0 ss ↔ spot.Stands ss ∧ spot.Outside := by
  rw [mem_rowSpots_from]
  constructor
  · rintro ⟨j, s, spot', hj, hs, rfl⟩
    rw [Nat.zero_add]
    rcases mem_spots_iff.1 hs with rfl | ⟨spot', hin, rfl⟩
    · exact ⟨.here hj, List.forall_mem_nil _⟩
    · obtain ⟨hstands, hout⟩ := (h s (List.mem_of_getElem? hj) spot').1 hin
      cases hc : s.isClass with
      | true =>
        rw [inner_of_isClass hc] at hin
        cases hin
      | false =>
        rw [inner_of_not_isClass hc] at hstands
        exact ⟨.inside hj hstands, List.forall_mem_cons.2 ⟨hc, hout⟩⟩
  · rintro ⟨hstands, hout⟩
    cases hstands with
    | @here _ i s hi => exact ⟨i, s, _, hi, mem_spots_iff.2 (.inl rfl), by rw [Nat.zero_add]; rfl⟩
    | @inside _ i s spot hi hstands =>
      obtain ⟨hc, hout⟩ := List.forall_mem_cons.1 hout
      rw [← inner_of_not_isClass hc] at hstands
      have hin := (h s (List.mem_of_getElem? hi) spot).2 ⟨hstands, hout⟩
      exact ⟨i, s, _, hi, mem_spots_iff.2 (.inr ⟨spot, hin, rfl⟩), by rw [Nat.zero_add]; rfl⟩

/-- The walk comes to the spots that are not inside a class body, and to no others. -/
theorem mem_rowSpots (ss : List Stmt) (spot : Spot) :
    spot ∈ rowSpots 0 ss ↔ spot.Stands ss ∧ spot.Outside :=
  mem_rowSpots_of (fun t _ => walk_induction (fun _ ih => mem_rowSpots_of ih) t) spot

/-! ## In order -/

theorem sorted_rowSpots_of (h : ∀ t ∈ ss, t.spots.Pairwise fun a b => a.path < b.path) (i : Nat) :
    (rowSpots i ss).Pairwise fun a b => a.path < b.path := by
  induction ss generalizing i with
  | nil => exact List.Pairwise.nil
  | cons s rest ih =>
    obtain ⟨hs, hrest⟩ := List.forall_mem_cons.1 h
    refine List.pairwise_append.2 ⟨?_, ih hrest (i + 1), fun a ha b hb => ?_⟩
    · exact List.pairwise_map.2 (hs.imp fun hlt => List.cons_lt_cons_iff.2 (.inr ⟨rfl, hlt⟩))
    · obtain ⟨a', -, rfl⟩ := List.mem_map.1 ha
      obtain ⟨j, t, b', -, -, rfl⟩ := (mem_rowSpots_from (i + 1)).1 hb
      exact List.cons_lt_cons_iff.2 (.inl (by omega))

theorem sorted_spots (s : Stmt) : s.spots.Pairwise fun a b => a.path < b.path := by
  induction s using walk_induction with
  | h s ih =>
    rw [spots_eq]
    refine List.pairwise_cons.2 ⟨fun b hb => ?_, List.pairwise_map.2 (sorted_rowSpots_of ih 0)⟩
    obtain ⟨b', hb', rfl⟩ := List.mem_map.1 hb
    obtain ⟨j, t, b₁, -, -, rfl⟩ := (mem_rowSpots_from 0).1 hb'
    exact List.nil_lt_cons _ _

/-- The walk comes to the spots in the order of the text. -/
theorem sorted_rowSpots (ss : List Stmt) : (rowSpots 0 ss).Pairwise fun a b => a.path < b.path :=
  sorted_rowSpots_of (fun t _ => sorted_spots t) 0

end Stmt

/-! ## What the walk finds -/

namespace Insights

open Stmt

/-- The insights with what is to be told about more spots. -/
def extend (i : Insights) (spots : List Spot) : Insights :=
  ⟨i.classes ++ spots.filterMap Spot.class?, i.functions ++ spots.filterMap Spot.function?, i.depth⟩

theorem extend_append (i : Insights) (a b : List Spot) :
    i.extend (a ++ b) = (i.extend a).extend b := by
  simp [extend]

/-- Nothing that is told depends on the number in a row. -/
theorem extend_beside (i : Insights) (outer : List Stmt) (n : Nat) (spots : List Spot) :
    i.extend ((spots.map (Spot.beside n)).map (Spot.within outer)) =
      i.extend (spots.map (Spot.within outer)) := by
  simp only [extend, List.filterMap_map]
  rfl

theorem visit_enter (i : Insights) (s : Stmt) (outer : List Stmt)
    (hd : i.depth = outer.countP isFunction) : i.visit (.enter s) =
      { i.extend [⟨[], outer, s⟩] with depth := (outer ++ [s]).countP isFunction } := by
  obtain ⟨classes, functions, depth⟩ := i
  subst hd
  cases s <;> simp [visit, extend, Spot.class?, Spot.function?, isFunction, FunDecl.describe,
    Spot.depth, List.filterMap_cons]

theorem visit_leave (i : Insights) (s : Stmt) (outer : List Stmt)
    (hd : i.depth = (outer ++ [s]).countP isFunction) :
    i.visit (.leave s) = { i with depth := outer.countP isFunction } := by
  obtain ⟨classes, functions, depth⟩ := i
  subst hd
  cases s <;> simp [visit, isFunction]

/-- The walk over a row inside the statements `outer`, given the walks over its statements. -/
theorem foldl_row {ss outer : List Stmt} (h : ∀ t ∈ ss, ∀ i : Insights,
      i.depth = outer.countP isFunction →
        t.visits.foldl visit i = i.extend (t.spots.map (Spot.within outer)))
    (n : Nat) (i : Insights) (hd : i.depth = outer.countP isFunction) :
    (listVisits ss).foldl visit i = i.extend ((rowSpots n ss).map (Spot.within outer)) := by
  induction ss generalizing n i with
  | nil => simp [listVisits, rowSpots, extend]
  | cons s rest ih =>
    obtain ⟨hs, hrest⟩ := List.forall_mem_cons.1 h
    rw [listVisits, List.foldl_append, hs i hd, rowSpots, List.map_append, extend_append,
      extend_beside]
    exact ih hrest (n + 1) _ hd

/-- The walk over a statement tells what is to be told about its spots. -/
theorem foldl_visits (s : Stmt) (outer : List Stmt) (i : Insights)
    (hd : i.depth = outer.countP isFunction) :
    s.visits.foldl visit i = i.extend (s.spots.map (Spot.within outer)) := by
  induction s using walk_induction generalizing outer i with
  | h s ih =>
    have hrow := foldl_row (fun t ht => ih t ht (outer ++ [s])) 0 (i.visit (.enter s))
      (by rw [visit_enter i s outer hd])
    have hspots : s.spots.map (Spot.within outer) =
        [⟨[], outer, s⟩] ++ (rowSpots 0 s.inner).map (Spot.within (outer ++ [s])) := by
      rw [spots_eq, List.map_cons, List.map_map]
      simp [Spot.within, Function.comp_def]
    rw [visits_eq, List.foldl_cons, List.foldl_append, hrow, List.foldl_cons, List.foldl_nil,
      visit_enter i s outer hd, visit_leave _ s outer rfl, hspots, extend_append]
    simp only [extend, hd]

/-- **What the walk over a program finds.** -/
theorem ofProgram_eq (program : List Stmt) :
    ofProgram program = extend ⟨[], [], 0⟩ (rowSpots 0 program) := by
  have hwithin : (rowSpots 0 program).map (Spot.within []) = rowSpots 0 program := List.map_id' _
  rw [ofProgram, foldl_row (fun t _ i => foldl_visits t [] i) 0 _ rfl, hwithin]

/-! ## The count of functions during the walk -/

/-- From here on the walk never counts fewer functions than it does now. -/
def Keeps (visits : List Visit) : Prop :=
  ∀ (n : Nat) (i : Insights) (outer : List Stmt), i.depth = outer.countP isFunction →
    i.depth ≤ ((visits.take n).foldl visit i).depth

theorem keeps_row {ss : List Stmt} (h : ∀ t ∈ ss, Keeps t.visits) : Keeps (listVisits ss) := by
  induction ss with
  | nil =>
    intro n i outer _
    simp [listVisits]
  | cons s rest ih =>
    obtain ⟨hs, hrest⟩ := List.forall_mem_cons.1 h
    intro n i outer hd
    rw [listVisits, List.take_append, List.foldl_append]
    rcases Nat.le_total n s.visits.length with hn | hn
    · rw [Nat.sub_eq_zero_of_le hn, List.take_zero, List.foldl_nil]
      exact hs n i outer hd
    · rw [List.take_of_length_le hn, foldl_visits s outer i hd]
      exact ih hrest _ _ outer hd

theorem keeps_visits (s : Stmt) : Keeps s.visits := by
  induction s using walk_induction with
  | h s ih =>
    intro n i outer hd
    rw [visits_eq]
    cases n with
    | zero => simp
    | succ n =>
      have hdepth : (i.visit (.enter s)).depth = ((outer ++ [s]).countP isFunction : Nat) := by
        rw [visit_enter i s outer hd]
      have hle : i.depth ≤ (i.visit (.enter s)).depth := by
        rw [hd, hdepth, List.countP_append]
        omega
      rw [List.take_succ_cons, List.foldl_cons, List.take_append, List.foldl_append]
      rcases Nat.le_total n (listVisits s.inner).length with hn | hn
      · rw [Nat.sub_eq_zero_of_le hn, List.take_zero, List.foldl_nil]
        exact Int.le_trans hle (keeps_row ih n _ _ hdepth)
      · rw [List.take_of_length_le hn,
          foldl_row (fun t _ i => foldl_visits t _ i) 0 (i.visit (.enter s)) hdepth]
        cases n - (listVisits s.inner).length with
        | zero => exact hle
        | succ m =>
          rw [List.take_succ_cons, List.take_nil, List.foldl_cons, List.foldl_nil]
          exact Int.le_of_eq (by
            rw [visit_leave ((i.visit (.enter s)).extend _) s outer hdepth, hd])

/-- The walk never counts less than no function. -/
theorem depth_nonneg (program : List Stmt) (n : Nat) :
    0 ≤ (((listVisits program).take n).foldl visit ⟨[], [], 0⟩).depth :=
  keeps_row (fun t _ => keeps_visits t) n ⟨[], [], 0⟩ [] rfl

end Insights

end Lox
