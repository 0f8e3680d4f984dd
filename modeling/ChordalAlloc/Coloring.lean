/-
ChordalAlloc/Coloring.lean

Colors for classes of variables.  Members of a class share a color, and
classes of which members interfere differ.  Some variables come with a color
already, which they keep.

The classes are colored greedily, each with the least color that no colored
neighbour has, in the order of a maximum cardinality search that starts with
the classes that have a color.  If the graph of classes is chordal and those
classes form a clique, this takes as few colors as can be.
-/
import ChordalAlloc.Digraph.CardinalityOrder
import ChordalAlloc.Event
import ChordalAlloc.Graph

namespace ChordalAlloc

/-- The colors of variables, as far as they are known. -/
abbrev Colors := Array (Option Nat)

/-! ### Classes in place of variables -/

/-- Join the classes of two variables that interfere.  Variables without a class, and classes
from `graph.size` on, are left out. -/
def joinClasses (classes : Array Nat) (graph : Graph) (u v : Var) : Except Error Graph :=
  match classes[u]?, classes[v]? with
  | some a, some b =>
    if a = b then .error (.clashInClass u v) else .ok (graph.addEdge a b)
  | _, _ => .ok graph

/-- The graph of the classes below `count`: two are joined if members of them are. -/
def Graph.quotient (g : Graph) (classes : Array Nat) (count : Nat) : Except Error Graph :=
  g.edges.foldlM (fun h (u, v) => joinClasses classes h u v) (Graph.empty count)

/-- One more than the largest class. -/
def classCount (classes : Array Nat) : Nat := classes.foldl (fun n k => max n (k + 1)) 0

/-! ### Colors known beforehand -/

/-- The classes that have a color beforehand. -/
structure Seeds where
  /-- The color of each class. -/
  colors : Colors
  /-- The classes with a color, latest first. -/
  first : List Nat := []

/-- Note the color of a variable for its class. -/
def Seeds.add (s : Seeds) (k color : Nat) : Except Error Seeds :=
  match (s.colors[k]?).join with
  | some known => if known = color then .ok s else .error (.twoColors k known color)
  | none => .ok ⟨s.colors.setIfInBounds k (some color), k :: s.first⟩

/-- The classes that have a color, from the variables that do. -/
def Seeds.ofColors (classes : Array Nat) (count : Nat) (colors : Colors) : Except Error Seeds :=
  colors.toList.zipIdx.foldlM
    (fun s (c, v) =>
      match c, classes[v]? with
      | some color, some k => s.add k color
      | _, _ => .ok s)
    { colors := Array.replicate count none }

/-! ### Greedy coloring -/

/-- The least number that is not in a list. -/
def leastFree (taken : List Nat) : Nat :=
  ((List.range taken.length).find? fun c => !taken.contains c).getD taken.length

/-- The colors of the neighbours of a class that have one. -/
def Graph.takenColors (g : Graph) (colors : Colors) (k : Nat) : List Nat :=
  (g.neighbors k).filterMap fun j => (colors[j]?).join

/-- Give a class the least color its neighbours leave, unless it has one. -/
def Graph.colorOne (g : Graph) (colors : Colors) (k : Nat) : Colors :=
  if (colors[k]?).join.isSome then colors
  else colors.setIfInBounds k (some (leastFree (g.takenColors colors k)))

/-- Give every class a color. -/
def Graph.colorGreedily (g : Graph) (s : Seeds) : Colors :=
  (g.toDigraph.cardinalityOrder s.first.reverse).foldl g.colorOne s.colors

/-! ### Colors of variables -/

/-- A coloring that was found. -/
structure Coloring where
  /-- The color of each variable. -/
  colors : Colors
  /-- The number of classes. -/
  classes : Nat
  /-- The number of colors the classes have. -/
  used : Nat

/-- The color of each variable from the color of its class. -/
def spread (classes : Array Nat) (classColors colors : Colors) : Colors :=
  colors.mapIdx fun v c =>
    match classes[v]? with
    | some k => (classColors[k]?).join
    | none => c

/-- The ends of an edge do not both have the same color. -/
def checkEdge (colors : Colors) (u v : Var) : Except Error Unit :=
  match (colors[u]?).join, (colors[v]?).join with
  | some a, some b => if a = b then .error (.sharedColor u v a) else .ok ()
  | _, _ => .ok ()

/-- No edge has two ends of one color. -/
def Graph.checkColors (g : Graph) (colors : Colors) : Except Error Unit :=
  g.edges.forM fun (u, v) => checkEdge colors u v

/-- What the coloring starts from. -/
structure ColorPlan where
  /-- The graph of classes. -/
  graph : Graph
  /-- The classes that have a color. -/
  seeds : Seeds

/-- Look at the classes: no class has members that interfere or that come with different
colors. -/
def Graph.plan (g : Graph) (classes : Array Nat) (colors : Colors) : Except Error ColorPlan := do
  let count := classCount classes
  let graph ← g.quotient classes count
  let seeds ← Seeds.ofColors classes count colors
  return ⟨graph, seeds⟩

/-- Color the classes, carry the colors over to the variables and look at all edges.  If two
ends have one color, which two colors known beforehand can bring about, the new colors stay. -/
def Graph.colorPlanned (g : Graph) (classes : Array Nat) (colors : Colors) (plan : ColorPlan) :
    Except (Stopped Colors) Coloring :=
  let classColors := plan.graph.colorGreedily plan.seeds
  let colors := spread classes classColors colors
  match g.checkColors colors with
  | .error e => .error ⟨e, colors⟩
  | .ok () =>
    .ok { colors
          classes := plan.graph.size
          used := (classColors.toList.filterMap id).eraseDups.length }

/-- Color variables by their classes, keeping the colors they come with. -/
def Graph.colorClasses (g : Graph) (classes : Array Nat) (colors : Colors) :
    Except (Stopped Colors) Coloring :=
  match g.plan classes colors with
  | .error e => .error ⟨e, colors⟩
  | .ok plan => g.colorPlanned classes colors plan

/-- What the coloring tells. -/
def Coloring.event (c : Coloring) : Event := .colored c.classes c.used

/-! ### Numbers from outside

The classes of an allocation and its colors are table indices.  A caller who
makes them up may ask for tables that cannot be: a row of neighbours for each
class, and a flag for each color up to the largest one a neighbour has. -/

/-- Whether a class without a color has a neighbour whose color no row of flags reaches. -/
def ColorPlan.overflows (plan : ColorPlan) : Bool :=
  (List.range plan.graph.size).any fun k =>
    (plan.seeds.colors[k]?).join.isNone &&
      (plan.graph.takenColors plan.seeds.colors k).any fun c => !Space.fits (c + 1) Space.flag

/-- As `colorClasses`, for any numbers. -/
def Graph.colorRequest (g : Graph) (classes : Array Nat) (colors : Colors) :
    Except (Stopped Colors) Coloring :=
  -- the table of classes is made before anything is looked at
  if !Space.fits (classCount classes) Space.row then .error ⟨.breach .size, colors⟩
  else
    match g.plan classes colors with
    | .error e => .error ⟨e, colors⟩
    | .ok plan =>
      if plan.overflows then .error ⟨.breach .size, colors⟩
      else g.colorPlanned classes colors plan

/-- As `quotient`, for any number of classes. -/
def Graph.quotientRequest (g : Graph) (classes : Array Nat) (count : Nat) : Except Error Graph :=
  if Space.fits count Space.row then g.quotient classes count else .error (.breach .size)

end ChordalAlloc
