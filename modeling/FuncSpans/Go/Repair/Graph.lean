import FuncSpans.Go.Repair.Tree

/-!
# The graph of readings

All readings of a text share one `Graph`. A node is where some of them stand, or once stood;
its links lead to the nodes below, each over the tree in between. Readings that have come to
the same node go on as one.
-/

namespace FuncSpans.Go.Repair

/-- How a reading stands to the grammar. -/
inductive Stance where
  /-- It is in a state, given by its number. -/
  | inState (n : Nat)
  /-- It has read a whole file. -/
  | whole
  /-- It is setting trees aside. -/
  | lost
  deriving DecidableEq

/-- A way down from a node. -/
structure Link where
  /-- The tree between the nodes; none where the reading lost its way. -/
  tree : Option Tree
  below : Nat

structure Node where
  stance : Stance
  place : Cursor
  links : List Link
  /-- What the repairs below cost. -/
  cost : Nat
  weight : Int
  /-- How many trees below count. -/
  size : Nat

/-- The nodes by number. -/
structure Graph where
  nodes : Array Node

namespace Graph

/-- The node of a number. -/
def node (g : Graph) (n : Nat) : Node :=
  g.nodes.getD n ⟨.lost, .start [], [], 0, 0, 0⟩

/-- Adds a node above another one and returns its number. -/
def push (g : Graph) (below : Nat) (tree : Option Tree) (stance : Stance) : Nat × Graph :=
  let b := g.node below
  let top : Node := match tree with
    | none => ⟨stance, b.place, [⟨none, below⟩], b.cost, b.weight, b.size⟩
    | some t =>
      ⟨stance, (t.span.map (·.stop)).getD b.place, [⟨some t, below⟩], b.cost + t.cost,
        b.weight + t.weight, b.size + t.count⟩
  (g.nodes.size, ⟨g.nodes.push top⟩)

def update (g : Graph) (n : Nat) (f : Node → Node) : Graph := ⟨g.nodes.modify n f⟩

/-- The most links that a node has. -/
def maxLinks : Nat := 8

/-- Whether two links bear trees that are as good as the same. -/
def alike (a b : Link) : Bool :=
  match a.tree, b.tree with
  | none, none => true
  | some s, some t => s.alike t
  | _, _ => false

/-- Whether two nodes stand for the same. -/
def same (a b : Node) : Bool :=
  a.stance == b.stance && a.place.offset == b.place.offset && a.cost == b.cost

def weightOf (l : Link) : Int := (l.tree.map (·.weight)).getD 0

/-- Adds a link to a node. Where a link like it is there already, the nodes below are joined
instead. -/
def addLink : Nat → Link → Nat → Graph → Graph
  | 0, _, _, g => g
  | fuel + 1, l, n, g =>
    if l.below = n then g
    else
      let top := g.node n
      let b := g.node l.below
      let weight := b.weight + weightOf l
      match top.links.zipIdx.find? fun (k, _) =>
          alike k l && (k.below == l.below || same (g.node k.below) b) with
      | some (k, i) =>
        if k.below = l.below then
          if l.tree.isSome && weightOf k < weightOf l then
            g.update n fun top => { top with links := top.links.set i l, weight }
          else g
        else
          let g := b.links.foldl (fun g m => addLink fuel m k.below g) g
          g.update n fun top => { top with weight := max top.weight weight }
      | none =>
        if maxLinks ≤ top.links.length then g
        else
          let size := b.size + (l.tree.map (·.count)).getD 0
          g.update n fun top =>
            { top with
              links := top.links ++ [l]
              size := max top.size size
              weight := max top.weight weight }

/-- Adds the links of one node to another. -/
def join (g : Graph) (n m : Nat) : Graph :=
  (g.node m).links.foldl (fun g l => addLink g.nodes.size l n g) g

/-! ## Ways down -/

/-- A way down from a node. -/
structure Way where
  node : Nat
  /-- The trees passed, the lowest first. -/
  trees : List Tree
  /-- How many links have been followed, those over loose trees not counted. -/
  depth : Nat

/-- What to do with a way. -/
structure Verdict where
  keep : Bool
  stop : Bool

/-- The most ways that are followed at a time. -/
def maxWays : Nat := 64

/-- A way that goes on over a link. -/
def Way.over (w : Way) (l : Link) : Way :=
  match l.tree with
  | none => ⟨l.below, w.trees, w.depth + 1⟩
  | some t => ⟨l.below, t :: w.trees, if t.loose then w.depth else w.depth + 1⟩

/-- One link further down on all ways at once: what has been learnt, the ways kept, and those
that go on. -/
def stepDown {σ : Type} (g : Graph) (visit : σ → Way → σ × Verdict) (s : σ) (ways : List Way) :
    σ × List Way × List Way := Id.run do
  let mut s := s
  let mut kept := #[]
  let mut on := #[]
  let mut branches := #[]
  let mut count := ways.length
  for w in ways do
    let (s', v) := visit s w
    s := s'
    if v.keep then kept := kept.push w
    match (g.node w.node).links with
    | l :: ls =>
      if v.stop then count := count - 1
      else
        for l in ls do
          if count < maxWays then
            branches := branches.push (w.over l)
            count := count + 1
        on := on.push (w.over l)
    | [] => count := count - 1
  return (s, kept.toList, (on ++ branches).toList)

/-- Follows all ways down. -/
def goDown {σ : Type} (g : Graph) (visit : σ → Way → σ × Verdict) :
    Nat → σ → List Way → List Way → σ × List Way
  | 0, s, _, kept => (s, kept)
  | _, s, [], kept => (s, kept)
  | fuel + 1, s, ways, kept =>
    let (s, more, ways) := stepDown g visit s ways
    goDown g visit fuel s ways (kept ++ more)

def explore {σ : Type} (g : Graph) (visit : σ → Way → σ × Verdict) (s : σ) (top : Nat) :
    σ × List Way :=
  goDown g visit (g.nodes.size + 1) s [⟨top, [], 0⟩] []

/-- The ways over a number of links. -/
def waysOver (g : Graph) (count top : Nat) : List Way :=
  (g.explore (fun _ w => ((), ⟨w.depth == count, w.depth == count⟩)) () top).2

/-- The ways to the bottom. -/
def waysToBottom (g : Graph) (top : Nat) : List Way :=
  (g.explore (fun _ w => ((), ⟨(g.node w.node).links.isEmpty, false⟩)) () top).2

/-- A stance that a reading once had. -/
structure Landmark where
  place : Cursor
  depth : Nat
  stance : Stance

/-- How far down landmarks are kept. -/
def maxDepth : Nat := 16

/-- Adds a landmark, unless one of its stance and depth is there. The latest comes first. -/
def addLandmark (m : Landmark) (ms : List Landmark) : List Landmark :=
  if (ms.takeWhile (m.depth ≤ ·.depth)).any fun l => l.depth == m.depth && l.stance == m.stance
  then ms
  else m :: ms

/-- The landmarks below a node, the nearest first. -/
def landmarks (g : Graph) (top : Nat) : List Landmark :=
  (g.explore (fun ms w =>
    if maxDepth < w.depth then (ms, ⟨false, true⟩)
    else
      let n := g.node w.node
      (addLandmark ⟨n.place, w.depth, n.stance⟩ ms, ⟨false, false⟩)) [] top).1.reverse

end Graph

end FuncSpans.Go.Repair
