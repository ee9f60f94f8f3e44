/-!
# Code lengths

Symbols that are used often get short codes. The two lightest trees are joined until one is left, and
the depth of a symbol in it is the length of its code. Codes that would be too long are shortened at
the cost of others.
-/

namespace BrainPiet.Png

/-- A tree of symbols. A tree knows how much its symbols weigh and how deep it is. -/
inductive CodeTree
  | leaf (symbol weight : Nat)
  | fork (weight depth : Nat) (first second : CodeTree)
  deriving Inhabited

namespace CodeTree

/-- The weight of all symbols. -/
def weight : CodeTree → Nat
  | leaf _ weight => weight
  | fork weight _ _ _ => weight

/-- The length of the longest way down. -/
def depth : CodeTree → Nat
  | leaf _ _ => 0
  | fork _ depth _ _ => depth

/-- The tree of two trees. -/
def join (s t : CodeTree) : CodeTree := .fork (s.weight + t.weight) (max s.depth t.depth + 1) s t

/-- A tree is joined before another if it is lighter, or as heavy and not deeper. -/
def goesFirst (s t : CodeTree) : Bool :=
  s.weight < t.weight || (s.weight == t.weight && s.depth ≤ t.depth)

/-- The symbols with their depths, and the depths of all trees below this one. -/
def depths (level : Nat) : CodeTree → List (Nat × Nat) × List Nat
  | leaf symbol _ => ([(symbol, level)], [])
  | fork _ _ s t =>
    let (first, below) := s.depths (level + 1)
    let (second, further) := t.depths (level + 1)
    (first ++ second, (level + 1) :: (level + 1) :: (below ++ further))

end CodeTree

/-- Trees in an array in which no tree goes after the two at twice its place, counted from one. -/
abbrev Heap := Array CodeTree

namespace Heap

/-- Puts a tree at a place, or below it while one of the trees there goes first. -/
def sift (tree : CodeTree) : (fuel : Nat) → Heap → (place : Nat) → Heap
  | 0, heap, place => heap.setIfInBounds place tree
  | fuel + 1, heap, place =>
    let left := 2 * place + 1
    match heap[left]? with
    | none => heap.setIfInBounds place tree
    | some first =>
      let (child, least) := match heap[left + 1]? with
        | some second => if second.goesFirst first then (left + 1, second) else (left, first)
        | none => (left, first)
      if tree.goesFirst least then heap.setIfInBounds place tree
      else sift tree fuel (heap.setIfInBounds place least) child

/-- Trees in the order of a heap. -/
def ofList (trees : List CodeTree) : Heap :=
  let heap := trees.toArray
  (List.range (heap.size / 2)).reverse.foldl (fun heap place ↦
    match heap[place]? with
    | some tree => sift tree heap.size heap place
    | none => heap) heap

/-- Joins the first two trees until one is left. The symbols are collected as they are joined. -/
def joinAll : (fuel : Nat) → Heap → (joined : List Nat) → Heap × List Nat
  | 0, heap, joined => (heap, joined)
  | fuel + 1, heap, joined =>
    if heap.size < 2 then (heap, joined)
    else
      let first := heap[0]?.getD default
      let last := heap.back?.getD default
      let heap := sift last heap.size heap.pop 0
      let second := heap[0]?.getD default
      let symbols (tree : CodeTree) : List Nat := match tree with
        | .leaf symbol _ => [symbol]
        | .fork _ _ _ _ => []
      joinAll fuel (sift (first.join second) heap.size heap 0)
        (joined ++ symbols first ++ symbols second)

end Heap

namespace CodeLength

/-- Symbols with their weights; there are two at least. -/
def atLeastTwo : List (Nat × Nat) → List (Nat × Nat)
  | [] => [(0, 1), (1, 1)]
  | [(symbol, weight)] => [(symbol, weight), (if symbol < 2 then symbol + 1 else 0, 1)]
  | several => several

/-- Makes room for codes that are too long: a shorter code is replaced by two that are one bit longer,
in the place of one of the longest. `counts` holds the number of codes of each length. -/
def makeRoom (longest : Nat) : (excess : Nat) → Array Nat → Array Nat
  | 0, counts => counts
  | 1, counts => makeRoom longest 0 (lengthen counts)
  | excess + 2, counts => makeRoom longest excess (lengthen counts)
where
  /-- The longest length below the greatest that a code has. -/
  shorter (counts : Array Nat) : Nat → Nat
    | 0 => 0
    | n + 1 => if counts[n + 1]?.getD 0 = 0 then shorter counts n else n + 1
  /-- Replaces a code of that length. -/
  lengthen (counts : Array Nat) : Array Nat :=
    let n := shorter counts (longest - 1)
    ((counts.modify n (· - 1)).modify (n + 1) (· + 2)).modify longest (· - 1)

/-- The lengths of the codes of symbols, none longer than `longest`, by symbol. -/
def ofWeights (longest : Nat) (weights : List (Nat × Nat)) : List (Nat × Nat) :=
  let leaves := (atLeastTwo weights).map fun (symbol, weight) ↦ CodeTree.leaf symbol weight
  let (heap, joined) := Heap.joinAll leaves.length (.ofList leaves) []
  let (lengths, all) := (heap[0]?.getD default).depths 0
  let excess := (all.filter (longest < ·)).length
  if excess = 0 then lengths
  else
    let counts := lengths.foldl (fun (counts : Array Nat) (_, length) ↦
      counts.modify (min length longest) (· + 1)) (Array.replicate (longest + 1) 0)
    let counts := makeRoom longest excess counts
    let inOrder := (List.range longest).reverse.flatMap fun n ↦
      List.replicate (counts[n + 1]?.getD 0) (n + 1)
    joined.zip inOrder

end CodeLength

/-- A number with its bits in the other order. -/
def reverseBits : (width : Nat) → (n : Nat) → Nat
  | 0, _ => 0
  | width + 1, n => n % 2 * Nat.pow 2 width + reverseBits width (n / 2)

/-- The code of each symbol, as it is written from the low bit on, with its length. Codes of one
length are in the order of the symbols, and shorter codes come first. -/
def codes (longest : Nat) (lengths : List Nat) : Array (Nat × Nat) :=
  let counts := lengths.foldl (fun (counts : Array Nat) length ↦
    if length = 0 then counts else counts.modify length (· + 1)) (Array.replicate (longest + 1) 0)
  let (first, _) := (List.range longest).foldl (fun (first, code) n ↦
    let code := 2 * (code + counts[n]?.getD 0)
    (first.push code, code)) ((#[0] : Array Nat), 0)
  (lengths.foldl (fun ((done, next) : Array (Nat × Nat) × Array Nat) length ↦
    if length = 0 then (done.push (0, 0), next)
    else (done.push (reverseBits length (next[length]?.getD 0), length),
      next.modify length (· + 1))) (#[], first)).1

end BrainPiet.Png
