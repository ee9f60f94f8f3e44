/-!
# Repeats

Data is packed by writing a copy in the place of bytes that stand earlier in it. At each position the
longest copy is looked for among the positions before that start alike, the newest first. A copy is
put off by one byte for the sake of a longer one at the next position.
-/

namespace BrainPiet.Png

/-- A piece of data: a byte as it is, or a copy of as many bytes from some distance back. -/
inductive Token
  | literal (byte : UInt8)
  | copy (length distance : Nat)
  deriving DecidableEq, Repr, Inhabited

/-- The number of bytes that a piece stands for. -/
def Token.size : Token → Nat
  | literal _ => 1
  | copy length _ => length

namespace Repeat

/-- The number of bytes by which positions are told apart. -/
def leastLength : Nat := 3

/-- The most bytes of a copy. -/
def mostLength : Nat := 258

/-- Copies of at most this length are not used. -/
def tooShort : Nat := 5

/-- The greatest distance of a copy. -/
def mostDistance : Nat := 32768 - 262

/-- A copy of this length is not put off. -/
def longEnough : Nat := 16

/-- After a copy of this length, fewer positions are tried for a longer one. -/
def goodLength : Nat := 8

/-- A copy of this length is taken without a further look. -/
def niceLength : Nat := 128

/-- The number of positions that are tried. -/
def mostTries : Nat := 128

/-- The bytes of the window in which positions are kept. It moves on by half its size. -/
def windowSize : Nat := 65536

/-- The start of the window when data is packed up to a position. The byte at the very start of a
window is no source of copies. -/
def windowStart (here : Nat) : Nat :=
  let half := windowSize / 2
  (here - (half + mostDistance) + (half - 1)) / half * half

/-- The byte at a position; zero behind the end. -/
def byteAt (data : ByteArray) (i : Nat) : UInt8 := if h : i < data.size then data[i] else 0

/-- The key by which positions that may start alike are found. -/
def key (data : ByteArray) (i : Nat) : Nat :=
  let byte (k : Nat) : UInt32 := (byteAt data (i + k)).toUInt32
  (((byte 0 <<< 12) ^^^ (byte 1 <<< 6) ^^^ byte 2) &&& 0xFFFF).toNat

/-- The positions so far: the newest one of each key, and for each position the one before it with
the same key. Positions are counted from one; zero is none. -/
structure History where
  newest : Array Nat
  older : Array Nat
  deriving Inhabited

namespace History

/-- No positions, for data of some size. -/
def empty (size : Nat) : History := ⟨Array.replicate 65536 0, Array.replicate size 0⟩

/-- The newest position that has the key of a position, counted from one. Too close to the end there
is none. -/
def find (h : History) (data : ByteArray) (i : Nat) : Nat :=
  if data.size < i + leastLength then 0 else h.newest[key data i]?.getD 0

/-- Adds a position, unless it is too close to the end. -/
def add (h : History) (data : ByteArray) (i : Nat) : History :=
  if data.size < i + leastLength then h
  else
    let k := key data i
    let before := h.newest[k]?.getD 0
    ⟨h.newest.setIfInBounds k (i + 1), h.older.setIfInBounds i before⟩

/-- Adds as many positions from one on. -/
def addAll (data : ByteArray) : (count : Nat) → History → (i : Nat) → History
  | 0, h, _ => h
  | count + 1, h, i => addAll data count (h.add data i) (i + 1)

end History

/-- The number of bytes, up to a limit, that are alike from two positions on. -/
def alike (data : ByteArray) : (limit : Nat) → (i j : Nat) → Nat
  | 0, _, _ => 0
  | limit + 1, i, j => if byteAt data i = byteAt data j then alike data limit (i + 1) (j + 1) + 1 else 0

/-- A copy: its length and where its source starts. -/
structure Match where
  length : Nat
  start : Nat
  deriving DecidableEq, Repr, Inhabited

/-- No copy; shorter than any. -/
def noMatch : Match := ⟨leastLength - 1, 0⟩

/-- Tries positions, counted from one, down to `least` for a copy that is longer than `best`. -/
def search (data : ByteArray) (older : Array Nat) (here limit least : Nat) :
    (tries : Nat) → (candidate : Nat) → (best : Match) → Match
  | 0, _, best => best
  | tries + 1, candidate, best =>
    let start := candidate - 1
    let length := alike data limit start here
    let longer := best.length < length
    let best := if longer then ⟨length, start⟩ else best
    if longer ∧ min niceLength limit ≤ length then best
    else
      let next := older[start]?.getD 0
      if next ≤ least then best else search data older here limit least tries next best

/-- The longest copy at a position that is longer than the one before it. -/
def longest (data : ByteArray) (h : History) (here candidate : Nat) (before : Match) : Match :=
  let tries := if goodLength ≤ before.length then mostTries / 4 else mostTries
  let least := max (windowStart here) (here - mostDistance) + 1
  let found := search data h.older here (min mostLength (data.size - here)) least tries candidate before
  if found.length ≤ tooShort then noMatch else found

/-- The state of packing: the position, the positions before it, the copy at the position before,
whether the byte before is still to be written, and what is written, in order. -/
structure State where
  here : Nat
  history : History
  before : Match
  pending : Bool
  tokens : Array Token

/-- The copy at the position of a state. The one before it may be long enough already. -/
def State.look (s : State) (data : ByteArray) : Match :=
  let candidate := s.history.find data s.here
  if windowStart s.here + 1 < candidate ∧ s.here ≤ candidate - 1 + mostDistance ∧
      s.before.length < longEnough then
    longest data s.history s.here candidate s.before
  else noMatch

/-- Packs the rest of the data. Each round goes at least one byte on. -/
def pack (data : ByteArray) : (fuel : Nat) → State → Array Token
  | 0, s => s.tokens
  | fuel + 1, s =>
    if data.size ≤ s.here then
      if s.pending then s.tokens.push (.literal (byteAt data (s.here - 1))) else s.tokens
    else
      let found := s.look data
      let ⟨here, history, before, pending, tokens⟩ := s
      let history := history.add data here
      if leastLength ≤ before.length ∧ found.length ≤ before.length then
        pack data fuel {
          here := here + before.length - 1
          history := History.addAll data (before.length - 2) history (here + 1)
          before := noMatch
          pending := false
          tokens := tokens.push (.copy before.length (here - 1 - before.start)) }
      else
        let tokens := if pending then tokens.push (.literal (byteAt data (here - 1))) else tokens
        pack data fuel { here := here + 1, history, before := found, pending := true, tokens }

end Repeat

/-- Data as bytes and copies. -/
def tokens (data : ByteArray) : Array Token :=
  Repeat.pack data (data.size + 1)
    { here := 0, history := .empty data.size, before := Repeat.noMatch, pending := false, tokens := #[] }

end BrainPiet.Png
