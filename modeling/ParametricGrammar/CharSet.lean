/-!
# Sets of code points

A character set is a list of inclusive code point ranges. Sets built by `ofRanges`, `any`, `empty`,
`union` and `minus` keep their ranges ascending and apart, so two of them with the same members are
equal.
-/

namespace ParametricGrammar

/-- An inclusive range of code points. -/
structure CodeRange where
  first : UInt32
  last : UInt32
deriving DecidableEq

namespace CodeRange

/-- The range of one code point. -/
def point (code : UInt32) : CodeRange := ⟨code, code⟩

/-- The range between two code points given in either order. -/
def spanning (left right : UInt32) : CodeRange :=
  if left ≤ right then ⟨left, right⟩ else ⟨right, left⟩

/-- Whether a code point lies in the range. -/
def has (range : CodeRange) (code : UInt32) : Bool :=
  range.first ≤ code && code ≤ range.last

/-- Whether the range lies behind a code point. -/
def isBehind (range : CodeRange) (code : UInt32) : Bool :=
  code ≤ range.last && code < range.first

/-- Whether a range starts no later than another, and ends no later where both start alike. -/
def precedes (left right : CodeRange) : Bool :=
  left.first < right.first || (left.first = right.first && left.last ≤ right.last)

/-- Inserts a range into an ordered list. -/
def place (range : CodeRange) : List CodeRange → List CodeRange
  | [] => [range]
  | next :: rest =>
      if range.precedes next then range :: next :: rest else next :: range.place rest

end CodeRange

/-- A set of code points as inclusive ranges. -/
structure CharSet where
  ranges : List CodeRange
deriving DecidableEq

namespace CharSet

/-- The highest code point of a character. -/
def maxCodePoint : UInt32 := 0x10FFFF

/-- The set of all characters' code points. -/
def any : CharSet := ⟨[⟨0, maxCodePoint⟩]⟩

/-- The set without members. -/
def empty : CharSet := ⟨[]⟩

/-- Whether the set has no range. -/
def isEmpty (set : CharSet) : Bool := set.ranges.isEmpty

/-- Halves a list of ranges until one is left, keeping the part that would hold a code point if the
list were ascending. Each step makes the list shorter. -/
def bisect (code : UInt32) : Nat → List CodeRange → Option CodeRange
  | 0, _ => none
  | _ + 1, [] => none
  | _ + 1, [range] => some range
  | steps + 1, ranges =>
      match ranges.drop (ranges.length / 2) with
      | [] => none
      | middle :: rest =>
          if middle.isBehind code then
            bisect code steps (ranges.take (ranges.length - ranges.length / 2))
          else bisect code steps (middle :: rest)

/-- Whether a code point is a member, found by bisection of ascending ranges. -/
def has (set : CharSet) (code : UInt32) : Bool :=
  (bisect code set.ranges.length set.ranges).any (·.has code)

/-- Whether a character is a member. -/
def contains (set : CharSet) (char : Char) : Bool :=
  set.has char.val

/-- Joins each range of an ordered list to its predecessor when the two overlap or touch. -/
def coalesce (current : CodeRange) : List CodeRange → List CodeRange
  | [] => [current]
  | next :: rest =>
      if next.first.toNat ≤ current.last.toNat + 1 then
        coalesce ⟨current.first, max current.last next.last⟩ rest
      else
        current :: coalesce next rest

/-- The set covered by ranges in any order, each with its ends in either order. -/
def ofRanges (ranges : List CodeRange) : CharSet :=
  let ranges := ranges.map fun range => CodeRange.spanning range.first range.last
  match ranges.foldr CodeRange.place [] with
  | [] => empty
  | range :: rest => ⟨coalesce range rest⟩

/-- The set of one code point. -/
def single (code : UInt32) : CharSet := ofRanges [.point code]

/-- The members of either set. -/
def union (left right : CharSet) : CharSet :=
  ofRanges (left.ranges ++ right.ranges)

/-- What ascending cuts leave of the range from `first` to `last`. -/
def carve (first last : UInt32) : List CodeRange → List CodeRange
  | [] => if first ≤ last then [⟨first, last⟩] else []
  | cut :: cuts =>
      if last < cut.first then
        if first ≤ last then [⟨first, last⟩] else []
      else
        let kept := if first < cut.first then [⟨first, cut.first - 1⟩] else []
        if cut.last < last then kept ++ carve (max first (cut.last + 1)) last cuts else kept

/-- What ascending cuts leave of ascending ranges. -/
def carveAll : List CodeRange → List CodeRange → List CodeRange
  | [], _ => []
  | range :: rest, cuts =>
      let cuts := cuts.dropWhile fun cut => cut.last < range.first
      carve range.first range.last cuts ++ carveAll rest cuts

/-- The members of the first set that are not in the second. -/
def minus (left right : CharSet) : CharSet :=
  ⟨carveAll left.ranges right.ranges⟩

/-- The only member of a set with exactly one. -/
def single? (set : CharSet) : Option UInt32 :=
  match set.ranges with
  | [range] => if range.first = range.last then some range.first else none
  | _ => none

end CharSet

end ParametricGrammar
