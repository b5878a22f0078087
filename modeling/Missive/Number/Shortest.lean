/-!
# The shortest decimal of a float

Among the decimals `c · 10^k` that round to a given float, the *shortest* has the fewest digits,
that is the greatest `k`, and of those it is the one nearest to the float. All arithmetic is on
natural numbers: a positive float is `m · 2^q`, and the reals that round to it are an interval
around it whose ends belong to it iff `m` is even.

* `Binade.ofFloat`: the magnitude of a finite float as `m · 2^q`.
* `Binade.shortest`: its shortest decimal.
-/

namespace Missive

/-- The magnitude `m · 2^q` of a float. -/
structure Binade where
  m : Nat
  q : Int
deriving DecidableEq

/-- The decimal `digits · 10^exponent`. -/
structure ShortDecimal where
  digits : Nat
  exponent : Int
deriving DecidableEq

namespace Binade

/-- The least significand of a float that is not subnormal, `2^52`. -/
def leading : Nat := 0x10000000000000

/-- The magnitude of a finite float, its significand below `2^53`. -/
def ofFloat (x : Float) : Binade :=
  let bits := x.toBits.toNat
  let fraction := bits % leading
  let exponent := bits / leading % 2048
  if exponent = 0 then ⟨fraction, -1074⟩ else ⟨leading + fraction, (exponent : Int) - 1075⟩

/-- Whether the float below is at half the distance of the one above. -/
def isBoundary (b : Binade) : Bool :=
  b.m = leading && b.q > -1074

/-- The value and its rounding interval in units of `10^k`, over the common denominator
    `scale`: a decimal `c · 10^k` rounds to the float iff `c · scale` lies from `low` to
    `high`, the ends included iff `closed`. -/
structure Grid where
  low : Nat
  value : Nat
  high : Nat
  scale : Nat
  closed : Bool

/-- The interval of the float on the grid of the multiples of `10^k`. The unit of the
    significand is quartered, since the interval reaches half a unit up, and half or a quarter
    of a unit down. -/
def grid (b : Binade) (k : Int) : Grid :=
  let up := Nat.pow 2 (b.q - 2).toNat * Nat.pow 10 (-k).toNat
  { low := (if b.isBoundary then 4 * b.m - 1 else 4 * b.m - 2) * up
    value := 4 * b.m * up
    high := (4 * b.m + 2) * up
    scale := Nat.pow 2 (2 - b.q).toNat * Nat.pow 10 k.toNat
    closed := b.m % 2 = 0 }

namespace Grid

/-- Whether the multiple `c` of the grid's unit rounds to the float. -/
def reads (g : Grid) (c : Nat) : Bool :=
  if g.closed then g.low ≤ c * g.scale && c * g.scale ≤ g.high
  else g.low < c * g.scale && c * g.scale < g.high

/-- The multiple nearest to the float of those that round to it, if there is one: it is next to
    the float below or above. At the same distance the even one is taken. -/
def nearest? (g : Grid) : Option Nat :=
  let below := g.value / g.scale
  let down := g.value - below * g.scale
  let up := (below + 1) * g.scale - g.value
  match g.reads below, g.reads (below + 1) with
  | false, false => none
  | true, false => some below
  | false, true => some (below + 1)
  | true, true =>
    some (if down < up || (down = up && below % 2 = 0) then below else below + 1)

end Grid

/-- The first hit on the grids of `10^k`, `10^(k-1)`, … -/
def search (b : Binade) : Nat → Int → ShortDecimal
  | 0, k => ⟨(b.grid k).value / (b.grid k).scale, k⟩
  | n + 1, k =>
    match (b.grid k).nearest? with
    | some c => ⟨c, k⟩
    | none => b.search n (k - 1)

/-- A decimal exponent above that of the float: `log10 2` is a little less than `30103 / 100000`. -/
def ceiling (b : Binade) : Int :=
  (((b.m.log2 : Int) + b.q + 1) * 30103).fdiv 100000 + 2

/-- The shortest decimal of a positive float. Seventeen digits always suffice, so that the
    search ends well before its bound. -/
def shortest (b : Binade) : ShortDecimal :=
  b.search 24 b.ceiling

end Binade

end Missive
