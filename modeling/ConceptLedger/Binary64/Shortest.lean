import ConceptLedger.Binary64.Basic

/-!
The shortest decimal that reads back as a given number: a point of the coarsest decimal grid that
meets the interval of reals rounding to the number, and of two such points the nearer.
-/

namespace ConceptLedger.Binary64

/-- The ends of the interval of reals that round to a positive number, and the number itself
between them, in quarters of its unit. The lower end is closer just above a power of two. -/
def quarters (x : Binary64) : Nat × Nat × Nat :=
  let m := x.significand
  let low := if m = binade ∧ 2 * binade ≤ x.rank then 4 * m - 1 else 4 * m - 2
  (low, 4 * m, 4 * m + 2)

/-- A point `d * 10 ^ k` of the decimal grid `10 ^ k` in the interval of a positive number. -/
def gridPoint? (x : Binary64) (k : Int) : Option Nat :=
  let (low, mid, high) := x.quarters
  let q := x.exponent - 2
  let unit := Nat.pow 2 q.toNat * Nat.pow 10 (-k).toNat
  let grid := Nat.pow 2 (-q).toNat * Nat.pow 10 k.toNat
  let inside (d : Nat) : Bool :=
    if x.significand % 2 = 0 then low * unit ≤ d * grid && d * grid ≤ high * unit
    else low * unit < d * grid && d * grid < high * unit
  let below := mid * unit / grid
  let above := below + 1
  match below != 0 && inside below, inside above with
  | false, false => none
  | true, false => some below
  | false, true => some above
  | true, true =>
    if mid * unit - below * grid ≤ above * grid - mid * unit then some below else some above

/-- The first hit on the grids `10 ^ k`, `10 ^ (k - 1)`, and so on. -/
def searchGrids (x : Binary64) : Nat → Int → Nat × Int
  | 0, k => (0, k)
  | fuel + 1, k =>
    match x.gridPoint? k with
    | some d => (d, k)
    | none => searchGrids x fuel (k - 1)

/-- Digits and decimal exponent of the shortest decimal that reads back as the magnitude of a
number. The search starts above the number and needs at most twenty grids. -/
def shortest (x : Binary64) : Nat × Int :=
  if x.rank = 0 then (0, 0)
  else
    let top := ((x.significand.log2 : Int) + x.exponent + 1) * 30103 / 100000 + 2
    searchGrids x 24 top

end ConceptLedger.Binary64
