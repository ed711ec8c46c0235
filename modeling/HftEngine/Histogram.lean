import Mathlib.Algebra.Ring.Int.Defs
import Mathlib.Data.Vector.Defs
import Mathlib.Order.Lattice

/-! The latency histogram (`histogram.hpp`). An index outside the counts array, undefined in the source, makes a call
    `none`; the floating-point rank of a percentile is a parameter. -/

namespace Hft

/-- The template arguments. -/
structure HistogramParams where
  highestTrackableNs : UInt64
  precisionBits : Nat
  one_le : 1 ≤ precisionBits
  le_sixteen : precisionBits ≤ 16

namespace HistogramParams

variable (p : HistogramParams)

def kSubBucketCount : Nat := 1 <<< (p.precisionBits + 1)

def kSubBucketHalfCount : Nat := p.kSubBucketCount >>> 1

def kSubBucketMask : UInt64 := UInt64.ofNat (p.kSubBucketCount - 1)

def kLeadingZeroCountBase : Int := 64 - p.precisionBits - 1

/-- The loop of `buckets_needed`, with a bound on its rounds. -/
def bucketsLoop (value : UInt64) : (rounds : Nat) → (smallestUntrackable : UInt64) → (needed : Nat) → Option Nat
  | 0, _, _ => none
  | rounds + 1, smallestUntrackable, needed =>
    if smallestUntrackable ≤ value then
      if smallestUntrackable > (0xFFFFFFFFFFFFFFFF : UInt64) >>> 1 then some (needed + 1)
      else bucketsLoop value rounds (smallestUntrackable <<< 1) (needed + 1)
    else some needed

def bucketsNeeded (value : UInt64) : Option Nat := bucketsLoop value 64 (UInt64.ofNat p.kSubBucketCount) 1

def kBucketCount : Nat := (p.bucketsNeeded p.highestTrackableNs).getD 0

def kCountsLen : Nat := (p.kBucketCount + 1) * p.kSubBucketHalfCount

/-! ### Index arithmetic -/

/-- `__builtin_clzll`, for a value that is not 0. -/
def clzll (x : UInt64) : Int := 63 - x.toNat.log2

def bucketIndex (value : UInt64) : Int := p.kLeadingZeroCountBase - clzll (value ||| p.kSubBucketMask)

def subBucketIndex (value : UInt64) (bidx : Int) : UInt32 := (value >>> UInt64.ofNat bidx.toNat).toUInt32

def countsIndex (value : UInt64) : Nat :=
  let bidx := p.bucketIndex value
  let sidx := subBucketIndex value bidx
  -- Signed: in the first octave the offset is negative.
  let bucketBase := (bidx + 1) * 2 ^ p.precisionBits
  let offset := (sidx.toNat : Int) - p.kSubBucketHalfCount
  (bucketBase + offset).toNat

def highestEquivalentValue (index : Nat) : UInt64 :=
  let bidx : Int := ((index >>> p.precisionBits : Nat) : Int) - 1
  let sidx := UInt32.ofNat (index &&& (p.kSubBucketHalfCount - 1)) + UInt32.ofNat p.kSubBucketHalfCount
  let (bidx, sidx) := if bidx < 0 then (0, UInt32.ofNat index) else (bidx, sidx)
  let lower := sidx.toUInt64 <<< UInt64.ofNat bidx.toNat
  let bucketUnit := 1 <<< UInt64.ofNat bidx.toNat
  lower + bucketUnit - 1

end HistogramParams

/-- What `percentile` computes in floating point: `rank p n` is the rounded `(p / 100) * n`. -/
structure PercentRanks (π : Type) where
  zero : π
  hundred : π
  rank : π → UInt64 → UInt64

structure Histogram (p : HistogramParams) where
  counts : Vector UInt64 p.kCountsLen := Vector.replicate _ 0
  totalCount : UInt64 := 0
  sumNs : UInt64 := 0
  max : UInt64 := 0
  min : UInt64 := 0xFFFFFFFFFFFFFFFF

namespace Histogram

variable {p : HistogramParams}

def clamp (p : HistogramParams) (value : UInt64) : UInt64 :=
  if value > p.highestTrackableNs then p.highestTrackableNs else value

def record (h : Histogram p) (value : UInt64) : Option (Histogram p) :=
  let value := clamp p value
  let idx := p.countsIndex value
  if hidx : idx < p.kCountsLen then
    some {
      counts := h.counts.set idx (h.counts[idx] + 1)
      totalCount := h.totalCount + 1
      sumNs := h.sumNs + value
      max := if value > h.max then value else h.max
      min := if value < h.min then value else h.min }
  else none

def recordN (h : Histogram p) (value n : UInt64) : Option (Histogram p) :=
  let value := clamp p value
  let idx := p.countsIndex value
  if hidx : idx < p.kCountsLen then
    some {
      counts := h.counts.set idx (h.counts[idx] + n)
      totalCount := h.totalCount + n
      sumNs := h.sumNs + value * n
      max := if value > h.max then value else h.max
      min := if value < h.min then value else h.min }
  else none

def count (h : Histogram p) : UInt64 := h.totalCount

/-- The accessor `min()`, which hides the sentinel of an empty histogram. -/
def getMin (h : Histogram p) : UInt64 := if h.totalCount ≠ 0 then h.min else 0

/-- Merge another histogram. -/
def add (h other : Histogram p) : Histogram p where
  counts := Vector.zipWith (· + ·) h.counts other.counts
  totalCount := h.totalCount + other.count
  sumNs := h.sumNs + other.sumNs
  max := if other.max > h.max then other.max else h.max
  min := if other.count ≠ 0 ∧ other.getMin < h.min then other.getMin else h.min

/-- The loop of `percentile` over the counts from index `i` on: the index at which the sum reaches `want`. -/
def scan (want : UInt64) : List UInt64 → (i : Nat) → (cumulative : UInt64) → Option Nat
  | [], _, _ => none
  | c :: counts, i, cumulative => if cumulative + c ≥ want then some i else scan want counts (i + 1) (cumulative + c)

section Percentile
variable {π : Type} [LinearOrder π] (r : PercentRanks π)

def want (h : Histogram p) (pct : π) : UInt64 :=
  let pct := if pct < r.zero then r.zero else pct
  let pct := if pct > r.hundred then r.hundred else pct
  let target := r.rank pct h.totalCount
  if target = 0 then 1 else target

def percentile (h : Histogram p) (pct : π) : UInt64 :=
  if h.totalCount = 0 then 0
  else
    match scan (h.want r pct) h.counts.toList 0 0 with
    | some i => p.highestEquivalentValue i
    | none => h.max

end Percentile

end Histogram

end Hft
