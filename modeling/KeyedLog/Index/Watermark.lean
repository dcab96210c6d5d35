/-! Watermarks: how far a log has been indexed without a gap. -/
namespace KeyedLog

/-- Everything below the offset is done, and so are some ranges above it, kept by their start. -/
structure Watermark where
  offset : Nat
  completed : List (Nat × Nat)
  closed : Bool
deriving DecidableEq, Repr

namespace Watermark

def initial : Watermark := ⟨0, [], false⟩

def absorb (offset : Nat) : List (Nat × Nat) → Nat × List (Nat × Nat)
  | [] => (offset, [])
  | (start, stop) :: ranges =>
    if start ≤ offset then absorb (max offset stop) ranges else (offset, (start, stop) :: ranges)

/-- Of two ranges with one start the longer is kept. -/
def insertRange (start stop : Nat) : List (Nat × Nat) → List (Nat × Nat)
  | [] => [(start, stop)]
  | (s, e) :: ranges =>
    if start < s then (start, stop) :: (s, e) :: ranges
    else if start = s then (s, max e stop) :: ranges
    else (s, e) :: insertRange start stop ranges

def settle (w : Watermark) : Watermark :=
  let (offset, completed) := absorb w.offset w.completed
  { w with offset, completed }

/-- The watermark never falls. The answer says whether it rose. -/
def raise (w : Watermark) (offset : Nat) : Watermark × Bool :=
  if offset ≤ w.offset then (w, false) else ({ w with offset }.settle, true)

/-- A range is done. The answer is the new watermark, if it rose. -/
def complete (w : Watermark) (start stop : Nat) : Watermark × Option Nat :=
  if stop ≤ w.offset then (w, none)
  else
    let w' := { w with completed := insertRange start stop w.completed }.settle
    (w', if w.offset < w'.offset then some w'.offset else none)

/-- Whoever waits for a closed watermark is let go. -/
def close (w : Watermark) : Watermark := { w with closed := true }

def settled (w : Watermark) (target : Nat) : Bool := w.closed || target ≤ w.offset

end Watermark
end KeyedLog
