/-!
# Spans: half-open ranges of byte positions
-/

namespace MiniLisp

/-- The bytes from `start` up to, but not including, `stop`. -/
structure Span where
  start : Nat := 0
  stop : Nat := 0
  deriving DecidableEq, Repr, Inhabited

namespace Span

/-- The number of bytes in the span; a span that ends before it starts holds none. -/
def length (s : Span) : Nat := s.stop - s.start

def isEmpty (s : Span) : Bool := s.length == 0

/-- The same range, counted from a point `offset` bytes earlier. -/
def shift (s : Span) (offset : Nat) : Span := ⟨s.start + offset, s.stop + offset⟩

@[simp]
theorem length_shift (s : Span) (offset : Nat) : (s.shift offset).length = s.length := by
  simp only [shift, length]
  omega

@[simp]
theorem shift_zero (s : Span) : s.shift 0 = s := rfl

end Span

end MiniLisp
