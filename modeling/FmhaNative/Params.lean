import FmhaNative.Arith

/-!
The kernel argument block and the tile geometry.

A tensor pointer is the memory reached through it, as a function of the element index;
pointer arithmetic shifts that function. All integers are unbounded here.
-/

namespace FmhaNative

/-- The element of a tensor at a (signed) element offset from a pointer. -/
abbrev Mem (β : Type*) := ℤ → β

structure FmhaFwdParams (α β : Type*) where
  (q k v : Mem β)
  /-- whether `lse` is a non-null pointer -/
  lse : Bool
  (seqlenQ seqlenK : ℤ)
  (nheadQ nheadK : ℤ)
  scale : α
  (strideQ nheadStrideQ batchStrideQ : ℤ)
  (strideK nheadStrideK batchStrideK : ℤ)
  (strideV nheadStrideV batchStrideV : ℤ)
  (strideO nheadStrideO batchStrideO : ℤ)
  (seqstartQ seqstartK : ℤ → ℤ)

def kM0 : ℤ := 128
def kN0 : ℤ := 64
def kK0 : ℤ := 32

def kSingleSmemElements : ℤ := 2304
def kNumLdsBuffers : ℤ := 3
/-- Two bytes an element. -/
def kLdsBytes : ℤ := kNumLdsBuffers * kSingleSmemElements * 2

@[simp] lemma kM0_eq : kM0 = 128 := rfl
@[simp] lemma kN0_eq : kN0 = 64 := rfl
@[simp] lemma kK0_eq : kK0 = 32 := rfl

end FmhaNative
