import FmhaNative.CpuRef
import FmhaNative.Ieee

/-!
The CPU verifier: what a thread accumulates over the rows that it is given, how the critical
section merges the threads, and the verdict.

Which thread gets which row, and when a thread enters the critical section, is up to OpenMP: a
run is a list of threads in the order of their merges, each with its rows in the order it visits
them. The reference values of a row are given; the kernel's are read from `h_O`.
-/

namespace FmhaNative.CpuVerify

open Host

/-! ### Arithmetic -/

/-- The `float` and `double` operations of the verifier; a `float` is a `double` as well. -/
class HostFp (α : Type*) where
  /-- a decimal literal, of type `float` or `double` -/
  (litF litD : ℚ → α)
  /-- `INFINITY` -/
  infinity : α
  (subF divF : α → α → α)
  fabsF : α → α
  isfinite : α → Bool
  (addD mulD divD : α → α → α)
  sqrtD : α → α
  (lt le : α → α → Bool)

open HostFp

section Verify

variable {α : Type*} [HostFp α]

def tolAbs : α := litF (1 / 1000)
def tolRel : α := litF (5 / 100)
def tolCos : α := litD (99995 / 100000)

/-- The least `|o_ref|` that counts for the relative error. -/
def relFloor : α := litF (1 / 100)

/-! ### One element -/

/-- A row of O: batch, query head and query. -/
structure Row where
  (b hq i : ℤ)

/-- Where an absolute error was found, and between which values. -/
structure Place (α : Type*) where
  (b h i d : ℤ)
  (ref kern : α)

/-- What a thread carries of the elements, `t_max_abs` and on; the counters are of places of `h_O`. -/
structure ElemAcc (α : Type*) where
  (maxAbs maxRel : α)
  (mismatch relCounted total nonfinite : ℕ)
  worst : Place α

def ElemAcc.init : ElemAcc α :=
  { maxAbs := litD 0, maxRel := litD 0
    mismatch := 0, relCounted := 0, total := 0, nonfinite := 0
    worst := ⟨-1, -1, -1, -1, litF 0, litF 0⟩ }

/-- `abs_err`, before it is replaced. -/
def rawErr (oRef oKern : α) : α := fabsF (subF oRef oKern)

/-- `abs_err` -/
def absErr (oRef oKern : α) : α :=
  if isfinite (rawErr oRef oKern) then rawErr oRef oKern else infinity

/-- `rel` -/
def relErr (oRef oKern : α) : α := divF (absErr oRef oKern) (fabsF oRef)

/-- Whether the relative error counts. -/
def relCounts (oRef : α) : Bool := le relFloor (fabsF oRef)

def checkElem (row : Row) (d : ℕ) (oRef oKern : α) (t : ElemAcc α) : ElemAcc α :=
  let absErr := absErr oRef oKern
  let rel := relErr oRef oKern
  { maxAbs := if lt t.maxAbs absErr then absErr else t.maxAbs
    maxRel := if relCounts oRef && lt t.maxRel rel then rel else t.maxRel
    mismatch := if lt tolAbs absErr then t.mismatch + 1 else t.mismatch
    relCounted := if relCounts oRef then t.relCounted + 1 else t.relCounted
    total := t.total + 1
    nonfinite := if isfinite (rawErr oRef oKern) then t.nonfinite else t.nonfinite + 1
    worst := if lt t.maxAbs absErr then ⟨row.b, row.hq, row.i, d, oRef, oKern⟩ else t.worst }

/-! ### One row -/

/-- `dot_rk`, `norm_r` and `norm_k`. -/
structure Dots (α : Type*) where
  (dotRk normR normK : α)

def Dots.init : Dots α := ⟨litD 0, litD 0, litD 0⟩

def Dots.add (s : Dots α) (oRef oKern : α) : Dots α :=
  ⟨addD s.dotRk (mulD oRef oKern), addD s.normR (mulD oRef oRef), addD s.normK (mulD oKern oKern)⟩

/-- `denom` -/
def Dots.denom (s : Dots α) : α := mulD (sqrtD s.normR) (sqrtD s.normK)

/-- `cs` -/
def Dots.cosine (s : Dots α) : α := divD s.dotRk s.denom

/-- Whether the row has a cosine. -/
def Dots.counts (s : Dots α) : Bool := lt (litD 0) s.denom

/-- What a thread carries of the rows' cosines. -/
structure CosAcc (α : Type*) where
  sumCos : α
  (cosRows cosFail : ℕ)
  cosWorst : α
  worst : Row

def CosAcc.init : CosAcc α :=
  { sumCos := litD 0, cosRows := 0, cosFail := 0, cosWorst := litD 1, worst := ⟨-1, -1, -1⟩ }

def checkCos (row : Row) (s : Dots α) (t : CosAcc α) : CosAcc α :=
  if s.counts then
    { sumCos := addD t.sumCos s.cosine
      cosRows := t.cosRows + 1
      cosFail := if lt s.cosine tolCos then t.cosFail + 1 else t.cosFail
      cosWorst := if lt s.cosine t.cosWorst then s.cosine else t.cosWorst
      worst := if lt s.cosine t.cosWorst then row else t.worst }
  else t

/-- The accumulators of a thread, and those that the threads are merged into. -/
structure Acc (α : Type*) where
  elems : ElemAcc α
  cos : CosAcc α

def Acc.init : Acc α := ⟨ElemAcc.init, CosAcc.init⟩

/-- One row of `n` columns. -/
def checkRow (n : ℕ) (ref kern : Row → ℕ → α) (t : Acc α) (row : Row) : Acc α :=
  let s := (List.range n).foldl (fun s d => (s.1.add (ref row d) (kern row d),
    checkElem row d (ref row d) (kern row d) s.2)) (Dots.init, t.elems)
  { elems := s.2
    cos := checkCos row s.1 t.cos }

/-! ### The threads -/

/-- The critical section: what thread `t` leaves in the shared accumulators `g`. -/
def ElemAcc.merge (g t : ElemAcc α) : ElemAcc α :=
  { maxAbs := if lt g.maxAbs t.maxAbs then t.maxAbs else g.maxAbs
    maxRel := if lt g.maxRel t.maxRel then t.maxRel else g.maxRel
    mismatch := g.mismatch + t.mismatch
    relCounted := g.relCounted + t.relCounted
    total := g.total + t.total
    nonfinite := g.nonfinite + t.nonfinite
    worst := if lt g.maxAbs t.maxAbs then t.worst else g.worst }

def CosAcc.merge (g t : CosAcc α) : CosAcc α :=
  { sumCos := addD g.sumCos t.sumCos
    cosRows := g.cosRows + t.cosRows
    cosFail := g.cosFail + t.cosFail
    cosWorst := if lt t.cosWorst g.cosWorst then t.cosWorst else g.cosWorst
    worst := if lt t.cosWorst g.cosWorst then t.worst else g.worst }

def Acc.merge (g t : Acc α) : Acc α := ⟨g.elems.merge t.elems, g.cos.merge t.cos⟩

/-- What a thread has accumulated when it is through with its rows. -/
def runThread (n : ℕ) (ref kern : Row → ℕ → α) (rows : List Row) : Acc α :=
  rows.foldl (checkRow n ref kern) Acc.init

/-- The parallel region. -/
def runThreads (n : ℕ) (ref kern : Row → ℕ → α) (threads : List (List Row)) : Acc α :=
  threads.foldl (fun g rows => g.merge (runThread n ref kern rows)) Acc.init

/-! ### The verdict -/

structure CpuRefResult (α : Type*) where
  pass : Bool
  (maxAbs maxRel minCos meanCos : α)
  (mismatch nonfinite totalElems cosFail cosRows : ℕ)
  (worstB worstH worstI worstD : ℤ)
  (worstRef worstKern : α)
  (cosWb cosWh cosWi : ℤ)

def Acc.result (g : Acc α) : CpuRefResult α :=
  let relFail := 0 < g.elems.relCounted && lt tolRel g.elems.maxRel
  { pass := g.elems.mismatch == 0 && g.elems.nonfinite == 0 && g.cos.cosFail == 0 && !relFail
    maxAbs := g.elems.maxAbs
    maxRel := g.elems.maxRel
    minCos := g.cos.cosWorst
    meanCos := if 0 < g.cos.cosRows then divD g.cos.sumCos (litD g.cos.cosRows) else litD 0
    mismatch := g.elems.mismatch
    nonfinite := g.elems.nonfinite
    totalElems := g.elems.total
    cosFail := g.cos.cosFail
    cosRows := g.cos.cosRows
    worstB := g.elems.worst.b, worstH := g.elems.worst.h
    worstI := g.elems.worst.i, worstD := g.elems.worst.d
    worstRef := g.elems.worst.ref, worstKern := g.elems.worst.kern
    cosWb := g.cos.worst.b, cosWh := g.cos.worst.hq, cosWi := g.cos.worst.i }

/-- The rows in the order of the loops. -/
def rows (p : FmhaParams) : List Row :=
  (List.range p.batch.toNat).flatMap fun b : ℕ =>
    (List.range p.qHeads.toNat).flatMap fun hq : ℕ =>
      (List.range (CpuRef.getSq p b).toNat).map fun i : ℕ => ⟨b, hq, i⟩

/-- `o_kern` -/
def oKern {β : Type*} (toFloat : β → α) (p : FmhaParams) (hO : Mem β) (row : Row) (d : ℕ) : α :=
  toFloat (hO (toSizeT (CpuRef.oOff p row.b row.hq row.i + d)))

/-- `cpu_ref_verify` -/
def cpuRefVerify {β : Type*} (toFloat : β → α) (p : FmhaParams) (oRef : Row → ℕ → α) (hO : Mem β)
    (threads : List (List Row)) : CpuRefResult α :=
  (runThreads p.headDim.toNat oRef (oKern toFloat p hO) threads).result

end Verify

/-! ### IEEE arithmetic -/

open XReal Ieee

/-- What a `float` holds: a special value, or a number in its range. -/
def FloatVal : Type := {x : XReal // ∀ r, x = fin r → |r| < 2 ^ binary32.emax}

/-- `fabsf` -/
noncomputable def fabs : XReal → XReal
  | nan => nan
  | inf _ => inf false
  | fin r => fin |r|

def isFinite : XReal → Bool
  | fin _ => true
  | _ => false

open Classical in
/-- The exact result, rounded. -/
noncomputable instance : HostFp XReal where
  litF q := binary32.round (fin q)
  litD q := binary64.round (fin q)
  infinity := inf false
  subF x y := binary32.round (Fp.sub x y)
  divF x y := binary32.round (x * recip y)
  fabsF := fabs
  isfinite := isFinite
  addD x y := binary64.round (x + y)
  mulD x y := binary64.round (x * y)
  divD x y := binary64.round (x * recip y)
  sqrtD x := binary64.round (sqrt x)
  lt x y := decide (XReal.lt x y)
  le x y := decide (XReal.lt x y ∨ x = y ∧ x ≠ nan)

/-- `bf16_to_float`: one sign bit, eight of exponent and seven of fraction. -/
noncomputable def bf16ToFloat (u : BitVec 16) : XReal :=
  let exponent := (u.extractLsb' 7 8).toNat
  let fraction := (u.extractLsb' 0 7).toNat
  if exponent = 255 then if fraction = 0 then inf u.msb else nan
  else
    let magnitude : ℝ := if exponent = 0 then fraction * 2 ^ (-133 : ℤ)
      else (128 + fraction : ℕ) * 2 ^ (exponent - 134 : ℤ)
    fin (if u.msb then -magnitude else magnitude)

end FmhaNative.CpuVerify
