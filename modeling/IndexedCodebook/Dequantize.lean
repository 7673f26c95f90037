import IndexedCodebook.Gather

/-!
# Dequantization

A dequantization checks its inputs, then gathers. The three forms differ only in what they write for
an entry: the entry itself, the entry times the scale of its group, or the entry rounded to
bfloat16. All checks come first, so the outcome is the whole output or a fault.

Source: `quant/codebook` 114–212; `SPEC_FULL` §4.2.
-/

namespace IndexedCodebook

namespace Addressing

/-- The addresses are fine; that a dequantization begins is noted. `check_inputs`, `quant/codebook`
114–130. -/
def begin (a : Addressing) (indices : Indices) (entries : Nat) : Traced Shape := do
  let shape ← a.accept indices entries
  .emit (.dequantizing shape.elements shape.groups shape.entries a.groupSize.toNat
    a.colCardinality.toNat)
  return shape

/-- There is one scale per group. -/
def checkScales (scales groups : Nat) : Except Fault Unit :=
  if scales = groups then .ok () else .error (.shape (.scaleCount scales groups))

/-- Each position holds the codebook entry that its indices reach. `quant/codebook` 141–158. -/
def dequantize (a : Addressing) (indices : Indices) (codebook : Array Single) :
    Traced (Array Single) := do
  let _ ← a.begin indices codebook.size
  .ofResult (indices.gather (.entry codebook) a.groupSize.toNat a.colCardinality
    (Word.zero false))

/-- Each position holds the codebook entry that its indices reach, times the scale of its group.
`dequantize_scaled`, `quant/codebook` 164–192. -/
def dequantizeWithScales (a : Addressing) (indices : Indices) (codebook scales : Array Single) :
    Traced (Array Single) := do
  let shape ← a.begin indices codebook.size
  .ofResult (checkScales scales.size shape.groups)
  .ofResult (indices.gather (.scaled codebook scales) a.groupSize.toNat a.colCardinality
    (Word.zero false))

/-- Each position holds the codebook entry that its indices reach, rounded to bfloat16.
`dequantize_bf16`, `quant/codebook` 195–212. -/
def dequantizeBFloat (a : Addressing) (indices : Indices) (codebook : Array Single) :
    Traced (Array BFloat) := do
  let _ ← a.begin indices codebook.size
  .ofResult (indices.gather (.bfloat codebook) a.groupSize.toNat a.colCardinality
    (Word.zero false))

end Addressing

end IndexedCodebook
