import IndexedCodebook.Dequantize
import IndexedCodebook.Tensor.Cast

/-!
# Dequantizing tensors

The tensor forms read their arguments in a fixed order, dequantize their flattened elements and give
the result the shape of the column indices. The first argument that cannot be read decides the
fault.

Source: `quant/cpu/codebook` 12–48 and `quant/traits/codebook` 10–50; `SPEC_FULL` §4.4.
-/

namespace IndexedCodebook

namespace Addressing

/-- Dequantize tensors into a tensor of the target type. `codebook_dequant`, `quant/cpu/codebook`
13–28. -/
def dequantizeTensor (a : Addressing) (rows cols codebook : Tensor) (target : ElementType) :
    Traced Tensor := do
  let target ← .ofResult (Target.ofType target)
  let rowValues ← .ofResult (rows.indices .rows)
  let colValues ← .ofResult (cols.indices .cols)
  let entries ← .ofResult (codebook.values .codebook)
  let output ← a.dequantize ⟨rowValues, colValues⟩ entries
  return .ofElements (target.cast output) cols.shape

/-- Dequantize tensors, with a scale for each group, into a tensor of the target type.
`codebook_dequant_scaled`, `quant/cpu/codebook` 30–47. -/
def dequantizeTensorWithScales (a : Addressing) (rows cols codebook scales : Tensor)
    (target : ElementType) : Traced Tensor := do
  let target ← .ofResult (Target.ofType target)
  let rowValues ← .ofResult (rows.indices .rows)
  let colValues ← .ofResult (cols.indices .cols)
  let entries ← .ofResult (codebook.values .codebook)
  let factors ← .ofResult (scales.values .scales)
  let output ← a.dequantizeWithScales ⟨rowValues, colValues⟩ entries factors
  return .ofElements (target.cast output) cols.shape

end Addressing

end IndexedCodebook
