import RagPipeline.Extraction.Sequence

/-! # Where the highlights point

The places of the disagreements are places of the reconciled rows, and the table
that is published may be a stamped one. The serial column is looked for in the
published rows themselves. -/

set_option autoImplicit false

namespace RagPipeline.Extraction

section
variable {U : Unicode} {ratio : List Char → List Char → ℚ} {primary secondary : Reading}
  {templates : List Template} {table sheet : Sheet}

/-! ## Cells that disagree -/

end

/-! ## What the result shows -/

end RagPipeline.Extraction
