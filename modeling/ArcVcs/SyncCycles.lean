import ArcVcs.Collapse
import ArcVcs.Persistence

/-!
# Cycles in a payload

`post_sync` compares how many changes its worklist has processed with how many the payload lists.
The store refuses the first change that the worklist takes, so the comparison is reached with
nothing processed: when every change of the payload waits for another one. There is a cycle then.
-/

namespace ArcVcs

namespace DeltaPayload

end DeltaPayload

/-! ## The changes that the worklist starts with -/

namespace Wiring

end Wiring

/-! ## What the request answers -/

section Request

variable {σ : Type} [Crypto] [Serde] {write : σ → Change → Except Unit σ} {app : AppState}
  {payload : DeltaPayload} {disk disk' : ServerDisk σ}

variable [Ed25519]

end Request

end ArcVcs
