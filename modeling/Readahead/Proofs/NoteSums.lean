import Readahead.Proofs.StorageBounds

/-! The notes of a scanner that is only asked, added up. The refills brought what was consumed and
what is in the window, and each tells what the window held when it read. The passes decoded what was
consumed and what is in stock, each scalar once, unless bytes that are no text were taken, which
gives the stock up. -/
namespace Readahead

namespace Note

def brought : Note → Nat
  | .refilled brought _ => brought
  | _ => 0

def count : Note → Nat
  | .decoded count _ => count
  | _ => 0

def span : Note → Nat
  | .decoded _ bytes => bytes
  | _ => 0

def total (tell : Note → Nat) : List Note → Nat
  | [] => 0
  | note :: notes => tell note + total tell notes

end Note

namespace Lookahead

end Lookahead

namespace Mounted

variable {m k j : Mounted} {stock left : Stock} {events first later : List Event}

end Mounted

namespace Mounted

variable {m k : Mounted} {stock : Stock} {events before after : List Event} {brought waiting : Nat}

end Mounted

namespace Mounted

variable {m k : Mounted} {events before after : List Event} {brought waiting : Nat}

end Mounted

namespace Session

variable {m : Mounted} {stock : Stock} {requests : List Request}

end Session
end Readahead
